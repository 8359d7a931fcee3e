import DirtyCode.Lib.Machine

/-!
The request slots of `blkAio.c`: an `iocb` and a buffer each, prepared once and then
resubmitted for every completion. The slot number travels in the `data` field, which
`io_prep_pread` clears.
-/

namespace DirtyCode.BlkAio

open Lib

structure Iocb where
  data : Nat
  buf : Nat -- the index in `msg.buf`
  deriving DecidableEq, Repr

/-- `io_prep_pread` zeroes the `iocb` before it fills it. -/
def ioPrepPread (_ : Iocb) (buf : Nat) : Iocb where
  data := 0
  buf := buf

structure Request where
  slot : Nat
  iocb : Iocb
  deriving DecidableEq, Repr

structure Aio where
  io : Nat → Iocb
  inFlight : List Request
  events : List Request -- what `io_getevents` has returned and the loop not yet looked at
  got : Nat
  n : Nat

structure Options where
  depth : Nat
  ops : Nat

-- the slot number is stored first
def prepared (i : Nat) : Iocb := ioPrepPread { data := i, buf := 0 } i

def submitted (io : Nat → Iocb) (slot : Nat) : Request := ⟨slot, io slot⟩

def start (options : Options) : Aio :=
  let batch := min options.ops options.depth
  { io := prepared
    inFlight := (List.range batch).map (submitted prepared)
    events := []
    got := 0
    n := options.ops - batch }

inductive AioStep
  | getevents (completed : List Request)
  | handle

def Aio.resubmits (options : Options) (aio : Aio) : Prop := aio.got + 1 < options.ops ∧ 0 < aio.n

instance (options : Options) (aio : Aio) : Decidable (aio.resubmits options) :=
  inferInstanceAs (Decidable (_ ∧ _))

def handleEvent (options : Options) (aio : Aio) (event : Request) (rest : List Request) : Aio :=
  let j := event.iocb.data
  if options.ops ≤ aio.got + 1 then { aio with got := aio.got + 1, events := [] }
  else if aio.n ≤ 0 then { aio with got := aio.got + 1, events := rest }
  else
    let io := Function.update aio.io j (ioPrepPread (aio.io j) j)
    { io := io
      inFlight := submitted io j :: aio.inFlight
      events := rest
      got := aio.got + 1
      n := aio.n - 1 }

def Aio.step (options : Options) (aio : Aio) : AioStep → Option Aio
  | .getevents completed =>
      if aio.events = [] ∧ aio.got < options.ops ∧ completed ≠ [] ∧
          completed.length ≤ options.depth ∧ completed.Subperm aio.inFlight then
        some { aio with inFlight := aio.inFlight.diff completed, events := completed }
      else none
  | .handle =>
      match aio.events with
      | [] => none
      | event :: rest => some (handleEvent options aio event rest)

def machine (options : Options) : Machine Aio AioStep where
  init aio := aio = start options
  step := Aio.step options

/-- No `iocb` and no buffer is part of two requests in flight. -/
def Owned (aio : Aio) : Prop :=
  (aio.inFlight.map Request.slot).Nodup ∧ (aio.inFlight.map fun request => request.iocb.buf).Nodup

/-- A completion is answered, if at all, on its own slot. -/
def Right (aio : Aio) : AioStep → Aio → Prop
  | .getevents _, after => Owned after
  | .handle, after => Owned after ∧ ∀ event rest, aio.events = event :: rest →
      after.inFlight = aio.inFlight ∨
        ∃ request, after.inFlight = request :: aio.inFlight ∧ request.slot = event.slot

/-- The completions that are answered with another request are those of slot 0. -/
def AnswersFirst (options : Options) (aio : Aio) : AioStep → Prop
  | .getevents _ => True
  | .handle => ∀ event rest, aio.events = event :: rest → aio.resubmits options → event.slot = 0

structure Cleared (aio : Aio) : Prop where
  io : ∀ slot, aio.io slot = ⟨0, slot⟩
  requests : ∀ request ∈ aio.inFlight ++ aio.events, request.iocb = ⟨0, request.slot⟩
  apart : ((aio.inFlight ++ aio.events).map Request.slot).Nodup

theorem cleared_start (options : Options) : Cleared (start options) where
  io _ := rfl
  requests request member := by
    simp only [start, List.append_nil, List.mem_map] at member
    obtain ⟨slot, -, rfl⟩ := member
    rfl
  apart := by
    simp only [start, List.append_nil, List.map_map]
    exact (List.map_id _).symm ▸ List.nodup_range

theorem Cleared.owned {aio : Aio} (cleared : Cleared aio) : Owned aio := by
  have slots : (aio.inFlight.map Request.slot).Nodup := by
    have all := cleared.apart
    rw [List.map_append] at all
    exact (List.nodup_append.mp all).1
  refine ⟨slots, ?_⟩
  have same : aio.inFlight.map (fun request => request.iocb.buf) =
    aio.inFlight.map Request.slot := by
    apply List.map_congr_left
    intro request member
    rw [cleared.requests request (List.mem_append_left _ member)]
  rwa [same]

theorem Cleared.getevents {aio : Aio} {completed : List Request} (cleared : Cleared aio)
    (none : aio.events = []) (sub : completed.Subperm aio.inFlight) :
    Cleared { aio with inFlight := aio.inFlight.diff completed, events := completed } := by
  have split : (aio.inFlight.diff completed ++ completed).Perm aio.inFlight :=
    List.perm_append_comm.trans
      (List.subperm_append_diff_self_of_count_le (List.subperm_ext_iff.mp sub))
  have before := cleared.apart
  have requests := cleared.requests
  rw [none, List.append_nil] at before requests
  refine ⟨cleared.io, ?_, ?_⟩
  · exact fun request member => requests request (split.mem_iff.mp member)
  · exact (split.map Request.slot).nodup_iff.mpr before

section

variable {options : Options} {aio : Aio} {event : Request} {rest : List Request}

theorem Cleared.handle (cleared : Cleared aio) (here : aio.events = event :: rest)
    (first : aio.resubmits options → event.slot = 0) :
    Cleared (handleEvent options aio event rest) := by
  have requests := cleared.requests
  have apart := cleared.apart
  rw [here] at requests apart
  have fewer : (aio.inFlight ++ rest).Sublist (aio.inFlight ++ event :: rest) :=
    (List.sublist_cons_self event rest).append_left _
  unfold handleEvent
  split
  · refine ⟨cleared.io, ?_, ?_⟩
    · exact fun request member => requests request
        (List.mem_append_left _ (by simpa using member))
    · have kept := apart.sublist ((List.sublist_append_left _ (event :: rest)).map Request.slot)
      simpa using kept
  · rename_i more
    split
    · exact ⟨cleared.io, fun request member => requests request (fewer.subset member),
        apart.sublist (fewer.map Request.slot)⟩
    · rename_i left
      have zero := first ⟨by omega, by omega⟩
      have data : event.iocb.data = 0 := by
        rw [requests event (List.mem_append_right _ List.mem_cons_self)]
      have prepared_ : ∀ slot, Function.update aio.io event.iocb.data
          (ioPrepPread (aio.io event.iocb.data) event.iocb.data) slot = ⟨0, slot⟩ := by
        intro slot
        by_cases same : slot = event.iocb.data
        · rw [same, Function.update_self]
          rfl
        · rw [Function.update_of_ne same]
          exact cleared.io slot
      refine ⟨prepared_, ?_, ?_⟩
      · intro request member
        rcases List.mem_cons.mp member with rfl | member
        · exact prepared_ _
        · exact requests request (fewer.subset member)
      · -- the resubmitted slot is the one the event has given back
        have slot : (submitted (Function.update aio.io event.iocb.data
            (ioPrepPread (aio.io event.iocb.data) event.iocb.data)) event.iocb.data).slot =
              event.slot := by
          rw [zero]
          exact data
        have moved : (aio.inFlight ++ event :: rest).Perm (event :: (aio.inFlight ++ rest)) :=
          List.perm_middle
        have together := (moved.map Request.slot).nodup_iff.mp apart
        rw [List.cons_append, List.map_cons, slot]
        exact together

theorem handle_inFlight (cleared : Cleared aio) (here : aio.events = event :: rest)
    (again : aio.resubmits options) : ∃ request,
      (handleEvent options aio event rest).inFlight = request :: aio.inFlight ∧
        request.slot = 0 := by
  have data : event.iocb.data = 0 := by
    have member : event ∈ aio.inFlight ++ aio.events := by
      rw [here]
      exact List.mem_append_right _ List.mem_cons_self
    rw [cleared.requests event member]
  have more : ¬options.ops ≤ aio.got + 1 := Nat.not_le_of_lt again.1
  have left : ¬aio.n ≤ 0 := Nat.not_le_of_lt again.2
  unfold handleEvent
  rw [if_neg more, if_neg left]
  exact ⟨_, rfl, data⟩

theorem handle_kept (last : ¬aio.resubmits options) :
    (handleEvent options aio event rest).inFlight = aio.inFlight := by
  unfold handleEvent
  split
  · rfl
  · split
    · rfl
    · exact absurd ⟨by omega, by omega⟩ last

end

theorem step_right_iff {options : Options} {aio after : Aio} {label : AioStep}
    (cleared : Cleared aio) (stepped : (machine options).step aio label = some after) :
    (Right aio label after ↔ AnswersFirst options aio label) ∧
      (AnswersFirst options aio label → Cleared after) := by
  cases label with
  | getevents completed =>
      simp only [machine, Aio.step] at stepped
      split at stepped
      · rename_i allowed
        obtain rfl := Option.some.inj stepped
        have next := cleared.getevents allowed.1 allowed.2.2.2.2
        exact ⟨iff_of_true next.owned trivial, fun _ => next⟩
      · contradiction
  | handle =>
      simp only [machine, Aio.step] at stepped
      cases here : aio.events with
      | nil =>
          rw [here] at stepped
          contradiction
      | cons event rest =>
          rw [here] at stepped
          obtain rfl := Option.some.inj stepped
          have next : AnswersFirst options aio .handle →
            Cleared (handleEvent options aio event rest) :=
            fun answers => cleared.handle here (answers event rest here)
          refine ⟨⟨?_, ?_⟩, next⟩
          · intro right other others same again
            obtain ⟨rfl, rfl⟩ := List.cons.inj (here.symm.trans same)
            obtain ⟨request, queued, zero⟩ := handle_inFlight cleared here again
            rcases right.2 event rest here with kept | ⟨answer, sent, slot⟩
            · rw [kept] at queued
              exact absurd queued.symm (List.cons_ne_self _ _)
            · rw [sent] at queued
              rw [← slot, (List.cons.inj queued).1, zero]
          · intro answers
            refine ⟨(next answers).owned, ?_⟩
            intro other others same
            obtain ⟨rfl, rfl⟩ := List.cons.inj (here.symm.trans same)
            by_cases again : aio.resubmits options
            · obtain ⟨request, queued, zero⟩ := handle_inFlight cleared here again
              exact .inr ⟨request, queued, by rw [zero, answers event rest here again]⟩
            · exact .inl (handle_kept again)

/-- In every run the slots are owned and answered as they should exactly when every
completion that is answered at all is one of slot 0. -/
theorem slots_owned_iff (options : Options) (labels : List AioStep) :
    (machine options).Along Right (start options) labels ↔
      (machine options).Along (fun aio label _ => AnswersFirst options aio label) (start options)
        labels := by
  refine Machine.along_iff Cleared ?_ ?_ (cleared_start options) labels
  · intro aio label after cleared stepped
    exact (step_right_iff cleared stepped).1
  · intro aio label after cleared answers stepped
    exact (step_right_iff cleared stepped).2 answers

/-- Slot 1 completes, and slot 0 is submitted a second time. -/
theorem busy_slot_resubmitted :
    ¬(machine ⟨2, 4⟩).Along Right (start ⟨2, 4⟩) [.getevents [⟨1, ⟨0, 1⟩⟩], .handle] := by
  intro along
  have second := ((along _ rfl).2 _ rfl).1.1.1
  revert second
  decide

end DirtyCode.BlkAio
