import DirtyCode.ConfServer.ParseInput
import DirtyCode.Lib.Machine

/-!
How `get_input_thread` hands a segment to `scan_for_reply_thread`: the two shared
words `global_input_buf_bytes_got` and `consume_not_done`.
-/

namespace DirtyCode.ConfServer

open Lib

/-- The configuration, with what `main` makes of the option `-n`. -/
structure Setup extends Config where
  positive : 0 < nWorkers
  bounded : nWorkers ≤ nrMaxThreads

inductive InputPc
  | read
  | store (rc : Nat)
  | announce
  | wait
  deriving DecidableEq

inductive ScanPc
  | total
  | test (total : Nat)
  | parse (total : Nat)
  | pass (needAckInputThread : Bool)
  deriving DecidableEq

inductive Event
  | read (rc : Nat)
  | announced
  | parsed (total : Nat)
  | acknowledged
  deriving DecidableEq

structure Handshake where
  bytesGot : Nat
  consumeNotDone : Nat
  input : InputPc
  scan : ScanPc
  log : List Event

inductive HandshakeStep
  | inputRead (rc : Nat)
  | inputEof -- and the `accept` of the next connection
  | inputStore
  | inputAnnounce
  | inputWait
  | scanTotal
  | scanTest
  | scanParse
  | scanPass
  deriving DecidableEq

def Handshake.record (shared : Handshake) (event : Event) : Handshake :=
  { shared with log := shared.log ++ [event] }

def Handshake.step (nWorkers : Nat) (shared : Handshake) : HandshakeStep → Option Handshake
  | .inputRead rc =>
      if shared.input = .read ∧ 0 < rc ∧ rc ≤ inputBufSize then
        some { shared.record (.read rc) with input := .store rc }
      else none
  | .inputEof => if shared.input = .read then some shared else none
  | .inputStore =>
      match shared.input with
      | .store rc => some { shared with bytesGot := rc, input := .announce }
      | _ => none
  | .inputAnnounce =>
      if shared.input = .announce then
        some { shared.record .announced with consumeNotDone := nWorkers, input := .wait }
      else none
  | .inputWait =>
      if shared.input = .wait then
        some (if shared.consumeNotDone ≠ 0 then shared else { shared with input := .read })
      else none
  | .scanTotal =>
      if shared.scan = .total then some { shared with scan := .test shared.bytesGot } else none
  | .scanTest =>
      match shared.scan with
      | .test total =>
          some { shared with
            scan := if shared.consumeNotDone = 0 then .pass false else .parse total }
      | _ => none
  | .scanParse =>
      match shared.scan with
      | .parse total => some { shared.record (.parsed total) with scan := .pass true }
      | _ => none
  | .scanPass =>
      match shared.scan with
      | .pass needAckInputThread =>
          some (if needAckInputThread then
            { shared.record .acknowledged with consumeNotDone := 0, scan := .total }
          else { shared with scan := .total })
      | _ => none

def startHandshake : Handshake where
  bytesGot := 0
  consumeNotDone := 0
  input := .read
  scan := .total
  log := []

def handshakeMachine (nWorkers : Nat) : Machine Handshake HandshakeStep where
  init shared := shared = startHandshake
  step := Handshake.step nWorkers

def handled (rc : Nat) : List Event := [.read rc, .announced, .parsed rc, .acknowledged]

/-- One segment after the other is read, announced, parsed once over its own length
and only then acknowledged. -/
def Served (log : List Event) : Prop := ∃ segments : List Nat, log <+: segments.flatMap handled

/-- The parse runs over the length of the announced segment. -/
def ReadsCurrent (shared : Handshake) : HandshakeStep → Prop
  | .scanParse => shared.scan = .parse shared.bytesGot
  | _ => True

inductive Handshake.Moved (nWorkers : Nat) (shared : Handshake) :
    HandshakeStep → Handshake → Prop
  | read {rc} (pc : shared.input = .read) : Moved nWorkers shared (.inputRead rc)
      { shared.record (.read rc) with input := .store rc }
  | eof (pc : shared.input = .read) : Moved nWorkers shared .inputEof shared
  | store {rc} (pc : shared.input = .store rc) : Moved nWorkers shared .inputStore
      { shared with bytesGot := rc, input := .announce }
  | announce (pc : shared.input = .announce) : Moved nWorkers shared .inputAnnounce
      { shared.record .announced with consumeNotDone := nWorkers, input := .wait }
  | wait (pc : shared.input = .wait) (set : shared.consumeNotDone ≠ 0) :
      Moved nWorkers shared .inputWait shared
  | resume (pc : shared.input = .wait) (clear : shared.consumeNotDone = 0) :
      Moved nWorkers shared .inputWait { shared with input := .read }
  | total (pc : shared.scan = .total) : Moved nWorkers shared .scanTotal
      { shared with scan := .test shared.bytesGot }
  | idle {total} (pc : shared.scan = .test total) (clear : shared.consumeNotDone = 0) :
      Moved nWorkers shared .scanTest { shared with scan := .pass false }
  | accept {total} (pc : shared.scan = .test total) (set : shared.consumeNotDone ≠ 0) :
      Moved nWorkers shared .scanTest { shared with scan := .parse total }
  | parse {total} (pc : shared.scan = .parse total) : Moved nWorkers shared .scanParse
      { shared.record (.parsed total) with scan := .pass true }
  | acknowledge (pc : shared.scan = .pass true) : Moved nWorkers shared .scanPass
      { shared.record .acknowledged with consumeNotDone := 0, scan := .total }
  | unasked (pc : shared.scan = .pass false) : Moved nWorkers shared .scanPass
      { shared with scan := .total }

theorem Handshake.step_cases {nWorkers : Nat} {shared after : Handshake} {label : HandshakeStep}
    (stepped : shared.step nWorkers label = some after) : shared.Moved nWorkers label after := by
  cases label with
  | inputRead rc =>
      simp only [step] at stepped
      split at stepped
      · rename_i ready
        obtain rfl := Option.some.inj stepped
        exact .read ready.1
      · contradiction
  | inputEof =>
      simp only [step] at stepped
      split at stepped
      · rename_i pc
        obtain rfl := Option.some.inj stepped
        exact .eof pc
      · contradiction
  | inputStore =>
      simp only [step] at stepped
      split at stepped
      · rename_i pc
        obtain rfl := Option.some.inj stepped
        exact .store pc
      · contradiction
  | inputAnnounce =>
      simp only [step] at stepped
      split at stepped
      · rename_i pc
        obtain rfl := Option.some.inj stepped
        exact .announce pc
      · contradiction
  | inputWait =>
      simp only [step] at stepped
      split at stepped
      · rename_i pc
        obtain rfl := Option.some.inj stepped
        by_cases set : shared.consumeNotDone ≠ 0
        · rw [if_pos set]
          exact .wait pc set
        · rw [if_neg set]
          exact .resume pc (not_not.mp set)
      · contradiction
  | scanTotal =>
      simp only [step] at stepped
      split at stepped
      · rename_i pc
        obtain rfl := Option.some.inj stepped
        exact .total pc
      · contradiction
  | scanTest =>
      simp only [step] at stepped
      split at stepped
      · rename_i pc
        obtain rfl := Option.some.inj stepped
        by_cases clear : shared.consumeNotDone = 0
        · rw [if_pos clear]
          exact .idle pc clear
        · rw [if_neg clear]
          exact .accept pc clear
      · contradiction
  | scanParse =>
      simp only [step] at stepped
      split at stepped
      · rename_i pc
        obtain rfl := Option.some.inj stepped
        exact .parse pc
      · contradiction
  | scanPass =>
      simp only [step] at stepped
      split at stepped
      · rename_i needAckInputThread pc
        obtain rfl := Option.some.inj stepped
        cases needAckInputThread with
        | true => exact .acknowledge pc
        | false => exact .unasked pc
      · contradiction

def ScanPc.busy : ScanPc → Bool
  | .parse _ => true
  | .pass needAckInputThread => needAckInputThread
  | _ => false

/-- While a segment is under way the input thread waits. -/
structure Handshake.Guarded (shared : Handshake) : Prop where
  busy : shared.scan.busy = true → shared.consumeNotDone ≠ 0
  waiting : shared.consumeNotDone ≠ 0 → shared.input = .wait

theorem guarded_start : startHandshake.Guarded := by
  constructor
  · intro busy
    contradiction
  · intro set
    contradiction

theorem Handshake.Guarded.step {nWorkers : Nat} {shared after : Handshake}
    {label : HandshakeStep} (guarded : shared.Guarded)
    (moved : shared.Moved nWorkers label after) (positive : 0 < nWorkers) : after.Guarded := by
  have clear : shared.input ≠ .wait → shared.consumeNotDone = 0 := by
    intro awake
    by_contra set
    exact awake (guarded.waiting set)
  cases moved with
  | read pc => exact ⟨guarded.busy, fun set => absurd (clear (by simp [pc])) set⟩
  | eof pc => exact guarded
  | store pc => exact ⟨guarded.busy, fun set => absurd (clear (by simp [pc])) set⟩
  | announce pc => exact ⟨fun _ => positive.ne', fun _ => rfl⟩
  | wait pc set => exact guarded
  | resume pc unset => exact ⟨guarded.busy, fun set => absurd unset set⟩
  | total pc => exact ⟨fun impossible => absurd impossible Bool.false_ne_true, guarded.waiting⟩
  | idle pc unset => exact ⟨fun impossible => absurd impossible Bool.false_ne_true, guarded.waiting⟩
  | accept pc set => exact ⟨fun _ => set, guarded.waiting⟩
  | parse pc => exact ⟨fun _ => guarded.busy (by simp [pc, ScanPc.busy]), guarded.waiting⟩
  | acknowledge pc =>
      exact ⟨fun impossible => absurd impossible Bool.false_ne_true, fun set => absurd rfl set⟩
  | unasked pc =>
      exact ⟨fun impossible => absurd impossible Bool.false_ne_true, guarded.waiting⟩

/-- What has happened to the segment that is under way. -/
def Handshake.pending (shared : Handshake) : List Event :=
  match shared.input with
  | .read => []
  | .store rc => [.read rc]
  | .announce => [.read shared.bytesGot]
  | .wait =>
      if shared.consumeNotDone = 0 then []
      else if shared.scan = .pass true then
        [.read shared.bytesGot, .announced, .parsed shared.bytesGot]
      else [.read shared.bytesGot, .announced]

structure Handshake.Orderly (shared : Handshake) : Prop where
  guarded : shared.Guarded
  logged : ∃ segments : List Nat, shared.log = segments.flatMap handled ++ shared.pending

theorem orderly_start : startHandshake.Orderly := ⟨guarded_start, [], rfl⟩

theorem Handshake.pending_prefix (shared : Handshake) :
    ∃ rc, shared.pending <+: handled rc := by
  rw [pending]
  split
  · exact ⟨0, List.nil_prefix⟩
  · rename_i rc _
    exact ⟨rc, List.prefix_append [Event.read rc] _⟩
  · exact ⟨shared.bytesGot, List.prefix_append [Event.read shared.bytesGot] _⟩
  · refine ⟨shared.bytesGot, ?_⟩
    split
    · exact List.nil_prefix
    · split
      · exact List.prefix_append [Event.read shared.bytesGot, .announced, .parsed shared.bytesGot] _
      · exact List.prefix_append [Event.read shared.bytesGot, .announced] _

theorem Handshake.Orderly.served {shared : Handshake} (orderly : shared.Orderly) :
    Served shared.log := by
  obtain ⟨segments, logged⟩ := orderly.logged
  obtain ⟨rc, rest, whole⟩ := shared.pending_prefix
  refine ⟨segments ++ [rc], rest, ?_⟩
  rw [logged, List.append_assoc, whole]
  simp

theorem served_append (segments : List Nat) {tail : List Event}
    (served : Served (segments.flatMap handled ++ tail)) : Served tail := by
  induction segments with
  | nil => exact served
  | cons rc rest ih =>
      apply ih
      obtain ⟨others, begins⟩ := served
      cases others with
      | nil => simp [handled] at begins
      | cons other others =>
          rw [List.flatMap_cons, List.flatMap_cons, List.append_assoc] at begins
          obtain ⟨more, equal⟩ := begins
          rw [List.append_assoc, List.append_assoc] at equal
          have left := List.append_inj_right equal rfl
          exact ⟨others, more, by rw [List.append_assoc, left]⟩

theorem served_parsed_iff {rc total : Nat} :
    Served [.read rc, .announced, .parsed total] ↔ total = rc := by
  constructor
  · rintro ⟨segments, begins⟩
    cases segments with
    | nil => simp at begins
    | cons other others =>
        simp only [List.flatMap_cons, handled, List.cons_append, List.cons_prefix_cons,
          Event.read.injEq, Event.parsed.injEq] at begins
        rw [begins.2.2.1, begins.1]
  · rintro rfl
    exact ⟨[total], [.acknowledged], rfl⟩

section Step

variable {nWorkers : Nat} {shared after : Handshake} {label : HandshakeStep}

theorem pending_busy (guarded : shared.Guarded) {total : Nat} (pc : shared.scan = .parse total) :
    shared.pending = [.read shared.bytesGot, .announced] := by
  have set := guarded.busy (by simp [pc, ScanPc.busy])
  simp [Handshake.pending, guarded.waiting set, set, pc]

/-- A step that is no parse, or a parse over the right length, goes on with the
segment under way or begins one. -/
theorem Handshake.Orderly.step (orderly : shared.Orderly) (positive : 0 < nWorkers)
    (current : ReadsCurrent shared label) (moved : shared.Moved nWorkers label after) :
    after.Orderly := by
  refine ⟨orderly.guarded.step moved positive, ?_⟩
  have guarded := orderly.guarded
  obtain ⟨segments, logged⟩ := orderly.logged
  cases moved with
  | read pc => exact ⟨segments, by simp [record, logged, pending, pc]⟩
  | eof pc => exact ⟨segments, logged⟩
  | store pc => exact ⟨segments, by simp [logged, pending, pc]⟩
  | announce pc =>
      have idle : shared.scan ≠ .pass true := by
        intro parsed
        have set := guarded.busy (by simp [parsed, ScanPc.busy])
        have waiting := guarded.waiting set
        rw [pc] at waiting
        contradiction
      exact ⟨segments, by simp [record, logged, pending, pc, positive.ne', idle]⟩
  | wait pc set => exact ⟨segments, logged⟩
  | resume pc clear => exact ⟨segments, by simp [logged, pending, pc, clear]⟩
  | total pc => exact ⟨segments, by simp [logged, pending, pc]⟩
  | idle pc clear => exact ⟨segments, by simp [logged, pending, pc]⟩
  | accept pc set => exact ⟨segments, by simp [logged, pending, pc]⟩
  | @parse total pc =>
      have set := guarded.busy (by simp [pc, ScanPc.busy])
      have same : total = shared.bytesGot := by
        have reads : shared.scan = .parse shared.bytesGot := current
        rw [pc] at reads
        exact ScanPc.parse.inj reads
      refine ⟨segments, ?_⟩
      rw [record, logged, pending_busy guarded pc, List.append_assoc, same]
      simp [pending, guarded.waiting set, set]
  | acknowledge pc =>
      have set := guarded.busy (by simp [pc, ScanPc.busy])
      have waiting := guarded.waiting set
      refine ⟨segments ++ [shared.bytesGot], ?_⟩
      simp [record, logged, pending, waiting, set, pc, handled]
  | unasked pc => exact ⟨segments, by simp [logged, pending, pc]⟩

theorem served_step_iff (orderly : shared.Orderly) (positive : 0 < nWorkers)
    (moved : shared.Moved nWorkers label after) :
    Served after.log ↔ ReadsCurrent shared label := by
  constructor
  · intro served
    cases moved with
    | @parse total pc =>
        obtain ⟨segments, logged⟩ := orderly.logged
        have wrote : (shared.record (.parsed total)).log =
            segments.flatMap handled ++ [.read shared.bytesGot, .announced, .parsed total] := by
          rw [Handshake.record, logged, pending_busy orderly.guarded pc, List.append_assoc]
          rfl
        have tail : Served [.read shared.bytesGot, .announced, .parsed total] := by
          apply served_append segments
          rw [← wrote]
          exact served
        rw [ReadsCurrent, pc, served_parsed_iff.mp tail]
    | _ => trivial
  · intro current
    exact (orderly.step positive current moved).served

end Step

/-- In every interleaving each announced segment is parsed once, over its own length
and before its acknowledgement, exactly when no parse runs over a length that was
read before the segment's own was stored. -/
theorem segments_served_iff (cfg : Setup) (labels : List HandshakeStep) :
    (handshakeMachine cfg.nWorkers).Along (fun _ _ after => Served after.log) startHandshake
        labels ↔
      (handshakeMachine cfg.nWorkers).Along (fun shared label _ => ReadsCurrent shared label)
        startHandshake labels := by
  refine Machine.along_iff Handshake.Orderly ?_ ?_ orderly_start labels
  · intro shared label after orderly stepped
    exact served_step_iff orderly cfg.positive (Handshake.step_cases stepped)
  · intro shared label after orderly current stepped
    exact orderly.step cfg.positive current (Handshake.step_cases stepped)

/-- The scan thread reads the length before the first segment of five bytes comes,
and tests the flag behind its announcement. -/
def staleTotal : List HandshakeStep :=
  [.scanTotal, .inputRead 5, .inputStore, .inputAnnounce, .scanTest, .scanParse, .scanPass]

theorem announced_segment_dropped :
    ∃ final, (handshakeMachine 1).run startHandshake staleTotal = some final ∧
      final.log = [.read 5, .announced, .parsed 0, .acknowledged] ∧ ¬Served final.log := by
  have ran : ((handshakeMachine 1).run startHandshake staleTotal).map Handshake.log =
      some [.read 5, .announced, .parsed 0, .acknowledged] := rfl
  obtain ⟨final, ended, logged⟩ := Option.map_eq_some_iff.mp ran
  refine ⟨final, ended, logged, ?_⟩
  rintro ⟨segments, begins⟩
  rw [logged] at begins
  have shorter : [Event.read 5, .announced, .parsed 0] <+:
      [.read 5, .announced, .parsed 0, .acknowledged] := ⟨[.acknowledged], rfl⟩
  have parsed : Served [.read 5, .announced, .parsed 0] := ⟨segments, shorter.trans begins⟩
  exact absurd (served_parsed_iff.mp parsed) (by decide)

end DirtyCode.ConfServer
