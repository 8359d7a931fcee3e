import DirtyCode.Lib.Machine
import DirtyCode.LogCollect.Buffer
import DirtyCode.LogCollect.DiskThread

/-!
One session shared by its network thread and the disk thread. A `pass2write`
call is one step here; `Handoff` takes it apart.
-/

namespace DirtyCode.LogCollect

open Lib

inductive NetPc
  | live
  | closing -- `free_session_step1` has run
  | locking -- `free_session_step2` saw buffered bytes, its section is next
  | marking -- `in_delete_stage = 20` is next
  | done
  deriving DecidableEq, Repr

structure System where
  core : Core
  ticks : Nat
  net : NetPc
  accepted : List UInt8 -- what `pass2write` was given so far

inductive Action
  | tick
  | disk (written : Nat)
  | drain (calloc : Nat → Bool) (buf : Memory) (len : Nat)
  | close

def drainClient (calloc : Nat → Bool) (buf : Memory) (len : Nat) (system : System) :
    Option System :=
  let session := system.core.session
  if 0 ≤ session.slotIdx ∧ session.bufFullStuck = false ∧ 1 ≤ len ∧
      len ≤ session.netReadBufLen then
    let received := { session with networkBytes := session.networkBytes + len }
    (pass2write system.ticks calloc received buf len).map fun session =>
      { system with
        core := { system.core with session := session }
        accepted := system.accepted ++ buf.slice 0 len }
  else none

-- the next step of `free_session_step1` and `free_session_step2`
def closeStep (system : System) : Option System :=
  let core := system.core
  match system.net with
  | .live => some { system with core := freeSessionStep1 core, net := .closing }
  | .closing => some { system with net := if needsDelay core.session then .locking else .marking }
  | .locking => some { system with
      core := { core with session := delayFree core.session }, net := .marking }
  | .marking => some { system with
      core := { core with session := { core.session with inDeleteStage := 20 } }, net := .done }
  | .done => none

def System.step (system : System) : Action → Option System
  | .tick => some { system with ticks := system.ticks + 1 }
  | .disk written => (diskStep 0 system.ticks written system.core).map fun core =>
      { system with core := core }
  | .drain calloc buf len =>
      if system.net = .live then drainClient calloc buf len system else none
  | .close => closeStep system

def startSystem (ip : Int) (slotIdx ticks networkBytes : Nat) : System where
  core := startCore ip slotIdx ticks networkBytes
  ticks := ticks
  net := .live
  accepted := []

def machine : Machine System Action where
  init system := ∃ ip slotIdx ticks networkBytes,
    system = startSystem ip slotIdx ticks networkBytes
  step := System.step

/-- A read of `len` bytes happens on a live session that is not stuck, and then
ends as `pass2write` does. -/
theorem drain_iff {system after : System} {calloc : Nat → Bool} {buf : Memory} {len : Nat} :
    system.step (.drain calloc buf len) = some after ↔
      system.net = .live ∧ 0 ≤ system.core.session.slotIdx ∧
      system.core.session.bufFullStuck = false ∧ 1 ≤ len ∧
      len ≤ system.core.session.netReadBufLen ∧
      ∃ session, Pass2written system.ticks calloc buf len
          { system.core.session with
            networkBytes := system.core.session.networkBytes + len } session ∧
        after = { system with
          core := { system.core with session := session }
          accepted := system.accepted ++ buf.slice 0 len } := by
  simp only [System.step, drainClient]
  constructor
  · intro stepped
    split at stepped
    · rename_i live
      split at stepped
      · rename_i ready
        obtain ⟨slot, unstuck, nonempty, bounded⟩ := ready
        obtain ⟨session, ran, rfl⟩ := Option.map_eq_some_iff.mp stepped
        exact ⟨live, slot, unstuck, nonempty, bounded, session, (pass2write_iff nonempty).mp ran,
          rfl⟩
      · contradiction
    · contradiction
  · rintro ⟨live, slot, unstuck, nonempty, bounded, session, written, rfl⟩
    rw [if_pos live, if_pos ⟨slot, unstuck, nonempty, bounded⟩,
      (pass2write_iff nonempty).mpr written, Option.map_some]

end DirtyCode.LogCollect
