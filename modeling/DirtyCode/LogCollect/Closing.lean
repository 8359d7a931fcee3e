import DirtyCode.LogCollect.Accounting

/-!
Closing a session. `free_session_step2` hands the current buffer to the disk
thread; what it does to a write that has already been claimed decides whether
the last bytes reach the disk.
-/

namespace DirtyCode.LogCollect

open Lib

def CompleteWrites (system : System) : Action → Prop
  | .disk written =>
      ∀ buf, system.core.disk = .write buf → written = system.core.session.diskWriteBufLen
  | _ => True

instance (system : System) (action : Action) : Decidable (CompleteWrites system action) :=
  match action with
  | .disk written => inferInstanceAs (Decidable (∀ buf, system.core.disk = .write buf →
      written = system.core.session.diskWriteBufLen))
  | .tick | .drain _ _ _ | .close => inferInstanceAs (Decidable True)

instance (system : System) (action : Action) : Decidable (Careful system action) :=
  match action with
  | .drain _ _ _ => inferInstanceAs (Decidable
      (2 * system.core.session.netReadBufLen ≤ system.core.session.memBufLen))
  | .disk written => inferInstanceAs (Decidable (∀ buf, system.core.disk = .write buf →
      written = system.core.session.diskWriteBufLen))
  | .close => inferInstanceAs (Decidable (system.net = .locking →
      system.core.disk.closable system.core.session.membufOffset))
  | .tick => inferInstanceAs (Decidable True)

/-- A session that is not handed over in the middle of a write is freed with
every accepted byte on disk. -/
theorem freed_session_written {system : System} (reached : machine.Reachable Careful system)
    (freed : system.core.disk = .freed) :
    system.core.log = system.accepted ∧ system.core.session.membufOffset = 0 ∧
      system.core.session.pending = [] := by
  have sound := sound_reachable reached
  obtain ⟨_, empty, none⟩ := sound.freed freed
  have kept := sound.kept
  rw [everything_quiet (by rw [freed]; rfl), none, current_empty empty, List.append_nil,
    List.append_nil] at kept
  exact ⟨kept, empty, none⟩

def closedIdle : List Action :=
  zeros 1 :: (List.replicate 4 .close ++ List.replicate 8 (.disk 1))

theorem freed_session_written_idle :
    ∃ system : System, system.core.disk = .freed ∧ system.accepted = [0] ∧
      system.core.log = system.accepted ∧ system.core.session.membufOffset = 0 ∧
      system.core.session.pending = [] := by
  have ran : (machine.runAllowed Careful (startSystem 0 0 0 0) closedIdle).map
      (fun system => (system.core.disk, system.accepted)) = some (.freed, [0]) := by
    decide
  obtain ⟨system, finished, outcome⟩ := Option.map_eq_some_iff.mp ran
  obtain ⟨freed, accepted⟩ := Prod.mk.inj outcome
  have initial : machine.Reachable Careful (startSystem 0 0 0 0) := .start ⟨0, 0, 0, 0, rfl⟩
  exact ⟨system, freed, accepted, freed_session_written (initial.of_runAllowed finished) freed⟩

-- one byte flushed by the timer, one more read and closed while the first is written
def closedWriting : List Action :=
  zeros 1 :: (List.replicate 241 .tick ++ List.replicate 11 (.disk 1) ++
    zeros 1 :: (List.replicate 3 .close ++ List.replicate 3 (.disk 1)))

theorem freed_session_loses :
    ¬∀ system, machine.Reachable CompleteWrites system → system.core.disk = .freed →
      system.core.log = system.accepted ∧ system.core.session.membufOffset = 0 ∧
        system.core.session.pending = [] := by
  intro always
  have ran : (machine.runAllowed CompleteWrites (startSystem 0 0 0 0) closedWriting).map
      (fun system => (system.core.disk, system.core.log, system.accepted)) =
        some (.freed, [0], [0, 0]) := by
    decide +kernel
  obtain ⟨system, finished, outcome⟩ := Option.map_eq_some_iff.mp ran
  simp only [Prod.mk.injEq] at outcome
  obtain ⟨freed, log, accepted⟩ := outcome
  have initial : machine.Reachable CompleteWrites (startSystem 0 0 0 0) :=
    .start ⟨0, 0, 0, 0, rfl⟩
  have written := (always system (initial.of_runAllowed finished) freed).1
  simp [log, accepted] at written

end DirtyCode.LogCollect
