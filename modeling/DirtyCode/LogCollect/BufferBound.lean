import DirtyCode.LogCollect.Schedule

/-!
How far `membuf_offset` can get. The room a call reserves is `net_read_buf_len`,
and the next chunk still fits when the disk thread is late, as long as two reads
fit into one buffer.
-/

namespace DirtyCode.LogCollect

open Lib

def DiskPc.writing : DiskPc → Bool
  | .write _ => true
  | .complete _ _ => true
  | _ => false

/-- The section of `free_session_step2` has not run yet. -/
def NetPc.early : NetPc → Bool
  | .live => true
  | .closing => true
  | .locking => true
  | _ => false

def TwoReadsFit (system : System) : Action → Prop
  | .drain _ _ _ => 2 * system.core.session.netReadBufLen ≤ system.core.session.memBufLen
  | _ => True

structure BufferInv (system : System) : Prop where
  inside : system.core.session.membufOffset ≤ system.core.session.memBufLen
  progress : system.core.session.diskIoInProgress = system.core.disk.writing
  idle : system.net.early = true → system.core.disk.writing = true →
    system.core.session.diskBuf = none
  room : system.net.early = true → system.core.session.bufFullStuck = false →
    system.core.session.diskBuf.isSome = true →
      system.core.session.membufOffset = 0 ∨
        system.core.session.membufOffset + system.core.session.netReadBufLen ≤
          system.core.session.memBufLen

theorem bufferInv_start (ip : Int) (slotIdx ticks networkBytes : Nat) :
    BufferInv (startSystem ip slotIdx ticks networkBytes) := by
  constructor <;> simp [startSystem, startCore, getNewSession, DiskPc.writing]

theorem pass2write_inside {ticks : Nat} {calloc : Nat → Bool} {buf : Memory} {len : Nat}
    {session after : Session} (written : Pass2written ticks calloc buf len session after)
    (bounded : len ≤ session.netReadBufLen)
    (twoReads : 2 * session.netReadBufLen ≤ session.memBufLen)
    (inside : session.membufOffset ≤ session.memBufLen)
    (room : session.diskBuf.isSome = true →
      session.membufOffset = 0 ∨
        session.membufOffset + session.netReadBufLen ≤ session.memBufLen) :
    after.membufOffset ≤ after.memBufLen ∧
      (after.bufFullStuck = false →
        after.membufOffset + after.netReadBufLen ≤ after.memBufLen) := by
  cases written with
  | @room grown enlarged fits =>
      simp only [Session.bufFull, decide_eq_false_iff_not] at fits
      simp only [Session.copyIn]
      omega
  | @stuck grown enlarged _ pending failed =>
      obtain ⟨kept, longer, same⟩ := enlarged_keeps enlarged
      obtain ⟨netReadBufLen, ⟨_, raised⟩ | ⟨succeeded, _⟩⟩ :=
        enlargeSessionBuf_cases ticks calloc grown (enlargeGap grown len)
      · have offset : grown.membufOffset = session.membufOffset := by rw [kept]
        have queued : session.diskBuf.isSome = true := by
          cases pointer : session.diskBuf with
          | none => simp [same pointer, pointer] at pending
          | some other => rfl
        have reserve := room queued
        simp only [raised, Session.copyIn]
        refine ⟨by omega, by simp⟩
      · exact absurd succeeded failed
  | switched _ _ _ =>
      simp only [Session.submitBuf, Session.switchBuf, Session.copyIn]
      omega

theorem bufferInv_drain {system after : System} {calloc : Nat → Bool} {buf : Memory} {len : Nat}
    (inv : BufferInv system)
    (twoReads : 2 * system.core.session.netReadBufLen ≤ system.core.session.memBufLen)
    (stepped : system.step (.drain calloc buf len) = some after) : BufferInv after := by
  obtain ⟨live, _, unstuck, _, bounded, session, written, rfl⟩ := drain_iff.mp stepped
  have early : system.net.early = true := by simp [live, NetPc.early]
  have kept := pass2written_keeps written
  have bounds := pass2write_inside written bounded twoReads inv.inside (inv.room early unstuck)
  refine ⟨bounds.1, ?_, fun _ writing => ?_, fun _ free _ => .inr (bounds.2 free)⟩
  · rw [kept]
    exact inv.progress
  · have idle := inv.idle early writing
    rw [(pass2written_waiting written idle (inv.progress.trans writing)).1]
    exact idle

theorem bufferInv_disk {system : System} {core : Core} {written : Nat} (inv : BufferInv system)
    (stepped : diskStep 0 system.ticks written system.core = some core) :
    BufferInv { system with core := core } := by
  obtain ⟨inside, progress, idle, room⟩ := inv
  cases diskStep_cases stepped with
  | free pc _ _ =>
      rw [pc] at progress
      exact ⟨inside, progress,
        fun _ writing => by simp [freeSessionFinal, DiskPc.writing] at writing, room⟩
  | stay pc | clearFlag pc | due pc _ | notDue pc | setFlag pc | nothing pc _
  | submit pc _ _ | refused pc _ =>
      rw [pc] at progress
      exact ⟨inside, progress, fun _ writing => by simp [DiskPc.writing] at writing, room⟩
  | visit pc next =>
      rw [pc] at progress
      rcases next with rfl | rfl
      · exact ⟨inside, progress, fun _ writing => by simp [DiskPc.writing] at writing, room⟩
      · exact ⟨inside, progress, fun _ writing => by simp [DiskPc.writing] at writing, room⟩
  | flush pc =>
      rw [pc] at progress
      by_cases ready : (system.core.session.diskBuf.isNone &&
          !system.core.session.diskIoInProgress) = true
      · simp only [forceFlush, ready, if_true]
        exact ⟨Nat.zero_le _, progress, fun _ writing => by simp [DiskPc.writing] at writing,
          fun _ _ _ => .inl rfl⟩
      · simp only [forceFlush, ready, Bool.false_eq_true, if_false]
        exact ⟨inside, progress, fun _ writing => by simp [DiskPc.writing] at writing, room⟩
  | claim pc _ _ =>
      exact ⟨inside, rfl, fun _ _ => rfl, fun _ _ pending => by simp [claimBuf] at pending⟩
  | write pc _ =>
      rw [pc] at progress idle
      exact ⟨inside, progress, idle, room⟩
  | complete pc =>
      rw [pc] at idle
      refine ⟨inside, rfl, fun _ writing => by simp [DiskPc.writing] at writing, ?_⟩
      intro early _ pending
      have gone : system.core.session.diskBuf = none := idle early rfl
      simp [completeWrite, gone] at pending
  | @finish count pc =>
      rw [pc] at progress
      obtain ⟨last, bytes, ⟨_, outcome⟩ | ⟨_, _, outcome⟩ | ⟨_, _, outcome⟩⟩ :=
        afterWrite_cases system.ticks count system.core
      · rw [outcome]
        exact ⟨inside, progress, fun _ writing => by simp [DiskPc.writing] at writing, room⟩
      · rw [outcome]
        exact ⟨Nat.zero_le _, progress, fun _ writing => by simp [DiskPc.writing] at writing,
          fun _ _ _ => .inl rfl⟩
      · rw [outcome]
        exact ⟨inside, progress,
          fun _ writing => by simp [freeSessionFinal, DiskPc.writing] at writing, room⟩

theorem bufferInv_close {system after : System} (inv : BufferInv system)
    (stepped : closeStep system = some after) : BufferInv after := by
  obtain ⟨inside, progress, idle, room⟩ := inv
  cases pc : system.net <;> simp only [closeStep, pc] at stepped
  case live =>
    simp only [pc, NetPc.early, true_implies] at idle room
    exact Option.some.inj stepped ▸ ⟨inside, progress, fun _ => idle, fun _ => room⟩
  case closing =>
    simp only [pc, NetPc.early, true_implies] at idle room
    exact Option.some.inj stepped ▸ ⟨inside, progress, fun _ => idle, fun _ => room⟩
  case locking =>
    rw [← Option.some.inj stepped]
    refine ⟨?_, ?_, fun early => ?_, fun early => ?_⟩
    · simp only [delayFree]
      split
      · exact Nat.zero_le _
      · exact inside
    · simp only [delayFree]
      split <;> exact progress
    all_goals simp [NetPc.early] at early
  case marking =>
    rw [← Option.some.inj stepped]
    refine ⟨inside, progress, fun early => ?_, fun early => ?_⟩
    all_goals simp [NetPc.early] at early
  case done => contradiction

theorem bufferInv_step {system after : System} {action : Action} (inv : BufferInv system)
    (fits : TwoReadsFit system action) (stepped : system.step action = some after) :
    BufferInv after := by
  cases action with
  | tick => exact Option.some.inj stepped ▸ ⟨inv.inside, inv.progress, inv.idle, inv.room⟩
  | disk written =>
      obtain ⟨core, moved, rfl⟩ := Option.map_eq_some_iff.mp stepped
      exact bufferInv_disk inv moved
  | drain calloc buf len => exact bufferInv_drain inv fits stepped
  | close => exact bufferInv_close inv stepped

theorem bufferInv_reachable {system : System} (reached : machine.Reachable TwoReadsFit system) :
    BufferInv system := by
  apply reached.invariant
  · rintro state ⟨ip, slotIdx, ticks, networkBytes, rfl⟩
    exact bufferInv_start ip slotIdx ticks networkBytes
  · exact fun state action after inv fits stepped => bufferInv_step inv fits stepped

theorem enlargeSessionBuf_fails (ticks : Nat) (session : Session) (gap : Nat) :
    (enlargeSessionBuf ticks (fun _ => false) session gap).1 ≠ 0 := by
  simp only [enlargeSessionBuf]
  repeat' split
  all_goals simp_all

/-- Where two reads do not fit, the next two reads of full length leave the
buffer if memory has run out. -/
theorem short_overflows {system : System} (live : system.net = .live)
    (slot : 0 ≤ system.core.session.slotIdx)
    (unstuck : system.core.session.bufFullStuck = false)
    (idle : system.core.session.diskBuf = none)
    (noIo : system.core.session.diskIoInProgress = false)
    (short : system.core.session.memBufLen < 2 * system.core.session.netReadBufLen) :
    ∃ after, machine.run system (List.replicate 2
        (.drain (fun _ => false) (fun _ => 0) system.core.session.netReadBufLen)) = some after ∧
      after.core.session.memBufLen < after.core.session.membufOffset := by
  let len := system.core.session.netReadBufLen
  let received := { system.core.session with
    networkBytes := system.core.session.networkBytes + len }
  let switched : System := { system with
    core := { system.core with session := received.submitBuf.copyIn (fun _ => 0) len }
    accepted := system.accepted ++ Memory.slice (fun _ => 0) 0 len }
  have first : machine.step system (.drain (fun _ => false) (fun _ => 0) len) = some switched := by
    refine drain_iff.mpr ⟨live, slot, unstuck, by omega, Nat.le_refl _, _, ?_, rfl⟩
    refine .switched ?_ idle noIo
    simp only [Session.bufFull, decide_eq_true_eq, len]
    omega
  have filled : switched.core.session.membufOffset = len := Nat.zero_add len
  have memory : switched.core.session.memBufLen = system.core.session.memBufLen := rfl
  have reads : switched.core.session.netReadBufLen = len := rfl
  obtain ⟨netReadBufLen, second⟩ := stuck_copies switched (fun _ => false) (fun _ => 0) len live
    slot unstuck (by omega) (Nat.le_refl _) (by omega) rfl (enlargeSessionBuf_fails _ _ _)
  refine ⟨switched.stuckAfter netReadBufLen (fun _ => 0) len, ?_, ?_⟩
  · rw [List.replicate, List.replicate, Machine.run, first, Option.bind_some, Machine.run, second]
    rfl
  · simp only [System.stuckAfter, Session.copyIn]
    omega

/-- As long as every read is made with room for two, no copy leaves `cur_buf`;
without that room the code has no bound. -/
theorem copies_stay_inside (system : System) :
    (machine.Reachable TwoReadsFit system →
      system.core.session.membufOffset ≤ system.core.session.memBufLen) ∧
    (system.net = .live → 0 ≤ system.core.session.slotIdx →
      system.core.session.bufFullStuck = false → system.core.session.diskBuf = none →
      system.core.session.diskIoInProgress = false →
      system.core.session.memBufLen < 2 * system.core.session.netReadBufLen →
      ∃ actions after, machine.run system actions = some after ∧
        after.core.session.memBufLen < after.core.session.membufOffset) := by
  refine ⟨fun reached => (bufferInv_reachable reached).inside, ?_⟩
  intro live slot unstuck idle noIo short
  obtain ⟨after, ran, overflow⟩ := short_overflows live slot unstuck idle noIo short
  exact ⟨_, after, ran, overflow⟩

def fullReads : List Action := List.replicate 180 .tick ++ List.replicate 31 (zeros netReadBuf)

def longReads : System :=
  { startSystem 0 0 0 0 with
    core := { startCore 0 0 0 0 with
      session := { (startCore 0 0 0 0).session with netReadBufLen := 131072 } } }

instance (system : System) (action : Action) : Decidable (TwoReadsFit system action) :=
  match action with
  | .drain _ _ _ => inferInstanceAs (Decidable
      (2 * system.core.session.netReadBufLen ≤ system.core.session.memBufLen))
  | .tick | .disk _ | .close => inferInstanceAs (Decidable True)

theorem copies_stay_inside_enlarged :
    ∃ system : System, system.core.session.membufOffset = 65536 ∧
      system.core.session.diskBuf = some .buf2 ∧
      system.core.session.membufOffset ≤ system.core.session.memBufLen ∧
      ∃ actions after, machine.run longReads actions = some after ∧
        after.core.session.memBufLen < after.core.session.membufOffset := by
  have ran : (machine.runAllowed TwoReadsFit (startSystem 0 0 0 0) fullReads).map
      (fun system => (system.core.session.membufOffset, system.core.session.diskBuf)) =
        some (65536, some .buf2) := by
    decide +kernel
  obtain ⟨system, finished, outcome⟩ := Option.map_eq_some_iff.mp ran
  obtain ⟨offset, pending⟩ := Prod.mk.inj outcome
  have initial : machine.Reachable TwoReadsFit (startSystem 0 0 0 0) := .start ⟨0, 0, 0, 0, rfl⟩
  exact ⟨system, offset, pending, (copies_stay_inside system).1 (initial.of_runAllowed finished),
    (copies_stay_inside longReads).2 rfl (by decide) rfl rfl rfl (by decide)⟩

/-- A session that has read over 1 MiB a second for 180 ticks is one failed
`calloc` away from overflowing its buffer. -/
theorem copies_leave_buffer :
    ¬∀ system, machine.Reachable (fun _ _ => True) system →
      system.core.session.membufOffset ≤ system.core.session.memBufLen := by
  intro always
  have raised : Arrives (fun _ _ => True) .buf2 none 131072 131072 131072 (319488 + 742 * 253952)
      180 :=
    arrives_raised (fun _ _ _ => trivial) (fun _ => false) (by decide) 742 (fun _ => trivial)
      (by decide) (.inr rfl)
  obtain ⟨system, reached, settled⟩ := raised
  obtain ⟨after, ran, overflow⟩ := short_overflows settled.live settled.slot settled.stuck
    settled.diskBuf settled.noIo (by rw [settled.memBufLen, settled.netReadBufLen]; decide)
  have bound := always after (reached.of_run (Machine.along_of_forall (fun _ _ _ _ => trivial) _ _)
    ran)
  omega

end DirtyCode.LogCollect
