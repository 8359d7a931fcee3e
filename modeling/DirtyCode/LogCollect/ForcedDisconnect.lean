import DirtyCode.LogCollect.Accounting

/-!
`force_disconnect_seconds`. The test stands before everything else in a visit and
stays true, so what a forced disconnect left for the disk thread to do is cut off
by the next one.
-/

namespace DirtyCode.LogCollect

open Lib

structure Forced where
  core : Core
  ticks : Nat
  owed : Option (List UInt8) -- the log and the buffered bytes when `del_session` first fired

inductive Pass
  | tick
  | disk (written : Nat)

variable (forceDisconnectSeconds : Nat)

/-- This step of the disk thread runs `del_session(s, 1)`. -/
def Forced.fires (forced : Forced) : Prop :=
  forced.core.disk = .scan ∧
    forceDue forceDisconnectSeconds forced.ticks forced.core.session = true

instance (forced : Forced) : Decidable (forced.fires forceDisconnectSeconds) :=
  inferInstanceAs (Decidable (_ ∧ _))

def Forced.step (forced : Forced) : Pass → Option Forced
  | .tick => some { forced with ticks := forced.ticks + 1 }
  | .disk written =>
      (diskStep forceDisconnectSeconds forced.ticks written forced.core).map fun core =>
        { forced with
          core := core
          owed := if forced.fires forceDisconnectSeconds then
              some (forced.owed.getD forced.core.everything)
            else forced.owed }

/-- A session in its slot that nobody has closed. -/
def Open (forced : Forced) : Prop :=
  forced.core.session.inDeleteStage = 0 ∧ forced.core.session.needDelayFree = false ∧
    forced.core.teardowns = 0 ∧ forced.core.disk ≠ .freed ∧ 0 ≤ forced.core.session.slotIdx ∧
    forced.owed = none

def forcedMachine : Machine Forced Pass where
  init := Open
  step := Forced.step forceDisconnectSeconds

structure Disconnected (after : Forced) : Prop where
  once : after.core.teardowns ≤ 1
  written : after.core.disk = .freed → ∀ bytes, after.owed = some bytes → after.core.log = bytes

/-- A forced disconnect fires on a session not yet torn down, and with
`membuf_offset` zero only if nothing is pending either. -/
def FiresOnce (forced : Forced) : Pass → Prop
  | .disk _ => forced.fires forceDisconnectSeconds → forced.core.teardowns = 0 ∧
      (0 < forced.core.session.membufOffset ∨ forced.core.session.pending = [])
  | .tick => True

/-- Before the first forced disconnect, or right after one that did no harm. -/
def Watched (forced : Forced) : Prop :=
  Open forced ∨
    (forced.core.disk = .freed ∧ forced.core.teardowns ≤ 1 ∧
      ∀ bytes, forced.owed = some bytes → forced.core.log = bytes) ∨
    (forced.fires forceDisconnectSeconds ∧ forced.core.teardowns = 1)

variable {forceDisconnectSeconds}

theorem diskStep_unforced {ticks written : Nat} {core : Core}
    (unforced : core.disk = .scan → forceDue forceDisconnectSeconds ticks core.session = false) :
    diskStep forceDisconnectSeconds ticks written core = diskStep 0 ticks written core := by
  cases pc : core.disk with
  | scan =>
      have never : forceDue 0 ticks core.session = false := by simp [forceDue]
      simp only [diskStep, pc, unforced pc, never]
  | _ => simp only [diskStep, pc]

theorem open_disk {ticks written : Nat} {core after : Core} (stage : core.session.inDeleteStage = 0)
    (prompt : core.session.needDelayFree = false)
    (stepped : diskStep 0 ticks written core = some after) :
    after.session.inDeleteStage = 0 ∧ after.session.needDelayFree = false ∧
      after.teardowns = core.teardowns ∧ after.disk ≠ .freed ∧
      after.session.slotIdx = core.session.slotIdx := by
  cases diskStep_cases stepped with
  | free _ closed _ => simp [stage] at closed
  | visit _ next => rcases next with rfl | rfl <;> exact ⟨stage, prompt, rfl, by simp, rfl⟩
  | flush _ =>
      have kept : (forceFlush core.session).inDeleteStage = core.session.inDeleteStage ∧
          (forceFlush core.session).needDelayFree = core.session.needDelayFree ∧
          (forceFlush core.session).slotIdx = core.session.slotIdx := by
        simp only [forceFlush]
        split <;> exact ⟨rfl, rfl, rfl⟩
      exact ⟨kept.1.trans stage, kept.2.1.trans prompt, rfl, by simp, kept.2.2⟩
  | @finish count _ =>
      obtain ⟨last, bytes, ⟨_, outcome⟩ | ⟨delayed, _⟩ | ⟨delayed, _⟩⟩ :=
        afterWrite_cases ticks count core
      · rw [outcome]
        exact ⟨stage, prompt, rfl, by simp, rfl⟩
      · simp [prompt] at delayed
      · simp [prompt] at delayed
  | _ => exact ⟨stage, prompt, rfl, by simp, rfl⟩

theorem forced_stepped {forced after : Forced} {written : Nat}
    (fires : forced.fires forceDisconnectSeconds)
    (stepped : forced.step forceDisconnectSeconds (.disk written) = some after) :
    after = { forced with
      core := delSession forced.core true
      owed := some (forced.owed.getD forced.core.everything) } := by
  obtain ⟨core, moved, rfl⟩ := Option.map_eq_some_iff.mp stepped
  simp only [diskStep, fires.1, fires.2, if_true, Option.some.injEq] at moved
  simp only [fires, if_true, moved]

theorem unforced_stepped {forced after : Forced} {written : Nat}
    (quiet : ¬forced.fires forceDisconnectSeconds)
    (stepped : forced.step forceDisconnectSeconds (.disk written) = some after) :
    ∃ core, diskStep 0 forced.ticks written forced.core = some core ∧
      after = { forced with core := core } := by
  obtain ⟨core, moved, rfl⟩ := Option.map_eq_some_iff.mp stepped
  rw [diskStep_unforced fun scan => by
    cases due : forceDue forceDisconnectSeconds forced.ticks forced.core.session with
    | false => rfl
    | true => exact absurd ⟨scan, due⟩ quiet] at moved
  refine ⟨core, moved, ?_⟩
  simp only [quiet, if_false]

theorem delSession_delayed {core : Core} (buffered : 0 < core.session.membufOffset)
    (slot : 0 ≤ core.session.slotIdx) :
    delSession core true = { core with
      session := { delayFree { core.session with inDeleteStage := 10 } with inDeleteStage := 20 }
      teardowns := core.teardowns + 1 } := by
  have delays : needsDelay (freeSessionStep1 core).session = true := by
    simp only [needsDelay, freeSessionStep1, buffered, decide_true, Bool.true_and]
    exact decide_eq_true (by omega)
  simp only [delSession, delays, if_true]
  rfl

theorem delSession_freed {core : Core} (empty : core.session.membufOffset = 0) :
    delSession core true = freeSessionFinal (freeSessionRes (freeSessionStep1 core)) := by
  have prompt : needsDelay (freeSessionStep1 core).session = false := by
    simp [needsDelay, freeSessionStep1, empty]
  simp only [delSession, prompt, if_true]
  rfl

theorem delayFree_tick (session : Session) :
    (delayFree session).lastDiskIoWriteTick = session.lastDiskIoWriteTick := by
  simp only [delayFree]
  split <;> rfl

theorem delSession_teardowns (core : Core) (immediately : Bool) :
    (delSession core immediately).teardowns = core.teardowns + 1 := by
  simp only [delSession]
  split
  · rfl
  · cases immediately <;> rfl

theorem fires_again {forced : Forced} (fires : forced.fires forceDisconnectSeconds)
    (buffered : 0 < forced.core.session.membufOffset)
    (slot : 0 ≤ forced.core.session.slotIdx) (owed : Option (List UInt8)) :
    Forced.fires forceDisconnectSeconds
      { forced with core := delSession forced.core true, owed := owed } := by
  have due := fires.2
  rw [delSession_delayed buffered slot]
  refine ⟨fires.1, ?_⟩
  simpa only [forceDue, delayFree_tick] using due

theorem fires_later {forced : Forced} (fires : forced.fires forceDisconnectSeconds) :
    Forced.fires forceDisconnectSeconds { forced with ticks := forced.ticks + 1 } := by
  have due := fires.2
  refine ⟨fires.1, ?_⟩
  simp only [forceDue, Bool.and_eq_true, decide_eq_true_eq] at due ⊢
  omega

theorem disconnect_first {forced after : Forced} {written : Nat} (live : Open forced)
    (fires : forced.fires forceDisconnectSeconds)
    (stepped : forced.step forceDisconnectSeconds (.disk written) = some after) :
    after.core.teardowns = 1 ∧
      ((0 < forced.core.session.membufOffset ∧ after.fires forceDisconnectSeconds) ∨
        (forced.core.session.membufOffset = 0 ∧ after.core.disk = .freed ∧
          ((∀ bytes, after.owed = some bytes → after.core.log = bytes) ↔
            forced.core.session.pending = []))) := by
  obtain ⟨_, _, fresh, _, slot, none⟩ := live
  rw [forced_stepped fires stepped]
  refine ⟨by rw [delSession_teardowns, fresh], ?_⟩
  by_cases buffered : 0 < forced.core.session.membufOffset
  · exact .inl ⟨buffered, fires_again fires buffered slot _⟩
  · have empty : forced.core.session.membufOffset = 0 := by omega
    have quiet : forced.core.disk.writing = false := by rw [fires.1]; rfl
    refine .inr ⟨empty, by rw [delSession_freed empty]; rfl, ?_⟩
    rw [delSession_freed empty, none, Option.getD_none, everything_quiet quiet,
      current_empty empty, List.append_nil]
    constructor
    · intro written
      have same := written _ rfl
      simpa only [freeSessionFinal, freeSessionRes, freeSessionStep1, List.self_eq_append_right]
        using same
    · rintro gone bytes owed
      rw [gone, List.append_nil, Option.some.injEq] at owed
      exact owed

theorem Watched.disconnected {forced : Forced} (watched : Watched forceDisconnectSeconds forced) :
    Disconnected forced := by
  obtain ⟨_, _, fresh, alive, _⟩ | ⟨_, once, written⟩ | ⟨⟨scan, _⟩, once⟩ := watched
  · exact ⟨by omega, fun freed => absurd freed alive⟩
  · exact ⟨once, fun _ => written⟩
  · exact ⟨by omega, fun freed => by simp [scan] at freed⟩

theorem watched_step {forced after : Forced} {pass : Pass}
    (watched : Watched forceDisconnectSeconds forced)
    (once : FiresOnce forceDisconnectSeconds forced pass)
    (stepped : forced.step forceDisconnectSeconds pass = some after) :
    Watched forceDisconnectSeconds after := by
  cases pass with
  | tick =>
      rw [← Option.some.inj stepped]
      exact watched.imp id (Or.imp id fun fired => ⟨fires_later fired.1, fired.2⟩)
  | disk written =>
      by_cases fires : forced.fires forceDisconnectSeconds
      · obtain ⟨fresh, harmless⟩ := once fires
        obtain live | ⟨freed, _⟩ | ⟨_, fired⟩ := watched
        · obtain ⟨single, ⟨_, again⟩ | ⟨empty, freed, exact_bytes⟩⟩ :=
            disconnect_first live fires stepped
          · exact .inr (.inr ⟨again, single⟩)
          · have none := harmless.resolve_left (by omega)
            exact .inr (.inl ⟨freed, by omega, exact_bytes.mpr none⟩)
        · simp [fires.1] at freed
        · omega
      · obtain ⟨core, moved, rfl⟩ := unforced_stepped fires stepped
        obtain ⟨stage, prompt, fresh, _, slot, none⟩ | ⟨freed, _⟩ | ⟨fired, _⟩ := watched
        · obtain ⟨staged, prompted, kept, alive, slotted⟩ := open_disk stage prompt moved
          exact .inl ⟨staged, prompted, kept.trans fresh, alive, by rw [slotted]; exact slot, none⟩
        · simp [diskStep, freed] at moved
        · exact absurd fired fires

/-- A step is right exactly when it is no second disconnect and drops nothing. -/
theorem disconnected_iff_firesOnce {forced after : Forced} {pass : Pass}
    (watched : Watched forceDisconnectSeconds forced)
    (stepped : forced.step forceDisconnectSeconds pass = some after) :
    Disconnected after ↔ FiresOnce forceDisconnectSeconds forced pass := by
  constructor
  · intro right
    cases pass with
    | tick => trivial
    | disk written =>
        intro fires
        obtain live | ⟨freed, _⟩ | ⟨_, fired⟩ := watched
        · refine ⟨live.2.2.1, ?_⟩
          obtain ⟨_, ⟨buffered, _⟩ | ⟨_, freed, exact_bytes⟩⟩ := disconnect_first live fires stepped
          · exact .inl buffered
          · exact .inr (exact_bytes.mp (right.written freed))
        · simp [fires.1] at freed
        · have once := right.once
          rw [forced_stepped fires stepped] at once
          simp only [delSession_teardowns] at once
          omega
  · exact fun once => (watched_step watched once stepped).disconnected

/-- The bytes buffered at the first forced disconnect are written before the
session is freed, and it is torn down once, exactly in the runs that never scan
the session again and do not find it with a pending buffer only. -/
theorem forced_disconnect_iff {forced : Forced} (live : Open forced) (passes : List Pass) :
    (forcedMachine forceDisconnectSeconds).Along (fun _ _ after => Disconnected after) forced
        passes ↔
      (forcedMachine forceDisconnectSeconds).Along
        (fun forced pass _ => FiresOnce forceDisconnectSeconds forced pass) forced passes := by
  apply Machine.along_iff (Watched forceDisconnectSeconds)
  · exact fun forced pass after watched stepped => disconnected_iff_firesOnce watched stepped
  · exact fun forced pass after watched once stepped => watched_step watched once stepped
  · exact .inl live

instance (forced : Forced) (pass : Pass) :
    Decidable (FiresOnce forceDisconnectSeconds forced pass) :=
  match pass with
  | .disk _ => inferInstanceAs (Decidable (forced.fires forceDisconnectSeconds →
      forced.core.teardowns = 0 ∧
        (0 < forced.core.session.membufOffset ∨ forced.core.session.pending = [])))
  | .tick => inferInstanceAs (Decidable True)

def firstRead : System :=
  ((startSystem 0 0 0 0).step (zeros 1)).getD (startSystem 0 0 0 0)

def oneByte : Forced where
  core := firstRead.core
  ticks := 0
  owed := none

theorem oneByte_open : Open oneByte := ⟨rfl, rfl, rfl, by decide, Int.le_refl _, rfl⟩

theorem forced_disconnect_first :
    (forcedMachine 1).Along (fun _ _ after => Disconnected after) oneByte
      [.tick, .tick, .disk 0] := by
  apply (forced_disconnect_iff oneByte_open _).mpr
  have ran : ((forcedMachine 1).runAllowed (FiresOnce 1) oneByte
      [.tick, .tick, .disk 0]).isSome = true := by
    decide
  obtain ⟨last, finished⟩ := Option.isSome_iff_exists.mp ran
  exact Machine.along_of_runAllowed finished

/-- The second scan tears the session down again and frees it with the byte unwritten. -/
theorem forced_disconnect_twice :
    ¬∀ forceDisconnectSeconds forced passes, 0 < forceDisconnectSeconds → Open forced →
      0 < forced.core.session.membufOffset ∨ forced.core.session.pending ≠ [] →
      (forcedMachine forceDisconnectSeconds).Along (fun _ _ after => Disconnected after) forced
        passes := by
  intro always
  have right := always 1 oneByte ([.tick, .tick, .disk 0] ++ [.disk 0]) (by decide) oneByte_open
    (.inl (by decide))
  have ran : ((forcedMachine 1).run oneByte [.tick, .tick, .disk 0]).bind (fun forced =>
      ((forcedMachine 1).step forced (.disk 0)).map fun after => after.core.teardowns) =
        some 2 := by
    decide
  obtain ⟨forced, first, second⟩ := Option.bind_eq_some_iff.mp ran
  obtain ⟨after, stepped, twice⟩ := Option.map_eq_some_iff.mp second
  have once := (right.last first stepped).once
  omega

end DirtyCode.LogCollect
