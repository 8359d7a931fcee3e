import DirtyCode.LogCollect.BufferBound

/-!
Where the accepted bytes are. At any moment they are what has been written, the
buffer being written, the pending buffer and the current buffer, in that order.
-/

namespace DirtyCode.LogCollect

open Lib

/-- The bytes of the buffer that `write2disk` has claimed and not yet written. -/
def Core.inFlight (core : Core) : List UInt8 :=
  match core.disk with
  | .write buf => core.session.block.slice (core.session.address buf) core.session.diskWriteBufLen
  | _ => []

def Core.everything (core : Core) : List UInt8 :=
  core.log ++ core.inFlight ++ core.session.pending ++ core.session.current

/-- Where a forced flush leads without another look at the session list. -/
def DiskPc.flushing : DiskPc → Bool
  | .clearFlag => true
  | .timer => true
  | .pending => true
  | .claim => true
  | _ => false

/-- Between the claim of `write2disk` and the test of `need_delay_free`. -/
def DiskPc.claimed : DiskPc → Bool
  | .write _ => true
  | .complete _ _ => true
  | .finish _ => true
  | _ => false

def DiskPc.closable (disk : DiskPc) (membufOffset : Nat) : Prop :=
  match disk with
  | .write _ => False
  | .complete _ _ => membufOffset = 0
  | .finish _ => membufOffset = 0
  | _ => True

instance (disk : DiskPc) (membufOffset : Nat) : Decidable (disk.closable membufOffset) :=
  match disk with
  | .write _ => inferInstanceAs (Decidable False)
  | .complete _ _ => inferInstanceAs (Decidable (membufOffset = 0))
  | .finish _ => inferInstanceAs (Decidable (membufOffset = 0))
  | .scan | .visit | .flush | .clearFlag | .timer | .setFlag | .pending | .claim | .freed =>
      inferInstanceAs (Decidable True)

/-- Reads with room for two, complete writes, and no delayed free on top of a write. -/
def Careful (system : System) : Action → Prop
  | .drain _ _ _ => 2 * system.core.session.netReadBufLen ≤ system.core.session.memBufLen
  | .disk written =>
      ∀ buf, system.core.disk = .write buf → written = system.core.session.diskWriteBufLen
  | .close => system.net = .locking →
      system.core.disk.closable system.core.session.membufOffset
  | .tick => True

structure Sound (system : System) : Prop extends BufferInv system where
  bounded : system.core.session.diskWriteBufLen ≤ system.core.session.memBufLen
  apart : system.net.early = true → system.core.session.Apart
  owned : system.net.early = true → ∀ buf, system.core.disk = .write buf →
    buf ≠ system.core.session.curBuf
  prompt : system.net.early = true → system.core.session.needDelayFree = false
  stage : system.core.session.inDeleteStage = 20 → system.net.early = false
  slot : 0 ≤ system.core.session.slotIdx
  flushed : system.core.session.needDelayFree = false → system.core.session.membufOffset = 0 →
    system.core.session.pending ≠ [] → system.core.disk.flushing = true
  closed : system.net.early = false → system.core.session.needDelayFree = false →
    system.core.session.membufOffset = 0
  taken : system.core.session.needDelayFree = true → system.core.disk.claimed = true →
    system.core.session.pending = []
  kept : system.core.everything = system.accepted
  freed : system.core.disk = .freed → system.net.early = false ∧
    system.core.session.membufOffset = 0 ∧ system.core.session.pending = []

theorem sound_start (ip : Int) (slotIdx ticks networkBytes : Nat) :
    Sound (startSystem ip slotIdx ticks networkBytes) := by
  refine ⟨bufferInv_start ip slotIdx ticks networkBytes, Nat.zero_le _, ?_, ?_, fun _ => rfl, ?_,
    Int.natCast_nonneg _, ?_, fun _ _ => rfl, ?_, rfl, ?_⟩
  all_goals simp [startSystem, startCore, getNewSession, Session.Apart, Session.pending]

theorem pending_none {session : Session} (none : session.diskBuf = none) :
    session.pending = [] := by
  simp [Session.pending, none]

theorem pending_empty {session : Session} (empty : session.diskWriteBufLen = 0) :
    session.pending = [] := by
  simp only [Session.pending, empty]
  split <;> rfl

theorem current_empty {session : Session} (empty : session.membufOffset = 0) :
    session.current = [] := by
  simp [Session.current, empty]

/-- What a call does to the bytes of its session: the chunk comes last. -/
structure Appended (buf : Memory) (len : Nat) (session after : Session) : Prop where
  appended : after.pending ++ after.current =
    session.pending ++ session.current ++ buf.slice 0 len
  apart : after.Apart
  bounded : after.diskWriteBufLen ≤ after.memBufLen
  nonempty : len ≤ after.membufOffset

theorem appended_copyIn (session : Session) (buf : Memory) {len : Nat} (apart : session.Apart)
    (inside : session.membufOffset + len ≤ session.memBufLen)
    (bounded : session.diskWriteBufLen ≤ session.memBufLen) :
    Appended buf len session (session.copyIn buf len) where
  appended := by
    rw [Session.pending_copyIn session buf apart inside bounded, Session.current_copyIn,
      List.append_assoc]
  apart := apart
  bounded := bounded
  nonempty := Nat.le_add_left _ _

theorem pass2write_appends {ticks : Nat} {calloc : Nat → Bool} {buf : Memory} {len : Nat}
    {session after : Session} (written : Pass2written ticks calloc buf len session after)
    (bounded : len ≤ session.netReadBufLen)
    (twoReads : 2 * session.netReadBufLen ≤ session.memBufLen)
    (inside : session.membufOffset ≤ session.memBufLen)
    (room : session.diskBuf.isSome = true →
      session.membufOffset = 0 ∨
        session.membufOffset + session.netReadBufLen ≤ session.memBufLen)
    (apart : session.Apart) (queued : session.diskWriteBufLen ≤ session.memBufLen) :
    Appended buf len session after := by
  have bounds := (pass2write_inside written bounded twoReads inside room).1
  cases written with
  | @room grown enlarged fits =>
      obtain ⟨current, pending, apartGrown⟩ := enlarged_contents enlarged inside apart
      obtain ⟨kept, longer, _⟩ := enlarged_keeps enlarged
      have length : grown.diskWriteBufLen = session.diskWriteBufLen := by rw [kept]
      have copied := appended_copyIn grown buf apartGrown bounds (by omega)
      exact ⟨by rw [copied.appended, current, pending], copied.apart, copied.bounded,
        copied.nonempty⟩
  | @stuck grown enlarged _ _ failed =>
      obtain ⟨current, pending, apartGrown⟩ := enlarged_contents enlarged inside apart
      obtain ⟨kept, longer, _⟩ := enlarged_keeps enlarged
      have length : grown.diskWriteBufLen = session.diskWriteBufLen := by rw [kept]
      obtain ⟨netReadBufLen, ⟨_, raised⟩ | ⟨succeeded, _⟩⟩ :=
        enlargeSessionBuf_cases ticks calloc grown (enlargeGap grown len)
      · rw [raised] at bounds ⊢
        have copied := appended_copyIn { grown with
          netReadBufLen := netReadBufLen, bufFullStuck := true } buf apartGrown bounds
          (by dsimp only; omega)
        exact ⟨copied.appended.trans (by rw [← current, ← pending]; rfl), copied.apart,
          copied.bounded, copied.nonempty⟩
      · exact absurd succeeded failed
  | switched _ none _ =>
      have copied := appended_copyIn session.submitBuf buf (Session.switchBuf_apart _) bounds inside
      refine ⟨copied.appended.trans ?_, copied.apart, copied.bounded, copied.nonempty⟩
      rw [pending_none none, Session.submitBuf, Session.switchBuf_pending,
        Session.switchBuf_current, List.append_nil]
      rfl

theorem sound_drain {system after : System} {calloc : Nat → Bool} {buf : Memory} {len : Nat}
    (sound : Sound system)
    (twoReads : 2 * system.core.session.netReadBufLen ≤ system.core.session.memBufLen)
    (stepped : system.step (.drain calloc buf len) = some after) : Sound after := by
  have buffers := bufferInv_drain sound.toBufferInv twoReads stepped
  obtain ⟨live, _, unstuck, nonempty, bounded, session, written, rfl⟩ := drain_iff.mp stepped
  have early : system.net.early = true := by simp [live, NetPc.early]
  have appended := pass2write_appends written bounded twoReads sound.inside
    (sound.room early unstuck) (sound.apart early) sound.bounded
  have joined : session.pending ++ session.current =
      system.core.session.pending ++ system.core.session.current ++ buf.slice 0 len :=
    appended.appended
  have same := pass2written_keeps written
  have buffered : session.membufOffset ≠ 0 := by
    have length := appended.nonempty
    omega
  have waiting : ∀ other, system.core.disk = .write other →
      session.curBuf = system.core.session.curBuf ∧
        session.block.slice (session.address other) session.diskWriteBufLen =
          system.core.session.block.slice (system.core.session.address other)
            system.core.session.diskWriteBufLen := by
    intro other writing
    have busy : system.core.disk.writing = true := by simp [writing, DiskPc.writing]
    obtain ⟨copied, fits⟩ :=
      pass2written_waiting written (sound.idle early busy) (sound.progress.trans busy)
    simp only [Session.bufFull, decide_eq_false_iff_not] at fits
    have inside : system.core.session.membufOffset + len ≤ system.core.session.memBufLen := by
      omega
    rw [copied]
    exact ⟨rfl, Session.slice_copyIn_other _ buf (sound.owned early other writing) inside
      sound.bounded⟩
  have inFlight : Core.inFlight { system.core with session := session } = system.core.inFlight := by
    cases pc : system.core.disk with
    | write other => simpa only [Core.inFlight, pc] using (waiting other pc).2
    | _ => simp only [Core.inFlight, pc]
  refine ⟨buffers, appended.bounded, fun _ => appended.apart, fun _ other writing => ?_,
    fun _ => ?_, fun stage => ?_, ?_, fun _ empty => absurd empty buffered, fun late => ?_,
    fun delayed => ?_, ?_, fun gone => ?_⟩
  · rw [show session.curBuf = _ from (waiting other writing).1]
    exact sound.owned early other writing
  · rw [same]
    exact sound.prompt early
  · rw [same] at stage
    exact sound.stage stage
  · rw [same]
    exact sound.slot
  · exact absurd late (by simp [early])
  · rw [same] at delayed
    exact absurd delayed (by simp [sound.prompt early])
  · rw [← sound.kept]
    simp only [Core.everything, inFlight, List.append_assoc, joined]
  · exact absurd (sound.freed gone).1 (by simp [early])

theorem inFlight_unclaimed {core : Core} (unclaimed : ∀ buf, core.disk ≠ .write buf) :
    core.inFlight = [] := by
  cases pc : core.disk with
  | write buf => exact absurd pc (unclaimed buf)
  | _ => simp only [Core.inFlight, pc]

theorem inFlight_quiet {core : Core} (quiet : core.disk.writing = false) : core.inFlight = [] := by
  cases pc : core.disk <;> simp_all [Core.inFlight, DiskPc.writing]

theorem everything_quiet {core : Core} (quiet : core.disk.writing = false) :
    core.everything = core.log ++ core.session.pending ++ core.session.current := by
  rw [Core.everything, inFlight_quiet quiet, List.append_nil]

theorem Sound.not_early {system : System} (sound : Sound system)
    (delayed : system.core.session.needDelayFree = true) : system.net.early = false := by
  cases early : system.net.early with
  | false => rfl
  | true => simp [sound.prompt early] at delayed

theorem Sound.pending_writing {system : System} (sound : Sound system)
    (writing : system.core.disk.writing = true) : system.core.session.pending = [] := by
  cases early : system.net.early with
  | true => exact pending_none (sound.idle early writing)
  | false =>
      have claimed : system.core.disk.claimed = true := by
        cases pc : system.core.disk <;> simp_all [DiskPc.writing, DiskPc.claimed]
      cases delayed : system.core.session.needDelayFree with
      | true => exact sound.taken delayed claimed
      | false =>
          by_contra waiting
          have flushing := sound.flushed delayed (sound.closed early delayed) waiting
          cases pc : system.core.disk <;> simp_all [DiskPc.flushing, DiskPc.claimed]

theorem Sound.move {system : System} (sound : Sound system) (flag : Bool) (next : DiskPc)
    (quiet : system.core.disk.writing = false) (idle : next.writing = false)
    (alive : next ≠ .freed)
    (flushed : system.core.session.needDelayFree = false →
      system.core.session.membufOffset = 0 → system.core.session.pending ≠ [] →
      next.flushing = true)
    (taken : next.claimed = true → system.core.session.pending = []) :
    Sound { system with core := { system.core with
      session := { system.core.session with timeOutNeedFlushToDisk := flag }, disk := next } } := by
  refine ⟨⟨sound.inside, sound.progress.trans (quiet.trans idle.symm), fun _ writing => ?_,
      sound.room⟩,
    sound.bounded, sound.apart, fun _ buf writing => ?_, sound.prompt, sound.stage, sound.slot,
    flushed, sound.closed, fun _ => taken, ?_, fun gone => absurd gone alive⟩
  · exact absurd idle (by simpa using writing)
  · rw [show next = .write buf from writing] at idle
    simp [DiskPc.writing] at idle
  · rw [← sound.kept, everything_quiet quiet]
    exact everything_quiet idle

theorem sound_flush {system : System} (sound : Sound system) (pc : system.core.disk = .flush) :
    Sound { system with core := { system.core with
      session := forceFlush system.core.session, disk := .clearFlag } } := by
  by_cases ready : (system.core.session.diskBuf.isNone &&
      !system.core.session.diskIoInProgress) = true
  · have none : system.core.session.diskBuf = none := by simp_all
    simp only [forceFlush, ready, if_true]
    refine ⟨⟨Nat.zero_le _, ?_, fun _ writing => by simp [DiskPc.writing] at writing,
        fun _ _ _ => .inl rfl⟩,
      sound.inside, fun _ => Session.switchBuf_apart _, fun _ _ writing => by simp at writing,
      sound.prompt, sound.stage, sound.slot, fun _ _ _ => rfl, fun _ _ => rfl,
      fun _ claimed => by simp [DiskPc.claimed] at claimed, ?_, fun gone => by simp at gone⟩
    · have progress := sound.progress
      rw [pc] at progress
      exact progress
    · have kept := sound.kept
      rw [everything_quiet (by rw [pc]; rfl), pending_none none, List.append_nil] at kept
      rw [everything_quiet rfl, Session.switchBuf_pending, Session.switchBuf_current,
        List.append_nil]
      exact kept
  · simp only [forceFlush, ready, Bool.false_eq_true, if_false]
    exact sound.move _ .clearFlag (by rw [pc]; rfl) rfl (by simp) (fun _ _ _ => rfl)
      (fun claimed => by simp [DiskPc.claimed] at claimed)

theorem sound_claim {system : System} {buf : Buf} (sound : Sound system)
    (pc : system.core.disk = .claim) (pointer : system.core.session.diskBuf = some buf) :
    Sound { system with core := { system.core with
      session := claimBuf system.core.session, disk := .write buf } } := by
  refine ⟨⟨sound.inside, rfl, fun _ _ => rfl, fun _ _ waiting => by simp [claimBuf] at waiting⟩,
    sound.bounded, fun _ other waiting => by simp [claimBuf] at waiting,
    fun early other writing => ?_, sound.prompt, sound.stage, sound.slot,
    fun _ _ waiting => absurd rfl waiting, sound.closed, fun _ _ => rfl, ?_,
    fun gone => by simp at gone⟩
  · rw [DiskPc.write.injEq] at writing
    exact sound.apart early other (writing ▸ pointer)
  · have waiting : system.core.session.pending = system.core.session.block.slice
        (system.core.session.address buf) system.core.session.diskWriteBufLen := by
      simp only [Session.pending, pointer]
    have kept := sound.kept
    rw [everything_quiet (by rw [pc]; rfl), waiting] at kept
    rw [Core.everything, show (claimBuf system.core.session).pending = [] from rfl,
      List.append_nil]
    exact kept

theorem sound_write {system : System} {buf : Buf} (sound : Sound system)
    (pc : system.core.disk = .write buf) :
    Sound { system with core := { system.core with
      log := system.core.log ++ system.core.session.block.slice
        (system.core.session.address buf) system.core.session.diskWriteBufLen
      disk := .complete buf system.core.session.diskWriteBufLen } } := by
  have writing : system.core.disk.writing = true := by rw [pc]; rfl
  have empty := sound.pending_writing writing
  refine ⟨⟨sound.inside, sound.progress.trans writing, fun early _ => sound.idle early writing,
      sound.room⟩,
    sound.bounded, sound.apart, fun _ _ writing => by simp at writing, sound.prompt, sound.stage,
    sound.slot, fun _ _ waiting => absurd empty waiting, sound.closed, fun _ _ => empty, ?_,
    fun gone => by simp at gone⟩
  have kept := sound.kept
  simp only [Core.everything, Core.inFlight, pc, empty, List.append_nil] at kept
  rw [Core.everything, empty, List.append_nil]
  exact (congrArg (· ++ _) (List.append_nil _)).trans kept

theorem sound_complete {system : System} {buf : Buf} {count : Nat} (sound : Sound system)
    (pc : system.core.disk = .complete buf count) :
    Sound { system with core := { system.core with
      session := completeWrite system.core.session, disk := .finish count } } := by
  have writing : system.core.disk.writing = true := by rw [pc]; rfl
  have empty := sound.pending_writing writing
  have cleared : (completeWrite system.core.session).pending = [] := pending_empty rfl
  refine ⟨⟨sound.inside, rfl, fun _ busy => by simp [DiskPc.writing] at busy,
      fun early _ waiting => ?_⟩,
    Nat.zero_le _, sound.apart, fun _ _ busy => by simp at busy, sound.prompt, sound.stage,
    sound.slot, fun _ _ waiting => absurd cleared waiting, sound.closed, fun _ _ => cleared, ?_,
    fun gone => by simp at gone⟩
  · have none := sound.idle early writing
    simp [completeWrite, none] at waiting
  · have kept := sound.kept
    simp only [Core.everything, Core.inFlight, pc, empty, List.append_nil] at kept
    rw [everything_quiet rfl, cleared, List.append_nil]
    exact kept

theorem sound_finish {system : System} {count : Nat} (sound : Sound system)
    (pc : system.core.disk = .finish count) :
    Sound { system with core := afterWrite system.ticks count system.core } := by
  have quiet : system.core.disk.writing = false := by rw [pc]; rfl
  have kept := sound.kept
  rw [everything_quiet quiet] at kept
  obtain ⟨last, bytes, ⟨prompt, outcome⟩ | ⟨delayed, _, outcome⟩ | ⟨delayed, empty, outcome⟩⟩ :=
    afterWrite_cases system.ticks count system.core
  · rw [outcome]
    refine ⟨⟨sound.inside, sound.progress.trans quiet,
        fun _ writing => by simp [DiskPc.writing] at writing, sound.room⟩,
      sound.bounded, sound.apart, fun _ _ writing => by simp at writing, sound.prompt, sound.stage,
      sound.slot, fun delayed empty waiting => ?_, sound.closed,
      fun _ claimed => by simp [DiskPc.claimed] at claimed, ?_, fun gone => by simp at gone⟩
    · have flushing := sound.flushed delayed empty waiting
      simp [pc, DiskPc.flushing] at flushing
    · exact (everything_quiet rfl).trans kept
  · rw [outcome]
    have late := sound.not_early delayed
    have none : system.core.session.pending = [] := sound.taken delayed (by rw [pc]; rfl)
    rw [none, List.append_nil] at kept
    refine ⟨⟨Nat.zero_le _, sound.progress.trans quiet,
        fun _ writing => by simp [DiskPc.writing] at writing, fun _ _ _ => .inl rfl⟩,
      sound.inside, fun early => by simp [late] at early,
      fun early => by simp [late] at early, sound.prompt, sound.stage, sound.slot,
      fun prompt => absurd delayed (by simp_all), fun _ _ => rfl,
      fun _ claimed => by simp [DiskPc.claimed] at claimed, ?_, fun gone => by simp at gone⟩
    rw [everything_quiet rfl, current_empty rfl, List.append_nil]
    exact kept
  · rw [outcome]
    have late := sound.not_early delayed
    have none : system.core.session.pending = [] := sound.taken delayed (by rw [pc]; rfl)
    refine ⟨⟨sound.inside, sound.progress.trans quiet,
        fun _ writing => by simp [freeSessionFinal, DiskPc.writing] at writing, sound.room⟩,
      sound.bounded, sound.apart, fun early => by simp [late] at early, sound.prompt,
      fun stage => by simp [freeSessionFinal] at stage, sound.slot,
      fun prompt => absurd delayed (by simp_all [freeSessionFinal, freeSessionRes]), sound.closed,
      fun _ _ => none, ?_, fun _ => ⟨late, empty, none⟩⟩
    exact (everything_quiet rfl).trans kept

theorem Sound.pass {system : System} (sound : Sound system) (flag : Bool) {before next : DiskPc}
    (pc : system.core.disk = before) (quiet : before.writing = false)
    (unflushed : before.flushing = false) (idle : next.writing = false)
    (unclaimed : next.claimed = false) (alive : next ≠ .freed) :
    Sound { system with core := { system.core with
      session := { system.core.session with timeOutNeedFlushToDisk := flag }, disk := next } } := by
  subst pc
  refine sound.move flag next quiet idle alive (fun delayed empty waiting => ?_) (fun claimed => ?_)
  · have flushing := sound.flushed delayed empty waiting
    simp [unflushed] at flushing
  · simp [unclaimed] at claimed

theorem sound_free {system : System} (sound : Sound system) (pc : system.core.disk = .scan)
    (stage : system.core.session.inDeleteStage = 20)
    (prompt : system.core.session.needDelayFree = false) :
    Sound { system with core := freeSessionFinal (freeSessionRes system.core) } := by
  have quiet : system.core.disk.writing = false := by rw [pc]; rfl
  have late := sound.stage stage
  have empty := sound.closed late prompt
  have none : system.core.session.pending = [] := by
    by_contra waiting
    have flushing := sound.flushed prompt empty waiting
    simp [pc, DiskPc.flushing] at flushing
  have kept := sound.kept
  rw [everything_quiet quiet] at kept
  exact ⟨⟨sound.inside, sound.progress.trans quiet,
      fun _ writing => by simp [freeSessionFinal, DiskPc.writing] at writing, sound.room⟩,
    sound.bounded, sound.apart, fun early => by simp [late] at early, sound.prompt,
    fun stage => by simp [freeSessionFinal] at stage, sound.slot,
    fun _ _ waiting => absurd none waiting, sound.closed, fun _ _ => none,
    (everything_quiet rfl).trans kept, fun _ => ⟨late, empty, none⟩⟩

theorem sound_disk {system : System} {core : Core} {written : Nat} (sound : Sound system)
    (complete : ∀ buf, system.core.disk = .write buf →
      written = system.core.session.diskWriteBufLen)
    (stepped : diskStep 0 system.ticks written system.core = some core) :
    Sound { system with core := core } := by
  let flag := system.core.session.timeOutNeedFlushToDisk
  cases diskStep_cases stepped with
  | free pc stage prompt => exact sound_free sound pc stage prompt
  | stay pc => exact sound.pass flag pc rfl rfl rfl rfl (by simp)
  | visit pc next =>
      rcases next with rfl | rfl
      · exact sound.pass flag pc rfl rfl rfl rfl (by simp)
      · exact sound.pass flag pc rfl rfl rfl rfl (by simp)
  | flush pc => exact sound_flush sound pc
  | clearFlag pc =>
      exact sound.move false .timer (by rw [pc]; rfl) rfl (by simp) (fun _ _ _ => rfl)
        (fun claimed => by simp [DiskPc.claimed] at claimed)
  | due pc due =>
      refine sound.move flag .setFlag (by rw [pc]; rfl) rfl (by simp) (fun _ empty => ?_)
        (fun claimed => by simp [DiskPc.claimed] at claimed)
      simp [timerDue, empty] at due
  | notDue pc =>
      exact sound.move flag .pending (by rw [pc]; rfl) rfl (by simp) (fun _ _ _ => rfl)
        (fun claimed => by simp [DiskPc.claimed] at claimed)
  | setFlag pc => exact sound.pass true pc rfl rfl rfl rfl (by simp)
  | nothing pc reason =>
      have empty : system.core.session.pending = [] := by
        rcases reason with none | short
        · exact pending_none none
        · exact pending_empty (by omega)
      exact sound.move flag .scan (by rw [pc]; rfl) rfl (by simp)
        (fun _ _ waiting => absurd empty waiting) (fun _ => empty)
  | submit pc _ _ =>
      exact sound.move flag .claim (by rw [pc]; rfl) rfl (by simp) (fun _ _ _ => rfl)
        (fun claimed => by simp [DiskPc.claimed] at claimed)
  | refused pc reason =>
      have quiet : system.core.disk.writing = false := by rw [pc]; rfl
      have empty : system.core.session.pending = [] := by
        rcases reason with none | busy
        · exact pending_none none
        · simp [sound.progress, quiet] at busy
      exact sound.move flag (.finish 0) quiet rfl (by simp)
        (fun _ _ waiting => absurd empty waiting) (fun _ => empty)
  | claim pc pointer _ => exact sound_claim sound pc pointer
  | write pc _ =>
      rw [complete _ pc]
      exact sound_write sound pc
  | complete pc => exact sound_complete sound pc
  | finish pc => exact sound_finish sound pc

theorem sound_delayFree {system : System} (sound : Sound system) (net : system.net = .locking)
    (closable : system.core.disk.closable system.core.session.membufOffset) :
    Sound { system with
      core := { system.core with session := delayFree system.core.session }, net := .marking } := by
  have early : system.net.early = true := by rw [net]; rfl
  have prompt := sound.prompt early
  have alive : system.core.disk ≠ .freed := by
    intro gone
    simp [(sound.freed gone).1] at early
  have buffers : BufferInv { system with
      core := { system.core with session := delayFree system.core.session }, net := .marking } :=
    bufferInv_close sound.toBufferInv (by simp only [closeStep, net])
  have unclaimed : ∀ buf, system.core.disk ≠ .write buf := by
    intro buf writing
    simp [writing, DiskPc.closable] at closable
  have emptied : system.core.disk.claimed = true → system.core.session.membufOffset = 0 := by
    intro claimed
    cases pc : system.core.disk <;> simp_all [DiskPc.claimed, DiskPc.closable]
  have kept := sound.kept
  by_cases none : system.core.session.diskBuf.isNone = true
  · have pointer : system.core.session.diskBuf = Option.none := by simpa using none
    simp only [delayFree, none, if_true] at buffers ⊢
    refine ⟨buffers, sound.inside, fun early => by simp [NetPc.early] at early,
      fun early => by simp [NetPc.early] at early, fun early => by simp [NetPc.early] at early,
      fun _ => rfl, sound.slot, fun prompt => by simp at prompt, fun _ _ => rfl,
      fun _ claimed => pending_empty (emptied claimed), ?_, fun gone => absurd gone alive⟩
    rw [Core.everything, inFlight_unclaimed unclaimed, pending_none pointer, List.append_nil,
      List.append_nil] at kept
    rw [Core.everything, inFlight_unclaimed (by exact unclaimed), current_empty rfl,
      List.append_nil, List.append_nil]
    exact kept
  · simp only [delayFree, none, Bool.false_eq_true, if_false] at buffers ⊢
    refine ⟨buffers, sound.bounded, fun early => by simp [NetPc.early] at early,
      fun early => by simp [NetPc.early] at early, fun early => by simp [NetPc.early] at early,
      fun _ => rfl, sound.slot, fun prompt => by simp at prompt, fun _ prompt => by simp at prompt,
      fun _ claimed => ?_, kept, fun gone => absurd gone alive⟩
    by_contra waiting
    have flushing := sound.flushed prompt (emptied claimed) waiting
    cases pc : system.core.disk <;> simp_all [DiskPc.claimed, DiskPc.flushing]

theorem sound_close {system after : System} (sound : Sound system)
    (closable : system.net = .locking →
      system.core.disk.closable system.core.session.membufOffset)
    (stepped : closeStep system = some after) : Sound after := by
  have buffers := bufferInv_close sound.toBufferInv stepped
  cases pc : system.net <;> simp only [closeStep, pc] at stepped
  case live =>
    have early : system.net.early = true := by rw [pc]; rfl
    rw [← Option.some.inj stepped] at buffers ⊢
    exact ⟨buffers, sound.bounded, fun _ => sound.apart early, fun _ => sound.owned early,
      fun _ => sound.prompt early, fun stage => by simp [freeSessionStep1] at stage, sound.slot,
      sound.flushed, fun late => by simp [NetPc.early] at late, sound.taken, sound.kept,
      fun gone => absurd (sound.freed gone).1 (by simp [early])⟩
  case closing =>
    have early : system.net.early = true := by rw [pc]; rfl
    have alive : system.core.disk ≠ .freed := by
      intro gone
      simp [(sound.freed gone).1] at early
    have unstaged : system.core.session.inDeleteStage ≠ 20 := by
      intro stage
      simp [sound.stage stage] at early
    rw [← Option.some.inj stepped] at buffers ⊢
    refine ⟨buffers, sound.bounded, fun _ => sound.apart early, fun _ => sound.owned early,
      fun _ => sound.prompt early, fun stage => absurd stage unstaged, sound.slot, sound.flushed,
      fun late _ => ?_, sound.taken, sound.kept, fun gone => absurd gone alive⟩
    have slot := sound.slot
    cases delay : needsDelay system.core.session with
    | true => simp [delay, NetPc.early] at late
    | false =>
        simp only [needsDelay, Bool.and_eq_false_iff, decide_eq_false_iff_not] at delay
        dsimp only
        omega
  case locking =>
    rw [← Option.some.inj stepped]
    exact sound_delayFree sound pc (closable pc)
  case marking =>
    have late : system.net.early = false := by rw [pc]; rfl
    rw [← Option.some.inj stepped] at buffers ⊢
    exact ⟨buffers, sound.bounded, fun early => by simp [NetPc.early] at early,
      fun early => by simp [NetPc.early] at early, fun early => by simp [NetPc.early] at early,
      fun _ => rfl, sound.slot, sound.flushed, fun _ => sound.closed late, sound.taken, sound.kept,
      fun gone => ⟨rfl, (sound.freed gone).2⟩⟩
  case done => contradiction

theorem sound_tick {system : System} (sound : Sound system) :
    Sound { system with ticks := system.ticks + 1 } :=
  ⟨⟨sound.inside, sound.progress, sound.idle, sound.room⟩, sound.bounded, sound.apart,
    sound.owned, sound.prompt, sound.stage, sound.slot, sound.flushed, sound.closed, sound.taken,
    sound.kept, sound.freed⟩

theorem sound_step {system after : System} {action : Action} (sound : Sound system)
    (careful : Careful system action) (stepped : system.step action = some after) :
    Sound after := by
  cases action with
  | tick => exact Option.some.inj stepped ▸ sound_tick sound
  | disk written =>
      obtain ⟨core, moved, rfl⟩ := Option.map_eq_some_iff.mp stepped
      exact sound_disk sound careful moved
  | drain calloc buf len => exact sound_drain sound careful stepped
  | close => exact sound_close sound careful stepped

theorem sound_reachable {system : System} (reached : machine.Reachable Careful system) :
    Sound system := by
  apply reached.invariant
  · rintro state ⟨ip, slotIdx, ticks, networkBytes, rfl⟩
    exact sound_start ip slotIdx ticks networkBytes
  · exact fun state action after sound careful stepped => sound_step sound careful stepped

end DirtyCode.LogCollect
