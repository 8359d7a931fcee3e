import DirtyCode.Lib.Machine
import DirtyCode.LogCollect.Buffer
import DirtyCode.LogCollect.DiskThread

/-!
`pass2write` cut at its lock operations. A call that spun on
`disk_io_in_progress` takes the lock again and switches without another look, so
the two threads are kept apart only by what the disk thread does in that gap.
-/

namespace DirtyCode.LogCollect

open Lib

inductive CallPc
  | recheck -- the unlocked test of the room
  | locked -- the test found none, the section is next
  | spin
  | relock -- `disk_io_in_progress` was seen 0, the LOCK behind it is next
  | setupCopy
  | switchedCopy
  deriving DecidableEq, Repr

structure Call where
  pc : CallPc
  buf : Memory
  len : Nat

structure Handoff where
  core : Core
  ticks : Nat
  call : Option Call

inductive Turn
  | tick
  | disk (written : Nat)
  | read (buf : Memory) (len : Nat)
  | net (calloc : Nat → Bool)

def Exit.next : Exit → CallPc
  | .setupCopy => .setupCopy
  | .recheck => .recheck
  | .spin => .spin
  | .switched => .switchedCopy

def Handoff.proceed (handoff : Handoff) (session : Session) (call : Option Call) : Handoff :=
  { handoff with core := { handoff.core with session := session }, call := call }

-- the next step of the network thread's call
def callStep (calloc : Nat → Bool) (handoff : Handoff) : Option Handoff :=
  let session := handoff.core.session
  match handoff.call with
  | none => none
  | some call =>
      match call.pc with
      | .recheck => some (handoff.proceed session (some { call with
          pc := if session.bufFull call.len then .locked else .setupCopy }))
      | .locked =>
          let left := pass2writeLocked handoff.ticks calloc session call.len
          some (handoff.proceed left.2 (some { call with pc := left.1.next }))
      | .spin =>
          if session.diskIoInProgress then none
          else some (handoff.proceed session (some { call with pc := .relock }))
      | .relock => some (handoff.proceed session.submitBuf (some { call with
          pc := .switchedCopy }))
      | .setupCopy | .switchedCopy =>
          some (handoff.proceed (session.copyIn call.buf call.len) none)

def Handoff.step (handoff : Handoff) : Turn → Option Handoff
  | .tick => some { handoff with ticks := handoff.ticks + 1 }
  | .disk written => (diskStep 0 handoff.ticks written handoff.core).map fun core =>
      { handoff with core := core }
  | .read buf len =>
      let session := handoff.core.session
      if handoff.call.isNone ∧ 0 ≤ session.slotIdx ∧ session.bufFullStuck = false ∧ 1 ≤ len ∧
          len ≤ session.netReadBufLen then
        some (handoff.proceed { session with networkBytes := session.networkBytes + len }
          (some { pc := .recheck, buf := buf, len := len }))
      else none
  | .net calloc => callStep calloc handoff

def startHandoff (ip : Int) (slotIdx ticks networkBytes : Nat) : Handoff where
  core := startCore ip slotIdx ticks networkBytes
  ticks := ticks
  call := none

def handoffMachine : Machine Handoff Turn where
  init handoff := ∃ ip slotIdx ticks networkBytes,
    handoff = startHandoff ip slotIdx ticks networkBytes
  step := Handoff.step

/-- The buffer that a running `write2disk` holds. -/
def DiskPc.reads : DiskPc → Option Buf
  | .write buf => some buf
  | .complete buf _ => some buf
  | _ => none

/-- The step switches the buffers and makes the full one pending. -/
def Handoff.switches (handoff : Handoff) : Turn → Prop
  | .disk _ => handoff.core.disk = .flush ∧
      (forceFlush handoff.core.session).curBuf ≠ handoff.core.session.curBuf
  | .net calloc => ∃ call, handoff.call = some call ∧ (call.pc = .relock ∨
      call.pc = .locked ∧ (pass2writeLocked handoff.ticks calloc handoff.core.session
        call.len).1 = .switched)
  | _ => False

def Handoff.enlarges (handoff : Handoff) : Turn → Prop
  | .net _ => ∃ call, handoff.call = some call ∧ call.pc = .locked ∧
      handoff.core.session.diskBuf.isSome = true
  | _ => False

structure Separated (handoff : Handoff) (turn : Turn) (after : Handoff) : Prop where
  current : ∀ buf, after.core.disk.reads = some buf → after.core.session.curBuf ≠ buf
  pending : handoff.switches turn → handoff.core.session.diskBuf = none
  enlarge : handoff.enlarges turn → handoff.core.session.diskIoInProgress = false

/-- The LOCK behind the spin still finds nothing pending and no write. -/
def RelockFree (handoff : Handoff) : Turn → Prop
  | .net _ => (∃ call, handoff.call = some call ∧ call.pc = .relock) →
      handoff.core.session.diskBuf = none ∧ handoff.core.session.diskIoInProgress = false
  | _ => True

/-- What the two threads keep apart in a session that is not closed. -/
structure Exclusive (core : Core) : Prop where
  progress : core.session.diskIoInProgress = core.disk.reads.isSome
  idle : core.disk.reads.isSome = true → core.session.diskBuf = none
  owned : ∀ buf, core.disk.reads = some buf → core.session.curBuf ≠ buf
  apart : core.session.Apart
  stage : core.session.inDeleteStage = 0
  prompt : core.session.needDelayFree = false

theorem exclusive_start (ip : Int) (slotIdx ticks networkBytes : Nat) :
    Exclusive (startHandoff ip slotIdx ticks networkBytes).core := by
  constructor <;> simp [startHandoff, startCore, getNewSession, DiskPc.reads, Session.Apart]

theorem Exclusive.move {core : Core} (exclusive : Exclusive core) (flag : Bool) (next : DiskPc)
    (quiet : core.disk.reads = none) (idle : next.reads = none) :
    Exclusive { core with
      session := { core.session with timeOutNeedFlushToDisk := flag }, disk := next } := by
  obtain ⟨progress, _, _, apart, stage, prompt⟩ := exclusive
  rw [quiet] at progress
  exact ⟨by simpa [idle] using progress, fun reads => by simp [idle] at reads,
    fun buf reads => by simp [idle] at reads, apart, stage, prompt⟩

theorem exclusive_disk {ticks written : Nat} {core after : Core} (exclusive : Exclusive core)
    (stepped : diskStep 0 ticks written core = some after) : Exclusive after := by
  let flag := core.session.timeOutNeedFlushToDisk
  have ⟨progress, idle, owned, apart, stage, prompt⟩ := exclusive
  cases diskStep_cases stepped with
  | free _ closed _ => simp [stage] at closed
  | stay pc | due pc _ | notDue pc | nothing pc _ | submit pc _ _ | refused pc _ =>
      exact exclusive.move flag _ (by rw [pc]; rfl) rfl
  | visit pc next =>
      rcases next with rfl | rfl
      · exact exclusive.move flag .flush (by rw [pc]; rfl) rfl
      · exact exclusive.move flag .timer (by rw [pc]; rfl) rfl
  | clearFlag pc => exact exclusive.move false .timer (by rw [pc]; rfl) rfl
  | setFlag pc => exact exclusive.move true .scan (by rw [pc]; rfl) rfl
  | flush pc =>
      by_cases ready : (core.session.diskBuf.isNone && !core.session.diskIoInProgress) = true
      · simp only [forceFlush, ready, if_true]
        rw [pc] at progress
        exact ⟨progress, fun reads => by simp [DiskPc.reads] at reads,
          fun buf reads => by simp [DiskPc.reads] at reads, Session.switchBuf_apart _, stage,
          prompt⟩
      · simp only [forceFlush, ready, Bool.false_eq_true, if_false]
        exact exclusive.move flag .clearFlag (by rw [pc]; rfl) rfl
  | @claim buf pc pointer _ =>
      refine ⟨rfl, fun _ => rfl, fun other reads => ?_, fun other waiting => ?_, stage, prompt⟩
      · simp only [DiskPc.reads, Option.some.injEq] at reads
        exact reads ▸ (apart buf pointer).symm
      · simp [claimBuf] at waiting
  | @write buf pc _ =>
      rw [pc] at progress idle owned
      exact ⟨progress, idle, owned, apart, stage, prompt⟩
  | complete pc =>
      exact ⟨rfl, fun reads => by simp [DiskPc.reads] at reads,
        fun buf reads => by simp [DiskPc.reads] at reads, apart, stage, prompt⟩
  | @finish count pc =>
      rw [pc] at progress
      obtain ⟨last, bytes, ⟨_, outcome⟩ | ⟨delayed, _⟩ | ⟨delayed, _⟩⟩ :=
        afterWrite_cases ticks count core
      · rw [outcome]
        exact ⟨progress, fun reads => by simp [DiskPc.reads] at reads,
          fun buf reads => by simp [DiskPc.reads] at reads, apart, stage, prompt⟩
      · simp [prompt] at delayed
      · simp [prompt] at delayed

theorem Exclusive.quiet {core : Core} (exclusive : Exclusive core)
    (free : core.session.diskIoInProgress = false) : core.disk.reads = none := by
  rw [exclusive.progress] at free
  simpa using free

theorem exclusive_submit {core : Core} (exclusive : Exclusive core)
    (free : core.session.diskIoInProgress = false) :
    Exclusive { core with session := core.session.submitBuf } := by
  have quiet := exclusive.quiet free
  exact ⟨exclusive.progress, fun reads => by simp [quiet] at reads,
    fun buf reads => by simp [quiet] at reads, Session.switchBuf_apart _, exclusive.stage,
    exclusive.prompt⟩

theorem exclusive_enlarged {core : Core} (ticks : Nat) (calloc : Nat → Bool) (gap : Nat)
    (stuck : Bool) (exclusive : Exclusive core) (pending : core.session.diskBuf.isSome = true) :
    Exclusive { core with session := { (enlargeSessionBuf ticks calloc core.session gap).2 with
      bufFullStuck := stuck } } := by
  have ⟨progress, idle, owned, apart, stage, prompt⟩ := exclusive
  obtain ⟨netReadBufLen, ⟨_, raised⟩ | ⟨_, _, moved⟩⟩ :=
    enlargeSessionBuf_cases ticks calloc core.session gap
  · rw [raised]
    exact ⟨progress, idle, owned, apart, stage, prompt⟩
  · have quiet : core.disk.reads = none := by
      by_contra reads
      simp [idle (Option.isSome_iff_ne_none.mpr reads)] at pending
    rw [moved, Session.moveTo_keeps _ (by exact pending)]
    refine ⟨progress, fun reads => by simp [quiet] at reads,
      fun buf reads => by simp [quiet] at reads, fun other waiting => ?_, stage, prompt⟩
    simp only [Option.some.injEq] at waiting
    exact waiting ▸ Buf.other_ne .buf1

theorem pass2writeLocked_cases (ticks : Nat) (calloc : Nat → Bool) (session : Session) (len : Nat) :
    (session.diskBuf.isSome = true ∧ ∃ stuck,
      (pass2writeLocked ticks calloc session len).1 ≠ .switched ∧
      (pass2writeLocked ticks calloc session len).2 =
        { (enlargeSessionBuf ticks calloc session (session.membufOffset + len +
          session.netReadBufLen - session.memBufLen)).2 with bufFullStuck := stuck }) ∨
    (session.diskBuf = none ∧ session.diskIoInProgress = true ∧
      pass2writeLocked ticks calloc session len = (.spin, session)) ∨
    (session.diskBuf = none ∧ session.diskIoInProgress = false ∧
      pass2writeLocked ticks calloc session len = (.switched, session.submitBuf)) := by
  cases pointer : session.diskBuf with
  | none =>
      cases busy : session.diskIoInProgress with
      | true => exact .inr (.inl ⟨rfl, rfl, by simp [pass2writeLocked, pointer, busy]⟩)
      | false => exact .inr (.inr ⟨rfl, rfl, by simp [pass2writeLocked, pointer, busy]⟩)
  | some other =>
      refine .inl ⟨rfl, ?_⟩
      simp only [pass2writeLocked, pointer, Option.isSome_some, Bool.true_or, if_true]
      split
      · exact ⟨true, by simp, rfl⟩
      · exact ⟨_, by simp, rfl⟩

theorem exclusive_call {handoff after : Handoff} {calloc : Nat → Bool}
    (exclusive : Exclusive handoff.core) (free : RelockFree handoff (.net calloc))
    (stepped : callStep calloc handoff = some after) : Exclusive after.core := by
  have ⟨progress, idle, owned, apart, stage, prompt⟩ := exclusive
  cases current : handoff.call with
  | none => simp [callStep, current] at stepped
  | some call =>
      cases pc : call.pc <;> simp only [callStep, current, pc] at stepped
      case recheck =>
        exact Option.some.inj stepped ▸ ⟨progress, idle, owned, apart, stage, prompt⟩
      case locked =>
        rw [← Option.some.inj stepped]
        obtain ⟨pending, stuck, _, enlarged⟩ | ⟨_, _, spinning⟩ | ⟨_, quiet, switched⟩ :=
          pass2writeLocked_cases handoff.ticks calloc handoff.core.session call.len
        · simp only [Handoff.proceed, enlarged]
          exact exclusive_enlarged _ _ _ stuck exclusive pending
        · simp only [Handoff.proceed, spinning]
          exact ⟨progress, idle, owned, apart, stage, prompt⟩
        · simp only [Handoff.proceed, switched]
          exact exclusive_submit exclusive quiet
      case spin =>
        split at stepped
        · contradiction
        · exact Option.some.inj stepped ▸ ⟨progress, idle, owned, apart, stage, prompt⟩
      case relock =>
        rw [← Option.some.inj stepped]
        exact exclusive_submit exclusive (free ⟨call, current, pc⟩).2
      case setupCopy =>
        exact Option.some.inj stepped ▸ ⟨progress, idle, owned, apart, stage, prompt⟩
      case switchedCopy =>
        exact Option.some.inj stepped ▸ ⟨progress, idle, owned, apart, stage, prompt⟩

theorem exclusive_step {handoff after : Handoff} {turn : Turn}
    (exclusive : Exclusive handoff.core) (free : RelockFree handoff turn)
    (stepped : handoff.step turn = some after) : Exclusive after.core := by
  have ⟨progress, idle, owned, apart, stage, prompt⟩ := exclusive
  cases turn with
  | tick => exact Option.some.inj stepped ▸ exclusive
  | disk written =>
      obtain ⟨core, moved, rfl⟩ := Option.map_eq_some_iff.mp stepped
      exact exclusive_disk exclusive moved
  | read buf len =>
      simp only [Handoff.step] at stepped
      split at stepped
      · exact Option.some.inj stepped ▸ ⟨progress, idle, owned, apart, stage, prompt⟩
      · contradiction
  | net calloc => exact exclusive_call exclusive free stepped

theorem Buf.eq_other {buf other : Buf} (distinct : buf ≠ other) : buf.other = other := by
  cases buf <;> cases other <;> simp_all [Buf.other]

theorem exclusive_switches {handoff : Handoff} {turn : Turn} (free : RelockFree handoff turn)
    (switches : handoff.switches turn) : handoff.core.session.diskBuf = none := by
  cases turn with
  | tick => exact switches.elim
  | read _ _ => exact switches.elim
  | disk written =>
      have moved := switches.2
      simp only [forceFlush] at moved
      split at moved
      · rename_i ready
        simp only [Bool.and_eq_true, Option.isNone_iff_eq_none] at ready
        exact ready.1
      · exact absurd rfl moved
  | net calloc =>
      obtain ⟨call, current, relock | ⟨_, switched⟩⟩ := switches
      · exact (free ⟨call, current, relock⟩).1
      · obtain ⟨_, _, other, _⟩ | ⟨none, _⟩ | ⟨none, _⟩ :=
          pass2writeLocked_cases handoff.ticks calloc handoff.core.session call.len
        · exact absurd switched other
        · exact none
        · exact none

theorem exclusive_enlarges {handoff : Handoff} {turn : Turn} (exclusive : Exclusive handoff.core)
    (enlarges : handoff.enlarges turn) : handoff.core.session.diskIoInProgress = false := by
  cases turn with
  | net calloc =>
      obtain ⟨_, _, _, pending⟩ := enlarges
      by_contra busy
      have reads := exclusive.progress.symm.trans (by simpa using busy)
      simp [exclusive.idle reads] at pending
  | _ => exact enlarges.elim

/-- One step keeps the threads apart exactly when it does not take the lock
behind the spin on top of new work of the disk thread. -/
theorem separated_iff_relockFree {handoff after : Handoff} {turn : Turn}
    (exclusive : Exclusive handoff.core) (stepped : handoff.step turn = some after) :
    Separated handoff turn after ↔ RelockFree handoff turn := by
  constructor
  · intro separated
    cases turn with
    | net calloc =>
        rintro ⟨call, current, relock⟩
        have none := separated.pending ⟨call, current, .inl relock⟩
        refine ⟨none, ?_⟩
        cases busy : handoff.core.session.diskIoInProgress with
        | false => rfl
        | true =>
            obtain ⟨buf, reads⟩ := Option.isSome_iff_exists.mp (exclusive.progress.symm.trans busy)
            simp only [Handoff.step, callStep, current, relock, Option.some.injEq] at stepped
            have moved : after.core.session.curBuf = handoff.core.session.curBuf.other := by
              rw [← stepped]
              rfl
            have same : after.core.disk.reads = some buf := by
              rw [← stepped]
              exact reads
            have taken := Buf.eq_other (exclusive.owned buf reads)
            exact absurd (moved.trans taken) (separated.current buf same)
    | _ => trivial
  · intro free
    exact ⟨(exclusive_step exclusive free stepped).owned, exclusive_switches free,
      exclusive_enlarges exclusive⟩

/-- Over a whole run the network and the disk thread keep out of each other's
buffers exactly when every LOCK behind the spin finds the session as the spin
left it. -/
theorem handoff_separated_iff (ip : Int) (slotIdx ticks networkBytes : Nat) (turns : List Turn) :
    handoffMachine.Along Separated (startHandoff ip slotIdx ticks networkBytes) turns ↔
      handoffMachine.Along (fun handoff turn _ => RelockFree handoff turn)
        (startHandoff ip slotIdx ticks networkBytes) turns := by
  apply Machine.along_iff fun handoff : Handoff => Exclusive handoff.core
  · exact fun handoff turn after exclusive stepped => separated_iff_relockFree exclusive stepped
  · exact fun handoff turn after exclusive free stepped => exclusive_step exclusive free stepped
  · exact exclusive_start ip slotIdx ticks networkBytes

def netTurns (steps : Nat) : List Turn := List.replicate steps (.net fun _ => true)

def diskTurns (steps : Nat) : List Turn := List.replicate steps (.disk 61440)

def fullRead (steps : Nat) : List Turn := .read (fun _ => 0) 4096 :: netTurns steps

-- both buffers filled, one of them written, and a timer flush behind the spin
def flushedGap : List Turn :=
  (List.replicate 15 (fullRead 2)).flatten ++ fullRead 3 ++ diskTurns 5 ++
    (List.replicate 14 (fullRead 2)).flatten ++ fullRead 2 ++ diskTurns 3 ++ netTurns 1 ++
    List.replicate 241 .tick ++ diskTurns 7

theorem relock_overwrites_pending :
    ¬∀ ip slotIdx ticks networkBytes turns,
      handoffMachine.Along Separated (startHandoff ip slotIdx ticks networkBytes) turns := by
  intro always
  have ran : (handoffMachine.run (startHandoff 0 0 0 0) flushedGap).map
      (fun handoff => (handoff.call.map Call.pc, handoff.core.session.diskBuf)) =
        some (some .relock, some .buf2) := by
    decide +kernel
  obtain ⟨handoff, finished, outcome⟩ := Option.map_eq_some_iff.mp ran
  simp only [Prod.mk.injEq, Option.map_eq_some_iff] at outcome
  obtain ⟨⟨call, current, relock⟩, pending⟩ := outcome
  have stepped : handoffMachine.step handoff (.net fun _ => true) = some (handoff.proceed
      handoff.core.session.submitBuf (some { call with pc := .switchedCopy })) := by
    simp only [handoffMachine, Handoff.step, callStep, current, relock]
  have separated := (always 0 0 0 0 (flushedGap ++ [.net fun _ => true])).last finished stepped
  have none := separated.pending ⟨call, current, .inl relock⟩
  simp [pending] at none

end DirtyCode.LogCollect
