import DirtyCode.LogCollect.ForcedDisconnect
import DirtyCode.LogCollect.Handoff

/-!
The branch of `disk_write_thread` that reports a buffer of length 0 for the disk.
The network thread's call is cut at its lock operations as in `Handoff`, and the
session may be closed by either thread.
-/

namespace DirtyCode.LogCollect

open Lib

structure Threads where
  handoff : Handoff
  net : NetPc

inductive ThreadStep
  | tick
  | disk (written : Nat)
  | read (buf : Memory) (len : Nat)
  | net (calloc : Nat → Bool)
  | close

def Threads.session (threads : Threads) : Session := threads.handoff.core.session

def Threads.disk (threads : Threads) : DiskPc := threads.handoff.core.disk

def Threads.step (forceDisconnectSeconds : Nat) (threads : Threads) :
    ThreadStep → Option Threads
  | .tick => some { threads with
      handoff := { threads.handoff with ticks := threads.handoff.ticks + 1 } }
  | .disk written =>
      (diskStep forceDisconnectSeconds threads.handoff.ticks written threads.handoff.core).map
        fun core => { threads with handoff := { threads.handoff with core := core } }
  | .read buf len =>
      if threads.net = .live then
        (threads.handoff.step (.read buf len)).map fun handoff =>
          { threads with handoff := handoff }
      else none
  | .net calloc =>
      (threads.handoff.step (.net calloc)).map fun handoff => { threads with handoff := handoff }
  | .close =>
      if threads.handoff.call.isNone then
        (closeStep ⟨threads.handoff.core, threads.handoff.ticks, threads.net, []⟩).map
          fun system =>
            { handoff := { threads.handoff with core := system.core }, net := system.net }
      else none

def startThreads (ip : Int) (slotIdx ticks networkBytes : Nat) : Threads where
  handoff := startHandoff ip slotIdx ticks networkBytes
  net := .live

def threadMachine (forceDisconnectSeconds : Nat) : Machine Threads ThreadStep where
  init threads := ∃ ip slotIdx ticks networkBytes,
    threads = startThreads ip slotIdx ticks networkBytes
  step := Threads.step forceDisconnectSeconds

/-- The disk thread never finds a buffer of length 0 handed to it. -/
def NoEmptyBuffer (threads : Threads) : ThreadStep → Prop
  | .disk _ => threads.disk = .pending → threads.session.diskBuf ≠ none →
      1 ≤ threads.session.diskWriteBufLen
  | _ => True

def Call.switches (session : Session) (call : Call) : Prop :=
  call.pc = .relock ∨
    call.pc = .locked ∧ session.diskBuf = none ∧ session.diskIoInProgress = false

/-- Whoever hands `cur_buf` to the disk thread has something in it, except where the
session is closed under a write after which it is freed. -/
def HandsOverBytes (threads : Threads) : ThreadStep → Prop
  | .net _ => ∀ call, threads.handoff.call = some call → call.switches threads.session →
      1 ≤ threads.session.membufOffset
  | .close => threads.net = .locking → threads.session.diskBuf = none →
      1 ≤ threads.session.membufOffset ∨ threads.disk.claimed = true
  | _ => True

structure Leaving (threads : Threads) : Prop where
  claimed : threads.disk.claimed = true
  delayed : threads.session.needDelayFree = true
  empty : threads.session.membufOffset = 0
  closed : threads.net = .marking ∨ threads.net = .done
  quiet : threads.handoff.call = none

/-- Where the timer flag may be set. -/
def DiskPc.mayFlush : DiskPc → Bool
  | .scan => true
  | .visit => true
  | .flush => true
  | .clearFlag => true
  | .freed => true
  | _ => false

structure LengthInv (threads : Threads) : Prop where
  progress : threads.session.diskIoInProgress = threads.disk.reads.isSome
  waiting : threads.session.diskBuf ≠ none → threads.disk ≠ .freed →
    1 ≤ threads.session.diskWriteBufLen ∨ Leaving threads
  writing : threads.disk.reads.isSome = true → threads.session.diskBuf ≠ none → Leaving threads
  flagged : threads.session.timeOutNeedFlushToDisk = true → threads.disk.mayFlush = true
  flush : threads.session.timeOutNeedFlushToDisk = true ∨ threads.disk = .flush ∨
    threads.disk = .setFlag →
      threads.session.diskBuf ≠ none ∨ 1 ≤ threads.session.membufOffset
  spun : ∀ call, threads.handoff.call = some call → call.pc = .spin ∨ call.pc = .relock →
    threads.session.diskBuf = none ∨ threads.session.membufOffset = 0
  relocking : ∀ call, threads.handoff.call = some call → call.pc = .relock →
    threads.session.diskIoInProgress = false ∨ threads.session.membufOffset = 0

theorem lengthInv_start (ip : Int) (slotIdx ticks networkBytes : Nat) :
    LengthInv (startThreads ip slotIdx ticks networkBytes) := by
  constructor <;>
    simp [startThreads, startHandoff, startCore, getNewSession, Threads.session, Threads.disk,
      DiskPc.reads]

theorem noEmptyBuffer_of_inv {threads : Threads} (inv : LengthInv threads)
    (label : ThreadStep) : NoEmptyBuffer threads label := by
  cases label with
  | disk written =>
      intro pc pending
      rcases inv.waiting pending (by simp [pc]) with long | leaving
      · exact long
      · have claimed := leaving.claimed
        rw [pc] at claimed
        contradiction
  | _ => trivial

def Threads.withCore (threads : Threads) (core : Core) : Threads :=
  { threads with handoff := { threads.handoff with core := core } }

section

variable {threads : Threads}

theorem LengthInv.move (inv : LengthInv threads) (flag : Bool) (next : DiskPc)
    (rest : threads.disk.claimed = false) (idle : next.reads = none)
    (flagged : flag = true → next.mayFlush = true)
    (flush : flag = true ∨ next = .flush ∨ next = .setFlag →
      threads.session.diskBuf ≠ none ∨ 1 ≤ threads.session.membufOffset)
    (living : threads.disk ≠ .freed) :
    LengthInv (threads.withCore { threads.handoff.core with
      session := { threads.session with timeOutNeedFlushToDisk := flag }, disk := next }) := by
  have quiet : threads.disk.reads = none := by
    cases pc : threads.disk <;> simp_all [DiskPc.claimed, DiskPc.reads]
  refine ⟨?_, ?_, ?_, flagged, flush, inv.spun, inv.relocking⟩
  · exact inv.progress.trans (by rw [quiet]; exact congrArg Option.isSome idle.symm)
  · intro pending _
    rcases inv.waiting pending living with long | leaving
    · exact .inl long
    · rw [leaving.claimed] at rest
      contradiction
  · intro writing
    rw [show (threads.withCore _).disk = next from rfl, idle] at writing
    contradiction

theorem LengthInv.unflagged (inv : LengthInv threads) (pc : threads.disk.mayFlush = false) :
    threads.session.timeOutNeedFlushToDisk = false := by
  cases flag : threads.session.timeOutNeedFlushToDisk with
  | false => rfl
  | true =>
      rw [inv.flagged flag] at pc
      contradiction

theorem not_flushing {flag : Bool} {disk : DiskPc} (down : flag = false) (flush : disk ≠ .flush)
    (setFlag : disk ≠ .setFlag) : ¬(flag = true ∨ disk = .flush ∨ disk = .setFlag) := by
  rintro (raised | here | here)
  · exact Bool.false_ne_true (down.symm.trans raised)
  · exact flush here
  · exact setFlag here

theorem LengthInv.moveDown (inv : LengthInv threads) (next : DiskPc)
    (rest : threads.disk.claimed = false) (idle : next.reads = none)
    (down : threads.disk.mayFlush = false) (flush : next ≠ .flush) (setFlag : next ≠ .setFlag) :
    LengthInv (threads.withCore { threads.handoff.core with disk := next }) := by
  have flag := inv.unflagged down
  have living : threads.disk ≠ .freed := by
    intro freed
    rw [freed] at down
    contradiction
  refine inv.move threads.session.timeOutNeedFlushToDisk next rest idle ?_ ?_ living
  · rw [flag]
    exact fun raised => absurd raised Bool.false_ne_true
  · exact fun due => absurd due (not_flushing flag flush setFlag)

theorem LengthInv.freed (inv : LengthInv threads) {core : Core} (disk : core.disk = .freed)
    (progress : core.session.diskIoInProgress = false)
    (offset : core.session.membufOffset = threads.session.membufOffset)
    (pointer : core.session.diskBuf = threads.session.diskBuf)
    (flag : core.session.timeOutNeedFlushToDisk = threads.session.timeOutNeedFlushToDisk) :
    LengthInv (threads.withCore core) := by
  have freed : (threads.withCore core).disk = .freed := disk
  refine ⟨?_, fun _ living => absurd freed living, ?_, ?_, ?_, ?_, fun _ _ _ => .inl progress⟩
  · rw [freed]
    exact progress
  · rw [freed]
    exact fun raised => absurd raised Bool.false_ne_true
  · rw [freed]
    exact fun _ => rfl
  · rw [freed]
    rintro (raised | here | here)
    · have kept := inv.flush (.inl (flag.symm.trans raised))
      rw [← pointer, ← offset] at kept
      exact kept
    · contradiction
    · contradiction
  · intro call current spun
    have kept := inv.spun call current spun
    rw [← pointer, ← offset] at kept
    exact kept

theorem lengthInv_flush (inv : LengthInv threads) (pc : threads.disk = .flush) :
    LengthInv (threads.withCore { threads.handoff.core with
      session := forceFlush threads.session, disk := .clearFlag }) := by
  have living : threads.disk ≠ .freed := by simp [pc]
  have rest : threads.disk.claimed = false := by rw [pc]; rfl
  cases ready : threads.session.diskBuf.isNone && !threads.session.diskIoInProgress with
  | false =>
      have same : forceFlush threads.session = threads.session := by
        simp only [forceFlush, ready, Bool.false_eq_true, if_false]
      rw [same]
      refine inv.move threads.session.timeOutNeedFlushToDisk .clearFlag rest rfl (fun _ => rfl) ?_
        living
      exact fun _ => inv.flush (.inr (.inl pc))
  | true =>
      have switched : forceFlush threads.session = threads.session.switchBuf := by
        simp only [forceFlush, ready, if_true]
      simp only [Bool.and_eq_true, Option.isNone_iff_eq_none, Bool.not_eq_true'] at ready
      have buffered : 1 ≤ threads.session.membufOffset := by
        rcases inv.flush (.inr (.inl pc)) with pending | buffered
        · exact absurd ready.1 pending
        · exact buffered
      rw [switched]
      refine ⟨ready.2, fun _ _ => .inl buffered, fun reads => absurd reads Bool.false_ne_true,
        fun _ => rfl, ?_, ?_, ?_⟩
      · exact fun _ => .inl (Option.some_ne_none _)
      · exact fun _ _ _ => .inr rfl
      · exact fun _ _ _ => .inr rfl

theorem lengthInv_claim (inv : LengthInv threads) {buf : Buf} (pc : threads.disk = .claim)
    (pointer : threads.session.diskBuf = some buf) :
    LengthInv (threads.withCore { threads.handoff.core with
      session := claimBuf threads.session, disk := .write buf }) := by
  have flag := inv.unflagged (by rw [pc]; rfl)
  refine ⟨rfl, ?_, ?_, ?_, ?_, ?_, ?_⟩
  · exact fun pending _ => absurd rfl pending
  · exact fun _ pending => absurd rfl pending
  · intro raised
    exact absurd (flag.symm.trans raised) Bool.false_ne_true
  · exact fun due => absurd due (not_flushing flag nofun nofun)
  · exact fun _ _ _ => .inl rfl
  · intro call current relock
    rcases inv.spun call current (.inr relock) with none | empty
    · rw [pointer] at none
      contradiction
    · exact .inr empty

theorem lengthInv_write (inv : LengthInv threads) {buf : Buf} (written : Nat)
    (log : List UInt8) (pc : threads.disk = .write buf) :
    LengthInv (threads.withCore { threads.handoff.core with
      log := log, disk := .complete buf written }) := by
  have flag := inv.unflagged (by rw [pc]; rfl)
  have under : threads.session.diskBuf ≠ none → Leaving (threads.withCore
      { threads.handoff.core with log := log, disk := .complete buf written }) := by
    intro pending
    obtain ⟨-, delayed, empty, closed, quiet⟩ := inv.writing (by rw [pc]; rfl) pending
    exact ⟨rfl, delayed, empty, closed, quiet⟩
  refine ⟨?_, fun pending _ => .inr (under pending), fun _ => under, ?_, ?_, inv.spun,
    inv.relocking⟩
  · exact inv.progress.trans (by rw [pc]; rfl)
  · intro raised
    exact absurd (flag.symm.trans raised) Bool.false_ne_true
  · exact fun due => absurd due (not_flushing flag nofun nofun)

theorem lengthInv_complete (inv : LengthInv threads) {buf : Buf} {written : Nat}
    (pc : threads.disk = .complete buf written) :
    LengthInv (threads.withCore { threads.handoff.core with
      session := completeWrite threads.session, disk := .finish written }) := by
  have flag := inv.unflagged (by rw [pc]; rfl)
  refine ⟨rfl, ?_, fun reads => absurd reads Bool.false_ne_true, ?_, ?_, inv.spun,
    fun _ _ _ => .inl rfl⟩
  · intro pending _
    obtain ⟨-, delayed, empty, closed, quiet⟩ := inv.writing (by rw [pc]; rfl) pending
    exact .inr ⟨rfl, delayed, empty, closed, quiet⟩
  · intro raised
    exact absurd (flag.symm.trans raised) Bool.false_ne_true
  · exact fun due => absurd due (not_flushing flag nofun nofun)

theorem lengthInv_finish (inv : LengthInv threads) {ticks written : Nat}
    (pc : threads.disk = .finish written) :
    LengthInv (threads.withCore (afterWrite ticks written threads.handoff.core)) := by
  have flag := inv.unflagged (by rw [pc]; rfl)
  have progress := inv.progress
  rw [pc] at progress
  obtain ⟨last, bytes, ⟨prompt, outcome⟩ | ⟨-, buffered, outcome⟩ | ⟨-, -, outcome⟩⟩ :=
    afterWrite_cases ticks written threads.handoff.core
  · rw [outcome]
    refine ⟨progress, ?_, fun reads => absurd reads Bool.false_ne_true, fun _ => rfl, ?_, inv.spun,
      inv.relocking⟩
    · intro pending _
      rcases inv.waiting pending (by simp [pc]) with long | leaving
      · exact .inl long
      · exact absurd (prompt.symm.trans leaving.delayed) Bool.false_ne_true
    · exact fun due => absurd due (not_flushing flag nofun nofun)
  · rw [outcome]
    refine ⟨progress, fun _ _ => .inl buffered, fun reads => absurd reads Bool.false_ne_true,
      fun _ => rfl, ?_, ?_, ?_⟩
    · exact fun _ => .inl (Option.some_ne_none _)
    · exact fun _ _ _ => .inr rfl
    · exact fun _ _ _ => .inr rfl
  · rw [outcome]
    exact inv.freed rfl progress rfl rfl rfl

theorem lengthInv_visit (inv : LengthInv threads) {ticks written : Nat} {core : Core}
    (pc : threads.disk = .visit)
    (stepped : diskStep 0 ticks written threads.handoff.core = some core) :
    LengthInv (threads.withCore core) := by
  have living : threads.disk ≠ .freed := by simp [pc]
  have rest : threads.disk.claimed = false := by rw [pc]; rfl
  have here : threads.handoff.core.disk = .visit := pc
  simp only [diskStep, here] at stepped
  obtain rfl := Option.some.inj stepped
  cases flag : threads.session.timeOutNeedFlushToDisk with
  | true =>
      rw [show threads.handoff.core.session.timeOutNeedFlushToDisk = true from flag]
      refine inv.move threads.session.timeOutNeedFlushToDisk .flush rest rfl (fun _ => rfl) ?_
        living
      exact fun _ => inv.flush (.inl flag)
  | false =>
      rw [show threads.handoff.core.session.timeOutNeedFlushToDisk = false from flag]
      refine inv.move threads.session.timeOutNeedFlushToDisk .timer rest rfl ?_ ?_ living
      · rw [flag]
        exact fun raised => absurd raised Bool.false_ne_true
      · exact fun due => absurd due (not_flushing flag (by simp) (by simp))

theorem lengthInv_disk (inv : LengthInv threads) {ticks written : Nat} {core : Core}
    (stepped : diskStep 0 ticks written threads.handoff.core = some core) :
    LengthInv (threads.withCore core) := by
  cases diskStep_cases stepped with
  | free pc _ _ =>
      have here : threads.disk = .scan := pc
      exact inv.freed rfl (inv.progress.trans (by rw [here]; rfl)) rfl rfl rfl
  | stay pc =>
      have here : threads.disk = .scan := pc
      refine inv.move threads.session.timeOutNeedFlushToDisk .visit (by rw [here]; rfl) rfl
        (fun _ => rfl) ?_ (by simp [here])
      rintro (raised | next | next)
      · exact inv.flush (.inl raised)
      · contradiction
      · contradiction
  | visit pc _ => exact lengthInv_visit inv pc stepped
  | flush pc => exact lengthInv_flush inv pc
  | clearFlag pc =>
      have here : threads.disk = .clearFlag := pc
      refine inv.move false .timer (by rw [here]; rfl) rfl
        (fun raised => absurd raised Bool.false_ne_true) ?_ (by simp [here])
      exact fun due => absurd due (not_flushing rfl (by simp) (by simp))
  | due pc due =>
      have here : threads.disk = .timer := pc
      have flag := inv.unflagged (by rw [here]; rfl)
      simp only [timerDue, Bool.and_eq_true, decide_eq_true_eq] at due
      refine inv.move threads.session.timeOutNeedFlushToDisk .setFlag (by rw [here]; rfl) rfl ?_ ?_
        (by simp [here])
      · rw [flag]
        exact fun raised => absurd raised Bool.false_ne_true
      · exact fun _ => .inr due.1.1.1.1
  | notDue pc =>
      have here : threads.disk = .timer := pc
      exact inv.moveDown .pending (by rw [here]; rfl) rfl (by rw [here]; rfl) (by simp)
        (by simp)
  | setFlag pc =>
      have here : threads.disk = .setFlag := pc
      refine inv.move true .scan (by rw [here]; rfl) rfl (fun _ => rfl) ?_ (by simp [here])
      exact fun _ => inv.flush (.inr (.inr here))
  | nothing pc _ =>
      have here : threads.disk = .pending := pc
      exact inv.moveDown .scan (by rw [here]; rfl) rfl (by rw [here]; rfl) (by simp)
        (by simp)
  | submit pc _ _ =>
      have here : threads.disk = .pending := pc
      exact inv.moveDown .claim (by rw [here]; rfl) rfl (by rw [here]; rfl) (by simp)
        (by simp)
  | refused pc _ =>
      have here : threads.disk = .claim := pc
      exact inv.moveDown (.finish 0) (by rw [here]; rfl) rfl (by rw [here]; rfl) (by simp)
        (by simp)
  | claim pc pointer _ => exact lengthInv_claim inv pc pointer
  | write pc _ => exact lengthInv_write inv _ _ pc
  | complete pc => exact lengthInv_complete inv pc
  | finish pc => exact lengthInv_finish inv pc

theorem LengthInv.same (inv : LengthInv threads) {after : Threads}
    (disk : after.disk = threads.disk)
    (progress : after.session.diskIoInProgress = threads.session.diskIoInProgress)
    (pointer : after.session.diskBuf ≠ none ↔ threads.session.diskBuf ≠ none)
    (length : after.session.diskWriteBufLen = threads.session.diskWriteBufLen)
    (flag : after.session.timeOutNeedFlushToDisk = threads.session.timeOutNeedFlushToDisk)
    (offset : threads.session.membufOffset ≤ after.session.membufOffset)
    (leaving : Leaving threads → Leaving after)
    (spun : ∀ call, after.handoff.call = some call → call.pc = .spin ∨ call.pc = .relock →
      after.session.diskBuf = none ∨ after.session.membufOffset = 0)
    (relocking : ∀ call, after.handoff.call = some call → call.pc = .relock →
      after.session.diskIoInProgress = false ∨ after.session.membufOffset = 0) :
    LengthInv after := by
  refine ⟨?_, ?_, ?_, ?_, ?_, spun, relocking⟩
  · rw [progress, disk]
    exact inv.progress
  · intro pending living
    rw [length]
    rw [disk] at living
    exact (inv.waiting (pointer.mp pending) living).imp id leaving
  · intro writing pending
    rw [disk] at writing
    exact leaving (inv.writing writing (pointer.mp pending))
  · rw [flag, disk]
    exact inv.flagged
  · rw [flag, disk, pointer]
    intro due
    exact (inv.flush due).imp id fun buffered => Nat.le_trans buffered offset

theorem LengthInv.handOver (inv : LengthInv threads) {after : Threads}
    (disk : after.disk = threads.disk)
    (progress : after.session.diskIoInProgress = threads.session.diskIoInProgress)
    (pointer : after.session.diskBuf ≠ none)
    (length : after.session.diskWriteBufLen = threads.session.membufOffset)
    (flag : after.session.timeOutNeedFlushToDisk = true →
      threads.session.timeOutNeedFlushToDisk = true)
    (offset : after.session.membufOffset = 0)
    (buffered : 1 ≤ threads.session.membufOffset ∨ Leaving after)
    (writing : threads.session.diskIoInProgress = true → Leaving after) : LengthInv after := by
  refine ⟨?_, ?_, ?_, ?_, fun _ => .inl pointer, fun _ _ _ => .inr offset,
    fun _ _ _ => .inr offset⟩
  · rw [progress, disk]
    exact inv.progress
  · intro _ _
    rw [length]
    exact buffered
  · intro reads _
    rw [disk, ← inv.progress] at reads
    exact writing reads
  · rw [disk]
    exact fun raised => inv.flagged (flag raised)

theorem diskBuf_enlarge (ticks : Nat) (calloc : Nat → Bool) {session : Session} (gap : Nat)
    (pending : session.diskBuf.isSome = true) :
    ((enlargeSessionBuf ticks calloc session gap).2.diskBuf ≠ none ↔ session.diskBuf ≠ none) ∧
      (enlargeSessionBuf ticks calloc session gap).2.diskIoInProgress =
        session.diskIoInProgress ∧
      (enlargeSessionBuf ticks calloc session gap).2.diskWriteBufLen = session.diskWriteBufLen ∧
      (enlargeSessionBuf ticks calloc session gap).2.timeOutNeedFlushToDisk =
        session.timeOutNeedFlushToDisk ∧
      (enlargeSessionBuf ticks calloc session gap).2.membufOffset = session.membufOffset := by
  obtain ⟨netReadBufLen, ⟨-, raised⟩ | ⟨-, -, moved⟩⟩ :=
    enlargeSessionBuf_cases ticks calloc session gap
  · rw [raised]
    exact ⟨Iff.rfl, rfl, rfl, rfl, rfl⟩
  · rw [moved, Session.moveTo_keeps _ (by exact pending)]
    refine ⟨?_, rfl, rfl, rfl, rfl⟩
    exact iff_of_true (Option.some_ne_none _) (Option.isSome_iff_ne_none.mp pending)

theorem lengthInv_submit (inv : LengthInv threads) {call next : Call}
    (current : threads.handoff.call = some call) (pc : call.switches threads.session)
    (buffered : 1 ≤ threads.session.membufOffset) :
    LengthInv { threads with
      handoff := threads.handoff.proceed threads.session.submitBuf (some next) } := by
  have idle : threads.session.diskIoInProgress = false := by
    rcases pc with relock | ⟨-, -, idle⟩
    · rcases inv.relocking call current relock with idle | empty
      · exact idle
      · omega
    · exact idle
  refine inv.handOver rfl rfl (Option.some_ne_none _) rfl
    (fun raised => absurd raised Bool.false_ne_true) rfl (.inl buffered) ?_
  intro busy
  exact absurd (idle.symm.trans busy) Bool.false_ne_true

theorem Leaving.net_late (leaving : Leaving threads) :
    threads.net ≠ .live ∧ threads.net ≠ .closing := by
  rcases leaving.closed with late | late
  · rw [late]
    exact ⟨by simp, by simp⟩
  · rw [late]
    exact ⟨by simp, by simp⟩

theorem not_leaving {call : Call} (current : threads.handoff.call = some call) :
    ¬Leaving threads := by
  intro leaving
  rw [leaving.quiet] at current
  contradiction

theorem not_spinning {call other : Call} (same : some call = some other)
    (spin : call.pc ≠ .spin) (relock : call.pc ≠ .relock) :
    ¬(other.pc = .spin ∨ other.pc = .relock) := by
  obtain rfl := Option.some.inj same
  exact not_or.mpr ⟨spin, relock⟩

theorem lengthInv_locked (inv : LengthInv threads) {call : Call} (calloc : Nat → Bool)
    (current : threads.handoff.call = some call) (pc : call.pc = .locked)
    (fed : call.switches threads.session → 1 ≤ threads.session.membufOffset) :
    LengthInv { threads with
      handoff := threads.handoff.proceed
        (pass2writeLocked threads.handoff.ticks calloc threads.session call.len).2
        (some { call with
          pc := (pass2writeLocked threads.handoff.ticks calloc threads.session
            call.len).1.next }) } := by
  have busy := not_leaving current
  obtain ⟨pending, stuck, leftBy, enlarged⟩ | ⟨none, busy', spinning⟩ | ⟨none, idle, switched⟩ :=
    pass2writeLocked_cases threads.handoff.ticks calloc threads.session call.len
  · obtain ⟨pointer, progress, length, flag, offset⟩ := diskBuf_enlarge threads.handoff.ticks
      calloc (threads.session.membufOffset + call.len + threads.session.netReadBufLen -
        threads.session.memBufLen) pending
    rw [enlarged]
    have calm : ∀ other : Call, some { call with
        pc := (pass2writeLocked threads.handoff.ticks calloc threads.session
          call.len).1.next } = some other → ¬(other.pc = .spin ∨ other.pc = .relock) := by
      intro other same
      obtain rfl := Option.some.inj same
      simp only [pass2writeLocked, pending, Bool.true_or, if_true]
      split
      · simp [Exit.next]
      · simp [Exit.next]
    refine inv.same rfl progress pointer length flag offset.ge (fun leaving => absurd leaving busy)
      ?_ ?_
    · exact fun other same spun => absurd spun (calm other same)
    · exact fun other same relock => absurd (.inr relock) (calm other same)
  · rw [spinning]
    refine inv.same rfl rfl Iff.rfl rfl rfl le_rfl (fun leaving => absurd leaving busy)
      (fun _ _ _ => .inl none) ?_
    intro other same relock
    obtain rfl := Option.some.inj same
    contradiction
  · rw [switched]
    exact lengthInv_submit inv current (.inr ⟨pc, none, idle⟩) (fed (.inr ⟨pc, none, idle⟩))

theorem lengthInv_net (inv : LengthInv threads) {calloc : Nat → Bool} {handoff : Handoff}
    (fed : HandsOverBytes threads (.net calloc))
    (stepped : callStep calloc threads.handoff = some handoff) :
    LengthInv { threads with handoff := handoff } := by
  cases current : threads.handoff.call with
  | none => simp [callStep, current] at stepped
  | some call =>
      have busy := not_leaving current
      cases pc : call.pc <;> simp only [callStep, current, pc] at stepped
      case recheck =>
        obtain rfl := Option.some.inj stepped
        have calm : ∀ other : Call, some { call with
            pc := if threads.session.bufFull call.len then CallPc.locked else .setupCopy } =
              some other → ¬(other.pc = .spin ∨ other.pc = .relock) := by
          intro other same
          obtain rfl := Option.some.inj same
          dsimp only
          split
          · simp
          · simp
        refine inv.same rfl rfl Iff.rfl rfl rfl le_rfl (fun leaving => absurd leaving busy) ?_ ?_
        · exact fun other same spun => absurd spun (calm other same)
        · exact fun other same relock => absurd (.inr relock) (calm other same)
      case locked =>
        obtain rfl := Option.some.inj stepped
        exact lengthInv_locked inv calloc current pc (fed call current)
      case spin =>
        split at stepped
        · contradiction
        · rename_i idle
          obtain rfl := Option.some.inj stepped
          refine inv.same rfl rfl Iff.rfl rfl rfl le_rfl (fun leaving => absurd leaving busy) ?_ ?_
          · exact fun _ _ _ => inv.spun call current (.inl pc)
          · exact fun _ _ _ => .inl (Bool.eq_false_of_not_eq_true idle)
      case relock =>
        obtain rfl := Option.some.inj stepped
        exact lengthInv_submit inv current (.inl pc) (fed call current (.inl pc))
      case setupCopy =>
        obtain rfl := Option.some.inj stepped
        exact inv.same rfl rfl Iff.rfl rfl rfl (Nat.le_add_right _ _)
          (fun leaving => absurd leaving busy)
          (fun other same _ => absurd same.symm (Option.some_ne_none other))
          (fun other same _ => absurd same.symm (Option.some_ne_none other))
      case switchedCopy =>
        obtain rfl := Option.some.inj stepped
        exact inv.same rfl rfl Iff.rfl rfl rfl (Nat.le_add_right _ _)
          (fun leaving => absurd leaving busy)
          (fun other same _ => absurd same.symm (Option.some_ne_none other))
          (fun other same _ => absurd same.symm (Option.some_ne_none other))

theorem claimed_of_reads {pc : DiskPc} (reads : pc.reads.isSome = true) :
    pc.claimed = true := by
  cases pc <;> simp_all [DiskPc.reads, DiskPc.claimed]

theorem lengthInv_delayFree (inv : LengthInv threads) (net : NetPc) (stage teardowns : Nat)
    (fed : threads.session.diskBuf = none →
      1 ≤ threads.session.membufOffset ∨ threads.disk.claimed = true)
    (closed : threads.disk.claimed = true →
      (net = .marking ∨ net = .done) ∧ threads.handoff.call = none) :
    LengthInv {
      handoff := { threads.handoff with
        core := { threads.handoff.core with
          session := { delayFree threads.session with inDeleteStage := stage }
          teardowns := teardowns } }
      net := net } := by
  cases pointer : threads.session.diskBuf with
  | none =>
      have handed : delayFree threads.session = { threads.session with
          diskWriteBufLen := threads.session.membufOffset
          diskBuf := some threads.session.curBuf
          needDelayFree := true
          membufOffset := 0 } := by
        rw [delayFree, pointer]
        rfl
      rw [handed]
      have leaves : threads.disk.claimed = true → Leaving {
          handoff := { threads.handoff with
            core := { threads.handoff.core with
              session := { threads.session with
                diskWriteBufLen := threads.session.membufOffset
                diskBuf := some threads.session.curBuf
                needDelayFree := true
                membufOffset := 0
                inDeleteStage := stage }
              teardowns := teardowns } }
          net := net } := by
        intro claimed
        obtain ⟨late, quiet⟩ := closed claimed
        exact ⟨claimed, rfl, rfl, late, quiet⟩
      refine inv.handOver rfl rfl (Option.some_ne_none _) rfl id rfl ((fed pointer).imp id leaves)
        ?_
      intro busy
      rw [inv.progress] at busy
      exact leaves (claimed_of_reads busy)
  | some buf =>
      have kept : delayFree threads.session = { threads.session with needDelayFree := true } := by
        simp only [delayFree, pointer, Option.isNone_some, Bool.false_eq_true, if_false]
      rw [kept]
      refine inv.same rfl rfl Iff.rfl rfl rfl le_rfl ?_ inv.spun inv.relocking
      intro leaving
      obtain ⟨late, quiet⟩ := closed leaving.claimed
      exact ⟨leaving.claimed, rfl, leaving.empty, late, quiet⟩

theorem lengthInv_delSession (inv : LengthInv threads) (pc : threads.disk = .scan) :
    LengthInv (threads.withCore (delSession threads.handoff.core true)) := by
  cases delays : needsDelay (freeSessionStep1 threads.handoff.core).session with
  | false =>
      have freed : delSession threads.handoff.core true =
          freeSessionFinal (freeSessionRes (freeSessionStep1 threads.handoff.core)) := by
        simp only [delSession, delays, Bool.false_eq_true, if_false, if_true]
      rw [freed]
      exact inv.freed rfl (inv.progress.trans (by rw [pc]; rfl)) rfl rfl rfl
  | true =>
      have buffered : 0 < threads.session.membufOffset := by
        simp only [needsDelay, Bool.and_eq_true, decide_eq_true_eq] at delays
        exact delays.1
      have stages : { delayFree { threads.session with inDeleteStage := 10 } with
          inDeleteStage := 20 } = { delayFree threads.session with inDeleteStage := 20 } := by
        simp only [delayFree]
        split
        · rfl
        · rfl
      have delayed : delSession threads.handoff.core true = { threads.handoff.core with
          session := { delayFree threads.session with inDeleteStage := 20 }
          teardowns := threads.handoff.core.teardowns + 1 } := by
        simp only [delSession, delays, if_true]
        rw [← stages]
        rfl
      rw [delayed]
      refine lengthInv_delayFree inv threads.net 20 _ (fun _ => .inl buffered) ?_
      intro claimed
      rw [pc] at claimed
      contradiction

theorem lengthInv_close (inv : LengthInv threads) {system : System}
    (fed : HandsOverBytes threads .close) (quiet : threads.handoff.call = none)
    (stepped : closeStep ⟨threads.handoff.core, threads.handoff.ticks, threads.net, []⟩ =
      some system) :
    LengthInv {
      handoff := { threads.handoff with core := system.core }
      net := system.net } := by
  cases net : threads.net <;> simp only [closeStep, net] at stepped
  case live =>
    obtain rfl := Option.some.inj stepped
    refine inv.same rfl rfl Iff.rfl rfl rfl le_rfl ?_ inv.spun inv.relocking
    exact fun leaving => absurd net leaving.net_late.1
  case closing =>
    obtain rfl := Option.some.inj stepped
    refine inv.same rfl rfl Iff.rfl rfl rfl le_rfl ?_ inv.spun inv.relocking
    exact fun leaving => absurd net leaving.net_late.2
  case locking =>
    obtain rfl := Option.some.inj stepped
    exact lengthInv_delayFree inv .marking _ _ (fed net) fun _ => ⟨.inl rfl, quiet⟩
  case marking =>
    obtain rfl := Option.some.inj stepped
    refine inv.same rfl rfl Iff.rfl rfl rfl le_rfl ?_ inv.spun inv.relocking
    exact fun leaving =>
      ⟨leaving.claimed, leaving.delayed, leaving.empty, .inr rfl, leaving.quiet⟩
  case done => contradiction

theorem lengthInv_read (inv : LengthInv threads) {buf : Memory} {len : Nat} {handoff : Handoff}
    (live : threads.net = .live)
    (stepped : threads.handoff.step (.read buf len) = some handoff) :
    LengthInv { threads with handoff := handoff } := by
  simp only [Handoff.step] at stepped
  split at stepped
  · obtain rfl := Option.some.inj stepped
    have calm : ∀ other : Call, some (Call.mk .recheck buf len) = some other →
        ¬(other.pc = .spin ∨ other.pc = .relock) := fun other same =>
      not_spinning same (by simp) (by simp)
    refine inv.same rfl rfl Iff.rfl rfl rfl le_rfl ?_ ?_ ?_
    · exact fun leaving => absurd live leaving.net_late.1
    · exact fun other same spun => absurd spun (calm other same)
    · exact fun other same relock => absurd (.inr relock) (calm other same)
  · contradiction

theorem lengthInv_step {forceDisconnectSeconds : Nat} {after : Threads} {label : ThreadStep}
    (inv : LengthInv threads) (fed : HandsOverBytes threads label)
    (stepped : threads.step forceDisconnectSeconds label = some after) : LengthInv after := by
  cases label with
  | tick =>
      obtain rfl := Option.some.inj stepped
      refine inv.same rfl rfl Iff.rfl rfl rfl le_rfl ?_ inv.spun inv.relocking
      exact fun leaving =>
        ⟨leaving.claimed, leaving.delayed, leaving.empty, leaving.closed, leaving.quiet⟩
  | disk written =>
      obtain ⟨core, moved, rfl⟩ := Option.map_eq_some_iff.mp stepped
      by_cases forced : threads.disk = .scan ∧
          forceDue forceDisconnectSeconds threads.handoff.ticks threads.session = true
      · have due : core = delSession threads.handoff.core true := by
          have pc : threads.handoff.core.disk = .scan := forced.1
          have fires : forceDue forceDisconnectSeconds threads.handoff.ticks
              threads.handoff.core.session = true := forced.2
          simp only [diskStep, pc, fires, if_true, Option.some.injEq] at moved
          exact moved.symm
        rw [due]
        exact lengthInv_delSession inv forced.1
      · rw [diskStep_unforced fun scan => by
          cases due : forceDue forceDisconnectSeconds threads.handoff.ticks
              threads.handoff.core.session with
          | false => rfl
          | true => exact absurd ⟨scan, due⟩ forced] at moved
        exact lengthInv_disk inv moved
  | read buf len =>
      simp only [Threads.step] at stepped
      split at stepped
      · rename_i live
        obtain ⟨handoff, moved, rfl⟩ := Option.map_eq_some_iff.mp stepped
        exact lengthInv_read inv live moved
      · contradiction
  | net calloc =>
      obtain ⟨handoff, moved, rfl⟩ := Option.map_eq_some_iff.mp stepped
      exact lengthInv_net inv fed moved
  | close =>
      simp only [Threads.step] at stepped
      split at stepped
      · rename_i quiet
        obtain ⟨system, moved, rfl⟩ := Option.map_eq_some_iff.mp stepped
        exact lengthInv_close inv fed (Option.isNone_iff_eq_none.mp quiet) moved
      · contradiction

end

/-- Where `cur_buf` is never handed over empty, the disk thread never gets into the branch
that reports a bug. -/
theorem bug_branch_unreached (forceDisconnectSeconds : Nat) (ip : Int)
    (slotIdx ticks networkBytes : Nat) (labels : List ThreadStep)
    (fed : (threadMachine forceDisconnectSeconds).Along
      (fun threads label _ => HandsOverBytes threads label)
      (startThreads ip slotIdx ticks networkBytes) labels) :
    (threadMachine forceDisconnectSeconds).Along
      (fun threads label _ => NoEmptyBuffer threads label)
      (startThreads ip slotIdx ticks networkBytes) labels := by
  refine Machine.Along.of_invariant LengthInv ?_ (lengthInv_start ip slotIdx ticks networkBytes) fed
  intro threads label after inv fed stepped
  exact ⟨noEmptyBuffer_of_inv inv label, lengthInv_step inv fed stepped⟩

instance (session : Session) (call : Call) : Decidable (call.switches session) :=
  inferInstanceAs (Decidable (_ ∨ _))

instance (threads : Threads) (label : ThreadStep) : Decidable (HandsOverBytes threads label) :=
  match label with
  | .net _ => decidable_of_iff
      (∀ call ∈ threads.handoff.call, call.switches threads.session →
        1 ≤ threads.session.membufOffset)
      ⟨fun all call current => all call current, fun all call current => all call current⟩
  | .close => inferInstanceAs (Decidable (threads.net = .locking →
      threads.session.diskBuf = none →
        1 ≤ threads.session.membufOffset ∨ threads.disk.claimed = true))
  | .tick | .disk _ | .read _ _ => inferInstanceAs (Decidable True)

def byteFlagged : List ThreadStep :=
  [ThreadStep.read (fun _ => 0) 1, ThreadStep.net fun _ => true, ThreadStep.net fun _ => true] ++
    List.replicate 241 ThreadStep.tick ++ List.replicate 6 (ThreadStep.disk 1)

def closedEarly : List ThreadStep :=
  byteFlagged ++ List.replicate 4 ThreadStep.close ++ List.replicate 8 (ThreadStep.disk 1)

theorem bug_branch_unreached_early :
    (threadMachine 0).Along (fun threads label _ => NoEmptyBuffer threads label)
      (startThreads 0 0 0 0) closedEarly := by
  have ran : ((threadMachine 0).runAllowed HandsOverBytes (startThreads 0 0 0 0)
      closedEarly).isSome = true := by
    decide +kernel
  obtain ⟨last, ran⟩ := Option.isSome_iff_exists.mp ran
  exact bug_branch_unreached 0 0 0 0 0 closedEarly (Machine.along_of_runAllowed ran)

/-- The byte is flushed and written between the test of `free_session_step2` and its lock. -/
def closedAcross : List ThreadStep :=
  byteFlagged ++ List.replicate 2 ThreadStep.close ++ List.replicate 8 (ThreadStep.disk 1) ++
    List.replicate 2 ThreadStep.close ++ List.replicate 3 (ThreadStep.disk 0)

theorem empty_buffer_found :
    ¬∀ ip slotIdx ticks networkBytes labels,
      (threadMachine 0).Along (fun threads label _ => NoEmptyBuffer threads label)
        (startThreads ip slotIdx ticks networkBytes) labels := by
  intro always
  have found : ((threadMachine 0).run (startThreads 0 0 0 0) closedAcross).map
      (fun threads => (threads.disk, threads.session.diskBuf, threads.session.diskWriteBufLen)) =
        some (.pending, some .buf2, 0) := by
    decide +kernel
  obtain ⟨middle, ran, outcome⟩ := Option.map_eq_some_iff.mp found
  simp only [Prod.mk.injEq] at outcome
  obtain ⟨pc, pointer, empty⟩ := outcome
  have tested : (threadMachine 0).step middle (.disk 0) =
      some (middle.withCore { middle.handoff.core with disk := .scan }) := by
    have here : middle.handoff.core.disk = .pending := pc
    have short : middle.handoff.core.session.diskWriteBufLen = 0 := empty
    simp [threadMachine, Threads.step, diskStep, here, short, Threads.withCore]
  have right := (always 0 0 0 0 (closedAcross ++ [.disk 0])).last ran tested
  have long := right pc (by rw [pointer]; exact Option.some_ne_none _)
  rw [empty] at long
  exact Nat.not_succ_le_zero 0 long

end DirtyCode.LogCollect
