import DirtyCode.LogCollect.Session

/-!
One session as `disk_write_thread` visits it, cut into the sections it holds
`disk_io_ops_lock` for and the unlocked accesses between them, and the three
stages in which a session is closed.
-/

namespace DirtyCode.LogCollect

open Lib

inductive DiskPc
  | scan -- the top of the visit
  | visit -- the session stays, the timer flag is tested next
  | flush -- the timer flag was seen, the forced-flush section is next
  | clearFlag
  | timer -- the test that sets the timer flag
  | setFlag
  | pending -- the tests of `disk_buf` and `disk_write_buf_len`
  | claim -- the first section of `write2disk`
  | write (buf : Buf) -- `disk_io_in_progress`, the length not yet read
  | complete (buf : Buf) (written : Nat) -- the write is over, its last section is next
  | finish (written : Nat) -- `write2disk` has returned
  | freed
  deriving DecidableEq, Repr

structure Core where
  session : Session
  disk : DiskPc
  log : List UInt8 -- what `write()` has delivered for this session
  teardowns : Nat -- runs of `free_session_step1`

def startCore (ip : Int) (slotIdx ticks networkBytes : Nat) : Core where
  session := { getNewSession ip ticks with slotIdx := slotIdx, networkBytes := networkBytes }
  disk := .scan
  log := []
  teardowns := 0

def freeSessionStep1 (core : Core) : Core :=
  { core with
    session := { core.session with inDeleteStage := 10 }
    teardowns := core.teardowns + 1 }

-- the unlocked test of `free_session_step2` and `del_session`
def needsDelay (session : Session) : Bool :=
  0 < session.membufOffset && -1 < session.slotIdx

-- their section under `disk_io_ops_lock`
def delayFree (session : Session) : Session :=
  if session.diskBuf.isNone then
    { session with
      diskWriteBufLen := session.membufOffset
      diskBuf := some session.curBuf
      needDelayFree := true
      membufOffset := 0 }
  else { session with needDelayFree := true }

def freeSessionRes (core : Core) : Core :=
  { core with session := { core.session with inDeleteStage := 30 } }

def freeSessionFinal (core : Core) : Core :=
  { core with session := { core.session with inDeleteStage := 40 }, disk := .freed }

def delSession (core : Core) (immediately : Bool) : Core :=
  let core := freeSessionStep1 core
  if needsDelay core.session then
    { core with session := { delayFree core.session with inDeleteStage := 20 } }
  else
    let core := freeSessionRes core
    if immediately then freeSessionFinal core else core

def forceDue (forceDisconnectSeconds ticks : Nat) (session : Session) : Bool :=
  0 < forceDisconnectSeconds && session.lastDiskIoWriteTick + forceDisconnectSeconds < ticks

def timerDue (ticks : Nat) (session : Session) : Bool :=
  0 < session.membufOffset && session.flushDuration < ticks - session.lastDiskIoWriteTick &&
    !session.timeOutNeedFlushToDisk && session.diskBuf.isNone && !session.diskIoInProgress

def forceFlush (session : Session) : Session :=
  if session.diskBuf.isNone && !session.diskIoInProgress then session.switchBuf else session

-- the first section of `write2disk`
def claimBuf (session : Session) : Session :=
  { session with diskIoInProgress := true, diskBuf := none }

-- its last section
def completeWrite (session : Session) : Session :=
  { session with diskWriteBufLen := 0, diskIoInProgress := false, bufFullStuck := false }

def afterWrite (ticks written : Nat) (core : Core) : Core :=
  let session := { core.session with diskBytes := core.session.diskBytes + written }
  let session := if 0 < written then { session with lastDiskIoWriteTick := ticks } else session
  if session.needDelayFree then
    if 0 < session.membufOffset then
      { core with
        session := { session with
          diskBuf := some session.curBuf
          diskWriteBufLen := session.membufOffset
          membufOffset := 0 }
        disk := .scan }
    else freeSessionFinal (freeSessionRes { core with session := session })
  else { core with session := session, disk := .scan }

/-- One step of the disk thread. The write loop delivers `written` bytes of the
buffer it was given; the other steps do not look at that number. -/
def diskStep (forceDisconnectSeconds ticks written : Nat) (core : Core) : Option Core :=
  let session := core.session
  match core.disk with
  | .scan =>
      if forceDue forceDisconnectSeconds ticks session then some (delSession core true)
      else if session.inDeleteStage = 20 ∧ session.needDelayFree = false then
        some (freeSessionFinal (freeSessionRes core))
      else some { core with disk := .visit }
  | .visit => some { core with
      disk := if session.timeOutNeedFlushToDisk then .flush else .timer }
  | .flush => some { core with session := forceFlush session, disk := .clearFlag }
  | .clearFlag => some { core with
      session := { session with timeOutNeedFlushToDisk := false }, disk := .timer }
  | .timer => some { core with disk := if timerDue ticks session then .setFlag else .pending }
  | .setFlag => some { core with
      session := { session with timeOutNeedFlushToDisk := true }, disk := .scan }
  | .pending =>
      if session.diskBuf.isNone || session.diskWriteBufLen < 1 then some { core with disk := .scan }
      else some { core with disk := .claim }
  | .claim =>
      match session.diskBuf with
      | none => some { core with disk := .finish 0 }
      | some buf =>
          if session.diskIoInProgress then some { core with disk := .finish 0 }
          else some { core with session := claimBuf session, disk := .write buf }
  | .write buf =>
      if written ≤ session.diskWriteBufLen then
        some { core with
          log := core.log ++ session.block.slice (session.address buf) written
          disk := .complete buf written }
      else none
  | .complete _ written => some { core with
      session := completeWrite session, disk := .finish written }
  | .finish written => some (afterWrite ticks written core)
  | .freed => none

inductive DiskStepped (ticks written : Nat) (core : Core) : Core → Prop
  | free : core.disk = .scan → core.session.inDeleteStage = 20 →
      core.session.needDelayFree = false →
      DiskStepped ticks written core (freeSessionFinal (freeSessionRes core))
  | stay : core.disk = .scan → DiskStepped ticks written core { core with disk := .visit }
  | visit {next} : core.disk = .visit → next = .flush ∨ next = .timer →
      DiskStepped ticks written core { core with disk := next }
  | flush : core.disk = .flush → DiskStepped ticks written core
      { core with session := forceFlush core.session, disk := .clearFlag }
  | clearFlag : core.disk = .clearFlag → DiskStepped ticks written core
      { core with
        session := { core.session with timeOutNeedFlushToDisk := false }, disk := .timer }
  | due : core.disk = .timer → timerDue ticks core.session = true →
      DiskStepped ticks written core { core with disk := .setFlag }
  | notDue : core.disk = .timer → DiskStepped ticks written core { core with disk := .pending }
  | setFlag : core.disk = .setFlag → DiskStepped ticks written core
      { core with
        session := { core.session with timeOutNeedFlushToDisk := true }, disk := .scan }
  | nothing : core.disk = .pending →
      core.session.diskBuf = none ∨ core.session.diskWriteBufLen < 1 →
      DiskStepped ticks written core { core with disk := .scan }
  | submit {buf} : core.disk = .pending → core.session.diskBuf = some buf →
      1 ≤ core.session.diskWriteBufLen →
      DiskStepped ticks written core { core with disk := .claim }
  | refused : core.disk = .claim →
      core.session.diskBuf = none ∨ core.session.diskIoInProgress = true →
      DiskStepped ticks written core { core with disk := .finish 0 }
  | claim {buf} : core.disk = .claim → core.session.diskBuf = some buf →
      core.session.diskIoInProgress = false →
      DiskStepped ticks written core
        { core with session := claimBuf core.session, disk := .write buf }
  | write {buf} : core.disk = .write buf → written ≤ core.session.diskWriteBufLen →
      DiskStepped ticks written core
        { core with
          log := core.log ++ core.session.block.slice (core.session.address buf) written
          disk := .complete buf written }
  | complete {buf count} : core.disk = .complete buf count →
      DiskStepped ticks written core
        { core with session := completeWrite core.session, disk := .finish count }
  | finish {count} : core.disk = .finish count →
      DiskStepped ticks written core (afterWrite ticks count core)

theorem diskStep_cases {ticks written : Nat} {core after : Core}
    (stepped : diskStep 0 ticks written core = some after) :
    DiskStepped ticks written core after := by
  cases pc : core.disk <;> simp only [diskStep, pc] at stepped
  case scan =>
    have never : forceDue 0 ticks core.session = false := by simp [forceDue]
    simp only [never, Bool.false_eq_true, if_false] at stepped
    split at stepped
    · rename_i closed
      exact Option.some.inj stepped ▸ .free pc closed.1 closed.2
    · exact Option.some.inj stepped ▸ .stay pc
  case visit =>
    refine Option.some.inj stepped ▸ .visit pc ?_
    split
    · exact .inl rfl
    · exact .inr rfl
  case flush => exact Option.some.inj stepped ▸ .flush pc
  case clearFlag => exact Option.some.inj stepped ▸ .clearFlag pc
  case timer =>
    cases due : timerDue ticks core.session with
    | true =>
        simp only [due, if_true] at stepped
        exact Option.some.inj stepped ▸ .due pc due
    | false =>
        simp only [due, Bool.false_eq_true, if_false] at stepped
        exact Option.some.inj stepped ▸ .notDue pc
  case setFlag => exact Option.some.inj stepped ▸ .setFlag pc
  case pending =>
    split at stepped
    · rename_i empty
      have reason : core.session.diskBuf = none ∨ core.session.diskWriteBufLen < 1 := by
        simpa using empty
      exact Option.some.inj stepped ▸ .nothing pc reason
    · rename_i waiting
      simp only [Bool.or_eq_true, Option.isNone_iff_eq_none, decide_eq_true_eq, not_or] at waiting
      obtain ⟨buf, pointer⟩ := Option.ne_none_iff_exists'.mp waiting.1
      exact Option.some.inj stepped ▸ .submit pc pointer (by omega)
  case claim =>
    cases pointer : core.session.diskBuf with
    | none =>
        simp only [pointer] at stepped
        exact Option.some.inj stepped ▸ .refused pc (.inl pointer)
    | some buf =>
        simp only [pointer] at stepped
        cases busy : core.session.diskIoInProgress with
        | true =>
            simp only [busy, if_true] at stepped
            exact Option.some.inj stepped ▸ .refused pc (.inr busy)
        | false =>
            simp only [busy, Bool.false_eq_true, if_false] at stepped
            exact Option.some.inj stepped ▸ .claim pc pointer busy
  case write buf =>
    split at stepped
    · rename_i bounded
      exact Option.some.inj stepped ▸ .write pc bounded
    · contradiction
  case complete buf count => exact Option.some.inj stepped ▸ .complete pc
  case finish count => exact Option.some.inj stepped ▸ .finish pc
  case freed => contradiction

/-- The three ways the test of `need_delay_free` can go. -/
theorem afterWrite_cases (ticks written : Nat) (core : Core) :
    ∃ lastDiskIoWriteTick diskBytes,
      let session := { core.session with
        lastDiskIoWriteTick := lastDiskIoWriteTick, diskBytes := diskBytes }
      (core.session.needDelayFree = false ∧
        afterWrite ticks written core = { core with session := session, disk := .scan }) ∨
      (core.session.needDelayFree = true ∧ 0 < core.session.membufOffset ∧
        afterWrite ticks written core = { core with
          session := { session with
            diskBuf := some session.curBuf
            diskWriteBufLen := session.membufOffset
            membufOffset := 0 }
          disk := .scan }) ∨
      (core.session.needDelayFree = true ∧ core.session.membufOffset = 0 ∧
        afterWrite ticks written core =
          freeSessionFinal (freeSessionRes { core with session := session })) := by
  refine ⟨if 0 < written then ticks else core.session.lastDiskIoWriteTick,
    core.session.diskBytes + written, ?_⟩
  have session : (if 0 < written then
      { { core.session with diskBytes := core.session.diskBytes + written } with
        lastDiskIoWriteTick := ticks }
      else { core.session with diskBytes := core.session.diskBytes + written }) =
      { core.session with
        lastDiskIoWriteTick := if 0 < written then ticks else core.session.lastDiskIoWriteTick
        diskBytes := core.session.diskBytes + written } := by
    split <;> rfl
  simp only [afterWrite, session]
  cases core.session.needDelayFree with
  | false => exact .inl ⟨rfl, rfl⟩
  | true =>
      by_cases buffered : 0 < core.session.membufOffset
      · exact .inr (.inl ⟨rfl, buffered, by simp [buffered]⟩)
      · exact .inr (.inr ⟨rfl, by omega, by simp [buffered]⟩)

end DirtyCode.LogCollect
