import DirtyCode.Lib.CInt
import DirtyCode.Lib.Memory

/-!
The session record of `logCollectSrv.c` and the buffer operations of the default
build: the pointer switch, `enlarge_session_buf` and `pass2write`. Both buffers
are halves of one allocation, `buf2` lying `mem_buf_len` bytes behind `buf1`.
-/

namespace DirtyCode.LogCollect

open Lib

def netReadBuf : Nat := 4 * 1024
def defaultDataBlockSize : Nat := 64 * 1024
def stepDataBlockSize : Nat := 8 * 1024
def maxDataBlockSize : Nat := 128 * 1024
def extDataBlockSize : Nat := 2 * 1024 * 1024
def reallocLat : Nat := 180
def flushDurationDefault : Int := 240
def flushDurationVariable : Int := 60

inductive Buf
  | buf1
  | buf2
  deriving DecidableEq, Repr

instance : Fintype Buf where
  elems := {.buf1, .buf2}
  complete buf := by cases buf <;> decide

def Buf.other : Buf → Buf
  | .buf1 => .buf2
  | .buf2 => .buf1

structure Session where
  block : Memory -- the allocation that `buf1` points to
  curBuf : Buf
  diskBuf : Option Buf
  timeOutNeedFlushToDisk : Bool
  bufFullStuck : Bool
  diskIoInProgress : Bool
  netReadBufLen : Nat
  diskWriteBufLen : Nat
  inDeleteStage : Nat
  ip : Int
  flushDuration : Nat
  membufOffset : Nat
  slotIdx : Int
  needDelayFree : Bool
  memBufLen : Nat
  startTicks : Nat
  lastDiskIoWriteTick : Nat
  networkBytes : Nat
  diskBytes : Nat

def getNewSession (ip : Int) (ticks : Nat) : Session where
  block := fun _ => 0
  curBuf := .buf1
  diskBuf := none
  timeOutNeedFlushToDisk := false
  bufFullStuck := false
  diskIoInProgress := false
  netReadBufLen := netReadBuf
  diskWriteBufLen := 0
  inDeleteStage := 0
  ip := ip
  flushDuration := (flushDurationDefault + ip.tmod flushDurationVariable).toNat
  membufOffset := 0
  slotIdx := -1
  needDelayFree := false
  memBufLen := defaultDataBlockSize
  startTicks := ticks
  lastDiskIoWriteTick := ticks
  networkBytes := 0
  diskBytes := 0

namespace Session

def address (session : Session) : Buf → Nat
  | .buf1 => 0
  | .buf2 => session.memBufLen

def current (session : Session) : List UInt8 :=
  session.block.slice (session.address session.curBuf) session.membufOffset

def pending (session : Session) : List UInt8 :=
  match session.diskBuf with
  | none => []
  | some buf => session.block.slice (session.address buf) session.diskWriteBufLen

def copyIn (session : Session) (buf : Memory) (len : Nat) : Session :=
  { session with
    block := session.block.memcpy (session.address session.curBuf + session.membufOffset) buf len
    membufOffset := session.membufOffset + len }

def switchBuf (session : Session) : Session :=
  { session with
    curBuf := session.curBuf.other
    diskBuf := some session.curBuf
    diskWriteBufLen := session.membufOffset
    membufOffset := 0 }

end Session

def growFrom (target : Nat) : Nat → Nat → Nat
  | 0, newlen => newlen
  | fuel + 1, newlen =>
      if newlen < target then growFrom target fuel (newlen + stepDataBlockSize) else newlen

def enlargedLen (session : Session) (gap : Nat) : Nat :=
  growFrom (session.memBufLen + gap) gap (session.memBufLen + stepDataBlockSize)

-- `int bw`
def averageRate (ticks : Nat) (session : Session) : Int :=
  toInt32 (session.networkBytes / (ticks - session.startTicks) : Nat)

def raisedNetReadBufLen (bw : Int) (netReadBufLen : Nat) : Nat :=
  let netReadBufLen := if 256 * 1024 < bw then 32 * 1024 else netReadBufLen
  let netReadBufLen := if 512 * 1024 < bw then 64 * 1024 else netReadBufLen
  if 1 * 1024 * 1024 < bw then 128 * 1024 else netReadBufLen

def Session.moveTo (session : Session) (newlen : Nat) : Session :=
  match session.diskBuf with
  | none => session -- assert(s->disk_buf != NULL)
  | some diskBuf =>
      let cleared : Memory := fun _ => 0
      let first := cleared.memcpy 0 (session.block.view (session.address session.curBuf))
        session.membufOffset
      { session with
        block := first.memcpy newlen (session.block.view (session.address diskBuf))
          session.diskWriteBufLen
        memBufLen := newlen
        curBuf := .buf1
        diskBuf := some .buf2 }

-- `calloc newlen` says whether an allocation of two buffers of that length succeeds
def enlargeSessionBuf (ticks : Nat) (calloc : Nat → Bool) (session : Session) (gap : Nat) :
    Int × Session :=
  let newlen := enlargedLen session gap
  let allocate (session : Session) : Int × Session :=
    if calloc newlen then (0, session.moveTo newlen) else (-1, session)
  if ticks - session.startTicks < reallocLat then (1, session)
  else if maxDataBlockSize < newlen then
    let bw := averageRate ticks session
    let raised := { session with netReadBufLen := raisedNetReadBufLen bw session.netReadBufLen }
    if bw < 2 * maxDataBlockSize then (2, raised)
    else if toInt32 (4 * bw) < newlen then (3, raised)
    else if extDataBlockSize < newlen then (4, raised)
    else allocate raised
  else allocate session

def Session.bufFull (session : Session) (len : Nat) : Bool :=
  session.memBufLen < session.membufOffset + len + session.netReadBufLen

def Session.submitBuf (session : Session) : Session :=
  { session with timeOutNeedFlushToDisk := false }.switchBuf

-- how the section under `disk_io_ops_lock` of `pass2write` is left
inductive Exit
  | setupCopy
  | recheck
  | spin
  | switched
  deriving DecidableEq, Repr

def pass2writeLocked (ticks : Nat) (calloc : Nat → Bool) (session : Session) (len : Nat) :
    Exit × Session :=
  if session.diskBuf.isSome || session.diskIoInProgress then
    if session.diskBuf.isSome then
      let enlarged := enlargeSessionBuf ticks calloc session
        (session.membufOffset + len + session.netReadBufLen - session.memBufLen)
      if enlarged.1 ≠ 0 then (.setupCopy, { enlarged.2 with bufFullStuck := true })
      else (.recheck, enlarged.2)
    else (.spin, session)
  else (.switched, session.submitBuf)

-- from the `recheck` label on; `none`: the call has to wait for `disk_io_in_progress`
def pass2writeFrom (ticks : Nat) (calloc : Nat → Bool) (buf : Memory) (len : Nat) :
    Nat → Session → Option Session
  | 0, _ => none
  | rounds + 1, session =>
      if session.bufFull len then
        match pass2writeLocked ticks calloc session len with
        | (.setupCopy, stuck) => some (stuck.copyIn buf len)
        | (.recheck, enlarged) => pass2writeFrom ticks calloc buf len rounds enlarged
        | (.spin, _) => none
        | (.switched, switched) => some (switched.copyIn buf len)
      else some (session.copyIn buf len)

-- one more than the enlargements by `STEP_DATA_BLOCK_SIZE` that fit into `EXT_DATA_BLOCK_SIZE`
def recheckRounds : Nat := 257

/-- One call taken as one step, the wait on `disk_io_in_progress` included. -/
def pass2write (ticks : Nat) (calloc : Nat → Bool) (session : Session) (buf : Memory) (len : Nat) :
    Option Session :=
  if len < 1 then some session
  else pass2writeFrom ticks calloc buf len recheckRounds session

end DirtyCode.LogCollect
