import DirtyCode.LogCollect.ForcedDisconnect

/-!
`pass2write` of `logCollectSrv.c` built with `FIX_LOG_FILE`: a record starts with
"top" and ends with three newlines. The call is cut at its unlocked accesses to what
it shares with the disk thread.
-/

namespace DirtyCode.LogCollect

open Lib

/-- "top" -/
def leadingIdf : List UInt8 := [116, 111, 112]

def endIdf : List UInt8 := [10, 10, 10]

def msgHasEndFlag (buf : Memory) (len : Nat) : Bool :=
  decide (buf (len - 1) = 10) && decide (buf (len - 2) = 10) && decide (buf (len - 3) = 10)

def msgHasStartFlag (buf : Memory) : Bool := decide (buf.slice 0 3 = leadingIdf)

namespace Session

def curBufLeads (session : Session) : Bool :=
  decide (session.block.slice (session.address session.curBuf) 3 = leadingIdf)

def clearCurBuf (session : Session) : Session :=
  { session with block := session.block.set (session.address session.curBuf) 0 }

def discard (session : Session) : Session := { session with membufOffset := 0 }.clearCurBuf

end Session

inductive FixPc
  | test -- whether the chunk goes on with a record
  | restart -- whether it begins one over bytes that are there
  | place -- `dist_buf` and the room behind it
  | copy
  | advance -- the addition to `membuf_offset`
  | lock
  | drop
  deriving DecidableEq

structure FixCall where
  pc : FixPc
  buf : Memory
  len : Nat
  distBuf : Nat -- as an offset in the allocation
  newLen : Nat

structure Fixed where
  core : Core
  ticks : Nat
  call : Option FixCall

inductive FixStep
  | tick
  | disk (written : Nat)
  | read (buf : Memory) (len : Nat)
  | net

def Fixed.session (fixed : Fixed) : Session := fixed.core.session

def Fixed.proceed (fixed : Fixed) (session : Session) (call : Option FixCall) : Fixed :=
  { fixed with core := { fixed.core with session := session }, call := call }

def testChunk (fixed : Fixed) (call : FixCall) : Fixed :=
  let session := fixed.session
  if call.len < 3 then fixed.proceed session none
  else if msgHasEndFlag call.buf call.len && !session.curBufLeads &&
      !msgHasStartFlag call.buf then
    fixed.proceed session.discard none
  else fixed.proceed session (some { call with pc := .restart })

def restartChunk (fixed : Fixed) (call : FixCall) : Fixed :=
  let session := fixed.session
  fixed.proceed
    (if msgHasStartFlag call.buf && decide (session.membufOffset ≠ 0) then session.discard
      else session)
    (some { call with pc := .place })

def placeChunk (fixed : Fixed) (call : FixCall) : Fixed :=
  let session := fixed.session
  let distBuf := session.address session.curBuf + session.membufOffset
  if msgHasEndFlag call.buf call.len then
    let newLen := if session.memBufLen < session.membufOffset + call.len then
        session.memBufLen - session.membufOffset
      else call.len
    fixed.proceed session (some { call with pc := .copy, distBuf := distBuf, newLen := newLen })
  else if session.memBufLen < session.membufOffset + call.len then
    fixed.proceed session.discard none
  else
    fixed.proceed session (some { call with pc := .copy, distBuf := distBuf, newLen := call.len })

def copyChunk (fixed : Fixed) (call : FixCall) : Fixed :=
  let session := fixed.session
  fixed.proceed { session with block := session.block.memcpy call.distBuf call.buf call.newLen }
    (some { call with pc := .advance })

def advanceChunk (fixed : Fixed) (call : FixCall) : Fixed :=
  let session := fixed.session
  fixed.proceed { session with membufOffset := session.membufOffset + call.newLen }
    (if msgHasEndFlag call.buf call.len then some { call with pc := .lock } else none)

def handOverChunk (fixed : Fixed) (call : FixCall) : Fixed :=
  let session := fixed.session
  if session.diskIoInProgress then fixed.proceed session (some { call with pc := .drop })
  else fixed.proceed session.switchBuf.clearCurBuf none

def netStep (fixed : Fixed) (call : FixCall) : Fixed :=
  match call.pc with
  | .test => testChunk fixed call
  | .restart => restartChunk fixed call
  | .place => placeChunk fixed call
  | .copy => copyChunk fixed call
  | .advance => advanceChunk fixed call
  | .lock => handOverChunk fixed call
  | .drop => fixed.proceed fixed.session.discard none

def Fixed.step (forceDisconnectSeconds : Nat) (fixed : Fixed) : FixStep → Option Fixed
  | .tick => some { fixed with ticks := fixed.ticks + 1 }
  | .disk written => (diskStep forceDisconnectSeconds fixed.ticks written fixed.core).map
      fun core => { fixed with core := core }
  | .read buf len =>
      if fixed.call.isNone ∧ 0 ≤ fixed.session.slotIdx ∧ fixed.session.bufFullStuck = false ∧
          1 ≤ len then
        some (fixed.proceed
          { fixed.session with networkBytes := fixed.session.networkBytes + len }
          (some { pc := .test, buf := buf, len := len, distBuf := 0, newLen := 0 }))
      else none
  | .net => fixed.call.map (netStep fixed)

def startFixed (ip : Int) (slotIdx ticks networkBytes : Nat) : Fixed where
  core := startCore ip slotIdx ticks networkBytes
  ticks := ticks
  call := none

def fixMachine (forceDisconnectSeconds : Nat) : Machine Fixed FixStep where
  init fixed := ∃ ip slotIdx ticks networkBytes, fixed = startFixed ip slotIdx ticks networkBytes
  step := Fixed.step forceDisconnectSeconds

/-- A record from its start on, to its end or to the end of the buffer. -/
def Framed (memBufLen : Nat) (bytes : List UInt8) : Prop :=
  leadingIdf <+: bytes ∧ (endIdf <:+ bytes ∨ bytes.length = memBufLen)

/-- The call takes the lock with no write in progress and hands its buffer over. -/
def Fixed.handsOver (fixed : Fixed) (call : FixCall) : Prop :=
  fixed.call = some call ∧ call.pc = .lock ∧ fixed.session.diskIoInProgress = false

def HandsFramed (fixed : Fixed) (label : FixStep) (after : Fixed) : Prop :=
  match label with
  | .net => ∀ call, fixed.handsOver call →
      Framed after.session.memBufLen after.session.pending
  | _ => True

/-- What stands in `cur_buf` ends where the call's copy ended: no flush has come between
the choice of the place, the copy and the lock. -/
def Whole (session : Session) (call : FixCall) : Prop :=
  session.membufOffset ≠ 0 ∧
    session.address session.curBuf + session.membufOffset = call.distBuf + call.newLen

/-- The chunk begins a record or was put behind earlier bytes. -/
def Leads (session : Session) (call : FixCall) : Prop :=
  msgHasStartFlag call.buf = true ∨ call.distBuf ≠ session.address session.curBuf

def HandsRecord (fixed : Fixed) : FixStep → Prop
  | .net => ∀ call, fixed.handsOver call → Whole fixed.session call ∧ Leads fixed.session call
  | _ => True

instance (fixed : Fixed) (label : FixStep) : Decidable (HandsRecord fixed label) :=
  match label with
  | .net => decidable_of_iff
      (∀ call ∈ fixed.call, call.pc = .lock ∧ fixed.session.diskIoInProgress = false →
        (fixed.session.membufOffset ≠ 0 ∧
          fixed.session.address fixed.session.curBuf + fixed.session.membufOffset =
            call.distBuf + call.newLen) ∧
        (msgHasStartFlag call.buf = true ∨
          call.distBuf ≠ fixed.session.address fixed.session.curBuf))
      ⟨fun all call hands => all call hands.1 hands.2,
        fun all call here ready => all call ⟨here, ready⟩⟩
  | .tick | .disk _ | .read _ _ => isTrue trivial

/-- The bytes at the end of `cur_buf` are those of the chunk, and its beginning is the
start of a record exactly when the chunk is one or was put behind one. -/
structure Copied (session : Session) (call : FixCall) : Prop where
  ending : endIdf <:+ session.current ∨ session.membufOffset = session.memBufLen
  leading : leadingIdf <+: session.current ↔ Leads session call

/-- A chunk that only ends a record has passed for what `cur_buf` begins with. -/
def Continues (session : Session) (call : FixCall) : Prop :=
  msgHasEndFlag call.buf call.len = true → msgHasStartFlag call.buf = false →
    session.membufOffset ≠ 0 → session.curBufLeads = true

/-- The place of a copy. One at the start of a buffer is of a whole chunk or of all that the
buffer holds; behind earlier bytes it is where these end, as long as they are there. -/
structure Placed (session : Session) (call : FixCall) : Prop where
  long : 3 ≤ call.len
  uncut : msgHasEndFlag call.buf call.len = false → call.newLen = call.len
  room : session.membufOffset + call.newLen ≤ session.memBufLen
  first : ∀ buf, call.distBuf = session.address buf → call.newLen = 0 ∨
    3 ≤ call.newLen ∧ (call.newLen = call.len ∨ call.newLen = session.memBufLen)
  behind : session.membufOffset ≠ 0 →
    call.distBuf = session.address session.curBuf + session.membufOffset ∧
      (msgHasEndFlag call.buf call.len = true →
        session.curBufLeads = true ∧ msgHasStartFlag call.buf = false) ∧
      (call.newLen = call.len ∨ session.membufOffset + call.newLen = session.memBufLen)

/-- What a call relies on before its next step. -/
def CallInv (session : Session) (call : FixCall) : Prop :=
  match call.pc with
  | .test => True
  | .restart => 3 ≤ call.len ∧ Continues session call
  | .place => 3 ≤ call.len ∧ Continues session call ∧
      (msgHasStartFlag call.buf = true → session.membufOffset = 0)
  | .copy => Placed session call
  | .advance => Placed session call ∧
      session.block.slice call.distBuf call.newLen = call.buf.slice 0 call.newLen
  | .lock => Whole session call → Copied session call
  | .drop => True

def FixPc.advanced : FixPc → Bool
  | .lock => true
  | .drop => true
  | _ => false

structure FixInv (fixed : Fixed) : Prop where
  large : 3 ≤ fixed.session.memBufLen
  inside : fixed.session.membufOffset ≤ fixed.session.memBufLen
  chunks : (∀ call, fixed.call = some call → call.pc.advanced = false) →
    fixed.session.membufOffset = 0 ∨ 3 ≤ fixed.session.membufOffset
  calls : ∀ call, fixed.call = some call → CallInv fixed.session call

theorem fixInv_start (ip : Int) (slotIdx ticks networkBytes : Nat) :
    FixInv (startFixed ip slotIdx ticks networkBytes) := by
  refine ⟨?_, Nat.zero_le _, fun _ => .inl rfl, nofun⟩
  change 3 ≤ defaultDataBlockSize
  decide

/-- What a step of the disk thread does to `cur_buf`. -/
structure CurKept (before after : Session) : Prop where
  length : after.memBufLen = before.memBufLen
  block : after.block = before.block
  cur : after.curBuf = before.curBuf ∧ after.membufOffset = before.membufOffset ∨
    after.membufOffset = 0

theorem delayFree_curBuf (session : Session) : CurKept session (delayFree session) := by
  simp only [delayFree]
  split
  · exact ⟨rfl, rfl, .inr rfl⟩
  · exact ⟨rfl, rfl, .inl ⟨rfl, rfl⟩⟩

theorem diskStep_curBuf {ticks written : Nat} {core after : Core}
    (stepped : diskStep 0 ticks written core = some after) :
    CurKept core.session after.session := by
  cases diskStep_cases stepped with
  | flush pc =>
      simp only [forceFlush]
      split
      · exact ⟨rfl, rfl, .inr rfl⟩
      · exact ⟨rfl, rfl, .inl ⟨rfl, rfl⟩⟩
  | @finish count pc =>
      obtain ⟨last, bytes, ⟨-, outcome⟩ | ⟨-, -, outcome⟩ | ⟨-, -, outcome⟩⟩ :=
        afterWrite_cases ticks count core
      · rw [outcome]
        exact ⟨rfl, rfl, .inl ⟨rfl, rfl⟩⟩
      · rw [outcome]
        exact ⟨rfl, rfl, .inr rfl⟩
      · rw [outcome]
        exact ⟨rfl, rfl, .inl ⟨rfl, rfl⟩⟩
  | _ => exact ⟨rfl, rfl, .inl ⟨rfl, rfl⟩⟩

theorem delSession_curBuf (core : Core) :
    CurKept core.session (delSession core true).session := by
  simp only [delSession]
  split
  · obtain ⟨length, block, cur⟩ := delayFree_curBuf (freeSessionStep1 core).session
    exact ⟨length, block, cur⟩
  · exact ⟨rfl, rfl, .inl ⟨rfl, rfl⟩⟩

theorem diskStep_keeps {forceDisconnectSeconds ticks written : Nat} {core after : Core}
    (stepped : diskStep forceDisconnectSeconds ticks written core = some after) :
    CurKept core.session after.session := by
  by_cases forced : core.disk = .scan ∧ forceDue forceDisconnectSeconds ticks core.session = true
  · simp only [diskStep, forced.1, forced.2, if_true, Option.some.injEq] at stepped
    exact stepped ▸ delSession_curBuf core
  · rw [diskStep_unforced fun scan => by
      cases due : forceDue forceDisconnectSeconds ticks core.session with
      | false => rfl
      | true => exact absurd ⟨scan, due⟩ forced] at stepped
    exact diskStep_curBuf stepped

section Disk

variable {before after : Session} {call : FixCall}

theorem CurKept.address (kept : CurKept before after) (buf : Buf) :
    after.address buf = before.address buf := by
  cases buf with
  | buf1 => rfl
  | buf2 => exact kept.length

theorem CurKept.same (kept : CurKept before after) (buffered : after.membufOffset ≠ 0) :
    after.curBuf = before.curBuf ∧ after.membufOffset = before.membufOffset :=
  kept.cur.resolve_right buffered

theorem CurKept.leads (kept : CurKept before after) (buffered : after.membufOffset ≠ 0) :
    after.curBufLeads = before.curBufLeads := by
  rw [Session.curBufLeads, kept.block, kept.address, (kept.same buffered).1]
  rfl

theorem CurKept.continues (kept : CurKept before after) (continues : Continues before call) :
    Continues after call := by
  intro ending plain buffered
  rw [kept.leads buffered]
  exact continues ending plain ((kept.same buffered).2 ▸ buffered)

theorem CurKept.placed (kept : CurKept before after) (placed : Placed before call) :
    Placed after call := by
  refine ⟨placed.long, placed.uncut, ?_, ?_, ?_⟩
  · have room := placed.room
    have length := kept.length
    rcases kept.cur with ⟨-, same⟩ | empty <;> omega
  · intro buf start
    rw [kept.length]
    exact placed.first buf (start.trans (kept.address buf))
  · intro buffered
    obtain ⟨curBuf, offset⟩ := kept.same buffered
    rw [kept.leads buffered, kept.address, curBuf, offset, kept.length]
    exact placed.behind (offset ▸ buffered)

theorem CurKept.copied (kept : CurKept before after)
    (copied : Whole before call → Copied before call) (whole : Whole after call) :
    Copied after call := by
  obtain ⟨curBuf, offset⟩ := kept.same whole.1
  have start : after.address after.curBuf = before.address before.curBuf := by
    rw [kept.address, curBuf]
  have current : after.current = before.current := by
    rw [Session.current, kept.block, start, offset]
    rfl
  have earlier : Whole before call := by
    rw [Whole, ← offset, ← start]
    exact whole
  obtain ⟨ending, leading⟩ := copied earlier
  refine ⟨?_, ?_⟩
  · rw [current, offset, kept.length]
    exact ending
  · rw [current, Leads, start]
    exact leading

theorem CurKept.callInv (kept : CurKept before after) (inv : CallInv before call) :
    CallInv after call := by
  unfold CallInv at inv ⊢
  cases pc : call.pc <;> simp only [pc] at inv ⊢
  case restart => exact ⟨inv.1, kept.continues inv.2⟩
  case place =>
    refine ⟨inv.1, kept.continues inv.2.1, fun start => ?_⟩
    have empty := inv.2.2 start
    rcases kept.cur with ⟨-, same⟩ | cleared
    · exact same.trans empty
    · exact cleared
  case copy => exact kept.placed inv
  case advance => exact ⟨kept.placed inv.1, kept.block ▸ inv.2⟩
  case lock => exact kept.copied inv

end Disk

theorem fixInv_disk {fixed : Fixed} {core : Core} (inv : FixInv fixed)
    (kept : CurKept fixed.session core.session) : FixInv { fixed with core := core } := by
  refine ⟨kept.length ▸ inv.large, ?_, ?_, fun call here => kept.callInv (inv.calls call here)⟩
  · change core.session.membufOffset ≤ core.session.memBufLen
    have inside := inv.inside
    have length := kept.length
    rcases kept.cur with ⟨-, same⟩ | empty <;> omega
  · intro early
    rcases kept.cur with ⟨-, same⟩ | empty
    · change core.session.membufOffset = 0 ∨ 3 ≤ core.session.membufOffset
      rw [same]
      exact inv.chunks early
    · exact .inl empty

theorem prefix_slice_iff {memory : Memory} {base count : Nat} (long : 3 ≤ count) :
    leadingIdf <+: memory.slice base count ↔ memory.slice base 3 = leadingIdf := by
  have cut : memory.slice base count =
      memory.slice base 3 ++ memory.slice (base + 3) (count - 3) := by
    rw [← Memory.slice_append]
    congr 1
    omega
  rw [cut]
  constructor
  · intro leads
    have short := List.prefix_of_prefix_length_le leads (List.prefix_append _ _) (by
      rw [Memory.length_slice]
      decide)
    exact (short.eq_of_length (by rw [Memory.length_slice]; rfl)).symm
  · intro same
    rw [same]
    exact List.prefix_append _ _

theorem leads_iff_current {session : Session} (long : 3 ≤ session.membufOffset) :
    session.curBufLeads = true ↔ leadingIdf <+: session.current := by
  rw [Session.curBufLeads, decide_eq_true_iff, Session.current, prefix_slice_iff long]

theorem startFlag_iff {buf : Memory} {len : Nat} (long : 3 ≤ len) :
    msgHasStartFlag buf = true ↔ leadingIdf <+: buf.slice 0 len := by
  rw [msgHasStartFlag, decide_eq_true_iff, prefix_slice_iff long]

theorem endFlag_suffix {buf : Memory} {len : Nat} (long : 3 ≤ len)
    (flag : msgHasEndFlag buf len = true) : endIdf <:+ buf.slice 0 len := by
  simp only [msgHasEndFlag, Bool.and_eq_true, decide_eq_true_eq] at flag
  obtain ⟨⟨last, second⟩, third⟩ := flag
  obtain ⟨rest, rfl⟩ := Nat.exists_eq_add_of_le' long
  have tail : buf.slice rest 3 = endIdf := by
    have first : buf (rest + 3 - 3) = 10 := third
    have middle : buf (rest + 3 - 2) = 10 := second
    have final : buf (rest + 3 - 1) = 10 := last
    rw [Nat.add_sub_cancel] at first
    rw [show rest + 3 - 2 = rest + 1 by omega] at middle
    rw [show rest + 3 - 1 = rest + 1 + 1 by omega] at final
    simp only [Memory.slice, first, middle, final, endIdf]
  rw [Memory.slice_append, Nat.zero_add, tail]
  exact List.suffix_append _ _

theorem length_current (session : Session) : session.current.length = session.membufOffset :=
  Memory.length_slice _ _ _

theorem copied_advance {session : Session} {call : FixCall} (placed : Placed session call)
    (chunks : session.membufOffset = 0 ∨ 3 ≤ session.membufOffset)
    (bytes : session.block.slice call.distBuf call.newLen = call.buf.slice 0 call.newLen)
    (ending : msgHasEndFlag call.buf call.len = true)
    (whole : Whole { session with membufOffset := session.membufOffset + call.newLen }
      { call with pc := .lock }) :
    Copied { session with membufOffset := session.membufOffset + call.newLen }
      { call with pc := .lock } := by
  obtain ⟨some_, ends⟩ := whole
  change session.membufOffset + call.newLen ≠ 0 at some_
  change session.address session.curBuf + (session.membufOffset + call.newLen) =
    call.distBuf + call.newLen at ends
  have aimed : call.distBuf = session.address session.curBuf + session.membufOffset := by omega
  have appended : session.block.slice (session.address session.curBuf)
      (session.membufOffset + call.newLen) =
      session.current ++ call.buf.slice 0 call.newLen := by
    rw [Memory.slice_append, ← aimed, bytes]
    rfl
  constructor
  · change endIdf <:+ session.block.slice (session.address session.curBuf)
        (session.membufOffset + call.newLen) ∨
      session.membufOffset + call.newLen = session.memBufLen
    rw [appended]
    have tail : call.newLen = call.len →
        endIdf <:+ session.current ++ call.buf.slice 0 call.newLen := by
      intro uncut
      rw [uncut]
      exact (endFlag_suffix placed.long ending).trans (List.suffix_append _ _)
    by_cases empty : session.membufOffset = 0
    · rw [empty, Nat.add_zero] at aimed
      rcases placed.first _ aimed with nothing | ⟨-, uncut | full⟩
      · omega
      · exact .inl (tail uncut)
      · exact .inr (by omega)
    · exact (placed.behind empty).2.2.imp_left tail
  · change leadingIdf <+: session.block.slice (session.address session.curBuf)
        (session.membufOffset + call.newLen) ↔ Leads session call
    rw [appended, Leads]
    rcases chunks with empty | buffered
    · rw [empty, Nat.add_zero] at aimed
      have nothing : session.current = [] := by
        rw [Session.current, empty]
        rfl
      rcases placed.first _ aimed with none | ⟨enough, -⟩
      · omega
      · rw [nothing, List.nil_append, ← startFlag_iff enough]
        simp only [aimed, ne_eq, not_true_eq_false, or_false]
    · have leads := (leads_iff_current buffered).mp ((placed.behind (by omega)).2.1 ending).1
      exact iff_of_true (leads.trans (List.prefix_append _ _)) (.inr (by omega))

section Net

variable {fixed : Fixed} {call : FixCall}

theorem fixInv_done (inv : FixInv fixed) {session : Session}
    (length : session.memBufLen = fixed.session.memBufLen)
    (inside : session.membufOffset ≤ session.memBufLen)
    (chunks : session.membufOffset = 0 ∨ 3 ≤ session.membufOffset) :
    FixInv (fixed.proceed session none) :=
  ⟨length ▸ inv.large, inside, fun _ => chunks, nofun⟩

theorem fixInv_discard (inv : FixInv fixed) : FixInv (fixed.proceed fixed.session.discard none) :=
  fixInv_done inv rfl (Nat.zero_le _) (.inl rfl)

theorem fixInv_next (inv : FixInv fixed) {session : Session} {next : FixCall}
    (length : session.memBufLen = fixed.session.memBufLen)
    (inside : session.membufOffset ≤ session.memBufLen)
    (chunks : next.pc.advanced = true ∨ session.membufOffset = 0 ∨ 3 ≤ session.membufOffset)
    (call : CallInv session next) : FixInv (fixed.proceed session (some next)) := by
  refine ⟨length ▸ inv.large, inside, fun early => ?_, ?_⟩
  · rcases chunks with late | chunks
    · rw [early next rfl] at late
      contradiction
    · exact chunks
  · intro other here
    exact Option.some.inj here ▸ call

theorem FixInv.settled (inv : FixInv fixed) (here : fixed.call = some call)
    (early : call.pc.advanced = false) :
    fixed.session.membufOffset = 0 ∨ 3 ≤ fixed.session.membufOffset := by
  refine inv.chunks fun other same => ?_
  rw [here] at same
  exact Option.some.inj same ▸ early

theorem fixInv_test (inv : FixInv fixed)
    (chunks : fixed.session.membufOffset = 0 ∨ 3 ≤ fixed.session.membufOffset) :
    FixInv (testChunk fixed call) := by
  simp only [testChunk]
  split
  · exact fixInv_done inv rfl inv.inside chunks
  · rename_i long
    split
    · exact fixInv_discard inv
    · rename_i kept
      refine fixInv_next inv rfl inv.inside (.inr chunks) ⟨Nat.le_of_not_lt long, ?_⟩
      intro ending plain _
      by_contra other
      apply kept
      rw [show msgHasEndFlag call.buf call.len = true from ending,
        show msgHasStartFlag call.buf = false from plain, Bool.eq_false_of_not_eq_true other]
      rfl

theorem fixInv_restart (inv : FixInv fixed)
    (chunks : fixed.session.membufOffset = 0 ∨ 3 ≤ fixed.session.membufOffset)
    (long : 3 ≤ call.len) (continues : Continues fixed.session call) :
    FixInv (restartChunk fixed call) := by
  simp only [restartChunk]
  split
  · exact fixInv_next inv rfl (Nat.zero_le _) (.inr (.inl rfl))
      ⟨long, fun _ _ buffered => absurd rfl buffered, fun _ => rfl⟩
  · rename_i stays
    refine fixInv_next inv rfl inv.inside (.inr chunks) ⟨long, continues, fun start => ?_⟩
    by_contra buffered
    apply stays
    rw [show msgHasStartFlag call.buf = true from start, Bool.true_and, decide_eq_true_iff]
    exact buffered

theorem start_behind {session : Session} (large : 3 ≤ session.memBufLen)
    (inside : session.membufOffset ≤ session.memBufLen) (buffered : session.membufOffset ≠ 0)
    {buf : Buf}
    (start : session.address session.curBuf + session.membufOffset = session.address buf) :
    session.membufOffset = session.memBufLen := by
  revert start
  cases session.curBuf <;> cases buf <;> simp only [Session.address] <;> omega

theorem fixInv_place (inv : FixInv fixed)
    (chunks : fixed.session.membufOffset = 0 ∨ 3 ≤ fixed.session.membufOffset)
    (long : 3 ≤ call.len) (continues : Continues fixed.session call)
    (started : msgHasStartFlag call.buf = true → fixed.session.membufOffset = 0) :
    FixInv (placeChunk fixed call) := by
  have large := inv.large
  have inside := inv.inside
  simp only [placeChunk]
  split
  · rename_i ending
    refine fixInv_next inv rfl inside (.inr chunks) ⟨long, ?_, ?_, ?_, ?_⟩
    · intro open_
      rw [show msgHasEndFlag call.buf call.len = false from open_] at ending
      contradiction
    · simp only
      split <;> omega
    · intro buf start
      simp only at start ⊢
      by_cases empty : fixed.session.membufOffset = 0
      · split <;> omega
      · have full := start_behind large inside empty start
        split <;> omega
    · intro buffered
      refine ⟨rfl, fun _ => ?_, ?_⟩
      · have plain : msgHasStartFlag call.buf = false := by
          cases start : msgHasStartFlag call.buf with
          | false => rfl
          | true => exact absurd (started start) buffered
        exact ⟨continues ending plain buffered, plain⟩
      · simp only
        split <;> omega
  · rename_i open_
    split
    · exact fixInv_discard inv
    · rename_i room
      refine fixInv_next inv rfl inside (.inr chunks)
        ⟨long, fun _ => rfl, Nat.le_of_not_lt room, ?_, ?_⟩
      · exact fun _ _ => .inr ⟨long, .inl rfl⟩
      · exact fun _ => ⟨rfl, fun ending => absurd ending open_, .inl rfl⟩

theorem fixInv_copy (inv : FixInv fixed)
    (chunks : fixed.session.membufOffset = 0 ∨ 3 ≤ fixed.session.membufOffset)
    (placed : Placed fixed.session call) : FixInv (copyChunk fixed call) := by
  refine fixInv_next inv rfl inv.inside (.inr chunks) ⟨?_, Memory.slice_memcpy_self _ _ _ _⟩
  refine ⟨placed.long, placed.uncut, placed.room, placed.first, fun buffered => ?_⟩
  obtain ⟨aimed, leads, cut⟩ := placed.behind buffered
  change fixed.session.membufOffset ≠ 0 at buffered
  refine ⟨aimed, fun ending => ?_, cut⟩
  -- the copy begins behind the first three bytes
  have kept : (fixed.session.block.memcpy call.distBuf call.buf call.newLen).slice
      (fixed.session.address fixed.session.curBuf) 3 =
      fixed.session.block.slice (fixed.session.address fixed.session.curBuf) 3 := by
    apply Memory.slice_memcpy_disjoint
    left
    omega
  refine ⟨?_, (leads ending).2⟩
  have before := (leads ending).1
  rw [Session.curBufLeads] at before ⊢
  exact (congrArg (fun bytes => decide (bytes = leadingIdf)) kept).trans before

theorem fixInv_advance (inv : FixInv fixed)
    (chunks : fixed.session.membufOffset = 0 ∨ 3 ≤ fixed.session.membufOffset)
    (placed : Placed fixed.session call)
    (bytes : fixed.session.block.slice call.distBuf call.newLen = call.buf.slice 0 call.newLen) :
    FixInv (advanceChunk fixed call) := by
  simp only [advanceChunk]
  split
  · rename_i ending
    exact fixInv_next inv rfl placed.room (.inl rfl) (copied_advance placed chunks bytes ending)
  · rename_i open_
    refine fixInv_done inv rfl placed.room ?_
    change fixed.session.membufOffset + call.newLen = 0 ∨
      3 ≤ fixed.session.membufOffset + call.newLen
    have long := placed.long
    have uncut := placed.uncut (Bool.eq_false_of_not_eq_true open_)
    omega

theorem fixInv_handOver (inv : FixInv fixed) : FixInv (handOverChunk fixed call) := by
  simp only [handOverChunk]
  split
  · exact fixInv_next inv rfl inv.inside (.inl rfl) trivial
  · exact fixInv_done inv rfl (Nat.zero_le _) (.inl rfl)

theorem fixInv_net (inv : FixInv fixed) (here : fixed.call = some call) :
    FixInv (netStep fixed call) := by
  have relied := inv.calls call here
  have chunks := inv.settled here
  unfold CallInv at relied
  unfold netStep
  cases pc : call.pc <;> simp only [pc] at relied chunks ⊢
  case test => exact fixInv_test inv (chunks rfl)
  case restart => exact fixInv_restart inv (chunks rfl) relied.1 relied.2
  case place => exact fixInv_place inv (chunks rfl) relied.1 relied.2.1 relied.2.2
  case copy => exact fixInv_copy inv (chunks rfl) relied
  case advance => exact fixInv_advance inv (chunks rfl) relied.1 relied.2
  case lock => exact fixInv_handOver inv
  case drop => exact fixInv_discard inv

theorem fixInv_step {forceDisconnectSeconds : Nat} {after : Fixed} {label : FixStep}
    (inv : FixInv fixed) (stepped : fixed.step forceDisconnectSeconds label = some after) :
    FixInv after := by
  cases label with
  | tick =>
      obtain rfl := Option.some.inj stepped
      obtain ⟨large, inside, chunks, calls⟩ := inv
      exact ⟨large, inside, chunks, calls⟩
  | disk written =>
      obtain ⟨core, moved, rfl⟩ := Option.map_eq_some_iff.mp stepped
      exact fixInv_disk inv (diskStep_keeps moved)
  | read buf len =>
      simp only [Fixed.step] at stepped
      split at stepped
      · rename_i free
        obtain rfl := Option.some.inj stepped
        refine fixInv_next inv rfl inv.inside (.inr (inv.chunks fun call here => ?_)) trivial
        rw [here] at free
        exact absurd free.1 Bool.false_ne_true
      · contradiction
  | net =>
      obtain ⟨call, here, rfl⟩ := Option.map_eq_some_iff.mp stepped
      exact fixInv_net inv here

theorem pending_handOver (session : Session) (large : 1 ≤ session.memBufLen)
    (inside : session.membufOffset ≤ session.memBufLen) :
    session.switchBuf.clearCurBuf.pending = session.current := by
  rw [← Session.switchBuf_pending]
  change (session.block.set (session.switchBuf.address session.curBuf.other) 0).slice
      (session.switchBuf.address session.curBuf) session.membufOffset =
    session.block.slice (session.switchBuf.address session.curBuf) session.membufOffset
  apply Memory.slice_memcpy_disjoint
  cases session.curBuf with
  | buf1 =>
      left
      change 0 + session.membufOffset ≤ session.memBufLen
      omega
  | buf2 =>
      right
      change 0 + 1 ≤ session.memBufLen
      omega

theorem netStep_handsOver (hands : fixed.handsOver call) :
    (netStep fixed call).session = fixed.session.switchBuf.clearCurBuf := by
  obtain ⟨-, pc, idle⟩ := hands
  simp only [netStep, pc, handOverChunk, idle, Bool.false_eq_true, if_false]
  rfl

/-- Where the copy is whole, the buffer handed over is framed exactly when the chunk begins a
record or was put behind one; an empty buffer never is. -/
theorem framed_handOver_iff (inv : FixInv fixed) (hands : fixed.handsOver call) :
    (Whole fixed.session call →
        (Framed (netStep fixed call).session.memBufLen (netStep fixed call).session.pending ↔
          Leads fixed.session call)) ∧
      (fixed.session.membufOffset = 0 →
        ¬Framed (netStep fixed call).session.memBufLen (netStep fixed call).session.pending) := by
  rw [netStep_handsOver hands,
    pending_handOver fixed.session (Nat.le_trans (by decide) inv.large) inv.inside]
  change (_ → (Framed fixed.session.memBufLen _ ↔ _)) ∧ (_ → ¬Framed fixed.session.memBufLen _)
  rw [Framed, length_current]
  constructor
  · intro whole
    have relied := inv.calls call hands.1
    rw [CallInv, hands.2.1] at relied
    obtain ⟨ending, leading⟩ := relied whole
    rw [leading]
    exact and_iff_left ending
  · rintro empty ⟨leads, -⟩
    have short := leads.length_le
    rw [length_current, empty] at short
    exact absurd short (by decide)

theorem handsFramed_of_record {forceDisconnectSeconds : Nat} {after : Fixed} {label : FixStep}
    (inv : FixInv fixed) (record : HandsRecord fixed label)
    (stepped : fixed.step forceDisconnectSeconds label = some after) :
    HandsFramed fixed label after := by
  cases label with
  | net =>
      intro call hands
      obtain ⟨other, here, rfl⟩ := Option.map_eq_some_iff.mp stepped
      obtain rfl := Option.some.inj (here.symm.trans hands.1)
      have leads := record _ hands
      exact ((framed_handOver_iff inv hands).1 leads.1).mpr leads.2
  | _ => trivial

end Net

/-- Over a whole run of chunks, disk steps and timer flushes the buffers handed over are
framed, as long as each hand-over is of a whole copy with a record begun in it. -/
theorem buffers_framed (forceDisconnectSeconds : Nat) (ip : Int)
    (slotIdx ticks networkBytes : Nat) (labels : List FixStep)
    (records : (fixMachine forceDisconnectSeconds).Along
      (fun fixed label _ => HandsRecord fixed label)
      (startFixed ip slotIdx ticks networkBytes) labels) :
    (fixMachine forceDisconnectSeconds).Along HandsFramed
      (startFixed ip slotIdx ticks networkBytes) labels := by
  refine Machine.Along.of_invariant FixInv ?_ (fixInv_start ip slotIdx ticks networkBytes) records
  intro fixed label after inv record stepped
  exact ⟨handsFramed_of_record inv record stepped, fixInv_step inv stepped⟩

def bytesOf (bytes : List UInt8) : Memory := fun offset => bytes.getD offset 0

def chunkSteps (bytes : List UInt8) (steps : Nat) : List FixStep :=
  .read (bytesOf bytes) bytes.length :: List.replicate steps .net

/-- A record in two chunks, a record dropped while the first is written, and one that is
begun when the timer has flushed the beginning of another. -/
def threeRecords : List FixStep :=
  chunkSteps [116, 111, 112] 5 ++ chunkSteps [120, 10, 10, 10] 6 ++
    List.replicate 5 (.disk 7) ++ chunkSteps [116, 111, 112, 10, 10, 10] 7 ++
    List.replicate 3 (.disk 7) ++ chunkSteps [116, 111, 112] 5 ++ List.replicate 241 .tick ++
    List.replicate 14 (.disk 3) ++ chunkSteps [116, 111, 112, 10, 10, 10] 6

theorem buffers_framed_three :
    (fixMachine 0).Along HandsFramed (startFixed 0 0 0 0) threeRecords ∧
      ((fixMachine 0).run (startFixed 0 0 0 0) threeRecords).map
        (fun fixed => fixed.session.pending) = some [116, 111, 112, 10, 10, 10] := by
  refine ⟨buffers_framed 0 0 0 0 0 threeRecords ?_, by decide +kernel⟩
  have whole : ((fixMachine 0).runAllowed HandsRecord (startFixed 0 0 0 0)
      threeRecords).isSome = true := by
    decide +kernel
  obtain ⟨last, ran⟩ := Option.isSome_iff_exists.mp whole
  exact Machine.along_of_runAllowed ran

/-- A whole record is written, and the start of a second one flushed by the timer. -/
def staleRecord : List FixStep :=
  chunkSteps [116, 111, 112, 10, 10, 10] 6 ++ List.replicate 8 (.disk 6) ++
    chunkSteps [116, 111, 112] 5 ++ List.replicate 241 .tick ++ List.replicate 14 (.disk 3)

/-- The end of the second record passes for a record because of the first one, and is
handed over alone. -/
theorem end_handed_alone :
    ¬∀ ip slotIdx ticks networkBytes labels,
      (fixMachine 0).Along HandsFramed (startFixed ip slotIdx ticks networkBytes) labels := by
  intro always
  have found : ((fixMachine 0).run (startFixed 0 0 0 0)
      (staleRecord ++ chunkSteps [120, 10, 10, 10] 5)).map (fun fixed =>
        (fixed.call.map FixCall.pc, fixed.session.diskIoInProgress,
          fixed.session.switchBuf.clearCurBuf.pending)) =
        some (some .lock, false, [120, 10, 10, 10]) := by
    decide +kernel
  obtain ⟨middle, ran, outcome⟩ := Option.map_eq_some_iff.mp found
  simp only [Prod.mk.injEq, Option.map_eq_some_iff] at outcome
  obtain ⟨⟨call, here, pc⟩, idle, handed⟩ := outcome
  have hands : middle.handsOver call := ⟨here, pc, idle⟩
  have stepped : (fixMachine 0).step middle .net = some (netStep middle call) := by
    simp only [fixMachine, Fixed.step, here, Option.map_some]
  have right := Machine.Along.last (always 0 0 0 0 _) ran stepped
  have leads := (right call hands).1
  rw [netStep_handsOver hands, handed] at leads
  exact absurd leads (by decide)

end DirtyCode.LogCollect
