import DirtyCode.LogCollect.System

/-!
Runs of a live session whose chunks are `NET_READ_BUF` long: how the buffers
fill, switch, drain and grow, and how a session comes to have read any number of
bytes with its buffers back in the same state.
-/

namespace DirtyCode.LogCollect

open Lib

def System.stuckAfter (system : System) (netReadBufLen : Nat) (buf : Memory) (len : Nat) :
    System where
  core := { system.core with
    session := Session.copyIn { system.core.session with
      networkBytes := system.core.session.networkBytes + len
      netReadBufLen := netReadBufLen
      bufFullStuck := true } buf len }
  ticks := system.ticks
  net := system.net
  accepted := system.accepted ++ buf.slice 0 len

theorem stuck_copies (system : System) (calloc : Nat → Bool) (buf : Memory) (len : Nat)
    (live : system.net = .live) (slot : 0 ≤ system.core.session.slotIdx)
    (unstuck : system.core.session.bufFullStuck = false) (nonempty : 1 ≤ len)
    (bounded : len ≤ system.core.session.netReadBufLen)
    (full : system.core.session.memBufLen <
      system.core.session.membufOffset + len + system.core.session.netReadBufLen)
    (queued : system.core.session.diskBuf.isSome = true)
    (failed : (enlargeSessionBuf system.ticks calloc
      { system.core.session with networkBytes := system.core.session.networkBytes + len }
      (system.core.session.membufOffset + len + system.core.session.netReadBufLen -
        system.core.session.memBufLen)).1 ≠ 0) :
    ∃ netReadBufLen, machine.step system (.drain calloc buf len) =
      some (system.stuckAfter netReadBufLen buf len) := by
  let received := { system.core.session with
    networkBytes := system.core.session.networkBytes + len }
  obtain ⟨netReadBufLen, ⟨_, raised⟩ | ⟨grew, _⟩⟩ :=
    enlargeSessionBuf_cases system.ticks calloc received (enlargeGap received len)
  · refine ⟨netReadBufLen, drain_iff.mpr ⟨live, slot, unstuck, nonempty, bounded, _,
      .stuck (.refl received) (by simpa [Session.bufFull] using full) queued failed, ?_⟩⟩
    rw [raised]
    rfl
  · exact absurd grew failed

/-- A live session between two visits of the disk thread, no timer flush due. -/
structure Settled (system : System) (cur : Buf) (disk : Option Buf)
    (offset memBufLen readLen bytes elapsed : Nat) (stuck : Bool) : Prop where
  live : system.net = .live
  slot : 0 ≤ system.core.session.slotIdx
  scan : system.core.disk = .scan
  stage : system.core.session.inDeleteStage = 0
  noFlush : system.core.session.timeOutNeedFlushToDisk = false
  noIo : system.core.session.diskIoInProgress = false
  kept : system.core.session.needDelayFree = false
  curBuf : system.core.session.curBuf = cur
  diskBuf : system.core.session.diskBuf = disk
  queued : disk.isSome = true → 1 ≤ system.core.session.diskWriteBufLen
  membufOffset : system.core.session.membufOffset = offset
  memBufLen : system.core.session.memBufLen = memBufLen
  netReadBufLen : system.core.session.netReadBufLen = readLen
  networkBytes : system.core.session.networkBytes = bytes
  ticks : system.ticks - system.core.session.startTicks = elapsed
  stuck : system.core.session.bufFullStuck = stuck

/-- Calls in which every `calloc` succeeds and every `write()` is complete. -/
def Succeeding (system : System) : Action → Prop
  | .drain calloc _ _ => ∀ newlen, calloc newlen = true
  | .disk written => ∀ buf, system.core.disk = .write buf →
      written = system.core.session.diskWriteBufLen
  | _ => True

section

variable {system : System} {cur : Buf} {disk : Option Buf}
  {offset memBufLen readLen bytes elapsed len : Nat}

theorem Settled.drain_room
    (settled : Settled system cur disk offset memBufLen readLen bytes elapsed false)
    (calloc : Nat → Bool) (buf : Memory) (nonempty : 1 ≤ len) (bounded : len ≤ readLen)
    (room : offset + len + readLen ≤ memBufLen) :
    ∃ after, system.step (.drain calloc buf len) = some after ∧
      Settled after cur disk (offset + len) memBufLen readLen (bytes + len) elapsed false := by
  obtain ⟨live, slot, scan, stage, noFlush, noIo, kept, curBuf, diskBuf, queued, rfl, rfl, rfl,
    rfl, ticks, stuck⟩ := settled
  refine ⟨_, drain_iff.mpr ⟨live, slot, stuck, nonempty, bounded, _, .room (.refl _) ?_, rfl⟩, ?_⟩
  · simp only [Session.bufFull, decide_eq_false_iff_not]
    omega
  · exact ⟨live, slot, scan, stage, noFlush, noIo, kept, curBuf, diskBuf, queued, rfl, rfl, rfl,
      rfl, ticks, stuck⟩

theorem Settled.drain_switch
    (settled : Settled system cur none offset memBufLen readLen bytes elapsed false)
    (calloc : Nat → Bool) (buf : Memory) (nonempty : 1 ≤ len) (bounded : len ≤ readLen)
    (buffered : 1 ≤ offset) (full : memBufLen < offset + len + readLen) :
    ∃ after, system.step (.drain calloc buf len) = some after ∧
      Settled after cur.other (some cur) len memBufLen readLen (bytes + len) elapsed false := by
  obtain ⟨live, slot, scan, stage, noFlush, noIo, kept, rfl, diskBuf, queued, rfl, rfl, rfl,
    rfl, ticks, stuck⟩ := settled
  refine ⟨_, drain_iff.mpr ⟨live, slot, stuck, nonempty, bounded, _,
    .switched ?_ diskBuf noIo, rfl⟩, ?_⟩
  · simpa only [Session.bufFull, decide_eq_true_eq] using full
  · exact ⟨live, slot, scan, stage, rfl, noIo, kept, rfl, rfl, fun _ => buffered,
      Nat.zero_add _, rfl, rfl, rfl, ticks, stuck⟩

theorem Settled.drain_grow {pending : Buf}
    (settled : Settled system cur (some pending) offset memBufLen netReadBuf bytes elapsed false)
    (calloc : Nat → Bool) (succeeds : ∀ newlen, calloc newlen = true) (buf : Memory)
    (steady : reallocLat ≤ elapsed) (full : memBufLen = offset + netReadBuf)
    (small : memBufLen + stepDataBlockSize ≤ maxDataBlockSize) :
    ∃ after, system.step (.drain calloc buf netReadBuf) = some after ∧
      Settled after .buf1 (some .buf2) (offset + netReadBuf) (memBufLen + stepDataBlockSize)
        netReadBuf (bytes + netReadBuf) elapsed false := by
  obtain ⟨live, slot, scan, stage, noFlush, noIo, kept, rfl, diskBuf, queued, rfl, rfl, readLen,
    rfl, ticks, stuck⟩ := settled
  let received := { system.core.session with
    networkBytes := system.core.session.networkBytes + netReadBuf }
  have gap : enlargeGap received netReadBuf = netReadBuf := by
    simp only [enlargeGap, received]
    omega
  have newlen : enlargedLen received netReadBuf =
      system.core.session.memBufLen + stepDataBlockSize := by
    simp [enlargedLen, netReadBuf, growFrom, received, stepDataBlockSize]
  have enlarged : enlargeSessionBuf system.ticks calloc received (enlargeGap received netReadBuf) =
      (0, received.moveTo (system.core.session.memBufLen + stepDataBlockSize)) := by
    have late : ¬system.ticks - received.startTicks < reallocLat := by
      simp only [received]
      omega
    have below : ¬maxDataBlockSize < system.core.session.memBufLen + stepDataBlockSize := by omega
    simp only [enlargeSessionBuf, gap, newlen, late, below, if_false, succeeds, if_true]
  have moved : received.moveTo (system.core.session.memBufLen + stepDataBlockSize) =
      { received with
        block := (received.moveTo (system.core.session.memBufLen + stepDataBlockSize)).block
        memBufLen := system.core.session.memBufLen + stepDataBlockSize
        curBuf := .buf1
        diskBuf := some .buf2 } :=
    Session.moveTo_keeps _ (by simp [received, diskBuf])
  refine ⟨_, drain_iff.mpr ⟨live, slot, stuck, by decide, by omega, _,
    .room (.grow ?_ ?_ ?_ (.refl _)) ?_, rfl⟩, ?_⟩
  · have positive : 0 < netReadBuf := by decide
    simp only [Session.bufFull, decide_eq_true_eq]
    omega
  · simp [diskBuf]
  · exact congrArg Prod.fst enlarged
  · rw [show enlargeSessionBuf _ _ _ _ = _ from enlarged, moved]
    simp only [Session.bufFull, decide_eq_false_iff_not, received, readLen]
    simp only [netReadBuf, stepDataBlockSize] at full ⊢
    omega
  · rw [show enlargeSessionBuf _ _ _ _ = _ from enlarged, moved]
    exact ⟨live, slot, scan, stage, noFlush, noIo, kept, rfl, rfl, fun _ => queued rfl, rfl, rfl,
      readLen, rfl, ticks, stuck⟩

/-- At 128 KiB and a high average rate `net_read_buf_len` is raised before the
enlargement is refused, and the copy takes the last of the reserve. -/
theorem Settled.drain_raise {pending : Buf}
    (settled : Settled system cur (some pending) 126976 131072 netReadBuf bytes elapsed false)
    (calloc : Nat → Bool) (buf : Memory) (steady : reallocLat ≤ elapsed)
    (fast : 1048576 < toInt32 ((bytes + netReadBuf) / elapsed : Nat))
    (refused : toInt32 (4 * toInt32 ((bytes + netReadBuf) / elapsed : Nat)) < 139264 ∨
      calloc 139264 = false) :
    ∃ after, system.step (.drain calloc buf netReadBuf) = some after ∧
      Settled after cur (some pending) 131072 131072 131072 (bytes + netReadBuf) elapsed true := by
  obtain ⟨live, slot, scan, stage, noFlush, noIo, kept, curBuf, diskBuf, queued, offset, memory,
    readLen, rfl, rfl, stuck⟩ := settled
  let received := { system.core.session with
    networkBytes := system.core.session.networkBytes + netReadBuf }
  have gap : enlargeGap received netReadBuf = 4096 := by
    simp only [enlargeGap, received, offset, memory, readLen, netReadBuf]
  have newlen : enlargedLen received 4096 = 139264 := by
    simp [enlargedLen, growFrom, received, stepDataBlockSize, memory]
  have late : ¬system.ticks - received.startTicks < reallocLat := by
    simp only [received]
    omega
  obtain ⟨bw, rate⟩ : ∃ bw, averageRate system.ticks received = bw := ⟨_, rfl⟩
  rw [show toInt32 _ = bw from rate] at fast refused
  have raised : raisedNetReadBufLen bw received.netReadBufLen = 131072 := if_pos fast
  have enlarged : ∃ code, code ≠ 0 ∧
      enlargeSessionBuf system.ticks calloc received (enlargeGap received netReadBuf) =
        (code, { received with netReadBufLen := 131072 }) := by
    have high : ¬bw < 2 * (maxDataBlockSize : Int) := by
      simp only [maxDataBlockSize]
      push_cast
      linarith only [fast]
    have long : maxDataBlockSize < 139264 := by decide
    simp only [enlargeSessionBuf, gap, newlen, rate, late, long, high, raised, if_true, if_false]
    by_cases wrapped : toInt32 (4 * bw) < (139264 : Nat)
    · exact ⟨3, by decide, if_pos wrapped⟩
    · have failing : calloc 139264 = false := refused.resolve_left wrapped
      have short : ¬extDataBlockSize < 139264 := by decide
      refine ⟨-1, by decide, ?_⟩
      rw [if_neg wrapped, if_neg short, failing]
      rfl
  obtain ⟨code, failed, outcome⟩ := enlarged
  refine ⟨_, drain_iff.mpr ⟨live, slot, stuck, by decide, by omega, _,
    .stuck (.refl _) ?_ ?_ ?_, rfl⟩, ?_⟩
  · simp [Session.bufFull, offset, memory, readLen, netReadBuf]
  · simp [diskBuf]
  · rw [show enlargeSessionBuf _ _ _ _ = _ from outcome]
    exact failed
  · rw [show enlargeSessionBuf _ _ _ _ = _ from outcome]
    exact ⟨live, slot, scan, stage, noFlush, noIo, kept, curBuf, diskBuf, queued,
      by simp [Session.copyIn, received, offset, netReadBuf], memory, rfl, rfl, rfl, rfl⟩

variable {allowed : System → Action → Prop}

theorem Settled.visit {pending : Buf} {wasStuck : Bool}
    (permitted : ∀ system action, Succeeding system action → allowed system action)
    (reached : machine.Reachable allowed system)
    (settled : Settled system cur (some pending) offset memBufLen readLen bytes elapsed wasStuck) :
    ∃ after, machine.Reachable allowed after ∧
      Settled after cur none offset memBufLen readLen bytes elapsed false := by
  obtain ⟨live, slot, scan, stage, noFlush, noIo, kept, curBuf, diskBuf, queued, rfl, rfl, rfl,
    rfl, ticks, stuck⟩ := settled
  let count := system.core.session.diskWriteBufLen
  have waiting : ¬system.core.session.diskWriteBufLen < 1 := by
    have positive := queued rfl
    omega
  let standing (pc : DiskPc) : System := { system with core := { system.core with disk := pc } }
  let claimed : Core := { system.core with
    session := claimBuf system.core.session, disk := .write pending }
  let written : Core := { claimed with
    log := claimed.log ++ claimed.session.block.slice (claimed.session.address pending) count
    disk := .complete pending count }
  let completed : Core := { written with
    session := completeWrite written.session, disk := .finish count }
  have idle (pc : DiskPc) (other : ∀ buf, pc ≠ .write buf) :
      allowed (standing pc) (.disk count) :=
    permitted _ _ fun buf writing => absurd writing (other buf)
  have entered : machine.Reachable allowed (standing .visit) := by
    have started := idle .scan (by simp)
    rw [show standing .scan = system by simp [standing, ← scan]] at started
    apply reached.next _ started
    simp [machine, System.step, diskStep, scan, forceDue, stage, standing]
  have unflushed : machine.Reachable allowed (standing .timer) := by
    apply entered.next _ (idle .visit (by simp))
    simp [machine, System.step, diskStep, noFlush, standing]
  have untimed : machine.Reachable allowed (standing .pending) := by
    apply unflushed.next _ (idle .timer (by simp))
    simp [machine, System.step, diskStep, timerDue, diskBuf, standing]
  have submitted : machine.Reachable allowed (standing .claim) := by
    apply untimed.next _ (idle .pending (by simp))
    simp [machine, System.step, diskStep, diskBuf, waiting, standing]
  have claiming : machine.Reachable allowed { system with core := claimed } := by
    apply submitted.next _ (idle .claim (by simp))
    simp [machine, System.step, diskStep, diskBuf, noIo, standing, claimed]
  have writing : machine.Reachable allowed { system with core := written } := by
    apply claiming.next _ (permitted _ (.disk count) fun _ _ => rfl)
    simp [machine, System.step, diskStep, claimed, written, count, claimBuf]
  have completing : machine.Reachable allowed { system with core := completed } := by
    apply writing.next (.disk count)
      (permitted _ _ fun buf writing => by simp [written] at writing)
    simp [machine, System.step, diskStep, written, completed]
  refine ⟨{ system with core := afterWrite system.ticks count completed }, ?_, ?_⟩
  · apply completing.next (.disk count)
      (permitted _ _ fun buf writing => by simp [completed] at writing)
    simp [machine, System.step, diskStep, completed]
  · obtain ⟨last, total, ⟨_, outcome⟩ | ⟨delayed, _⟩ | ⟨delayed, _⟩⟩ :=
      afterWrite_cases system.ticks count completed
    · rw [outcome]
      exact ⟨live, slot, rfl, stage, noFlush, rfl, kept, curBuf, rfl, fun none => by simp at none,
        rfl, rfl, rfl, rfl, ticks, rfl⟩
    · exact absurd (kept.symm.trans delayed) (by decide)
    · exact absurd (kept.symm.trans delayed) (by decide)

end

def zeros (len : Nat) : Action := .drain (fun _ => true) (fun _ => 0) len

/-- Some allowed run leads to a settled session with these values. -/
def Arrives (allowed : System → Action → Prop) (cur : Buf) (disk : Option Buf)
    (offset memBufLen readLen bytes elapsed : Nat) : Prop :=
  ∃ system, machine.Reachable allowed system ∧
    Settled system cur disk offset memBufLen readLen bytes elapsed false

section

variable {allowed : System → Action → Prop} {cur pending : Buf} {disk : Option Buf}
  {offset memBufLen readLen bytes elapsed : Nat}
  (permitted : ∀ system action, Succeeding system action → allowed system action)

include permitted

theorem Arrives.room (len : Nat)
    (arrives : Arrives allowed cur disk offset memBufLen readLen bytes elapsed)
    (nonempty : 1 ≤ len) (bounded : len ≤ readLen) (room : offset + len + readLen ≤ memBufLen) :
    Arrives allowed cur disk (offset + len) memBufLen readLen (bytes + len) elapsed := by
  obtain ⟨system, reached, settled⟩ := arrives
  obtain ⟨after, stepped, next⟩ :=
    settled.drain_room (fun _ => true) (fun _ => 0) nonempty bounded room
  exact ⟨after, reached.next (zeros len) (permitted _ (zeros len) fun _ => rfl) stepped, next⟩

theorem Arrives.fill (len : Nat)
    (arrives : Arrives allowed cur disk offset memBufLen readLen bytes elapsed)
    (nonempty : 1 ≤ len) (bounded : len ≤ readLen) (chunks : Nat)
    (room : offset + chunks * len + readLen ≤ memBufLen) :
    Arrives allowed cur disk (offset + chunks * len) memBufLen readLen (bytes + chunks * len)
      elapsed := by
  induction chunks with
  | zero => simpa using arrives
  | succ chunks ih =>
      rw [Nat.succ_mul] at room ⊢
      have filled := (ih (by omega)).room permitted len nonempty bounded (by omega)
      simpa only [Nat.add_assoc] using filled

theorem Arrives.switch (len : Nat)
    (arrives : Arrives allowed cur none offset memBufLen readLen bytes elapsed)
    (nonempty : 1 ≤ len) (bounded : len ≤ readLen) (buffered : 1 ≤ offset)
    (full : memBufLen < offset + len + readLen) :
    Arrives allowed cur.other (some cur) len memBufLen readLen (bytes + len) elapsed := by
  obtain ⟨system, reached, settled⟩ := arrives
  obtain ⟨after, stepped, next⟩ :=
    settled.drain_switch (fun _ => true) (fun _ => 0) nonempty bounded buffered full
  exact ⟨after, reached.next (zeros len) (permitted _ (zeros len) fun _ => rfl) stepped, next⟩

theorem Arrives.visit
    (arrives : Arrives allowed cur (some pending) offset memBufLen readLen bytes elapsed) :
    Arrives allowed cur none offset memBufLen readLen bytes elapsed := by
  obtain ⟨system, reached, settled⟩ := arrives
  exact settled.visit permitted reached

theorem Arrives.grow
    (arrives : Arrives allowed cur (some pending) offset memBufLen netReadBuf bytes elapsed)
    (steady : reallocLat ≤ elapsed) (full : memBufLen = offset + netReadBuf)
    (small : memBufLen + stepDataBlockSize ≤ maxDataBlockSize) :
    Arrives allowed .buf1 (some .buf2) (offset + netReadBuf) (memBufLen + stepDataBlockSize)
      netReadBuf (bytes + netReadBuf) elapsed := by
  obtain ⟨system, reached, settled⟩ := arrives
  obtain ⟨after, stepped, next⟩ :=
    settled.drain_grow (fun _ => true) (fun _ => rfl) (fun _ => 0) steady full small
  exact ⟨after, reached.next (zeros netReadBuf) (permitted _ (zeros netReadBuf) fun _ => rfl)
    stepped, next⟩

theorem arrives_start (elapsed : Nat) :
    Arrives allowed .buf1 none 0 defaultDataBlockSize netReadBuf 0 elapsed := by
  have waited : ∀ elapsed, machine.Reachable allowed
      { startSystem 0 0 0 0 with ticks := elapsed } := by
    intro elapsed
    induction elapsed with
    | zero => exact .start ⟨0, 0, 0, 0, rfl⟩
    | succ elapsed ih => exact ih.next .tick (permitted _ .tick trivial) rfl
  exact ⟨_, waited elapsed, rfl, Int.le_refl _, rfl, rfl, rfl, rfl, rfl, rfl, rfl, by simp, rfl,
    rfl,
    rfl, rfl, Nat.sub_zero _, rfl⟩

theorem Arrives.regrow
    (arrives : Arrives allowed cur (some pending) offset memBufLen netReadBuf bytes elapsed)
    (steady : reallocLat ≤ elapsed) (full : memBufLen = offset + netReadBuf)
    (small : memBufLen + stepDataBlockSize ≤ maxDataBlockSize) :
    Arrives allowed .buf1 (some .buf2) (offset + stepDataBlockSize)
      (memBufLen + stepDataBlockSize) netReadBuf (bytes + stepDataBlockSize) elapsed := by
  have grown := arrives.grow permitted steady full small
  have refilled := grown.room permitted netReadBuf (by decide) (by decide)
    (by simp only [netReadBuf, stepDataBlockSize] at full ⊢; omega)
  simpa only [netReadBuf, stepDataBlockSize, Nat.add_assoc] using refilled

theorem arrives_grown (steady : reallocLat ≤ elapsed) (steps : Nat) (few : steps ≤ 7) :
    Arrives allowed .buf1 (some .buf2) (69632 + steps * 8192) (73728 + steps * 8192) netReadBuf
      (131072 + steps * 8192) elapsed := by
  induction steps with
  | zero =>
      have first := (arrives_start permitted elapsed).fill permitted netReadBuf
        (by decide) (by decide) 15 (by decide)
      have switched := first.switch permitted netReadBuf (by decide) (by decide)
        (by decide) (by decide)
      have second := switched.fill permitted netReadBuf (by decide) (by decide) 14
        (by decide)
      exact second.regrow permitted steady (by decide) (by decide)
  | succ steps ih =>
      have grown := (ih (by omega)).regrow permitted steady (by simp only [netReadBuf]; omega)
        (by simp only [stepDataBlockSize, maxDataBlockSize]; omega)
      convert grown using 1 <;> simp only [stepDataBlockSize] <;> omega

theorem Arrives.traffic (arrives : Arrives allowed cur none 126976 131072 netReadBuf bytes elapsed)
    (pairs : Nat) :
    Arrives allowed cur none 126976 131072 netReadBuf (bytes + pairs * 253952) elapsed := by
  have cycle : ∀ {cur bytes}, Arrives allowed cur none 126976 131072 netReadBuf bytes elapsed →
      Arrives allowed cur.other none 126976 131072 netReadBuf (bytes + 126976) elapsed := by
    intro cur bytes arrives
    have switched := arrives.switch permitted netReadBuf (by decide) (by decide)
      (by decide) (by decide)
    have filled := (switched.visit permitted).fill permitted netReadBuf (by decide)
      (by decide) 30 (by decide)
    simpa only [netReadBuf, Nat.add_assoc] using filled
  induction pairs with
  | zero => simpa using arrives
  | succ pairs ih =>
      have twice := cycle (cycle ih)
      rw [Buf.other_other] at twice
      convert twice using 1
      omega

theorem arrives_busy (steady : reallocLat ≤ elapsed) (pairs : Nat) :
    Arrives allowed .buf2 (some .buf1) 126976 131072 netReadBuf (315392 + pairs * 253952)
      elapsed := by
  have cycled := ((arrives_grown permitted steady 7 (by decide)).visit permitted).traffic permitted
    pairs
  have switched := cycled.switch permitted netReadBuf (by decide) (by decide)
    (by decide) (by decide)
  have filled := switched.fill permitted netReadBuf (by decide) (by decide) 30 (by decide)
  have total : 131072 + 7 * 8192 + pairs * 253952 + netReadBuf + 30 * netReadBuf =
      315392 + pairs * 253952 := by
    simp only [netReadBuf]
    omega
  exact total ▸ filled

/-- After enough traffic a session stands with 128 KiB buffers and reads of the
same length, one buffer filled to the last byte. -/
theorem arrives_raised (calloc : Nat → Bool) (steady : reallocLat ≤ elapsed) (pairs : Nat)
    (attempt : ∀ system, allowed system (.drain calloc (fun _ => 0) netReadBuf))
    (fast : 1048576 < toInt32 ((319488 + pairs * 253952) / elapsed : Nat))
    (refused : toInt32 (4 * toInt32 ((319488 + pairs * 253952) / elapsed : Nat)) < 139264 ∨
      calloc 139264 = false) :
    Arrives allowed .buf2 none 131072 131072 131072 (319488 + pairs * 253952) elapsed := by
  obtain ⟨system, reached, settled⟩ := arrives_busy permitted steady pairs
  have total : 315392 + pairs * 253952 + netReadBuf = 319488 + pairs * 253952 := by
    simp only [netReadBuf]
    omega
  obtain ⟨after, stepped, raised⟩ := settled.drain_raise calloc (fun _ => 0) steady
    (by rw [total]; exact fast) (by rw [total]; exact refused)
  rw [total] at raised
  exact raised.visit permitted (reached.next _ (attempt system) stepped)

end

end DirtyCode.LogCollect
