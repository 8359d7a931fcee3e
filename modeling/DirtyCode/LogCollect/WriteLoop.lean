import DirtyCode.Lib.Machine
import DirtyCode.LogCollect.DiskThread

/-!
The loop of `write2disk` over the results of `write()`, and what the function reports.
-/

namespace DirtyCode.LogCollect

open Lib

inductive WriteResult
  | wrote (count : Nat)
  | failed (errno : Nat)
  deriving DecidableEq, Repr

def eintr : Nat := 4

namespace WriteResult

def rc : WriteResult → Int
  | wrote count => count
  | failed _ => -1

def errno : WriteResult → Nat
  | wrote _ => 0
  | failed errno => errno

-- the loop never moves `buf`
def delivered (buf : Memory) : WriteResult → List UInt8
  | wrote count => buf.slice 0 count
  | failed _ => []

@[simp] theorem length_wrote (buf : Memory) (count : Nat) :
    ((wrote count).delivered buf).length = count := Memory.length_slice buf 0 count

@[simp] theorem length_failed (buf : Memory) (errno : Nat) :
    ((failed errno).delivered buf).length = 0 := rfl

@[simp] theorem rc_wrote (count : Nat) : (wrote count).rc = count := rfl

@[simp] theorem rc_failed (errno : Nat) : (failed errno).rc = -1 := rfl

end WriteResult

structure WriteLoop where
  ntries : Int
  nleft : Int
  log : List UInt8 -- what `write()` has put into the file

namespace WriteLoop

def goesOn (loop : WriteLoop) : Bool := 0 < loop.ntries ∧ 0 < loop.nleft

def next (buf : Memory) (loop : WriteLoop) (result : WriteResult) : Option WriteLoop :=
  let loop := { loop with log := loop.log ++ result.delivered buf }
  if result.rc < -1 then
    if result.errno = eintr then some loop else some { loop with ntries := loop.ntries - 1 }
  else if loop.nleft - result.rc < 2147483648 then
    some { loop with nleft := loop.nleft - result.rc }
  else none -- `nleft` is an `int`

end WriteLoop

def startWrite (n : Nat) : WriteLoop where
  ntries := 100
  nleft := n
  log := []

/-- `write()` never reports more than it was asked for. -/
def writeMachine (buf : Memory) (n : Nat) : Machine WriteLoop WriteResult where
  init loop := loop = startWrite n
  step loop result :=
    if loop.goesOn ∧ result.rc ≤ loop.nleft then loop.next buf result else none

structure WriteCounts where
  file : List UInt8
  failedDiskBytesWrite : Int
  diskBytes : Int
  roughFileOffset : Int

/-- The pass of `write2disk` over a pending buffer of `n` bytes: what it returns and the
counters, none where the results do not bring its loop to an end. -/
def WriteCounts.write2disk (counts : WriteCounts) (buf : Memory) (n : Nat)
    (results : List WriteResult) : Option (Int × WriteCounts) :=
  ((writeMachine buf n).run (startWrite n) results).bind fun loop =>
    if loop.goesOn then none
    else
      let towrite : Int := n
      some (towrite - loop.nleft,
        { file := counts.file ++ loop.log
          failedDiskBytesWrite :=
            if loop.nleft ≠ 0 then counts.failedDiskBytesWrite + loop.nleft
            else counts.failedDiskBytesWrite
          diskBytes := counts.diskBytes + (towrite - loop.nleft)
          roughFileOffset := counts.roughFileOffset + (towrite - loop.nleft) })

/-- The file has got the first bytes of the buffer, as many as returned, and the counters
say so. -/
structure Accounted (buf : Memory) (n : Nat) (counts : WriteCounts) (r : Int)
    (after : WriteCounts) : Prop where
  inside : 0 ≤ r ∧ r ≤ n
  file : after.file = counts.file ++ buf.slice 0 r.toNat
  failed : after.failedDiskBytesWrite = counts.failedDiskBytesWrite + (n - r)
  diskBytes : after.diskBytes = counts.diskBytes + r
  offset : after.roughFileOffset = counts.roughFileOffset + r

/-- No call fails, and where a call starts the buffer reads as at its beginning. -/
def Repeats (buf : Memory) : Nat → List WriteResult → Prop
  | _, [] => True
  | offset, .wrote count :: rest =>
      buf.slice offset count = buf.slice 0 count ∧ Repeats buf (offset + count) rest
  | _, .failed _ :: _ => False

def total (results : List WriteResult) : Int := (results.map WriteResult.rc).sum

theorem WriteResult.rc_ge (result : WriteResult) : -1 ≤ result.rc := by
  cases result with
  | wrote count => exact (by decide : (-1 : Int) ≤ 0).trans (Int.natCast_nonneg count)
  | failed errno => exact le_rfl

section

variable {buf : Memory} {n : Nat}

/-- A call only ever lowers `nleft` by its result; the tries are never spent. -/
theorem writeMachine_step {loop after : WriteLoop} {result : WriteResult}
    (stepped : (writeMachine buf n).step loop result = some after) :
    loop.goesOn = true ∧ result.rc ≤ loop.nleft ∧ loop.nleft - result.rc < 2147483648 ∧
      after = ⟨loop.ntries, loop.nleft - result.rc, loop.log ++ result.delivered buf⟩ := by
  simp only [writeMachine] at stepped
  split at stepped
  · rename_i allowed
    have large : ¬result.rc < -1 := by
      have bound := result.rc_ge
      omega
    simp only [WriteLoop.next, large, if_false] at stepped
    split at stepped
    · rename_i inside
      exact ⟨allowed.1, allowed.2, inside, (Option.some.inj stepped).symm⟩
    · contradiction
  · contradiction

theorem writeMachine_run {loop final : WriteLoop} {results : List WriteResult}
    (ran : (writeMachine buf n).run loop results = some final) :
    final.ntries = loop.ntries ∧ final.nleft = loop.nleft - total results ∧
      final.log = loop.log ++ results.flatMap (·.delivered buf) ∧
      (0 ≤ loop.nleft → 0 ≤ final.nleft) := by
  induction results generalizing loop with
  | nil =>
      obtain rfl := Option.some.inj ran
      simp [total]
  | cons result rest ih =>
      obtain ⟨middle, stepped, finished⟩ := Option.bind_eq_some_iff.mp ran
      obtain ⟨-, fits, -, rfl⟩ := writeMachine_step stepped
      obtain ⟨tries, left, log, stays⟩ := ih finished
      refine ⟨tries, ?_, ?_, fun _ => stays (by simpa using fits)⟩
      · simp only [total, List.map_cons, List.sum_cons] at left ⊢
        omega
      · rw [log, List.flatMap_cons, List.append_assoc]

theorem total_cons (result : WriteResult) (rest : List WriteResult) :
    total (result :: rest) = result.rc + total rest := by
  rw [total, List.map_cons, List.sum_cons]
  rfl

theorem total_le_delivered (buf : Memory) (results : List WriteResult) :
    total results ≤ (results.flatMap (·.delivered buf)).length := by
  induction results with
  | nil => exact le_rfl
  | cons result rest ih =>
      rw [total_cons, List.flatMap_cons, List.length_append]
      cases result with
      | wrote count =>
          simp only [WriteResult.rc_wrote, WriteResult.length_wrote]
          omega
      | failed errno =>
          simp only [WriteResult.rc_failed, WriteResult.length_failed]
          omega

theorem Repeats.total_eq {offset : Nat} {results : List WriteResult}
    (repeats : Repeats buf offset results) :
    total results = (results.flatMap (·.delivered buf)).length := by
  induction results generalizing offset with
  | nil => rfl
  | cons result rest ih =>
      cases result with
      | wrote count =>
          have later := ih repeats.2
          rw [total_cons, later, List.flatMap_cons, List.length_append, WriteResult.length_wrote,
            WriteResult.rc_wrote, Int.natCast_add]
      | failed errno => exact repeats.elim

/-- What the calls deliver, each from the start of the buffer, against the bytes that
stand at the offset reached. -/
theorem repeats_iff {results : List WriteResult} {count : Nat} (sum : total results = count)
    (offset : Nat) : Repeats buf offset results ↔
      results.flatMap (·.delivered buf) = buf.slice offset count := by
  induction results generalizing offset count with
  | nil =>
      have none : count = 0 := by
        have zero : total [] = 0 := rfl
        omega
      subst none
      exact iff_of_true trivial rfl
  | cons result rest ih =>
      have later := total_le_delivered buf rest
      cases result with
      | wrote first =>
          rw [total_cons, WriteResult.rc_wrote] at sum
          by_cases inside : first ≤ count
          · obtain ⟨more, rfl⟩ := Nat.exists_eq_add_of_le inside
            have tail : total rest = more := by omega
            rw [Repeats, ih tail, List.flatMap_cons, Memory.slice_append]
            constructor
            · rintro ⟨start, same⟩
              rw [same, start]
              rfl
            · intro same
              have split := List.append_inj same (by simp)
              exact ⟨split.1.symm, split.2⟩
          · apply iff_of_false
            · intro repeats
              have whole := repeats.2.total_eq
              omega
            · intro same
              have long := congrArg List.length same
              simp only [List.flatMap_cons, List.length_append, WriteResult.length_wrote,
                Memory.length_slice] at long
              omega
      | failed errno =>
          rw [total_cons, WriteResult.rc_failed] at sum
          apply iff_of_false
          · exact id
          · intro same
            have long := congrArg List.length same
            simp only [List.flatMap_cons, List.length_append, WriteResult.length_failed,
              Memory.length_slice] at long
            omega

/-- The loop ends with nothing left, since its tries are never spent. -/
theorem write2disk_cases {results : List WriteResult} {counts after : WriteCounts} {r : Int}
    (ended : counts.write2disk buf n results = some (r, after)) :
    total results = n ∧ r = n ∧
      after = { file := counts.file ++ results.flatMap (·.delivered buf)
                failedDiskBytesWrite := counts.failedDiskBytesWrite
                diskBytes := counts.diskBytes + n
                roughFileOffset := counts.roughFileOffset + n } := by
  obtain ⟨loop, ran, finished⟩ := Option.bind_eq_some_iff.mp ended
  obtain ⟨tries, left, log, stays⟩ := writeMachine_run ran
  split at finished
  · contradiction
  · rename_i stopped
    simp only [WriteLoop.goesOn, startWrite, decide_eq_true_eq] at stopped tries left stays
    have none : loop.nleft = 0 := by omega
    obtain ⟨rfl, rfl⟩ := Prod.mk.inj (Option.some.inj finished)
    refine ⟨by omega, by omega, ?_⟩
    simp [none, log, startWrite]

/-- A pass accounts for its buffer exactly when no call fails and every call after the
first finds the same bytes at the offset reached as at the start of the buffer. -/
theorem write2disk_accounted_iff {results : List WriteResult} {counts after : WriteCounts}
    {r : Int} (ended : counts.write2disk buf n results = some (r, after)) :
    Accounted buf n counts r after ↔ Repeats buf 0 results := by
  obtain ⟨sum, rfl, rfl⟩ := write2disk_cases ended
  rw [repeats_iff sum]
  constructor
  · exact fun accounted => List.append_cancel_left accounted.file
  · intro whole
    exact ⟨⟨Int.natCast_nonneg n, le_rfl⟩, congrArg _ whole, by simp, rfl, rfl⟩

end

theorem write2disk_whole (buf : Memory) {n : Nat} (some_ : 0 < n) (counts : WriteCounts) :
    counts.write2disk buf n [.wrote n] =
      some ((n : Int), ⟨counts.file ++ buf.slice 0 n, counts.failedDiskBytesWrite,
        counts.diskBytes + n,
        counts.roughFileOffset + n⟩) := by
  have large : ¬(n : Int) < -1 := by omega
  simp [WriteCounts.write2disk, Machine.run, writeMachine, startWrite, WriteLoop.goesOn,
    WriteLoop.next,
    WriteResult.delivered, some_, large]

/-- A complete write is the write step of the disk thread. -/
theorem diskStep_write_whole (forceDisconnectSeconds ticks : Nat) {core : Core} {buf : Buf}
    (here : core.disk = .write buf) (some_ : 0 < core.session.diskWriteBufLen) :
    diskStep forceDisconnectSeconds ticks core.session.diskWriteBufLen core =
      (WriteCounts.write2disk ⟨core.log, 0, 0, 0⟩
          (core.session.block.view (core.session.address buf)) core.session.diskWriteBufLen
          [.wrote core.session.diskWriteBufLen]).map fun result =>
        { core with log := result.2.file, disk := .complete buf result.1.toNat } := by
  rw [write2disk_whole _ some_]
  simp [diskStep, here, Memory.slice_view]

/-- Short writes go unseen where the bytes repeat, a failed call does not. -/
theorem write2disk_accounted_iff_short :
    let buf : Memory := fun offset => UInt8.ofNat (offset % 2)
    Accounted buf 4 ⟨[], 0, 0, 0⟩ 4 ⟨[0, 1, 0, 1], 0, 4, 4⟩ ∧
      ¬Accounted buf 4 ⟨[], 0, 0, 0⟩ 4 ⟨[0, 1, 0, 1, 0], 0, 4, 4⟩ := by
  intro buf
  have short : WriteCounts.write2disk ⟨[], 0, 0, 0⟩ buf 4 [.wrote 2, .wrote 2] =
      some (4, ⟨[0, 1, 0, 1], 0, 4, 4⟩) := rfl
  have interrupted : WriteCounts.write2disk ⟨[], 0, 0, 0⟩ buf 4
      [.wrote 2, .failed eintr, .wrote 3] = some (4, ⟨[0, 1, 0, 1, 0], 0, 4, 4⟩) := rfl
  constructor
  · exact (write2disk_accounted_iff short).mpr ⟨rfl, rfl, trivial⟩
  · intro accounted
    exact ((write2disk_accounted_iff interrupted).mp accounted).2

/-- Two calls of two bytes deliver the first two twice. -/
theorem short_write_repeated :
    WriteCounts.write2disk ⟨[], 0, 0, 0⟩ (fun offset => UInt8.ofNat offset) 4
        [.wrote 2, .wrote 2] =
        some (4, ⟨[0, 1, 0, 1], 0, 4, 4⟩) ∧
      ¬Accounted (fun offset => UInt8.ofNat offset) 4 ⟨[], 0, 0, 0⟩ 4 ⟨[0, 1, 0, 1], 0, 4, 4⟩ := by
  refine ⟨rfl, ?_⟩
  intro accounted
  have file := accounted.file
  revert file
  decide

def firstCalls (results : Nat → WriteResult) (calls : Nat) : List WriteResult :=
  (List.range calls).map results

def left (n : Nat) (results : Nat → WriteResult) (calls : Nat) : Int :=
  n - total (firstCalls results calls)

def hardFailures (results : List WriteResult) : Nat :=
  results.countP fun result => decide (result.rc = -1 ∧ result.errno ≠ eintr)

/-- As long as bytes are left, no call reports more than these. -/
def Possible (n : Nat) (results : Nat → WriteResult) : Prop :=
  ∀ calls, (∀ earlier ≤ calls, 0 < left n results earlier) →
    (results calls).rc ≤ left n results calls

/-- The loop ends, after at most 100 calls that fail otherwise than by `EINTR`. -/
def Ends (buf : Memory) (n : Nat) (results : Nat → WriteResult) : Prop :=
  ∃ calls final, (writeMachine buf n).run (startWrite n) (firstCalls results calls) = some final ∧
    final.goesOn = false ∧ hardFailures (firstCalls results calls) ≤ 100

/-- At some call the counts written outweigh the bytes and the failed calls, an `int`
holds what is left up to there, and few calls fail. -/
def PaysOff (n : Nat) (results : Nat → WriteResult) : Prop :=
  ∃ calls, left n results calls ≤ 0 ∧
    (∀ earlier < calls, left n results (earlier + 1) < 2147483648) ∧
    hardFailures (firstCalls results calls) ≤ 100

theorem firstCalls_succ (results : Nat → WriteResult) (calls : Nat) :
    firstCalls results (calls + 1) = firstCalls results calls ++ [results calls] := by
  rw [firstCalls, List.range_succ, List.map_append]
  rfl

theorem left_succ (n : Nat) (results : Nat → WriteResult) (calls : Nat) :
    left n results (calls + 1) = left n results calls - (results calls).rc := by
  rw [left, left, firstCalls_succ, total, List.map_append, List.sum_append]
  simp only [total, List.map_singleton, List.sum_singleton]
  omega

theorem hardFailures_mono (results : Nat → WriteResult) {fewer calls : Nat}
    (order : fewer ≤ calls) :
    hardFailures (firstCalls results fewer) ≤ hardFailures (firstCalls results calls) := by
  induction calls, order using Nat.le_induction with
  | base => exact le_rfl
  | succ calls _ ih =>
      rw [firstCalls_succ]
      simp only [hardFailures, List.countP_append] at ih ⊢
      exact Nat.le_add_right_of_le ih

section

variable {buf : Memory} {n : Nat} {results : Nat → WriteResult}

theorem run_firstCalls (possible : Possible n results) {calls : Nat}
    (busy : ∀ earlier < calls, 0 < left n results earlier)
    (inside : ∀ earlier < calls, left n results (earlier + 1) < 2147483648) :
    ∃ log, (writeMachine buf n).run (startWrite n) (firstCalls results calls) =
      some ⟨100, left n results calls, log⟩ := by
  induction calls with
  | zero =>
      refine ⟨[], ?_⟩
      simp [firstCalls, left, total, Machine.run, startWrite]
  | succ calls ih =>
      obtain ⟨log, ran⟩ := ih (fun earlier below => busy earlier (by omega))
        (fun earlier below => inside earlier (by omega))
      have here := busy calls (by omega)
      have room := inside calls (by omega)
      have fits := possible calls fun earlier below => busy earlier (by omega)
      have large : ¬(results calls).rc < -1 := by
        have bound := (results calls).rc_ge
        omega
      refine ⟨log ++ (results calls).delivered buf, ?_⟩
      rw [left_succ] at room
      rw [firstCalls_succ, Machine.run_append, ran, left_succ]
      simp [Machine.run, writeMachine, WriteLoop.goesOn, WriteLoop.next, here, fits, large, room]

theorem run_fewerCalls {fewer calls : Nat} (order : fewer ≤ calls) {final : WriteLoop}
    (ran : (writeMachine buf n).run (startWrite n) (firstCalls results calls) = some final) :
    ∃ middle, (writeMachine buf n).run (startWrite n) (firstCalls results fewer) = some middle := by
  induction calls, order using Nat.le_induction generalizing final with
  | base => exact ⟨final, ran⟩
  | succ calls _ ih =>
      rw [firstCalls_succ, Machine.run_append] at ran
      obtain ⟨middle, first, -⟩ := Option.bind_eq_some_iff.mp ran
      exact ih first

theorem nleft_firstCalls {calls : Nat} {final : WriteLoop}
    (ran : (writeMachine buf n).run (startWrite n) (firstCalls results calls) = some final) :
    final.ntries = 100 ∧ final.nleft = left n results calls :=
  ⟨(writeMachine_run ran).1, (writeMachine_run ran).2.1⟩

theorem left_fits {calls : Nat} {final : WriteLoop}
    (ran : (writeMachine buf n).run (startWrite n) (firstCalls results (calls + 1)) = some final) :
    left n results (calls + 1) < 2147483648 := by
  rw [firstCalls_succ, Machine.run_append] at ran
  obtain ⟨middle, first, last⟩ := Option.bind_eq_some_iff.mp ran
  obtain ⟨after, stepped, -⟩ := Option.bind_eq_some_iff.mp last
  obtain ⟨-, -, inside, -⟩ := writeMachine_step stepped
  rw [left_succ, ← (nleft_firstCalls first).2]
  exact inside

/-- The loop ends as it should exactly when the counts written make up for the failed calls. -/
theorem writeLoop_ends_iff (possible : Possible n results) :
    Ends buf n results ↔ PaysOff n results := by
  constructor
  · rintro ⟨calls, final, ran, stopped, few⟩
    obtain ⟨tries, spent⟩ := nleft_firstCalls ran
    refine ⟨calls, ?_, ?_, few⟩
    · simp only [WriteLoop.goesOn, decide_eq_false_iff_not] at stopped
      omega
    · intro earlier below
      obtain ⟨middle, first⟩ := run_fewerCalls (Nat.succ_le_of_lt below) ran
      exact left_fits first
  · rintro ⟨calls, paid, inside, few⟩
    have some_ : ∃ calls, left n results calls ≤ 0 := ⟨calls, paid⟩
    -- the loop ends at the first call after which nothing is left
    have order : Nat.find some_ ≤ calls := Nat.find_min' some_ paid
    have busy : ∀ earlier < Nat.find some_, 0 < left n results earlier := by
      intro earlier below
      have more := Nat.find_min some_ below
      omega
    obtain ⟨log, ran⟩ := run_firstCalls possible busy
      fun earlier below => inside earlier (below.trans_le order)
    refine ⟨_, _, ran, ?_, (hardFailures_mono results order).trans few⟩
    have none := Nat.find_spec some_
    simp only [WriteLoop.goesOn, decide_eq_false_iff_not]
    omega

end

def enospc : Nat := 28

def madeUp : Nat → WriteResult
  | 0 => .wrote 2
  | 1 => .failed eintr
  | 2 => .failed enospc
  | _ => .wrote 5

theorem writeLoop_ends_iff_madeUp : Ends (fun _ => 0) 5 madeUp := by
  have possible : Possible 5 madeUp := by
    intro calls busy
    match calls with
    | 0 | 1 | 2 | 3 => decide
    | calls + 4 => exact absurd (busy 4 (by omega)) (by decide)
  have pays : PaysOff 5 madeUp := ⟨4, by decide, by decide, by decide⟩
  exact (writeLoop_ends_iff possible).mpr pays

/-- A full disk keeps the loop going for ever. -/
theorem full_disk_never_ends : ¬Ends (fun _ => 0) 1 (fun _ => .failed enospc) := by
  rintro ⟨calls, final, ran, stopped, -⟩
  obtain ⟨tries, spent⟩ := nleft_firstCalls ran
  have sum : total (firstCalls (fun _ => .failed enospc) calls) = -calls := by
    simp [total, firstCalls]
  rw [left, sum] at spent
  simp only [WriteLoop.goesOn, decide_eq_false_iff_not] at stopped
  omega

end DirtyCode.LogCollect
