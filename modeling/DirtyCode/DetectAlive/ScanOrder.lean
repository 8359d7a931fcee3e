import DirtyCode.Lib.Enumerate
import DirtyCode.Lib.Fields
import DirtyCode.Lib.Machine

/-!
The addresses that `detectAlive.c` probes: `do_connect`, which corrects the address it is
given, and the loops of `worker`.
-/

namespace DirtyCode.DetectAlive

open Lib

def maxConnOne : Nat := 4096
def maxIpAddr : Nat := 0x0a270000
def totalN : Nat := 30000
def einprogress : Nat := 115

/-- What the system calls of one `do_connect` answer. -/
structure Calls where
  socket : Int
  connect : Int
  errno : Nat
  epollCtl : Int

/-- A sum of two numbers of type `int`, undefined where it overflows. -/
def plus (addr amount : Nat) : Option Nat :=
  if addr + amount < 2147483648 then some (addr + amount) else none

structure Connected where
  ipv4addr : Nat
  probed : Option Nat
  ret : Int

def doConnect (calls : Calls) (ipv4addr : Nat) : Option Connected := do
  let ipv4addr ← (if ipv4addr &&& 0xFF = 0x0F then plus ipv4addr 253 else some ipv4addr)
  let ipv4addr ← (if ipv4addr &&& 0xFF00 = 0xFF00 then plus ipv4addr 0x100 else some ipv4addr)
  if calls.socket = -1 then
    return { ipv4addr := ipv4addr, probed := none, ret := -1 }
  else if calls.connect = -1 ∧ calls.errno ≠ einprogress then
    return { ipv4addr := ipv4addr, probed := some ipv4addr, ret := -1 }
  else
    return { ipv4addr := ipv4addr, probed := some ipv4addr,
             ret := if calls.epollCtl = -1 then -1 else 0 }

structure Scan where
  ipv4addr : Nat
  nconn : Nat
  /-- The address each call went for. -/
  tried : List Nat
  /-- The addresses that `connect` was called with. -/
  probed : List Nat

def startScan (start : Nat) : Scan where
  ipv4addr := start
  nconn := 0
  tried := []
  probed := []

/-- `do_connect` and the increment of its caller. -/
def Scan.connect (scan : Scan) (calls : Calls) : Option Scan := do
  let connected ← doConnect calls scan.ipv4addr
  let ipv4addr ← plus connected.ipv4addr 1
  return { ipv4addr := ipv4addr
           nconn := if connected.ret = 0 then scan.nconn + 1 else scan.nconn
           tried := scan.tried ++ [connected.ipv4addr]
           probed := scan.probed ++ connected.probed.toList }

def connectAll (start : Nat) (calls : List Calls) : Option Scan :=
  calls.foldlM Scan.connect (startScan start)

def Listed (start addr : Nat) : Prop :=
  start ≤ addr ∧ (addr % 256 = 12 ∨ addr % 256 = 13 ∨ addr % 256 = 14) ∧ addr / 256 % 256 ≠ 255

instance (start : Nat) : DecidablePred (Listed start) := fun addr =>
  inferInstanceAs (Decidable (start ≤ addr ∧ _ ∧ _))

theorem and_octet (addr : Nat) : addr &&& 0xFF = addr % 256 :=
  Nat.and_two_pow_sub_one_eq_mod addr 8

theorem and_third_octet (addr : Nat) : addr &&& 0xFF00 = addr / 256 % 256 * 256 :=
  and_field addr 8 8

/-- The place from which a call looks for its address. -/
structure Resumes (start addr : Nat) : Prop where
  behind : start ≤ addr
  octet : 12 ≤ addr % 256 ∧ addr % 256 ≤ 15
  third : addr / 256 % 256 ≠ 255

theorem doConnect_next {start addr : Nat} {calls : Calls} {connected : Connected}
    (resumes : Resumes start addr) (ran : doConnect calls addr = some connected) :
    NextFrom (Listed start) addr connected.ipv4addr ∧
      connected.probed = if calls.socket = -1 then none else some connected.ipv4addr := by
  obtain ⟨behind, octet, third⟩ := resumes
  simp only [doConnect, and_octet, and_third_octet, Option.bind_eq_bind, Option.bind_eq_some_iff]
    at ran
  obtain ⟨wrapped, jumped, settled, skipped, finished⟩ := ran
  have address : connected.ipv4addr = settled := by
    split at finished
    · rw [← Option.some.inj finished]
    · split at finished <;> rw [← Option.some.inj finished]
  have probe : connected.probed = if calls.socket = -1 then none else some connected.ipv4addr := by
    split at finished
    · rename_i failed
      rw [if_pos failed, ← Option.some.inj finished]
    · rename_i open_
      rw [if_neg open_]
      split at finished <;> rw [← Option.some.inj finished]
  refine ⟨?_, probe⟩
  rw [address]
  by_cases last : addr % 256 = 15
  · have jump : wrapped = addr + 253 := by
      rw [if_pos last, plus, Option.ite_none_right_eq_some] at jumped
      exact (Option.some.inj jumped.2).symm
    subst jump
    by_cases full : (addr + 253) / 256 % 256 = 255
    · have skip : settled = addr + 509 := by
        rw [full, if_pos rfl, plus, Option.ite_none_right_eq_some] at skipped
        exact (Option.some.inj skipped.2).symm
      subst skip
      refine ⟨by omega, ⟨by omega, by omega, by omega⟩, ?_⟩
      rintro number from_ below ⟨-, wanted, free⟩
      omega
    · have stay : settled = addr + 253 := by
        rw [if_neg (by omega)] at skipped
        exact (Option.some.inj skipped).symm
      subst stay
      refine ⟨by omega, ⟨by omega, by omega, full⟩, ?_⟩
      rintro number from_ below ⟨-, wanted, free⟩
      omega
  · have same : wrapped = addr := by
      rw [if_neg last] at jumped
      exact (Option.some.inj jumped).symm
    subst same
    have stay : settled = wrapped := by
      rw [if_neg (by omega)] at skipped
      exact (Option.some.inj skipped).symm
    subst stay
    exact NextFrom.refl ⟨behind, by omega, third⟩

structure Ordered (start : Nat) (calls : List Calls) (scan : Scan) : Prop where
  resumes : Resumes start scan.ipv4addr
  count : Nat.count (Listed start) scan.ipv4addr = calls.length
  tried : scan.tried = (List.range calls.length).map (Nat.nth (Listed start))
  increasing : scan.tried.Pairwise (· < ·)
  before : ∀ addr ∈ scan.tried, addr < scan.ipv4addr
  probed : scan.probed = (calls.zip scan.tried).filterMap fun call =>
    if call.1.socket = -1 then none else some call.2

theorem ordered_start {start : Nat} (listed : Listed start start) :
    Ordered start [] (startScan start) where
  resumes := ⟨le_rfl, by have octet := listed.2.1; simp only [startScan]; omega, listed.2.2⟩
  count := by
    apply Nat.count_of_forall_not
    rintro addr below ⟨behind, -⟩
    simp only [startScan] at below
    omega
  tried := rfl
  increasing := List.Pairwise.nil
  before := by simp [startScan]
  probed := rfl

theorem Ordered.connect {start : Nat} {past : List Calls} {scan after : Scan} {calls : Calls}
    (ordered : Ordered start past scan) (ran : scan.connect calls = some after) :
    Ordered start (past ++ [calls]) after := by
  simp only [Scan.connect, Option.bind_eq_bind, Option.bind_eq_some_iff, Option.pure_def,
    Option.some.injEq] at ran
  obtain ⟨connected, called, next, raised, rfl⟩ := ran
  obtain ⟨found, probe⟩ := doConnect_next ordered.resumes called
  have one : next = connected.ipv4addr + 1 := by
    rw [plus, Option.ite_none_right_eq_some] at raised
    exact (Option.some.inj raised.2).symm
  subst one
  have number : Nat.nth (Listed start) past.length = connected.ipv4addr := by
    rw [← ordered.count, found.nth]
  have size : past.length = scan.tried.length := by rw [ordered.tried]; simp
  obtain ⟨behind, octet, third⟩ := found.found
  constructor
  · exact ⟨by simp only; omega, by simp only; omega, by simp only; omega⟩
  · rw [found.count_succ, ordered.count, List.length_append, List.length_singleton]
  · rw [List.length_append, List.length_singleton, List.range_succ, List.map_append,
      ← ordered.tried, List.map_singleton, number]
  · rw [List.pairwise_append]
    refine ⟨ordered.increasing, List.pairwise_singleton _ _, ?_⟩
    intro addr member last only
    rw [List.mem_singleton.mp only]
    exact Nat.lt_of_lt_of_le (ordered.before addr member) found.reach
  · intro addr member
    have reach := found.reach
    rcases List.mem_append.mp member with earlier | last
    · have bound := ordered.before addr earlier
      simp only
      omega
    · rw [List.mem_singleton.mp last]
      exact Nat.lt_succ_self _
  · rw [List.zip_append size, List.filterMap_append, ← ordered.probed, probe]
    by_cases failed : calls.socket = -1
    · simp [failed]
    · simp [failed]

theorem Ordered.connectAll {start : Nat} (calls : List Calls) {past : List Calls}
    {scan after : Scan} (ordered : Ordered start past scan)
    (ran : calls.foldlM Scan.connect scan = some after) : Ordered start (past ++ calls) after := by
  induction calls generalizing past scan with
  | nil =>
      rw [List.append_nil, ← Option.some.inj ran]
      exact ordered
  | cons call rest ih =>
      obtain ⟨next, stepped, finished⟩ := Option.bind_eq_some_iff.mp ran
      rw [List.append_cons]
      exact ih (ordered.connect stepped) finished

/-- The calls go for the first addresses of the list, one each, and `connect` is called
with those for which there was a socket. -/
theorem scan_in_order {start : Nat} (listed : Listed start start) (calls : List Calls)
    {after : Scan} (ran : connectAll start calls = some after) :
    after.tried = (List.range calls.length).map (Nat.nth (Listed start)) ∧
      after.tried.Pairwise (· < ·) ∧
      after.probed = (calls.zip after.tried).filterMap fun call =>
        if call.1.socket = -1 then none else some call.2 := by
  have ordered := (ordered_start listed).connectAll calls ran
  rw [List.nil_append] at ordered
  exact ⟨ordered.tried, ordered.increasing, ordered.probed⟩

theorem scan_in_order_carry :
    ∃ after, connectAll 167968270 [⟨3, -1, 115, 0⟩, ⟨-1, 0, 24, 0⟩] = some after ∧
      after.tried = (List.range 2).map (Nat.nth (Listed 167968270)) ∧
      after.tried.Pairwise (· < ·) ∧
      after.probed = ([⟨3, -1, 115, 0⟩, ⟨-1, 0, 24, 0⟩].zip after.tried).filterMap
        fun call : Calls × Nat => if call.1.socket = -1 then none else some call.2 :=
  ⟨_, rfl, scan_in_order (by decide) [⟨3, -1, 115, 0⟩, ⟨-1, 0, 24, 0⟩] rfl⟩

inductive WorkerPc
  | starting (i : Nat)
  | waiting
  | refilling
  | ended
  deriving DecidableEq

structure Worker where
  scan : Scan
  nclose : Nat
  pc : WorkerPc

inductive WorkerStep
  | connect (calls : Calls)
  | leave
  | poll (nfds : Int)

namespace Worker

def connects (worker : Worker) : Bool :=
  match worker.pc with
  | .starting i => i < maxConnOne ∧ ¬totalN < worker.scan.nconn
  | .refilling => 0 < (maxConnOne : Int) + worker.nclose - worker.scan.nconn ∧
      ¬(totalN ≤ worker.scan.nconn ∨ maxIpAddr < worker.scan.ipv4addr)
  | _ => false

def done (worker : Worker) : Bool :=
  worker.nclose = worker.scan.nconn ∧
    (maxIpAddr < worker.scan.ipv4addr ∨ totalN ≤ worker.scan.nconn)

def step (worker : Worker) : WorkerStep → Option Worker
  | .connect calls =>
      if worker.connects then
        (worker.scan.connect calls).map fun scan =>
          { worker with
            scan := scan
            pc := match worker.pc with
              | .starting i => .starting (i + 1)
              | pc => pc }
      else none
  | .leave =>
      match worker.pc with
      | .starting _ | .refilling =>
          if worker.connects then none else some { worker with pc := .waiting }
      | _ => none
  | .poll nfds =>
      match worker.pc with
      | .waiting =>
          if worker.done ∨ nfds = -1 then some { worker with pc := .ended }
          else if 0 ≤ nfds then
            some { worker with nclose := worker.nclose + nfds.toNat, pc := .refilling }
          else none
      | _ => none

end Worker

def startAddr : Nat := 0x0a03000C

def workerMachine : Machine Worker WorkerStep where
  init worker := worker = { scan := startScan startAddr, nclose := 0, pc := .starting 0 }
  step := Worker.step

theorem worker_step {worker after : Worker} {label : WorkerStep}
    (stepped : worker.step label = some after) :
    after.scan = worker.scan ∨ ∃ calls, worker.scan.connect calls = some after.scan := by
  cases label with
  | connect calls =>
      rw [Worker.step, Option.ite_none_right_eq_some, Option.map_eq_some_iff] at stepped
      obtain ⟨-, scan, connected, rfl⟩ := stepped
      exact Or.inr ⟨calls, connected⟩
  | leave =>
      refine Or.inl ?_
      rw [Worker.step] at stepped
      split at stepped
      · rw [Option.ite_none_left_eq_some] at stepped
        rw [← Option.some.inj stepped.2]
      · rw [Option.ite_none_left_eq_some] at stepped
        rw [← Option.some.inj stepped.2]
      · contradiction
  | poll nfds =>
      refine Or.inl ?_
      rw [Worker.step] at stepped
      split at stepped
      · split at stepped
        · rw [← Option.some.inj stepped]
        · rw [Option.ite_none_right_eq_some] at stepped
          rw [← Option.some.inj stepped.2]
      · contradiction

/-- In every state of the worker its calls have gone through the list from its start on. -/
theorem worker_in_order {allowed : Worker → WorkerStep → Prop} {worker : Worker}
    (reached : workerMachine.Reachable allowed worker) :
    ∃ calls, Ordered startAddr calls worker.scan := by
  apply reached.invariant
  · rintro worker rfl
    exact ⟨[], ordered_start (by decide)⟩
  · rintro worker label after ⟨calls, ordered⟩ - stepped
    rcases worker_step stepped with same | ⟨call, connected⟩
    · exact ⟨calls, same ▸ ordered⟩
    · exact ⟨calls ++ [call], ordered.connect connected⟩

end DirtyCode.DetectAlive
