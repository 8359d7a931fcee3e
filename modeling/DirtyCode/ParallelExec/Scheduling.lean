import DirtyCode.Lib.Machine
import DirtyCode.ParallelExec.SlotMap

/-!
`ParallelExecRemote`: the first children of `main`, then `core_process`, which collects
those that exit and starts others in their place.
-/

namespace DirtyCode.ParallelExec

open Lib

def nrParallel : Int := 40960

def parallelNum (requested : Int) : Nat :=
  (if requested < 1 ∨ requested > nrParallel then nrParallel else requested).toNat

/-- A child that no `waitpid` has collected. -/
structure Child where
  pid : Int
  index : Nat
  exited : Bool
  deriving DecidableEq, Repr

inductive At
  | launch (n : Nat) -- the loop of `main`
  | wait -- `epoll_wait`
  | reap -- the loop over `waitpid`
  | fill
  | stopped
  deriving DecidableEq, Repr

structure Remote where
  pidmap : List Slot
  pos : Nat
  alive : Int
  nrExit2 : Nat
  at_ : At
  sigchld : Bool -- `SIGCHLD` is pending
  children : List Child
  started : List Nat -- the indices that a child was started for

inductive RemoteStep
  | fork (pid : Int)
  | loopEnd
  | exit (pid : Int)
  | readSignal
  | waitpid (pid : Int)
  | otherEvents
  deriving DecidableEq, Repr

namespace Remote

def pids (remote : Remote) : List Int := remote.children.map Child.pid

def begin (remote : Remote) (pid : Int) (index : Nat) : Remote :=
  { remote with
    children := ⟨pid, index, false⟩ :: remote.children
    started := remote.started ++ [index] }

def markExited (pid : Int) (child : Child) : Child :=
  if child.pid = pid then { child with exited := true } else child

section

variable (total : Nat) (requested : Int) (remote : Remote)

/-- The condition of the loop that starts children. -/
def startsMore : Bool :=
  match remote.at_ with
  | .launch n => n < total ∧ n < parallelNum requested
  | .fill => remote.pos < total ∧ remote.alive < parallelNum requested
  | _ => false

-- `fork` gives a positive pid that no child has
def fork (pid : Int) : Option Remote :=
  if remote.startsMore total requested ∧ 0 < pid ∧ pid ∉ remote.pids then
    match remote.at_ with
    | .launch n =>
        some { remote.begin pid n with
          pidmap := remote.pidmap.set n ⟨pid, n⟩
          at_ := .launch (n + 1) }
    | .fill =>
        some { remote.begin pid remote.pos with
          pidmap := (stupidMapAdd remote.pidmap pid remote.pos).2
          pos := remote.pos + 1
          alive := remote.alive + 1 }
    | _ => none
  else none

def loopEnd : Option Remote :=
  match remote.at_ with
  | .launch n =>
      if remote.startsMore total requested then none
      else some { remote with pos := n, alive := n, at_ := .wait }
  | .reap =>
      if remote.children.any Child.exited then none
      else if remote.nrExit2 = total then some { remote with at_ := .stopped }
      else some { remote with at_ := .fill }
  | .fill =>
      if remote.startsMore total requested then none else some { remote with at_ := .wait }
  | _ => none

def exit (pid : Int) : Option Remote :=
  if ∃ child ∈ remote.children, child.pid = pid ∧ child.exited = false then
    some { remote with
      children := remote.children.map (markExited pid)
      sigchld := true }
  else none

def readSignal : Option Remote :=
  if remote.at_ = .wait ∧ remote.sigchld then
    some { remote with at_ := .reap, sigchld := false }
  else none

def waitpid (pid : Int) : Option Remote :=
  if remote.at_ = .reap ∧ ∃ child ∈ remote.children, child.pid = pid ∧ child.exited then
    let removed := stupidMapRemove remote.pidmap pid
    if 0 ≤ removed.1 then
      some { remote with
        pidmap := removed.2
        nrExit2 := remote.nrExit2 + 1
        alive := remote.alive - 1
        children := remote.children.eraseP fun child => child.pid = pid }
    else none -- the assertion fails
  else none

def otherEvents : Option Remote :=
  if remote.at_ = .wait then some { remote with at_ := .fill } else none

end

end Remote

-- `main` exits at once where the list is empty
def start (total : Nat) (requested : Int) : Remote where
  pidmap := List.replicate (parallelNum requested) ⟨0, 0⟩
  pos := 0
  alive := 0
  nrExit2 := 0
  at_ := if total < 1 then .stopped else .launch 0
  sigchld := false
  children := []
  started := []

def machine (total : Nat) (requested : Int) : Machine Remote RemoteStep where
  init remote := remote = start total requested
  step remote
    | .fork pid => remote.fork total requested pid
    | .loopEnd => remote.loopEnd total requested
    | .exit pid => remote.exit pid
    | .readSignal => remote.readSignal
    | .waitpid pid => remote.waitpid pid
    | .otherEvents => remote.otherEvents

/-- What the scheduling is for. -/
structure Scheduled (total : Nat) (requested : Int) (remote : Remote) : Prop where
  inOrder : remote.started = List.range remote.started.length
  inside : remote.started.length ≤ total
  few : remote.children.length ≤ parallelNum requested
  added : remote.at_ = .fill → remote.startsMore total requested →
    ∀ pid val, (stupidMapAdd remote.pidmap pid val).1 ≠ -1
  removed : ∀ child ∈ remote.children, (stupidMapRemove remote.pidmap child.pid).1 = child.index
  alive : (∀ n, remote.at_ ≠ .launch n) → remote.alive = remote.children.length
  stops : remote.at_ = .stopped ↔
    remote.started.length = total ∧ remote.children = [] ∧ remote.at_ ≠ .reap
  goesOn : remote.at_ ≠ .stopped → ∃ label, label ≠ .otherEvents ∧
    ((machine total requested).step remote label).isSome

def entryOf (child : Child) : Int × Int := (child.pid, child.index)

/-- What the counters say of the children in each part of the program. -/
def Phase (total : Nat) (requested : Int) (remote : Remote) : At → Prop
  | .launch n => n = remote.started.length ∧ n ≤ parallelNum requested ∧ remote.nrExit2 = 0 ∧
      0 < total ∧ ∀ i, n ≤ i → i < parallelNum requested → keyAt remote.pidmap i = some 0
  | .stopped => remote.nrExit2 = total ∧ remote.alive = remote.children.length
  | at_ => remote.pos = remote.started.length ∧ remote.alive = remote.children.length ∧
      remote.children.length ≤ parallelNum requested ∧
      (at_ ≠ .reap → remote.nrExit2 < total) ∧
      (at_ = .wait → remote.pos = total ∨ remote.children.length = parallelNum requested)

structure Books (total : Nat) (requested : Int) (remote : Remote) : Prop where
  size : remote.pidmap.length = parallelNum requested
  map : (entries remote.pidmap).Perm (remote.children.map entryOf)
  distinct : remote.pids.Nodup
  positive : ∀ child ∈ remote.children, 0 < child.pid
  inOrder : remote.started = List.range remote.started.length
  inside : remote.started.length ≤ total
  counted : remote.nrExit2 + remote.children.length = remote.started.length
  signalled : remote.at_ ≠ .reap → ∀ child ∈ remote.children, child.exited → remote.sigchld
  phase : Phase total requested remote remote.at_

inductive Move (total : Nat) (requested : Int) (remote : Remote) : RemoteStep → Remote → Prop
  | launch (n : Nat) (pid : Int) (here : remote.at_ = .launch n) (more : n < total)
      (room : n < parallelNum requested) (positive : 0 < pid) (fresh : pid ∉ remote.pids) :
      Move total requested remote (.fork pid) { remote.begin pid n with
        pidmap := remote.pidmap.set n ⟨pid, n⟩
        at_ := .launch (n + 1) }
  | launched (n : Nat) (here : remote.at_ = .launch n)
      (full : ¬(n < total ∧ n < parallelNum requested)) :
      Move total requested remote .loopEnd { remote with pos := n, alive := n, at_ := .wait }
  | refill (pid : Int) (here : remote.at_ = .fill) (more : remote.pos < total)
      (room : remote.alive < parallelNum requested) (positive : 0 < pid)
      (fresh : pid ∉ remote.pids) :
      Move total requested remote (.fork pid) { remote.begin pid remote.pos with
        pidmap := (stupidMapAdd remote.pidmap pid remote.pos).2
        pos := remote.pos + 1
        alive := remote.alive + 1 }
  | filled (here : remote.at_ = .fill)
      (full : ¬(remote.pos < total ∧ remote.alive < parallelNum requested)) :
      Move total requested remote .loopEnd { remote with at_ := .wait }
  | finished (here : remote.at_ = .reap) (last : remote.nrExit2 = total) :
      Move total requested remote .loopEnd { remote with at_ := .stopped }
  | reaped (here : remote.at_ = .reap) (none : ∀ child ∈ remote.children, child.exited = false)
      (more : remote.nrExit2 ≠ total) :
      Move total requested remote .loopEnd { remote with at_ := .fill }
  | exit (pid : Int)
      (running : ∃ child ∈ remote.children, child.pid = pid ∧ child.exited = false) :
      Move total requested remote (.exit pid) { remote with
        children := remote.children.map (Remote.markExited pid)
        sigchld := true }
  | readSignal (here : remote.at_ = .wait) (pending : remote.sigchld = true) :
      Move total requested remote .readSignal { remote with at_ := .reap, sigchld := false }
  | waitpid (child : Child) (here : remote.at_ = .reap) (member : child ∈ remote.children) :
      Move total requested remote (.waitpid child.pid) { remote with
        pidmap := (stupidMapRemove remote.pidmap child.pid).2
        nrExit2 := remote.nrExit2 + 1
        alive := remote.alive - 1
        children := remote.children.eraseP fun other => other.pid = child.pid }
  | otherEvents (here : remote.at_ = .wait) :
      Move total requested remote .otherEvents { remote with at_ := .fill }

section

variable {total : Nat} {requested : Int} {remote after : Remote} {label : RemoteStep}

theorem move_of_step (stepped : (machine total requested).step remote label = some after) :
    Move total requested remote label after := by
  cases label with
  | fork pid =>
      simp only [machine, Remote.fork] at stepped
      split at stepped
      · rename_i allowed
        obtain ⟨more, positive, fresh⟩ := allowed
        split at stepped
        · rename_i n here
          simp only [Remote.startsMore, here, decide_eq_true_eq] at more
          exact Option.some.inj stepped ▸ .launch n pid here more.1 more.2 positive fresh
        · rename_i here
          simp only [Remote.startsMore, here, decide_eq_true_eq] at more
          exact Option.some.inj stepped ▸ .refill pid here more.1 more.2 positive fresh
        · contradiction
      · contradiction
  | loopEnd =>
      simp only [machine, Remote.loopEnd] at stepped
      split at stepped
      · rename_i n here
        split at stepped
        · contradiction
        · rename_i full
          simp only [Remote.startsMore, here, decide_eq_true_eq] at full
          exact Option.some.inj stepped ▸ .launched n here full
      · rename_i here
        split at stepped
        · contradiction
        · rename_i none
          split at stepped
          · rename_i last
            exact Option.some.inj stepped ▸ .finished here last
          · rename_i more
            refine Option.some.inj stepped ▸ .reaped here ?_ more
            simpa using none
      · rename_i here
        split at stepped
        · contradiction
        · rename_i full
          simp only [Remote.startsMore, here, decide_eq_true_eq] at full
          exact Option.some.inj stepped ▸ .filled here full
      · contradiction
  | exit pid =>
      simp only [machine, Remote.exit] at stepped
      split at stepped
      · rename_i running
        exact Option.some.inj stepped ▸ .exit pid running
      · contradiction
  | readSignal =>
      simp only [machine, Remote.readSignal] at stepped
      split at stepped
      · rename_i allowed
        exact Option.some.inj stepped ▸ .readSignal allowed.1 allowed.2
      · contradiction
  | waitpid pid =>
      simp only [machine, Remote.waitpid] at stepped
      split at stepped
      · rename_i allowed
        obtain ⟨here, child, member, rfl, _⟩ := allowed
        split at stepped
        · exact Option.some.inj stepped ▸ .waitpid child here member
        · contradiction
      · contradiction
  | otherEvents =>
      simp only [machine, Remote.otherEvents] at stepped
      split at stepped
      · rename_i here
        exact Option.some.inj stepped ▸ .otherEvents here
      · contradiction

theorem parallelNum_pos (requested : Int) : 0 < parallelNum requested := by
  rw [parallelNum]
  split
  · decide
  · omega

theorem keyAt_replicate {count i : Nat} (inside : i < count) :
    keyAt (List.replicate count ⟨0, 0⟩) i = some 0 := by
  rw [keyAt, List.getElem?_replicate, if_pos inside]
  rfl

theorem entries_replicate (count : Nat) : entries (List.replicate count ⟨0, 0⟩) = [] := by
  rw [entries, List.filterMap_replicate_of_none]
  rfl

theorem books_start (total : Nat) (requested : Int) :
    Books total requested (start total requested) where
  size := List.length_replicate
  map := by
    rw [start, entries_replicate]
    exact List.Perm.refl []
  distinct := List.nodup_nil
  positive := by simp [start]
  inOrder := rfl
  inside := Nat.zero_le total
  counted := rfl
  signalled := by simp [start]
  phase := by
    by_cases empty : total < 1
    · have none : total = 0 := by omega
      simp [start, Phase, none]
    · simp only [start, if_neg empty, Phase]
      exact ⟨rfl, Nat.zero_le _, trivial, by omega, fun i _ inside => keyAt_replicate inside⟩

@[simp] theorem markExited_pid (pid : Int) (child : Child) :
    (Remote.markExited pid child).pid = child.pid := by
  rw [Remote.markExited]
  split <;> rfl

@[simp] theorem markExited_index (pid : Int) (child : Child) :
    (Remote.markExited pid child).index = child.index := by
  rw [Remote.markExited]
  split <;> rfl

theorem map_entryOf_markExited (pid : Int) (children : List Child) :
    (children.map (Remote.markExited pid)).map entryOf = children.map entryOf := by
  rw [List.map_map]
  apply List.map_congr_left
  intro child _
  simp [entryOf]

theorem map_pid_markExited (pid : Int) (children : List Child) :
    (children.map (Remote.markExited pid)).map Child.pid = children.map Child.pid := by
  rw [List.map_map]
  exact List.map_congr_left fun child _ => markExited_pid pid child

namespace Books

theorem entries_length (books : Books total requested remote) :
    (entries remote.pidmap).length = remote.children.length :=
  books.map.length_eq.trans (List.length_map _)

theorem keys_nodup (books : Books total requested remote) :
    ((entries remote.pidmap).map Prod.fst).Nodup := by
  have keys := books.map.map Prod.fst
  rw [List.map_map] at keys
  exact keys.nodup_iff.mpr books.distinct

theorem remove_child (books : Books total requested remote) {child : Child}
    (member : child ∈ remote.children) :
    (stupidMapRemove remote.pidmap child.pid).1 = child.index ∧
      (entries remote.pidmap).Perm
        (entryOf child :: entries (stupidMapRemove remote.pidmap child.pid).2) := by
  apply stupidMapRemove_entry _ books.keys_nodup
  exact books.map.mem_iff.mpr (List.mem_map_of_mem member)

theorem erase_child (books : Books total requested remote) {child : Child}
    (member : child ∈ remote.children) :
    remote.children.Perm
      (child :: remote.children.eraseP fun other => other.pid = child.pid) := by
  obtain ⟨first, before, behind, _, same, whole, erased⟩ :=
    List.exists_of_eraseP member (p := fun other => decide (other.pid = child.pid)) (by simp)
  have found : first ∈ remote.children := by
    rw [whole]
    simp
  obtain rfl := List.inj_on_of_nodup_map books.distinct found member (of_decide_eq_true same)
  rw [erased]
  nth_rewrite 1 [whole]
  exact List.perm_middle

theorem begin (books : Books total requested remote) {pid : Int} (positive : 0 < pid)
    (fresh : pid ∉ remote.pids) (more : remote.started.length < total)
    (here : remote.at_ ≠ .reap) {pidmap : List Slot} (size : pidmap.length = parallelNum requested)
    (map : (entries pidmap).Perm ((pid, (remote.started.length : Int)) :: entries remote.pidmap))
    {pos : Nat} {alive : Int} {at_ : At}
    (phase : Phase total requested { remote.begin pid remote.started.length with
      pidmap := pidmap, pos := pos, alive := alive, at_ := at_ } at_) :
    Books total requested { remote.begin pid remote.started.length with
      pidmap := pidmap, pos := pos, alive := alive, at_ := at_ } where
  size := size
  map := map.trans (books.map.cons _)
  distinct := List.nodup_cons.mpr ⟨fresh, books.distinct⟩
  positive := by
    intro child member
    rcases List.mem_cons.mp member with rfl | member
    · exact positive
    · exact books.positive child member
  inOrder := by
    have order := books.inOrder
    simp only [Remote.begin, List.length_append, List.length_singleton, List.range_succ]
    rw [← order]
  inside := by
    simp only [Remote.begin, List.length_append, List.length_singleton]
    exact more
  counted := by
    have counted := books.counted
    simp only [Remote.begin, List.length_cons, List.length_append, List.length_nil]
    omega
  signalled := by
    intro _ child member exited
    rcases List.mem_cons.mp member with rfl | member
    · contradiction
    · exact books.signalled here child member exited
  phase := phase

theorem goOn (books : Books total requested remote) {pos : Nat} {alive : Int} {at_ : At}
    {sigchld : Bool}
    (signalled : at_ ≠ .reap → ∀ child ∈ remote.children, child.exited → sigchld)
    (phase : Phase total requested
      { remote with pos := pos, alive := alive, at_ := at_, sigchld := sigchld } at_) :
    Books total requested
      { remote with pos := pos, alive := alive, at_ := at_, sigchld := sigchld } :=
  ⟨books.size, books.map, books.distinct, books.positive, books.inOrder, books.inside,
    books.counted, signalled, phase⟩

theorem launch (books : Books total requested remote) {n : Nat} {pid : Int}
    (here : remote.at_ = .launch n) (more : n < total) (room : n < parallelNum requested)
    (positive : 0 < pid) (fresh : pid ∉ remote.pids) :
    Books total requested { remote.begin pid n with
      pidmap := remote.pidmap.set n ⟨pid, n⟩
      at_ := .launch (n + 1) } := by
  have phase := books.phase
  rw [here] at phase
  obtain ⟨rfl, _, none, some_, free⟩ := phase
  apply books.begin positive fresh more (by rw [here]; exact At.noConfusion)
  · rw [List.length_set]
    exact books.size
  · exact entries_fill (free _ le_rfl room) positive.ne' _
  · refine ⟨by simp [Remote.begin], room, none, some_, fun i later inside => ?_⟩
    have other : i ≠ remote.started.length := by omega
    rw [keyAt, List.getElem?_set_ne other.symm]
    exact free i (by omega) inside

theorem launched (books : Books total requested remote) {n : Nat} (here : remote.at_ = .launch n)
    (full : ¬(n < total ∧ n < parallelNum requested)) :
    Books total requested { remote with pos := n, alive := n, at_ := .wait } := by
  have phase := books.phase
  have counted := books.counted
  have inside := books.inside
  have signalled := books.signalled
  rw [here] at phase signalled
  obtain ⟨rfl, room, none, some_, _⟩ := phase
  apply books.goOn fun _ => signalled At.noConfusion
  refine ⟨rfl, ?_, ?_, fun _ => ?_, fun _ => ?_⟩ <;> simp only <;> omega

theorem refill (books : Books total requested remote) {pid : Int} (here : remote.at_ = .fill)
    (more : remote.pos < total) (room : remote.alive < parallelNum requested)
    (positive : 0 < pid) (fresh : pid ∉ remote.pids) :
    Books total requested { remote.begin pid remote.pos with
      pidmap := (stupidMapAdd remote.pidmap pid remote.pos).2
      pos := remote.pos + 1
      alive := remote.alive + 1 } := by
  have phase := books.phase
  rw [here] at phase
  obtain ⟨pos, alive, few, unfinished, _⟩ := phase
  have slots : (entries remote.pidmap).length < remote.pidmap.length := by
    rw [books.entries_length, books.size]
    omega
  rw [pos] at more ⊢
  have phase : Phase total requested { remote.begin pid remote.started.length with
      pidmap := (stupidMapAdd remote.pidmap pid remote.started.length).2
      pos := remote.started.length + 1
      alive := remote.alive + 1
      at_ := .fill } .fill := by
    refine ⟨?_, ?_, ?_, fun _ => unfinished At.noConfusion, At.noConfusion⟩
    · simp [Remote.begin]
    · simp only [Remote.begin, List.length_cons]
      omega
    · simp only [Remote.begin, List.length_cons]
      omega
  have next := books.begin positive fresh more (by rw [here]; exact At.noConfusion)
    ((stupidMapAdd_length _ _ _).trans books.size)
    (stupidMapAdd_room slots positive.ne' _).2 phase
  rw [← here] at next
  exact next

theorem filled (books : Books total requested remote) (here : remote.at_ = .fill)
    (full : ¬(remote.pos < total ∧ remote.alive < parallelNum requested)) :
    Books total requested { remote with at_ := .wait } := by
  have phase := books.phase
  have signalled := books.signalled
  have inside := books.inside
  rw [here] at phase signalled
  obtain ⟨pos, alive, few, unfinished, _⟩ := phase
  apply books.goOn fun _ => signalled At.noConfusion
  refine ⟨pos, alive, few, fun _ => unfinished At.noConfusion, fun _ => ?_⟩
  simp only
  omega

theorem finished (books : Books total requested remote) (here : remote.at_ = .reap)
    (last : remote.nrExit2 = total) :
    Books total requested { remote with at_ := .stopped } := by
  have phase := books.phase
  have counted := books.counted
  have inside := books.inside
  rw [here] at phase
  have none : remote.children = [] := List.eq_nil_of_length_eq_zero (by omega)
  have phase : Phase total requested { remote with at_ := .stopped } .stopped :=
    ⟨last, phase.2.1⟩
  apply books.goOn _ phase
  intro _ child member
  rw [none] at member
  cases member

theorem reaped (books : Books total requested remote) (here : remote.at_ = .reap)
    (none : ∀ child ∈ remote.children, child.exited = false) (more : remote.nrExit2 ≠ total) :
    Books total requested { remote with at_ := .fill } := by
  have phase := books.phase
  have counted := books.counted
  have inside := books.inside
  rw [here] at phase
  obtain ⟨pos, alive, few, _, _⟩ := phase
  apply books.goOn
  · intro _ child member exited
    rw [none child member] at exited
    contradiction
  · refine ⟨pos, alive, few, fun _ => ?_, At.noConfusion⟩
    simp only
    omega

theorem exit (books : Books total requested remote) (pid : Int) :
    Books total requested { remote with
      children := remote.children.map (Remote.markExited pid)
      sigchld := true } where
  size := books.size
  map := by
    rw [map_entryOf_markExited]
    exact books.map
  distinct := by
    rw [Remote.pids, map_pid_markExited]
    exact books.distinct
  positive := by
    intro child member
    obtain ⟨old, known, rfl⟩ := List.mem_map.mp member
    rw [markExited_pid]
    exact books.positive old known
  inOrder := books.inOrder
  inside := books.inside
  counted := by
    rw [List.length_map]
    exact books.counted
  signalled := fun _ _ _ _ => rfl
  phase := by
    have phase := books.phase
    cases here : remote.at_ <;> rw [here] at phase <;> simpa [Phase] using phase

theorem readSignal (books : Books total requested remote) (here : remote.at_ = .wait) :
    Books total requested { remote with at_ := .reap, sigchld := false } := by
  have phase := books.phase
  rw [here] at phase
  obtain ⟨pos, alive, few, _, _⟩ := phase
  apply books.goOn fun again => absurd rfl again
  exact ⟨pos, alive, few, fun again => absurd rfl again, At.noConfusion⟩

theorem otherEvents (books : Books total requested remote) (here : remote.at_ = .wait) :
    Books total requested { remote with at_ := .fill } := by
  have phase := books.phase
  have signalled := books.signalled
  rw [here] at phase signalled
  obtain ⟨pos, alive, few, unfinished, _⟩ := phase
  apply books.goOn fun _ => signalled At.noConfusion
  exact ⟨pos, alive, few, fun _ => unfinished At.noConfusion, At.noConfusion⟩

theorem waitpid (books : Books total requested remote) {child : Child} (here : remote.at_ = .reap)
    (member : child ∈ remote.children) :
    Books total requested { remote with
      pidmap := (stupidMapRemove remote.pidmap child.pid).2
      nrExit2 := remote.nrExit2 + 1
      alive := remote.alive - 1
      children := remote.children.eraseP fun other => other.pid = child.pid } := by
  have left := books.erase_child member
  have smaller := left.length_eq
  have sublist : (remote.children.eraseP fun other => other.pid = child.pid) ⊆ remote.children :=
    List.eraseP_subset
  rw [List.length_cons] at smaller
  refine ⟨?_, ?_, ?_, ?_, books.inOrder, books.inside, ?_, ?_, ?_⟩
  · exact (stupidMapRemove_length _ _).trans books.size
  · have whole := (books.remove_child member).2.symm.trans (books.map.trans (left.map entryOf))
    exact whole.cons_inv
  · exact (List.nodup_cons.mp ((left.map Child.pid).nodup_iff.mp books.distinct)).2
  · exact fun other known => books.positive other (sublist known)
  · have counted := books.counted
    simp only
    omega
  · exact fun elsewhere => absurd here elsewhere
  · have phase := books.phase
    rw [here] at phase
    obtain ⟨pos, alive, few, _, _⟩ := phase
    show Phase _ _ _ remote.at_
    rw [here]
    refine ⟨pos, ?_, ?_, fun again => absurd rfl again, At.noConfusion⟩
    · simp only
      omega
    · simp only
      omega

theorem step (books : Books total requested remote)
    (stepped : (machine total requested).step remote label = some after) :
    Books total requested after := by
  cases move_of_step stepped with
  | launch n pid here more room positive fresh => exact books.launch here more room positive fresh
  | launched n here full => exact books.launched here full
  | refill pid here more room positive fresh => exact books.refill here more room positive fresh
  | filled here full => exact books.filled here full
  | finished here last => exact books.finished here last
  | reaped here none more => exact books.reaped here none more
  | exit pid running => exact books.exit pid
  | readSignal here pending => exact books.readSignal here
  | waitpid child here member => exact books.waitpid here member
  | otherEvents here => exact books.otherEvents here

theorem few (books : Books total requested remote) :
    remote.children.length ≤ parallelNum requested := by
  have phase := books.phase
  have counted := books.counted
  have inside := books.inside
  cases here : remote.at_ with
  | launch n =>
      rw [here] at phase
      obtain ⟨rfl, room, none, _⟩ := phase
      omega
  | stopped =>
      rw [here] at phase
      have last := phase.1
      omega
  | wait => exact (here ▸ phase).2.2.1
  | reap => exact (here ▸ phase).2.2.1
  | fill => exact (here ▸ phase).2.2.1

theorem alive (books : Books total requested remote) (inCore : ∀ n, remote.at_ ≠ .launch n) :
    remote.alive = remote.children.length := by
  have phase := books.phase
  cases here : remote.at_ with
  | launch n => exact absurd here (inCore n)
  | stopped => exact (here ▸ phase).2
  | wait => exact (here ▸ phase).2.1
  | reap => exact (here ▸ phase).2.1
  | fill => exact (here ▸ phase).2.1

theorem some_child (books : Books total requested remote) (here : remote.at_ = .wait) :
    ∃ child, child ∈ remote.children := by
  have phase := books.phase
  have counted := books.counted
  have some_ := parallelNum_pos requested
  rw [here] at phase
  obtain ⟨pos, _, _, unfinished, full⟩ := phase
  have more := unfinished At.noConfusion
  have full := full rfl
  apply List.exists_mem_of_length_pos
  omega

theorem stops (books : Books total requested remote) :
    remote.at_ = .stopped ↔
      remote.started.length = total ∧ remote.children = [] ∧ remote.at_ ≠ .reap := by
  have phase := books.phase
  have counted := books.counted
  have inside := books.inside
  constructor
  · intro stopped
    rw [stopped] at phase ⊢
    have last := phase.1
    exact ⟨by omega, List.eq_nil_of_length_eq_zero (by omega), At.noConfusion⟩
  · rintro ⟨whole, none, outside⟩
    rw [none, List.length_nil] at counted
    cases here : remote.at_ with
    | launch n =>
        rw [here] at phase
        obtain ⟨_, _, unfinished, some_, _⟩ := phase
        omega
    | wait =>
        have more := (here ▸ phase).2.2.2.1 At.noConfusion
        omega
    | reap => exact absurd here outside
    | fill =>
        have more := (here ▸ phase).2.2.2.1 At.noConfusion
        omega
    | stopped => rfl

end Books

theorem fresh_pid (remote : Remote) : ∃ pid, 0 < pid ∧ pid ∉ remote.pids := by
  obtain ⟨pid, positive, fresh⟩ := (Set.Ioi_infinite (0 : Int)).exists_notMem_finset
    remote.pids.toFinset
  exact ⟨pid, positive, by simpa using fresh⟩

theorem starts_or_ends (loop : (∃ n, remote.at_ = .launch n) ∨ remote.at_ = .fill) :
    ∃ label, label ≠ .otherEvents ∧ ((machine total requested).step remote label).isSome := by
  by_cases more : remote.startsMore total requested = true
  · obtain ⟨pid, positive, fresh⟩ := fresh_pid remote
    have allowed : remote.startsMore total requested = true ∧ 0 < pid ∧ pid ∉ remote.pids :=
      ⟨more, positive, fresh⟩
    refine ⟨.fork pid, RemoteStep.noConfusion, ?_⟩
    rcases loop with ⟨n, here⟩ | here
    · simp only [machine, Remote.fork, if_pos allowed, here, Option.isSome_some]
    · simp only [machine, Remote.fork, if_pos allowed, here, Option.isSome_some]
  · refine ⟨.loopEnd, RemoteStep.noConfusion, ?_⟩
    rcases loop with ⟨n, here⟩ | here
    · simp only [machine, Remote.loopEnd, if_neg more, here, Option.isSome_some]
    · simp only [machine, Remote.loopEnd, if_neg more, here, Option.isSome_some]

namespace Books

theorem goesOn (books : Books total requested remote) (goes : remote.at_ ≠ .stopped) :
    ∃ label, label ≠ .otherEvents ∧ ((machine total requested).step remote label).isSome := by
  cases here : remote.at_ with
  | launch n => exact starts_or_ends (.inl ⟨n, here⟩)
  | fill => exact starts_or_ends (.inr here)
  | stopped => exact absurd here goes
  | wait =>
      obtain ⟨child, member⟩ := books.some_child here
      cases exited : child.exited with
      | true =>
          have outside : remote.at_ ≠ .reap := by
            rw [here]
            exact At.noConfusion
          have signalled := books.signalled outside child member exited
          refine ⟨.readSignal, RemoteStep.noConfusion, ?_⟩
          simp [machine, Remote.readSignal, here, signalled]
      | false =>
          have running : ∃ other ∈ remote.children, other.pid = child.pid ∧ other.exited = false :=
            ⟨child, member, rfl, exited⟩
          refine ⟨.exit child.pid, RemoteStep.noConfusion, ?_⟩
          simp only [machine, Remote.exit, if_pos running, Option.isSome_some]
  | reap =>
      by_cases left : ∃ child ∈ remote.children, child.exited
      · obtain ⟨child, member, exited⟩ := left
        have index : 0 ≤ (stupidMapRemove remote.pidmap child.pid).1 := by
          rw [(books.remove_child member).1]
          exact Int.natCast_nonneg _
        have allowed : remote.at_ = .reap ∧
            ∃ other ∈ remote.children, other.pid = child.pid ∧ other.exited :=
          ⟨here, child, member, rfl, exited⟩
        refine ⟨.waitpid child.pid, RemoteStep.noConfusion, ?_⟩
        simp only [machine, Remote.waitpid, if_pos allowed, if_pos index, Option.isSome_some]
      · have none : remote.children.any Child.exited = false := by simpa using left
        refine ⟨.loopEnd, RemoteStep.noConfusion, ?_⟩
        simp only [machine, Remote.loopEnd, here, none, Bool.false_eq_true, if_false]
        split <;> rfl

theorem scheduled (books : Books total requested remote) : Scheduled total requested remote where
  inOrder := books.inOrder
  inside := books.inside
  few := books.few
  added := by
    intro here more pid val full
    have phase := books.phase
    rw [here] at phase
    have alive := phase.2.1
    have taken := stupidMapAdd_full full
    rw [books.entries_length, books.size] at taken
    simp only [Remote.startsMore, here, decide_eq_true_eq] at more
    omega
  removed := fun _ member => (books.remove_child member).1
  alive := books.alive
  stops := books.stops
  goesOn := books.goesOn

end Books

end

/-- In every run the children are scheduled as they should be, in every state. -/
theorem scheduled_always (total : Nat) (requested : Int) (labels : List RemoteStep) :
    Scheduled total requested (start total requested) ∧
      (machine total requested).Along (fun _ _ after => Scheduled total requested after)
        (start total requested) labels := by
  have initially := books_start total requested
  refine ⟨initially.scheduled, ?_⟩
  have everywhere : (machine total requested).Along (fun _ _ _ => True) (start total requested)
      labels := Machine.along_of_forall (fun _ _ _ _ => trivial) _ _
  apply Machine.Along.of_invariant (Books total requested) _ initially everywhere
  intro remote label after books _ stepped
  have next := books.step stepped
  exact ⟨next.scheduled, next⟩

def Child.work (child : Child) : Nat := if child.exited then 1 else 5

def At.work : At → Nat
  | .launch _ => 1
  | .reap => 2
  | .fill => 1
  | _ => 0

/-- The steps still to come, at most. -/
def Remote.work (total : Nat) (remote : Remote) : Nat :=
  6 * (total - remote.started.length) + (remote.children.map Child.work).sum +
    (if remote.sigchld then 3 else 0) + remote.at_.work

theorem work_pos (child : Child) : 1 ≤ child.work := by
  rw [Child.work]
  split <;> decide

theorem markExited_work_le (pid : Int) (child : Child) :
    (Remote.markExited pid child).work ≤ child.work := by
  rw [Remote.markExited]
  split
  · exact work_pos child
  · exact le_rfl

theorem work_markExited_le (pid : Int) (children : List Child) :
    ((children.map (Remote.markExited pid)).map Child.work).sum ≤
      (children.map Child.work).sum := by
  rw [List.map_map]
  exact List.sum_le_sum fun child _ => markExited_work_le pid child

theorem work_markExited {pid : Int} {children : List Child}
    (running : ∃ child ∈ children, child.pid = pid ∧ child.exited = false) :
    ((children.map (Remote.markExited pid)).map Child.work).sum + 4 ≤
      (children.map Child.work).sum := by
  induction children with
  | nil => simp at running
  | cons first rest ih =>
      have others := work_markExited_le pid rest
      simp only [List.map_cons, List.sum_cons]
      by_cases here : first.pid = pid ∧ first.exited = false
      · have done : (Remote.markExited pid first).work = 1 := by
          rw [Remote.markExited, if_pos here.1]
          rfl
        have busy : first.work = 5 := by
          rw [Child.work, here.2]
          rfl
        omega
      · obtain ⟨child, member, same⟩ := running
        have later := (List.mem_cons.mp member).resolve_left fun first => here (first ▸ same)
        have further := ih ⟨child, later, same⟩
        have own := markExited_work_le pid first
        omega

section

variable {total : Nat} {requested : Int} {remote after : Remote} {label : RemoteStep}

/-- Every step leaves less to do, but that other events make the program look once more. -/
theorem Books.work_lt (books : Books total requested remote)
    (stepped : (machine total requested).step remote label = some after) :
    after.work total + 1 ≤ remote.work total + if label = .otherEvents then 2 else 0 := by
  have inside := (books.step stepped).inside
  cases move_of_step stepped with
  | launch n pid here more room positive fresh =>
      simp only [Remote.begin, List.length_append, List.length_singleton] at inside
      simp only [Remote.work, Remote.begin, List.length_append, List.length_singleton,
        List.map_cons, List.sum_cons, Child.work, here, At.work, if_false, reduceCtorEq]
      omega
  | launched n here full => simp [Remote.work, here, At.work]
  | refill pid here more room positive fresh =>
      simp only [Remote.begin, List.length_append, List.length_singleton] at inside
      simp only [Remote.work, Remote.begin, List.length_append, List.length_singleton,
        List.map_cons, List.sum_cons, Child.work, here, At.work, if_false, reduceCtorEq]
      omega
  | filled here full => simp [Remote.work, here, At.work]
  | finished here last => simp [Remote.work, here, At.work]
  | reaped here none more => simp [Remote.work, here, At.work]
  | exit pid running =>
      have fewer := work_markExited running
      have signal : (if remote.sigchld = true then 3 else 0) ≤ 3 := by
        split <;> decide
      simp only [Remote.work, if_true, if_false, reduceCtorEq]
      omega
  | readSignal here pending => simp [Remote.work, here, pending, At.work]
  | waitpid child here member =>
      have left := ((books.erase_child member).map Child.work).sum_eq
      have some_ := work_pos child
      rw [List.map_cons, List.sum_cons] at left
      simp only [Remote.work, left, if_false, reduceCtorEq]
      omega
  | otherEvents here => simp [Remote.work, here, At.work]

theorem Books.run_length (books : Books total requested remote) {labels : List RemoteStep}
    (ran : (machine total requested).run remote labels = some after) :
    labels.length + after.work total ≤ remote.work total + 2 * labels.count .otherEvents := by
  induction labels generalizing remote with
  | nil =>
      obtain rfl := Option.some.inj ran
      simp
  | cons label rest ih =>
      obtain ⟨next, stepped, finished⟩ := Option.bind_eq_some_iff.mp ran
      have here := books.work_lt stepped
      have later := ih (books.step stepped) finished
      rw [List.length_cons, List.count_cons]
      by_cases other : label = .otherEvents
      · simp only [other, if_true, beq_self_eq_true] at here ⊢
        omega
      · simp only [other, if_false, beq_iff_eq] at here ⊢
        omega

end

/-- Runs are bounded by the addresses and the wake-ups for other events, so that a program
that can always go on until it stops does stop. -/
theorem run_length_le {total : Nat} {requested : Int} {labels : List RemoteStep} {last : Remote}
    (ran : (machine total requested).run (start total requested) labels = some last) :
    labels.length ≤ 6 * total + 1 + 2 * labels.count .otherEvents := by
  have bounded := (books_start total requested).run_length ran
  have work : (start total requested).work total ≤ 6 * total + 1 := by
    by_cases empty : total < 1 <;> simp [Remote.work, start, At.work, empty]
  omega

def oneChild : List RemoteStep := [.fork 5, .loopEnd, .exit 5, .readSignal, .waitpid 5, .loopEnd]

theorem run_length_le_oneChild : ∃ last, (machine 1 1).run (start 1 1) oneChild = some last ∧
    last.at_ = .stopped ∧ oneChild.length ≤ 6 * 1 + 1 + 2 * oneChild.count .otherEvents :=
  ⟨_, rfl, rfl, @run_length_le 1 1 oneChild _ rfl⟩

end DirtyCode.ParallelExec
