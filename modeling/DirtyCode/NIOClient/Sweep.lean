import DirtyCode.Lib.ArrayList
import DirtyCode.NIOClient.Session

/-!
The timeout sweep of `WorkerThreads.run`. The list holds references to sessions.
-/

namespace DirtyCode.NIOClient

open Lib

structure Alive where
  session : Session
  lastActive : BitVec 64
  isOpen : Bool

structure Sweep where
  aliveSession : ArrayList Nat
  it : Itr
  sessions : Nat → Alive
  closed : BitVec 32

-- the `int` timeout is widened before it is compared
def expired (timeout : BitVec 32) (now : BitVec 64) (s : Alive) : Bool :=
  (timeout.signExtend 64).slt (now - s.lastActive)

def Alive.close (s : Alive) : Alive where
  session := if 0 < s.session.nread then s.session.close else s.session
  lastActive := s.lastActive
  isOpen := false

namespace Sweep

section

variable (timeout : BitVec 32) (now : BitVec 64)

/-- The body of the loop. The address of a closed channel is an `IOException`, which is caught;
what the list and the iterator throw is not. -/
def body (state : Sweep) : Except JavaException Sweep :=
  match state.it.next state.aliveSession with
  | .error thrown => .error thrown
  | .ok (s, it) =>
      let e := state.sessions s
      if expired timeout now e && e.isOpen then
        match it.remove (state.aliveSession.remove s) with
        | .error thrown => .error thrown
        | .ok (aliveSession, it) => .ok
            { aliveSession := aliveSession
              it := it
              sessions := Function.update state.sessions s e.close
              closed := state.closed + 1 }
      else .ok { state with it := it }

def goesOn : Except JavaException Sweep → Bool
  | .ok state => state.it.hasNext state.aliveSession
  | .error _ => false

/-- The list is asked for its iterator. -/
def start (state : Sweep) : Sweep := { state with it := state.aliveSession.iterator }

def run (fuel : Nat) (state : Sweep) : Option (Except JavaException Sweep) :=
  whileLoop goesOn (·.bind (body timeout now)) fuel (.ok state.start)

/-- What the sweep is to leave. -/
structure Swept (before after : Sweep) : Prop where
  kept : after.aliveSession.elements =
    before.aliveSession.elements.filter fun s => !expired timeout now (before.sessions s)
  closed : after.closed = before.closed + BitVec.ofNat 32
    (before.aliveSession.elements.countP fun s => expired timeout now (before.sessions s))
  channels : ∀ s, (after.sessions s).isOpen = ((before.sessions s).isOpen &&
    !(decide (s ∈ before.aliveSession.elements) && expired timeout now (before.sessions s)))

def Sweeps (state : Sweep) : Prop :=
  ∃ fuel after, run timeout now fuel state = some (.ok after) ∧ Swept timeout now state after

variable {timeout now} {state : Sweep}

def moveOn (state : Sweep) : Sweep :=
  { state with it := ⟨state.it.cursor + 1, some state.it.cursor, state.it.expectedModCount⟩ }

theorem body_quiet (fresh : state.it.Fresh state.aliveSession)
    (more : state.it.cursor < state.aliveSession.elements.length)
    (quiet : (expired timeout now (state.sessions state.aliveSession.elements[state.it.cursor]) &&
      (state.sessions state.aliveSession.elements[state.it.cursor]).isOpen) = false) :
    body timeout now state = .ok state.moveOn := by
  simp only [body, fresh.next more, quiet, Bool.false_eq_true, if_false]
  rfl

theorem body_throws (fresh : state.it.Fresh state.aliveSession)
    (more : state.it.cursor < state.aliveSession.elements.length)
    (due : (expired timeout now (state.sessions state.aliveSession.elements[state.it.cursor]) &&
      (state.sessions state.aliveSession.elements[state.it.cursor]).isOpen) = true) :
    body timeout now state = .error .concurrentModification := by
  have refused : Itr.remove ⟨state.it.cursor + 1, some state.it.cursor, state.it.expectedModCount⟩
      (state.aliveSession.remove state.aliveSession.elements[state.it.cursor]) =
        .error .concurrentModification :=
    Itr.remove_of_foreign rfl fresh.modCount (List.getElem_mem more)
  simp only [body, fresh.next more, due, if_true, refused]

/-- A sweep that ends has found nothing to close and only moved the iterator. -/
theorem unchanged_of_ended {fuel : Nat} {after : Sweep} (fresh : state.it.Fresh state.aliveSession)
    (ended : whileLoop goesOn (·.bind (body timeout now)) fuel (.ok state) = some (.ok after)) :
    after.aliveSession = state.aliveSession := by
  induction fuel generalizing state with
  | zero => contradiction
  | succ fuel ih =>
      by_cases more : state.it.cursor < state.aliveSession.elements.length
      · have going : goesOn (.ok state) = true := fresh.hasNext_iff.mpr more
        rw [whileLoop, if_pos going] at ended
        change whileLoop _ _ fuel (body timeout now state) = _ at ended
        cases due : (expired timeout now
          (state.sessions state.aliveSession.elements[state.it.cursor]) &&
            (state.sessions state.aliveSession.elements[state.it.cursor]).isOpen) with
        | false =>
            rw [body_quiet fresh more due] at ended
            have next : state.moveOn.it.Fresh state.moveOn.aliveSession := fresh.advance more
            have later : after.aliveSession = state.moveOn.aliveSession := by
              apply ih next
              exact ended
            exact later
        | true =>
            rw [body_throws fresh more due] at ended
            cases fuel with
            | zero => contradiction
            | succ fuel => exact absurd (Option.some.inj ended) (by simp)
      · have stopped : ¬goesOn (.ok state) = true := fun going => more (fresh.hasNext_iff.mp going)
        rw [whileLoop, if_neg stopped] at ended
        injection ended with same
        injection same with same
        rw [same]

theorem ends_of_quiet {fuel : Nat} (fresh : state.it.Fresh state.aliveSession)
    (enough : state.aliveSession.elements.length - state.it.cursor < fuel)
    (quiet : ∀ s ∈ state.aliveSession.elements, expired timeout now (state.sessions s) = false) :
    ∃ it, whileLoop goesOn (·.bind (body timeout now)) fuel (.ok state) =
      some (.ok { state with it := it }) := by
  induction fuel generalizing state with
  | zero => omega
  | succ fuel ih =>
      by_cases more : state.it.cursor < state.aliveSession.elements.length
      · have going : goesOn (.ok state) = true := fresh.hasNext_iff.mpr more
        have idle := quiet _ (List.getElem_mem more)
        have left : state.moveOn.aliveSession.elements.length - state.moveOn.it.cursor < fuel := by
          show state.aliveSession.elements.length - (state.it.cursor + 1) < fuel
          omega
        obtain ⟨it, ended⟩ := ih (fresh.advance more) left quiet
        refine ⟨it, ?_⟩
        rw [whileLoop, if_pos going]
        change whileLoop _ _ fuel (body timeout now state) = _
        rw [body_quiet fresh more (by rw [idle, Bool.false_and])]
        exact ended
      · have stopped : ¬goesOn (.ok state) = true := fun going => more (fresh.hasNext_iff.mp going)
        exact ⟨state.it, by rw [whileLoop, if_neg stopped]⟩

theorem quiet_of_swept {after : Sweep} (kept : after.aliveSession = state.aliveSession)
    (swept : Swept timeout now state after) :
    ∀ s ∈ state.aliveSession.elements, expired timeout now (state.sessions s) = false := by
  have all := swept.kept
  rw [kept, eq_comm, List.filter_eq_self] at all
  intro s member
  simpa using all s member

theorem swept_of_quiet (it : Itr)
    (quiet : ∀ s ∈ state.aliveSession.elements, expired timeout now (state.sessions s) = false) :
    Swept timeout now state { state with it := it } where
  kept := by
    refine (List.filter_eq_self.mpr fun s member => ?_).symm
    rw [quiet s member]
    rfl
  closed := by
    have none : state.aliveSession.elements.countP
        (fun s => expired timeout now (state.sessions s)) = 0 :=
      List.countP_eq_zero.mpr fun s member => by simp [quiet s member]
    rw [none]
    exact (BitVec.add_zero _).symm
  channels := by
    intro s
    by_cases member : s ∈ state.aliveSession.elements
    · simp [quiet s member]
    · simp [member]

theorem quiet_of_sweeps (sweeps : Sweeps timeout now state) :
    ∀ s ∈ state.aliveSession.elements, expired timeout now (state.sessions s) = false := by
  obtain ⟨fuel, after, ended, swept⟩ := sweeps
  have fresh : state.start.it.Fresh state.start.aliveSession := Itr.fresh_iterator _
  have kept : after.aliveSession = state.start.aliveSession := by
    apply unchanged_of_ended fresh
    exact ended
  exact quiet_of_swept kept swept

/-- The sweep does what it is to do exactly when there is nothing for it to do. -/
theorem sweeps_iff (timeout : BitVec 32) (now : BitVec 64) (state : Sweep) :
    Sweeps timeout now state ↔
      ∀ s ∈ state.aliveSession.elements, expired timeout now (state.sessions s) = false := by
  constructor
  · exact quiet_of_sweeps
  · intro quiet
    have fresh : state.start.it.Fresh state.start.aliveSession := Itr.fresh_iterator _
    obtain ⟨it, ended⟩ := ends_of_quiet fresh (Nat.lt_succ_self _) quiet
    exact ⟨_, _, ended, swept_of_quiet it quiet⟩

def idle : Sweep where
  aliveSession := ⟨[0], 1⟩
  it := ⟨0, none, 1⟩
  sessions := fun _ => ⟨newSession, 1000, true⟩
  closed := 0

theorem idle_throws :
    run 500 2000 2 idle = some (.error .concurrentModification) ∧ ¬Sweeps 500 2000 idle :=
  ⟨rfl, fun sweeps => absurd (quiet_of_sweeps sweeps 0 List.mem_cons_self) (by decide)⟩

end

end Sweep

end DirtyCode.NIOClient
