import DirtyCode.Lib.Countdown

/-!
`main` and `thread` of `tctx.c`: two threads that hand one futex word to and fro. A system
call is one step, and so is the store of the word; nothing but the other thread wakes a
waiter, and the word's comparison is the wait's only error.
-/

namespace DirtyCode.Tctx

open Lib

/-- Where a thread is in its loop: about to store its word, waking the other, about to
wait, asleep in the wait, or out of the loop. -/
inductive Place
  | storing
  | waking
  | waiting
  | asleep
  | finished
deriving DecidableEq

structure Party where
  place : Place
  i : Nat
  cnt1 : UInt64
  cnt2 : UInt64
  cnt3 : UInt64
  missed1 : UInt64
  retcnt : UInt64
deriving DecidableEq

structure State where
  futex : UInt32
  main : Party
  thread : Party
deriving DecidableEq

inductive Turn
  | main
  | thread
deriving DecidableEq

def Party.fresh : Party where
  place := .finished
  i := 0
  cnt1 := 0
  cnt2 := 0
  cnt3 := 0
  missed1 := 0
  retcnt := 0

def mainHead (iterations : Int) (party : Party) : Party :=
  if (party.i : Int) < iterations then { party with place := .storing }
  else { party with place := .finished }

def threadHead (iterations : Int) (party : Party) : Party :=
  if (party.i : Int) < iterations then { party with place := .waiting, cnt1 := party.cnt1 + 1 }
  else { party with place := .finished }

/-- The body of both waiting loops, `errno` being `EAGAIN`. -/
def Party.retry (party : Party) (ret : Int) : Party :=
  if ret = -1 then { party with cnt2 := party.cnt2 + 1, missed1 := party.missed1 + 1 }
  else { party with cnt2 := party.cnt2 + 1 }

def mainStep (state : State) : Option State :=
  match state.main.place with
  | .storing => some { state with
      futex := 0xA
      main := { state.main with place := .waking, cnt1 := state.main.cnt1 + 1 } }
  | .waking =>
      if state.thread.place = .asleep then
        some { state with
          main := { state.main with place := .waiting, retcnt := state.main.retcnt + 1 }
          thread := { state.thread with place := .storing } }
      else some { state with main := { state.main with cnt3 := state.main.cnt3 + 1 } }
  | .waiting =>
      if state.futex = 0xB then some { state with main := { state.main with place := .asleep } }
      else
        -- `ret` takes the comparison's value, not the call's
        some { state with main := state.main.retry (if (-1 : Int) ≠ 0 then 1 else 0) }
  | .asleep => none
  | .finished => none

def threadStep (iterations : Int) (state : State) : Option State :=
  match state.thread.place with
  | .storing => some { state with
      futex := 0xB
      thread := { state.thread with place := .waking } }
  | .waking =>
      if state.main.place = .asleep then
        some { state with
          main := mainHead iterations { state.main with i := state.main.i + 1 }
          thread := threadHead iterations
            { state.thread with i := state.thread.i + 1, retcnt := state.thread.retcnt + 1 } }
      else some { state with thread := { state.thread with cnt3 := state.thread.cnt3 + 1 } }
  | .waiting =>
      if state.futex = 0xA then some { state with thread := { state.thread with place := .asleep } }
      else some { state with thread := state.thread.retry (-1) }
  | .asleep => none
  | .finished => none

def start (iterations : Int) : State where
  futex := 0xA
  main := mainHead iterations .fresh
  thread := threadHead iterations .fresh

def machine (iterations : Int) : Machine State Turn where
  init state := state = start iterations
  step state turn :=
    match turn with
    | .main => mainStep state
    | .thread => threadStep iterations state

/-- The stages of a round, from `main`'s store to the wake that `thread` gives it. -/
inductive Stage
  | opening
  | early
  | calling
  | called
  | answering
  | ringing
  | rung
deriving DecidableEq

namespace Stage

def main : Stage → Place
  | opening => .storing
  | early => .storing
  | calling => .waking
  | called => .waking
  | answering => .waiting
  | ringing => .waiting
  | rung => .asleep

def thread : Stage → Place
  | opening => .waiting
  | early => .asleep
  | calling => .waiting
  | called => .asleep
  | answering => .storing
  | ringing => .waking
  | rung => .waking

/-- The word in the futex, where a turn depends on it. -/
def word : Stage → Option UInt32
  | opening => none
  | early => some 0xA
  | calling => some 0xA
  | called => some 0xA
  | answering => some 0xA
  | ringing => some 0xB
  | rung => some 0xB

def stored : Stage → Nat
  | opening => 0
  | early => 0
  | calling => 1
  | called => 1
  | answering => 1
  | ringing => 1
  | rung => 1

def woken : Stage → Nat
  | opening => 0
  | early => 0
  | calling => 0
  | called => 0
  | answering => 1
  | ringing => 1
  | rung => 1

def awaited : Stage → Turn
  | opening => .main
  | early => .main
  | calling => .thread
  | called => .main
  | answering => .thread
  | ringing => .main
  | rung => .thread

def left : Stage → Nat
  | opening => 5
  | early => 5
  | calling => 4
  | called => 3
  | answering => 2
  | ringing => 1
  | rung => 0

def next : Stage → Option Stage
  | opening => some calling
  | early => some called
  | calling => some called
  | called => some answering
  | answering => some ringing
  | ringing => some rung
  | rung => none

end Stage

structure Party.Counts (party : Party) (i stored woken : Nat) : Prop where
  i : party.i = i
  cnt1 : party.cnt1 = UInt64.ofNat stored
  retcnt : party.retcnt = UInt64.ofNat woken

theorem Party.Counts.of_eq {party other : Party} {i stored woken : Nat}
    (counts : party.Counts i stored woken) (same_i : other.i = party.i)
    (same_cnt1 : other.cnt1 = party.cnt1) (same_retcnt : other.retcnt = party.retcnt) :
    other.Counts i stored woken :=
  ⟨same_i.trans counts.i, same_cnt1.trans counts.cnt1, same_retcnt.trans counts.retcnt⟩

/-- `main` never counts a missed wait, `thread` counts each as missed. -/
structure Misses (state : State) : Prop where
  main : state.main.missed1 = 0
  thread : state.thread.missed1 = state.thread.cnt2

/-- The state in a stage of round `n`. -/
structure At (iterations : Int) (state : State) (n : Nat) (stage : Stage) : Prop where
  going : (n : Int) < iterations
  main : state.main.place = stage.main
  thread : state.thread.place = stage.thread
  word : ∀ word ∈ stage.word, state.futex = word
  main_counts : state.main.Counts n (n + stage.stored) (n + stage.woken)
  thread_counts : state.thread.Counts n (n + 1) n
  misses : Misses state

/-- Both threads out of their loops, with every round counted as often by either. -/
structure Ended (iterations : Int) (state : State) : Prop where
  main : state.main.place = .finished
  thread : state.thread.place = .finished
  main_counts : state.main.Counts iterations.toNat iterations.toNat iterations.toNat
  thread_counts : state.thread.Counts iterations.toNat iterations.toNat iterations.toNat
  misses : Misses state

/-- The start of round `n`, the end where there is none. -/
def Opens (iterations : Int) (state : State) (n : Nat) : Prop :=
  At iterations state n .opening ∨ Ended iterations state

section Heads

variable {iterations : Int} {party : Party}

@[simp] theorem mainHead_missed1 : (mainHead iterations party).missed1 = party.missed1 := by
  rw [mainHead]
  split <;> rfl

@[simp] theorem threadHead_missed1 : (threadHead iterations party).missed1 = party.missed1 := by
  rw [threadHead]
  split <;> rfl

@[simp] theorem threadHead_cnt2 : (threadHead iterations party).cnt2 = party.cnt2 := by
  rw [threadHead]
  split <;> rfl

theorem mainHead_going (going : (party.i : Int) < iterations) :
    mainHead iterations party = { party with place := .storing } := if_pos going

theorem mainHead_over (over_ : ¬(party.i : Int) < iterations) :
    mainHead iterations party = { party with place := .finished } := if_neg over_

theorem threadHead_going (going : (party.i : Int) < iterations) :
    threadHead iterations party =
      { party with place := .waiting, cnt1 := party.cnt1 + 1 } := if_pos going

theorem threadHead_over (over_ : ¬(party.i : Int) < iterations) :
    threadHead iterations party = { party with place := .finished } := if_neg over_

theorem succ_count (count : UInt64) {n : Nat} (counted : count = UInt64.ofNat n) :
    count + 1 = UInt64.ofNat (n + 1) := by
  rw [counted, UInt64.ofNat_add]
  rfl

theorem opens_of_heads {n : Nat} {futex : UInt32} {main thread : Party}
    (few : n ≤ iterations.toNat) (main_counts : main.Counts n n n)
    (thread_counts : thread.Counts n n n) (main_misses : main.missed1 = 0)
    (thread_misses : thread.missed1 = thread.cnt2) :
    Opens iterations ⟨futex, mainHead iterations main, threadHead iterations thread⟩ n := by
  have misses : Misses ⟨futex, mainHead iterations main, threadHead iterations thread⟩ :=
    ⟨by simpa using main_misses, by simpa using thread_misses⟩
  by_cases going : (n : Int) < iterations
  · left
    rw [mainHead_going (by rwa [main_counts.i]), threadHead_going (by rwa [thread_counts.i])] at *
    have cnt1 := succ_count _ thread_counts.cnt1
    exact
      { going := going
        main := rfl
        thread := rfl
        word := fun _ none_ => nomatch none_
        main_counts := ⟨main_counts.i, main_counts.cnt1, main_counts.retcnt⟩
        thread_counts := ⟨thread_counts.i, cnt1, thread_counts.retcnt⟩
        misses := misses }
  · right
    rw [mainHead_over (by rwa [main_counts.i]), threadHead_over (by rwa [thread_counts.i])] at *
    have last : iterations.toNat = n := by omega
    exact
      { main := rfl
        thread := rfl
        main_counts := last ▸ ⟨main_counts.i, main_counts.cnt1, main_counts.retcnt⟩
        thread_counts := last ▸ ⟨thread_counts.i, thread_counts.cnt1, thread_counts.retcnt⟩
        misses := misses }

end Heads

section Turns

variable {iterations : Int} {state : State} {n : Nat} {stage : Stage}

theorem opens_start : Opens iterations (start iterations) 0 :=
  opens_of_heads (Nat.zero_le _) ⟨rfl, rfl, rfl⟩ ⟨rfl, rfl, rfl⟩ rfl rfl

theorem At.store (at_ : At iterations state n stage) (stands : stage.main = .storing) :
    (machine iterations).turn state .main = { state with
      futex := 0xA
      main := { state.main with place := .waking, cnt1 := state.main.cnt1 + 1 } } := by
  apply Machine.turn_of_step
  simp only [machine, mainStep, at_.main, stands]

theorem At.stored {next : Stage} (at_ : At iterations state n stage)
    (stands : stage.main = .storing) (none_stored : stage.stored = 0) (none_woken : stage.woken = 0)
    (moves : next.main = .waking) (keeps : next.thread = stage.thread)
    (word : next.word = some 0xA) (stores : next.stored = 1) (wakes : next.woken = 0) :
    At iterations ((machine iterations).turn state .main) n next := by
  have counts := at_.main_counts
  rw [none_stored, none_woken] at counts
  rw [at_.store stands]
  exact
    { going := at_.going
      main := moves.symm
      thread := at_.thread.trans keeps.symm
      word := fun _ same => Option.some.inj (word.symm.trans same)
      main_counts := by
        rw [stores, wakes]
        exact ⟨counts.i, succ_count _ counts.cnt1, counts.retcnt⟩
      thread_counts := at_.thread_counts
      misses := ⟨at_.misses.main, at_.misses.thread⟩ }

/-- The awaited turn ends the stage; in the last one it ends the round for both. -/
theorem awaited_turn (at_ : At iterations state n stage) :
    match stage.next with
    | some next => At iterations ((machine iterations).turn state stage.awaited) n next
    | none => Opens iterations ((machine iterations).turn state stage.awaited) (n + 1) := by
  have main := at_.main
  have thread := at_.thread
  have word := at_.word
  cases stage with
  | opening => exact at_.stored rfl rfl rfl rfl rfl rfl rfl rfl
  | early => exact at_.stored rfl rfl rfl rfl rfl rfl rfl rfl
  | calling =>
      have stepped : (machine iterations).turn state .thread =
          { state with thread := { state.thread with place := .asleep } } := by
        apply Machine.turn_of_step
        simp only [machine, threadStep, thread, Stage.thread, word _ rfl, if_true]
      simp only [Stage.next, Stage.awaited]
      rw [stepped]
      exact
        { at_ with
          thread := rfl
          thread_counts := at_.thread_counts.of_eq rfl rfl rfl
          misses := ⟨at_.misses.main, at_.misses.thread⟩ }
  | called =>
      have stepped : (machine iterations).turn state .main = { state with
          main := { state.main with place := .waiting, retcnt := state.main.retcnt + 1 }
          thread := { state.thread with place := .storing } } := by
        apply Machine.turn_of_step
        simp only [machine, mainStep, main, thread, Stage.main, Stage.thread, if_true]
      simp only [Stage.next, Stage.awaited]
      rw [stepped]
      exact
        { at_ with
          main := rfl
          thread := rfl
          main_counts := ⟨at_.main_counts.i, at_.main_counts.cnt1,
            succ_count _ at_.main_counts.retcnt⟩
          thread_counts := at_.thread_counts.of_eq rfl rfl rfl
          misses := ⟨at_.misses.main, at_.misses.thread⟩ }
  | answering =>
      have stepped : (machine iterations).turn state .thread = { state with
          futex := 0xB
          thread := { state.thread with place := .waking } } := by
        apply Machine.turn_of_step
        simp only [machine, threadStep, thread, Stage.thread]
      simp only [Stage.next, Stage.awaited]
      rw [stepped]
      exact
        { at_ with
          thread := rfl
          word := fun _ same => Option.some.inj same
          thread_counts := at_.thread_counts.of_eq rfl rfl rfl
          misses := ⟨at_.misses.main, at_.misses.thread⟩ }
  | ringing =>
      have stepped : (machine iterations).turn state .main =
          { state with main := { state.main with place := .asleep } } := by
        apply Machine.turn_of_step
        simp only [machine, mainStep, main, Stage.main, word _ rfl, if_true]
      simp only [Stage.next, Stage.awaited]
      rw [stepped]
      exact
        { at_ with
          main := rfl
          main_counts := at_.main_counts.of_eq rfl rfl rfl
          misses := ⟨at_.misses.main, at_.misses.thread⟩ }
  | rung =>
      have stepped : (machine iterations).turn state .thread = { state with
          main := mainHead iterations { state.main with i := state.main.i + 1 }
          thread := threadHead iterations
            { state.thread with i := state.thread.i + 1, retcnt := state.thread.retcnt + 1 } } := by
        apply Machine.turn_of_step
        simp only [machine, threadStep, main, thread, Stage.main, Stage.thread, if_true]
      have few : n + 1 ≤ iterations.toNat := by
        have going := at_.going
        omega
      have main_next : state.main.i + 1 = n + 1 := congrArg (· + 1) at_.main_counts.i
      have thread_next : state.thread.i + 1 = n + 1 := congrArg (· + 1) at_.thread_counts.i
      simp only [Stage.next, Stage.awaited]
      rw [stepped]
      exact opens_of_heads few ⟨main_next, at_.main_counts.cnt1, at_.main_counts.retcnt⟩
        ⟨thread_next, at_.thread_counts.cnt1, succ_count _ at_.thread_counts.retcnt⟩
        at_.misses.main at_.misses.thread

/-- A retry of `thread` is counted as a miss, one of `main` is not. -/
theorem retry_misses (misses : state.thread.missed1 = state.thread.cnt2) :
    (state.thread.retry (-1)).missed1 = (state.thread.retry (-1)).cnt2 := by
  simp only [Party.retry, if_true, misses]

/-- The other turn leaves the stage as it is; `thread` alone may fall asleep before the
first store. -/
theorem other_turn (at_ : At iterations state n stage) {turn : Turn}
    (other : turn ≠ stage.awaited) :
    At iterations ((machine iterations).turn state turn) n stage ∨
      (stage = .opening ∧ At iterations ((machine iterations).turn state turn) n .early) := by
  have main := at_.main
  have thread := at_.thread
  have word := at_.word
  cases stage <;> cases turn <;> try exact absurd rfl other
  case opening.thread =>
    by_cases mine : state.futex = 0xA
    · have stepped : (machine iterations).turn state .thread =
          { state with thread := { state.thread with place := .asleep } } := by
        apply Machine.turn_of_step
        simp only [machine, threadStep, thread, Stage.thread, mine, if_true]
      right
      rw [stepped]
      exact ⟨rfl,
        { at_ with
          thread := rfl
          word := fun _ same => mine.trans (Option.some.inj same)
          thread_counts := at_.thread_counts.of_eq rfl rfl rfl
          misses := ⟨at_.misses.main, at_.misses.thread⟩ }⟩
    · have stepped : (machine iterations).turn state .thread =
          { state with thread := state.thread.retry (-1) } := by
        apply Machine.turn_of_step
        simp only [machine, threadStep, thread, Stage.thread, mine, if_false]
      left
      rw [stepped]
      exact
        { at_ with
          thread := at_.thread
          thread_counts := at_.thread_counts.of_eq rfl rfl rfl
          misses := ⟨at_.misses.main, retry_misses at_.misses.thread⟩ }
  case early.thread =>
    left
    rwa [Machine.turn_of_none (by simp only [machine, threadStep, thread, Stage.thread])]
  case calling.main =>
    have stepped : (machine iterations).turn state .main =
        { state with main := { state.main with cnt3 := state.main.cnt3 + 1 } } := by
      apply Machine.turn_of_step
      simp only [machine, mainStep, main, thread, Stage.main, Stage.thread, reduceCtorEq, if_false]
    left
    rw [stepped]
    exact
      { at_ with
        main := at_.main
        main_counts := at_.main_counts.of_eq rfl rfl rfl
        misses := ⟨at_.misses.main, at_.misses.thread⟩ }
  case called.thread =>
    left
    rwa [Machine.turn_of_none (by simp only [machine, threadStep, thread, Stage.thread])]
  case answering.main =>
    have stepped : (machine iterations).turn state .main =
        { state with main := state.main.retry 1 } := by
      apply Machine.turn_of_step
      have differs : ¬(0xA : UInt32) = 0xB := by decide
      simp only [machine, mainStep, main, Stage.main, word _ rfl, differs, if_false]
      rfl
    left
    rw [stepped]
    exact
      { at_ with
        main := at_.main
        main_counts := at_.main_counts.of_eq rfl rfl rfl
        misses := ⟨at_.misses.main, at_.misses.thread⟩ }
  case ringing.thread =>
    have stepped : (machine iterations).turn state .thread =
        { state with thread := { state.thread with cnt3 := state.thread.cnt3 + 1 } } := by
      apply Machine.turn_of_step
      simp only [machine, threadStep, main, thread, Stage.main, Stage.thread, reduceCtorEq,
        if_false]
    left
    rw [stepped]
    exact
      { at_ with
        thread := at_.thread
        thread_counts := at_.thread_counts.of_eq rfl rfl rfl
        misses := ⟨at_.misses.main, at_.misses.thread⟩ }
  case rung.main =>
    left
    rwa [Machine.turn_of_none (by simp only [machine, mainStep, main, Stage.main])]

end Turns

section Runs

variable {iterations : Int} {state : State}

theorem Ended.settled (ended : Ended iterations state) (turn : Turn) :
    (machine iterations).turn state turn = state := by
  apply Machine.turn_of_none
  cases turn with
  | main => simp only [machine, mainStep, ended.main]
  | thread => simp only [machine, threadStep, ended.thread]

/-- In an unfinished round one turn is awaited, with so many after it at most. -/
def Awaits (iterations : Int) (state : State) (left : Nat) (turn : Turn) : Prop :=
  ∃ n stage, At iterations state n stage ∧ turn = stage.awaited ∧
    left = 6 * (iterations.toNat - 1 - n) + stage.left

theorem Stage.left_next {stage next : Stage} (follows : stage.next = some next) :
    next.left < stage.left := by
  cases stage <;> cases follows <;> decide

theorem nearer {left : Nat} {turn : Turn} (awaited : Awaits iterations state left turn) :
    Ended iterations ((machine iterations).turn state turn) ∨ ∃ fewer next, fewer < left ∧
      Awaits iterations ((machine iterations).turn state turn) fewer next := by
  obtain ⟨n, stage, at_, rfl, rfl⟩ := awaited
  have after := awaited_turn at_
  cases follows : stage.next with
  | some next =>
      rw [follows] at after
      have fewer := Stage.left_next follows
      exact .inr ⟨_, _, by omega, n, next, after, rfl, rfl⟩
  | none =>
      rw [follows] at after
      obtain opened | ended := after
      · have going := opened.going
        exact .inr ⟨_, _, by simp only [Stage.left]; omega, n + 1, .opening, opened, rfl, rfl⟩
      · exact .inl ended

theorem patient {left : Nat} {turn other : Turn} (awaited : Awaits iterations state left turn)
    (differs : other ≠ turn) :
    Awaits iterations ((machine iterations).turn state other) left turn := by
  obtain ⟨n, stage, at_, rfl, rfl⟩ := awaited
  obtain same | ⟨rfl, slept⟩ := other_turn at_ differs
  · exact ⟨n, stage, same, rfl, rfl⟩
  · exact ⟨n, .early, slept, rfl, rfl⟩

def countdown (iterations : Int) : (machine iterations).Countdown where
  ended := Ended iterations
  awaits := Awaits iterations
  settled turn ended := (ended.settled turn).symm ▸ ended
  nearer := nearer
  patient := patient

theorem within_of_opens {n : Nat} (opens : Opens iterations state n) :
    (countdown iterations).Within state (6 * iterations.toNat) := by
  obtain opened | ended := opens
  · have going := opened.going
    exact .inr ⟨_, _, by simp only [Stage.left]; omega, n, .opening, opened, rfl, rfl⟩
  · exact .inl ended

theorem within_of_reachable (reached : (machine iterations).Reachable (fun _ _ => True) state) :
    (countdown iterations).Within state (6 * iterations.toNat) := by
  induction reached with
  | start initial => exact initial ▸ within_of_opens opens_start
  | next turn _ _ stepped within => exact Machine.turn_of_step stepped ▸ within.turn turn

/-- What holds between the two threads at any moment: both are in one round, `main` at
most one wake ahead, and one of them can go on unless both have finished together. -/
structure InStep (iterations : Int) (state : State) : Prop where
  one_awake : ¬(state.main.place = .asleep ∧ state.thread.place = .asleep)
  goes_on : (∃ turn, ((machine iterations).step state turn).isSome) ∨ Ended iterations state
  together : state.main.place = .finished ↔ state.thread.place = .finished
  rounds : ∃ n ahead, ahead ≤ 1 ∧ state.main.i = n ∧ state.thread.i = n ∧
    state.main.retcnt = UInt64.ofNat (n + ahead) ∧ state.thread.retcnt = UInt64.ofNat n
  misses : Misses state

theorem Ended.inStep (ended : Ended iterations state) : InStep iterations state where
  one_awake := fun both => nomatch ended.main.symm.trans both.1
  goes_on := .inr ended
  together := ⟨fun _ => ended.thread, fun _ => ended.main⟩
  rounds := ⟨_, 0, by decide, ended.main_counts.i, ended.thread_counts.i,
    ended.main_counts.retcnt, ended.thread_counts.retcnt⟩
  misses := ended.misses

theorem At.goes_on {n : Nat} {stage : Stage} (at_ : At iterations state n stage) :
    ((machine iterations).step state stage.awaited).isSome := by
  have main := at_.main
  have thread := at_.thread
  cases stage <;> simp only [machine, Stage.awaited, mainStep, threadStep, main, thread,
    Stage.main, Stage.thread, if_true, Option.isSome_some]
  case calling => split <;> rfl
  case ringing => split <;> rfl

theorem At.inStep {n : Nat} {stage : Stage} (at_ : At iterations state n stage) :
    InStep iterations state where
  one_awake := by
    rw [at_.main, at_.thread]
    cases stage <;> decide
  goes_on := .inl ⟨_, at_.goes_on⟩
  together := by
    rw [at_.main, at_.thread]
    cases stage <;> decide
  rounds := ⟨n, stage.woken, by cases stage <;> decide, at_.main_counts.i, at_.thread_counts.i,
    at_.main_counts.retcnt, at_.thread_counts.retcnt⟩
  misses := at_.misses

/-- Whatever the order of their turns, the threads stay in step. -/
theorem threads_in_step (reached : (machine iterations).Reachable (fun _ _ => True) state) :
    InStep iterations state := by
  obtain ended | ⟨left, turn, -, n, stage, at_, -, -⟩ := within_of_reachable reached
  · exact ended.inStep
  · exact at_.inStep

def oneRound : List Turn := [.thread, .main, .main, .thread, .main, .thread]

theorem threads_in_step_round :
    ∃ last, (machine 1).run (start 1) oneRound = some last ∧ InStep 1 last :=
  ⟨_, rfl, threads_in_step (.of_run (.start rfl)
    (Machine.along_of_forall (fun _ _ _ _ => trivial) (start 1) oneRound) rfl)⟩

/-- From whatever state a run has reached, both threads finish all rounds once either has
had its turns often enough, in whatever order. -/
theorem fair_turns_finish (reached : (machine iterations).Reachable (fun _ _ => True) state)
    {stretches : List (List Turn)} (fair : ∀ stretch ∈ stretches, ∀ turn, turn ∈ stretch)
    (enough : 6 * iterations.toNat ≤ stretches.length) :
    Ended iterations ((machine iterations).play state stretches.flatten) :=
  (within_of_reachable reached).ends fair enough

theorem fair_turns_finish_one :
    Ended 1 ((machine 1).play (start 1) (List.replicate 6 [Turn.main, Turn.thread]).flatten) :=
  fair_turns_finish (.start rfl)
    (by
      intro stretch member turn
      rw [List.eq_of_mem_replicate member]
      cases turn <;> decide)
    (by decide)

end Runs

end DirtyCode.Tctx
