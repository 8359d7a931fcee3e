import DirtyCode.Ping.Record

/-!
`liveping`: at most a hundred rounds over the hosts, the replies in between, and the
report of the hosts that are live.
-/

namespace DirtyCode.Ping.Live

open Lib

/-- A handled reply, and whether it came between a test of its host and the reset after it. -/
structure Reply where
  rtt : Int
  between : Bool
  deriving DecidableEq, Repr

structure Host where
  e : Record
  replies : List Reply -- those before the host's report, the newest first
  ok : Option Bool -- the file it is written to
  deriving DecidableEq, Repr

inductive At
  | test (i : Nat)
  | reset (i : Nat)
  | send (i : Nat)
  | report (i : Nat)
  deriving DecidableEq, Repr

structure Rounds where
  hosts : Nat → Host
  at_ : At
  nloop : Nat
  nPingSend : Nat

inductive LiveStep
  | test
  | reset
  | sendto (now : Int) (sent : Bool)
  | roundEnd
  | report
  | reply (host : Nat) (rtt : Int)
  deriving DecidableEq, Repr

namespace Host

def reset (host : Host) : Host := { host with e := { host.e with latency := -1 } }

def sendto (host : Host) (now : Int) (sent : Bool) : Host :=
  let e := host.e.sendPing now sent
  { host with e := if sent then { e with seq := e.seq + 1 } else e }

def report (host : Host) : Host := { host with ok := some (host.e.latency ≠ -1) }

def reply (host : Host) (rtt : Int) (between : Bool) : Host :=
  { host with
    e := host.e.handlePingReply rtt
    replies := if host.ok = none then ⟨rtt, between⟩ :: host.replies else host.replies }

end Host

namespace Rounds

def put (live : Rounds) (i : Nat) (host : Host) (next : At) : Rounds :=
  { live with hosts := Function.update live.hosts i host, at_ := next }

def step (nLine : Nat) (live : Rounds) : LiveStep → Option Rounds
  | .test =>
      match live.at_ with
      | .test i =>
          if i < nLine then
            some { live with
              at_ := if (live.hosts i).e.latency = -1 then .reset i else .test (i + 1) }
          else none
      | _ => none
  | .reset =>
      match live.at_ with
      | .reset i => some (live.put i (live.hosts i).reset (.send i))
      | _ => none
  | .sendto now sent =>
      match live.at_ with
      | .send i =>
          some { live.put i ((live.hosts i).sendto now sent) (.test (i + 1)) with
            nPingSend := live.nPingSend + 1 }
      | _ => none
  | .roundEnd =>
      if live.at_ = .test nLine then
        if live.nPingSend = 0 ∨ 100 ≤ live.nloop then some { live with at_ := .report 0 }
        else some { live with at_ := .test 0, nloop := live.nloop + 1, nPingSend := 0 }
      else none
  | .report =>
      match live.at_ with
      | .report i =>
          if i < nLine then some (live.put i (live.hosts i).report (.report (i + 1))) else none
      | _ => none
  | .reply host rtt =>
      if host < nLine then
        some (live.put host ((live.hosts host).reply rtt (live.at_ = .reset host)) live.at_)
      else none

end Rounds

def start : Rounds where
  hosts _ :=
    { e := { seq := 0, latency := -1, lastSend := -1, lostStart := -1, lost := 0 }
      replies := []
      ok := none }
  at_ := .test 0
  nloop := 1
  nPingSend := 0

def machine (nLine : Nat) : Machine Rounds LiveStep where
  init live := live = start
  step := Rounds.step nLine

/-- A reply with a non-negative round trip was handled before the report. -/
def Host.answered (host : Host) : Bool := host.replies.any fun reply => 0 ≤ reply.rtt

/-- What the last reply leaves behind speaks for the host as all of them do. -/
def Host.lastSpeaks (host : Host) : Bool :=
  match host.replies with
  | [] => true
  | last :: _ => (last.rtt ≠ -1 && !last.between) == host.answered

def RightFile (live : Rounds) (label : LiveStep) (after : Rounds) : Prop :=
  ∀ i, label = .report → live.at_ = .report i →
    (after.hosts i).ok = some (live.hosts i).answered

def LastSpeaks (live : Rounds) (label : LiveStep) : Prop :=
  ∀ i, label = .report → live.at_ = .report i → (live.hosts i).lastSpeaks

inductive Move (nLine : Nat) (live : Rounds) : LiveStep → Rounds → Prop
  | test (i : Nat) (here : live.at_ = .test i) :
      Move nLine live .test { live with
        at_ := if (live.hosts i).e.latency = -1 then .reset i else .test (i + 1) }
  | reset (i : Nat) (here : live.at_ = .reset i) :
      Move nLine live .reset (live.put i (live.hosts i).reset (.send i))
  | sendto (i : Nat) (now : Int) (sent : Bool) (here : live.at_ = .send i) :
      Move nLine live (.sendto now sent)
        { live.put i ((live.hosts i).sendto now sent) (.test (i + 1)) with
          nPingSend := live.nPingSend + 1 }
  | last (here : live.at_ = .test nLine) (done : live.nPingSend = 0 ∨ 100 ≤ live.nloop) :
      Move nLine live .roundEnd { live with at_ := .report 0 }
  | again (here : live.at_ = .test nLine) :
      Move nLine live .roundEnd
        { live with at_ := .test 0, nloop := live.nloop + 1, nPingSend := 0 }
  | report (i : Nat) (here : live.at_ = .report i) (known : i < nLine) :
      Move nLine live .report (live.put i (live.hosts i).report (.report (i + 1)))
  | reply (host : Nat) (rtt : Int) :
      Move nLine live (.reply host rtt)
        (live.put host ((live.hosts host).reply rtt (live.at_ = .reset host)) live.at_)

theorem move_of_step {nLine : Nat} {live after : Rounds} {label : LiveStep}
    (stepped : (machine nLine).step live label = some after) : Move nLine live label after := by
  cases label with
  | test =>
      simp only [machine, Rounds.step] at stepped
      split at stepped
      · rename_i i here
        split at stepped
        · exact Option.some.inj stepped ▸ .test i here
        · contradiction
      · contradiction
  | reset =>
      simp only [machine, Rounds.step] at stepped
      split at stepped
      · rename_i i here
        exact Option.some.inj stepped ▸ .reset i here
      · contradiction
  | sendto now sent =>
      simp only [machine, Rounds.step] at stepped
      split at stepped
      · rename_i i here
        exact Option.some.inj stepped ▸ .sendto i now sent here
      · contradiction
  | roundEnd =>
      simp only [machine, Rounds.step] at stepped
      split at stepped
      · rename_i here
        split at stepped
        · rename_i done
          exact Option.some.inj stepped ▸ .last here done
        · exact Option.some.inj stepped ▸ .again here
      · contradiction
  | report =>
      simp only [machine, Rounds.step] at stepped
      split at stepped
      · rename_i i here
        split at stepped
        · rename_i known
          exact Option.some.inj stepped ▸ .report i here known
        · contradiction
      · contradiction
  | reply host rtt =>
      simp only [machine, Rounds.step] at stepped
      split at stepped
      · exact Option.some.inj stepped ▸ .reply host rtt
      · contradiction

/-- What `latency` says before the report: a reply between a test and its reset is lost
with the reset, and any other one stays. -/
def Host.Follows (host : Host) (resetting : Prop) : Prop :=
  match host.replies with
  | [] => host.e.latency = -1
  | last :: _ =>
      if last.between then host.e.latency = -1 ∨ resetting
      else host.e.latency = last.rtt ∧ (resetting → host.e.latency = -1)

structure Followed (live : Rounds) : Prop where
  unreported : ∀ i, (∀ k, live.at_ = .report k → k ≤ i) → (live.hosts i).ok = none
  follows : ∀ i, (live.hosts i).ok = none → (live.hosts i).Follows (live.at_ = .reset i)

theorem followed_start : Followed start := ⟨fun _ _ => rfl, fun _ _ => rfl⟩

section

variable {host : Host} {resetting later : Prop}

theorem Host.Follows.mono (follows : host.Follows resetting) (started : resetting → later)
    (marked : later → host.e.latency = -1) : host.Follows later := by
  rw [Host.Follows] at follows ⊢
  cases newest : host.replies with
  | nil => rwa [newest] at follows
  | cons last older =>
      simp only [newest] at follows ⊢
      cases between : last.between with
      | true =>
          rw [if_pos between] at follows
          rw [if_pos rfl]
          exact follows.imp_right started
      | false =>
          rw [between, if_neg Bool.false_ne_true] at follows
          rw [if_neg Bool.false_ne_true]
          exact ⟨follows.1, marked⟩

theorem Host.Follows.congr {other : Host} (follows : host.Follows resetting)
    (replies : other.replies = host.replies) (latency : other.e.latency = host.e.latency) :
    other.Follows resetting := by
  rw [Host.Follows, replies, latency]
  exact follows

theorem Host.Follows.reset (follows : host.Follows True) : host.reset.Follows False := by
  have same : host.reset.replies = host.replies := rfl
  rw [Host.Follows] at follows
  rw [Host.Follows, same]
  cases newest : host.replies with
  | nil => rfl
  | cons last older =>
      simp only [newest] at follows ⊢
      cases between : last.between with
      | true =>
          rw [if_pos rfl]
          exact .inl rfl
      | false =>
          rw [between, if_neg Bool.false_ne_true] at follows
          rw [if_neg Bool.false_ne_true]
          exact ⟨(follows.2 trivial).symm.trans follows.1, False.elim⟩

theorem Host.follows_reply (host : Host) (unreported : host.ok = none) (rtt : Int)
    (resetting : Prop) [Decidable resetting] : (host.reply rtt resetting).Follows resetting := by
  rw [Host.Follows, Host.reply]
  simp only [if_pos unreported, Record.handlePingReply, decide_eq_true_eq]
  by_cases between : resetting
  · rw [if_pos between]
    exact .inr between
  · rw [if_neg between]
    exact ⟨trivial, fun again => absurd again between⟩

theorem Host.Follows.report_iff (follows : host.Follows False) :
    host.report.ok = some host.answered ↔ host.lastSpeaks := by
  rw [Host.Follows] at follows
  rw [Host.report, Host.lastSpeaks, Option.some_inj]
  cases newest : host.replies with
  | nil =>
      rw [newest] at follows
      simp only at follows
      simp [Host.answered, newest, follows]
  | cons last older =>
      simp only [newest] at follows ⊢
      cases between : last.between with
      | true =>
          rw [if_pos between] at follows
          simp [follows.resolve_right id]
      | false =>
          rw [between, if_neg Bool.false_ne_true] at follows
          simp [follows.1]

end

section

variable {nLine : Nat} {live after : Rounds} {label : LiveStep}

theorem ok_update {i : Nat} {host : Host} (same : host.ok = (live.hosts i).ok) (j : Nat) :
    (Function.update live.hosts i host j).ok = (live.hosts j).ok := by
  by_cases here : j = i
  · subst here
    rw [Function.update_self, same]
  · rw [Function.update_of_ne here]

theorem Followed.early (followed : Followed live) (early : ∀ k, live.at_ ≠ .report k) (i : Nat) :
    (live.hosts i).ok = none :=
  followed.unreported i fun k here => absurd here (early k)

theorem Followed.put (followed : Followed live) {i : Nat} {host : Host} {next : At}
    (others : ∀ j ≠ i, (live.at_ = .reset j ↔ next = .reset j))
    (own : host.ok = none → host.Follows (next = .reset i))
    (unreported : ∀ j, (∀ k, next = .report k → k ≤ j) →
      (Function.update live.hosts i host j).ok = none) :
    Followed (live.put i host next) := by
  refine ⟨unreported, fun j none => ?_⟩
  by_cases same : j = i
  · subst same
    simp only [Rounds.put, Function.update_self] at none ⊢
    exact own none
  · simp only [Rounds.put, Function.update_of_ne same] at none ⊢
    rw [← propext (others j same)]
    exact followed.follows j none

theorem Followed.putUnreported (followed : Followed live) {i : Nat} {host : Host} {next : At}
    (others : ∀ j ≠ i, (live.at_ = .reset j ↔ next = .reset j))
    (own : host.ok = none → host.Follows (next = .reset i))
    (same : host.ok = (live.hosts i).ok) (stays : ∀ k, live.at_ = .report k → next = .report k) :
    Followed (live.put i host next) := by
  apply followed.put others own
  intro j later
  rw [ok_update same]
  exact followed.unreported j fun k here => later k (stays k here)

theorem Followed.move (followed : Followed live) {next : At}
    (before : ∀ j, live.at_ ≠ .reset j)
    (marked : ∀ j, next = .reset j → (live.hosts j).e.latency = -1)
    (unreported : ∀ j, (live.hosts j).ok = none) (nloop nPingSend : Nat) :
    Followed ⟨live.hosts, next, nloop, nPingSend⟩ :=
  ⟨fun j _ => unreported j,
    fun j none => (followed.follows j none).mono (fun here => absurd here (before j)) (marked j)⟩

theorem Followed.step (followed : Followed live)
    (stepped : (machine nLine).step live label = some after) : Followed after := by
  cases move_of_step stepped with
  | test i here =>
      apply followed.move
      · simp [here]
      · intro j next
        by_cases marked : (live.hosts i).e.latency = -1
        · simp only [if_pos marked, At.reset.injEq] at next
          exact next ▸ marked
        · simp [marked] at next
      · exact followed.early (by simp [here])
  | reset i here =>
      apply followed.putUnreported
      · simp [here, eq_comm]
      · intro unreported
        have follows := followed.follows i unreported
        simp only [here] at follows
        simpa using follows.reset
      · rfl
      · simp [here]
  | sendto i now sent here =>
      have put : Followed (live.put i ((live.hosts i).sendto now sent) (.test (i + 1))) := by
        apply followed.putUnreported
        · simp [here]
        · intro unreported
          have follows := followed.follows i unreported
          have latency : ((live.hosts i).sendto now sent).e.latency = (live.hosts i).e.latency := by
            cases sent <;> rfl
          rw [here] at follows
          have sent : ((live.hosts i).sendto now sent).Follows (.send i = At.reset i) :=
            follows.congr rfl latency
          simpa using sent
        · rfl
        · simp [here]
      exact ⟨put.unreported, put.follows⟩
  | last here done =>
      exact followed.move (by simp [here]) (fun j => At.noConfusion)
        (followed.early (by simp [here])) _ _
  | again here =>
      exact followed.move (by simp [here]) (fun j => At.noConfusion)
        (followed.early (by simp [here])) _ _
  | report i here known =>
      apply followed.put
      · simp [here]
      · intro unreported
        contradiction
      · intro j later
        have past : i + 1 ≤ j := later (i + 1) rfl
        rw [Function.update_of_ne (by omega)]
        apply followed.unreported
        intro k same
        rw [here, At.report.injEq] at same
        omega
  | reply host rtt =>
      apply followed.putUnreported
      · exact fun j other => Iff.rfl
      · exact fun unreported => (live.hosts host).follows_reply unreported rtt _
      · rfl
      · exact fun k here => here

theorem report_right_iff (followed : Followed live)
    (stepped : (machine nLine).step live label = some after) :
    RightFile live label after ↔ LastSpeaks live label := by
  rw [RightFile, LastSpeaks]
  apply forall_congr'
  intro i
  apply imp_congr_right
  rintro rfl
  apply imp_congr_right
  intro here
  cases move_of_step stepped with
  | report k before known =>
      obtain rfl := At.report.inj (before.symm.trans here)
      have unreported := followed.unreported k (by
        intro j same
        rw [here, At.report.injEq] at same
        exact same.ge)
      have follows := followed.follows k unreported
      rw [here] at follows
      have reported := Host.Follows.report_iff (by simpa using follows)
      simpa [Rounds.put] using reported

end

/-- In every run every host is written to the right file exactly when, for each of them,
the last reply before its report speaks for all of them. -/
theorem files_right_iff (nLine : Nat) (labels : List LiveStep) :
    (machine nLine).Along RightFile start labels ↔
      (machine nLine).Along (fun live label _ => LastSpeaks live label) start labels := by
  refine Machine.along_iff Followed ?_ ?_ followed_start labels
  · intro live label after followed stepped
    exact report_right_iff followed stepped
  · intro live label after followed _ stepped
    exact followed.step stepped

/-- Where no clock is set back, the last reply must not come between a test and its reset. -/
theorem lastSpeaks_iff_of_nonneg {host : Host} (nonneg : ∀ reply ∈ host.replies, 0 ≤ reply.rtt) :
    host.lastSpeaks ↔ ∀ last ∈ host.replies.head?, last.between = false := by
  rw [Host.lastSpeaks, Host.answered]
  cases newest : host.replies with
  | nil => simp
  | cons last older =>
      have here := nonneg last (newest ▸ List.mem_cons_self)
      have valid : last.rtt ≠ -1 := by omega
      simp [here, valid]

def Written (live : Rounds) : Prop :=
  ∀ k, live.at_ = .report k → ∀ i < k, (live.hosts i).ok.isSome

theorem all_written {nLine : Nat} {live : Rounds}
    (reached : (machine nLine).Reachable (fun _ _ => True) live) : Written live := by
  apply reached.invariant
  · rintro live rfl k here
    contradiction
  · intro live label after written _ stepped
    cases move_of_step stepped with
    | test i before =>
        intro k here
        by_cases marked : (live.hosts i).e.latency = -1 <;> simp [marked] at here
    | reset i before => exact fun k => At.noConfusion
    | sendto i now sent before => exact fun k => At.noConfusion
    | last before done =>
        rintro k same i below
        obtain rfl := At.report.inj same
        exact absurd below (Nat.not_lt_zero i)
    | again before => exact fun k => At.noConfusion
    | report i before known =>
        rintro k same j below
        obtain rfl := At.report.inj same
        by_cases own : j = i
        · subst own
          simp [Rounds.put, Host.report]
        · simpa [Rounds.put, own] using written i before j (by omega)
    | reply host rtt =>
        intro k same j below
        have unchanged : ((live.hosts host).reply rtt (live.at_ = .reset host)).ok =
            (live.hosts host).ok := rfl
        exact (congrArg _ (ok_update unchanged j)).trans (written k same j below)

def eachRound : List LiveStep := [.test, .reset, .sendto 0 true, .roundEnd]

def lateReply : List LiveStep :=
  (List.replicate 99 eachRound).flatten ++ [.test, .reply 0 500, .reset, .sendto 0 true, .roundEnd]

/-- The host has answered and is written to the wrong file. -/
theorem live_host_failed : ¬(machine 1).Along RightFile start (lateReply ++ [.report]) := by
  intro along
  have lost : ((machine 1).run start lateReply).any (fun live => live.at_ = .report 0 &&
      ((live.hosts 0).e.latency = -1 && (live.hosts 0).answered)) = true := by
    decide +kernel
  obtain ⟨live, ran, found⟩ := (Option.any_eq_true _ _).mp lost
  simp only [Bool.and_eq_true, decide_eq_true_eq] at found
  obtain ⟨here, marked, answered⟩ := found
  have stepped : (machine 1).step live .report =
      some (live.put 0 (live.hosts 0).report (.report 1)) := by
    simp [machine, Rounds.step, here]
  have right := along.last ran stepped 0 rfl here
  simp [Rounds.put, Host.report, marked, answered] at right

end DirtyCode.Ping.Live
