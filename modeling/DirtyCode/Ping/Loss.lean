import DirtyCode.Ping.Record

/-!
`sbping`: one record under the main loop and the replies, and how many probes were lost.
-/

namespace DirtyCode.Ping.Loss

open Lib

def basePrd : Int := 9000

-- `send_ping6` sets `last_send` before `sendto` already
def sendPing (family : Family) (e : Record) (now : Int) (sent : Bool) : Record :=
  match family with
  | .inet => e.sendPing now sent
  | .inet6 => { e with lastSend := now }.sendPing now sent

structure Probe where
  sentAt : Int
  expired : Bool
  deriving DecidableEq, Repr

/-- Where the main loop is with the record. -/
inductive At
  | test
  | send
  | reset
  deriving DecidableEq, Repr

structure Loop where
  e : Record
  at_ : At
  probes : List Probe -- those sent since the last handled reply

inductive PingStep
  | test (ts : Int)
  | sendto (now : Int) (sent : Bool)
  | reset
  | reply (rtt : Int)

namespace Loop

def expires (loop : Loop) (ts : Int) : Bool := loop.e.lastSend + basePrd < ts

def countLost (e : Record) (ts : Int) : Record :=
  if e.latency = -1 then
    { e with lostStart := if e.lost = 0 then ts else e.lostStart, lost := e.lost + 1 }
  else e

def expire (ts : Int) (probe : Probe) : Probe :=
  if probe.sentAt + basePrd < ts then { probe with expired := true } else probe

def step (family : Family) (loop : Loop) : PingStep → Option Loop
  | .test ts =>
      if loop.at_ = .test then
        let probes := loop.probes.map (expire ts)
        if loop.expires ts then
          some { e := countLost loop.e ts, at_ := .send, probes := probes }
        else some { loop with probes := probes }
      else none
  | .sendto now sent =>
      if loop.at_ = .send then
        let e := sendPing family { loop.e with seq := 0 } now sent
        if sent then some { e := e, at_ := .reset, probes := ⟨now, false⟩ :: loop.probes }
        else some { loop with e := e, at_ := .test }
      else none
  | .reset =>
      if loop.at_ = .reset then
        some { loop with e := { loop.e with seq := loop.e.seq + 1, latency := -1 }, at_ := .test }
      else none
  | .reply rtt => some { loop with e := loop.e.handlePingReply rtt, probes := [] }

/-- The probes since the last handled reply whose period has expired. -/
def due (loop : Loop) : Nat := loop.probes.countP (·.expired)

/-- The last probe has neither been answered nor expired. -/
def waiting (loop : Loop) : Bool := loop.probes.any (!·.expired)

end Loop

def start (lastSend : Int) : Loop where
  e := { seq := -1, latency := 1, lastSend := lastSend, lostStart := -1, lost := 0 }
  at_ := .test
  probes := []

def machine (family : Family) : Machine Loop PingStep where
  init loop := ∃ lastSend, loop = start lastSend
  step := Loop.step family

inductive Move (family : Family) (loop : Loop) : PingStep → Loop → Prop
  | fires (ts : Int) (here : loop.at_ = .test) (fires : loop.expires ts = true) :
      Move family loop (.test ts)
        ⟨Loop.countLost loop.e ts, .send, loop.probes.map (Loop.expire ts)⟩
  | quiet (ts : Int) (here : loop.at_ = .test) (quiet : loop.expires ts = false) :
      Move family loop (.test ts) { loop with probes := loop.probes.map (Loop.expire ts) }
  | sent (now : Int) (here : loop.at_ = .send) :
      Move family loop (.sendto now true)
        ⟨sendPing family { loop.e with seq := 0 } now true, .reset, ⟨now, false⟩ :: loop.probes⟩
  | failed (now : Int) (here : loop.at_ = .send) :
      Move family loop (.sendto now false)
        { loop with e := sendPing family { loop.e with seq := 0 } now false, at_ := .test }
  | reset (here : loop.at_ = .reset) :
      Move family loop .reset
        { loop with e := { loop.e with seq := loop.e.seq + 1, latency := -1 }, at_ := .test }
  | reply (rtt : Int) :
      Move family loop (.reply rtt) { loop with e := loop.e.handlePingReply rtt, probes := [] }

theorem move_of_step {family : Family} {loop after : Loop} {label : PingStep}
    (stepped : (machine family).step loop label = some after) : Move family loop label after := by
  cases label with
  | test ts =>
      simp only [machine, Loop.step] at stepped
      split at stepped
      · rename_i here
        split at stepped
        · rename_i fires
          exact Option.some.inj stepped ▸ .fires ts here fires
        · rename_i quiet
          exact Option.some.inj stepped ▸ .quiet ts here (Bool.not_eq_true _ ▸ quiet)
      · contradiction
  | sendto now sent =>
      simp only [machine, Loop.step] at stepped
      split at stepped
      · rename_i here
        cases sent with
        | true => exact Option.some.inj stepped ▸ .sent now here
        | false => exact Option.some.inj stepped ▸ .failed now here
      · contradiction
  | reset =>
      simp only [machine, Loop.step] at stepped
      split at stepped
      · rename_i here
        exact Option.some.inj stepped ▸ .reset here
      · contradiction
  | reply rtt => exact Option.some.inj stepped ▸ .reply rtt

def LostRight (loop : Loop) : Prop := loop.e.lost = loop.due

/-- A test that counts finds a probe that waits for its reply. -/
def CountsWaiting (loop : Loop) : PingStep → Prop
  | .test ts => loop.expires ts → loop.e.latency = -1 → loop.waiting
  | _ => True

/-- All probes have expired, or the newest one still waits. -/
inductive Probes (loop : Loop) : Prop
  | past (expired : ∀ probe ∈ loop.probes, probe.expired = true)
  | waits (old : List Probe) (newest : loop.probes = ⟨loop.e.lastSend, false⟩ :: old)
      (expired : ∀ probe ∈ old, probe.expired = true) (sent : loop.at_ ≠ .send)
      (marked : loop.at_ = .test → loop.e.latency = -1)

structure Settled (loop : Loop) : Prop where
  right : LostRight loop
  probes : Probes loop

theorem settled_start (lastSend : Int) : Settled (start lastSend) := by
  refine ⟨rfl, .past ?_⟩
  intro probe member
  cases member

theorem map_expire {probes : List Probe} (expired : ∀ probe ∈ probes, probe.expired = true)
    (ts : Int) : probes.map (Loop.expire ts) = probes := by
  apply (List.map_congr_left _).trans (List.map_id _)
  intro probe member
  rw [Loop.expire, ← expired probe member]
  exact ite_self probe

theorem countP_expired {probes : List Probe} (expired : ∀ probe ∈ probes, probe.expired = true) :
    probes.any (!·.expired) = false := by
  rw [List.any_eq_false]
  intro probe member
  rw [expired probe member]
  decide

section

variable {family : Family} {loop after : Loop}

theorem Probes.map_quiet (probes : Probes loop) {ts : Int} (quiet : loop.expires ts = false) :
    loop.probes.map (Loop.expire ts) = loop.probes := by
  cases probes with
  | past expired => exact map_expire expired ts
  | waits old newest expired _ _ =>
      have later : ¬loop.e.lastSend + basePrd < ts := of_decide_eq_false quiet
      rw [newest, List.map_cons, map_expire expired, Loop.expire, if_neg later]

theorem Settled.fires (settled : Settled loop) (here : loop.at_ = .test) {ts : Int}
    (fires : loop.expires ts = true) :
    (LostRight ⟨Loop.countLost loop.e ts, .send, loop.probes.map (Loop.expire ts)⟩ ↔
        (loop.e.latency = -1 → loop.waiting)) ∧
      Probes ⟨Loop.countLost loop.e ts, .send, loop.probes.map (Loop.expire ts)⟩ := by
  have right := settled.right
  rw [LostRight, Loop.due] at right
  cases settled.probes with
  | past expired =>
      have none : loop.waiting = false := countP_expired expired
      rw [map_expire expired, LostRight, Loop.due, none]
      refine ⟨?_, .past expired⟩
      by_cases marked : loop.e.latency = -1
      · simp only [Loop.countLost, marked, if_true]
        constructor
        · intro same
          omega
        · intro counted
          exact absurd (counted trivial) (by decide)
      · rw [Loop.countLost, if_neg marked]
        exact iff_of_true right fun again => absurd again marked
  | waits old newest expired _ marked =>
      have past : loop.e.lastSend + basePrd < ts := of_decide_eq_true fires
      have waiting : loop.waiting = true := by
        rw [Loop.waiting, newest]
        rfl
      have mapped : loop.probes.map (Loop.expire ts) = ⟨loop.e.lastSend, true⟩ :: old := by
        rw [newest, List.map_cons, map_expire expired, Loop.expire, if_pos past]
      rw [newest, List.countP_cons_of_neg Bool.false_ne_true] at right
      rw [mapped, waiting, LostRight, Loop.due, List.countP_cons_of_pos (by rfl), Loop.countLost,
        if_pos (marked here)]
      refine ⟨iff_of_true ?_ fun _ => rfl, .past ?_⟩
      · show loop.e.lost + 1 = _
        rw [right]
        push_cast
        rfl
      · intro probe member
        rcases List.mem_cons.mp member with rfl | member
        · rfl
        · exact expired probe member

theorem sendPing_lost (e : Record) (now : Int) (sent : Bool) :
    (sendPing family e now sent).lost = e.lost := by
  cases family <;> cases sent <;> rfl

theorem sendPing_lastSend (e : Record) (now : Int) :
    (sendPing family e now true).lastSend = now := by
  cases family <;> rfl

theorem Settled.all_expired (settled : Settled loop) (here : loop.at_ = .send) :
    ∀ probe ∈ loop.probes, probe.expired = true := by
  cases settled.probes with
  | past expired => exact expired
  | waits old newest expired sent marked => exact absurd here sent

theorem Settled.sent (settled : Settled loop) (here : loop.at_ = .send) (now : Int) :
    Settled ⟨sendPing family { loop.e with seq := 0 } now true, .reset,
      ⟨now, false⟩ :: loop.probes⟩ := by
  constructor
  · rw [LostRight, sendPing_lost, Loop.due, List.countP_cons_of_neg Bool.false_ne_true]
    exact settled.right
  · refine .waits loop.probes ?_ (settled.all_expired here) At.noConfusion At.noConfusion
    rw [sendPing_lastSend]

theorem Settled.failed (settled : Settled loop) (here : loop.at_ = .send) (now : Int) :
    Settled
      { loop with e := sendPing family { loop.e with seq := 0 } now false, at_ := .test } := by
  constructor
  · rw [LostRight, sendPing_lost]
    exact settled.right
  · exact .past (settled.all_expired here)

theorem Settled.reset (settled : Settled loop) :
    Settled
      { loop with e := { loop.e with seq := loop.e.seq + 1, latency := -1 }, at_ := .test } := by
  constructor
  · exact settled.right
  · cases settled.probes with
    | past expired => exact .past expired
    | waits old newest expired _ _ => exact .waits old newest expired At.noConfusion fun _ => rfl

/-- Under the invariant a step is right exactly when it counts a waiting probe only. -/
theorem step_lostRight_iff {label : PingStep} (settled : Settled loop)
    (stepped : (machine family).step loop label = some after) :
    (LostRight after ↔ CountsWaiting loop label) ∧ (CountsWaiting loop label → Settled after) := by
  cases move_of_step stepped with
  | fires ts here fires =>
      obtain ⟨exact_, probes⟩ := settled.fires here fires
      rw [CountsWaiting]
      exact ⟨exact_.trans ⟨fun counted _ => counted, fun counted => counted fires⟩,
        fun counted => ⟨exact_.mpr (counted fires), probes⟩⟩
  | quiet ts here quiet =>
      rw [settled.probes.map_quiet quiet]
      refine ⟨iff_of_true settled.right fun fires => ?_, fun _ => settled⟩
      rw [quiet] at fires
      contradiction
  | sent now here =>
      have next : Settled ⟨sendPing family { loop.e with seq := 0 } now true, .reset,
          ⟨now, false⟩ :: loop.probes⟩ := settled.sent here now
      exact ⟨iff_of_true next.right trivial, fun _ => next⟩
  | failed now here =>
      have next : Settled { loop with
          e := sendPing family { loop.e with seq := 0 } now false, at_ := .test } :=
        settled.failed here now
      exact ⟨iff_of_true next.right trivial, fun _ => next⟩
  | reset here => exact ⟨iff_of_true settled.reset.right trivial, fun _ => settled.reset⟩
  | reply rtt =>
      have next : Settled { loop with e := loop.e.handlePingReply rtt, probes := [] } :=
        ⟨rfl, .past (by intro probe member; cases member)⟩
      exact ⟨iff_of_true next.right trivial, fun _ => next⟩

end

/-- In every run `lost` is right in every state exactly when no expiry test counts
without a probe that waits. -/
theorem lost_right_iff (family : Family) (lastSend : Int) (labels : List PingStep) :
    (machine family).Along (fun _ _ after => LostRight after) (start lastSend) labels ↔
      (machine family).Along (fun loop label _ => CountsWaiting loop label) (start lastSend)
        labels := by
  refine Machine.along_iff Settled ?_ ?_ (settled_start lastSend) labels
  · intro loop label after settled stepped
    exact (step_lostRight_iff settled stepped).1
  · intro loop label after settled counted stepped
    exact (step_lostRight_iff settled stepped).2 counted

/-- `sendto` succeeds, no reply falls between it and the mark, and none reads as the mark. -/
def Undisturbed (loop : Loop) : PingStep → Prop
  | .sendto _ sent => sent
  | .reply rtt => rtt ≠ -1 ∧ loop.at_ ≠ .reset
  | _ => True

/-- The mark stands for a waiting probe. -/
structure Marked (loop : Loop) : Prop where
  settled : Settled loop
  test : loop.at_ = .test → loop.e.latency = -1 → loop.waiting
  reset : loop.at_ = .reset → loop.waiting

theorem Marked.step {family : Family} {loop after : Loop} {label : PingStep}
    (marked : Marked loop) (undisturbed : Undisturbed loop label)
    (stepped : (machine family).step loop label = some after) :
    CountsWaiting loop label ∧ Marked after := by
  have moved := move_of_step stepped
  have counts : CountsWaiting loop label := by
    cases moved with
    | fires ts here fires => exact fun _ => marked.test here
    | quiet ts here quiet => exact fun _ => marked.test here
    | sent now here => trivial
    | failed now here => trivial
    | reset here => trivial
    | reply rtt => trivial
  have settled := (step_lostRight_iff marked.settled stepped).2 counts
  refine ⟨counts, ?_⟩
  cases moved with
  | fires ts here fires => exact ⟨settled, At.noConfusion, At.noConfusion⟩
  | quiet ts here quiet =>
      rw [marked.settled.probes.map_quiet quiet]
      exact marked
  | sent now here => exact ⟨settled, At.noConfusion, fun _ => rfl⟩
  | failed now here => exact absurd undisturbed Bool.false_ne_true
  | reset here => exact ⟨settled, fun _ _ => marked.reset here, At.noConfusion⟩
  | reply rtt =>
      exact ⟨settled, fun _ minus => absurd minus undisturbed.1,
        fun here => absurd here undisturbed.2⟩

theorem counts_waiting_of_undisturbed (family : Family) (lastSend : Int) {labels : List PingStep}
    (undisturbed : (machine family).Along (fun loop label _ => Undisturbed loop label)
      (start lastSend) labels) :
    (machine family).Along (fun loop label _ => CountsWaiting loop label) (start lastSend)
      labels := by
  have initially : Marked (start lastSend) :=
    ⟨settled_start lastSend, fun _ minus => absurd minus (by simp [start]), At.noConfusion⟩
  apply Machine.Along.of_invariant Marked _ initially undisturbed
  intro loop label after marked allowed stepped
  exact marked.step allowed stepped

/-- The reply comes before the mark, and its probe is counted as lost. -/
theorem answered_counted :
    ¬(machine .inet).Along (fun _ _ after => LostRight after) (start 0)
      [.test 9001, .sendto 9001 true, .reply 500, .reset, .test 18002] := by
  intro along
  have answered := ((((along _ rfl).2 _ rfl).2 _ rfl).2 _ rfl).2
  have counted := (answered _ rfl).1
  revert counted
  simp only [LostRight]
  decide

end DirtyCode.Ping.Loss
