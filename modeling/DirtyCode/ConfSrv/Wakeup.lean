import DirtyCode.ConfSrv.Server

/-!
The wakeup that a changed file owes to its session: `need_reply` keeps the scan
thread away, so somebody else has to have `EPOLLOUT` armed.
-/

namespace DirtyCode.ConfSrv

open Lib

/-- Outside the worker's handling a wanted reply has its wakeup. -/
def Woken (after : Server) : Prop :=
  after.worker = .idle → after.session.needReply = true → after.armed = true

/-- The disarming call finds no new request, and the arming call succeeds
unless the event is armed already. -/
def Kept (server : Server) : Action → Prop
  | .disarm epollOk => server.worker = .disarm → epollOk = true →
      server.session.needReply = false
  | .scan epollOk => epollOk = false → server.session.needReply = false →
      server.session.confTs < checkTs server.files server.session.ip → server.armed = true
  | _ => True

def WorkerPc.inside : WorkerPc → Bool
  | .reply => true
  | .stat _ => true
  | .store _ => true
  | .disarm => true
  | _ => false

structure Attentive (server : Server) : Prop where
  woken : server.worker.registered = true → server.session.needReply = true →
    server.armed = true
  inside : server.worker.inside = true → server.armed = true

theorem Attentive.woke {server : Server} (attentive : Attentive server) : Woken server :=
  fun idle => attentive.woken (by rw [idle]; rfl)

theorem armed_armOut (server : Server) : (armOut true server).armed = true := by
  simp only [armOut, Server.armed, if_true, decide_eq_true_eq]
  intro clear
  have lost := congrArg (BitVec.getLsbD · 2) clear
  simp [epollOut] at lost

theorem armed_disarmed (server : Server) (session : Session) (worker : WorkerPc) :
    Server.armed { server with
      session := session
      interest := server.session.events &&& ~~~epollOut
      worker := worker } = false := by
  have clear : server.session.events &&& ~~~epollOut &&& epollOut = 0 := by
    rw [BitVec.and_assoc]
    simp [epollOut]
  simp [Server.armed, clear]

theorem attentive_start (files : Files) (clock : Nat) (ip : BitVec 32) :
    Attentive (startServer files clock ip) := by
  constructor <;> simp [startServer, WorkerPc.registered, WorkerPc.inside]

theorem attentive_step {server after : Server} {action : Action} (attentive : Attentive server)
    (kept : Kept server action) (stepped : Stepped server action after) : Attentive after := by
  obtain ⟨woken, inside⟩ := attentive
  cases stepped with
  | update _ _ => exact ⟨woken, inside⟩
  | close _ =>
      exact ⟨fun registered => by simp [WorkerPc.registered] at registered,
        fun busy => by simp [WorkerPc.inside] at busy⟩
  | accepted _ _ _ =>
      exact ⟨fun registered => by simp [WorkerPc.registered] at registered,
        fun busy => by simp [WorkerPc.inside] at busy⟩
  | replied pc _ _ =>
      have armed := inside (by rw [pc]; rfl)
      exact ⟨fun _ _ => armed, fun _ => armed⟩
  | registered _ same =>
      subst same
      exact ⟨fun _ needed => by simp [getNewSession] at needed,
        fun busy => by simp [WorkerPc.inside] at busy⟩
  | statted pc | stored pc =>
      have armed := inside (by rw [pc]; rfl)
      exact ⟨fun _ _ => armed, fun _ => armed⟩
  | seen _ _ => exact ⟨woken, inside⟩
  | @due epollOk registered free later =>
      cases epollOk with
      | true => exact ⟨fun _ _ => armed_armOut _, fun _ => armed_armOut _⟩
      | false =>
          have armed := kept rfl free later
          exact ⟨fun _ _ => armed, fun _ => armed⟩
  | woken pc armed => exact ⟨fun _ _ => armed, fun _ => armed⟩
  | idled pc armed => exact ⟨fun _ _ => armed, fun _ => armed⟩
  | disarmed pc =>
      have none := kept pc rfl
      exact ⟨fun _ needed => by simp [none] at needed,
        fun busy => by simp [WorkerPc.inside] at busy⟩
  | kept pc =>
      have armed := inside (by rw [pc]; rfl)
      exact ⟨fun _ _ => armed, fun _ => armed⟩

/-- A step loses no wakeup exactly when it neither disarms under a new request
nor fails to arm for it. -/
theorem woken_iff_kept {server after : Server} {action : Action} (attentive : Attentive server)
    (stepped : server.step action = some after) : Woken after ↔ Kept server action := by
  have outcome := step_cases stepped
  constructor
  · intro woken
    cases outcome with
    | disarmed pc =>
        intro _ _
        by_contra needed
        have armed := woken rfl (by simpa using needed)
        rw [armed_disarmed] at armed
        contradiction
    | kept _ => exact fun _ impossible => by simp at impossible
    | seen _ quiet => exact fun _ free later => absurd ⟨free, later⟩ quiet
    | @due epollOk registered free later =>
        rintro rfl _ _
        cases pc : server.worker <;> simp only [pc, WorkerPc.registered] at registered <;>
          try contradiction
        case idle => exact woken pc rfl
        all_goals exact attentive.inside (by rw [pc]; rfl)
    | @close action closes => cases action <;> simp_all [Action.closes, Kept]
    | _ => trivial
  · exact fun kept => (attentive_step attentive kept outcome).woke

/-- Over a whole run no wakeup is lost exactly when no `EPOLLOUT` is disarmed
under a request that came in during the reply, and no arming call fails. -/
theorem no_lost_wakeup_iff (files : Files) (clock : Nat) (ip : BitVec 32)
    (actions : List Action) :
    machine.Along (fun _ _ after => Woken after) (startServer files clock ip) actions ↔
      machine.Along (fun server action _ => Kept server action) (startServer files clock ip)
        actions := by
  apply Machine.along_iff Attentive
  · exact fun server action after attentive stepped => woken_iff_kept attentive stepped
  · exact fun server action after attentive kept stepped =>
      attentive_step attentive kept (step_cases stepped)
  · exact attentive_start files clock ip

-- a second update between the `stat` of a reply and its `conf_ts = fts`
def updatedReply : List Action :=
  [.read true, .stat, .update (hostConf 0) [98, 10] 2, .scan true, .wake, .read true, .stat,
    .update (hostConf 0) [99, 10] 3, .scan true, .store]

theorem wakeup_lost :
    ¬∀ files clock ip actions,
      machine.Along (fun _ _ after => Woken after) (startServer files clock ip) actions := by
  intro always
  have ran : (machine.run (startServer (oneConf (hostConf 0) [97, 10]) 1 0) updatedReply).bind
      (fun server => (server.step (.disarm true)).map fun after =>
        (after.worker, after.session.needReply, after.armed)) = some (.idle, true, false) := by
    decide
  obtain ⟨server, before, disarmed⟩ := Option.bind_eq_some_iff.mp ran
  obtain ⟨after, stepped, outcome⟩ := Option.map_eq_some_iff.mp disarmed
  simp only [Prod.mk.injEq] at outcome
  obtain ⟨idle, needed, unarmed⟩ := outcome
  have along := always (oneConf (hostConf 0) [97, 10]) 1 0 (updatedReply ++ [.disarm true])
  have armed := along.last before stepped idle needed
  simp [unarmed] at armed

end DirtyCode.ConfSrv
