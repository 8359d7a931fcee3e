import DirtyCode.ConfSrv.Reply
import DirtyCode.Lib.Machine

/-!
One client of `ConfSrv.c`, from `accept_client` on: the thread that handles it,
the scan thread and the files that change under both.
-/

namespace DirtyCode.ConfSrv

open Lib

def epollIn : BitVec 32 := 0x1#32
def epollOut : BitVec 32 := 0x4#32
def epollEt : BitVec 32 := 0x80000000#32

structure Session where
  ip : BitVec 32
  events : BitVec 32
  confTs : Int
  needReply : Bool

inductive WorkerPc
  | accepting -- `accept_client`, the reading part of `reply_conf` is next
  | acceptStat (opened : ConfPath) -- its `stat` is next
  | idle
  | reply -- `need_reply` is cleared, the reading part of `reply_conf` is next
  | stat (opened : ConfPath) -- its `stat` is next
  | store (fts : Int) -- `conf_ts = fts` is next
  | disarm
  | closed
  deriving DecidableEq, Repr

structure Server where
  files : Files
  clock : Nat -- the last timestamp given to a file
  session : Session
  worker : WorkerPc
  interest : BitVec 32 -- the events the kernel reports for the socket
  sent : Option (List UInt8) -- what the last `reply_conf` has sent

inductive Action
  | update (path : ConfPath) (content : List UInt8) (ctime : Nat)
  | read (written : Bool)
  | stat
  | store
  | scan (epollOk : Bool)
  | wake
  | disarm (epollOk : Bool)
  | close

def getNewSession (ip : BitVec 32) : Session where
  ip := ip
  events := epollIn ||| epollEt
  confTs := -1
  needReply := false

def WorkerPc.registered : WorkerPc → Bool
  | .accepting => false
  | .acceptStat _ => false
  | .closed => false
  | _ => true

def Server.armed (server : Server) : Bool := server.interest &&& epollOut ≠ 0

-- `mod_event_epoll_to_session(s, 1, EPOLLOUT)`
def armOut (epollOk : Bool) (server : Server) : Server :=
  if epollOk then
    { server with
      session := { server.session with events := server.session.events ||| epollOut }
      interest := server.session.events ||| epollOut }
  else server

-- `scan_for_reply_thread`
def scanForReply (epollOk : Bool) (server : Server) : Server :=
  if server.session.needReply = false ∧
      server.session.confTs < checkTs server.files server.session.ip then
    armOut epollOk { server with session := { server.session with needReply := true } }
  else server

-- the reading part of `reply_conf`; a failure runs `free_session_step1`
def readConf (written : Bool) (next : ConfPath → WorkerPc) (server : Server) : Server :=
  match openConf server.files server.session.ip with
  | none => { server with worker := .closed }
  | some (opened, file) =>
      match replyBytes file.content with
      | none => { server with worker := .closed }
      | some bytes =>
          if written then { server with sent := some bytes, worker := next opened }
          else { server with worker := .closed }

def statConf (opened : ConfPath) (server : Server) : Int :=
  match server.files opened with
  | some file => file.ts
  | none => -1

def Server.step (server : Server) : Action → Option Server
  | .update path content ctime =>
      if server.clock < ctime ∧ ctime < 2147483648 then
        some { server with
          files := Function.update server.files path
            (some { content := content, ctime := ctime })
          clock := ctime }
      else none
  | .read written =>
      match server.worker with
      | .accepting => some (readConf written .acceptStat server)
      | .reply => some (readConf written .stat server)
      | _ => none
  | .stat =>
      match server.worker with
      | .acceptStat opened =>
          let fts := statConf opened server
          if fts < 0 then some { server with worker := .closed }
          else
            let session := { getNewSession server.session.ip with confTs := fts }
            some { server with session := session, interest := session.events, worker := .idle }
      | .stat opened =>
          let fts := statConf opened server
          some { server with worker := if fts < 0 then .closed else .store fts }
      | _ => none
  | .store =>
      match server.worker with
      | .store fts => some { server with
          session := { server.session with confTs := fts }, worker := .disarm }
      | _ => none
  | .scan epollOk =>
      if server.worker.registered then some (scanForReply epollOk server) else none
  | .wake =>
      if server.worker = .idle ∧ server.armed = true then
        if server.session.needReply then some { server with
          session := { server.session with needReply := false }, worker := .reply }
        else some { server with worker := .disarm }
      else none
  | .disarm epollOk =>
      if server.worker = .disarm then
        let events := server.session.events &&& ~~~epollOut
        if epollOk then some { server with
          session := { server.session with events := events }
          interest := events
          worker := .idle }
        else some { server with worker := .idle }
      else none
  | .close => some { server with worker := .closed }

def startServer (files : Files) (clock : Nat) (ip : BitVec 32) : Server where
  files := files
  clock := clock
  session := getNewSession ip
  worker := .accepting
  interest := 0
  sent := none

/-- Files whose timestamps an `int` holds, none of them in the future. -/
def Dated (files : Files) (clock : Nat) : Prop :=
  clock < 2147483648 ∧ ∀ path file, files path = some file → file.ctime ≤ clock

def machine : Machine Server Action where
  init server := ∃ files clock ip, Dated files clock ∧ server = startServer files clock ip
  step := Server.step

def oneConf (path : ConfPath) (content : List UInt8) : Files :=
  Function.update (fun _ => none) path (some { content := content, ctime := 1 })

def Action.closes : Action → Bool
  | .read _ => true
  | .stat => true
  | .close => true
  | _ => false

inductive Stepped (server : Server) : Action → Server → Prop
  | update {path content ctime} : server.clock < ctime → ctime < 2147483648 →
      Stepped server (.update path content ctime) { server with
        files := Function.update server.files path (some { content := content, ctime := ctime })
        clock := ctime }
  | close {action} : action.closes = true →
      Stepped server action { server with worker := .closed }
  | accepted {opened file bytes} : server.worker = .accepting →
      openConf server.files server.session.ip = some (opened, file) →
      replyBytes file.content = some bytes →
      Stepped server (.read true) { server with sent := some bytes, worker := .acceptStat opened }
  | replied {opened file bytes} : server.worker = .reply →
      openConf server.files server.session.ip = some (opened, file) →
      replyBytes file.content = some bytes →
      Stepped server (.read true) { server with sent := some bytes, worker := .stat opened }
  | registered {opened session} : server.worker = .acceptStat opened →
      session = { getNewSession server.session.ip with confTs := statConf opened server } →
      Stepped server .stat { server with
        session := session, interest := session.events, worker := .idle }
  | statted {opened} : server.worker = .stat opened →
      Stepped server .stat { server with worker := .store (statConf opened server) }
  | stored {fts} : server.worker = .store fts →
      Stepped server .store { server with
        session := { server.session with confTs := fts }, worker := .disarm }
  | seen {epollOk} : server.worker.registered = true →
      ¬(server.session.needReply = false ∧
        server.session.confTs < checkTs server.files server.session.ip) →
      Stepped server (.scan epollOk) server
  | due {epollOk} : server.worker.registered = true → server.session.needReply = false →
      server.session.confTs < checkTs server.files server.session.ip →
      Stepped server (.scan epollOk)
        (armOut epollOk { server with session := { server.session with needReply := true } })
  | woken : server.worker = .idle → server.armed = true → Stepped server .wake { server with
      session := { server.session with needReply := false }, worker := .reply }
  | idled : server.worker = .idle → server.armed = true →
      Stepped server .wake { server with worker := .disarm }
  | disarmed : server.worker = .disarm → Stepped server (.disarm true) { server with
      session := { server.session with events := server.session.events &&& ~~~epollOut }
      interest := server.session.events &&& ~~~epollOut
      worker := .idle }
  | kept : server.worker = .disarm → Stepped server (.disarm false) { server with worker := .idle }

theorem readConf_cases (written : Bool) (next : ConfPath → WorkerPc) (server : Server) :
    readConf written next server = { server with worker := .closed } ∨
    ∃ opened file bytes, written = true ∧
      openConf server.files server.session.ip = some (opened, file) ∧
      replyBytes file.content = some bytes ∧
      readConf written next server = { server with sent := some bytes, worker := next opened } := by
  simp only [readConf]
  cases found : openConf server.files server.session.ip with
  | none => exact .inl rfl
  | some pair =>
      obtain ⟨opened, file⟩ := pair
      cases reply : replyBytes file.content with
      | none => exact .inl (by simp only [reply])
      | some bytes =>
          cases written with
          | false => exact .inl (by simp [reply])
          | true => exact .inr ⟨opened, file, bytes, rfl, rfl, reply, by simp [reply]⟩

theorem step_cases {server after : Server} {action : Action}
    (stepped : server.step action = some after) : Stepped server action after := by
  cases action with
  | update path content ctime =>
      simp only [Server.step] at stepped
      split at stepped
      · rename_i later
        exact Option.some.inj stepped ▸ .update later.1 later.2
      · contradiction
  | read written =>
      cases pc : server.worker <;> simp only [Server.step, pc] at stepped <;> try contradiction
      case accepting =>
        rw [← Option.some.inj stepped]
        obtain failed | ⟨opened, file, bytes, rfl, found, reply, sent⟩ :=
          readConf_cases written .acceptStat server
        · exact failed ▸ .close rfl
        · exact sent ▸ .accepted pc found reply
      case reply =>
        rw [← Option.some.inj stepped]
        obtain failed | ⟨opened, file, bytes, rfl, found, reply, sent⟩ :=
          readConf_cases written .stat server
        · exact failed ▸ .close rfl
        · exact sent ▸ .replied pc found reply
  | stat =>
      cases pc : server.worker <;> simp only [Server.step, pc] at stepped <;> try contradiction
      case acceptStat opened =>
        split at stepped
        · exact Option.some.inj stepped ▸ .close rfl
        · exact Option.some.inj stepped ▸ .registered pc rfl
      case stat opened =>
        by_cases failed : statConf opened server < 0
        · simp only [failed, if_true] at stepped
          exact Option.some.inj stepped ▸ .close rfl
        · simp only [failed, if_false] at stepped
          exact Option.some.inj stepped ▸ .statted pc
  | store =>
      cases pc : server.worker <;> simp only [Server.step, pc] at stepped <;> try contradiction
      case store fts => exact Option.some.inj stepped ▸ .stored pc
  | scan epollOk =>
      simp only [Server.step, scanForReply] at stepped
      split at stepped
      · rename_i registered
        split at stepped
        · rename_i due
          exact Option.some.inj stepped ▸ .due registered due.1 due.2
        · rename_i quiet
          exact Option.some.inj stepped ▸ .seen registered quiet
      · contradiction
  | wake =>
      simp only [Server.step] at stepped
      split at stepped
      · rename_i reported
        split at stepped
        · exact Option.some.inj stepped ▸ .woken reported.1 reported.2
        · exact Option.some.inj stepped ▸ .idled reported.1 reported.2
      · contradiction
  | disarm epollOk =>
      simp only [Server.step] at stepped
      split at stepped
      · rename_i pc
        cases epollOk with
        | true => exact Option.some.inj stepped ▸ .disarmed pc
        | false => exact Option.some.inj stepped ▸ .kept pc
      · contradiction
  | close => exact Option.some.inj stepped ▸ .close rfl

end DirtyCode.ConfSrv
