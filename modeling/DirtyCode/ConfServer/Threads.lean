import DirtyCode.ConfServer.AddressIndex
import DirtyCode.ConfServer.Handshake
import DirtyCode.ConfServer.Pass

/-!
The threads of `confServer.c` over one table of sessions: `get_input_thread`,
`scan_for_reply_thread`, the main thread in `accept_client`, and the workers in
`drain_client` and `free_session_step1`, each by its accesses to what they share.
-/

namespace DirtyCode.ConfServer

open Lib

inductive AcceptPc
  | idle
  | created (session : Session)
  | stored (ip : BitVec 32) (thread : Int) (slot : Nat)
  | numbered (ip : BitVec 32) (slot : Nat)

inductive WorkPc
  | parse (i j : Nat)
  | visit (thread slot : Nat)

structure Server where
  shared : Handshake
  tables : Tables
  memory : Memory
  accepting : AcceptPc
  closing : Int → Option Nat -- the session that a worker has still to mark
  work : WorkPc

inductive ServerStep
  | tick
  | acceptCreate (ip : BitVec 32)
  | acceptStore (epollOk : Bool)
  | acceptNumber
  | acceptIndex
  | drain (thread : Int) (slot : Nat)
  | closeIndex (place : Option (Int × Nat)) -- none: the session in no slot yet
  | closeMark (thread : Int)
  | inputRead (bytes : List UInt8)
  | input (label : HandshakeStep)
  | scanTotal
  | scanTest
  | parseTurn (fuel : Nat)
  | parseDone
  | visit (fuel : Nat) (write : Nat → List UInt8 → Int)
  | nextThread
  | scanPass

def lookupInside (nWorkers : Nat) (text : List UInt8) : Bool :=
  match scanAddress text with
  | none => true
  | some (a, b, c, d) =>
      let index := parseIndex b c d
      let thread := parseThread nWorkers (parseIpv4 a b c d)
      0 ≤ index ∧ index < totalIpv4s ∧ 0 ≤ thread ∧ thread < nWorkers

-- one turn of the loop of `parse_input_conf`, undefined for a lookup outside the tables
def parseTurn (cfg : Config) (total fuel : Nat) (parse : Parse) : Option Parse :=
  (lineEnd parse.memory cfg.globalInputBuf total fuel parse.i).bind fun i =>
    if i = total then some { parse with i := i }
    else
      let line := cfg.globalInputBuf + parse.i
      let memory := parse.memory.set (cfg.globalInputBuf + i) 0
      let text := memory.slice line (i - parse.i)
      if lookupInside cfg.nWorkers text then
        parseLine cfg fuel line text { parse with memory := memory, i := i + 1 }
      else none

def Tables.mapSessions (tables : Tables) (change : Session → Session) : Tables :=
  { tables with sessionArray := fun thread slot => (tables.sessionArray thread slot).map change }

-- `s->last_alive_tick = gstats.ticks` of `drain_client`
def Session.drain (ticks : Nat) (session : Session) : Session :=
  if session.slotIdx < 0 then session else { session with lastAliveTick := ticks }

-- `s->slot_idx = slot_idx`
def Session.place (slot : Nat) (session : Session) : Session := { session with slotIdx := slot }

-- `s->to_be_free = 1`, for the session behind a worker's pointer
def Session.markNumber (number : Nat) (session : Session) : Session :=
  if session.number = number then session.markFree else session

def AcceptPc.markNumber (number : Nat) : AcceptPc → AcceptPc
  | .created session => .created (session.markNumber number)
  | pc => pc

def Tables.changeSlot (tables : Tables) (thread : Int) (slot : Nat) (change : Session → Session) :
    Tables :=
  tables.setSlot thread slot ((tables.sessionArray thread slot).map change)

def Server.sessionAt (server : Server) : Option (Int × Nat) → Option Session
  | some (thread, slot) => server.tables.sessionArray thread slot
  | none =>
      match server.accepting with
      | .created session => some session
      | _ => none

def HandshakeStep.ofInput : HandshakeStep → Bool
  | .inputEof => true
  | .inputStore => true
  | .inputAnnounce => true
  | .inputWait => true
  | _ => false

def Server.acceptStore (server : Server) (session : Session) (epollOk : Bool) : Server :=
  let slot := server.tables.getFreeConnSlot session.threadidx
  if epollOk = true ∧ 0 ≤ slot then
    { server with
      tables := { server.tables.setSlot session.threadidx slot.toNat (some session) with
        accepted := server.tables.accepted + 1 }
      accepting := .stored session.ip session.threadidx slot.toNat }
  else { server with tables := clearIndex session server.tables, accepting := .idle }

def Server.step (cfg : Setup) (server : Server) : ServerStep → Option Server
  | .tick => -- `periodic` runs in the thread that accepts
      match server.accepting with
      | .idle => some { server with tables :=
        { server.tables with ticks := server.tables.ticks + 1 } }
      | _ => none
  | .acceptCreate ip =>
      match server.accepting with
      | .idle =>
          if slotKey ip < totalIpv4s then
            some { server with accepting := .created (getNewSession ip
              (acceptThread cfg.nWorkers ip) server.tables.ticks server.tables.accepted) }
          else none
      | _ => none
  | .acceptStore epollOk =>
      match server.accepting with
      | .created session => some (server.acceptStore session epollOk)
      | _ => none
  | .acceptNumber =>
      match server.accepting with
      | .stored ip thread slot =>
          some { server with
            tables := server.tables.changeSlot thread slot (Session.place slot)
            accepting := .numbered ip slot }
      | _ => none
  | .acceptIndex =>
      match server.accepting with
      | .numbered ip slot =>
          some { server with
            tables := server.tables.setIndex (slotKey ip) slot
            accepting := .idle }
      | _ => none
  | .drain thread slot =>
      some { server with
        tables := server.tables.changeSlot thread slot (Session.drain server.tables.ticks) }
  | .closeIndex place =>
      match server.sessionAt place with
      | none => none
      | some session =>
          if server.closing session.threadidx = none then
            some { server with
              tables := clearIndex session server.tables
              closing := Function.update server.closing session.threadidx (some session.number) }
          else none
  | .closeMark thread =>
      match server.closing thread with
      | none => none
      | some number =>
          some { server with
            tables := server.tables.mapSessions (Session.markNumber number)
            accepting := server.accepting.markNumber number
            closing := Function.update server.closing thread none }
  | .inputRead bytes =>
      (server.shared.step cfg.nWorkers (.inputRead bytes.length)).map fun shared =>
        { server with
          shared := shared
          memory := server.memory.memcpy cfg.globalInputBuf (fun offset => bytes.getD offset 0)
            bytes.length }
  | .input label =>
      if label.ofInput then
        (server.shared.step cfg.nWorkers label).map fun shared => { server with shared := shared }
      else none
  | .scanTotal =>
      (server.shared.step cfg.nWorkers .scanTotal).map fun shared =>
        { server with shared := shared }
  | .scanTest =>
      (server.shared.step cfg.nWorkers .scanTest).map fun shared =>
        { server with
          shared := shared
          work := if shared.scan.busy then .parse 0 0 else .visit 0 0 }
  | .parseTurn fuel =>
      match server.shared.scan, server.work with
      | .parse total, .parse i j =>
          if i < total then
            (parseTurn cfg.toConfig total fuel ⟨server.memory, server.tables, i, j⟩).map
              fun parse =>
              { server with
                memory := parse.memory
                tables := parse.tables
                work := .parse parse.i parse.j }
          else none
      | _, _ => none
  | .parseDone =>
      match server.shared.scan, server.work with
      | .parse total, .parse i _ =>
          if total ≤ i then
            (server.shared.step cfg.nWorkers .scanParse).map fun shared =>
              { server with shared := shared, work := .visit 0 0 }
          else none
      | _, _ => none
  | .visit fuel write =>
      match server.shared.scan, server.work with
      | .pass _, .visit thread slot =>
          if thread < cfg.nWorkers ∧ slot < maxConnPerThread then
            (scanSlot cfg.toConfig fuel write thread slot
              ⟨server.memory, server.tables, fun _ _ => []⟩).map fun scan =>
                { server with
                  memory := scan.memory
                  tables := scan.tables
                  work := .visit thread (slot + 1) }
          else none
      | _, _ => none
  | .nextThread =>
      match server.shared.scan, server.work with
      | .pass _, .visit thread slot =>
          if thread < cfg.nWorkers ∧ slot = maxConnPerThread then
            some { server with work := .visit (thread + 1) 0 }
          else none
      | _, _ => none
  | .scanPass =>
      match server.work with
      | .visit thread _ =>
          if thread = cfg.nWorkers then
            (server.shared.step cfg.nWorkers .scanPass).map fun shared =>
              { server with shared := shared }
          else none
      | _ => none

def startServer (memory : Memory) : Server where
  shared := startHandshake
  tables := startTables
  memory := memory
  accepting := .idle
  closing := fun _ => none
  work := .visit 0 0

def serverMachine (cfg : Setup) : Machine Server ServerStep where
  init server := ∃ memory, server = startServer memory
  step := Server.step cfg

/-- The turns of the loop are those of `parse_input_conf`. -/
theorem parseLines_of_turn {cfg : Config} {total fuel : Nat} {parse next : Parse}
    (more : parse.i < total) (turned : parseTurn cfg total fuel parse = some next) (count : Nat) :
    parseLines cfg total fuel (count + 2) parse = parseLines cfg total fuel (count + 1) next := by
  obtain ⟨i, found, rest⟩ := Option.bind_eq_some_iff.mp turned
  rw [parseLines, if_pos more, found, Option.bind_some]
  split at rest
  · rename_i ended
    obtain rfl := Option.some.inj rest
    rw [if_pos ended, parseLines, if_neg (by simp only; omega)]
  · rename_i inner
    dsimp only at rest
    split at rest
    · rw [if_neg inner]
      dsimp only
      rw [rest, Option.bind_some]
    · contradiction

/-- Undisturbed, the stores of an accept that finds a slot are those of `accept_client`. -/
theorem accept_undisturbed (cfg : Setup) {server : Server} {ip : BitVec 32}
    (idle : server.accepting = .idle) (fits : slotKey ip < totalIpv4s)
    (room : ¬server.tables.Full (acceptThread cfg.nWorkers ip)) :
    (serverMachine cfg).run server
        [.acceptCreate ip, .acceptStore true, .acceptNumber, .acceptIndex] =
      some { server with
        tables := acceptClient cfg.nWorkers ip true true server.tables
        accepting := .idle } := by
  obtain ⟨slot, -, -, found⟩ | ⟨-, full⟩ :=
    server.tables.getFreeConnSlot_cases (acceptThread cfg.nWorkers ip)
  · have placed : (0 : Int) ≤ slot := Int.natCast_nonneg slot
    simp only [Machine.run, serverMachine, Server.step, idle, fits, if_true, Option.bind_some,
      Server.acceptStore, getNewSession, found, placed, and_self, acceptClient,
      Bool.true_eq_false, if_false, Int.toNat_natCast, fillSlot, Tables.changeSlot]
    simp [Tables.setSlot, Tables.setIndex, Session.place]
  · exact absurd full room

end DirtyCode.ConfServer
