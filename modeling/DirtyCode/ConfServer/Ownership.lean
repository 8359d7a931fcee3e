import DirtyCode.ConfServer.Delivery
import DirtyCode.ConfServer.Threads

/-!
Queued replies point into `global_input_buf`: what keeps them away from the next
read, and the free that does not.
-/

namespace DirtyCode.ConfServer

open Lib

/-- A queued reply that the pass has still to come to. -/
def Due (scan : ScanPc) (work : WorkPc) (thread : Int) (slot : Nat) : Prop :=
  match scan, work with
  | .parse _, _ => True
  | .pass true, .visit first place => first < thread ∨ first = thread ∧ place ≤ slot
  | _, _ => False

structure Settled (nWorkers : Nat) (server : Server) (thread : Int) (slot : Nat)
    (session : Session) : Prop where
  worker : 0 ≤ thread ∧ thread < nWorkers
  inside : slot < maxConnPerThread
  own : session.threadidx = thread
  placed : session.slotIdx = slot ∨ session.slotIdx = -1 ∧
    session.lastAliveTick = server.tables.ticks ∧ ∃ ip, server.accepting = .stored ip thread slot
  drained : session.replyData ≠ 0 → Due server.shared.scan server.work thread slot

structure Pending (nWorkers ticks : Nat) (session : Session) : Prop where
  worker : 0 ≤ session.threadidx ∧ session.threadidx < nWorkers
  unplaced : session.slotIdx = -1
  recent : session.lastAliveTick = ticks
  idle : session.replyData = 0

structure Owned (nWorkers : Nat) (server : Server) : Prop where
  guarded : server.shared.Guarded
  pending : ∀ session, server.accepting = .created session →
    Pending nWorkers server.tables.ticks session
  settled : ∀ thread slot session, server.tables.sessionArray thread slot = some session →
    Settled nWorkers server thread slot session

def NoReplyWhileReading (server : Server) : Prop :=
  server.shared.input = .read → Quiet server.tables

def WriteFails (fuel : Nat) (write : Nat → List UInt8 → Int) (memory : Memory)
    (session : Session) : Prop :=
  session.replyData ≠ 0 ∧ ∃ after bytes,
    writeReplies write fuel fuel 0 session.replyData memory [] = some (after, bytes, true)

/-- The pass frees no session whose `slot_idx` is not stored yet. -/
def FreesNumbered (server : Server) : ServerStep → Prop
  | .visit fuel write => ∀ thread slot session, server.work = .visit thread slot →
      server.tables.sessionArray thread slot = some session → session.slotIdx = -1 →
        session.toBeFree ≠ 1 ∧ ¬WriteFails fuel write server.memory session
  | _ => True

theorem Owned.quiet {nWorkers : Nat} {server : Server} (owned : Owned nWorkers server)
    (unbusy : server.shared.scan.busy = false) : Quiet server.tables := by
  intro thread slot session entry
  by_contra queued
  have due := (owned.settled thread slot session entry).drained queued
  revert due unbusy
  cases server.shared.scan with
  | total => simp [Due]
  | test total => simp [Due]
  | parse total => simp [ScanPc.busy]
  | pass needAckInputThread =>
      cases needAckInputThread with
      | true => simp [ScanPc.busy]
      | false => simp [Due]

theorem Owned.noReply {nWorkers : Nat} {server : Server} (owned : Owned nWorkers server) :
    NoReplyWhileReading server := by
  intro reading
  apply owned.quiet
  by_contra busy
  have waiting := owned.guarded.waiting (owned.guarded.busy (by simpa using busy))
  rw [reading] at waiting
  contradiction

theorem owned_start (nWorkers : Nat) (memory : Memory) : Owned nWorkers (startServer memory) where
  guarded := guarded_start
  pending := by
    intro session impossible
    contradiction
  settled := by
    intro thread slot session impossible
    contradiction

/-- What a thread may do to a session without harm to the invariant. -/
structure Session.Alike (before after : Session) : Prop where
  thread : after.threadidx = before.threadidx
  slot : after.slotIdx = before.slotIdx
  unplaced : before.slotIdx = -1 → after.lastAliveTick = before.lastAliveTick

theorem Session.Alike.refl (session : Session) : session.Alike session :=
  ⟨rfl, rfl, fun _ => rfl⟩

theorem Session.alike_markNumber (number : Nat) (session : Session) :
    session.Alike (session.markNumber number) := by
  rw [Session.markNumber]
  split
  · exact ⟨rfl, rfl, fun _ => rfl⟩
  · exact .refl session

theorem Session.replyData_markNumber (number : Nat) (session : Session) :
    (session.markNumber number).replyData = session.replyData := by
  rw [Session.markNumber]
  split
  · rfl
  · rfl

theorem Session.alike_drain (ticks : Nat) (session : Session) :
    session.Alike (session.drain ticks) := by
  rw [Session.drain]
  split
  · exact .refl session
  · rename_i placed
    exact ⟨rfl, rfl, fun unplaced => absurd unplaced (by omega)⟩

theorem Session.replyData_drain (ticks : Nat) (session : Session) :
    (session.drain ticks).replyData = session.replyData := by
  rw [Session.drain]
  split
  · rfl
  · rfl

theorem Tables.changeSlot_entry {tables : Tables} {thread other : Int} {slot place : Nat}
    {change : Session → Session} {after : Session}
    (entry : (tables.changeSlot thread slot change).sessionArray other place = some after) :
    (other = thread ∧ place = slot) ∧
      (∃ session, tables.sessionArray other place = some session ∧ change session = after) ∨
    ¬(other = thread ∧ place = slot) ∧ tables.sessionArray other place = some after := by
  rcases (Tables.setSlot_eq_some _ _ _ _ _ _ _).mp entry with ⟨here, changed⟩ | elsewhere
  · obtain ⟨rfl, rfl⟩ := here
    exact .inl ⟨⟨rfl, rfl⟩, Option.map_eq_some_iff.mp changed⟩
  · exact .inr elsewhere

section Carry

variable {nWorkers : Nat} {server after : Server} {thread : Int} {slot : Nat}
  {session changed : Session}

theorem Settled.carry (settled : Settled nWorkers server thread slot session)
    (alike : session.Alike changed) (ticks : after.tables.ticks = server.tables.ticks)
    (accepting : ∀ ip, server.accepting = .stored ip thread slot →
      after.accepting = .stored ip thread slot)
    (due : changed.replyData ≠ 0 → Due after.shared.scan after.work thread slot) :
    Settled nWorkers after thread slot changed where
  worker := settled.worker
  inside := settled.inside
  own := alike.thread.trans settled.own
  placed := by
    rw [alike.slot, ticks]
    rcases settled.placed with numbered | ⟨unplaced, recent, ip, stored⟩
    · exact .inl numbered
    · exact .inr ⟨unplaced, (alike.unplaced unplaced).trans recent, ip, accepting ip stored⟩
  drained := due

theorem Settled.numbered (settled : Settled nWorkers server thread slot session)
    (elsewhere : ∀ ip, server.accepting ≠ .stored ip thread slot) : session.slotIdx = slot := by
  rcases settled.placed with numbered | ⟨-, -, ip, stored⟩
  · exact numbered
  · exact absurd stored (elsewhere ip)

theorem Settled.renew (settled : Settled nWorkers server thread slot session)
    (elsewhere : ∀ ip, server.accepting ≠ .stored ip thread slot)
    (shared : after.shared = server.shared) (work : after.work = server.work) :
    Settled nWorkers after thread slot session where
  worker := settled.worker
  inside := settled.inside
  own := settled.own
  placed := .inl (settled.numbered elsewhere)
  drained := by
    rw [shared, work]
    exact settled.drained

theorem Pending.carry {ticks : Nat} (pending : Pending nWorkers ticks session)
    (alike : session.Alike changed) (reply : changed.replyData = session.replyData) :
    Pending nWorkers ticks changed where
  worker := by
    rw [alike.thread]
    exact pending.worker
  unplaced := alike.slot.trans pending.unplaced
  recent := (alike.unplaced pending.unplaced).trans pending.recent
  idle := reply.trans pending.idle

end Carry

section Accept

variable {cfg : Setup} {server after : Server}

theorem owned_tick (owned : Owned cfg.nWorkers server)
    (stepped : server.step cfg .tick = some after) : Owned cfg.nWorkers after := by
  simp only [Server.step] at stepped
  split at stepped
  · rename_i idle
    obtain rfl := Option.some.inj stepped
    refine ⟨owned.guarded, ?_, ?_⟩
    · intro session created
      simp [idle] at created
    · intro thread slot session entry
      exact (owned.settled thread slot session entry).renew (by simp [idle]) rfl rfl
  · contradiction

theorem owned_acceptCreate {ip : BitVec 32} (owned : Owned cfg.nWorkers server)
    (stepped : server.step cfg (.acceptCreate ip) = some after) : Owned cfg.nWorkers after := by
  simp only [Server.step] at stepped
  split at stepped
  · rename_i idle
    split at stepped
    · obtain rfl := Option.some.inj stepped
      refine ⟨owned.guarded, ?_, ?_⟩
      · intro session created
        obtain rfl := AcceptPc.created.inj created
        exact ⟨acceptThread_inside cfg.positive ip, rfl, rfl, rfl⟩
      · intro thread slot session entry
        exact (owned.settled thread slot session entry).renew (by simp [idle]) rfl rfl
    · contradiction
  · contradiction

theorem owned_acceptStore {epollOk : Bool} (owned : Owned cfg.nWorkers server)
    (stepped : server.step cfg (.acceptStore epollOk) = some after) : Owned cfg.nWorkers after := by
  simp only [Server.step] at stepped
  split at stepped
  · rename_i session created
    obtain rfl := Option.some.inj stepped
    have pending := owned.pending session created
    have elsewhere : ∀ thread slot ip, server.accepting ≠ .stored ip thread slot := by
      simp [created]
    rw [Server.acceptStore]
    split
    · rename_i room
      refine ⟨owned.guarded, ?_, ?_⟩
      · intro other impossible
        contradiction
      · intro thread slot other entry
        rcases (Tables.setSlot_eq_some _ _ _ _ _ _ _).mp entry with ⟨here, filled⟩ | ⟨-, kept⟩
        · obtain ⟨rfl, rfl⟩ := here
          obtain rfl := Option.some.inj filled
          refine ⟨pending.worker, ?_, rfl, .inr ⟨pending.unplaced, pending.recent, _, rfl⟩, ?_⟩
          · obtain ⟨slot, below, -, found⟩ | ⟨missing, -⟩ :=
              server.tables.getFreeConnSlot_cases session.threadidx
            · rw [found]
              exact below
            · omega
          · intro queued
            exact absurd pending.idle queued
        · exact (owned.settled thread slot other kept).renew (elsewhere thread slot) rfl rfl
    · refine ⟨owned.guarded, ?_, ?_⟩
      · intro other impossible
        contradiction
      · intro thread slot other entry
        exact (owned.settled thread slot other entry).renew (elsewhere thread slot) rfl rfl
  · contradiction

theorem owned_acceptNumber (owned : Owned cfg.nWorkers server)
    (stepped : server.step cfg .acceptNumber = some after) : Owned cfg.nWorkers after := by
  simp only [Server.step] at stepped
  split at stepped
  · rename_i ip thread slot stored
    obtain rfl := Option.some.inj stepped
    refine ⟨owned.guarded, ?_, ?_⟩
    · intro session impossible
      contradiction
    · intro other place changed entry
      rcases Tables.changeSlot_entry entry with ⟨here, session, kept, rfl⟩ | ⟨apart, kept⟩
      · obtain ⟨rfl, rfl⟩ := here
        have settled := owned.settled other place session kept
        exact ⟨settled.worker, settled.inside, settled.own, .inl rfl, settled.drained⟩
      · refine (owned.settled other place changed kept).renew ?_ rfl rfl
        intro rival same
        rw [stored] at same
        obtain ⟨-, rfl, rfl⟩ := AcceptPc.stored.inj same
        exact apart ⟨rfl, rfl⟩
  · contradiction

theorem owned_acceptIndex (owned : Owned cfg.nWorkers server)
    (stepped : server.step cfg .acceptIndex = some after) : Owned cfg.nWorkers after := by
  simp only [Server.step] at stepped
  split at stepped
  · rename_i ip slot numbered
    obtain rfl := Option.some.inj stepped
    refine ⟨owned.guarded, ?_, ?_⟩
    · intro session impossible
      contradiction
    · intro thread place session entry
      exact (owned.settled thread place session entry).renew (by simp [numbered]) rfl rfl
  · contradiction

end Accept

section Worker

variable {cfg : Setup} {server after : Server}

theorem owned_drain {thread : Int} {slot : Nat} (owned : Owned cfg.nWorkers server)
    (stepped : server.step cfg (.drain thread slot) = some after) : Owned cfg.nWorkers after := by
  obtain rfl := Option.some.inj stepped
  refine ⟨owned.guarded, owned.pending, ?_⟩
  intro other place changed entry
  rcases Tables.changeSlot_entry entry with ⟨-, session, kept, rfl⟩ | ⟨-, kept⟩
  · have settled := owned.settled other place session kept
    refine settled.carry (session.alike_drain _) rfl (fun _ stored => stored) ?_
    rw [Session.replyData_drain]
    exact settled.drained
  · have settled := owned.settled other place changed kept
    exact settled.carry (.refl changed) rfl (fun _ stored => stored) settled.drained

theorem owned_closeIndex {place : Option (Int × Nat)} (owned : Owned cfg.nWorkers server)
    (stepped : server.step cfg (.closeIndex place) = some after) : Owned cfg.nWorkers after := by
  simp only [Server.step] at stepped
  split at stepped
  · contradiction
  · split at stepped
    · obtain rfl := Option.some.inj stepped
      refine ⟨owned.guarded, owned.pending, ?_⟩
      intro thread slot session entry
      have settled := owned.settled thread slot session entry
      exact settled.carry (.refl session) rfl (fun _ stored => stored) settled.drained
    · contradiction

theorem owned_closeMark {thread : Int} (owned : Owned cfg.nWorkers server)
    (stepped : server.step cfg (.closeMark thread) = some after) : Owned cfg.nWorkers after := by
  simp only [Server.step] at stepped
  split at stepped
  · contradiction
  · rename_i number marking
    obtain rfl := Option.some.inj stepped
    refine ⟨owned.guarded, ?_, ?_⟩
    · intro changed created
      cases pc : server.accepting with
      | created session =>
          rw [pc] at created
          obtain rfl := AcceptPc.created.inj created
          exact (owned.pending session pc).carry (session.alike_markNumber number)
            (session.replyData_markNumber number)
      | idle | stored _ _ _ | numbered _ _ =>
          rw [pc] at created
          contradiction
    · intro other place changed entry
      obtain ⟨session, kept, rfl⟩ := Option.map_eq_some_iff.mp entry
      have settled := owned.settled other place session kept
      refine settled.carry (session.alike_markNumber number) rfl ?_ ?_
      · intro ip stored
        rw [stored]
        rfl
      · rw [Session.replyData_markNumber]
        exact settled.drained

end Worker

section Input

variable {cfg : Setup} {server after : Server}

theorem Handshake.Moved.scan_input {nWorkers : Nat} {shared next : Handshake}
    {label : HandshakeStep} (moved : shared.Moved nWorkers label next)
    (input : label.ofInput = true ∨ ∃ rc, label = .inputRead rc) : next.scan = shared.scan := by
  cases moved with
  | read _ | eof _ | store _ | announce _ | wait _ _ | resume _ _ => rfl
  | total _ | idle _ _ | accept _ _ | parse _ | acknowledge _ | unasked _ =>
      simp [HandshakeStep.ofInput] at input

theorem Owned.input (owned : Owned cfg.nWorkers server) {label : HandshakeStep}
    (input : label.ofInput = true ∨ ∃ rc, label = .inputRead rc) {shared : Handshake}
    (stepped : server.shared.step cfg.nWorkers label = some shared) (memory : Memory) :
    Owned cfg.nWorkers { server with shared := shared, memory := memory } := by
  have moved := Handshake.step_cases stepped
  have same := moved.scan_input input
  refine ⟨owned.guarded.step moved cfg.positive, owned.pending, ?_⟩
  intro thread slot session entry
  have settled := owned.settled thread slot session entry
  refine settled.carry (.refl session) rfl (fun _ stored => stored) ?_
  rw [same]
  exact settled.drained

theorem owned_inputRead {bytes : List UInt8} (owned : Owned cfg.nWorkers server)
    (stepped : server.step cfg (.inputRead bytes) = some after) : Owned cfg.nWorkers after := by
  obtain ⟨shared, moved, rfl⟩ := Option.map_eq_some_iff.mp stepped
  exact owned.input (.inr ⟨_, rfl⟩) moved _

theorem owned_input {label : HandshakeStep} (owned : Owned cfg.nWorkers server)
    (stepped : server.step cfg (.input label) = some after) : Owned cfg.nWorkers after := by
  simp only [Server.step] at stepped
  split at stepped
  · rename_i input
    obtain ⟨shared, moved, rfl⟩ := Option.map_eq_some_iff.mp stepped
    exact owned.input (.inl input) moved server.memory
  · contradiction

end Input

section Scan

variable {cfg : Setup} {server after : Server}

theorem Owned.scan (owned : Owned cfg.nWorkers server) {shared : Handshake} {work : WorkPc}
    (guarded : shared.Guarded)
    (due : ∀ thread slot session, Settled cfg.nWorkers server thread slot session →
      Due server.shared.scan server.work thread slot → Due shared.scan work thread slot) :
    Owned cfg.nWorkers { server with shared := shared, work := work } := by
  refine ⟨guarded, owned.pending, ?_⟩
  intro thread slot session entry
  have settled := owned.settled thread slot session entry
  refine settled.carry (.refl session) rfl (fun _ stored => stored) ?_
  intro queued
  exact due thread slot session settled (settled.drained queued)

theorem owned_scanTotal (owned : Owned cfg.nWorkers server)
    (stepped : server.step cfg .scanTotal = some after) : Owned cfg.nWorkers after := by
  obtain ⟨shared, moved, rfl⟩ := Option.map_eq_some_iff.mp stepped
  have guarded := owned.guarded.step (Handshake.step_cases moved) cfg.positive
  cases Handshake.step_cases moved with
  | total pc =>
      refine owned.scan guarded ?_
      intro thread slot session _ due
      simp [pc, Due] at due

theorem owned_scanTest (owned : Owned cfg.nWorkers server)
    (stepped : server.step cfg .scanTest = some after) : Owned cfg.nWorkers after := by
  obtain ⟨shared, moved, rfl⟩ := Option.map_eq_some_iff.mp stepped
  have guarded := owned.guarded.step (Handshake.step_cases moved) cfg.positive
  refine owned.scan guarded ?_
  intro thread slot session _ due
  cases Handshake.step_cases moved with
  | idle pc _ => simp [pc, Due] at due
  | accept pc _ => simp [pc, Due] at due

/-- Every session behind a change was there before, but for its reply and times. -/
def Tables.Keeps (before after : Tables) : Prop :=
  after.ticks = before.ticks ∧ ∀ thread slot changed,
    after.sessionArray thread slot = some changed →
      ∃ session, before.sessionArray thread slot = some session ∧ session.Alike changed

theorem Tables.Keeps.refl (tables : Tables) : tables.Keeps tables := by
  refine ⟨rfl, ?_⟩
  intro thread slot session entry
  exact ⟨session, entry, .refl session⟩

theorem Tables.keeps_setSlot {tables : Tables} {thread : Int} {slot : Nat}
    {session changed : Session} (entry : tables.sessionArray thread slot = some session)
    (alike : session.Alike changed) : tables.Keeps (tables.setSlot thread slot (some changed)) := by
  refine ⟨rfl, ?_⟩
  intro other place found held
  rcases (Tables.setSlot_eq_some _ _ _ _ _ _ _).mp held with ⟨here, filled⟩ | ⟨-, kept⟩
  · obtain ⟨rfl, rfl⟩ := here
    obtain rfl := Option.some.inj filled
    exact ⟨session, entry, alike⟩
  · exact ⟨found, kept, .refl found⟩

theorem linkReply_alike {fuel line : Nat} {session changed : Session} {memory next : Memory}
    (linked : linkReply fuel line session memory = some (changed, next)) :
    session.Alike changed := by
  rw [linkReply] at linked
  split at linked
  · obtain ⟨rfl, -⟩ := Prod.mk.inj (Option.some.inj linked)
    exact ⟨rfl, rfl, fun _ => rfl⟩
  · obtain ⟨ptr, -, same⟩ := Option.map_eq_some_iff.mp linked
    obtain ⟨rfl, -⟩ := Prod.mk.inj same
    exact .refl session

theorem deliverLine_keeps {fuel line : Nat} {thread : Int} {slot : Nat} {session : Session}
    {parse next : Parse} (entry : parse.tables.sessionArray thread slot = some session)
    (delivered : deliverLine fuel line thread slot session parse = some next) :
    parse.tables.Keeps next.tables := by
  obtain ⟨j, -, rest⟩ := Option.bind_eq_some_iff.mp delivered
  split at rest
  · obtain rfl := Option.some.inj rest
    exact .refl _
  · obtain ⟨⟨changed, memory⟩, linked, rfl⟩ := Option.map_eq_some_iff.mp rest
    exact Tables.keeps_setSlot entry (linkReply_alike linked)

theorem parseLine_keeps {cfg : Config} {fuel line : Nat} {text : List UInt8} {parse next : Parse}
    (parsed : parseLine cfg fuel line text parse = some next) :
    parse.tables.Keeps next.tables := by
  rw [parseLine] at parsed
  split at parsed
  · obtain rfl := Option.some.inj parsed
    exact .refl _
  · split at parsed
    · obtain rfl := Option.some.inj parsed
      exact .refl _
    · rename_i thread slot session found
      exact deliverLine_keeps (lookupSession_entry found) parsed

theorem parseTurn_keeps {cfg : Config} {total fuel : Nat} {parse next : Parse}
    (turned : parseTurn cfg total fuel parse = some next) : parse.tables.Keeps next.tables := by
  obtain ⟨i, -, rest⟩ := Option.bind_eq_some_iff.mp turned
  split at rest
  · obtain rfl := Option.some.inj rest
    exact .refl _
  · dsimp only at rest
    split at rest
    · exact (parseLine_keeps rest :)
    · contradiction

theorem owned_parseTurn {fuel : Nat} (owned : Owned cfg.nWorkers server)
    (stepped : server.step cfg (.parseTurn fuel) = some after) : Owned cfg.nWorkers after := by
  simp only [Server.step] at stepped
  split at stepped
  · rename_i total i j parsing working
    split at stepped
    · obtain ⟨parse, turned, rfl⟩ := Option.map_eq_some_iff.mp stepped
      obtain ⟨ticks, entries⟩ := parseTurn_keeps turned
      refine ⟨owned.guarded, ?_, ?_⟩
      · intro session created
        exact ticks ▸ owned.pending session created
      · intro thread slot changed entry
        obtain ⟨session, kept, alike⟩ := entries thread slot changed entry
        refine (owned.settled thread slot session kept).carry alike ticks
          (fun _ stored => stored) ?_
        intro _
        simp [parsing, Due]
    · contradiction
  · contradiction

theorem owned_parseDone (owned : Owned cfg.nWorkers server)
    (stepped : server.step cfg .parseDone = some after) : Owned cfg.nWorkers after := by
  simp only [Server.step] at stepped
  split at stepped
  · split at stepped
    · obtain ⟨shared, moved, rfl⟩ := Option.map_eq_some_iff.mp stepped
      have guarded := owned.guarded.step (Handshake.step_cases moved) cfg.positive
      refine owned.scan guarded ?_
      intro thread slot session settled _
      have worker := settled.worker
      cases Handshake.step_cases moved with
      | parse pc =>
          simp only [Due]
          omega
    · contradiction
  · contradiction

theorem owned_nextThread (owned : Owned cfg.nWorkers server)
    (stepped : server.step cfg .nextThread = some after) : Owned cfg.nWorkers after := by
  simp only [Server.step] at stepped
  split at stepped
  · rename_i needAckInputThread first place passing visiting
    split at stepped
    · rename_i ended
      obtain rfl := Option.some.inj stepped
      refine owned.scan owned.guarded ?_
      intro thread slot session settled due
      have inside := settled.inside
      rw [passing, visiting] at due
      rw [passing]
      cases needAckInputThread with
      | false => exact due
      | true =>
          simp only [Due] at due ⊢
          omega
    · contradiction
  · contradiction

theorem owned_scanPass (owned : Owned cfg.nWorkers server)
    (stepped : server.step cfg .scanPass = some after) : Owned cfg.nWorkers after := by
  simp only [Server.step] at stepped
  split at stepped
  · rename_i first place visiting
    split at stepped
    · rename_i ended
      obtain ⟨shared, moved, rfl⟩ := Option.map_eq_some_iff.mp stepped
      have guarded := owned.guarded.step (Handshake.step_cases moved) cfg.positive
      refine owned.scan guarded ?_
      intro thread slot session settled due
      have worker := settled.worker
      rw [visiting] at due
      cases Handshake.step_cases moved with
      | acknowledge pc =>
          rw [pc] at due
          simp only [Due] at due
          omega
      | unasked pc => simp [pc, Due] at due
    · contradiction
  · contradiction

structure Visited (thread : Int) (slot : Nat) (before after : Tables) : Prop where
  keeps : before.Keeps after
  others : ∀ other place, ¬(other = thread ∧ place = slot) →
    after.sessionArray other place = before.sessionArray other place
  idle : ∀ session, after.sessionArray thread slot = some session → session.replyData = 0

theorem visited_deleted {thread : Int} {slot : Nat} {before after : Tables}
    (ticks : after.ticks = before.ticks) (empty : after.sessionArray thread slot = none)
    (others : ∀ other place, ¬(other = thread ∧ place = slot) →
      after.sessionArray other place = before.sessionArray other place) :
    Visited thread slot before after := by
  refine ⟨⟨ticks, ?_⟩, others, ?_⟩
  · intro other place session entry
    by_cases here : other = thread ∧ place = slot
    · obtain ⟨rfl, rfl⟩ := here
      rw [empty] at entry
      contradiction
    · rw [others other place here] at entry
      exact ⟨session, entry, .refl session⟩
  · intro session entry
    rw [empty] at entry
    contradiction

theorem visited_refl {thread : Int} {slot : Nat} {tables : Tables}
    (idle : ∀ session, tables.sessionArray thread slot = some session → session.replyData = 0) :
    Visited thread slot tables tables := ⟨.refl tables, fun _ _ _ => rfl, idle⟩

theorem visited_delSession {thread : Int} {slot : Nat} {session : Session} {tables : Tables}
    (placed : session.threadidx = thread ∧ session.slotIdx = slot) :
    Visited thread slot tables (delSession thread slot session tables) := by
  rw [delSession_eq placed]
  refine visited_deleted rfl (Tables.setSlot_self _ _ _ _) ?_
  intro other place apart
  exact Tables.setSlot_other _ _ apart

theorem scanSlot_visited {fuel : Nat} {write : Nat → List UInt8 → Int} {thread : Int} {slot : Nat}
    {scan next : Scan} (ran : scanSlot cfg.toConfig fuel write thread slot scan = some next)
    (placed : ∀ session, scan.tables.sessionArray thread slot = some session →
      (session.threadidx = thread ∧ session.slotIdx = slot) ∨
      (session.forceDue cfg.toConfig scan.tables.ticks = false ∧ session.toBeFree ≠ 1 ∧
        ¬WriteFails fuel write scan.memory session)) :
    Visited thread slot scan.tables next.tables := by
  rw [scanSlot] at ran
  split at ran
  · rename_i empty
    obtain rfl := Option.some.inj ran
    apply visited_refl
    intro session entry
    rw [empty] at entry
    contradiction
  · rename_i session present
    have either := placed session present
    split at ran
    · rename_i forced
      obtain rfl := Option.some.inj ran
      rcases either with here | ⟨alive, -, -⟩
      · exact visited_delSession here
      · rw [alive] at forced
        contradiction
    · split at ran
      · rename_i marked
        obtain rfl := Option.some.inj ran
        rcases either with here | ⟨-, unmarked, -⟩
        · rw [freeSessionStep2_eq here marked.symm]
          refine visited_deleted rfl (Tables.setSlot_self _ _ _ _) ?_
          intro other place apart
          exact Tables.setSlot_other _ _ apart
        · exact absurd marked.symm unmarked
      · split at ran
        · rename_i idle
          obtain rfl := Option.some.inj ran
          apply visited_refl
          intro other entry
          rw [present] at entry
          exact Option.some.inj entry ▸ idle
        · rename_i waiting
          obtain ⟨⟨memory, bytes, failed⟩, wrote, rfl⟩ := Option.map_eq_some_iff.mp ran
          cases failed with
          | false =>
              refine ⟨Tables.keeps_setSlot present ⟨rfl, rfl, fun _ => rfl⟩, ?_, ?_⟩
              · intro other place apart
                exact Tables.setSlot_other _ _ apart
              · intro other entry
                simp only [Bool.false_eq_true, if_false, Tables.setSlot_self] at entry
                obtain rfl := Option.some.inj entry
                rfl
          | true =>
              rcases either with here | ⟨-, -, succeeds⟩
              · have same : session.replied.threadidx = thread ∧ session.replied.slotIdx = slot :=
                  here
                simp only [if_true]
                rw [delSession_eq same]
                refine visited_deleted rfl (Tables.setSlot_self _ _ _ _) ?_
                intro other place apart
                rw [Tables.setSlot_other _ _ apart]
                exact Tables.setSlot_other _ _ apart
              · exact absurd ⟨waiting, memory, bytes, wrote⟩ succeeds

theorem owned_visit {fuel : Nat} {write : Nat → List UInt8 → Int}
    (owned : Owned cfg.nWorkers server)
    (numbered : FreesNumbered server (.visit fuel write))
    (stepped : server.step cfg (.visit fuel write) = some after) : Owned cfg.nWorkers after := by
  simp only [Server.step] at stepped
  split at stepped
  · rename_i needAckInputThread first place passing visiting
    split at stepped
    · obtain ⟨scan, ran, rfl⟩ := Option.map_eq_some_iff.mp stepped
      have visited := scanSlot_visited ran (by
        intro session entry
        have settled := owned.settled first place session entry
        rcases settled.placed with here | ⟨unplaced, recent, -⟩
        · exact .inl ⟨settled.own, here⟩
        · right
          refine ⟨?_, numbered first place session visiting entry unplaced⟩
          simp only [Session.forceDue, recent, decide_eq_false_iff_not]
          omega)
      obtain ⟨ticks, entries⟩ := visited.keeps
      refine ⟨owned.guarded, ?_, ?_⟩
      · intro session created
        exact ticks ▸ owned.pending session created
      · intro thread slot changed entry
        obtain ⟨session, kept, alike⟩ := entries thread slot changed entry
        have settled := owned.settled thread slot session kept
        refine settled.carry alike ticks (fun _ stored => stored) ?_
        intro queued
        by_cases here : thread = first ∧ slot = place
        · obtain ⟨rfl, rfl⟩ := here
          exact absurd (visited.idle changed entry) queued
        · rw [visited.others thread slot here] at entry
          have due := (owned.settled thread slot changed entry).drained queued
          rw [passing, visiting] at due
          rw [passing]
          cases needAckInputThread with
          | false => exact due
          | true =>
              simp only [Due] at due ⊢
              omega
    · contradiction
  · contradiction

end Scan

theorem owned_step {cfg : Setup} {server after : Server} {label : ServerStep}
    (owned : Owned cfg.nWorkers server) (numbered : FreesNumbered server label)
    (stepped : server.step cfg label = some after) : Owned cfg.nWorkers after := by
  cases label with
  | tick => exact owned_tick owned stepped
  | acceptCreate ip => exact owned_acceptCreate owned stepped
  | acceptStore epollOk => exact owned_acceptStore owned stepped
  | acceptNumber => exact owned_acceptNumber owned stepped
  | acceptIndex => exact owned_acceptIndex owned stepped
  | drain thread slot => exact owned_drain owned stepped
  | closeIndex place => exact owned_closeIndex owned stepped
  | closeMark thread => exact owned_closeMark owned stepped
  | inputRead bytes => exact owned_inputRead owned stepped
  | input label => exact owned_input owned stepped
  | scanTotal => exact owned_scanTotal owned stepped
  | scanTest => exact owned_scanTest owned stepped
  | parseTurn fuel => exact owned_parseTurn owned stepped
  | parseDone => exact owned_parseDone owned stepped
  | visit fuel write => exact owned_visit owned numbered stepped
  | nextThread => exact owned_nextThread owned stepped
  | scanPass => exact owned_scanPass owned stepped

/-- In every run whose passes free no session before its `slot_idx` is stored, no
session has a reply queued while the input thread may read. -/
theorem no_reply_while_reading (cfg : Setup) {server : Server}
    (reached : (serverMachine cfg).Reachable FreesNumbered server) :
    NoReplyWhileReading server := by
  have owned : Owned cfg.nWorkers server := by
    apply reached.invariant
    · rintro start ⟨memory, rfl⟩
      exact owned_start cfg.nWorkers memory
    · intro before label after kept numbered stepped
      exact owned_step kept numbered stepped
  exact owned.noReply

/-- No visit comes between the store of a slot and that of its `slot_idx`. -/
def Undisturbed (server : Server) : ServerStep → Prop
  | .visit _ _ => ∀ ip thread slot, server.accepting ≠ .stored ip thread slot
  | _ => True

theorem Owned.freesNumbered {nWorkers : Nat} {server : Server} {label : ServerStep}
    (owned : Owned nWorkers server) (undisturbed : Undisturbed server label) :
    FreesNumbered server label := by
  cases label with
  | visit fuel write =>
      intro thread slot session _ entry unplaced
      have placed := (owned.settled thread slot session entry).numbered
        fun ip => undisturbed ip thread slot
      rw [unplaced] at placed
      omega
  | _ => trivial

theorem no_reply_while_reading_of_undisturbed (cfg : Setup) {server : Server}
    (reached : (serverMachine cfg).Reachable Undisturbed server) :
    NoReplyWhileReading server := by
  have owned : Owned cfg.nWorkers server := by
    apply reached.invariant
    · rintro start ⟨memory, rfl⟩
      exact owned_start cfg.nWorkers memory
    · intro before label after kept undisturbed stepped
      exact owned_step kept (kept.freesNumbered undisturbed) stepped
  exact owned.noReply

section Visits

variable (cfg : Setup) {server : Server} {needAckInputThread : Bool} {thread : Nat}
  (worker : thread < cfg.nWorkers) (passing : server.shared.scan = .pass needAckInputThread)
  (fuel : Nat) (write : Nat → List UInt8 → Int)

include worker passing

theorem step_visit_empty {slot : Nat} (visiting : server.work = .visit thread slot)
    (inside : slot < maxConnPerThread) (empty : server.tables.sessionArray thread slot = none) :
    (serverMachine cfg).step server (.visit fuel write) =
      some { server with work := .visit thread (slot + 1) } := by
  have bound : thread < cfg.nWorkers ∧ slot < maxConnPerThread := ⟨worker, inside⟩
  have skipped : scanSlot cfg.toConfig fuel write thread slot
      ⟨server.memory, server.tables, fun _ _ => []⟩ = some _ := scanSlot_empty empty
  simp only [serverMachine, Server.step, passing, visiting, bound, and_self, if_true, skipped,
    Option.map_some]

theorem run_visits (slot count : Nat) (visiting : server.work = .visit thread slot)
    (fits : slot + count ≤ maxConnPerThread)
    (empty : ∀ place, slot ≤ place → server.tables.sessionArray thread place = none) :
    (serverMachine cfg).run server (List.replicate count (.visit fuel write)) =
        some { server with work := .visit thread (slot + count) } ∧
      (serverMachine cfg).Along (fun server label _ => FreesNumbered server label) server
        (List.replicate count (.visit fuel write)) := by
  induction count generalizing server slot with
  | zero =>
      rw [Nat.add_zero, ← visiting]
      exact ⟨rfl, trivial⟩
  | succ count ih =>
      have stepped := step_visit_empty cfg worker passing fuel write visiting (by omega)
        (empty slot le_rfl)
      obtain ⟨rest, numbered⟩ := @ih { server with work := .visit thread (slot + 1) } passing
        (slot + 1) rfl (by omega) fun place lower => empty place (by omega)
      have counted : slot + 1 + count = slot + (count + 1) := by omega
      rw [List.replicate_succ]
      constructor
      · rw [Machine.run_cons stepped, rest, counted]
      · intro after moved
        obtain rfl := Option.some.inj (stepped.symm.trans moved)
        refine ⟨?_, numbered⟩
        intro other place session here entry
        obtain ⟨rfl, rfl⟩ := WorkPc.visit.inj (visiting.symm.trans here)
        rw [empty slot le_rfl] at entry
        contradiction

end Visits

def defaultSetup : Setup where
  toConfig := oneWorker
  positive := by decide
  bounded := by decide

def noWrite : Nat → List UInt8 → Int := fun _ _ => -1

def emptySlots : List ServerStep := List.replicate 409599 (.visit 0 noWrite)

def Server.passed (server : Server) : Server :=
  { server with work := .visit 0 maxConnPerThread }

theorem run_emptySlots {server : Server} {needAckInputThread : Bool}
    (passing : server.shared.scan = .pass needAckInputThread) (visiting : server.work = .visit 0 1)
    (empty : ∀ place, server.tables.sessionArray 0 (place + 1) = none) :
    (serverMachine defaultSetup).run server emptySlots = some server.passed ∧
      (serverMachine defaultSetup).Along (fun server label _ => FreesNumbered server label) server
        emptySlots := by
  apply run_visits defaultSetup (by decide) passing 0 noWrite 1 409599 visiting (by decide)
  intro place lower
  obtain ⟨place, rfl⟩ := Nat.exists_eq_add_of_le' lower
  exact empty place

-- 1.0.0.1 is accepted, and its line is announced, parsed and queued
def queuedFirst : List ServerStep :=
  [.acceptCreate 0x01000001#32, .acceptStore true, .acceptNumber, .acceptIndex,
    .inputRead [49, 46, 48, 46, 48, 46, 49, 32, 97, 10], .input .inputStore, .input .inputAnnounce,
    .scanTotal, .scanTest, .parseTurn 32, .parseDone]

def wholeReply : Nat → List UInt8 → Int := fun _ bytes => bytes.length

def acknowledged : List ServerStep := [.nextThread, .scanPass, .input .inputWait]

theorem no_reply_while_reading_answered :
    ∃ queued visited after,
      (serverMachine defaultSetup).run (startServer fun _ => 0) queuedFirst = some queued ∧
      ¬Quiet queued.tables ∧ queued.step defaultSetup (.visit 32 wholeReply) = some visited ∧
      (serverMachine defaultSetup).run visited (emptySlots ++ acknowledged) = some after ∧
      after.shared.input = .read ∧ NoReplyWhileReading after := by
  have asked : ((serverMachine defaultSetup).run (startServer fun _ => 0) queuedFirst).map
      (fun queued => (queued.work, (queued.tables.sessionArray 0 0).map fun session =>
        (session.slotIdx, session.replyData))) = some (.visit 0 0, some (0, 4096)) := by
    rfl
  have answered : ∀ place, ((serverMachine defaultSetup).run (startServer fun _ => 0)
      queuedFirst).bind (fun queued =>
        (queued.step defaultSetup (.visit 32 wholeReply)).map fun visited =>
          (visited.shared.scan, visited.work, visited.tables.sessionArray 0 (place + 1))) =
      some (.pass true, .visit 0 1, none) := by
    intro place
    rfl
  have reading : ((serverMachine defaultSetup).run (startServer fun _ => 0) queuedFirst).bind
      (fun queued => (queued.step defaultSetup (.visit 32 wholeReply)).bind fun visited =>
        ((serverMachine defaultSetup).run visited.passed acknowledged).map fun after =>
          after.shared.input) = some .read := by
    rfl
  obtain ⟨queued, began, outcome⟩ := Option.map_eq_some_iff.mp asked
  rw [began, Option.bind_some] at reading
  obtain ⟨visited, stepped, ended⟩ := Option.bind_eq_some_iff.mp reading
  obtain ⟨after, finished, idle⟩ := Option.map_eq_some_iff.mp ended
  simp only [began, stepped, Option.bind_some, Option.map_some, Option.some.injEq,
    Prod.mk.injEq] at answered outcome
  obtain ⟨session, entry, shown⟩ := Option.map_eq_some_iff.mp outcome.2
  obtain ⟨placed, reply⟩ := Prod.mk.inj shown
  obtain ⟨passed, numbered⟩ := run_emptySlots (answered 0).1 (answered 0).2.1 fun place =>
    (answered place).2.2
  have waiting : ¬Quiet queued.tables := by
    intro quiet
    have none := quiet 0 0 session entry
    rw [reply] at none
    contradiction
  have reached : (serverMachine defaultSetup).Reachable FreesNumbered queued := by
    refine Machine.Reachable.of_run (.start ⟨fun _ => 0, rfl⟩) (Machine.along_of_mem ?_ _) began
    simp [queuedFirst, FreesNumbered]
  have dropped : (serverMachine defaultSetup).Reachable FreesNumbered visited := by
    refine .next (.visit 32 wholeReply) reached ?_ stepped
    intro thread slot other visiting present unplaced
    rw [outcome.1] at visiting
    obtain ⟨rfl, rfl⟩ := WorkPc.visit.inj visiting
    obtain rfl := Option.some.inj (entry.symm.trans present)
    rw [placed] at unplaced
    contradiction
  have quiet : (serverMachine defaultSetup).Reachable FreesNumbered after := by
    refine (dropped.of_run numbered passed).of_run (Machine.along_of_mem ?_ _) finished
    simp [acknowledged, FreesNumbered]
  exact ⟨queued, visited, after, began, waiting, stepped, Machine.run_trans passed finished, idle,
    no_reply_while_reading defaultSetup quiet⟩

-- 1.0.0.1 is closed and freed between the stores of its slot and of its index
def staleIndex : List ServerStep :=
  [.acceptCreate 0x01000001#32, .acceptStore true, .acceptNumber, .closeIndex (some (0, 0)),
    .closeMark 0, .scanTotal, .scanTest, .visit 0 noWrite]

-- the line of 1.0.0.1 finds 2.0.0.2, which is closed before its `slot_idx` is stored
def unplacedFree : List ServerStep :=
  [.nextThread, .scanPass, .acceptIndex, .acceptCreate 0x02000002#32, .acceptStore true,
    .inputRead [49, 46, 48, 46, 48, 46, 49, 32, 97, 10], .input .inputStore, .input .inputAnnounce,
    .scanTotal, .scanTest, .parseTurn 32, .parseDone, .closeIndex (some (0, 0)), .closeMark 0,
    .visit 0 noWrite]

def replySurvives : List ServerStep :=
  staleIndex ++ (emptySlots ++ (unplacedFree ++ (emptySlots ++ acknowledged)))

theorem reply_survives_pass :
    ∃ server, (serverMachine defaultSetup).run (startServer fun _ => 0) replySurvives =
      some server ∧ ¬NoReplyWhileReading server := by
  have stale : ∀ place, ((serverMachine defaultSetup).run (startServer fun _ => 0)
      staleIndex).map (fun first =>
        (first.shared.scan, first.work, first.tables.sessionArray 0 (place + 1))) =
      some (.pass false, .visit 0 1, none) := by
    intro place
    rfl
  have freed : ∀ place, ((serverMachine defaultSetup).run (startServer fun _ => 0)
      staleIndex).bind (fun first =>
        ((serverMachine defaultSetup).run first.passed unplacedFree).map fun second =>
          (second.shared.scan, second.work, second.tables.sessionArray 0 (place + 1))) =
      some (.pass true, .visit 0 1, none) := by
    intro place
    rfl
  have reading : ((serverMachine defaultSetup).run (startServer fun _ => 0) staleIndex).bind
      (fun first => ((serverMachine defaultSetup).run first.passed unplacedFree).bind fun second =>
        ((serverMachine defaultSetup).run second.passed acknowledged).map fun third =>
          (third.shared.input, (third.tables.sessionArray 0 0).map Session.replyData)) =
      some (.read, some 4096) := by
    rfl
  obtain ⟨first, began, -⟩ := Option.map_eq_some_iff.mp (stale 0)
  rw [began, Option.bind_some] at reading
  obtain ⟨second, went, ended⟩ := Option.bind_eq_some_iff.mp reading
  obtain ⟨third, finished, outcome⟩ := Option.map_eq_some_iff.mp ended
  simp only [began, went, Option.bind_some, Option.map_some, Option.some.injEq,
    Prod.mk.injEq] at stale freed outcome
  refine ⟨third, ?_, ?_⟩
  · apply Machine.run_trans began
    apply Machine.run_trans (run_emptySlots (stale 0).1 (stale 0).2.1 fun place =>
      (stale place).2.2).1
    apply Machine.run_trans went
    apply Machine.run_trans (run_emptySlots (freed 0).1 (freed 0).2.1 fun place =>
      (freed place).2.2).1
    exact finished
  · intro safe
    obtain ⟨session, entry, queued⟩ := Option.map_eq_some_iff.mp outcome.2
    have idle := safe outcome.1 0 0 session entry
    rw [idle] at queued
    contradiction

end DirtyCode.ConfServer
