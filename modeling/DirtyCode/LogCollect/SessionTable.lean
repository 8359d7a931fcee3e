import DirtyCode.Lib.Machine
import DirtyCode.LogCollect.DiskThread

/-!
The table of sessions of `logCollectSrv.c`: the slots that `accept_client` fills,
the stages in which a session leaves its slot, and the counters of connections.
-/

namespace DirtyCode.LogCollect

open Lib

def maxConnPerThread : Nat := 409600

structure Entry where
  threadidx : Nat
  session : Session

structure Server where
  heap : Nat → Option Entry
  sessionArray : Nat → Nat → Nat -- addresses, 0 for `NULL`
  currNrConn : Nat → Int
  ticks : Nat

def freeSlotFrom (slots : Nat → Nat) : Nat → Nat → Int
  | _, 0 => -1
  | slot, count + 1 => if slots slot = 0 then slot else freeSlotFrom slots (slot + 1) count

namespace Server

def getFreeConnSlot (server : Server) (thread : Nat) : Int :=
  freeSlotFrom (server.sessionArray thread) 0 maxConnPerThread

def setSlot (server : Server) (thread slot address : Nat) : Server :=
  { server with
    sessionArray := Function.update server.sessionArray thread
      (Function.update (server.sessionArray thread) slot address) }

def count (server : Server) (thread : Nat) (change : Int) : Server :=
  { server with
    currNrConn := Function.update server.currNrConn thread (server.currNrConn thread + change) }

def setEntry (server : Server) (address : Nat) (entry : Option Entry) : Server :=
  { server with heap := Function.update server.heap address entry }

def change (server : Server) (address : Nat) (update : Session → Session) : Server :=
  server.setEntry address ((server.heap address).map fun entry =>
    { entry with session := update entry.session })

def freeSessionStep1 (server : Server) (address : Nat) : Server :=
  server.change address fun session => { session with inDeleteStage := 10 }

def freeSessionStep2 (server : Server) (address : Nat) : Server :=
  server.change address fun session =>
    { (if needsDelay session then delayFree session else session) with inDeleteStage := 20 }

def freeSessionRes (server : Server) (address : Nat) : Server :=
  server.change address fun session => { session with inDeleteStage := 30 }

def freeSessionFinal (server : Server) (address : Nat) : Server :=
  match server.heap address with
  | none => server
  | some entry =>
      let freed := server.setEntry address none
      if -1 < entry.session.slotIdx then
        (freed.count entry.threadidx (-1)).setSlot entry.threadidx entry.session.slotIdx.toNat 0
      else freed

def delSession (server : Server) (address : Nat) (immediately : Bool) : Server :=
  let closed := server.freeSessionStep1 address
  if (closed.heap address).any fun entry => needsDelay entry.session then
    closed.change address fun session => { delayFree session with inDeleteStage := 20 }
  else if immediately then (closed.freeSessionRes address).freeSessionFinal address
  else closed.freeSessionRes address

end Server

-- how the calls before the slot is taken end
inductive Outcome
  | acceptFails
  | noSession
  | noBuffer
  | created (address : Nat) (epollOk : Bool)

def acceptClient (nWorkers : Nat) (ip : BitVec 32) (sfd : Nat) (server : Server) :
    Outcome → Int × Server
  | .acceptFails => (-1, server)
  | .noSession => (-1, server)
  | .noBuffer => (-1, server)
  | .created address epollOk =>
      let threadIdx := ip.toNat % 256 % nWorkers
      let allocated := server.setEntry address
        (some { threadidx := threadIdx, session := getNewSession ip.toInt server.ticks })
      let slotIdx := allocated.getFreeConnSlot threadIdx
      if epollOk ∧ 0 ≤ slotIdx then
        (sfd, ((allocated.setSlot threadIdx slotIdx.toNat address).count threadIdx 1).change address
          fun session => { session with slotIdx := slotIdx })
      else
        (-1, ((allocated.freeSessionStep1 address).freeSessionRes address).freeSessionFinal address)

inductive TableStep
  | tick
  | accept (ip : BitVec 32) (sfd : Nat) (outcome : Outcome)
  | traffic (thread slot : Nat) (session : Session)
  | close (thread slot : Nat)
  | forcedFree (thread slot : Nat)
  | delayedFree (thread slot : Nat)
  | written (thread slot : Nat)

-- `calloc` returns an address that is not in use
def Outcome.Possible (server : Server) : Outcome → Prop
  | .created address _ => address ≠ 0 ∧ (server.heap address).isNone
  | _ => True

instance (server : Server) (outcome : Outcome) : Decidable (outcome.Possible server) := by
  cases outcome <;> unfold Outcome.Possible <;> infer_instance

def finishWritten (server : Server) (address : Nat) : Server :=
  match server.heap address with
  | none => server
  | some entry =>
      if entry.session.needDelayFree then
        if 0 < entry.session.membufOffset then
          server.change address fun session =>
            { session with
              diskBuf := some session.curBuf
              diskWriteBufLen := session.membufOffset
              membufOffset := 0 }
        else (server.freeSessionRes address).freeSessionFinal address
      else server

def Server.step (nWorkers : Nat) (server : Server) : TableStep → Option Server
  | .tick => some { server with ticks := server.ticks + 1 }
  | .accept ip sfd outcome =>
      if outcome.Possible server then some (acceptClient nWorkers ip sfd server outcome).2 else none
  | .traffic thread slot session =>
      (server.heap (server.sessionArray thread slot)).bind fun entry =>
        if session.slotIdx = entry.session.slotIdx then
          some (server.change (server.sessionArray thread slot) fun _ => session)
        else none
  | .close thread slot =>
      if server.sessionArray thread slot = 0 then none
      else
        some ((server.freeSessionStep1 (server.sessionArray thread slot)).freeSessionStep2
          (server.sessionArray thread slot))
  | .forcedFree thread slot =>
      if server.sessionArray thread slot = 0 then none
      else some (server.delSession (server.sessionArray thread slot) true)
  | .delayedFree thread slot =>
      if server.sessionArray thread slot = 0 then none
      else
        (server.heap (server.sessionArray thread slot)).bind fun entry =>
          if entry.session.inDeleteStage = 20 ∧ entry.session.needDelayFree = false then
            some ((server.freeSessionRes (server.sessionArray thread slot)).freeSessionFinal
              (server.sessionArray thread slot))
          else none
  | .written thread slot =>
      if server.sessionArray thread slot = 0 then none
      else some (finishWritten server (server.sessionArray thread slot))

def startServer : Server where
  heap := fun _ => none
  sessionArray := fun _ _ => 0
  currNrConn := fun _ => 0
  ticks := 0

def serverMachine (nWorkers : Nat) : Machine Server TableStep where
  init server := server = startServer
  step := Server.step nWorkers

def occupied (slots : Nat → Nat) : Nat :=
  ((Finset.range maxConnPerThread).filter fun slot => slots slot ≠ 0).card

/-- The counters count the slots, and every slot in use holds an allocated session of
its own that names this worker and slot. -/
structure TableRight (server : Server) : Prop where
  counted : ∀ thread, server.currNrConn thread = occupied (server.sessionArray thread)
  placed : ∀ thread slot, server.sessionArray thread slot ≠ 0 →
    ∃ entry, server.heap (server.sessionArray thread slot) = some entry ∧
      entry.threadidx = thread ∧ entry.session.slotIdx = slot ∧ slot < maxConnPerThread

/-- A failed accept leaves the table and the counters as they are. -/
def FailsClean (nWorkers : Nat) (server : Server) (label : TableStep) (after : Server) : Prop :=
  ∀ ip sfd outcome, label = .accept ip sfd outcome →
    (acceptClient nWorkers ip sfd server outcome).1 = -1 →
      after.sessionArray = server.sessionArray ∧ after.currNrConn = server.currNrConn

theorem TableRight.distinct {server : Server} (right : TableRight server)
    {thread slot other place : Nat}
    (used : server.sessionArray thread slot ≠ 0)
    (same : server.sessionArray thread slot = server.sessionArray other place) :
    thread = other ∧ slot = place := by
  obtain ⟨entry, held, owner, index, -⟩ := right.placed thread slot used
  obtain ⟨entry', held', owner', index', -⟩ := right.placed other place (same ▸ used)
  rw [← same, held] at held'
  obtain rfl := Option.some.inj held'
  exact ⟨owner.symm.trans owner', by omega⟩

theorem freeSlotFrom_spec (slots : Nat → Nat) (start count : Nat) :
    freeSlotFrom slots start count = -1 ∨
      ∃ slot : Nat, freeSlotFrom slots start count = slot ∧ slot < start + count ∧
        slots slot = 0 := by
  induction count generalizing start with
  | zero => exact .inl rfl
  | succ count ih =>
      rw [freeSlotFrom]
      by_cases free : slots start = 0
      · rw [if_pos free]
        exact .inr ⟨start, rfl, by omega, free⟩
      · rw [if_neg free]
        rcases ih (start + 1) with none_ | ⟨slot, found, below, empty⟩
        · exact .inl none_
        · exact .inr ⟨slot, found, by omega, empty⟩

theorem card_filter_update {size slot address : Nat} (slots : Nat → Nat) (inside : slot < size)
    (free : slots slot = 0) (nonnull : address ≠ 0) :
    ((Finset.range size).filter fun place => Function.update slots slot address place ≠ 0).card =
      ((Finset.range size).filter fun place => slots place ≠ 0).card + 1 := by
  have absent : slot ∉ (Finset.range size).filter fun place => slots place ≠ 0 := by
    simp [free]
  rw [← Finset.card_insert_of_notMem absent]
  congr 1
  ext place
  by_cases same : place = slot
  · simp [same, nonnull, inside]
  · simp [same]

theorem occupied_fill (slots : Nat → Nat) {slot address : Nat} (inside : slot < maxConnPerThread)
    (free : slots slot = 0) (nonnull : address ≠ 0) :
    occupied (Function.update slots slot address) = occupied slots + 1 :=
  card_filter_update slots inside free nonnull

theorem occupied_clear {slots : Nat → Nat} {slot : Nat} (inside : slot < maxConnPerThread)
    (used : slots slot ≠ 0) :
    occupied (Function.update slots slot 0) + 1 = occupied slots := by
  have refilled := occupied_fill (Function.update slots slot 0) inside
    (Function.update_self _ _ _) used
  rw [Function.update_idem, Function.update_eq_self] at refilled
  exact refilled.symm

theorem setSlot_sessionArray (server : Server) (thread slot address other place : Nat) :
    (server.setSlot thread slot address).sessionArray other place =
      if other = thread ∧ place = slot then address else server.sessionArray other place := by
  rw [Server.setSlot]
  by_cases same : other = thread
  · subst same
    by_cases here : place = slot
    · simp [here]
    · simp [here]
  · simp [same]

theorem right_start : TableRight startServer where
  counted thread := by
    have empty : ((Finset.range maxConnPerThread).filter fun slot =>
        startServer.sessionArray thread slot ≠ 0) = ∅ :=
      Finset.filter_eq_empty_iff.mpr fun _ _ used => used rfl
    rw [occupied, empty]
    rfl
  placed thread slot used := absurd rfl used

theorem TableRight.change {server : Server} (right : TableRight server) (address : Nat)
    {update : Session → Session}
    (kept : ∀ entry, server.heap address = some entry →
      (update entry.session).slotIdx = entry.session.slotIdx) :
    TableRight (server.change address update) where
  counted := right.counted
  placed := by
    intro thread slot used
    obtain ⟨entry, held, owner, index, inside⟩ := right.placed thread slot used
    by_cases same : server.sessionArray thread slot = address
    · refine ⟨{ entry with session := update entry.session }, ?_, owner, ?_, inside⟩
      · change Function.update server.heap address _ (server.sessionArray thread slot) = _
        rw [same, Function.update_self, ← same, held]
        rfl
      · exact (kept entry (same ▸ held)).trans index
    · refine ⟨entry, ?_, owner, index, inside⟩
      change Function.update server.heap address _ (server.sessionArray thread slot) = _
      rw [Function.update_of_ne same]
      exact held

theorem delayFree_slotIdx (session : Session) : (delayFree session).slotIdx = session.slotIdx := by
  rw [delayFree]
  split
  · rfl
  · rfl

theorem right_step1 {server : Server} (right : TableRight server) (address : Nat) :
    TableRight (server.freeSessionStep1 address) :=
  right.change address fun _ _ => rfl

theorem right_step2 {server : Server} (right : TableRight server) (address : Nat) :
    TableRight (server.freeSessionStep2 address) := by
  refine right.change address fun entry _ => ?_
  by_cases delayed : needsDelay entry.session = true
  · rw [if_pos delayed]
    exact delayFree_slotIdx entry.session
  · rw [if_neg delayed]

theorem right_res {server : Server} (right : TableRight server) (address : Nat) :
    TableRight (server.freeSessionRes address) :=
  right.change address fun _ _ => rfl

theorem right_final {server : Server} (right : TableRight server) {thread slot : Nat}
    (used : server.sessionArray thread slot ≠ 0) :
    TableRight (server.freeSessionFinal (server.sessionArray thread slot)) := by
  obtain ⟨entry, held, owner, index, inside⟩ := right.placed thread slot used
  have named : -1 < entry.session.slotIdx := by omega
  have place : entry.session.slotIdx.toNat = slot := by omega
  simp only [Server.freeSessionFinal, held, if_pos named, owner, place]
  constructor
  · intro other
    by_cases same : other = thread
    · subst same
      have less := occupied_clear inside used
      have before := right.counted other
      simp only [Server.setSlot, Server.count, Server.setEntry, Function.update_self]
      omega
    · simp only [Server.setSlot, Server.count, Server.setEntry, Function.update_of_ne same]
      exact right.counted other
  · intro other place used'
    rw [setSlot_sessionArray] at used' ⊢
    by_cases cleared : other = thread ∧ place = slot
    · rw [if_pos cleared] at used'
      exact absurd rfl used'
    rw [if_neg cleared] at used' ⊢
    have old : server.sessionArray other place ≠ 0 := used'
    obtain ⟨third, there, owner', index', inside'⟩ := right.placed other place old
    have apart : server.sessionArray other place ≠ server.sessionArray thread slot := by
      intro same
      obtain ⟨sameThread, sameSlot⟩ := right.distinct old same
      exact cleared ⟨sameThread, sameSlot⟩
    refine ⟨third, ?_, owner', index', inside'⟩
    change Function.update server.heap _ none (server.sessionArray other place) = _
    rw [Function.update_of_ne apart]
    exact there

theorem right_delSession {server : Server} (right : TableRight server) {thread slot : Nat}
    (used : server.sessionArray thread slot ≠ 0) :
    TableRight (server.delSession (server.sessionArray thread slot) true) := by
  have closed := right_step1 right (server.sessionArray thread slot)
  rw [Server.delSession]
  split
  · exact closed.change _ fun entry _ => delayFree_slotIdx entry.session
  · rw [if_pos rfl]
    exact right_final (right_res closed (server.sessionArray thread slot)) used

theorem right_finishWritten {server : Server} (right : TableRight server) {thread slot : Nat}
    (used : server.sessionArray thread slot ≠ 0) :
    TableRight (finishWritten server (server.sessionArray thread slot)) := by
  rw [finishWritten]
  split
  · exact right
  · split
    · split
      · exact right.change _ fun _ _ => rfl
      · exact right_final (right_res right (server.sessionArray thread slot)) used
    · exact right

theorem discard_session {server : Server} {address : Nat} (fresh : server.heap address = none)
    {entry : Entry} (outside : entry.session.slotIdx = -1) :
    (((server.setEntry address (some entry)).freeSessionStep1 address).freeSessionRes
      address).freeSessionFinal address = server := by
  have held : (((server.setEntry address (some entry)).freeSessionStep1 address).freeSessionRes
      address).heap address =
        some { entry with session := { entry.session with inDeleteStage := 30 } } := by
    simp [Server.freeSessionStep1, Server.freeSessionRes, Server.change, Server.setEntry]
  have unnamed : ¬-1 < entry.session.slotIdx := by omega
  simp only [Server.freeSessionFinal, held, if_neg unnamed]
  simp only [Server.freeSessionStep1, Server.freeSessionRes, Server.change, Server.setEntry,
    Function.update_idem]
  rw [← fresh, Function.update_eq_self]

theorem acceptClient_failed {nWorkers : Nat} {ip : BitVec 32} {sfd : Nat} {server : Server}
    {outcome : Outcome} (possible : outcome.Possible server)
    (failed : (acceptClient nWorkers ip sfd server outcome).1 = -1) :
    (acceptClient nWorkers ip sfd server outcome).2 = server := by
  cases outcome with
  | acceptFails => rfl
  | noSession => rfl
  | noBuffer => rfl
  | created address epollOk =>
      have fresh := Option.isNone_iff_eq_none.mp possible.2
      simp only [acceptClient] at failed ⊢
      split at failed
      · omega
      · rename_i full
        rw [if_neg full]
        exact discard_session fresh rfl

theorem right_fill {server : Server} (right : TableRight server) {address : Nat}
    (nonnull : address ≠ 0) (fresh : server.heap address = none) {thread slot : Nat}
    (inside : slot < maxConnPerThread) (free : server.sessionArray thread slot = 0) {entry : Entry}
    (owner : entry.threadidx = thread) :
    TableRight ((((server.setEntry address (some entry)).setSlot thread slot address).count
      thread 1).change address fun session => { session with slotIdx := slot }) where
  counted := by
    intro other
    by_cases same : other = thread
    · subst same
      have more := occupied_fill (server.sessionArray other) inside free nonnull
      have before := right.counted other
      simp only [Server.change, Server.setSlot, Server.count, Server.setEntry,
        Function.update_self]
      omega
    · simp only [Server.change, Server.setSlot, Server.count, Server.setEntry,
        Function.update_of_ne same]
      exact right.counted other
  placed := by
    intro other place used
    change (Server.setSlot server thread slot address).sessionArray other place ≠ 0 at used
    change ∃ found, Function.update (Function.update server.heap address (some entry)) address
      ((Function.update server.heap address (some entry) address).map _)
        ((Server.setSlot server thread slot address).sessionArray other place) = some found ∧ _
    rw [Function.update_idem, Function.update_self]
    rw [setSlot_sessionArray] at used ⊢
    by_cases here : other = thread ∧ place = slot
    · rw [if_pos here]
      rw [Function.update_self]
      exact ⟨_, rfl, owner.trans here.1.symm, by rw [here.2], by rw [here.2]; exact inside⟩
    · rw [if_neg here] at used ⊢
      obtain ⟨third, held, owner', index', inside'⟩ := right.placed other place used
      have apart : server.sessionArray other place ≠ address := by
        intro same
        rw [same, fresh] at held
        contradiction
      rw [Function.update_of_ne apart]
      exact ⟨third, held, owner', index', inside'⟩

theorem right_accept {nWorkers : Nat} {ip : BitVec 32} {sfd : Nat} {server : Server}
    {outcome : Outcome} (right : TableRight server) (possible : outcome.Possible server) :
    TableRight (acceptClient nWorkers ip sfd server outcome).2 := by
  by_cases failed : (acceptClient nWorkers ip sfd server outcome).1 = -1
  · rw [acceptClient_failed possible failed]
    exact right
  cases outcome with
  | acceptFails => exact absurd rfl failed
  | noSession => exact absurd rfl failed
  | noBuffer => exact absurd rfl failed
  | created address epollOk =>
      obtain ⟨nonnull, unused⟩ := possible
      have fresh := Option.isNone_iff_eq_none.mp unused
      simp only [acceptClient] at failed ⊢
      have search := freeSlotFrom_spec (server.sessionArray (ip.toNat % 256 % nWorkers)) 0
        maxConnPerThread
      split at failed
      · rename_i ready
        rw [if_pos ready]
        have result := ready.2
        simp only [Server.getFreeConnSlot, Server.setEntry] at result ⊢
        rcases search with none_ | ⟨slot, found, inside, free⟩
        · omega
        · rw [found]
          exact right_fill right nonnull fresh (by omega) free rfl
      · exact absurd rfl failed

theorem right_step {nWorkers : Nat} {server after : Server} {label : TableStep}
    (right : TableRight server) (stepped : server.step nWorkers label = some after) :
    TableRight after := by
  cases label with
  | tick =>
      obtain rfl := Option.some.inj stepped
      exact ⟨right.counted, right.placed⟩
  | accept ip sfd outcome =>
      simp only [Server.step] at stepped
      split at stepped
      · rename_i possible
        obtain rfl := Option.some.inj stepped
        exact right_accept right possible
      · contradiction
  | traffic thread slot session =>
      obtain ⟨entry, held, stepped⟩ := Option.bind_eq_some_iff.mp stepped
      split at stepped
      · rename_i same
        obtain rfl := Option.some.inj stepped
        refine right.change _ fun other held' => ?_
        rw [held] at held'
        rw [← Option.some.inj held']
        exact same
      · contradiction
  | close thread slot =>
      simp only [Server.step] at stepped
      split at stepped
      · contradiction
      · obtain rfl := Option.some.inj stepped
        exact right_step2 (right_step1 right _) _
  | forcedFree thread slot =>
      simp only [Server.step] at stepped
      split at stepped
      · contradiction
      · rename_i used
        obtain rfl := Option.some.inj stepped
        exact right_delSession right used
  | delayedFree thread slot =>
      simp only [Server.step] at stepped
      split at stepped
      · contradiction
      · rename_i used
        obtain ⟨entry, held, stepped⟩ := Option.bind_eq_some_iff.mp stepped
        split at stepped
        · obtain rfl := Option.some.inj stepped
          exact right_final (right_res right (server.sessionArray thread slot)) used
        · contradiction
  | written thread slot =>
      simp only [Server.step] at stepped
      split at stepped
      · contradiction
      · rename_i used
        obtain rfl := Option.some.inj stepped
        exact right_finishWritten right used

theorem failsClean_step {nWorkers : Nat} {server after : Server} {label : TableStep}
    (stepped : server.step nWorkers label = some after) :
    FailsClean nWorkers server label after := by
  rintro ip sfd outcome rfl failed
  simp only [Server.step] at stepped
  split at stepped
  · rename_i possible
    obtain rfl := Option.some.inj stepped
    rw [acceptClient_failed possible failed]
    exact ⟨rfl, rfl⟩
  · contradiction

/-- After any accepts, closes and frees the counters count the slots in use, these hold
allocated sessions of their own, and an accept that failed has changed neither. -/
theorem session_table_right (nWorkers : Nat) (labels : List TableStep) :
    (serverMachine nWorkers).Along
      (fun server label after => TableRight after ∧
        (∀ thread slot other place, after.sessionArray thread slot ≠ 0 →
          after.sessionArray thread slot = after.sessionArray other place →
            thread = other ∧ slot = place) ∧
        FailsClean nWorkers server label after) startServer labels := by
  refine Machine.Along.of_invariant TableRight ?_ right_start
    (Machine.along_of_forall (fun _ _ _ _ => trivial) startServer labels :
      (serverMachine nWorkers).Along (fun _ _ _ => True) startServer labels)
  intro server label after right _ stepped
  have kept := right_step right stepped
  exact ⟨⟨kept, fun _ _ _ _ used same => kept.distinct used same, failsClean_step stepped⟩, kept⟩

end DirtyCode.LogCollect
