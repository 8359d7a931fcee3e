import DirtyCode.ConfServer.Routing

/-!
The sessions of `confServer.c` and the two tables that find them: the slots of
each worker thread and `ip_to_slot_idx`.
-/

namespace DirtyCode.ConfServer

structure Session where
  ip : BitVec 32
  toBeFree : Nat
  threadidx : Int
  slotIdx : Int
  couldWrite : Int
  replyLen : Int
  replyData : Nat -- an address, 0 for `NULL`
  lastAliveTick : Nat
  number : Nat -- the accepts that filled a slot before this one

structure Tables where
  ipToSlotIdx : Int → Int
  sessionArray : Int → Nat → Option Session
  ticks : Nat
  accepted : Nat -- the accepts that have filled a slot

namespace Tables

def setSlot (tables : Tables) (thread : Int) (slot : Nat) (entry : Option Session) : Tables :=
  { tables with
    sessionArray := Function.update tables.sessionArray thread
      (Function.update (tables.sessionArray thread) slot entry) }

def setIndex (tables : Tables) (key : Nat) (slot : Int) : Tables :=
  { tables with ipToSlotIdx := Function.update tables.ipToSlotIdx key slot }

def freeSlotFrom (tables : Tables) (thread : Int) : Nat → Nat → Int
  | _, 0 => -1
  | slot, count + 1 =>
      if (tables.sessionArray thread slot).isNone then slot
      else freeSlotFrom tables thread (slot + 1) count

def getFreeConnSlot (tables : Tables) (thread : Int) : Int :=
  tables.freeSlotFrom thread 0 maxConnPerThread

/-- The connection table of a worker thread has no free slot. -/
def Full (tables : Tables) (thread : Int) : Prop :=
  ∀ slot < maxConnPerThread, tables.sessionArray thread slot ≠ none

end Tables

def getNewSession (ip : BitVec 32) (tid : Int) (ticks : Nat) (number : Nat) : Session where
  ip := ip
  toBeFree := 0
  threadidx := tid
  slotIdx := -1
  couldWrite := -1
  replyLen := -1
  replyData := 0
  lastAliveTick := ticks
  number := number

def Session.markFree (session : Session) : Session := { session with toBeFree := 1 }

-- `free_session_step1` on a session that is in no slot
def clearIndex (session : Session) (tables : Tables) : Tables :=
  tables.setIndex (slotKey session.ip) (-1)

-- `free_session_step1`, for the session in this slot
def freeSessionStep1 (thread : Int) (slot : Nat) (session : Session) (tables : Tables) : Tables :=
  (clearIndex session tables).setSlot thread slot (some session.markFree)

def freeSessionStep2 (session : Session) (tables : Tables) : Tables :=
  if session.toBeFree ≠ 1 then tables
  else if session.slotIdx > -1 then
    tables.setSlot session.threadidx session.slotIdx.toNat none
  else tables

-- `del_session(s, 1)`
def delSession (thread : Int) (slot : Nat) (session : Session) (tables : Tables) : Tables :=
  freeSessionStep2 session.markFree (freeSessionStep1 thread slot session tables)

-- `sptr[slot_idx] = s` and the entry of its address
def fillSlot (thread : Int) (slot : Nat) (session : Session) (tables : Tables) : Tables :=
  { (tables.setSlot thread slot (some session)).setIndex (slotKey session.ip) slot with
    accepted := tables.accepted + 1 }

def acceptClient (nWorkers : Nat) (ip : BitVec 32) (created epollOk : Bool) (tables : Tables) :
    Tables :=
  let thread := acceptThread nWorkers ip
  let session := getNewSession ip thread tables.ticks tables.accepted
  let slot := tables.getFreeConnSlot thread
  if created = false then tables
  else if epollOk = true ∧ 0 ≤ slot then
    fillSlot thread slot.toNat { session with slotIdx := slot } tables
  else clearIndex session tables

def Tables.Placed (tables : Tables) : Prop :=
  ∀ thread slot session, tables.sessionArray thread slot = some session →
    session.threadidx = thread ∧ session.slotIdx = slot

namespace Tables

@[simp] theorem setSlot_self (tables : Tables) (thread : Int) (slot : Nat)
    (entry : Option Session) :
    (tables.setSlot thread slot entry).sessionArray thread slot = entry := by
  simp [setSlot]

theorem setSlot_other (tables : Tables) {thread other : Int} {slot place : Nat}
    (entry : Option Session) (apart : ¬(other = thread ∧ place = slot)) :
    (tables.setSlot thread slot entry).sessionArray other place =
      tables.sessionArray other place := by
  by_cases same : other = thread
  · subst same
    have different : place ≠ slot := fun equal => apart ⟨rfl, equal⟩
    simp [setSlot, different]
  · simp [setSlot, same]

theorem setSlot_eq_some (tables : Tables) (thread other : Int) (slot place : Nat)
    (entry : Option Session) (session : Session) :
    (tables.setSlot thread slot entry).sessionArray other place = some session ↔
      (other = thread ∧ place = slot) ∧ entry = some session ∨
      ¬(other = thread ∧ place = slot) ∧ tables.sessionArray other place = some session := by
  by_cases same : other = thread ∧ place = slot
  · obtain ⟨rfl, rfl⟩ := same
    simp
  · rw [setSlot_other tables entry same]
    simp [same]

@[simp] theorem setSlot_setSlot (tables : Tables) (thread : Int) (slot : Nat)
    (first second : Option Session) :
    (tables.setSlot thread slot first).setSlot thread slot second =
      tables.setSlot thread slot second := by
  simp [setSlot]

@[simp] theorem ipToSlotIdx_setSlot (tables : Tables) (thread : Int) (slot : Nat)
    (entry : Option Session) :
    (tables.setSlot thread slot entry).ipToSlotIdx = tables.ipToSlotIdx := rfl

@[simp] theorem ticks_setSlot (tables : Tables) (thread : Int) (slot : Nat)
    (entry : Option Session) : (tables.setSlot thread slot entry).ticks = tables.ticks := rfl

@[simp] theorem accepted_setSlot (tables : Tables) (thread : Int) (slot : Nat)
    (entry : Option Session) :
    (tables.setSlot thread slot entry).accepted = tables.accepted := rfl

@[simp] theorem sessionArray_setIndex (tables : Tables) (key : Nat) (slot : Int) :
    (tables.setIndex key slot).sessionArray = tables.sessionArray := rfl

@[simp] theorem accepted_setIndex (tables : Tables) (key : Nat) (slot : Int) :
    (tables.setIndex key slot).accepted = tables.accepted := rfl

@[simp] theorem setIndex_self (tables : Tables) (key : Nat) (slot : Int) :
    (tables.setIndex key slot).ipToSlotIdx key = slot := by
  simp [setIndex]

theorem setIndex_other (tables : Tables) {key other : Nat} (slot : Int) (apart : other ≠ key) :
    (tables.setIndex key slot).ipToSlotIdx other = tables.ipToSlotIdx other := by
  simp [setIndex, apart]

theorem freeSlotFrom_cases (tables : Tables) (thread : Int) (start count : Nat) :
    (∃ slot, start ≤ slot ∧ slot < start + count ∧
      tables.sessionArray thread slot = none ∧
      tables.freeSlotFrom thread start count = slot) ∨
    (tables.freeSlotFrom thread start count = -1 ∧
      ∀ slot, start ≤ slot → slot < start + count → tables.sessionArray thread slot ≠ none) := by
  induction count generalizing start with
  | zero => exact .inr ⟨rfl, fun slot lower upper => by omega⟩
  | succ count ih =>
      simp only [freeSlotFrom]
      split
      · rename_i empty
        exact .inl ⟨start, by omega, by omega, by simpa using empty, rfl⟩
      · rename_i taken
        obtain ⟨slot, lower, upper, empty, found⟩ | ⟨missing, full⟩ := ih (start + 1)
        · exact .inl ⟨slot, by omega, by omega, empty, found⟩
        · refine .inr ⟨missing, fun slot lower upper => ?_⟩
          by_cases first : slot = start
          · subst first
            simpa using taken
          · exact full slot (by omega) (by omega)

theorem getFreeConnSlot_cases (tables : Tables) (thread : Int) :
    (∃ slot : Nat, slot < maxConnPerThread ∧ tables.sessionArray thread slot = none ∧
      tables.getFreeConnSlot thread = slot) ∨
    (tables.getFreeConnSlot thread = -1 ∧ tables.Full thread) := by
  obtain ⟨slot, -, upper, empty, found⟩ | ⟨missing, full⟩ :=
    tables.freeSlotFrom_cases thread 0 maxConnPerThread
  · exact .inl ⟨slot, by omega, empty, found⟩
  · exact .inr ⟨missing, fun slot below => full slot (by omega) (by omega)⟩

end Tables

theorem freeSessionStep2_eq {tables : Tables} {thread : Int} {slot : Nat} {session : Session}
    (placed : session.threadidx = thread ∧ session.slotIdx = slot) (marked : session.toBeFree = 1) :
    freeSessionStep2 session tables = tables.setSlot thread slot none := by
  obtain ⟨rfl, atSlot⟩ := placed
  simp [freeSessionStep2, marked, atSlot]
  omega

theorem delSession_eq {tables : Tables} {thread : Int} {slot : Nat} {session : Session}
    (placed : session.threadidx = thread ∧ session.slotIdx = slot) :
    delSession thread slot session tables =
      (clearIndex session tables).setSlot thread slot none := by
  have marked : session.markFree.threadidx = thread ∧ session.markFree.slotIdx = slot := placed
  rw [delSession, freeSessionStep2_eq marked rfl, freeSessionStep1, Tables.setSlot_setSlot]

end DirtyCode.ConfServer
