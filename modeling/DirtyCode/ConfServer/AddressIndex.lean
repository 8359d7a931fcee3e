import DirtyCode.ConfServer.Session
import DirtyCode.Lib.Machine

/-!
`ip_to_slot_idx` of `confServer.c` over any sequence of accepts, closes, delayed
frees and forced disconnects.
-/

namespace DirtyCode.ConfServer

open Lib

inductive Action
  | accept (ip : BitVec 32) (created epollOk : Bool)
  | close (thread : Int) (slot : Nat) -- `free_session_step1`, by a worker thread
  | free (thread : Int) (slot : Nat) -- the delayed `free_session_step2`
  | force (thread : Int) (slot : Nat) -- `del_session(s, 1)`, whatever `to_be_free` says

def Tables.step (nWorkers : Nat) (tables : Tables) : Action → Option Tables
  | .accept ip created epollOk =>
      if slotKey ip < totalIpv4s then some (acceptClient nWorkers ip created epollOk tables)
      else none
  | .close thread slot =>
      match tables.sessionArray thread slot with
      | none => none
      | some session =>
          if session.toBeFree = 0 then some (freeSessionStep1 thread slot session tables) else none
  | .free thread slot =>
      match tables.sessionArray thread slot with
      | none => none
      | some session =>
          if 1 = session.toBeFree then some (freeSessionStep2 session tables) else none
  | .force thread slot =>
      match tables.sessionArray thread slot with
      | none => none
      | some session => some (delSession thread slot session tables)

def startTables : Tables where
  ipToSlotIdx := fun _ => -1
  sessionArray := fun _ _ => none
  ticks := 0
  accepted := 0

def indexMachine (nWorkers : Nat) : Machine Tables Action where
  init tables := tables = startTables
  step := Tables.step nWorkers

structure OpenAt (tables : Tables) (key : Nat) (thread : Int) (slot : Nat)
    (session : Session) : Prop where
  entry : tables.sessionArray thread slot = some session
  isOpen : session.toBeFree = 0
  keyed : slotKey session.ip = key

structure Latest (tables : Tables) (key : Nat) (thread : Int) (slot : Nat)
    (session : Session) : Prop where
  opened : OpenAt tables key thread slot session
  newest : ∀ other place rival, OpenAt tables key other place rival →
    rival.number ≤ session.number

def EntryRight (tables : Tables) (key : Nat) : Prop :=
  (∃ thread slot session, Latest tables key thread slot session ∧
    tables.ipToSlotIdx key = slot) ∨
  ((∀ thread slot session, ¬OpenAt tables key thread slot session) ∧
    tables.ipToSlotIdx key = -1)

def IndexRight (tables : Tables) : Prop := ∀ key < totalIpv4s, EntryRight tables key

/-- What every run keeps, whatever it does to the index. -/
structure Shaped (tables : Tables) : Prop where
  placed : tables.Placed
  numbered : ∀ thread slot session, tables.sessionArray thread slot = some session →
    session.number < tables.accepted
  distinct : ∀ thread slot session other place rival,
    tables.sessionArray thread slot = some session →
    tables.sessionArray other place = some rival → session.number = rival.number →
      thread = other ∧ slot = place
  fits : ∀ thread slot session, tables.sessionArray thread slot = some session →
    slotKey session.ip < totalIpv4s

/-- No open session outside the slot has its key. -/
def Alone (tables : Tables) (thread : Int) (slot : Nat) : Prop :=
  ∀ session other place rival, tables.sessionArray thread slot = some session →
    OpenAt tables (slotKey session.ip) other place rival → other = thread ∧ place = slot

/-- The step clears no entry that an open session needs. -/
def Harmless (nWorkers : Nat) (tables : Tables) : Action → Prop
  | .accept ip created epollOk => created = true →
      epollOk = false ∨ tables.Full (acceptThread nWorkers ip) →
      ∀ thread slot session, ¬OpenAt tables (slotKey ip) thread slot session
  | .close thread slot => Alone tables thread slot
  | .free _ _ => True
  | .force thread slot => Alone tables thread slot

inductive Stepped (nWorkers : Nat) (tables : Tables) : Action → Tables → Prop
  | missed {ip epollOk} : Stepped nWorkers tables (.accept ip false epollOk) tables
  | placed {ip thread} {slot : Nat} {session : Session} : slotKey ip < totalIpv4s →
      thread = acceptThread nWorkers ip → ¬tables.Full thread →
      tables.sessionArray thread slot = none → session.ip = ip → session.toBeFree = 0 →
        session.threadidx = thread →
      session.slotIdx = slot → session.number = tables.accepted →
      Stepped nWorkers tables (.accept ip true true)
        (fillSlot thread slot session tables)
  | rejected {ip epollOk} : slotKey ip < totalIpv4s →
      epollOk = false ∨ tables.Full (acceptThread nWorkers ip) →
      Stepped nWorkers tables (.accept ip true epollOk) (tables.setIndex (slotKey ip) (-1))
  | closed {thread slot session} : tables.sessionArray thread slot = some session →
      session.toBeFree = 0 → Stepped nWorkers tables (.close thread slot)
        ((tables.setIndex (slotKey session.ip) (-1)).setSlot thread slot (some session.markFree))
  | freed {thread slot session} : tables.sessionArray thread slot = some session →
      session.toBeFree = 1 → Stepped nWorkers tables (.free thread slot)
        (tables.setSlot thread slot none)
  | forced {thread slot session} : tables.sessionArray thread slot = some session →
      Stepped nWorkers tables (.force thread slot)
        ((tables.setIndex (slotKey session.ip) (-1)).setSlot thread slot none)

theorem step_cases {nWorkers : Nat} {tables after : Tables} {action : Action}
    (placed : tables.Placed) (stepped : tables.step nWorkers action = some after) :
    Stepped nWorkers tables action after := by
  cases action with
  | accept ip created epollOk =>
      simp only [Tables.step] at stepped
      split at stepped
      · rename_i fits
        rw [← Option.some.inj stepped]
        cases created with
        | false => exact .missed
        | true =>
            obtain ⟨slot, below, empty, found⟩ | ⟨missing, full⟩ :=
              tables.getFreeConnSlot_cases (acceptThread nWorkers ip)
            · cases epollOk with
              | false => simpa [acceptClient, clearIndex, getNewSession] using
                  Stepped.rejected fits (.inl rfl)
              | true =>
                  have room : ¬tables.Full (acceptThread nWorkers ip) :=
                    fun full => full slot below empty
                  simp only [acceptClient, found, Int.toNat_natCast, Int.natCast_nonneg, and_self,
                    if_true, Bool.true_eq_false, if_false]
                  exact .placed fits rfl room empty rfl rfl rfl rfl rfl
            · simpa [acceptClient, clearIndex, getNewSession, missing] using
                Stepped.rejected fits (.inr full)
      · contradiction
  | close thread slot =>
      simp only [Tables.step] at stepped
      split at stepped
      · contradiction
      · rename_i session entry
        split at stepped
        · rename_i isOpen
          exact Option.some.inj stepped ▸ .closed entry isOpen
        · contradiction
  | free thread slot =>
      simp only [Tables.step] at stepped
      split at stepped
      · contradiction
      · rename_i session entry
        split at stepped
        · rename_i marked
          rw [← Option.some.inj stepped, freeSessionStep2_eq (placed _ _ _ entry) marked.symm]
          exact .freed entry marked.symm
        · contradiction
  | force thread slot =>
      simp only [Tables.step] at stepped
      split at stepped
      · contradiction
      · rename_i session entry
        rw [← Option.some.inj stepped, delSession_eq (placed _ _ _ entry)]
        exact .forced entry

@[simp] theorem openAt_setIndex (tables : Tables) (cleared : Nat) (value : Int) (key : Nat)
    (thread : Int) (slot : Nat) (session : Session) :
    OpenAt (tables.setIndex cleared value) key thread slot session ↔
      OpenAt tables key thread slot session :=
  ⟨fun opened => ⟨opened.entry, opened.isOpen, opened.keyed⟩,
    fun opened => ⟨opened.entry, opened.isOpen, opened.keyed⟩⟩

theorem openAt_setSlot_shut {tables : Tables} {thread other : Int} {slot place key : Nat}
    {entry : Option Session} {session : Session}
    (shut : ∀ left, entry = some left → left.toBeFree ≠ 0) :
    OpenAt (tables.setSlot thread slot entry) key other place session ↔
      OpenAt tables key other place session ∧ ¬(other = thread ∧ place = slot) := by
  constructor
  · rintro ⟨found, isOpen, keyed⟩
    obtain ⟨-, left⟩ | ⟨apart, kept⟩ := (Tables.setSlot_eq_some ..).mp found
    · exact absurd isOpen (shut _ left)
    · exact ⟨⟨kept, isOpen, keyed⟩, apart⟩
  · rintro ⟨⟨kept, isOpen, keyed⟩, apart⟩
    exact ⟨(Tables.setSlot_eq_some ..).mpr (.inr ⟨apart, kept⟩), isOpen, keyed⟩

theorem EntryRight.congr {tables after : Tables} {key : Nat} (right : EntryRight tables key)
    (unchanged : after.ipToSlotIdx key = tables.ipToSlotIdx key)
    (kept : ∀ thread slot session, OpenAt after key thread slot session ↔
      OpenAt tables key thread slot session) : EntryRight after key := by
  obtain ⟨thread, slot, session, latest, value⟩ | ⟨none, value⟩ := right
  · refine .inl ⟨thread, slot, session, ⟨(kept _ _ _).mpr latest.opened, ?_⟩,
      unchanged.trans value⟩
    exact fun other place rival opened => latest.newest _ _ _ ((kept _ _ _).mp opened)
  · exact .inr ⟨fun thread slot session opened => none _ _ _ ((kept _ _ _).mp opened),
      unchanged.trans value⟩

/-- Clearing the entry of a key is right exactly when no open session with that
key stays. -/
theorem cleared_iff {tables : Tables} (after : Tables) {key : Nat} (gone : Int → Nat → Prop)
    (right : IndexRight tables) (fits : key < totalIpv4s)
    (cleared : after.ipToSlotIdx = (tables.setIndex key (-1)).ipToSlotIdx)
    (stays : ∀ other thread slot session, OpenAt after other thread slot session ↔
      OpenAt tables other thread slot session ∧ ¬gone thread slot)
    (keyed : ∀ other thread slot session, OpenAt tables other thread slot session →
      gone thread slot → other = key) :
    IndexRight after ↔
      ∀ thread slot session, OpenAt tables key thread slot session → gone thread slot := by
  have entry : after.ipToSlotIdx key = -1 := by rw [cleared, Tables.setIndex_self]
  constructor
  · intro correct thread slot session opened
    obtain ⟨_, place, _, _, wrong⟩ | ⟨none, -⟩ := correct key fits
    · rw [entry] at wrong
      omega
    · by_contra stayed
      exact none thread slot session ((stays _ _ _ _).mpr ⟨opened, stayed⟩)
  · intro leave other below
    by_cases same : other = key
    · subst same
      refine .inr ⟨fun thread slot session opened => ?_, entry⟩
      have before := (stays _ _ _ _).mp opened
      exact before.2 (leave _ _ _ before.1)
    · apply (right other below).congr
      · rw [cleared, Tables.setIndex_other _ _ same]
      · intro thread slot session
        rw [stays]
        exact ⟨fun both => both.1,
          fun opened => ⟨opened, fun left => same (keyed _ _ _ _ opened left)⟩⟩

theorem shut_iff_alone {tables : Tables} {thread : Int} {slot : Nat} {session : Session}
    {entry : Option Session} (shaped : Shaped tables) (right : IndexRight tables)
    (found : tables.sessionArray thread slot = some session)
    (shut : ∀ left, entry = some left → left.toBeFree ≠ 0) :
    IndexRight ((tables.setIndex (slotKey session.ip) (-1)).setSlot thread slot entry) ↔
      Alone tables thread slot := by
  rw [cleared_iff ((tables.setIndex (slotKey session.ip) (-1)).setSlot thread slot entry)
    (fun other place => other = thread ∧ place = slot) right (shaped.fits _ _ _ found) rfl]
  · constructor
    · intro leave held other place rival holds opened
      obtain rfl := Option.some.inj (found.symm.trans holds)
      exact leave other place rival opened
    · exact fun alone other place rival opened => alone session other place rival found opened
  · intro key other place rival
    rw [openAt_setSlot_shut shut, openAt_setIndex]
  · rintro key other place rival opened ⟨rfl, rfl⟩
    obtain rfl := Option.some.inj (found.symm.trans opened.entry)
    exact opened.keyed.symm

theorem shaped_of_sub {tables after : Tables} (shaped : Shaped tables)
    (same : after.accepted = tables.accepted)
    (sub : ∀ thread slot session, after.sessionArray thread slot = some session →
      ∃ before, tables.sessionArray thread slot = some before ∧ session.ip = before.ip ∧
        session.threadidx = before.threadidx ∧ session.slotIdx = before.slotIdx ∧
        session.number = before.number) : Shaped after := by
  constructor
  · intro thread slot session entry
    obtain ⟨before, found, -, onThread, atSlot, -⟩ := sub _ _ _ entry
    rw [onThread, atSlot]
    exact shaped.placed _ _ _ found
  · intro thread slot session entry
    obtain ⟨before, found, -, -, -, number⟩ := sub _ _ _ entry
    rw [number, same]
    exact shaped.numbered _ _ _ found
  · intro thread slot session other place rival entry opposite equal
    obtain ⟨before, found, -, -, -, number⟩ := sub _ _ _ entry
    obtain ⟨facing, located, -, -, -, second⟩ := sub _ _ _ opposite
    exact shaped.distinct _ _ _ _ _ _ found located (by rw [← number, ← second, equal])
  · intro thread slot session entry
    obtain ⟨before, found, address, -, -, -⟩ := sub _ _ _ entry
    rw [address]
    exact shaped.fits _ _ _ found

theorem shaped_step {nWorkers : Nat} {tables after : Tables} {action : Action}
    (shaped : Shaped tables) (stepped : Stepped nWorkers tables action after) : Shaped after := by
  cases stepped with
  | missed => exact shaped
  | rejected _ _ =>
      exact shaped_of_sub shaped rfl fun _ _ session entry => ⟨session, entry, by simp⟩
  | @closed thread slot session entry _ =>
      refine shaped_of_sub shaped rfl fun other place rival found => ?_
      obtain ⟨⟨rfl, rfl⟩, marked⟩ | ⟨-, kept⟩ := (Tables.setSlot_eq_some ..).mp found
      · rw [← Option.some.inj marked]
        exact ⟨session, entry, by simp [Session.markFree]⟩
      · exact ⟨rival, kept, by simp⟩
  | @freed thread slot session _ _ | @forced thread slot session _ =>
      refine shaped_of_sub shaped rfl fun other place rival found => ?_
      obtain ⟨-, impossible⟩ | ⟨-, kept⟩ := (Tables.setSlot_eq_some ..).mp found
      · contradiction
      · exact ⟨rival, kept, by simp⟩
  | @placed ip thread slot session fits _ _ empty address _ onThread atSlot number =>
      have entries : ∀ other place rival,
          (tables.setSlot thread slot (some session)).sessionArray other place = some rival →
          (other = thread ∧ place = slot ∧ rival = session) ∨
            tables.sessionArray other place = some rival := by
        intro other place rival found
        obtain ⟨⟨here, there⟩, new⟩ | ⟨-, kept⟩ := (Tables.setSlot_eq_some ..).mp found
        · exact .inl ⟨here, there, (Option.some.inj new).symm⟩
        · exact .inr kept
      constructor
      · intro other place rival found
        obtain ⟨rfl, rfl, rfl⟩ | kept := entries _ _ _ found
        · exact ⟨onThread, atSlot⟩
        · exact shaped.placed _ _ _ kept
      · intro other place rival found
        obtain ⟨rfl, rfl, rfl⟩ | kept := entries _ _ _ found
        · exact number ▸ Nat.lt_succ_self _
        · exact Nat.lt_succ_of_lt (shaped.numbered _ _ _ kept)
      · intro first firstSlot left second secondSlot right foundLeft foundRight equal
        obtain ⟨rfl, rfl, rfl⟩ | keptLeft := entries _ _ _ foundLeft <;>
          obtain ⟨rfl, rfl, rfl⟩ | keptRight := entries _ _ _ foundRight
        · exact ⟨rfl, rfl⟩
        · have older := shaped.numbered _ _ _ keptRight
          omega
        · have older := shaped.numbered _ _ _ keptLeft
          omega
        · exact shaped.distinct _ _ _ _ _ _ keptLeft keptRight equal
      · intro other place rival found
        obtain ⟨rfl, rfl, rfl⟩ | kept := entries _ _ _ found
        · exact address ▸ fits
        · exact shaped.fits _ _ _ kept

theorem openAt_fillSlot {tables : Tables} {thread other : Int} {slot place key : Nat}
    {session rival : Session} (empty : tables.sessionArray thread slot = none)
    (isOpen : session.toBeFree = 0) :
    OpenAt (fillSlot thread slot session tables) key other place rival ↔
      (other = thread ∧ place = slot ∧ rival = session ∧ slotKey session.ip = key) ∨
        OpenAt tables key other place rival := by
  constructor
  · rintro ⟨entry, unmarked, keyed⟩
    obtain ⟨⟨here, there⟩, new⟩ | ⟨-, kept⟩ := (Tables.setSlot_eq_some ..).mp entry
    · obtain rfl := Option.some.inj new
      exact .inl ⟨here, there, rfl, keyed⟩
    · exact .inr ⟨kept, unmarked, keyed⟩
  · rintro (⟨rfl, rfl, rfl, keyed⟩ | ⟨kept, unmarked, keyed⟩)
    · exact ⟨by simp [fillSlot], isOpen, keyed⟩
    · refine ⟨(Tables.setSlot_eq_some ..).mpr (.inr ⟨?_, kept⟩), unmarked, keyed⟩
      rintro ⟨rfl, rfl⟩
      rw [empty] at kept
      contradiction

theorem fillSlot_right {tables : Tables} {thread : Int} {slot : Nat} {session : Session}
    (shaped : Shaped tables) (right : IndexRight tables)
    (empty : tables.sessionArray thread slot = none) (isOpen : session.toBeFree = 0)
    (number : session.number = tables.accepted) :
    IndexRight (fillSlot thread slot session tables) := by
  intro key below
  by_cases same : key = slotKey session.ip
  · subst same
    refine .inl ⟨thread, slot, session,
      ⟨(openAt_fillSlot empty isOpen).mpr (.inl ⟨rfl, rfl, rfl, rfl⟩), ?_⟩,
      Tables.setIndex_self _ _ _⟩
    intro other place rival opened
    obtain ⟨-, -, rfl, -⟩ | kept := (openAt_fillSlot empty isOpen).mp opened
    · exact le_refl _
    · have older := shaped.numbered _ _ _ kept.entry
      omega
  · apply (right key below).congr
    · exact Tables.setIndex_other (tables.setSlot thread slot (some session)) (slot : Int) same
    · intro other place rival
      rw [openAt_fillSlot empty isOpen]
      exact ⟨fun either => either.resolve_left fun new => same new.2.2.2.symm, .inr⟩

theorem right_iff_harmless {nWorkers : Nat} {tables after : Tables} {action : Action}
    (shaped : Shaped tables) (right : IndexRight tables)
    (stepped : Stepped nWorkers tables action after) :
    IndexRight after ↔ Harmless nWorkers tables action := by
  cases stepped with
  | missed => simp [Harmless, right]
  | placed fits worker room empty address isOpen _ _ number =>
      subst worker address
      simp [Harmless, room, fillSlot_right shaped right empty isOpen number]
  | rejected fits failed =>
      rw [cleared_iff _ (fun _ _ => False) right fits rfl]
      · simp [Harmless, failed]
      · simp
      · exact fun _ _ _ _ _ impossible => impossible.elim
  | closed entry isOpen =>
      refine shut_iff_alone shaped right entry fun left marked => ?_
      rw [← Option.some.inj marked]
      exact Nat.one_ne_zero
  | @freed thread slot session entry marked =>
      refine iff_of_true (fun key below => (right key below).congr rfl ?_) trivial
      intro other place rival
      rw [openAt_setSlot_shut (by simp)]
      refine ⟨fun both => both.1, fun opened => ⟨opened, ?_⟩⟩
      rintro ⟨rfl, rfl⟩
      obtain rfl := Option.some.inj (entry.symm.trans opened.entry)
      have unmarked := opened.isOpen
      omega
  | forced entry => exact shut_iff_alone shaped right entry (by simp)

theorem shaped_start : Shaped startTables := by
  constructor <;> simp [startTables, Tables.Placed]

theorem right_start : IndexRight startTables := by
  intro key _
  exact .inr ⟨fun thread slot session opened => by simpa [startTables] using opened.entry, rfl⟩

/-- Over a whole run the index names the latest open session of every key exactly
when no step clears an entry that another open session needs. -/
theorem index_right_iff (nWorkers : Nat) (actions : List Action) :
    (indexMachine nWorkers).Along (fun _ _ after => IndexRight after) startTables actions ↔
      (indexMachine nWorkers).Along (fun tables action _ => Harmless nWorkers tables action)
        startTables actions := by
  apply Machine.along_iff fun tables => Shaped tables ∧ IndexRight tables
  · intro tables action after correct stepped
    exact right_iff_harmless correct.1 correct.2 (step_cases correct.1.placed stepped)
  · intro tables action after correct harmless stepped
    have outcome := step_cases correct.1.placed stepped
    exact ⟨shaped_step correct.1 outcome,
      (right_iff_harmless correct.1 correct.2 outcome).mpr harmless⟩
  · exact ⟨shaped_start, right_start⟩

def twoClients : List Action :=
  [.accept 0x0A000001#32 true true, .accept 0x0A000001#32 true true]

/-- The older of two sessions with one address closes, and the index loses the newer. -/
theorem index_forgets :
    ¬∀ nWorkers actions,
      (indexMachine nWorkers).Along (fun _ _ after => IndexRight after) startTables actions := by
  intro always
  have ran : ((indexMachine 1).run startTables twoClients).bind (fun tables =>
      ((indexMachine 1).step tables (.close 0 0)).map fun after =>
        (after.ipToSlotIdx 1, (after.sessionArray 0 1).map fun session =>
          (session.toBeFree, slotKey session.ip))) = some (-1, some (0, 1)) := by
    decide
  obtain ⟨tables, before, closed⟩ := Option.bind_eq_some_iff.mp ran
  obtain ⟨after, stepped, outcome⟩ := Option.map_eq_some_iff.mp closed
  obtain ⟨forgotten, other⟩ := Prod.mk.inj outcome
  obtain ⟨session, entry, fields⟩ := Option.map_eq_some_iff.mp other
  obtain ⟨isOpen, keyed⟩ := Prod.mk.inj fields
  have right := (always 1 (twoClients ++ [.close 0 0])).last before stepped 1 (by decide)
  obtain ⟨_, slot, _, _, value⟩ | ⟨none, -⟩ := right
  · have same : (slot : Int) = -1 := value.symm.trans forgotten
    omega
  · exact none 0 1 session ⟨entry, isOpen, keyed⟩

end DirtyCode.ConfServer
