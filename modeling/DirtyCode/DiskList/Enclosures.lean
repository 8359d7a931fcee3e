import DirtyCode.Lib.CString
import DirtyCode.Lib.Intern

/-!
`get_ec_id` of `disklist.c`, the number of an enclosure by its name.
-/

namespace DirtyCode.DiskList

open Lib

def maxEc : Nat := 8

/-- A string that an entry of `ecdepot` holds. -/
abbrev EcName := { ec : List UInt8 // ec ≠ [] ∧ 0 ∉ ec ∧ ec.length < 64 }

-- `strcmp(ecdepot[i], ec) == 0`, the NUL of `ec` compared as well
def sameEc (ecdepot : Memory) (ec : EcName) (i : Nat) : Bool :=
  ecdepot.slice (64 * i) (ec.val ++ [0]).length = ec.val ++ [0]

def freeEc (ecdepot : Memory) (i : Nat) : Bool := ecdepot (64 * i) = 0

def getEcId (ecdepot : Memory) (ec : EcName) : Int × Memory :=
  match (List.range maxEc).find? (sameEc ecdepot ec) with
  | some i => (i, ecdepot)
  | none =>
      match (List.range maxEc).find? (freeEc ecdepot) with
      | some i => (i, ecdepot.strcpy (64 * i) ec.val)
      | none => (-1, ecdepot)

/-- The ids that a sequence of calls returns. -/
def getEcIds : Memory → List EcName → List Int
  | _, [] => []
  | ecdepot, ec :: rest => (getEcId ecdepot ec).1 :: getEcIds (getEcId ecdepot ec).2 rest

def ecdepotAfter (calls : List EcName) : Memory :=
  calls.foldl (fun ecdepot ec => (getEcId ecdepot ec).2) fun _ => 0

/-- Ids are given to strings once and for all, and all of them before the first -1. -/
structure Consistent (calls : List EcName) (ids : List Int) : Prop where
  length : ids.length = calls.length
  same : ∀ i j : Nat, ∀ ec, calls[i]? = some ec → calls[j]? = some ec → ids[i]? = ids[j]?
  different : ∀ i j : Nat, ∀ id, ids[i]? = some id → ids[j]? = some id → id ≠ -1 →
    calls[i]? = calls[j]?
  range : ∀ id ∈ ids, id = -1 ∨ (0 ≤ id ∧ id < 8)
  exhausted : ∀ i : Nat, ∀ ec, calls[i]? = some ec → ids[i]? = some (-1) →
    (∀ k < maxEc, ¬Memory.Shows (ecdepotAfter (calls.take i)) (64 * k) ec.val) ∧
      ∀ k < maxEc, freeEc (ecdepotAfter (calls.take i)) k = false

structure Stores (ecdepot : Memory) (names : List EcName) : Prop where
  room : names.length ≤ maxEc
  shows_ : ∀ i (inside : i < names.length),
    Memory.Shows ecdepot (64 * i) (names.get ⟨i, inside⟩).val
  free : ∀ i, names.length ≤ i → i < maxEc → ecdepot (64 * i) = 0

theorem sameEc_iff {ecdepot : Memory} {ec : EcName} {i : Nat} :
    sameEc ecdepot ec i = true ↔ Memory.Shows ecdepot (64 * i) ec.val := by
  rw [sameEc, decide_eq_true_iff, List.length_append, List.length_singleton,
    Memory.shows_iff_slice ec.property.2.1]

section

variable {ecdepot : Memory} {names : List EcName}

theorem Stores.not_free (stores : Stores ecdepot names) {i : Nat} (inside : i < names.length) :
    freeEc ecdepot i = false := by
  have nonempty := (names.get ⟨i, inside⟩).property.1
  exact decide_eq_false ((stores.shows_ i inside).ne_zero (List.length_pos_iff.mpr nonempty))

theorem Stores.sameEc_iff (stores : Stores ecdepot names) (ec : EcName) {i : Nat}
    (below : i < maxEc) : sameEc ecdepot ec i = true ↔ names[i]? = some ec := by
  rw [DiskList.sameEc_iff]
  by_cases inside : i < names.length
  · rw [List.getElem?_eq_getElem inside, Option.some.injEq]
    constructor
    · intro shows_
      exact Subtype.ext ((stores.shows_ i inside).unique shows_)
    · rintro rfl
      exact stores.shows_ i inside
  · rw [List.getElem?_eq_none (Nat.le_of_not_lt inside)]
    refine iff_of_false ?_ (by simp)
    intro shows_
    have zero := stores.free i (Nat.le_of_not_lt inside) below
    exact shows_.ne_zero (List.length_pos_iff.mpr ec.property.1) zero

theorem Stores.find_listed (stores : Stores ecdepot names) {ec : EcName} (listed : ec ∈ names) :
    (List.range maxEc).find? (sameEc ecdepot ec) = idIn names ec := by
  obtain ⟨id, found, here, first⟩ := idIn_listed listed
  obtain ⟨inside, -⟩ := List.getElem?_eq_some_iff.mp here
  have below : id < maxEc := Nat.lt_of_lt_of_le inside stores.room
  rw [found, List.find?_range_eq_some]
  refine ⟨(stores.sameEc_iff ec below).mpr here, List.mem_range.mpr below, ?_⟩
  intro j earlier
  rw [Bool.not_eq_true', Bool.eq_false_iff]
  intro same
  exact first j earlier ((stores.sameEc_iff ec (Nat.lt_trans earlier below)).mp same)

theorem Stores.find_absent (stores : Stores ecdepot names) {ec : EcName} (absent : ec ∉ names) :
    (List.range maxEc).find? (sameEc ecdepot ec) = none := by
  rw [List.find?_range_eq_none]
  intro i below
  rw [Bool.not_eq_true', Bool.eq_false_iff]
  intro same
  exact absent (List.mem_of_getElem? ((stores.sameEc_iff ec below).mp same))

theorem Stores.find_free (stores : Stores ecdepot names) (room : names.length < maxEc) :
    (List.range maxEc).find? (freeEc ecdepot) = some names.length := by
  rw [List.find?_range_eq_some]
  refine ⟨decide_eq_true (stores.free _ le_rfl room), List.mem_range.mpr room, ?_⟩
  intro j earlier
  rw [stores.not_free earlier]
  rfl

theorem Stores.find_full (stores : Stores ecdepot names) (full : maxEc ≤ names.length) :
    (List.range maxEc).find? (freeEc ecdepot) = none := by
  rw [List.find?_range_eq_none]
  intro i below
  rw [stores.not_free (Nat.lt_of_lt_of_le below full)]
  rfl

theorem Stores.snoc (stores : Stores ecdepot names) (room : names.length < maxEc) (ec : EcName) :
    Stores (ecdepot.strcpy (64 * names.length) ec.val) (names ++ [ec]) where
  room := by
    rw [List.length_append, List.length_singleton]
    exact room
  shows_ i inside := by
    have lower := inside
    rw [List.length_append, List.length_singleton] at lower
    rw [List.get_eq_getElem]
    rcases Nat.lt_or_ge i names.length with earlier | later
    · rw [List.getElem_append_left earlier]
      have short := (names.get ⟨i, earlier⟩).property.2.2
      refine (stores.shows_ i earlier).write_disjoint (Or.inl ?_)
      omega
    · have same : i = names.length := by omega
      subst same
      rw [List.getElem_concat_length rfl]
      exact Memory.shows_strcpy ec.property.2.1
  free i behind below := by
    have short := ec.property.2.2
    rw [List.length_append, List.length_singleton] at behind
    have size : (ec.val ++ [0]).length = ec.val.length + 1 := List.length_append
    rw [Memory.strcpy, Memory.write_outside (Or.inr (by omega))]
    exact stores.free i (by omega) below

def idOf (names : List EcName) (ec : EcName) : Int :=
  ((idIn names ec).map fun id : Nat => (id : Int)).getD (-1)

theorem Stores.getEcId (stores : Stores ecdepot names) (ec : EcName) :
    (DiskList.getEcId ecdepot ec).1 = idOf (intern maxEc names ec) ec ∧
      Stores (DiskList.getEcId ecdepot ec).2 (intern maxEc names ec) := by
  by_cases listed : ec ∈ names
  · obtain ⟨id, found, -⟩ := idIn_listed listed
    have same := stores.find_listed listed
    rw [intern, if_pos (Or.inl listed), idOf, DiskList.getEcId, same, found]
    exact ⟨rfl, stores⟩
  · have missing := stores.find_absent listed
    by_cases full : maxEc ≤ names.length
    · have none := stores.find_full full
      rw [intern, if_pos (Or.inr full), idOf, idIn_absent listed, DiskList.getEcId, missing, none]
      exact ⟨rfl, stores⟩
    · have room : names.length < maxEc := Nat.lt_of_not_le full
      rw [intern, if_neg (not_or.mpr ⟨listed, full⟩), idOf, idIn_snoc listed, DiskList.getEcId,
        missing, stores.find_free room]
      exact ⟨rfl, stores.snoc room ec⟩

/-- All calls: the ids are the places that the strings have in the end. -/
theorem Stores.getEcIds (stores : Stores ecdepot names) (calls : List EcName) :
    DiskList.getEcIds ecdepot calls = calls.map (idOf (calls.foldl (intern maxEc) names)) := by
  induction calls generalizing ecdepot names with
  | nil => rfl
  | cons ec rest ih =>
      obtain ⟨id, next⟩ := stores.getEcId ec
      have settled := (intern_settles maxEc names ec).foldl rest
      rw [DiskList.getEcIds, id, ih next, List.map_cons, List.foldl_cons, idOf, idOf, settled]

theorem stores_ecdepotAfter (calls : List EcName) :
    Stores (ecdepotAfter calls) (calls.foldl (intern maxEc) []) := by
  have start : Stores (fun _ => 0) [] := ⟨Nat.zero_le _, fun i inside => absurd inside (by simp),
    fun _ _ _ => rfl⟩
  unfold ecdepotAfter
  generalize (fun _ => 0 : Memory) = ecdepot at start
  generalize ([] : List EcName) = names at start
  induction calls generalizing ecdepot names with
  | nil => exact start
  | cons ec rest ih => exact ih _ _ (start.getEcId ec).2

end

theorem idOf_range {names : List EcName} (room : names.length ≤ maxEc) (ec : EcName) :
    idOf names ec = -1 ∨ (0 ≤ idOf names ec ∧ idOf names ec < 8) := by
  by_cases listed : ec ∈ names
  · obtain ⟨id, found, here, -⟩ := idIn_listed listed
    obtain ⟨inside, -⟩ := List.getElem?_eq_some_iff.mp here
    have eight : maxEc = 8 := rfl
    rw [idOf, found, Option.map_some, Option.getD_some]
    omega
  · rw [idOf, idIn_absent listed]
    exact Or.inl rfl

theorem idOf_inj {names : List EcName} {ec other : EcName} (same : idOf names ec = idOf names other)
    (given : idOf names ec ≠ -1) : ec = other := by
  cases first : idIn names ec with
  | none =>
      rw [idOf, first] at given
      exact absurd rfl given
  | some id =>
      cases second : idIn names other with
      | none =>
          rw [same, idOf, second] at given
          exact absurd rfl given
      | some another =>
          rw [idOf, idOf, first, second] at same
          have equal : id = another := Int.ofNat.inj same
          exact idIn_inj (equal ▸ first) second

theorem getEcIds_eq (calls : List EcName) :
    getEcIds (fun _ => 0) calls = calls.map (idOf (calls.foldl (intern maxEc) [])) :=
  (stores_ecdepotAfter []).getEcIds calls

theorem idIn_of_idOf {names : List EcName} {ec : EcName} (none : idOf names ec = -1) :
    idIn names ec = .none := by
  cases found : idIn names ec with
  | none => rfl
  | some id =>
      rw [idOf, found, Option.map_some, Option.getD_some] at none
      omega

theorem getEcIds_consistent (calls : List EcName) :
    Consistent calls (getEcIds (fun _ => 0) calls) := by
  have all := getEcIds_eq calls
  have table := (stores_ecdepotAfter calls).room
  constructor
  · rw [all, List.length_map]
  · intro i j ec first second
    rw [all, List.getElem?_map, List.getElem?_map, first, second]
  · intro i j id first second given
    rw [all, List.getElem?_map, Option.map_eq_some_iff] at first second
    obtain ⟨ec, here, rfl⟩ := first
    obtain ⟨other, there, same⟩ := second
    rw [here, there, idOf_inj same.symm given]
  · intro id member
    rw [all, List.mem_map] at member
    obtain ⟨ec, -, rfl⟩ := member
    exact idOf_range table ec
  · intro i ec here none
    have split : calls = calls.take i ++ ec :: calls.drop (i + 1) := by
      obtain ⟨inside, rfl⟩ := List.getElem?_eq_some_iff.mp here
      rw [List.cons_getElem_drop_succ, List.take_append_drop]
    have missing : idIn (calls.foldl (intern maxEc) []) ec = .none := by
      rw [all, List.getElem?_map, here, Option.map_some, Option.some.injEq] at none
      exact idIn_of_idOf none
    rw [split] at missing
    obtain ⟨absent, full⟩ := no_room missing
    have before := stores_ecdepotAfter (calls.take i)
    constructor
    · intro k below shows_
      have same := (before.sameEc_iff ec below).mp (sameEc_iff.mpr shows_)
      exact absent (List.mem_of_getElem? same)
    · intro k below
      exact before.not_free (Nat.lt_of_lt_of_le below full)

end DirtyCode.DiskList
