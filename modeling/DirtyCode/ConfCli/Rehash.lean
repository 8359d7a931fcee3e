import DirtyCode.ConfCli.Search

/-!
`kh_resize` of `ConfCli.c`: the entries move to their new buckets within the same arrays,
one kicking out the next, and none is lost.
-/

namespace DirtyCode.ConfCli

open Lib

variable {Key Val Text : Type*} {kind : KeyKind Key Text}
  {nBuckets newNBuckets : Nat} {entries : Text → Option (Key × Val)}

def Moving.old (nBuckets : Nat) (moving : Moving Key Val) : Finset Nat :=
  liveBuckets nBuckets moving.flags

def Moving.new (newNBuckets : Nat) (moving : Moving Key Val) : Finset Nat :=
  liveBuckets newNBuckets moving.newFlags

theorem mem_old {moving : Moving Key Val} {i : Nat} :
    i ∈ moving.old nBuckets ↔ i < nBuckets ∧ isEither moving.flags i = false := by
  rw [Moving.old, liveBuckets, Finset.mem_filter, Finset.mem_range]

@[simp] theorem old_vacate (moving : Moving Key Val) (i : Nat) :
    (moving.vacate i).old nBuckets = (moving.old nBuckets).erase i :=
  live_setIsDelTrue nBuckets moving.flags

@[simp] theorem new_vacate (moving : Moving Key Val) (i : Nat) :
    (moving.vacate i).new newNBuckets = moving.new newNBuckets := rfl

@[simp] theorem old_write (moving : Moving Key Val) (i : Nat) (key : Key) (val : Val) :
    (moving.write i key val).old nBuckets = moving.old nBuckets := rfl

/-- The arrays hold the entries, some of them still in old buckets, the others each where
its search in the new table comes to. -/
structure Carrying (kind : KeyKind Key Text) (nBuckets newNBuckets : Nat)
    (moving : Moving Key Val) (entries : Text → Option (Key × Val)) : Prop where
  holds : Holds kind.text (moving.old nBuckets ∪ moving.new newNBuckets) moving.keys moving.vals
    entries
  apart : Disjoint (moving.old nBuckets) (moving.new newNBuckets)
  undeleted : ∀ i, isDel moving.newFlags i = false
  reachable : ∀ i ∈ moving.new newNBuckets,
    Reachable kind newNBuckets moving.newFlags (kind.text (moving.keys i)) i

/-- An empty bucket of the new table, which the search for the text comes to. -/
structure Vacant (kind : KeyKind Key Text) (newNBuckets : Nat) (moving : Moving Key Val)
    (word : Text) (i : Nat) : Prop where
  inside : i < newNBuckets
  empty : isEmpty moving.newFlags i = true
  reachable : Reachable kind newNBuckets moving.newFlags word i

theorem Vacant.free {moving : Moving Key Val} {word : Text} {i : Nat}
    (vacant : Vacant kind newNBuckets moving word i) : i ∉ moving.new newNBuckets := by
  intro live
  have empty := vacant.empty
  rw [(mem_live.mp live).2.1] at empty
  contradiction

theorem Vacant.vacate {moving : Moving Key Val} {word : Text} {i : Nat}
    (vacant : Vacant kind newNBuckets moving word i) (j : Nat) :
    Vacant kind newNBuckets (moving.vacate j) word i :=
  ⟨vacant.inside, vacant.empty, vacant.reachable⟩

namespace Carrying

variable {moving : Moving Key Val} {key : Key} {val : Val} {i : Nat}

theorem findEmpty_eq (carrying : Carrying kind nBuckets newNBuckets moving entries)
    (bucketed : Bucketed newNBuckets)
    (room : (moving.new newNBuckets).card < newNBuckets)
    (word : Text) :
    ∃ i, findEmpty moving.newFlags (newNBuckets - 1) newNBuckets (home kind newNBuckets word) 0 =
        some i ∧ Vacant kind newNBuckets moving word i := by
  have vacant : ∃ i < newNBuckets, isEmpty moving.newFlags i = true := by
    by_contra full
    have everywhere : moving.new newNBuckets = Finset.range newNBuckets := by
      apply Finset.filter_true_of_mem
      intro i member
      rw [isEither_eq_false]
      refine ⟨?_, carrying.undeleted i⟩
      by_contra vacant
      exact full ⟨i, Finset.mem_range.mp member, by simpa using vacant⟩
    rw [everywhere, Finset.card_range] at room
    omega
  obtain ⟨bucket, inside, empty⟩ := vacant
  have below := home_lt kind bucketed word
  obtain ⟨bits, -, -, power⟩ := bucketed
  obtain ⟨stop, bound, stops⟩ : ∃ stop < newNBuckets,
      Stops newNBuckets (home kind newNBuckets word) (fun i => isEmpty moving.newFlags i = true)
        stop :=
    exists_stops power below inside empty
  refine ⟨_, findEmpty_stops power stops (Nat.zero_le stop) (by omega), probe_lt below stop,
    stops.here, stop, bound, rfl, ?_⟩
  intro earlier less
  simpa using stops.before earlier less

theorem new_write (carrying : Carrying kind nBuckets newNBuckets moving entries)
    (vacant : Vacant kind newNBuckets moving (kind.text key) i) :
    (moving.write i key val).new newNBuckets = insert i (moving.new newNBuckets) :=
  live_setIsEmptyFalse _ vacant.inside (carrying.undeleted i)

variable [DecidableEq Text]

theorem vacate (carrying : Carrying kind nBuckets newNBuckets moving entries)
    (member : i ∈ moving.old nBuckets) :
    Carrying kind nBuckets newNBuckets (moving.vacate i)
      (Function.update entries (kind.text (moving.keys i)) none) := by
  have elsewhere : i ∉ moving.new newNBuckets := Finset.disjoint_left.mp carrying.apart member
  refine ⟨?_, ?_, carrying.undeleted, carrying.reachable⟩
  · have removed := carrying.holds.remove (Finset.mem_union_left _ member)
    rw [Finset.erase_union_distrib, Finset.erase_eq_of_notMem elsewhere] at removed
    rw [old_vacate]
    exact removed
  · rw [old_vacate]
    exact Finset.disjoint_of_subset_left (Finset.erase_subset _ _) carrying.apart

theorem write (carrying : Carrying kind nBuckets newNBuckets moving entries)
    (vacant : Vacant kind newNBuckets moving (kind.text key) i)
    (vacated : i ∉ moving.old nBuckets) (absent : entries (kind.text key) = none) (val : Val) :
    Carrying kind nBuckets newNBuckets (moving.write i key val)
      (Function.update entries (kind.text key) (some (key, val))) := by
  have free := vacant.free
  have filled : ∀ j, isEmpty moving.newFlags j = false →
      isEmpty (setIsEmptyFalse moving.newFlags i) j = false := by
    intro j occupied
    rw [(setIsEmptyFalse_flags moving.newFlags i j).1, occupied, Bool.false_and]
  constructor
  · have unused : i ∉ moving.old nBuckets ∪ moving.new newNBuckets := by
      simp [vacated, free]
    have inserted := carrying.holds.insert unused key absent val
    rw [old_write, carrying.new_write vacant, Finset.union_insert]
    exact inserted
  · rw [old_write, carrying.new_write vacant]
    exact Finset.disjoint_insert_right.mpr ⟨vacated, carrying.apart⟩
  · intro j
    exact (setIsEmptyFalse_flags moving.newFlags i j).2.trans (carrying.undeleted j)
  · intro j member
    rw [carrying.new_write vacant, Finset.mem_insert] at member
    by_cases same : j = i
    · subst same
      simpa [Moving.write] using vacant.reachable.mono filled
    · have kept : (moving.write i key val).keys j = moving.keys j := Function.update_of_ne same _ _
      rw [kept]
      exact (carrying.reachable j (member.resolve_left same)).mono filled

end Carrying

/-- Putting the first entry in the place of a second and the second back later leaves
the map with both. -/
theorem update_kicked {first second : Text} {entry other : Key × Val} [DecidableEq Text]
    (held : entries second = some other) (apart : second ≠ first) :
    Function.update (Function.update (Function.update entries second none) first (some entry))
      second (some other) = Function.update entries first (some entry) := by
  have kept : Function.update entries first (some entry) second = some other := by
    rw [Function.update_of_ne apart, held]
  rw [Function.update_comm apart, Function.update_idem, ← kept, Function.update_eq_self]

theorem kickOut_carries [DecidableEq Text] (bucketed : Bucketed newNBuckets) (fuel : Nat)
    {moving : Moving Key Val} {key : Key} (val : Val)
    (carrying : Carrying kind nBuckets newNBuckets moving entries)
    (absent : entries (kind.text key) = none)
    (room : (moving.old nBuckets).card + (moving.new newNBuckets).card < newNBuckets)
    (enough : (moving.old nBuckets).card < fuel) :
    ∃ moved, kickOut kind nBuckets newNBuckets fuel moving key val = some moved ∧
      Carrying kind nBuckets newNBuckets moved
        (Function.update entries (kind.text key) (some (key, val))) ∧
      moved.old nBuckets ⊆ moving.old nBuckets ∧
      (moved.old nBuckets).card + (moved.new newNBuckets).card =
        (moving.old nBuckets).card + (moving.new newNBuckets).card + 1 := by
  induction fuel generalizing moving key val entries with
  | zero => omega
  | succ fuel ih =>
      obtain ⟨i, found, vacant⟩ := carrying.findEmpty_eq bucketed (by omega) (kind.text key)
      have grown : ((moving.write i key val).new newNBuckets).card =
          (moving.new newNBuckets).card + 1 := by
        rw [carrying.new_write vacant, Finset.card_insert_of_notMem vacant.free]
      have search : findEmpty moving.newFlags (newNBuckets - 1) newNBuckets
          (kind.hashFunc key &&& (newNBuckets - 1)) 0 = some i := found
      rw [kickOut]
      simp only [search, Option.bind_some, ← mem_old]
      by_cases member : i ∈ moving.old nBuckets
      · -- the bucket still holds an old entry, which is in hand next
        have held := carrying.holds.bucket i (Finset.mem_union_left _ member)
        have other : kind.text (moving.keys i) ≠ kind.text key := by
          intro same
          rw [same, absent] at held
          contradiction
        have fewer := Finset.card_erase_add_one member
        have placed := (carrying.vacate member).write (vacant.vacate i) (by simp)
          (by rw [Function.update_apply, absent, ite_self]) val
        have sizes : (((moving.vacate i).write i key val).old nBuckets).card + 1 =
              (moving.old nBuckets).card ∧
            (((moving.vacate i).write i key val).new newNBuckets).card =
              (moving.new newNBuckets).card + 1 :=
          ⟨by rw [old_write, old_vacate, fewer], grown⟩
        obtain ⟨moved, ran, carried, subset, count⟩ := ih (moving.vals i) placed
          (by rw [Function.update_of_ne other, Function.update_self]) (by omega) (by omega)
        refine ⟨moved, by rw [if_pos member, ran], ?_, ?_, by omega⟩
        · rwa [update_kicked held other] at carried
        · rw [old_write, old_vacate] at subset
          exact subset.trans (Finset.erase_subset _ _)
      · have placed := carrying.write vacant member absent val
        exact ⟨_, by rw [if_neg member], placed, subset_rfl, by rw [grown, old_write]; omega⟩

variable [DecidableEq Text]

theorem moveBucket_carries (bucketed : Bucketed newNBuckets) {moving : Moving Key Val} {j : Nat}
    (carrying : Carrying kind nBuckets newNBuckets moving entries) (inside : j < nBuckets)
    (room : (moving.old nBuckets).card + (moving.new newNBuckets).card < newNBuckets) :
    ∃ moved, moveBucket kind nBuckets newNBuckets moving j = some moved ∧
      Carrying kind nBuckets newNBuckets moved entries ∧
      moved.old nBuckets ⊆ (moving.old nBuckets).erase j ∧
      (moved.old nBuckets).card + (moved.new newNBuckets).card =
        (moving.old nBuckets).card + (moving.new newNBuckets).card := by
  rw [moveBucket]
  by_cases live : isEither moving.flags j = false
  · have member : j ∈ moving.old nBuckets := mem_old.mpr ⟨inside, live⟩
    have fewer := Finset.card_erase_add_one member
    have held := carrying.holds.bucket j (Finset.mem_union_left _ member)
    have taken := carrying.vacate member
    have bound : (moving.old nBuckets).card ≤ nBuckets := by
      have most := Finset.card_filter_le (Finset.range nBuckets)
        fun i => isEither moving.flags i = false
      rwa [Finset.card_range] at most
    obtain ⟨moved, ran, carried, subset, count⟩ := kickOut_carries bucketed (nBuckets + 1)
      (moving.vals j) taken (Function.update_self ..) (by rw [old_vacate, new_vacate]; omega)
      (by rw [old_vacate]; omega)
    rw [Function.update_idem, ← held, Function.update_eq_self] at carried
    rw [old_vacate] at subset
    rw [old_vacate, new_vacate] at count
    exact ⟨moved, by rw [if_pos live, ran], carried, subset, by omega⟩
  · have absent : j ∉ moving.old nBuckets := fun member => live (mem_old.mp member).2
    exact ⟨moving, by rw [if_neg live], carrying,
      (Finset.erase_eq_of_notMem absent).symm.subset, rfl⟩

theorem moveFrom_carries (bucketed : Bucketed newNBuckets) {left j : Nat}
    {moving : Moving Key Val} (carrying : Carrying kind nBuckets newNBuckets moving entries)
    (rest : j + left = nBuckets) (behind : ∀ i ∈ moving.old nBuckets, j ≤ i)
    (room : (moving.old nBuckets).card + (moving.new newNBuckets).card < newNBuckets) :
    ∃ moved, moveFrom kind nBuckets newNBuckets left j moving = some moved ∧
      Carrying kind nBuckets newNBuckets moved entries ∧ moved.old nBuckets = ∅ ∧
      (moved.new newNBuckets).card =
        (moving.old nBuckets).card + (moving.new newNBuckets).card := by
  induction left generalizing j moving with
  | zero =>
      have nothing : moving.old nBuckets = ∅ := by
        apply Finset.eq_empty_of_forall_notMem
        intro i member
        have late := behind i member
        have inside := (mem_old.mp member).1
        omega
      exact ⟨moving, rfl, carrying, nothing, by rw [nothing, Finset.card_empty, Nat.zero_add]⟩
  | succ left ih =>
      obtain ⟨moved, ran, carried, subset, count⟩ :=
        moveBucket_carries bucketed carrying (by omega : j < nBuckets) room
      have onward : ∀ i ∈ moved.old nBuckets, j + 1 ≤ i := by
        intro i member
        obtain ⟨apart, before⟩ := Finset.mem_erase.mp (subset member)
        have late := behind i before
        omega
      obtain ⟨final, finished, kept, nothing, total⟩ :=
        ih carried (by omega) onward (by omega)
      exact ⟨final, by rw [moveFrom, ran, Option.bind_some, finished], kept, nothing, by omega⟩

section Resize

variable {h after : KHash Key Val} {memory : Bool} {request : BitVec 32} {result : Int}

/-- The number of buckets that a request for so many leads to. -/
def bucketsFor (request : BitVec 32) : Nat :=
  if (kroundup32 request).toNat < 4 then 4 else (kroundup32 request).toNat

inductive Resized (h : KHash Key Val) (memory : Bool) (request : BitVec 32) :
    Int → KHash Key Val → Prop
  | tooSmall (small : upperOf (bucketsFor request) ≤ h.size) : Resized h memory request 0 h
  | noMemory (refused : memory = false) : Resized h memory request (-1) h
  | moved (after : KHash Key Val) (large : h.size < upperOf (bucketsFor request))
      (granted : memory = true) (buckets : after.nBuckets = bucketsFor request)
      (upper : after.upperBound = upperOf (bucketsFor request)) (size : after.size = h.size)
      (occupied : after.nOccupied = h.size) : Resized h memory request 0 after

theorem Refines.moved (refines : Refines kind h entries) (bucketed : Bucketed newNBuckets)
    (large : h.size < upperOf newNBuckets) :
    ∃ moving, moveFrom kind h.nBuckets newNBuckets h.nBuckets 0
        ⟨h.flags, freshFlags, h.keys, h.vals⟩ = some moving ∧
      Refines kind ⟨newNBuckets, h.size, h.size, upperOf newNBuckets, moving.newFlags,
        moving.keys, moving.vals⟩ entries := by
  have room := upperOf_lt bucketed
  have size := refines.inOrder.size
  have start :
      Carrying kind h.nBuckets newNBuckets ⟨h.flags, freshFlags, h.keys, h.vals⟩ entries := by
    have fresh : (⟨h.flags, freshFlags, h.keys, h.vals⟩ : Moving Key Val).new newNBuckets = ∅ :=
      live_freshFlags
    refine ⟨?_, ?_, fun i => (freshFlags_flags i).2, ?_⟩
    · rw [fresh, Finset.union_empty]
      exact refines.holds
    · rw [fresh]
      exact Finset.disjoint_empty_right _
    · rw [fresh]
      simp
  have fresh : ((⟨h.flags, freshFlags, h.keys, h.vals⟩ : Moving Key Val).new newNBuckets).card =
    0 :=
    Finset.card_eq_zero.mpr live_freshFlags
  have counted : ((⟨h.flags, freshFlags, h.keys, h.vals⟩ : Moving Key Val).old h.nBuckets).card =
      h.size := size.symm
  obtain ⟨moving, ran, carried, nothing, count⟩ :=
    moveFrom_carries bucketed start (by omega : 0 + h.nBuckets = h.nBuckets)
      (fun i _ => Nat.zero_le i) (by omega)
  have all : (moving.new newNBuckets).card = h.size := by omega
  have used : usedBuckets newNBuckets moving.newFlags = moving.new newNBuckets := by
    ext i
    rw [Moving.new, mem_used, mem_live]
    simp [carried.undeleted i]
  have holds := carried.holds
  rw [nothing, Finset.empty_union] at holds
  refine ⟨moving, ran, ⟨.inr bucketed, rfl, all.symm, ?_, large.le, carried.reachable⟩, holds⟩
  rw [used, all]

/-- Whatever `kh_resize` is asked for and however it ends, the table holds the same map. -/
theorem Refines.khResize_eq (refines : Refines kind h entries) (memory : Bool)
    (request : BitVec 32) :
    ∃ result after, khResize kind memory request h = some (result, after) ∧
      Refines kind after entries ∧ Resized h memory request result after := by
  have bucketed : Bucketed (bucketsFor request) := roundup_power request
  have unfolded : khResize kind memory request h =
      if h.size ≥ upperOf (bucketsFor request) then some (0, h)
      else if !memory then some (-1, h)
      else (moveFrom kind h.nBuckets (bucketsFor request) h.nBuckets 0
        ⟨h.flags, freshFlags, h.keys, h.vals⟩).map fun moved =>
          (0, ⟨bucketsFor request, h.size, h.size, upperOf (bucketsFor request), moved.newFlags,
            moved.keys, moved.vals⟩) := rfl
  by_cases small : upperOf (bucketsFor request) ≤ h.size
  · exact ⟨0, h, unfolded.trans (if_pos small), refines, .tooSmall small⟩
  · rw [if_neg small] at unfolded
    cases memory with
    | false => exact ⟨-1, h, unfolded, refines, .noMemory rfl⟩
    | true =>
        obtain ⟨moving, ran, moved⟩ := refines.moved bucketed (by omega)
        refine ⟨0, _, ?_, moved, .moved _ (by omega) rfl rfl rfl rfl rfl⟩
        rw [unfolded, ran]
        rfl

end Resize

end DirtyCode.ConfCli
