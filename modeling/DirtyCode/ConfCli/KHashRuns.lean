import DirtyCode.ConfCli.Entries

/-!
Runs of operations on the hash table of `ConfCli.c`, and the map that they amount to.
-/

namespace DirtyCode.ConfCli

open Lib

variable {Key Val Text : Type*} [DecidableEq Text]

/-- What callers do with a table: `kh_put` and then, if it went well, an assignment to
`kh_value`; `kh_get` and then `kh_del`; and the rest. -/
inductive Operation (Key Val : Type*)
  | put (memory : Bool) (key : Key) (val : Val)
  | del (key : Key)
  | clear
  | resize (memory : Bool) (newNBuckets : BitVec 32)

section Runs

variable (kind : KeyKind Key Text)

def Operation.run (h : KHash Key Val) : Operation Key Val → Option (Int × KHash Key Val)
  | .put memory key val =>
      (khPut kind memory h key).map fun put =>
        (put.ret, if put.ret < 0 then put.table else setValue put.table put.x val)
  | .del key => (khGet kind h key).map fun x => (0, khDel h x)
  | .clear => some (0, khClear h)
  | .resize memory newNBuckets => khResize kind memory newNBuckets h

def runAll : List (Operation Key Val) → KHash Key Val → Option (List Int × KHash Key Val)
  | [], h => some ([], h)
  | operation :: rest, h =>
      (operation.run kind h).bind fun (ret, after) =>
        (runAll rest after).map fun (rets, final) => (ret :: rets, final)

def khFind (h : KHash Key Val) (key : Key) : Option (Option Val) :=
  (khGet kind h key).map fun x => if x = h.nBuckets then none else some (h.vals x)

/-- What an operation does to the map, going by what it reported. -/
def Operation.effect (ret : Int) (entries : Text → Option (Key × Val)) :
    Operation Key Val → Text → Option (Key × Val)
  | .put _ key val =>
      if ret < 0 then entries
      else
        Function.update entries (kind.text key)
          (some ((entries (kind.text key)).elim key Prod.fst, val))
  | .del key => Function.update entries (kind.text key) none
  | .clear => fun _ => none
  | .resize _ _ => entries

/-- What an operation may report: a put tells whether the key was there, and only want of
memory makes anything fail. -/
def Operation.MayReport (entries : Text → Option (Key × Val)) (ret : Int) :
    Operation Key Val → Prop
  | .put memory key _ =>
      (memory = false ∧ ret = -1) ∨
        ((ret = 0 ↔ (entries (kind.text key)).isSome) ∧ 0 ≤ ret ∧ ret ≤ 2)
  | .del _ => ret = 0
  | .clear => ret = 0
  | .resize memory _ => ret = 0 ∨ (memory = false ∧ ret = -1)

/-- The map that a run of operations amounts to, with what they report. -/
inductive Replays : List (Operation Key Val) → List Int →
    (Text → Option (Key × Val)) → (Text → Option (Key × Val)) → Prop
  | nil (entries) : Replays [] [] entries entries
  | cons {operation rest ret rets entries final} (reported : operation.MayReport kind entries ret)
      (onward : Replays rest rets (operation.effect kind ret entries) final) :
      Replays (operation :: rest) (ret :: rets) entries final

end Runs

variable {kind : KeyKind Key Text} {h : KHash Key Val} {entries : Text → Option (Key × Val)}

theorem Refines.run_eq (refines : Refines kind h entries) (few : h.size < 2 ^ 30)
    (operation : Operation Key Val) :
    ∃ ret after, operation.run kind h = some (ret, after) ∧
      operation.MayReport kind entries ret ∧
      Refines kind after (operation.effect kind ret entries) ∧ after.size ≤ h.size + 1 := by
  cases operation with
  | put memory key val =>
      obtain ⟨put, ran, ended⟩ := refines.khPut_eq memory few key
      rw [Operation.run, ran]
      rcases ended with ⟨refused, rfl⟩ | stored
      · exact ⟨-1, h, rfl, .inl ⟨refused, rfl⟩, refines, Nat.le_succ _⟩
      · have positive : ¬put.ret < 0 := by
          have least := stored.ret.2.1
          omega
        have assigned := stored.refines.setValue_eq stored.live val
        have same : kind.text (put.table.keys put.x) = kind.text key := by
          rw [stored.key_kept]
          cases present : entries (kind.text key) with
          | none => rfl
          | some entry =>
              obtain ⟨i, -, equal, rfl⟩ := (refines.holds.entry_iff _ _).mp present
              exact equal
        rw [same, Function.update_idem, stored.key_kept] at assigned
        refine ⟨put.ret, setValue put.table put.x val, ?_, .inr stored.ret, ?_, stored.size⟩
        · simp only [Option.map_some, if_neg positive]
        · rw [Operation.effect, if_neg positive]
          exact assigned
  | del key =>
      obtain ⟨x, found, located⟩ := refines.khGet_eq key
      refine ⟨0, khDel h x, by rw [Operation.run, found]; rfl, rfl, refines.khDel_eq located, ?_⟩
      rw [khDel]
      split
      · exact (Nat.sub_le _ _).trans (Nat.le_succ _)
      · exact Nat.le_succ _
  | clear =>
      refine ⟨0, khClear h, rfl, rfl, refines.khClear_eq, ?_⟩
      rw [khClear]
      split <;> simp
  | resize memory newNBuckets =>
      obtain ⟨result, after, ran, kept, ended⟩ := refines.khResize_eq memory newNBuckets
      refine ⟨result, after, ran, ?_, kept, ?_⟩
      · cases ended with
        | tooSmall => exact .inl rfl
        | noMemory refused => exact .inr ⟨refused, rfl⟩
        | moved => exact .inl rfl
      · cases ended with
        | tooSmall => omega
        | noMemory => omega
        | moved _ _ _ _ _ size => omega

/-- Every run of operations comes to its end, on a table of the map that it amounts to. -/
theorem Refines.runAll_eq (refines : Refines kind h entries)
    (operations : List (Operation Key Val)) (few : h.size + operations.length ≤ 2 ^ 30) :
    ∃ rets final map, runAll kind operations h = some (rets, final) ∧
      Replays kind operations rets entries map ∧ Refines kind final map ∧
      final.size ≤ h.size + operations.length := by
  induction operations generalizing h entries with
  | nil => exact ⟨[], h, entries, rfl, .nil entries, refines, Nat.le_refl _⟩
  | cons operation rest ih =>
      rw [List.length_cons] at few
      obtain ⟨ret, after, ran, reported, kept, size⟩ := refines.run_eq (by omega) operation
      obtain ⟨rets, final, map, finished, replayed, refined, total⟩ := ih kept (by omega)
      refine ⟨ret :: rets, final, map, ?_, .cons reported replayed, refined, ?_⟩
      · simp only [runAll, ran, Option.bind_some, finished, Option.map_some]
      · rw [List.length_cons]
        omega

theorem Refines.khFind_eq (refines : Refines kind h entries) (key : Key) :
    khFind kind h key = some ((entries (kind.text key)).map Prod.snd) := by
  obtain ⟨x, found, located⟩ := refines.khGet_eq key
  rw [khFind, found, Option.map_some]
  rcases located with ⟨absent, rfl⟩ | ⟨present, -, live⟩
  · rw [if_pos rfl, absent]
    rfl
  · have inside := (mem_live.mp live).1
    rw [if_neg inside.ne, present]
    rfl

/-- After any run of operations a lookup finds what the replayed map has, and `kh_size`
counts its keys. -/
theorem found_as_replayed (kind : KeyKind Key Text) (operations : List (Operation Key Val))
    (few : operations.length ≤ 2 ^ 30) (keys : Nat → Key) (vals : Nat → Val) :
    ∃ rets final map, runAll kind operations (khInit keys vals) = some (rets, final) ∧
      Replays kind operations rets (fun _ => none) map ∧
      (∀ key, khFind kind final key = some ((map (kind.text key)).map Prod.snd)) ∧
      final.size = {word | (map word).isSome}.ncard := by
  have start : Refines kind (khInit keys vals) fun _ => none := refines_khInit keys vals
  have nothing : (khInit keys vals).size = 0 := rfl
  obtain ⟨rets, final, map, ran, replayed, refined, -⟩ := start.runAll_eq operations (by omega)
  exact ⟨rets, final, map, ran, replayed, refined.khFind_eq,
    by rw [refined.holds.ncard_eq, refined.inOrder.size]⟩

def intKind : KeyKind (BitVec 32) (BitVec 32) := ⟨id, id⟩

def collidingRun : List (Operation (BitVec 32) Nat) :=
  [.put true 3 10, .put true 7 20, .del 3, .put true 7 30, .resize true 1]

theorem found_after_colliding :
    ∃ rets final map, runAll intKind collidingRun (khInit (fun _ => 0) (fun _ => 0)) =
        some (rets, final) ∧
      Replays intKind collidingRun rets (fun _ => none) map ∧
      (∀ key, khFind intKind final key = some ((map (intKind.text key)).map Prod.snd)) ∧
      final.size = {word | (map word).isSome}.ncard :=
  found_as_replayed intKind collidingRun (by decide) _ _

/-- A search passes used buckets only, and no bucket twice. -/
theorem InOrder.stop_le (inOrder : InOrder kind h) (bucketed : Bucketed h.nBuckets) {key : Key}
    {stop : Nat} (bound : stop < h.nBuckets)
    (stops : Stops h.nBuckets (home kind h.nBuckets (kind.text key))
      (fun i => goesOn kind h key i = false) stop) : stop ≤ h.nOccupied := by
  have below := home_lt kind bucketed (kind.text key)
  obtain ⟨bits, -, -, power⟩ := bucketed
  have passed : ∀ step ∈ Finset.range stop, probe h.nBuckets (home kind h.nBuckets (kind.text key))
      step ∈ usedBuckets h.nBuckets h.flags := by
    intro step member
    refine mem_used.mpr ⟨probe_lt below step, ?_⟩
    by_contra vacant
    exact stops.before step (Finset.mem_range.mp member)
      (goesOn_eq_false.mpr (.inl (by simpa using vacant)))
  have apart : Set.InjOn (probe h.nBuckets (home kind h.nBuckets (kind.text key)))
      (Finset.range stop) := by
    intro first early second late same
    have one := Finset.mem_range.mp early
    have two := Finset.mem_range.mp late
    exact probe_injective power below (by omega) (by omega) same
  have most := Finset.card_le_card_of_injOn _ passed apart
  rwa [Finset.card_range, ← inOrder.occupied] at most

/-- The searches in any table that operations lead to look at one bucket more than are in
use at most, and do not come back to where they started. -/
theorem looks_le_occupied (kind : KeyKind Key Text) (operations : List (Operation Key Val))
    (few : operations.length ≤ 2 ^ 30) (keys : Nat → Key) (vals : Nat → Val) :
    ∃ rets final, runAll kind operations (khInit keys vals) = some (rets, final) ∧
      final.size ≤ final.nOccupied ∧ final.nOccupied ≤ final.upperBound ∧
      (final.nBuckets ≠ 0 → final.upperBound < final.nBuckets ∧
        ∀ key note site, ∃ ended,
          probeLoop (final.nBuckets - 1) (kind.hashFunc key &&& (final.nBuckets - 1))
            (goesOn kind final key) note (final.nOccupied + 1)
            (kind.hashFunc key &&& (final.nBuckets - 1)) 0 site = some ended ∧
          ended.again = false) := by
  have start : Refines kind (khInit keys vals) fun _ => none := refines_khInit keys vals
  have nothing : (khInit keys vals).size = 0 := rfl
  obtain ⟨rets, final, map, ran, -, refined, -⟩ := start.runAll_eq operations (by omega)
  have inOrder := refined.inOrder
  refine ⟨rets, final, ran, ?_, inOrder.bounded, fun real => ?_⟩
  · rw [inOrder.size, inOrder.occupied]
    exact Finset.card_le_card (live_subset_used _ _)
  · have bucketed := inOrder.buckets.resolve_left real
    refine ⟨inOrder.upper ▸ upperOf_lt bucketed, fun key note site => ?_⟩
    obtain ⟨stop, bound, stops⟩ := inOrder.exists_stops bucketed key
    have early := inOrder.stop_le bucketed bound stops
    obtain ⟨last, -, ended⟩ := probeLoop_stops bucketed (home_lt kind bucketed (kind.text key)) note
      bound stops (fun _ _ => True) (fun _ _ _ _ => trivial) (Nat.zero_le stop)
      (by omega : stop - 0 < final.nOccupied + 1) (trivial : (fun _ _ : Nat => True) 0 site)
    exact ⟨_, ended, rfl⟩

theorem looks_in_colliding :
    ∃ rets final, runAll intKind collidingRun (khInit (fun _ => 0) (fun _ => 0)) =
        some (rets, final) ∧
      final.size ≤ final.nOccupied ∧ final.nOccupied ≤ final.upperBound ∧
      (final.nBuckets ≠ 0 → final.upperBound < final.nBuckets ∧
        ∀ key note site, ∃ ended,
          probeLoop (final.nBuckets - 1) (intKind.hashFunc key &&& (final.nBuckets - 1))
            (goesOn intKind final key) note (final.nOccupied + 1)
            (intKind.hashFunc key &&& (final.nBuckets - 1)) 0 site = some ended ∧
          ended.again = false) :=
  looks_le_occupied intKind collidingRun (by decide) _ _

/-- A resize with memory enough clears all deleted buckets away, and no lookup notices. -/
theorem resize_unnoticed (kind : KeyKind Key Text) (operations : List (Operation Key Val))
    (few : operations.length ≤ 2 ^ 30) (keys : Nat → Key) (vals : Nat → Val) :
    ∃ rets before, runAll kind operations (khInit keys vals) = some (rets, before) ∧
      ∀ request, before.size < upperOf (bucketsFor request) →
        ∃ after, khResize kind true request before = some (0, after) ∧
          after.nBuckets = bucketsFor request ∧ after.size = before.size ∧
          after.nOccupied = after.size ∧
          (∀ i < after.nBuckets, isEither after.flags i = isEmpty after.flags i) ∧
          ∀ key, khFind kind after key = khFind kind before key := by
  have start : Refines kind (khInit keys vals) fun _ => none := refines_khInit keys vals
  have nothing : (khInit keys vals).size = 0 := rfl
  obtain ⟨rets, before, map, ran, -, refined, -⟩ := start.runAll_eq operations (by omega)
  refine ⟨rets, before, ran, fun request large => ?_⟩
  obtain ⟨result, after, resized, kept, ended⟩ := refined.khResize_eq true request
  have found : ∀ key, khFind kind after key = khFind kind before key := fun key => by
    rw [kept.khFind_eq, refined.khFind_eq]
  cases ended with
  | tooSmall small => omega
  | noMemory refused => contradiction
  | moved _ _ _ buckets upper size occupied =>
      have counted : after.nOccupied = after.size := by omega
      have equal : liveBuckets after.nBuckets after.flags =
        usedBuckets after.nBuckets after.flags := by
        apply Finset.eq_of_subset_of_card_le (live_subset_used _ _)
        rw [← kept.inOrder.size, ← kept.inOrder.occupied, counted]
      refine ⟨after, resized, buckets, size, counted, fun i inside => ?_, found⟩
      cases vacant : isEmpty after.flags i with
      | true => rw [isEither_eq, vacant, Bool.true_or]
      | false =>
          have live := equal.symm ▸ mem_used.mpr ⟨inside, vacant⟩
          exact (Finset.mem_filter.mp live).2

theorem resize_unnoticed_in_colliding :
    ∃ rets before, runAll intKind collidingRun (khInit (fun _ => 0) (fun _ => 0)) =
        some (rets, before) ∧
      ∀ request, before.size < upperOf (bucketsFor request) →
        ∃ after, khResize intKind true request before = some (0, after) ∧
          after.nBuckets = bucketsFor request ∧ after.size = before.size ∧
          after.nOccupied = after.size ∧
          (∀ i < after.nBuckets, isEither after.flags i = isEmpty after.flags i) ∧
          ∀ key, khFind intKind after key = khFind intKind before key :=
  resize_unnoticed intKind collidingRun (by decide) _ _

example : (runAll intKind collidingRun (khInit (fun _ => 0) (fun _ => 0))).map
    (fun ended => (ended.1, ended.2.nBuckets, ended.2.size, khFind intKind ended.2 7)) =
      some ([1, 1, 0, 0, 0], 4, 1, some (some 30)) := by
  decide

end DirtyCode.ConfCli
