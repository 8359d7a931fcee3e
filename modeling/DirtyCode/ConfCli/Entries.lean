import DirtyCode.ConfCli.Rehash

/-!
What the operations of the hash table in `ConfCli.c` do to the map that it holds, and
what a table answers after any run of them.
-/

namespace DirtyCode.ConfCli

open Lib

variable {Key Val Text : Type*} {kind : KeyKind Key Text} {h : KHash Key Val}
  {entries : Text → Option (Key × Val)}

theorem refines_khInit (keys : Nat → Key) (vals : Nat → Val) :
    Refines kind (khInit keys vals) fun _ => none where
  inOrder := ⟨.inl rfl, upperOf_zero.symm, rfl, rfl, le_rfl, fun i member => by
    have inside := (mem_live.mp member).1
    contradiction⟩
  holds := Holds.nothing kind.text keys vals

theorem Refines.khClear_eq (refines : Refines kind h entries) :
    Refines kind (khClear h) fun _ => none := by
  rw [khClear]
  split
  · refine ⟨⟨refines.inOrder.buckets, refines.inOrder.upper, ?_, ?_, Nat.zero_le _, ?_⟩, ?_⟩
    · simp [live_freshFlags]
    · simp [used_freshFlags]
    · simp [live_freshFlags]
    · rw [live_freshFlags]
      exact Holds.nothing kind.text h.keys h.vals
  · rename_i empty
    have nothing : liveBuckets h.nBuckets h.flags = ∅ := by
      have zero : h.nBuckets = 0 := by omega
      rw [zero]
      rfl
    refine ⟨refines.inOrder, ?_⟩
    rw [nothing]
    exact Holds.nothing kind.text h.keys h.vals

theorem Refines.setValue_eq [DecidableEq Text] (refines : Refines kind h entries) {x : Nat}
    (live : x ∈ liveBuckets h.nBuckets h.flags) (val : Val) :
    Refines kind (setValue h x val)
      (Function.update entries (kind.text (h.keys x)) (some (h.keys x, val))) where
  inOrder := ⟨refines.inOrder.buckets, refines.inOrder.upper, refines.inOrder.size,
    refines.inOrder.occupied,
    refines.inOrder.bounded, refines.inOrder.reachable⟩
  holds := refines.holds.setVal live val

theorem Refines.khDel_eq [DecidableEq Text] (refines : Refines kind h entries) {word : Text}
    {x : Nat} (located : Locates kind h entries word x) :
    Refines kind (khDel h x) (Function.update entries word none) := by
  rcases located with ⟨absent, rfl⟩ | ⟨-, rfl, live⟩
  · rw [← absent, Function.update_eq_self]
    simpa [khDel] using refines
  · have fewer := Finset.card_erase_add_one live
    have size := refines.inOrder.size
    obtain ⟨inside, either⟩ := Finset.mem_filter.mp live
    have apart : x ≠ h.nBuckets := (Finset.mem_range.mp inside).ne
    rw [khDel, if_pos ⟨apart, either⟩]
    refine ⟨⟨refines.inOrder.buckets, refines.inOrder.upper, ?_, ?_, refines.inOrder.bounded, ?_⟩,
      ?_⟩
    · simp only [live_setIsDelTrue]
      omega
    · simp only [used_setIsDelTrue]
      exact refines.inOrder.occupied
    · intro i member
      simp only [live_setIsDelTrue] at member
      exact (refines.inOrder.reachable i (Finset.mem_of_mem_erase member)).mono fun j occupied => by
        rw [(setIsDelTrue_flags h.flags x j).1, occupied]
    · simp only [live_setIsDelTrue]
      exact refines.holds.remove live

section Put

variable [DecidableEq Text] {memory : Bool}

theorem Refines.makeRoom_eq (refines : Refines kind h entries) (memory : Bool)
    (few : h.size < 2 ^ 30) :
    ∃ result after, makeRoom kind memory h = some (result, after) ∧
      Refines kind after entries ∧ after.size = h.size ∧
      ((result = -1 ∧ memory = false ∧ after = h) ∨
        (result = 0 ∧ Bucketed after.nBuckets ∧ after.nOccupied < after.upperBound)) := by
  have whole : h.size * 2 % 2 ^ 32 = h.size * 2 := Nat.mod_eq_of_lt (by omega)
  have upper := refines.inOrder.upper
  rw [makeRoom, whole]
  by_cases full : h.nOccupied ≥ h.upperBound
  · have resized (request : BitVec 32) (large : h.size < upperOf (bucketsFor request)) :
        ∃ result after, khResize kind memory request h = some (result, after) ∧
          Refines kind after entries ∧ after.size = h.size ∧
          ((result = -1 ∧ memory = false ∧ after = h) ∨
            (result = 0 ∧ Bucketed after.nBuckets ∧ after.nOccupied < after.upperBound)) := by
      obtain ⟨result, after, ran, kept, ended⟩ := refines.khResize_eq memory request
      refine ⟨result, after, ran, kept, ?_⟩
      cases ended with
      | tooSmall small => omega
      | noMemory refused => exact ⟨rfl, .inl ⟨rfl, refused, rfl⟩⟩
      | moved _ granted _ buckets bound size occupied =>
          exact ⟨size, .inr ⟨rfl, buckets ▸ roundup_power request, by omega⟩⟩
    simp only [if_pos full]
    have less : h.size ≤ h.nOccupied := by
      rw [refines.inOrder.size, refines.inOrder.occupied]
      exact Finset.card_le_card (live_subset_used _ _)
    have bounded := refines.inOrder.bounded
    rcases refines.inOrder.buckets with nothing | bucketed
    · rw [nothing] at upper ⊢
      rw [upperOf_zero] at upper
      have zero : h.size = 0 := by omega
      rw [if_neg (by omega)]
      exact resized _ (by rw [zero]; decide)
    · have room := upperOf_lt bucketed
      obtain ⟨bits, enough, fits, power⟩ := bucketed
      have four : 2 ^ 2 ≤ 2 ^ bits := Nat.pow_le_pow_right (by decide) enough
      by_cases sparse : h.nBuckets > h.size * 2
      · rw [if_pos sparse]
        apply resized
        have same : bucketsFor (BitVec.ofNat 32 h.nBuckets - 1) = h.nBuckets := by
          rw [bucketsFor, power, roundup_pred enough fits, if_neg (by omega)]
        rw [same, upperOf]
        omega
      · rw [if_neg sparse]
        have fits' : bits ≤ 30 := by
          by_contra large
          have most : 2 ^ 31 ≤ 2 ^ bits := Nat.pow_le_pow_right (by decide) (by omega)
          omega
        apply resized
        have double : bucketsFor (BitVec.ofNat 32 h.nBuckets + 1) = 2 * h.nBuckets := by
          rw [bucketsFor, power, roundup_succ fits', Nat.pow_succ', if_neg (by omega)]
        rw [double, upperOf]
        omega
  · refine ⟨0, h, if_neg full, refines, rfl, .inr ⟨rfl, ?_, by omega⟩⟩
    rcases refines.inOrder.buckets with nothing | bucketed
    · rw [upper, nothing, upperOf_zero] at full
      omega
    · exact bucketed

/-- The bucket that a put has found holds the key afterwards; the key itself is stored
only where there was none. -/
structure Stored (kind : KeyKind Key Text) (h : KHash Key Val)
    (entries : Text → Option (Key × Val)) (key : Key) (put : Put Key Val) : Prop where
  ret : (put.ret = 0 ↔ (entries (kind.text key)).isSome) ∧ 0 ≤ put.ret ∧ put.ret ≤ 2
  live : put.x ∈ liveBuckets put.table.nBuckets put.table.flags
  key_kept : put.table.keys put.x = (entries (kind.text key)).elim key Prod.fst
  refines : Refines kind put.table
    (Function.update entries (kind.text key) (some (put.table.keys put.x, put.table.vals put.x)))
  size : put.table.size ≤ h.size + 1

/-- Filling a free bucket that the search for the key comes to. -/
theorem Refines.fill (refines : Refines kind h entries) (bucketed : Bucketed h.nBuckets)
    {key : Key} {x : Nat} (absent : entries (kind.text key) = none)
    (free : x ∉ liveBuckets h.nBuckets h.flags)
    (reachable : Reachable kind h.nBuckets h.flags (kind.text key) x) (occupied : Nat)
    (counted : occupied = (insert x (usedBuckets h.nBuckets h.flags)).card)
    (bounded : occupied ≤ h.upperBound) :
    Refines kind { h with
        keys := Function.update h.keys x key
        flags := setIsBothFalse h.flags x
        size := h.size + 1
        nOccupied := occupied }
      (Function.update entries (kind.text key) (some (key, h.vals x))) := by
  have inside := reachable.lt bucketed
  have filled : ∀ j, isEmpty h.flags j = false → isEmpty (setIsBothFalse h.flags x) j = false := by
    intro j vacant
    rw [(setIsBothFalse_flags h.flags x j).1, vacant, Bool.false_and]
  refine ⟨⟨refines.inOrder.buckets, refines.inOrder.upper, ?_, ?_, bounded, ?_⟩, ?_⟩
  · simp only [live_setIsBothFalse h.flags inside]
    rw [Finset.card_insert_of_notMem free, refines.inOrder.size]
  · simp only [used_setIsBothFalse h.flags inside]
    exact counted
  · intro j member
    simp only [live_setIsBothFalse h.flags inside, Finset.mem_insert] at member ⊢
    by_cases same : j = x
    · subst same
      simpa using reachable.mono filled
    · rw [Function.update_of_ne same]
      exact (refines.inOrder.reachable j (member.resolve_left same)).mono filled
  · have inserted := refines.holds.insert free key absent (h.vals x)
    rw [Function.update_eq_self] at inserted
    simp only [live_setIsBothFalse h.flags inside]
    exact inserted

theorem Refines.occupy_eq (refines : Refines kind h entries) (bucketed : Bucketed h.nBuckets)
    (room : h.nOccupied < h.upperBound) {key : Key} {x : Nat} (site : putSite kind h key = some x) :
    Stored kind h entries key (occupy h key x) := by
  obtain ⟨found, same, chosen⟩ := refines.putSite_eq bucketed key
  obtain rfl : found = x := Option.some.inj (same.symm.trans site)
  rcases chosen with ⟨live, equal⟩ | ⟨absent, free, reachable⟩
  · obtain ⟨-, occupied, kept⟩ := mem_live.mp live
    have held : entries (kind.text key) = some (h.keys found, h.vals found) :=
      equal ▸ refines.holds.bucket found live
    have whole : occupy h key found = ⟨h, found, 0⟩ := by simp [occupy, occupied, kept]
    rw [whole]
    refine ⟨by simp [held], live, by simp [held], ?_, Nat.le_succ _⟩
    simp only
    rw [← held, Function.update_eq_self]
    exact refines
  · have inside := reachable.lt bucketed
    have used := refines.inOrder.occupied
    have live : found ∈ liveBuckets h.nBuckets (setIsBothFalse h.flags found) := by
      rw [live_setIsBothFalse h.flags inside]
      exact Finset.mem_insert_self _ _
    cases vacant : isEmpty h.flags found with
    | true =>
        have outside : found ∉ usedBuckets h.nBuckets h.flags := by
          intro member
          rw [(mem_used.mp member).2] at vacant
          contradiction
        have filled := refines.fill bucketed absent free reachable (h.nOccupied + 1)
          (by rw [Finset.card_insert_of_notMem outside, used]) room
        rw [occupy, if_pos vacant]
        refine ⟨by simp [absent], live, by simp [absent], ?_, le_rfl⟩
        simp only [Function.update_self]
        exact filled
    | false =>
        have member := mem_used.mpr ⟨inside, vacant⟩
        have deleted : isDel h.flags found = true := by
          by_contra kept
          exact free (mem_live.mpr ⟨inside, vacant, by simpa using kept⟩)
        have filled := refines.fill bucketed absent free reachable h.nOccupied
          (by rw [Finset.insert_eq_of_mem member, used]) room.le
        rw [occupy, if_neg (by simp [vacant]), if_pos deleted]
        refine ⟨by simp [absent], live, by simp [absent], ?_, le_rfl⟩
        simp only [Function.update_self]
        exact filled

theorem Refines.khPut_eq (refines : Refines kind h entries) (memory : Bool)
    (few : h.size < 2 ^ 30) (key : Key) :
    ∃ put, khPut kind memory h key = some put ∧
      ((memory = false ∧ put = ⟨h, h.nBuckets, -1⟩) ∨ Stored kind h entries key put) := by
  obtain ⟨result, roomy, ran, kept, size, ended⟩ := refines.makeRoom_eq memory few
  rcases ended with ⟨rfl, refused, rfl⟩ | ⟨rfl, bucketed, room⟩
  · exact ⟨⟨roomy, roomy.nBuckets, -1⟩, by rw [khPut, ran]; rfl, .inl ⟨refused, rfl⟩⟩
  · obtain ⟨x, site, -⟩ := kept.putSite_eq bucketed key
    have stored := kept.occupy_eq bucketed room site
    refine ⟨occupy roomy key x, ?_, .inr ⟨stored.ret, stored.live, stored.key_kept, stored.refines,
      size ▸ stored.size⟩⟩
    rw [khPut, ran, Option.bind_some]
    simp [site]

end Put

end DirtyCode.ConfCli
