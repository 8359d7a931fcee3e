import DirtyCode.ConfCli.KHash
import DirtyCode.Lib.Layout
import DirtyCode.Lib.Probing

/-!
What the probe loops of the hash table in `ConfCli.c` find in a table that is in order.
-/

namespace DirtyCode.ConfCli

open Lib

def liveBuckets (nBuckets : Nat) (flags : Flags) : Finset Nat :=
  (Finset.range nBuckets).filter fun i => isEither flags i = false

def usedBuckets (nBuckets : Nat) (flags : Flags) : Finset Nat :=
  (Finset.range nBuckets).filter fun i => isEmpty flags i = false

theorem mem_live {nBuckets i : Nat} {flags : Flags} :
    i ∈ liveBuckets nBuckets flags ↔ i < nBuckets ∧ isEmpty flags i = false ∧
      isDel flags i = false := by
  rw [liveBuckets, Finset.mem_filter, Finset.mem_range, isEither_eq_false]

theorem mem_used {nBuckets i : Nat} {flags : Flags} :
    i ∈ usedBuckets nBuckets flags ↔ i < nBuckets ∧ isEmpty flags i = false := by
  rw [usedBuckets, Finset.mem_filter, Finset.mem_range]

theorem live_subset_used (nBuckets : Nat) (flags : Flags) :
    liveBuckets nBuckets flags ⊆ usedBuckets nBuckets flags := by
  intro i live
  obtain ⟨inside, occupied, -⟩ := mem_live.mp live
  exact mem_used.mpr ⟨inside, occupied⟩

section Setters

variable (nBuckets : Nat) (flags : Flags) {i : Nat}

@[simp] theorem live_setIsDelTrue :
    liveBuckets nBuckets (setIsDelTrue flags i) = (liveBuckets nBuckets flags).erase i := by
  ext j
  rw [Finset.mem_erase, mem_live, mem_live, (setIsDelTrue_flags flags i j).1,
    (setIsDelTrue_flags flags i j).2]
  simp
  tauto

@[simp] theorem used_setIsDelTrue :
    usedBuckets nBuckets (setIsDelTrue flags i) = usedBuckets nBuckets flags := by
  ext j
  rw [mem_used, mem_used, (setIsDelTrue_flags flags i j).1]

variable {nBuckets}

theorem live_setIsBothFalse (inside : i < nBuckets) :
    liveBuckets nBuckets (setIsBothFalse flags i) = insert i (liveBuckets nBuckets flags) := by
  ext j
  rw [Finset.mem_insert, mem_live, mem_live, (setIsBothFalse_flags flags i j).1,
    (setIsBothFalse_flags flags i j).2]
  by_cases same : j = i <;> simp [same, inside]

theorem used_setIsBothFalse (inside : i < nBuckets) :
    usedBuckets nBuckets (setIsBothFalse flags i) = insert i (usedBuckets nBuckets flags) := by
  ext j
  rw [Finset.mem_insert, mem_used, mem_used, (setIsBothFalse_flags flags i j).1]
  by_cases same : j = i <;> simp [same, inside]

theorem live_setIsEmptyFalse (inside : i < nBuckets) (kept : isDel flags i = false) :
    liveBuckets nBuckets (setIsEmptyFalse flags i) = insert i (liveBuckets nBuckets flags) := by
  ext j
  rw [Finset.mem_insert, mem_live, mem_live, (setIsEmptyFalse_flags flags i j).1,
    (setIsEmptyFalse_flags flags i j).2]
  by_cases same : j = i <;> simp [same, inside, kept]

theorem live_freshFlags : liveBuckets nBuckets freshFlags = ∅ := by
  ext j
  simp [mem_live, (freshFlags_flags j).1]

theorem used_freshFlags : usedBuckets nBuckets freshFlags = ∅ := by
  ext j
  simp [mem_used, (freshFlags_flags j).1]

end Setters

/-- A power of two that `kh_resize` settles on. -/
def Bucketed (nBuckets : Nat) : Prop := ∃ bits, 2 ≤ bits ∧ bits ≤ 31 ∧ nBuckets = 2 ^ bits

theorem Bucketed.pos {nBuckets : Nat} (bucketed : Bucketed nBuckets) : 4 ≤ nBuckets := by
  obtain ⟨bits, enough, -, rfl⟩ := bucketed
  exact Nat.pow_le_pow_right (by decide : 0 < 2) enough

theorem upperOf_zero : upperOf 0 = 0 := by decide

theorem upperOf_lt {nBuckets : Nat} (bucketed : Bucketed nBuckets) :
    upperOf nBuckets < nBuckets := by
  have least := bucketed.pos
  rw [upperOf]
  omega

section Home

variable {Key Text : Type*} (kind : KeyKind Key Text)

def home (nBuckets : Nat) (word : Text) : Nat := (kind.hash word).toNat &&& (nBuckets - 1)

/-- The key's own search comes to the bucket, through buckets in use. -/
def Reachable (nBuckets : Nat) (flags : Flags) (word : Text) (i : Nat) : Prop :=
  ∃ step < nBuckets, probe nBuckets (home kind nBuckets word) step = i ∧
    ∀ earlier < step, isEmpty flags (probe nBuckets (home kind nBuckets word) earlier) = false

theorem home_lt {nBuckets : Nat} (bucketed : Bucketed nBuckets) (word : Text) :
    home kind nBuckets word < nBuckets := by
  have least := bucketed.pos
  have bound := Nat.and_le_right (n := (kind.hash word).toNat) (m := nBuckets - 1)
  rw [home]
  omega

variable {kind}

theorem Reachable.lt {nBuckets i : Nat} {flags : Flags} {word : Text}
    (bucketed : Bucketed nBuckets) (reachable : Reachable kind nBuckets flags word i) :
    i < nBuckets := by
  obtain ⟨step, -, rfl, -⟩ := reachable
  exact probe_lt (home_lt kind bucketed word) step

theorem Reachable.mono {nBuckets i : Nat} {flags after : Flags} {word : Text}
    (reachable : Reachable kind nBuckets flags word i)
    (filled : ∀ j, isEmpty flags j = false → isEmpty after j = false) :
    Reachable kind nBuckets after word i := by
  obtain ⟨step, bound, there, before⟩ := reachable
  exact ⟨step, bound, there, fun earlier less => filled _ (before earlier less)⟩

end Home

section Loops

variable {nBuckets start : Nat}

/-- A search that stops within one round of the buckets stops there; what holds of the
site at the start and is kept at every bucket passed holds of it at the end. -/
theorem probeLoop_stops (bucketed : Bucketed nBuckets) (below : start < nBuckets)
    {goesOn : Nat → Bool} (note : Nat → Nat → Nat) {stop : Nat} (bound : stop < nBuckets)
    (stops : Stops nBuckets start (fun i => goesOn i = false) stop) (property : Nat → Nat → Prop)
    (passes : ∀ step < stop, ∀ site, property step site →
      property (step + 1) (note (probe nBuckets start step) site))
    {step fuel site : Nat} (sofar : step ≤ stop) (enough : stop - step < fuel)
    (holds : property step site) :
    ∃ last, property stop last ∧
      probeLoop (nBuckets - 1) start goesOn note fuel (probe nBuckets start step) step site =
        some ⟨probe nBuckets start stop, last, false⟩ := by
  obtain ⟨bits, -, -, power⟩ := bucketed
  induction fuel generalizing step site with
  | zero => omega
  | succ fuel ih =>
      rcases Nat.eq_or_lt_of_le sofar with rfl | more
      · exact ⟨site, holds, by simp [probeLoop, stops.here]⟩
      · have goes : goesOn (probe nBuckets start step) = true := by
          simpa using stops.before step more
        have onward : probe nBuckets start (step + 1) ≠ start := by
          intro same
          have again := probe_injective power below (by omega) (by omega : 0 < nBuckets) same
          omega
        rw [probeLoop]
        simp only [goes, if_true, probe_succ power, onward, if_false]
        exact ih (by omega) (by omega) (passes step more site holds)

theorem findEmpty_stops {bits : Nat} (power : nBuckets = 2 ^ bits) {flags : Flags} {stop : Nat}
    (stops : Stops nBuckets start (fun i => isEmpty flags i = true) stop) {step fuel : Nat}
    (sofar : step ≤ stop) (enough : stop - step < fuel) :
    findEmpty flags (nBuckets - 1) fuel (probe nBuckets start step) step =
      some (probe nBuckets start stop) := by
  induction fuel generalizing step with
  | zero => omega
  | succ fuel ih =>
      rcases Nat.eq_or_lt_of_le sofar with rfl | more
      · simp [findEmpty, stops.here]
      · have occupied : ¬isEmpty flags (probe nBuckets start step) = true := stops.before step more
        rw [findEmpty]
        simp only [occupied, Bool.false_eq_true, if_false, probe_succ power]
        exact ih (by omega) (by omega)

end Loops

section Table

variable {Key Val Text : Type*} {kind : KeyKind Key Text} {h : KHash Key Val}
  {entries : Text → Option (Key × Val)}

/-- The counters are right, and every live entry is where its search comes to. -/
structure InOrder (kind : KeyKind Key Text) (h : KHash Key Val) : Prop where
  buckets : h.nBuckets = 0 ∨ Bucketed h.nBuckets
  upper : h.upperBound = upperOf h.nBuckets
  size : h.size = (liveBuckets h.nBuckets h.flags).card
  occupied : h.nOccupied = (usedBuckets h.nBuckets h.flags).card
  bounded : h.nOccupied ≤ h.upperBound
  reachable : ∀ i ∈ liveBuckets h.nBuckets h.flags,
    Reachable kind h.nBuckets h.flags (kind.text (h.keys i)) i

/-- The table is in order and its live buckets hold the map. -/
structure Refines (kind : KeyKind Key Text) (h : KHash Key Val)
    (entries : Text → Option (Key × Val)) : Prop where
  inOrder : InOrder kind h
  holds : Holds kind.text (liveBuckets h.nBuckets h.flags) h.keys h.vals entries

def Locates (kind : KeyKind Key Text) (h : KHash Key Val) (entries : Text → Option (Key × Val))
    (word : Text) (x : Nat) : Prop :=
  (entries word = none ∧ x = h.nBuckets) ∨
    (entries word = some (h.keys x, h.vals x) ∧ kind.text (h.keys x) = word ∧
      x ∈ liveBuckets h.nBuckets h.flags)

theorem InOrder.exists_empty (inOrder : InOrder kind h) (bucketed : Bucketed h.nBuckets) :
    ∃ i < h.nBuckets, isEmpty h.flags i = true := by
  by_contra full
  have everywhere : usedBuckets h.nBuckets h.flags = Finset.range h.nBuckets := by
    apply Finset.filter_true_of_mem
    intro i member
    by_contra vacant
    exact full ⟨i, Finset.mem_range.mp member, by simpa using vacant⟩
  have room := upperOf_lt bucketed
  have bounded := inOrder.bounded
  rw [inOrder.occupied, everywhere, Finset.card_range, inOrder.upper] at bounded
  omega

variable [DecidableEq Text]

theorem InOrder.exists_stops (inOrder : InOrder kind h) (bucketed : Bucketed h.nBuckets)
    (key : Key) :
    ∃ stop < h.nBuckets, Stops h.nBuckets (home kind h.nBuckets (kind.text key))
      (fun i => goesOn kind h key i = false) stop := by
  obtain ⟨vacant, inside, empty⟩ := inOrder.exists_empty bucketed
  have below := home_lt kind bucketed (kind.text key)
  obtain ⟨bits, -, -, power⟩ := bucketed
  exact Lib.exists_stops power below inside (by simp [goesOn, empty])

theorem goesOn_eq_false {key : Key} {i : Nat} :
    goesOn kind h key i = false ↔ isEmpty h.flags i = true ∨
      (isDel h.flags i = false ∧ kind.text (h.keys i) = kind.text key) := by
  simp only [goesOn, KeyKind.hashEqual]
  cases isEmpty h.flags i <;> cases isDel h.flags i <;> simp

theorem Refines.stop_of_present (refines : Refines kind h entries) (bucketed : Bucketed h.nBuckets)
    {key : Key} {stop i : Nat}
    (stops : Stops h.nBuckets (home kind h.nBuckets (kind.text key))
      (fun i => goesOn kind h key i = false) stop)
    (member : i ∈ liveBuckets h.nBuckets h.flags) (same : kind.text (h.keys i) = kind.text key) :
    probe h.nBuckets (home kind h.nBuckets (kind.text key)) stop = i := by
  obtain ⟨step, bound, there, before⟩ := refines.inOrder.reachable i member
  obtain ⟨-, occupied, kept⟩ := mem_live.mp member
  rw [same] at there before
  have ends : goesOn kind h key i = false := goesOn_eq_false.mpr (.inr ⟨kept, same⟩)
  have late : stop ≤ step := by
    by_contra sooner
    exact stops.before step (by omega) (by rw [there]; exact ends)
  rcases Nat.eq_or_lt_of_le late with rfl | early
  · exact there
  · have vacant := before stop early
    rcases goesOn_eq_false.mp stops.here with empty | ⟨remains, equal⟩
    · rw [vacant] at empty
      contradiction
    · have inside := probe_lt (home_lt kind bucketed (kind.text key)) stop
      have live := mem_live.mpr ⟨inside, vacant, remains⟩
      exact refines.holds.once _ live i member (equal.trans same.symm)

theorem InOrder.khGet_stops (inOrder : InOrder kind h) (bucketed : Bucketed h.nBuckets)
    (key : Key) :
    ∃ stop, Stops h.nBuckets (home kind h.nBuckets (kind.text key))
        (fun i => goesOn kind h key i = false) stop ∧
      khGet kind h key =
        let i := probe h.nBuckets (home kind h.nBuckets (kind.text key)) stop
        some (if isEither h.flags i then h.nBuckets else i) := by
  obtain ⟨stop, bound, stops⟩ := inOrder.exists_stops bucketed key
  have below := home_lt kind bucketed (kind.text key)
  have positive := bucketed.pos
  obtain ⟨last, -, ended⟩ := probeLoop_stops bucketed below (fun _ site => site) bound stops
    (fun _ _ => True) (fun _ _ _ _ => trivial) (Nat.zero_le stop)
    (by omega : stop - 0 < 2 * h.nBuckets) (trivial : (fun _ _ : Nat => True) 0 0)
  refine ⟨stop, stops, ?_⟩
  rw [khGet, if_pos (by omega)]
  exact congrArg (Option.map fun ended : Ended =>
    if ended.again then h.nBuckets
    else if isEither h.flags ended.i then h.nBuckets else ended.i) ended

theorem Refines.khGet_eq (refines : Refines kind h entries) (key : Key) :
    ∃ x, khGet kind h key = some x ∧ Locates kind h entries (kind.text key) x := by
  rcases refines.inOrder.buckets with nothing | bucketed
  · have absent : entries (kind.text key) = none := by
      apply (refines.holds.absent_iff _).mpr
      intro i member
      have inside := (mem_live.mp member).1
      omega
    exact ⟨0, by simp [khGet, nothing], .inl ⟨absent, nothing.symm⟩⟩
  · obtain ⟨stop, stops, found⟩ := refines.inOrder.khGet_stops bucketed key
    refine ⟨_, found, ?_⟩
    generalize reached : probe h.nBuckets (home kind h.nBuckets (kind.text key)) stop = i
    have inside : i < h.nBuckets := reached ▸ probe_lt (home_lt kind bucketed _) stop
    cases either : isEither h.flags i with
    | true =>
        refine .inl ⟨(refines.holds.absent_iff _).mpr fun j member same => ?_, rfl⟩
        have here := refines.stop_of_present bucketed stops member same
        obtain rfl : i = j := reached.symm.trans here
        rw [liveBuckets, Finset.mem_filter, either] at member
        exact absurd member.2 (by decide)
    | false =>
        obtain ⟨occupied, kept⟩ := (isEither_eq_false _ _).mp either
        have equal : kind.text (h.keys i) = kind.text key := by
          rcases goesOn_eq_false.mp stops.here with empty | ⟨-, equal⟩
          · rw [reached, occupied] at empty
            contradiction
          · rwa [reached] at equal
        have live := mem_live.mpr ⟨inside, occupied, kept⟩
        exact .inr ⟨equal ▸ refines.holds.bucket i live, equal, live⟩

/-- The site noted after so many buckets: none, or a deleted one among them. -/
def SiteAmong (kind : KeyKind Key Text) (h : KHash Key Val) (key : Key) (steps site : Nat) : Prop :=
  site = h.nBuckets ∨ ∃ step < steps, isDel h.flags site = true ∧
    probe h.nBuckets (home kind h.nBuckets (kind.text key)) step = site

theorem InOrder.putSite_stops (inOrder : InOrder kind h) (bucketed : Bucketed h.nBuckets)
    (key : Key) :
    ∃ stop < h.nBuckets, ∃ last, SiteAmong kind h key stop last ∧
      Stops h.nBuckets (home kind h.nBuckets (kind.text key))
        (fun i => goesOn kind h key i = false) stop ∧
      putSite kind h key =
        let i := probe h.nBuckets (home kind h.nBuckets (kind.text key)) stop
        some (if isEmpty h.flags i ∧ last ≠ h.nBuckets then last else i) := by
  obtain ⟨stop, bound, stops⟩ := inOrder.exists_stops bucketed key
  have below := home_lt kind bucketed (kind.text key)
  by_cases vacant : isEmpty h.flags (home kind h.nBuckets (kind.text key)) = true
  · have first : stop = 0 := by
      by_contra later
      exact stops.before 0 (by omega) (goesOn_eq_false.mpr (.inl vacant))
    subst first
    refine ⟨0, bound, h.nBuckets, .inl rfl, stops, ?_⟩
    rw [putSite]
    refine (if_pos vacant).trans ?_
    simp only [probe, ne_eq, not_true_eq_false, and_false, if_false]
    rfl
  · obtain ⟨last, among, ended⟩ := probeLoop_stops bucketed below
      (fun i site => if isDel h.flags i then i else site) bound stops (SiteAmong kind h key)
      (by
        intro step less site among
        by_cases deleted : isDel h.flags
            (probe h.nBuckets (home kind h.nBuckets (kind.text key)) step) = true
        · simp only [deleted, if_true]
          exact .inr ⟨step, by omega, deleted, rfl⟩
        · simp only [deleted, Bool.false_eq_true, if_false]
          rcases among with unset | ⟨earlier, before, there⟩
          · exact .inl unset
          · exact .inr ⟨earlier, by omega, there⟩)
      (Nat.zero_le stop) (by omega : stop - 0 < 2 * h.nBuckets)
      (.inl rfl : SiteAmong kind h key 0 h.nBuckets)
    refine ⟨stop, bound, last, among, stops, ?_⟩
    rw [putSite]
    refine (if_neg vacant).trans ?_
    refine (congrArg (Option.map _) ended).trans ?_
    simp

/-- A put goes to the bucket of the key or, where there is none, to a bucket that is free
and that the search for the key comes to. -/
theorem Refines.putSite_eq (refines : Refines kind h entries) (bucketed : Bucketed h.nBuckets)
    (key : Key) :
    ∃ x, putSite kind h key = some x ∧
      ((x ∈ liveBuckets h.nBuckets h.flags ∧ kind.text (h.keys x) = kind.text key) ∨
        (entries (kind.text key) = none ∧ x ∉ liveBuckets h.nBuckets h.flags ∧
          Reachable kind h.nBuckets h.flags (kind.text key) x)) := by
  obtain ⟨stop, bound, last, among, stops, site⟩ := refines.inOrder.putSite_stops bucketed key
  refine ⟨_, site, ?_⟩
  have before : ∀ earlier < stop, isEmpty h.flags
      (probe h.nBuckets (home kind h.nBuckets (kind.text key)) earlier) = false := by
    intro earlier less
    by_contra vacant
    exact stops.before earlier less (goesOn_eq_false.mpr (.inl (by simpa using vacant)))
  generalize reached : probe h.nBuckets (home kind h.nBuckets (kind.text key)) stop = i
  have inside : i < h.nBuckets := reached ▸ probe_lt (home_lt kind bucketed _) stop
  have ends := goesOn_eq_false.mp stops.here
  rw [reached] at ends
  cases occupied : isEmpty h.flags i with
  | false =>
      obtain ⟨kept, equal⟩ : isDel h.flags i = false ∧ kind.text (h.keys i) = kind.text key := by
        rcases ends with empty | found
        · rw [occupied] at empty
          contradiction
        · exact found
      exact .inl ⟨mem_live.mpr ⟨inside, occupied, kept⟩, equal⟩
  | true =>
      have absent : entries (kind.text key) = none := by
        apply (refines.holds.absent_iff _).mpr
        intro j member same
        obtain rfl : i = j := reached.symm.trans
          (refines.stop_of_present bucketed stops member same)
        rw [(mem_live.mp member).2.1] at occupied
        contradiction
      refine .inr ⟨absent, ?_⟩
      by_cases unset : last = h.nBuckets
      · simp only [unset, ne_eq, not_true_eq_false, and_false, if_false]
        refine ⟨fun live => ?_, stop, bound, reached, before⟩
        rw [(mem_live.mp live).2.1] at occupied
        contradiction
      · obtain ⟨step, less, deleted, there⟩ := among.resolve_left unset
        simp only [unset, ne_eq, not_false_eq_true, and_self, if_true]
        refine ⟨fun live => ?_, step, by omega, there, fun earlier sooner =>
          before earlier (by omega)⟩
        rw [(mem_live.mp live).2.2] at deleted
        contradiction

end Table

end DirtyCode.ConfCli
