import Mathlib

/-!
A stream of bits read through a window, the first bit on top, and the exclusive or of
the windows that a second stream selects.
-/

namespace DirtyCode.Lib

variable {w : Nat}

def window (w : Nat) (stream : Nat → Bool) (n : Nat) : BitVec w :=
  BitVec.ofFnLE fun i => stream (n + (w - 1 - i))

/-- A register moves up by one place and takes a bit in. -/
def slide (v : BitVec w) (bit : Bool) : BitVec w := if bit then v <<< 1 ||| 1 else v <<< 1

def xorAll (words : List (BitVec w)) : BitVec w := words.foldl (· ^^^ ·) 0#w

def xorWindows (w : Nat) (stream data : Nat → Bool) (count : Nat) : BitVec w :=
  xorAll (((List.range count).filter data).map (window w stream))

theorem getLsbD_window (stream : Nat → Bool) (n i : Nat) :
    (window w stream n).getLsbD i = (decide (i < w) && stream (n + (w - 1 - i))) := by
  by_cases inside : i < w
  · simp [window, inside]
  · simp [BitVec.getLsbD_of_ge _ i (Nat.le_of_not_lt inside), inside]

theorem getLsbD_slide (v : BitVec w) (bit : Bool) (i : Nat) :
    (slide v bit).getLsbD i = (decide (i < w) && if i = 0 then bit else v.getLsbD (i - 1)) := by
  rw [slide]
  cases i with
  | zero => cases bit <;> simp [BitVec.getLsbD_one]
  | succ i => cases bit <;> simp [BitVec.getLsbD_one]

theorem slide_window (stream : Nat → Bool) (n : Nat) :
    slide (window w stream n) (stream (n + w)) = window w stream (n + 1) := by
  apply BitVec.eq_of_getLsbD_eq
  intro i inside
  rw [getLsbD_slide, getLsbD_window, getLsbD_window]
  by_cases first : i = 0
  · have place : n + 1 + (w - 1 - i) = n + w := by omega
    simp [first, ← place]
  · have place : n + (w - 1 - (i - 1)) = n + 1 + (w - 1 - i) := by omega
    simp [first, inside, place, show i - 1 < w by omega]

theorem foldl_xor (words : List (BitVec w)) (start : BitVec w) :
    words.foldl (· ^^^ ·) start = start ^^^ xorAll words := by
  induction words generalizing start with
  | nil => simp [xorAll]
  | cons word rest ih =>
      rw [xorAll, List.foldl_cons, List.foldl_cons, ih, ih (0#w ^^^ word), BitVec.zero_xor,
        BitVec.xor_assoc]

theorem xorAll_cons (word : BitVec w) (rest : List (BitVec w)) :
    xorAll (word :: rest) = word ^^^ xorAll rest := by
  rw [xorAll, List.foldl_cons, foldl_xor, BitVec.zero_xor]

theorem xorAll_singleton (word : BitVec w) : xorAll [word] = word := by
  rw [xorAll, List.foldl_cons, List.foldl_nil, BitVec.zero_xor]

theorem xorAll_append (words others : List (BitVec w)) :
    xorAll (words ++ others) = xorAll words ^^^ xorAll others := by
  rw [xorAll, List.foldl_append, foldl_xor]
  rfl

theorem xorAll_perm {words others : List (BitVec w)} (perm : words.Perm others) :
    xorAll words = xorAll others := by
  induction perm with
  | nil => rfl
  | cons word _ ih => rw [xorAll_cons, xorAll_cons, ih]
  | swap word other rest =>
      rw [xorAll_cons, xorAll_cons, xorAll_cons, xorAll_cons, ← BitVec.xor_assoc,
        ← BitVec.xor_assoc, BitVec.xor_comm word]
  | trans _ _ first second => exact first.trans second

theorem xorWindows_zero (stream data : Nat → Bool) : xorWindows w stream data 0 = 0#w := rfl

theorem xorWindows_succ (stream data : Nat → Bool) (count : Nat) :
    xorWindows w stream data (count + 1) =
      if data count then xorWindows w stream data count ^^^ window w stream count
      else xorWindows w stream data count := by
  rw [xorWindows, List.range_succ, List.filter_append, List.map_append, xorAll_append]
  cases chosen : data count <;> simp [chosen, xorAll, xorWindows]

theorem xorWindows_congr {stream other data rest : Nat → Bool} {count : Nat}
    (same : ∀ n < count, (if data n then window w stream n else 0#w) =
      if rest n then window w other n else 0#w) :
    xorWindows w stream data count = xorWindows w other rest count := by
  induction count with
  | zero => rfl
  | succ count ih =>
      have before := ih fun n inside => same n (Nat.lt_succ_of_lt inside)
      have last := same count (Nat.lt_succ_self count)
      rw [xorWindows_succ, xorWindows_succ, before]
      cases chosen : data count <;> cases picked : rest count <;>
        simp only [chosen, picked, if_true, if_false, Bool.false_eq_true] at last ⊢
      · rw [← last, BitVec.xor_zero]
      · rw [last, BitVec.xor_zero]
      · rw [last]

theorem window_shift (stream : Nat → Bool) (first n : Nat) :
    window w (fun q => stream (first + q)) n = window w stream (first + n) := by
  apply BitVec.eq_of_getLsbD_eq
  intro i _
  rw [getLsbD_window, getLsbD_window, Nat.add_assoc]

theorem xorWindows_add (stream data : Nat → Bool) (first count : Nat) :
    xorWindows w stream data (first + count) = xorWindows w stream data first ^^^
      xorWindows w (fun q => stream (first + q)) (fun n => data (first + n)) count := by
  induction count with
  | zero => rw [Nat.add_zero, xorWindows_zero, BitVec.xor_zero]
  | succ count ih =>
      rw [← Nat.add_assoc, xorWindows_succ, xorWindows_succ, ih, window_shift]
      split
      · rw [BitVec.xor_assoc]
      · rfl

theorem window_xor (stream other : Nat → Bool) (n : Nat) :
    window w (fun q => stream q ^^ other q) n = window w stream n ^^^ window w other n := by
  apply BitVec.eq_of_getLsbD_eq
  intro i inside
  simp only [BitVec.getLsbD_xor, getLsbD_window, inside, decide_true, Bool.true_and]

theorem xorWindows_xor (stream other data : Nat → Bool) (count : Nat) :
    xorWindows w (fun q => stream q ^^ other q) data count =
      xorWindows w stream data count ^^^ xorWindows w other data count := by
  induction count with
  | zero => simp [xorWindows_zero]
  | succ count ih =>
      rw [xorWindows_succ, xorWindows_succ, xorWindows_succ]
      split
      · rw [ih, window_xor]
        ac_rfl
      · exact ih

theorem window_eq_zero {stream : Nat → Bool} {n : Nat}
    (clear : ∀ q, n ≤ q → q < n + w → stream q = false) : window w stream n = 0#w := by
  apply BitVec.eq_of_getLsbD_eq
  intro i inside
  rw [getLsbD_window, clear _ (by omega) (by omega)]
  simp

theorem xorWindows_clear {stream data : Nat → Bool} {count : Nat}
    (clear : ∀ n < count, data n = true → window w stream n = 0#w) :
    xorWindows w stream data count = 0#w := by
  induction count with
  | zero => rfl
  | succ count ih =>
      have before := ih fun n inside => clear n (Nat.lt_succ_of_lt inside)
      rw [xorWindows_succ, before]
      split
      · rename_i chosen
        rw [clear count (Nat.lt_succ_self count) chosen, BitVec.xor_zero]
      · rfl

theorem getLsbD_xorWindows_clear {stream data : Nat → Bool} {count i : Nat}
    (clear : ∀ n < count, stream (n + (w - 1 - i)) = false) :
    (xorWindows w stream data count).getLsbD i = false := by
  induction count with
  | zero => simp [xorWindows_zero]
  | succ count ih =>
      have before := ih fun n inside => clear n (Nat.lt_succ_of_lt inside)
      rw [xorWindows_succ]
      split
      · rw [BitVec.getLsbD_xor, before, getLsbD_window, clear count (Nat.lt_succ_self count)]
        simp
      · exact before

/-- Windows that begin before the first set bit of the stream show it at different
places, and so they never cancel out. -/
theorem xorWindows_eq_zero_iff {stream data : Nat → Bool} {count first : Nat}
    (clear : ∀ q < first, stream q = false) (found : stream first = true)
    (before : ∀ n < count, n ≤ first) :
    xorWindows w stream data count = 0#w ↔ ∀ n < count, data n = true → n + w ≤ first := by
  induction count with
  | zero => simp [xorWindows_zero]
  | succ count ih =>
      have earlier := ih fun n inside => before n (Nat.lt_succ_of_lt inside)
      have reach := before count (Nat.lt_succ_self count)
      cases chosen : data count with
      | false =>
          rw [xorWindows_succ, chosen]
          simp only [Bool.false_eq_true, if_false]
          rw [earlier]
          constructor
          · intro all n inside picked
            rcases Nat.lt_succ_iff_lt_or_eq.mp inside with inside | rfl
            · exact all n inside picked
            · rw [chosen] at picked
              contradiction
          · exact fun all n inside picked => all n (Nat.lt_succ_of_lt inside) picked
      | true =>
          by_cases past : count + w ≤ first
          · refine iff_of_true ?_ fun n inside _ => by omega
            apply xorWindows_clear
            intro n inside _
            exact window_eq_zero fun q _ above => clear q (by omega)
          · refine iff_of_false ?_ fun all => past (all count (Nat.lt_succ_self count) chosen)
            intro zero
            -- the top bit that the last window shows is in no other one
            have place : count + (w - 1 - (count + w - 1 - first)) = first := by omega
            have shown := congrArg (fun word => word.getLsbD (count + w - 1 - first)) zero
            rw [xorWindows_succ, chosen] at shown
            simp only [if_true, BitVec.getLsbD_xor, getLsbD_window, place, found] at shown
            rw [getLsbD_xorWindows_clear fun n inside => clear _ (by omega)] at shown
            simp [show count + w - 1 - first < w by omega] at shown

theorem getLsbD_window_single {position : Nat} (n i : Nat) (deep : w ≤ position + 1) :
    (window w (fun q => decide (q = position)) n).getLsbD i =
      decide (i < w ∧ n = position + 1 - w + i) := by
  rw [getLsbD_window, ← Bool.decide_and]
  exact decide_eq_decide.mpr (and_congr_right fun inside => by omega)

theorem getLsbD_xorWindows_single {position : Nat} (data : Nat → Bool) (count i : Nat)
    (deep : w ≤ position + 1) :
    (xorWindows w (fun q => decide (q = position)) data count).getLsbD i =
      (decide (i < w ∧ position + 1 - w + i < count) && data (position + 1 - w + i)) := by
  induction count with
  | zero => simp [xorWindows_zero]
  | succ count ih =>
      rw [xorWindows_succ, apply_ite (fun word => BitVec.getLsbD word i), BitVec.getLsbD_xor, ih,
        getLsbD_window_single count i deep]
      by_cases here : count = position + 1 - w + i
      · rw [← here]
        cases data count <;> simp
      · have reach : position + 1 - w + i < count + 1 ↔ position + 1 - w + i < count := by omega
        simp [here, reach]

/-- The exclusive or of the words whose numbers the data selects. -/
def xorSelected (word : Nat → BitVec w) (data : Nat → Bool) (count : Nat) : BitVec w :=
  xorAll (((List.range count).filter data).map word)

theorem xorSelected_succ (word : Nat → BitVec w) (data : Nat → Bool) (count : Nat) :
    xorSelected word data (count + 1) =
      if data count then xorSelected word data count ^^^ word count
      else xorSelected word data count := by
  rw [xorSelected, List.range_succ, List.filter_append, List.map_append, xorAll_append]
  cases chosen : data count with
  | false => simp [chosen, xorSelected, xorAll]
  | true => simp [chosen, xorSelected, xorAll]

theorem foldl_xor_selected (word : Nat → BitVec w) (data : Nat → Bool) (count : Nat) :
    (List.range count).foldl (fun ret i => if data i then ret ^^^ word i else ret) 0#w =
      xorSelected word data count := by
  induction count with
  | zero => rfl
  | succ count ih =>
      rw [List.range_succ, List.foldl_append, ih, xorSelected_succ]
      rfl

theorem xorSelected_xor (word other : Nat → BitVec w) (data : Nat → Bool) (count : Nat) :
    xorSelected word data count ^^^ xorSelected other data count =
      xorSelected (fun i => word i ^^^ other i) data count := by
  induction count with
  | zero => simp [xorSelected, xorAll]
  | succ count ih =>
      simp only [xorSelected_succ]
      split
      · rw [← ih]
        ac_rfl
      · exact ih

theorem xorSelected_congr {word other : Nat → BitVec w} {data rest : Nat → Bool} {count : Nat}
    (words : ∀ n < count, word n = other n) (chosen : ∀ n < count, data n = rest n) :
    xorSelected word data count = xorSelected other rest count := by
  induction count with
  | zero => rfl
  | succ count ih =>
      rw [xorSelected_succ, xorSelected_succ, words count (Nat.lt_succ_self count),
        chosen count (Nat.lt_succ_self count),
          ih (fun n inside => words n (Nat.lt_succ_of_lt inside))
          fun n inside => chosen n (Nat.lt_succ_of_lt inside)]

theorem getLsbD_xorSelected_clear {word : Nat → BitVec w} {data : Nat → Bool} {count i : Nat}
    (clear : ∀ n < count, (word n).getLsbD i = false) :
    (xorSelected word data count).getLsbD i = false := by
  induction count with
  | zero => simp [xorSelected, xorAll]
  | succ count ih =>
      have earlier := ih fun n inside => clear n (Nat.lt_succ_of_lt inside)
      rw [xorSelected_succ]
      split
      · rw [BitVec.getLsbD_xor, earlier, clear count (Nat.lt_succ_self count)]
        rfl
      · exact earlier

/-- Words of which each has a bit that no earlier one has cancel only if all are zero. -/
theorem xorSelected_eq_zero_iff {word : Nat → BitVec w} {data : Nat → Bool} {count : Nat}
    (mark : Nat → Nat) (marked : ∀ n < count, word n ≠ 0#w → (word n).getLsbD (mark n) = true ∧
      ∀ m < n, (word m).getLsbD (mark n) = false) :
    xorSelected word data count = 0#w ↔ ∀ n < count, data n = true → word n = 0#w := by
  induction count with
  | zero => simp [xorSelected, xorAll]
  | succ count ih =>
      have earlier := ih fun n inside => marked n (Nat.lt_succ_of_lt inside)
      have split_last : (∀ n < count + 1, data n = true → word n = 0#w) ↔
          (∀ n < count, data n = true → word n = 0#w) ∧ (data count = true → word count = 0#w) := by
        constructor
        · exact fun all => ⟨fun n inside => all n (Nat.lt_succ_of_lt inside),
            all count (Nat.lt_succ_self count)⟩
        · intro all n inside
          rcases Nat.lt_succ_iff_lt_or_eq.mp inside with inside | rfl
          · exact all.1 n inside
          · exact all.2
      rw [xorSelected_succ, split_last]
      cases chosen : data count with
      | false => simp [earlier]
      | true =>
          by_cases zero : word count = 0#w
          · simp [zero, earlier]
          · obtain ⟨found, clear⟩ := marked count (Nat.lt_succ_self count) zero
            refine iff_of_false ?_ fun all => zero (all.2 rfl)
            intro cancelled
            have shown := congrArg (fun value => value.getLsbD (mark count)) cancelled
            simp only [if_true, BitVec.getLsbD_xor, found] at shown
            rw [getLsbD_xorSelected_clear clear] at shown
            simp at shown

end DirtyCode.Lib
