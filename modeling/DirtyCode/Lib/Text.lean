import Mathlib
import DirtyCode.Lib.Scan
import DirtyCode.Lib.Spans

/-!
C texts as lists of characters of any type: where a text ends, its lines, and the
texts that `%d` and `%x` print.
-/

namespace DirtyCode.Lib

def ascii (text : String) : List UInt8 := text.toList.map fun char => UInt8.ofNat char.toNat

def asciiDigit (value : Nat) : UInt8 := UInt8.ofNat (48 + value)

/-- `%d` of a number below 1000. -/
def shortDecimal (value : Nat) : List UInt8 :=
  if value < 10 then [asciiDigit value]
  else if value < 100 then [asciiDigit (value / 10), asciiDigit (value % 10)]
  else [asciiDigit (value / 100), asciiDigit (value / 10 % 10), asciiDigit (value % 10)]

theorem shortDecimal_digits : ∀ value < 256, (shortDecimal value).all isDigit = true := by
  decide +kernel

theorem decimal_shortDecimal : ∀ value < 256, decimal (shortDecimal value) = value := by
  decide +kernel

theorem shortDecimal_length (value : Nat) : (shortDecimal value).length ≤ 3 := by
  unfold shortDecimal
  split
  · simp
  · split <;> simp

theorem takeWhile_shortDecimal {value : Nat} (small : value < 256) {stop : UInt8}
    (foreign : isDigit stop = false) (rest : List UInt8) :
    (shortDecimal value ++ stop :: rest).takeWhile isDigit = shortDecimal value := by
  have digits := List.all_eq_true.mp (shortDecimal_digits value small)
  exact (span_stop digits foreign rest).1

theorem shortDecimal_cancel {value other : Nat} (small : value < 256) (alsoSmall : other < 256)
    {stop : UInt8} (foreign : isDigit stop = false) {rest later : List UInt8}
    (same : shortDecimal value ++ stop :: rest = shortDecimal other ++ stop :: later) :
    value = other ∧ rest = later := by
  have digits := congrArg (List.takeWhile isDigit) same
  rw [takeWhile_shortDecimal small foreign, takeWhile_shortDecimal alsoSmall foreign] at digits
  constructor
  · rw [← decimal_shortDecimal value small, digits, decimal_shortDecimal other alsoSmall]
  · rw [digits] at same
    exact (List.cons.inj (List.append_cancel_left same)).2

/-- A digit of `%x`. -/
def asciiHex (digit : Nat) : UInt8 := UInt8.ofNat (if digit < 10 then 48 + digit else 87 + digit)

/-- `%0*x` of a number below `16 ^ width`. -/
def hexText : Nat → Nat → List UInt8
  | 0, _ => []
  | width + 1, value => asciiHex (value / 16 ^ width % 16) :: hexText width value

theorem hexText_length (width value : Nat) : (hexText width value).length = width := by
  induction width with
  | zero => rfl
  | succ width ih => rw [hexText, List.length_cons, ih]

theorem hexDigit_asciiHex : ∀ digit < 16, hexDigit (asciiHex digit) = some digit := by
  decide

theorem asciiHex_plain : ∀ digit < 16, isSpace (asciiHex digit) = false ∧ asciiHex digit ≠ 45 ∧
    asciiHex digit ≠ 43 ∧ asciiHex digit ≠ 120 ∧ asciiHex digit ≠ 88 := by
  decide

theorem hexValue_hexText (value : Nat) (width number : Nat) :
    hexValue value (hexText width number) = 16 ^ width * value + number % 16 ^ width := by
  induction width generalizing value with
  | zero => simp [hexText, hexValue, Nat.mod_one]
  | succ width ih =>
      have digit := hexDigit_asciiHex (number / 16 ^ width % 16) (Nat.mod_lt _ (by decide))
      rw [hexText, hexValue, digit]
      simp only [ih]
      rw [pow_succ, Nat.mod_mul]
      ring

theorem skipHexMark_hexText (width number : Nat) :
    skipHexMark (hexText (width + 2) number) = hexText (width + 2) number := by
  have second := asciiHex_plain (number / 16 ^ width % 16) (Nat.mod_lt _ (by decide))
  rw [hexText, hexText, skipHexMark]
  · intro rest same
    exact absurd (List.cons.inj (List.cons.inj same).2).1 second.2.2.2.1
  · intro rest same
    exact absurd (List.cons.inj (List.cons.inj same).2).1 second.2.2.2.2

theorem strtol16_hexText {width number : Nat} (small : number < 16 ^ (width + 2)) :
    strtol16 (hexText (width + 2) number) = number := by
  have first := asciiHex_plain (number / 16 ^ (width + 1) % 16) (Nat.mod_lt _ (by decide))
  have text : hexText (width + 2) number =
      asciiHex (number / 16 ^ (width + 1) % 16) :: hexText (width + 1) number := rfl
  have signed : scanSign ((hexText (width + 2) number).dropWhile isSpace) =
      (false, hexText (width + 2) number) := by
    rw [text, List.dropWhile_cons_of_neg (by rw [first.1]; decide), scanSign, if_neg first.2.1,
      if_neg first.2.2.1]
  rw [strtol16, signed]
  simp only [skipHexMark_hexText, hexValue_hexText, mul_zero, zero_add, Nat.mod_eq_of_lt small]
  rfl

variable {α β : Type*}

/-- The lines of a text without their ends, and what follows the last end. -/
def splitLines (ends : α → Bool) : List α → List (List α) × List α
  | [] => ([], [])
  | char :: rest =>
      let split := splitLines ends rest
      if ends char then ([] :: split.1, split.2)
      else
        match split.1 with
        | [] => ([], char :: split.2)
        | line :: others => ((char :: line) :: others, split.2)

theorem splitLines_end {ends : α → Bool} {char : α} (ending : ends char = true) (rest : List α) :
    splitLines ends (char :: rest) =
      ([] :: (splitLines ends rest).1, (splitLines ends rest).2) := by
  rw [splitLines, if_pos ending]

theorem splitLines_first {ends : α → Bool} {char : α} (inside : ends char = false) {rest : List α}
    (none : (splitLines ends rest).1 = []) :
    splitLines ends (char :: rest) = ([], char :: (splitLines ends rest).2) := by
  simp [splitLines, inside, none]

theorem splitLines_more {ends : α → Bool} {char : α} (inside : ends char = false)
    {rest line : List α} {others : List (List α)}
    (found : (splitLines ends rest).1 = line :: others) :
    splitLines ends (char :: rest) = ((char :: line) :: others, (splitLines ends rest).2) := by
  simp [splitLines, inside, found]

theorem splitLines_subset (ends : α → Bool) (text : List α) :
    (∀ line ∈ (splitLines ends text).1, line ⊆ text) ∧ (splitLines ends text).2 ⊆ text := by
  induction text with
  | nil => simp [splitLines]
  | cons char rest ih =>
      obtain ⟨linesIn, leftIn⟩ := ih
      have later : rest ⊆ char :: rest := List.subset_cons_self _ _
      cases ending : ends char with
      | true =>
          rw [splitLines_end ending]
          refine ⟨?_, List.Subset.trans leftIn later⟩
          intro line member
          rcases List.mem_cons.mp member with rfl | member
          · exact List.nil_subset _
          · exact List.Subset.trans (linesIn line member) later
      | false =>
          cases found : (splitLines ends rest).1 with
          | nil =>
              rw [splitLines_first ending found]
              exact ⟨by simp, List.cons_subset_cons _ leftIn⟩
          | cons first others =>
              rw [splitLines_more ending found]
              rw [found] at linesIn
              refine ⟨?_, List.Subset.trans leftIn later⟩
              intro line member
              rcases List.mem_cons.mp member with rfl | member
              · exact List.cons_subset_cons _ (linesIn first List.mem_cons_self)
              · exact List.Subset.trans (linesIn line (List.mem_cons_of_mem _ member)) later

theorem splitLines_append_inside {ends : α → Bool} (text : List α) {more : List α}
    (none : (splitLines ends more).1 = []) :
    splitLines ends (text ++ more) =
      ((splitLines ends text).1, (splitLines ends text).2 ++ (splitLines ends more).2) := by
  induction text with
  | nil => exact Prod.ext none rfl
  | cons char rest ih =>
      rw [List.cons_append]
      cases ending : ends char with
      | true => rw [splitLines_end ending, splitLines_end ending, ih]
      | false =>
          cases found : (splitLines ends rest).1 with
          | nil =>
              rw [splitLines_first ending (by rw [ih]; exact found), splitLines_first ending found,
                ih, List.cons_append]
          | cons line others =>
              rw [splitLines_more ending (by rw [ih]; exact found), splitLines_more ending found,
                ih]

theorem splitLines_append_lines {ends : α → Bool} (text : List α) {more first : List α}
    {others : List (List α)} (found : (splitLines ends more).1 = first :: others) :
    splitLines ends (text ++ more) =
      ((splitLines ends text).1 ++ ((splitLines ends text).2 ++ first) :: others,
        (splitLines ends more).2) := by
  induction text with
  | nil => exact Prod.ext found rfl
  | cons char rest ih =>
      rw [List.cons_append]
      cases ending : ends char with
      | true => rw [splitLines_end ending, splitLines_end ending, ih, List.cons_append]
      | false =>
          cases lines : (splitLines ends rest).1 with
          | nil =>
              rw [lines] at ih
              rw [splitLines_more ending (congrArg Prod.fst ih), splitLines_first ending lines, ih]
              rfl
          | cons line rest =>
              rw [lines] at ih
              rw [splitLines_more ending (congrArg Prod.fst ih), splitLines_more ending lines, ih]
              rfl

theorem splitLines_inside {ends : α → Bool} {line : List α}
    (inside : ∀ char ∈ line, ends char = false) : splitLines ends line = ([], line) := by
  induction line with
  | nil => rfl
  | cons char rest ih =>
      have later := ih fun other member => inside other (List.mem_cons_of_mem _ member)
      rw [splitLines_first (inside char List.mem_cons_self) (congrArg Prod.fst later), later]

theorem splitLines_map (ends : β → Bool) (f : α → β) (text : List α) :
    splitLines ends (text.map f) =
      ((splitLines (ends ∘ f) text).1.map (List.map f), (splitLines (ends ∘ f) text).2.map f) := by
  induction text with
  | nil => rfl
  | cons char rest ih =>
      rw [List.map_cons]
      cases ending : ends (f char) with
      | true =>
          have here : (ends ∘ f) char = true := ending
          rw [splitLines_end ending, splitLines_end here, ih]
          rfl
      | false =>
          have here : (ends ∘ f) char = false := ending
          cases found : (splitLines (ends ∘ f) rest).1 with
          | nil =>
              have none : (splitLines ends (rest.map f)).1 = [] := by rw [ih, found]; rfl
              rw [splitLines_first ending none, splitLines_first here found, ih]
              rfl
          | cons line others =>
              have more : (splitLines ends (rest.map f)).1 =
                line.map f :: others.map (List.map f) := by
                rw [ih, found]
                rfl
              rw [splitLines_more ending more, splitLines_more here found, ih]
              rfl

end DirtyCode.Lib
