import DirtyCode.Lib.Text

/-!
The formats of `sprintf` and `sscanf`: what is printed with a format is read back with it.
-/

namespace DirtyCode.Lib

def printNat (value : Nat) : List UInt8 :=
  if value < 10 then [asciiDigit value]
  else printNat (value / 10) ++ [asciiDigit (value % 10)]

/-- `%d`. -/
def printInt (value : Int) : List UInt8 :=
  if value < 0 then 45 :: printNat value.natAbs else printNat value.natAbs

/-- `%lld`, which stops at the bounds of its type. -/
def scanLong (text : List UInt8) : Option (Int × List UInt8) :=
  let signed := scanSign (text.dropWhile isSpace)
  let digits := signed.2.takeWhile isDigit
  let value : Int := if signed.1 then -decimal digits else decimal digits
  if digits = [] then none
  else some (max (-9223372036854775808) (min value 9223372036854775807),
    signed.2.dropWhile isDigit)

inductive Directive
  | byte (value : UInt8)
  | int
  | long
  deriving DecidableEq

def Directive.scan : Directive → List UInt8 → Option (Int × List UInt8)
  | .byte _ => fun _ => none
  | .int => scanInt
  | .long => scanLong

def text (string : String) : List Directive := (ascii string).map .byte

def sprintf : List Directive → List Int → List UInt8
  | [], _ => []
  | .byte byte :: format, values => byte :: sprintf format values
  | _ :: _, [] => []
  | _ :: format, value :: values => printInt value ++ sprintf format values

/-- The values that are read before the input differs from the format. -/
def sscanf : List Directive → List UInt8 → List Int
  | [], _ => []
  | .byte byte :: format, input =>
      if isSpace byte then sscanf format (input.dropWhile isSpace)
      else
        match input with
        | [] => []
        | first :: rest => if first = byte then sscanf format rest else []
  | directive :: format, input =>
      match directive.scan input with
      | none => []
      | some (value, rest) => value :: sscanf format rest

theorem asciiDigit_digit : ∀ digit < 10, isDigit (asciiDigit digit) = true ∧
    (asciiDigit digit).toNat - 48 = digit := by
  decide

theorem printNat_digits (value : Nat) : ∀ byte ∈ printNat value, isDigit byte = true := by
  induction value using Nat.strongRecOn with
  | ind value ih =>
      intro byte member
      rw [printNat] at member
      split at member
      · rename_i small
        rw [List.mem_singleton.mp member]
        exact (asciiDigit_digit value small).1
      · rename_i large
        rcases List.mem_append.mp member with front | last
        · exact ih (value / 10) (Nat.div_lt_self (by omega) (by omega)) byte front
        · rw [List.mem_singleton.mp last]
          exact (asciiDigit_digit _ (Nat.mod_lt _ (by omega))).1

theorem printNat_ne_nil (value : Nat) : printNat value ≠ [] := by
  rw [printNat]
  split <;> simp

theorem decimal_printNat (value : Nat) : decimal (printNat value) = value := by
  induction value using Nat.strongRecOn with
  | ind value ih =>
      rw [printNat]
      split
      · rename_i small
        simp [decimal, (asciiDigit_digit value small).2]
      · rename_i large
        have front := ih (value / 10) (Nat.div_lt_self (by omega) (by omega))
        rw [decimal] at front
        rw [decimal, List.foldl_append, front, List.foldl_cons, List.foldl_nil,
          (asciiDigit_digit _ (Nat.mod_lt _ (by omega))).2]
        omega

theorem printNat_length {value digits : Nat} (positive : 0 < digits) (small : value < 10 ^ digits) :
    (printNat value).length ≤ digits := by
  induction digits generalizing value with
  | zero => contradiction
  | succ digits ih =>
      rw [printNat]
      split
      · exact Nat.succ_le_succ (Nat.zero_le _)
      · rename_i large
        have more : 0 < digits := by
          rcases Nat.eq_zero_or_pos digits with rfl | more
          · omega
          · exact more
        have front : value / 10 < 10 ^ digits := by
          rw [Nat.pow_succ] at small
          omega
        rw [List.length_append, List.length_singleton]
        exact Nat.succ_le_succ (ih more front)

/-- Nothing that would go on a number. -/
def stops : List UInt8 → Bool
  | [] => true
  | byte :: _ => !isDigit byte

theorem span_printNat (value : Nat) {rest : List UInt8} (stop : stops rest = true) :
    (printNat value ++ rest).takeWhile isDigit = printNat value ∧
      (printNat value ++ rest).dropWhile isDigit = rest := by
  have digits := printNat_digits value
  cases rest with
  | nil =>
      rw [List.append_nil]
      exact ⟨List.takeWhile_eq_self_iff.mpr digits, List.dropWhile_eq_nil_iff.mpr digits⟩
  | cons byte rest =>
      have foreign : isDigit byte = false := by simpa [stops] using stop
      exact span_stop digits foreign rest

theorem digit_plain : ∀ byte : UInt8, isDigit byte = true →
    isSpace byte = false ∧ byte ≠ 45 ∧ byte ≠ 43 := by
  decide +kernel

theorem scanSign_printInt (value : Int) (rest : List UInt8) :
    (printInt value ++ rest).dropWhile isSpace = printInt value ++ rest ∧
      scanSign (printInt value ++ rest) =
        (decide (value < 0), printNat value.natAbs ++ rest) := by
  rw [printInt]
  split
  · rename_i negative
    have minus : isSpace 45 = false := by decide
    rw [List.cons_append, List.dropWhile_cons_of_neg (by simp [minus]), scanSign, if_pos rfl,
      decide_eq_true negative]
    exact ⟨rfl, rfl⟩
  · rename_i positive
    cases digits : printNat value.natAbs with
    | nil => exact absurd digits (printNat_ne_nil _)
    | cons first others =>
        have member : first ∈ printNat value.natAbs := digits ▸ List.mem_cons_self
        obtain ⟨solid, minus, plus⟩ := digit_plain first (printNat_digits _ first member)
        rw [List.cons_append, List.dropWhile_cons_of_neg (by simp [solid]), scanSign, if_neg minus,
          if_neg plus, decide_eq_false positive]
        exact ⟨rfl, rfl⟩

theorem signed_natAbs (value : Int) :
    (if decide (value < 0) = true then -(value.natAbs : Int) else value.natAbs) = value := by
  split
  · rename_i negative
    have below := of_decide_eq_true negative
    omega
  · rename_i positive
    have above : ¬value < 0 := by simpa using positive
    omega

theorem scanLong_printInt {value : Int} (lower : -9223372036854775808 ≤ value)
    (upper : value < 9223372036854775808) {rest : List UInt8} (stop : stops rest = true) :
    scanLong (printInt value ++ rest) = some (value, rest) := by
  obtain ⟨solid, signed⟩ := scanSign_printInt value rest
  obtain ⟨front, behind⟩ := span_printNat value.natAbs stop
  rw [scanLong, solid, signed]
  simp only [front, behind, decimal_printNat, printNat_ne_nil, if_false, signed_natAbs]
  rw [min_eq_left (by omega), max_eq_right lower]

theorem scanInt_printInt {value : Int} (lower : -2147483648 ≤ value) (upper : value < 2147483648)
    {rest : List UInt8} (stop : stops rest = true) :
    scanInt (printInt value ++ rest) = some (value, rest) := by
  obtain ⟨solid, signed⟩ := scanSign_printInt value rest
  obtain ⟨front, behind⟩ := span_printNat value.natAbs stop
  rw [scanInt, solid, signed]
  simp only [front, behind, decimal_printNat, printNat_ne_nil, if_false, signed_natAbs]
  rw [min_eq_left (by omega), max_eq_right (by omega), toInt32_of_range lower upper]

def startsSolid : List Directive → Bool
  | .byte byte :: _ => !isSpace byte
  | _ => true

def startsForeign : List Directive → Bool
  | [] => true
  | .byte byte :: _ => !isDigit byte
  | _ => false

/-- A blank is followed by no blank and a number by no digit. -/
def separated : List Directive → Bool
  | [] => true
  | .byte byte :: format => (!isSpace byte || startsSolid format) && separated format
  | _ :: format => startsForeign format && separated format

def Fits : List Directive → List Int → Prop
  | [], values => values = []
  | .byte _ :: format, values => Fits format values
  | _ :: _, [] => False
  | .int :: format, value :: values =>
      -2147483648 ≤ value ∧ value < 2147483648 ∧ Fits format values
  | .long :: format, value :: values =>
      -9223372036854775808 ≤ value ∧ value < 9223372036854775808 ∧ Fits format values

theorem sprintf_solid {format : List Directive} {values : List Int}
    (solid : startsSolid format = true) (fits : Fits format values) :
    (sprintf format values).dropWhile isSpace = sprintf format values := by
  cases format with
  | nil => rfl
  | cons directive format =>
      cases directive with
      | byte byte =>
          have first : ¬isSpace byte = true := by simpa [startsSolid] using solid
          exact List.dropWhile_cons_of_neg first
      | int =>
          cases values with
          | nil => exact fits.elim
          | cons value values => exact (scanSign_printInt value _).1
      | long =>
          cases values with
          | nil => exact fits.elim
          | cons value values => exact (scanSign_printInt value _).1

theorem sprintf_stops {format : List Directive} (foreign : startsForeign format = true)
    (values : List Int) : stops (sprintf format values) = true := by
  cases format with
  | nil => rfl
  | cons directive format =>
      cases directive with
      | byte byte => exact foreign
      | int => contradiction
      | long => contradiction

/-- What is printed with a format is read back with it. -/
theorem sscanf_sprintf {format : List Directive} {values : List Int}
    (apart : separated format = true) (fits : Fits format values) :
    sscanf format (sprintf format values) = values := by
  induction format generalizing values with
  | nil => exact fits.symm
  | cons directive format ih =>
      rw [separated.eq_def] at apart
      cases directive with
      | byte byte =>
          simp only [Bool.and_eq_true, Bool.or_eq_true, Bool.not_eq_true'] at apart
          rw [sprintf, sscanf]
          split
          · rename_i blank
            have solid : startsSolid format = true := by simpa [blank] using apart.1
            rw [List.dropWhile_cons_of_pos blank, sprintf_solid solid fits, ih apart.2 fits]
          · rw [if_pos rfl, ih apart.2 fits]
      | int =>
          cases values with
          | nil => exact fits.elim
          | cons value values =>
              simp only [Bool.and_eq_true] at apart
              obtain ⟨lower, upper, rest⟩ := fits
              have scanned := scanInt_printInt lower upper (sprintf_stops apart.1 values)
              simp only [sprintf, sscanf, Directive.scan, scanned, ih apart.2 rest]
      | long =>
          cases values with
          | nil => exact fits.elim
          | cons value values =>
              simp only [Bool.and_eq_true] at apart
              obtain ⟨lower, upper, rest⟩ := fits
              have scanned := scanLong_printInt lower upper (sprintf_stops apart.1 values)
              simp only [sprintf, sscanf, Directive.scan, scanned, ih apart.2 rest]

theorem sscanf_byte {byte : UInt8} (solid : isSpace byte = false) (format : List Directive)
    (first : UInt8) (rest : List UInt8) :
    sscanf (.byte byte :: format) (first :: rest) =
      if first = byte then sscanf format rest else [] := by
  conv_lhs => rw [sscanf.eq_def]
  simp only [solid, Bool.false_eq_true, if_false]

theorem sscanf_text {string : String} (solid : (ascii string).all (fun byte => !isSpace byte))
    (format : List Directive) (input : List UInt8) :
    sscanf (text string ++ format) (ascii string ++ input) = sscanf format input := by
  rw [text]
  generalize ascii string = bytes at solid ⊢
  induction bytes with
  | nil => rfl
  | cons byte rest ih =>
      simp only [List.all_cons, Bool.and_eq_true, Bool.not_eq_true'] at solid
      rw [List.map_cons, List.cons_append, List.cons_append, sscanf_byte solid.1, if_pos rfl]
      exact ih solid.2

theorem sscanf_int {value : Int} (lower : -2147483648 ≤ value) (upper : value < 2147483648)
    (format : List Directive) {rest : List UInt8} (stop : stops rest = true) :
    sscanf (.int :: format) (printInt value ++ rest) = value :: sscanf format rest := by
  simp only [sscanf, Directive.scan, scanInt_printInt lower upper stop]

theorem sscanf_letter {letter : UInt8} (solid : isSpace letter = false)
    (foreign : isDigit letter = false) (signless : letter ≠ 45) (format : List Directive)
    (value : Int) (rest : List UInt8) :
    sscanf (.byte letter :: format) (printInt value ++ rest) = [] := by
  rw [printInt]
  split
  · rw [List.cons_append, sscanf_byte solid, if_neg signless.symm]
  · cases digits : printNat value.natAbs with
    | nil => exact absurd digits (printNat_ne_nil _)
    | cons first others =>
        have digit := printNat_digits value.natAbs first (digits ▸ List.mem_cons_self)
        have differs : first ≠ letter := by
          rintro rfl
          rw [digit] at foreign
          contradiction
        rw [List.cons_append, sscanf_byte solid, if_neg differs]

/-- A format that reads so many numbers, each into an `int`. -/
def onlyInts : List Directive → Nat → Bool
  | [], count => count = 0
  | .byte _ :: format, count => onlyInts format count
  | .int :: format, count + 1 => onlyInts format count
  | _ :: _, _ => false

theorem fits_of_onlyInts {format : List Directive} {values : List Int}
    (ints : onlyInts format values.length = true)
    (small : ∀ value ∈ values, -2147483648 ≤ value ∧ value < 2147483648) : Fits format values := by
  induction format generalizing values with
  | nil => exact List.length_eq_zero_iff.mp (of_decide_eq_true ints)
  | cons directive format ih =>
      cases directive with
      | byte byte => exact ih ints small
      | int =>
          cases values with
          | nil => contradiction
          | cons value values =>
              obtain ⟨lower, upper⟩ := small value List.mem_cons_self
              exact ⟨lower, upper,
                ih ints fun later member => small later (List.mem_cons_of_mem _ member)⟩
      | long =>
          cases values with
          | nil => contradiction
          | cons value values => contradiction

end DirtyCode.Lib
