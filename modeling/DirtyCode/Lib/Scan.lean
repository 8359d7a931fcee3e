import Mathlib
import DirtyCode.Lib.CInt

/-!
Numbers and dates as the C library scans them.
-/

namespace DirtyCode.Lib

def isSpace (byte : UInt8) : Bool := byte = 32 ∨ (9 ≤ byte ∧ byte ≤ 13)

def isDigit (byte : UInt8) : Bool := 48 ≤ byte ∧ byte ≤ 57

def decimal (digits : List UInt8) : Nat :=
  digits.foldl (fun value byte => 10 * value + (byte.toNat - 48)) 0

def scanSign : List UInt8 → Bool × List UInt8
  | [] => (false, [])
  | byte :: rest =>
      if byte = 45 then (true, rest) else if byte = 43 then (false, rest) else (false, byte :: rest)

-- `%d`, whose value is read as a `long`
def scanInt (text : List UInt8) : Option (Int × List UInt8) :=
  let signed := scanSign (text.dropWhile isSpace)
  let digits := signed.2.takeWhile isDigit
  let value : Int := if signed.1 then -decimal digits else decimal digits
  if digits = [] then none
  else some (toInt32 (max (-9223372036854775808) (min value 9223372036854775807)),
    signed.2.dropWhile isDigit)

/-- `atoi`, for a number that an `int` holds. -/
def atoi (text : List UInt8) : Int := ((scanInt text).map Prod.fst).getD 0

def hexDigit (byte : UInt8) : Option Nat :=
  if 48 ≤ byte ∧ byte ≤ 57 then some (byte.toNat - 48)
  else if 65 ≤ byte ∧ byte ≤ 70 then some (byte.toNat - 55)
  else if 97 ≤ byte ∧ byte ≤ 102 then some (byte.toNat - 87)
  else none

def hexValue : Nat → List UInt8 → Nat
  | value, [] => value
  | value, byte :: rest =>
      match hexDigit byte with
      | some digit => hexValue (16 * value + digit) rest
      | none => value

def skipHexMark : List UInt8 → List UInt8
  | 48 :: 120 :: rest => rest
  | 48 :: 88 :: rest => rest
  | text => text

/-- `strtol(text, NULL, 16)`, for a number that a `long` holds. -/
def strtol16 (text : List UInt8) : Int :=
  let signed := scanSign (text.dropWhile isSpace)
  let value := hexValue 0 (skipHexMark signed.2)
  if signed.1 then -value else value

/-- A piece of a `strptime` format: blanks, a byte, or a number between two bounds
of at most so many digits. -/
inductive TimeField
  | blank
  | byte (value : UInt8)
  | number (low high digits : Nat)

-- the digits of one number, which end where another would exceed `high`
def timeDigits (high : Nat) : Nat → Nat → List UInt8 → Nat × List UInt8
  | 0, value, text => (value, text)
  | _ + 1, value, [] => (value, [])
  | room + 1, value, byte :: rest =>
      if isDigit byte ∧ value * 10 ≤ high then
        timeDigits high room (value * 10 + (byte.toNat - 48)) rest
      else (value, byte :: rest)

def strptime : List TimeField → List UInt8 → Option (List Nat)
  | [], _ => some []
  | .blank :: format, text => strptime format (text.dropWhile isSpace)
  | .byte value :: format, text =>
      match text with
      | [] => none
      | byte :: rest => if byte = value then strptime format rest else none
  | .number low high digits :: format, text =>
      match text.dropWhile isSpace with
      | [] => none
      | byte :: rest =>
          if isDigit byte then
            let scanned := timeDigits high (digits - 1) (byte.toNat - 48) rest
            if low ≤ scanned.1 ∧ scanned.1 ≤ high then
              (strptime format scanned.2).map fun values => scanned.1 :: values
            else none
          else none

end DirtyCode.Lib
