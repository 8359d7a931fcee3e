import DirtyCode.Lib.Address

/-!
What the `udps` forwarders share: the source tag of a datagram and the line buffer.
Characters are of any type in which the bytes can be read, so that one can follow where a
character came from.
-/

namespace DirtyCode.Udps

open Lib

def maxLineLen : Nat := 4096

structure Alphabet (α : Type) where
  byte : α → UInt8
  own : UInt8 → α
  byte_own : ∀ value, byte (own value) = value

def plain : Alphabet UInt8 where
  byte := id
  own := id
  byte_own := fun _ => rfl

namespace Alphabet

variable {α : Type} (chars : Alphabet α)

def bytes (text : List α) : List UInt8 := text.map chars.byte

def print (text : List UInt8) : List α := text.map chars.own

def cString (text : List α) : List α := text.takeWhile fun char => chars.byte char ≠ 0

def isLineEnd (char : α) : Bool := chars.byte char = 10

/-- What `buf` holds after `snprintf(buf, MAX_LINE_LEN - 1, ..)`. -/
def buffer (text : List α) : List α := text.take (maxLineLen - 2)

/-- What `sendto` reads when it is given the length that `snprintf` returned. -/
def sentBytes (stack : Nat → UInt8) (text : List α) : List α :=
  if text.length ≤ maxLineLen - 2 then text
  else buffer text ++ chars.own 0 ::
    (List.range (text.length - (maxLineLen - 1))).map fun offset => chars.own (stack offset)

@[simp] theorem bytes_append (first second : List α) :
    chars.bytes (first ++ second) = chars.bytes first ++ chars.bytes second :=
  List.map_append

@[simp] theorem bytes_length (text : List α) : (chars.bytes text).length = text.length :=
  List.length_map _

@[simp] theorem bytes_print (text : List UInt8) : chars.bytes (chars.print text) = text := by
  rw [bytes, print, List.map_map]
  exact (List.map_congr_left fun value _ => chars.byte_own value).trans (List.map_id _)

@[simp] theorem plain_bytes (text : List UInt8) : plain.bytes text = text := List.map_id _

@[simp] theorem plain_print (text : List UInt8) : plain.print text = text := List.map_id _

theorem bytes_buffer (text : List α) : chars.bytes (buffer text) = buffer (chars.bytes text) :=
  List.map_take

theorem bytes_cString (text : List α) :
    chars.bytes (chars.cString text) = plain.cString (chars.bytes text) := by
  induction text with
  | nil => rfl
  | cons char rest ih =>
      by_cases zero : chars.byte char = 0
      · simp [cString, bytes, zero, plain]
      · simpa [cString, bytes, zero, plain] using ih

theorem bytes_sentBytes (stack : Nat → UInt8) (text : List α) :
    chars.bytes (chars.sentBytes stack text) = plain.sentBytes stack (chars.bytes text) := by
  by_cases short : text.length ≤ maxLineLen - 2
  · rw [sentBytes, if_pos short, sentBytes, if_pos (by rwa [bytes_length])]
  · rw [sentBytes, if_neg short, sentBytes, if_neg (by rwa [bytes_length]), bytes_append,
      bytes_buffer, bytes_length]
    simp [bytes, plain, chars.byte_own]

theorem sentBytes_length (stack : Nat → UInt8) (text : List α) :
    (chars.sentBytes stack text).length = text.length := by
  by_cases short : text.length ≤ maxLineLen - 2
  · rw [sentBytes, if_pos short]
  · have kept : (buffer text).length = maxLineLen - 2 := by
      rw [buffer, List.length_take]
      exact Nat.min_eq_left (Nat.le_of_not_le short)
    rw [sentBytes, if_neg short, List.length_append, List.length_cons, List.length_map,
      List.length_range, kept]
    simp only [maxLineLen] at short ⊢
    omega

/-- A text that fits is sent whole, but that its last character may give way to the NUL. -/
theorem sentBytes_fit (stack : Nat → UInt8) {front : List α} {last : α}
    (fits : (front ++ [last]).length < maxLineLen) :
    ∃ final, chars.sentBytes stack (front ++ [last]) = front ++ [final] := by
  by_cases short : (front ++ [last]).length ≤ maxLineLen - 2
  · exact ⟨last, if_pos short⟩
  · have size : (front ++ [last]).length = maxLineLen - 1 := by
      simp only [maxLineLen] at fits short ⊢
      omega
    have kept : front.length = maxLineLen - 2 := by
      rw [List.length_append, List.length_singleton] at size
      omega
    refine ⟨chars.own 0, ?_⟩
    rw [sentBytes, if_neg short, size, Nat.sub_self, buffer, ← kept, List.take_left]
    rfl

/-- A longer text is sent with the NUL inside. -/
theorem nul_mem_sentBytes (stack : Nat → UInt8) {text : List α} (long : maxLineLen ≤ text.length)
    {start : Nat} (early : start ≤ maxLineLen - 2) :
    chars.own 0 ∈ ((chars.sentBytes stack text).drop start).dropLast := by
  have cut : ¬text.length ≤ maxLineLen - 2 := by
    simp only [maxLineLen] at long ⊢
    omega
  obtain ⟨more, size⟩ : ∃ more, text.length - (maxLineLen - 1) = more + 1 :=
    ⟨text.length - maxLineLen, by simp only [maxLineLen] at long ⊢; omega⟩
  have kept : (buffer text).length = maxLineLen - 2 := by
    rw [buffer, List.length_take]
    omega
  rw [sentBytes, if_neg cut, size, List.drop_append_of_le_length (by rwa [kept]),
    List.dropLast_append_of_ne_nil (List.cons_ne_nil _ _), List.range_succ, List.map_append,
    List.map_singleton, ← List.cons_append, List.dropLast_concat]
  exact List.mem_append_right _ List.mem_cons_self

end Alphabet

theorem cString_of_plain {text : List UInt8} (inside : 0 ∉ text) : plain.cString text = text := by
  rw [Alphabet.cString, List.takeWhile_eq_self_iff]
  intro char member
  have different : char ≠ 0 := fun zero => inside (zero ▸ member)
  exact decide_eq_true different

/-- The address in the first eight characters, where `split_and_send` goes on. -/
def tagOf (msg : List UInt8) : Option (BitVec 32) :=
  if msg.length < 10 ∨ msg.getD 8 0 ≠ 32 then none
  else
    let ip := BitVec.ofInt 32 (strtol16 (msg.take 8))
    if ip = 0 then none else some ip

end DirtyCode.Udps
