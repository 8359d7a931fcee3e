import DirtyCode.Lib.Memory

/-!
`calc_csum` of `sbping.c` against the Internet checksum.
-/

namespace DirtyCode.Ping

open Lib

def halfword (buf : Memory) (i : Nat) : Nat := (buf i).toNat + 256 * (buf (i + 1)).toNat

def addWord (csum word : Nat) : Nat :=
  let csum := csum + word
  if csum / 65536 % 2 = 1 then csum % 65536 + csum / 65536 else csum

-- `i` has 16 bits, which every length but 65535 lets it pass
def csumLoop (buf : Memory) : Nat → Nat → Nat → Nat
  | 0, _, csum => csum
  | words + 1, i, csum => csumLoop buf words (i + 2) (addWord csum (halfword buf i))

def foldCarries (csum : Nat) : Nat :=
  if csum / 65536 = 0 then csum else foldCarries (csum % 65536 + csum / 65536)
termination_by csum
decreasing_by omega

def calcCsum (buf : Memory) (buflen : Nat) : BitVec 16 :=
  ~~~BitVec.ofNat 16 (foldCarries (csumLoop buf ((buflen + 1) / 2) 0 0))

/-- The sum of the words of a message in network order, the last one filled up with a zero. -/
def internetSum : List UInt8 → Nat
  | [] => 0
  | [high] => 256 * high.toNat
  | high :: low :: rest => 256 * high.toNat + low.toNat + internetSum rest

/-- The sum in ones' complement has all bits set. -/
def Checked (message : List UInt8) : Prop :=
  internetSum message % 65535 = 0 ∧ internetSum message ≠ 0

instance (message : List UInt8) : Decidable (Checked message) := by
  unfold Checked
  infer_instance

def wordSum (buf : Memory) : Nat → Nat → Nat
  | 0, _ => 0
  | words + 1, i => halfword buf i + wordSum buf words (i + 2)

/-- A number below 65536 that stands for a sum in ones' complement. -/
structure Stands (csum sum : Nat) : Prop where
  small : csum ≤ 65535
  same : csum % 65535 = sum % 65535
  zero : csum = 0 ↔ sum = 0

theorem Stands.addWord {csum sum word : Nat} (stands : Stands csum sum) (small : word ≤ 65535) :
    Stands (addWord csum word) (sum + word) := by
  obtain ⟨bound, same, zero⟩ := stands
  rw [Ping.addWord]
  by_cases carry : (csum + word) / 65536 % 2 = 1
  · rw [if_pos carry]
    constructor <;> omega
  · rw [if_neg carry]
    constructor <;> omega

theorem halfword_le (buf : Memory) (i : Nat) : halfword buf i ≤ 65535 := by
  have low := (buf i).toNat_lt
  have high := (buf (i + 1)).toNat_lt
  rw [halfword]
  omega

theorem Stands.csumLoop {buf : Memory} {words i csum sum : Nat} (stands : Stands csum sum) :
    Stands (csumLoop buf words i csum) (sum + wordSum buf words i) := by
  induction words generalizing i csum sum with
  | zero => exact stands
  | succ words ih =>
      rw [Ping.csumLoop, wordSum, ← Nat.add_assoc]
      exact ih (stands.addWord (halfword_le buf i))

theorem foldCarries_of_small {csum : Nat} (small : csum ≤ 65535) : foldCarries csum = csum := by
  rw [foldCarries, if_pos (by omega)]

/-- Words read with the low byte first give 256 times the sum, in ones' complement. -/
theorem wordSum_internetSum {buf : Memory} {message : List UInt8} {start : Nat}
    (held : ∀ offset ≤ message.length, buf (start + offset) = message.getD offset 0) :
    wordSum buf ((message.length + 1) / 2) start % 65535 = 256 * internetSum message % 65535 ∧
      (wordSum buf ((message.length + 1) / 2) start = 0 ↔ internetSum message = 0) := by
  induction message using internetSum.induct generalizing start with
  | case1 => exact ⟨rfl, Iff.rfl⟩
  | case2 high =>
      have first := held 0 (Nat.zero_le _)
      have second := held 1 le_rfl
      simp only [Nat.add_zero, List.getD_cons_zero, List.getD_cons_succ,
        List.getD_nil] at first second
      simp only [List.length_singleton, Nat.reduceAdd, Nat.reduceDiv, wordSum, halfword, first,
        second, internetSum, UInt8.toNat_zero]
      omega
  | case3 high low rest ih =>
      have first := held 0 (Nat.zero_le _)
      have second := held 1 (by simp)
      simp only [Nat.add_zero, List.getD_cons_zero, List.getD_cons_succ] at first second
      have later : ∀ offset ≤ rest.length, buf (start + 2 + offset) = rest.getD offset 0 := by
        intro offset within
        have moved := held (offset + 2) (by simp only [List.length_cons]; omega)
        simp only [List.getD_cons_succ] at moved
        rw [← moved, Nat.add_assoc, Nat.add_comm 2]
      have sums := ih later
      have words : ((high :: low :: rest).length + 1) / 2 = (rest.length + 1) / 2 + 1 := by
        simp only [List.length_cons]
        omega
      rw [words, wordSum, halfword, first, second, internetSum]
      omega

/-- The check of a received message accepts exactly those with a right checksum, also when
their length is odd and a zero follows. -/
theorem calcCsum_eq_zero_iff {buf : Memory} {message : List UInt8}
    (held : ∀ offset ≤ message.length, buf offset = message.getD offset 0) :
    calcCsum buf message.length = 0 ↔ Checked message := by
  have shown : ∀ offset ≤ message.length, buf (0 + offset) = message.getD offset 0 := by
    intro offset within
    rw [Nat.zero_add, held offset within]
  have sums := wordSum_internetSum shown
  have none : Stands 0 0 := ⟨Nat.zero_le _, rfl, Iff.rfl⟩
  have stands : Stands (csumLoop buf ((message.length + 1) / 2) 0 0)
      (0 + wordSum buf ((message.length + 1) / 2) 0) := none.csumLoop
  rw [Nat.zero_add] at stands
  obtain ⟨small, same, zero⟩ := stands
  rw [calcCsum, foldCarries_of_small small, Checked]
  generalize csumLoop buf ((message.length + 1) / 2) 0 0 = csum at small same zero
  have full : ~~~BitVec.ofNat 16 csum = 0 ↔ csum = 65535 := by
    rw [← BitVec.toNat_inj, BitVec.toNat_not, BitVec.toNat_ofNat]
    show 2 ^ 16 - 1 - csum % 2 ^ 16 = 0 ↔ csum = 65535
    omega
  rw [full]
  omega

end DirtyCode.Ping
