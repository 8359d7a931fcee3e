import DirtyCode.Lib.Text

/-!
IPv4 addresses: their bytes, and the dotted text that stands for one address only.
-/

namespace DirtyCode.Lib

/-- Byte `k` of an address, the last number of its dotted form being byte 0. -/
def ipByte (ip : BitVec 32) (k : Nat) : Nat := ip.toNat / 256 ^ k % 256

def dottedIp (ip : BitVec 32) : List UInt8 :=
  shortDecimal (ipByte ip 3) ++ 46 :: (shortDecimal (ipByte ip 2) ++
    46 :: (shortDecimal (ipByte ip 1) ++ 46 :: shortDecimal (ipByte ip 0)))

theorem ipByte_lt (ip : BitVec 32) (k : Nat) : ipByte ip k < 256 := Nat.mod_lt _ (by decide)

theorem ip_ext {first second : BitVec 32} (third : ipByte first 3 = ipByte second 3)
    (next : ipByte first 2 = ipByte second 2) (low : ipByte first 1 = ipByte second 1)
    (lowest : ipByte first 0 = ipByte second 0) : first = second := by
  apply BitVec.eq_of_toNat_eq
  have firstBound := first.isLt
  have secondBound := second.isLt
  simp only [ipByte, Nat.reducePow, Nat.div_one] at third next low lowest
  omega

/-- A text starts with one dotted address and a blank only. -/
theorem dottedIp_unique {first second : BitVec 32} {rest later : List UInt8}
    (same : dottedIp first ++ 32 :: rest = dottedIp second ++ 32 :: later) :
    first = second ∧ rest = later := by
  have dot : isDigit 46 = false := by decide
  have space : isDigit 32 = false := by decide
  simp only [dottedIp, List.append_assoc, List.cons_append] at same
  obtain ⟨third, same⟩ := shortDecimal_cancel (ipByte_lt _ _) (ipByte_lt _ _) dot same
  obtain ⟨next, same⟩ := shortDecimal_cancel (ipByte_lt _ _) (ipByte_lt _ _) dot same
  obtain ⟨low, same⟩ := shortDecimal_cancel (ipByte_lt _ _) (ipByte_lt _ _) dot same
  obtain ⟨lowest, same⟩ := shortDecimal_cancel (ipByte_lt _ _) (ipByte_lt _ _) space same
  exact ⟨ip_ext third next low lowest, same⟩

theorem dottedIp_length (ip : BitVec 32) : (dottedIp ip).length ≤ 15 := by
  have third := shortDecimal_length (ipByte ip 3)
  have next := shortDecimal_length (ipByte ip 2)
  have low := shortDecimal_length (ipByte ip 1)
  have lowest := shortDecimal_length (ipByte ip 0)
  simp only [dottedIp, List.length_append, List.length_cons]
  omega

end DirtyCode.Lib
