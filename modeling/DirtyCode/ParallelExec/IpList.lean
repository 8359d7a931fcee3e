import DirtyCode.Lib.Fgets
import DirtyCode.Lib.Address

/-!
`getIPList` of `ParallelExecRemote.c`: the file of addresses, read with a buffer of 16 bytes,
and the hosts that `add_one` connects to.
-/

namespace DirtyCode.ParallelExec

open Lib

def ipMax : Nat := 1024 * 1024 * 1024

-- the base that `strtoul` takes the digits in, and the digits on
def numberBase : List UInt8 → Nat × List UInt8
  | 48 :: mark :: digit :: rest =>
      if (mark = 120 ∨ mark = 88) ∧ (hexDigit digit).isSome then (16, digit :: rest)
      else (8, 48 :: mark :: digit :: rest)
  | 48 :: rest => (8, 48 :: rest)
  | text => (10, text)

def strtoulDigits (base : Nat) : Nat → List UInt8 → Nat × List UInt8
  | value, [] => (value, [])
  | value, byte :: rest =>
      match hexDigit byte with
      | some digit =>
          if digit < base then strtoulDigits base (base * value + digit) rest
          else (value, byte :: rest)
      | none => (value, byte :: rest)

/-- `strtoul(text, &end, 0)` of a text that starts with a digit. -/
def strtoul (text : List UInt8) : Nat × List UInt8 :=
  strtoulDigits (numberBase text).1 0 (numberBase text).2

/-- The parts of an address behind others, so many more of which may follow each. -/
def inetParts : Nat → Nat → List UInt8 → Option Nat
  | room, before, text =>
      if (text.head?.map isDigit).getD false then
        let value := (strtoul text).1
        match (strtoul text).2, room with
        | 46 :: _, 0 => none
        | 46 :: more, room + 1 =>
            if value < 256 then inetParts room (before * 256 + value) more else none
        | rest, room =>
            if (rest.head?.map isSpace).getD true ∧ value < 256 ^ (room + 1) then
              some (before * 256 ^ (room + 1) + value)
            else none
      else none

/-- `inet_aton`, its address in the order of the host. -/
def inetAton (text : List UInt8) : Option (BitVec 32) :=
  (inetParts 3 0 text).map (BitVec.ofNat 32)

/-- The passes of the loop, with `i` and what `in` holds. -/
def storeAddresses : Nat → BitVec 32 → List (List UInt8) → Option (List (BitVec 32))
  | _, _, [] => some []
  | i, inAddr, buf :: rest =>
      let text := buf.takeWhile (· ≠ 0)
      -- `buf[strlen(buf) - 1]` is in front of an empty text
      if text = [] ∨ ipMax ≤ i then none
      else
        let next := (inetAton text.dropLast).getD inAddr
        (storeAddresses (i + 1) next rest).map (next :: ·)

def getIPList (inAddr : BitVec 32) (content : List UInt8) : Option (List (BitVec 32)) :=
  storeAddresses 0 inAddr (reads 16 content)

/-- The argument that `add_one` builds for `ssh`. -/
def sshTarget (ip : BitVec 32) : List UInt8 := ascii "root@" ++ dottedIp ip

-- nothing that would go on a number of an address
def endsPart : List UInt8 → Bool
  | [] => true
  | byte :: _ => byte = 46

section Parts

variable {value : Nat} {rest : List UInt8}

theorem hexDigit_digit : ∀ byte : UInt8, isDigit byte = true →
    hexDigit byte = some (byte.toNat - 48) ∧ byte.toNat - 48 < 10 := by
  decide +kernel

theorem strtoulDigits_stop (base : Nat) (ends : endsPart rest = true) :
    strtoulDigits base value rest = (value, rest) := by
  cases rest with
  | nil => rfl
  | cons byte more =>
      obtain rfl : byte = 46 := by simpa [endsPart] using ends
      rfl

theorem strtoulDigits_ten {digits : List UInt8} (all : ∀ byte ∈ digits, isDigit byte = true)
    (ends : endsPart rest = true) (value : Nat) :
    strtoulDigits 10 value (digits ++ rest) =
      (digits.foldl (fun value byte => 10 * value + (byte.toNat - 48)) value, rest) := by
  induction digits generalizing value with
  | nil => exact strtoulDigits_stop 10 ends
  | cons byte digits ih =>
      obtain ⟨digit, small⟩ := hexDigit_digit byte (all byte List.mem_cons_self)
      simp only [List.cons_append, strtoulDigits, digit, small, if_true, List.foldl_cons]
      exact ih (fun later member => all later (List.mem_cons_of_mem _ member)) _

theorem shortDecimal_first : ∀ value < 256, value ≠ 0 → ∃ first others,
    shortDecimal value = first :: others ∧ first ≠ 48 := by
  intro value small nonzero
  have plain : ∀ value < 256, value ≠ 0 →
      (shortDecimal value).head?.isSome ∧ (shortDecimal value).head? ≠ some 48 := by
    decide +kernel
  obtain ⟨some_, other⟩ := plain value small nonzero
  cases digits : shortDecimal value with
  | nil => simp [digits] at some_
  | cons first others => exact ⟨first, others, rfl, by simpa [digits] using other⟩

theorem numberBase_ten {first : UInt8} (other : first ≠ 48) (rest : List UInt8) :
    numberBase (first :: rest) = (10, first :: rest) := by
  rw [numberBase.eq_def]
  split
  · rename_i same
    exact absurd (List.cons.inj same).1 other
  · rename_i same
    exact absurd (List.cons.inj same).1 other
  · rfl

theorem strtoul_shortDecimal (small : value < 256) (ends : endsPart rest = true) :
    strtoul (shortDecimal value ++ rest) = (value, rest) := by
  by_cases zero : value = 0
  · subst zero
    have base : numberBase (shortDecimal 0 ++ rest) = (8, 48 :: rest) := by
      match rest, ends with
      | [], _ => rfl
      | [_], _ => rfl
      | byte :: next :: more, ends =>
          obtain rfl : byte = 46 := by simpa [endsPart] using ends
          rfl
    rw [strtoul, base]
    exact strtoulDigits_stop 8 ends
  · obtain ⟨first, others, digits, other⟩ := shortDecimal_first value small zero
    have all := List.all_eq_true.mp (shortDecimal_digits value small)
    have base : numberBase (shortDecimal value ++ rest) = (10, shortDecimal value ++ rest) := by
      rw [digits]
      exact numberBase_ten other _
    rw [strtoul, base, strtoulDigits_ten all ends]
    exact Prod.ext (decimal_shortDecimal value small) rfl

theorem shortDecimal_head (small : value < 256) :
    ((shortDecimal value ++ rest).head?.map isDigit).getD false = true := by
  have all := List.all_eq_true.mp (shortDecimal_digits value small)
  have some_ : ∀ value < 256, shortDecimal value ≠ [] := by decide +kernel
  cases digits : shortDecimal value with
  | nil => exact absurd digits (some_ value small)
  | cons first others => exact all first (digits ▸ List.mem_cons_self)

theorem inetParts_part (small : value < 256) (room before : Nat) :
    inetParts (room + 1) before (shortDecimal value ++ 46 :: rest) =
      inetParts room (before * 256 + value) rest := by
  have read : strtoul (shortDecimal value ++ 46 :: rest) = (value, 46 :: rest) :=
    strtoul_shortDecimal small rfl
  conv_lhs => rw [inetParts.eq_def]
  simp only [shortDecimal_head small, if_true, read, small]

theorem inetParts_last (small : value < 256) (before : Nat) :
    inetParts 0 before (shortDecimal value) = some (before * 256 + value) := by
  have read : strtoul (shortDecimal value) = (value, []) := by
    simpa using @strtoul_shortDecimal value [] small rfl
  have head : ((shortDecimal value).head?.map isDigit).getD false = true := by
    simpa using @shortDecimal_head value [] small
  rw [inetParts.eq_def]
  simp [head, read, small]

end Parts

theorem inetAton_dotted (ip : BitVec 32) : inetAton (dottedIp ip) = some ip := by
  have bound := ip.isLt
  rw [inetAton, dottedIp, inetParts_part (ipByte_lt ip 3), inetParts_part (ipByte_lt ip 2),
    inetParts_part (ipByte_lt ip 1), inetParts_last (ipByte_lt ip 0), Option.map_some]
  congr 1
  apply BitVec.eq_of_toNat_eq
  simp only [BitVec.toNat_ofNat, ipByte, Nat.reducePow, Nat.div_one]
  omega

def cut (ip : BitVec 32) : BitVec 32 :=
  BitVec.ofNat 32 (ip.toNat / 256 * 256 + ip.toNat % 256 / 10)

def entriesOf (ip : BitVec 32) : List (BitVec 32) :=
  if (dottedIp ip).length = 15 then [cut ip, cut ip] else [ip]

theorem shortDecimal_three : ∀ value < 256, (shortDecimal value).length = 3 →
    shortDecimal value ≠ [] ∧ (shortDecimal value).dropLast = shortDecimal (value / 10) := by
  decide +kernel

theorem ipByte_cut (ip : BitVec 32) : ipByte (cut ip) 0 = ipByte ip 0 / 10 ∧
    ∀ k, ipByte (cut ip) (k + 1) = ipByte ip (k + 1) := by
  have bound := ip.isLt
  have kept : (cut ip).toNat = ip.toNat / 256 * 256 + ip.toNat % 256 / 10 := by
    rw [cut, BitVec.toNat_ofNat]
    omega
  constructor
  · rw [ipByte, ipByte, kept]
    omega
  · intro k
    have front : (ip.toNat / 256 * 256 + ip.toNat % 256 / 10) / 256 = ip.toNat / 256 := by omega
    rw [ipByte, ipByte, kept, pow_succ', ← Nat.div_div_eq_div_mul, ← Nat.div_div_eq_div_mul,
      front]

theorem dotted_cut {ip : BitVec 32} (long : (dottedIp ip).length = 15) :
    (dottedIp ip).dropLast = dottedIp (cut ip) := by
  have third := shortDecimal_length (ipByte ip 3)
  have next := shortDecimal_length (ipByte ip 2)
  have low := shortDecimal_length (ipByte ip 1)
  have lowest := shortDecimal_length (ipByte ip 0)
  simp only [dottedIp, List.length_append, List.length_cons] at long
  obtain ⟨filled, short⟩ := shortDecimal_three (ipByte ip 0) (ipByte_lt ip 0) (by omega)
  obtain ⟨last, others⟩ := ipByte_cut ip
  have front (text : List UInt8) {rest : List UInt8} (some_ : rest ≠ []) :
      (text ++ 46 :: rest).dropLast = text ++ 46 :: rest.dropLast := by
    rw [List.dropLast_append_of_ne_nil (List.cons_ne_nil _ _), List.dropLast_cons_of_ne_nil some_]
  rw [dottedIp, front _ (by simp), front _ (by simp), front _ filled, short, dottedIp,
    others 2, others 1, others 0, last]

theorem dotted_plain (ip : BitVec 32) : ∀ byte ∈ dottedIp ip, byte ≠ 0 ∧ byte ≠ 10 := by
  have digit : ∀ byte : UInt8, isDigit byte = true → byte ≠ 0 ∧ byte ≠ 10 := by
    decide +kernel
  have part (k : Nat) {byte : UInt8} (member : byte ∈ shortDecimal (ipByte ip k)) :
      byte ≠ 0 ∧ byte ≠ 10 :=
    digit byte (List.all_eq_true.mp (shortDecimal_digits _ (ipByte_lt ip k)) byte member)
  intro byte member
  simp only [dottedIp, List.mem_append, List.mem_cons] at member
  rcases member with inside | rfl | inside | rfl | inside | rfl | inside
  · exact part 3 inside
  · decide
  · exact part 2 inside
  · decide
  · exact part 1 inside
  · decide
  · exact part 0 inside

theorem takeWhile_dotted (ip : BitVec 32) (rest : List UInt8) :
    (dottedIp ip ++ rest).takeWhile (· ≠ 0) = dottedIp ip ++ rest.takeWhile (· ≠ 0) := by
  apply List.takeWhile_append_of_pos
  intro byte member
  exact decide_eq_true (dotted_plain ip byte member).1

theorem dotted_ne_nil (ip : BitVec 32) : dottedIp ip ≠ [] := by
  simp [dottedIp]

theorem storeAddresses_line {ip : BitVec 32} {i : Nat} {inAddr : BitVec 32}
    {rest : List (List UInt8)} (few : i < ipMax) :
    storeAddresses i inAddr ((dottedIp ip ++ [10]) :: rest) =
      (storeAddresses (i + 1) ip rest).map (ip :: ·) := by
  have text : (dottedIp ip ++ [10]).takeWhile (· ≠ 0) = dottedIp ip ++ [10] :=
    takeWhile_dotted ip [10]
  have kept : ¬(dottedIp ip ++ [10] = [] ∨ ipMax ≤ i) := by
    simp [few]
  simp only [storeAddresses, text, kept, if_false, List.dropLast_concat, inetAton_dotted,
    Option.getD_some]

theorem storeAddresses_cut {ip : BitVec 32} {i : Nat} {inAddr : BitVec 32}
    {rest : List (List UInt8)} (few : i + 1 < ipMax) (long : (dottedIp ip).length = 15) :
    storeAddresses i inAddr (dottedIp ip :: [10] :: rest) =
      (storeAddresses (i + 2) (cut ip) rest).map ([cut ip, cut ip] ++ ·) := by
  have text : (dottedIp ip).takeWhile (· ≠ 0) = dottedIp ip := by
    simpa using takeWhile_dotted ip []
  have newline : ([10] : List UInt8).takeWhile (· ≠ 0) = [10] := rfl
  have kept : ¬(dottedIp ip = [] ∨ ipMax ≤ i) := by
    have some_ := dotted_ne_nil ip
    simp only [some_, false_or]
    omega
  have later : ¬(([10] : List UInt8) = [] ∨ ipMax ≤ i + 1) := by
    simp only [List.cons_ne_nil, false_or]
    omega
  have empty : inetAton ([10] : List UInt8).dropLast = none := rfl
  simp only [storeAddresses, text, newline, kept, later, if_false, dotted_cut long,
    inetAton_dotted, empty, Option.getD_some, Option.getD_none, Option.map_map]
  rfl

theorem storeAddresses_entries {ips : List (BitVec 32)} (i : Nat) (inAddr : BitVec 32)
    (few : i + (ips.flatMap entriesOf).length ≤ ipMax) :
    storeAddresses i inAddr ((ips.map dottedIp).flatMap (readsOf 15)) =
      some (ips.flatMap entriesOf) := by
  induction ips generalizing i inAddr with
  | nil => rfl
  | cons ip rest ih =>
      rw [List.flatMap_cons, List.length_append, entriesOf] at few
      rw [List.map_cons, List.flatMap_cons, List.flatMap_cons, entriesOf, readsOf]
      by_cases long : (dottedIp ip).length = 15
      · simp only [long, if_true, List.length_cons, List.length_nil] at few ⊢
        rw [List.cons_append, List.cons_append, List.nil_append,
          storeAddresses_cut (by omega) long, ih (i + 2) (cut ip) (by omega)]
        rfl
      · simp only [long, if_false, List.length_cons, List.length_nil] at few ⊢
        rw [List.cons_append, List.nil_append, storeAddresses_line (by omega),
          ih (i + 1) ip (by omega)]
        rfl

theorem length_entries (ips : List (BitVec 32)) : (ips.flatMap entriesOf).length =
    ips.length + ips.countP fun ip => (dottedIp ip).length = 15 := by
  induction ips with
  | nil => rfl
  | cons ip rest ih =>
      rw [List.flatMap_cons, List.length_append, ih, List.countP_cons, List.length_cons, entriesOf]
      by_cases long : (dottedIp ip).length = 15
      · simp only [long, if_true, decide_true, List.length_cons, List.length_nil]
        omega
      · simp only [long, if_false, decide_false, Bool.false_eq_true, List.length_cons,
          List.length_nil]
        omega

/-- The children are given the hosts of the lines, each once, exactly when no line has 15
bytes. -/
theorem targets_own_iff (ips : List (BitVec 32)) :
    (ips.flatMap entriesOf).map sshTarget = (ips.map dottedIp).map (ascii "root@" ++ ·) ↔
      ∀ ip ∈ ips, (dottedIp ip).length < 15 := by
  constructor
  · intro same ip member
    have count := length_entries ips
    have lengths := congrArg List.length same
    simp only [List.length_map] at lengths
    have none : ips.countP (fun ip => (dottedIp ip).length = 15) = 0 := by omega
    have short := List.countP_eq_zero.mp none ip member
    have bound := dottedIp_length ip
    simp only [decide_eq_true_eq] at short
    omega
  · intro short
    have single : ∀ ip ∈ ips, entriesOf ip = [ip] := fun ip member =>
      if_neg (short ip member).ne
    rw [List.flatMap_congr single, List.flatMap_singleton', List.map_map]
    rfl

/-- Every line is taken for its address, but one of 15 bytes for two that lack its last
digit. -/
theorem getIPList_eq {ips : List (BitVec 32)} (inAddr : BitVec 32)
    (few : (ips.flatMap entriesOf).length ≤ ipMax) :
    ∃ iplist, getIPList inAddr (fileOf (ips.map dottedIp)) = some iplist ∧
      iplist = ips.flatMap entriesOf ∧
      (iplist.map sshTarget = (ips.map dottedIp).map (ascii "root@" ++ ·) ↔
        ∀ ip ∈ ips, (dottedIp ip).length < 15) := by
  refine ⟨_, ?_, rfl, targets_own_iff ips⟩
  have lines : ∀ line ∈ ips.map dottedIp, 10 ∉ line ∧ line.length ≤ 16 - 1 := by
    intro line member
    obtain ⟨ip, -, rfl⟩ := List.mem_map.mp member
    exact ⟨fun newline => (dotted_plain ip 10 newline).2 rfl, dottedIp_length ip⟩
  rw [getIPList, reads_fileOf (by decide) lines]
  exact storeAddresses_entries 0 inAddr (by omega)

/-- 10.0.0.1 and 192.168.100.100. -/
theorem getIPList_eq_two :
    getIPList 0 (fileOf ([0x0A000001, 0xC0A86464].map dottedIp)) =
      some [0x0A000001, 0xC0A8640A, 0xC0A8640A] := by
  obtain ⟨iplist, read, entries, -⟩ :=
    @getIPList_eq [0x0A000001, 0xC0A86464] 0 (by decide)
  rw [read, entries]
  decide

end DirtyCode.ParallelExec
