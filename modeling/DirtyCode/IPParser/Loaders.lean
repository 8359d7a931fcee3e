import DirtyCode.IPParser.HashedBitmap
import DirtyCode.IPParser.Membership
import DirtyCode.Lib.Fgets
import DirtyCode.Lib.Format

/-!
The loops of `IPParserWithBitMap` that read a list of addresses line by line: `parseIP`
with a buffer of `INET_ADDRSTRLEN` bytes, `testBitmapAPI` with three bytes more.
-/

namespace DirtyCode.IPParser

open Lib

def inetAddrstrlen : Nat := 16

-- the bytes that `strlen` counts
def stringOf (buf : Bytes) : Bytes := buf.takeWhile (· ≠ 0)

/-- `buf[len - 1] = '\0'`, undefined for an empty string. -/
def eraseLast (buf : Bytes) : Option Bytes :=
  match stringOf buf with
  | [] => none
  | text => some text.dropLast

-- the result of `inet_pton` is not looked at, and a failure leaves `s` as it was
def convert (sAddr : Nat) (text : Bytes) : Nat := (inetPton text).getD sAddr

def hostOf (sAddr : Nat) : BitVec 32 := BitVec.ofNat 32 (htonl sAddr)

/-- The hosts that the passes of `parseIP` hash, from the content that `s` has. -/
def parsedHosts (sAddr : Nat) : List Bytes → Option (List (BitVec 32))
  | [] => some []
  | buf :: rest => do
      let text ← eraseLast buf
      let hosts ← parsedHosts (convert sAddr text) rest
      some (hostOf (convert sAddr text) :: hosts)

def parseIP (sAddr : Nat) (tables : Tables) (content : Bytes) : Option Tables :=
  (parsedHosts sAddr (reads inetAddrstrlen content)).map fun hosts =>
    hosts.foldl parseHost tables

-- `if(len < 7) continue`
def passedString (buf : Bytes) : Option Bytes :=
  if (stringOf buf).length < 7 then none else some (stringOf buf).dropLast

def passedStrings (content : Bytes) : List Bytes :=
  (reads (inetAddrstrlen + 3) content).filterMap passedString

def testBitmapAPI (content : Bytes) : Option Memory :=
  addAll (passedStrings content) fun _ => 0

theorem decimal_ge (digits : List UInt8) (start : Nat) :
    start * 10 ^ digits.length ≤
      digits.foldl (fun value byte => 10 * value + (byte.toNat - 48)) start := by
  induction digits generalizing start with
  | nil => simp
  | cons digit rest ih =>
      rw [List.length_cons, List.foldl_cons, pow_succ]
      refine le_trans ?_ (ih _)
      rw [Nat.mul_comm (10 ^ rest.length), ← Nat.mul_assoc]
      exact Nat.mul_le_mul_right _ (by omega)

theorem octet_length {field : Bytes} {value : Nat} (read : octet field = some value) :
    1 ≤ field.length ∧ field.length ≤ 3 ∧ ∀ byte ∈ field, isDigit byte = true := by
  rw [octet] at read
  split at read
  · rename_i valid
    obtain ⟨filled, digits, zero, small⟩ := valid
    have digit : ∀ byte ∈ field, isDigit byte = true := List.all_eq_true.mp digits
    refine ⟨List.length_pos_iff.mpr filled, ?_, digit⟩
    obtain ⟨first, rest, rfl⟩ := List.exists_cons_of_ne_nil filled
    by_cases leading : first = 48
    · rw [zero (by rw [leading]; rfl)]
      decide
    · have range := digit first List.mem_cons_self
      have positive : 1 ≤ 10 * 0 + (first.toNat - 48) := by
        simp only [isDigit, decide_eq_true_eq, UInt8.le_iff_toNat_le] at range
        have other : first.toNat ≠ 48 := fun same => leading (UInt8.toNat_inj.mp same)
        have lower : 48 ≤ first.toNat := range.1
        omega
      have large := decimal_ge rest (10 * 0 + (first.toNat - 48))
      rw [decimal, List.foldl_cons] at small
      by_contra long
      rw [List.length_cons] at long
      have power : 10 ^ 3 ≤ 10 ^ rest.length := Nat.pow_le_pow_right (by decide) (by omega)
      have scaled := Nat.mul_le_mul_right (10 ^ rest.length) positive
      omega
  · contradiction

structure Dotted (line : Bytes) : Prop where
  shortest : 7 ≤ line.length
  longest : line.length ≤ 15
  bytes : ∀ byte ∈ line, isDigit byte = true ∨ byte = 46

theorem dotted_of_inetPton {line : Bytes} {sAddr : Nat} (read : inetPton line = some sAddr) :
    Dotted line := by
  have joined : [46].intercalate (line.splitOn 46) = line := List.intercalate_splitOn 46
  simp only [inetPton] at read
  split at read
  · rename_i first second third fourth fields
    simp only [Option.bind_eq_bind, Option.bind_eq_some_iff] at read
    obtain ⟨a, firstRead, b, secondRead, c, thirdRead, d, fourthRead, _⟩ := read
    obtain ⟨firstLower, firstUpper, firstDigits⟩ := octet_length firstRead
    obtain ⟨secondLower, secondUpper, secondDigits⟩ := octet_length secondRead
    obtain ⟨thirdLower, thirdUpper, thirdDigits⟩ := octet_length thirdRead
    obtain ⟨fourthLower, fourthUpper, fourthDigits⟩ := octet_length fourthRead
    have whole : line = first ++ 46 :: (second ++ 46 :: (third ++ 46 :: fourth)) := by
      rw [← joined, fields]
      simp [List.intercalate]
    rw [whole]
    constructor
    · simp only [List.length_append, List.length_cons]
      omega
    · simp only [List.length_append, List.length_cons]
      omega
    · intro byte member
      simp only [List.mem_append, List.mem_cons] at member
      rcases member with member | rfl | member | rfl | member | rfl | member
      · exact .inl (firstDigits byte member)
      · exact .inr rfl
      · exact .inl (secondDigits byte member)
      · exact .inr rfl
      · exact .inl (thirdDigits byte member)
      · exact .inr rfl
      · exact .inl (fourthDigits byte member)
  · contradiction

inductive EntryLine : Bytes → Prop
  | address {line} : (inetPton line).isSome = true → EntryLine line
  | network {address mask} : (inetPton address).isSome = true → mask ≤ 32 →
      EntryLine (address ++ 47 :: printNat mask)

def Printed (line : Bytes) : Prop := ∀ byte ∈ line, byte ≠ 0 ∧ byte ≠ 10

theorem digit_printed : ∀ byte : UInt8, isDigit byte = true ∨ byte = 46 ∨ byte = 47 →
    byte ≠ 0 ∧ byte ≠ 10 := by
  decide +kernel

theorem Dotted.printed {line : Bytes} (dotted : Dotted line) : Printed line := by
  intro byte member
  refine digit_printed byte ?_
  rcases dotted.bytes byte member with digit | point
  · exact .inl digit
  · exact .inr (.inl point)

theorem EntryLine.bounds {line : Bytes} (entry : EntryLine line) :
    Printed line ∧ 7 ≤ line.length ∧ line.length ≤ 18 := by
  cases entry with
  | address read =>
      obtain ⟨_, parsed⟩ := Option.isSome_iff_exists.mp read
      have dotted := dotted_of_inetPton parsed
      have longest := dotted.longest
      exact ⟨dotted.printed, dotted.shortest, by omega⟩
  | @network address mask read small =>
      obtain ⟨_, parsed⟩ := Option.isSome_iff_exists.mp read
      have dotted := dotted_of_inetPton parsed
      have shortest := dotted.shortest
      have longest := dotted.longest
      have digits : (printNat mask).length ≤ 2 := printNat_length (by decide) (by omega)
      refine ⟨?_, ?_, ?_⟩
      · intro byte member
        simp only [List.mem_append, List.mem_cons] at member
        rcases member with member | rfl | member
        · exact dotted.printed byte member
        · exact digit_printed 47 (.inr (.inr rfl))
        · exact digit_printed byte (.inl (printNat_digits mask byte member))
      · simp only [List.length_append, List.length_cons]
        omega
      · simp only [List.length_append, List.length_cons]
        omega

theorem stringOf_printed {line : Bytes} (printed : Printed line) : stringOf line = line := by
  rw [stringOf, List.takeWhile_eq_self_iff]
  exact fun byte member => decide_eq_true (printed byte member).1

theorem stringOf_line {line : Bytes} (printed : Printed line) :
    stringOf (line ++ [10]) = line ++ [10] := by
  rw [stringOf, List.takeWhile_eq_self_iff]
  intro byte member
  rcases List.mem_append.mp member with member | member
  · exact decide_eq_true (printed byte member).1
  · rw [List.mem_singleton.mp member]
    decide

theorem eraseLast_line {line : Bytes} (printed : Printed line) :
    eraseLast (line ++ [10]) = some line := by
  rw [eraseLast, stringOf_line printed]
  cases line with
  | nil => rfl
  | cons byte rest =>
      change some ((byte :: rest) ++ [10]).dropLast = some (byte :: rest)
      rw [List.dropLast_concat]

theorem parsedHosts_length {bufs : List Bytes} {sAddr : Nat} {hosts : List (BitVec 32)}
    (ran : parsedHosts sAddr bufs = some hosts) : hosts.length = bufs.length := by
  induction bufs generalizing sAddr hosts with
  | nil =>
      rw [← Option.some.inj ran]
      rfl
  | cons buf rest ih =>
      simp only [parsedHosts, Option.bind_eq_bind, Option.bind_eq_some_iff] at ran
      obtain ⟨text, _, others, later, result⟩ := ran
      rw [← Option.some.inj result, List.length_cons, List.length_cons, ih later]

def lineHost (line : Bytes) : BitVec 32 := hostOf ((inetPton line).getD 0)

theorem parsedHosts_lines {lines : List Bytes}
    (parsed : ∀ line ∈ lines, (inetPton line).isSome = true ∧ line.length ≠ 15) (sAddr : Nat) :
    parsedHosts sAddr (lines.flatMap (readsOf 15)) = some (lines.map lineHost) := by
  induction lines generalizing sAddr with
  | nil => rfl
  | cons line rest ih =>
      obtain ⟨read, short⟩ := parsed line List.mem_cons_self
      obtain ⟨value, address⟩ := Option.isSome_iff_exists.mp read
      have later := ih fun other member => parsed other (List.mem_cons_of_mem _ member)
      have erased := eraseLast_line (dotted_of_inetPton address).printed
      rw [List.flatMap_cons, readsOf, if_neg short, List.singleton_append]
      simp only [parsedHosts, erased, Option.bind_eq_bind, Option.bind_some, later, convert,
        address, Option.getD_some, List.map_cons, lineHost]

theorem parse_ip_exact_iff (sAddr : Nat) {lines : List Bytes}
    (addresses : ∀ line ∈ lines, (inetPton line).isSome = true) :
    parsedHosts sAddr (reads inetAddrstrlen (fileOf lines)) = some (lines.map lineHost) ↔
      ∀ line ∈ lines, line.length ≤ 14 := by
  have dotted : ∀ line ∈ lines, Dotted line := by
    intro line member
    obtain ⟨_, parsed⟩ := Option.isSome_iff_exists.mp (addresses line member)
    exact dotted_of_inetPton parsed
  have passes : reads inetAddrstrlen (fileOf lines) = lines.flatMap (readsOf 15) :=
    reads_fileOf (by decide) fun line member =>
      ⟨fun newline => ((dotted line member).printed 10 newline).2 rfl, (dotted line member).longest⟩
  rw [passes]
  constructor
  · intro ran line member
    have lengths := parsedHosts_length ran
    rw [List.length_map, readsOf_length] at lengths
    have short := List.countP_eq_zero.mp (Nat.left_eq_add.mp lengths) line member
    have longest := (dotted line member).longest
    simp only [decide_eq_true_eq] at short
    omega
  · intro short
    refine parsedHosts_lines (fun line member => ⟨addresses line member, ?_⟩) sAddr
    have bounded := short line member
    omega

theorem parseIP_lines (sAddr : Nat) (tables : Tables) {lines : List Bytes}
    (addresses : ∀ line ∈ lines, (inetPton line).isSome = true)
    (short : ∀ line ∈ lines, line.length ≤ 14) :
    parseIP sAddr tables (fileOf lines) = some ((lines.map lineHost).foldl parseHost tables) := by
  rw [parseIP, (parse_ip_exact_iff sAddr addresses).mpr short, Option.map_some]

theorem passedString_readsOf {line : Bytes} (printed : Printed line) (long : 7 ≤ line.length) :
    (readsOf 18 line).filterMap passedString =
      [if line.length = 18 then line.dropLast else line] := by
  rw [readsOf]
  split
  · have here : passedString line = some line.dropLast := by
      rw [passedString, stringOf_printed printed, if_neg (by omega)]
    have skipped : passedString [10] = none := by decide
    rw [List.filterMap_cons_some here, List.filterMap_cons_none skipped, List.filterMap_nil]
  · have here : passedString (line ++ [10]) = some line := by
      rw [passedString, stringOf_line printed, List.length_append, if_neg (by omega),
        List.dropLast_concat]
    rw [List.filterMap_cons_some here, List.filterMap_nil]

theorem passedStrings_fileOf {lines : List Bytes} (entries : ∀ line ∈ lines, EntryLine line) :
    passedStrings (fileOf lines) =
      lines.map fun line => if line.length = 18 then line.dropLast else line := by
  have passes : reads (inetAddrstrlen + 3) (fileOf lines) = lines.flatMap (readsOf 18) :=
    reads_fileOf (by decide) fun line member =>
      have bounds := (entries line member).bounds
      ⟨fun newline => (bounds.1 10 newline).2 rfl, bounds.2.2⟩
  rw [passedStrings, passes, List.filterMap_flatMap, List.map_eq_flatMap]
  apply List.flatMap_congr
  intro line member
  obtain ⟨printed, long, _⟩ := (entries line member).bounds
  exact passedString_readsOf printed long

theorem bitmap_api_exact_iff {lines : List Bytes} (entries : ∀ line ∈ lines, EntryLine line) :
    passedStrings (fileOf lines) = lines ↔ ∀ line ∈ lines, line.length ≤ 17 := by
  rw [passedStrings_fileOf entries]
  nth_rewrite 2 [← List.map_id lines]
  rw [List.map_inj_left]
  refine forall_congr' fun line => forall_congr' fun member => ?_
  obtain ⟨_, long, bounded⟩ := (entries line member).bounds
  by_cases full : line.length = 18
  · rw [if_pos full]
    refine iff_of_false (fun same => ?_) (by omega)
    have lengths := congrArg List.length same
    rw [List.length_dropLast, id] at lengths
    omega
  · rw [if_neg full]
    exact iff_of_true rfl (by omega)

theorem testBitmapAPI_lines {lines : List Bytes} (entries : ∀ line ∈ lines, EntryLine line)
    (short : ∀ line ∈ lines, line.length ≤ 17) :
    testBitmapAPI (fileOf lines) = addAll lines fun _ => 0 := by
  rw [testBitmapAPI, (bitmap_api_exact_iff entries).mpr short]

/-- `parseIP` hashes exactly the addresses of the lines, whatever `s` held before, if and
only if no line fills its buffer, and the same holds of the strings of `testBitmapAPI`. -/
theorem loaders_exact_iff (sAddr : Nat) {addresses entries : List Bytes}
    (dotted : ∀ line ∈ addresses, (inetPton line).isSome = true)
    (forms : ∀ line ∈ entries, EntryLine line) :
    (parsedHosts sAddr (reads inetAddrstrlen (fileOf addresses)) =
        some (addresses.map lineHost) ↔ ∀ line ∈ addresses, line.length ≤ 14) ∧
      (passedStrings (fileOf entries) = entries ↔ ∀ line ∈ entries, line.length ≤ 17) :=
  ⟨parse_ip_exact_iff sAddr dotted, bitmap_api_exact_iff forms⟩

theorem loaders_exact_iff_short :
    parsedHosts 0 (reads inetAddrstrlen (fileOf [ascii "10.0.0.1", ascii "192.168.10.20"])) =
        some ([ascii "10.0.0.1", ascii "192.168.10.20"].map lineHost) ∧
      passedStrings (fileOf [ascii "10.0.0.0" ++ 47 :: printNat 8]) =
        [ascii "10.0.0.0" ++ 47 :: printNat 8] := by
  have exact_iff := loaders_exact_iff 0
    (by decide : ∀ line ∈ [ascii "10.0.0.1", ascii "192.168.10.20"],
      (inetPton line).isSome = true)
    (List.forall_mem_singleton.mpr (.network (by decide) (by decide : 8 ≤ 32)) :
      ∀ line ∈ [ascii "10.0.0.0" ++ 47 :: printNat 8], EntryLine line)
  have address : (ascii "10.0.0.0").length = 8 := by decide
  have digits : (printNat 8).length ≤ 1 := printNat_length (by decide) (by decide)
  refine ⟨exact_iff.1.mpr (by decide), exact_iff.2.mpr (List.forall_mem_singleton.mpr ?_)⟩
  rw [List.length_append, List.length_cons]
  omega

/-- An address of 15 characters is cut to another one, which is then hashed twice, and a
network of 18 characters loses the last digit of its mask. -/
theorem longest_lines_cut :
    parsedHosts 0 (reads inetAddrstrlen (fileOf [ascii "192.168.100.200"])) =
        some [lineHost (ascii "192.168.100.20"), lineHost (ascii "192.168.100.20")] ∧
      ¬parsedHosts 0 (reads inetAddrstrlen (fileOf [ascii "192.168.100.200"])) =
        some ([ascii "192.168.100.200"].map lineHost) ∧
      passedStrings (fileOf [ascii "192.168.100.200/32"]) = [ascii "192.168.100.200/3"] ∧
      ¬passedStrings (fileOf [ascii "192.168.100.200/32"]) = [ascii "192.168.100.200/32"] := by
  decide

end DirtyCode.IPParser
