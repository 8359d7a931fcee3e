import DirtyCode.Lib.CInt
import DirtyCode.Lib.Fgets

/-!
The configuration files of `ConfSrv.c`: which file belongs to an address, the
timestamp `check_ts` sees and the bytes `reply_conf` sends.
-/

namespace DirtyCode.ConfSrv

open Lib

structure ConfPath where
  a : Nat
  b : Nat
  c : Nat
  d : Nat
  deriving DecidableEq, Repr

structure ConfFile where
  content : List UInt8
  ctime : Nat
  deriving DecidableEq

abbrev Files := ConfPath → Option ConfFile

def hostConf (ipv4 : BitVec 32) : ConfPath where
  a := (ipv4 >>> 24).toNat % 256
  b := (ipv4 >>> 16).toNat % 256
  c := (ipv4 >>> 8).toNat % 256
  d := ipv4.toNat % 256

-- the file of the whole /24 network
def netConf (ipv4 : BitVec 32) : ConfPath := { hostConf ipv4 with d := 0 }

def openConf (files : Files) (ipv4 : BitVec 32) : Option (ConfPath × ConfFile) :=
  match files (hostConf ipv4) with
  | some file => some (hostConf ipv4, file)
  | none =>
      match files (netConf ipv4) with
      | some file => some (netConf ipv4, file)
      | none => none

-- `st_ctime` in an `int`
def ConfFile.ts (file : ConfFile) : Int := toInt32 file.ctime

def checkTs (files : Files) (ipv4 : BitVec 32) : Int :=
  match openConf files ipv4 with
  | some (_, file) => file.ts
  | none => -1

def bufLen : Nat := 1024

-- `buf[1022] = '\0'` and `strlen`
def writtenPart (line : List UInt8) : List UInt8 :=
  (line.take (bufLen - 2)).takeWhile (· ≠ 0)

-- `none`: a `write` of no bytes returns 0, which counts as a failure
def replyFrom : Nat → List UInt8 → Option (List UInt8)
  | 0, _ => some []
  | fuel + 1, rest =>
      let read := fgets (bufLen - 1) rest
      if read.1 = [] then some []
      else if writtenPart read.1 = [] then none
      else (replyFrom fuel read.2).map (writtenPart read.1 ++ ·)

/-- The bytes that the loop of `reply_conf` writes for a file. -/
def replyBytes (content : List UInt8) : Option (List UInt8) :=
  replyFrom (content.length + 1) content

/-- Every line, its newline included, has at most `room` bytes. -/
def shortLines (room : Nat) : Nat → List UInt8 → Bool
  | _, [] => true
  | 0, _ :: _ => false
  | left + 1, byte :: rest => shortLines room (if byte = 10 then room else left) rest

/-- Text whose lines `reply_conf` does not cut. -/
def Plain (content : List UInt8) : Prop :=
  0 ∉ content ∧ shortLines (bufLen - 2) (bufLen - 2) content = true

instance (content : List UInt8) : Decidable (Plain content) :=
  inferInstanceAs (Decidable (_ ∧ _))

theorem fgets_short {limit left : Nat} {rest : List UInt8}
    (short : shortLines limit left rest = true) :
    (fgets (left + 1) rest).1.length ≤ left ∧
      shortLines limit limit (fgets (left + 1) rest).2 = true := by
  induction rest generalizing left with
  | nil => simp [fgets, shortLines]
  | cons byte rest ih =>
      cases left with
      | zero => simp [shortLines] at short
      | succ left =>
          simp only [shortLines] at short
          simp only [fgets]
          split
          · rename_i newline
            simp only [newline, if_true] at short
            exact ⟨by simp, short⟩
          · rename_i other
            simp only [other, if_false] at short
            obtain ⟨length, tail⟩ := ih short
            exact ⟨by simpa using length, tail⟩

theorem replyFrom_plain {fuel : Nat} {rest : List UInt8} (enough : rest.length < fuel)
    (plain : Plain rest) : replyFrom fuel rest = some rest := by
  induction fuel generalizing rest with
  | zero => omega
  | succ fuel ih =>
      obtain ⟨unterminated, short⟩ := plain
      have joined := fgets_append (bufLen - 1) rest
      obtain ⟨length, tail⟩ := fgets_short short
      rw [show bufLen - 2 + 1 = bufLen - 1 from rfl] at length tail
      by_cases done : (fgets (bufLen - 1) rest).1 = []
      · rw [fgets_nonempty (by decide) done]
        rfl
      · have absent : 0 ∉ (fgets (bufLen - 1) rest).1 ∧ 0 ∉ (fgets (bufLen - 1) rest).2 := by
          rw [← joined] at unterminated
          simpa using unterminated
        have whole : writtenPart (fgets (bufLen - 1) rest).1 = (fgets (bufLen - 1) rest).1 := by
          rw [writtenPart, List.take_of_length_le length, List.takeWhile_eq_self_iff]
          intro byte member
          simp only [ne_eq, decide_not, Bool.not_eq_true', decide_eq_false_iff_not]
          rintro rfl
          exact absent.1 member
        have shorter : (fgets (bufLen - 1) rest).2.length < fuel := by
          have lengths := congrArg List.length joined
          have positive := List.length_pos_iff.mpr done
          simp only [List.length_append] at lengths
          omega
        simp only [replyFrom, done, whole, if_false, ih shorter ⟨absent.2, tail⟩, Option.map_some,
          joined]

theorem replyBytes_plain {content : List UInt8} (plain : Plain content) :
    replyBytes content = some content :=
  replyFrom_plain (Nat.lt_succ_self _) plain

theorem fgets_long {limit left : Nat} {rest : List UInt8}
    (length : (fgets (left + 1) rest).1.length ≤ left)
    (tail : shortLines limit limit (fgets (left + 1) rest).2 = true) :
    shortLines limit left rest = true := by
  induction rest generalizing left with
  | nil => simp [shortLines]
  | cons byte rest ih =>
      cases left with
      | zero =>
          simp only [fgets] at length
          split at length <;> simp at length
      | succ left =>
          simp only [fgets] at length tail
          simp only [shortLines]
          split
          · rename_i newline
            simpa only [newline, if_true] using tail
          · rename_i other
            simp only [other, if_false, List.length_cons] at length tail
            exact ih (by omega) tail

theorem writtenPart_length_le (line : List UInt8) : (writtenPart line).length ≤ line.length :=
  (List.takeWhile_sublist _).length_le.trans (List.length_take_le' _ _)

theorem replyFrom_length_le {fuel : Nat} {rest sent : List UInt8}
    (replied : replyFrom fuel rest = some sent) : sent.length ≤ rest.length := by
  induction fuel generalizing rest sent with
  | zero =>
      obtain rfl := Option.some.inj replied
      exact Nat.zero_le _
  | succ fuel ih =>
      have joined := congrArg List.length (fgets_append (bufLen - 1) rest)
      have written := writtenPart_length_le (fgets (bufLen - 1) rest).1
      rw [List.length_append] at joined
      simp only [replyFrom] at replied
      split at replied
      · obtain rfl := Option.some.inj replied
        exact Nat.zero_le _
      · split at replied
        · contradiction
        · obtain ⟨later, found, rfl⟩ := Option.map_eq_some_iff.mp replied
          have behind := ih found
          rw [List.length_append]
          omega

/-- What comes back whole was not cut: a cut line loses bytes, and nothing gives any back. -/
theorem shortLines_of_replyFrom {fuel : Nat} {rest : List UInt8} (enough : rest.length < fuel)
    (whole : replyFrom fuel rest = some rest) :
    shortLines (bufLen - 2) (bufLen - 2) rest = true := by
  induction fuel generalizing rest with
  | zero => omega
  | succ fuel ih =>
      have joined := fgets_append (bufLen - 1) rest
      have lengths := congrArg List.length joined
      have written := writtenPart_length_le (fgets (bufLen - 1) rest).1
      rw [List.length_append] at lengths
      simp only [replyFrom] at whole
      split at whole
      · rename_i done
        rw [fgets_nonempty (by decide) done]
        rfl
      · rename_i more
        split at whole
        · contradiction
        · obtain ⟨later, found, same⟩ := Option.map_eq_some_iff.mp whole
          have behind := replyFrom_length_le found
          have total := congrArg List.length same
          have positive := List.length_pos_iff.mpr more
          have shorter : (fgets (bufLen - 1) rest).2.length < fuel := by omega
          rw [List.length_append] at total
          obtain ⟨kept, rfl⟩ := List.append_inj (same.trans joined.symm) (by omega)
          apply fgets_long
          · change (fgets (bufLen - 1) rest).1.length ≤ _
            rw [← kept, writtenPart]
            exact (List.takeWhile_sublist _).length_le.trans (List.length_take_le _ _)
          · exact ih shorter found

/-- The bytes sent for a file, and the `int` that `reply_conf` counts them in. -/
def replyConf (content : List UInt8) : Option (List UInt8 × Int) :=
  (replyBytes content).map fun sent => (sent, toInt32 sent.length)

/-- A file without NUL is sent as it is, and counted, exactly when each of its lines fits
the buffer, its newline included, and the count fits an `int`. -/
theorem reply_conf_exact_iff {content : List UInt8} (unterminated : 0 ∉ content) :
    replyConf content = some (content, (content.length : Int)) ↔
      shortLines (bufLen - 2) (bufLen - 2) content = true ∧ content.length < 2147483648 := by
  constructor
  · intro replied
    obtain ⟨sent, found, same⟩ := Option.map_eq_some_iff.mp replied
    obtain ⟨rfl, total⟩ := Prod.mk.inj same
    refine ⟨shortLines_of_replyFrom (Nat.lt_succ_self _) found, ?_⟩
    have range := toInt32_range (sent.length : Int)
    omega
  · rintro ⟨short, small⟩
    rw [replyConf, replyBytes_plain ⟨unterminated, short⟩, Option.map_some,
      toInt32_of_range (by omega) (by omega)]

def twoLines : List UInt8 := List.replicate 1021 97 ++ [10, 98, 10]

theorem reply_conf_exact_iff_twoLines :
    replyConf twoLines = some (twoLines, 1024) ∧
      ¬replyConf (97 :: twoLines) =
        some (97 :: twoLines, ((97 :: twoLines).length : Int)) := by
  have length : twoLines.length = 1024 := by
    rw [twoLines, List.length_append, List.length_replicate]
    rfl
  have unterminated : 0 ∉ twoLines := by
    rw [twoLines, List.mem_append, not_or]
    exact ⟨fun member => absurd (List.eq_of_mem_replicate member) (by decide), by decide⟩
  constructor
  · have whole := (reply_conf_exact_iff unterminated).mpr ⟨by decide +kernel, by omega⟩
    rwa [length] at whole
  · intro replied
    have more : 0 ∉ 97 :: twoLines := by
      rw [List.mem_cons, not_or]
      exact ⟨by decide, unterminated⟩
    have short := ((reply_conf_exact_iff more).mp replied).1
    revert short
    decide +kernel

/-- Of a line of 1023 bytes and its newline one byte is missing. -/
theorem long_line_cut :
    ¬replyConf (List.replicate 1023 97 ++ [10]) =
      some (List.replicate 1023 97 ++ [10], ((List.replicate 1023 97 ++ [10]).length : Int)) := by
  decide +kernel

end DirtyCode.ConfSrv
