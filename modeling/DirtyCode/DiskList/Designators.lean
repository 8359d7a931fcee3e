import DirtyCode.Lib.Text

/-!
The name of a logical unit in `disklist.c`: `sg_vpd_dev_id_iter`, which goes over the designators
of the device identification page, and `get_lu_name`, which takes one of them.
-/

namespace DirtyCode.DiskList

open Lib

/-- What is asked of a designator; a negative value is not asked for. -/
structure Wanted where
  assoc : Int
  desigType : Int
  codeSet : Int

def Wanted.Covers (m : Wanted) (first second : UInt8) : Prop :=
  (0 ≤ m.codeSet → m.codeSet = (first &&& 0xf).toNat) ∧
    (0 ≤ m.assoc → m.assoc = (second >>> 4 &&& 0x3).toNat) ∧
    (0 ≤ m.desigType → m.desigType = (second &&& 0xf).toNat)

instance (m : Wanted) (first second : UInt8) : Decidable (m.Covers first second) := by
  unfold Wanted.Covers
  infer_instance

def byteAt (page : List UInt8) (k : Int) : UInt8 := page.getD k.toNat 0

def nextAt (page : List UInt8) (k : Int) : Int :=
  if k < 0 then 0 else k + (byteAt page (k + 3)).toNat + 4

def iterEnd (page : List UInt8) (k : Int) : Int := if k = page.length then -1 else -2

-- the bound is on the designators to come
def iterFrom (page : List UInt8) (m : Wanted) (off : Int) : Nat → Int → Int × Int
  | 0, k => (iterEnd page k, off)
  | budget + 1, k =>
      if k + 3 < page.length then
        let next := nextAt page k
        if page.length < next + 4 then (iterEnd page next, off)
        else if m.Covers (byteAt page next) (byteAt page (next + 1)) then (0, next)
        else iterFrom page m off budget next
      else (iterEnd page k, off)

/-- The returned value and the new `*off`. -/
def sgVpdDevIdIter (page : List UInt8) (m : Wanted) (off : Int) : Int × Int :=
  iterFrom page m off (page.length + 1) off

-- `none`: a designator that goes on behind the page
def bodyAt (page : List UInt8) (off : Int) : Option (List UInt8) :=
  let dlen := (byteAt page (off + 3)).toNat
  if off.toNat + 4 + dlen ≤ page.length then some ((page.drop (off.toNat + 4)).take dlen) else none

/-- `snprintf(b, b_len, "%.*s", ...)`. -/
def textInto (bLen : Nat) (bytes : List UInt8) : List UInt8 :=
  (bytes.takeWhile (· ≠ 0)).take (bLen - 1)

-- what comes behind the prefix has the room that the prefix leaves
def prefixInto (bLen : Nat) (wantPrefix : Bool) (word : List UInt8) (rest : Nat → List UInt8) :
    List UInt8 :=
  if wantPrefix then word.take (bLen - 1) ++ rest (bLen - min word.length (bLen - 1)) else rest bLen

def hexInto : Nat → List UInt8 → List UInt8
  | _, [] => []
  | bLen, byte :: rest =>
      if 1 < bLen then (hexText 2 byte.toNat).take (bLen - 1) ++ hexInto (bLen - 2) rest else []

def isGroup (k : Nat) : Bool := k = 4 ∨ k = 6 ∨ k = 8 ∨ k = 10

def uuidInto : Nat → Nat → List UInt8 → List UInt8
  | _, _, [] => []
  | bLen, k, byte :: rest =>
      if 1 < bLen then
        let dash := if isGroup k then [45] else []
        let room := bLen - dash.length
        dash ++ (hexText 2 byte.toNat).take (room - 1) ++ uuidInto (room - 2) (k + 1) rest
      else []

def scsiNameString (assoc : Int) : Wanted := ⟨assoc, 8, 3⟩

def naa : Wanted := ⟨0, 3, 1⟩

def eui : Wanted := ⟨0, 2, 1⟩

def uuid : Wanted := ⟨0, 10, 1⟩

def t10VendorId : Wanted := ⟨0, 1, -1⟩

def hexName (page : List UInt8) (off : Int) (bLen : Nat) (wantPrefix : Bool) (word : String) :
    Option (List UInt8) :=
  (bodyAt page off).map fun body =>
    prefixInto bLen wantPrefix (ascii word) fun room => hexInto room body

def luNameFrom (page uSns : List UInt8) (bLen : Nat) (wantPrefix : Bool) (off : Int) :
    Option (List UInt8) :=
  let byNaa := sgVpdDevIdIter page naa off
  let byEui := sgVpdDevIdIter page eui byNaa.2
  let byUuid := sgVpdDevIdIter page uuid byEui.2
  let byT10 := sgVpdDevIdIter page t10VendorId byUuid.2
  if byNaa.1 = 0 then
    let dlen := byteAt page (byNaa.2 + 3)
    if dlen = 8 ∨ dlen = 16 then hexName page byNaa.2 bLen wantPrefix "naa." else some []
  else if byEui.1 = 0 then
    let dlen := byteAt page (byEui.2 + 3)
    if dlen = 8 ∨ dlen = 12 ∨ dlen = 16 then hexName page byEui.2 bLen wantPrefix "eui."
    else some []
  else if byUuid.1 = 0 then
    page[(byUuid.2 + 4).toNat]?.bind fun version =>
      if version >>> 4 ≠ 1 ∨ byteAt page (byUuid.2 + 3) ≠ 18 then some (textInto bLen (ascii "??"))
      else
        (bodyAt page byUuid.2).map fun body =>
          prefixInto bLen wantPrefix (ascii "uuid.") fun room => uuidInto room 0 (body.drop 2)
  else if uSns ≠ [] then some (textInto bLen uSns)
  else if byT10.1 = 0 ∧ 1 < byteAt page byT10.2 &&& 0xf then
    if byteAt page (byT10.2 + 3) < 8 then some []
    else
      (bodyAt page byT10.2).map fun body =>
        prefixInto bLen wantPrefix (ascii "t10.") fun room => textInto room body
  else some []

def luName (page : List UInt8) (bLen : Nat) (wantPrefix : Bool) : Option (List UInt8) :=
  let bySns := sgVpdDevIdIter page (scsiNameString 0) (-1)
  if bySns.1 = 0 then
    (bodyAt page bySns.2).bind fun uSns =>
      let byPort := sgVpdDevIdIter page (scsiNameString 1) (-1)
      if byPort.1 = 0 ∧ byteAt page 1 &&& 0x80 ≠ 0 ∧ byteAt page 0 >>> 4 = 5 then
        some (textInto bLen uSns)
      else luNameFrom page uSns bLen wantPrefix byPort.2
  else luNameFrom page [] bLen wantPrefix bySns.2

def getLuName (file : Option (List UInt8)) (bLen : Nat) (wantPrefix : Bool) : Option (List UInt8) :=
  match file with
  | none => some []
  | some content =>
      let u := content.take 512
      let len := 256 * (byteAt u 2).toNat + (byteAt u 3).toNat
      if u.length ≤ 8 then some []
      else if byteAt u 1 ≠ 0x83 then some []
      else if len + 4 ≠ u.length then some []
      else luName (u.drop 4) bLen wantPrefix

structure Designator where
  first : UInt8
  second : UInt8
  third : UInt8
  body : List UInt8
  small : body.length < 256

namespace Designator

def bytes (d : Designator) : List UInt8 :=
  d.first :: d.second :: d.third :: UInt8.ofNat d.body.length :: d.body

theorem length_bytes (d : Designator) : d.bytes.length = d.body.length + 4 := rfl

def IsWanted (d : Designator) (m : Wanted) : Prop := m.Covers d.first d.second

instance (d : Designator) (m : Wanted) : Decidable (d.IsWanted m) := by
  unfold IsWanted
  infer_instance

end Designator

def pageOf (designators : List Designator) : List UInt8 := designators.flatMap Designator.bytes

/-- The first designator that is wanted, and those behind it. -/
def search (m : Wanted) (designators : List Designator) : Option (Designator × List Designator) :=
  match designators.dropWhile fun d => ¬d.IsWanted m with
  | [] => none
  | d :: later => some (d, later)

/-- The offset when these have been passed, the last of them the one that was found. -/
def cursor (passed : List Designator) : Int :=
  if passed = [] then -1 else (pageOf passed.dropLast).length

section

variable {passed rest skipped later : List Designator} {d : Designator} {m : Wanted}

theorem pageOf_append (front behind : List Designator) :
    pageOf (front ++ behind) = pageOf front ++ pageOf behind := List.flatMap_append

theorem cursor_concat (passed : List Designator) (d : Designator) :
    cursor (passed ++ [d]) = (pageOf passed).length := by
  rw [cursor, if_neg (by simp), List.dropLast_concat]

theorem byteAt_append (front behind : List UInt8) (k : Nat) :
    byteAt (front ++ behind) ((front.length : Int) + k) = behind.getD k 0 := by
  have place : ((front.length : Int) + k).toNat = front.length + k := by omega
  rw [byteAt, place, List.getD_append_right _ _ _ _ (Nat.le_add_right _ _),
    Nat.add_sub_cancel_left]

theorem byteAt_designator (front : List Designator) (d : Designator) (behind : List Designator)
    {k : Nat} (inside : k < 4) :
    byteAt (pageOf (front ++ d :: behind)) (((pageOf front).length : Int) + k) =
      [d.first, d.second, d.third, UInt8.ofNat d.body.length].getD k 0 := by
  rw [pageOf_append, byteAt_append]
  match k, inside with
  | 0, _ => rfl
  | 1, _ => rfl
  | 2, _ => rfl
  | 3, _ => rfl

theorem length_designator (front : List Designator) (d : Designator) (behind : List Designator) :
    (pageOf (front ++ d :: behind)).length =
      (pageOf front).length + (d.body.length + 4) + (pageOf behind).length := by
  have tail : pageOf (d :: behind) = d.bytes ++ pageOf behind := List.flatMap_cons
  rw [pageOf_append, tail, List.length_append, List.length_append, d.length_bytes, ← Nat.add_assoc]

theorem lengthByte (front : List Designator) (d : Designator) (behind : List Designator) :
    (byteAt (pageOf (front ++ d :: behind)) (((pageOf front).length : Int) + 3)).toNat =
      d.body.length := by
  have byte := byteAt_designator front d behind (show 3 < 4 by decide)
  rw [Nat.cast_ofNat] at byte
  rw [byte]
  exact UInt8.toNat_ofNat_of_lt' d.small

theorem nextAt_cursor (passed rest : List Designator) :
    nextAt (pageOf (passed ++ rest)) (cursor passed) = (pageOf passed).length := by
  rcases List.eq_nil_or_concat' passed with rfl | ⟨front, d, rfl⟩
  · rfl
  · have whole := length_designator front d []
    rw [cursor_concat, nextAt, if_neg (by omega), List.append_assoc, List.singleton_append,
      lengthByte, whole]
    simp [pageOf]
    omega

theorem iterEnd_ne (page : List UInt8) (k : Int) : iterEnd page k ≠ 0 := by
  rw [iterEnd]
  split
  · decide
  · decide

theorem cursor_within (passed : List Designator) (d : Designator) (rest : List Designator) :
    cursor passed + 3 < (pageOf (passed ++ d :: rest)).length := by
  have whole := length_designator passed d rest
  rcases List.eq_nil_or_concat' passed with rfl | ⟨front, last, rfl⟩
  · rw [cursor, if_pos rfl, whole]
    omega
  · have before := length_designator front last []
    rw [cursor_concat, whole, before]
    omega

theorem iterFrom_cons (passed : List Designator) (d : Designator) (rest : List Designator)
    (m : Wanted) (off : Int) (budget : Nat) :
    iterFrom (pageOf (passed ++ d :: rest)) m off (budget + 1) (cursor passed) =
      if d.IsWanted m then (0, cursor (passed ++ [d]))
      else iterFrom (pageOf (passed ++ d :: rest)) m off budget (cursor (passed ++ [d])) := by
  have whole := length_designator passed d rest
  have first := byteAt_designator passed d rest (show 0 < 4 by decide)
  have second := byteAt_designator passed d rest (show 1 < 4 by decide)
  rw [Nat.cast_zero, add_zero] at first
  rw [Nat.cast_one] at second
  rw [iterFrom, if_pos (cursor_within passed d rest)]
  simp only [nextAt_cursor, if_neg (show ¬((pageOf (passed ++ d :: rest)).length : Int) <
    (pageOf passed).length + 4 by omega), first, second, cursor_concat]
  rfl

theorem iterFrom_nil (passed : List Designator) (m : Wanted) (off : Int) (budget : Nat) :
    ∃ ret, ret ≠ 0 ∧ iterFrom (pageOf passed) m off (budget + 1) (cursor passed) = (ret, off) := by
  have next := nextAt_cursor passed []
  rw [List.append_nil] at next
  rw [iterFrom, next]
  split
  · rw [if_pos (by omega)]
    exact ⟨_, iterEnd_ne _ _, rfl⟩
  · exact ⟨_, iterEnd_ne _ _, rfl⟩

/-- The search finds the first designator that is wanted behind those passed. -/
theorem iterFrom_search (passed : List Designator) {rest : List Designator} (m : Wanted) (off : Int)
    {budget : Nat} (enough : rest.length < budget) :
    match search m rest with
    | some (d, later) => ∃ skipped, rest = skipped ++ d :: later ∧
        iterFrom (pageOf (passed ++ rest)) m off budget (cursor passed) =
          (0, cursor (passed ++ skipped ++ [d]))
    | none => ∃ ret, ret ≠ 0 ∧
        iterFrom (pageOf (passed ++ rest)) m off budget (cursor passed) = (ret, off) := by
  induction rest generalizing passed budget with
  | nil =>
      obtain ⟨budget, rfl⟩ := Nat.exists_eq_add_of_lt enough
      rw [List.append_nil]
      exact iterFrom_nil passed m off _
  | cons d rest ih =>
      obtain ⟨budget, rfl⟩ : ∃ more, budget = more + 1 := ⟨budget - 1, by omega⟩
      rw [iterFrom_cons]
      by_cases fits : d.IsWanted m
      · have here : search m (d :: rest) = some (d, rest) := by
          rw [search, List.dropWhile_cons_of_neg (by simp [fits])]
        rw [here, if_pos fits]
        exact ⟨[], rfl, by rw [List.append_nil]⟩
      · have later : search m (d :: rest) = search m rest := by
          rw [search, List.dropWhile_cons_of_pos (by simp [fits]), search]
        have left : rest.length < budget := by
          rw [List.length_cons] at enough
          omega
        have next := ih (passed ++ [d]) left
        have same : passed ++ [d] ++ rest = passed ++ d :: rest := by
          rw [List.append_assoc, List.singleton_append]
        rw [same] at next
        rw [later, if_neg fits]
        cases found : search m rest with
        | none =>
            rw [found] at next
            exact next
        | some pair =>
            rw [found] at next
            obtain ⟨skipped, split, ran⟩ := next
            refine ⟨d :: skipped, by rw [split, List.cons_append], ?_⟩
            rw [ran]
            simp

theorem length_le_pageOf (designators : List Designator) :
    designators.length ≤ (pageOf designators).length := by
  induction designators with
  | nil => exact le_rfl
  | cons d rest ih =>
      have whole := length_designator [] d rest
      rw [List.nil_append] at whole
      rw [List.length_cons, whole]
      omega

theorem bodyAt_cursor (front : List Designator) (d : Designator) (behind : List Designator) :
    bodyAt (pageOf (front ++ d :: behind)) (cursor (front ++ [d])) = some d.body := by
  have whole := length_designator front d behind
  rw [cursor_concat, bodyAt, lengthByte, Int.toNat_natCast, if_pos (by omega), pageOf_append,
    ← List.drop_drop, List.drop_left]
  simp [pageOf, Designator.bytes]

theorem search_some (found : search m rest = some (d, later)) :
    d :: later <:+ rest ∧ d.IsWanted m := by
  rw [search] at found
  split at found
  · contradiction
  · rename_i first others left
    obtain ⟨rfl, rfl⟩ := Prod.mk.inj (Option.some.inj found)
    have suffix : first :: others <:+ rest := left ▸ List.dropWhile_suffix _
    have holds := List.head?_dropWhile_not (fun d : Designator => decide ¬d.IsWanted m) rest
    rw [left] at holds
    exact ⟨suffix, by simpa using holds⟩

theorem sgVpdDevIdIter_found (passed : List Designator) (found : search m rest = some (d, later)) :
    ∃ skipped, pageOf (passed ++ rest) = pageOf (passed ++ skipped ++ d :: later) ∧
      sgVpdDevIdIter (pageOf (passed ++ rest)) m (cursor passed) =
        (0, cursor (passed ++ skipped ++ [d])) := by
  have enough := length_le_pageOf (passed ++ rest)
  rw [List.length_append] at enough
  have searched := iterFrom_search passed m (cursor passed) (Nat.lt_succ_of_le
    ((Nat.le_add_left _ _).trans enough))
  rw [found] at searched
  obtain ⟨skipped, split, ran⟩ := searched
  exact ⟨skipped, by rw [split, List.append_assoc], ran⟩

theorem sgVpdDevIdIter_none (passed : List Designator) (none : search m rest = none) :
    ∃ ret, ret ≠ 0 ∧ sgVpdDevIdIter (pageOf (passed ++ rest)) m (cursor passed) =
      (ret, cursor passed) := by
  have enough := length_le_pageOf (passed ++ rest)
  rw [List.length_append] at enough
  have searched := iterFrom_search passed m (cursor passed) (Nat.lt_succ_of_le
    ((Nat.le_add_left _ _).trans enough))
  rw [none] at searched
  exact searched

end

def hexBytes (bytes : List UInt8) : List UInt8 := bytes.flatMap fun byte => hexText 2 byte.toNat

def uuidText : Nat → List UInt8 → List UInt8
  | _, [] => []
  | k, byte :: rest =>
      (if isGroup k then [45] else []) ++ hexText 2 byte.toNat ++ uuidText (k + 1) rest

def prefixed (wantPrefix : Bool) (word : String) (name : List UInt8) : List UInt8 :=
  if wantPrefix then ascii word ++ name else name

def cText (bytes : List UInt8) : List UInt8 := bytes.takeWhile (· ≠ 0)

def IsUuid (body : List UInt8) : Prop := body.getD 0 0 >>> 4 = 1 ∧ body.length = 18

instance (body : List UInt8) : Decidable (IsUuid body) := by
  unfold IsUuid
  infer_instance

/-- NAA before EUI before UUID, then the SCSI name string, then the T10 vendor. -/
def nameFrom (sns : List UInt8) (wantPrefix : Bool) (designators : List Designator) : List UInt8 :=
  match search naa designators with
  | some (d, _) =>
      if d.body.length = 8 ∨ d.body.length = 16 then prefixed wantPrefix "naa." (hexBytes d.body)
      else []
  | none =>
      match search eui designators with
      | some (d, _) =>
          if d.body.length = 8 ∨ d.body.length = 12 ∨ d.body.length = 16 then
            prefixed wantPrefix "eui." (hexBytes d.body)
          else []
      | none =>
          match search uuid designators with
          | some (d, _) =>
              if IsUuid d.body then prefixed wantPrefix "uuid." (uuidText 0 (d.body.drop 2))
              else ascii "??"
          | none =>
              if sns ≠ [] then cText sns
              else
                match search t10VendorId designators with
                | some (d, _) =>
                    if 1 < d.first &&& 0xf ∧ 8 ≤ d.body.length then
                      prefixed wantPrefix "t10." (cText d.body)
                    else []
                | none => []

def IsIscsi : List Designator → Prop
  | [] => False
  | d :: _ => d.second &&& 0x80 ≠ 0 ∧ d.first >>> 4 = 5

instance (designators : List Designator) : Decidable (IsIscsi designators) := by
  cases designators with
  | nil => exact inferInstanceAs (Decidable False)
  | cons d rest => exact inferInstanceAs (Decidable (_ ∧ _))

/-- The name that the designators of a page give. Where the page has a SCSI name string of the unit
and one of a target port, no name before the port's counts. -/
def nameOf (wantPrefix : Bool) (designators : List Designator) : List UInt8 :=
  match search (scsiNameString 0) designators with
  | none => nameFrom [] wantPrefix designators
  | some (sns, _) =>
      match search (scsiNameString 1) designators with
      | none => nameFrom sns.body wantPrefix designators
      | some (_, later) =>
          if IsIscsi designators then cText sns.body else nameFrom sns.body wantPrefix later

section

variable {bLen : Nat} {wantPrefix : Bool} {d : Designator}

theorem hexInto_eq (bLen : Nat) (bytes : List UInt8) :
    hexInto bLen bytes = (hexBytes bytes).take (bLen - 1) := by
  induction bytes generalizing bLen with
  | nil => rw [hexInto, hexBytes, List.flatMap_nil, List.take_nil]
  | cons byte rest ih =>
      have all : hexBytes (byte :: rest) = hexText 2 byte.toNat ++ hexBytes rest :=
        List.flatMap_cons
      have room : bLen - 2 - 1 = bLen - 1 - 2 := by omega
      rw [hexInto, all, List.take_append, hexText_length, ih, room]
      split
      · rfl
      · rename_i full
        have none : bLen - 1 = 0 := by omega
        rw [none, List.take_zero, Nat.zero_sub, List.take_zero, List.append_nil]

theorem uuidInto_eq (bLen k : Nat) (bytes : List UInt8) :
    uuidInto bLen k bytes = (uuidText k bytes).take (bLen - 1) := by
  induction bytes generalizing bLen k with
  | nil => rw [uuidInto, uuidText, List.take_nil]
  | cons byte rest ih =>
      rw [uuidInto, uuidText]
      by_cases open_ : 1 < bLen
      · rw [if_pos open_]
        simp only [ih]
        generalize dashed : (if isGroup k = true then [(45 : UInt8)] else []) = dash
        have one : dash.length ≤ 1 := by
          rw [← dashed]
          split
          · exact le_rfl
          · exact Nat.zero_le _
        have whole : dash.take (bLen - 1) = dash := List.take_of_length_le (by omega)
        have behind : bLen - dash.length - 2 - 1 = bLen - 1 - (dash.length + 2) := by omega
        have digits : bLen - dash.length - 1 = bLen - 1 - dash.length := by omega
        rw [List.take_append, List.take_append, whole, List.length_append, hexText_length, behind,
          digits]
      · have none : bLen - 1 = 0 := by omega
        rw [if_neg open_, none, List.take_zero]

theorem prefixInto_eq (word : String) {rest : Nat → List UInt8} {name : List UInt8}
    (cut : ∀ room, rest room = name.take (room - 1)) :
    prefixInto bLen wantPrefix (ascii word) rest =
      (prefixed wantPrefix word name).take (bLen - 1) := by
  cases wantPrefix with
  | false => exact cut bLen
  | true =>
      have room : bLen - min (ascii word).length (bLen - 1) - 1 =
          bLen - 1 - (ascii word).length := by omega
      rw [prefixInto, if_pos rfl, prefixed, if_pos rfl, List.take_append, cut, room]

theorem lengthByte_iff (d : Designator) {byte : UInt8} :
    UInt8.ofNat d.body.length = byte ↔ d.body.length = byte.toNat := by
  have small := d.small
  rw [← UInt8.toNat_inj, UInt8.toNat_ofNat_of_lt' small]

theorem lengthByte_cursor (front : List Designator) (d : Designator) (behind : List Designator) :
    byteAt (pageOf (front ++ d :: behind)) (cursor (front ++ [d]) + 3) =
      UInt8.ofNat d.body.length := by
  have byte := byteAt_designator front d behind (show 3 < 4 by decide)
  rw [Nat.cast_ofNat] at byte
  rw [cursor_concat, byte]
  rfl

theorem firstByte_cursor (front : List Designator) (d : Designator) (behind : List Designator) :
    byteAt (pageOf (front ++ d :: behind)) (cursor (front ++ [d])) = d.first := by
  have byte := byteAt_designator front d behind (show 0 < 4 by decide)
  rw [Nat.cast_zero, add_zero] at byte
  rw [cursor_concat, byte]
  rfl

theorem hexName_cursor (front : List Designator) (d : Designator) (behind : List Designator)
    (word : String) :
    hexName (pageOf (front ++ d :: behind)) (cursor (front ++ [d])) bLen wantPrefix word =
      some ((prefixed wantPrefix word (hexBytes d.body)).take (bLen - 1)) := by
  rw [hexName, bodyAt_cursor, Option.map_some, prefixInto_eq word fun room =>
    hexInto_eq room d.body]

theorem version_cursor (front : List Designator) (d : Designator) (behind : List Designator)
    (some_ : d.body ≠ []) :
    (pageOf (front ++ d :: behind))[(cursor (front ++ [d]) + 4).toNat]? =
    some (d.body.getD 0 0) := by
  have place : (((pageOf front).length : Int) + 4).toNat = (pageOf front).length + 4 := by omega
  have inside : 0 < d.body.length := List.length_pos_iff.mpr some_
  rw [cursor_concat, place, pageOf_append, List.getElem?_append_right (Nat.le_add_right _ _),
    Nat.add_sub_cancel_left]
  have tail : pageOf (d :: behind) = d.bytes ++ pageOf behind := List.flatMap_cons
  rw [tail, List.getElem?_append_left (by rw [d.length_bytes]; omega)]
  show d.body[0]? = _
  rw [List.getElem?_eq_getElem inside, List.getD_eq_getElem _ _ inside]

theorem luNameFrom_eq (sns : List UInt8) (passed rest : List Designator)
    (versioned : ∀ d ∈ rest, d.IsWanted uuid → d.body ≠ []) :
    luNameFrom (pageOf (passed ++ rest)) sns bLen wantPrefix (cursor passed) =
      some ((nameFrom sns wantPrefix rest).take (bLen - 1)) := by
  have eight : (8 : UInt8).toNat = 8 := rfl
  have twelve : (12 : UInt8).toNat = 12 := rfl
  have sixteen : (16 : UInt8).toNat = 16 := rfl
  have eighteen : (18 : UInt8).toNat = 18 := rfl
  rw [luNameFrom, nameFrom]
  cases byNaa : search naa rest with
  | some pair =>
      obtain ⟨d, later⟩ := pair
      obtain ⟨skipped, page, ran⟩ := sgVpdDevIdIter_found passed byNaa
      simp only [ran, ↓reduceIte]
      simp only [page, lengthByte_cursor, lengthByte_iff, hexName_cursor, eight, sixteen]
      split_ifs
      · rfl
      · rw [List.take_nil]
  | none =>
      obtain ⟨noNaa, failed, ran⟩ := sgVpdDevIdIter_none passed byNaa
      simp only [ran, if_neg failed]
      cases byEui : search eui rest with
      | some pair =>
          obtain ⟨d, later⟩ := pair
          obtain ⟨skipped, page, ran⟩ := sgVpdDevIdIter_found passed byEui
          simp only [ran, ↓reduceIte]
          simp only [page, lengthByte_cursor, lengthByte_iff, hexName_cursor, eight, twelve,
            sixteen]
          split_ifs
          · rfl
          · rw [List.take_nil]
      | none =>
          obtain ⟨noEui, failed, ran⟩ := sgVpdDevIdIter_none passed byEui
          simp only [ran, if_neg failed]
          cases byUuid : search uuid rest with
          | some pair =>
              obtain ⟨d, later⟩ := pair
              obtain ⟨skipped, page, ran⟩ := sgVpdDevIdIter_found passed byUuid
              obtain ⟨suffix, fits⟩ := search_some byUuid
              have listed := suffix.subset List.mem_cons_self
              simp only [ran, ↓reduceIte]
              simp only [page, version_cursor _ _ _ (versioned d listed fits), Option.bind_some,
                lengthByte_cursor, ne_eq, lengthByte_iff, eighteen, bodyAt_cursor, Option.map_some,
                prefixInto_eq "uuid." fun room => uuidInto_eq room 0 (d.body.drop 2)]
              by_cases isUuid : IsUuid d.body
              · rw [if_pos isUuid, if_neg (by
                  rintro (version | length)
                  · exact version isUuid.1
                  · exact length isUuid.2)]
              · rw [if_neg isUuid, if_pos (by rwa [← not_and_or]), textInto,
                  List.takeWhile_eq_self_iff.mpr (by decide +kernel)]
          | none =>
              obtain ⟨noUuid, failed, ran⟩ := sgVpdDevIdIter_none passed byUuid
              simp only [ran, if_neg failed]
              by_cases named : sns = []
              · rw [if_neg (not_not_intro named), if_neg (not_not_intro named)]
                cases byT10 : search t10VendorId rest with
                | some pair =>
                    obtain ⟨d, later⟩ := pair
                    obtain ⟨skipped, page, ran⟩ := sgVpdDevIdIter_found passed byT10
                    have long : UInt8.ofNat d.body.length < 8 ↔ ¬8 ≤ d.body.length := by
                      rw [UInt8.lt_iff_toNat_lt, UInt8.toNat_ofNat_of_lt' d.small, eight, not_le]
                    have text : prefixInto bLen wantPrefix (ascii "t10.")
                        (fun room => textInto room d.body) =
                          (prefixed wantPrefix "t10." (cText d.body)).take (bLen - 1) :=
                      prefixInto_eq "t10." fun room => rfl
                    simp only [ran, true_and]
                    simp only [page, firstByte_cursor, lengthByte_cursor, long, bodyAt_cursor,
                      Option.map_some, text]
                    by_cases coded : 1 < d.first &&& 15
                    · by_cases enough : 8 ≤ d.body.length
                      · simp [coded, enough]
                      · simp [coded, enough]
                    · simp [coded]
                | none =>
                    obtain ⟨noT10, failed, ran⟩ := sgVpdDevIdIter_none passed byT10
                    simp only [ran, failed, false_and, if_false, List.take_nil]
              · rw [if_pos named, if_pos named, textInto, cText]

theorem iscsi_iff {designators : List Designator} (some_ : designators ≠ []) :
    byteAt (pageOf designators) 1 &&& 0x80 ≠ 0 ∧ byteAt (pageOf designators) 0 >>> 4 = 5 ↔
      IsIscsi designators := by
  cases designators with
  | nil => exact absurd rfl some_
  | cons d rest => exact Iff.rfl

theorem luName_eq {designators : List Designator}
    (versioned : ∀ d ∈ designators, d.IsWanted uuid → d.body ≠ []) :
    luName (pageOf designators) bLen wantPrefix =
      some ((nameOf wantPrefix designators).take (bLen - 1)) := by
  have initially (sns : List UInt8) :=
    @luNameFrom_eq bLen wantPrefix sns [] designators versioned
  have outset : cursor [] = -1 := rfl
  rw [luName, nameOf]
  cases bySns : search (scsiNameString 0) designators with
  | none =>
      obtain ⟨noSns, failed, ran⟩ := sgVpdDevIdIter_none [] bySns
      rw [List.nil_append, outset] at ran
      simp only [ran, if_neg failed]
      exact initially []
  | some pair =>
      obtain ⟨sns, others⟩ := pair
      obtain ⟨skipped, page, ran⟩ := sgVpdDevIdIter_found [] bySns
      have stands := bodyAt_cursor ([] ++ skipped) sns others
      rw [← page, List.nil_append] at stands
      rw [List.nil_append, outset] at ran
      simp only [ran, stands, ↓reduceIte, Option.bind_some]
      cases byPort : search (scsiNameString 1) designators with
      | none =>
          obtain ⟨noPort, failed, ran⟩ := sgVpdDevIdIter_none [] byPort
          rw [List.nil_append, outset] at ran
          simp only [ran, failed, false_and, if_false]
          exact initially sns.body
      | some pair =>
          obtain ⟨port, later⟩ := pair
          obtain ⟨passed, page, ran⟩ := sgVpdDevIdIter_found [] byPort
          obtain ⟨suffix, -⟩ := search_some byPort
          rw [List.nil_append, outset] at ran
          simp only [ran, true_and]
          have some_ : designators ≠ [] := by
            rintro rfl
            contradiction
          by_cases isIscsi : IsIscsi designators
          · rw [if_pos ((iscsi_iff some_).mpr isIscsi), if_pos isIscsi, textInto, cText]
          · have behind := @luNameFrom_eq bLen wantPrefix sns.body (passed ++ [port]) later
              fun d member => versioned d (suffix.subset (List.mem_cons_of_mem _ member))
            rw [List.append_assoc, List.singleton_append, ← List.nil_append passed,
              ← page] at behind
            rw [if_neg (mt (iscsi_iff some_).mp isIscsi), if_neg isIscsi]
            exact behind

/-- The file for a page with these designators. -/
def identificationPage (peripheral : UInt8) (designators : List Designator) : List UInt8 :=
  let len := (pageOf designators).length
  peripheral :: 0x83 :: UInt8.ofNat (len / 256) :: UInt8.ofNat (len % 256) :: pageOf designators

/-- The name that is printed for a page is that of its designators, cut to its room. -/
theorem getLuName_eq {designators : List Designator} (peripheral : UInt8)
    (some_ : 4 < (pageOf designators).length) (fits : (pageOf designators).length ≤ 508)
    (versioned : ∀ d ∈ designators, d.IsWanted uuid → d.body ≠ []) :
    getLuName (some (identificationPage peripheral designators)) bLen wantPrefix =
      some ((nameOf wantPrefix designators).take (bLen - 1)) := by
  have size : (identificationPage peripheral designators).length =
    (pageOf designators).length + 4 := rfl
  have whole : (identificationPage peripheral designators).take 512 =
    identificationPage peripheral designators :=
    List.take_of_length_le (by omega)
  have high : (byteAt (identificationPage peripheral designators) 2).toNat =
    (pageOf designators).length / 256 :=
    UInt8.toNat_ofNat_of_lt' (show _ < 256 by omega)
  have low : (byteAt (identificationPage peripheral designators) 3).toNat =
    (pageOf designators).length % 256 :=
    UInt8.toNat_ofNat_of_lt' (show _ < 256 by omega)
  have code : ¬byteAt (identificationPage peripheral designators) 1 ≠ 0x83 := not_not_intro rfl
  rw [getLuName]
  simp only [whole, size, high, low, code, if_false]
  rw [if_neg (by omega), if_neg (by omega)]
  exact luName_eq versioned

end

/-- The 16 bytes of a volume's number, its name, and the name of a port. -/
def volumeDesignators : List Designator :=
  [⟨0x01, 0x03, 0, [0x60, 0x05, 0x08, 0xe0, 0, 0, 0, 0, 0xab, 0xe6, 0x3b, 0x85, 0x79, 0xda, 0xbc,
    0x05],
      by decide⟩, ⟨0x03, 0x08, 0, ascii "naa.600508e0", by decide +kernel⟩,
    ⟨0x63, 0x98, 0, ascii "naa.500605b0", by decide +kernel⟩]

theorem getLuName_volume : getLuName (some (identificationPage 0 volumeDesignators)) 256 false =
    some ((nameOf false volumeDesignators).take (256 - 1)) :=
  getLuName_eq 0 (by decide +kernel) (by decide +kernel) (by decide +kernel)

example : nameOf false volumeDesignators = ascii "naa.600508e0" := by decide +kernel

end DirtyCode.DiskList
