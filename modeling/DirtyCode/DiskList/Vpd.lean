import DirtyCode.DiskList.Entry
import DirtyCode.DiskList.Trim
import DirtyCode.Lib.Text

/-!
`vpd80`, `vpd89` and `vpdb1` of `disklist.c`, which ask a disk for a page of product data and
copy what it tells into the entry.
-/

namespace DirtyCode.DiskList

open Lib

def replySize : Nat := 572

def vpdBufSize : Nat := 64

def swapPair (buf : Memory) (p : Nat) : Memory := (buf.set (p + 1) (buf p)).set p (buf (p + 1))

def swap (buf : Memory) (p : Nat) : Nat → Memory
  | 0 => buf
  | 1 => swapPair buf p
  | left + 2 => swap (swapPair buf p) (p + 2) left

/-- A text of a page, and where it goes in the entry. -/
structure PageText where
  source : Nat
  length : Nat
  swapped : Bool
  target : Nat
  positive : 1 ≤ length
  even : length % 2 = 0
  small : length < vpdBufSize
  inside : target + length < entrySize

structure Copying where
  buf : Memory
  depot : Memory

-- `none`: a string that does not end in its array
def copyText (reply : Memory) (index : Nat) (s : Copying) (text : PageText) : Option Copying := do
  let copied ← reply.snprintf text.source (replySize - text.source) (text.length + 1)
  let filled := s.buf.write 0 copied
  let buf := if text.swapped then swap filled 0 text.length else filled
  let rawret := trimString buf 0 text.length
  let stored ← buf.snprintf (offsetOf rawret) (vpdBufSize - offsetOf rawret) (lengthOf rawret + 1)
  return ⟨buf, s.depot.write (entrySize * index + text.target) stored⟩

def copyTexts (reply : Memory) (index : Nat) : Copying → List PageText → Option Copying
  | s, [] => some s
  | s, text :: rest => (copyText reply index s text).bind fun next =>
      copyTexts reply index next rest

def typeUsb (depot : Memory) (index : Nat) : Bool :=
  depot.slice (entrySize * index + 552) 2 ≠ [0, 0]

def vpdPage (page : UInt8) (fill : Memory → Option Memory) (answer : Option Memory)
    (depot : Memory) (index : Nat) : Option (Memory × Int) :=
  if typeUsb depot index then some (depot, 1)
  else match answer with
    | none => some (depot, 1)
    | some reply => if reply 1 ≠ page then some (depot, 1) else (fill reply).map fun filled =>
        (filled, 0)

def vpd80Texts : List PageText :=
  [⟨4, 20, false, 18, by decide, by decide, by decide, by decide⟩]

def vpd89Texts : List PageText :=
  [⟨60 + 10 * 2, 20, true, 18, by decide, by decide, by decide, by decide⟩,
    ⟨60 + 23 * 2, 8, true, 50, by decide, by decide, by decide, by decide⟩,
    ⟨60 + 27 * 2, 40, true, 114, by decide, by decide, by decide, by decide⟩]

-- `buf` is on the stack and holds what was there
def vpd80 (answer : Option Memory) (buf depot : Memory) (index : Nat) : Option (Memory × Int) :=
  vpdPage 0x80 (fun reply => (copyTexts reply index ⟨buf, depot⟩ vpd80Texts).map Copying.depot)
    answer depot index

def vpd89 (answer : Option Memory) (buf depot : Memory) (index : Nat) : Option (Memory × Int) :=
  vpdPage 0x89 (fun reply => (copyTexts reply index ⟨buf, depot⟩ vpd89Texts).map Copying.depot)
    answer depot index

def vpdb1 (answer : Option Memory) (depot : Memory) (index : Nat) : Option (Memory × Int) :=
  vpdPage 0xb1 (fun reply =>
      let rpm := ((reply 4).toNat * 256 + (reply 5).toNat) % 65536
      some (depot.strcpy (entrySize * index + 424) (ascii (if rpm = 1 then "SSD" else "HDD"))))
    answer depot index

def swapPairs : List UInt8 → List UInt8
  | first :: second :: rest => second :: first :: swapPairs rest
  | rest => rest

theorem swapPairs_perm (text : List UInt8) : (swapPairs text).Perm text := by
  fun_induction swapPairs text with
  | case1 first second rest ih => exact (List.Perm.swap first second _).trans ((ih.cons _).cons _)
  | case2 rest => exact List.Perm.refl rest

section

variable {buf : Memory} {p len : Nat} {text : List UInt8}

theorem swapPair_first : swapPair buf p p = buf (p + 1) := Memory.set_self _ _ _

theorem swapPair_second : swapPair buf p (p + 1) = buf p := by
  rw [swapPair, Memory.set_other _ _ (Nat.succ_ne_self p), Memory.set_self]

theorem swapPair_outside {offset : Nat} (outside : offset < p ∨ p + 2 ≤ offset) :
    swapPair buf p offset = buf offset := by
  rw [swapPair, Memory.set_other _ _ (by omega), Memory.set_other _ _ (by omega)]

theorem swap_outside {offset : Nat} (even : len % 2 = 0)
    (outside : offset < p ∨ p + len ≤ offset) : swap buf p len offset = buf offset := by
  fun_induction swap buf p len with
  | case1 => rfl
  | case2 => contradiction
  | case3 buf p left ih => rw [ih (by omega) (by omega), swapPair_outside (by omega)]

theorem slice_swap (even : len % 2 = 0) :
    (swap buf p len).slice p len = swapPairs (buf.slice p len) := by
  fun_induction swap buf p len with
  | case1 => rfl
  | case2 => contradiction
  | case3 buf p left ih =>
      have later : (swapPair buf p).slice (p + 2) left = buf.slice (p + 2) left := by
        apply Memory.slice_congr
        intro offset _
        exact swapPair_outside (by omega)
      rw [Memory.slice, Memory.slice, Memory.slice, Memory.slice, swapPairs, ← later,
        ← ih (by omega), swap_outside (by omega) (by omega), swap_outside (by omega) (by omega),
        swapPair_first, swapPair_second]

theorem shows_swap (shows_ : Memory.Shows buf p text) (even : text.length % 2 = 0) :
    Memory.Shows (swap buf p text.length) p (swapPairs text) where
  content := by rw [(swapPairs_perm text).length_eq, slice_swap even, shows_.content]
  ended := by
    rw [(swapPairs_perm text).length_eq, swap_outside even (Or.inr le_rfl), shows_.ended]
  plain member := shows_.plain ((swapPairs_perm text).mem_iff.mp member)

/-- A text that is shorter than its field keeps the blanks behind it. -/
def trimField (len : Nat) (text : List UInt8) : List UInt8 :=
  if text.length < len then text.dropWhile isBlank else trim text

theorem trimField_infix (len : Nat) (text : List UInt8) : trimField len text <:+: text := by
  rw [trimField]
  split
  · exact (List.dropWhile_suffix isBlank).isInfix
  · exact (List.rdropWhile_prefix isBlank _).isInfix.trans (List.dropWhile_suffix isBlank).isInfix

theorem leadingBlanks_shows (shows_ : Memory.Shows buf p text) (short : text.length ≤ len) :
    leadingBlanks buf p len = (text.takeWhile isBlank).length := by
  induction text generalizing p len with
  | nil =>
      cases len with
      | zero => rfl
      | succ len =>
          have ended : buf p = 0 := shows_.ended
          rw [leadingBlanks, ended]
          rfl
  | cons byte rest ih =>
      obtain ⟨first, -, later⟩ := shows_.tail
      cases len with
      | zero => contradiction
      | succ len =>
          rw [leadingBlanks, first, List.takeWhile_cons, ih later (Nat.le_of_succ_le_succ short)]
          split
          · rfl
          · rfl

theorem trailingBlanks_lt {offset : Nat} (inside : offset < len)
    (stops : isBlank (buf (p + offset)) = false) : trailingBlanks buf p len + offset < len := by
  induction len with
  | zero => contradiction
  | succ len ih =>
      rw [trailingBlanks]
      split
      · rename_i blank
        have other : offset ≠ len := by
          rintro rfl
          rw [stops] at blank
          contradiction
        have before := ih (by omega)
        omega
      · omega

theorem take_drop_trimString (shows_ : Memory.Shows buf p text) (positive : 1 ≤ len)
    (small : len ≤ 65535) (short : text.length ≤ len) :
    (text.drop (offsetOf (trimString buf p len))).take (lengthOf (trimString buf p len)) =
      trimField len text := by
  obtain ⟨offset, length⟩ := trimString_parts buf p positive small
  rw [trimField]
  split
  · -- the NUL behind the text ends both scans
    rename_i shorter
    have blanks := (List.takeWhile_prefix (p := isBlank) (l := text)).length_le
    have stops : isBlank (buf (p + text.length)) = false := by
      rw [shows_.ended]
      rfl
    have behind := trailingBlanks_lt shorter stops
    rw [leadingBlanks_shows shows_ short] at offset length
    rw [offset, drop_takeWhile, List.take_of_length_le]
    have parts := length_takeWhile_add isBlank text
    omega
  · have whole : len = text.length := by omega
    subst whole
    have content := shows_.content
    by_cases some_ : ∃ byte ∈ text, isBlank byte = false
    · obtain ⟨within, bytes⟩ := trimString_some positive small (content.symm ▸ some_)
      rw [content] at bytes
      rw [← bytes, ← Memory.slice_part buf p within, content]
    · have blank : ∀ byte ∈ text, isBlank byte = true := by
        intro byte member
        by_contra other
        exact some_ ⟨byte, member, Bool.eq_false_iff.mpr other⟩
      rw [(trimString_blank positive small (content.symm ▸ blank)).1, List.drop_length,
        List.take_nil, trim_blank blank]

theorem snprintf_trimString (shows_ : Memory.Shows buf 0 text) (positive : 1 ≤ len)
    (small : len < vpdBufSize) (short : text.length ≤ len) :
    buf.snprintf (offsetOf (trimString buf 0 len)) (vpdBufSize - offsetOf (trimString buf 0 len))
      (lengthOf (trimString buf 0 len) + 1) = some (trimField len text ++ [0]) := by
  have room : len ≤ 65535 := small.le.trans (by decide)
  have offset := (trimString_parts buf 0 positive room).1
  have blanks := (List.takeWhile_prefix (p := isBlank) (l := text)).length_le
  rw [leadingBlanks_shows shows_ short] at offset
  have later := shows_.drop (offset ▸ blanks)
  rw [Nat.zero_add] at later
  rw [later.snprintf, take_drop_trimString shows_ positive room short]
  rw [List.length_drop]
  omega

theorem exists_shows_swap (shows_ : Memory.Shows buf 0 text) (short : text.length ≤ len)
    (even : len % 2 = 0) : ∃ moved, Memory.Shows (swap buf 0 len) 0 moved ∧ moved.length ≤ len ∧
      (len ≤ text.length → moved = swapPairs text) := by
  by_cases whole : len ≤ text.length
  · have same : len = text.length := by omega
    subst same
    exact ⟨_, shows_swap shows_ even, (swapPairs_perm text).length_eq.le, fun _ => rfl⟩
  · have ended : 0 ∈ buf.slice 0 len :=
      Memory.mem_slice.mpr ⟨text.length, Nat.lt_of_not_le whole, shows_.ended⟩
    rw [← (swapPairs_perm _).mem_iff, ← slice_swap even, Memory.mem_slice] at ended
    obtain ⟨offset, below, zero⟩ := ended
    obtain ⟨moved, shows_, within⟩ := Memory.exists_shows ⟨offset, below.le, zero⟩
    exact ⟨moved, shows_, within, fun reach => absurd reach whole⟩

end

namespace PageText

def said (text : PageText) (reply : Memory) : List UInt8 :=
  (reply.slice text.source (replySize - text.source)).takeWhile (· ≠ 0)

def cut (text : PageText) (reply : Memory) : List UInt8 := (text.said reply).take text.length

def shown (text : PageText) (reply : Memory) : List UInt8 :=
  trimField text.length (if text.swapped then swapPairs (text.cut reply) else text.cut reply)

def Ended (text : PageText) (reply : Memory) : Prop :=
  ∃ offset, text.source ≤ offset ∧ offset < replySize ∧ reply offset = 0

def Whole (text : PageText) (reply : Memory) : Prop :=
  text.swapped = true → text.length ≤ (text.said reply).length

/-- What was stored is not longer than the field, and is what is to be shown, if the
bytes that were swapped were all part of the text. -/
structure Kept (text : PageText) (reply : Memory) (stored : List UInt8) : Prop where
  short : stored.length ≤ text.length
  shown : text.Whole reply → stored = text.shown reply

/-- Texts that go to different places. -/
def Apart (text other : PageText) : Prop :=
  text.target + text.length < other.target ∨ other.target + other.length < text.target

instance (text other : PageText) : Decidable (text.Apart other) := by
  unfold Apart
  infer_instance

variable {text : PageText} {reply filled : Memory}

theorem shows_said (ended : text.Ended reply) :
    Memory.Shows reply text.source (text.said reply) ∧
      (text.said reply).length < replySize - text.source := by
  obtain ⟨offset, behind, inside, zero⟩ := ended
  have stops : ∃ skipped ≤ replySize - text.source - 1, reply (text.source + skipped) = 0 :=
    ⟨offset - text.source, by omega, by rwa [Nat.add_sub_cancel' behind]⟩
  obtain ⟨told, shows_, short⟩ := Memory.exists_shows stops
  have fits : told.length < replySize - text.source := by omega
  rw [said, shows_.takeWhile fits]
  exact ⟨shows_, fits⟩

theorem length_cut_le (text : PageText) (reply : Memory) : (text.cut reply).length ≤ text.length :=
  List.length_take_le _ _

theorem shown_eq_trim (reach : text.length ≤ (text.said reply).length) : text.shown reply =
    trim (if text.swapped then swapPairs (text.cut reply) else text.cut reply) := by
  have full : (text.cut reply).length = text.length := List.length_take_of_le reach
  rw [shown, trimField, if_neg]
  split
  · rw [(swapPairs_perm _).length_eq, full]
    exact Nat.lt_irrefl _
  · rw [full]
    exact Nat.lt_irrefl _

theorem exists_copied (shows_ : Memory.Shows filled 0 (text.cut reply)) : ∃ copied,
    Memory.Shows (if text.swapped then swap filled 0 text.length else filled) 0 copied ∧
      copied.length ≤ text.length ∧ (text.Whole reply → copied =
        if text.swapped then swapPairs (text.cut reply) else text.cut reply) := by
  by_cases swapped : text.swapped = true
  · rw [if_pos swapped, if_pos swapped]
    obtain ⟨moved, shows_, short, whole⟩ :=
      exists_shows_swap shows_ (text.length_cut_le reply) text.even
    refine ⟨moved, shows_, short, fun reach => whole ?_⟩
    rw [cut, List.length_take_of_le (reach swapped)]
  · rw [if_neg swapped, if_neg swapped]
    exact ⟨_, shows_, text.length_cut_le reply, fun _ => rfl⟩

end PageText

/-- The entry shows what the page says, and nothing else is changed. -/
structure Told (reply depot after : Memory) (index : Nat) (texts : List PageText) : Prop where
  fields : ∀ text ∈ texts, ∃ stored, text.Kept reply stored ∧
    Memory.Shows after (entrySize * index + text.target) stored
  rest : ∀ offset, (∀ text ∈ texts, offset < entrySize * index + text.target ∨
    entrySize * index + text.target + text.length < offset) → after offset = depot offset

section

variable {buf reply depot after : Memory} {index : Nat} {text : PageText}
  {texts : List PageText} {page : UInt8} {fill : Memory → Option Memory}
  {answer : Option Memory} {result : Int}

theorem copyText_kept (index : Nat) (s : Copying) (ended : text.Ended reply) :
    ∃ stored buf, copyText reply index s text =
        some ⟨buf, s.depot.strcpy (entrySize * index + text.target) stored⟩ ∧
      text.Kept reply stored ∧ 0 ∉ stored := by
  obtain ⟨told, room⟩ := PageText.shows_said ended
  have plain : 0 ∉ text.cut reply := fun member => told.plain (List.mem_of_mem_take member)
  have filled : Memory.Shows (s.buf.strcpy 0 (text.cut reply)) 0 (text.cut reply) :=
    Memory.shows_strcpy plain
  obtain ⟨copied, shows_, short, whole⟩ := PageText.exists_copied filled
  have piece := trimField_infix text.length copied
  refine ⟨trimField text.length copied, ?_, ?_, ⟨piece.length_le.trans short, ?_⟩,
    fun member => shows_.plain (piece.subset member)⟩
  · exact if text.swapped then swap (s.buf.strcpy 0 (text.cut reply)) 0 text.length
      else s.buf.strcpy 0 (text.cut reply)
  · have stored := snprintf_trimString shows_ text.positive text.small short
    rw [PageText.cut, Memory.strcpy] at stored
    simp only [copyText, told.snprintf room, stored, Option.bind_eq_bind, Option.bind_some]
    rfl
  · intro reach
    rw [PageText.shown, whole reach]

theorem copyTexts_told (index : Nat) (s : Copying) (apart : texts.Pairwise PageText.Apart)
    (ended : ∀ text ∈ texts, text.Ended reply) : ∃ after,
      copyTexts reply index s texts = some after ∧ Told reply s.depot after.depot index texts := by
  induction texts generalizing s with
  | nil => exact ⟨s, rfl, fun _ member => absurd member List.not_mem_nil, fun _ _ => rfl⟩
  | cons text rest ih =>
      rw [List.pairwise_cons] at apart
      obtain ⟨stored, buf, step, kept, plain⟩ :=
        copyText_kept index s (ended text List.mem_cons_self)
      obtain ⟨after, run, told⟩ := ih ⟨buf, _⟩ apart.2
        fun later member => ended later (List.mem_cons_of_mem _ member)
      have short := kept.short
      refine ⟨after, ?_, ?_, ?_⟩
      · rw [copyTexts, step, Option.bind_some, run]
      · intro another member
        rcases List.mem_cons.mp member with rfl | member
        · have written : Memory.Shows (s.depot.strcpy (entrySize * index + another.target) stored)
              (entrySize * index + another.target) stored := Memory.shows_strcpy plain
          refine ⟨stored, kept, written.congr ?_⟩
          intro offset within
          apply told.rest
          intro later member
          rcases apart.1 later member with before | behind
          · omega
          · omega
        · exact told.fields another member
      · intro offset outside
        have here := outside text List.mem_cons_self
        rw [told.rest offset fun later member => outside later (List.mem_cons_of_mem _ member)]
        apply Memory.write_outside
        rw [List.length_append, List.length_singleton]
        omega

theorem vpdPage_cases (run : vpdPage page fill answer depot index = some (after, result)) :
    (result = 1 ∧ after = depot) ∨ ∃ reply, answer = some reply ∧ typeUsb depot index = false ∧
      reply 1 = page ∧ result = 0 ∧ fill reply = some after := by
  unfold vpdPage at run
  split at run
  · cases run
    exact Or.inl ⟨rfl, rfl⟩
  · rename_i direct
    split at run
    · cases run
      exact Or.inl ⟨rfl, rfl⟩
    · rename_i reply
      split at run
      · cases run
        exact Or.inl ⟨rfl, rfl⟩
      · rename_i same
        obtain ⟨filled, told, pair⟩ := Option.map_eq_some_iff.mp run
        cases pair
        exact Or.inr ⟨reply, rfl, Bool.eq_false_iff.mpr direct, not_not.mp same, rfl, told⟩

theorem vpdPage_filled (direct : typeUsb depot index = false) (same : reply 1 = page)
    (filled : fill reply = some after) :
    vpdPage page fill (some reply) depot index = some (after, 0) := by
  rw [vpdPage, direct, if_neg Bool.false_ne_true]
  simp [same, filled]

/-- Only an answer of the right page changes the entry, and then the result is 0. -/
theorem vpdPage_failed (run : vpdPage page fill answer depot index = some (after, result))
    (failed : result ≠ 0) : after = depot := by
  rcases vpdPage_cases run with ⟨-, same⟩ | ⟨_, -, -, -, zero, -⟩
  · exact same
  · exact absurd zero failed

theorem vpdPage_told (direct : typeUsb depot index = false) (same : reply 1 = page)
    (apart : texts.Pairwise PageText.Apart) (ended : ∀ text ∈ texts, text.Ended reply) :
    ∃ after, vpdPage page
      (fun reply => (copyTexts reply index ⟨buf, depot⟩ texts).map Copying.depot)
      (some reply) depot index = some (after, 0) ∧ Told reply depot after index texts := by
  obtain ⟨after, run, told⟩ := copyTexts_told index ⟨buf, depot⟩ apart ended
  refine ⟨after.depot, vpdPage_filled direct same ?_, told⟩
  rw [run, Option.map_some]

theorem vpd80_told (direct : typeUsb depot index = false) (same : reply 1 = 0x80)
    (ended : ∃ offset, 4 ≤ offset ∧ offset < replySize ∧ reply offset = 0) :
    ∃ after, vpd80 (some reply) buf depot index = some (after, 0) ∧
      Told reply depot after index vpd80Texts := by
  refine vpdPage_told direct same (by decide) ?_
  intro text member
  rw [List.mem_singleton.mp member]
  exact ended

theorem vpd89_told (direct : typeUsb depot index = false) (same : reply 1 = 0x89)
    (ended : ∃ offset, 60 + 27 * 2 ≤ offset ∧ offset < replySize ∧ reply offset = 0) :
    ∃ after, vpd89 (some reply) buf depot index = some (after, 0) ∧
      Told reply depot after index vpd89Texts := by
  refine vpdPage_told direct same (by decide) ?_
  obtain ⟨offset, behind, inside, zero⟩ := ended
  have first : ∀ text ∈ vpd89Texts, text.source ≤ 60 + 27 * 2 := by decide
  exact fun text member => ⟨offset, (first text member).trans behind, inside, zero⟩

def media (rate : Memory) : List UInt8 := ascii (if rate 4 = 0 ∧ rate 5 = 1 then "SSD" else "HDD")

theorem vpdb1_told (direct : typeUsb depot index = false) (same : reply 1 = 0xb1) :
    ∃ after, vpdb1 (some reply) depot index = some (after, 0) ∧
      Memory.Shows after (entrySize * index + 424) (media reply) ∧
      ∀ offset, offset < entrySize * index + 424 ∨ entrySize * index + 427 < offset →
        after offset = depot offset := by
  have one : ((reply 4).toNat * 256 + (reply 5).toNat) % 65536 = 1 ↔ reply 4 = 0 ∧ reply 5 = 1 := by
    have high := (reply 4).toNat_lt
    have low := (reply 5).toNat_lt
    rw [← UInt8.toNat_inj, ← UInt8.toNat_inj]
    show _ ↔ (reply 4).toNat = 0 ∧ (reply 5).toNat = 1
    omega
  have filled : vpdb1 (some reply) depot index =
      some (depot.strcpy (entrySize * index + 424) (media reply), 0) := by
    rw [media, ← if_congr one rfl rfl]
    exact vpdPage_filled direct same rfl
  have short : 0 ∉ media reply ∧ (media reply).length = 3 := by
    rw [media]
    split
    · decide
    · decide
  refine ⟨_, filled, Memory.shows_strcpy short.1, fun offset outside => ?_⟩
  apply Memory.write_outside
  rw [List.length_append, List.length_singleton, short.2]
  omega

theorem Told.exact_other (told : Told reply depot after index texts) {other : Nat} {drive : Drive}
    (exact_ : Exact depot other drive) (different : other ≠ index) : Exact after other drive := by
  apply exact_.congr
  intro offset below
  apply told.rest
  intro text _
  have inside := text.inside
  unfold entrySize at *
  omega

theorem Told.shows_trim (told : Told reply depot after index texts) (member : text ∈ texts)
    (reach : text.length ≤ (text.said reply).length) :
    Memory.Shows after (entrySize * index + text.target)
      (trim (if text.swapped then swapPairs (text.cut reply) else text.cut reply)) := by
  obtain ⟨stored, kept, shows_⟩ := told.fields text member
  rw [← PageText.shown_eq_trim reach, ← kept.shown fun _ => reach]
  exact shows_

/-- The page that `vpd89` asked for does not keep the others from being asked for. -/
theorem vpd89_keeps_direct (direct : typeUsb depot index = false)
    (told : Told reply depot after index vpd89Texts) : typeUsb after index = false := by
  have same : after.slice (entrySize * index + 552) 2 =
    depot.slice (entrySize * index + 552) 2 := by
    apply Memory.slice_congr
    intro offset below
    have before : ∀ text ∈ vpd89Texts, text.target + text.length < 552 := by decide
    apply told.rest
    intro text member
    have room := before text member
    omega
  rw [typeUsb, same]
  exact direct

/-- An ATA drive's entry, after it has told its texts on one page and its rate on another. -/
structure Identified (reply rate depot after : Memory) (index : Nat) : Prop where
  texts : ∀ text ∈ vpd89Texts, text.length ≤ (text.said reply).length →
    Memory.Shows after (entrySize * index + text.target) (trim (swapPairs (text.cut reply)))
  media : Memory.Shows after (entrySize * index + 424) (media rate)
  others : ∀ other drive, other ≠ index → Exact depot other drive → Exact after other drive

theorem Told.identified {rate middle : Memory} (told : Told reply depot middle index vpd89Texts)
    (turns : Memory.Shows after (entrySize * index + 424) (DiskList.media rate))
    (kept : ∀ offset, offset < entrySize * index + 424 ∨ entrySize * index + 427 < offset →
      after offset = middle offset) : Identified reply rate depot after index where
  texts text member reach := by
    have places : ∀ text ∈ vpd89Texts, text.swapped = true ∧ text.target + text.length < 424 := by
      decide
    obtain ⟨swapped, room⟩ := places text member
    obtain ⟨stored, fits, shows_⟩ := told.fields text member
    have shown := told.shows_trim member reach
    rw [if_pos swapped] at shown
    have same : stored = trim (swapPairs (text.cut reply)) := by
      rw [fits.shown fun _ => reach, PageText.shown_eq_trim reach, if_pos swapped]
    have short := fits.short
    refine shown.congr fun offset within => kept _ ?_
    rw [← same] at within
    omega
  media := turns
  others other drive different exact_ := by
    refine (told.exact_other exact_ different).congr fun offset below => kept _ ?_
    unfold entrySize at *
    omega

theorem unanswered_unchanged (run : vpd80 answer buf depot index = some (after, result) ∨
    vpd89 answer buf depot index = some (after, result) ∨
    vpdb1 answer depot index = some (after, result)) (failed : result ≠ 0) : after = depot := by
  rcases run with serial | texts | rates
  · exact vpdPage_failed serial failed
  · exact vpdPage_failed texts failed
  · exact vpdPage_failed rates failed

end

/-- A solid state drive's two pages; of the serial number only the blanks around it are cut. -/
def ataReply : Memory := fun offset =>
  if offset = 1 then 0x89
  else if 80 ≤ offset ∧ offset < 100 then
    (swapPairs (ascii "   WD-WX 12345678   ")).getD (offset - 80) 0
  else if 106 ≤ offset ∧ offset < 114 then (swapPairs (ascii "82.00A82")).getD (offset - 106) 0
  else 0

def ataRate : Memory := fun offset => [0, 0xb1, 0, 0x3c, 0, 1].getD offset 0

end DirtyCode.DiskList
