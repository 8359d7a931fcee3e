import DirtyCode.Lib.DomainName

/-!
`ChangetoDnsNameFormat` and `ReadName` of `dnsq.c`: the name of a query on its way into
a message, and the names of a response, compressed or not, on their way out.
-/

namespace DirtyCode.Dnsq

open Lib

/-- The loop over the host, its dot included, from `i` on. -/
def formatFrom (host : List UInt8) : Nat → Nat → Nat → List UInt8
  | 0, _, _ => []
  | left + 1, i, lock =>
      if host[i]? = some 46 then
        UInt8.ofNat (i - lock) :: (host.drop lock).take (i - lock) ++
          formatFrom host left (i + 1) (i + 1)
      else formatFrom host left (i + 1) lock

def changetoDnsNameFormat (host : List UInt8) : List UInt8 :=
  let host := host ++ [46]
  formatFrom host host.length 0 0 ++ [0]

structure Reading where
  name : Memory
  p : Nat
  jumped : Bool
  count : Nat

/-- The bytes of the name; undefined behind the 256 that are allocated. -/
def readBytes (buffer : Memory) : Nat → Nat → Reading → Option Reading
  | 0, _, _ => none
  | fuel + 1, reader, reading =>
      if buffer reader = 0 then some reading
      else if 192 ≤ buffer reader then
        -- the pointer goes to the byte before the target, and one further
        readBytes buffer fuel (pointerTarget (buffer reader) (buffer (reader + 1)))
          { reading with jumped := true }
      else if reading.p < 256 then
        readBytes buffer fuel (reader + 1)
          { reading with
            name := reading.name.set reading.p (buffer reader)
            p := reading.p + 1
            count := if reading.jumped then reading.count else reading.count + 1 }
      else none

/-- A label moves down over its length byte. -/
def shiftLabel : Nat → Memory → Nat → Option (Memory × Nat)
  | 0, name, i => some (name, i)
  | left + 1, name, i =>
      if i + 1 < 256 then shiftLabel left (name.set i (name (i + 1))) (i + 1) else none

def toDots : Nat → Memory → Nat → Option (Memory × Nat)
  | 0, _, _ => none
  | fuel + 1, name, i =>
      (name.strlen 0 256).bind fun length =>
        if i < length then
          (shiftLabel (name i).toNat name i).bind fun (name, i) =>
            if i < 256 then toDots fuel (name.set i 46) (i + 1) else none
        else some (name, i)

/-- The name and the count; without a label the last dot to remove is before the name. -/
def readName (buffer fresh : Memory) (fuel reader : Nat) : Option (Memory × Nat) :=
  (readBytes buffer fuel reader ⟨fresh.set 0 0, 0, false, 1⟩).bind fun reading =>
    if reading.p < 256 then
      (toDots 257 (reading.name.set reading.p 0) 0).bind fun (name, i) =>
        if i = 0 then none
        else some (name.set (i - 1) 0, if reading.jumped then reading.count + 1 else reading.count)
    else none

section Format

def framed (text : List UInt8) : List UInt8 := UInt8.ofNat text.length :: text

theorem splitOn_undotted {text : List UInt8} (undotted : 46 ∉ text) :
    text.splitOn 46 = [text] := by
  rw [List.splitOn_eq_splitOnP]
  apply List.splitOnP_eq_singleton
  intro byte member
  have apart : byte ≠ 46 := fun same => undotted (same ▸ member)
  simpa using apart

theorem splitOn_append_dot {text : List UInt8} (undotted : 46 ∉ text) (rest : List UInt8) :
    (text ++ 46 :: rest).splitOn 46 = text :: rest.splitOn 46 := by
  rw [List.splitOn_eq_splitOnP, List.splitOn_eq_splitOnP]
  apply List.splitOnP_append_cons_of_forall_mem
  · intro byte member
    have apart : byte ≠ 46 := fun same => undotted (same ▸ member)
    simpa using apart
  · rfl

theorem formatFrom_eq (before pending rest : List UInt8) (undotted : 46 ∉ pending) :
    formatFrom (before ++ pending ++ (rest ++ [46])) (rest.length + 1)
        (before.length + pending.length) before.length =
      ((pending ++ rest).splitOn 46).flatMap framed := by
  induction rest generalizing before pending with
  | nil =>
      have dot : (before ++ pending ++ ([] ++ [46]))[before.length + pending.length]? =
          some (46 : UInt8) := by
        rw [← List.length_append]
        simp
      have part : ((before ++ pending ++ ([] ++ [46])).drop before.length).take pending.length =
          pending := by
        rw [List.append_assoc, List.drop_left, List.take_left]
      rw [formatFrom, if_pos dot, Nat.add_sub_cancel_left, part, List.append_nil,
        splitOn_undotted undotted]
      simp [formatFrom, framed]
  | cons char rest ih =>
      have here : (before ++ pending ++ (char :: rest ++ [46]))[before.length + pending.length]? =
          some char := by
        rw [← List.length_append]
        simp
      rw [List.length_cons, formatFrom, here]
      by_cases dot : char = 46
      · subst dot
        have part : ((before ++ pending ++ (46 :: rest ++ [46])).drop before.length).take
            pending.length = pending := by
          rw [List.append_assoc, List.drop_left, List.take_left]
        have onward := ih (before ++ pending ++ [46]) [] (by simp)
        have whole : before ++ pending ++ [46] ++ [] ++ (rest ++ [46]) =
            before ++ pending ++ (46 :: rest ++ [46]) := by simp
        have next : (before ++ pending ++ [(46 : UInt8)]).length + ([] : List UInt8).length =
            before.length + pending.length + 1 := by simp [Nat.add_assoc]
        have start : (before ++ pending ++ [(46 : UInt8)]).length =
            before.length + pending.length + 1 := by simp [Nat.add_assoc]
        rw [whole, next, start, List.nil_append] at onward
        rw [if_pos rfl, Nat.add_sub_cancel_left, part, onward, splitOn_append_dot undotted]
        rfl
      · have longer : 46 ∉ pending ++ [char] := by
          simp [undotted, Ne.symm dot]
        have onward := ih before (pending ++ [char]) longer
        have whole : before ++ (pending ++ [char]) ++ (rest ++ [46]) =
            before ++ pending ++ (char :: rest ++ [46]) := by simp
        have next : before.length + (pending ++ [char]).length =
            before.length + pending.length + 1 := by simp [Nat.add_assoc]
        rw [whole, next] at onward
        rw [if_neg (by simpa using dot), onward, List.append_assoc]
        rfl

theorem changetoDnsNameFormat_eq (host : List UInt8) :
    changetoDnsNameFormat host = (host.splitOn 46).flatMap framed ++ [0] := by
  have all := formatFrom_eq [] [] host (by simp)
  rw [changetoDnsNameFormat, List.length_append]
  exact congrArg (· ++ [0]) all

theorem changetoDnsNameFormat_dotted {labels : List Label} (named : labels ≠ []) :
    changetoDnsNameFormat (dotted labels) = wireOf labels ++ [0] := by
  rw [changetoDnsNameFormat_eq, splitOn_dotted named, List.flatMap_map]
  rfl

end Format

section Bytes

variable {buffer : Memory}

theorem readBytes_plain {bytes : List UInt8} (plain : ∀ byte ∈ bytes, byte ≠ 0 ∧ byte < 192)
    {reader : Nat} (content : buffer.slice reader bytes.length = bytes) (reading : Reading)
    (room : reading.p + bytes.length ≤ 255) :
    ∃ name, name.slice 0 (reading.p + bytes.length) = reading.name.slice 0 reading.p ++ bytes ∧
      ∀ fuel, readBytes buffer (fuel + bytes.length) reader reading =
        readBytes buffer fuel (reader + bytes.length)
          ⟨name, reading.p + bytes.length, reading.jumped,
            if reading.jumped then reading.count else reading.count + bytes.length⟩ := by
  induction bytes generalizing reader reading with
  | nil =>
      refine ⟨reading.name, by simp, fun fuel => ?_⟩
      simp
  | cons byte rest ih =>
      rw [List.length_cons] at room
      rw [List.length_cons, Memory.slice, List.cons.injEq] at content
      obtain ⟨nonzero, small⟩ := plain byte List.mem_cons_self
      have later := fun other member => plain other (List.mem_cons_of_mem _ member)
      let next : Reading := ⟨reading.name.set reading.p byte, reading.p + 1, reading.jumped,
        if reading.jumped then reading.count else reading.count + 1⟩
      obtain ⟨name, held, onward⟩ := ih later content.2 next (by simp only [next]; omega)
      refine ⟨name, ?_, fun fuel => ?_⟩
      · have kept : (reading.name.set reading.p byte).slice 0 (reading.p + 1) =
            reading.name.slice 0 reading.p ++ [byte] := by
          rw [Memory.slice_append]
          congr 1
          · apply Memory.slice_congr
            intro offset below
            exact Memory.set_other _ _ (by omega)
          · simp [Memory.slice]
        have total : reading.p + 1 + rest.length = reading.p + (byte :: rest).length := by
          simp only [List.length_cons]
          omega
        rw [← total]
        exact held.trans (by rw [kept, List.append_assoc]; rfl)
      · have step := onward fuel
        rw [List.length_cons, ← Nat.add_assoc, readBytes, content.1, if_neg nonzero,
          if_neg (by simpa using small), if_pos (by omega)]
        refine step.trans ?_
        congr 1
        · omega
        · simp only [next, Reading.mk.injEq, true_and]
          refine ⟨by omega, ?_⟩
          cases reading.jumped <;> simp; omega

/-- Whichever way a name is compressed, its labels arrive as if it were not; only the
bytes before the first jump are counted. -/
theorem readBytes_nameAt {offset length : Nat} {labels : List Label}
    (encoded : NameAt buffer offset labels length) (reading : Reading)
    (room : reading.p + (wireOf labels).length ≤ 255) :
    ∃ steps final, (∀ fuel, readBytes buffer (fuel + steps) offset reading = some final) ∧
      final.p = reading.p + (wireOf labels).length ∧
      final.name.slice 0 final.p = reading.name.slice 0 reading.p ++ wireOf labels ∧
      (reading.jumped = true → final.jumped = true ∧ final.count = reading.count) ∧
      (reading.jumped = false →
        final.count + (if final.jumped then 1 else 0) + 1 = reading.count + length) := by
  induction encoded generalizing reading with
  | root ended =>
      refine ⟨1, reading, fun fuel => by rw [readBytes, if_pos ended], by simp, by simp,
        fun jumped => ⟨jumped, rfl⟩, fun still => by simp [still]⟩
  | label label content onward ih =>
      rename_i offset length rest
      rw [wireOf_cons, List.length_append] at room
      obtain ⟨name, held, step⟩ := readBytes_plain label.wire_plain content reading (by omega)
      obtain ⟨steps, final, ends, place, slice, jumped, still⟩ := ih
        ⟨name, reading.p + label.wire.length, reading.jumped,
          if reading.jumped then reading.count else reading.count + label.wire.length⟩
        (by simp only; omega)
      refine ⟨steps + label.wire.length, final, fun fuel => ?_, ?_, ?_, ?_, ?_⟩
      · rw [← Nat.add_assoc, step]
        exact ends fuel
      · rw [place, wireOf_cons, List.length_append, Nat.add_assoc]
      · rw [slice, held, wireOf_cons, List.append_assoc]
      · intro already
        obtain ⟨kept, count⟩ := jumped already
        exact ⟨kept, by rw [count]; simp [already]⟩
      · intro never
        have total := still never
        simp only [never, Bool.false_eq_true, if_false] at total
        omega
  | pointer marked target ih =>
      rename_i offset length labels
      obtain ⟨steps, final, ends, place, slice, jumped, -⟩ :=
        ih { reading with jumped := true } room
      have nonzero : buffer offset ≠ 0 := by
        intro zero
        rw [zero] at marked
        contradiction
      refine ⟨steps + 1, final, fun fuel => ?_, place, slice, fun _ => jumped rfl, fun never => ?_⟩
      · rw [← Nat.add_assoc, readBytes, if_neg nonzero, if_pos marked]
        exact ends fuel
      · obtain ⟨kept, count⟩ := jumped rfl
        simp [kept, count]

end Bytes

section Dots

theorem shiftLabel_eq (left : Nat) (name : Memory) (i : Nat) (room : i + left < 256) :
    ∃ shifted, shiftLabel left name i = some (shifted, i + left) ∧
      ∀ offset, shifted offset =
        if i ≤ offset ∧ offset < i + left then name (offset + 1) else name offset := by
  induction left generalizing name i with
  | zero =>
      refine ⟨name, rfl, fun offset => ?_⟩
      rw [if_neg (by omega)]
  | succ left ih =>
      obtain ⟨shifted, ran, each⟩ := ih (name.set i (name (i + 1))) (i + 1) (by omega)
      have total : i + 1 + left = i + (left + 1) := by omega
      refine ⟨shifted, ?_, fun offset => ?_⟩
      · rw [shiftLabel, if_pos (by omega), ran, total]
      · rw [each]
        by_cases first : offset = i
        · subst first
          rw [if_neg (by omega), if_pos (by omega), Memory.set_self]
        · by_cases inside : i + 1 ≤ offset ∧ offset < i + 1 + left
          · rw [if_pos inside, if_pos (by omega), Memory.set_other _ _ (by omega)]
          · rw [if_neg inside, if_neg (by omega), Memory.set_other _ _ first]

def spaced (labels : List Label) : List UInt8 := labels.flatMap fun label => label.text ++ [46]

theorem spaced_plain (labels : List Label) : 0 ∉ spaced labels := by
  intro member
  obtain ⟨label, -, inside⟩ := List.mem_flatMap.mp member
  rcases List.mem_append.mp inside with within | dot
  · exact (label.plain 0 within).1 rfl
  · simp at dot

theorem wireOf_nonzero (labels : List Label) : 0 ∉ wireOf labels :=
  fun member => (wireOf_plain labels 0 member).1 rfl

theorem shows_shifted {name shifted : Memory} {front : List UInt8} {label : Label}
    {rest : List Label} (plain : 0 ∉ front)
    (shows_ : name.Shows 0 (front ++ wireOf (label :: rest)))
    (each : ∀ offset, shifted offset =
      if front.length ≤ offset ∧ offset < front.length + label.text.length then name (offset + 1)
      else name offset) :
    (shifted.set (front.length + label.text.length) 46).Shows 0
      (front ++ (label.text ++ [46]) ++ wireOf rest) := by
  have whole := shows_.content
  have width : label.wire.length = label.text.length + 1 := rfl
  rw [wireOf_cons, List.length_append, List.length_append, Memory.slice_append,
    Memory.slice_append, Nat.zero_add] at whole
  obtain ⟨first, later⟩ := List.append_inj whole (Memory.length_slice _ _ _)
  obtain ⟨middle, last⟩ := List.append_inj later (Memory.length_slice _ _ _)
  rw [width, Memory.slice] at middle
  have text := (List.cons.inj middle).2
  have ended := shows_.ended
  simp only [wireOf_cons, List.length_append, width, Nat.zero_add] at ended
  have outside : ∀ offset, offset < front.length ∨ front.length + label.wire.length ≤ offset →
      shifted.set (front.length + label.text.length) 46 offset = name offset := by
    intro offset apart
    rw [Memory.set_other _ _ (by omega), each, if_neg (by omega)]
  constructor
  · simp only [List.length_append, List.length_singleton, Memory.slice_append, Nat.zero_add]
    congr 1
    · congr 1
      · refine (Memory.slice_congr fun offset below => ?_).trans first
        rw [Nat.zero_add]
        exact outside offset (.inl below)
      · congr 1
        · refine (Memory.slice_congr fun offset below => ?_).trans text
          rw [Memory.set_other _ _ (by omega), each, if_pos (by omega), Nat.add_right_comm]
        · simp [Memory.slice]
    · refine (Memory.slice_congr fun offset below => ?_).trans last
      exact outside _ (.inr (by omega))
  · simp only [List.length_append, List.length_singleton, Nat.zero_add]
    rw [outside _ (.inr (by omega))]
    rw [← ended]
    congr 1
    omega
  · have texted : 0 ∉ label.text := fun member => (label.plain 0 member).1 rfl
    simp [plain, texted, wireOf_nonzero]

theorem toDots_eq {fuel : Nat} {name : Memory} {front : List UInt8} {labels : List Label}
    (plain : 0 ∉ front) (shows_ : name.Shows 0 (front ++ wireOf labels))
    (fits : (front ++ wireOf labels).length ≤ 255) (enough : labels.length < fuel) :
    ∃ moved, toDots fuel name front.length =
        some (moved, front.length + (spaced labels).length) ∧
      moved.Shows 0 (front ++ spaced labels) := by
  induction fuel generalizing name front labels with
  | zero => omega
  | succ fuel ih =>
      have length := shows_.strlen (by omega : (front ++ wireOf labels).length < 256)
      rw [toDots, length, Option.bind_some]
      cases labels with
      | nil => exact ⟨name, by simp [spaced], by simpa [spaced] using shows_⟩
      | cons label rest =>
          have more : spaced (label :: rest) = (label.text ++ [46]) ++ spaced rest :=
            List.flatMap_cons
          have width : label.wire.length = label.text.length + 1 := rfl
          simp only [wireOf_cons, List.length_append, width, List.length_cons] at fits enough
          have lead : (name front.length).toNat = label.text.length := by
            have byte := shows_.byte (by simp :
              front.length < (front ++ wireOf (label :: rest)).length)
            rw [Nat.zero_add] at byte
            rw [byte]
            simpa [wireOf_cons, Label.wire] using label.length_byte
          obtain ⟨shifted, ran, each⟩ :=
            shiftLabel_eq label.text.length name front.length (by omega)
          have after := shows_shifted plain shows_ each
          have texted : 0 ∉ label.text := fun member => (label.plain 0 member).1 rfl
          have lengths : (front ++ (label.text ++ [46])).length =
              front.length + label.text.length + 1 := by
            simp [Nat.add_assoc]
          obtain ⟨moved, finished, shown⟩ := ih (by simp [plain, texted]) after
            (by rw [List.length_append, lengths]; omega) (by omega)
          rw [lengths] at finished
          refine ⟨moved, ?_, by rw [more, ← List.append_assoc]; exact shown⟩
          rw [if_pos (by simp), lead, ran]
          simp only [Option.bind_some]
          rw [if_pos (by omega), finished, more]
          congr 2
          simp only [List.length_append, List.length_singleton]
          omega

end Dots

/-- Every name that has a label comes out as its dotted text, and the count is what the
name takes up where it stands. -/
theorem readName_eq {buffer : Memory} {offset length : Nat} {labels : List Label}
    (encoded : NameAt buffer offset labels length) (named : labels ≠ [])
    (fits : (wireOf labels).length ≤ 255) (fresh : Memory) :
    ∃ steps name, (∀ fuel, readName buffer fresh (fuel + steps) offset = some (name, length)) ∧
      name.Shows 0 (dotted labels) := by
  obtain ⟨steps, final, ends, place, slice, -, still⟩ :=
    readBytes_nameAt encoded ⟨fresh.set 0 0, 0, false, 1⟩ (by simpa using fits)
  have count := still rfl
  simp only [Nat.zero_add, Memory.slice_zero, List.nil_append] at place slice count
  rw [place] at slice
  have shown : (final.name.set final.p 0).Shows 0 ([] ++ wireOf labels) := by
    refine ⟨(Memory.slice_congr fun offset below => ?_).trans slice, ?_, wireOf_nonzero labels⟩
    · exact Memory.set_other _ _ (by rw [List.nil_append] at below; omega)
    · rw [List.nil_append, Nat.zero_add, ← place, Memory.set_self]
  have few := length_le_wireOf labels
  obtain ⟨moved, ran, spread⟩ := toDots_eq List.not_mem_nil shown (by simpa using fits)
    (by omega : labels.length < 257)
  rw [List.nil_append] at spread
  have snoc : dotted labels ++ [46] = spaced labels := dotted_snoc named
  have total : (spaced labels).length = (dotted labels).length + 1 := by
    rw [← snoc, List.length_append]
    rfl
  refine ⟨steps, moved.set (dotted labels).length 0, fun fuel => ?_, ?_⟩
  · rw [readName, ends fuel, Option.bind_some, if_pos (by omega)]
    have started : toDots 257 (final.name.set final.p 0) 0 =
      some (moved, (spaced labels).length) := by
      simpa using ran
    rw [started, Option.bind_some]
    simp only [total, Nat.add_sub_cancel]
    rw [if_neg (by omega)]
    refine congrArg (fun number => some (moved.set (dotted labels).length 0, number)) ?_
    split at count <;> rename_i jumped
    · rw [if_pos jumped]
      omega
    · rw [if_neg jumped]
      omega
  · have content := spread.content
    rw [← snoc, List.length_append, Memory.slice_append] at content
    obtain ⟨text, -⟩ := List.append_inj content (Memory.length_slice _ _ _)
    refine ⟨(Memory.slice_congr fun offset below => ?_).trans text, ?_, fun member => ?_⟩
    · exact Memory.set_other _ _ (by omega)
    · rw [Nat.zero_add, Memory.set_self]
    · exact spaced_plain labels (snoc ▸ List.mem_append_left _ member)

/-- However two names with the same labels are laid into their messages, compressed or
not, they are read as the same text, and the reader moves on behind each of them. -/
theorem readName_same_text {buffer other : Memory} {offset place length width : Nat}
    {labels : List Label} (encoded : NameAt buffer offset labels length)
    (also : NameAt other place labels width) (named : labels ≠ [])
    (fits : (wireOf labels).length ≤ 255) (fresh unused : Memory) :
    ∃ steps one two, one.Shows 0 (dotted labels) ∧ two.Shows 0 (dotted labels) ∧
      ∀ fuel, readName buffer fresh (fuel + steps) offset = some (one, length) ∧
        readName other unused (fuel + steps) place = some (two, width) := by
  obtain ⟨steps, one, reads, shown⟩ := readName_eq encoded named fits fresh
  obtain ⟨more, two, continues, told⟩ := readName_eq also named fits unused
  refine ⟨steps + more, one, two, shown, told, fun fuel => ⟨?_, ?_⟩⟩
  · rw [Nat.add_comm steps, ← Nat.add_assoc]
    exact reads (fuel + more)
  · rw [← Nat.add_assoc]
    exact continues (fuel + steps)

def letter (byte : UInt8) (plain : byte ≠ 0 ∧ byte ≠ 46 ∧ byte < 192) : Label where
  text := [byte]
  nonempty := List.cons_ne_nil _ _
  short := Nat.succ_le_succ (Nat.zero_le 62)
  plain _ member := List.eq_of_mem_singleton member ▸ plain

theorem a_plain : (97 : UInt8) ≠ 0 ∧ (97 : UInt8) ≠ 46 ∧ (97 : UInt8) < 192 := by decide

theorem b_plain : (98 : UInt8) ≠ 0 ∧ (98 : UInt8) ≠ 46 ∧ (98 : UInt8) < 192 := by decide

def labelA : Label := letter 97 a_plain

def labelB : Label := letter 98 b_plain

def plainName : Memory := fun offset => [1, 97, 1, 98, 0].getD offset 0

def pointingName : Memory := fun offset => [1, 98, 0, 1, 97, 192, 0].getD offset 0

theorem plainName_at : NameAt plainName 0 [labelA, labelB] 5 :=
  .label labelA (by decide) (.label labelB (by decide) (.root (by decide)))

theorem pointingName_at : NameAt pointingName 3 [labelA, labelB] 4 :=
  .label labelA (by decide)
    (.pointer (by decide) (.label labelB (by decide) (.root (by decide))))

theorem readName_same_pointing :
    ∃ steps one two, one.Shows 0 (dotted [labelA, labelB]) ∧ two.Shows 0 (dotted [labelA, labelB]) ∧
      ∀ fuel, readName plainName (fun _ => 0) (fuel + steps) 0 = some (one, 5) ∧
        readName pointingName (fun _ => 7) (fuel + steps) 3 = some (two, 4) :=
  readName_same_text plainName_at pointingName_at (by decide) (by decide) _ _

end DirtyCode.Dnsq
