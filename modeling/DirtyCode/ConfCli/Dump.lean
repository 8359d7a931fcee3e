import DirtyCode.ConfCli.LineBuffer
import DirtyCode.ConfCli.Lookup

/-!
`dump_htable` of `ConfCli.c`, and what `process_content` makes of its file.
-/

namespace DirtyCode.ConfCli

open Lib

def dumpEntry (store : Store) (key : Bytes) : Option Bytes :=
  match store.cfkv key with
  | none => some []
  | some (keyPtr, valPtr) =>
      (store.heap.read keyPtr).bind fun name => (store.heap.read valPtr).map fun value =>
        name ++ 32 :: (value ++ [10])

/-- The file, for the buckets in this order; none where a freed string is printed. -/
def dumpHtable (store : Store) : List Bytes → Option Bytes
  | [] => some []
  | key :: rest =>
      (dumpEntry store key).bind fun line => (dumpHtable store rest).map fun text => line ++ text

/-- An order in which `kh_begin` to `kh_end` may come upon the keys. -/
structure Iterates (store : Store) (order : List Bytes) : Prop where
  once : order.Nodup
  complete : ∀ key, key ∈ order ↔ (store.cfkv key).isSome

/-- A line on the way to `process_content`, without its newline. -/
structure SentLine where
  text : Bytes
  unbroken : ∀ byte ∈ text, byte ≠ 10
  short : text.length < 1023

def sent (lines : List SentLine) : Bytes := lines.flatMap fun line => line.text ++ [10]

theorem SentLine.printable (line : SentLine) :
    ∀ byte ∈ line.text.takeWhile (· ≠ 0), byte ≠ 0 ∧ byte ≠ 10 := by
  intro byte member
  have nonzero := List.mem_takeWhile_imp member
  exact ⟨by simpa using nonzero, line.unbroken byte ((List.takeWhile_subset _) member)⟩

/-- The string that `parse_single_line` gets. -/
def SentLine.seen (line : SentLine) : Line where
  text := line.text.takeWhile (· ≠ 0)
  printable := line.printable
  newline := decide (0 ∉ line.text)

def SentLine.command (line : SentLine) : Command := commandOf line.seen.text

def Command.key : Command → Option Bytes
  | .put key _ => some key
  | .delete key => some key
  | .malformed => none

def parseAll (allocator : Allocator) : List SentLine → Store → Option Store
  | [], store => some store
  | line :: rest, store =>
      (parseSingleLine allocator line.seen.bytes store).bind (parseAll allocator rest)

/-- The text leads back to the table, and the program stays up as long as it has memory. -/
def ReadsBack (allocator : Allocator) (pieces : List Bytes) (store : Store) : Prop :=
  (∀ final, feed allocator pieces startClient = some final →
    final.store.lookup = store.lookup) ∧
  ((∀ heap calls, (allocator.strdup heap calls).isSome) →
    (feed allocator pieces startClient).isSome)

section Buffer

def holding (text : Bytes) : Memory := fun offset => text.getD offset 0

theorem holding_set (text : Bytes) (byte : UInt8) :
    (holding text).set text.length byte = holding (text ++ [byte]) := by
  funext offset
  rcases Nat.lt_trichotomy offset text.length with before | rfl | behind
  · rw [Memory.set_other _ _ (by omega)]
    exact (List.getD_append text [byte] 0 offset before).symm
  · simp [holding]
  · rw [Memory.set_other _ _ (by omega)]
    have longer : (text ++ [byte]).length ≤ offset := by simpa using behind
    rw [holding, holding, List.getD_eq_default _ _ (by omega), List.getD_eq_default _ _ longer]

theorem holding_clear {text : Bytes} (fits : text.length ≤ 1024) :
    (holding text).memcpy 0 (fun _ => 0) 1024 = holding [] := by
  funext offset
  rw [Memory.memcpy]
  split
  · simp [holding]
  · have outside : text.length ≤ offset := by omega
    simp [holding, outside]

theorem takeWhile_holding {text : Bytes} {count : Nat} (fits : text.length ≤ count) :
    ((holding text).slice 0 count).takeWhile (· ≠ 0) = text.takeWhile (· ≠ 0) := by
  induction text generalizing count with
  | nil =>
      cases count with
      | zero => rfl
      | succ count => simp [Memory.slice, holding]
  | cons byte rest ih =>
      cases count with
      | zero => simp at fits
      | succ count =>
          have shifted : (holding (byte :: rest)).slice 1 count = (holding rest).slice 0 count := by
            apply Memory.slice_congr
            intro offset _
            simp [holding, Nat.add_comm 1]
          have later := ih (Nat.le_of_succ_le_succ fits)
          rw [Memory.slice, Nat.zero_add, shifted]
          simp only [List.takeWhile_cons, later]
          rfl

theorem cString_holding {text : Bytes} (fits : text.length ≤ 1024) :
    cString (holding text) = text.takeWhile (· ≠ 0) := takeWhile_holding fits

def typing (text : Bytes) (store : Store) (handed : List Bytes) : Client where
  globalLineBuf := holding text
  curLineBufOffset := text.length
  store := store
  handed := handed

theorem processContent_line (allocator : Allocator) {text done : Bytes}
    (plain : ∀ byte ∈ text, byte ≠ 10) (short : done.length + text.length < 1023) (rest : Bytes)
    (store : Store) (handed : List Bytes) :
    processContent allocator (text ++ 10 :: rest) (typing done store handed) =
      (parseSingleLine allocator ((done ++ text ++ [10]).takeWhile (· ≠ 0)) store).bind
        fun after => processContent allocator rest
          (typing [] after (handed ++ [(done ++ text ++ [10]).takeWhile (· ≠ 0)])) := by
  induction text generalizing done with
  | nil =>
      have room : (typing done store handed).curLineBufOffset < 1023 := by
        change done.length < 1023
        simpa using short
      have whole : ((typing done store handed).put 10).globalLineBuf = holding (done ++ [10]) :=
        holding_set done 10
      have fits : (done ++ [10]).length ≤ 1024 := by
        simp at short ⊢
        omega
      rw [List.nil_append, List.append_nil, processContent, if_pos room, if_pos rfl, Client.hand,
        whole, cString_holding fits, holding_clear fits, Option.bind_map]
      rfl
  | cons byte text ih =>
      have room : (typing done store handed).curLineBufOffset < 1023 := by
        change done.length < 1023
        omega
      have typed : ((typing done store handed).put byte).advance =
          typing (done ++ [byte]) store handed := by
        simp [Client.put, Client.advance, typing, holding_set]
      have longer : (done ++ [byte]).length + text.length < 1023 := by
        simp at short ⊢
        omega
      have onward := ih (fun other member => plain other (List.mem_cons_of_mem _ member)) longer
      rw [List.cons_append, processContent, if_pos room, if_neg (plain byte List.mem_cons_self),
        typed, onward]
      simp

theorem SentLine.seen_bytes (line : SentLine) :
    line.seen.bytes = (line.text ++ [10]).takeWhile (· ≠ 0) := by
  by_cases inside : (0 : UInt8) ∈ line.text
  · have stops : line.text.dropWhile (· ≠ 0) ≠ [] := by
      intro empty
      have all := List.dropWhile_eq_nil_iff.mp empty 0 inside
      simp at all
    rw [takeWhile_append_stop line.text stops]
    simp [Line.bytes, SentLine.seen, inside]
  · have all : ∀ byte ∈ line.text, decide (byte ≠ 0) = true := by
      intro byte member
      simp only [decide_eq_true_eq]
      rintro rfl
      exact inside member
    rw [List.takeWhile_append_of_pos all]
    simp only [Line.bytes, SentLine.seen, List.takeWhile_eq_self_iff.mpr all]
    simp [inside]

theorem processContent_sent (allocator : Allocator) (lines : List SentLine) (store : Store)
    (handed : List Bytes) :
    (processContent allocator (sent lines) (typing [] store handed)).map
        (fun result => result.2.store) = parseAll allocator lines store := by
  induction lines generalizing store handed with
  | nil => rfl
  | cons line rest ih =>
      have split : sent (line :: rest) = line.text ++ 10 :: sent rest := by simp [sent]
      rw [split, processContent_line allocator line.unbroken (by simpa using line.short),
        List.nil_append, ← line.seen_bytes, parseAll]
      cases parseSingleLine allocator line.seen.bytes store with
      | none => rfl
      | some after => exact ih after _

theorem fitsFrom_text {text : Bytes} (plain : ∀ byte ∈ text, byte ≠ 10) {offset : Nat}
    (short : offset + text.length < 1023) {rest : Bytes} (fits : fitsFrom 0 rest) :
    fitsFrom offset (text ++ 10 :: rest) := by
  induction text generalizing offset with
  | nil =>
      rw [List.nil_append, fitsFrom, if_pos (by simpa using short), if_pos rfl]
      exact fits
  | cons byte text ih =>
      rw [List.length_cons] at short
      rw [List.cons_append, fitsFrom, if_pos (by omega), if_neg (plain byte List.mem_cons_self)]
      exact ih (fun other member => plain other (List.mem_cons_of_mem _ member)) (by omega)

theorem fitsFrom_sent (lines : List SentLine) : fitsFrom 0 (sent lines) := by
  induction lines with
  | nil => trivial
  | cons line rest ih =>
      have split : sent (line :: rest) = line.text ++ 10 :: sent rest := by simp [sent]
      rw [split]
      exact fitsFrom_text line.unbroken (by simpa using line.short) ih

/-- Short lines reach the table one by one, however their text is cut. -/
theorem feed_sent (allocator : Allocator) (lines : List SentLine) {pieces : List Bytes}
    (cut : pieces.flatten = sent lines) :
    (feed allocator pieces startClient).map Client.store = parseAll allocator lines emptyStore := by
  have whole := feed_whole allocator pieces [] startClient (by
    rw [List.nil_append, cut]
    exact fitsFrom_sent lines)
  have start : startClient = typing [] emptyStore [] := rfl
  rw [List.nil_append, cut] at whole
  have stores := congrArg (Option.map Prod.snd) whole
  rw [Option.map_map, Option.map_map] at stores
  rw [← processContent_sent allocator lines emptyStore [], ← start]
  exact stores

end Buffer

section Table

theorem latest_none_of_keys {commands : List Command} {key : Bytes}
    (absent : key ∉ commands.filterMap Command.key) : latest commands key = none := by
  apply latest_append_of_unconcerned [] commands key
  intro command member concerned
  apply absent
  rw [List.mem_filterMap]
  refine ⟨command, member, ?_⟩
  cases command with
  | put other value => exact congrArg some concerned
  | delete other => exact congrArg some concerned
  | malformed => exact concerned.elim

theorem cfkv_isSome_iff {store : Store} {commands : List Command} (sound : Sound ⟨store, commands⟩)
    (key : Bytes) : (store.cfkv key).isSome ↔ (latest commands key).isSome := by
  have looked := congrArg Option.isSome (sound.right key)
  simp only [Store.lookup, Option.isSome_map] at looked
  rw [looked]

theorem parseSingleLine_sound {allocator : Allocator} {store after : Store}
    {commands : List Command} {line : SentLine} (sound : Sound ⟨store, commands⟩)
    (own : ∀ key, line.command.key = some key → key ∉ commands.filterMap Command.key)
    (parsed : parseSingleLine allocator line.seen.bytes store = some after) :
    Sound ⟨after, commands ++ [line.command]⟩ := by
  have stepped : (tableMachine allocator).step ⟨store, commands⟩ line.seen =
      some ⟨after, commands ++ [line.command]⟩ := by
    change (parseSingleLine allocator line.seen.bytes store).map _ = _
    rw [parsed]
    rfl
  apply (step_right_iff sound stepped).2
  intro key value keyPtr valPtr address command entry _
  have fresh := own key (by rw [SentLine.command, command]; rfl)
  have absent := (cfkv_isSome_iff sound key).mp (by rw [entry]; rfl)
  rw [latest_none_of_keys fresh] at absent
  contradiction

theorem parseAll_sound {allocator : Allocator} {lines : List SentLine} {store after : Store}
    {commands : List Command} (sound : Sound ⟨store, commands⟩)
    (distinct : ((commands ++ lines.map SentLine.command).filterMap Command.key).Nodup)
    (parsed : parseAll allocator lines store = some after) :
    Sound ⟨after, commands ++ lines.map SentLine.command⟩ := by
  induction lines generalizing store commands with
  | nil =>
      obtain rfl := Option.some.inj parsed
      rw [List.map_nil, List.append_nil]
      exact sound
  | cons line rest ih =>
      obtain ⟨middle, first, later⟩ := Option.bind_eq_some_iff.mp parsed
      have split : commands ++ (line :: rest).map SentLine.command =
          (commands ++ [line.command]) ++ rest.map SentLine.command := by simp
      have own : ∀ key, line.command.key = some key →
          key ∉ commands.filterMap Command.key := by
        intro key named earlier
        rw [List.filterMap_append, List.map_cons, List.filterMap_cons, named] at distinct
        exact (List.nodup_append.mp distinct).2.2 key earlier key List.mem_cons_self rfl
      rw [split] at distinct ⊢
      exact ih (parseSingleLine_sound sound own first) distinct later

theorem parseAll_start {allocator : Allocator} {lines : List SentLine} {after : Store}
    (distinct : (lines.filterMap fun line => line.command.key).Nodup)
    (parsed : parseAll allocator lines emptyStore = some after) :
    Sound ⟨after, lines.map SentLine.command⟩ := by
  have start : Sound ⟨emptyStore, []⟩ := sound_start
  refine parseAll_sound start ?_ parsed
  rw [List.nil_append, List.filterMap_map]
  exact distinct

end Table

section Words

/-- A string that the grammar can store. -/
structure Word (word : Bytes) : Prop where
  nonempty : word ≠ []
  solid : ∀ byte ∈ word, byte ≠ 0 ∧ byte ≠ 10 ∧ byte ≠ 32

theorem words_eq_cons {text word : Bytes} {more : List Bytes} (split : words text = word :: more) :
    word ≠ [] ∧ (∀ byte ∈ word, byte ∈ text ∧ byte ≠ 32) ∧
      ∃ tail, words tail = more ∧ word.length + tail.length ≤ text.length ∧
        (∀ byte ∈ tail, byte ∈ text) ∧ ∀ byte others, tail = byte :: others → byte = 32 := by
  have suffix := List.dropWhile_suffix (· = 32) (l := text)
  rw [← words_dropWhile] at split
  cases left : text.dropWhile (· = 32) with
  | nil =>
      rw [left] at split
      contradiction
  | cons first rest =>
      rw [left] at suffix split
      have solid : first ≠ 32 := by simpa using stop_of_dropWhile left
      rw [words_head solid, List.cons.injEq] at split
      obtain ⟨rfl, rfl⟩ := split
      have shorter := suffix.length_le
      have parts := length_takeWhile_add notBlank rest
      refine ⟨List.cons_ne_nil _ _, ?_, rest.dropWhile notBlank, rfl, ?_, ?_, ?_⟩
      · intro byte member
        rcases List.mem_cons.mp member with rfl | inside
        · exact ⟨suffix.subset List.mem_cons_self, solid⟩
        · have kept := List.mem_takeWhile_imp inside
          refine ⟨suffix.subset (List.mem_cons_of_mem _ ((List.takeWhile_subset _) inside)), ?_⟩
          simpa [notBlank] using kept
      · simp only [List.length_cons] at parts shorter ⊢
        omega
      · intro byte member
        exact suffix.subset (List.mem_cons_of_mem _ ((List.dropWhile_suffix _).subset member))
      · intro byte others tail
        simpa [notBlank] using stop_of_dropWhile tail

theorem put_words {line : SentLine} {key value : Bytes} (put : line.command = .put key value) :
    Word key ∧ Word value ∧ key.length + 1 + value.length ≤ line.text.length ∧
      isDelete value = false := by
  have printable := line.printable
  have shorter : (line.text.takeWhile (· ≠ 0)).length ≤ line.text.length :=
    (List.takeWhile_prefix _).length_le
  have seen : line.seen.text = line.text.takeWhile (· ≠ 0) := rfl
  rw [SentLine.command, commandOf, seen] at put
  generalize line.text.takeWhile (· ≠ 0) = text at printable shorter put
  split at put
  · rename_i name stored more split
    by_cases deletes : isDelete stored = true
    · simp [deletes] at put
    · simp only [deletes, Bool.false_eq_true, if_false, Command.put.injEq] at put
      obtain ⟨rfl, rfl⟩ := put
      obtain ⟨named, nameBytes, tail, behind, nameLength, inside, blank⟩ := words_eq_cons split
      obtain ⟨other, rest, rfl⟩ : ∃ other rest, tail = other :: rest := by
        cases tail with
        | nil => contradiction
        | cons other rest => exact ⟨other, rest, rfl⟩
      obtain rfl := blank other rest rfl
      rw [words_blank] at behind
      obtain ⟨filled, storedBytes, tail, -, storedLength, -, -⟩ := words_eq_cons behind
      refine ⟨⟨named, ?_⟩, ⟨filled, ?_⟩, ?_, by simpa using deletes⟩
      · intro byte member
        have known := nameBytes byte member
        exact ⟨(printable byte known.1).1, (printable byte known.1).2, known.2⟩
      · intro byte member
        have known := storedBytes byte member
        have there := printable byte (inside byte (List.mem_cons_of_mem _ known.1))
        exact ⟨there.1, there.2, known.2⟩
      · rw [List.length_cons] at nameLength
        omega
  · contradiction

theorem commandOf_words {key value : Bytes} (named : Word key) (stored : Word value)
    (kept : isDelete value = false) : commandOf (key ++ 32 :: value) = .put key value := by
  have split : words (key ++ 32 :: value) = [key, value] := by
    rw [words_cons named.nonempty, words_single stored.nonempty]
    · intro byte member
      simpa [notBlank] using (stored.solid byte member).2.2
    · intro byte member
      simpa [notBlank] using (named.solid byte member).2.2
  rw [commandOf, split]
  simp [kept]

theorem exists_printed {key value : Bytes} (named : Word key) (stored : Word value)
    (kept : isDelete value = false) (short : key.length + 1 + value.length < 1023) :
    ∃ line : SentLine, line.text = key ++ 32 :: value ∧ line.command = .put key value := by
  have bytes : ∀ byte ∈ key ++ 32 :: value, byte ≠ 0 ∧ byte ≠ 10 := by
    intro byte member
    rcases List.mem_append.mp member with inside | behind
    · exact ⟨(named.solid byte inside).1, (named.solid byte inside).2.1⟩
    · rcases List.mem_cons.mp behind with rfl | inside
      · exact ⟨by decide, by decide⟩
      · exact ⟨(stored.solid byte inside).1, (stored.solid byte inside).2.1⟩
  have whole : (key ++ 32 :: value).takeWhile (· ≠ 0) = key ++ 32 :: value := by
    rw [List.takeWhile_eq_self_iff]
    intro byte member
    simpa using (bytes byte member).1
  refine ⟨⟨key ++ 32 :: value, fun byte member => (bytes byte member).2, ?_⟩, rfl, ?_⟩
  · simp only [List.length_append, List.length_cons]
    omega
  · change commandOf ((key ++ 32 :: value).takeWhile (· ≠ 0)) = _
    rw [whole, commandOf_words named stored kept]

end Words

section Printed

variable {store : Store} {lines : List SentLine}

/-- The entry of a key, as the lines that built the table left it. -/
theorem exists_entry (sound : Sound ⟨store, lines.map SentLine.command⟩) {key : Bytes}
    (present : (store.cfkv key).isSome) :
    ∃ value, latest (lines.map SentLine.command) key = some value ∧
      dumpEntry store key = some (key ++ 32 :: value ++ [10]) ∧
      ∃ line : SentLine, line.text = key ++ 32 :: value ∧ line.command = .put key value := by
  obtain ⟨value, found⟩ := Option.isSome_iff_exists.mp ((cfkv_isSome_iff sound key).mp present)
  obtain ⟨⟨keyPtr, valPtr⟩, entry⟩ := Option.isSome_iff_exists.mp present
  have name := sound.owns.key_read key keyPtr valPtr entry
  have looked := sound.right key
  simp only [Store.lookup, entry, Option.map_some, found, Option.some.injEq] at looked
  obtain ⟨earlier, later, history, -⟩ := (latest_eq_some_iff _ _ _).mp found
  have member : Command.put key value ∈ lines.map SentLine.command := by
    rw [history]
    simp
  obtain ⟨line, -, put⟩ := List.mem_map.mp member
  obtain ⟨named, stored, shorter, kept⟩ := put_words put
  have short := line.short
  refine ⟨value, found, ?_, exists_printed named stored kept (by omega)⟩
  simp [dumpEntry, entry, name, looked]

theorem exists_dump (sound : Sound ⟨store, lines.map SentLine.command⟩) {order : List Bytes}
    (present : ∀ key ∈ order, (store.cfkv key).isSome) :
    ∃ printed : List SentLine, dumpHtable store order = some (sent printed) ∧
      printed.map SentLine.command = order.map fun key =>
        .put key ((latest (lines.map SentLine.command) key).getD []) := by
  induction order with
  | nil => exact ⟨[], rfl, rfl⟩
  | cons key rest ih =>
      obtain ⟨printed, dumped, commands⟩ := ih fun other member =>
        present other (List.mem_cons_of_mem _ member)
      obtain ⟨value, found, entry, line, text, put⟩ :=
        exists_entry sound (present key List.mem_cons_self)
      refine ⟨line :: printed, ?_, ?_⟩
      · rw [dumpHtable, entry, Option.bind_some, dumped, Option.map_some]
        simp [sent, text]
      · rw [List.map_cons, put, commands, List.map_cons, found]
        rfl

theorem latest_puts (value : Bytes → Bytes) (order : List Bytes) (key : Bytes) :
    latest (order.map fun name => .put name (value name)) key =
      if key ∈ order then some (value key) else none := by
  induction order using List.reverseRecOn with
  | nil => rfl
  | append_singleton earlier name ih =>
      rw [List.map_append, List.map_singleton, latest_snoc, ih]
      by_cases same : name = key
      · simp [Command.apply, same]
      · simp [Command.apply, same, Ne.symm same]

end Printed

/-- A table built from short lines with distinct keys is printed without a gap, and
its text leads back to it in any cut and for any iteration order. -/
theorem dump_round_trip (allocator loader : Allocator) (lines : List SentLine)
    (distinct : (lines.filterMap fun line => line.command.key).Nodup) {pieces : List Bytes}
    (cut : pieces.flatten = sent lines) {client : Client}
    (built : feed allocator pieces startClient = some client) {order : List Bytes}
    (iterates : Iterates client.store order) :
    ∃ text, dumpHtable client.store order = some text ∧
      ∀ parts, parts.flatten = text → ReadsBack loader parts client.store := by
  have parsed : parseAll allocator lines emptyStore = some client.store := by
    rw [← feed_sent allocator lines cut, built]
    rfl
  have sound := parseAll_start distinct parsed
  obtain ⟨printed, dumped, commands⟩ := exists_dump sound fun key member =>
    (iterates.complete key).mp member
  refine ⟨sent printed, dumped, ?_⟩
  intro parts whole
  constructor
  · intro final fed
    have loaded : parseAll loader printed emptyStore = some final.store := by
      rw [← feed_sent loader printed whole, fed]
      rfl
    have names : (printed.filterMap fun line => line.command.key) = order := by
      calc (printed.filterMap fun line => line.command.key)
          = (printed.map SentLine.command).filterMap Command.key := by
            rw [List.filterMap_map]
            rfl
        _ = order := by
            rw [commands, List.filterMap_map]
            exact List.filterMap_some
    have again := parseAll_start (names ▸ iterates.once) loaded
    funext key
    rw [again.right, sound.right, commands, latest_puts]
    by_cases member : key ∈ order
    · obtain ⟨value, found⟩ := Option.isSome_iff_exists.mp
        ((cfkv_isSome_iff sound key).mp ((iterates.complete key).mp member))
      simp [member, found]
    · have absent : latest (lines.map SentLine.command) key = none := by
        rw [← Option.not_isSome_iff_eq_none, ← cfkv_isSome_iff sound, ← iterates.complete]
        exact member
      simp [member, absent]
  · intro lasting
    obtain ⟨final, fed, -⟩ := feed_trackAll lasting parts startClient
    rw [fed]
    rfl

-- `k v` and ` a  b c`
def twoLines : List SentLine :=
  [⟨[107, 32, 118], by decide +kernel, by decide⟩,
    ⟨[32, 97, 32, 32, 98, 32, 99], by decide +kernel, by decide⟩]

theorem dump_round_trip_two :
    ∃ client, feed lastingAllocator [[107, 32], [118, 10, 32, 97, 32, 32, 98, 32, 99, 10]]
        startClient = some client ∧
      ∃ text, dumpHtable client.store [[97], [107]] = some text ∧
        ∀ parts, parts.flatten = text → ReadsBack lastingAllocator parts client.store := by
  have cut : [[107, 32], [118, 10, 32, 97, 32, 32, 98, 32, 99, 10]].flatten = sent twoLines := by
    decide
  have commands : twoLines.map SentLine.command = [.put [107] [118], .put [97] [98]] := by
    decide
  have distinct : (twoLines.filterMap fun line => line.command.key).Nodup := by
    decide
  obtain ⟨client, built, -⟩ := feed_trackAll lastingAllocator_lasting
    [[107, 32], [118, 10, 32, 97, 32, 32, 98, 32, 99, 10]] startClient
  have parsed : parseAll lastingAllocator twoLines emptyStore = some client.store := by
    rw [← feed_sent lastingAllocator twoLines cut, built]
    rfl
  have sound := parseAll_start distinct parsed
  refine ⟨client, built, dump_round_trip lastingAllocator lastingAllocator twoLines distinct cut
    built ⟨by decide, ?_⟩⟩
  intro key
  rw [cfkv_isSome_iff sound, commands]
  simp only [latest, List.foldl_cons, List.foldl_nil, Command.apply, List.mem_cons,
    List.not_mem_nil, or_false]
  by_cases second : key = [97]
  · simp [second]
  · by_cases first : key = [107]
    · simp [first]
    · simp [first, second, Ne.symm first, Ne.symm second]

end DirtyCode.ConfCli
