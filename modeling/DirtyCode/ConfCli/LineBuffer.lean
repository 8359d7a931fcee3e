import DirtyCode.ConfCli.Table
import DirtyCode.Lib.Memory

/-!
`process_content` of `ConfCli.c`: the line assembler behind the reads of
`worker_thread`, and when the way a stream is cut into reads does not matter.
-/

namespace DirtyCode.ConfCli

open Lib

structure Client where
  globalLineBuf : Memory
  curLineBufOffset : Nat
  store : Store
  handed : List Bytes

def startClient : Client where
  globalLineBuf := fun _ => 0
  curLineBufOffset := 0
  store := emptyStore
  handed := []

def cString (globalLineBuf : Memory) : Bytes := (globalLineBuf.slice 0 1024).takeWhile (· ≠ 0)

def Client.put (client : Client) (byte : UInt8) : Client :=
  { client with globalLineBuf := client.globalLineBuf.set client.curLineBufOffset byte }

def Client.hand (allocator : Allocator) (client : Client) : Option Client :=
  (parseSingleLine allocator (cString client.globalLineBuf) client.store).map fun store =>
    { globalLineBuf := client.globalLineBuf.memcpy 0 (fun _ => 0) 1024
      curLineBufOffset := 0
      store := store
      handed := client.handed ++ [cString client.globalLineBuf] }

def Client.advance (client : Client) : Client :=
  { client with curLineBufOffset := client.curLineBufOffset + 1 }

def Client.overflow (client : Client) : Client := { client with curLineBufOffset := 0 }

def processContent (allocator : Allocator) : Bytes → Client → Option (Nat × Client)
  | [], client => some (0, client)
  | byte :: rest, client =>
      if client.curLineBufOffset < 1023 then
        if byte = 10 then
          ((client.put byte).hand allocator).bind fun after => processContent allocator rest after
        else processContent allocator rest (client.put byte).advance
      else some (1, client.overflow)

def feed (allocator : Allocator) : List Bytes → Client → Option Client
  | [], client => some client
  | piece :: pieces, client =>
      (processContent allocator piece client).bind fun result => feed allocator pieces result.2

def IsCut (stream : Bytes) (pieces : List Bytes) : Prop :=
  pieces.flatten = stream ∧ ∀ piece ∈ pieces, 1 ≤ piece.length ∧ piece.length ≤ 1024

def Client.seen (client : Client) : List Bytes × Store := (client.handed, client.store)

def Agree (allocator : Allocator) (first second : List Bytes) : Prop :=
  (feed allocator first startClient).map Client.seen =
    (feed allocator second startClient).map Client.seen

/-- Behind every 1023 bytes of an unfinished line at most the very next byte is
a newline. -/
def LinesFit (stream : Bytes) : Prop :=
  ∀ before line rest, stream = before ++ (line ++ rest) →
    (before = [] ∨ before.getLast? = some 10) → line.length = 1023 → (∀ byte ∈ line, byte ≠ 10) →
      ∀ byte ∈ rest.tail, byte ≠ 10

/-- The same condition, read along the stream from an offset in the buffer. -/
def fitsFrom : Nat → Bytes → Prop
  | _, [] => True
  | offset, byte :: rest =>
      if offset < 1023 then if byte = 10 then fitsFrom 0 rest else fitsFrom (offset + 1) rest
      else ∀ other ∈ rest, other ≠ 10

@[simp] theorem seen_put_advance (client : Client) (byte : UInt8) :
    (client.put byte).advance.seen = client.seen := rfl

@[simp] theorem seen_overflow (client : Client) : client.overflow.seen = client.seen := rfl

theorem hand_offset {allocator : Allocator} {client after : Client}
    (handed : client.hand allocator = some after) : after.curLineBufOffset = 0 := by
  obtain ⟨store, -, rfl⟩ := Option.map_eq_some_iff.mp handed
  rfl

theorem processContent_quiet (allocator : Allocator) {piece : Bytes}
    (quiet : ∀ byte ∈ piece, byte ≠ 10) (client : Client) :
    ∃ result, processContent allocator piece client = some result ∧
      result.2.seen = client.seen := by
  induction piece generalizing client with
  | nil => exact ⟨_, rfl, rfl⟩
  | cons byte rest ih =>
      have plain : byte ≠ 10 := quiet byte List.mem_cons_self
      rw [processContent, if_neg plain]
      by_cases room : client.curLineBufOffset < 1023
      · rw [if_pos room]
        exact ih (fun other member => quiet other (List.mem_cons_of_mem _ member)) _
      · rw [if_neg room]
        exact ⟨_, rfl, rfl⟩

theorem feed_quiet (allocator : Allocator) {pieces : List Bytes}
    (quiet : ∀ byte ∈ pieces.flatten, byte ≠ 10) (client : Client) :
    (feed allocator pieces client).map Client.seen = some client.seen := by
  induction pieces generalizing client with
  | nil => rfl
  | cons piece rest ih =>
      rw [List.flatten_cons] at quiet
      obtain ⟨result, processed, same⟩ := processContent_quiet allocator
        (fun byte member => quiet byte (List.mem_append_left _ member)) client
      rw [feed, processed, Option.bind_some, ← same]
      exact ih (fun byte member => quiet byte (List.mem_append_right _ member)) _

/-- A cut of a stream that fits is handled as the whole stream in one read. -/
theorem feed_whole (allocator : Allocator) (pieces : List Bytes) (piece : Bytes) (client : Client)
    (fits : fitsFrom client.curLineBufOffset (piece ++ pieces.flatten)) :
    ((processContent allocator piece client).bind
        fun result => feed allocator pieces result.2).map Client.seen =
      (processContent allocator (piece ++ pieces.flatten) client).map
        fun result => result.2.seen := by
  induction pieces generalizing piece client with
  | nil =>
      rw [List.flatten_nil, List.append_nil]
      cases processContent allocator piece client with
      | none => rfl
      | some result => rfl
  | cons next rest ihPieces =>
      induction piece generalizing client with
      | nil =>
          rw [List.nil_append, List.flatten_cons] at fits ⊢
          exact ihPieces next client fits
      | cons byte more ihPiece =>
          rw [List.cons_append, fitsFrom] at fits
          rw [List.cons_append, processContent, processContent]
          by_cases room : client.curLineBufOffset < 1023
          · rw [if_pos room] at fits
            rw [if_pos room, if_pos room]
            by_cases newline : byte = 10
            · rw [if_pos newline] at fits
              rw [if_pos newline, if_pos newline]
              cases handed : (client.put byte).hand allocator with
              | none => rfl
              | some after =>
                  rw [Option.bind_some, Option.bind_some]
                  apply ihPiece
                  rw [hand_offset handed]
                  exact fits
            · rw [if_neg newline] at fits
              rw [if_neg newline, if_neg newline]
              exact ihPiece _ fits
          · rw [if_neg room] at fits
            rw [if_neg room, if_neg room, Option.bind_some]
            exact feed_quiet allocator
              (fun other member => fits other (List.mem_append_right _ member)) _

theorem feed_fits (allocator : Allocator) {stream : Bytes} {pieces : List Bytes}
    (cut : IsCut stream pieces) (fits : fitsFrom 0 stream) :
    (feed allocator pieces startClient).map Client.seen =
      (processContent allocator stream startClient).map fun result => result.2.seen := by
  have whole := feed_whole allocator pieces [] startClient
    (by rw [List.nil_append, cut.1]; exact fits)
  rw [List.nil_append, cut.1] at whole
  exact whole

theorem fitsFrom_line {line rest : Bytes} {offset : Nat} (plain : ∀ byte ∈ line, byte ≠ 10)
    (fills : offset + line.length = 1023) (fits : fitsFrom offset (line ++ rest)) :
    ∀ byte ∈ rest.tail, byte ≠ 10 := by
  induction line generalizing offset with
  | nil =>
      cases rest with
      | nil => simp
      | cons byte rest =>
          rw [List.nil_append, fitsFrom, if_neg (by simp at fills; omega)] at fits
          exact fits
  | cons byte line ih =>
      rw [List.length_cons] at fills
      rw [List.cons_append, fitsFrom, if_pos (by omega),
        if_neg (plain byte List.mem_cons_self)] at fits
      exact ih (fun other member => plain other (List.mem_cons_of_mem _ member)) (by omega) fits

theorem fitsFrom_behind {before rest : Bytes} {offset : Nat}
    (fits : fitsFrom offset (before ++ 10 :: rest)) :
    fitsFrom 0 rest ∨ ∀ byte ∈ rest, byte ≠ 10 := by
  induction before generalizing offset with
  | nil =>
      rw [List.nil_append, fitsFrom] at fits
      by_cases room : offset < 1023
      · rw [if_pos room, if_pos rfl] at fits
        exact .inl fits
      · rw [if_neg room] at fits
        exact .inr fits
  | cons byte before ih =>
      rw [List.cons_append, fitsFrom] at fits
      by_cases room : offset < 1023
      · rw [if_pos room] at fits
        by_cases newline : byte = 10
        · rw [if_pos newline] at fits
          exact ih fits
        · rw [if_neg newline] at fits
          exact ih fits
      · rw [if_neg room] at fits
        exact .inr fun other member =>
          fits other (List.mem_append_right _ (List.mem_cons_of_mem _ member))

theorem linesFit_of_fitsFrom {stream : Bytes} (fits : fitsFrom 0 stream) : LinesFit stream := by
  rintro before line rest rfl start full plain
  rcases List.eq_nil_or_concat before with rfl | ⟨earlier, last, rfl⟩
  · exact fitsFrom_line plain (by omega) fits
  · have newline : last = 10 := by simpa using start
    subst newline
    rw [List.concat_eq_append, List.append_assoc, List.singleton_append] at fits
    rcases fitsFrom_behind fits with fresh | quiet
    · exact fitsFrom_line plain (by omega) fresh
    · intro byte member
      exact quiet byte (List.mem_append_right _ (List.mem_of_mem_tail member))

theorem linesFit_behind {line rest : Bytes} (fit : LinesFit (line ++ 10 :: rest)) :
    LinesFit rest := by
  rintro before long after rfl start full plain
  refine fit (line ++ 10 :: before) long after (by simp) (.inr ?_) full plain
  rcases start with rfl | ends
  · simp
  · rw [List.getLast?_append, List.getLast?_cons, ends]
    rfl

theorem fitsFrom_of_linesFit {stream : Bytes} (line : Bytes) (plain : ∀ byte ∈ line, byte ≠ 10)
    (short : line.length ≤ 1023) (fit : LinesFit (line ++ stream)) :
    fitsFrom line.length stream := by
  induction stream generalizing line with
  | nil => trivial
  | cons byte rest ih =>
      rw [fitsFrom]
      by_cases room : line.length < 1023
      · rw [if_pos room]
        by_cases newline : byte = 10
        · subst newline
          rw [if_pos rfl]
          exact ih [] (by simp) (by simp) (linesFit_behind fit)
        · rw [if_neg newline]
          have longer : ∀ other ∈ line ++ [byte], other ≠ 10 := by
            intro other member
            rcases List.mem_append.mp member with inside | last
            · exact plain other inside
            · rw [List.mem_singleton.mp last]
              exact newline
          have grown := ih (line ++ [byte]) longer (by simp; omega) (by simpa using fit)
          simpa using grown
      · rw [if_neg room]
        exact fit [] line (byte :: rest) rfl (.inl rfl) (by omega) plain

theorem linesFit_iff (stream : Bytes) : LinesFit stream ↔ fitsFrom 0 stream := by
  constructor
  · intro fit
    exact fitsFrom_of_linesFit [] (by simp) (by simp) fit
  · exact linesFit_of_fitsFrom

/-- The offset and the number of lines handed on, which is all that the cut decides. -/
def track : Bytes → Nat × Nat → Nat × Nat
  | [], state => state
  | byte :: rest, state =>
      if state.1 < 1023 then
        if byte = 10 then track rest (0, state.2 + 1) else track rest (state.1 + 1, state.2)
      else (0, state.2)

def trackAll (pieces : List Bytes) (state : Nat × Nat) : Nat × Nat :=
  pieces.foldl (fun reached piece => track piece reached) state

def singles (text : Bytes) : List Bytes := text.map fun byte => [byte]

theorem flatten_singles (text : Bytes) : (singles text).flatten = text := by
  induction text with
  | nil => rfl
  | cons byte rest ih => exact congrArg (List.cons byte) ih

theorem isCut_singles (text : Bytes) : IsCut text (singles text) := by
  refine ⟨flatten_singles text, ?_⟩
  intro piece member
  obtain ⟨byte, -, rfl⟩ := List.mem_map.mp member
  exact ⟨le_rfl, by simp⟩

theorem IsCut.append {first second : Bytes} {pieces more : List Bytes} (cut : IsCut first pieces)
    (next : IsCut second more) : IsCut (first ++ second) (pieces ++ more) := by
  refine ⟨by rw [List.flatten_append, cut.1, next.1], ?_⟩
  intro piece member
  rcases List.mem_append.mp member with inside | later
  · exact cut.2 piece inside
  · exact next.2 piece later

theorem isCut_piece {piece : Bytes} (nonempty : 1 ≤ piece.length) (short : piece.length ≤ 1024) :
    IsCut piece [piece] := by
  refine ⟨by simp, ?_⟩
  intro other member
  rw [List.mem_singleton.mp member]
  exact ⟨nonempty, short⟩

theorem trackAll_append (first second : List Bytes) (state : Nat × Nat) :
    trackAll (first ++ second) state = trackAll second (trackAll first state) := by
  rw [trackAll, List.foldl_append]
  rfl

theorem track_shift (piece : Bytes) (offset lines extra : Nat) :
    track piece (offset, lines + extra) =
      ((track piece (offset, lines)).1, (track piece (offset, lines)).2 + extra) := by
  induction piece generalizing offset lines with
  | nil => rfl
  | cons byte rest ih =>
      simp only [track]
      split
      · split
        · rw [Nat.add_right_comm]
          exact ih 0 (lines + 1)
        · exact ih (offset + 1) lines
      · rfl

theorem trackAll_shift (pieces : List Bytes) (offset lines extra : Nat) :
    trackAll pieces (offset, lines + extra) =
      ((trackAll pieces (offset, lines)).1, (trackAll pieces (offset, lines)).2 + extra) := by
  induction pieces generalizing offset lines with
  | nil => rfl
  | cons piece rest ih =>
      simp only [trackAll, List.foldl_cons] at ih ⊢
      rw [track_shift]
      exact ih _ _

theorem trackAll_quiet {text : Bytes} (quiet : ∀ byte ∈ text, byte ≠ 10) (offset : Nat)
    (room : offset + text.length ≤ 1023) (lines : Nat) :
    trackAll (singles text) (offset, lines) = (offset + text.length, lines) := by
  induction text generalizing offset with
  | nil => rfl
  | cons byte rest ih =>
      rw [List.length_cons] at room
      have below : offset < 1023 := by omega
      have step : track [byte] (offset, lines) = (offset + 1, lines) := by
        simp [track, below, quiet byte List.mem_cons_self]
      have onward := ih (fun other member => quiet other (List.mem_cons_of_mem _ member))
        (offset + 1) (by omega)
      calc trackAll (singles (byte :: rest)) (offset, lines)
          = trackAll (singles rest) (track [byte] (offset, lines)) := rfl
        _ = (offset + (rest.length + 1), lines) := by rw [step, onward, Nat.add_right_comm]; rfl

theorem track_full {piece : Bytes} (nonempty : piece ≠ []) (lines : Nat) :
    track piece (1023, lines) = (0, lines) := by
  cases piece with
  | nil => contradiction
  | cons byte rest => rfl

def Apart (stream : Bytes) (state : Nat × Nat) : Prop :=
  ∃ first second, IsCut stream first ∧ IsCut stream second ∧
    (trackAll first state).2 ≠ (trackAll second state).2

theorem Apart.after {piece : List Bytes} {text stream : Bytes} {state middle : Nat × Nat}
    (cut : IsCut text piece) (reached : trackAll piece state = middle)
    (apart : Apart stream middle) : Apart (text ++ stream) state := by
  obtain ⟨first, second, firstCut, secondCut, different⟩ := apart
  refine ⟨piece ++ first, piece ++ second, cut.append firstCut, cut.append secondCut, ?_⟩
  rw [trackAll_append, trackAll_append, reached]
  exact different

theorem apart_of_extra {text rest : Bytes} {first second : List Bytes} {state : Nat × Nat}
    {lines : Nat} (firstCut : IsCut text first) (secondCut : IsCut text second)
    (fewer : trackAll first state = (0, lines)) (more : trackAll second state = (0, lines + 1)) :
    Apart (text ++ rest) state := by
  refine ⟨first ++ singles rest, second ++ singles rest, firstCut.append (isCut_singles rest),
    secondCut.append (isCut_singles rest), ?_⟩
  rw [trackAll_append, trackAll_append, fewer, more, trackAll_shift]
  simp

section

variable {byte : UInt8} {front back : Bytes}

theorem track_drops (lines : Nat) : trackAll [[byte]] (1023, lines) = (0, lines) :=
  track_full (List.cons_ne_nil byte []) lines

theorem apart_short (short : front.length < 1023) (lines : Nat) :
    Apart ((byte :: front ++ [10]) ++ back) (1023, lines) := by
  have whole : IsCut (byte :: front ++ [10]) [byte :: front ++ [10]] :=
    isCut_piece (by simp) (by simp; omega)
  have parted : IsCut (byte :: front ++ [10]) ([byte :: front] ++ [[10]]) :=
    (isCut_piece (by simp) (by simp; omega)).append (isCut_piece (by simp) (by simp))
  refine apart_of_extra whole parted (track_full (by simp) lines) ?_
  have lost : trackAll [byte :: front] (1023, lines) = (0, lines) := track_full (by simp) lines
  rw [trackAll_append, lost]
  rfl

theorem apart_exact (quiet : ∀ other ∈ front, other ≠ 10) (exact_ : front.length = 1023)
    (lines : Nat) : Apart ((byte :: front ++ [10]) ++ back) (1023, lines) := by
  obtain ⟨next, others, rfl⟩ : ∃ next others, front = next :: others := by
    cases front with
    | nil => simp at exact_
    | cons next others => exact ⟨next, others, rfl⟩
  have endCut : IsCut [10] [[10]] := isCut_piece (by simp) (by simp)
  have byteCut : IsCut [byte] [[byte]] := isCut_piece (by simp) (by simp)
  have one : IsCut (byte :: (next :: others) ++ [10])
      (([[byte]] ++ singles (next :: others)) ++ [[10]]) :=
    (byteCut.append (isCut_singles _)).append endCut
  have pair : IsCut [byte, next] [[byte, next]] := isCut_piece (by simp) (by simp)
  have two : IsCut (byte :: (next :: others) ++ [10])
      (([[byte, next]] ++ singles others) ++ [[10]]) :=
    (pair.append (isCut_singles _)).append endCut
  have later : ∀ other ∈ others, other ≠ 10 := by
    intro other member
    exact quiet other (List.mem_cons_of_mem _ member)
  rw [List.length_cons] at exact_
  have fewer : trackAll (([[byte]] ++ singles (next :: others)) ++ [[10]]) (1023, lines) =
      (0, lines) := by
    rw [trackAll_append, trackAll_append, track_drops, trackAll_quiet quiet 0 (by simp; omega),
      List.length_cons, exact_]
    exact track_full (by simp) lines
  have more : trackAll (([[byte, next]] ++ singles others) ++ [[10]]) (1023, lines) =
      (0, lines + 1) := by
    have lost : trackAll [[byte, next]] (1023, lines) = (0, lines) := rfl
    have count : 0 + others.length = 1022 := by omega
    rw [trackAll_append, trackAll_append, lost, trackAll_quiet later 0 (by omega), count]
    simp [trackAll, track]
  exact apart_of_extra one two fewer more

theorem apart_long (quiet : ∀ other ∈ front, other ≠ 10) (long : 1023 < front.length)
    (lines : Nat) : ∃ next others, others.length < front.length ∧
      (Apart (next :: (others ++ 10 :: back)) (1023, lines) →
        Apart (byte :: (front ++ 10 :: back)) (1023, lines)) := by
  have cutAt : front.drop 1023 ≠ [] := by
    intro empty
    have bound := List.drop_eq_nil_iff.mp empty
    omega
  obtain ⟨next, others, tail⟩ := List.exists_cons_of_ne_nil cutAt
  have filled : (front.take 1023).length = 1023 := by
    rw [List.length_take]
    omega
  have shape : byte :: (front ++ 10 :: back) =
      ([byte] ++ front.take 1023) ++ (next :: (others ++ 10 :: back)) := by
    calc byte :: (front ++ 10 :: back)
        = byte :: ((front.take 1023 ++ front.drop 1023) ++ 10 :: back) := by
          rw [List.take_append_drop]
      _ = ([byte] ++ front.take 1023) ++ (next :: (others ++ 10 :: back)) := by
          rw [tail]
          simp
  have beginning : ∀ other ∈ front.take 1023, other ≠ 10 := by
    intro other member
    exact quiet other (List.mem_of_mem_take member)
  have byteCut : IsCut [byte] [[byte]] := isCut_piece (by simp) (by simp)
  have again : trackAll ([[byte]] ++ singles (front.take 1023)) (1023, lines) = (1023, lines) := by
    rw [trackAll_append, track_drops, trackAll_quiet beginning 0 (by omega), filled]
  refine ⟨next, others, ?_, ?_⟩
  · have total := congrArg List.length tail
    simp only [List.length_drop, List.length_cons] at total
    omega
  · intro closer
    rw [shape]
    exact Apart.after (byteCut.append (isCut_singles _)) again closer

end

theorem apart_full {byte : UInt8} {rest : Bytes} (there : (10 : UInt8) ∈ rest) (lines : Nat) :
    Apart (byte :: rest) (1023, lines) := by
  induction size_eq : rest.length using Nat.strongRecOn generalizing byte rest with
  | ind size ih =>
      obtain ⟨front, back, rfl, first⟩ := List.eq_append_cons_of_mem there
      have quiet : ∀ other ∈ front, other ≠ 10 := by
        rintro other member rfl
        exact first member
      have split : byte :: (front ++ 10 :: back) = (byte :: front ++ [10]) ++ back := by simp
      rcases Nat.lt_trichotomy front.length 1023 with short | exact_ | long
      · rw [split]
        exact apart_short short lines
      · rw [split]
        exact apart_exact quiet exact_ lines
      · obtain ⟨next, others, closer, reaches⟩ := apart_long quiet long lines
        have shorter : (others ++ 10 :: back).length < size := by
          rw [← size_eq]
          simp only [List.length_append, List.length_cons]
          omega
        exact reaches (ih _ shorter (by simp) rfl)

theorem apart_of_not_fits {stream : Bytes} {offset : Nat} (bound : offset ≤ 1023)
    (unfit : ¬fitsFrom offset stream) (lines : Nat) : Apart stream (offset, lines) := by
  induction stream generalizing offset lines with
  | nil => exact absurd trivial unfit
  | cons byte rest ih =>
      rw [fitsFrom] at unfit
      have single : IsCut [byte] [[byte]] := isCut_piece (by simp) (by simp)
      by_cases room : offset < 1023
      · rw [if_pos room] at unfit
        by_cases newline : byte = 10
        · rw [if_pos newline] at unfit
          have step : trackAll [[byte]] (offset, lines) = (0, lines + 1) := by
            simp [trackAll, track, room, newline]
          exact Apart.after single step (ih (by omega) unfit _)
        · rw [if_neg newline] at unfit
          have step : trackAll [[byte]] (offset, lines) = (offset + 1, lines) := by
            simp [trackAll, track, room, newline]
          exact Apart.after single step (ih (by omega) unfit _)
      · rw [if_neg room] at unfit
        have full : offset = 1023 := by omega
        subst full
        push Not at unfit
        obtain ⟨other, member, rfl⟩ := unfit
        exact apart_full member lines

def lastingAllocator : Allocator where
  strdup heap _ := some (heap.foldr (fun block bound => max block.1 bound) 0 + 1)
  fresh heap calls address got := by
    obtain rfl := Option.some.inj got
    refine ⟨Nat.succ_ne_zero _, ?_⟩
    have bounded : ∀ block ∈ heap,
        block.1 ≤ heap.foldr (fun block bound => max block.1 bound) 0 := by
      induction heap with
      | nil => nofun
      | cons first rest ih =>
          intro block member
          rw [List.foldr_cons]
          rcases List.mem_cons.mp member with rfl | inside
          · exact le_max_left _ _
          · exact (ih rfl block inside).trans (le_max_right _ _)
    rw [Heap.read, Option.map_eq_none_iff, List.find?_eq_none]
    intro block member same
    have bound := bounded block member
    simp only [decide_eq_true_eq] at same
    omega

theorem parseSingleLine_isSome {allocator : Allocator}
    (lasting : ∀ heap calls, (allocator.strdup heap calls).isSome) (linebuf : Bytes)
    (store : Store) : (parseSingleLine allocator linebuf store).isSome := by
  have copied : ∀ bytes store, (strdup allocator bytes store).isSome := by
    intro bytes store
    rw [strdup, Option.isSome_map]
    exact lasting _ _
  rw [parseSingleLine]
  split
  · rfl
  · split
    · rfl
    · rw [putKey]
      split
      · obtain ⟨first, gotKey⟩ := Option.isSome_iff_exists.mp (copied _ store)
        rw [addKey, gotKey, Option.bind_some, Option.isSome_map]
        exact copied _ _
      · rw [overwriteKey, Option.isSome_map]
        exact copied _ _

def Client.control (client : Client) : Nat × Nat :=
  (client.curLineBufOffset, client.handed.length)

theorem processContent_track {allocator : Allocator}
    (lasting : ∀ heap calls, (allocator.strdup heap calls).isSome) (piece : Bytes)
    (client : Client) :
    ∃ result, processContent allocator piece client = some result ∧
      result.2.control = track piece client.control := by
  induction piece generalizing client with
  | nil => exact ⟨_, rfl, rfl⟩
  | cons byte rest ih =>
      have offset : client.control.1 = client.curLineBufOffset := rfl
      rw [processContent, track, offset]
      by_cases room : client.curLineBufOffset < 1023
      · rw [if_pos room, if_pos room]
        by_cases newline : byte = 10
        · rw [if_pos newline, if_pos newline]
          obtain ⟨store, parsed⟩ := Option.isSome_iff_exists.mp
            (parseSingleLine_isSome lasting (cString (client.put byte).globalLineBuf)
              (client.put byte).store)
          rw [Client.hand, parsed, Option.map_some, Option.bind_some]
          obtain ⟨result, processed, same⟩ := ih _
          refine ⟨result, processed, same.trans ?_⟩
          simp [Client.control, Client.put]
        · rw [if_neg newline, if_neg newline]
          exact ih _
      · rw [if_neg room, if_neg room]
        exact ⟨_, rfl, rfl⟩

theorem feed_trackAll {allocator : Allocator}
    (lasting : ∀ heap calls, (allocator.strdup heap calls).isSome) (pieces : List Bytes)
    (client : Client) :
    ∃ after, feed allocator pieces client = some after ∧
      after.control = trackAll pieces client.control := by
  induction pieces generalizing client with
  | nil => exact ⟨client, rfl, rfl⟩
  | cons piece rest ih =>
      obtain ⟨result, processed, same⟩ := processContent_track lasting piece client
      obtain ⟨after, fed, final⟩ := ih result.2
      refine ⟨after, ?_, ?_⟩
      · rw [feed, processed]
        exact fed
      · rw [final, same]
        rfl

theorem lastingAllocator_lasting (heap : Heap) (calls : Nat) :
    (lastingAllocator.strdup heap calls).isSome := rfl

theorem disagree_of_track {first second : List Bytes}
    (different : (trackAll first (0, 0)).2 ≠ (trackAll second (0, 0)).2) :
    ¬Agree lastingAllocator first second := by
  intro agree
  obtain ⟨one, fedOne, countOne⟩ := feed_trackAll lastingAllocator_lasting first startClient
  obtain ⟨two, fedTwo, countTwo⟩ := feed_trackAll lastingAllocator_lasting second startClient
  rw [Agree, fedOne, fedTwo, Option.map_some, Option.map_some, Option.some.injEq] at agree
  have handed : one.handed = two.handed := (Prod.mk.inj agree).1
  apply different
  calc (trackAll first (0, 0)).2 = one.handed.length := (congrArg Prod.snd countOne).symm
    _ = two.handed.length := by rw [handed]
    _ = (trackAll second (0, 0)).2 := congrArg Prod.snd countTwo

/-- All cuts of a stream hand the same lines to `parse_single_line` and leave the same
table exactly when no line runs into the end of the buffer with another one behind it. -/
theorem cuts_agree_iff (stream : Bytes) :
    (∀ allocator first second, IsCut stream first → IsCut stream second →
      Agree allocator first second) ↔ LinesFit stream := by
  rw [linesFit_iff]
  constructor
  · intro agree
    by_contra unfit
    obtain ⟨first, second, firstCut, secondCut, different⟩ :=
      apart_of_not_fits (Nat.zero_le 1023) unfit 0
    exact disagree_of_track different (agree lastingAllocator first second firstCut secondCut)
  · intro fits allocator first second firstCut secondCut
    rw [Agree, feed_fits allocator firstCut fits, feed_fits allocator secondCut fits]

/-- A line of 1023 bytes: behind it the line `k v` is read or lost with the rest of
the read. -/
theorem overlong_line_cuts :
    ∃ stream first second, IsCut stream first ∧ IsCut stream second ∧
      ¬Agree lastingAllocator first second := by
  have long : IsCut (List.replicate 1023 97) [List.replicate 1023 97] := by
    apply isCut_piece
    · rw [List.length_replicate]
      omega
    · rw [List.length_replicate]
      omega
  have one : IsCut [120] [[120]] := isCut_piece (by simp) (by simp)
  have line : IsCut [107, 32, 118, 10] [[107, 32, 118, 10]] := isCut_piece (by simp) (by simp)
  have both : IsCut ([120] ++ [107, 32, 118, 10]) [[120] ++ [107, 32, 118, 10]] :=
    isCut_piece (by simp) (by simp)
  refine ⟨_, _, _, long.append both, long.append (one.append line), disagree_of_track ?_⟩
  decide +kernel

end DirtyCode.ConfCli
