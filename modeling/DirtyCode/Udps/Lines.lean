import DirtyCode.Udps.Forward

/-!
What each channel of `split_and_send` gets: a message for every wanted line.
-/

namespace DirtyCode.Udps.Fwd

open Lib

/-- The line under its address, cut to what `snprintf` formats. -/
def message (ip : BitVec 32) (line : List UInt8) : List UInt8 :=
  Alphabet.buffer (dottedIp ip ++ 32 :: (line ++ [10]))

/-- The lines of a datagram that are long enough and start with a date. -/
def linesOf (msg : List UInt8) : List (List UInt8) :=
  (splitLines plain.isLineEnd (msg.drop 9)).1.filter wanted

def receivedBy (channel : Nat) (sent : List Message) : List (List UInt8) :=
  (sent.filter fun message => message.channel = channel).map Message.bytes

def Delivered (nChannel : Nat) (ip : BitVec 32) (msg : List UInt8) (forwarded : Forwarded) : Prop :=
  (∀ channel < nChannel, receivedBy channel forwarded.sent = (linesOf msg).map (message ip)) ∧
    forwarded.n = (linesOf msg).length

theorem receivedBy_toChannels {nChannel channel : Nat} (inside : channel < nChannel)
    (ip : BitVec 32) (stack : Nat → UInt8) (p1 : List UInt8) :
    receivedBy channel (toChannels nChannel ip stack p1) =
      [plain.sentBytes stack (lineText ip p1)] := by
  have here : (List.range nChannel).filter (fun i => decide (i = channel)) = [channel] := by
    rw [List.filter_eq, List.count_range, if_pos inside]
    rfl
  rw [receivedBy, toChannels, List.filter_map, List.map_map]
  exact (congrArg (List.map _) here).trans rfl

theorem receivedBy_flatMap {nChannel channel : Nat} (inside : channel < nChannel)
    (ip : BitVec 32) (stack : Nat → Nat → UInt8) (lines : List (List UInt8 × Nat)) :
    receivedBy channel (lines.flatMap fun line => toChannels nChannel ip (stack line.2) line.1) =
      lines.map fun line => plain.sentBytes (stack line.2) (lineText ip line.1) := by
  induction lines with
  | nil => rfl
  | cons line rest ih =>
      have here := receivedBy_toChannels inside ip (stack line.2) line.1
      rw [receivedBy] at here ih ⊢
      rw [List.flatMap_cons, List.filter_append, List.map_append, here, ih, List.map_cons]
      rfl

theorem map_wantedLines (text : List UInt8) :
    (wantedLines text).map Prod.fst = (splitLines plain.isLineEnd text).1.filter wanted := by
  have both : ∀ (lines : List (List UInt8)) (first : Nat),
      ((lines.zipIdx first).filter fun line => wanted line.1).map Prod.fst =
        lines.filter wanted := by
    intro lines
    induction lines with
    | nil => exact fun _ => rfl
    | cons line rest ih =>
        intro first
        rw [List.zipIdx_cons]
        by_cases kept : wanted line = true
        · simp [kept, ih]
        · simp [kept, ih]
  exact both _ 0

theorem splitAndSend_eq (nChannel : Nat) (stack : Nat → Nat → UInt8) {ip : BitVec 32}
    {msg : List UInt8} (tag : tagOf msg = some ip) :
    splitAndSend nChannel stack msg =
      ⟨(wantedLines (msg.drop 9)).flatMap fun line => toChannels nChannel ip (stack line.2) line.1,
        (wantedLines (msg.drop 9)).length⟩ := by
  have lines := forwardLines_eq nChannel ip stack
    (splitLines plain.isLineEnd (msg.drop 9)).1 0 ⟨[], 0⟩
  simp only [Nat.add_zero, List.nil_append, Nat.zero_add] at lines
  rw [splitAndSend, tag]
  exact lines

/-- Every channel gets one message for each wanted line, whatever it holds. -/
theorem delivered_iff_sent {nChannel : Nat} (stack : Nat → Nat → UInt8) {ip : BitVec 32}
    {msg : List UInt8} (tag : tagOf msg = some ip) :
    Delivered nChannel ip msg (splitAndSend nChannel stack msg) ↔
      nChannel = 0 ∨ ∀ line ∈ wantedLines (msg.drop 9),
        plain.sentBytes (stack line.2) (lineText ip line.1) = message ip line.1 := by
  have kept : linesOf msg = (wantedLines (msg.drop 9)).map Prod.fst := (map_wantedLines _).symm
  have each : ∀ channel < nChannel,
      (receivedBy channel (splitAndSend nChannel stack msg).sent = (linesOf msg).map (message ip) ↔
        ∀ line ∈ wantedLines (msg.drop 9),
          plain.sentBytes (stack line.2) (lineText ip line.1) = message ip line.1) := by
    intro channel inside
    rw [splitAndSend_eq nChannel stack tag, receivedBy_flatMap inside, kept, List.map_map]
    exact List.map_inj_left
  constructor
  · intro delivered
    rcases Nat.eq_zero_or_pos nChannel with none | some_
    · exact Or.inl none
    · exact Or.inr ((each 0 some_).mp (delivered.1 0 some_))
  · intro same
    refine ⟨?_, ?_⟩
    · intro channel inside
      rcases same with none | same
      · omega
      · exact (each channel inside).mpr same
    · rw [splitAndSend_eq nChannel stack tag, kept, List.length_map]

theorem cString_split {line : List UInt8} (inside : 0 ∈ line) :
    ∃ rest, line = plain.cString line ++ 0 :: rest := by
  induction line with
  | nil => exact absurd inside List.not_mem_nil
  | cons byte rest ih =>
      by_cases zero : byte = 0
      · subst zero
        exact ⟨rest, by simp [Alphabet.cString, plain]⟩
      · obtain ⟨later, split⟩ := ih ((List.mem_cons.mp inside).resolve_left (Ne.symm zero))
        refine ⟨later, ?_⟩
        have first : plain.cString (byte :: rest) = byte :: plain.cString rest := by
          simp [Alphabet.cString, plain, zero]
        rw [first, List.cons_append, ← split]

/-- A line is sent as it should be exactly when it is a C string and fits into the buffer. -/
theorem sentBytes_lineText_iff (stack : Nat → UInt8) (ip : BitVec 32) (line : List UInt8) :
    plain.sentBytes stack (lineText ip line) = message ip line ↔
      0 ∉ line ∧ (dottedIp ip).length + line.length + 2 ≤ 4094 := by
  have bound : (message ip line).length ≤ 4094 := by
    rw [message, Alphabet.buffer, List.length_take]
    exact Nat.min_le_left _ _
  constructor
  · intro same
    have size := congrArg List.length same
    rw [plain.sentBytes_length] at size
    have whole : plain.sentBytes stack (lineText ip line) = lineText ip line :=
      if_pos (by simp only [maxLineLen]; omega)
    rw [whole, message, Alphabet.buffer] at same
    have none : 0 ∉ line := by
      intro inside
      obtain ⟨rest, split⟩ := cString_split inside
      have here := congrArg (fun text =>
        text[(dottedIp ip).length + (plain.cString line).length + 1]?) same
      have short : (dottedIp ip).length + (plain.cString line).length + 1 < 4094 := by
        rw [lineText] at size
        simp only [List.length_append, List.length_cons, List.length_nil] at size
        omega
      simp only [maxLineLen] at here
      rw [List.getElem?_take_of_lt short, lineText] at here
      have line_eq : dottedIp ip ++ 32 :: (line ++ [10]) =
          (dottedIp ip ++ 32 :: plain.cString line) ++ 0 :: (rest ++ [10]) := by
        nth_rewrite 1 [split]
        simp
      have sent_eq : dottedIp ip ++ 32 :: (plain.cString line ++ [10]) =
          (dottedIp ip ++ 32 :: plain.cString line) ++ [10] := by simp
      have place : (dottedIp ip ++ 32 :: plain.cString line).length =
          (dottedIp ip).length + (plain.cString line).length + 1 := by simp; omega
      rw [line_eq, sent_eq, ← place, List.getElem?_concat_length, List.getElem?_append_right le_rfl,
        Nat.sub_self] at here
      simp at here
    refine ⟨none, ?_⟩
    rw [lineText, cString_of_plain none] at size
    simp only [List.length_append, List.length_cons, List.length_nil] at size
    omega
  · rintro ⟨none, fits⟩
    have size : (dottedIp ip ++ 32 :: (line ++ [10])).length ≤ maxLineLen - 2 := by
      simp only [maxLineLen, List.length_append, List.length_cons, List.length_nil]
      omega
    rw [lineText, cString_of_plain none, message, Alphabet.buffer, List.take_of_length_le size,
      Alphabet.sentBytes, if_pos size]

/-- The messages are the wanted lines exactly when nothing is sent at all or each wanted line
is a C string that fits into the buffer with its address. -/
theorem delivered_iff {nChannel : Nat} (stack : Nat → Nat → UInt8) {ip : BitVec 32}
    {msg : List UInt8} (tag : tagOf msg = some ip) :
    Delivered nChannel ip msg (splitAndSend nChannel stack msg) ↔
      nChannel = 0 ∨ ∀ line ∈ linesOf msg,
        0 ∉ line ∧ (dottedIp ip).length + line.length + 2 ≤ 4094 := by
  have kept : linesOf msg = (wantedLines (msg.drop 9)).map Prod.fst := (map_wantedLines _).symm
  rw [delivered_iff_sent stack tag, kept]
  simp only [sentBytes_lineText_iff, List.forall_mem_map]

def datedLines : List UInt8 :=
  ascii "2024-01-01 12:00:00 up\nshort\n2024-01-02 13:00:00 down\n"

def brokenLine : List UInt8 := datedLines ++ ascii "2024-01-03 14:00:00 " ++ [0, 97, 10]

theorem delivered_iff_dated :
    Delivered 2 0x0A000001 (rawbuf 0x0A000001 datedLines)
        (splitAndSend 2 (fun _ _ => 0) (rawbuf 0x0A000001 datedLines)) ∧
      ¬Delivered 2 0x0A000001 (rawbuf 0x0A000001 brokenLine)
        (splitAndSend 2 (fun _ _ => 0) (rawbuf 0x0A000001 brokenLine)) := by
  constructor
  · apply (delivered_iff _ (tagOf_rawbuf (by decide) (by decide))).mpr
    right
    decide
  · intro delivered
    have kept := (delivered_iff _ (tagOf_rawbuf (by decide) (by decide))).mp delivered
    revert kept
    decide

def longLine (more : Nat) : List UInt8 :=
  [50, 48, 50, 52, 45, 48, 49, 45, 48, 49] ++ List.replicate more 97

theorem longLine_length (more : Nat) : (longLine more).length = more + 10 := by
  rw [longLine, List.length_append, List.length_replicate, Nat.add_comm]
  rfl

theorem linesOf_longLine (ip : BitVec 32) {more : Nat} (long : 10 ≤ more) :
    wantedLines ((rawbuf ip (longLine more ++ [10])).drop 9) = [(longLine more, 0)] := by
  have inside : ∀ byte ∈ longLine more, plain.isLineEnd byte = false := by
    intro byte member
    have plainDate : ∀ char ∈ ([50, 48, 50, 52, 45, 48, 49, 45, 48, 49] : List UInt8),
        plain.isLineEnd char = false := by simp [Alphabet.isLineEnd, plain]
    rcases List.mem_append.mp member with date | letters
    · exact plainDate byte date
    · rw [(List.mem_replicate.mp letters).2]
      decide
  have split : splitLines plain.isLineEnd (longLine more ++ [10]) = ([longLine more], []) := by
    have ended : (splitLines plain.isLineEnd [10]).1 = [] :: [] := rfl
    rw [splitLines_append_lines (longLine more) ended, splitLines_inside inside]
    simp [splitLines, Alphabet.isLineEnd, plain]
  have kept : wanted (longLine more) = true := by
    have size : 20 ≤ (longLine more).length := by
      rw [longLine_length]
      omega
    simp only [wanted, size, true_and, decide_eq_true_eq]
    exact ⟨rfl, rfl⟩
  rw [drop_rawbuf, wantedLines, split]
  simp [kept]

theorem not_delivered_longLine {ip : BitVec 32} (nonzero : ip ≠ 0) {more : Nat}
    (long : 4090 ≤ more) (stack : Nat → Nat → UInt8) :
    ¬Delivered 1 ip (rawbuf ip (longLine more ++ [10]))
      (splitAndSend 1 stack (rawbuf ip (longLine more ++ [10]))) := by
  have tag : tagOf (rawbuf ip (longLine more ++ [10])) = some ip :=
    tagOf_rawbuf nonzero (List.append_ne_nil_of_right_ne_nil _ (List.cons_ne_nil _ _))
  have size := longLine_length more
  rw [delivered_iff_sent stack tag, linesOf_longLine ip (by omega)]
  rintro (none | same)
  · exact absurd none (by decide)
  · have fits := ((sentBytes_lineText_iff _ _ _).mp (same _ List.mem_cons_self)).2
    simp only [size] at fits
    omega

/-- A line of more than four thousand characters. -/
theorem long_line_sent : ¬Delivered 1 0x0A000001 (rawbuf 0x0A000001 (longLine 4090 ++ [10]))
    (splitAndSend 1 (fun _ _ => 0) (rawbuf 0x0A000001 (longLine 4090 ++ [10]))) :=
  not_delivered_longLine (by decide) le_rfl _

end DirtyCode.Udps.Fwd
