import DirtyCode.Udps.Isolation

/-!
The lines of one source's stream, cut into datagrams, and the messages that
`split_and_send` makes of them.
-/

namespace DirtyCode.Udps.Ipmi

open Lib

/-- The forwarder and the text that it has received so far. -/
structure Stream where
  forwarder : Forwarder UInt8
  text : List UInt8

def linesOf (text : List UInt8) : List (List UInt8) := (splitLines plain.isLineEnd text).1

def tailOf (text : List UInt8) : List UInt8 := (splitLines plain.isLineEnd text).2

/-- No line of the text, ended or not, fills a buffer. -/
def ShortLines (text : List UInt8) : Prop :=
  (∀ line ∈ linesOf text, line.length < 60) ∧ (tailOf text).length < 60

instance (text : List UInt8) : Decidable (ShortLines text) :=
  inferInstanceAs (Decidable (_ ∧ _))

section

variable (nChannel : Nat) (ip : BitVec 32) (met : Nat → Outside)

-- `met` has what each line of the stream meets when it is complete
def streamMachine : Machine Stream (List UInt8) where
  init stream := stream = ⟨start, []⟩
  step stream datagram :=
    let text := stream.text ++ datagram.drop 9
    if tagOf datagram = some ip ∧ ShortLines text then
      some ⟨splitAndSend plain nChannel (fun k => met (k + (linesOf stream.text).length)) datagram
        stream.forwarder, text⟩
    else none

def goes (outside : Outside) (line : List UInt8) : Bool :=
  timely outside line && passes plain ip line

def messagesOf (outside : Outside) (line : List UInt8) : List (Message UInt8) :=
  if goes ip outside line then
    (List.range nChannel).map fun i => ⟨i, lineText plain ip line⟩
  else []

def messages (first : Nat) (lines : List (List UInt8)) : List (Message UInt8) :=
  (lines.zipIdx first).flatMap fun line => messagesOf nChannel ip (met line.2) line.1

/-- After every line of the datagram the lines forwarded so far are those that go, each
whole, once and in order. -/
def Reassembles (stream : Stream) (datagram : List UInt8) : Prop :=
  let piece := datagram.drop 9
  let count := (linesOf stream.text).length
  ∀ j ≤ (linesOf piece).length,
    (forwardLines plain nChannel ip (fun k => met (k + count)) ((linesOf piece).take j)
      { stream.forwarder with n := 0 }).sent =
        messages nChannel ip met 0 ((linesOf (stream.text ++ piece)).take (count + j))

/-- Every line is joined with the rest that it goes on from, or makes no difference: up to
the first timely line of the datagram what is joined is `carried`, the rest kept. -/
def JoinsOwn : Nat → List UInt8 → List UInt8 → List (List UInt8) → Prop
  | _, _, _, [] => True
  | count, carried, tail, p1 :: rest =>
      let joined := carried ++ plain.cString p1
      (joined = tail ++ p1 ∨ nChannel = 0 ∨
        (goes ip (met count) joined = false ∧ goes ip (met count) (tail ++ p1) = false)) ∧
      JoinsOwn (count + 1) (if timely (met count) joined then [] else carried) [] rest

def Undamaged (stream : Stream) (datagram : List UInt8) : Prop :=
  JoinsOwn nChannel ip met (linesOf stream.text).length stream.forwarder.partialLine
    (tailOf stream.text) (linesOf (datagram.drop 9))

structure Settled (stream : Stream) : Prop where
  reassembled : stream.forwarder.sent = messages nChannel ip met 0 (linesOf stream.text)
  short : stream.forwarder.partialLine.length < 60

end

/-- The lines of a piece, the first one behind the rest that it goes on from. -/
def wholeLines (tail : List UInt8) : List (List UInt8) → List (List UInt8)
  | [] => []
  | first :: others => (tail ++ first) :: others

@[simp] theorem wholeLines_nil (lines : List (List UInt8)) : wholeLines [] lines = lines := by
  cases lines <;> rfl

@[simp] theorem wholeLines_length (tail : List UInt8) (lines : List (List UInt8)) :
    (wholeLines tail lines).length = lines.length := by
  cases lines <;> rfl

theorem linesOf_append (text piece : List UInt8) :
    linesOf (text ++ piece) = linesOf text ++ wholeLines (tailOf text) (linesOf piece) := by
  cases lines : linesOf piece with
  | nil =>
      rw [linesOf, splitLines_append_inside text lines, wholeLines, List.append_nil]
      rfl
  | cons first others =>
      rw [linesOf, splitLines_append_lines text lines]
      rfl

theorem tailOf_append (text piece : List UInt8) :
    tailOf (text ++ piece) = if linesOf piece = [] then tailOf text ++ tailOf piece
      else tailOf piece := by
  cases lines : linesOf piece with
  | nil =>
      rw [tailOf, splitLines_append_inside text lines]
      rfl
  | cons first others =>
      rw [tailOf, splitLines_append_lines text lines]
      rfl

theorem ShortLines.piece {text piece : List UInt8} (short : ShortLines (text ++ piece)) :
    ShortLines piece := by
  obtain ⟨lines, tail⟩ := short
  rw [linesOf_append] at lines
  rw [tailOf_append] at tail
  constructor
  · intro line member
    cases found : linesOf piece with
    | nil =>
        rw [found] at member
        cases member
    | cons first others =>
        rw [found] at lines member
        rcases List.mem_cons.mp member with rfl | member
        · have whole := lines (tailOf text ++ line) (by simp [wholeLines])
          rw [List.length_append] at whole
          omega
        · exact lines line (by simp [wholeLines, member])
  · split at tail
    · rw [List.length_append] at tail
      omega
    · exact tail

section

variable {nChannel : Nat} {ip : BitVec 32} {met : Nat → Outside}

theorem cString_length_le (text : List UInt8) : (plain.cString text).length ≤ text.length :=
  (List.takeWhile_sublist _).length_le

theorem sentBytes_of_short (stack : Nat → UInt8) {line : List UInt8} (short : line.length < 120) :
    plain.sentBytes stack (lineText plain ip line) = lineText plain ip line := by
  have head := dottedIp_length ip
  have bar : (ascii " | ").length = 3 := rfl
  apply if_pos
  simp only [lineText, Alphabet.plain_print, tag, List.length_append, List.length_singleton, bar,
    maxLineLen]
  omega

theorem forwardLine_eq {outside : Outside} {p1 : List UInt8} {state : Forwarder UInt8}
    (short : (state.partialLine ++ plain.cString p1).length < 120) :
    (forwardLine plain nChannel ip outside p1 state).sent =
        state.sent ++ messagesOf nChannel ip outside (state.partialLine ++ plain.cString p1) ∧
      (forwardLine plain nChannel ip outside p1 state).partialLine =
        if timely outside (state.partialLine ++ plain.cString p1) then []
        else state.partialLine := by
  simp only [forwardLine, Alphabet.plain_bytes, messagesOf, goes, toChannels,
    sentBytes_of_short _ short]
  by_cases due : timely outside (state.partialLine ++ plain.cString p1) = true
  · by_cases kept : passes plain ip (state.partialLine ++ plain.cString p1) = true
    · simp [due, kept]
    · simp [due, kept]
  · simp [due]

theorem lineText_injective {first second : List UInt8}
    (same : lineText plain ip first = lineText plain ip second) : first = second :=
  List.append_cancel_left (List.append_cancel_right same)

theorem messagesOf_eq_iff {outside : Outside} {first second : List UInt8} :
    messagesOf nChannel ip outside first = messagesOf nChannel ip outside second ↔
      first = second ∨ nChannel = 0 ∨
        (goes ip outside first = false ∧ goes ip outside second = false) := by
  constructor
  · intro same
    by_cases none : nChannel = 0
    · exact .inr (.inl none)
    · have count := congrArg List.length same
      cases one : goes ip outside first with
      | true =>
          cases other : goes ip outside second with
          | true =>
              have head := congrArg (fun list => list.head?.map Message.bytes) same
              obtain ⟨more, rfl⟩ := Nat.exists_eq_succ_of_ne_zero none
              simp only [messagesOf, one, other, if_true, List.range_succ_eq_map, List.map_cons,
                List.head?_cons, Option.map_some, Option.some.injEq] at head
              exact .inl (lineText_injective head)
          | false => simp [messagesOf, one, other, none] at count
      | false =>
          cases other : goes ip outside second with
          | true => simp [messagesOf, one, other, Ne.symm none] at count
          | false => exact .inr (.inr ⟨rfl, rfl⟩)
  · rintro (rfl | rfl | ⟨one, other⟩)
    · rfl
    · simp [messagesOf]
    · simp [messagesOf, one, other]

theorem messages_cons (first : Nat) (line : List UInt8) (lines : List (List UInt8)) :
    messages nChannel ip met first (line :: lines) =
      messagesOf nChannel ip (met first) line ++ messages nChannel ip met (first + 1) lines := by
  rw [messages, List.zipIdx_cons, List.flatMap_cons]
  rfl

theorem messages_append (first : Nat) (lines others : List (List UInt8)) :
    messages nChannel ip met first (lines ++ others) =
      messages nChannel ip met first lines ++
        messages nChannel ip met (first + lines.length) others := by
  rw [messages, List.zipIdx_append, List.flatMap_append]
  rfl

theorem messages_whole (count j : Nat) (tail p1 : List UInt8) (rest : List (List UInt8)) :
    messages nChannel ip met count ((wholeLines tail (p1 :: rest)).take (j + 1)) =
      messagesOf nChannel ip (met count) (tail ++ p1) ++
        messages nChannel ip met (count + 1) (rest.take j) := by
  rw [wholeLines, List.take_succ_cons, messages_cons]

theorem forwardLines_take (count j : Nat) (p1 : List UInt8) (rest : List (List UInt8))
    (state : Forwarder UInt8) :
    forwardLines plain nChannel ip (fun k => met (k + count)) ((p1 :: rest).take (j + 1)) state =
      forwardLines plain nChannel ip (fun k => met (k + (count + 1))) (rest.take j)
        (forwardLine plain nChannel ip (met count) p1 state) := by
  have shift : ∀ k, k + (count + 1) = k + 1 + count := by omega
  simp only [List.take_succ_cons, forwardLines, Nat.zero_add, shift]

theorem forwardLines_right_iff {lines : List (List UInt8)} (count : Nat) {state : Forwarder UInt8}
    {tail : List UInt8} (carried : state.partialLine.length < 60)
    (short : ∀ line ∈ lines, line.length < 60) :
    (∀ j ≤ lines.length,
      (forwardLines plain nChannel ip (fun k => met (k + count)) (lines.take j) state).sent =
        state.sent ++ messages nChannel ip met count ((wholeLines tail lines).take j)) ↔
      JoinsOwn nChannel ip met count state.partialLine tail lines := by
  induction lines generalizing count state tail with
  | nil =>
      refine iff_of_true (fun j _ => ?_) trivial
      simp [forwardLines, wholeLines, messages]
  | cons p1 rest ih =>
      have fits : (state.partialLine ++ plain.cString p1).length < 120 := by
        have own := short p1 List.mem_cons_self
        have cut := cString_length_le p1
        rw [List.length_append]
        omega
      obtain ⟨sent, kept⟩ : (forwardLine plain nChannel ip (met count) p1 state).sent =
            state.sent ++ messagesOf nChannel ip (met count)
              (state.partialLine ++ plain.cString p1) ∧
          (forwardLine plain nChannel ip (met count) p1 state).partialLine =
            if timely (met count) (state.partialLine ++ plain.cString p1) then []
            else state.partialLine := forwardLine_eq fits
      have shorter :
          (forwardLine plain nChannel ip (met count) p1 state).partialLine.length < 60 := by
        rw [kept]
        split
        · decide
        · exact carried
      have later : _ ↔ JoinsOwn nChannel ip met (count + 1) _ [] rest := ih (count + 1) shorter
        fun line member => short line (List.mem_cons_of_mem p1 member)
      rw [wholeLines_nil, kept] at later
      rw [JoinsOwn, ← messagesOf_eq_iff, ← later]
      constructor
      · intro all
        have first : messagesOf nChannel ip (met count) (state.partialLine ++ plain.cString p1) =
            messagesOf nChannel ip (met count) (tail ++ p1) := by
          have here := all 1 (Nat.succ_le_of_lt (Nat.succ_pos _))
          rw [forwardLines_take, messages_whole, List.take_zero, forwardLines, sent,
            messages] at here
          simpa using here
        refine ⟨first, fun j inside => ?_⟩
        have here := all (j + 1) (Nat.succ_le_succ inside)
        rw [forwardLines_take, messages_whole] at here
        rw [here, sent, first, List.append_assoc]
      · rintro ⟨first, others⟩ j inside
        cases j with
        | zero => simp [forwardLines, messages]
        | succ j =>
            rw [forwardLines_take, messages_whole, others j (Nat.le_of_succ_le_succ inside), sent,
              first, List.append_assoc]

theorem streamMachine_step {stream after : Stream} {datagram : List UInt8}
    (stepped : (streamMachine nChannel ip met).step stream datagram = some after) :
    ShortLines (stream.text ++ datagram.drop 9) ∧
      after = ⟨forwardPayload plain nChannel ip (fun k => met (k + (linesOf stream.text).length))
        (datagram.drop 9) { stream.forwarder with n := 0 }, stream.text ++ datagram.drop 9⟩ := by
  simp only [streamMachine] at stepped
  split at stepped
  · rename_i possible
    obtain ⟨tagged, short⟩ := possible
    rw [splitAndSend, Alphabet.plain_bytes, tagged] at stepped
    exact ⟨short, (Option.some.inj stepped).symm⟩
  · contradiction

theorem leftOver_length_le (payload rest : List UInt8) :
    (leftOver plain payload rest).length ≤ rest.length := by
  rw [leftOver]
  split
  · exact (List.length_take_le' _ _).trans (cString_length_le rest)
  · exact Nat.zero_le _

theorem step_reassembles_iff {stream : Stream} {datagram : List UInt8}
    (settled : Settled nChannel ip met stream)
    (short : ShortLines (stream.text ++ datagram.drop 9)) :
    Reassembles nChannel ip met stream datagram ↔ Undamaged nChannel ip met stream datagram := by
  let fresh : Forwarder UInt8 := { stream.forwarder with n := 0 }
  have carried : fresh.partialLine.length < 60 := settled.short
  rw [Undamaged, Reassembles]
  simp only [linesOf_append, List.take_length_add_append, messages_append, Nat.zero_add,
    ← settled.reassembled]
  exact forwardLines_right_iff _ carried short.piece.1

theorem settled_of_reassembles {stream after : Stream} {datagram : List UInt8}
    (right : Reassembles nChannel ip met stream datagram)
    (stepped : (streamMachine nChannel ip met).step stream datagram = some after) :
    Settled nChannel ip met after := by
  obtain ⟨short, rfl⟩ := streamMachine_step stepped
  have all := right _ le_rfl
  rw [List.take_length, List.take_of_length_le] at all
  · exact ⟨all, (leftOver_length_le _ _).trans_lt short.piece.2⟩
  · rw [linesOf_append, List.length_append, wholeLines_length]

end

/-- Along every stream of datagrams the lines are reassembled exactly where every line is
joined with its own rest, or makes no difference. -/
theorem reassembled_iff (nChannel : Nat) (ip : BitVec 32) (met : Nat → Outside)
    (datagrams : List (List UInt8)) :
    (streamMachine nChannel ip met).Along
        (fun stream datagram _ => Reassembles nChannel ip met stream datagram) ⟨start, []⟩
          datagrams ↔
      (streamMachine nChannel ip met).Along
        (fun stream datagram _ => Undamaged nChannel ip met stream datagram) ⟨start, []⟩
          datagrams := by
  have initially : Settled nChannel ip met ⟨start, []⟩ := ⟨rfl, by decide⟩
  refine Machine.along_iff (Settled nChannel ip met) ?_ ?_ initially datagrams
  · intro stream datagram after settled stepped
    exact step_reassembles_iff settled (streamMachine_step stepped).1
  · intro stream datagram after settled undamaged stepped
    have right := (step_reassembles_iff settled (streamMachine_step stepped).1).mpr undamaged
    exact settled_of_reassembles right stepped

/-- The datagram brings the end of the line that the rest kept belongs to, and that line is
timely if another one ends behind it. -/
def Joins (met : Nat → Outside) (stream : Stream) (datagram : List UInt8) : Prop :=
  0 ∉ datagram.drop 9 ∧ (stream.forwarder.partialLine = [] ∨
    ∃ first others, linesOf (datagram.drop 9) = first :: others ∧
      (others = [] ∨ timely (met (linesOf stream.text).length)
        (stream.forwarder.partialLine ++ first)))

section

variable {nChannel : Nat} {ip : BitVec 32} {met : Nat → Outside}

theorem joinsOwn_whole {lines : List (List UInt8)} (inside : ∀ line ∈ lines, 0 ∉ line)
    (count : Nat) :
    JoinsOwn nChannel ip met count [] [] lines := by
  induction lines generalizing count with
  | nil => trivial
  | cons p1 rest ih =>
      have later := ih (fun line member => inside line (List.mem_cons_of_mem p1 member)) (count + 1)
      refine ⟨.inl (congrArg _ (cString_of_plain (inside p1 List.mem_cons_self))), ?_⟩
      rwa [ite_self]

theorem Joins.undamaged {stream : Stream} {datagram : List UInt8}
    (carried : stream.forwarder.partialLine = tailOf stream.text)
    (joins : Joins met stream datagram) : Undamaged nChannel ip met stream datagram := by
  obtain ⟨inside, joins⟩ := joins
  have plainLines : ∀ line ∈ linesOf (datagram.drop 9), 0 ∉ line :=
    fun line member zero => inside ((splitLines_subset _ _).1 line member zero)
  rw [Undamaged, ← carried]
  rcases joins with none | ⟨first, others, lines, alone⟩
  · rw [none]
    exact joinsOwn_whole plainLines _
  · rw [lines] at plainLines ⊢
    rw [JoinsOwn, cString_of_plain (plainLines first List.mem_cons_self)]
    refine ⟨.inl rfl, ?_⟩
    rcases alone with rfl | due
    · trivial
    · rw [if_pos due]
      exact joinsOwn_whole (fun line member => plainLines line (List.mem_cons_of_mem first member))
        _

theorem leftOver_tail {payload : List UInt8} (inside : 0 ∉ payload)
    (short : (tailOf payload).length < 60) :
    leftOver plain payload (tailOf payload) = tailOf payload := by
  have within : 0 ∉ tailOf payload := fun member => inside ((splitLines_subset _ _).2 member)
  rcases List.eq_nil_or_concat payload with rfl | ⟨front, last, rfl⟩
  · rfl
  · by_cases ending : last = 10
    · have found : (splitLines plain.isLineEnd [last]).1 = [] :: [] := by
        rw [ending]
        rfl
      have closed : tailOf (front.concat last) = [] := by
        rw [tailOf, List.concat_eq_append, splitLines_append_lines front found, ending]
        rfl
      rw [leftOver, closed]
      split <;> rfl
    · have nonzero : last ≠ 0 := fun zero => inside (by simp [zero])
      have goesOn : endsInside plain (front.concat last) = true := by
        simp [endsInside, plain, nonzero, ending]
      rw [leftOver, if_pos goesOn, cString_of_plain within, List.take_of_length_le]
      rw [maxLineLen]
      omega

theorem Joins.carried {stream after : Stream} {datagram : List UInt8}
    (joins : Joins met stream datagram)
    (carried : stream.forwarder.partialLine = tailOf stream.text)
    (stepped : (streamMachine nChannel ip met).step stream datagram = some after) :
    after.forwarder.partialLine = tailOf after.text := by
  obtain ⟨short, rfl⟩ := streamMachine_step stepped
  have kept := leftOver_tail joins.1 short.piece.2
  show leftOver plain (datagram.drop 9) (tailOf (datagram.drop 9)) = _
  rw [kept, tailOf_append]
  split
  · rename_i open_
    have none : tailOf stream.text = [] := by
      rw [← carried]
      rcases joins.2 with none | ⟨first, others, found, _⟩
      · exact none
      · rw [open_] at found
        contradiction
    rw [none, List.nil_append]
  · rfl

end

/-- Where no rest is overwritten and none is put before two lines, nothing is damaged. -/
theorem undamaged_of_joins (nChannel : Nat) (ip : BitVec 32) (met : Nat → Outside)
    {datagrams : List (List UInt8)}
    (joins : (streamMachine nChannel ip met).Along
      (fun stream datagram _ => Joins met stream datagram) ⟨start, []⟩ datagrams) :
    (streamMachine nChannel ip met).Along
      (fun stream datagram _ => Undamaged nChannel ip met stream datagram) ⟨start, []⟩
        datagrams := by
  apply Machine.Along.of_invariant
    (fun stream => stream.forwarder.partialLine = tailOf stream.text) _ rfl joins
  intro stream datagram after carried allowed stepped
  exact ⟨allowed.undamaged carried, allowed.carried carried stepped⟩

theorem streamMachine_step_eq {nChannel : Nat} {ip : BitVec 32} {met : Nat → Outside}
    {stream : Stream} {datagram : List UInt8} (tagged : tagOf datagram = some ip)
    (short : ShortLines (stream.text ++ datagram.drop 9)) :
    (streamMachine nChannel ip met).step stream datagram =
      some ⟨splitAndSend plain nChannel (fun k => met (k + (linesOf stream.text).length)) datagram
        stream.forwarder, stream.text ++ datagram.drop 9⟩ :=
  if_pos ⟨tagged, short⟩

def cutTwice : List (List UInt8) :=
  [ascii "0a000001 1 | 01/01/2024 |", ascii "0a000001  12:00:00 |", ascii "0a000001  A\n"]

/-- The middle piece takes the place of the first one, and the line is not forwarded. -/
theorem middle_piece_replaces :
    ¬(streamMachine 1 0x0a000001 fun _ => noon).Along
      (fun stream datagram _ => Reassembles 1 0x0a000001 (fun _ => noon) stream datagram)
        ⟨start, []⟩ cutTwice := by
  intro along
  have opened := (along _ (streamMachine_step_eq (by decide) (by decide))).2
  have replaced := (opened _ (streamMachine_step_eq (by decide) (by decide))).2
  have ended := (replaced _ (streamMachine_step_eq (by decide) (by decide))).1
  have count := congrArg List.length (ended 1 (by decide))
  revert count
  decide

end DirtyCode.Udps.Ipmi
