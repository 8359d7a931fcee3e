import DirtyCode.ConfServer.ParseInput
import DirtyCode.Lib.Rows

/-!
What `parse_input_conf` does with one row of the buffer, whatever text the row holds.
-/

namespace DirtyCode.ConfServer

open Lib

def EndsRow (byte : UInt8) : Prop := byte = 10 ∨ byte = 0

instance : DecidablePred EndsRow := fun byte => inferInstanceAs (Decidable (byte = 10 ∨ byte = 0))

abbrev TextRow := Row EndsRow

abbrev RowNode := Nat × List UInt8

def rowLookup (nWorkers : Nat) (tables : Tables) (text : List UInt8) :
    Option (Int × Nat × Session) :=
  (scanAddress text).bind fun (a, b, c, d) =>
    lookupSession nWorkers tables (parseIpv4 a b c d) (parseIndex b c d)

def rowPlace (nWorkers : Nat) (tables : Tables) (text : List UInt8) : Option (Int × Nat) :=
  (rowLookup nWorkers tables text).map fun found => (found.1, found.2.1)

def firstBlank (text : List UInt8) : Nat := text.findIdx (· = 32)

/-- The row of a session is queued for it. -/
def Queues (text : List UInt8) : Prop := firstBlank text < text.length ∧ 7 ≤ firstBlank text

instance : DecidablePred Queues := fun text =>
  inferInstanceAs (Decidable (firstBlank text < text.length ∧ 7 ≤ firstBlank text))

/-- What a queued row leaves behind the eight bytes of its pointer. -/
def replyText (text : List UInt8) : List UInt8 :=
  List.replicate (firstBlank text - 8) 32 ++ text.drop (max (firstBlank text) 8)

/-- The scan from `j` on ends as it does from the start of the row. -/
def InReach (j : Nat) (text : List UInt8) : Prop :=
  j ≤ firstBlank text ∨ j = 8 ∧ firstBlank text = 7 ∧ text[8]? = some 32

instance (j : Nat) (text : List UInt8) : Decidable (InReach j text) :=
  inferInstanceAs (Decidable (_ ∨ _ ∧ _ ∧ _))

def scanAfter (j : Nat) (text : List UInt8) : Nat :=
  if Queues text then if firstBlank text = 7 ∧ j ≠ 8 then 7 else 8 else firstBlank text

def scanBehind (place : List UInt8 → Option (Int × Nat)) (j : Nat) (text : List UInt8) : Nat :=
  if (place text).isSome then scanAfter j text else j

/-- The scan index that the rows leave behind is in reach of every later one. -/
def InStepFrom (place : List UInt8 → Option (Int × Nat)) : Nat → List TextRow → Prop
  | _, [] => True
  | j, row :: rest => ((place row.text).isSome → InReach j row.text) ∧
      InStepFrom place (scanBehind place j row.text) rest

instance decidableInStepFrom (place : List UInt8 → Option (Int × Nat)) :
    ∀ j rows, Decidable (InStepFrom place j rows)
  | _, [] => isTrue trivial
  | j, row :: rest =>
      have := decidableInStepFrom place (scanBehind place j row.text) rest
      inferInstanceAs (Decidable ((_ → _) ∧ _))

/-- The reply bytes of a row stand in the buffer, with a NUL behind them. -/
structure RowHeld (memory : Memory) (node : RowNode) : Prop where
  bytes : memory.slice (node.1 + 8) (replyText node.2).length = replyText node.2
  ends : memory (node.1 + node.2.length) = 0

theorem TextRow.plain (row : TextRow) : ∀ byte ∈ row.text, byte ≠ 10 ∧ byte ≠ 0 := by
  intro byte member
  have inside := row.unbroken byte member
  simp only [EndsRow, not_or] at inside
  exact inside

theorem parseLine_row (cfg : Config) (fuel address : Nat) (text : List UInt8) (parse : Parse) :
    parseLine cfg fuel address text parse =
      match rowLookup cfg.nWorkers parse.tables text with
      | none => some parse
      | some (thread, slot, session) => deliverLine fuel address thread slot session parse := by
  cases scanned : scanAddress text with
  | none => simp only [parseLine, rowLookup, scanned, Option.bind_none]
  | some numbers =>
      obtain ⟨a, b, c, d⟩ := numbers
      have looked : rowLookup cfg.nWorkers parse.tables text =
          lookupSession cfg.nWorkers parse.tables (parseIpv4 a b c d) (parseIndex b c d) := by
        simp only [rowLookup, scanned, Option.bind_some]
      cases found : lookupSession cfg.nWorkers parse.tables (parseIpv4 a b c d)
          (parseIndex b c d) with
      | none => simp only [parseLine, scanned, looked, found]
      | some place => simp only [parseLine, scanned, looked, found]

theorem rowLookup_of_rowPlace {nWorkers : Nat} {tables : Tables} {text : List UInt8} {thread : Int}
    {slot : Nat} (place : rowPlace nWorkers tables text = some (thread, slot)) :
    ∃ session, tables.sessionArray thread slot = some session ∧
      rowLookup nWorkers tables text = some (thread, slot, session) := by
  obtain ⟨⟨other, spot, session⟩, found, same⟩ := Option.map_eq_some_iff.mp place
  simp only [Prod.mk.injEq] at same
  obtain ⟨rfl, rfl⟩ := same
  obtain ⟨numbers, -, looked⟩ := Option.bind_eq_some_iff.mp found
  exact ⟨session, lookupSession_entry looked, found⟩

theorem firstBlank_le (text : List UInt8) : firstBlank text ≤ text.length := List.findIdx_le_length

theorem before_firstBlank {text : List UInt8} {offset : Nat} (before : offset < firstBlank text) :
    text.get ⟨offset, Nat.lt_of_lt_of_le before (firstBlank_le text)⟩ ≠ 32 := by
  have differs := List.not_of_lt_findIdx before
  simpa using differs

theorem at_firstBlank {text : List UInt8} (inside : firstBlank text < text.length) :
    text[firstBlank text] = 32 := by
  have blank : decide (text[firstBlank text] = 32) = true :=
    List.findIdx_getElem (p := fun byte => decide (byte = 32)) (w := inside)
  simpa using blank

theorem Queues.length_replyText {text : List UInt8} (queues : Queues text) :
    (replyText text).length + 8 = text.length := by
  obtain ⟨inside, seven⟩ := queues
  rw [replyText, List.length_append, List.length_replicate, List.length_drop]
  omega

theorem Queues.eight_le {text : List UInt8} (queues : Queues text) : 8 ≤ text.length := by
  obtain ⟨inside, seven⟩ := queues
  omega

theorem InReach.firstBlank_le {j : Nat} {text : List UInt8} (reach : InReach j text)
    (idle : ¬Queues text) : j ≤ firstBlank text := by
  rcases reach with before | ⟨-, seven, blank⟩
  · exact before
  · obtain ⟨longer, -⟩ := List.getElem?_eq_some_iff.mp blank
    exact absurd ⟨by omega, by omega⟩ idle

theorem RowHeld.congr {memory after : Memory} {node : RowNode} (held : RowHeld memory node)
    (queues : Queues node.2) (agree : ∀ offset, node.1 + 8 ≤ offset →
      offset ≤ node.1 + node.2.length → after offset = memory offset) : RowHeld after node := by
  have length := queues.length_replyText
  constructor
  · rw [← held.bytes, Memory.length_slice]
    apply Memory.slice_congr
    intro offset below
    exact agree _ (by omega) (by omega)
  · rw [agree _ (by omega) le_rfl, held.ends]

section Rewrite

variable {memory : Memory} {address : Nat} {text : List UInt8}

theorem blankAt_row (held : memory.slice address text.length = text)
    (ends : memory (address + text.length) = 0)
    (plain : ∀ byte ∈ text.take (firstBlank text), byte ≠ 0) {j fuel : Nat}
    (reach : InReach j text) (enough : text.length < fuel) :
    ∃ stop, blankAt memory address fuel j = some stop ∧ stop ≤ text.length ∧
      (stop = firstBlank text ∧ ¬(firstBlank text = 7 ∧ j = 8) ∨
        stop = 8 ∧ firstBlank text = 7 ∧ j = 8 ∧ memory (address + 8) = 32) := by
  have bound := firstBlank_le text
  by_cases passed : firstBlank text = 7 ∧ j = 8
  · obtain ⟨seven, rfl⟩ := passed
    rcases reach with before | ⟨-, -, blank⟩
    · omega
    · obtain ⟨longer, byte⟩ := List.getElem?_eq_some_iff.mp blank
      have stopped : memory (address + 8) = 32 := by rw [Memory.apply_of_slice held longer, byte]
      refine ⟨8, ?_, by omega, .inr ⟨rfl, seven, rfl, stopped⟩⟩
      apply whileLoop_counter le_rfl (by omega)
      · intro position lower upper
        omega
      · simp [stopped]
  · have before : j ≤ firstBlank text := by
      rcases reach with before | ⟨eight, seven, -⟩
      · exact before
      · exact absurd ⟨seven, eight⟩ passed
    refine ⟨firstBlank text, ?_, bound, .inl ⟨rfl, passed⟩⟩
    apply whileLoop_counter before (by omega)
    · intro position _ upper
      have inside : position < text.length := by omega
      have byte := Memory.apply_of_slice held inside
      have nonzero := plain text[position] (List.mem_take_iff_getElem.mpr ⟨position, by omega, rfl⟩)
      have differs := before_firstBlank upper
      rw [List.get_eq_getElem] at differs
      simp [byte, nonzero, differs]
    · by_cases inside : firstBlank text < text.length
      · have byte := Memory.apply_of_slice held inside
        rw [at_firstBlank inside] at byte
        simp [byte]
      · have last : firstBlank text = text.length := by omega
        simp [last, ends]

theorem deliverLine_idle (held : memory.slice address text.length = text)
    (ends : memory (address + text.length) = 0)
    (plain : ∀ byte ∈ text.take (firstBlank text), byte ≠ 0) (parse : Parse)
    (here : parse.memory = memory) (reach : InReach parse.j text) (idle : ¬Queues text) {fuel : Nat}
    (enough : text.length < fuel) (thread : Int) (slot : Nat) (session : Session) :
    deliverLine fuel address thread slot session parse =
      some { parse with j := scanAfter parse.j text } := by
  subst here
  have before := reach.firstBlank_le idle
  have bound := firstBlank_le text
  obtain ⟨stop, found, -, ⟨rfl, -⟩ | ⟨-, seven, eight, -⟩⟩ :=
    blankAt_row held ends plain reach enough
  · have dropped : parse.memory (address + firstBlank text) ≠ 32 ∨ firstBlank text < 7 := by
      by_cases inside : firstBlank text < text.length
      · refine .inr ?_
        by_contra late
        exact idle ⟨inside, by omega⟩
      · have last : firstBlank text = text.length := by omega
        rw [last, ends]
        exact .inl (by decide)
    simp only [deliverLine, found, Option.bind_some, scanAfter, if_neg idle]
    rw [if_pos dropped]
  · omega

theorem rewrite_other {stop offset : Nat} (behind : address + stop ≤ offset ∨ offset < address)
    (free : address + 8 ≤ offset ∨ offset < address) :
    (blankAddress memory address stop).1.storeWord address 0 offset = memory offset := by
  rw [blankAddress_eq, Memory.storeWord_outside _ (by omega)]
  dsimp only
  rw [Memory.memcpy_outside _ _ (by omega)]

theorem rewrite_rowHeld (held : memory.slice address text.length = text)
    (ends : memory (address + text.length) = 0) (queues : Queues text) {stop : Nat}
    (stops : stop = firstBlank text ∨ stop = 8 ∧ firstBlank text = 7) :
    RowHeld ((blankAddress memory address stop).1.storeWord address 0) (address, text) := by
  obtain ⟨inside, seven⟩ := queues
  constructor
  · have whole := Queues.length_replyText ⟨inside, seven⟩
    have start : max (firstBlank text) 8 ≤ text.length := by omega
    have length : (replyText text).length =
        (firstBlank text - 8) + (text.length - max (firstBlank text) 8) := by omega
    have base : address + 8 + (firstBlank text - 8) = address + max (firstBlank text) 8 := by omega
    rw [length, Memory.slice_append, replyText, base]
    congr 1
    · apply Memory.slice_replicate
      intro offset below
      rw [blankAddress_eq, Memory.storeWord_outside _ (by omega)]
      simp only [Memory.memcpy]
      rw [if_pos (by omega)]
    · have payload := Memory.slice_drop memory address start
      rw [held] at payload
      rw [← payload]
      apply Memory.slice_congr
      intro offset _
      exact rewrite_other (by omega) (by omega)
  · rw [← ends]
    exact rewrite_other (.inl (by dsimp only; omega)) (.inl (by dsimp only; omega))

theorem deliverLine_queues (held : memory.slice address text.length = text)
    (ends : memory (address + text.length) = 0)
    (plain : ∀ byte ∈ text.take (firstBlank text), byte ≠ 0) (parse : Parse)
    (here : parse.memory = memory) (reach : InReach parse.j text) (queues : Queues text)
    {fuel : Nat}
    (enough : text.length < fuel) (thread : Int) (slot : Nat) (session : Session) :
    ∃ blanked : Memory, RowHeld blanked (address, text) ∧ blanked.loadWord address = 0 ∧
      (∀ offset, offset < address ∨ address + text.length ≤ offset →
        blanked offset = memory offset) ∧
      deliverLine fuel address thread slot session parse =
        (linkReply fuel address session blanked).map fun (session, memory) =>
          { parse with
            memory := memory
            tables := parse.tables.setSlot thread slot (some session)
            j := scanAfter parse.j text } := by
  subst here
  have eight := queues.eight_le
  obtain ⟨inside, seven⟩ := queues
  obtain ⟨stop, found, short, stops⟩ := blankAt_row held ends plain reach enough
  have blank : parse.memory (address + stop) = 32 := by
    rcases stops with ⟨rfl, -⟩ | ⟨rfl, -, -, blank⟩
    · rw [Memory.apply_of_slice held inside, at_firstBlank inside]
    · exact blank
  have left : min stop 8 = scanAfter parse.j text := by
    rw [scanAfter, if_pos ⟨inside, seven⟩]
    rcases stops with ⟨rfl, fresh⟩ | ⟨rfl, first, late, -⟩
    · split <;> omega
    · split <;> omega
  refine ⟨(blankAddress parse.memory address stop).1.storeWord address 0,
    rewrite_rowHeld held ends ⟨inside, seven⟩ (by omega), Memory.loadWord_storeWord _ _ (by decide),
    ?_, ?_⟩
  · intro offset outside
    exact rewrite_other (by omega) (by omega)
  · have kept : ¬(parse.memory (address + stop) ≠ 32 ∨ stop < 7) := by
      simp only [blank, ne_eq, not_true_eq_false, false_or]
      omega
    have index : (blankAddress parse.memory address stop).2 = scanAfter parse.j text := by
      rw [blankAddress_eq, left]
    simp only [deliverLine, found, Option.bind_some, kept, if_false, index]

end Rewrite

theorem lineEnd_row {memory : Memory} {p i total fuel : Nat} {text rest : List UInt8}
    {terminator : UInt8} (ahead : memory.slice (p + i) (text ++ terminator :: rest).length =
      text ++ terminator :: rest) (plain : ∀ byte ∈ text, byte ≠ 10 ∧ byte ≠ 0)
    (closed : EndsRow terminator) (inside : i + text.length < total) (enough : total < fuel) :
    lineEnd memory p total fuel i = some (i + text.length) := by
  have byteAt : ∀ offset, (below : offset < (text ++ terminator :: rest).length) →
      memory (p + (i + offset)) = (text ++ terminator :: rest).get ⟨offset, below⟩ := by
    intro offset below
    rw [← Nat.add_assoc]
    exact Memory.apply_of_slice ahead below
  apply whileLoop_counter (by omega) (by omega)
  · intro position lower upper
    obtain ⟨offset, rfl⟩ := Nat.exists_eq_add_of_le lower
    have short : offset < text.length := by omega
    have byte := byteAt offset (by rw [List.length_append]; omega)
    simp only [List.get_eq_getElem, List.getElem_append_left short] at byte
    have printable := plain _ (List.getElem_mem short)
    rw [← byte] at printable
    simp only [decide_eq_true_eq]
    exact ⟨by omega, printable⟩
  · have byte := byteAt text.length (by simp)
    simp only [List.get_eq_getElem, List.getElem_append_right le_rfl, Nat.sub_self,
      List.getElem_cons_zero] at byte
    rw [← byte] at closed
    rcases closed with newline | nul
    · simp [newline]
    · simp [nul]

/-- A row is cut off by a NUL, and nothing else has changed yet. -/
theorem cut_row {memory after : Memory} {p i : Nat} {text rest : List UInt8} {terminator : UInt8}
    (ahead : memory.slice (p + i) (text ++ terminator :: rest).length =
      text ++ terminator :: rest) (set : after = memory.set (p + (i + text.length)) 0) :
    after.slice (p + i) text.length = text ∧
      after.slice (p + (i + text.length + 1)) rest.length = rest ∧
      after (p + i + text.length) = 0 ∧
      ∀ offset, offset < p + i → after offset = memory offset := by
  have bytes : text ++ terminator :: rest = text ++ ([terminator] ++ rest) := by simp
  rw [bytes, List.length_append, List.length_append, Memory.slice_append, Memory.slice_append]
    at ahead
  obtain ⟨whole, behind⟩ := List.append_inj ahead (by simp)
  have tail := List.append_inj_right behind (by simp)
  subst set
  refine ⟨?_, ?_, ?_, ?_⟩
  · nth_rewrite 3 [← whole]
    apply Memory.slice_congr
    intro offset below
    exact Memory.set_other _ _ (by omega)
  · nth_rewrite 2 [← tail]
    apply Memory.slice_congr
    intro offset _
    rw [Memory.set_other _ _ (by omega)]
    congr 1
    simp only [List.length_singleton]
    omega
  · rw [Nat.add_assoc, Memory.set_self]
  · intro offset below
    exact Memory.set_other _ _ (by omega)

theorem linkReply_linked {memory : Memory} {session : Session} {addresses : List Nat}
    {address fuel : Nat} (linked : Linked 0 memory.loadWord session.replyData addresses)
    (apart : addresses.Pairwise fun first second => first + 8 ≤ second)
    (before : ∀ other ∈ addresses, other + 8 ≤ address) (ends : memory.loadWord address = 0)
    (present : address ≠ 0) (small : address < 2 ^ 64) (enough : addresses.length < fuel) :
    ∃ after reply, linkReply fuel address session memory =
        some ({ session with replyData := reply }, after) ∧
      Linked 0 after.loadWord reply (addresses ++ [address]) ∧
      ∀ offset, (∀ other ∈ addresses, offset < other ∨ other + 8 ≤ offset) →
        after offset = memory offset := by
  rcases List.eq_nil_or_concat addresses with rfl | ⟨others, last, rfl⟩
  · have idle : session.replyData = 0 := linked
    refine ⟨memory, address, by simp [linkReply, idle], ⟨rfl, present, ends⟩, ?_⟩
    intro offset _
    rfl
  · rw [List.concat_eq_append] at *
    have busy : session.replyData ≠ 0 := by
      cases others with
      | nil => exact linked.head_ne_null
      | cons _ _ => exact linked.head_ne_null
    have shorter : others.length < fuel := by
      rw [List.length_append] at enough
      omega
    have found := linked.whileLoop_last shorter
    have behind := before last (by simp)
    refine ⟨memory.storeWord last address, session.replyData, ?_, ?_, ?_⟩
    · simp only [linkReply, busy, if_false, found, Option.map_some]
    · have kept : ∀ other ∈ others,
          (memory.storeWord last address).loadWord other = memory.loadWord other := by
        intro other member
        have earlier := (List.pairwise_append.mp apart).2.2 other member last (by simp)
        apply Memory.loadWord_congr
        intro offset lower upper
        exact Memory.storeWord_outside _ (by omega)
      have ended : (memory.storeWord last address).loadWord address = 0 := by
        rw [← ends]
        apply Memory.loadWord_congr
        intro offset lower upper
        exact Memory.storeWord_outside _ (by omega)
      have appended := linked.snoc present kept (Memory.loadWord_storeWord _ _ small) ended
      rwa [List.append_assoc]
    · intro offset outside
      exact Memory.storeWord_outside _ (outside last (by simp))

end DirtyCode.ConfServer
