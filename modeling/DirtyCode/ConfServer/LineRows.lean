import DirtyCode.ConfServer.RowChains

/-!
A segment of lines `a.b.c.d payload` as the rows of the parser: a line is a row of its
own up to its first NUL, and each later NUL cuts a row out of its payload.
-/

namespace DirtyCode.ConfServer

open Lib

namespace Line

def rows (line : Line) : List TextRow := (splitRows EndsRow (line.text ++ [10])).1

-- the line up to its first NUL
def head (line : Line) : List UInt8 :=
  line.address ++ 32 :: line.payload.takeWhile fun byte => byte ≠ 0

def rest (line : Line) : List UInt8 :=
  List.replicate (line.address.length - 7) 32 ++ line.payload

theorem seven_le_address (line : Line) : 7 ≤ line.address.length := by
  have first := List.length_pos_of_ne_nil line.first.nonempty
  have second := List.length_pos_of_ne_nil line.second.nonempty
  have third := List.length_pos_of_ne_nil line.third.nonempty
  have fourth := List.length_pos_of_ne_nil line.fourth.nonempty
  simp only [address, List.length_append, List.length_cons]
  omega

theorem length_text (line : Line) :
    line.text.length = line.address.length + 1 + line.payload.length := by
  simp only [text, List.length_append, List.length_cons]
  omega

theorem address_byte {line : Line} {byte : UInt8} (member : byte ∈ line.address) :
    byte = 46 ∨ isDigit byte = true := by
  simp only [address, List.mem_append, List.mem_cons] at member
  rcases member with member | rfl | member | rfl | member | rfl | member
  · exact .inr (line.first.digit byte member)
  · exact .inl rfl
  · exact .inr (line.second.digit byte member)
  · exact .inl rfl
  · exact .inr (line.third.digit byte member)
  · exact .inl rfl
  · exact .inr (line.fourth.digit byte member)

theorem address_not_mem (line : Line) :
    0 ∉ line.address ∧ 10 ∉ line.address ∧ 32 ∉ line.address := by
  refine ⟨?_, ?_, ?_⟩ <;>
    intro member <;>
    have either := address_byte member <;>
    simp [isDigit] at either

theorem firstBlank_address (line : Line) (rest : List UInt8) :
    firstBlank (line.address ++ 32 :: rest) = line.address.length := by
  have none : line.address.findIdx (fun byte => decide (byte = 32)) = line.address.length := by
    rw [List.findIdx_eq_length]
    intro byte member
    rw [decide_eq_false_iff_not]
    rintro rfl
    exact line.address_not_mem.2.2 member
  rw [firstBlank, List.findIdx_append, none, if_neg (Nat.lt_irrefl _)]
  simp [List.findIdx_cons]

theorem queues_address (line : Line) (rest : List UInt8) :
    Queues (line.address ++ 32 :: rest) := by
  have longer := line.seven_le_address
  rw [Queues, firstBlank_address, List.length_append, List.length_cons]
  omega

theorem replyText_text (line : Line) : replyText line.text = line.rest := by
  have longer := line.seven_le_address
  rw [replyText, text, firstBlank_address, rest]
  by_cases short : line.address.length = 7
  · simp [short, List.drop_append]
  · obtain ⟨more, length⟩ := Nat.exists_eq_add_of_le (by omega : 8 ≤ line.address.length)
    have pad : line.address.length - 7 = more + 1 := by omega
    have pad' : line.address.length - 8 = more := by omega
    rw [max_eq_left (by omega), List.drop_left, pad, pad', List.replicate_succ', List.append_assoc]
    rfl

theorem head_eq_text {line : Line} (clean : 0 ∉ line.payload) : line.head = line.text := by
  have whole : line.payload.takeWhile (fun byte => decide (byte ≠ 0)) = line.payload := by
    rw [List.takeWhile_eq_self_iff]
    intro byte member
    rw [decide_eq_true_eq]
    rintro rfl
    exact clean member
  rw [head, text, whole]

theorem stream_rows (line : Line) : stream line.rows = line.text ++ [10] := by
  have whole := stream_splitRows EndsRow (line.text ++ [10])
  rwa [splitRows_closed (.inl rfl), List.append_nil] at whole

theorem rows_cons (line : Line) :
    ∃ row later, line.rows = row :: later ∧ row.text = line.head := by
  have plain : ∀ byte ∈ line.head, ¬EndsRow byte := by
    intro byte member
    rw [head, List.mem_append, List.mem_cons] at member
    rcases member with inside | rfl | inside
    · rintro (rfl | rfl)
      · exact line.address_not_mem.2.1 inside
      · exact line.address_not_mem.1 inside
    · rintro (newline | nul)
      · simp at newline
      · simp at nul
    · rintro (rfl | rfl)
      · exact line.unbroken ((List.takeWhile_prefix _).subset inside)
      · simpa using List.mem_takeWhile_imp inside
  obtain ⟨terminator, closed, later, bytes⟩ : ∃ terminator, EndsRow terminator ∧ ∃ later,
      line.text ++ [10] = line.head ++ terminator :: later := by
    have split := List.takeWhile_append_dropWhile (p := fun byte => decide (byte ≠ 0))
      (l := line.payload)
    have first := List.head?_dropWhile_not (fun byte => decide (byte ≠ 0)) line.payload
    cases behind : line.payload.dropWhile fun byte => decide (byte ≠ 0) with
    | nil =>
        rw [behind, List.append_nil] at split
        refine ⟨10, .inl rfl, [], ?_⟩
        rw [head, text, split]
    | cons nul more =>
        rw [behind] at split first
        have zero : nul = 0 := by simpa using first
        refine ⟨nul, .inr zero, more ++ [10], ?_⟩
        rw [head, text]
        nth_rewrite 1 [← split]
        simp
  refine ⟨⟨line.head, terminator, closed, plain⟩, (splitRows EndsRow later).1, ?_, rfl⟩
  rw [rows, bytes]
  exact congrArg Prod.fst (splitRows_row ⟨line.head, terminator, closed, plain⟩ later)

end Line

/-- The rows that the parser sees of some lines. -/
def segmentRows (lines : List Line) : List TextRow := lines.flatMap Line.rows

theorem segmentRows_cons (line : Line) (rest : List Line) :
    segmentRows (line :: rest) = line.rows ++ segmentRows rest := List.flatMap_cons

theorem stream_segmentRows (lines : List Line) : stream (segmentRows lines) = segment lines := by
  induction lines with
  | nil => rfl
  | cons line rest ih =>
      rw [segmentRows_cons, stream_append, line.stream_rows, ih, segment, segment,
        List.flatMap_cons]

theorem rowPlace_address (nWorkers : Nat) (tables : Tables) (line : Line) (rest : List UInt8) :
    rowPlace nWorkers tables (line.address ++ 32 :: rest) = placeOf nWorkers tables line.ip := by
  obtain ⟨first, second, third, fourth⟩ := ipByte_ip line
  simp only [rowPlace, rowLookup, placeOf, lookupAddress, lookupIndex, scanAddress_address,
    Option.bind_some, first, second, third, fourth]

abbrev Node := Nat × Line

def starts : Nat → List Line → List Node
  | _, [] => []
  | base, line :: rest => (base, line) :: starts (base + line.text.length + 1) rest

/-- The lines with an address, where they stand in the buffer. -/
def ownNodes (base : Nat) (lines : List Line) (ip : BitVec 32) : List Node :=
  (starts base lines).filter fun node => node.2.ip = ip

theorem ownNodes_cons (base : Nat) (line : Line) (rest : List Line) (ip : BitVec 32) :
    ownNodes base (line :: rest) ip = (if line.ip = ip then [(base, line)] else []) ++
      ownNodes (base + line.text.length + 1) rest ip := by
  by_cases own : line.ip = ip
  · simp [ownNodes, starts, own]
  · simp [ownNodes, starts, own]

theorem ownNodes_bounds {base : Nat} {lines : List Line} {ip : BitVec 32} {node : Node}
    (member : node ∈ ownNodes base lines ip) : base ≤ node.1 := by
  induction lines generalizing base with
  | nil => simp [ownNodes, starts] at member
  | cons line rest ih =>
      rw [ownNodes_cons, List.mem_append] at member
      rcases member with here | later
      · split at here
        · rw [List.mem_singleton.mp here]
        · contradiction
      · have bound := ih later
        omega

section Queue

variable {nWorkers : Nat} {tables : Tables} {thread : Int} {slot : Nat} {ip : BitVec 32}

/-- A line reaches the session at a place just where it bears the address, and nothing
behind a NUL of it does. -/
def Reaches (nWorkers : Nat) (tables : Tables) (thread : Int) (slot : Nat) (ip : BitVec 32)
    (line : Line) : Prop :=
  (placeOf nWorkers tables line.ip = some (thread, slot) ↔ line.ip = ip) ∧
    ∀ row ∈ line.rows.tail, ¬QueuedAt (rowPlace nWorkers tables) (thread, slot) row.text

instance (line : Line) : Decidable (Reaches nWorkers tables thread slot ip line) :=
  inferInstanceAs (Decidable (_ ∧ _))

theorem rowNodes_eq_nil {base : Nat} {rows : List TextRow} :
    rowNodes nWorkers tables base rows thread slot = [] ↔
      ∀ row ∈ rows, ¬QueuedAt (rowPlace nWorkers tables) (thread, slot) row.text := by
  induction rows generalizing base with
  | nil => simp [rowNodes, rowStarts]
  | cons row rest ih =>
      have later := @ih (base + row.text.length + 1)
      rw [List.forall_mem_cons, ← later]
      by_cases queued : QueuedAt (rowPlace nWorkers tables) (thread, slot) row.text
      · have here := queued
        rw [QueuedAt] at here
        simp [rowNodes, rowStarts, here, queued]
      · have apart := queued
        rw [QueuedAt] at apart
        simp [rowNodes, rowStarts, apart, queued]

variable (nWorkers tables thread slot) in
theorem rowNodes_line (base : Nat) (line : Line) :
    ∃ row later, line.rows = row :: later ∧ row.text = line.head ∧
      rowNodes nWorkers tables base line.rows thread slot =
        (if placeOf nWorkers tables line.ip = some (thread, slot) then [(base, line.head)]
          else []) ++
          rowNodes nWorkers tables (base + row.text.length + 1) later thread slot := by
  obtain ⟨row, later, split, text⟩ := line.rows_cons
  refine ⟨row, later, split, text, ?_⟩
  have named : rowPlace nWorkers tables line.head = placeOf nWorkers tables line.ip :=
    rowPlace_address nWorkers tables line _
  have queues : Queues line.head := line.queues_address _
  rw [split, rowNodes, rowStarts, List.filter_cons, text, named]
  by_cases placed : placeOf nWorkers tables line.ip = some (thread, slot)
  · simp [rowNodes, placed, queues]
  · simp [rowNodes, placed]

theorem rowNodes_segmentRows (base : Nat) (line : Line) (rest : List Line) :
    rowNodes nWorkers tables base (segmentRows (line :: rest)) thread slot =
      rowNodes nWorkers tables base line.rows thread slot ++
        rowNodes nWorkers tables (base + line.text.length + 1) (segmentRows rest) thread slot := by
  have length : base + (stream line.rows).length = base + line.text.length + 1 := by
    rw [line.stream_rows, List.length_append, List.length_singleton, Nat.add_assoc]
  rw [segmentRows_cons, rowNodes_append, length]

/-- When the lines of an address reach a place, and are whole, they are what is queued there. -/
theorem rowNodes_lines {base : Nat} {lines : List Line}
    (reaches : ∀ line ∈ lines, Reaches nWorkers tables thread slot ip line)
    (whole : ∀ line ∈ lines, line.ip = ip → 0 ∉ line.payload) :
    rowNodes nWorkers tables base (segmentRows lines) thread slot =
      (ownNodes base lines ip).map fun node => (node.1, node.2.text) := by
  induction lines generalizing base with
  | nil => rfl
  | cons line rest ih =>
      have later := @ih (base + line.text.length + 1)
        (fun other member => reaches other (List.mem_cons_of_mem _ member))
        (fun other member => whole other (List.mem_cons_of_mem _ member))
      obtain ⟨placed, unmixed⟩ := reaches line List.mem_cons_self
      obtain ⟨row, fragments, split, -, queue⟩ := rowNodes_line nWorkers tables thread
        slot base line
      rw [split, List.tail_cons] at unmixed
      rw [rowNodes_segmentRows, queue, rowNodes_eq_nil.mpr unmixed, List.append_nil, later,
        ownNodes_cons, List.map_append]
      congr 1
      by_cases own : line.ip = ip
      · rw [if_pos (placed.mpr own), if_pos own,
          Line.head_eq_text (whole line List.mem_cons_self own)]
        rfl
      · rw [if_neg fun here => own (placed.mp here), if_neg own]
        rfl

theorem append_parts (bound : Nat) {first second left right : List Nat}
    (same : first ++ second = left ++ right)
    (low : ∀ address ∈ first, address < bound) (lowLeft : ∀ address ∈ left, address < bound)
    (high : ∀ address ∈ second, bound ≤ address) (highRight : ∀ address ∈ right, bound ≤ address) :
    first = left ∧ second = right := by
  have below : ∀ {low high : List Nat}, (∀ address ∈ low, address < bound) →
      (∀ address ∈ high, bound ≤ address) → (low ++ high).filter (· < bound) = low := by
    intro low high lower upper
    rw [List.filter_append, List.filter_eq_self.mpr (by simpa using lower),
      List.filter_eq_nil_iff.mpr (by simpa using upper), List.append_nil]
  have parts : first = left := by rw [← below low high, ← below lowLeft highRight, same]
  exact ⟨parts, List.append_cancel_left (parts ▸ same)⟩

theorem rowNodes_high {base : Nat} {rows : List TextRow} {address : Nat}
    (member : address ∈ (rowNodes nWorkers tables base rows thread slot).map Prod.fst) :
    base ≤ address ∧ address < base + (stream rows).length := by
  obtain ⟨node, inside, rfl⟩ := List.mem_map.mp member
  have bounds := rowStarts_bounds (mem_rowNodes inside).1
  omega

theorem reaches_of_addresses (base : Nat) {line : Line}
    (same : (rowNodes nWorkers tables base line.rows thread slot).map Prod.fst =
      if line.ip = ip then [base] else []) :
    Reaches nWorkers tables thread slot ip line := by
  obtain ⟨row, later, split, -, queue⟩ := rowNodes_line nWorkers tables thread slot
    base line
  have sum : (if placeOf nWorkers tables line.ip = some (thread, slot) then [base] else []) ++
      (rowNodes nWorkers tables (base + row.text.length + 1) later thread slot).map Prod.fst =
      (if line.ip = ip then [base] else []) ++ [] := by
    rw [List.append_nil, ← same, queue, List.map_append]
    congr 1
    split <;> rfl
  obtain ⟨first, none⟩ := append_parts (base + 1) sum (by split <;> simp)
    (by split <;> simp) (fun address member => by have bounds := rowNodes_high member; omega)
    (by simp)
  refine ⟨⟨?_, ?_⟩, ?_⟩
  · intro placed
    by_contra foreign
    rw [if_pos placed, if_neg foreign] at first
    contradiction
  · intro own
    by_contra elsewhere
    rw [if_neg elsewhere, if_pos own] at first
    contradiction
  · rw [split, List.tail_cons]
    exact rowNodes_eq_nil.mp (List.map_eq_nil_iff.mp none)

/-- When the queue at a place holds just the lines of an address, they all reach it. -/
theorem reaches_of_queue {base : Nat} {lines : List Line}
    (same : (rowNodes nWorkers tables base (segmentRows lines) thread slot).map Prod.fst =
      (ownNodes base lines ip).map Prod.fst) :
    ∀ line ∈ lines, Reaches nWorkers tables thread slot ip line := by
  induction lines generalizing base with
  | nil => simp
  | cons line rest ih =>
      rw [rowNodes_segmentRows, ownNodes_cons, List.map_append, List.map_append] at same
      obtain ⟨here, later⟩ := append_parts (base + line.text.length + 1) same
        (fun address member => by
          have bounds := rowNodes_high member
          rw [line.stream_rows, List.length_append, List.length_singleton] at bounds
          omega)
        (fun address member => by
          split at member
          · rw [List.map_singleton, List.mem_singleton] at member
            omega
          · contradiction)
        (fun address member => (rowNodes_high member).1)
        (fun address member => by
          obtain ⟨node, inside, rfl⟩ := List.mem_map.mp member
          exact ownNodes_bounds inside)
      refine List.forall_mem_cons.mpr ⟨reaches_of_addresses base ?_, ih later⟩
      rw [here]
      split <;> rfl

end Queue

end DirtyCode.ConfServer
