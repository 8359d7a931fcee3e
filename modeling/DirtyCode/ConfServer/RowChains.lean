import DirtyCode.ConfServer.Rows

/-!
`parse_input_conf` over any bytes: the invariant of its loop, and the chains it
leaves behind the rows of the buffer.
-/

namespace DirtyCode.ConfServer

open Lib

def rowStarts : Nat → List TextRow → List RowNode
  | _, [] => []
  | base, row :: rest => (base, row.text) :: rowStarts (base + row.text.length + 1) rest

/-- The rows that the parser queues for the session at a place. -/
def rowNodes (nWorkers : Nat) (tables : Tables) (base : Nat) (rows : List TextRow) (thread : Int)
    (slot : Nat) : List RowNode :=
  (rowStarts base rows).filter fun node =>
    rowPlace nWorkers tables node.2 = some (thread, slot) ∧ Queues node.2

def Tables.withReplies (tables : Tables) (reply : Int → Nat → Nat) : Tables :=
  { tables with
    sessionArray := fun thread slot => (tables.sessionArray thread slot).map fun session =>
      { session with replyData := reply thread slot } }

def setReply (reply : Int → Nat → Nat) (thread : Int) (slot value : Nat) : Int → Nat → Nat :=
  Function.update reply thread (Function.update (reply thread) slot value)

/-- The loop of `parse_input_conf` between two rows, with bytes behind the last one. -/
structure RowsParsed (cfg : Config) (tables : Tables) (done todo : List TextRow)
    (tail : List UInt8) (parse : Parse) (reply : Int → Nat → Nat) : Prop where
  index : parse.i = (stream done).length
  ahead : parse.memory.slice (cfg.globalInputBuf + parse.i) (stream todo ++ tail).length =
    stream todo ++ tail
  entries : parse.tables = tables.withReplies reply
  held : ∀ thread slot, ∀ node ∈ rowNodes cfg.nWorkers tables cfg.globalInputBuf done thread slot,
    RowHeld parse.memory node
  chains : ∀ thread slot, Linked 0 parse.memory.loadWord (reply thread slot)
    ((rowNodes cfg.nWorkers tables cfg.globalInputBuf done thread slot).map Prod.fst)
  scan : parse.j = done.foldl
    (fun j row => scanBehind (rowPlace cfg.nWorkers tables) j row.text) 0
  inStep : InStepFrom (rowPlace cfg.nWorkers tables) parse.j todo

theorem rowStarts_append (base : Nat) (first second : List TextRow) :
    rowStarts base (first ++ second) =
      rowStarts base first ++ rowStarts (base + (stream first).length) second := by
  induction first generalizing base with
  | nil => rfl
  | cons row rest ih =>
      have shifted : base + row.text.length + 1 + (stream rest).length =
          base + (stream (row :: rest)).length := by
        rw [length_stream_cons]
        omega
      simp only [List.cons_append, rowStarts, ih, shifted]

theorem rowStarts_bounds {base : Nat} {rows : List TextRow} {node : RowNode}
    (member : node ∈ rowStarts base rows) :
    base ≤ node.1 ∧ node.1 + node.2.length < base + (stream rows).length := by
  induction rows generalizing base with
  | nil => simp [rowStarts] at member
  | cons row rest ih =>
      rw [length_stream_cons]
      simp only [rowStarts, List.mem_cons] at member
      rcases member with rfl | later
      · simp only
        omega
      · have bounds := ih later
        omega

theorem length_rowStarts (base : Nat) (rows : List TextRow) :
    (rowStarts base rows).length = rows.length := by
  induction rows generalizing base with
  | nil => rfl
  | cons row rest ih => simp [rowStarts, ih]

/-- One row ends before the other begins. -/
def RowBefore (first second : RowNode) : Prop := first.1 + first.2.length < second.1

theorem rowStarts_pairwise (base : Nat) (rows : List TextRow) :
    (rowStarts base rows).Pairwise RowBefore := by
  induction rows generalizing base with
  | nil => exact .nil
  | cons row rest ih =>
      refine List.pairwise_cons.mpr ⟨?_, ih _⟩
      intro node member
      have bounds := rowStarts_bounds member
      simp only [RowBefore]
      omega

theorem rowStarts_apart {base : Nat} {rows : List TextRow} {first second : RowNode}
    (left : first ∈ rowStarts base rows) (right : second ∈ rowStarts base rows) :
    first = second ∨ RowBefore first second ∨ RowBefore second first := by
  induction rows generalizing base with
  | nil => simp [rowStarts] at left
  | cons row rest ih =>
      have pairwise := List.pairwise_cons.mp (rowStarts_pairwise base (row :: rest))
      simp only [rowStarts, List.mem_cons] at left right
      rcases left with rfl | left <;> rcases right with rfl | right
      · exact .inl rfl
      · exact .inr (.inl (pairwise.1 second right))
      · exact .inr (.inr (pairwise.1 first left))
      · exact ih left right

theorem setReply_self (reply : Int → Nat → Nat) (thread : Int) (slot value : Nat) :
    setReply reply thread slot value thread slot = value := by
  simp [setReply]

theorem setReply_other (reply : Int → Nat → Nat) {thread other : Int} {slot place : Nat}
    (value : Nat) (apart : ¬(other = thread ∧ place = slot)) :
    setReply reply thread slot value other place = reply other place := by
  by_cases same : other = thread
  · subst same
    have different : place ≠ slot := by
      intro equal
      exact apart ⟨rfl, equal⟩
    simp [setReply, different]
  · simp [setReply, same]

theorem lookupSession_withReplies (nWorkers : Nat) (tables : Tables) (reply : Int → Nat → Nat)
    (ipv4 index : Int) :
    lookupSession nWorkers (tables.withReplies reply) ipv4 index =
      (lookupSession nWorkers tables ipv4 index).map fun found =>
        (found.1, found.2.1, { found.2.2 with replyData := reply found.1 found.2.1 }) := by
  by_cases missing : tables.ipToSlotIdx index < 0
  · simp only [lookupSession, Tables.withReplies, missing, if_true, Option.map_none]
  · simp only [lookupSession, Tables.withReplies, missing, if_false, Option.map_map]
    rfl

theorem rowLookup_withReplies (nWorkers : Nat) (tables : Tables) (reply : Int → Nat → Nat)
    (text : List UInt8) :
    rowLookup nWorkers (tables.withReplies reply) text =
      (rowLookup nWorkers tables text).map fun found =>
        (found.1, found.2.1, { found.2.2 with replyData := reply found.1 found.2.1 }) := by
  simp only [rowLookup, lookupSession_withReplies, Option.map_bind]
  rfl

theorem setSlot_withReplies {tables : Tables} {reply : Int → Nat → Nat} {thread : Int}
    {slot : Nat} {session : Session} (entry : tables.sessionArray thread slot = some session)
    (value : Nat) :
    (tables.withReplies reply).setSlot thread slot (some { session with replyData := value }) =
      tables.withReplies (setReply reply thread slot value) := by
  have arrays : ((tables.withReplies reply).setSlot thread slot
      (some { session with replyData := value })).sessionArray =
      (tables.withReplies (setReply reply thread slot value)).sessionArray := by
    funext other place
    by_cases here : other = thread ∧ place = slot
    · obtain ⟨rfl, rfl⟩ := here
      rw [Tables.setSlot_self]
      simp [Tables.withReplies, entry, setReply_self]
    · rw [Tables.setSlot_other _ _ here]
      simp only [Tables.withReplies, setReply_other _ _ here]
  cases tables
  simp only [Tables.setSlot, Tables.withReplies] at arrays ⊢
  rw [arrays]

theorem rowNodes_append (nWorkers : Nat) (tables : Tables) (base : Nat)
    (first second : List TextRow) (thread : Int) (slot : Nat) :
    rowNodes nWorkers tables base (first ++ second) thread slot =
      rowNodes nWorkers tables base first thread slot ++
        rowNodes nWorkers tables (base + (stream first).length) second thread slot := by
  rw [rowNodes, rowStarts_append, List.filter_append]
  rfl

theorem rowNodes_snoc (nWorkers : Nat) (tables : Tables) (base : Nat) (done : List TextRow)
    (row : TextRow) (thread : Int) (slot : Nat) :
    rowNodes nWorkers tables base (done ++ [row]) thread slot =
      rowNodes nWorkers tables base done thread slot ++
        if rowPlace nWorkers tables row.text = some (thread, slot) ∧ Queues row.text then
          [(base + (stream done).length, row.text)] else [] := by
  rw [rowNodes_append]
  congr 1
  by_cases here : rowPlace nWorkers tables row.text = some (thread, slot) ∧ Queues row.text
  · simp [rowNodes, rowStarts, here]
  · rw [if_neg here]
    simpa [rowNodes, rowStarts] using here

theorem mem_rowNodes {nWorkers : Nat} {tables : Tables} {base : Nat} {rows : List TextRow}
    {thread : Int} {slot : Nat} {node : RowNode}
    (member : node ∈ rowNodes nWorkers tables base rows thread slot) :
    node ∈ rowStarts base rows ∧ rowPlace nWorkers tables node.2 = some (thread, slot) ∧
      Queues node.2 := by
  simpa [rowNodes] using member

def QueuedAt (place : List UInt8 → Option (Int × Nat)) (pair : Int × Nat) (text : List UInt8) :
    Prop := place text = some pair ∧ Queues text

instance (place : List UInt8 → Option (Int × Nat)) (pair : Int × Nat) :
    DecidablePred (QueuedAt place pair) := fun text =>
  inferInstanceAs (Decidable (place text = some pair ∧ Queues text))

def textQueue (place : List UInt8 → Option (Int × Nat)) (pair : Int × Nat) (text : List UInt8) :
    List (List UInt8) := if QueuedAt place pair text then [replyText text] else []

def rowQueue (place : List UInt8 → Option (Int × Nat)) (pair : Int × Nat) (rows : List TextRow) :
    List (List UInt8) := rows.flatMap fun row => textQueue place pair row.text

theorem rowNodes_replyText (nWorkers : Nat) (tables : Tables) (base : Nat) (rows : List TextRow)
    (thread : Int) (slot : Nat) :
    (rowNodes nWorkers tables base rows thread slot).map (fun node => replyText node.2) =
      rowQueue (rowPlace nWorkers tables) (thread, slot) rows := by
  induction rows generalizing base with
  | nil => rfl
  | cons row rest ih =>
      have later := ih (base + row.text.length + 1)
      rw [rowQueue, List.flatMap_cons, textQueue]
      simp only [rowNodes, rowStarts, List.filter_cons, decide_eq_true_eq]
      split
      · rw [if_pos (by assumption)]
        exact congrArg _ later
      · rw [if_neg (by assumption)]
        exact later

theorem rowNodes_plain {nWorkers : Nat} {tables : Tables} {base : Nat} {rows : List TextRow}
    {thread : Int} {slot : Nat} {node : RowNode}
    (member : node ∈ rowNodes nWorkers tables base rows thread slot) :
    ∀ byte ∈ node.2, byte ≠ 0 := by
  have inside := (mem_rowNodes member).1
  clear member
  induction rows generalizing base with
  | nil => simp [rowStarts] at inside
  | cons row rest ih =>
      rcases List.mem_cons.mp inside with rfl | later
      · intro byte member
        exact (TextRow.plain row byte member).2
      · exact ih later

section Step

variable {cfg : Config} {tables : Tables} {done todo : List TextRow} {row : TextRow}
  {tail : List UInt8} {parse : Parse} {reply : Int → Nat → Nat} {total fuel : Nat}

theorem RowsParsed.total_eq (parsed : RowsParsed cfg tables done (row :: todo) tail parse reply)
    (whole : total = (stream (done ++ row :: todo) ++ tail).length) :
    total = parse.i + (row.text.length + 1 + (stream todo ++ tail).length) := by
  rw [whole, stream_append, parsed.index]
  simp only [List.length_append, length_stream_cons]
  omega

theorem RowsParsed.split (parsed : RowsParsed cfg tables done (row :: todo) tail parse reply) :
    parse.memory.slice (cfg.globalInputBuf + parse.i)
        (row.text ++ row.terminator :: (stream todo ++ tail)).length =
      row.text ++ row.terminator :: (stream todo ++ tail) := by
  have bytes : stream (row :: todo) ++ tail =
      row.text ++ row.terminator :: (stream todo ++ tail) := by
    simp [stream_cons]
  rw [← bytes]
  exact parsed.ahead

theorem RowsParsed.bounds (parsed : RowsParsed cfg tables done todo tail parse reply)
    {thread : Int} {slot : Nat} {node : RowNode}
    (member : node ∈ rowNodes cfg.nWorkers tables cfg.globalInputBuf done thread slot) :
    8 ≤ node.2.length ∧ cfg.globalInputBuf ≤ node.1 ∧
      node.1 + node.2.length < cfg.globalInputBuf + parse.i := by
  obtain ⟨inside, -, queues⟩ := mem_rowNodes member
  have bounds := rowStarts_bounds inside
  rw [← parsed.index] at bounds
  exact ⟨queues.eight_le, bounds⟩

theorem RowsParsed.skip (parsed : RowsParsed cfg tables done (row :: todo) tail parse reply)
    {memory : Memory}
    (set : memory = parse.memory.set (cfg.globalInputBuf + (parse.i + row.text.length)) 0)
    (unqueued : rowPlace cfg.nWorkers tables row.text = none ∨ ¬Queues row.text) :
    RowsParsed cfg tables (done ++ [row]) todo tail
      { parse with
        memory := memory
        i := parse.i + row.text.length + 1
        j := scanBehind (rowPlace cfg.nWorkers tables) parse.j row.text } reply := by
  obtain ⟨-, ahead, -, below⟩ := cut_row parsed.split set
  have same : ∀ thread slot, rowNodes cfg.nWorkers tables cfg.globalInputBuf (done ++ [row]) thread
      slot = rowNodes cfg.nWorkers tables cfg.globalInputBuf done thread slot := by
    intro thread slot
    rw [rowNodes_snoc, if_neg, List.append_nil]
    rintro ⟨named, queues⟩
    rcases unqueued with missing | idle
    · rw [missing] at named
      contradiction
    · exact idle queues
  constructor
  · rw [stream_append, List.length_append, length_stream_cons, parsed.index]
    rfl
  · exact ahead
  · exact parsed.entries
  · intro thread slot node member
    rw [same] at member
    have bounds := parsed.bounds member
    apply (parsed.held thread slot node member).congr (mem_rowNodes member).2.2
    intro offset _ upper
    exact below offset (by omega)
  · intro thread slot
    rw [same]
    apply (parsed.chains thread slot).congr
    intro address member
    obtain ⟨node, inside, rfl⟩ := List.mem_map.mp member
    have bounds := parsed.bounds inside
    apply Memory.loadWord_congr
    intro offset _ upper
    exact below offset (by omega)
  · rw [List.foldl_append, ← parsed.scan]
    rfl
  · exact parsed.inStep.2

/-- The links of one session lie in its own rows, and there in the first eight bytes. -/
theorem apart_from_rowLinks {base : Nat} {node : RowNode} (inside : node ∈ rowStarts base done)
    {offset : Nat} (lower : node.1 ≤ offset) (upper : offset ≤ node.1 + node.2.length)
    {thread : Int} {slot : Nat} (elsewhere : node.1 + 8 ≤ offset ∨
      rowPlace cfg.nWorkers tables node.2 ≠ some (thread, slot)) :
    ∀ other ∈ rowNodes cfg.nWorkers tables base done thread slot,
      offset < other.1 ∨ other.1 + 8 ≤ offset := by
  intro other member
  obtain ⟨otherInside, located, queues⟩ := mem_rowNodes member
  have longer := queues.eight_le
  have apart := rowStarts_apart inside otherInside
  simp only [RowBefore] at apart
  rcases apart with rfl | left | right
  · rcases elsewhere with behind | foreign
    · omega
    · exact absurd located foreign
  · omega
  · omega

theorem rowNodes_apart (nWorkers : Nat) (base : Nat) (thread : Int) (slot : Nat) :
    ((rowNodes nWorkers tables base done thread slot).map Prod.fst).Pairwise
      fun first second => first + 8 ≤ second := by
  rw [List.pairwise_map]
  have ordered : (rowNodes nWorkers tables base done thread slot).Pairwise RowBefore :=
    (rowStarts_pairwise base done).filter _
  apply ordered.imp_of_mem
  intro first second member _ before
  have longer := (mem_rowNodes member).2.2.eight_le
  simp only [RowBefore] at before
  omega

theorem length_rowNodes_le (nWorkers : Nat) (tables : Tables) (base : Nat) (rows : List TextRow)
    (thread : Int) (slot : Nat) :
    (rowNodes nWorkers tables base rows thread slot).length ≤ (stream rows).length := by
  calc (rowNodes nWorkers tables base rows thread slot).length
      ≤ (rowStarts base rows).length := List.length_filter_le _ _
    _ = rows.length := length_rowStarts base rows
    _ ≤ (stream rows).length := length_le_stream rows

structure RowLinking (cfg : Config) (tables : Tables) (done todo : List TextRow) (row : TextRow)
    (tail : List UInt8) (parse : Parse) (thread : Int) (slot : Nat) (after : Memory)
    (head : Nat) : Prop where
  ahead : after.slice (cfg.globalInputBuf + (parse.i + row.text.length + 1))
    (stream todo ++ tail).length = stream todo ++ tail
  held : RowHeld after (cfg.globalInputBuf + parse.i, row.text)
  appended : Linked 0 after.loadWord head
    ((rowNodes cfg.nWorkers tables cfg.globalInputBuf done thread slot).map Prod.fst ++
      [cfg.globalInputBuf + parse.i])
  frame : ∀ offset < cfg.globalInputBuf + parse.i,
    (∀ other ∈ rowNodes cfg.nWorkers tables cfg.globalInputBuf done thread slot,
      offset < other.1 ∨ other.1 + 8 ≤ offset) → after offset = parse.memory offset

theorem RowsParsed.linking (parsed : RowsParsed cfg tables done (row :: todo) tail parse reply)
    {memory : Memory}
    (set : memory = parse.memory.set (cfg.globalInputBuf + (parse.i + row.text.length)) 0)
    (thread : Int) (slot : Nat) {session : Session} (head : session.replyData = reply thread slot)
    (reach : InReach parse.j row.text) (queues : Queues row.text)
    (short : parse.i + row.text.length < inputBufSize)
    (enough : parse.i + row.text.length < fuel) :
    ∃ after value, deliverLine fuel (cfg.globalInputBuf + parse.i) thread slot session
        { parse with memory := memory, i := parse.i + row.text.length + 1 } =
          some ⟨after, parse.tables.setSlot thread slot (some { session with replyData := value }),
            parse.i + row.text.length + 1, scanAfter parse.j row.text⟩ ∧
      RowLinking cfg tables done todo row tail parse thread slot after value := by
  obtain ⟨text, ahead, ends, below⟩ := cut_row parsed.split set
  have mapped := cfg.mapped
  have eight := queues.eight_le
  have plain : ∀ byte ∈ row.text.take (firstBlank row.text), byte ≠ 0 := fun byte member =>
    (TextRow.plain row byte (List.mem_of_mem_take member)).2
  obtain ⟨blanked, held, null, same, delivered⟩ := deliverLine_queues text ends plain
    { parse with memory := memory, i := parse.i + row.text.length + 1 } rfl reach queues
    (by omega : row.text.length < fuel) thread slot session
  let addresses := (rowNodes cfg.nWorkers tables cfg.globalInputBuf done thread slot).map Prod.fst
  have before : ∀ other ∈ addresses, other + 8 ≤ cfg.globalInputBuf + parse.i := by
    intro other member
    obtain ⟨node, inside, rfl⟩ := List.mem_map.mp member
    have bounds := parsed.bounds inside
    omega
  have linked : Linked 0 blanked.loadWord session.replyData addresses := by
    rw [head]
    apply (parsed.chains thread slot).congr
    intro address member
    have earlier := before address member
    apply Memory.loadWord_congr
    intro offset _ upper
    rw [same offset (.inl (by omega)), below offset (by omega)]
  have few : addresses.length < fuel := by
    have counted : addresses.length ≤ (stream done).length := by
      rw [List.length_map]
      exact length_rowNodes_le _ _ _ _ _ _
    rw [← parsed.index] at counted
    omega
  obtain ⟨after, value, ran, appended, frame⟩ := linkReply_linked linked
    (rowNodes_apart _ _ _ _) before null (by omega) (by omega) few
  have outside : ∀ offset, cfg.globalInputBuf + parse.i ≤ offset →
      after offset = blanked offset := by
    intro offset lower
    apply frame
    intro other member
    have earlier := before other member
    omega
  refine ⟨after, value, ?_, ?_, ?_, appended, ?_⟩
  · rw [delivered, ran]
    rfl
  · nth_rewrite 2 [← ahead]
    apply Memory.slice_congr
    intro offset _
    rw [outside _ (by omega), same _ (.inr (by omega))]
  · apply held.congr queues
    intro offset lower _
    exact outside offset (by simp only at lower; omega)
  · intro offset inside apart
    rw [frame offset, same offset (.inl inside), below offset inside]
    intro other member
    obtain ⟨node, own, rfl⟩ := List.mem_map.mp member
    exact apart node own

theorem RowLinking.parsed {thread : Int} {slot : Nat} {after : Memory} {head : Nat}
    (linking : RowLinking cfg tables done todo row tail parse thread slot after head)
    (parsed : RowsParsed cfg tables done (row :: todo) tail parse reply)
    (place : rowPlace cfg.nWorkers tables row.text = some (thread, slot))
    (queues : Queues row.text) :
    RowsParsed cfg tables (done ++ [row]) todo tail
      ⟨after, tables.withReplies (setReply reply thread slot head), parse.i + row.text.length + 1,
        scanBehind (rowPlace cfg.nWorkers tables) parse.j row.text⟩
      (setReply reply thread slot head) := by
  have start : cfg.globalInputBuf + (stream done).length = cfg.globalInputBuf + parse.i := by
    rw [parsed.index]
  constructor
  · rw [stream_append, List.length_append, length_stream_cons, parsed.index]
    rfl
  · exact linking.ahead
  · rfl
  · intro other place' node member
    rw [rowNodes_snoc, List.mem_append] at member
    rcases member with earlier | last
    · obtain ⟨inside, -, queued⟩ := mem_rowNodes earlier
      have bounds := parsed.bounds earlier
      apply (parsed.held other place' node earlier).congr queued
      intro offset lower upper
      exact linking.frame offset (by omega)
        (apart_from_rowLinks inside (by omega) upper (.inl lower))
    · split at last
      · rw [List.mem_singleton.mp last, start]
        exact linking.held
      · contradiction
  · intro other place'
    rw [rowNodes_snoc]
    by_cases mine : other = thread ∧ place' = slot
    · obtain ⟨rfl, rfl⟩ := mine
      rw [if_pos ⟨place, queues⟩, setReply_self, start, List.map_append]
      exact linking.appended
    · have apart : ¬(rowPlace cfg.nWorkers tables row.text = some (other, place') ∧
          Queues row.text) := by
        rw [place]
        rintro ⟨same, -⟩
        simp only [Option.some.injEq, Prod.mk.injEq] at same
        exact mine ⟨same.1.symm, same.2.symm⟩
      rw [if_neg apart, List.append_nil, setReply_other _ _ mine]
      apply (parsed.chains other place').congr
      intro address member
      obtain ⟨node, own, rfl⟩ := List.mem_map.mp member
      obtain ⟨inside, located, -⟩ := mem_rowNodes own
      have bounds := parsed.bounds own
      have foreign : rowPlace cfg.nWorkers tables node.2 ≠ some (thread, slot) := by
        rw [located, ne_eq, Option.some.injEq, Prod.mk.injEq]
        exact mine
      apply Memory.loadWord_congr
      intro offset lower upper
      exact linking.frame offset (by omega)
        (apart_from_rowLinks inside lower (by omega) (.inr foreign))
  · rw [List.foldl_append, ← parsed.scan]
    rfl
  · exact parsed.inStep.2

theorem RowsParsed.link (parsed : RowsParsed cfg tables done (row :: todo) tail parse reply)
    {memory : Memory}
    (set : memory = parse.memory.set (cfg.globalInputBuf + (parse.i + row.text.length)) 0)
    {thread : Int} {slot : Nat}
    (place : rowPlace cfg.nWorkers tables row.text = some (thread, slot))
    (short : parse.i + row.text.length < inputBufSize)
    (enough : parse.i + row.text.length < fuel) :
    ∃ after reply, parseLine cfg fuel (cfg.globalInputBuf + parse.i) row.text
        { parse with memory := memory, i := parse.i + row.text.length + 1 } = some after ∧
      RowsParsed cfg tables (done ++ [row]) todo tail after reply := by
  have named : (rowPlace cfg.nWorkers tables row.text).isSome = true := by rw [place]; rfl
  have reach := parsed.inStep.1 named
  have behind : scanBehind (rowPlace cfg.nWorkers tables) parse.j row.text =
      scanAfter parse.j row.text := if_pos named
  obtain ⟨session, entry, looked⟩ := rowLookup_of_rowPlace place
  let own := { session with replyData := reply thread slot }
  have found : rowLookup cfg.nWorkers parse.tables row.text = some (thread, slot, own) := by
    rw [parsed.entries, rowLookup_withReplies, looked]
    rfl
  by_cases queues : Queues row.text
  · obtain ⟨after, head, delivered, linking⟩ := parsed.linking set thread slot
      (rfl : own.replyData = reply thread slot) reach queues short enough
    have stored : parse.tables.setSlot thread slot (some { own with replyData := head }) =
        tables.withReplies (setReply reply thread slot head) := by
      rw [parsed.entries]
      exact setSlot_withReplies entry head
    rw [stored] at delivered
    refine ⟨_, setReply reply thread slot head, ?_, linking.parsed parsed place queues⟩
    rw [parseLine_row, found, behind]
    exact delivered
  · obtain ⟨text, -, ends, -⟩ := cut_row parsed.split set
    have plain : ∀ byte ∈ row.text.take (firstBlank row.text), byte ≠ 0 := fun byte member =>
    (TextRow.plain row byte (List.mem_of_mem_take member)).2
    refine ⟨_, reply, ?_, parsed.skip set (.inr queues)⟩
    rw [parseLine_row, found, behind]
    exact deliverLine_idle text ends plain
      { parse with memory := memory, i := parse.i + row.text.length + 1 } rfl reach queues
      (by omega : row.text.length < fuel) thread slot own

theorem parseLines_row {rest : List UInt8}
    (ahead : parse.memory.slice (cfg.globalInputBuf + parse.i)
        (row.text ++ row.terminator :: rest).length = row.text ++ row.terminator :: rest)
    (whole : total = parse.i + (row.text.length + 1 + rest.length)) (enough : total < fuel)
    (count : Nat) :
    parseLines cfg total fuel (count + 1) parse =
      (parseLine cfg fuel (cfg.globalInputBuf + parse.i) row.text
        { parse with
          memory := parse.memory.set (cfg.globalInputBuf + (parse.i + row.text.length)) 0
          i := parse.i + row.text.length + 1 }).bind (parseLines cfg total fuel count) := by
  have found : lineEnd parse.memory cfg.globalInputBuf total fuel parse.i =
      some (parse.i + row.text.length) :=
    lineEnd_row ahead (TextRow.plain row) row.closed (by omega) enough
  have more : parse.i < total := by omega
  have inner : ¬parse.i + row.text.length = total := by omega
  have text := (cut_row ahead rfl).1
  simp only [parseLines, more, if_true, found, Option.bind_some, inner, if_false,
    Nat.add_sub_cancel_left, text]

theorem RowsParsed.step (parsed : RowsParsed cfg tables done (row :: todo) tail parse reply)
    (whole : total = (stream (done ++ row :: todo) ++ tail).length)
    (fitting : total ≤ inputBufSize) (enough : total < fuel) (count : Nat) :
    ∃ after reply, parseLines cfg total fuel (count + 1) parse =
        parseLines cfg total fuel count after ∧
      RowsParsed cfg tables (done ++ [row]) todo tail after reply := by
  have total_eq := parsed.total_eq whole
  have turn := parseLines_row parsed.split total_eq enough count
  cases place : rowPlace cfg.nWorkers tables row.text with
  | none =>
      refine ⟨_, reply, ?_, parsed.skip rfl (.inl place)⟩
      have behind : scanBehind (rowPlace cfg.nWorkers tables) parse.j row.text = parse.j := by
        rw [scanBehind, place]
        rfl
      have missing : rowLookup cfg.nWorkers parse.tables row.text = none := by
        rw [parsed.entries, rowLookup_withReplies, Option.map_eq_none_iff.mp place]
        rfl
      rw [turn, parseLine_row, behind]
      simp only [missing, Option.bind_some]
  | some pair =>
      obtain ⟨after, head, linked, kept⟩ := parsed.link rfl place (by omega)
        (by omega : parse.i + row.text.length < fuel)
      exact ⟨after, head, by rw [turn, linked, Option.bind_some], kept⟩

theorem RowsParsed.run (parsed : RowsParsed cfg tables done todo tail parse reply)
    (whole : total = (stream (done ++ todo) ++ tail).length) (fitting : total ≤ inputBufSize)
    (enough : total < fuel) (count : Nat) :
    ∃ after last, parseLines cfg total fuel (todo.length + count) parse =
        parseLines cfg total fuel count after ∧
      RowsParsed cfg tables (done ++ todo) [] tail after last := by
  induction todo generalizing done parse reply with
  | nil =>
      rw [List.append_nil, List.length_nil, Nat.zero_add]
      exact ⟨parse, reply, rfl, parsed⟩
  | cons row todo ih =>
      obtain ⟨middle, head, turned, kept⟩ :=
        parsed.step whole fitting enough (todo.length + count)
      rw [List.append_cons] at whole ⊢
      obtain ⟨after, last, ran, result⟩ := ih kept whole
      refine ⟨after, last, ?_, result⟩
      rw [List.length_cons, Nat.add_right_comm, turned, ran]

theorem RowsParsed.finish (parsed : RowsParsed cfg tables done [] tail parse reply)
    (unfinished : ∀ byte ∈ tail, ¬EndsRow byte) (whole : total = (stream done ++ tail).length)
    (enough : total < fuel) (count : Nat) :
    parseLines cfg total fuel (count + 1) parse = some { parse with i := total } := by
  have total_eq : total = parse.i + tail.length := by
    rw [whole, parsed.index, List.length_append]
  by_cases more : parse.i < total
  · have ahead := parsed.ahead
    rw [stream_nil, List.nil_append] at ahead
    have found : lineEnd parse.memory cfg.globalInputBuf total fuel parse.i =
        some total := by
      apply whileLoop_counter (by omega) (by omega)
      · intro position lower upper
        obtain ⟨offset, rfl⟩ := Nat.exists_eq_add_of_le lower
        have inside : offset < tail.length := by omega
        have byte := Memory.apply_of_slice ahead inside
        rw [Nat.add_assoc] at byte
        have plain := unfinished _ (List.getElem_mem inside)
        rw [← byte, EndsRow, not_or] at plain
        simp only [decide_eq_true_eq]
        exact ⟨upper, plain⟩
      · simp
    simp only [parseLines, more, if_true, found, Option.bind_some]
  · have last : parse.i = total := by omega
    simp only [parseLines, more, if_false]
    rw [← last]

end Step

theorem RowsParsed.start {cfg : Config} {tables : Tables} {memory : Memory}
    {rows : List TextRow} {tail : List UInt8}
    (quiet : tables.withReplies (fun _ _ => 0) = tables)
    (received : memory.slice cfg.globalInputBuf (stream rows ++ tail).length = stream rows ++ tail)
    (inStep : InStepFrom (rowPlace cfg.nWorkers tables) 0 rows) :
    RowsParsed cfg tables [] rows tail ⟨memory, tables, 0, 0⟩ (fun _ _ => 0) := by
  constructor
  · rfl
  · exact received
  · exact quiet.symm
  · simp [rowNodes, rowStarts]
  · intro thread slot
    simp [rowNodes, rowStarts, Linked]
  · rfl
  · exact inStep

/-- `parse_input_conf` on any bytes ends with the queued rows of every session in its
chain. -/
theorem parseInputConf_rows (cfg : Config) {tables : Tables} {memory : Memory}
    {rows : List TextRow} {tail : List UInt8} {fuel : Nat}
    (quiet : tables.withReplies (fun _ _ => 0) = tables)
    (received : memory.slice cfg.globalInputBuf (stream rows ++ tail).length = stream rows ++ tail)
    (unfinished : ∀ byte ∈ tail, ¬EndsRow byte)
    (fitting : (stream rows ++ tail).length ≤ inputBufSize)
    (inStep : InStepFrom (rowPlace cfg.nWorkers tables) 0 rows)
    (enough : (stream rows ++ tail).length < fuel) :
    ∃ parse reply, parseInputConf cfg (stream rows ++ tail).length fuel tables memory =
        some { parse with i := (stream rows ++ tail).length } ∧
      RowsParsed cfg tables rows [] tail parse reply := by
  have counted := length_le_stream rows
  have longer : (stream rows ++ tail).length = (stream rows).length + tail.length :=
    List.length_append
  obtain ⟨count, turns⟩ := Nat.exists_eq_add_of_le (by omega : rows.length + 1 ≤ fuel)
  obtain ⟨parse, reply, ran, parsed⟩ := (RowsParsed.start quiet received inStep).run rfl fitting
    enough (count + 1)
  rw [List.nil_append] at ran parsed
  have ended := parsed.finish unfinished rfl enough count
  refine ⟨parse, reply, ?_, parsed⟩
  rw [← ended, ← ran, parseInputConf]
  congr 1
  omega

end DirtyCode.ConfServer
