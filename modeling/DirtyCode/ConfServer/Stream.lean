import DirtyCode.ConfServer.Delivery

/-!
A stream of lines that `get_input_thread` reads in segments: the payloads queued for
every session, against those of the stream in one segment.
-/

namespace DirtyCode.ConfServer

open Lib

def queuedPayloads (memory : Memory) (fuel : Nat) : Nat → Nat → Option (List (List UInt8))
  | 0, _ => none
  | count + 1, ptr =>
      if ptr = 0 then some []
      else
        (strlen memory fuel (ptr + 8)).bind fun len =>
          (queuedPayloads memory fuel count (memory.loadWord ptr)).map fun rest =>
            memory.slice (ptr + 8) len :: rest

-- `read(cl, buf, free_room)`
def readInput (cfg : Config) (segment : List UInt8) (memory : Memory) : Memory :=
  memory.memcpy cfg.globalInputBuf (fun offset => segment.getD offset 0) segment.length

/-- What one segment queues for the session at a place. -/
def segmentQueue (cfg : Config) (fuel : Nat) (tables : Tables) (stale : Memory)
    (segment : List UInt8) (thread : Int) (slot : Nat) : Option (List (List UInt8)) :=
  (parseInputConf cfg segment.length fuel tables (readInput cfg segment stale)).bind fun parse =>
    (parse.tables.sessionArray thread slot).bind fun session =>
      queuedPayloads parse.memory fuel fuel session.replyData

-- the reads from a turn on, each parsed and consumed before the next
def streamQueue (cfg : Config) (fuel : Nat) (tables : Nat → Tables) (stale : Nat → Memory)
    (thread : Int) (slot : Nat) : Nat → List (List UInt8) → Option (List (List UInt8))
  | _, [] => some []
  | turn, segment :: rest =>
      (segmentQueue cfg fuel (tables turn) (stale turn) segment thread slot).bind fun first =>
        (streamQueue cfg fuel tables stale thread slot (turn + 1) rest).map (first ++ ·)

/-- Between two reads the replies are consumed, and the connected sessions stay. -/
structure Steady (tables : Nat → Tables) : Prop where
  quiet : ∀ turn, Quiet (tables turn)
  index : ∀ turn, (tables turn).ipToSlotIdx = (tables 0).ipToSlotIdx
  sessions : ∀ turn thread slot, ((tables turn).sessionArray thread slot).isSome =
    ((tables 0).sessionArray thread slot).isSome

/-- Every connected session gets the payloads that one segment would bring it. -/
def SameQueues (cfg : Config) (fuel : Nat) (tables : Nat → Tables) (stale : Nat → Memory)
    (segments : List (List UInt8)) : Prop :=
  ∀ thread slot, ((tables 0).sessionArray thread slot).isSome = true →
    ∃ payloads, segmentQueue cfg fuel (tables 0) (stale 0) segments.flatten thread slot =
        some payloads ∧
      streamQueue cfg fuel tables stale thread slot 0 segments = some payloads

/-- What every segment queues, when its unfinished row is dropped. -/
def pieceQueue (place : List UInt8 → Option (Int × Nat)) (pair : Int × Nat)
    (segments : List (List UInt8)) : List (List UInt8) :=
  segments.flatMap fun segment => rowQueue place pair (splitRows EndsRow segment).1

section Pieces

variable {place : List UInt8 → Option (Int × Nat)} {pair : Int × Nat} {carry : List UInt8}
  {segments : List (List UInt8)} {rows : List TextRow}

theorem textQueue_other {text : List UInt8} (unqueued : ¬QueuedAt place pair text) :
    textQueue place pair text = [] := if_neg unqueued

theorem pieceQueue_unended {segment : List UInt8}
    (split : splitRows EndsRow segment = ([], segment)) :
    pieceQueue place pair (segment :: segments) = pieceQueue place pair segments := by
  simp [pieceQueue, split, rowQueue]

theorem pieceQueue_ended {segment tail : List UInt8} {row : TextRow} {more : List TextRow}
    (split : splitRows EndsRow segment = (row :: more, tail)) :
    pieceQueue place pair (segment :: segments) =
      textQueue place pair row.text ++ (rowQueue place pair more ++
        pieceQueue place pair segments) := by
  simp [pieceQueue, split, rowQueue]

theorem rowQueue_ended (row : TextRow) (more later : List TextRow) :
    rowQueue place pair (row :: more ++ later) =
      textQueue place pair row.text ++ (rowQueue place pair more ++ rowQueue place pair later) := by
  simp [rowQueue]

/-- The queued payloads and those of the cut rows together are those of the whole stream,
and of what is left of the cut rows. -/
theorem pieceQueue_perm (place : List UInt8 → Option (Int × Nat)) (pair : Int × Nat)
    (pieced : Pieced EndsRow carry segments rows) :
    (pieceQueue place pair segments ++
      (cutRows EndsRow carry segments).flatMap fun cut => textQueue place pair cut.1).Perm
    (rowQueue place pair rows ++
      (cutRows EndsRow carry segments).flatMap fun cut => textQueue place pair cut.2) := by
  induction pieced with
  | done => exact .refl _
  | unended split _ ih =>
      rw [pieceQueue_unended split, cutRows_unended split]
      exact ih
  | @ended carry segment tail segments row more later plain split _ ih =>
      rw [pieceQueue_ended split, rowQueue_ended, cutRows_ended split]
      by_cases whole : carry = []
      · subst whole
        rw [if_pos rfl, List.nil_append, List.append_assoc, List.append_assoc, List.append_assoc,
          List.append_assoc]
        exact (ih.append_left _).append_left _
      · have text : (row.extend carry plain).text = carry ++ row.text := rfl
        rw [List.perm_iff_count] at ih ⊢
        intro payload
        have counted := ih payload
        simp only [if_neg whole, text, List.flatMap_append, List.flatMap_singleton,
          List.count_append] at counted ⊢
        omega

/-- With no cut row queued, whole or in part, the order stays too. -/
theorem pieceQueue_eq (pieced : Pieced EndsRow carry segments rows)
    (kept : ∀ cut ∈ cutRows EndsRow carry segments,
      ¬QueuedAt place pair cut.1 ∧ ¬QueuedAt place pair cut.2) :
    pieceQueue place pair segments = rowQueue place pair rows := by
  induction pieced with
  | done => rfl
  | unended split _ ih =>
      rw [cutRows_unended split] at kept
      rw [pieceQueue_unended split]
      exact ih kept
  | @ended carry segment tail segments row more later plain split _ ih =>
      rw [cutRows_ended split] at kept
      have rest := ih fun cut member => kept cut (List.mem_append_right _ member)
      rw [pieceQueue_ended split, rowQueue_ended, rest]
      congr 1
      by_cases whole : carry = []
      · subst whole
        rfl
      · have first := kept (carry ++ row.text, row.text) (by simp [whole])
        exact (textQueue_other first.2).trans (textQueue_other first.1).symm

theorem textQueues_eq_nil (cuts : List (List UInt8 × List UInt8))
    (part : List UInt8 × List UInt8 → List UInt8) :
    (cuts.flatMap fun cut => textQueue place pair (part cut)) = [] ↔
      ∀ cut ∈ cuts, ¬QueuedAt place pair (part cut) := by
  rw [List.flatMap_eq_nil_iff]
  apply forall₂_congr
  intro cut _
  simp [textQueue]

theorem unqueued_of_perm {cuts : List (List UInt8 × List UInt8)}
    (balanced : (cuts.flatMap fun cut => textQueue place pair cut.1).Perm
      (cuts.flatMap fun cut => textQueue place pair cut.2))
    (either : ∀ lost ∈ cuts, ∀ stray ∈ cuts, QueuedAt place pair lost.1 →
      ¬QueuedAt place pair stray.2) :
    ∀ cut ∈ cuts, ¬QueuedAt place pair cut.1 ∧ ¬QueuedAt place pair cut.2 := by
  by_cases losing : ∃ lost ∈ cuts, QueuedAt place pair lost.1
  · obtain ⟨lost, member, queued⟩ := losing
    have strays := (textQueues_eq_nil cuts Prod.snd).mpr fun stray other =>
      either lost member stray other queued
    rw [strays] at balanced
    have none := (textQueues_eq_nil cuts Prod.fst).mp balanced.eq_nil
    exact absurd queued (none lost member)
  · have kept : ∀ cut ∈ cuts, ¬QueuedAt place pair cut.1 := by
      intro cut member queued
      exact losing ⟨cut, member, queued⟩
    have losses := (textQueues_eq_nil cuts Prod.fst).mpr kept
    rw [losses] at balanced
    have none := (textQueues_eq_nil cuts Prod.snd).mp balanced.symm.eq_nil
    intro cut member
    exact ⟨kept cut member, none cut member⟩

end Pieces

theorem rowPlace_steady {tables : Nat → Tables} (steady : Steady tables) (nWorkers turn : Nat) :
    rowPlace nWorkers (tables turn) = rowPlace nWorkers (tables 0) := by
  have looked : ∀ ipv4 index, (lookupSession nWorkers (tables turn) ipv4 index).map
      (fun found => (found.1, found.2.1)) = (lookupSession nWorkers (tables 0) ipv4 index).map
      (fun found => (found.1, found.2.1)) := by
    intro ipv4 index
    simp only [lookupSession, steady.index turn]
    split
    · rfl
    · have present := steady.sessions turn (parseThread nWorkers ipv4)
        ((tables 0).ipToSlotIdx index).toNat
      simp only [Option.map_map]
      cases here : (tables turn).sessionArray (parseThread nWorkers ipv4)
          ((tables 0).ipToSlotIdx index).toNat <;>
        cases there : (tables 0).sessionArray (parseThread nWorkers ipv4)
          ((tables 0).ipToSlotIdx index).toNat <;>
        simp [here, there] at present ⊢
  funext text
  simp only [rowPlace, rowLookup, Option.map_bind]
  cases scanAddress text with
  | none => rfl
  | some numbers => exact looked _ _

theorem queuedPayloads_nodes {memory : Memory} {nodes : List RowNode} {head fuel count : Nat}
    (linked : Linked 0 memory.loadWord head (nodes.map Prod.fst))
    (held : ∀ node ∈ nodes, RowHeld memory node) (queues : ∀ node ∈ nodes, Queues node.2)
    (plain : ∀ node ∈ nodes, ∀ byte ∈ node.2, byte ≠ 0)
    (enough : ∀ node ∈ nodes, node.2.length < fuel) (turns : nodes.length < count) :
    queuedPayloads memory fuel count head = some (nodes.map fun node => replyText node.2) := by
  induction nodes generalizing head count with
  | nil =>
      obtain ⟨count, rfl⟩ := Nat.exists_eq_succ_of_ne_zero (by omega : count ≠ 0)
      have empty : head = 0 := linked
      simp [queuedPayloads, empty]
  | cons node rest ih =>
      obtain ⟨count, rfl⟩ := Nat.exists_eq_succ_of_ne_zero (by omega : count ≠ 0)
      rw [List.map_cons] at linked
      obtain ⟨rfl, present, tail⟩ := linked
      have here := held node List.mem_cons_self
      have length := strlen_row here (queues node List.mem_cons_self)
        (plain node List.mem_cons_self) (enough node List.mem_cons_self)
      have shorter : rest.length < count := by simpa using turns
      have later := ih tail (fun other member => held other (List.mem_cons_of_mem _ member))
        (fun other member => queues other (List.mem_cons_of_mem _ member))
        (fun other member => plain other (List.mem_cons_of_mem _ member))
        (fun other member => enough other (List.mem_cons_of_mem _ member)) shorter
      rw [queuedPayloads, if_neg present, length, Option.bind_some, later, Option.map_some,
        here.bytes, List.map_cons]

theorem readInput_slice (cfg : Config) (segment : List UInt8) (memory : Memory) :
    (readInput cfg segment memory).slice cfg.globalInputBuf segment.length = segment := by
  rw [readInput, Memory.slice_memcpy_self, Memory.slice_getD]

theorem segmentQueue_rows (cfg : Config) {fuel : Nat} {tables : Tables} (quiet : Quiet tables)
    (stale : Memory) {segment : List UInt8} (fitting : segment.length ≤ inputBufSize)
    (inStep : InStepFrom (rowPlace cfg.nWorkers tables) 0 (splitRows EndsRow segment).1)
    (enough : segment.length < fuel) {thread : Int} {slot : Nat}
    (connected : (tables.sessionArray thread slot).isSome = true) :
    segmentQueue cfg fuel tables stale segment thread slot =
      some (rowQueue (rowPlace cfg.nWorkers tables) (thread, slot)
        (splitRows EndsRow segment).1) := by
  have whole := stream_splitRows EndsRow segment
  have received := readInput_slice cfg segment stale
  obtain ⟨session, entry⟩ := Option.isSome_iff_exists.mp connected
  obtain ⟨parse, reply, ran, parsed⟩ := parseInputConf_rows cfg (withReplies_quiet quiet)
    (by rw [whole]; exact received) (splitRows_tail EndsRow segment) (by rw [whole]; exact fitting)
      inStep
    (by rw [whole]; exact enough)
  rw [whole] at ran
  have own : parse.tables.sessionArray thread slot =
      some { session with replyData := reply thread slot } := by
    rw [parsed.entries]
    simp [Tables.withReplies, entry]
  have short : (stream (splitRows EndsRow segment).1).length ≤ segment.length := by
    rw [← congrArg List.length whole, List.length_append]
    omega
  rw [segmentQueue, ran, Option.bind_some]
  dsimp only
  rw [own, Option.bind_some, ← rowNodes_replyText cfg.nWorkers tables cfg.globalInputBuf]
  apply queuedPayloads_nodes (parsed.chains thread slot) (parsed.held thread slot)
  · intro node member
    exact (mem_rowNodes member).2.2
  · intro node member
    exact rowNodes_plain member
  · intro node member
    have bounds := rowStarts_bounds (mem_rowNodes member).1
    omega
  · have counted := length_rowNodes_le cfg.nWorkers tables cfg.globalInputBuf
      (splitRows EndsRow segment).1 thread slot
    omega

theorem streamQueue_pieces (cfg : Config) {fuel : Nat} {tables : Nat → Tables}
    (steady : Steady tables) (stale : Nat → Memory) {thread : Int} {slot : Nat}
    (connected : ((tables 0).sessionArray thread slot).isSome = true)
    {segments : List (List UInt8)}
    (fitting : ∀ segment ∈ segments, segment.length ≤ inputBufSize)
    (enough : ∀ segment ∈ segments, segment.length < fuel)
    (inStep : ∀ segment ∈ segments,
      InStepFrom (rowPlace cfg.nWorkers (tables 0)) 0 (splitRows EndsRow segment).1) (turn : Nat) :
    streamQueue cfg fuel tables stale thread slot turn segments =
      some (pieceQueue (rowPlace cfg.nWorkers (tables 0)) (thread, slot) segments) := by
  induction segments generalizing turn with
  | nil => rfl
  | cons segment rest ih =>
      have later := ih (fun other member => fitting other (List.mem_cons_of_mem _ member))
        (fun other member => enough other (List.mem_cons_of_mem _ member))
        (fun other member => inStep other (List.mem_cons_of_mem _ member)) (turn + 1)
      have same := rowPlace_steady steady cfg.nWorkers turn
      have first := segmentQueue_rows cfg (steady.quiet turn) (stale turn)
        (fitting segment List.mem_cons_self)
        (by rw [same]; exact inStep segment List.mem_cons_self)
        (enough segment List.mem_cons_self)
        ((steady.sessions turn thread slot).trans connected)
      rw [streamQueue, first, Option.bind_some, later, same]
      rfl

/-- When the rows of the stream and of its segments are in step, and no session both loses
a cut row and gets the rest of one, the segments queue what the whole stream would if and
only if no cut row would be queued, whole or in part. -/
theorem same_queues_iff (cfg : Config) (tables : Nat → Tables) (stale : Nat → Memory)
    (segments : List (List UInt8)) (fuel : Nat) (steady : Steady tables)
    (complete : (splitRows EndsRow segments.flatten).2 = [])
    (fitting : segments.flatten.length ≤ inputBufSize) (enough : segments.flatten.length < fuel)
    (inStep : ∀ segment ∈ segments.flatten :: segments,
      InStepFrom (rowPlace cfg.nWorkers (tables 0)) 0 (splitRows EndsRow segment).1)
    (either : ∀ pair, ∀ lost ∈ cutRows EndsRow [] segments, ∀ stray ∈ cutRows EndsRow [] segments,
      QueuedAt (rowPlace cfg.nWorkers (tables 0)) pair lost.1 →
        ¬QueuedAt (rowPlace cfg.nWorkers (tables 0)) pair stray.2) :
    SameQueues cfg fuel tables stale segments ↔
      ∀ pair, ∀ cut ∈ cutRows EndsRow [] segments,
        ¬QueuedAt (rowPlace cfg.nWorkers (tables 0)) pair cut.1 ∧
          ¬QueuedAt (rowPlace cfg.nWorkers (tables 0)) pair cut.2 := by
  have pieced : Pieced EndsRow [] segments (splitRows EndsRow segments.flatten).1 :=
    .of_splitRows (by simp) (Prod.ext rfl complete)
  have shorter : ∀ segment ∈ segments, segment.length ≤ segments.flatten.length := by
    intro segment member
    exact (List.sublist_flatten_of_mem member).length_le
  have whole : ∀ thread slot, ((tables 0).sessionArray thread slot).isSome = true →
      segmentQueue cfg fuel (tables 0) (stale 0) segments.flatten thread slot =
        some (rowQueue (rowPlace cfg.nWorkers (tables 0)) (thread, slot)
          (splitRows EndsRow segments.flatten).1) := fun thread slot connected =>
    segmentQueue_rows cfg (steady.quiet 0) (stale 0) fitting (inStep _ List.mem_cons_self) enough
      connected
  have pieces : ∀ thread slot, ((tables 0).sessionArray thread slot).isSome = true →
      streamQueue cfg fuel tables stale thread slot 0 segments =
        some (pieceQueue (rowPlace cfg.nWorkers (tables 0)) (thread, slot) segments) :=
    fun thread slot connected => streamQueue_pieces cfg steady stale connected
      (fun segment member => (shorter segment member).trans fitting)
      (fun segment member => (shorter segment member).trans_lt enough)
      (fun segment member => inStep segment (List.mem_cons_of_mem _ member)) 0
  constructor
  · rintro same ⟨thread, slot⟩ cut member
    by_cases connected : ((tables 0).sessionArray thread slot).isSome = true
    · obtain ⟨payloads, first, second⟩ := same thread slot connected
      rw [whole thread slot connected, Option.some.injEq] at first
      rw [pieces thread slot connected, Option.some.injEq, ← first] at second
      have balanced := pieceQueue_perm (rowPlace cfg.nWorkers (tables 0)) (thread, slot) pieced
      rw [second, List.perm_append_left_iff] at balanced
      exact unqueued_of_perm balanced (either (thread, slot)) cut member
    · have foreign : ∀ text,
          ¬QueuedAt (rowPlace cfg.nWorkers (tables 0)) (thread, slot) text := by
        rintro text ⟨place, -⟩
        obtain ⟨session, entry, -⟩ := rowLookup_of_rowPlace place
        exact connected (by rw [entry]; rfl)
      exact ⟨foreign _, foreign _⟩
  · intro kept thread slot connected
    have same := pieceQueue_eq pieced (kept (thread, slot))
    exact ⟨_, whole thread slot connected, same ▸ pieces thread slot connected⟩

def oneClient : Nat → Tables := fun _ => clients [atAddress 0x0A000002#32 0]

theorem oneClient_steady : Steady oneClient := by
  constructor
  · intro turn thread slot session entry
    obtain ⟨-, listed⟩ := clients_entry entry
    cases slot with
    | zero =>
        rw [← Option.some.inj listed]
        rfl
    | succ slot => simp at listed
  · intro turn
    rfl
  · intro turn thread slot
    rfl

-- `1.0.0.1 b` is cut, and `10.0.0.2 a` is not
theorem same_queues_iff_foreign :
    SameQueues oneWorker 64 oneClient (fun _ _ => 0)
      [(segment [shortLine]).take 4, (segment [shortLine]).drop 4 ++ segment [longLine]] := by
  have cuts : cutRows EndsRow [] [(segment [shortLine]).take 4,
      (segment [shortLine]).drop 4 ++ segment [longLine]] =
        [(shortLine.text, shortLine.text.drop 4)] := by
    decide
  have foreign : rowPlace 1 (oneClient 0) shortLine.text = none ∧
      rowPlace 1 (oneClient 0) (shortLine.text.drop 4) = none := by
    decide
  refine (same_queues_iff oneWorker oneClient _ _ 64 oneClient_steady (by decide)
    (by decide) (by decide) (by decide) ?_).mpr ?_
  · rw [cuts]
    rintro pair lost member stray - ⟨place, -⟩
    rw [List.mem_singleton.mp member] at place
    exact absurd (place.symm.trans foreign.1) (Option.some_ne_none pair)
  · rw [cuts]
    rintro pair cut member
    rw [List.mem_singleton.mp member]
    constructor
    · rintro ⟨place, -⟩
      exact Option.some_ne_none _ (place.symm.trans foreign.1)
    · rintro ⟨place, -⟩
      exact Option.some_ne_none _ (place.symm.trans foreign.2)

/-- Two reads of the line `10.0.0.2 a` queue nothing. -/
theorem cut_line_dropped :
    ¬∀ cfg tables stale segments fuel, Steady tables →
      (splitRows EndsRow segments.flatten).2 = [] → segments.flatten.length ≤ inputBufSize →
      segments.flatten.length < fuel → SameQueues cfg fuel tables stale segments := by
  intro always
  have same := always oneWorker oneClient (fun _ _ => 0)
    [(segment [longLine]).take 4, (segment [longLine]).drop 4] 32 oneClient_steady
    (by decide) (by decide) (by decide)
  obtain ⟨payloads, whole, pieces⟩ := same 0 0 rfl
  have queued : segmentQueue oneWorker 32 (oneClient 0) (fun _ => 0) (segment [longLine]) 0 0 =
      some [[32, 97]] := by
    decide
  have lost : streamQueue oneWorker 32 oneClient (fun _ _ => 0) 0 0 0
      [(segment [longLine]).take 4, (segment [longLine]).drop 4] = some [] := by
    decide
  have text : [(segment [longLine]).take 4, (segment [longLine]).drop 4].flatten =
      segment [longLine] := by
    decide
  rw [text, queued] at whole
  rw [lost, ← whole] at pieces
  contradiction

end DirtyCode.ConfServer
