import DirtyCode.ConfServer.LineRows
import DirtyCode.ConfServer.Onward
import DirtyCode.ConfServer.Pass
import DirtyCode.Lib.CString

/-!
What the sessions get of a segment of lines `a.b.c.d payload`.
-/

namespace DirtyCode.ConfServer

open Lib

/-- Each payload in turn, behind blanks and in front of one newline. -/
inductive Delivered : List (List UInt8) → List UInt8 → Prop
  | nil : Delivered [] []
  | cons (pad : Nat) {payload rest tail} : Delivered rest tail →
      Delivered (payload :: rest) (List.replicate pad 32 ++ payload ++ 10 :: tail)

structure Connected (cfg : Config) (tables : Tables) (thread : Int) (slot : Nat)
    (session : Session) : Prop where
  worker : 0 ≤ thread ∧ thread < cfg.nWorkers
  inside : slot < maxConnPerThread
  entry : tables.sessionArray thread slot = some session
  isOpen : session.toBeFree = 0

def ownPayloads (session : Session) (lines : List Line) : List (List UInt8) :=
  (lines.filter fun line => line.ip = session.ip).map Line.payload

/-- The replies queued for a session are its own lines in the buffer. -/
structure QueuesOwn (cfg : Config) (lines : List Line) (parse : Parse) (thread : Int) (slot : Nat)
    (session : Session) : Prop where
  linked : ∃ after, parse.tables.sessionArray thread slot = some after ∧
    Linked 0 parse.memory.loadWord after.replyData
      ((ownNodes cfg.globalInputBuf lines session.ip).map Prod.fst)
  texts : ∀ node ∈ ownNodes cfg.globalInputBuf lines session.ip, ∃ pad,
    parse.memory.Shows (node.1 + 8) (List.replicate pad 32 ++ node.2.payload)

/-- The pass queues and sends for every connected session its own lines and nothing
else. The socket alone would not tell: the bytes of a dropped line can come from another. -/
def Delivers (cfg : Config) (tables : Tables) (memory : Memory) (lines : List Line) : Prop :=
  ∀ fuel write, (segment lines).length < fuel → Complete write →
    ∃ parse scan, parseInputConf cfg (segment lines).length fuel tables memory = some parse ∧
      onePass cfg fuel write tables memory (segment lines).length = some scan ∧
      ∀ thread slot session, Connected cfg tables thread slot session →
        QueuesOwn cfg lines parse thread slot session ∧
          Delivered (ownPayloads session lines) (scan.sent thread slot)

structure Deliverable (cfg : Config) (tables : Tables) (lines : List Line) : Prop where
  reaches : ∀ thread slot session, Connected cfg tables thread slot session → ∀ line ∈ lines,
    Reaches cfg.nWorkers tables thread slot session.ip line
  whole : ∀ thread slot session, Connected cfg tables thread slot session → ∀ line ∈ lines,
    line.ip = session.ip → 0 ∉ line.payload
  alive : ∀ thread slot session, Connected cfg tables thread slot session → ∀ line ∈ lines,
    line.ip = session.ip → session.forceDue cfg tables.ticks = false
  inStep : InStepFrom (rowPlace cfg.nWorkers tables) 0 (segmentRows lines)

/-- Whatever the parser finds is the connected session of the line, and it finds nothing
behind a NUL. -/
structure Addressed (cfg : Config) (tables : Tables) (lines : List Line) : Prop where
  holder : ∀ line ∈ lines, ∀ thread slot,
    placeOf cfg.nWorkers tables line.ip = some (thread, slot) →
      ∃ session, Connected cfg tables thread slot session ∧ session.ip = line.ip
  unnamed : ∀ line ∈ lines, ∀ row ∈ line.rows.tail,
    rowPlace cfg.nWorkers tables row.text = none

theorem delivered_rest (lines : List Line) :
    Delivered (lines.map Line.payload) (lines.flatMap fun line => line.rest ++ [10]) := by
  induction lines with
  | nil => exact .nil
  | cons line rest ih =>
      have next : Delivered (line.payload :: rest.map Line.payload) _ :=
        Delivered.cons (line.address.length - 7) ih
      simpa [Line.rest] using next

theorem Delivered.ne_nil {payload : List UInt8} {rest : List (List UInt8)} {received : List UInt8}
    (delivered : Delivered (payload :: rest) received) : received ≠ [] := by
  cases delivered with
  | cons pad later => simp

theorem map_snd_ownNodes (base : Nat) (lines : List Line) (ip : BitVec 32) :
    (ownNodes base lines ip).map Prod.snd = lines.filter fun line => line.ip = ip := by
  induction lines generalizing base with
  | nil => rfl
  | cons line rest ih =>
      rw [ownNodes_cons, List.map_append, ih, List.filter_cons]
      by_cases own : line.ip = ip
      · simp [own]
      · simp [own]

theorem ownNodes_of_line (base : Nat) {lines : List Line} {ip : BitVec 32} {line : Line}
    (member : line ∈ lines) (own : line.ip = ip) :
    ∃ node ∈ ownNodes base lines ip, node.2 = line := by
  have listed : line ∈ (ownNodes base lines ip).map Prod.snd := by
    rw [map_snd_ownNodes, List.mem_filter]
    exact ⟨member, by simpa using own⟩
  exact List.mem_map.mp listed

theorem RowHeld.shows_line {memory : Memory} {node : Node}
    (held : RowHeld memory (node.1, node.2.text)) (clean : 0 ∉ node.2.payload) :
    memory.Shows (node.1 + 8) node.2.rest := by
  have queues : Queues node.2.text := node.2.queues_address _
  have length := queues.length_replyText
  have bytes := held.bytes
  have ends := held.ends
  rw [node.2.replyText_text] at length bytes
  refine ⟨bytes, ?_, ?_⟩
  · rw [← ends]
    congr 1
    dsimp only
    omega
  · rw [Line.rest, List.mem_append, not_or]
    exact ⟨fun blank => by simpa using List.eq_of_mem_replicate blank, clean⟩

section

variable {cfg : Config} {tables : Tables} {memory : Memory} {lines : List Line} {thread : Int}
  {slot : Nat} {session : Session}

theorem Deliverable.queue (deliverable : Deliverable cfg tables lines)
    (connected : Connected cfg tables thread slot session) :
    queued cfg tables (segmentRows lines) thread slot =
      (ownNodes cfg.globalInputBuf lines session.ip).map fun node => (node.1, node.2.text) :=
  rowNodes_lines (deliverable.reaches thread slot session connected)
    (deliverable.whole thread slot session connected)

theorem Deliverable.queuesOwn (deliverable : Deliverable cfg tables lines)
    (connected : Connected cfg tables thread slot session) {parse : Parse} {reply : Int → Nat → Nat}
    (parsed : RowsParsed cfg tables (segmentRows lines) [] [] parse reply) :
    QueuesOwn cfg lines parse thread slot session := by
  have queue := deliverable.queue connected
  rw [queued] at queue
  constructor
  · refine ⟨{ session with replyData := reply thread slot }, ?_, ?_⟩
    · rw [parsed.entries, Tables.withReplies]
      simp [connected.entry]
    · have chain := parsed.chains thread slot
      rw [queue, List.map_map] at chain
      exact chain
  · intro node member
    have listed : (node.1, node.2.text) ∈ rowNodes cfg.nWorkers tables cfg.globalInputBuf
        (segmentRows lines) thread slot := by
      rw [queue]
      exact List.mem_map.mpr ⟨node, member, rfl⟩
    have own : node.2 ∈ lines.filter fun line => line.ip = session.ip := by
      rw [← map_snd_ownNodes cfg.globalInputBuf]
      exact List.mem_map.mpr ⟨node, member, rfl⟩
    rw [List.mem_filter, decide_eq_true_eq] at own
    exact ⟨_, (parsed.held thread slot _ listed).shows_line
      (deliverable.whole thread slot session connected node.2 own.1 own.2)⟩

theorem Deliverable.visitBytes (deliverable : Deliverable cfg tables lines)
    (connected : Connected cfg tables thread slot session) :
    ConfServer.visitBytes cfg tables.ticks session
    (queued cfg tables (segmentRows lines) thread slot) =
      (lines.filter fun line => line.ip = session.ip).flatMap fun line => line.rest ++ [10] := by
  rw [ConfServer.visitBytes]
  by_cases due : session.forceDue cfg tables.ticks = true
  · have none : (lines.filter fun line => line.ip = session.ip) = [] := by
      rw [List.filter_eq_nil_iff]
      intro line member matched
      have alive := deliverable.alive thread slot session connected line member
        (by simpa using matched)
      rw [due] at alive
      contradiction
    simp [due, none]
  · have unmarked : session.toBeFree ≠ 1 := by
      have isOpen := connected.isOpen
      omega
    have same : (fun node : Node => replyBytes node.2.text) =
        fun node => (fun line : Line => line.rest ++ [10]) node.2 := by
      funext node
      rw [replyBytes, node.2.replyText_text]
    rw [if_neg (by simp [due, unmarked]), deliverable.queue connected, List.flatMap_map, same,
      ← map_snd_ownNodes cfg.globalInputBuf, List.flatMap_map]

theorem Deliverable.delivers (deliverable : Deliverable cfg tables lines)
    (placed : tables.Placed) (quiet : Quiet tables)
    (received : memory.slice cfg.globalInputBuf (segment lines).length = segment lines)
    (fitting : (segment lines).length ≤ inputBufSize) : Delivers cfg tables memory lines := by
  intro fuel write enough complete
  rw [← stream_segmentRows] at received fitting enough ⊢
  obtain ⟨parse, reply, scan, ran, parsed, went, sent⟩ := onePass_rows cfg placed quiet received
    fitting deliverable.inStep enough complete
  refine ⟨parse, scan, ran, went, ?_⟩
  intro thread slot session connected
  refine ⟨deliverable.queuesOwn connected parsed, ?_⟩
  rw [sent thread slot session connected.worker connected.inside connected.entry,
    deliverable.visitBytes connected]
  exact delivered_rest _

theorem exists_late {place : List UInt8 → Option (Int × Nat)} {j : Nat} {rows : List TextRow}
    (late : ¬InStepFrom place j rows) :
    ∃ done row todo, rows = done ++ row :: todo ∧ InStepFrom place j done ∧
      (place row.text).isSome = true ∧
      ¬InReach (done.foldl (fun j row => scanBehind place j row.text) j) row.text := by
  induction rows generalizing j with
  | nil => exact absurd trivial late
  | cons row rest ih =>
      by_cases first : (place row.text).isSome = true → InReach j row.text
      · have later : ¬InStepFrom place (scanBehind place j row.text) rest :=
          fun rows => late ⟨first, rows⟩
        obtain ⟨done, bad, todo, split, inStep, named, lost⟩ := ih later
        exact ⟨row :: done, bad, todo, by rw [split, List.cons_append], ⟨first, inStep⟩, named,
          lost⟩
      · rw [Classical.not_imp] at first
        exact ⟨[], row, rest, rfl, trivial, first.1, first.2⟩

theorem segmentRows_split {lines : List Line} {done todo : List TextRow} {row : TextRow}
    (found : segmentRows lines = done ++ row :: todo) :
    ∃ earlier line others before after, lines = earlier ++ line :: others ∧
      done = segmentRows earlier ++ before ∧ line.rows = before ++ row :: after := by
  induction lines generalizing done with
  | nil => simp [segmentRows] at found
  | cons line rest ih =>
      rw [segmentRows_cons, List.append_eq_append_iff] at found
      rcases found with ⟨behind, split, later⟩ | ⟨behind, here, later⟩
      · obtain ⟨earlier, other, others, before, after, lines, rows, own⟩ := ih later
        exact ⟨line :: earlier, other, others, before, after, by rw [lines, List.cons_append],
          by rw [split, rows, segmentRows_cons, List.append_assoc], own⟩
      · cases behind with
        | nil =>
            have again : segmentRows rest = [] ++ row :: todo := later.symm
            obtain ⟨earlier, other, others, before, after, lines, rows, own⟩ := ih again
            rw [List.append_nil] at here
            exact ⟨line :: earlier, other, others, before, after, by rw [lines, List.cons_append],
              by rw [segmentRows_cons, List.append_assoc, ← rows, List.append_nil, here], own⟩
        | cons first more =>
            rw [List.cons_append, List.cons.injEq] at later
            obtain ⟨rfl, -⟩ := later
            exact ⟨[], line, rest, done, more, rfl, rfl, here⟩

theorem scanBehind_le {place : List UInt8 → Option (Int × Nat)} {rows : List TextRow} {j : Nat}
    (queues : ∀ row ∈ rows, (place row.text).isSome = true → Queues row.text) (small : j ≤ 8) :
    rows.foldl (fun j row => scanBehind place j row.text) j ≤ 8 := by
  induction rows generalizing j with
  | nil => exact small
  | cons row rest ih =>
      have step : scanBehind place j row.text ≤ 8 := by
        rw [scanBehind]
        split
        · rename_i named
          rw [scanAfter, if_pos (queues row List.mem_cons_self named)]
          split <;> omega
        · exact small
      exact ih (fun other member => queues other (List.mem_cons_of_mem _ member)) step

/-- A line of seven characters and a payload that the scan starts inside. -/
structure LateLine (cfg : Config) (tables : Tables) (earlier : List Line) (line : Line)
    (row : TextRow) : Prop where
  inStep : InStepFrom (rowPlace cfg.nWorkers tables) 0 (segmentRows earlier)
  full : (segmentRows earlier).foldl
    (fun j row => scanBehind (rowPlace cfg.nWorkers tables) j row.text) 0 = 8
  short : line.address.length = 7
  letter : line.payload.head? ≠ some 32
  text : row.text = line.text

theorem Addressed.lateLine (addressed : Addressed cfg tables lines)
    (whole : ∀ thread slot session, Connected cfg tables thread slot session → ∀ line ∈ lines,
      line.ip = session.ip → 0 ∉ line.payload)
    (late : ¬InStepFrom (rowPlace cfg.nWorkers tables) 0 (segmentRows lines)) :
    ∃ earlier line others row after thread slot session, lines = earlier ++ line :: others ∧
      line.rows = row :: after ∧ LateLine cfg tables earlier line row ∧
      rowPlace cfg.nWorkers tables row.text = some (thread, slot) ∧
      Connected cfg tables thread slot session ∧ session.ip = line.ip := by
  obtain ⟨done, row, todo, split, inStep, named, lost⟩ := exists_late late
  obtain ⟨earlier, line, others, before, after, cut, rows, own⟩ := segmentRows_split split
  have inside : line ∈ lines := by simp [cut]
  obtain ⟨first, rest, shape, text⟩ := line.rows_cons
  -- behind a NUL nothing is found, so the row is the first of its line
  cases before with
  | cons other before =>
      have fragment : row ∈ line.rows.tail := by simp [own]
      rw [addressed.unnamed line inside row fragment] at named
      contradiction
  | nil =>
      rw [List.append_nil] at rows
      rw [List.nil_append] at own
      obtain ⟨rfl, -⟩ := List.cons.inj (own.symm.trans shape)
      obtain ⟨⟨thread, slot⟩, place⟩ := Option.isSome_iff_exists.mp named
      have located := place
      rw [text, Line.head, rowPlace_address] at located
      obtain ⟨session, connected, same⟩ := addressed.holder line inside thread slot located
      rw [Line.head_eq_text (whole thread slot session connected line inside same.symm)] at text
      subst rows
      have queues : ∀ other ∈ segmentRows earlier,
          (rowPlace cfg.nWorkers tables other.text).isSome = true → Queues other.text := by
        intro other member found
        obtain ⟨home, listed, mine⟩ := List.mem_flatMap.mp member
        obtain ⟨top, fragments, cuts, whole⟩ := home.rows_cons
        rw [cuts, List.mem_cons] at mine
        rcases mine with rfl | behind
        · rw [whole]
          exact home.queues_address _
        · have none := addressed.unnamed home (by simp [cut, listed]) other (by simp [cuts, behind])
          rw [none] at found
          contradiction
      have small := scanBehind_le queues (Nat.zero_le 8)
      have seven := line.seven_le_address
      rw [InReach, text, Line.text, line.firstBlank_address, not_or] at lost
      have full : (segmentRows earlier).foldl
          (fun j row => scanBehind (rowPlace cfg.nWorkers tables) j row.text) 0 = 8 := by omega
      have short : line.address.length = 7 := by omega
      refine ⟨earlier, line, others, row, after, thread, slot, session, cut, own,
        ⟨inStep, full, short, ?_, text⟩, place, connected, same⟩
      intro blank
      refine lost.2 ⟨full, short, ?_⟩
      rw [List.head?_eq_getElem?] at blank
      simp [List.getElem?_append_right, short, blank]

theorem ownNodes_start (base : Nat) (earlier : List Line) (line : Line) (others : List Line) :
    (base + (segment earlier).length, line) ∈
      ownNodes base (earlier ++ line :: others) line.ip := by
  induction earlier generalizing base with
  | nil => simp [ownNodes, starts, segment]
  | cons first rest ih =>
      have later := ih (base + first.text.length + 1)
      have length : (segment (first :: rest)).length =
          first.text.length + 1 + (segment rest).length := by
        simp only [segment, List.flatMap_cons, List.length_append, List.length_singleton]
      rw [List.cons_append, ownNodes_cons, length, List.mem_append]
      refine .inr ?_
      rwa [← Nat.add_assoc, ← Nat.add_assoc]

theorem segment_split_rows {earlier others : List Line} {line : Line} {row : TextRow}
    {after : List TextRow} (rows : line.rows = row :: after) :
    segment (earlier ++ line :: others) = stream (segmentRows earlier) ++
      (row.text ++ row.terminator :: (stream after ++ stream (segmentRows others))) := by
  rw [← stream_segmentRows, segmentRows, List.flatMap_append, List.flatMap_cons, rows,
    stream_append, stream_append, stream_cons]
  simp [segmentRows]

theorem LateLine.letter_eq {earlier : List Line} {line : Line} {row : TextRow}
    (late : LateLine cfg tables earlier line row) : ∃ first more,
      line.payload = first :: more ∧ first ≠ 32 ∧ row.text[8]? = some first := by
  obtain ⟨-, -, short, letter, text⟩ := late
  obtain ⟨first, more, payload⟩ := List.exists_cons_of_ne_nil line.nonempty
  refine ⟨first, more, payload, ?_, ?_⟩
  · rw [payload] at letter
    simpa using letter
  · rw [text]
    simp [Line.text, List.getElem?_append_right, short, payload]

/-- Where a late line is dropped, its session misses it, and where it is not, the first
letter of its payload is gone. -/
theorem LateLine.lost {earlier others : List Line} {line : Line} {row : TextRow}
    {after : List TextRow} (late : LateLine cfg tables earlier line row)
    (split : lines = earlier ++ line :: others) (rows : line.rows = row :: after)
    (place : rowPlace cfg.nWorkers tables row.text = some (thread, slot))
    (own : session.ip = line.ip) (quiet : Quiet tables)
    (received : memory.slice cfg.globalInputBuf (segment lines).length = segment lines)
    (fitting : (segment lines).length ≤ inputBufSize) {fuel : Nat}
    (enough : (segment lines).length < fuel) {parse : Parse}
    (ran : parseInputConf cfg (segment lines).length fuel tables memory = some parse) :
    ¬QueuesOwn cfg lines parse thread slot session := by
  obtain ⟨first, more, payload, printed, eighth⟩ := late.letter_eq
  obtain ⟨inStep, full, short, -, text⟩ := late
  obtain ⟨longer, byte⟩ := List.getElem?_eq_some_iff.mp eighth
  have bytes : segment lines = stream (segmentRows earlier) ++
      (row.text ++ row.terminator :: (stream after ++ stream (segmentRows others))) :=
    split ▸ segment_split_rows rows
  rw [bytes] at received fitting enough ran
  have counted := length_le_stream (segmentRows earlier)
  have sum : (stream (segmentRows earlier) ++
      (row.text ++ row.terminator :: (stream after ++ stream (segmentRows others)))).length =
      (stream (segmentRows earlier)).length + (row.text.length + 1 +
        (stream after ++ stream (segmentRows others)).length) := by
    simp only [List.length_append, List.length_cons]
    omega
  obtain ⟨count, turns⟩ := Nat.exists_eq_add_of_le
    (by omega : (segmentRows earlier).length + 1 ≤ fuel)
  obtain ⟨middle, reply, went, parsed⟩ := (RowsParsed.start (withReplies_quiet quiet) received
    inStep).run rfl fitting enough (count + 1)
  rw [List.nil_append] at went parsed
  have runs : (segmentRows earlier).length + (count + 1) = fuel := by omega
  rw [runs] at went
  rw [parseInputConf, went] at ran
  have index := parsed.index
  obtain ⟨queue, woven, outcome⟩ := parsed.late (parsed.scan.trans full) longer
    (by rw [byte]; exact printed) place (by omega) fitting enough ran
  intro queues
  obtain ⟨holder, entry, linked⟩ := queues.linked
  have chain := (woven.linked thread slot holder entry).unique linked
  have start : cfg.globalInputBuf + middle.i = cfg.globalInputBuf + (segment earlier).length := by
    rw [index, stream_segmentRows]
  have listed := ownNodes_start cfg.globalInputBuf earlier line others
  rw [← split, ← own, ← start] at listed
  rcases outcome with dropped | ⟨blank, ended⟩
  · refine dropped ?_
    rw [chain]
    exact List.mem_map.mpr ⟨_, listed, rfl⟩
  · obtain ⟨pad, shows_⟩ := queues.texts _ listed
    dsimp only at shows_
    have length : row.text.length = 8 + line.payload.length := by
      rw [text, line.length_text, short]
    have unpadded : pad = 0 := by
      by_contra padded
      have nonzero := shows_.ne_zero (by simp; omega : line.payload.length <
        (List.replicate pad 32 ++ line.payload).length)
      rw [length, ← Nat.add_assoc] at ended
      exact nonzero ended
    subst unpadded
    have head := shows_.byte (by simp [payload] : 0 < (List.replicate 0 32 ++ line.payload).length)
    rw [Nat.add_zero, blank] at head
    simp only [payload, List.replicate_zero, List.nil_append, List.getElem_cons_zero] at head
    exact printed head.symm

theorem Delivers.deliverable (delivers : Delivers cfg tables memory lines)
    (addressed : Addressed cfg tables lines) (placed : tables.Placed) (quiet : Quiet tables)
    (received : memory.slice cfg.globalInputBuf (segment lines).length = segment lines)
    (fitting : (segment lines).length ≤ inputBufSize) : Deliverable cfg tables lines := by
  have complete : Complete fun _ _ _ bytes => (bytes.length : Int) := fun _ _ _ _ => rfl
  have enough : (segment lines).length < (segment lines).length + 1 := by omega
  obtain ⟨parse, scan, ran, went, own⟩ := delivers _ _ enough complete
  have whole : ∀ thread slot session, Connected cfg tables thread slot session → ∀ line ∈ lines,
      line.ip = session.ip → 0 ∉ line.payload := by
    intro thread slot session connected line member same
    obtain ⟨node, listed, rfl⟩ := ownNodes_of_line cfg.globalInputBuf member same
    obtain ⟨pad, shows_⟩ := (own thread slot session connected).1.texts node listed
    exact fun nul => shows_.plain (List.mem_append_right _ nul)
  have inStep : InStepFrom (rowPlace cfg.nWorkers tables) 0 (segmentRows lines) := by
    by_contra late
    obtain ⟨earlier, line, others, row, after, thread, slot, session, split, rows, lateLine, place,
      connected, same⟩ := addressed.lateLine whole late
    exact lateLine.lost split rows place same quiet received fitting enough ran
      (own thread slot session connected).1
  rw [← stream_segmentRows] at ran went received fitting enough
  obtain ⟨again, reply, pass, reran, parsed, repass, sent⟩ := onePass_rows cfg placed quiet received
    fitting inStep enough complete
  obtain rfl := Option.some.inj (ran.symm.trans reran)
  obtain rfl := Option.some.inj (went.symm.trans repass)
  refine ⟨?_, whole, ?_, inStep⟩
  · intro thread slot session connected
    obtain ⟨holder, entry, linked⟩ := (own thread slot session connected).1.linked
    have chain := (parsed.woven.linked thread slot holder entry).unique linked
    exact reaches_of_queue chain
  · intro thread slot session connected line member same
    rw [← Bool.not_eq_true]
    intro due
    have silent := sent thread slot session connected.worker connected.inside connected.entry
    rw [visitBytes, if_pos (.inl due)] at silent
    have delivered := (own thread slot session connected).2
    have mine : line ∈ lines.filter fun line => line.ip = session.ip :=
      List.mem_filter.mpr ⟨member, by simpa using same⟩
    obtain ⟨first, more, shape⟩ := List.exists_cons_of_ne_nil (List.ne_nil_of_mem mine)
    rw [silent, ownPayloads, shape, List.map_cons] at delivered
    exact delivered.ne_nil rfl

end

/-- Under the condition the pass brings every connected session exactly the payloads of
its own lines, and where the parser finds only the sessions of the lines, under no other. -/
theorem delivers_own_lines (cfg : Config) (tables : Tables) (memory : Memory) (lines : List Line)
    (placed : tables.Placed) (quiet : Quiet tables)
    (received : memory.slice cfg.globalInputBuf (segment lines).length = segment lines)
    (fitting : (segment lines).length ≤ inputBufSize) :
    (Deliverable cfg tables lines → Delivers cfg tables memory lines) ∧
      (Addressed cfg tables lines → Delivers cfg tables memory lines →
        Deliverable cfg tables lines) :=
  ⟨fun deliverable => deliverable.delivers placed quiet received fitting,
    fun addressed delivers => delivers.deliverable addressed placed quiet received fitting⟩

def atAddress (ip : BitVec 32) (slot : Nat) : Session where
  ip := ip
  toBeFree := 0
  threadidx := 0
  slotIdx := slot
  couldWrite := -1
  replyLen := -1
  replyData := 0
  lastAliveTick := 0
  number := slot

def clients (sessions : List Session) : Tables where
  ipToSlotIdx := fun key =>
    match sessions.findIdx? fun session => (slotKey session.ip : Int) = key with
    | some slot => slot
    | none => -1
  sessionArray := fun thread slot => if thread = 0 then sessions[slot]? else none
  ticks := 0
  accepted := sessions.length

def oneWorker : Config where
  nWorkers := 1
  forceDisconnectSeconds := 0
  globalInputBuf := 4096
  mapped := by decide

def bufferOf (bytes : List UInt8) : Memory := fun offset => bytes.getD (offset - 4096) 0

def wholeWrite : Int → Nat → Nat → List UInt8 → Int := fun _ _ _ bytes => bytes.length

def zero : Octet := ⟨[48], by decide, by decide +kernel, by decide +kernel⟩
def one : Octet := ⟨[49], by decide, by decide +kernel, by decide +kernel⟩
def two : Octet := ⟨[50], by decide, by decide +kernel, by decide +kernel⟩
def ten : Octet := ⟨[49, 48], by decide, by decide +kernel, by decide +kernel⟩

-- `10.0.0.2 a` and `1.0.0.1 b`
def longLine : Line := ⟨ten, zero, zero, two, [97], by decide, by decide⟩
def shortLine : Line := ⟨one, zero, zero, one, [98], by decide, by decide⟩

theorem clients_entry {sessions : List Session} {thread : Int} {slot : Nat} {session : Session}
    (entry : (clients sessions).sessionArray thread slot = some session) :
    thread = 0 ∧ sessions[slot]? = some session := by
  by_cases worker : thread = 0
  · exact ⟨worker, by simpa [clients, worker] using entry⟩
  · simp [clients, worker] at entry

def pairTables : Tables := clients [atAddress 0x0A000002#32 0, atAddress 0x01000001#32 1]

theorem pairTables_entry {thread : Int} {slot : Nat} {session : Session}
    (entry : pairTables.sessionArray thread slot = some session) :
    thread = 0 ∧ (slot = 0 ∧ session = atAddress 0x0A000002#32 0 ∨
      slot = 1 ∧ session = atAddress 0x01000001#32 1) := by
  obtain ⟨worker, listed⟩ := clients_entry entry
  match slot, listed with
  | 0, listed => exact ⟨worker, .inl ⟨rfl, (Option.some.inj listed).symm⟩⟩
  | 1, listed => exact ⟨worker, .inr ⟨rfl, (Option.some.inj listed).symm⟩⟩

theorem pairTables_placed : pairTables.Placed := by
  intro thread slot session entry
  obtain ⟨rfl, ⟨rfl, rfl⟩ | ⟨rfl, rfl⟩⟩ := pairTables_entry entry <;> exact ⟨rfl, rfl⟩

theorem pairTables_quiet : Quiet pairTables := by
  intro thread slot session entry
  obtain ⟨rfl, ⟨rfl, rfl⟩ | ⟨rfl, rfl⟩⟩ := pairTables_entry entry <;> rfl

-- `10.0.0.10 x`, a NUL and ` y`, for nobody; `1.0.0.1` and two blanks before `c`
def foreignLine : Line := ⟨ten, zero, zero, ten, [120, 0, 32, 121], by decide, by decide⟩
def blankLine : Line := ⟨one, zero, zero, one, [32, 99], by decide, by decide⟩

def mixedLines : List Line := [shortLine, longLine, foreignLine, blankLine, longLine]

/-- The lines of two clients between a foreign one, and two that are not in step. -/
theorem delivers_own_lines_mixed :
    Delivers oneWorker pairTables (bufferOf (segment mixedLines)) mixedLines ∧
      ¬Delivers oneWorker pairTables (bufferOf (segment [longLine, shortLine]))
        [longLine, shortLine] := by
  constructor
  · apply (delivers_own_lines oneWorker pairTables _ mixedLines pairTables_placed pairTables_quiet
      (by decide) (by decide)).1
    constructor
    · intro thread slot session connected
      obtain ⟨rfl, ⟨rfl, rfl⟩ | ⟨rfl, rfl⟩⟩ := pairTables_entry connected.entry
      · decide
      · decide
    · intro thread slot session connected
      obtain ⟨rfl, ⟨rfl, rfl⟩ | ⟨rfl, rfl⟩⟩ := pairTables_entry connected.entry
      · decide
      · decide
    · intro thread slot session _ _ _ _
      simp [Session.forceDue, oneWorker]
    · decide
  · intro delivers
    have late : ¬InStepFrom (rowPlace 1 pairTables) 0 (segmentRows [longLine, shortLine]) := by
      decide
    apply late
    refine ((delivers_own_lines oneWorker pairTables _ _ pairTables_placed pairTables_quiet
      (by decide) (by decide)).2 ⟨?_, by decide⟩ delivers).inStep
    intro line member thread slot place
    have long : placeOf 1 pairTables longLine.ip = some (0, 0) := by decide
    have short : placeOf 1 pairTables shortLine.ip = some (0, 1) := by decide
    rcases List.mem_pair.mp member with rfl | rfl
    · obtain ⟨rfl, rfl⟩ := Prod.mk.inj (Option.some.inj (place.symm.trans long))
      exact ⟨_, ⟨by decide, by decide, rfl, rfl⟩, by decide⟩
    · obtain ⟨rfl, rfl⟩ := Prod.mk.inj (Option.some.inj (place.symm.trans short))
      exact ⟨_, ⟨by decide, by decide, rfl, rfl⟩, by decide⟩

-- Why the queues are asked for and not only the bytes: the second of these lines is
-- dropped, and the last one, which is for nobody, brings 1.0.0.1 what it has missed.
def luckyLines : List Line :=
  [longLine,
    ⟨one, zero, zero, one, [49, 46, 48, 46, 48, 46, 49, 98], by decide, by decide⟩,
    ⟨ten, zero, zero, two, [32], by decide, by decide⟩,
    ⟨ten, zero, zero, zero, [49, 46, 48, 46, 48, 46, 49, 98], by decide, by decide⟩]

example : (parseInputConf oneWorker (segment luckyLines).length 64
    (clients [atAddress 0x01000001#32 0, atAddress 0x0A000002#32 1])
    (bufferOf (segment luckyLines))).bind (fun parse =>
      (scanSlot oneWorker 64 (wholeWrite 0 0) 0 0 ⟨parse.memory, parse.tables, fun _ _ => []⟩).bind
        fun first => (scanSlot oneWorker 64 (wholeWrite 0 1) 0 1 first).map fun second =>
          (second.sent 0 0, second.sent 0 1)) =
      some ([32, 49, 46, 48, 46, 48, 46, 49, 98, 10], [32, 97, 10, 32, 32, 32, 10]) := by
  decide +kernel

theorem scanSlot_sent {cfg : Config} {fuel : Nat} {write : Nat → List UInt8 → Int}
    {thread other : Int} {slot place : Nat} {scan after : Scan}
    (ran : scanSlot cfg fuel write thread slot scan = some after)
    (apart : ¬(other = thread ∧ place = slot)) :
    after.sent other place = scan.sent other place := by
  simp only [scanSlot] at ran
  split at ran
  · rw [← Option.some.inj ran]
  · split at ran
    · rw [← Option.some.inj ran]
    · split at ran
      · rw [← Option.some.inj ran]
      · split at ran
        · rw [← Option.some.inj ran]
        · obtain ⟨outcome, -, same⟩ := Option.map_eq_some_iff.mp ran
          rw [← same]
          by_cases worker : other = thread
          · subst worker
            have different : place ≠ slot := by
              intro equal
              exact apart ⟨rfl, equal⟩
            simp [different]
          · simp [worker]

theorem scanSlots_sent {cfg : Config} {fuel : Nat} {write : Int → Nat → Nat → List UInt8 → Int}
    {thread : Int} {slot count place : Nat} {scan after : Scan}
    (ran : scanSlots cfg fuel write thread slot count scan = some after) (passed : place < slot) :
    after.sent thread place = scan.sent thread place := by
  induction count generalizing slot scan with
  | zero => rw [← Option.some.inj ran]
  | succ count ih =>
      obtain ⟨middle, first, rest⟩ := Option.bind_eq_some_iff.mp ran
      rw [ih rest (by omega), scanSlot_sent first (by omega)]

/-- Behind the line of 10.0.0.2 the scan index stays at 8, and the line of 1.0.0.1
is dropped. -/
theorem short_line_dropped :
    ¬∀ cfg tables memory lines, tables.Placed → Quiet tables →
      memory.slice cfg.globalInputBuf (segment lines).length = segment lines →
      (segment lines).length ≤ inputBufSize → Delivers cfg tables memory lines := by
  intro always
  have delivers := always oneWorker pairTables (bufferOf (segment [longLine, shortLine]))
    [longLine, shortLine] pairTables_placed pairTables_quiet (by decide) (by decide)
  obtain ⟨_, scan, -, ran, own⟩ := delivers 32 wholeWrite (by decide) fun _ _ _ _ => rfl
  have received := (own 0 1 (atAddress 0x01000001#32 1) ⟨by decide, by decide, rfl, rfl⟩).2
  have visits : (parseInputConf oneWorker (segment [longLine, shortLine]).length 32 pairTables
      (bufferOf (segment [longLine, shortLine]))).bind (fun parse =>
        (scanSlot oneWorker 32 (wholeWrite 0 0) 0 0
          ⟨parse.memory, parse.tables, fun _ _ => []⟩).bind
          fun first => (scanSlot oneWorker 32 (wholeWrite 0 1) 0 1 first).map fun second =>
            second.sent 0 1) = some [] := by
    decide +kernel
  obtain ⟨parse, parsed, rest⟩ := Option.bind_eq_some_iff.mp ran
  obtain ⟨worker, inside, last⟩ := Option.bind_eq_some_iff.mp rest
  have slots : maxConnPerThread = 409598 + 1 + 1 := rfl
  rw [slots, Nat.cast_zero, scanSlots] at inside
  obtain ⟨first, visited, more⟩ := Option.bind_eq_some_iff.mp inside
  rw [scanSlots] at more
  obtain ⟨second, again, tail⟩ := Option.bind_eq_some_iff.mp more
  rw [parsed, Option.bind_some, visited, Option.bind_some, again, Option.map_some,
    Option.some.injEq] at visits
  have nothing : scan.sent 0 1 = [] := by
    rw [← Option.some.inj last, scanSlots_sent tail (by decide), visits]
  have mine : ownPayloads (atAddress 0x01000001#32 1) [longLine, shortLine] = [[98]] := by
    decide
  rw [nothing, mine] at received
  exact received.ne_nil rfl

end DirtyCode.ConfServer
