import DirtyCode.ConfServer.RowChains

/-!
One pass of `scan_for_reply_thread` behind `parse_input_conf`, and what it puts on
the socket of every session.
-/

namespace DirtyCode.ConfServer

open Lib

structure Scan where
  memory : Memory
  tables : Tables
  sent : Int → Nat → List UInt8 -- what this pass wrote to the socket in a slot

def strlen (memory : Memory) (fuel base : Nat) : Option Nat :=
  (whileLoop (fun position => decide (memory position ≠ 0)) (· + 1) fuel base).map (· - base)

def writeReplies (write : Nat → List UInt8 → Int) (fuel : Nat) :
    Nat → Nat → Nat → Memory → List UInt8 → Option (Memory × List UInt8 × Bool)
  | 0, _, _, _, _ => none
  | count + 1, calls, ptr, memory, sent =>
      if ptr = 0 then some (memory, sent, false)
      else
        (strlen memory fuel (ptr + 8)).bind fun len =>
          let ended := memory.set (ptr + 8 + len) 10
          let bytes := ended.slice (ptr + 8) (len + 1)
          let rc := write calls bytes
          if rc < len then some (ended, sent ++ bytes.take rc.toNat, true)
          else
            writeReplies write fuel count (calls + 1) (ended.loadWord ptr) ended
              (sent ++ bytes.take rc.toNat)

def Session.forceDue (session : Session) (cfg : Config) (ticks : Nat) : Bool :=
  0 < cfg.forceDisconnectSeconds ∧ session.lastAliveTick + cfg.forceDisconnectSeconds < ticks

def Session.replied (session : Session) : Session :=
  { session with replyData := 0, couldWrite := -1, replyLen := 0 }

def scanSlot (cfg : Config) (fuel : Nat) (write : Nat → List UInt8 → Int) (thread : Int)
    (slot : Nat) (scan : Scan) : Option Scan :=
  match scan.tables.sessionArray thread slot with
  | none => some scan
  | some session =>
      if session.forceDue cfg scan.tables.ticks then
        some { scan with tables := delSession thread slot session scan.tables }
      else if 1 = session.toBeFree then
        some { scan with tables := freeSessionStep2 session scan.tables }
      else if session.replyData = 0 then some scan
      else
        (writeReplies write fuel fuel 0 session.replyData scan.memory []).map
          fun (memory, bytes, failed) =>
            let tables := scan.tables.setSlot thread slot (some session.replied)
            { memory := memory
              tables := if failed then delSession thread slot session.replied tables else tables
              sent := Function.update scan.sent thread
                (Function.update (scan.sent thread) slot (scan.sent thread slot ++ bytes)) }

def scanSlots (cfg : Config) (fuel : Nat) (write : Int → Nat → Nat → List UInt8 → Int)
    (thread : Int) : Nat → Nat → Scan → Option Scan
  | _, 0, scan => some scan
  | slot, count + 1, scan =>
      (scanSlot cfg fuel (write thread slot) thread slot scan).bind
        (scanSlots cfg fuel write thread (slot + 1) count)

def scanThreads (cfg : Config) (fuel : Nat) (write : Int → Nat → Nat → List UInt8 → Int) :
    Nat → Nat → Scan → Option Scan
  | _, 0, scan => some scan
  | thread, count + 1, scan =>
      (scanSlots cfg fuel write thread 0 maxConnPerThread scan).bind
        (scanThreads cfg fuel write (thread + 1) count)

def onePass (cfg : Config) (fuel : Nat) (write : Int → Nat → Nat → List UInt8 → Int)
    (tables : Tables) (memory : Memory) (total : Nat) : Option Scan :=
  (parseInputConf cfg total fuel tables memory).bind fun parse =>
    scanThreads cfg fuel write 0 cfg.nWorkers ⟨parse.memory, parse.tables, fun _ _ => []⟩

def Complete (write : Int → Nat → Nat → List UInt8 → Int) : Prop :=
  ∀ thread slot calls bytes, write thread slot calls bytes = bytes.length

/-- No session has a reply queued, as between two passes. -/
def Quiet (tables : Tables) : Prop :=
  ∀ thread slot session, tables.sessionArray thread slot = some session → session.replyData = 0

theorem strlen_text {memory : Memory} {base fuel : Nat} {text : List UInt8}
    (held : memory.slice base text.length = text) (nonzero : ∀ byte ∈ text, byte ≠ 0)
    (ends : memory (base + text.length) = 0) (enough : text.length < fuel) :
    strlen memory fuel base = some text.length := by
  have stop : whileLoop (fun position => decide (memory position ≠ 0)) (· + 1) fuel base =
      some (base + text.length) := by
    apply whileLoop_counter (by omega) (by omega)
    · intro position lower upper
      obtain ⟨offset, rfl⟩ := Nat.exists_eq_add_of_le lower
      have inside : offset < text.length := by omega
      rw [Memory.apply_of_slice held inside]
      simpa using nonzero _ (List.getElem_mem inside)
    · simp [ends]
  rw [strlen, stop, Option.map_some, Nat.add_sub_cancel_left]

theorem strlen_row {memory : Memory} {node : RowNode} (held : RowHeld memory node)
    (queues : Queues node.2) (plain : ∀ byte ∈ node.2, byte ≠ 0) {fuel : Nat}
    (enough : node.2.length < fuel) :
    strlen memory fuel (node.1 + 8) = some (replyText node.2).length := by
  have length := queues.length_replyText
  have nonzero : ∀ byte ∈ replyText node.2, byte ≠ 0 := by
    intro byte member
    rcases List.mem_append.mp member with blank | inside
    · rw [List.eq_of_mem_replicate blank]
      decide
    · exact plain byte (List.mem_of_mem_drop inside)
  have ends := held.ends
  rw [← length, Nat.add_comm (replyText node.2).length, ← Nat.add_assoc] at ends
  exact strlen_text held.bytes nonzero ends (by omega)

/-- What a visit writes for a queued row. -/
def replyBytes (text : List UInt8) : List UInt8 := replyText text ++ [10]

/-- The memory when the row end is back where the NUL was. -/
def endRow (memory : Memory) (node : RowNode) : Memory := memory.set (node.1 + node.2.length) 10

theorem endRow_other (memory : Memory) (node : RowNode) {offset : Nat}
    (apart : offset ≠ node.1 + node.2.length) : endRow memory node offset = memory offset :=
  Memory.set_other _ _ (by omega)

theorem endRow_bytes {memory : Memory} {node : RowNode} (held : RowHeld memory node)
    (queues : Queues node.2) :
    (endRow memory node).slice (node.1 + 8) ((replyText node.2).length + 1) =
      replyBytes node.2 := by
  have length := queues.length_replyText
  have stop : node.1 + 8 + (replyText node.2).length = node.1 + node.2.length := by omega
  rw [Memory.slice_append, replyBytes]
  congr 1
  · rw [← held.bytes, Memory.length_slice]
    apply Memory.slice_congr
    intro offset below
    exact endRow_other memory node (by omega)
  · rw [stop]
    simp [Memory.slice, endRow]

theorem endRow_loadWord (memory : Memory) (node : RowNode) (queues : Queues node.2) :
    (endRow memory node).loadWord node.1 = memory.loadWord node.1 := by
  apply Memory.loadWord_congr
  intro offset lower upper
  have longer := queues.eight_le
  exact endRow_other memory node (by omega)

theorem endRow_linked {memory : Memory} {node : RowNode} {head : Nat} {rest : List RowNode}
    (linked : Linked 0 memory.loadWord head (rest.map Prod.fst))
    (behind : ∀ other ∈ rest, RowBefore node other) :
    Linked 0 (endRow memory node).loadWord head (rest.map Prod.fst) := by
  apply linked.congr
  intro address member
  obtain ⟨other, inside, rfl⟩ := List.mem_map.mp member
  apply Memory.loadWord_congr
  intro offset lower upper
  have later := behind other inside
  simp only [RowBefore] at later
  exact endRow_other memory node (by omega)

theorem endRow_held {memory : Memory} {node other : RowNode} (held : RowHeld memory other)
    (queues : Queues other.2) (behind : RowBefore node other) :
    RowHeld (endRow memory node) other := by
  apply held.congr queues
  intro offset lower _
  simp only [RowBefore] at behind
  exact endRow_other memory node (by omega)

/-- What the pass needs of a chain of rows. -/
structure Sendable (memory : Memory) (fuel : Nat) (node : RowNode) : Prop where
  held : RowHeld memory node
  queues : Queues node.2
  plain : ∀ byte ∈ node.2, byte ≠ 0
  enough : node.2.length < fuel

theorem Sendable.endRow {memory : Memory} {fuel : Nat} {node other : RowNode}
    (sendable : Sendable memory fuel other) (behind : RowBefore node other) :
    Sendable (endRow memory node) fuel other :=
  ⟨endRow_held sendable.held sendable.queues behind, sendable.queues, sendable.plain,
    sendable.enough⟩

theorem writeReplies_head {write : Nat → List UInt8 → Int}
    (complete : ∀ calls bytes, write calls bytes = bytes.length) {fuel : Nat} (count : Nat)
    {memory : Memory} {node : RowNode} (calls : Nat) (sent : List UInt8) (present : node.1 ≠ 0)
    (sendable : Sendable memory fuel node) :
    writeReplies write fuel (count + 1) calls node.1 memory sent =
      writeReplies write fuel count (calls + 1) (memory.loadWord node.1) (endRow memory node)
        (sent ++ replyBytes node.2) := by
  have queues := sendable.queues
  have length := queues.length_replyText
  have found := strlen_row sendable.held queues sendable.plain sendable.enough
  have bytes := endRow_bytes sendable.held queues
  have whole : (replyBytes node.2).length = (replyText node.2).length + 1 := by simp [replyBytes]
  have written : ¬write calls (replyBytes node.2) < ((replyText node.2).length : Int) := by
    rw [complete, whole]
    omega
  have taken : (replyBytes node.2).take (write calls (replyBytes node.2)).toNat =
      replyBytes node.2 := by
    rw [complete, Int.toNat_natCast, List.take_length]
  have ended : memory.set (node.1 + 8 + (replyText node.2).length) 10 = endRow memory node := by
    rw [endRow]
    congr 1
    omega
  rw [← endRow_loadWord memory node queues]
  simp only [writeReplies, present, if_false, found, Option.bind_some]
  rw [ended, bytes, if_neg written, taken]

/-- With complete writes a chain is sent row by row, and only the NULs behind its
rows are overwritten. -/
theorem writeReplies_chain {write : Nat → List UInt8 → Int}
    (complete : ∀ calls bytes, write calls bytes = bytes.length) {fuel count head : Nat}
    {memory : Memory} {nodes : List RowNode} (calls : Nat) (sent : List UInt8)
    (linked : Linked 0 memory.loadWord head (nodes.map Prod.fst))
    (sendable : ∀ node ∈ nodes, Sendable memory fuel node)
    (ordered : nodes.Pairwise RowBefore) (turns : nodes.length < count) :
    ∃ after, writeReplies write fuel count calls head memory sent =
        some (after, sent ++ nodes.flatMap fun node => replyBytes node.2, false) ∧
      ∀ offset, (∀ node ∈ nodes, offset ≠ node.1 + node.2.length) →
        after offset = memory offset := by
  induction nodes generalizing count calls head memory sent with
  | nil =>
      obtain ⟨count, rfl⟩ := Nat.exists_eq_succ_of_ne_zero (by omega : count ≠ 0)
      have empty : head = 0 := linked
      refine ⟨memory, by simp [writeReplies, empty], ?_⟩
      intro offset _
      rfl
  | cons node rest ih =>
      obtain ⟨count, rfl⟩ := Nat.exists_eq_succ_of_ne_zero (by omega : count ≠ 0)
      obtain ⟨rfl, present, tail⟩ := linked
      have later := List.pairwise_cons.mp ordered
      have tailLinked : Linked 0 memory.loadWord (memory.loadWord node.1) (rest.map Prod.fst) :=
        tail
      obtain ⟨after, ran, frame⟩ := ih (calls + 1) (sent ++ replyBytes node.2)
        (endRow_linked tailLinked later.1)
        (fun other member => (sendable other (List.mem_cons_of_mem _ member)).endRow
          (later.1 other member))
        later.2 (by simpa using turns)
      have first := writeReplies_head complete count calls sent present
        (sendable node List.mem_cons_self)
      refine ⟨after, ?_, ?_⟩
      · rw [first, ran, List.flatMap_cons, List.append_assoc]
      · intro offset apart
        rw [frame offset fun other member => apart other (List.mem_cons_of_mem _ member)]
        exact endRow_other memory node (apart node List.mem_cons_self)

def visitBytes (cfg : Config) (ticks : Nat) (session : Session) (nodes : List RowNode) :
    List UInt8 :=
  if session.forceDue cfg ticks = true ∨ session.toBeFree = 1 then []
  else nodes.flatMap fun node => replyBytes node.2

def queued (cfg : Config) (tables : Tables) (rows : List TextRow) (thread : Int) (slot : Nat) :
    List RowNode :=
  rowNodes cfg.nWorkers tables cfg.globalInputBuf rows thread slot

/-- The pass, when it has been to the visited places. -/
structure Scanned (cfg : Config) (tables : Tables) (rows : List TextRow) (reply : Int → Nat → Nat)
    (visited : Int → Nat → Prop) (scan : Scan) : Prop where
  ticks : scan.tables.ticks = tables.ticks
  entry : ∀ thread slot, ¬visited thread slot →
    scan.tables.sessionArray thread slot = (tables.withReplies reply).sessionArray thread slot
  chain : ∀ thread slot, ¬visited thread slot → Linked 0 scan.memory.loadWord (reply thread slot)
    ((queued cfg tables rows thread slot).map Prod.fst)
  held : ∀ thread slot, ¬visited thread slot →
    ∀ node ∈ queued cfg tables rows thread slot, RowHeld scan.memory node
  unsent : ∀ thread slot, ¬visited thread slot → scan.sent thread slot = []
  sent : ∀ thread slot session, visited thread slot →
    tables.sessionArray thread slot = some session → scan.sent thread slot =
      visitBytes cfg tables.ticks session (queued cfg tables rows thread slot)

section Visit

variable {cfg : Config} {fuel : Nat} {write : Nat → List UInt8 → Int} {thread : Int} {slot : Nat}
  {scan : Scan} {session : Session}

theorem scanSlot_empty (empty : scan.tables.sessionArray thread slot = none) :
    scanSlot cfg fuel write thread slot scan = some scan := by
  simp only [scanSlot, empty]

theorem scanSlot_forced (present : scan.tables.sessionArray thread slot = some session)
    (forced : session.forceDue cfg scan.tables.ticks = true) :
    scanSlot cfg fuel write thread slot scan =
      some { scan with tables := delSession thread slot session scan.tables } := by
  simp only [scanSlot, present, forced, if_true]

theorem scanSlot_freed (present : scan.tables.sessionArray thread slot = some session)
    (alive : session.forceDue cfg scan.tables.ticks = false) (marked : session.toBeFree = 1) :
    scanSlot cfg fuel write thread slot scan =
      some { scan with tables := freeSessionStep2 session scan.tables } := by
  simp only [scanSlot, present, alive, marked, Bool.false_eq_true, if_false, if_true]

theorem scanSlot_idle (present : scan.tables.sessionArray thread slot = some session)
    (alive : session.forceDue cfg scan.tables.ticks = false) (kept : session.toBeFree ≠ 1)
    (idle : session.replyData = 0) : scanSlot cfg fuel write thread slot scan = some scan := by
  simp only [scanSlot, present, alive, kept.symm, idle, Bool.false_eq_true, if_false, if_true]

theorem scanSlot_written (present : scan.tables.sessionArray thread slot = some session)
    (alive : session.forceDue cfg scan.tables.ticks = false) (kept : session.toBeFree ≠ 1)
    (waiting : session.replyData ≠ 0) {memory : Memory} {bytes : List UInt8}
    (wrote : writeReplies write fuel fuel 0 session.replyData scan.memory [] =
      some (memory, bytes, false)) :
    scanSlot cfg fuel write thread slot scan = some
      { memory := memory
        tables := scan.tables.setSlot thread slot (some session.replied)
        sent := Function.update scan.sent thread
          (Function.update (scan.sent thread) slot (scan.sent thread slot ++ bytes)) } := by
  simp only [scanSlot, present, alive, kept.symm, waiting, wrote, Bool.false_eq_true, if_false,
    Option.map_some]

end Visit

section Pass

variable {cfg : Config} {tables : Tables} {rows : List TextRow} {reply : Int → Nat → Nat}
  {visited : Int → Nat → Prop} {scan : Scan} {fuel : Nat}

theorem Scanned.congr {wider : Int → Nat → Prop}
    (scanned : Scanned cfg tables rows reply visited scan)
    (same : ∀ thread slot, visited thread slot ↔ wider thread slot) :
    Scanned cfg tables rows reply wider scan := by
  have equal : visited = wider := by
    funext thread slot
    exact propext (same thread slot)
  exact equal ▸ scanned

theorem Scanned.visit (scanned : Scanned cfg tables rows reply visited scan) {thread : Int}
    {slot : Nat} (after : Scan) (ticks : after.tables.ticks = scan.tables.ticks)
    (entries : ∀ other place, ¬(other = thread ∧ place = slot) →
      after.tables.sessionArray other place = scan.tables.sessionArray other place)
    (sents : ∀ other place, ¬(other = thread ∧ place = slot) →
      after.sent other place = scan.sent other place)
    (frame : ∀ offset, (∀ node ∈ queued cfg tables rows thread slot,
      offset ≠ node.1 + node.2.length) → after.memory offset = scan.memory offset)
    (mine : ∀ session, tables.sessionArray thread slot = some session →
      after.sent thread slot =
        visitBytes cfg tables.ticks session (queued cfg tables rows thread slot)) :
    Scanned cfg tables rows reply (fun other place => visited other place ∨
      (other = thread ∧ place = slot)) after := by
  have untouched : ∀ other place, ¬(other = thread ∧ place = slot) →
      ∀ node ∈ queued cfg tables rows other place, ∀ offset, node.1 ≤ offset →
        offset ≤ node.1 + node.2.length → after.memory offset = scan.memory offset := by
    intro other place apart node member offset lower upper
    apply frame
    intro rival rivalMember
    obtain ⟨inside, located, -⟩ := mem_rowNodes member
    obtain ⟨rivalInside, rivalLocated, queues⟩ := mem_rowNodes rivalMember
    have longer := queues.eight_le
    have disjoint := rowStarts_apart inside rivalInside
    simp only [RowBefore] at disjoint
    rcases disjoint with rfl | left | right
    · rw [located, Option.some.injEq, Prod.mk.injEq] at rivalLocated
      exact absurd rivalLocated apart
    · omega
    · omega
  constructor
  · rw [ticks, scanned.ticks]
  · intro other place fresh
    rw [not_or] at fresh
    rw [entries other place fresh.2, scanned.entry other place fresh.1]
  · intro other place fresh
    rw [not_or] at fresh
    apply (scanned.chain other place fresh.1).congr
    intro address member
    obtain ⟨node, inside, rfl⟩ := List.mem_map.mp member
    have longer := (mem_rowNodes inside).2.2.eight_le
    apply Memory.loadWord_congr
    intro offset lower upper
    exact untouched other place fresh.2 node inside offset lower (by omega)
  · intro other place fresh node member
    rw [not_or] at fresh
    apply (scanned.held other place fresh.1 node member).congr (mem_rowNodes member).2.2
    intro offset lower upper
    exact untouched other place fresh.2 node member offset (by omega) upper
  · intro other place fresh
    rw [not_or] at fresh
    rw [sents other place fresh.2, scanned.unsent other place fresh.1]
  · intro other place session seen entry
    by_cases here : other = thread ∧ place = slot
    · obtain ⟨rfl, rfl⟩ := here
      exact mine session entry
    · rw [sents other place here]
      exact scanned.sent other place session (seen.resolve_right here) entry

theorem Scanned.sendable (scanned : Scanned cfg tables rows reply visited scan) {thread : Int}
    {slot : Nat} (fresh : ¬visited thread slot) (enough : (stream rows).length < fuel) :
    ∀ node ∈ queued cfg tables rows thread slot, Sendable scan.memory fuel node := by
  intro node member
  obtain ⟨inside, -, queues⟩ := mem_rowNodes member
  have bounds := rowStarts_bounds inside
  exact ⟨scanned.held thread slot fresh node member, queues, rowNodes_plain member, by omega⟩

theorem Scanned.silent (scanned : Scanned cfg tables rows reply visited scan) {thread : Int}
    {slot : Nat} (fresh : ¬visited thread slot) {session : Session}
    (found : tables.sessionArray thread slot = some session)
    (quiet : visitBytes cfg tables.ticks session (queued cfg tables rows thread slot) = [])
    {after : Tables} (ticks : after.ticks = scan.tables.ticks)
    (entries : ∀ other place, ¬(other = thread ∧ place = slot) →
      after.sessionArray other place = scan.tables.sessionArray other place) :
    Scanned cfg tables rows reply (fun other place => visited other place ∨
      (other = thread ∧ place = slot)) { scan with tables := after } := by
  refine scanned.visit { scan with tables := after } ticks entries (fun _ _ _ => rfl)
    (fun _ _ => rfl) ?_
  intro other known
  obtain rfl := Option.some.inj (found.symm.trans known)
  rw [quiet]
  exact scanned.unsent thread slot fresh

theorem Scanned.write (scanned : Scanned cfg tables rows reply visited scan)
    (enough : (stream rows).length < fuel)
    {write : Nat → List UInt8 → Int} (complete : ∀ calls bytes, write calls bytes = bytes.length)
    {thread : Int} {slot : Nat} (fresh : ¬visited thread slot) {session waiting : Session}
    (found : tables.sessionArray thread slot = some session)
    (present : scan.tables.sessionArray thread slot = some waiting)
    (head : waiting.replyData = reply thread slot)
    (alive : waiting.forceDue cfg scan.tables.ticks = false) (kept : waiting.toBeFree ≠ 1)
    (busy : reply thread slot ≠ 0)
    (awake : visitBytes cfg tables.ticks session (queued cfg tables rows thread slot) =
      (queued cfg tables rows thread slot).flatMap fun node => replyBytes node.2) :
    ∃ after, scanSlot cfg fuel write thread slot scan = some after ∧
      Scanned cfg tables rows reply (fun other place => visited other place ∨
        (other = thread ∧ place = slot)) after := by
  have chain := scanned.chain thread slot fresh
  rw [← head] at chain busy
  have few : (queued cfg tables rows thread slot).length < fuel :=
    (length_rowNodes_le _ _ _ _ _ _).trans_lt enough
  have ordered : (queued cfg tables rows thread slot).Pairwise RowBefore :=
    (rowStarts_pairwise _ _).filter _
  obtain ⟨memory, wrote, frame⟩ := writeReplies_chain complete 0 [] chain
    (scanned.sendable fresh enough) ordered few
  refine ⟨_, scanSlot_written present alive kept busy wrote, ?_⟩
  refine scanned.visit _ ?_ ?_ ?_ frame ?_
  · rfl
  · intro other place apart
    exact Tables.setSlot_other _ _ apart
  · intro other place apart
    by_cases same : other = thread
    · subst same
      have different : place ≠ slot := fun equal => apart ⟨rfl, equal⟩
      simp [different]
    · simp [same]
  · intro other known
    obtain rfl := Option.some.inj (found.symm.trans known)
    rw [awake]
    simp [scanned.unsent thread slot fresh]

theorem Scanned.slot (scanned : Scanned cfg tables rows reply visited scan)
    (placed : tables.Placed)
    (enough : (stream rows).length < fuel) {write : Nat → List UInt8 → Int}
    (complete : ∀ calls bytes, write calls bytes = bytes.length) {thread : Int} {slot : Nat}
    (fresh : ¬visited thread slot) :
    ∃ after, scanSlot cfg fuel write thread slot scan = some after ∧
      Scanned cfg tables rows reply (fun other place => visited other place ∨
        (other = thread ∧ place = slot)) after := by
  have entry := scanned.entry thread slot fresh
  cases found : tables.sessionArray thread slot with
  | none =>
      have missing : scan.tables.sessionArray thread slot = none := by
        rw [entry]
        simp [Tables.withReplies, found]
      refine ⟨scan, scanSlot_empty missing, ?_⟩
      apply scanned.visit scan rfl (fun _ _ _ => rfl) (fun _ _ _ => rfl) (fun _ _ => rfl)
      intro session impossible
      rw [found] at impossible
      contradiction
  | some session =>
      let waiting := { session with replyData := reply thread slot }
      have present : scan.tables.sessionArray thread slot = some waiting := by
        rw [entry]
        simp [Tables.withReplies, found, waiting]
      have here : waiting.threadidx = thread ∧ waiting.slotIdx = slot :=
        placed _ _ session found
      have due : waiting.forceDue cfg scan.tables.ticks = session.forceDue cfg tables.ticks := by
        rw [scanned.ticks]
        rfl
      by_cases forced : session.forceDue cfg tables.ticks = true
      · refine ⟨_, scanSlot_forced present (due.trans forced), ?_⟩
        rw [delSession_eq here]
        apply scanned.silent fresh found (by simp [visitBytes, forced])
        · rfl
        · intro other place apart
          exact Tables.setSlot_other _ _ apart
      · have alive := due.trans (Bool.not_eq_true _ ▸ forced)
        by_cases marked : session.toBeFree = 1
        · refine ⟨_, scanSlot_freed present alive marked, ?_⟩
          rw [freeSessionStep2_eq here marked]
          apply scanned.silent fresh found (by simp [visitBytes, marked])
          · rfl
          · intro other place apart
            exact Tables.setSlot_other _ _ apart
        · have awake : visitBytes cfg tables.ticks session (queued cfg tables rows thread slot) =
              (queued cfg tables rows thread slot).flatMap fun node => replyBytes node.2 := by
            simp [visitBytes, forced, marked]
          by_cases idle : reply thread slot = 0
          · refine ⟨_, scanSlot_idle present alive marked idle, ?_⟩
            have none : queued cfg tables rows thread slot = [] := by
              have chain := scanned.chain thread slot fresh
              cases nodes : queued cfg tables rows thread slot with
              | nil => rfl
              | cons node rest =>
                  rw [nodes, List.map_cons] at chain
                  exact absurd idle (Linked.head_ne_null chain)
            exact scanned.silent fresh found (by rw [awake, none]; rfl) rfl fun _ _ _ => rfl
          · exact scanned.write enough complete fresh found present rfl alive marked idle awake

theorem Scanned.slots (placed : tables.Placed)
    (enough : (stream rows).length < fuel) {write : Int → Nat → Nat → List UInt8 → Int}
    (complete : Complete write) (thread : Int) (slot count : Nat)
    (fresh : ∀ place, slot ≤ place → ¬visited thread place)
    (scanned : Scanned cfg tables rows reply visited scan) :
    ∃ after, scanSlots cfg fuel write thread slot count scan = some after ∧
      Scanned cfg tables rows reply (fun other place => visited other place ∨
        (other = thread ∧ slot ≤ place ∧ place < slot + count)) after := by
  induction count generalizing slot visited scan with
  | zero =>
      refine ⟨scan, rfl, scanned.congr ?_⟩
      intro other place
      constructor
      · exact .inl
      · rintro (seen | ⟨-, lower, upper⟩)
        · exact seen
        · omega
  | succ count ih =>
      obtain ⟨middle, first, once⟩ := scanned.slot placed enough (complete thread slot)
        (fresh slot le_rfl)
      have later : ∀ place, slot + 1 ≤ place →
          ¬(visited thread place ∨ (thread = thread ∧ place = slot)) := by
        rintro place lower (seen | ⟨-, same⟩)
        · exact fresh place (by omega) seen
        · omega
      obtain ⟨after, second, rest⟩ := ih (slot + 1) later once
      refine ⟨after, by rw [scanSlots, first, Option.bind_some, second], rest.congr ?_⟩
      intro other place
      constructor
      · rintro ((seen | ⟨here, same⟩) | ⟨here, lower, upper⟩)
        · exact .inl seen
        · exact .inr ⟨here, by omega, by omega⟩
        · exact .inr ⟨here, by omega, by omega⟩
      · rintro (seen | ⟨here, lower, upper⟩)
        · exact .inl (.inl seen)
        · by_cases same : place = slot
          · exact .inl (.inr ⟨here, same⟩)
          · exact .inr ⟨here, by omega, by omega⟩

theorem Scanned.threads (placed : tables.Placed)
    (enough : (stream rows).length < fuel) {write : Int → Nat → Nat → List UInt8 → Int}
    (complete : Complete write) (thread count : Nat)
    (fresh : ∀ (other : Int) place, thread ≤ other → ¬visited other place)
    (scanned : Scanned cfg tables rows reply visited scan) :
    ∃ after, scanThreads cfg fuel write thread count scan = some after ∧
      Scanned cfg tables rows reply (fun other place => visited other place ∨
        (thread ≤ other ∧ other < thread + count ∧ place < maxConnPerThread)) after := by
  induction count generalizing thread visited scan with
  | zero =>
      refine ⟨scan, rfl, scanned.congr ?_⟩
      intro other place
      constructor
      · exact .inl
      · rintro (seen | ⟨lower, upper, -⟩)
        · exact seen
        · omega
  | succ count ih =>
      obtain ⟨middle, first, once⟩ := Scanned.slots placed enough complete thread 0
        maxConnPerThread (fun place _ => fresh thread place le_rfl) scanned
      have later : ∀ (other : Int) place, (thread + 1 : Nat) ≤ other → ¬(visited other place ∨
          (other = thread ∧ 0 ≤ place ∧ place < 0 + maxConnPerThread)) := by
        rintro other place lower (seen | ⟨same, -, -⟩)
        · exact fresh other place (by omega) seen
        · omega
      obtain ⟨after, second, rest⟩ := ih (thread + 1) later once
      refine ⟨after, by rw [scanThreads, first, Option.bind_some, second], rest.congr ?_⟩
      intro other place
      constructor
      · rintro ((seen | ⟨here, -, below⟩) | ⟨lower, upper, below⟩)
        · exact .inl seen
        · exact .inr ⟨by omega, by omega, by omega⟩
        · exact .inr ⟨by omega, by omega, below⟩
      · rintro (seen | ⟨lower, upper, below⟩)
        · exact .inl (.inl seen)
        · by_cases same : other = thread
          · exact .inl (.inr ⟨same, by omega, by omega⟩)
          · exact .inr ⟨by omega, by omega, below⟩

end Pass

theorem withReplies_quiet {tables : Tables} (quiet : Quiet tables) :
    tables.withReplies (fun _ _ => 0) = tables := by
  have same : (tables.withReplies fun _ _ => 0).sessionArray = tables.sessionArray := by
    funext thread slot
    cases found : tables.sessionArray thread slot with
    | none => simp [Tables.withReplies, found]
    | some session =>
        have idle := quiet thread slot session found
        simp only [Tables.withReplies, found, Option.map_some, ← idle]
  cases tables
  simp only [Tables.withReplies] at same ⊢
  rw [same]

theorem RowsParsed.scanned {cfg : Config} {tables : Tables} {rows : List TextRow}
    {tail : List UInt8} {parse : Parse} {reply : Int → Nat → Nat}
    (parsed : RowsParsed cfg tables rows [] tail parse reply) :
    Scanned cfg tables rows reply (fun _ _ => False)
      ⟨parse.memory, parse.tables, fun _ _ => []⟩ := by
  constructor
  · rw [parsed.entries]
    rfl
  · intro thread slot _
    rw [parsed.entries]
  · intro thread slot _
    exact parsed.chains thread slot
  · intro thread slot _
    exact parsed.held thread slot
  · intro thread slot _
    rfl
  · intro thread slot session impossible
    contradiction

/-- What the pass sends of rows in step: to every session its own, in their order. -/
theorem onePass_rows (cfg : Config) {tables : Tables} {memory : Memory} {rows : List TextRow}
    {fuel : Nat} {write : Int → Nat → Nat → List UInt8 → Int} (placed : tables.Placed)
    (quiet : Quiet tables)
    (received : memory.slice cfg.globalInputBuf (stream rows).length = stream rows)
    (fitting : (stream rows).length ≤ inputBufSize)
    (inStep : InStepFrom (rowPlace cfg.nWorkers tables) 0 rows)
    (enough : (stream rows).length < fuel) (complete : Complete write) :
    ∃ parse reply scan, parseInputConf cfg (stream rows).length fuel tables memory = some parse ∧
      RowsParsed cfg tables rows [] [] parse reply ∧
      onePass cfg fuel write tables memory (stream rows).length = some scan ∧
      ∀ (thread : Int) slot session, 0 ≤ thread ∧ thread < cfg.nWorkers → slot < maxConnPerThread →
        tables.sessionArray thread slot = some session → scan.sent thread slot =
          visitBytes cfg tables.ticks session (queued cfg tables rows thread slot) := by
  have whole : stream rows ++ [] = stream rows := List.append_nil _
  obtain ⟨parse, reply, ran, parsed⟩ := @parseInputConf_rows cfg tables memory rows [] fuel
    (withReplies_quiet quiet) (by rw [whole]; exact received) (by simp)
    (by rw [whole]; exact fitting) inStep (by rw [whole]; exact enough)
  rw [whole, ← parsed.index] at ran
  obtain ⟨scan, went, finished⟩ := Scanned.threads placed enough complete 0 cfg.nWorkers (by simp)
    parsed.scanned
  refine ⟨parse, reply, scan, by rw [← parsed.index]; exact ran, parsed, ?_, ?_⟩
  · rw [onePass, ← parsed.index, ran, Option.bind_some, went]
  · intro thread slot session inside below entry
    exact finished.sent thread slot session (.inr ⟨by omega, by omega, below⟩) entry

end DirtyCode.ConfServer
