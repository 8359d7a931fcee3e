import DirtyCode.ConfServer.RowChains

/-!
`parse_input_conf` on any bytes at all: whatever a row holds, and wherever its scan
ends, the parser links rows behind one another and leaves alone what it has passed.
-/

namespace DirtyCode.ConfServer

open Lib

/-- Every session has its replies in a chain, and the links keep apart. -/
structure Woven (base : Nat) (parse : Parse) (queue : Int → Nat → List Nat) : Prop where
  linked : ∀ thread slot session, parse.tables.sessionArray thread slot = some session →
    Linked 0 parse.memory.loadWord session.replyData (queue thread slot)
  inside : ∀ thread slot, ∀ address ∈ queue thread slot,
    base ≤ address ∧ address + 8 ≤ base + parse.i
  ordered : ∀ thread slot, (queue thread slot).Pairwise fun first second => first + 8 ≤ second
  apart : ∀ thread slot other place, ¬(other = thread ∧ place = slot) →
    ∀ first ∈ queue thread slot, ∀ second ∈ queue other place,
      first + 8 ≤ second ∨ second + 8 ≤ first

/-- No link of a reply covers the offset. -/
def OffLinks (queue : Int → Nat → List Nat) (offset : Nat) : Prop :=
  ∀ thread slot, ∀ address ∈ queue thread slot, offset < address ∨ address + 8 ≤ offset

/-- What later rows leave of the chains and of the bytes before them. -/
structure Grown (base : Nat) (before : Parse) (queue : Int → Nat → List Nat) (after : Parse)
    (later : Int → Nat → List Nat) : Prop where
  woven : Woven base after later
  onward : before.i ≤ after.i
  grows : ∀ thread slot, ∃ more, later thread slot = queue thread slot ++ more ∧
    ∀ address ∈ more, base + before.i ≤ address
  frame : ∀ offset < base + before.i, OffLinks queue offset →
    after.memory offset = before.memory offset

theorem scanSign_length (text : List UInt8) : (scanSign text).2.length ≤ text.length := by
  cases text with
  | nil => exact Nat.le_refl _
  | cons byte rest =>
      rw [scanSign]
      split
      · simp
      · split
        · simp
        · simp

theorem scanInt_length {text rest : List UInt8} {value : Int}
    (scanned : scanInt text = some (value, rest)) : rest.length < text.length := by
  simp only [scanInt] at scanned
  split at scanned
  · contradiction
  · rename_i digits
    rw [Option.some.injEq, Prod.mk.injEq] at scanned
    have signed := scanSign_length (text.dropWhile isSpace)
    have spaces := List.length_dropWhile_le isSpace text
    have parts := congrArg List.length (List.takeWhile_append_dropWhile (p := isDigit)
      (l := (scanSign (text.dropWhile isSpace)).2))
    have some := List.length_pos_of_ne_nil digits
    rw [List.length_append, scanned.2] at parts
    omega

theorem scanDot_length {text rest : List UInt8} (scanned : scanDot text = some rest) :
    rest.length < text.length := by
  cases text with
  | nil => contradiction
  | cons byte others =>
      rw [scanDot] at scanned
      split at scanned
      · rw [← Option.some.inj scanned]
        simp
      · contradiction

theorem scanAddress_length {text : List UInt8} {numbers : Int × Int × Int × Int}
    (scanned : scanAddress text = some numbers) : 7 ≤ text.length := by
  simp only [scanAddress, Option.bind_eq_bind, Option.bind_eq_some_iff] at scanned
  obtain ⟨⟨a, first⟩, hasA, firstDot, dotA, ⟨b, second⟩, hasB, secondDot, dotB, ⟨c, third⟩, hasC,
    thirdDot, dotC, ⟨d, fourth⟩, hasD, -⟩ := scanned
  have one := scanInt_length hasA
  have two := scanDot_length dotA
  have three := scanInt_length hasB
  have four := scanDot_length dotB
  have five := scanInt_length hasC
  have six := scanDot_length dotC
  have seven := scanInt_length hasD
  dsimp only at two four six
  omega

theorem deliverLine_cases {fuel line : Nat} {thread : Int} {slot : Nat} {session : Session}
    {parse after : Parse}
    (delivered : deliverLine fuel line thread slot session parse = some after) :
    ∃ stop, blankAt parse.memory line fuel parse.j = some stop ∧
      (after = { parse with j := stop } ∨
        parse.memory (line + stop) = 32 ∧ ∃ linked memory,
          linkReply fuel line session ((blankAddress parse.memory line stop).1.storeWord line 0) =
            some (linked, memory) ∧
          after = { parse with
            memory := memory
            tables := parse.tables.setSlot thread slot (some linked)
            j := (blankAddress parse.memory line stop).2 }) := by
  obtain ⟨stop, found, rest⟩ := Option.bind_eq_some_iff.mp delivered
  refine ⟨stop, found, ?_⟩
  split at rest
  · exact .inl (Option.some.inj rest).symm
  · rename_i kept
    rw [not_or, not_not] at kept
    obtain ⟨⟨linked, memory⟩, ran, same⟩ := Option.map_eq_some_iff.mp rest
    exact .inr ⟨kept.1, linked, memory, ran, same.symm⟩

def extend (queue : Int → Nat → List Nat) (thread : Int) (slot address : Nat) :
    Int → Nat → List Nat :=
  Function.update queue thread
    (Function.update (queue thread) slot (queue thread slot ++ [address]))

theorem extend_self (queue : Int → Nat → List Nat) (thread : Int) (slot address : Nat) :
    extend queue thread slot address thread slot = queue thread slot ++ [address] := by
  simp [extend]

theorem extend_other (queue : Int → Nat → List Nat) {thread other : Int} {slot place : Nat}
    (address : Nat) (apart : ¬(other = thread ∧ place = slot)) :
    extend queue thread slot address other place = queue other place := by
  by_cases same : other = thread
  · subst same
    have different : place ≠ slot := fun equal => apart ⟨rfl, equal⟩
    simp [extend, different]
  · simp [extend, same]

theorem mem_extend {queue : Int → Nat → List Nat} {thread other : Int} {slot place address : Nat}
    {member : Nat} (inside : member ∈ extend queue thread slot address other place) :
    member ∈ queue other place ∨ member = address ∧ other = thread ∧ place = slot := by
  by_cases here : other = thread ∧ place = slot
  · obtain ⟨rfl, rfl⟩ := here
    rw [extend_self, List.mem_append, List.mem_singleton] at inside
    rcases inside with old | new
    · exact .inl old
    · exact .inr ⟨new, rfl, rfl⟩
  · rw [extend_other queue address here] at inside
    exact .inl inside

theorem spaced_length {addresses : List Nat} {base top : Nat}
    (ordered : addresses.Pairwise fun first second => first + 8 ≤ second)
    (inside : ∀ address ∈ addresses, base ≤ address ∧ address + 8 ≤ top) :
    addresses.length ≤ top - base := by
  induction addresses generalizing base with
  | nil => exact Nat.zero_le _
  | cons first rest ih =>
      have bounds := inside first List.mem_cons_self
      have later := List.pairwise_cons.mp ordered
      have shorter := @ih (first + 8) later.2 fun address member =>
        ⟨later.1 address member, (inside address (List.mem_cons_of_mem _ member)).2⟩
      rw [List.length_cons]
      omega

section Turn

variable {base : Nat} {before middle after : Parse} {queue waiting later : Int → Nat → List Nat}

theorem Woven.words (woven : Woven base before queue) {thread : Int} {slot : Nat} {memory : Memory}
    (same : ∀ offset < base + before.i, (∃ address ∈ queue thread slot,
      address ≤ offset ∧ offset < address + 8) → memory offset = before.memory offset)
    {session : Session} (entry : before.tables.sessionArray thread slot = some session) :
    Linked 0 memory.loadWord session.replyData (queue thread slot) := by
  apply (woven.linked thread slot session entry).congr
  intro address member
  have bounds := woven.inside thread slot address member
  apply Memory.loadWord_congr
  intro offset lower upper
  exact same offset (by omega) ⟨address, member, lower, upper⟩

theorem Woven.keep (woven : Woven base before queue) (tables : after.tables = before.tables)
    (onward : before.i ≤ after.i)
    (same : ∀ offset < base + before.i, after.memory offset = before.memory offset) :
    Grown base before queue after queue := by
  refine ⟨⟨?_, ?_, woven.ordered, woven.apart⟩, onward, fun thread slot => ⟨[], ?_, ?_⟩, ?_⟩
  · intro thread slot session entry
    rw [tables] at entry
    exact woven.words (fun offset below _ => same offset below) entry
  · intro thread slot address member
    have bounds := woven.inside thread slot address member
    omega
  · rw [List.append_nil]
  · simp
  · intro offset below _
    exact same offset below

theorem Grown.trans (first : Grown base before queue middle waiting)
    (second : Grown base middle waiting after later) : Grown base before queue after later := by
  have onward := first.onward
  refine ⟨second.woven, first.onward.trans second.onward, ?_, ?_⟩
  · intro thread slot
    obtain ⟨early, waits, low⟩ := first.grows thread slot
    obtain ⟨late, ends, high⟩ := second.grows thread slot
    refine ⟨early ++ late, by rw [ends, waits, List.append_assoc], ?_⟩
    intro address member
    rcases List.mem_append.mp member with inside | inside
    · exact low address inside
    · have bound := high address inside
      omega
  · intro offset below off
    rw [← first.frame offset below off]
    apply second.frame offset (by omega)
    intro thread slot address member
    obtain ⟨early, waits, low⟩ := first.grows thread slot
    rw [waits, List.mem_append] at member
    rcases member with old | new
    · exact off thread slot address old
    · have bound := low address new
      exact .inl (by omega)

section Extend

variable (woven : Woven base before queue) (thread : Int) (slot : Nat)

include woven

theorem Woven.extend_inside {next : Nat} (room : before.i + 8 ≤ next) (other : Int) (place : Nat) :
    ∀ address ∈ extend queue thread slot (base + before.i) other place,
      base ≤ address ∧ address + 8 ≤ base + next := by
  intro address member
  rcases mem_extend member with old | ⟨rfl, -, -⟩
  · have bounds := woven.inside other place address old
    omega
  · omega

theorem Woven.extend_ordered (other : Int) (place : Nat) :
    (extend queue thread slot (base + before.i) other place).Pairwise
      fun first second => first + 8 ≤ second := by
  by_cases here : other = thread ∧ place = slot
  · obtain ⟨rfl, rfl⟩ := here
    rw [extend_self, List.pairwise_append]
    refine ⟨woven.ordered _ _, List.pairwise_singleton _ _, ?_⟩
    intro first member second last
    rw [List.mem_singleton.mp last]
    exact (woven.inside _ _ first member).2
  · rw [extend_other queue _ here]
    exact woven.ordered other place

theorem Woven.extend_apart (one : Int) (spot : Nat) (other : Int) (place : Nat)
    (apart : ¬(other = one ∧ place = spot)) :
    ∀ first ∈ extend queue thread slot (base + before.i) one spot,
      ∀ second ∈ extend queue thread slot (base + before.i) other place,
        first + 8 ≤ second ∨ second + 8 ≤ first := by
  intro first left second right
  rcases mem_extend left with old | ⟨rfl, rfl, rfl⟩
  · rcases mem_extend right with older | ⟨rfl, rfl, rfl⟩
    · exact woven.apart one spot other place apart first old second older
    · exact .inl (woven.inside one spot first old).2
  · rcases mem_extend right with older | ⟨rfl, rfl, rfl⟩
    · exact .inr (woven.inside other place second older).2
    · exact absurd ⟨rfl, rfl⟩ apart

end Extend

theorem Woven.link (woven : Woven base before queue) {thread : Int} {slot : Nat}
    {session : Session} (entry : before.tables.sessionArray thread slot = some session)
    {memory : Memory} (same : ∀ offset < base + before.i, memory offset = before.memory offset)
    (null : memory.loadWord (base + before.i) = 0) (present : base + before.i ≠ 0)
    (small : base + before.i < 2 ^ 64) {fuel : Nat} (enough : before.i < fuel) {next : Nat}
    (room : before.i + 8 ≤ next) (j : Nat) :
    ∃ written reply, linkReply fuel (base + before.i) session memory =
        some ({ session with replyData := reply }, written) ∧
      Grown base before queue
        ⟨written, before.tables.setSlot thread slot (some { session with replyData := reply }),
          next, j⟩ (extend queue thread slot (base + before.i)) ∧
      ∀ offset, base + before.i ≤ offset → written offset = memory offset := by
  have chain : Linked 0 memory.loadWord session.replyData (queue thread slot) :=
    woven.words (fun offset below _ => same offset below) entry
  have few := spaced_length (woven.ordered thread slot) (woven.inside thread slot)
  obtain ⟨written, reply, ran, linked, frame⟩ := linkReply_linked chain (woven.ordered thread slot)
    (fun other member => (woven.inside thread slot other member).2) null present small
    (by omega : (queue thread slot).length < fuel)
  have behind : ∀ offset, base + before.i ≤ offset → written offset = memory offset := by
    intro offset lower
    apply frame
    intro other member
    have bounds := woven.inside thread slot other member
    omega
  refine ⟨written, reply, ran, ⟨⟨?_, woven.extend_inside thread slot room,
    woven.extend_ordered thread slot, woven.extend_apart thread slot⟩, by dsimp only; omega,
    ?_, ?_⟩, behind⟩
  · intro other place holder present
    by_cases here : other = thread ∧ place = slot
    · obtain ⟨rfl, rfl⟩ := here
      rw [Tables.setSlot_self, Option.some.injEq] at present
      rw [← present, extend_self]
      exact linked
    · rw [Tables.setSlot_other _ _ here] at present
      rw [extend_other queue _ here]
      apply woven.words _ present
      rintro offset below ⟨address, member, lower, upper⟩
      dsimp only
      rw [frame offset, same offset below]
      intro mine own
      have spaced := woven.apart thread slot other place here mine own address member
      omega
  · intro other place
    by_cases here : other = thread ∧ place = slot
    · obtain ⟨rfl, rfl⟩ := here
      exact ⟨[base + before.i], extend_self _ _ _ _, by simp⟩
    · exact ⟨[], by rw [extend_other queue _ here, List.append_nil], by simp⟩
  · intro offset below off
    dsimp only
    rw [frame offset (off thread slot), same offset below]

theorem Woven.deliver (woven : Woven base before queue) {thread : Int} {slot : Nat}
    {session : Session} (entry : before.tables.sessionArray thread slot = some session)
    {memory : Memory} (same : ∀ offset < base + before.i, memory offset = before.memory offset)
    (present : base + before.i ≠ 0) (small : base + before.i < 2 ^ 64) {fuel : Nat}
    (enough : before.i < fuel) {next : Nat} (room : before.i + 8 ≤ next)
    (delivered : deliverLine fuel (base + before.i) thread slot session
      { before with memory := memory, i := next } = some after) :
    ∃ stop, blankAt memory (base + before.i) fuel before.j = some stop ∧ after.i = next ∧
      (Grown base before queue after queue ∨
        memory (base + before.i + stop) = 32 ∧
        Grown base before queue after (extend queue thread slot (base + before.i)) ∧
        ∀ offset, base + before.i + 8 ≤ offset → after.memory offset =
          (memory.memcpy (base + before.i + 8) (fun _ => 32) (stop - 8)) offset) := by
  obtain ⟨stop, found, dropped | ⟨blank, linked, written, ran, rewritten⟩⟩ :=
    deliverLine_cases delivered
  · refine ⟨stop, found, by rw [dropped], .inl ?_⟩
    subst dropped
    exact woven.keep rfl (by dsimp only; omega) same
  · have untouched : ∀ offset < base + before.i,
        (blankAddress memory (base + before.i) stop).1.storeWord (base + before.i) 0 offset =
          before.memory offset := by
      intro offset below
      rw [rewrite_other (.inr below) (.inr below), same offset below]
    obtain ⟨final, reply, went, grown, behind⟩ := woven.link entry untouched
      (Memory.loadWord_storeWord _ _ (by decide)) present small enough room
      (blankAddress memory (base + before.i) stop).2
    rw [ran, Option.some.injEq, Prod.mk.injEq] at went
    obtain ⟨rfl, rfl⟩ := went
    subst rewritten
    refine ⟨stop, found, rfl, .inr ⟨blank, grown, ?_⟩⟩
    intro offset lower
    dsimp only
    rw [behind offset (by omega), Memory.storeWord_outside _ (by omega), blankAddress_eq]

theorem Woven.parseLine (cfg : Config) (woven : Woven cfg.globalInputBuf before queue)
    {memory : Memory}
    (same : ∀ offset < cfg.globalInputBuf + before.i, memory offset = before.memory offset)
    {text : List UInt8} {fuel total : Nat} (short : before.i + text.length < total)
    (fitting : total ≤ inputBufSize) (enough : total < fuel)
    (ran : parseLine cfg fuel (cfg.globalInputBuf + before.i) text
      { before with memory := memory, i := before.i + text.length + 1 } = some after) :
    after.i = before.i + text.length + 1 ∧
      ∃ later, Grown cfg.globalInputBuf before queue after later := by
  have mapped := cfg.mapped
  have skipped : Grown cfg.globalInputBuf before queue
      { before with memory := memory, i := before.i + text.length + 1 } queue :=
    woven.keep rfl (by dsimp only; omega) same
  cases scanned : scanAddress text with
  | none =>
      simp only [ConfServer.parseLine, scanned, Option.some.injEq] at ran
      subst ran
      exact ⟨rfl, queue, skipped⟩
  | some numbers =>
      obtain ⟨a, b, c, d⟩ := numbers
      have seven := scanAddress_length scanned
      cases found : lookupSession cfg.nWorkers before.tables (parseIpv4 a b c d)
          (parseIndex b c d) with
      | none =>
          simp only [ConfServer.parseLine, scanned, found, Option.some.injEq] at ran
          subst ran
          exact ⟨rfl, queue, skipped⟩
      | some place =>
          obtain ⟨thread, slot, session⟩ := place
          simp only [ConfServer.parseLine, scanned, found] at ran
          obtain ⟨stop, -, next, grown⟩ := woven.deliver (lookupSession_entry found) same (by omega)
            (by omega) (by omega : before.i < fuel) (by omega) ran
          refine ⟨next, ?_⟩
          rcases grown with dropped | ⟨-, linked, -⟩
          · exact ⟨queue, dropped⟩
          · exact ⟨_, linked⟩

theorem lineEnd_le {memory : Memory} {p total fuel i stop : Nat} (inside : i ≤ total)
    (found : lineEnd memory p total fuel i = some stop) : i ≤ stop ∧ stop ≤ total := by
  obtain ⟨onward, -, passes⟩ := whileLoop_counter_some found
  refine ⟨onward, ?_⟩
  by_contra beyond
  have going := passes total inside (by omega)
  simp at going

/-- However the loop goes on, the chains only grow by the rows still ahead. -/
theorem Woven.parseLines (cfg : Config) {count fuel total : Nat} (fitting : total ≤ inputBufSize)
    (enough : total < fuel) (woven : Woven cfg.globalInputBuf before queue)
    (ran : parseLines cfg total fuel count before = some after) :
    ∃ later, Grown cfg.globalInputBuf before queue after later := by
  induction count generalizing before queue with
  | zero => contradiction
  | succ count ih =>
      rw [ConfServer.parseLines] at ran
      split at ran
      · rename_i more
        obtain ⟨stop, found, rest⟩ := Option.bind_eq_some_iff.mp ran
        obtain ⟨onward, within⟩ := lineEnd_le more.le found
        split at rest
        · rw [← Option.some.inj rest]
          exact ⟨queue, woven.keep rfl (by dsimp only; omega) fun _ _ => rfl⟩
        · rename_i inner
          obtain ⟨middle, turn, later⟩ := Option.bind_eq_some_iff.mp rest
          have length : (((before.memory.set (cfg.globalInputBuf + stop) 0).slice
              (cfg.globalInputBuf + before.i) (stop - before.i)).length) = stop - before.i :=
            Memory.length_slice _ _ _
          have next : stop + 1 = before.i + ((before.memory.set (cfg.globalInputBuf + stop) 0).slice
              (cfg.globalInputBuf + before.i) (stop - before.i)).length + 1 := by omega
          rw [next] at turn
          obtain ⟨-, waiting, grown⟩ := woven.parseLine cfg
            (fun offset below => Memory.set_other _ _ (by omega)) (by omega) fitting enough turn
          obtain ⟨last, final⟩ := ih grown.woven later
          exact ⟨last, grown.trans final⟩
      · rw [← Option.some.inj ran]
        exact ⟨queue, woven.keep rfl le_rfl fun _ _ => rfl⟩

end Turn

section Late

variable {cfg : Config} {tables : Tables} {done : List TextRow} {row : TextRow}
  {rest : List UInt8} {parse last : Parse} {reply : Int → Nat → Nat} {total fuel count : Nat}
  {thread : Int} {slot : Nat}

theorem RowsParsed.woven {tail : List UInt8}
    (parsed : RowsParsed cfg tables done [] tail parse reply) :
    Woven cfg.globalInputBuf parse fun thread slot =>
      (rowNodes cfg.nWorkers tables cfg.globalInputBuf done thread slot).map Prod.fst := by
  constructor
  · intro thread slot session entry
    have head : session.replyData = reply thread slot := by
      rw [parsed.entries, Tables.withReplies] at entry
      obtain ⟨held, -, same⟩ := Option.map_eq_some_iff.mp entry
      rw [← same]
    rw [head]
    exact parsed.chains thread slot
  · intro thread slot address member
    obtain ⟨node, inside, rfl⟩ := List.mem_map.mp member
    have bounds := parsed.bounds inside
    omega
  · intro thread slot
    exact rowNodes_apart _ _ _ _
  · intro thread slot other place apart first left second right
    obtain ⟨node, inside, rfl⟩ := List.mem_map.mp left
    obtain ⟨rival, rivalInside, rfl⟩ := List.mem_map.mp right
    obtain ⟨here, located, queues⟩ := mem_rowNodes inside
    obtain ⟨there, rivalLocated, rivalQueues⟩ := mem_rowNodes rivalInside
    have longer := queues.eight_le
    have rivalLonger := rivalQueues.eight_le
    have disjoint := rowStarts_apart here there
    simp only [RowBefore] at disjoint
    rcases disjoint with rfl | before | behind
    · rw [located, Option.some.injEq, Prod.mk.injEq] at rivalLocated
      exact absurd ⟨rivalLocated.1.symm, rivalLocated.2.symm⟩ apart
    · omega
    · omega

theorem blankAt_late {memory : Memory} {text : List UInt8} {line stop : Nat}
    (held : memory.slice line text.length = text) (ends : memory (line + text.length) = 0)
    (longer : 8 < text.length) (letter : text[8] ≠ 0 ∧ text[8] ≠ 32)
    (scanned : blankAt memory line fuel 8 = some stop) : 8 < stop ∧ stop ≤ text.length := by
  have first : memory (line + 8) = text[8] := Memory.apply_of_slice held longer
  obtain ⟨onward, fails, passes⟩ := whileLoop_counter_some scanned
  constructor
  · refine Nat.lt_of_le_of_ne onward ?_
    rintro rfl
    simp only [first, decide_eq_false_iff_not] at fails
    exact fails letter
  · by_contra beyond
    have going := passes text.length (by omega) (by omega)
    simp [ends] at going

/-- A scan that starts behind the first letter of a payload either drops the row for good,
or leaves a blank where this letter was. -/
theorem RowsParsed.late
    (parsed : RowsParsed cfg tables done [] (row.text ++ row.terminator :: rest) parse reply)
    (index : parse.j = 8) (longer : 8 < row.text.length) (letter : row.text[8] ≠ 32)
    (place : rowPlace cfg.nWorkers tables row.text = some (thread, slot))
    (whole : total = parse.i + (row.text.length + 1 + rest.length))
    (fitting : total ≤ inputBufSize) (enough : total < fuel)
    (ran : parseLines cfg total fuel (count + 1) parse = some last) :
    ∃ queue, Woven cfg.globalInputBuf last queue ∧
      (cfg.globalInputBuf + parse.i ∉ queue thread slot ∨
        last.memory (cfg.globalInputBuf + parse.i + 8) = 32 ∧
        last.memory (cfg.globalInputBuf + parse.i + row.text.length) = 0) := by
  have mapped := cfg.mapped
  have ahead := parsed.ahead
  rw [stream_nil, List.nil_append] at ahead
  obtain ⟨text, -, ends, below⟩ := cut_row ahead rfl
  obtain ⟨session, entry, looked⟩ := rowLookup_of_rowPlace place
  have found : rowLookup cfg.nWorkers parse.tables row.text =
      some (thread, slot, { session with replyData := reply thread slot }) := by
    rw [parsed.entries, rowLookup_withReplies, looked]
    rfl
  have present : parse.tables.sessionArray thread slot =
      some { session with replyData := reply thread slot } := by
    rw [parsed.entries, Tables.withReplies]
    simp [entry]
  rw [parseLines_row ahead whole enough count] at ran
  obtain ⟨middle, turn, later⟩ := Option.bind_eq_some_iff.mp ran
  rw [parseLine_row] at turn
  simp only [found] at turn
  obtain ⟨stop, scanned, next, grown⟩ := parsed.woven.deliver present below (by omega) (by omega)
    (by omega : parse.i < fuel) (by omega) turn
  have plain := (TextRow.plain row _ (List.getElem_mem longer)).2
  rw [index] at scanned
  obtain ⟨passed, within⟩ := blankAt_late text ends longer ⟨plain, letter⟩ scanned
  rcases grown with dropped | ⟨blank, linked, rewritten⟩
  · obtain ⟨queue, final⟩ := dropped.woven.parseLines cfg fitting enough later
    refine ⟨queue, final.woven, .inl ?_⟩
    intro member
    obtain ⟨more, same, high⟩ := final.grows thread slot
    rw [same, List.mem_append] at member
    rcases member with old | new
    · have bounds := parsed.woven.inside thread slot _ old
      omega
    · have bound := high _ new
      omega
  · obtain ⟨queue, final⟩ := linked.woven.parseLines cfg fitting enough later
    have off : ∀ offset, cfg.globalInputBuf + parse.i + 8 ≤ offset → OffLinks (extend
        (fun thread slot =>
          (rowNodes cfg.nWorkers tables cfg.globalInputBuf done thread slot).map Prod.fst)
        thread slot (cfg.globalInputBuf + parse.i)) offset := by
      intro offset lower other spot address member
      rcases mem_extend member with old | ⟨rfl, -, -⟩
      · have bounds := parsed.woven.inside other spot address old
        omega
      · exact .inr lower
    have short : stop ≠ row.text.length := by
      rintro rfl
      rw [ends] at blank
      contradiction
    refine ⟨queue, final.woven, .inr ⟨?_, ?_⟩⟩
    · rw [final.frame _ (by omega) (off _ le_rfl), rewritten _ le_rfl]
      simp only [Memory.memcpy]
      rw [if_pos (by omega)]
    · rw [final.frame _ (by omega) (off _ (by omega)), rewritten _ (by omega),
        Memory.memcpy_outside _ _ (by omega), ends]

end Late

end DirtyCode.ConfServer
