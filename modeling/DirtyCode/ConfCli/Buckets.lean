import DirtyCode.ConfCli.KHashRuns
import DirtyCode.ConfCli.Dump

/-!
`parse_single_line` and `dump_htable` of `ConfCli.c` on the buckets themselves. As long
as every entry has its blocks to itself the buckets hold just what the table of
`DirtyCode.ConfCli.Table` does.
-/

namespace DirtyCode.ConfCli

open Lib

/-- What a `char *` that serves as a key points into: the line buffer or a block. -/
inductive KeyPtr
  | line (text : Bytes)
  | block (address : Nat)
  deriving DecidableEq

/-- A freed block has no text that could be read. -/
def KeyPtr.read (heap : Heap) : KeyPtr → Option Bytes
  | .line text => some text
  | .block address => heap.read address

def KeyPtr.free (heap : Heap) : KeyPtr → Heap
  | .line _ => heap
  | .block address => heap.free address

/-- `(khint_t)*s` of a signed `char` -/
def charHash (byte : UInt8) : BitVec 32 := byte.toBitVec.signExtend 32

def x31HashString : Bytes → BitVec 32
  | [] => 0
  | first :: rest =>
      let h := charHash first
      if h ≠ 0 then rest.foldl (fun h byte => (h <<< 5) - h + charHash byte) h else h

def keyKind (heap : Heap) : KeyKind KeyPtr (Option Bytes) where
  text := KeyPtr.read heap
  hash text := x31HashString (text.getD [])

structure BucketStore where
  heap : Heap
  cfkv : KHash KeyPtr Nat
  calls : Nat
  dataDirty : Bool

namespace BucketStore

def get (store : BucketStore) (key : Bytes) : Option Nat :=
  khGet (keyKind store.heap) store.cfkv (.line key)

def deleteLine (key : Bytes) (store : BucketStore) : Option BucketStore :=
  (store.get key).map fun k =>
    if k = store.cfkv.nBuckets then store
    else
      { store with
        heap := (KeyPtr.free store.heap (store.cfkv.keys k)).free (store.cfkv.vals k)
        cfkv := khDel store.cfkv k
        dataDirty := true }

/-- A failed `kh_put` returns `n_buckets`, and the value is stored behind the array. -/
def addLine (allocator : Allocator) (memory : Bool) (key value : Bytes) (store : BucketStore) :
    Option BucketStore :=
  (allocator.strdup store.heap store.calls).bind fun keyDup =>
    let heap := store.heap.store keyDup key
    (allocator.strdup heap (store.calls + 1)).bind fun valDup =>
      let heap := heap.store valDup value
      (khPut (keyKind heap) memory store.cfkv (.block keyDup)).bind fun put =>
        if put.ret < 0 then none
        else some ⟨heap, setValue put.table put.x valDup, store.calls + 2, true⟩

def overwriteLine (allocator : Allocator) (valPtr : Nat) (value : Bytes) (store : BucketStore) :
    Option BucketStore :=
  let heap := if valPtr ≠ 0 then store.heap.free valPtr else store.heap
  (allocator.strdup heap store.calls).map fun valDup =>
    { store with heap := heap.store valDup value, calls := store.calls + 1, dataDirty := true }

def putLine (allocator : Allocator) (memory : Bool) (key value : Bytes) (store : BucketStore) :
    Option BucketStore :=
  (store.get key).bind fun k =>
    if k = store.cfkv.nBuckets then addLine allocator memory key value store
    else overwriteLine allocator (store.cfkv.vals k) value store

def parseSingleLine (allocator : Allocator) (memory : Bool) (linebuf : Bytes)
    (store : BucketStore) : Option BucketStore :=
  match parseFields linebuf with
  | none => some store
  | some (key, value) =>
      if isDelete value then deleteLine key store else putLine allocator memory key value store

def parseLines (allocator : Allocator) (memory : Bool) :
    List Line → BucketStore → Option BucketStore
  | [], store => some store
  | line :: rest, store =>
      (parseSingleLine allocator memory line.bytes store).bind
        (parseLines allocator memory rest)

def dumpBucket (store : BucketStore) (k : Nat) : Option Bytes :=
  if isEither store.cfkv.flags k = false then
    (KeyPtr.read store.heap (store.cfkv.keys k)).bind fun name =>
      (store.heap.read (store.cfkv.vals k)).map fun value => name ++ 32 :: (value ++ [10])
  else some []

def dumpFrom (store : BucketStore) : Nat → Nat → Option Bytes
  | 0, _ => some []
  | left + 1, k =>
      (dumpBucket store k).bind fun line => (dumpFrom store left (k + 1)).map fun text =>
        line ++ text

def dumpHtable (store : BucketStore) : Option Bytes := dumpFrom store store.cfkv.nBuckets 0

def empty (keys : Nat → KeyPtr) (vals : Nat → Nat) : BucketStore := ⟨[], khInit keys vals, 0, false⟩

end BucketStore

/-- The table as a map from what keys read to where its strings are. -/
def Store.entries (store : Store) (text : Option Bytes) : Option (KeyPtr × Nat) :=
  text.bind fun key => (store.cfkv key).map fun entry => (.block entry.1, entry.2)

structure Simulates (buckets : BucketStore) (store : Store) : Prop where
  heap : buckets.heap = store.heap
  calls : buckets.calls = store.calls
  dataDirty : buckets.dataDirty = store.dataDirty
  table : Refines (keyKind store.heap) buckets.cfkv store.entries

theorem Refines.heap_congr {heap after : Heap} {h : KHash KeyPtr Nat}
    {entries : Option Bytes → Option (KeyPtr × Nat)} (refines : Refines (keyKind heap) h entries)
    (agree : ∀ i ∈ liveBuckets h.nBuckets h.flags,
      KeyPtr.read after (h.keys i) = KeyPtr.read heap (h.keys i)) :
    Refines (keyKind after) h entries where
  inOrder :=
    ⟨refines.inOrder.buckets, refines.inOrder.upper, refines.inOrder.size,
      refines.inOrder.occupied, refines.inOrder.bounded, fun i live => by
        have same : (keyKind after).text (h.keys i) = (keyKind heap).text (h.keys i) := agree i live
        rw [same]
        exact refines.inOrder.reachable i live⟩
  holds :=
    ⟨fun i live => (congrArg entries (agree i live)).trans (refines.holds.bucket i live),
      fun i live j also same => refines.holds.once i live j also
        ((agree i live).symm.trans (same.trans (agree j also))),
      fun word entry found => by
        obtain ⟨i, live, same⟩ := refines.holds.covers word entry found
        exact ⟨i, live, (agree i live).trans same⟩⟩

section Simulation

variable {store : Store} {buckets : BucketStore}

theorem entries_some (store : Store) (key : Bytes) :
    store.entries (some key) = (store.cfkv key).map fun entry => (.block entry.1, entry.2) := rfl

theorem Simulates.live_entry (simulates : Simulates buckets store) {i : Nat}
    (live : i ∈ liveBuckets buckets.cfkv.nBuckets buckets.cfkv.flags) :
    ∃ key keyPtr, store.cfkv key = some (keyPtr, buckets.cfkv.vals i) ∧
      buckets.cfkv.keys i = .block keyPtr ∧
      KeyPtr.read store.heap (buckets.cfkv.keys i) = some key := by
  have held := simulates.table.holds.bucket i live
  obtain ⟨key, reads, there⟩ := Option.bind_eq_some_iff.mp held
  obtain ⟨⟨keyPtr, valPtr⟩, entry, same⟩ := Option.map_eq_some_iff.mp there
  obtain ⟨one, two⟩ := Prod.mk.inj same
  exact ⟨key, keyPtr, by rw [entry, ← two], one.symm, reads⟩

theorem Simulates.get_eq (simulates : Simulates buckets store) (key : Bytes) :
    ∃ k, buckets.get key = some k ∧
      Locates (keyKind store.heap) buckets.cfkv store.entries (some key) k ∧
      ((store.cfkv key = none ∧ k = buckets.cfkv.nBuckets) ∨
        ∃ keyPtr, store.cfkv key = some (keyPtr, buckets.cfkv.vals k) ∧
          buckets.cfkv.keys k = .block keyPtr ∧ k ≠ buckets.cfkv.nBuckets ∧
          k ∈ liveBuckets buckets.cfkv.nBuckets buckets.cfkv.flags) := by
  obtain ⟨k, found, located⟩ := simulates.table.khGet_eq (.line key)
  refine ⟨k, by rw [BucketStore.get, simulates.heap, found], located, ?_⟩
  rcases located with ⟨absent, rfl⟩ | ⟨-, reads, live⟩
  · exact .inl ⟨Option.map_eq_none_iff.mp absent, rfl⟩
  · obtain ⟨other, keyPtr, entry, block, text⟩ := simulates.live_entry live
    obtain rfl : other = key := Option.some.inj (text.symm.trans reads)
    exact .inr ⟨keyPtr, entry, block, (mem_live.mp live).1.ne, live⟩

theorem Simulates.deleteLine (simulates : Simulates buckets store) (owns : Owns store)
    (key : Bytes) :
    ∃ after, buckets.deleteLine key = some after ∧ Simulates after (deleteKey key store) ∧
      after.cfkv.size ≤ buckets.cfkv.size + 1 := by
  obtain ⟨k, found, located, ⟨absent, rfl⟩ | ⟨keyPtr, entry, block, inside, live⟩⟩ :=
    simulates.get_eq key
  · refine ⟨buckets, ?_, ?_, Nat.le_succ _⟩
    · simp [BucketStore.deleteLine, found]
    · rwa [deleteKey_absent absent]
  · have deleted := simulates.table.khDel_eq located
    have fewer : liveBuckets (khDel buckets.cfkv k).nBuckets (khDel buckets.cfkv k).flags ⊆
        (liveBuckets buckets.cfkv.nBuckets buckets.cfkv.flags).erase k := by
      rw [khDel, if_pos ⟨inside, (Finset.mem_filter.mp live).2⟩]
      simp
    have keys : (khDel buckets.cfkv k).keys = buckets.cfkv.keys := by
      rw [khDel]
      split <;> rfl
    have sizes : (khDel buckets.cfkv k).size ≤ buckets.cfkv.size + 1 := by
      rw [khDel]
      split
      · exact (Nat.sub_le _ _).trans (Nat.le_succ _)
      · exact Nat.le_succ _
    have table : (deleteKey key store).entries = Function.update store.entries (some key) none := by
      funext text
      cases text with
      | none => rfl
      | some other =>
          rw [entries_some, deleteKey_cfkv]
          by_cases same : other = key
          · simp [same]
          · rw [Function.update_of_ne same, Function.update_of_ne (by simpa using same)]
            rfl
    refine ⟨_, by rw [BucketStore.deleteLine, found, Option.map_some, if_neg inside], ?_, sizes⟩
    refine ⟨?_, ?_, ?_, ?_⟩
    · simp [deleteKey, entry, block, KeyPtr.free, simulates.heap]
    · simp [deleteKey, entry, simulates.calls]
    · simp [deleteKey, entry]
    · rw [table]
      refine deleted.heap_congr fun i member => ?_
      obtain ⟨apart, still⟩ := Finset.mem_erase.mp (fewer member)
      obtain ⟨other, otherKey, third, points, reads⟩ := simulates.live_entry still
      have different : other ≠ key := by
        rintro rfl
        have here := located.resolve_left (fun ended => inside ended.2)
        exact apart (simulates.table.holds.once i still k live (reads.trans here.2.1.symm))
      rw [keys, points]
      exact (deleteKey_read owns different third).1

theorem Simulates.addLine (simulates : Simulates buckets store) (owns : Owns store)
    (few : buckets.cfkv.size < 2 ^ 30) (allocator : Allocator) {key : Bytes} (value : Bytes)
    (absent : store.cfkv key = none) :
    Option.Rel (fun after final => Simulates after final ∧
        after.cfkv.size ≤ buckets.cfkv.size + 1)
      (buckets.addLine allocator true key value) (addKey allocator key value store) := by
  rw [BucketStore.addLine, addKey, strdup, simulates.heap, simulates.calls]
  cases gotKey : allocator.strdup store.heap store.calls with
  | none => exact .none
  | some keyDup =>
      simp only [Option.bind_some, Option.map_some, strdup]
      cases gotValue : allocator.strdup (store.heap.store keyDup key) (store.calls + 1) with
      | none => exact .none
      | some valDup =>
          have freshKey := allocator.fresh _ _ _ gotKey
          have freshValue := allocator.fresh _ _ _ gotValue
          have different : valDup ≠ keyDup := by
            rintro rfl
            simp at freshValue
          rw [Heap.read_store_other _ _ different] at freshValue
          let final : Store :=
            ⟨(store.heap.store keyDup key).store valDup value,
              Function.update store.cfkv key (some (keyDup, valDup)), store.calls + 2, true⟩
          have added : Added store final key value keyDup valDup :=
            ⟨different.symm, freshValue.1, freshKey.2, freshValue.2, rfl, rfl⟩
          have moved : Refines (keyKind final.heap) buckets.cfkv store.entries := by
            refine simulates.table.heap_congr fun i live => ?_
            obtain ⟨other, otherKey, entry, points, -⟩ := simulates.live_entry live
            have reads := owns.key_read _ _ _ entry
            rw [points]
            exact (added.kept reads).2.2.trans reads.symm
          obtain ⟨put, ran, ended⟩ := moved.khPut_eq true few (.block keyDup)
          have stored := ended.resolve_left fun failed => by simp at failed
          have text : (keyKind final.heap).text (.block keyDup) = some key := added.keyBlock
          have missing : store.entries (some key) = none := by
            rw [entries_some, absent]
            rfl
          have keptKey : put.table.keys put.x = .block keyDup := by
            rw [stored.key_kept, text, missing]
            rfl
          have positive : ¬put.ret < 0 := by
            have least := stored.ret.2.1
            omega
          have assigned := stored.refines.setValue_eq stored.live valDup
          rw [keptKey, text, Function.update_idem] at assigned
          have table : final.entries =
              Function.update store.entries (some key) (some (.block keyDup, valDup)) := by
            funext word
            cases word with
            | none => rfl
            | some other =>
                rw [entries_some]
                by_cases same : other = key
                · simp [final, same]
                · rw [Function.update_of_ne (by simpa using same)]
                  simp [final, same, entries_some]
          have ran' : khPut (keyKind ((store.heap.store keyDup key).store valDup value)) true
              buckets.cfkv (.block keyDup) = some put := ran
          simp only [Option.bind_some, Option.map_some, ran', if_neg positive]
          exact .some ⟨⟨rfl, rfl, rfl, table ▸ assigned⟩, stored.size⟩

theorem Simulates.overwriteLine (simulates : Simulates buckets store) (owns : Owns store)
    (allocator : Allocator) {key : Bytes} (value : Bytes) {keyPtr valPtr : Nat}
    (entry : store.cfkv key = some (keyPtr, valPtr)) :
    Option.Rel (fun after final => Simulates after final ∧
        after.cfkv.size ≤ buckets.cfkv.size + 1)
      (buckets.overwriteLine allocator valPtr value)
      (overwriteKey allocator valPtr value store) := by
  have nonnull := (owns.value_read _ _ _ entry).2
  simp only [BucketStore.overwriteLine, overwriteKey, strdup, if_pos nonnull, simulates.heap,
    simulates.calls]
  cases got : allocator.strdup (store.heap.free valPtr) store.calls with
  | none => exact .none
  | some address =>
      refine .some ⟨⟨rfl, rfl, rfl, ?_⟩, Nat.le_succ _⟩
      refine simulates.table.heap_congr fun i live => ?_
      obtain ⟨other, otherKey, third, points, -⟩ := simulates.live_entry live
      have apart := owns.key_apart _ _ _ _ _ _ third entry
      have reads := owns.key_read _ _ _ third
      have elsewhere : otherKey ≠ address := by
        rintro rfl
        have unused := (allocator.fresh _ _ _ got).2
        rw [Heap.read_free_other _ apart, reads] at unused
        contradiction
      rw [points]
      exact (Heap.read_store_other _ _ elsewhere).trans (Heap.read_free_other _ apart)

theorem Simulates.parseSingleLine (simulates : Simulates buckets store) (owns : Owns store)
    (few : buckets.cfkv.size < 2 ^ 30) (allocator : Allocator) (linebuf : Bytes) :
    Option.Rel (fun after final => Simulates after final ∧
        after.cfkv.size ≤ buckets.cfkv.size + 1)
      (buckets.parseSingleLine allocator true linebuf)
      (parseSingleLine allocator linebuf store) := by
  rw [BucketStore.parseSingleLine, ConfCli.parseSingleLine]
  cases parseFields linebuf with
  | none => exact .some ⟨simulates, Nat.le_succ _⟩
  | some fields =>
      obtain ⟨key, value⟩ := fields
      by_cases deletes : isDelete value = true
      · obtain ⟨after, ran, still, size⟩ := simulates.deleteLine owns key
        simp only [deletes, if_true, ran]
        exact .some ⟨still, size⟩
      · simp only [deletes, Bool.false_eq_true, if_false]
        rw [BucketStore.putLine, putKey]
        obtain ⟨k, found, -, ⟨absent, rfl⟩ | ⟨keyPtr, entry, -, inside, -⟩⟩ := simulates.get_eq key
        · simp only [found, Option.bind_some, if_true, absent]
          exact simulates.addLine owns few allocator value absent
        · simp only [found, Option.bind_some, if_neg inside, entry]
          exact simulates.overwriteLine owns allocator value entry

end Simulation

section Runs

theorem simulates_empty (keys : Nat → KeyPtr) (vals : Nat → Nat) :
    Simulates (BucketStore.empty keys vals) emptyStore := by
  have nothing : emptyStore.entries = fun _ => none := by
    funext text
    cases text <;> rfl
  exact ⟨rfl, rfl, rfl, nothing ▸ refines_khInit keys vals⟩

/-- Along lines that overwrite in place the buckets and the table stay in step, down to
where the program exits. -/
theorem parseLines_simulates (allocator : Allocator) {lines : List Line} {history : History}
    {buckets : BucketStore} (sound : Sound history) (simulates : Simulates buckets history.store)
    (few : buckets.cfkv.size + lines.length ≤ 2 ^ 30)
    (reuses : (tableMachine allocator).Along (fun history line _ => Reuses allocator history line)
      history lines) :
    Option.Rel (fun after final => Simulates after final.store ∧ Sound final)
      (BucketStore.parseLines allocator true lines buckets)
      ((tableMachine allocator).run history lines) := by
  induction lines generalizing history buckets with
  | nil => exact .some ⟨simulates, sound⟩
  | cons line rest ih =>
      rw [List.length_cons] at few
      have step := simulates.parseSingleLine sound.owns (by omega) allocator line.bytes
      rw [BucketStore.parseLines, Machine.run]
      cases ran : buckets.parseSingleLine allocator true line.bytes with
      | none =>
          rw [ran] at step
          generalize parsed : parseSingleLine allocator line.bytes history.store = result at step
          cases step
          have exits : (tableMachine allocator).step history line = none := by
            simp [tableMachine, History.step, parsed]
          rw [exits]
          exact .none
      | some after =>
          rw [ran] at step
          generalize parsed : parseSingleLine allocator line.bytes history.store = result at step
          cases step with
          | some both =>
              rename_i store
              obtain ⟨still, size⟩ := both
              have stepped : (tableMachine allocator).step history line =
                  some ⟨store, history.commands ++ [commandOf line.text]⟩ := by
                simp [tableMachine, History.step, parsed]
              rw [stepped]
              obtain ⟨here, onward⟩ := reuses _ stepped
              exact ih ((step_right_iff sound stepped).2 here) still (by omega) onward

theorem option_rel_mono {α β : Type*} {relation weaker : α → β → Prop} {first : Option α}
    {second : Option β} (related : Option.Rel relation first second)
    (implies : ∀ one two, relation one two → weaker one two) : Option.Rel weaker first second := by
  cases related with
  | some both => exact .some (implies _ _ both)
  | none => exact .none

/-- The bytes that a lookup of a string from the line buffer comes to. -/
def BucketStore.lookup (store : BucketStore) (key : Bytes) : Option (Option (Option Bytes)) :=
  (khFind (keyKind store.heap) store.cfkv (.line key)).map (Option.map store.heap.read)

theorem Simulates.lookup_eq {store : Store} {buckets : BucketStore}
    (simulates : Simulates buckets store) (key : Bytes) :
    buckets.lookup key = some (store.lookup key) := by
  have found := simulates.table.khFind_eq (.line key)
  have text : (keyKind store.heap).text (.line key) = some key := rfl
  rw [text, entries_some] at found
  rw [BucketStore.lookup, simulates.heap, found, Store.lookup]
  cases store.cfkv key <;> rfl

-- `k b` and `j c`
def overwritingLines : List Line :=
  [firstLine, ⟨[107, 32, 98], by decide +kernel, true⟩, ⟨[106, 32, 99], by decide +kernel, true⟩]

theorem overwritingLines_reuse :
    (tableMachine lastingAllocator).Along
      (fun history line _ => Reuses lastingAllocator history line) startHistory
      overwritingLines := by
  intro first stored
  have entry : ((tableMachine lastingAllocator).step startHistory firstLine).map
      (fun history => (history.store.cfkv [107],
        lastingAllocator.strdup (history.store.heap.free 2) history.store.calls)) =
        some (some (1, 2), some 2) := by
    decide
  rw [stored, Option.map_some, Option.some.injEq, Prod.mk.injEq] at entry
  refine ⟨reuses_of_absent fun _ _ _ => rfl, ?_⟩
  intro second overwritten
  have command : commandOf [107, 32, 98] = .put [107] [98] := by decide
  refine ⟨(reuses_iff command entry.1 entry.2).mpr rfl, ?_⟩
  intro third added
  refine ⟨reuses_of_absent fun key value said => ?_, trivial⟩
  have other : commandOf [106, 32, 99] = .put [106] [99] := by decide
  obtain ⟨rfl, rfl⟩ := Command.put.inj (other.symm.trans said)
  have absent : ((tableMachine lastingAllocator).run startHistory
      (overwritingLines.take 2)).map (fun history => history.store.cfkv [106]) = some none := by
    decide
  rw [overwritingLines, List.take_succ_cons, Machine.run_cons stored, List.take_succ_cons,
    Machine.run_cons overwritten] at absent
  exact Option.some.inj absent

end Runs

section Dumps

variable {store : Store} {buckets : BucketStore}

def BucketStore.keyAt (buckets : BucketStore) (i : Nat) : Bytes :=
  (KeyPtr.read buckets.heap (buckets.cfkv.keys i)).getD []

def liveList (h : KHash KeyPtr Nat) (left k : Nat) : List Nat :=
  (List.range' k left).filter fun i => isEither h.flags i = false

theorem liveList_succ (h : KHash KeyPtr Nat) (left k : Nat) :
    liveList h (left + 1) k =
      (if isEither h.flags k = false then [k] else []) ++ liveList h left (k + 1) := by
  rw [liveList, List.range'_succ, List.filter_cons]
  split <;> simp_all [liveList]

/-- The line that a history leaves for a key. -/
def latestLine (commands : List Command) (key : Bytes) : Bytes :=
  key ++ 32 :: ((latest commands key).getD [] ++ [10])

theorem Simulates.live_latest {history : History} (simulates : Simulates buckets history.store)
    (sound : ConfCli.Sound history) {i : Nat}
    (live : i ∈ liveBuckets buckets.cfkv.nBuckets buckets.cfkv.flags) :
    KeyPtr.read buckets.heap (buckets.cfkv.keys i) = some (buckets.keyAt i) ∧
      buckets.heap.read (buckets.cfkv.vals i) = latest history.commands (buckets.keyAt i) ∧
      (latest history.commands (buckets.keyAt i)).isSome := by
  obtain ⟨key, keyPtr, entry, points, reads⟩ := simulates.live_entry live
  rw [← simulates.heap] at reads
  have name : buckets.keyAt i = key := by rw [BucketStore.keyAt, reads]; rfl
  have looked := sound.right key
  rw [Store.lookup, entry, Option.map_some] at looked
  obtain ⟨value, found, same⟩ := Option.map_eq_some_iff.mp looked.symm
  refine ⟨name ▸ reads, ?_, by rw [name, found]; rfl⟩
  rw [name, simulates.heap, found, same]

theorem Simulates.dumpFrom_eq {history : History} (simulates : Simulates buckets history.store)
    (sound : ConfCli.Sound history) (left k : Nat) (inside : k + left ≤ buckets.cfkv.nBuckets) :
    buckets.dumpFrom left k =
      some ((liveList buckets.cfkv left k).flatMap fun i =>
        latestLine history.commands (buckets.keyAt i)) := by
  induction left generalizing k with
  | zero => rfl
  | succ left ih =>
      rw [BucketStore.dumpFrom, ih (k + 1) (by omega), BucketStore.dumpBucket, liveList_succ,
        List.flatMap_append]
      by_cases live : isEither buckets.cfkv.flags k = false
      · have member : k ∈ liveBuckets buckets.cfkv.nBuckets buckets.cfkv.flags :=
          Finset.mem_filter.mpr ⟨Finset.mem_range.mpr (by omega), live⟩
        obtain ⟨name, value, present⟩ := simulates.live_latest sound member
        obtain ⟨bytes, found⟩ := Option.isSome_iff_exists.mp present
        simp [live, name, value, found, latestLine]
      · simp [live]

end Dumps

end DirtyCode.ConfCli
