import DirtyCode.Lib.Heap
import DirtyCode.Lib.Machine
import DirtyCode.Lib.Spans

/-!
`parse_single_line` of `ConfCli.c` over its hash table, whose keys and values are
strings of their own on the heap.
-/

namespace DirtyCode.ConfCli

open Lib

abbrev Bytes := List UInt8

structure Store where
  heap : Heap
  cfkv : Bytes → Option (Nat × Nat)
  calls : Nat
  dataDirty : Bool

/-- The value that a lookup of the key reads, if its block is still allocated. -/
def Store.lookup (store : Store) (key : Bytes) : Option (Option Bytes) :=
  (store.cfkv key).map fun entry => store.heap.read entry.2

def notBlank (byte : UInt8) : Bool := byte ≠ 32

def inValue (byte : UInt8) : Bool := byte ≠ 32 ∧ byte ≠ 10

def parseFields (linebuf : Bytes) : Option (Bytes × Bytes) :=
  match linebuf.dropWhile (· = 32) with
  | [] => none
  | first :: rest =>
      if first = 10 then none
      else
        match (rest.dropWhile notBlank).dropWhile (· = 32) with
        | [] => none
        | next :: others =>
            if next = 10 then none
            else some (first :: rest.takeWhile notBlank, (next :: others).takeWhile inValue)

def isDelete (value : Bytes) : Bool := [33, 100, 101, 108, 101, 116, 101].isPrefixOf value

def strdup (allocator : Allocator) (bytes : Bytes) (store : Store) : Option (Nat × Store) :=
  (allocator.strdup store.heap store.calls).map fun address =>
    (address, { store with heap := store.heap.store address bytes, calls := store.calls + 1 })

def deleteKey (key : Bytes) (store : Store) : Store :=
  match store.cfkv key with
  | none => store
  | some (keyPtr, valPtr) =>
      { store with
        heap := (store.heap.free keyPtr).free valPtr
        cfkv := Function.update store.cfkv key none
        dataDirty := true }

def addKey (allocator : Allocator) (key value : Bytes) (store : Store) : Option Store :=
  (strdup allocator key store).bind fun (keyDup, stored) =>
    (strdup allocator value stored).map fun (valDup, after) =>
      { after with
        cfkv := Function.update after.cfkv key (some (keyDup, valDup))
        dataDirty := true }

-- the new copy ends up in the local `val_ptr` only
def overwriteKey (allocator : Allocator) (valPtr : Nat) (value : Bytes) (store : Store) :
    Option Store :=
  let freed := if valPtr ≠ 0 then { store with heap := store.heap.free valPtr } else store
  (strdup allocator value freed).map fun (_, after) => { after with dataDirty := true }

def putKey (allocator : Allocator) (key value : Bytes) (store : Store) : Option Store :=
  match store.cfkv key with
  | none => addKey allocator key value store
  | some (_, valPtr) => overwriteKey allocator valPtr value store

/-- The store after a line; none where the program exits for want of memory. -/
def parseSingleLine (allocator : Allocator) (linebuf : Bytes) (store : Store) : Option Store :=
  match parseFields linebuf with
  | none => some store
  | some (key, value) =>
      if isDelete value then some (deleteKey key store) else putKey allocator key value store

def emptyStore : Store where
  heap := []
  cfkv := fun _ => none
  calls := 0
  dataDirty := false

structure Line where
  text : Bytes
  printable : ∀ byte ∈ text, byte ≠ 0 ∧ byte ≠ 10
  newline : Bool

def Line.bytes (line : Line) : Bytes := line.text ++ if line.newline then [10] else []

inductive Command
  | put (key value : Bytes)
  | delete (key : Bytes)
  | malformed
  deriving DecidableEq

def words (text : Bytes) : List Bytes := (text.splitOnP (· = 32)).filter (· ≠ [])

/-- What a line says: its first two words, or nothing. -/
def commandOf (text : Bytes) : Command :=
  match words text with
  | key :: value :: _ => if isDelete value then .delete key else .put key value
  | _ => .malformed

def Command.concerns (key : Bytes) : Command → Prop
  | .put other _ => other = key
  | .delete other => other = key
  | .malformed => False

/-- The value of the last line for the key, no `!delete` line coming after it. -/
def Latest (history : List Command) (key value : Bytes) : Prop :=
  ∃ earlier later, history = earlier ++ .put key value :: later ∧
    ∀ command ∈ later, ¬command.concerns key

structure History where
  store : Store
  commands : List Command

def History.step (allocator : Allocator) (history : History) (line : Line) : Option History :=
  (parseSingleLine allocator line.bytes history.store).map fun store =>
    { store := store, commands := history.commands ++ [commandOf line.text] }

def startHistory : History := ⟨emptyStore, []⟩

def tableMachine (allocator : Allocator) : Machine History Line where
  init history := history = startHistory
  step := History.step allocator

/-- Every key looks up to its latest value, and to nothing where there is none. -/
def TableRight (history : History) : Prop :=
  ∀ key, (∀ value, Latest history.commands key value →
      history.store.lookup key = some (some value)) ∧
    ((∀ value, ¬Latest history.commands key value) → history.store.lookup key = none)

/-- A line for a key that is there gets back the block it has just freed. -/
def Reuses (allocator : Allocator) (history : History) (line : Line) : Prop :=
  ∀ key value keyPtr valPtr address, commandOf line.text = .put key value →
    history.store.cfkv key = some (keyPtr, valPtr) →
    allocator.strdup (history.store.heap.free valPtr) history.store.calls = some address →
      address = valPtr

theorem words_blank (text : Bytes) : words (32 :: text) = words text := by
  simp [words, List.splitOnP_cons_eq_if_modifyHead]

theorem words_dropWhile (text : Bytes) : words (text.dropWhile (· = 32)) = words text := by
  induction text with
  | nil => rfl
  | cons byte rest ih =>
      by_cases blank : byte = 32
      · subst blank
        rw [words_blank]
        simpa using ih
      · simp [blank]

theorem words_cons {word : Bytes} (nonempty : word ≠ [])
    (solid : ∀ byte ∈ word, notBlank byte = true)
    (rest : Bytes) : words (word ++ 32 :: rest) = word :: words rest := by
  have split : (word ++ 32 :: rest).splitOnP (· = 32) = word :: rest.splitOnP (· = 32) := by
    apply List.splitOnP_append_cons_of_forall_mem
    · intro byte member
      simpa [notBlank] using solid byte member
    · rfl
  simp [words, split, nonempty]

theorem words_single {word : Bytes} (nonempty : word ≠ [])
    (solid : ∀ byte ∈ word, notBlank byte = true) : words word = [word] := by
  have split : word.splitOnP (· = 32) = [word] := by
    apply List.splitOnP_eq_singleton
    intro byte member
    simpa [notBlank] using solid byte member
  simp [words, split, nonempty]

theorem words_head {first : UInt8} {rest : Bytes} (solid : first ≠ 32) :
    words (first :: rest) =
      (first :: rest.takeWhile notBlank) :: words (rest.dropWhile notBlank) := by
  have whole : first :: rest = (first :: rest.takeWhile notBlank) ++ rest.dropWhile notBlank := by
    rw [List.cons_append, List.takeWhile_append_dropWhile]
  have word : ∀ byte ∈ first :: rest.takeWhile notBlank, notBlank byte = true := by
    intro byte member
    rcases List.mem_cons.mp member with rfl | inside
    · simp [notBlank, solid]
    · exact List.mem_takeWhile_imp inside
  rw [whole]
  cases left : rest.dropWhile notBlank with
  | nil =>
      rw [List.append_nil, words_single (List.cons_ne_nil _ _) word]
      rfl
  | cons blank others =>
      have same : blank = 32 := by simpa [notBlank] using stop_of_dropWhile left
      subst same
      rw [words_cons (List.cons_ne_nil _ _) word, words_blank]

theorem takeWhile_inValue {value : Bytes} (inside : ∀ byte ∈ value, byte ≠ 10) {tail : Bytes}
    (ends : tail = [] ∨ tail = [10]) :
    (value ++ tail).takeWhile inValue = value.takeWhile notBlank := by
  induction value with
  | nil => rcases ends with rfl | rfl <;> rfl
  | cons byte rest ih =>
      have solid : byte ≠ 10 := inside byte List.mem_cons_self
      have later := ih fun other member => inside other (List.mem_cons_of_mem _ member)
      by_cases blank : byte = 32
      · simp [blank, inValue, notBlank]
      · simp [blank, solid, inValue, notBlank] at later ⊢
        exact later

/-- On a line without a NUL or a newline inside, the pointers delimit the first two
words, whatever comes behind the newline. -/
theorem parseFields_words {text : Bytes} (printable : ∀ byte ∈ text, byte ≠ 0 ∧ byte ≠ 10)
    {tail : Bytes} (ends : tail = [] ∨ tail = [10]) :
    parseFields (text ++ tail) =
      match words text with
      | key :: value :: _ => some (key, value)
      | _ => none := by
  have kept : ∀ keep : UInt8 → Bool, ∀ byte ∈ text.dropWhile keep, byte ≠ 10 := by
    intro keep byte member
    exact (printable byte ((List.dropWhile_suffix keep).subset member)).2
  rw [← words_dropWhile text]
  cases left : text.dropWhile (· = 32) with
  | nil =>
      have nothing : parseFields (text ++ tail) = none := by
        rw [parseFields, dropWhile_append_all text left]
        rcases ends with rfl | rfl <;> simp
      rw [nothing]
      rfl
  | cons first rest =>
      have solid : first ≠ 32 := by simpa using stop_of_dropWhile left
      have inside : ∀ byte ∈ first :: rest, byte ≠ 10 := left ▸ kept _
      have start : ¬first = 10 := inside first List.mem_cons_self
      have scan : (text ++ tail).dropWhile (· = 32) = first :: (rest ++ tail) := by
        rw [dropWhile_append_stop text (by simp [left]), left, List.cons_append]
      rw [words_head solid, parseFields, scan]
      simp only [start, if_false]
      cases after : rest.dropWhile notBlank with
      | nil =>
          rw [dropWhile_append_all rest after]
          rcases ends with rfl | rfl
          · rfl
          · simp [notBlank, words]
      | cons blank others =>
          have same : blank = 32 := by simpa [notBlank] using stop_of_dropWhile after
          subst same
          have word : (rest ++ tail).takeWhile notBlank = rest.takeWhile notBlank :=
            takeWhile_append_stop rest (by simp [after])
          rw [dropWhile_append_stop rest (by simp [after]), after, word, words_blank,
            ← words_dropWhile others, List.cons_append]
          simp only [List.dropWhile_cons, decide_true, if_true]
          cases value : others.dropWhile (· = 32) with
          | nil =>
              rw [dropWhile_append_all others value]
              rcases ends with rfl | rfl <;> simp [words]
          | cons next more =>
              have solidNext : next ≠ 32 := by simpa using stop_of_dropWhile value
              have within : ∀ byte ∈ next :: more, byte ≠ 10 := by
                intro byte member
                have later : byte ∈ rest.dropWhile notBlank := by
                  rw [after]
                  refine List.mem_cons_of_mem _ ?_
                  exact (List.dropWhile_suffix (· = (32 : UInt8))).subset (value ▸ member)
                exact inside byte (List.mem_cons_of_mem _ ((List.dropWhile_suffix _).subset later))
              have stop : ¬next = 10 := within next List.mem_cons_self
              rw [dropWhile_append_stop others (by simp [value]), value, words_head solidNext,
                List.cons_append]
              simp only [stop, if_false]
              rw [← List.cons_append, takeWhile_inValue within ends]
              simp [notBlank, solidNext]

end DirtyCode.ConfCli
