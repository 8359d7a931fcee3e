import DirtyCode.ConfCli.Table

/-!
What a lookup in the table of `ConfCli.c` finds after a history of lines. An
overwrite frees the stored value and keeps its pointer; only where the new copy
lands on the freed block does the table hold the new value.
-/

namespace DirtyCode.ConfCli

open Lib

def Command.apply (key : Bytes) (value : Option Bytes) : Command → Option Bytes
  | .put other new => if other = key then some new else value
  | .delete other => if other = key then none else value
  | .malformed => value

def latest (commands : List Command) (key : Bytes) : Option Bytes :=
  commands.foldl (Command.apply key) none

theorem latest_snoc (commands : List Command) (command : Command) (key : Bytes) :
    latest (commands ++ [command]) key = command.apply key (latest commands key) := by
  simp [latest]

theorem apply_of_unconcerned {command : Command} {key : Bytes} (apart : ¬command.concerns key)
    (value : Option Bytes) : command.apply key value = value := by
  cases command with
  | put other new => exact if_neg apart
  | delete other => exact if_neg apart
  | malformed => rfl

theorem latest_append_of_unconcerned (commands later : List Command) (key : Bytes)
    (apart : ∀ command ∈ later, ¬command.concerns key) :
    latest (commands ++ later) key = latest commands key := by
  induction later generalizing commands with
  | nil => rw [List.append_nil]
  | cons command rest ih =>
      have here := apart command List.mem_cons_self
      have onward : ∀ other ∈ rest, ¬other.concerns key := by
        intro other member
        exact apart other (List.mem_cons_of_mem _ member)
      calc latest (commands ++ command :: rest) key
          = latest ((commands ++ [command]) ++ rest) key := by rw [List.append_assoc]; rfl
        _ = latest (commands ++ [command]) key := ih _ onward
        _ = latest commands key := by rw [latest_snoc, apply_of_unconcerned here]

/-- The value that replaying the commands leaves is that of the last put line of
the key behind which no line concerns it. -/
theorem latest_eq_some_iff (commands : List Command) (key value : Bytes) :
    latest commands key = some value ↔ Latest commands key value := by
  constructor
  · intro found
    induction commands using List.reverseRecOn with
    | nil => contradiction
    | append_singleton earlier command ih =>
        rw [latest_snoc] at found
        by_cases touched : command.concerns key
        · cases command with
          | put other new =>
              obtain rfl : other = key := touched
              obtain rfl : new = value := by simpa [Command.apply] using found
              exact ⟨earlier, [], rfl, by simp⟩
          | delete other =>
              obtain rfl : other = key := touched
              simp [Command.apply] at found
          | malformed => exact touched.elim
        · rw [apply_of_unconcerned touched] at found
          obtain ⟨before, after, rfl, last⟩ := ih found
          refine ⟨before, after ++ [command], by simp, ?_⟩
          intro other member
          rcases List.mem_append.mp member with inside | end_
          · exact last other inside
          · rw [List.mem_singleton.mp end_]
            exact touched
  · rintro ⟨earlier, later, rfl, last⟩
    have split : earlier ++ .put key value :: later = (earlier ++ [.put key value]) ++ later := by
      simp
    rw [split, latest_append_of_unconcerned _ _ _ last, latest_snoc]
    exact if_pos rfl

theorem tableRight_iff (history : History) :
    TableRight history ↔
      ∀ key, history.store.lookup key = (latest history.commands key).map some := by
  constructor
  · intro right key
    cases found : latest history.commands key with
    | some value => exact (right key).1 value ((latest_eq_some_iff _ _ _).mp found)
    | none =>
        apply (right key).2
        intro value last
        rw [(latest_eq_some_iff _ _ _).mpr last] at found
        contradiction
  · intro right key
    rw [right key]
    constructor
    · intro value last
      rw [(latest_eq_some_iff _ _ _).mpr last]
      rfl
    · intro absent
      cases found : latest history.commands key with
      | some value => exact (absent value ((latest_eq_some_iff _ _ _).mp found)).elim
      | none => rfl

/-- Every entry has a key and a value block to itself. -/
structure Owns (store : Store) : Prop where
  key_read : ∀ key keyPtr valPtr, store.cfkv key = some (keyPtr, valPtr) →
    store.heap.read keyPtr = some key
  value_read : ∀ key keyPtr valPtr, store.cfkv key = some (keyPtr, valPtr) →
    (store.heap.read valPtr).isSome ∧ valPtr ≠ 0
  key_apart : ∀ key keyPtr valPtr other otherKey otherVal,
    store.cfkv key = some (keyPtr, valPtr) → store.cfkv other = some (otherKey, otherVal) →
      keyPtr ≠ otherVal
  value_apart : ∀ key keyPtr valPtr other otherKey,
    store.cfkv key = some (keyPtr, valPtr) → store.cfkv other = some (otherKey, valPtr) →
      key = other

theorem owns_empty : Owns emptyStore where
  key_read := by simp [emptyStore]
  value_read := by simp [emptyStore]
  key_apart := by simp [emptyStore]
  value_apart := by simp [emptyStore]

theorem Owns.apart {store : Store} (owns : Owns store) {key other : Bytes} (different : other ≠ key)
    {keyPtr valPtr otherKey otherVal : Nat} (entry : store.cfkv key = some (keyPtr, valPtr))
    (third : store.cfkv other = some (otherKey, otherVal)) :
    otherKey ≠ keyPtr ∧ otherKey ≠ valPtr ∧ otherVal ≠ keyPtr ∧ otherVal ≠ valPtr := by
  refine ⟨?_, owns.key_apart _ _ _ _ _ _ third entry,
    (owns.key_apart _ _ _ _ _ _ entry third).symm, ?_⟩
  · rintro rfl
    have first := owns.key_read _ _ _ entry
    rw [owns.key_read _ _ _ third] at first
    exact different (Option.some.inj first)
  · rintro rfl
    exact different (owns.value_apart _ _ _ _ _ third entry)

theorem Owns.restrict {store after : Store} (owns : Owns store)
    (fewer : ∀ key entry, after.cfkv key = some entry → store.cfkv key = some entry)
    (keys : ∀ key keyPtr valPtr, after.cfkv key = some (keyPtr, valPtr) →
      after.heap.read keyPtr = store.heap.read keyPtr)
    (values : ∀ key keyPtr valPtr, after.cfkv key = some (keyPtr, valPtr) →
      (after.heap.read valPtr).isSome) : Owns after where
  key_read key keyPtr valPtr entry := by
    rw [keys key keyPtr valPtr entry]
    exact owns.key_read _ _ _ (fewer _ _ entry)
  value_read key keyPtr valPtr entry :=
    ⟨values key keyPtr valPtr entry, (owns.value_read _ _ _ (fewer _ _ entry)).2⟩
  key_apart _ _ _ _ _ _ entry third := owns.key_apart _ _ _ _ _ _ (fewer _ _ entry)
    (fewer _ _ third)
  value_apart _ _ _ _ _ entry third := owns.value_apart _ _ _ _ _ (fewer _ _ entry)
    (fewer _ _ third)

theorem deleteKey_absent {store : Store} {key : Bytes} (absent : store.cfkv key = none) :
    deleteKey key store = store := by
  simp [deleteKey, absent]

theorem deleteKey_cfkv (store : Store) (key : Bytes) :
    (deleteKey key store).cfkv = Function.update store.cfkv key none := by
  cases found : store.cfkv key with
  | none => rw [deleteKey_absent found, ← found, Function.update_eq_self]
  | some entry => simp [deleteKey, found]

theorem deleteKey_entry {store : Store} {key other : Bytes} {entry : Nat × Nat}
    (left : (deleteKey key store).cfkv other = some entry) :
    other ≠ key ∧ store.cfkv other = some entry := by
  rw [deleteKey_cfkv] at left
  by_cases same : other = key
  · simp [same] at left
  · rw [Function.update_of_ne same] at left
    exact ⟨same, left⟩

theorem deleteKey_read {store : Store} (owns : Owns store) {key other : Bytes}
    (different : other ≠ key) {otherKey otherVal : Nat}
    (third : store.cfkv other = some (otherKey, otherVal)) :
    (deleteKey key store).heap.read otherKey = store.heap.read otherKey ∧
      (deleteKey key store).heap.read otherVal = store.heap.read otherVal := by
  cases found : store.cfkv key with
  | none => simp [deleteKey_absent found]
  | some entry =>
      rcases entry with ⟨keyPtr, valPtr⟩
      obtain ⟨first, second, third, fourth⟩ := owns.apart different found third
      simp [deleteKey, found, Heap.read_free_other, first, second, third, fourth]

theorem owns_deleteKey {store : Store} (owns : Owns store) (key : Bytes) :
    Owns (deleteKey key store) := by
  apply owns.restrict
  · intro other entry left
    exact (deleteKey_entry left).2
  · intro other otherKey otherVal left
    obtain ⟨different, third⟩ := deleteKey_entry left
    exact (deleteKey_read owns different third).1
  · intro other otherKey otherVal left
    obtain ⟨different, third⟩ := deleteKey_entry left
    rw [(deleteKey_read owns different third).2]
    exact (owns.value_read _ _ _ third).1

theorem lookup_deleteKey {store : Store} (owns : Owns store) (key other : Bytes) :
    (deleteKey key store).lookup other = if other = key then none else store.lookup other := by
  simp only [Store.lookup, deleteKey_cfkv]
  by_cases same : other = key
  · simp [same]
  · rw [if_neg same, Function.update_of_ne same]
    cases third : store.cfkv other with
    | none => rfl
    | some entry => exact congrArg some (deleteKey_read owns same third).2

theorem addKey_eq_some {allocator : Allocator} {key value : Bytes} {store after : Store}
    (added : addKey allocator key value store = some after) :
    ∃ keyDup valDup, keyDup ≠ valDup ∧ valDup ≠ 0 ∧
      store.heap.read keyDup = none ∧ store.heap.read valDup = none ∧
      after.heap = (store.heap.store keyDup key).store valDup value ∧
      after.cfkv = Function.update store.cfkv key (some (keyDup, valDup)) ∧
      after.dataDirty = true := by
  obtain ⟨stored, first, rest⟩ := Option.bind_eq_some_iff.mp added
  obtain ⟨keyDup, gotKey, rfl⟩ := Option.map_eq_some_iff.mp first
  obtain ⟨final, second, rfl⟩ := Option.map_eq_some_iff.mp rest
  obtain ⟨valDup, gotValue, rfl⟩ := Option.map_eq_some_iff.mp second
  have freshKey := allocator.fresh _ _ _ gotKey
  have freshValue := allocator.fresh _ _ _ gotValue
  have different : valDup ≠ keyDup := by
    rintro rfl
    simp at freshValue
  rw [Heap.read_store_other _ _ different] at freshValue
  exact ⟨keyDup, valDup, different.symm, freshValue.1, freshKey.2, freshValue.2, rfl, rfl, rfl⟩

structure Added (store after : Store) (key value : Bytes) (keyDup valDup : Nat) : Prop where
  different : keyDup ≠ valDup
  nonnull : valDup ≠ 0
  freshKey : store.heap.read keyDup = none
  freshValue : store.heap.read valDup = none
  heap : after.heap = (store.heap.store keyDup key).store valDup value
  table : after.cfkv = Function.update store.cfkv key (some (keyDup, valDup))

section

variable {store after : Store} {key value : Bytes} {keyDup valDup : Nat}

theorem Added.keyBlock (added : Added store after key value keyDup valDup) :
    after.heap.read keyDup = some key := by
  rw [added.heap, Heap.read_store_other _ _ added.different, Heap.read_store_self]

theorem Added.valueBlock (added : Added store after key value keyDup valDup) :
    after.heap.read valDup = some value := by
  rw [added.heap, Heap.read_store_self]

theorem Added.kept (added : Added store after key value keyDup valDup) {address : Nat}
    {bytes : Bytes} (there : store.heap.read address = some bytes) :
    address ≠ keyDup ∧ address ≠ valDup ∧ after.heap.read address = some bytes := by
  have notKey : address ≠ keyDup := by
    rintro rfl
    rw [added.freshKey] at there
    contradiction
  have notValue : address ≠ valDup := by
    rintro rfl
    rw [added.freshValue] at there
    contradiction
  rw [added.heap, Heap.read_store_other _ _ notValue, Heap.read_store_other _ _ notKey]
  exact ⟨notKey, notValue, there⟩

theorem Added.entries (added : Added store after key value keyDup valDup) (owns : Owns store)
    {other : Bytes} {otherKey otherVal : Nat}
    (entry : after.cfkv other = some (otherKey, otherVal)) :
    (other = key ∧ otherKey = keyDup ∧ otherVal = valDup) ∨
      (other ≠ key ∧ store.cfkv other = some (otherKey, otherVal) ∧
        otherKey ≠ keyDup ∧ otherKey ≠ valDup ∧ otherVal ≠ keyDup ∧ otherVal ≠ valDup) := by
  rw [added.table] at entry
  by_cases same : other = key
  · subst same
    simp only [Function.update_self, Option.some.injEq, Prod.mk.injEq] at entry
    exact .inl ⟨rfl, entry.1.symm, entry.2.symm⟩
  · rw [Function.update_of_ne same] at entry
    obtain ⟨bytes, there⟩ := Option.isSome_iff_exists.mp (owns.value_read _ _ _ entry).1
    have apartKey := added.kept (owns.key_read _ _ _ entry)
    have apartValue := added.kept there
    exact .inr ⟨same, entry, apartKey.1, apartKey.2.1, apartValue.1, apartValue.2.1⟩

theorem Added.owns (added : Added store after key value keyDup valDup) (owns : Owns store) :
    Owns after where
  key_read other otherKey otherVal entry := by
    rcases added.entries owns entry with ⟨rfl, rfl, -⟩ | ⟨-, old, -⟩
    · exact added.keyBlock
    · exact (added.kept (owns.key_read _ _ _ old)).2.2
  value_read other otherKey otherVal entry := by
    rcases added.entries owns entry with ⟨-, -, rfl⟩ | ⟨-, old, -⟩
    · exact ⟨by rw [added.valueBlock]; rfl, added.nonnull⟩
    · obtain ⟨bytes, there⟩ := Option.isSome_iff_exists.mp (owns.value_read _ _ _ old).1
      exact ⟨by rw [(added.kept there).2.2]; rfl, (owns.value_read _ _ _ old).2⟩
  key_apart other otherKey otherVal third thirdKey thirdVal entry another := by
    rcases added.entries owns entry with ⟨-, rfl, rfl⟩ | ⟨-, old, apart⟩
    · rcases added.entries owns another with ⟨-, -, rfl⟩ | ⟨-, -, apart⟩
      · exact added.different
      · exact apart.2.2.1.symm
    · rcases added.entries owns another with ⟨-, -, rfl⟩ | ⟨-, older, -⟩
      · exact apart.2.1
      · exact owns.key_apart _ _ _ _ _ _ old older
  value_apart other otherKey otherVal third thirdKey entry another := by
    rcases added.entries owns entry with ⟨rfl, -, rfl⟩ | ⟨-, old, apart⟩
    · rcases added.entries owns another with ⟨rfl, -, -⟩ | ⟨-, -, apart⟩
      · rfl
      · exact absurd rfl apart.2.2.2
    · rcases added.entries owns another with ⟨-, -, rfl⟩ | ⟨-, older, -⟩
      · exact absurd rfl apart.2.2.2
      · exact owns.value_apart _ _ _ _ _ old older

theorem Added.lookup (added : Added store after key value keyDup valDup) (owns : Owns store)
    (other : Bytes) :
    after.lookup other = if other = key then some (some value) else store.lookup other := by
  simp only [Store.lookup, added.table]
  by_cases same : other = key
  · simp [same, added.valueBlock]
  · rw [if_neg same, Function.update_of_ne same]
    cases third : store.cfkv other with
    | none => rfl
    | some entry =>
        obtain ⟨bytes, there⟩ := Option.isSome_iff_exists.mp (owns.value_read _ _ _ third).1
        simp only [Option.map_some, there, (added.kept there).2.2]

end

theorem addKey_right {allocator : Allocator} {key value : Bytes} {store after : Store}
    (owns : Owns store) (stepped : addKey allocator key value store = some after) :
    Owns after ∧ ∀ other, after.lookup other =
      if other = key then some (some value) else store.lookup other := by
  obtain ⟨keyDup, valDup, different, nonnull, freshKey, freshValue, heap, table, -⟩ :=
    addKey_eq_some stepped
  have added : Added store after key value keyDup valDup :=
    ⟨different, nonnull, freshKey, freshValue, heap, table⟩
  exact ⟨added.owns owns, added.lookup owns⟩

theorem overwriteKey_eq_some {allocator : Allocator} {valPtr : Nat} {value : Bytes}
    {store after : Store} (nonnull : valPtr ≠ 0)
    (written : overwriteKey allocator valPtr value store = some after) :
    ∃ address, allocator.strdup (store.heap.free valPtr) store.calls = some address ∧
      after.heap = (store.heap.free valPtr).store address value ∧ after.cfkv = store.cfkv ∧
      after.dataDirty = true := by
  simp only [overwriteKey, ne_eq, nonnull, not_false_eq_true, if_true] at written
  obtain ⟨final, copied, rfl⟩ := Option.map_eq_some_iff.mp written
  obtain ⟨address, got, rfl⟩ := Option.map_eq_some_iff.mp copied
  exact ⟨address, got, rfl, rfl, rfl⟩

theorem overwrite_in_place {store after : Store} (owns : Owns store) {key value : Bytes}
    {keyPtr valPtr : Nat} (entry : store.cfkv key = some (keyPtr, valPtr))
    (heap : after.heap = (store.heap.free valPtr).store valPtr value)
    (table : after.cfkv = store.cfkv) :
    Owns after ∧ ∀ other, after.lookup other =
      if other = key then some (some value) else store.lookup other := by
  have written : after.heap.read valPtr = some value := by
    rw [heap, Heap.read_store_self]
  have elsewhere : ∀ address, address ≠ valPtr →
      after.heap.read address = store.heap.read address := by
    intro address apart
    rw [heap, Heap.read_store_other _ _ apart, Heap.read_free_other _ apart]
  constructor
  · apply owns.restrict
    · intro other found there
      rwa [table] at there
    · intro other otherKey otherVal there
      rw [table] at there
      exact elsewhere _ (owns.key_apart _ _ _ _ _ _ there entry)
    · intro other otherKey otherVal there
      rw [table] at there
      by_cases same : otherVal = valPtr
      · rw [same, written]
        rfl
      · rw [elsewhere _ same]
        exact (owns.value_read _ _ _ there).1
  · intro other
    simp only [Store.lookup, table]
    by_cases same : other = key
    · simp [same, entry, written]
    · rw [if_neg same]
      cases third : store.cfkv other with
      | none => rfl
      | some found =>
          exact congrArg some (elsewhere _ (owns.apart same entry third).2.2.2)

theorem overwrite_elsewhere {store after : Store} {key value : Bytes} {keyPtr valPtr address : Nat}
    (entry : store.cfkv key = some (keyPtr, valPtr)) (apart : address ≠ valPtr)
    (heap : after.heap = (store.heap.free valPtr).store address value)
    (table : after.cfkv = store.cfkv) : after.lookup key = some none := by
  simp [Store.lookup, table, entry, heap, Heap.read_store_other _ _ apart.symm]

theorem parseSingleLine_line (allocator : Allocator) (line : Line) (store : Store) :
    parseSingleLine allocator line.bytes store =
      match commandOf line.text with
      | .put key value => putKey allocator key value store
      | .delete key => some (deleteKey key store)
      | .malformed => some store := by
  have ends : (if line.newline then [10] else [] : Bytes) = [] ∨
      (if line.newline then [10] else [] : Bytes) = [10] := by
    cases line.newline <;> simp
  rw [parseSingleLine, Line.bytes, parseFields_words line.printable ends, commandOf]
  rcases words line.text with _ | ⟨key, _ | ⟨value, rest⟩⟩
  · rfl
  · rfl
  · by_cases deletes : isDelete value
    · simp [deletes]
    · simp [deletes]

structure Sound (history : History) : Prop where
  owns : Owns history.store
  right : ∀ key, history.store.lookup key = (latest history.commands key).map some

theorem sound_start : Sound startHistory where
  owns := owns_empty
  right _ := rfl

theorem sound_snoc {history : History} {command : Command} {store : Store}
    (owns : Owns store) (looked : ∀ key, store.lookup key =
      (command.apply key (latest history.commands key)).map some) :
    Sound ⟨store, history.commands ++ [command]⟩ where
  owns := owns
  right key := by rw [latest_snoc, looked]

theorem Sound.malformed {history : History} (sound : Sound history) :
    Sound ⟨history.store, history.commands ++ [.malformed]⟩ :=
  sound_snoc sound.owns sound.right

theorem Sound.delete {history : History} (sound : Sound history) (key : Bytes) :
    Sound ⟨deleteKey key history.store, history.commands ++ [.delete key]⟩ := by
  apply sound_snoc (owns_deleteKey sound.owns key)
  intro other
  rw [lookup_deleteKey sound.owns]
  by_cases same : other = key
  · simp [same, Command.apply]
  · simp [same, Ne.symm same, Command.apply, sound.right other]

theorem Sound.put {history : History} (sound : Sound history) {key value : Bytes} {store : Store}
    (owns : Owns store) (looked : ∀ other, store.lookup other =
      if other = key then some (some value) else history.store.lookup other) :
    Sound ⟨store, history.commands ++ [.put key value]⟩ := by
  apply sound_snoc owns
  intro other
  rw [looked]
  by_cases same : other = key
  · simp [same, Command.apply]
  · simp [same, Ne.symm same, Command.apply, sound.right other]

theorem Sound.tableRight {history : History} (sound : Sound history) : TableRight history :=
  (tableRight_iff history).mpr sound.right

theorem reuses_of_absent {allocator : Allocator} {history : History} {line : Line}
    (absent : ∀ key value, commandOf line.text = .put key value → history.store.cfkv key = none) :
    Reuses allocator history line := by
  intro key value keyPtr valPtr address command entry
  rw [absent key value command] at entry
  contradiction

theorem reuses_iff {allocator : Allocator} {history : History} {line : Line} {key value : Bytes}
    {keyPtr valPtr address : Nat} (command : commandOf line.text = .put key value)
    (entry : history.store.cfkv key = some (keyPtr, valPtr))
    (got : allocator.strdup (history.store.heap.free valPtr) history.store.calls = some address) :
    Reuses allocator history line ↔ address = valPtr := by
  constructor
  · exact fun reuses => reuses key value keyPtr valPtr address command entry got
  · rintro rfl said saidValue otherKey otherVal other same there copied
    rw [command] at same
    injection same with same
    rw [← same, entry] at there
    simp only [Option.some.injEq, Prod.mk.injEq] at there
    rw [← there.2, got] at copied
    rw [← there.2]
    exact (Option.some.inj copied).symm

theorem overwrite_right_iff {allocator : Allocator} {history : History} (sound : Sound history)
    {key value : Bytes} {keyPtr valPtr : Nat} {store : Store}
    (entry : history.store.cfkv key = some (keyPtr, valPtr))
    (written : overwriteKey allocator valPtr value history.store = some store) :
    ∃ address,
      allocator.strdup (history.store.heap.free valPtr) history.store.calls = some address ∧
      (TableRight ⟨store, history.commands ++ [.put key value]⟩ ↔ address = valPtr) ∧
      (address = valPtr → Sound ⟨store, history.commands ++ [.put key value]⟩) := by
  have nonnull := (sound.owns.value_read _ _ _ entry).2
  obtain ⟨address, got, heap, table, -⟩ := overwriteKey_eq_some nonnull written
  refine ⟨address, got, ?_⟩
  by_cases same : address = valPtr
  · rw [same] at heap
    obtain ⟨owns, looked⟩ := overwrite_in_place sound.owns entry heap table
    have after : Sound ⟨store, history.commands ++ [.put key value]⟩ := sound.put owns looked
    exact ⟨iff_of_true after.tableRight same, fun _ => after⟩
  · refine ⟨iff_of_false ?_ same, fun reused => absurd reused same⟩
    intro right
    have looked := (tableRight_iff _).mp right key
    rw [overwrite_elsewhere entry same heap table, latest_snoc] at looked
    simp [Command.apply] at looked

/-- One line from a right table: the table is right again exactly when an overwrite
gets its block back. -/
theorem step_right_iff {allocator : Allocator} {history after : History} {line : Line}
    (sound : Sound history) (stepped : (tableMachine allocator).step history line = some after) :
    (TableRight after ↔ Reuses allocator history line) ∧
      (Reuses allocator history line → Sound after) := by
  obtain ⟨store, parsed, rfl⟩ := Option.map_eq_some_iff.mp stepped
  rw [parseSingleLine_line] at parsed
  -- only a put line for a key of the table can go wrong
  have settled : Sound ⟨store, history.commands ++ [commandOf line.text]⟩ →
      (∀ key value, commandOf line.text = .put key value → history.store.cfkv key = none) →
      (TableRight ⟨store, history.commands ++ [commandOf line.text]⟩ ↔
          Reuses allocator history line) ∧
        (Reuses allocator history line →
          Sound ⟨store, history.commands ++ [commandOf line.text]⟩) := by
    intro after absent
    exact ⟨iff_of_true after.tableRight (reuses_of_absent absent), fun _ => after⟩
  cases command : commandOf line.text with
  | malformed =>
      rw [command] at parsed settled
      obtain rfl := Option.some.inj parsed
      exact settled sound.malformed (fun _ _ said => by contradiction)
  | delete key =>
      rw [command] at parsed settled
      obtain rfl := Option.some.inj parsed
      exact settled (sound.delete key) (fun _ _ said => by contradiction)
  | put key value =>
      rw [command] at parsed settled
      cases found : history.store.cfkv key with
      | none =>
          simp only [putKey, found] at parsed
          obtain ⟨owns, looked⟩ := addKey_right sound.owns parsed
          apply settled (sound.put owns looked)
          rintro _ _ ⟨⟩
          exact found
      | some entry =>
          simp only [putKey, found] at parsed
          obtain ⟨address, got, right, after⟩ := overwrite_right_iff sound found parsed
          rw [reuses_iff command found got]
          exact ⟨right, after⟩

/-- From the empty table, every line leaves every key at its latest value exactly
when every overwriting line gets back from `strdup` the block it has just freed. -/
theorem lookups_latest_iff (allocator : Allocator) (lines : List Line) :
    (tableMachine allocator).Along (fun _ _ after => TableRight after) startHistory lines ↔
      (tableMachine allocator).Along (fun history line _ => Reuses allocator history line)
        startHistory lines := by
  refine Machine.along_iff Sound ?_ ?_ sound_start lines
  · intro history line after sound stepped
    exact (step_right_iff sound stepped).1
  · intro history line after sound reuses stepped
    exact (step_right_iff sound stepped).2 reuses

def bumpAllocator : Allocator where
  strdup heap calls := if heap.read (calls + 1) = none then some (calls + 1) else none
  fresh heap calls address got := by
    split at got
    · rename_i unused
      obtain rfl := Option.some.inj got
      exact ⟨Nat.succ_ne_zero _, unused⟩
    · contradiction

def firstLine : Line := ⟨[107, 32, 97], by decide +kernel, true⟩

def secondLine : Line := ⟨[107, 32] ++ List.replicate 30 98, by decide +kernel, true⟩

theorem overwrite_loses :
    ∃ final, (tableMachine bumpAllocator).run startHistory [firstLine, secondLine] = some final ∧
      final.store.lookup [107] = some none ∧
      Latest final.commands [107] (List.replicate 30 98) ∧ ¬TableRight final := by
  have ran : ((tableMachine bumpAllocator).run startHistory [firstLine, secondLine]).map
      (fun final => (final.commands, final.store.lookup [107])) =
        some ([.put [107] [97], .put [107] (List.replicate 30 98)], some none) := by
    decide
  obtain ⟨final, reached, seen⟩ := Option.map_eq_some_iff.mp ran
  obtain ⟨commands, looked⟩ := Prod.mk.inj seen
  have last : Latest final.commands [107] (List.replicate 30 98) :=
    ⟨[.put [107] [97]], [], by rw [commands]; rfl, by simp⟩
  refine ⟨final, reached, looked, last, ?_⟩
  intro right
  have found := (right [107]).1 _ last
  rw [looked] at found
  simp at found

end DirtyCode.ConfCli
