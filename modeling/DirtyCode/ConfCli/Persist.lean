import DirtyCode.ConfCli.Lookup

/-!
The two threads of `ConfCli.c` that write the table to disk: `worker_thread` dumps
it to `CONF_FILE_M`, `disk_worker` to `CONF_FILE_D`.
-/

namespace DirtyCode.ConfCli

open Lib

/-- What a dump writes: the value printed behind every key of the table. -/
abbrev Snapshot := Bytes → Option (Option Bytes)

inductive DiskPc
  | idle
  | tested
  | dumped
  deriving DecidableEq

structure Files where
  store : Store
  mfileDirty : Bool
  confFileM : Snapshot
  confFileD : Snapshot
  disk : DiskPc

inductive FileStep
  | line (linebuf : Bytes)
  | timeout
  | diskTest
  | diskDump
  | diskClear

def processLine (allocator : Allocator) (linebuf : Bytes) (files : Files) : Option Files :=
  (parseSingleLine allocator linebuf files.store).map fun store => { files with store := store }

def pollTimeout (files : Files) : Files :=
  if files.store.dataDirty then
    { files with
      confFileM := files.store.lookup
      store := { files.store with dataDirty := false }
      mfileDirty := true }
  else files

def Files.step (allocator : Allocator) (files : Files) : FileStep → Option Files
  | .line linebuf => processLine allocator linebuf files
  | .timeout => some (pollTimeout files)
  | .diskTest =>
      if files.disk = .idle then
        some (if files.mfileDirty then { files with disk := .tested } else files)
      else none
  | .diskDump =>
      if files.disk = .tested then
        some { files with confFileD := files.store.lookup, disk := .dumped }
      else none
  | .diskClear =>
      if files.disk = .dumped then some { files with mfileDirty := false, disk := .idle } else none

def startFiles (confFileM confFileD : Snapshot) : Files where
  store := emptyStore
  mfileDirty := false
  confFileM := confFileM
  confFileD := confFileD
  disk := .idle

def fileMachine (allocator : Allocator) : Machine Files FileStep where
  init files := ∃ confFileM confFileD, files = startFiles confFileM confFileD
  step := Files.step allocator

def Persisted (files : Files) : Prop :=
  files.store.dataDirty = false → files.mfileDirty = false → files.disk = .idle →
    files.confFileD = files.store.lookup

/-- `mfile_dirty` is cleared for the snapshot that the worker has flushed last,
or the table is dirty again. -/
def ClearsCopied (files : Files) : FileStep → Prop
  | .diskClear => files.store.dataDirty = true ∨ files.confFileD = files.confFileM
  | _ => True

structure Flushed (files : Files) : Prop where
  busy : files.disk ≠ .idle → files.mfileDirty = true
  flushed : files.mfileDirty = true → files.store.dataDirty = true ∨
    files.confFileM = files.store.lookup
  copied : files.mfileDirty = false → files.store.dataDirty = true ∨
    files.confFileD = files.store.lookup

theorem flushed_start (confFileM : Snapshot) :
    Flushed (startFiles confFileM emptyStore.lookup) where
  busy := by simp [startFiles]
  flushed := by simp [startFiles]
  copied := by simp [startFiles]

theorem Flushed.persisted {files : Files} (flushed : Flushed files) : Persisted files := by
  intro clean copied _
  rcases flushed.copied copied with dirty | held
  · rw [clean] at dirty
    contradiction
  · exact held

theorem parseSingleLine_dirty {allocator : Allocator} {linebuf : Bytes} {store after : Store}
    (parsed : parseSingleLine allocator linebuf store = some after) :
    after.dataDirty = true ∨ after = store := by
  rw [parseSingleLine] at parsed
  split at parsed
  · exact .inr (Option.some.inj parsed).symm
  · rename_i key value found
    split at parsed
    · obtain rfl := Option.some.inj parsed
      cases absent : store.cfkv key with
      | none => exact .inr (deleteKey_absent absent)
      | some entry => exact .inl (by simp [deleteKey, absent])
    · rw [putKey] at parsed
      split at parsed
      · obtain ⟨keyDup, valDup, -, -, -, -, -, -, dirty⟩ := addKey_eq_some parsed
        exact .inl dirty
      · obtain ⟨copied, -, rfl⟩ := Option.map_eq_some_iff.mp parsed
        exact .inl rfl

theorem flushed_line {allocator : Allocator} {linebuf : Bytes} {files after : Files}
    (flushed : Flushed files) (stepped : processLine allocator linebuf files = some after) :
    Flushed after := by
  obtain ⟨store, parsed, rfl⟩ := Option.map_eq_some_iff.mp stepped
  rcases parseSingleLine_dirty parsed with dirty | same
  · exact ⟨flushed.busy, fun _ => .inl dirty, fun _ => .inl dirty⟩
  · rw [same]
    exact flushed

theorem flushed_timeout {files : Files} (flushed : Flushed files) :
    Flushed (pollTimeout files) := by
  rw [pollTimeout]
  split
  · constructor
    · intro _
      rfl
    · intro _
      exact .inr rfl
    · intro clear
      contradiction
  · exact flushed

theorem flushed_step {allocator : Allocator} {files after : Files} {label : FileStep}
    (flushed : Flushed files) (allowed : ClearsCopied files label)
    (stepped : files.step allocator label = some after) : Flushed after := by
  cases label with
  | line linebuf => exact flushed_line flushed stepped
  | timeout =>
      obtain rfl := Option.some.inj stepped
      exact flushed_timeout flushed
  | diskTest =>
      simp only [Files.step] at stepped
      split at stepped
      · obtain rfl := Option.some.inj stepped
        split
        · rename_i set_
          exact ⟨fun _ => set_, flushed.flushed, flushed.copied⟩
        · exact flushed
      · contradiction
  | diskDump =>
      simp only [Files.step] at stepped
      split at stepped
      · rename_i tested
        obtain rfl := Option.some.inj stepped
        have set_ := flushed.busy (by rw [tested]; decide)
        exact ⟨fun _ => set_, flushed.flushed, fun _ => .inr rfl⟩
      · contradiction
  | diskClear =>
      simp only [Files.step] at stepped
      split at stepped
      · rename_i dumped
        obtain rfl := Option.some.inj stepped
        have set_ := flushed.busy (by rw [dumped]; decide)
        refine ⟨fun busy => absurd rfl busy, fun still => absurd still Bool.false_ne_true, ?_⟩
        intro _
        rcases flushed.flushed set_ with dirty | held
        · exact .inl dirty
        · rcases allowed with dirty | same
          · exact .inl dirty
          · exact .inr (same.trans held)
      · contradiction

/-- Only the clearing of `mfile_dirty` can leave a stale file behind, and it does
exactly when it clears the mark of a later flush. -/
theorem persisted_step_iff {allocator : Allocator} {files after : Files} {label : FileStep}
    (flushed : Flushed files) (stepped : files.step allocator label = some after) :
    Persisted after ↔ ClearsCopied files label := by
  constructor
  · intro persisted
    cases label with
    | diskClear =>
        simp only [Files.step] at stepped
        split at stepped
        · rename_i dumped
          obtain rfl := Option.some.inj stepped
          have set_ := flushed.busy (by rw [dumped]; decide)
          by_cases dirty : files.store.dataDirty = true
          · exact .inl dirty
          · have held := (flushed.flushed set_).resolve_left dirty
            have current := persisted (Bool.eq_false_iff.mpr dirty) rfl rfl
            exact .inr (current.trans held.symm)
        · contradiction
    | line linebuf => trivial
    | timeout => trivial
    | diskTest => trivial
    | diskDump => trivial
  · intro allowed
    exact (flushed_step flushed allowed stepped).persisted

/-- In every interleaving the file on disk is the table wherever nothing is marked
dirty, exactly when it was so at the start and no clearing drops a later mark. -/
theorem disk_file_current_iff (allocator : Allocator) (confFileM confFileD : Snapshot)
    (labels : List FileStep) :
    (Persisted (startFiles confFileM confFileD) ∧
      (fileMachine allocator).Along (fun _ _ after => Persisted after)
        (startFiles confFileM confFileD) labels) ↔
    (confFileD = emptyStore.lookup ∧
      (fileMachine allocator).Along (fun files label _ => ClearsCopied files label)
        (startFiles confFileM confFileD) labels) := by
  have initially : Persisted (startFiles confFileM confFileD) ↔ confFileD = emptyStore.lookup := by
    constructor
    · intro persisted
      exact persisted rfl rfl rfl
    · rintro rfl _ _ _
      rfl
  rw [initially]
  apply and_congr_right
  rintro rfl
  refine Machine.along_iff Flushed ?_ ?_ (flushed_start confFileM) labels
  · intro files label after flushed stepped
    exact persisted_step_iff flushed stepped
  · intro files label after flushed allowed stepped
    exact flushed_step flushed allowed stepped

/-- The line `k v` comes and is flushed between the dump to `CONF_FILE_D` and the
clearing of `mfile_dirty`. -/
def lateFlush : List FileStep :=
  [.line [97, 32, 98], .timeout, .diskTest, .diskDump, .line [107, 32, 118], .timeout, .diskClear]

theorem late_flush_lost :
    ∃ final, (fileMachine bumpAllocator).run (startFiles emptyStore.lookup emptyStore.lookup)
        lateFlush = some final ∧
      final.store.dataDirty = false ∧ final.mfileDirty = false ∧ final.disk = .idle ∧
      final.confFileD ≠ final.store.lookup := by
  refine ⟨_, rfl, rfl, rfl, rfl, ?_⟩
  intro same
  have looked := congrFun same [107]
  revert looked
  decide

end DirtyCode.ConfCli
