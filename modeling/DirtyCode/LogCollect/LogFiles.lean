import DirtyCode.Lib.FileSystem
import DirtyCode.Lib.Machine

/-!
The log files of `logCollectSrv.c` in the default build: how the disk thread opens,
rotates and writes them for sessions that may share a file.
-/

namespace DirtyCode.LogCollect

open Lib

structure FileConfig where
  nrDir : Nat
  logIdf : Path
  dirSwitchPeriod : Nat
  maxFileSize : Nat

/-- `gstats.cur_seq` and the date of `gstats.cur_tminfo`. -/
structure Clock where
  curSeq : Nat
  date : Path
  deriving DecidableEq

structure FileSession where
  ip : Nat
  onDiskFd : Option Descriptor
  fileSeq : Nat
  roughFileOffset : Nat

structure Logs where
  fs : FileSystem
  clock : Clock
  sessions : Nat → Option FileSession
  nrSessions : Nat

def number (value : Nat) : Path := Nat.toDigits 10 value

def padded (width value : Nat) : Path :=
  List.replicate (width - (number value).length) '0' ++ number value

def octetOf (ip place : Nat) : Nat := ip / 256 ^ place % 256

def ipStr (ip last : Nat) : Path :=
  padded 3 (octetOf ip 3) ++ ['_'] ++ padded 3 (octetOf ip 2) ++ ['_'] ++
    padded 3 (octetOf ip 1) ++ ['_'] ++ padded 3 last

-- `DEFAULT_DIR_PREFIX`
def fileName (cfg : FileConfig) (clock : Clock) (ip : Nat) : Path :=
  ['/', 'd', 'a', 't', 'a'] ++ padded 2 (octetOf ip 0 % cfg.nrDir + 1) ++ ['/'] ++ cfg.logIdf ++
    ['/'] ++ clock.date ++ ['/'] ++ number (86400 / cfg.dirSwitchPeriod) ++ ['_'] ++
    padded 3 clock.curSeq ++ ['/'] ++ ipStr ip 0 ++ ['/'] ++ ipStr ip (octetOf ip 0) ++
    ['.', 'l', 'o', 'g']

def renameLast (inode : Nat) (fs : FileSystem) : FileSystem :=
  let srcf := fs.readlink inode
  let dstf := srcf ++ FileSystem.dotLast
  (fs.remove dstf).rename srcf dstf

def setOnDiskLogFilename (cfg : FileConfig) (clock : Clock) (session : FileSession)
    (fs : FileSystem) : FileSession × FileSystem :=
  let name := fileName cfg clock session.ip
  let opened := fs.openFile name true
  let roughFileOffset := opened.2.size opened.1.inode
  if roughFileOffset > cfg.maxFileSize then
    let again := (renameLast opened.1.inode opened.2).openFile name false
    ({ session with onDiskFd := some again.1, roughFileOffset := 0 }, again.2)
  else ({ session with onDiskFd := some opened.1, roughFileOffset := roughFileOffset }, opened.2)

def handleFilesizeExceeded (cfg : FileConfig) (session : FileSession) (fs : FileSystem) :
    FileSession × FileSystem :=
  match session.onDiskFd with
  | none => (session, fs)
  | some descriptor =>
      if session.roughFileOffset < cfg.maxFileSize then (session, fs)
      else
        ({ session with onDiskFd := none, roughFileOffset := 0 }, renameLast descriptor.inode fs)

/-- The writing of `write2disk`, every `write` being complete. -/
def write2disk (session : FileSession) (buf : List UInt8) (fs : FileSystem) :
    Option (FileSession × FileSystem) :=
  session.onDiskFd.map fun descriptor =>
    let written := fs.write descriptor buf
    ({ session with
      onDiskFd := some written.1
      roughFileOffset := session.roughFileOffset + buf.length }, written.2)

inductive LogStep
  | tick (clock : Clock)
  | accept (ip : Nat)
  | expire (session : Nat)
  | rotate (session : Nat)
  | openLog (session : Nat)
  | write (session : Nat) (buf : List UInt8)
  | close (session : Nat)

def Logs.put (logs : Logs) (index : Nat) (result : FileSession × FileSystem) : Logs :=
  { logs with
    fs := result.2
    sessions := Function.update logs.sessions index (some result.1) }

-- the disk thread is one thread, so each of its calls is a step
def Logs.step (cfg : FileConfig) (logs : Logs) : LogStep → Option Logs
  | .tick clock => some { logs with clock := clock }
  | .accept ip =>
      some { logs with
        sessions := Function.update logs.sessions logs.nrSessions
          (some { ip := ip, onDiskFd := none, fileSeq := logs.clock.curSeq, roughFileOffset := 0 })
        nrSessions := logs.nrSessions + 1 }
  | .expire index =>
      (logs.sessions index).bind fun session =>
        if session.onDiskFd ≠ none ∧ session.fileSeq ≠ logs.clock.curSeq then
          some (logs.put index ({ session with onDiskFd := none }, logs.fs))
        else none
  | .rotate index =>
      (logs.sessions index).map fun session =>
        logs.put index (handleFilesizeExceeded cfg session logs.fs)
  | .openLog index =>
      (logs.sessions index).bind fun session =>
        if session.onDiskFd = none ∨ session.fileSeq ≠ logs.clock.curSeq then
          some (logs.put index (setOnDiskLogFilename cfg logs.clock
            { session with fileSeq := logs.clock.curSeq } logs.fs))
        else none
  | .write index buf =>
      if buf = [] then none
      else
        (logs.sessions index).bind fun session =>
          (write2disk session buf logs.fs).map (logs.put index)
  | .close index =>
      (logs.sessions index).map fun session =>
        logs.put index ({ session with onDiskFd := none }, logs.fs)

def startLogs (fs : FileSystem) (clock : Clock) : Logs where
  fs := fs
  clock := clock
  sessions := fun _ => none
  nrSessions := 0

def logMachine (cfg : FileConfig) : Machine Logs LogStep where
  init logs := ∃ fs clock, logs = startLogs fs clock
  step := Logs.step cfg

/-- A descriptor opened again without `O_APPEND` is written while it stands at the
end of its file: no one else has written to the file since. -/
def AtEnd (logs : Logs) : LogStep → Prop
  | .write index _ => ∀ session descriptor, logs.sessions index = some session →
      session.onDiskFd = some descriptor → descriptor.inode < logs.fs.inodes →
        descriptor.append = false → logs.fs.size descriptor.inode ≤ descriptor.offset
  | _ => True

theorem fileName_last (cfg : FileConfig) (clock : Clock) (ip : Nat) :
    (fileName cfg clock ip).getLast? = some 'g' := by
  simp only [fileName, List.getLast?_append]
  rfl

theorem fileName_ne_last (cfg : FileConfig) (clock : Clock) (ip : Nat) (path : Path) :
    fileName cfg clock ip ≠ path ++ FileSystem.dotLast := by
  intro same
  have last := congrArg List.getLast? same
  rw [fileName_last] at last
  simp [FileSystem.dotLast] at last

theorem grows_openFile (fs : FileSystem) (path : Path) (append : Bool) :
    fs.Grows (fs.openFile path append).2 := by
  unfold FileSystem.openFile
  split
  · exact .refl
  · rename_i absent
    exact .single (.create fs path absent)

theorem grows_renameLast (fs : FileSystem) (inode : Nat) : fs.Grows (renameLast inode fs) :=
  .single (.rotate fs (fs.readlink inode))

theorem renameLast_content (inode : Nat) (fs : FileSystem) :
    (renameLast inode fs).content = fs.content := by
  rw [renameLast, FileSystem.rename_content]
  rfl

theorem renameLast_inodes (inode : Nat) (fs : FileSystem) :
    (renameLast inode fs).inodes = fs.inodes := by
  rw [renameLast, FileSystem.rename_inodes]
  rfl

theorem renameLast_free {fs : FileSystem} {path : Path} {inode : Nat}
    (found : fs.names path = some inode) : (renameLast inode fs).names path = none := by
  have apart : path ≠ path ++ FileSystem.dotLast := by
    intro same
    have length := congrArg List.length same
    simp [FileSystem.dotLast] at length
  rw [renameLast, fs.readlink_of_name found]
  exact FileSystem.rename_source _ apart

theorem setOnDiskLogFilename_large (cfg : FileConfig) (clock : Clock) (session : FileSession)
    {fs : FileSystem} {inode : Nat} (found : fs.names (fileName cfg clock session.ip) = some inode)
    (large : fs.size inode > cfg.maxFileSize) :
    setOnDiskLogFilename cfg clock session fs =
      ({ session with onDiskFd := some ⟨fs.inodes, 0, false⟩, roughFileOffset := 0 },
        (renameLast inode fs).create (fileName cfg clock session.ip) (renameLast_free found)) := by
  simp only [setOnDiskLogFilename, fs.openFile_of_some found, large, if_true,
    FileSystem.openFile_of_none _ (renameLast_free found), renameLast_inodes]

theorem grows_setOnDiskLogFilename (cfg : FileConfig) (clock : Clock) (session : FileSession)
    (fs : FileSystem) : fs.Grows (setOnDiskLogFilename cfg clock session fs).2 := by
  have first := grows_openFile fs (fileName cfg clock session.ip) true
  rw [setOnDiskLogFilename]
  split
  · exact (first.trans (grows_renameLast _ _)).trans (grows_openFile _ _ _)
  · exact first

theorem grows_handleFilesizeExceeded (cfg : FileConfig) (session : FileSession)
    (fs : FileSystem) : fs.Grows (handleFilesizeExceeded cfg session fs).2 := by
  rw [handleFilesizeExceeded]
  split
  · exact .refl
  · split
    · exact .refl
    · exact grows_renameLast _ _

theorem grows_write_iff (fs : FileSystem) (descriptor : Descriptor) {buf : List UInt8}
    (nonempty : buf ≠ []) :
    fs.Grows (fs.write descriptor buf).2 ↔
      (descriptor.inode < fs.inodes → descriptor.append = false →
        fs.size descriptor.inode ≤ descriptor.offset) := by
  unfold FileSystem.write
  by_cases known : descriptor.inode < fs.inodes
  · rw [dif_pos known]
    cases appending : descriptor.append with
    | true =>
        refine iff_of_true ?_ ?_
        · exact .single (.extend fs _ known _ buf le_rfl)
        · intro _ plain
          contradiction
    | false =>
        constructor
        · intro grows _ _
          by_contra before
          exact FileSystem.not_grows_of_overwrite fs known (Nat.lt_of_not_le before) nonempty grows
        · intro atEnd
          exact .single (.extend fs _ known _ buf (atEnd known rfl))
  · rw [dif_neg known]
    exact iff_of_true .refl fun known' => absurd known' known

theorem write_grows_iff {cfg : FileConfig} {logs after : Logs} {label : LogStep}
    (stepped : logs.step cfg label = some after) :
    logs.fs.Grows after.fs ↔ AtEnd logs label := by
  cases label with
  | tick clock =>
      obtain rfl := Option.some.inj stepped
      exact iff_of_true .refl trivial
  | accept ip =>
      obtain rfl := Option.some.inj stepped
      exact iff_of_true .refl trivial
  | expire index =>
      obtain ⟨session, -, stepped⟩ := Option.bind_eq_some_iff.mp stepped
      split at stepped
      · obtain rfl := Option.some.inj stepped
        exact iff_of_true .refl trivial
      · contradiction
  | rotate index =>
      obtain ⟨session, -, rfl⟩ := Option.map_eq_some_iff.mp stepped
      exact iff_of_true (grows_handleFilesizeExceeded cfg session logs.fs) trivial
  | openLog index =>
      obtain ⟨session, -, stepped⟩ := Option.bind_eq_some_iff.mp stepped
      split at stepped
      · obtain rfl := Option.some.inj stepped
        exact iff_of_true (grows_setOnDiskLogFilename cfg _ _ logs.fs) trivial
      · contradiction
  | write index buf =>
      simp only [Logs.step] at stepped
      split at stepped
      · contradiction
      · rename_i nonempty
        obtain ⟨session, here, stepped⟩ := Option.bind_eq_some_iff.mp stepped
        obtain ⟨result, written, rfl⟩ := Option.map_eq_some_iff.mp stepped
        obtain ⟨descriptor, held, rfl⟩ := Option.map_eq_some_iff.mp written
        refine (grows_write_iff logs.fs descriptor nonempty).trans ?_
        constructor
        · intro atEnd other otherDescriptor same kept
          rw [here] at same
          obtain rfl := Option.some.inj same
          rw [held] at kept
          obtain rfl := Option.some.inj kept
          exact atEnd
        · intro atEnd
          exact atEnd session descriptor here held
  | close index =>
      obtain ⟨session, -, rfl⟩ := Option.map_eq_some_iff.mp stepped
      exact iff_of_true .refl trivial

/-- The log files are only ever extended and rotated exactly when no write goes through
a descriptor without `O_APPEND` behind which others have written. -/
theorem logs_append_only_iff (cfg : FileConfig) (fs : FileSystem) (clock : Clock)
    (labels : List LogStep) :
    (logMachine cfg).Along (fun logs _ after => logs.fs.Grows after.fs) (startLogs fs clock)
        labels ↔
      (logMachine cfg).Along (fun logs label _ => AtEnd logs label) (startLogs fs clock)
        labels := by
  refine Machine.along_iff (fun _ => True) ?_ ?_ trivial labels
  · intro logs label after _ stepped
    exact write_grows_iff stepped
  · intro logs label after _ _ _
    trivial

def SoleWriter (logs : Logs) : LogStep → Prop
  | .write index _ => ∀ session descriptor other otherSession otherDescriptor,
      logs.sessions index = some session → session.onDiskFd = some descriptor → other ≠ index →
      logs.sessions other = some otherSession → otherSession.onDiskFd = some otherDescriptor →
        otherDescriptor.append = false → otherDescriptor.inode ≠ descriptor.inode
  | _ => True

def StandsAtEnd (fs : FileSystem) (descriptor : Descriptor) : Prop :=
  descriptor.append = false →
    descriptor.inode < fs.inodes ∧ fs.size descriptor.inode ≤ descriptor.offset

def AllAtEnd (logs : Logs) : Prop :=
  ∀ index session descriptor, logs.sessions index = some session →
    session.onDiskFd = some descriptor → StandsAtEnd logs.fs descriptor

theorem standsAtEnd_of_content {fs after : FileSystem} (content : after.content = fs.content)
    (inodes : fs.inodes ≤ after.inodes) {descriptor : Descriptor}
    (stands : StandsAtEnd fs descriptor) : StandsAtEnd after descriptor := by
  intro plain
  obtain ⟨known, atEnd⟩ := stands plain
  refine ⟨Nat.lt_of_lt_of_le known inodes, ?_⟩
  rw [FileSystem.size, content]
  exact atEnd

theorem allAtEnd_put {logs : Logs} {index : Nat} {result : FileSession × FileSystem}
    (others : ∀ other session descriptor, other ≠ index → logs.sessions other = some session →
      session.onDiskFd = some descriptor → StandsAtEnd result.2 descriptor)
    (own : ∀ descriptor, result.1.onDiskFd = some descriptor → StandsAtEnd result.2 descriptor) :
    AllAtEnd (logs.put index result) := by
  intro other session descriptor here held
  by_cases same : other = index
  · subst same
    simp only [Logs.put, Function.update_self, Option.some.injEq] at here
    subst here
    exact own descriptor held
  · simp only [Logs.put, Function.update_of_ne same] at here
    exact others other session descriptor same here held

theorem openFile_content (fs : FileSystem) (path : Path) (append : Bool) :
    (fs.openFile path append).2.content = fs.content ∧
      fs.inodes ≤ (fs.openFile path append).2.inodes := by
  unfold FileSystem.openFile
  split
  · exact ⟨rfl, le_rfl⟩
  · exact ⟨rfl, Nat.le_succ _⟩

theorem openFile_append (fs : FileSystem) (path : Path) (append : Bool) :
    (fs.openFile path append).1.append = append := by
  unfold FileSystem.openFile
  split
  · rfl
  · rfl

theorem large_found {fs : FileSystem} {path : Path} {limit : Nat}
    (large : (fs.openFile path true).2.size (fs.openFile path true).1.inode > limit) :
    ∃ inode, fs.names path = some inode ∧ fs.size inode > limit := by
  cases found : fs.names path with
  | some inode =>
      rw [fs.openFile_of_some found] at large
      exact ⟨inode, rfl, large⟩
  | none =>
      rw [fs.openFile_of_none found] at large
      have empty : (fs.content fs.inodes).length = 0 := by
        rw [fs.unused fs.inodes le_rfl]
        rfl
      change (fs.content fs.inodes).length > limit at large
      omega

theorem setOnDiskLogFilename_spec (cfg : FileConfig) (clock : Clock) (session : FileSession)
    (fs : FileSystem) :
    (setOnDiskLogFilename cfg clock session fs).2.content = fs.content ∧
      fs.inodes ≤ (setOnDiskLogFilename cfg clock session fs).2.inodes ∧
      ∀ descriptor, (setOnDiskLogFilename cfg clock session fs).1.onDiskFd = some descriptor →
        StandsAtEnd (setOnDiskLogFilename cfg clock session fs).2 descriptor := by
  by_cases large : (fs.openFile (fileName cfg clock session.ip) true).2.size
      (fs.openFile (fileName cfg clock session.ip) true).1.inode > cfg.maxFileSize
  · obtain ⟨inode, found, size⟩ := large_found large
    rw [setOnDiskLogFilename_large cfg clock session found size]
    refine ⟨renameLast_content inode fs, ?_, ?_⟩
    · change fs.inodes ≤ (renameLast inode fs).inodes + 1
      rw [renameLast_inodes]
      exact Nat.le_succ _
    · intro descriptor held
      obtain rfl := Option.some.inj held
      intro _
      constructor
      · change fs.inodes < (renameLast inode fs).inodes + 1
        rw [renameLast_inodes]
        exact Nat.lt_succ_self _
      · change ((renameLast inode fs).content fs.inodes).length ≤ 0
        rw [renameLast_content, fs.unused fs.inodes le_rfl]
        exact le_rfl
  · obtain ⟨content, inodes⟩ := openFile_content fs (fileName cfg clock session.ip) true
    simp only [setOnDiskLogFilename, large, if_false]
    refine ⟨content, inodes, ?_⟩
    intro descriptor held plain
    rw [← Option.some.inj held, openFile_append] at plain
    contradiction

theorem handleFilesizeExceeded_spec (cfg : FileConfig) (session : FileSession)
    (fs : FileSystem) :
    (handleFilesizeExceeded cfg session fs).2.content = fs.content ∧
      (handleFilesizeExceeded cfg session fs).2.inodes = fs.inodes ∧
      ∀ descriptor, (handleFilesizeExceeded cfg session fs).1.onDiskFd = some descriptor →
        session.onDiskFd = some descriptor := by
  rw [handleFilesizeExceeded]
  split
  · exact ⟨rfl, rfl, fun descriptor held => held⟩
  · split
    · exact ⟨rfl, rfl, fun descriptor held => held⟩
    · exact ⟨renameLast_content _ fs, renameLast_inodes _ fs, nofun⟩

theorem standsAtEnd_write {fs : FileSystem} {descriptor : Descriptor} (buf : List UInt8)
    (stands : StandsAtEnd fs descriptor) :
    StandsAtEnd (fs.write descriptor buf).2 (fs.write descriptor buf).1 := by
  unfold FileSystem.write
  by_cases known : descriptor.inode < fs.inodes
  · rw [dif_pos known]
    intro plain
    have atEnd := (stands plain).2
    refine ⟨known, ?_⟩
    simp only [FileSystem.size, FileSystem.store, Function.update_self]
    rw [if_neg (by rw [plain]; exact Bool.false_ne_true)]
    exact (FileSystem.length_overwrite_of_end atEnd _ _).le
  · rw [dif_neg known]
    exact stands

theorem standsAtEnd_other {fs : FileSystem} {descriptor other : Descriptor} (buf : List UInt8)
    (apart : other.append = false → other.inode ≠ descriptor.inode)
    (stands : StandsAtEnd fs other) : StandsAtEnd (fs.write descriptor buf).2 other := by
  unfold FileSystem.write
  by_cases known : descriptor.inode < fs.inodes
  · rw [dif_pos known]
    intro plain
    obtain ⟨there, atEnd⟩ := stands plain
    refine ⟨there, ?_⟩
    simp only [FileSystem.size, FileSystem.store, Function.update_of_ne (apart plain)]
    exact atEnd
  · rw [dif_neg known]
    exact stands

theorem allAtEnd_accept {logs : Logs} {opened : FileSession} (all : AllAtEnd logs)
    (unopened : opened.onDiskFd = none) :
    AllAtEnd { logs with
      sessions := Function.update logs.sessions logs.nrSessions (some opened)
      nrSessions := logs.nrSessions + 1 } := by
  intro index session descriptor here held
  by_cases same : index = logs.nrSessions
  · subst same
    simp only [Function.update_self, Option.some.injEq] at here
    subst here
    rw [unopened] at held
    contradiction
  · simp only [Function.update_of_ne same] at here
    exact all index session descriptor here held

theorem allAtEnd_write {logs : Logs} {index : Nat} {session : FileSession}
    {descriptor : Descriptor} (buf : List UInt8) (all : AllAtEnd logs)
    (alone : SoleWriter logs (.write index buf)) (here : logs.sessions index = some session)
    (held : session.onDiskFd = some descriptor) (roughFileOffset : Nat) :
    AllAtEnd (logs.put index
      ({ session with
          onDiskFd := some (logs.fs.write descriptor buf).1, roughFileOffset := roughFileOffset },
        (logs.fs.write descriptor buf).2)) := by
  apply allAtEnd_put
  · intro other otherSession otherDescriptor different there kept
    exact standsAtEnd_other buf
      (alone session descriptor other otherSession otherDescriptor here held different there kept)
      (all other otherSession otherDescriptor there kept)
  · intro moved same
    obtain rfl := Option.some.inj same
    exact standsAtEnd_write buf (all index session descriptor here held)

theorem atEnd_write {logs : Logs} {index : Nat} {session : FileSession}
    {descriptor : Descriptor} (buf : List UInt8) (here : logs.sessions index = some session)
    (held : session.onDiskFd = some descriptor) (stands : StandsAtEnd logs.fs descriptor) :
    AtEnd logs (.write index buf) := by
  intro other otherDescriptor there kept _ plain
  rw [here] at there
  obtain rfl := Option.some.inj there
  rw [held] at kept
  obtain rfl := Option.some.inj kept
  exact (stands plain).2

theorem allAtEnd_step {cfg : FileConfig} {logs after : Logs} {label : LogStep}
    (all : AllAtEnd logs) (alone : SoleWriter logs label)
    (stepped : logs.step cfg label = some after) : AtEnd logs label ∧ AllAtEnd after := by
  cases label with
  | tick clock =>
      obtain rfl := Option.some.inj stepped
      exact ⟨trivial, all⟩
  | accept ip =>
      obtain rfl := Option.some.inj stepped
      exact ⟨trivial, allAtEnd_accept all rfl⟩
  | expire index =>
      obtain ⟨session, -, stepped⟩ := Option.bind_eq_some_iff.mp stepped
      split at stepped
      · obtain rfl := Option.some.inj stepped
        refine ⟨trivial, allAtEnd_put ?_ nofun⟩
        intro other otherSession descriptor _ here held
        exact all other otherSession descriptor here held
      · contradiction
  | close index =>
      obtain ⟨session, -, rfl⟩ := Option.map_eq_some_iff.mp stepped
      refine ⟨trivial, allAtEnd_put ?_ nofun⟩
      intro other otherSession descriptor _ here held
      exact all other otherSession descriptor here held
  | rotate index =>
      obtain ⟨session, here, rfl⟩ := Option.map_eq_some_iff.mp stepped
      obtain ⟨content, inodes, kept⟩ := handleFilesizeExceeded_spec cfg session logs.fs
      refine ⟨trivial, allAtEnd_put ?_ ?_⟩
      · intro other otherSession descriptor _ there held
        exact standsAtEnd_of_content content inodes.ge
          (all other otherSession descriptor there held)
      · intro descriptor held
        exact standsAtEnd_of_content content inodes.ge
          (all index session descriptor here (kept descriptor held))
  | openLog index =>
      obtain ⟨session, -, stepped⟩ := Option.bind_eq_some_iff.mp stepped
      split at stepped
      · obtain rfl := Option.some.inj stepped
        obtain ⟨content, inodes, fresh⟩ := setOnDiskLogFilename_spec cfg logs.clock
          { session with fileSeq := logs.clock.curSeq } logs.fs
        refine ⟨trivial, allAtEnd_put ?_ fresh⟩
        intro other otherSession descriptor _ there held
        exact standsAtEnd_of_content content inodes
          (all other otherSession descriptor there held)
      · contradiction
  | write index buf =>
      simp only [Logs.step] at stepped
      split at stepped
      · contradiction
      · obtain ⟨session, here, stepped⟩ := Option.bind_eq_some_iff.mp stepped
        obtain ⟨result, written, rfl⟩ := Option.map_eq_some_iff.mp stepped
        obtain ⟨descriptor, held, rfl⟩ := Option.map_eq_some_iff.mp written
        have stands := all index session descriptor here held
        exact ⟨atEnd_write buf here held stands, allAtEnd_write buf all alone here held _⟩

/-- Sessions that never share a rewritten log leave the logs append-only. -/
theorem logs_append_only_of_soleWriter (cfg : FileConfig) (fs : FileSystem) (clock : Clock)
    (labels : List LogStep)
    (alone : (logMachine cfg).Along (fun logs label _ => SoleWriter logs label)
      (startLogs fs clock) labels) :
    (logMachine cfg).Along (fun logs _ after => logs.fs.Grows after.fs) (startLogs fs clock)
      labels := by
  refine Machine.Along.of_invariant AllAtEnd ?_ nofun alone
  intro logs label after all alone stepped
  obtain ⟨atEnd, kept⟩ := allAtEnd_step all alone stepped
  exact ⟨(write_grows_iff stepped).mpr atEnd, kept⟩

def oneMegabyte : FileConfig where
  nrDir := 1
  logIdf := ['l', 'o', 'g']
  dirSwitchPeriod := 86400
  maxFileSize := 1048576

def someDay : Clock := ⟨0, ['2', '0', '2', '4', '0', '1', '0', '1']⟩

def client : Nat := 167772161

def largeLog : FileSystem where
  names path := if path = fileName oneMegabyte someDay client then some 0 else none
  link _ := fileName oneMegabyte someDay client
  content inode := if inode = 0 then List.replicate 1048577 ⟨97, 0⟩ else []
  inodes := 1
  writes := 1
  allocated path inode found := by
    split at found
    · obtain rfl := Option.some.inj found
      exact Nat.one_pos
    · contradiction
  linked path inode found := by
    split at found
    · rename_i same
      exact same.symm
    · contradiction
  unused inode above := if_neg (Nat.ne_of_gt above)
  stamped inode byte member := by
    split at member
    · rw [List.eq_of_mem_replicate member]
      exact Nat.one_pos
    · contradiction

theorem largeLog_found : largeLog.names (fileName oneMegabyte someDay client) = some 0 := by
  change (if fileName oneMegabyte someDay client = fileName oneMegabyte someDay client
    then some 0 else none) = some 0
  exact if_pos rfl

theorem largeLog_large : largeLog.size 0 > oneMegabyte.maxFileSize := by
  have length : largeLog.size 0 = 1048577 := List.length_replicate
  rw [length]
  decide

def accepted : Logs where
  fs := largeLog
  clock := someDay
  sessions := Function.update (fun _ => none) 0 (some ⟨client, none, 0, 0⟩)
  nrSessions := 1

def reopened : Logs :=
  accepted.put 0 (⟨client, some ⟨1, 0, false⟩, 0, 0⟩,
    (renameLast 0 largeLog).create (fileName oneMegabyte someDay client)
      (renameLast_free largeLog_found))

theorem run_reopened :
    (logMachine oneMegabyte).run (startLogs largeLog someDay) [.accept client, .openLog 0] =
      some reopened := by
  have opened := setOnDiskLogFilename_large oneMegabyte someDay ⟨client, none, 0, 0⟩
    largeLog_found largeLog_large
  have first : (logMachine oneMegabyte).step (startLogs largeLog someDay) (.accept client) =
      some accepted := rfl
  have second : (logMachine oneMegabyte).step accepted (.openLog 0) = some reopened := by
    change some (accepted.put 0 (setOnDiskLogFilename oneMegabyte someDay
      ⟨client, none, 0, 0⟩ largeLog)) = some reopened
    rw [opened]
    rfl
  rw [Machine.run, first, Option.bind_some, Machine.run, second]
  rfl

def sharedLog : List LogStep :=
  [.write 0 [1, 2], .accept client, .openLog 1, .write 1 [3, 4]]

/-- The next write of the first session lands on the bytes of the second. -/
theorem append_overwritten :
    ∃ middle final, (logMachine oneMegabyte).run (startLogs largeLog someDay)
        ([.accept client, .openLog 0] ++ sharedLog) = some middle ∧
      (logMachine oneMegabyte).step middle (.write 0 [5]) = some final ∧
      (middle.fs.content 1).map Stamped.byte = [1, 2, 3, 4] ∧
      (final.fs.content 1).map Stamped.byte = [1, 2, 5, 4] ∧ ¬middle.fs.Grows final.fs := by
  have bytes : ((logMachine oneMegabyte).run reopened sharedLog).bind
      (fun middle => ((logMachine oneMegabyte).step middle (.write 0 [5])).map fun final =>
        ((middle.fs.content 1).map Stamped.byte, (final.fs.content 1).map Stamped.byte)) =
          some ([1, 2, 3, 4], [1, 2, 5, 4]) := by
    decide
  obtain ⟨middle, ran, rest⟩ := Option.bind_eq_some_iff.mp bytes
  obtain ⟨final, stepped, contents⟩ := Option.map_eq_some_iff.mp rest
  obtain ⟨before, after⟩ := Prod.mk.inj contents
  refine ⟨middle, final, Machine.run_trans run_reopened ran, stepped, before, after, ?_⟩
  intro grows
  have kept := (grows.prefix_ 1).map Stamped.byte
  rw [before, after] at kept
  revert kept
  decide

end DirtyCode.LogCollect
