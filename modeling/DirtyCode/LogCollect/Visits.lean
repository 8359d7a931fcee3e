import DirtyCode.LogCollect.LogFiles

/-!
The visits of `disk_write_thread` to the sessions of `logCollectSrv.c` in the default
build, between which `periodic` reads the clock.
-/

namespace DirtyCode.LogCollect

open Lib

inductive VisitPc
  | scan
  | checked (session : Nat)
  | rotated (session : Nat)
  | opened (session : Nat)
  deriving DecidableEq

structure Visits where
  logs : Logs
  pc : VisitPc
  /-- The sessions not visited since the last reading of the clock. -/
  unseen : Nat → Bool

inductive VisitStep
  | periodic (curTime : Nat)
  | accept (ip : Nat)
  | disconnect (session : Nat)
  | visit (session : Nat)
  | pass
  | handleFilesizeExceeded
  | setLog
  | write (buf : List UInt8)

def tzOffset : Nat := 8

/-- `gstats.cur_seq` and the date of `localtime_r` at a time. -/
def clockAt (cfg : FileConfig) (localDate : Nat → Path) (curTime : Nat) : Clock where
  curSeq := (curTime + 3600 * tzOffset) % 86400 / cfg.dirSwitchPeriod
  date := localDate curTime

def Visits.periodic (cfg : FileConfig) (localDate : Nat → Path) (visits : Visits)
    (curTime : Nat) : Visits :=
  { visits with
    logs := { visits.logs with clock := clockAt cfg localDate curTime }
    unseen := fun index => (visits.logs.sessions index).isSome }

-- the disk thread frees a session between two visits
def Visits.disconnect (visits : Visits) (index : Nat) : Visits :=
  { visits with
    logs := { visits.logs with sessions := Function.update visits.logs.sessions index none } }

def Visits.step (cfg : FileConfig) (localDate : Nat → Path) (visits : Visits) :
    VisitStep → Option Visits
  | .periodic curTime => some (visits.periodic cfg localDate curTime)
  | .accept ip =>
      (visits.logs.step cfg (.accept ip)).map fun logs => { visits with logs := logs }
  | .disconnect index => if visits.pc = .scan then some (visits.disconnect index) else none
  | .visit index =>
      if visits.pc = .scan ∧ (visits.logs.sessions index).isSome then
        some {
          logs := (visits.logs.step cfg (.expire index)).getD visits.logs
          pc := .checked index
          unseen := Function.update visits.unseen index false }
      else none
  | .pass =>
      match visits.pc with
      | .checked _ => some { visits with pc := .scan }
      | _ => none
  | .handleFilesizeExceeded =>
      match visits.pc with
      | .checked index =>
          (visits.logs.step cfg (.rotate index)).map fun logs =>
            { visits with logs := logs, pc := .rotated index }
      | _ => none
  | .setLog =>
      match visits.pc with
      | .rotated index =>
          some { visits with
            logs := (visits.logs.step cfg (.openLog index)).getD visits.logs
            pc := .opened index }
      | _ => none
  | .write buf =>
      match visits.pc with
      | .opened index =>
          (visits.logs.step cfg (.write index buf)).map fun logs =>
            { visits with logs := logs, pc := .scan }
      | _ => none

def startVisits (cfg : FileConfig) (localDate : Nat → Path) (fs : FileSystem) (curTime : Nat) :
    Visits where
  logs := startLogs fs (clockAt cfg localDate curTime)
  pc := .scan
  unseen _ := false

def visitMachine (cfg : FileConfig) (localDate : Nat → Path) (fs : FileSystem) :
    Machine Visits VisitStep where
  init visits := ∃ curTime, visits = startVisits cfg localDate fs curTime
  step := Visits.step cfg localDate

def noFiles : FileSystem where
  names _ := none
  link _ := []
  content _ := []
  inodes := 0
  writes := 0
  allocated := nofun
  linked := nofun
  unused _ _ := rfl
  stamped := nofun

inductive Stepped (cfg : FileConfig) (localDate : Nat → Path) (visits : Visits) :
    VisitStep → Visits → Prop
  | periodic (curTime) :
      Stepped cfg localDate visits (.periodic curTime) (visits.periodic cfg localDate curTime)
  | accept (ip) : Stepped cfg localDate visits (.accept ip)
      { visits with
        logs := { visits.logs with
          sessions := Function.update visits.logs.sessions visits.logs.nrSessions
            (some ⟨ip, none, visits.logs.clock.curSeq, 0⟩)
          nrSessions := visits.logs.nrSessions + 1 } }
  | disconnect (index) : visits.pc = .scan →
      Stepped cfg localDate visits (.disconnect index) (visits.disconnect index)
  | current {index session} : visits.pc = .scan → visits.logs.sessions index = some session →
      (session.onDiskFd ≠ none → session.fileSeq = visits.logs.clock.curSeq) →
      Stepped cfg localDate visits (.visit index)
        { visits with
          pc := .checked index, unseen := Function.update visits.unseen index false }
  | expire {index session} : visits.pc = .scan → visits.logs.sessions index = some session →
      Stepped cfg localDate visits (.visit index)
        { logs := visits.logs.put index ({ session with onDiskFd := none }, visits.logs.fs)
          pc := .checked index
          unseen := Function.update visits.unseen index false }
  | pass {index} : visits.pc = .checked index →
      Stepped cfg localDate visits .pass { visits with pc := .scan }
  | rotate {index session} : visits.pc = .checked index →
      visits.logs.sessions index = some session →
      Stepped cfg localDate visits .handleFilesizeExceeded
        { visits with
          logs := visits.logs.put index (handleFilesizeExceeded cfg session visits.logs.fs)
          pc := .rotated index }
  | stay {index} : visits.pc = .rotated index →
      (∀ session, visits.logs.sessions index = some session →
        session.onDiskFd ≠ none ∧ session.fileSeq = visits.logs.clock.curSeq) →
      Stepped cfg localDate visits .setLog { visits with pc := .opened index }
  | openLog {index session} : visits.pc = .rotated index →
      visits.logs.sessions index = some session →
      session.onDiskFd = none ∨ session.fileSeq ≠ visits.logs.clock.curSeq →
      Stepped cfg localDate visits .setLog
        { visits with
          logs := visits.logs.put index (setOnDiskLogFilename cfg visits.logs.clock
            { session with fileSeq := visits.logs.clock.curSeq } visits.logs.fs)
          pc := .opened index }
  | write {index session descriptor buf} : visits.pc = .opened index →
      visits.logs.sessions index = some session → session.onDiskFd = some descriptor →
      Stepped cfg localDate visits (.write buf)
        { visits with
          logs := visits.logs.put index
            ({ session with
                onDiskFd := some (visits.logs.fs.write descriptor buf).1
                roughFileOffset := session.roughFileOffset + buf.length },
              (visits.logs.fs.write descriptor buf).2)
          pc := .scan }

theorem step_visit {cfg : FileConfig} {localDate : Nat → Path} {visits after : Visits}
    {index : Nat} (stepped : visits.step cfg localDate (.visit index) = some after) :
    Stepped cfg localDate visits (.visit index) after := by
  simp only [Visits.step] at stepped
  split at stepped
  · rename_i enabled
    obtain rfl := Option.some.inj stepped
    obtain ⟨session, here⟩ := Option.isSome_iff_exists.mp enabled.2
    by_cases expired : session.onDiskFd ≠ none ∧ session.fileSeq ≠ visits.logs.clock.curSeq
    · simp only [Logs.step, here, Option.bind_some]
      rw [if_pos expired]
      exact .expire enabled.1 here
    · simp only [Logs.step, here, Option.bind_some]
      rw [if_neg expired]
      refine .current enabled.1 here fun isOpen => ?_
      by_contra differs
      exact expired ⟨isOpen, differs⟩
  · contradiction

theorem step_setLog {cfg : FileConfig} {localDate : Nat → Path} {visits after : Visits}
    (stepped : visits.step cfg localDate .setLog = some after) :
    Stepped cfg localDate visits .setLog after := by
  simp only [Visits.step] at stepped
  split at stepped
  · rename_i index pc
    obtain rfl := Option.some.inj stepped
    cases here : visits.logs.sessions index with
    | none =>
        simp only [Logs.step, here, Option.bind_none, Option.getD_none]
        exact .stay pc fun session there => by rw [here] at there; contradiction
    | some session =>
        by_cases due : session.onDiskFd = none ∨ session.fileSeq ≠ visits.logs.clock.curSeq
        · simp only [Logs.step, here, Option.bind_some]
          rw [if_pos due]
          exact .openLog pc here due
        · simp only [Logs.step, here, Option.bind_some]
          rw [if_neg due]
          rw [not_or, not_ne_iff] at due
          refine .stay pc fun other there => ?_
          rw [here] at there
          obtain rfl := Option.some.inj there
          exact due
  · contradiction

theorem step_write {cfg : FileConfig} {localDate : Nat → Path} {visits after : Visits}
    {buf : List UInt8} (stepped : visits.step cfg localDate (.write buf) = some after) :
    Stepped cfg localDate visits (.write buf) after := by
  simp only [Visits.step] at stepped
  split at stepped
  · rename_i index pc
    obtain ⟨logs, written, rfl⟩ := Option.map_eq_some_iff.mp stepped
    simp only [Logs.step] at written
    split at written
    · contradiction
    · obtain ⟨session, here, written⟩ := Option.bind_eq_some_iff.mp written
      obtain ⟨result, wrote, rfl⟩ := Option.map_eq_some_iff.mp written
      obtain ⟨descriptor, held, rfl⟩ := Option.map_eq_some_iff.mp wrote
      exact .write pc here held
  · contradiction

theorem step_cases {cfg : FileConfig} {localDate : Nat → Path} {visits after : Visits}
    {label : VisitStep} (stepped : visits.step cfg localDate label = some after) :
    Stepped cfg localDate visits label after := by
  cases label with
  | periodic curTime =>
      obtain rfl := Option.some.inj stepped
      exact .periodic curTime
  | accept ip =>
      obtain rfl := Option.some.inj stepped
      exact .accept ip
  | disconnect index =>
      simp only [Visits.step] at stepped
      split at stepped
      · rename_i pc
        obtain rfl := Option.some.inj stepped
        exact .disconnect index pc
      · contradiction
  | visit index => exact step_visit stepped
  | pass =>
      simp only [Visits.step] at stepped
      split at stepped
      · rename_i index pc
        obtain rfl := Option.some.inj stepped
        exact .pass pc
      · contradiction
  | handleFilesizeExceeded =>
      simp only [Visits.step] at stepped
      split at stepped
      · rename_i index pc
        obtain ⟨logs, rotated, rfl⟩ := Option.map_eq_some_iff.mp stepped
        obtain ⟨session, here, rfl⟩ := Option.map_eq_some_iff.mp rotated
        exact .rotate pc here
      · contradiction
  | setLog => exact step_setLog stepped
  | write buf => exact step_write stepped

theorem sessions_put {logs : Logs} {index other : Nat} {result : FileSession × FileSystem}
    {session : FileSession} (here : (logs.put index result).sessions other = some session) :
    (other = index ∧ session = result.1) ∨
      (other ≠ index ∧ logs.sessions other = some session) := by
  by_cases same : other = index
  · subst same
    simp only [Logs.put, Function.update_self, Option.some.injEq] at here
    exact .inl ⟨rfl, here.symm⟩
  · simp only [Logs.put, Function.update_of_ne same] at here
    exact .inr ⟨same, here⟩

/-- Names that no rotation gives to a file. -/
def IsLog (path : Path) : Prop := path.getLast? = some 'g'

theorem fileName_isLog (cfg : FileConfig) (clock : Clock) (ip : Nat) :
    IsLog (fileName cfg clock ip) := fileName_last cfg clock ip

theorem renameLast_keeps {fs : FileSystem} {path : Path} {inode moved : Nat} (log : IsLog path)
    (found : fs.names path = some inode) (apart : inode ≠ moved) :
    (renameLast moved fs).names path = some inode := by
  have last : ∀ front : Path, path ≠ front ++ FileSystem.dotLast := by
    rintro front rfl
    simp [IsLog, FileSystem.dotLast] at log
  have source : path ≠ fs.readlink moved := by
    intro same
    have named := fs.names_of_readlink same.symm (by rw [log]; decide)
    rw [found] at named
    exact apart (Option.some.inj named)
  rw [renameLast, FileSystem.rename_other _ source (last _), fs.remove_other (last _), found]

theorem openFile_found (fs : FileSystem) (path : Path) (append : Bool) :
    (fs.openFile path append).2.names path = some (fs.openFile path append).1.inode := by
  cases found : fs.names path with
  | some inode => rw [fs.openFile_of_some found, found]
  | none => rw [fs.openFile_of_none found, fs.create_self found]

theorem openFile_keeps {fs : FileSystem} {path : Path} {inode : Nat}
    (found : fs.names path = some inode) (opened : Path) (append : Bool) :
    (fs.openFile opened append).2.names path = some inode := by
  cases there : fs.names opened with
  | some other => rw [fs.openFile_of_some there, found]
  | none =>
      have apart : path ≠ opened := by
        rintro rfl
        rw [found] at there
        contradiction
      rw [fs.openFile_of_none there, fs.create_other there apart, found]

theorem setOnDiskLogFilename_keeps {cfg : FileConfig} {clock : Clock} {session : FileSession}
    {fs : FileSystem} {path : Path} {inode : Nat} (log : IsLog path)
    (found : fs.names path = some inode)
    (apart : ∀ moved, fs.names (fileName cfg clock session.ip) = some moved →
      cfg.maxFileSize < fs.size moved → inode ≠ moved) :
    (setOnDiskLogFilename cfg clock session fs).2.names path = some inode := by
  by_cases large : (fs.openFile (fileName cfg clock session.ip) true).2.size
      (fs.openFile (fileName cfg clock session.ip) true).1.inode > cfg.maxFileSize
  · obtain ⟨moved, there, size⟩ := large_found large
    have kept := renameLast_keeps log found (apart moved there size)
    have free := renameLast_free there
    rw [setOnDiskLogFilename_large cfg clock session there size]
    refine (FileSystem.create_other _ free ?_).trans kept
    rintro rfl
    rw [kept] at free
    contradiction
  · simp only [setOnDiskLogFilename, large, if_false]
    exact openFile_keeps found _ _

theorem handleFilesizeExceeded_keeps {cfg : FileConfig} {session : FileSession}
    {fs : FileSystem} {path : Path} {inode : Nat} (log : IsLog path)
    (found : fs.names path = some inode)
    (apart : ∀ descriptor, session.onDiskFd = some descriptor →
      cfg.maxFileSize ≤ session.roughFileOffset → inode ≠ descriptor.inode) :
    (handleFilesizeExceeded cfg session fs).2.names path = some inode := by
  rw [handleFilesizeExceeded]
  split
  · exact found
  · rename_i descriptor held
    split
    · exact found
    · rename_i full
      exact renameLast_keeps log found (apart descriptor held (Nat.le_of_not_lt full))

theorem handleFilesizeExceeded_open {cfg : FileConfig} {session : FileSession}
    {fs : FileSystem} {descriptor : Descriptor}
    (held : (handleFilesizeExceeded cfg session fs).1.onDiskFd = some descriptor) :
    handleFilesizeExceeded cfg session fs = (session, fs) ∧
      session.roughFileOffset < cfg.maxFileSize := by
  rw [handleFilesizeExceeded] at held ⊢
  split at held
  · rename_i closed
    rw [closed] at held
    contradiction
  · split at held
    · rename_i below
      exact ⟨if_pos below, below⟩
    · contradiction

theorem setOnDiskLogFilename_opens (cfg : FileConfig) (clock : Clock) (session : FileSession)
    (fs : FileSystem) :
    ∃ descriptor,
      (setOnDiskLogFilename cfg clock session fs).1 =
        { session with
          onDiskFd := some descriptor
          roughFileOffset :=
            (setOnDiskLogFilename cfg clock session fs).2.size descriptor.inode } ∧
      (setOnDiskLogFilename cfg clock session fs).2.names (fileName cfg clock session.ip) =
        some descriptor.inode ∧
      (setOnDiskLogFilename cfg clock session fs).2.size descriptor.inode ≤ cfg.maxFileSize ∧
      (descriptor.append = false → descriptor.offset =
        (setOnDiskLogFilename cfg clock session fs).2.size descriptor.inode) := by
  by_cases large : (fs.openFile (fileName cfg clock session.ip) true).2.size
      (fs.openFile (fileName cfg clock session.ip) true).1.inode > cfg.maxFileSize
  · obtain ⟨moved, found, size⟩ := large_found large
    have free := renameLast_free found
    have empty : ((renameLast moved fs).create (fileName cfg clock session.ip) free).size
        fs.inodes = 0 := by
      change ((renameLast moved fs).content fs.inodes).length = 0
      rw [renameLast_content, fs.unused fs.inodes le_rfl]
      rfl
    rw [setOnDiskLogFilename_large cfg clock session found size]
    refine ⟨⟨fs.inodes, 0, false⟩, ?_, ?_, ?_, ?_⟩
    · rw [empty]
    · rw [← renameLast_inodes moved fs]
      exact FileSystem.create_self _ free
    · rw [empty]
      exact Nat.zero_le _
    · intro _
      rw [empty]
  · simp only [setOnDiskLogFilename, large, if_false]
    refine ⟨(fs.openFile (fileName cfg clock session.ip) true).1, rfl, openFile_found _ _ _,
      Nat.le_of_not_lt large, ?_⟩
    rw [openFile_append]
    exact fun plain => absurd plain.symm Bool.false_ne_true

theorem write_names (fs : FileSystem) (descriptor : Descriptor) (buf : List UInt8) :
    (fs.write descriptor buf).2.names = fs.names := by
  unfold FileSystem.write
  dsimp only
  split
  · rfl
  · rfl

end DirtyCode.LogCollect
