import DirtyCode.LogCollect.LogFiles

/-!
`session_set_on_disk_log_filename` of `logServer.c`, which rotates the file that the
session has open and not the one it has just opened.
-/

namespace DirtyCode.LogServer

open Lib LogCollect

-- `readlink` fails where `on_disk_fd` is -1, and `srcf` stays empty
def srcf (onDiskFd : Option Descriptor) (fs : FileSystem) : Path :=
  match onDiskFd with
  | some descriptor => fs.readlink descriptor.inode
  | none => []

/-- `remove(dstf); rename(srcf, dstf)`, where no file is renamed that has an empty name. -/
def renameOld (onDiskFd : Option Descriptor) (fs : FileSystem) : FileSystem :=
  let source := srcf onDiskFd fs
  let dstf := source ++ FileSystem.dotLast
  if source = [] then fs.remove dstf else (fs.remove dstf).rename source dstf

def setOnDiskLogFilename (cfg : FileConfig) (clock : Clock) (session : FileSession)
    (fs : FileSystem) : FileSession × FileSystem :=
  let name := fileName cfg clock session.ip
  let opened := fs.openFile name true
  let roughFileOffset := opened.2.size opened.1.inode
  if roughFileOffset > cfg.maxFileSize then
    let again := (renameOld session.onDiskFd opened.2).openFile name false
    ({ session with onDiskFd := some again.1, roughFileOffset := 0 }, again.2)
  else ({ session with onDiskFd := some opened.1, roughFileOffset := roughFileOffset }, opened.2)

/-- The file has moved to `.last` as it was, and the session has got a new one. -/
structure Rotated (name : Path) (old : List Stamped) (session : FileSession) (fs : FileSystem) :
    Prop where
  kept : ∃ inode, fs.names (name ++ FileSystem.dotLast) = some inode ∧ fs.content inode = old
  fresh : ∃ descriptor, session.onDiskFd = some descriptor ∧
    fs.names name = some descriptor.inode ∧ fs.content descriptor.inode = [] ∧
    session.roughFileOffset = fs.size descriptor.inode

section

variable {cfg : FileConfig} {clock : Clock} {session : FileSession} {fs : FileSystem} {inode : Nat}

theorem setOnDiskLogFilename_large (found : fs.names (fileName cfg clock session.ip) = some inode)
    (large : cfg.maxFileSize < fs.size inode) :
    setOnDiskLogFilename cfg clock session fs =
      ({ session with
          onDiskFd := some ((renameOld session.onDiskFd fs).openFile
            (fileName cfg clock session.ip) false).1, roughFileOffset := 0 },
        ((renameOld session.onDiskFd fs).openFile (fileName cfg clock session.ip) false).2) := by
  simp only [setOnDiskLogFilename, fs.openFile_of_some found, gt_iff_lt, large, if_true]

theorem renameOld_other (found : fs.names (fileName cfg clock session.ip) = some inode)
    (other : ∀ descriptor, session.onDiskFd = some descriptor → descriptor.inode ≠ inode) :
    (renameOld session.onDiskFd fs).names (fileName cfg clock session.ip) = some inode := by
  have apart : fileName cfg clock session.ip ≠ srcf session.onDiskFd fs := by
    intro same
    cases held : session.onDiskFd with
    | none =>
        have last := congrArg List.getLast? same
        rw [fileName_last, held] at last
        simp [srcf] at last
    | some descriptor =>
        rw [held] at same
        have named := fs.names_of_readlink same.symm (by rw [fileName_last]; decide)
        rw [found] at named
        exact other descriptor held (Option.some.inj named).symm
  unfold renameOld
  dsimp only
  split
  · rw [fs.remove_other (fileName_ne_last _ _ _ _), found]
  · rw [FileSystem.rename_other _ apart (fileName_ne_last _ _ _ _),
      fs.remove_other (fileName_ne_last _ _ _ _), found]

theorem renameOld_content (onDiskFd : Option Descriptor) (fs : FileSystem) :
    (renameOld onDiskFd fs).content = fs.content := by
  unfold renameOld
  dsimp only
  split
  · rfl
  · rw [FileSystem.rename_content]
    rfl

theorem not_rotated (found : fs.names (fileName cfg clock session.ip) = some inode)
    (large : cfg.maxFileSize < fs.size inode)
    (other : ∀ descriptor, session.onDiskFd = some descriptor → descriptor.inode ≠ inode)
    (old : List Stamped) :
    ¬Rotated (fileName cfg clock session.ip) old (setOnDiskLogFilename cfg clock session fs).1
      (setOnDiskLogFilename cfg clock session fs).2 := by
  rintro ⟨-, descriptor, held, -, empty, -⟩
  have still := renameOld_other found other
  rw [setOnDiskLogFilename_large found large,
    FileSystem.openFile_of_some _ still] at held empty
  obtain rfl := Option.some.inj held
  rw [renameOld_content] at empty
  rw [FileSystem.size, empty] at large
  exact Nat.not_lt_zero _ large

theorem renameOld_own (found : fs.names (fileName cfg clock session.ip) = some inode)
    {descriptor : Descriptor} (held : session.onDiskFd = some descriptor)
    (own : descriptor.inode = inode) : renameOld session.onDiskFd fs = renameLast inode fs := by
  have named : fs.readlink inode = fileName cfg clock session.ip := fs.readlink_of_name found
  have nonempty : fileName cfg clock session.ip ≠ [] := by
    intro empty
    have last := fileName_last cfg clock session.ip
    rw [empty] at last
    contradiction
  simp only [renameOld, srcf, held, own, named, nonempty, if_false, renameLast]

end

/-- A log that is too large is rotated exactly where the session has it open already. -/
theorem rotated_iff {cfg : FileConfig} {clock : Clock} {session : FileSession} {fs : FileSystem}
    {inode : Nat} (found : fs.names (fileName cfg clock session.ip) = some inode)
    (large : cfg.maxFileSize < fs.size inode) :
    Rotated (fileName cfg clock session.ip) (fs.content inode)
        (setOnDiskLogFilename cfg clock session fs).1
        (setOnDiskLogFilename cfg clock session fs).2 ↔
      ∃ descriptor, session.onDiskFd = some descriptor ∧ descriptor.inode = inode := by
  constructor
  · intro rotated
    by_contra none
    refine not_rotated found large ?_ _ rotated
    exact fun descriptor held own => none ⟨descriptor, held, own⟩
  · rintro ⟨descriptor, held, own⟩
    have moved := renameOld_own found held own
    have free := renameLast_free found
    have apart := fileName_ne_last cfg clock session.ip (fileName cfg clock session.ip)
    rw [setOnDiskLogFilename_large found large, moved, FileSystem.openFile_of_none _ free]
    refine ⟨⟨inode, ?_, ?_⟩, ⟨_, rfl, FileSystem.create_self _ free, ?_, ?_⟩⟩
    · rw [FileSystem.create_other _ free apart.symm, renameLast, fs.readlink_of_name found]
      exact FileSystem.rename_target _ (by rw [fs.remove_other apart, found]) apart
    · exact congrFun (renameLast_content inode fs) inode
    · change (renameLast inode fs).content (renameLast inode fs).inodes = []
      exact (renameLast inode fs).unused _ le_rfl
    · change 0 = ((renameLast inode fs).content (renameLast inode fs).inodes).length
      rw [(renameLast inode fs).unused _ le_rfl]
      rfl

def oneGigabyte : FileConfig := { oneMegabyte with maxFileSize := 1073741824 }

def grownLog : FileSystem where
  names path := if path = fileName oneGigabyte someDay client then some 0 else none
  link _ := fileName oneGigabyte someDay client
  content inode := if inode = 0 then List.replicate 1073741825 ⟨97, 0⟩ else []
  inodes := 1
  writes := 1
  allocated path inode found := by
    split at found
    · obtain rfl := Option.some.inj found
      exact Nat.one_pos
    · contradiction
  linked path inode found := by
    split at found
    · rename_i same
      exact same.symm
    · contradiction
  unused inode above := if_neg (Nat.ne_of_gt above)
  stamped inode byte member := by
    split at member
    · rw [List.eq_of_mem_replicate member]
      exact Nat.one_pos
    · contradiction

theorem grownLog_found {session : FileSession} (own : session.ip = client) :
    grownLog.names (fileName oneGigabyte someDay session.ip) = some 0 := by
  rw [own]
  change (if fileName oneGigabyte someDay client = fileName oneGigabyte someDay client
    then some 0 else none) = some 0
  exact if_pos rfl

theorem grownLog_large : oneGigabyte.maxFileSize < grownLog.size 0 := by
  have length : grownLog.size 0 = 1073741825 := List.length_replicate
  rw [length]
  decide

def logOpen : FileSession := ⟨client, some ⟨0, 1073741825, true⟩, 0, 1073741825⟩

theorem rotated_iff_open :
    Rotated (fileName oneGigabyte someDay logOpen.ip) (grownLog.content 0)
      (setOnDiskLogFilename oneGigabyte someDay logOpen grownLog).1
      (setOnDiskLogFilename oneGigabyte someDay logOpen grownLog).2 :=
  (rotated_iff (grownLog_found rfl) grownLog_large).mpr ⟨_, rfl, rfl⟩

def logUnopened : FileSession := ⟨client, none, 0, 0⟩

/-- A session that has no file open yet gets the old one, to be written from its beginning. -/
theorem first_open_overwrites :
    ¬Rotated (fileName oneGigabyte someDay logUnopened.ip) (grownLog.content 0)
      (setOnDiskLogFilename oneGigabyte someDay logUnopened grownLog).1
      (setOnDiskLogFilename oneGigabyte someDay logUnopened grownLog).2 := by
  refine not_rotated (grownLog_found rfl) grownLog_large ?_ _
  intro descriptor held
  have unopened : logUnopened.onDiskFd = none := rfl
  rw [unopened] at held
  contradiction

end DirtyCode.LogServer
