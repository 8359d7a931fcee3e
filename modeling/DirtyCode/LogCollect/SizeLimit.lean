import DirtyCode.LogCollect.Visits

/-!
How large a log can get. Every descriptor that a session holds stands at the end of a
file of its own, whose size the session knows.
-/

namespace DirtyCode.LogCollect

open Lib

def digitsValue (digits : Path) : Nat :=
  digits.foldl (fun value digit => value * 10 + (digit.toNat - 48)) 0

theorem padded_octet : ∀ octet < 256,
    (padded 3 octet).length = 3 ∧ digitsValue (padded 3 octet) = octet := by
  decide +kernel

theorem octetOf_lt (ip place : Nat) : octetOf ip place < 256 := Nat.mod_lt _ (by decide)

theorem padded_octetOf_inj {first second place : Nat}
    (same : padded 3 (octetOf first place) = padded 3 (octetOf second place)) :
    octetOf first place = octetOf second place := by
  rw [← (padded_octet _ (octetOf_lt first place)).2, same,
    (padded_octet _ (octetOf_lt second place)).2]

theorem length_padded_octetOf (ip place : Nat) : (padded 3 (octetOf ip place)).length = 3 :=
  (padded_octet _ (octetOf_lt ip place)).1

theorem length_ipStr (ip place : Nat) : (ipStr ip (octetOf ip place)).length = 15 := by
  simp only [ipStr, List.length_append, length_padded_octetOf, List.length_cons, List.length_nil]

theorem ipStr_octets {first second : Nat}
    (same : ipStr first (octetOf first 0) = ipStr second (octetOf second 0)) :
    ∀ place < 4, octetOf first place = octetOf second place := by
  have peel : ∀ place, (padded 3 (octetOf first place)).length =
      (padded 3 (octetOf second place)).length := by
    intro place
    rw [length_padded_octetOf, length_padded_octetOf]
  obtain ⟨same, last⟩ := List.append_inj' same (peel 0)
  obtain ⟨same, third⟩ := List.append_inj' (List.append_cancel_right same) (peel 1)
  obtain ⟨same, second'⟩ := List.append_inj' (List.append_cancel_right same) (peel 2)
  have first' := List.append_cancel_right same
  intro place below
  have places : place = 0 ∨ place = 1 ∨ place = 2 ∨ place = 3 := by omega
  rcases places with rfl | rfl | rfl | rfl
  · exact padded_octetOf_inj last
  · exact padded_octetOf_inj third
  · exact padded_octetOf_inj second'
  · exact padded_octetOf_inj first'

theorem fileName_ip {cfg : FileConfig} {earlier later : Clock} {first second : Nat}
    (firstBound : first < 2 ^ 32) (secondBound : second < 2 ^ 32)
    (same : fileName cfg earlier first = fileName cfg later second) : first = second := by
  have body := List.append_cancel_right same
  have shown := (List.append_inj' body
    ((length_ipStr first 0).trans (length_ipStr second 0).symm)).2
  have octets := ipStr_octets shown
  have zeroth := octets 0 (by decide)
  have one := octets 1 (by decide)
  have two := octets 2 (by decide)
  have three := octets 3 (by decide)
  simp only [octetOf] at zeroth one two three
  omega

theorem named_apart {cfg : FileConfig} {fs : FileSystem} {earlier later : Clock}
    {first second inode other : Nat} (firstBound : first < 2 ^ 32) (secondBound : second < 2 ^ 32)
    (apart : first ≠ second) (found : fs.names (fileName cfg earlier first) = some inode)
    (there : fs.names (fileName cfg later second) = some other) : inode ≠ other := by
  rintro rfl
  have same := (fs.linked _ _ found).symm.trans (fs.linked _ _ there)
  exact apart (fileName_ip firstBound secondBound same)

/-- A change that the logs of this address do not see. -/
def Spares (cfg : FileConfig) (ip : Nat) (fs after : FileSystem) : Prop :=
  ∀ clock inode, fs.names (fileName cfg clock ip) = some inode →
    after.names (fileName cfg clock ip) = some inode ∧ after.size inode = fs.size inode

/-- A session knows the size of the file behind its descriptor. -/
structure Tracked (cfg : FileConfig) (fs : FileSystem) (session : FileSession)
    (descriptor : Descriptor) : Prop where
  named : ∃ clock, fs.names (fileName cfg clock session.ip) = some descriptor.inode
  size : session.roughFileOffset = fs.size descriptor.inode
  atEnd : descriptor.append = false → descriptor.offset = fs.size descriptor.inode

section

variable {cfg : FileConfig} {clock : Clock} {fs after : FileSystem} {session : FileSession}
  {descriptor : Descriptor} {ip : Nat}

theorem Tracked.spared (tracked : Tracked cfg fs session descriptor)
    (spares : Spares cfg session.ip fs after) : Tracked cfg after session descriptor := by
  obtain ⟨⟨clock, named⟩, size, atEnd⟩ := tracked
  obtain ⟨kept, same⟩ := spares clock descriptor.inode named
  refine ⟨⟨clock, kept⟩, size.trans same.symm, ?_⟩
  intro plain
  rw [same]
  exact atEnd plain

theorem size_of_content {fs after : FileSystem} (content : after.content = fs.content)
    (inode : Nat) : after.size inode = fs.size inode := by
  rw [FileSystem.size, content]
  rfl

theorem spares_handleFilesizeExceeded
    (tracked : ∀ descriptor, session.onDiskFd = some descriptor →
      Tracked cfg fs session descriptor)
    (own : session.ip < 2 ^ 32) (other : ip < 2 ^ 32) (apart : ip ≠ session.ip) :
    Spares cfg ip fs (handleFilesizeExceeded cfg session fs).2 := by
  intro clock inode found
  refine ⟨handleFilesizeExceeded_keeps (fileName_isLog _ _ _) found ?_, ?_⟩
  · intro descriptor held _
    obtain ⟨opened, named⟩ := (tracked descriptor held).named
    exact named_apart other own apart found named
  · exact size_of_content (handleFilesizeExceeded_spec cfg session fs).1 inode

theorem spares_setOnDiskLogFilename (own : session.ip < 2 ^ 32) (other : ip < 2 ^ 32)
    (apart : ip ≠ session.ip) :
    Spares cfg ip fs (setOnDiskLogFilename cfg clock session fs).2 := by
  intro earlier inode found
  refine ⟨setOnDiskLogFilename_keeps (fileName_isLog _ _ _) found ?_, ?_⟩
  · intro moved there _
    exact named_apart other own apart found there
  · exact size_of_content (setOnDiskLogFilename_spec cfg clock session fs).1 inode

theorem write_size_other (fs : FileSystem) {inode : Nat} (buf : List UInt8)
    (apart : inode ≠ descriptor.inode) :
    (fs.write descriptor buf).2.size inode = fs.size inode := by
  unfold FileSystem.write
  by_cases known : descriptor.inode < fs.inodes
  · rw [dif_pos known]
    simp only [FileSystem.size, FileSystem.store, Function.update_of_ne apart]
  · rw [dif_neg known]

theorem write_size (buf : List UInt8) (known : descriptor.inode < fs.inodes)
    (atEnd : descriptor.append = false → descriptor.offset = fs.size descriptor.inode) :
    (fs.write descriptor buf).2.size descriptor.inode =
        fs.size descriptor.inode + buf.length ∧
      (fs.write descriptor buf).1 =
        { descriptor with offset := fs.size descriptor.inode + buf.length } := by
  have start : (if descriptor.append then fs.size descriptor.inode else descriptor.offset) =
      fs.size descriptor.inode := by
    split
    · rfl
    · rename_i plain
      exact atEnd (Bool.eq_false_of_not_eq_true plain)
  unfold FileSystem.write
  rw [dif_pos known, start]
  refine ⟨?_, rfl⟩
  simp only [FileSystem.size, FileSystem.store, Function.update_self]
  exact FileSystem.length_overwrite_of_end le_rfl _ _

theorem spares_write (buf : List UInt8) (tracked : Tracked cfg fs session descriptor)
    (own : session.ip < 2 ^ 32) (other : ip < 2 ^ 32) (apart : ip ≠ session.ip) :
    Spares cfg ip fs (fs.write descriptor buf).2 := by
  intro clock inode found
  obtain ⟨opened, named⟩ := tracked.named
  refine ⟨by rw [write_names, found], write_size_other fs buf ?_⟩
  exact named_apart other own apart found named

theorem Tracked.known (tracked : Tracked cfg fs session descriptor) :
    descriptor.inode < fs.inodes := by
  obtain ⟨clock, named⟩ := tracked.named
  exact fs.allocated _ _ named

theorem Tracked.write (buf : List UInt8) (tracked : Tracked cfg fs session descriptor)
    (onDiskFd : Option Descriptor) :
    Tracked cfg (fs.write descriptor buf).2
      { session with
        onDiskFd := onDiskFd, roughFileOffset := session.roughFileOffset + buf.length }
      (fs.write descriptor buf).1 := by
  obtain ⟨grown, moved⟩ := write_size buf tracked.known tracked.atEnd
  obtain ⟨clock, named⟩ := tracked.named
  rw [moved]
  refine ⟨⟨clock, ?_⟩, ?_, ?_⟩
  · rw [write_names]
    exact named
  · change session.roughFileOffset + buf.length = (fs.write descriptor buf).2.size descriptor.inode
    rw [grown, tracked.size]
  · intro _
    exact grown.symm

end

structure LogsInv (cfg : FileConfig) (first most : Nat) (logs : Logs) : Prop where
  known : ∀ index session, logs.sessions index = some session →
    index < logs.nrSessions ∧ session.ip < 2 ^ 32
  alone : ∀ index other session otherSession, logs.sessions index = some session →
    logs.sessions other = some otherSession → session.ip = otherSession.ip → index = other
  tracked : ∀ index session descriptor, logs.sessions index = some session →
    session.onDiskFd = some descriptor → Tracked cfg logs.fs session descriptor
  bounded : ∀ inode, first ≤ inode → logs.fs.size inode ≤ cfg.maxFileSize + most

theorem LogsInv.put {cfg : FileConfig} {first most index : Nat} {logs : Logs}
    {session : FileSession} {result : FileSession × FileSystem}
    (inv : LogsInv cfg first most logs) (here : logs.sessions index = some session)
    (ip : result.1.ip = session.ip)
    (spares : ∀ ip < 2 ^ 32, ip ≠ session.ip → Spares cfg ip logs.fs result.2)
    (own : ∀ descriptor, result.1.onDiskFd = some descriptor →
      Tracked cfg result.2 result.1 descriptor)
    (bounded : ∀ inode, first ≤ inode → result.2.size inode ≤ cfg.maxFileSize + most) :
    LogsInv cfg first most (logs.put index result) := by
  refine ⟨?_, ?_, ?_, bounded⟩
  · intro other otherSession there
    rcases sessions_put there with ⟨rfl, rfl⟩ | ⟨-, there⟩
    · rw [ip]
      exact inv.known other session here
    · exact inv.known other otherSession there
  · intro left right leftSession rightSession leftHere rightHere same
    rcases sessions_put leftHere with ⟨rfl, rfl⟩ | ⟨-, leftThere⟩
    · rcases sessions_put rightHere with ⟨rfl, rfl⟩ | ⟨-, rightThere⟩
      · rfl
      · exact inv.alone _ _ _ _ here rightThere (ip.symm.trans same)
    · rcases sessions_put rightHere with ⟨rfl, rfl⟩ | ⟨-, rightThere⟩
      · exact inv.alone _ _ _ _ leftThere here (same.trans ip)
      · exact inv.alone _ _ _ _ leftThere rightThere same
  · intro other otherSession descriptor there held
    rcases sessions_put there with ⟨rfl, rfl⟩ | ⟨apart, there⟩
    · exact own descriptor held
    · have different : otherSession.ip ≠ session.ip :=
        fun same => apart (inv.alone _ _ _ _ there here same)
      exact (inv.tracked other otherSession descriptor there held).spared
        (spares otherSession.ip (inv.known other otherSession there).2 different)

/-- One session at a time for an address, and no write longer than a session buffer. -/
def OneAtATime (most : Nat) (visits : Visits) : VisitStep → Prop
  | .accept ip => ip < 2 ^ 32 ∧ ∀ index < visits.logs.nrSessions,
      (visits.logs.sessions index).map FileSession.ip ≠ some ip
  | .write buf => buf.length ≤ most
  | _ => True

instance (most : Nat) (visits : Visits) (label : VisitStep) :
    Decidable (OneAtATime most visits label) :=
  match label with
  | .accept _ => inferInstanceAs (Decidable (_ ∧ _))
  | .write _ => inferInstanceAs (Decidable (_ ≤ _))
  | .periodic _ | .disconnect _ | .visit _ | .pass | .handleFilesizeExceeded | .setLog =>
      inferInstanceAs (Decidable True)

/-- The session at work has come past `handle_filesize_exceeded`. -/
def VisitPc.ready (index : Nat) : VisitPc → Prop
  | .rotated session => session = index
  | .opened session => session = index
  | _ => False

structure SizeInv (cfg : FileConfig) (first most : Nat) (visits : Visits) : Prop where
  logs : LogsInv cfg first most visits.logs
  room : ∀ index session descriptor, visits.pc.ready index →
    visits.logs.sessions index = some session → session.onDiskFd = some descriptor →
      session.roughFileOffset ≤ cfg.maxFileSize

section

variable {cfg : FileConfig} {first most : Nat} {visits : Visits} {index : Nat}
  {session : FileSession}

theorem LogsInv.accept {logs : Logs} (inv : LogsInv cfg first most logs) {ip : Nat}
    (fresh : ip < 2 ^ 32 ∧ ∀ index < logs.nrSessions,
      (logs.sessions index).map FileSession.ip ≠ some ip) :
    LogsInv cfg first most { logs with
      sessions := Function.update logs.sessions logs.nrSessions
        (some ⟨ip, none, logs.clock.curSeq, 0⟩)
      nrSessions := logs.nrSessions + 1 } := by
  have sessions : ∀ index session,
      Function.update logs.sessions logs.nrSessions (some ⟨ip, none, logs.clock.curSeq, 0⟩) index =
        some session →
      (index = logs.nrSessions ∧ session = ⟨ip, none, logs.clock.curSeq, 0⟩) ∨
        logs.sessions index = some session := by
    intro index session here
    by_cases same : index = logs.nrSessions
    · subst same
      rw [Function.update_self] at here
      exact .inl ⟨rfl, (Option.some.inj here).symm⟩
    · rw [Function.update_of_ne same] at here
      exact .inr here
  have unused : ∀ index session, logs.sessions index = some session → session.ip ≠ ip := by
    rintro index session here rfl
    apply fresh.2 index (inv.known index session here).1
    rw [here]
    rfl
  refine ⟨?_, ?_, ?_, inv.bounded⟩
  · intro index session here
    rcases sessions index session here with ⟨rfl, rfl⟩ | here
    · exact ⟨Nat.lt_succ_self _, fresh.1⟩
    · obtain ⟨below, bound⟩ := inv.known index session here
      exact ⟨Nat.lt_succ_of_lt below, bound⟩
  · intro left right leftSession rightSession leftHere rightHere same
    rcases sessions _ _ leftHere with ⟨rfl, rfl⟩ | leftThere
    · rcases sessions _ _ rightHere with ⟨rfl, rfl⟩ | rightThere
      · rfl
      · exact absurd same.symm (unused _ _ rightThere)
    · rcases sessions _ _ rightHere with ⟨rfl, rfl⟩ | rightThere
      · exact absurd same (unused _ _ leftThere)
      · exact inv.alone _ _ _ _ leftThere rightThere same
  · intro index session descriptor here held
    rcases sessions index session here with ⟨rfl, rfl⟩ | here
    · contradiction
    · exact inv.tracked index session descriptor here held

theorem LogsInv.disconnect {logs : Logs} (inv : LogsInv cfg first most logs) (index : Nat) :
    LogsInv cfg first most
      { logs with sessions := Function.update logs.sessions index none } := by
  have sessions : ∀ other session,
      Function.update logs.sessions index none other = some session →
        logs.sessions other = some session := by
    intro other session here
    by_cases same : other = index
    · subst same
      rw [Function.update_self] at here
      contradiction
    · rw [Function.update_of_ne same] at here
      exact here
  refine ⟨?_, ?_, ?_, inv.bounded⟩
  · exact fun other session here => inv.known other session (sessions other session here)
  · exact fun _ _ _ _ left right same =>
      inv.alone _ _ _ _ (sessions _ _ left) (sessions _ _ right) same
  · exact fun other session descriptor here held =>
      inv.tracked other session descriptor (sessions other session here) held

theorem LogsInv.expire {logs : Logs} (inv : LogsInv cfg first most logs)
    (here : logs.sessions index = some session) :
    LogsInv cfg first most (logs.put index ({ session with onDiskFd := none }, logs.fs)) :=
  inv.put here rfl (fun _ _ _ _ _ found => ⟨found, rfl⟩) nofun inv.bounded

theorem LogsInv.rotate {logs : Logs} (inv : LogsInv cfg first most logs)
    (here : logs.sessions index = some session) :
    LogsInv cfg first most (logs.put index (handleFilesizeExceeded cfg session logs.fs)) := by
  have tracked := fun descriptor => inv.tracked index session descriptor here
  have own := (inv.known index session here).2
  obtain ⟨content, -, -⟩ := handleFilesizeExceeded_spec cfg session logs.fs
  refine inv.put here ?_ ?_ ?_ ?_
  · rw [handleFilesizeExceeded]
    split
    · rfl
    · split
      · rfl
      · rfl
  · exact fun ip bound apart => spares_handleFilesizeExceeded tracked own bound apart
  · intro descriptor held
    obtain ⟨unchanged, -⟩ := handleFilesizeExceeded_open held
    rw [unchanged] at held ⊢
    exact tracked descriptor held
  · intro inode above
    rw [size_of_content content]
    exact inv.bounded inode above

theorem LogsInv.openLog {logs : Logs} (inv : LogsInv cfg first most logs)
    (here : logs.sessions index = some session) :
    LogsInv cfg first most (logs.put index (setOnDiskLogFilename cfg logs.clock
      { session with fileSeq := logs.clock.curSeq } logs.fs)) := by
  have own := (inv.known index session here).2
  obtain ⟨content, -, -⟩ := setOnDiskLogFilename_spec cfg logs.clock
    { session with fileSeq := logs.clock.curSeq } logs.fs
  obtain ⟨descriptor, result, named, -, atEnd⟩ := setOnDiskLogFilename_opens cfg logs.clock
    { session with fileSeq := logs.clock.curSeq } logs.fs
  refine inv.put here ?_ ?_ ?_ ?_
  · rw [result]
  · exact fun ip bound apart => spares_setOnDiskLogFilename own bound apart
  · intro other held
    rw [result] at held ⊢
    obtain rfl := Option.some.inj held
    exact ⟨⟨logs.clock, named⟩, rfl, atEnd⟩
  · intro inode above
    rw [size_of_content content]
    exact inv.bounded inode above

theorem LogsInv.write {logs : Logs} {descriptor : Descriptor} {buf : List UInt8}
    (inv : LogsInv cfg first most logs) (here : logs.sessions index = some session)
    (held : session.onDiskFd = some descriptor)
    (room : session.roughFileOffset ≤ cfg.maxFileSize) (short : buf.length ≤ most) :
    LogsInv cfg first most (logs.put index
      ({ session with
          onDiskFd := some (logs.fs.write descriptor buf).1
          roughFileOffset := session.roughFileOffset + buf.length },
        (logs.fs.write descriptor buf).2)) := by
  have tracked := inv.tracked index session descriptor here held
  have own := (inv.known index session here).2
  refine inv.put here rfl ?_ ?_ ?_
  · exact fun ip bound apart => spares_write buf tracked own bound apart
  · intro moved same
    obtain rfl := Option.some.inj same
    exact tracked.write buf _
  · intro inode above
    by_cases same : inode = descriptor.inode
    · subst same
      dsimp only
      rw [(write_size buf tracked.known tracked.atEnd).1, ← tracked.size]
      exact Nat.add_le_add room short
    · dsimp only
      rw [write_size_other logs.fs buf same]
      exact inv.bounded inode above

theorem sizeInv_step {localDate : Nat → Path} {after : Visits} {label : VisitStep}
    (inv : SizeInv cfg first most visits) (allowed : OneAtATime most visits label)
    (stepped : visits.step cfg localDate label = some after) : SizeInv cfg first most after := by
  obtain ⟨logs, room⟩ := inv
  cases step_cases stepped with
  | periodic curTime =>
      obtain ⟨known, alone, tracked, bounded⟩ := logs
      exact ⟨⟨known, alone, tracked, bounded⟩, room⟩
  | accept ip =>
      refine ⟨logs.accept allowed, ?_⟩
      intro index session descriptor ready here held
      by_cases same : index = visits.logs.nrSessions
      · subst same
        simp only [Function.update_self, Option.some.injEq] at here
        subst here
        contradiction
      · simp only [Function.update_of_ne same] at here
        exact room index session descriptor ready here held
  | disconnect index pc =>
      refine ⟨logs.disconnect index, ?_⟩
      intro other session descriptor ready
      rw [Visits.disconnect, pc] at ready
      exact absurd ready id
  | current pc here seq => exact ⟨logs, nofun⟩
  | expire pc here => exact ⟨logs.expire here, nofun⟩
  | pass pc => exact ⟨logs, nofun⟩
  | @rotate index session pc here =>
      refine ⟨logs.rotate here, ?_⟩
      rintro other otherSession descriptor rfl there held
      rcases sessions_put there with ⟨-, rfl⟩ | ⟨apart, -⟩
      · obtain ⟨unchanged, below⟩ := handleFilesizeExceeded_open held
        rw [unchanged]
        exact below.le
      · exact absurd rfl apart
  | @stay index pc seq =>
      refine ⟨logs, ?_⟩
      rintro other session descriptor rfl here held
      exact room index session descriptor (by rw [pc]; rfl) here held
  | @openLog index session pc here due =>
      refine ⟨logs.openLog here, ?_⟩
      rintro other otherSession descriptor rfl there held
      obtain ⟨opened, result, -, size, -⟩ := setOnDiskLogFilename_opens cfg visits.logs.clock
        { session with fileSeq := visits.logs.clock.curSeq } visits.logs.fs
      rcases sessions_put there with ⟨-, rfl⟩ | ⟨apart, -⟩
      · rw [result]
        exact size
      · exact absurd rfl apart
  | @write index session descriptor buf pc here held =>
      have below := room index session descriptor (by rw [pc]; rfl) here held
      exact ⟨logs.write here held below allowed, nofun⟩

end

theorem sizeInv_start (cfg : FileConfig) (localDate : Nat → Path) (fs : FileSystem)
    (most curTime : Nat) :
    SizeInv cfg fs.inodes most (startVisits cfg localDate fs curTime) := by
  refine ⟨⟨nofun, nofun, nofun, ?_⟩, nofun⟩
  intro inode above
  change (fs.content inode).length ≤ _
  rw [fs.unused inode above]
  exact Nat.zero_le _

/-- A session knows the size of the file it has open, and no new log outgrows the limit
by more than one buffer. -/
theorem log_size_limited (cfg : FileConfig) (localDate : Nat → Path) (fs : FileSystem)
    (most : Nat) {visits : Visits}
    (reached : (visitMachine cfg localDate fs).Reachable (OneAtATime most) visits) :
    (∀ index session descriptor, visits.logs.sessions index = some session →
      session.onDiskFd = some descriptor →
        session.roughFileOffset = visits.logs.fs.size descriptor.inode) ∧
    ∀ inode, fs.inodes ≤ inode → visits.logs.fs.size inode ≤ cfg.maxFileSize + most := by
  have inv : SizeInv cfg fs.inodes most visits := by
    refine reached.invariant ?_ ?_
    · rintro state ⟨curTime, rfl⟩
      exact sizeInv_start cfg localDate fs most curTime
    · exact fun _ _ _ inv allowed stepped => sizeInv_step inv allowed stepped
  refine ⟨?_, inv.logs.bounded⟩
  intro index session descriptor here held
  exact (inv.logs.tracked index session descriptor here held).size

def threeBytes : FileConfig := { oneMegabyte with maxFileSize := 3 }

def twoLogs : List VisitStep :=
  [.accept client, .visit 0, .handleFilesizeExceeded, .setLog, .write [1, 2, 3, 4],
    .periodic 86400, .visit 0, .handleFilesizeExceeded, .setLog, .write [5, 6]]

theorem log_size_limited_twoLogs :
    ∃ visits, (visitMachine threeBytes (fun _ => []) noFiles).runAllowed (OneAtATime 4)
        (startVisits threeBytes (fun _ => []) noFiles 0) twoLogs = some visits ∧
      (∀ index session descriptor, visits.logs.sessions index = some session →
        session.onDiskFd = some descriptor →
          session.roughFileOffset = visits.logs.fs.size descriptor.inode) ∧
      ∀ inode, 0 ≤ inode → visits.logs.fs.size inode ≤ 3 + 4 := by
  have ran : ((visitMachine threeBytes (fun _ => []) noFiles).runAllowed (OneAtATime 4)
      (startVisits threeBytes (fun _ => []) noFiles 0) twoLogs).isSome = true := by
    decide
  obtain ⟨visits, ran⟩ := Option.isSome_iff_exists.mp ran
  have reached : (visitMachine threeBytes (fun _ => []) noFiles).Reachable (OneAtATime 4) visits :=
    .of_runAllowed (.start ⟨0, rfl⟩) ran
  exact ⟨visits, ran, log_size_limited threeBytes (fun _ => []) noFiles 4 reached⟩

end DirtyCode.LogCollect
