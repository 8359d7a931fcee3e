import DirtyCode.LogCollect.Visits

/-!
Which file a session of `logCollectSrv.c` writes to. The disk thread compares sequence
numbers only, while the name of a log has the date in it too.
-/

namespace DirtyCode.LogCollect

open Lib

def VisitPc.session : VisitPc → Option Nat
  | .scan => none
  | .checked session => some session
  | .rotated session => some session
  | .opened session => some session

def VisitPc.isOpened : VisitPc → Bool
  | .opened _ => true
  | _ => false

def Visits.openInode (visits : Visits) (index : Nat) : Option Nat :=
  ((visits.logs.sessions index).bind FileSession.onDiskFd).map Descriptor.inode

/-- The session whose step moves a log to `.last`, and the file that is moved. -/
def Visits.moves (cfg : FileConfig) (visits : Visits) : VisitStep → Option (Nat × Nat)
  | .handleFilesizeExceeded =>
      match visits.pc with
      | .checked index =>
          (visits.logs.sessions index).bind fun session =>
            if cfg.maxFileSize ≤ session.roughFileOffset then
              session.onDiskFd.map fun descriptor => (index, descriptor.inode)
            else none
      | _ => none
  | .setLog =>
      match visits.pc with
      | .rotated index =>
          (visits.logs.sessions index).bind fun session =>
            if session.onDiskFd = none ∨ session.fileSeq ≠ visits.logs.clock.curSeq then
              (visits.logs.fs.names (fileName cfg visits.logs.clock session.ip)).bind
                fun inode =>
                  if cfg.maxFileSize < visits.logs.fs.size inode then some (index, inode) else none
            else none
      | _ => none
  | _ => none

/-- Every session has been visited since the last reading of the clock. -/
def Scanned (visits : Visits) : VisitStep → Prop
  | .periodic _ => ∀ index < visits.logs.nrSessions,
      (visits.logs.sessions index).isSome → visits.unseen index = false
  | _ => True

/-- The date does not change under an open file without the sequence number, nor the
clock between the opening of a file and the write, and no session moves a file that
another one has open. -/
def InTime (cfg : FileConfig) (localDate : Nat → Path) (visits : Visits) : VisitStep → Prop
  | .periodic curTime =>
      (visits.pc.isOpened = true → clockAt cfg localDate curTime = visits.logs.clock) ∧
      ∀ index < visits.logs.nrSessions, (visits.openInode index).isSome →
        (clockAt cfg localDate curTime).curSeq = visits.logs.clock.curSeq →
          localDate curTime = visits.logs.clock.date
  | label => ∀ moved ∈ visits.moves cfg label, ∀ other < visits.logs.nrSessions,
      other ≠ moved.1 → visits.openInode other ≠ some moved.2

instance (visits : Visits) (label : VisitStep) : Decidable (Scanned visits label) :=
  match label with
  | .periodic _ => Nat.decidableBallLT _ _
  | .accept _ | .disconnect _ | .visit _ | .pass | .handleFilesizeExceeded | .setLog
  | .write _ => inferInstanceAs (Decidable True)

instance (cfg : FileConfig) (localDate : Nat → Path) (visits : Visits) (label : VisitStep) :
    Decidable (InTime cfg localDate visits label) :=
  match label with
  | .periodic _ => inferInstanceAs (Decidable (_ ∧ _))
  | .accept _ | .disconnect _ | .visit _ | .pass | .handleFilesizeExceeded | .setLog
  | .write _ => inferInstanceAs (Decidable (∀ moved ∈ Visits.moves _ _ _, _))

/-- A write goes to the file that the session would open now. -/
def WritesCurrent (cfg : FileConfig) (visits : Visits) : VisitStep → Prop
  | .write _ => ∀ index, visits.pc = .opened index → ∃ session descriptor,
      visits.logs.sessions index = some session ∧ session.onDiskFd = some descriptor ∧
        visits.logs.fs.names (fileName cfg visits.logs.clock session.ip) = some descriptor.inode
  | _ => True

/-- The session opened the file at a reading of the clock that is the last one, or one
whose sequence number the next visit finds changed. -/
def OpenedAt (cfg : FileConfig) (names : Path → Option Nat) (now : Clock) (unseen : Bool)
    (session : FileSession) (inode : Nat) : Prop :=
  ∃ clock : Clock, clock.curSeq = session.fileSeq ∧
    names (fileName cfg clock session.ip) = some inode ∧
    (clock = now ∨ unseen = true ∧ session.fileSeq ≠ now.curSeq)

structure SwitchInv (cfg : FileConfig) (visits : Visits) : Prop where
  known : ∀ index session, visits.logs.sessions index = some session →
    index < visits.logs.nrSessions
  present : ∀ index, visits.pc.session = some index → (visits.logs.sessions index).isSome
  opened : ∀ index session descriptor, visits.logs.sessions index = some session →
    session.onDiskFd = some descriptor →
      OpenedAt cfg visits.logs.fs.names visits.logs.clock (visits.unseen index) session
        descriptor.inode
  current : ∀ index, visits.pc = .opened index → ∃ session descriptor,
    visits.logs.sessions index = some session ∧ session.onDiskFd = some descriptor ∧
      session.fileSeq = visits.logs.clock.curSeq

section

variable {cfg : FileConfig} {localDate : Nat → Path} {visits : Visits} {index : Nat}
  {session : FileSession} {descriptor : Descriptor}

theorem clock_eq {first second : Clock} (seq : first.curSeq = second.curSeq)
    (date : first.date = second.date) : first = second := by
  cases first
  cases second
  cases seq
  cases date
  rfl

theorem openInode_of (here : visits.logs.sessions index = some session)
    (held : session.onDiskFd = some descriptor) :
    visits.openInode index = some descriptor.inode := by
  rw [Visits.openInode, here, Option.bind_some, held]
  rfl

theorem OpenedAt.named {names : Path → Option Nat} {now : Clock} {unseen : Bool} {inode : Nat}
    (opened : OpenedAt cfg names now unseen session inode)
    (seq : unseen = false ∨ session.fileSeq = now.curSeq) :
    now.curSeq = session.fileSeq ∧ names (fileName cfg now session.ip) = some inode := by
  obtain ⟨clock, same, named, rfl | ⟨late, differs⟩⟩ := opened
  · exact ⟨same, named⟩
  · rcases seq with seen | seq
    · rw [seen] at late
      contradiction
    · exact absurd seq differs

theorem switchInv_start (cfg : FileConfig) (localDate : Nat → Path) (fs : FileSystem)
    (curTime : Nat) : SwitchInv cfg (startVisits cfg localDate fs curTime) :=
  ⟨nofun, nofun, nofun, nofun⟩

theorem switchInv_periodic (inv : SwitchInv cfg visits) {curTime : Nat}
    (scanned : Scanned visits (.periodic curTime))
    (inTime : InTime cfg localDate visits (.periodic curTime)) :
    SwitchInv cfg (visits.periodic cfg localDate curTime) := by
  obtain ⟨unread, switched⟩ := inTime
  refine ⟨inv.known, inv.present, ?_, ?_⟩
  · intro index session descriptor here held
    change visits.logs.sessions index = some session at here
    have below := inv.known index session here
    have seen := scanned index below (by rw [here]; rfl)
    obtain ⟨seq, named⟩ := (inv.opened index session descriptor here held).named (.inl seen)
    by_cases same : (clockAt cfg localDate curTime).curSeq = visits.logs.clock.curSeq
    · have date := switched index below (by rw [openInode_of here held]; rfl) same
      have unchanged : clockAt cfg localDate curTime = visits.logs.clock := clock_eq same date
      exact ⟨visits.logs.clock, seq, named, .inl unchanged.symm⟩
    · refine ⟨visits.logs.clock, seq, named, .inr ⟨?_, ?_⟩⟩
      · change (visits.logs.sessions index).isSome = true
        rw [here]
        rfl
      · rw [← seq]
        exact fun equal => same equal.symm
  · intro index pc
    obtain ⟨session, descriptor, here, held, seq⟩ := inv.current index pc
    have unchanged := unread (by rw [show visits.pc = .opened index from pc]; rfl)
    refine ⟨session, descriptor, here, held, ?_⟩
    change session.fileSeq = (clockAt cfg localDate curTime).curSeq
    rw [unchanged, seq]

theorem isSome_put {logs : Logs} {other : Nat} {result : FileSession × FileSystem}
    (there : (logs.sessions other).isSome) :
    ((logs.put index result).sessions other).isSome := by
  by_cases same : other = index
  · subst same
    simp only [Logs.put, Function.update_self, Option.isSome_some]
  · simp only [Logs.put, Function.update_of_ne same]
    exact there

theorem switchInv_put (inv : SwitchInv cfg visits) {result : FileSession × FileSystem}
    {pc : VisitPc} {unseen : Nat → Bool} (here : visits.logs.sessions index = some session)
    (work : ∀ other, pc.session = some other → other = index)
    (others : ∀ other, other ≠ index → unseen other = visits.unseen other)
    (kept : ∀ other otherSession descriptor clock, other ≠ index →
      visits.logs.sessions other = some otherSession →
      otherSession.onDiskFd = some descriptor →
      visits.logs.fs.names (fileName cfg clock otherSession.ip) = some descriptor.inode →
        result.2.names (fileName cfg clock otherSession.ip) = some descriptor.inode)
    (own : ∀ descriptor, result.1.onDiskFd = some descriptor →
      OpenedAt cfg result.2.names visits.logs.clock (unseen index) result.1 descriptor.inode)
    (current : pc.isOpened = true → ∃ descriptor, result.1.onDiskFd = some descriptor ∧
      result.1.fileSeq = visits.logs.clock.curSeq) :
    SwitchInv cfg { logs := visits.logs.put index result, pc := pc, unseen := unseen } := by
  refine ⟨?_, ?_, ?_, ?_⟩
  · intro other otherSession there
    rcases sessions_put there with ⟨rfl, -⟩ | ⟨-, there⟩
    · exact inv.known other session here
    · exact inv.known other otherSession there
  · intro other working
    obtain rfl := work other working
    exact isSome_put (by rw [here]; rfl)
  · intro other otherSession descriptor there held
    rcases sessions_put there with ⟨rfl, rfl⟩ | ⟨apart, there⟩
    · exact own descriptor held
    · obtain ⟨clock, seq, named, since⟩ :=
        inv.opened other otherSession descriptor there held
      refine ⟨clock, seq, kept other otherSession descriptor clock apart there held named, ?_⟩
      rw [← others other apart] at since
      exact since
  · intro other opened
    obtain rfl := work other (by rw [show pc = .opened other from opened]; rfl)
    obtain ⟨descriptor, held, seq⟩ := current (by rw [show pc = .opened other from opened]; rfl)
    refine ⟨result.1, descriptor, ?_, held, seq⟩
    simp only [Logs.put, Function.update_self]

theorem write_inode (fs : FileSystem) (descriptor : Descriptor) (buf : List UInt8) :
    (fs.write descriptor buf).1.inode = descriptor.inode := by
  unfold FileSystem.write
  dsimp only
  split
  · rfl
  · rfl

theorem switchInv_accept (inv : SwitchInv cfg visits) (ip : Nat) :
    SwitchInv cfg { visits with
      logs := { visits.logs with
        sessions := Function.update visits.logs.sessions visits.logs.nrSessions
          (some ⟨ip, none, visits.logs.clock.curSeq, 0⟩)
        nrSessions := visits.logs.nrSessions + 1 } } := by
  have old : ∀ index session, visits.logs.sessions index = some session →
      Function.update visits.logs.sessions visits.logs.nrSessions
        (some ⟨ip, none, visits.logs.clock.curSeq, 0⟩) index = some session := by
    intro index session here
    rw [Function.update_of_ne (Nat.ne_of_lt (inv.known index session here)), here]
  refine ⟨?_, ?_, ?_, ?_⟩
  · intro index session here
    by_cases same : index = visits.logs.nrSessions
    · exact same ▸ Nat.lt_succ_self _
    · simp only [Function.update_of_ne same] at here
      exact Nat.lt_succ_of_lt (inv.known index session here)
  · intro index working
    obtain ⟨session, here⟩ := Option.isSome_iff_exists.mp (inv.present index working)
    exact Option.isSome_iff_exists.mpr ⟨session, old index session here⟩
  · intro index session descriptor here held
    by_cases same : index = visits.logs.nrSessions
    · subst same
      simp only [Function.update_self, Option.some.injEq] at here
      subst here
      contradiction
    · simp only [Function.update_of_ne same] at here
      exact inv.opened index session descriptor here held
  · intro index pc
    obtain ⟨session, descriptor, here, held, seq⟩ := inv.current index pc
    exact ⟨session, descriptor, old index session here, held, seq⟩

theorem switchInv_disconnect (inv : SwitchInv cfg visits) (index : Nat) (pc : visits.pc = .scan) :
    SwitchInv cfg (visits.disconnect index) := by
  have old : ∀ other session,
      (visits.disconnect index).logs.sessions other = some session →
        visits.logs.sessions other = some session := by
    intro other session here
    by_cases same : other = index
    · subst same
      simp only [Visits.disconnect, Function.update_self] at here
      contradiction
    · simp only [Visits.disconnect, Function.update_of_ne same] at here
      exact here
  refine ⟨?_, ?_, ?_, ?_⟩
  · exact fun other session here => inv.known other session (old other session here)
  · intro other working
    rw [Visits.disconnect, pc] at working
    contradiction
  · exact fun other session descriptor here held =>
      inv.opened other session descriptor (old other session here) held
  · intro other opened
    rw [Visits.disconnect, pc] at opened
    contradiction

theorem moves_rotate (pc : visits.pc = .checked index)
    (here : visits.logs.sessions index = some session)
    (held : session.onDiskFd = some descriptor)
    (full : cfg.maxFileSize ≤ session.roughFileOffset) :
    (index, descriptor.inode) ∈ visits.moves cfg .handleFilesizeExceeded := by
  simp only [Visits.moves, pc, here, Option.bind_some, full, if_true, held, Option.map_some]
  rfl

theorem moves_openLog {inode : Nat} (pc : visits.pc = .rotated index)
    (here : visits.logs.sessions index = some session)
    (due : session.onDiskFd = none ∨ session.fileSeq ≠ visits.logs.clock.curSeq)
    (found : visits.logs.fs.names (fileName cfg visits.logs.clock session.ip) = some inode)
    (large : cfg.maxFileSize < visits.logs.fs.size inode) :
    (index, inode) ∈ visits.moves cfg .setLog := by
  simp only [Visits.moves, pc, here, Option.bind_some]
  rw [if_pos due]
  simp only [found, Option.bind_some, large, if_true]
  rfl

theorem switchInv_rotate (inv : SwitchInv cfg visits) (pc : visits.pc = .checked index)
    (here : visits.logs.sessions index = some session)
    (inTime : InTime cfg localDate visits .handleFilesizeExceeded) :
    SwitchInv cfg { visits with
      logs := visits.logs.put index (handleFilesizeExceeded cfg session visits.logs.fs)
      pc := .rotated index } := by
  refine switchInv_put inv here ?_ (fun _ _ => rfl) ?_ ?_ nofun
  · intro other working
    exact (Option.some.inj working).symm
  · intro other otherSession descriptor clock apart there held named
    refine handleFilesizeExceeded_keeps (fileName_isLog _ _ _) named ?_
    intro moved own full same
    have free := inTime _ (moves_rotate pc here own full) other
      (inv.known other otherSession there) apart
    rw [openInode_of there held, same] at free
    exact free rfl
  · intro descriptor held
    obtain ⟨unchanged, -⟩ := handleFilesizeExceeded_open held
    rw [unchanged] at held ⊢
    exact inv.opened index session descriptor here held

theorem switchInv_openLog (inv : SwitchInv cfg visits) (pc : visits.pc = .rotated index)
    (here : visits.logs.sessions index = some session)
    (due : session.onDiskFd = none ∨ session.fileSeq ≠ visits.logs.clock.curSeq)
    (inTime : InTime cfg localDate visits .setLog) :
    SwitchInv cfg { visits with
      logs := visits.logs.put index (setOnDiskLogFilename cfg visits.logs.clock
        { session with fileSeq := visits.logs.clock.curSeq } visits.logs.fs)
      pc := .opened index } := by
  obtain ⟨opened, result, named, -, -⟩ := setOnDiskLogFilename_opens cfg visits.logs.clock
    { session with fileSeq := visits.logs.clock.curSeq } visits.logs.fs
  refine switchInv_put inv here ?_ (fun _ _ => rfl) ?_ ?_ ?_
  · intro other working
    exact (Option.some.inj working).symm
  · intro other otherSession descriptor clock apart there held named
    refine setOnDiskLogFilename_keeps (fileName_isLog _ _ _) named ?_
    intro moved found large same
    have free := inTime _ (moves_openLog pc here due found large) other
      (inv.known other otherSession there) apart
    rw [openInode_of there held, same] at free
    exact free rfl
  · intro descriptor held
    rw [result] at held ⊢
    obtain rfl := Option.some.inj held
    exact ⟨visits.logs.clock, rfl, named, .inl rfl⟩
  · intro _
    rw [result]
    exact ⟨opened, rfl, rfl⟩

theorem switchInv_step {after : Visits} {label : VisitStep} (inv : SwitchInv cfg visits)
    (scanned : Scanned visits label) (inTime : InTime cfg localDate visits label)
    (stepped : visits.step cfg localDate label = some after) :
    WritesCurrent cfg visits label ∧ SwitchInv cfg after := by
  cases step_cases stepped with
  | periodic curTime => exact ⟨trivial, switchInv_periodic inv scanned inTime⟩
  | accept ip => exact ⟨trivial, switchInv_accept inv ip⟩
  | disconnect index pc => exact ⟨trivial, switchInv_disconnect inv index pc⟩
  | @current index session pc here seq =>
      refine ⟨trivial, inv.known, ?_, ?_, nofun⟩
      · intro other working
        obtain rfl := Option.some.inj working
        rw [here]
        rfl
      · intro other otherSession descriptor there held
        by_cases same : other = index
        · subst same
          rw [here] at there
          obtain rfl := Option.some.inj there
          have isOpen : session.onDiskFd ≠ none := by rw [held]; exact Option.some_ne_none _
          obtain ⟨equal, named⟩ :=
            (inv.opened other session descriptor here held).named (.inr (seq isOpen))
          exact ⟨visits.logs.clock, equal, named, .inl rfl⟩
        · have opened := inv.opened other otherSession descriptor there held
          dsimp only
          rw [Function.update_of_ne same]
          exact opened
  | @expire index session pc here =>
      refine ⟨trivial, switchInv_put inv here ?_ ?_ ?_ nofun nofun⟩
      · intro other working
        exact (Option.some.inj working).symm
      · intro other apart
        exact Function.update_of_ne apart _ _
      · exact fun other otherSession descriptor clock _ _ _ named => named
  | pass pc => exact ⟨trivial, inv.known, nofun, inv.opened, nofun⟩
  | rotate pc here => exact ⟨trivial, switchInv_rotate inv pc here inTime⟩
  | @stay index pc seq =>
      obtain ⟨session, here⟩ := Option.isSome_iff_exists.mp (inv.present index (by rw [pc]; rfl))
      obtain ⟨isOpen, same⟩ := seq session here
      obtain ⟨descriptor, held⟩ := Option.ne_none_iff_exists'.mp isOpen
      refine ⟨trivial, inv.known, ?_, inv.opened, ?_⟩
      · intro other working
        obtain rfl := Option.some.inj working
        rw [here]
        rfl
      · intro other opened
        cases opened
        exact ⟨session, descriptor, here, held, same⟩
  | openLog pc here due => exact ⟨trivial, switchInv_openLog inv pc here due inTime⟩
  | @write index session descriptor buf pc here held =>
      obtain ⟨other, otherDescriptor, there, kept, seq⟩ := inv.current index pc
      rw [here] at there
      obtain rfl := Option.some.inj there
      obtain ⟨equal, named⟩ :=
        (inv.opened index session descriptor here held).named (.inr seq)
      refine ⟨?_, switchInv_put inv here nofun (fun _ _ => rfl) ?_ ?_ nofun⟩
      · intro working opened
        rw [pc] at opened
        cases opened
        exact ⟨session, descriptor, here, held, named⟩
      · intro _ _ _ _ _ _ _ named
        rw [write_names]
        exact named
      · intro moved same
        obtain rfl := Option.some.inj same
        rw [write_inode, write_names]
        exact ⟨visits.logs.clock, equal, named, .inl rfl⟩

end

/-- With a period under a day the last sequence of a day is another one than the first of
the next, so that no step of the clock that is shorter than what the day lacks of a
period changes the date alone. -/
theorem date_change_switches {cfg : FileConfig} {localDate : Nat → Path} {earlier later : Nat}
    (period : 0 < cfg.dirSwitchPeriod) (forward : earlier ≤ later)
    (short : later + cfg.dirSwitchPeriod ≤ earlier + 86400)
    (zone : ∀ first second, (first + 3600 * tzOffset) / 86400 = (second + 3600 * tzOffset) / 86400 →
      localDate first = localDate second)
    (same : (clockAt cfg localDate later).curSeq = (clockAt cfg localDate earlier).curSeq) :
    localDate later = localDate earlier := by
  apply zone
  by_contra days
  set first := earlier + 3600 * tzOffset with firstDef
  set second := later + 3600 * tzOffset with secondDef
  -- midnight lies between, so the time of day has gone back by a period at least
  have back : second % 86400 + cfg.dirSwitchPeriod ≤ first % 86400 := by omega
  have fewer : second % 86400 / cfg.dirSwitchPeriod < first % 86400 / cfg.dirSwitchPeriod := by
    calc second % 86400 / cfg.dirSwitchPeriod
        < (second % 86400 + cfg.dirSwitchPeriod) / cfg.dirSwitchPeriod := by
          rw [Nat.add_div_right _ period]
          exact Nat.lt_succ_self _
      _ ≤ first % 86400 / cfg.dirSwitchPeriod := Nat.div_le_div_right back
  exact absurd same (Nat.ne_of_lt fewer)

/-- In a run whose readings of the clock all come in time, a session writes to the file
that it would open now. -/
theorem writes_current (cfg : FileConfig) (localDate : Nat → Path) (fs : FileSystem)
    (curTime : Nat) (labels : List VisitStep)
    (inTime : (visitMachine cfg localDate fs).Along
      (fun visits label _ => Scanned visits label ∧ InTime cfg localDate visits label)
      (startVisits cfg localDate fs curTime) labels) :
    (visitMachine cfg localDate fs).Along (fun visits label _ => WritesCurrent cfg visits label)
      (startVisits cfg localDate fs curTime) labels := by
  refine Machine.Along.of_invariant (SwitchInv cfg) ?_ (switchInv_start cfg localDate fs curTime)
    inTime
  intro visits label after inv allowed stepped
  exact switchInv_step inv allowed.1 allowed.2 stepped

def eve : Path := ['2', '0', '2', '3', '1', '2', '3', '1']

def newYear : Path := ['2', '0', '2', '4', '0', '1', '0', '1']

def newYearDate (curTime : Nat) : Path := if curTime < 1704038400 then eve else newYear

/-- One session, visited every second, with something to write before and after midnight. -/
def midnight : List VisitStep :=
  [.accept client, .visit 0, .handleFilesizeExceeded, .setLog, .write [1],
    .periodic 1704038399, .visit 0, .pass, .periodic 1704038400, .visit 0,
    .handleFilesizeExceeded, .setLog]

def tenMinutes : FileConfig := { oneMegabyte with dirSwitchPeriod := 600 }

theorem writes_current_midnight :
    (visitMachine tenMinutes newYearDate noFiles).Along
      (fun visits label _ => WritesCurrent tenMinutes visits label)
      (startVisits tenMinutes newYearDate noFiles 1704038398) (midnight ++ [.write [2]]) := by
  have ran : ((visitMachine tenMinutes newYearDate noFiles).runAllowed
      (fun visits label => Scanned visits label ∧ InTime tenMinutes newYearDate visits label)
      (startVisits tenMinutes newYearDate noFiles 1704038398)
      (midnight ++ [.write [2]])).isSome = true := by
    decide
  obtain ⟨final, ran⟩ := Option.isSome_iff_exists.mp ran
  exact writes_current tenMinutes newYearDate noFiles 1704038398 _
    (Machine.along_of_runAllowed ran)

/-- With a period of one day the sequence number is always 0, and what is written after
midnight goes to the file of the day before. -/
theorem midnight_missed :
    (visitMachine oneMegabyte newYearDate noFiles).Along
        (fun visits label _ => Scanned visits label)
        (startVisits oneMegabyte newYearDate noFiles 1704038398) (midnight ++ [.write [2]]) ∧
      ∃ middle final, (visitMachine oneMegabyte newYearDate noFiles).run
          (startVisits oneMegabyte newYearDate noFiles 1704038398) midnight = some middle ∧
        (visitMachine oneMegabyte newYearDate noFiles).step middle (.write [2]) = some final ∧
        ¬WritesCurrent oneMegabyte middle (.write [2]) := by
  have scanned : ((visitMachine oneMegabyte newYearDate noFiles).runAllowed Scanned
      (startVisits oneMegabyte newYearDate noFiles 1704038398)
      (midnight ++ [.write [2]])).isSome = true := by
    decide
  have found : ((visitMachine oneMegabyte newYearDate noFiles).run
      (startVisits oneMegabyte newYearDate noFiles 1704038398) midnight).bind (fun middle =>
        ((visitMachine oneMegabyte newYearDate noFiles).step middle (.write [2])).map
          fun _ => (middle.pc, (middle.logs.sessions 0).map fun session =>
            middle.logs.fs.names (fileName oneMegabyte middle.logs.clock session.ip))) =
      some (.opened 0, some none) := by
    decide
  obtain ⟨last, scanned⟩ := Option.isSome_iff_exists.mp scanned
  obtain ⟨middle, ran, rest⟩ := Option.bind_eq_some_iff.mp found
  obtain ⟨final, stepped, facts⟩ := Option.map_eq_some_iff.mp rest
  obtain ⟨pc, names⟩ := Prod.mk.inj facts
  obtain ⟨session, here, absent⟩ := Option.map_eq_some_iff.mp names
  refine ⟨Machine.along_of_runAllowed scanned, middle, final, ran, stepped, ?_⟩
  intro current
  obtain ⟨other, descriptor, there, -, named⟩ := current 0 pc
  rw [here] at there
  obtain rfl := Option.some.inj there
  rw [absent] at named
  contradiction

end DirtyCode.LogCollect
