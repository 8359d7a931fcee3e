import DirtyCode.LogCollect.ForcedDisconnect
import DirtyCode.LogCollect.SessionTable
import DirtyCode.LogCollect.WriteLoop

/-!
The counters of disk writes in `logCollectSrv.c`: `disk_write_thread` counts during a
scan of the session table, adds what it has counted to `gstats`, and `periodic` shows
and clears the sums.
-/

namespace DirtyCode.LogCollect

open Lib

def nrMaxThreads : Nat := 64

inductive DiskEvent
  | succSubmitDiskIoTimerExpireForced
  | succSubmitDiskIo
  | succFinishedDiskIo
  | failedFinishedDiskIo
  deriving DecidableEq, Repr

structure DiskIoCounters where
  succSubmitDiskIoTimerExpireForced : Int
  succSubmitDiskIo : Int
  succFinishedDiskIo : Int
  failedFinishedDiskIo : Int
  deriving DecidableEq, Repr

namespace DiskIoCounters

def zero : DiskIoCounters := ⟨0, 0, 0, 0⟩

def value (counters : DiskIoCounters) : DiskEvent → Int
  | .succSubmitDiskIoTimerExpireForced => counters.succSubmitDiskIoTimerExpireForced
  | .succSubmitDiskIo => counters.succSubmitDiskIo
  | .succFinishedDiskIo => counters.succFinishedDiskIo
  | .failedFinishedDiskIo => counters.failedFinishedDiskIo

def increment (counters : DiskIoCounters) : DiskEvent → DiskIoCounters
  | .succSubmitDiskIoTimerExpireForced =>
      { counters with
        succSubmitDiskIoTimerExpireForced := counters.succSubmitDiskIoTimerExpireForced + 1 }
  | .succSubmitDiskIo => { counters with succSubmitDiskIo := counters.succSubmitDiskIo + 1 }
  | .succFinishedDiskIo => { counters with succFinishedDiskIo := counters.succFinishedDiskIo + 1 }
  | .failedFinishedDiskIo =>
      { counters with failedFinishedDiskIo := counters.failedFinishedDiskIo + 1 }

-- four `__atomic_fetch_add` on `int`
def fetchAdd (counters stat : DiskIoCounters) : DiskIoCounters where
  succSubmitDiskIoTimerExpireForced := toInt32
    (counters.succSubmitDiskIoTimerExpireForced + stat.succSubmitDiskIoTimerExpireForced)
  succSubmitDiskIo := toInt32 (counters.succSubmitDiskIo + stat.succSubmitDiskIo)
  succFinishedDiskIo := toInt32 (counters.succFinishedDiskIo + stat.succFinishedDiskIo)
  failedFinishedDiskIo := toInt32 (counters.failedFinishedDiskIo + stat.failedFinishedDiskIo)

@[simp] theorem value_zero (event : DiskEvent) : zero.value event = 0 := by
  cases event <;> rfl

@[simp] theorem value_fetchAdd (counters stat : DiskIoCounters) (event : DiskEvent) :
    (counters.fetchAdd stat).value event =
      toInt32 (counters.value event + stat.value event) := by
  cases event <;> rfl

theorem value_increment (counters : DiskIoCounters) (counted event : DiskEvent) :
    (counters.increment counted).value event =
      counters.value event + if counted = event then 1 else 0 := by
  cases counted <;> cases event <;> simp [increment, value]

end DiskIoCounters

/-- The `stat_` variables of a scan, and what the scan has done so far. -/
structure Scan where
  sessionAlive : Int
  busyLoops : Nat
  stat : DiskIoCounters
  events : List DiskEvent

def DiskEvent.ofStep (core : Core) : Option DiskEvent :=
  match core.disk with
  | .flush => some .succSubmitDiskIoTimerExpireForced
  | .pending =>
      if core.session.diskBuf.isNone || core.session.diskWriteBufLen < 1 then none
      else some .succSubmitDiskIo
  | .finish written => some (if 0 < written then .succFinishedDiskIo else .failedFinishedDiskIo)
  | _ => none

def Scan.record (scan : Scan) : Option DiskEvent → Scan
  | none => scan
  | some event =>
      { scan with stat := scan.stat.increment event, events := scan.events ++ [event] }

def Scan.stays (scan : Scan) (before after : DiskPc) : Scan :=
  match before, after with
  | .scan, .visit =>
      { scan with sessionAlive := scan.sessionAlive + 1, busyLoops := scan.busyLoops + 1 }
  | .finish _, .freed => { scan with sessionAlive := scan.sessionAlive - 1 }
  | _, _ => scan

-- from the current step on to the next session; a pass of `write2disk` ends only when it
-- has written the whole length (`write2disk_cases`)
def visitSession (forceDisconnectSeconds ticks : Nat) :
    Nat → Core → Scan → Option (Core × Scan)
  | 0, _, _ => none
  | fuel + 1, core, scan =>
      (diskStep forceDisconnectSeconds ticks core.session.diskWriteBufLen core).bind
        fun after =>
          let scan := (scan.record (DiskEvent.ofStep core)).stays core.disk after.disk
          if after.disk = .scan ∨ after.disk = .freed then some (after, scan)
          else visitSession forceDisconnectSeconds ticks fuel after scan

/-- How many steps at most lead from here to the next session. -/
def DiskPc.remaining : DiskPc → Nat
  | .scan => 10
  | .visit => 9
  | .flush => 8
  | .clearFlag => 7
  | .timer => 6
  | .setFlag => 1
  | .pending => 5
  | .claim => 4
  | .write _ => 3
  | .complete _ _ => 2
  | .finish _ => 1
  | .freed => 0

def scanSession (forceDisconnectSeconds ticks : Nat) (scan : Scan) (session : Session) : Scan :=
  match visitSession forceDisconnectSeconds ticks 10 ⟨session, .scan, [], 0⟩ scan with
  | none => scan
  | some visited => visited.2

def scanTable (forceDisconnectSeconds ticks : Nat) (sessions : List Session) (scan : Scan) : Scan :=
  sessions.foldl (scanSession forceDisconnectSeconds ticks) scan

/-- Whatever `write()` answers, the disk thread goes on from a pass that ends as from a
complete write. -/
theorem diskStep_ended_pass (forceDisconnectSeconds ticks : Nat) {core : Core}
    {counts after : WriteCounts} {buf : Memory} {results : List WriteResult} {r : Int}
    (ended : counts.write2disk buf core.session.diskWriteBufLen results = some (r, after)) :
    diskStep forceDisconnectSeconds ticks r.toNat core =
      diskStep forceDisconnectSeconds ticks core.session.diskWriteBufLen core := by
  rw [(write2disk_cases ended).2.1, Int.toNat_natCast]

theorem diskStep_isSome (forceDisconnectSeconds ticks : Nat) {written : Nat} {core : Core}
    (bounded : written ≤ core.session.diskWriteBufLen) (there : core.disk ≠ .freed) :
    (diskStep forceDisconnectSeconds ticks written core).isSome = true := by
  cases pc : core.disk <;> simp only [diskStep, pc]
  case freed => exact absurd pc there
  case scan =>
    split
    · rfl
    · split <;> rfl
  case pending => split <;> rfl
  case claim =>
    split
    · rfl
    · split <;> rfl
  case write buf =>
    rw [if_pos bounded]
    rfl
  all_goals rfl

theorem DiskStepped.leads {ticks written : Nat} {core after : Core}
    (stepped : DiskStepped ticks written core after) :
    after.disk = .scan ∨ after.disk = .freed ∨ after.disk.remaining < core.disk.remaining := by
  cases stepped with
  | free _ _ _ => exact .inr (.inl rfl)
  | setFlag _ => exact .inl rfl
  | nothing _ _ => exact .inl rfl
  | visit pc next =>
      rcases next with rfl | rfl
      · exact .inr (.inr (by simp [pc, DiskPc.remaining]))
      · exact .inr (.inr (by simp [pc, DiskPc.remaining]))
  | @finish count _ =>
      obtain ⟨_, _, ⟨_, after⟩ | ⟨_, _, after⟩ | ⟨_, _, after⟩⟩ :=
        afterWrite_cases ticks count core
      · exact .inl (congrArg Core.disk after)
      · exact .inl (congrArg Core.disk after)
      · exact .inr (.inl (congrArg Core.disk after))
  | stay pc | flush pc | clearFlag pc | due pc _ | notDue pc | submit pc _ _ | refused pc _
  | claim pc _ _ | write pc _ | complete pc =>
      exact .inr (.inr (by simp [pc, DiskPc.remaining]))

theorem diskStep_next (forceDisconnectSeconds ticks : Nat) {written : Nat} {core : Core}
    (bounded : written ≤ core.session.diskWriteBufLen) (there : core.disk ≠ .freed) :
    ∃ after, diskStep forceDisconnectSeconds ticks written core = some after ∧
      (after.disk = .scan ∨ after.disk = .freed ∨
        after.disk.remaining < core.disk.remaining) := by
  obtain ⟨after, stepped⟩ := Option.isSome_iff_exists.mp
    (diskStep_isSome forceDisconnectSeconds ticks bounded there)
  refine ⟨after, stepped, ?_⟩
  by_cases forced : core.disk = .scan ∧ forceDue forceDisconnectSeconds ticks core.session = true
  · simp only [diskStep, forced.1, forced.2, if_true, Option.some.injEq] at stepped
    rw [← stepped, delSession]
    split
    · exact .inl forced.1
    · exact .inr (.inl rfl)
  · have unforced : core.disk = .scan →
        forceDue forceDisconnectSeconds ticks core.session = false := by
      intro scanning
      exact Bool.eq_false_iff.mpr fun due => forced ⟨scanning, due⟩
    rw [diskStep_unforced unforced] at stepped
    exact (diskStep_cases stepped).leads

/-- What a visit finds where no other thread's step comes between: only `write2disk` sets
`disk_io_in_progress`, and what it is called for is there. -/
def Undisturbed (core : Core) : Prop :=
  match core.disk with
  | .claim => core.session.diskIoInProgress = false ∧ core.session.diskBuf ≠ none ∧
      1 ≤ core.session.diskWriteBufLen
  | .write _ => 1 ≤ core.session.diskWriteBufLen
  | .complete _ written => 1 ≤ written
  | .finish written => core.session.diskIoInProgress = false ∧ 1 ≤ written
  | _ => core.session.diskIoInProgress = false

theorem delSession_undisturbed {core : Core} (pc : core.disk = .scan)
    (idle : core.session.diskIoInProgress = false) : Undisturbed (delSession core true) := by
  simp only [delSession]
  split
  · simp only [Undisturbed, freeSessionStep1, pc, delayFree]
    split <;> exact idle
  · exact idle

theorem DiskStepped.undisturbed {ticks : Nat} {core after : Core}
    (stepped : DiskStepped ticks core.session.diskWriteBufLen core after)
    (before : Undisturbed core) : Undisturbed after := by
  cases stepped with
  | free pc _ _ | stay pc | clearFlag pc | due pc _ | notDue pc | setFlag pc | nothing pc _ =>
      simp only [Undisturbed, pc] at before
      exact before
  | visit pc next =>
      simp only [Undisturbed, pc] at before
      rcases next with rfl | rfl <;> exact before
  | flush pc =>
      simp only [Undisturbed, pc] at before
      simp only [Undisturbed, forceFlush]
      split <;> exact before
  | submit pc pointer some_ =>
      simp only [Undisturbed, pc] at before
      refine ⟨before, ?_, some_⟩
      rw [pointer]
      exact Option.some_ne_none _
  | refused pc reason =>
      simp only [Undisturbed, pc] at before
      rcases reason with gone | busy
      · exact absurd gone before.2.1
      · rw [before.1] at busy
        contradiction
  | claim pc _ _ =>
      simp only [Undisturbed, pc] at before
      exact before.2.2
  | write pc _ =>
      simp only [Undisturbed, pc] at before
      exact before
  | complete pc =>
      simp only [Undisturbed, pc] at before
      exact ⟨rfl, before⟩
  | @finish count pc =>
      simp only [Undisturbed, pc] at before
      obtain ⟨_, _, ⟨-, outcome⟩ | ⟨-, -, outcome⟩ | ⟨-, -, outcome⟩⟩ :=
        afterWrite_cases ticks count core <;> rw [outcome] <;> exact before.1

theorem undisturbed_step {forceDisconnectSeconds ticks : Nat} {core after : Core}
    (before : Undisturbed core)
    (stepped : diskStep forceDisconnectSeconds ticks core.session.diskWriteBufLen core =
      some after) : Undisturbed after := by
  by_cases forced : core.disk = .scan ∧ forceDue forceDisconnectSeconds ticks core.session = true
  · simp only [diskStep, forced.1, forced.2, if_true, Option.some.injEq] at stepped
    simp only [Undisturbed, forced.1] at before
    exact stepped ▸ delSession_undisturbed forced.1 before
  · have unforced : core.disk = .scan →
        forceDue forceDisconnectSeconds ticks core.session = false := by
      intro scanning
      exact Bool.eq_false_iff.mpr fun due => forced ⟨scanning, due⟩
    rw [diskStep_unforced unforced] at stepped
    exact (diskStep_cases stepped).undisturbed before

theorem Undisturbed.succeeds {core : Core} (undisturbed : Undisturbed core) :
    DiskEvent.ofStep core ≠ some .failedFinishedDiskIo := by
  simp only [DiskEvent.ofStep]
  split
  · nofun
  · split <;> nofun
  · rename_i written pc
    simp only [Undisturbed, pc] at undisturbed
    rw [if_pos (by omega)]
    nofun
  · nofun

def DiskEvent.countedAt : DiskEvent → Nat
  | .succSubmitDiskIoTimerExpireForced => 8
  | .succSubmitDiskIo => 5
  | .succFinishedDiskIo => 1
  | .failedFinishedDiskIo => 1

theorem countedAt_ofStep {core : Core} {event : DiskEvent}
    (counted : DiskEvent.ofStep core = some event) :
    event.countedAt = core.disk.remaining := by
  simp only [DiskEvent.ofStep] at counted
  split at counted
  · rename_i pc
    rw [← Option.some.inj counted, pc]
    rfl
  · rename_i pc
    split at counted
    · contradiction
    · rw [← Option.some.inj counted, pc]
      rfl
  · rename_i pc
    rw [← Option.some.inj counted, pc]
    split <;> rfl
  · contradiction

/-- A part of a scan that counts each event once where it happens, and none of them more
often than `most` says. -/
structure Counted (most : DiskEvent → Nat) (scan after : Scan) : Prop where
  counted : ∃ events, after.events = scan.events ++ events ∧
    ∀ event, after.stat.value event = scan.stat.value event + events.count event ∧
      events.count event ≤ most event

theorem Counted.refl (scan : Scan) : Counted (fun _ => 0) scan scan :=
  ⟨[], by simp, fun event => by simp⟩

theorem Counted.trans {first second most : DiskEvent → Nat} {scan middle after : Scan}
    (leading : Counted first scan middle) (trailing : Counted second middle after)
    (enough : ∀ event, first event + second event ≤ most event) : Counted most scan after := by
  obtain ⟨early, grown, counts⟩ := leading
  obtain ⟨late, grownOn, countsOn⟩ := trailing
  refine ⟨early ++ late, by rw [grownOn, grown, List.append_assoc], ?_⟩
  intro event
  have one := counts event
  have two := countsOn event
  have both := enough event
  rw [List.count_append]
  constructor
  · rw [two.1, one.1]
    push_cast
    ring
  · omega

theorem Counted.mono {most more : DiskEvent → Nat} {scan after : Scan}
    (counted : Counted most scan after) (enough : ∀ event, most event ≤ more event) :
    Counted more scan after :=
  (Counted.refl scan).trans counted fun event => by simpa using enough event

theorem Scan.stays_keeps (scan : Scan) (before after : DiskPc) :
    (scan.stays before after).stat = scan.stat ∧
      (scan.stays before after).events = scan.events := by
  simp only [Scan.stays]
  split <;> exact ⟨rfl, rfl⟩

/-- How often at most a visit counts an event from here on; a failed write never. -/
def mostFrom (steps : Nat) (event : DiskEvent) : Nat :=
  if event.countedAt ≤ steps ∧ event ≠ .failedFinishedDiskIo then 1 else 0

theorem counted_step (scan : Scan) {core : Core} (undisturbed : Undisturbed core) (after : DiskPc) :
    Counted (fun event =>
        if event.countedAt = core.disk.remaining ∧ event ≠ .failedFinishedDiskIo then 1 else 0)
      scan ((scan.record (DiskEvent.ofStep core)).stays core.disk after) := by
  obtain ⟨stat, events⟩ := (scan.record (DiskEvent.ofStep core)).stays_keeps core.disk after
  cases happened : DiskEvent.ofStep core with
  | none =>
      rw [happened] at stat events
      refine ⟨[], by rw [events, List.append_nil]; rfl, fun event => ?_⟩
      rw [stat]
      simp [Scan.record]
  | some counted =>
      have succeeds : counted ≠ .failedFinishedDiskIo := by
        rintro rfl
        exact undisturbed.succeeds happened
      rw [happened] at stat events
      refine ⟨[counted], events, fun event => ?_⟩
      rw [stat, List.count_singleton]
      simp only [Scan.record, DiskIoCounters.value_increment, beq_iff_eq]
      refine ⟨by split <;> rfl, ?_⟩
      by_cases same : counted = event
      · rw [if_pos same, ← same, if_pos ⟨countedAt_ofStep happened, succeeds⟩]
      · rw [if_neg same]
        exact Nat.zero_le _

theorem visitSession_counted (forceDisconnectSeconds ticks : Nat) {fuel : Nat} {core : Core}
    (there : core.disk ≠ .freed) (undisturbed : Undisturbed core)
    (enough : core.disk.remaining ≤ fuel) (scan : Scan) :
    ∃ last after,
      visitSession forceDisconnectSeconds ticks fuel core scan = some (last, after) ∧
      last.session.diskIoInProgress = false ∧
      Counted (mostFrom core.disk.remaining) scan after := by
  induction fuel generalizing core scan with
  | zero =>
      have positive : 0 < core.disk.remaining := by
        cases pc : core.disk <;> simp_all [DiskPc.remaining]
      omega
  | succ fuel ih =>
      obtain ⟨next, stepped, leads⟩ := diskStep_next forceDisconnectSeconds ticks
        (Nat.le_refl core.session.diskWriteBufLen) there
      have here := counted_step scan undisturbed next.disk
      have follows := undisturbed_step undisturbed stepped
      simp only [visitSession, stepped, Option.bind_some]
      by_cases ended : next.disk = .scan ∨ next.disk = .freed
      · rw [if_pos ended]
        refine ⟨_, _, rfl, ?_, here.mono fun event => ?_⟩
        · rcases ended with pc | pc <;> simpa only [Undisturbed, pc] using follows
        · simp only [mostFrom]
          grind
      · rw [if_neg ended]
        have fewer : next.disk.remaining < core.disk.remaining := by tauto
        obtain ⟨last, after, visited, idle, later⟩ := ih (fun freed => ended (.inr freed)) follows
          (by omega) ((scan.record (DiskEvent.ofStep core)).stays core.disk next.disk)
        refine ⟨last, after, visited, idle, here.trans later fun event => ?_⟩
        simp only [mostFrom]
        grind

theorem scanTable_counted (forceDisconnectSeconds ticks : Nat) {sessions : List Session}
    (idle : ∀ session ∈ sessions, session.diskIoInProgress = false) (scan : Scan) :
    Counted (fun event => if event = .failedFinishedDiskIo then 0 else sessions.length) scan
      (scanTable forceDisconnectSeconds ticks sessions scan) := by
  induction sessions generalizing scan with
  | nil => exact (Counted.refl scan).mono fun event => Nat.zero_le _
  | cons session rest ih =>
      have starts : (⟨session, .scan, [], 0⟩ : Core).disk ≠ .freed := by simp
      obtain ⟨last, after, visited, -, counted⟩ := visitSession_counted forceDisconnectSeconds ticks
        starts (idle session List.mem_cons_self) (Nat.le_refl 10) scan
      have here : scanSession forceDisconnectSeconds ticks scan session = after := by
        simp only [scanSession, visited]
      rw [← here] at counted
      refine counted.trans (ih (fun other later => idle other (List.mem_cons_of_mem _ later)) _)
        fun event => ?_
      simp only [List.length_cons, mostFrom]
      grind

structure Gstats where
  ticks : Nat
  lastReportTick : Nat
  diskIoThreadsBusyLoops : Nat
  lastDiskIoThreadsBusyLoops : Nat
  snapshotSessionAlive : Int
  period : DiskIoCounters
  deriving DecidableEq, Repr

-- the numbers of a printed row; the `period_` values stand there divided by `diffTicks`
structure Row where
  upSecs : Nat
  alive : Int
  period : DiskIoCounters
  busyPollLoops : Nat
  diffTicks : Nat
  deriving DecidableEq, Repr

def periodicRow (gstats : Gstats) : Row where
  upSecs := gstats.ticks
  alive := gstats.snapshotSessionAlive
  period := gstats.period
  busyPollLoops := gstats.diskIoThreadsBusyLoops - gstats.lastDiskIoThreadsBusyLoops
  diffTicks := gstats.ticks - gstats.lastReportTick

-- `period_succ_finished_disk_io` is cleared twice
def clearPeriod (counters : DiskIoCounters) : DiskIoCounters :=
  let counters := { counters with succSubmitDiskIoTimerExpireForced := 0 }
  let counters := { counters with succSubmitDiskIo := 0 }
  let counters := { counters with succFinishedDiskIo := 0 }
  { counters with succFinishedDiskIo := 0 }

def periodicCounters (gstats : Gstats) : Option Row × Gstats :=
  let gstats := { gstats with ticks := gstats.ticks + 1 }
  if gstats.ticks % 10 ≠ 0 then (none, gstats)
  else (some (periodicRow gstats),
    { gstats with
      lastReportTick := gstats.ticks
      lastDiskIoThreadsBusyLoops := gstats.diskIoThreadsBusyLoops
      period := clearPeriod gstats.period })

-- the top of the `while (1)` of `disk_write_thread`
def publish (scan : Scan) (gstats : Gstats) : Gstats :=
  { gstats with
    snapshotSessionAlive := scan.sessionAlive
    diskIoThreadsBusyLoops := scan.busyLoops
    period := gstats.period.fetchAdd scan.stat }

structure Reporting where
  gstats : Gstats
  rows : List Row
  /-- What has happened in all scans. -/
  events : List DiskEvent

def startReporting : Reporting := ⟨⟨0, 0, 0, 0, 0, .zero⟩, [], []⟩

inductive ReportStep
  | diskScan (sessions : List Session) -- those that the scan finds
  | periodic

def scanned (forceDisconnectSeconds : Nat) (reporting : Reporting) (sessions : List Session) :
    Scan :=
  scanTable forceDisconnectSeconds reporting.gstats.ticks sessions
    ⟨0, reporting.gstats.diskIoThreadsBusyLoops, .zero, []⟩

/-- A scan is taken as one step, the publication of its counts included. It finds no write in
progress, as none leaves one behind (`visitSession_counted`). -/
def Reporting.step (forceDisconnectSeconds : Nat) (reporting : Reporting) :
    ReportStep → Option Reporting
  | .diskScan sessions =>
      if sessions.length ≤ nrMaxThreads * maxConnPerThread ∧
          ∀ session ∈ sessions, session.diskIoInProgress = false then
        let scan := scanned forceDisconnectSeconds reporting sessions
        some { reporting with
          gstats := publish scan reporting.gstats
          events := reporting.events ++ scan.events }
      else none
  | .periodic =>
      let (row, gstats) := periodicCounters reporting.gstats
      some { reporting with gstats := gstats, rows := reporting.rows ++ row.toList }

def reportingMachine (forceDisconnectSeconds : Nat) : Machine Reporting ReportStep where
  init reporting := reporting = startReporting
  step := Reporting.step forceDisconnectSeconds

def Reporting.shown (reporting : Reporting) (event : DiskEvent) : Int :=
  (reporting.rows.map fun row => row.period.value event).sum

/-- Every event is in a printed row or in the counter, and in one of them only. -/
def Reporting.Conserved (reporting : Reporting) : Prop :=
  ∀ event, reporting.shown event + reporting.gstats.period.value event =
    reporting.events.count event

/-- A scan takes no counter past `INT_MAX`. -/
def Reporting.Fits (forceDisconnectSeconds : Nat) (reporting : Reporting) : ReportStep → Prop
  | .diskScan sessions => ∀ event, reporting.gstats.period.value event +
      (scanned forceDisconnectSeconds reporting sessions).events.count event < 2147483648
  | .periodic => True

theorem stat_in_range (forceDisconnectSeconds : Nat) (reporting : Reporting)
    {sessions : List Session} (idle : ∀ session ∈ sessions, session.diskIoInProgress = false)
    (event : DiskEvent) :
    (scanned forceDisconnectSeconds reporting sessions).stat.value event =
        (scanned forceDisconnectSeconds reporting sessions).events.count event ∧
      (scanned forceDisconnectSeconds reporting sessions).events.count event ≤
        if event = .failedFinishedDiskIo then 0 else sessions.length := by
  obtain ⟨events, grown, counts⟩ := scanTable_counted forceDisconnectSeconds
    reporting.gstats.ticks idle ⟨0, reporting.gstats.diskIoThreadsBusyLoops, .zero, []⟩
  have total : (scanned forceDisconnectSeconds reporting sessions).events = events := grown
  obtain ⟨exact_count, few⟩ := counts event
  refine ⟨?_, total ▸ few⟩
  rw [total, scanned, exact_count]
  simp

theorem value_clearPeriod (counters : DiskIoCounters) (event : DiskEvent) :
    (clearPeriod counters).value event =
      if event = .failedFinishedDiskIo then counters.failedFinishedDiskIo else 0 := by
  cases event <;> rfl

theorem shown_append (reporting : Reporting) (row : Row) (event : DiskEvent) :
    ({ reporting with rows := reporting.rows ++ [row] } : Reporting).shown event =
      reporting.shown event + row.period.value event := by
  simp [Reporting.shown]

structure Reporting.Ranged (reporting : Reporting) : Prop where
  conserved : reporting.Conserved
  range : ∀ event, 0 ≤ reporting.gstats.period.value event ∧
    reporting.gstats.period.value event < 2147483648
  unfailed : reporting.gstats.period.failedFinishedDiskIo = 0

theorem ranged_start : startReporting.Ranged where
  conserved := fun event => by simp [startReporting, Reporting.shown]
  range := fun event => by simp [startReporting]
  unfailed := rfl

theorem Reporting.step_cases {forceDisconnectSeconds : Nat} {reporting after : Reporting}
    {turn : ReportStep} (stepped : reporting.step forceDisconnectSeconds turn = some after) :
    (∃ sessions, turn = .diskScan sessions ∧ ∀ event,
      after.shown event = reporting.shown event ∧
        after.events.count event = reporting.events.count event +
          (scanned forceDisconnectSeconds reporting sessions).events.count event ∧
        after.gstats.period.value event = toInt32 (reporting.gstats.period.value event +
          (scanned forceDisconnectSeconds reporting sessions).events.count event) ∧
        (scanned forceDisconnectSeconds reporting sessions).events.count event ≤
          if event = .failedFinishedDiskIo then 0 else nrMaxThreads * maxConnPerThread) ∨
    (turn = .periodic ∧ after.rows = reporting.rows ∧ after.events = reporting.events ∧
      after.gstats.period = reporting.gstats.period) ∨
    (turn = .periodic ∧ after.events = reporting.events ∧
      after.gstats.period = clearPeriod reporting.gstats.period ∧
      ∀ event, after.shown event =
        reporting.shown event + reporting.gstats.period.value event) := by
  cases turn with
  | diskScan sessions =>
      simp only [Reporting.step] at stepped
      split at stepped
      · rename_i found
        refine .inl ⟨sessions, rfl, fun event => ?_⟩
        obtain ⟨value, few⟩ := stat_in_range forceDisconnectSeconds reporting found.2 event
        rw [← Option.some.inj stepped]
        refine ⟨rfl, List.count_append .., ?_, few.trans ?_⟩
        · rw [← value]
          exact DiskIoCounters.value_fetchAdd ..
        · split
          · exact le_rfl
          · exact found.1
      · contradiction
  | periodic =>
      simp only [Reporting.step, periodicCounters] at stepped
      split at stepped
      · rw [← Option.some.inj stepped]
        exact .inr (.inl ⟨rfl, List.append_nil _, rfl, rfl⟩)
      · rw [← Option.some.inj stepped]
        exact .inr (.inr ⟨rfl, rfl, rfl, fun event => shown_append ..⟩)

theorem conserved_step_iff {forceDisconnectSeconds : Nat} {reporting after : Reporting}
    {turn : ReportStep} (ranged : reporting.Ranged)
    (stepped : reporting.step forceDisconnectSeconds turn = some after) :
    after.Conserved ↔ reporting.Fits forceDisconnectSeconds turn := by
  obtain ⟨sessions, rfl, effect⟩ | ⟨rfl, rows, events, period⟩ | ⟨rfl, events, period, shown⟩ :=
    Reporting.step_cases stepped
  · refine forall_congr' fun event => ?_
    obtain ⟨shown, count, value, -⟩ := effect event
    have before := ranged.conserved event
    have range := (ranged.range event).1
    rw [shown, count, value]
    push_cast
    constructor
    · intro sum
      have kept : toInt32 (reporting.gstats.period.value event +
          (scanned forceDisconnectSeconds reporting sessions).events.count event) =
          reporting.gstats.period.value event +
            (scanned forceDisconnectSeconds reporting sessions).events.count event := by
        omega
      exact kept ▸ (toInt32_range _).2
    · intro small
      rw [toInt32_of_range (by omega) small]
      omega
  · refine iff_of_true (fun event => ?_) trivial
    rw [Reporting.shown, rows, events, period]
    exact ranged.conserved event
  · refine iff_of_true (fun event => ?_) trivial
    rw [shown event, events, period, value_clearPeriod, ranged.unfailed, ite_self, add_zero]
    exact ranged.conserved event

theorem ranged_step {forceDisconnectSeconds : Nat} {reporting after : Reporting}
    {turn : ReportStep} (ranged : reporting.Ranged)
    (fits : reporting.Fits forceDisconnectSeconds turn)
    (stepped : reporting.step forceDisconnectSeconds turn = some after) : after.Ranged := by
  have conserved := (conserved_step_iff ranged stepped).mpr fits
  obtain ⟨sessions, rfl, effect⟩ | ⟨rfl, rows, events, period⟩ | ⟨rfl, events, period, shown⟩ :=
    Reporting.step_cases stepped
  · refine ⟨conserved, fun event => ?_, ?_⟩
    · have small := fits event
      have range := ranged.range event
      rw [(effect event).2.2.1, toInt32_of_range (by omega) small]
      omega
    · obtain ⟨-, -, value, none⟩ := effect .failedFinishedDiskIo
      rw [if_pos rfl, Nat.le_zero] at none
      rw [none] at value
      refine value.trans ?_
      rw [show reporting.gstats.period.value .failedFinishedDiskIo = 0 from ranged.unfailed]
      rfl
  · exact ⟨conserved, period ▸ ranged.range, period ▸ ranged.unfailed⟩
  · refine ⟨conserved, fun event => ?_, ?_⟩
    · rw [period, value_clearPeriod, ranged.unfailed, ite_self]
      decide
    · rw [period]
      exact ranged.unfailed

def pendingByte : Session :=
  { getNewSession 0 0 with diskBuf := some .buf2, diskWriteBufLen := 1 }

theorem scanned_pendingByte {reporting : Reporting} (early : reporting.gstats.ticks = 0) :
    (scanned 0 reporting [pendingByte]).events = [.succSubmitDiskIo, .succFinishedDiskIo] := by
  rw [scanned, early]
  rfl

theorem run_scans (scans : Nat) :
    ∃ last, (reportingMachine 0).run startReporting
        (List.replicate scans (.diskScan [pendingByte])) = some last ∧
      last.rows = [] ∧ last.gstats.ticks = 0 ∧ last.events.count .succFinishedDiskIo = scans ∧
      last.gstats.period.value .succFinishedDiskIo < 2147483648 := by
  induction scans with
  | zero => exact ⟨startReporting, rfl, rfl, rfl, rfl, by decide⟩
  | succ scans ih =>
      obtain ⟨before, ran, rows, ticks, counted, -⟩ := ih
      have found : [pendingByte].length ≤ nrMaxThreads * maxConnPerThread ∧
          ∀ session ∈ [pendingByte], session.diskIoInProgress = false := by
        simp [pendingByte, getNewSession, nrMaxThreads, maxConnPerThread]
      have stepped : (reportingMachine 0).step before (.diskScan [pendingByte]) =
          some { before with
            gstats := publish (scanned 0 before [pendingByte]) before.gstats
            events := before.events ++ (scanned 0 before [pendingByte]).events } := by
        simp only [reportingMachine, Reporting.step]
        exact if_pos found
      rw [List.replicate_succ']
      refine ⟨_, Machine.run_trans ran ((Machine.run_cons stepped []).trans rfl), rows, ticks,
        ?_, ?_⟩
      · rw [List.count_append, counted, scanned_pendingByte ticks]
        rfl
      · simp only [publish, DiskIoCounters.value_fetchAdd]
        exact (toInt32_range _).2

end DirtyCode.LogCollect
