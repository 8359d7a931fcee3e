import DirtyCode.MemoryInfo.ZoneSections

/-!
Which sections the values of a report come from, and when every `Normal` zone is reported
from its own.
-/

namespace DirtyCode.MemoryInfo

open Lib

/-- The three values come from the section of the header. -/
def Report.Complete (report : Report) : Prop :=
  report.free.zone = some report.zone ∧ report.low.zone = some report.zone ∧
    report.inact.zone = some report.zone

instance (report : Report) : Decidable report.Complete := inferInstanceAs (Decidable (_ ∧ _))

def Got.From (number : Nat) (got : Got) : Prop := ∀ zone, got.zone = some zone → zone = number

structure Fields.From (number : Nat) (fields : Fields) : Prop where
  freePage : fields.freePage.From number
  low : fields.low.From number
  nrInactiveFile : fields.nrInactiveFile.From number

structure Report.From (number : Nat) (report : Report) : Prop where
  free : report.free.From number
  low : report.low.From number
  inact : report.inact.From number

def Mode.From (number : Nat) : Mode → Prop
  | .outer => True
  | .fields found => found.From number
  | .low found _ => found.From number

theorem from_here (number : Nat) (value : Int) : Got.From number ⟨value, some number⟩ :=
  fun _ same => (Option.some.inj same).symm

theorem from_none (number : Nat) (value : Int) : Got.From number ⟨value, none⟩ :=
  fun _ same => by contradiction

theorem endOfPass_from {number : Nat} {fields : Fields} (from_ : fields.From number) :
    (endOfPass fields).1.From number ∧ ∀ report ∈ (endOfPass fields).2, report.From number := by
  rw [endOfPass]
  split
  · exact ⟨trivial, List.forall_mem_singleton.mpr ⟨from_.freePage, from_.low, from_.nrInactiveFile⟩⟩
  · split
    · exact ⟨from_, List.forall_mem_nil _⟩
    · exact ⟨trivial, List.forall_mem_nil _⟩

theorem takeInactive_from (name : String) {number : Nat} (ptr : Bytes) {fields : Fields}
    (from_ : fields.From number) : (takeInactive name number ptr fields).From number := by
  rw [takeInactive]
  split
  · split
    · exact { from_ with nrInactiveFile := from_here number _ }
    · exact from_
  · exact from_

theorem step_from {number : Nat} {mode : Mode} (from_ : mode.From number) (line : Bytes) :
    (step number line mode).1.From number ∧
      ∀ report ∈ (step number line mode).2, report.From number := by
  cases mode with
  | outer =>
      simp only [step, outerLine]
      split
      · split
        · exact ⟨⟨from_none number 0, from_none number 0, from_none number (-1)⟩,
            List.forall_mem_nil _⟩
        · exact ⟨trivial, List.forall_mem_nil _⟩
      · exact ⟨trivial, List.forall_mem_nil _⟩
  | fields found =>
      have taken := takeInactive_from "nr_inactive_file" (unindented line)
        (takeInactive_from "nr_zone_inactive_file" (unindented line) from_)
      simp only [step, fieldsLine]
      rw [← unindented]
      split
      · split
        · exact ⟨{ taken with freePage := from_here number _ }, List.forall_mem_nil _⟩
        · exact ⟨trivial, List.forall_mem_nil _⟩
      · exact endOfPass_from taken
  | low found sub =>
      have begun : found.From number := from_
      simp only [step, lowLine]
      split
      · exact endOfPass_from { begun with low := from_here number _ }
      · split
        · exact ⟨begun, List.forall_mem_nil _⟩
        · exact endOfPass_from begun

theorem run_from {number : Nat} {mode : Mode} (from_ : mode.From number) (lines : List Bytes) :
    ∀ report ∈ (run mode (lines.map fun line => (number, line))).2, report.From number := by
  induction lines generalizing mode with
  | nil => exact List.forall_mem_nil _
  | cons line rest ih =>
      obtain ⟨later, here⟩ := step_from from_ line
      rw [List.map_cons, run]
      intro report member
      rcases List.mem_append.mp member with member | member
      · exact here report member
      · exact ih later report member

/-- A section's own report is complete when its two fields are of different kinds. -/
theorem Report.EndedBy.complete_iff {number : Nat} {node : Int} {found : List Kind}
    {report : Report} (ended : report.EndedBy number node number found)
    (from_ : report.From number) : report.Complete ↔ Both found := by
  constructor
  · rintro ⟨_, low, inact⟩
    exact ⟨ended.low.mp (by rw [low]; rfl), ended.inactive.mp (by rw [inact]; rfl)⟩
  · rintro ⟨low, inactive⟩
    have own : ∀ got : Got, got.From number → got.zone.isSome = true →
        got.zone = some report.zone := by
      intro got here there
      obtain ⟨zone, found⟩ := Option.isSome_iff_exists.mp there
      rw [found, here zone found, ended.zone]
    exact ⟨own _ from_.free (ended.free low), own _ from_.low (ended.low.mpr low),
      own _ from_.inact (ended.inactive.mpr inactive)⟩

theorem Report.EndedBy.not_complete {zone number : Nat} {node : Int} {found : List Kind}
    {report : Report} (ended : report.EndedBy zone node number found) (other : zone ≠ number) :
    ¬report.Complete := by
  rintro ⟨_, low, inact⟩
  rw [ended.zone] at low inact
  rcases ended.last with last | last
  · rw [last] at low
    exact other (Option.some.inj low).symm
  · rw [last] at inact
    exact other (Option.some.inj inact).symm

theorem reports_append (mode : Mode) (first second : List (Nat × Bytes)) :
    reports mode (first ++ second) =
      (run mode first).2 ++ reports (run mode first).1 second := by
  rw [reports, reports, run_append, List.append_assoc]

theorem Mode.Wants.finish {zone : Nat} {node : Int} {want : Wanting} {mode : Mode}
    (wants : mode.Wants zone node want) : DirtyCode.MemoryInfo.finish mode = [] := by
  cases mode with
  | outer => exact wants.elim
  | fields found => rfl
  | low found sub =>
      have begun := wants.1
      have count := begun.tallied.count
      have fewer := begun.fewer
      rw [DirtyCode.MemoryInfo.finish, endOfPass, if_neg (by omega), if_pos (by omega)]

/-- What the loops are looking for between two sections, for an earlier header if any. -/
def Follows (number : Nat) : Mode → Option Wanting → Prop
  | mode, none => mode = .outer
  | mode, some want => ∃ zone node, zone < number ∧ mode.Wants zone node want

theorem follows_outer (number : Nat) : Follows number .outer none := rfl

theorem Mode.Wants.follows {zone number : Nat} {node : Int} {want : Wanting} {mode : Mode}
    (wants : mode.Wants zone node want) (earlier : zone < number) :
    Follows number mode (some want) := ⟨zone, node, earlier, wants⟩

def Mode.zone? : Mode → Option Nat
  | .outer => none
  | .fields found => some found.zone
  | .low found _ => some found.zone

theorem Mode.Wants.zone_eq {zone : Nat} {node : Int} {want : Wanting} {mode : Mode}
    (wants : mode.Wants zone node want) : mode.zone? = some zone := by
  cases mode with
  | outer => exact wants.elim
  | fields found => exact congrArg some wants.1.zone
  | low found sub => exact congrArg some wants.1.zone

theorem reports_nil {mode : Mode} {want : Option Wanting} {number : Nat}
    (follows : Follows number mode want) : reports mode [] = [] := by
  cases want with
  | none =>
      obtain rfl : mode = .outer := follows
      rfl
  | some want =>
      obtain ⟨zone, node, _, wants⟩ := follows
      exact wants.finish

/-- What is reported from here on is reported for these sections, or with a value from
them for the header that the loops read for. -/
def ReportsLater (number : Nat) (zones : List Zone) : Prop :=
  ∀ mode want, Follows number mode want → ∀ report ∈ reports mode (stamped number zones),
    number ≤ report.zone ∨ (mode.zone? = some report.zone ∧ ¬report.Complete)

section

variable {number : Nat} {zone : Zone} {rest : List Zone}

theorem ReportsLater.outer (later : ReportsLater number rest) :
    ∀ report ∈ reports .outer (stamped number rest), number ≤ report.zone := by
  intro report member
  rcases later .outer none (follows_outer number) report member with behind | ⟨nobody, _⟩
  · exact behind
  · simp [Mode.zone?] at nobody

theorem ReportsLater.header (later : ReportsLater (number + 1) rest) :
    ∀ report ∈ reports .outer (stamped number (zone :: rest)), number ≤ report.zone := by
  rw [stamped, reports_append]
  intro report member
  cases normal : zone.normal with
  | false =>
      rw [reading_other normal] at member
      exact Nat.le_of_succ_le (later.outer report member)
  | true =>
      have reading := reading_normal normal number
      generalize run .outer (zone.lines number) = read at reading member
      generalize lookAt .start zone.body = outcome at reading
      cases reading with
      | wanting still =>
          have follows := still.follows (Nat.lt_succ_self number)
          rcases later _ _ follows report member with behind | ⟨same, _⟩
          · exact Nat.le_of_succ_le behind
          · rw [still.zone_eq, Option.some.injEq] at same
            exact same.le
      | gaveUp => exact Nat.le_of_succ_le (later.outer report member)
      | pair ended =>
          rcases List.mem_cons.mp member with rfl | member
          · exact ended.zone.ge
          · exact Nat.le_of_succ_le (later.outer report member)

theorem ReportsLater.past (later : ReportsLater (number + 1) rest) {began : Nat} {node : Int}
    {want : Wanting} {mode : Mode} (wants : mode.Wants began node want) (earlier : began < number) :
    ∀ report ∈ reports mode (stamped number (zone :: rest)),
      number ≤ report.zone ∨ (mode.zone? = some report.zone ∧ ¬report.Complete) := by
  rw [stamped, reports_append]
  intro report member
  have reading := reading_past wants zone number
  generalize run mode (zone.lines number) = read at reading member
  generalize lookAt want (zone.header :: zone.body) = outcome at reading
  cases reading with
  | wanting still =>
      have follows := still.follows (Nat.lt_succ_of_lt earlier)
      rcases later _ _ follows report member with behind | ⟨same, incomplete⟩
      · exact .inl (Nat.le_of_succ_le behind)
      · rw [still.zone_eq] at same
        exact .inr ⟨wants.zone_eq.trans same, incomplete⟩
  | gaveUp => exact .inl (Nat.le_of_succ_le (later.outer report member))
  | pair ended =>
      rcases List.mem_cons.mp member with rfl | member
      · exact .inr ⟨by rw [wants.zone_eq, ended.zone], ended.not_complete earlier.ne⟩
      · exact .inl (Nat.le_of_succ_le (later.outer report member))

end

theorem reports_later (number : Nat) (zones : List Zone) : ReportsLater number zones := by
  induction zones generalizing number with
  | nil =>
      intro mode want follows
      rw [stamped, reports_nil follows]
      exact List.forall_mem_nil _
  | cons zone rest ih =>
      intro mode want follows report member
      cases want with
      | none =>
          obtain rfl : mode = .outer := follows
          exact .inl ((ih (number + 1)).header report member)
      | some want =>
          obtain ⟨began, node, earlier, wants⟩ := follows
          exact (ih (number + 1)).past wants earlier report member

/-- The three values of a report come from the section of the `Normal` zone that it names. -/
def Owned (number : Nat) (zones : List Zone) (report : Report) : Prop :=
  number ≤ report.zone ∧ ∃ zone, zones[report.zone - number]? = some zone ∧
    zone.normal = true ∧ zone.node = report.node ∧ report.Complete

/-- Every section that has the fields of a report is reported. -/
def Served (number : Nat) (zones : List Zone) (reports : List Report) : Prop :=
  ∀ index zone, zones[index]? = some zone → zone.HasFields →
    ∃ report ∈ reports, report.zone = number + index

structure RightFrom (number : Nat) (zones : List Zone) (reports : List Report) : Prop where
  own : ∀ report ∈ reports, Owned number zones report
  once : (reports.map Report.zone).Nodup
  all : Served number zones reports

section

variable {number : Nat} {zone : Zone} {rest : List Zone}

theorem owned_behind {report : Report} (behind : number + 1 ≤ report.zone) :
    Owned number (zone :: rest) report ↔ Owned (number + 1) rest report := by
  obtain ⟨offset, place⟩ := Nat.exists_eq_add_of_le behind
  have first : report.zone - number = offset + 1 := by omega
  have second : report.zone - (number + 1) = offset := by omega
  rw [Owned, Owned, first, second, List.getElem?_cons_succ]
  exact and_congr_left fun _ => iff_of_true (Nat.le_of_succ_le behind) behind

theorem served_cons {reports : List Report} :
    Served number (zone :: rest) reports ↔
      (zone.HasFields → ∃ report ∈ reports, report.zone = number) ∧
        Served (number + 1) rest reports := by
  constructor
  · intro served
    refine ⟨served 0 zone rfl, fun index owner found full => ?_⟩
    rw [Nat.succ_add_eq_add_succ]
    exact served (index + 1) owner found full
  · rintro ⟨here, served⟩ index owner found full
    cases index with
    | zero =>
        obtain rfl : zone = owner := Option.some.inj found
        exact here full
    | succ index =>
        rw [← Nat.succ_add_eq_add_succ]
        exact served index owner found full

theorem rightFrom_passed {later : List Report}
    (behind : ∀ report ∈ later, report.zone = number → ¬report.Complete) :
    RightFrom number (zone :: rest) later ↔
      ¬zone.HasFields ∧ RightFrom (number + 1) rest later := by
  constructor
  · intro right
    have past : ∀ report ∈ later, number + 1 ≤ report.zone := by
      intro report member
      obtain ⟨lower, _, _, _, _, complete⟩ := right.own report member
      exact Nat.lt_of_le_of_ne lower fun here => behind report member here.symm complete
    obtain ⟨here, served⟩ := served_cons.mp right.all
    refine ⟨fun full => ?_, fun report member => ?_, right.once, served⟩
    · obtain ⟨report, member, place⟩ := here full
      exact absurd place (Nat.ne_of_gt (past report member))
    · exact (owned_behind (past report member)).mp (right.own report member)
  · rintro ⟨unable, right⟩
    refine ⟨fun report member => ?_, right.once,
      served_cons.mpr ⟨fun full => absurd full unable, right.all⟩⟩
    have owned := right.own report member
    exact (owned_behind owned.1).mpr owned

theorem rightFrom_reported {report : Report} {later : List Report} (normal : zone.normal = true)
    (here : report.zone = number) (named : report.node = zone.node)
    (behind : ∀ report ∈ later, number + 1 ≤ report.zone) :
    RightFrom number (zone :: rest) (report :: later) ↔
      report.Complete ∧ RightFrom (number + 1) rest later := by
  have apart : report.zone ∉ later.map Report.zone := by
    intro again
    obtain ⟨other, member, same⟩ := List.mem_map.mp again
    have past := behind other member
    omega
  constructor
  · intro right
    obtain ⟨own, owned⟩ := List.forall_mem_cons.mp right.own
    obtain ⟨_, _, _, _, _, complete⟩ := own
    refine ⟨complete, fun other member => ?_, (List.nodup_cons.mp right.once).2, ?_⟩
    · exact (owned_behind (behind other member)).mp (owned other member)
    · intro index owner found full
      obtain ⟨other, member, place⟩ := (served_cons.mp right.all).2 index owner found full
      rcases List.mem_cons.mp member with rfl | member
      · omega
      · exact ⟨other, member, place⟩
  · rintro ⟨complete, right⟩
    refine ⟨List.forall_mem_cons.mpr ⟨?_, fun other member => ?_⟩,
      List.nodup_cons.mpr ⟨apart, right.once⟩, served_cons.mpr ⟨fun _ => ?_, ?_⟩⟩
    · exact ⟨here.ge, zone, by rw [here, Nat.sub_self]; rfl, normal, named.symm, complete⟩
    · exact (owned_behind (behind other member)).mpr (right.own other member)
    · exact ⟨report, List.mem_cons_self, here⟩
    · intro index owner found full
      obtain ⟨other, member, place⟩ := right.all index owner found full
      exact ⟨other, List.mem_cons_of_mem _ member, place⟩

end

/-- Every `Normal` section whose header is not read past holds the two fields that are
found first, or a line at which the loops give up before them; where it holds neither, the
sections behind it lack what is wanted up to such a line, and none of them that is read
past has the fields of a report. -/
def Undisturbed : Option Wanting → List Zone → Prop
  | _, [] => True
  | none, zone :: rest =>
      if zone.normal then
        match lookAt .start zone.body with
        | .pair found => Both found ∧ Undisturbed none rest
        | .gaveUp => Undisturbed none rest
        | .wanting want => Undisturbed (some want) rest
      else Undisturbed none rest
  | some want, zone :: rest =>
      ¬zone.HasFields ∧
        match lookAt want (zone.header :: zone.body) with
        | .pair _ => False
        | .gaveUp => Undisturbed none rest
        | .wanting more => Undisturbed (some more) rest

section

variable {number : Nat} {zone : Zone} {rest : List Zone}

theorem rightFrom_outer :
    RightFrom number (zone :: rest) (reports .outer (stamped (number + 1) rest)) ↔
      ¬zone.HasFields ∧
        RightFrom (number + 1) rest (reports .outer (stamped (number + 1) rest)) := by
  refine rightFrom_passed fun report member here => ?_
  have behind := (reports_later (number + 1) rest).outer report member
  omega

theorem rightFrom_wants {began : Nat} {node : Int} {want : Wanting} {mode : Mode}
    (wants : mode.Wants began node want) (earlier : began ≤ number) :
    RightFrom number (zone :: rest) (reports mode (stamped (number + 1) rest)) ↔
      ¬zone.HasFields ∧
        RightFrom (number + 1) rest (reports mode (stamped (number + 1) rest)) := by
  refine rightFrom_passed fun report member here => ?_
  have follows := wants.follows (Nat.lt_succ_of_le earlier)
  rcases reports_later (number + 1) rest _ _ follows report member with behind | ⟨_, incomplete⟩
  · omega
  · exact incomplete

/-- What is read from here on is right exactly where nothing disturbs it. -/
def RightLater (number : Nat) (zones : List Zone) : Prop :=
  ∀ mode want, Follows number mode want →
    (RightFrom number zones (reports mode (stamped number zones)) ↔ Undisturbed want zones)

theorem RightLater.other (later : RightLater (number + 1) rest) (other : zone.normal = false) :
    RightFrom number (zone :: rest) (reports .outer (stamped number (zone :: rest))) ↔
      Undisturbed none (zone :: rest) := by
  have lacks : ¬zone.HasFields := fun has => Bool.false_ne_true (other.symm.trans has.1)
  rw [stamped, reports_append, reading_other other, List.nil_append, rightFrom_outer,
    later .outer none (follows_outer _), Undisturbed, other, if_neg Bool.false_ne_true]
  exact and_iff_right lacks

theorem RightLater.normal (later : RightLater (number + 1) rest) (normal : zone.normal = true) :
    RightFrom number (zone :: rest) (reports .outer (stamped number (zone :: rest))) ↔
      Undisturbed none (zone :: rest) := by
  have after_outer := later .outer none (follows_outer _)
  have reading := reading_normal normal number
  have start : Mode.outer.From number := trivial
  have own := run_from start (zone.header :: zone.body)
  have has : zone.HasFields ↔ ∃ found, lookAt .start zone.body = .pair found ∧ Both found :=
    and_iff_right normal
  rw [← Zone.lines] at own
  rw [stamped, reports_append, Undisturbed, if_pos normal]
  generalize run .outer (zone.lines number) = read at reading own
  generalize lookAt .start zone.body = outcome at reading has
  cases reading with
  | wanting still =>
      rw [List.nil_append, rightFrom_wants still le_rfl,
        later _ _ (still.follows (Nat.lt_succ_self number))]
      simp [has]
  | gaveUp =>
      rw [List.nil_append, rightFrom_outer, after_outer]
      simp [has]
  | pair ended =>
      rw [List.singleton_append,
        rightFrom_reported normal ended.zone ended.node (reports_later _ rest).outer,
        after_outer, ended.complete_iff (own _ List.mem_cons_self)]

theorem RightLater.past (later : RightLater (number + 1) rest) {began : Nat} {node : Int}
    {want : Wanting} {mode : Mode} (wants : mode.Wants began node want) (earlier : began < number) :
    RightFrom number (zone :: rest) (reports mode (stamped number (zone :: rest))) ↔
      Undisturbed (some want) (zone :: rest) := by
  have reading := reading_past wants zone number
  rw [stamped, reports_append, Undisturbed]
  generalize run mode (zone.lines number) = read at reading
  generalize lookAt want (zone.header :: zone.body) = outcome at reading
  cases reading with
  | wanting still =>
      rw [List.nil_append, rightFrom_wants still earlier.le,
        later _ _ (still.follows (Nat.lt_succ_of_lt earlier))]
  | gaveUp =>
      rw [List.nil_append, rightFrom_outer, later .outer none (follows_outer _)]
  | pair ended =>
      refine iff_of_false (fun right => ?_) fun undisturbed => undisturbed.2
      have lower := (right.own _ List.mem_cons_self).1
      have place := ended.zone
      omega

end

theorem right_later (number : Nat) (zones : List Zone) : RightLater number zones := by
  induction zones generalizing number with
  | nil =>
      intro mode want follows
      rw [stamped, reports_nil follows]
      refine iff_of_true ⟨List.forall_mem_nil _, List.nodup_nil, ?_⟩ (by cases want <;> trivial)
      intro index owner found
      simp at found
  | cons zone rest ih =>
      intro mode want follows
      cases want with
      | none =>
          obtain rfl : mode = .outer := follows
          cases normal : zone.normal with
          | false => exact (ih (number + 1)).other normal
          | true => exact (ih (number + 1)).normal normal
      | some want =>
          obtain ⟨began, node, earlier, wants⟩ := follows
          exact (ih (number + 1)).past wants earlier

/-- Every report is right, and every section with the fields of a report is reported once,
if and only if no section leaves its search to the sections behind it and is answered
there. -/
theorem zoneinfo_right_iff (content : Bytes) :
    RightFrom 1 (layout (readLines content)).zones (coreProcess content) ↔
      Undisturbed none (layout (readLines content)).zones := by
  rw [coreProcess, numbered_layout, reports_append, run_outer (layout (readLines content)).plain]
  exact right_later 1 _ .outer none (follows_outer 1)

/-- A `Normal` zone without an inactive value is reported with those of the next zone. -/
def unpopulated : Bytes := fileOf [
  ascii "Node 0, zone   Normal",
  ascii "  pages free     0",
  ascii "        min      0",
  ascii "        low      0",
  ascii "Node 0, zone  Movable",
  ascii "  pages free     500",
  ascii "        min      1",
  ascii "        low      20",
  ascii "      nr_zone_inactive_file 77"]

theorem next_zone_reported :
    coreProcess unpopulated = [⟨1, 0, ⟨500, some 2⟩, ⟨20, some 2⟩, ⟨-1, none⟩, 479⟩] ∧
      ¬RightFrom 1 (layout (readLines unpopulated)).zones (coreProcess unpopulated) := by
  have printed : coreProcess unpopulated =
      [⟨1, 0, ⟨500, some 2⟩, ⟨20, some 2⟩, ⟨-1, none⟩, 479⟩] := by decide +kernel
  refine ⟨printed, fun right => ?_⟩
  rw [printed] at right
  obtain ⟨_, _, _, _, _, complete⟩ := right.own _ List.mem_cons_self
  exact absurd complete (by decide)

end DirtyCode.MemoryInfo
