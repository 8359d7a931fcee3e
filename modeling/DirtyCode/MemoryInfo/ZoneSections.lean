import DirtyCode.MemoryInfo.Zoneinfo

/-!
The zone sections of a text, the search for the two fields of a report behind a header, and
how the loops of `coreProcess` follow it.
-/

namespace DirtyCode.MemoryInfo

open Lib

structure Zone where
  header : Bytes
  node : Int
  named : nodeOf header = some node
  body : List Bytes
  plain : ∀ line ∈ body, nodeOf line = none

structure Layout where
  prelude : List Bytes
  plain : ∀ line ∈ prelude, nodeOf line = none
  zones : List Zone

def layout : List Bytes → Layout
  | [] => ⟨[], fun _ absent => absurd absent List.not_mem_nil, []⟩
  | line :: rest =>
      let behind := layout rest
      match named : nodeOf line with
      | some node =>
          ⟨[], fun _ absent => absurd absent List.not_mem_nil,
            ⟨line, node, named, behind.prelude, behind.plain⟩ :: behind.zones⟩
      | none => ⟨line :: behind.prelude, List.forall_mem_cons.mpr ⟨named, behind.plain⟩,
          behind.zones⟩

namespace Zone

def normal (zone : Zone) : Bool := contains "Normal" zone.header

def lines (number : Nat) (zone : Zone) : List (Nat × Bytes) :=
  (zone.header :: zone.body).map fun line => (number, line)

end Zone

inductive Kind
  | low
  | inactive
  deriving DecidableEq, Repr

/-- What has been found behind a header, and in how many lines `low` is looked for next. -/
structure Wanting where
  found : List Kind
  settled : Bool -- an inactive value that is not negative has been found
  behind : Nat

def Wanting.start : Wanting := ⟨[], false, 0⟩

def unindented (line : Bytes) : Bytes := line.dropWhile fun byte => byte = 32 ∨ byte = 9

def inactiveIn (ptr : Bytes) : Option Int :=
  match (if contains "nr_zone_inactive_file" ptr then scanAfter "nr_zone_inactive_file" ptr
      else none) with
  | some value => some value
  | none => if contains "nr_inactive_file" ptr then scanAfter "nr_inactive_file" ptr else none

def lowIn (line : Bytes) : Option Int := (strstr (ascii "low") line).bind (scanAfter "low")

/-- One more line; `none`: a line with `pages free` and no number. -/
def Wanting.look (want : Wanting) (line : Bytes) : Option Wanting :=
  match want.behind with
  | left + 1 =>
      if (lowIn line).isSome then some { want with found := want.found ++ [.low], behind := 0 }
      else some { want with behind := left }
  | 0 =>
      if contains "pages free" (unindented line) then
        if (scanAfter "pages free" (unindented line)).isSome then some { want with behind := 3 }
        else none
      else
        match (if want.settled then none else inactiveIn (unindented line)) with
        | some value => some { want with
            found := want.found ++ [.inactive], settled := decide (0 ≤ value) }
        | none => some want

inductive Outcome
  | pair (found : List Kind)
  | gaveUp
  | wanting (want : Wanting)

def Wanting.next (want : Wanting) (line : Bytes) : Outcome :=
  match want.look line with
  | none => .gaveUp
  | some more => if 2 ≤ more.found.length then .pair more.found else .wanting more

/-- The lines up to the second field or to a line with `pages free` and no number. -/
def lookAt (want : Wanting) : List Bytes → Outcome
  | [] => .wanting want
  | line :: rest =>
      match want.next line with
      | .wanting more => lookAt more rest
      | .gaveUp => .gaveUp
      | .pair found => .pair found

def Both (found : List Kind) : Prop := .low ∈ found ∧ .inactive ∈ found

instance (found : List Kind) : Decidable (Both found) := inferInstanceAs (Decidable (_ ∧ _))

/-- A `Normal` zone whose section has the fields of a report. -/
def Zone.HasFields (zone : Zone) : Prop :=
  zone.normal = true ∧ ∃ found, lookAt .start zone.body = .pair found ∧ Both found

def stamped : Nat → List Zone → List (Nat × Bytes)
  | _, [] => []
  | number, zone :: rest => zone.lines number ++ stamped (number + 1) rest

theorem layout_node {line : Bytes} {node : Int} (named : nodeOf line = some node)
    (rest : List Bytes) :
    (layout (line :: rest)).prelude = [] ∧ (layout (line :: rest)).zones =
      ⟨line, node, named, (layout rest).prelude, (layout rest).plain⟩ :: (layout rest).zones := by
  rw [layout]
  split
  · rename_i other found
    obtain rfl : other = node := Option.some.inj (found.symm.trans named)
    exact ⟨rfl, rfl⟩
  · rename_i absent
    rw [named] at absent
    contradiction

theorem layout_plain {line : Bytes} (plain : nodeOf line = none) (rest : List Bytes) :
    (layout (line :: rest)).prelude = line :: (layout rest).prelude ∧
      (layout (line :: rest)).zones = (layout rest).zones := by
  rw [layout]
  split
  · rename_i found
    rw [plain] at found
    contradiction
  · exact ⟨rfl, rfl⟩

theorem numbered_layout (number : Nat) (lines : List Bytes) :
    numbered number lines = (layout lines).prelude.map (fun line => (number, line)) ++
      stamped (number + 1) (layout lines).zones := by
  induction lines generalizing number with
  | nil => rfl
  | cons line rest ih =>
      cases named : nodeOf line with
      | some node =>
          obtain ⟨prelude, zones⟩ := layout_node named rest
          rw [prelude, zones, numbered, named, ih]
          rfl
      | none =>
          obtain ⟨prelude, zones⟩ := layout_plain named rest
          rw [prelude, zones, numbered, named, ih]
          rfl

theorem run_append (mode : Mode) (first second : List (Nat × Bytes)) :
    run mode (first ++ second) =
      ((run (run mode first).1 second).1,
        (run mode first).2 ++ (run (run mode first).1 second).2) := by
  induction first generalizing mode with
  | nil => rfl
  | cons line rest ih => simp only [List.cons_append, run, ih, List.append_assoc]

theorem run_outer {number : Nat} {lines : List Bytes}
    (plain : ∀ line ∈ lines, nodeOf line = none) :
    run .outer (lines.map fun line => (number, line)) = (.outer, []) := by
  induction lines with
  | nil => rfl
  | cons line rest ih =>
      have here : step number line .outer = (.outer, []) := by
        simp only [step, outerLine, plain line List.mem_cons_self]
      rw [List.map_cons, run, here, ih fun other member =>
        plain other (List.mem_cons_of_mem _ member)]
      rfl

theorem sscanf_prefix {word : List UInt8} (solid : ∀ byte ∈ word, isSpace byte = false)
    {format : List Directive} {line : Bytes}
    (read : (sscanf (word.map .byte ++ format) line).head?.isSome = true) : word <+: line := by
  induction word generalizing line with
  | nil => exact List.nil_prefix
  | cons byte word ih =>
      simp only [List.map_cons, List.cons_append, sscanf, solid byte List.mem_cons_self,
        Bool.false_eq_true, if_false] at read
      cases line with
      | nil => simp at read
      | cons first rest =>
          by_cases same : first = byte
          · simp only [same, if_true] at read
            rw [same, List.prefix_cons_inj]
            exact ih (fun other member => solid other (List.mem_cons_of_mem _ member)) read
          · simp [same] at read

theorem scanAfter_prefix {word : String} {line : Bytes} (count : Nat)
    (solid : ∀ byte ∈ (ascii word).take count, isSpace byte = false)
    (read : (scanAfter word line).isSome = true) : (ascii word).take count <+: line := by
  rw [scanAfter, text, ← List.take_append_drop count (ascii word), List.map_append,
    List.append_assoc] at read
  exact sscanf_prefix solid read

theorem scanAfter_apart {first second : String} {line : Bytes} (count : Nat)
    (solid : ∀ byte ∈ (ascii first).take count ++ (ascii second).take count, isSpace byte = false)
    (length : ((ascii first).take count).length ≤ ((ascii second).take count).length)
    (apart : ¬(ascii first).take count <+: (ascii second).take count)
    (read : (scanAfter first line).isSome = true) : scanAfter second line = none := by
  by_contra other
  have one := scanAfter_prefix count
    (fun byte member => solid byte (List.mem_append_left _ member)) read
  have two := scanAfter_prefix count
    (fun byte member => solid byte (List.mem_append_right _ member))
    (Option.isSome_iff_ne_none.mpr other)
  exact apart (List.prefix_of_prefix_length_le one two length)

theorem takeInactive_skip {name : String} {number : Nat} {ptr : Bytes} {fields : Fields}
    (settled : 0 ≤ fields.nrInactiveFile.value) :
    takeInactive name number ptr fields = fields := by
  rw [takeInactive, if_neg fun both => absurd both.1 (Int.not_lt.mpr settled)]

theorem takeInactive_open {name : String} {number : Nat} {ptr : Bytes} {fields : Fields}
    (unsettled : fields.nrInactiveFile.value < 0) :
    takeInactive name number ptr fields =
      match (if contains name ptr then scanAfter name ptr else none) with
      | some value => { fields with
          nrInactiveFile := ⟨value, some number⟩, cntGot := fields.cntGot + 1 }
      | none => fields := by
  rw [takeInactive]
  by_cases there : contains name ptr = true
  · rw [if_pos there]
    exact if_pos ⟨unsettled, there⟩
  · rw [if_neg there]
    exact if_neg fun both => there both.2

theorem takeInactive_twice (number : Nat) (ptr : Bytes) (fields : Fields) :
    takeInactive "nr_inactive_file" number ptr
        (takeInactive "nr_zone_inactive_file" number ptr fields) =
      match (if 0 ≤ fields.nrInactiveFile.value then none else inactiveIn ptr) with
      | some value => { fields with
          nrInactiveFile := ⟨value, some number⟩, cntGot := fields.cntGot + 1 }
      | none => fields := by
  by_cases settled : 0 ≤ fields.nrInactiveFile.value
  · rw [takeInactive_skip settled, takeInactive_skip settled, if_pos settled]
  · have unsettled := Int.not_le.mp settled
    rw [if_neg settled, takeInactive_open unsettled, inactiveIn]
    cases first : (if contains "nr_zone_inactive_file" ptr then
        scanAfter "nr_zone_inactive_file" ptr else none) with
    | none => exact takeInactive_open unsettled
    | some value =>
        have read : (scanAfter "nr_zone_inactive_file" ptr).isSome = true := by
          split at first
          · rw [first]
            rfl
          · contradiction
        have other : scanAfter "nr_inactive_file" ptr = none :=
          scanAfter_apart 4 (by decide +kernel) (by decide) (by decide) read
        simp only [takeInactive, other, ite_self]

theorem inactiveIn_pages {ptr : Bytes} (read : (scanAfter "pages free" ptr).isSome = true) :
    inactiveIn ptr = none := by
  have zone : scanAfter "nr_zone_inactive_file" ptr = none :=
    scanAfter_apart 1 (by decide +kernel) (by decide) (by decide) read
  have plain : scanAfter "nr_inactive_file" ptr = none :=
    scanAfter_apart 1 (by decide +kernel) (by decide) (by decide) read
  simp only [inactiveIn, zone, plain, ite_self]

/-- The variables of the inner loops after these fields have been found. -/
structure Tallied (want : Wanting) (fields : Fields) : Prop where
  count : fields.cntGot = want.found.length
  settled : want.settled = decide (0 ≤ fields.nrInactiveFile.value)
  low : fields.low.zone.isSome = true ↔ .low ∈ want.found
  inactive : fields.nrInactiveFile.zone.isSome = true ↔ .inactive ∈ want.found
  free : .low ∈ want.found → fields.freePage.zone.isSome = true

structure Begun (zone : Nat) (node : Int) (want : Wanting) (fields : Fields) : Prop where
  zone : fields.zone = zone
  node : fields.zoneid = node
  tallied : Tallied want fields
  fewer : want.found.length < 2

def Mode.Wants (zone : Nat) (node : Int) (want : Wanting) : Mode → Prop
  | .outer => False
  | .fields found => Begun zone node want found ∧ want.behind = 0
  | .low found sub => Begun zone node want found ∧ want.behind + sub = 3 ∧ sub < 3 ∧
      found.freePage.zone.isSome = true

/-- A report for a header for which the last field was found in this section. -/
structure Report.EndedBy (zone : Nat) (node : Int) (number : Nat) (found : List Kind)
    (report : Report) : Prop where
  zone : report.zone = zone
  node : report.node = node
  last : report.low.zone = some number ∨ report.inact.zone = some number
  low : report.low.zone.isSome = true ↔ .low ∈ found
  inactive : report.inact.zone.isSome = true ↔ .inactive ∈ found
  free : .low ∈ found → report.free.zone.isSome = true

/-- The loops follow the search for the fields. -/
inductive Reads (zone : Nat) (node : Int) (number : Nat) : Outcome → Mode × List Report → Prop
  | wanting {want mode} : mode.Wants zone node want →
      Reads zone node number (.wanting want) (mode, [])
  | gaveUp : Reads zone node number .gaveUp (.outer, [])
  | pair {found report} : report.EndedBy zone node number found →
      Reads zone node number (.pair found) (.outer, [report])

theorem endOfPass_reads {zone number : Nat} {node : Int} {want : Wanting} {fields : Fields}
    (here : fields.zone = zone) (named : fields.zoneid = node) (tallied : Tallied want fields)
    (searched : want.behind = 0) (bounded : want.found.length ≤ 2)
    (last : 2 ≤ want.found.length → fields.low.zone = some number ∨
      fields.nrInactiveFile.zone = some number) :
    Reads zone node number
      (if 2 ≤ want.found.length then .pair want.found else .wanting want) (endOfPass fields) := by
  rw [endOfPass, tallied.count]
  by_cases both : 2 ≤ want.found.length
  · rw [if_pos both, if_pos (Nat.le_antisymm bounded both)]
    exact .pair ⟨here, named, last both, tallied.low, tallied.inactive, tallied.free⟩
  · rw [if_neg both, if_neg (by omega), if_pos (by omega)]
    exact .wanting ⟨⟨here, named, tallied, by omega⟩, searched⟩

theorem fieldsLine_pages {line : Bytes} (pages : contains "pages free" (unindented line) = true)
    (number : Nat) (fields : Fields) :
    fieldsLine number line fields =
      match scanAfter "pages free" (unindented line) with
      | some value => (.low { fields with freePage := ⟨value, some number⟩ } 0, [])
      | none => (.outer, []) := by
  simp only [fieldsLine, takeInactive_twice]
  rw [← unindented, if_pos pages]
  cases read : scanAfter "pages free" (unindented line) with
  | none => rfl
  | some value =>
      have none_found : inactiveIn (unindented line) = none :=
        inactiveIn_pages (by rw [read]; rfl)
      simp only [none_found, ite_self]

theorem fieldsLine_other {line : Bytes}
    (other : contains "pages free" (unindented line) = false) (number : Nat) (fields : Fields) :
    fieldsLine number line fields =
      match (if 0 ≤ fields.nrInactiveFile.value then none else inactiveIn (unindented line)) with
      | some value => endOfPass { fields with
          nrInactiveFile := ⟨value, some number⟩, cntGot := fields.cntGot + 1 }
      | none => endOfPass fields := by
  simp only [fieldsLine, takeInactive_twice]
  rw [← unindented, other, if_neg Bool.false_ne_true]
  split <;> rfl

theorem fieldsLine_reads {zone : Nat} {node : Int} {want : Wanting} {fields : Fields}
    (wants : (Mode.fields fields).Wants zone node want) (number : Nat) (line : Bytes) :
    Reads zone node number (want.next line) (fieldsLine number line fields) := by
  obtain ⟨⟨here, named, tallied, fewer⟩, searched⟩ := wants
  rw [Wanting.next, Wanting.look, searched]
  cases pages : contains "pages free" (unindented line) with
  | true =>
      rw [fieldsLine_pages pages, if_pos rfl]
      cases scanAfter "pages free" (unindented line) with
      | none => exact .gaveUp
      | some value =>
          simp only [Option.isSome_some, if_true, if_neg (Nat.not_le.mpr fewer)]
          refine .wanting ⟨⟨here, named, ?_, fewer⟩, rfl, by decide, rfl⟩
          exact { tallied with free := fun _ => rfl }
  | false =>
      rw [fieldsLine_other pages, if_neg Bool.false_ne_true, tallied.settled]
      simp only [decide_eq_true_eq]
      cases (if 0 ≤ fields.nrInactiveFile.value then none else inactiveIn (unindented line)) with
      | none => exact endOfPass_reads here named tallied searched fewer.le fun both => by omega
      | some value =>
          refine endOfPass_reads here named ?_ rfl ?_ fun _ => .inr rfl
          · exact {
              count := by rw [List.length_append, tallied.count]; rfl
              settled := rfl
              low := tallied.low.trans (by simp)
              inactive := by simp
              free := fun member => tallied.free (by simpa using member) }
          · rw [List.length_append]
            exact Nat.succ_le_of_lt fewer

theorem lowLine_reads {zone : Nat} {node : Int} {want : Wanting} {fields : Fields} {sub : Nat}
    (wants : (Mode.low fields sub).Wants zone node want) (number : Nat) (line : Bytes) :
    Reads zone node number (want.next line) (lowLine number line fields sub) := by
  obtain ⟨⟨here, named, tallied, fewer⟩, searched, below, free⟩ := wants
  obtain ⟨left, behind⟩ : ∃ left, want.behind = left + 1 := ⟨want.behind - 1, by omega⟩
  rw [lowLine, ← lowIn, Wanting.next, Wanting.look, behind]
  cases lowIn line with
  | some value =>
      refine endOfPass_reads here named ?_ rfl ?_ fun _ => .inl rfl
      · exact {
          count := by rw [List.length_append, tallied.count]; rfl
          settled := tallied.settled
          low := by simp
          inactive := tallied.inactive.trans (by simp)
          free := fun _ => free }
      · rw [List.length_append]
        exact Nat.succ_le_of_lt fewer
  | none =>
      simp only [Option.isSome_none, Bool.false_eq_true, if_false, if_neg (Nat.not_le.mpr fewer)]
      have still : Tallied { want with behind := left } fields := { tallied with }
      by_cases more : sub + 1 < 3
      · rw [if_pos more]
        exact .wanting ⟨⟨here, named, still, fewer⟩, by dsimp only; omega, more, free⟩
      · rw [if_neg more]
        have searched_all : left = 0 := by omega
        have ends : Reads zone node number _ (endOfPass fields) :=
          endOfPass_reads here named still searched_all fewer.le fun both => by
            exact absurd both (Nat.not_le.mpr fewer)
        rwa [if_neg (Nat.not_le.mpr fewer)] at ends

theorem step_reads {zone : Nat} {node : Int} {want : Wanting} {mode : Mode}
    (wants : mode.Wants zone node want) (number : Nat) (line : Bytes) :
    Reads zone node number (want.next line) (step number line mode) := by
  cases mode with
  | outer => exact wants.elim
  | fields found => exact fieldsLine_reads wants number line
  | low found sub => exact lowLine_reads wants number line

theorem run_reads {zone : Nat} {node : Int} {want : Wanting} {mode : Mode} {lines : List Bytes}
    (wants : mode.Wants zone node want) (number : Nat)
    (plain : ∀ line ∈ lines.tail, nodeOf line = none) :
    Reads zone node number (lookAt want lines)
      (run mode (lines.map fun line => (number, line))) := by
  induction lines generalizing want mode with
  | nil => exact .wanting wants
  | cons line rest ih =>
      rw [List.tail_cons] at plain
      have first := step_reads wants number line
      rw [List.map_cons, run, lookAt]
      generalize want.next line = outcome at first
      generalize step number line mode = stepped at first
      cases first with
      | wanting still =>
          exact ih still fun other member => plain other (List.mem_of_mem_tail member)
      | gaveUp =>
          rw [run_outer plain]
          exact .gaveUp
      | pair ended =>
          rw [run_outer plain]
          exact .pair ended

theorem reading_other {zone : Zone} (other : zone.normal = false) (number : Nat) :
    run .outer (zone.lines number) = (.outer, []) := by
  have first : step number zone.header .outer = (.outer, []) := by
    rw [Zone.normal] at other
    simp only [step, outerLine, zone.named, other, Bool.false_eq_true, if_false]
  rw [Zone.lines, List.map_cons, run, first, run_outer zone.plain]
  rfl

theorem start_wants (number : Nat) (node : Int) :
    (Mode.fields (.start number node)).Wants number node .start := by
  refine ⟨⟨rfl, rfl, ?_, Nat.zero_lt_two⟩, rfl⟩
  constructor <;> simp [Wanting.start, Fields.start]

theorem reading_normal {zone : Zone} (normal : zone.normal = true) (number : Nat) :
    Reads number zone.node number (lookAt .start zone.body) (run .outer (zone.lines number)) := by
  have first : step number zone.header .outer = (.fields (.start number zone.node), []) := by
    rw [Zone.normal] at normal
    simp only [step, outerLine, zone.named, normal, if_true]
  rw [Zone.lines, List.map_cons, run, first]
  exact run_reads (start_wants number zone.node) number fun line member =>
    zone.plain line (List.mem_of_mem_tail member)

theorem reading_past {mode : Mode} {began : Nat} {node : Int} {want : Wanting}
    (wants : mode.Wants began node want) (zone : Zone) (number : Nat) :
    Reads began node number (lookAt want (zone.header :: zone.body))
      (run mode (zone.lines number)) :=
  run_reads wants number zone.plain

end DirtyCode.MemoryInfo
