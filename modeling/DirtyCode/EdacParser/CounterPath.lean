import DirtyCode.EdacParser.DmiStrings
import DirtyCode.Lib.Fields
import DirtyCode.Lib.Format

/-!
The way from a directory of sysfs to the counter of a memory slot: `get_topo` packs three
numbers into `edac_path`, `get_edac_val` takes them apart.
-/

namespace DirtyCode.EdacParser

open Lib

abbrev Files := List UInt8 → Option (List UInt8)

def sandybridgeLabel : List Directive :=
  text "CPU_SrcID#" ++ .int :: (text "_Channel#" ++ .int :: (text "_DIMM#" ++ [.int]))

def haswellLabel : List Directive :=
  text "CPU_SrcID#" ++ .int :: (text "_Ha#" ++ .int :: (text "_Chan#" ++ .int ::
    (text "_DIMM#" ++ [.int])))

def skylakeLabel : List Directive :=
  text "CPU_SrcID#" ++ .int :: (text "_MC#" ++ .int :: (text "_Chan#" ++ .int ::
    (text "_DIMM#" ++ [.int])))

def channelFile (file : String) : List Directive :=
  text "/sys/devices/system/edac/mc/mc" ++ .int :: (text "/csrow" ++ .int :: (text "/ch" ++ .int ::
    text file))

def dimmLabelPath : List Directive := channelFile "_dimm_label"
def ceCountPath : List Directive := channelFile "_ce_count"

-- a value that is not scanned stays -1
def scanned (values : List Int) (index : Nat) : Int := values.getD index (-1)

def packTopo (a b c d : Int) : Int := toInt32 (a * 4096 + b * 256 + c * 16 + d)

def labelTopo (label : List UInt8) : Int :=
  let first := sscanf sandybridgeLabel label
  if first.length = 3 then packTopo (scanned first 0) 0 (scanned first 1) (scanned first 2)
  else
    let second := sscanf haswellLabel label
    if second.length = 4 then
      packTopo (scanned second 0) (scanned second 1) (scanned second 2) (scanned second 3)
    else
      let third := sscanf skylakeLabel label
      packTopo (scanned third 0) (scanned third 1) (scanned third 2) (scanned third 3)

-- `& 0x0000FFFF`
def lowHalf (topo : Int) : Int := topo % 65536

def matchingDimm (dimms : Dimms) (topo : Int) : Option Nat :=
  (List.range maxDimmSlot.toNat).find? fun i =>
    (dimms.dimmInfoData i).seq ≠ 0 ∧ 0 < (dimms.dimmInfoData i).szGb ∧
      lowHalf (dimms.dimmInfoData i).topo = topo

/-- `snprintf` into 255 bytes. -/
def channelName (csrowDirName : List UInt8) (channel : Int) (file : String) : List UInt8 :=
  (csrowDirName ++ sprintf (text "ch" ++ .int :: text file) [channel]).take 254

def packPath (channelDimmLabelName : List UInt8) : Int :=
  let values := sscanf dimmLabelPath channelDimmLabelName
  if values.length = 3 then
    toInt32 (scanned values 0 * 256 + scanned values 1 * 16 + scanned values 2)
  else -1

/-- Undefined where the counter cannot be opened: only the label is tested for it. -/
def getTopo (files : Files) (csrowDirName : List UInt8) (channel : Int) (dimms : Dimms) :
    Option Dimms :=
  let channelDimmLabelName := channelName csrowDirName channel "_dimm_label"
  match files channelDimmLabelName with
  | none => some dimms
  | some label =>
      match files (channelName csrowDirName channel "_ce_count") with
      | none => none
      | some _ =>
          match matchingDimm dimms (labelTopo label) with
          | none => some dimms
          | some i => some { dimms with
              dimmInfoData := Function.update dimms.dimmInfoData i
                { dimms.dimmInfoData i with edacPath := packPath channelDimmLabelName } }

/-- The numbers that `get_edac_val` takes a path apart into, and the file that it opens;
nothing for a slot that it skips. -/
def openedCounter (edacPath : Int) : Option (List Int × List UInt8) :=
  if edacPath < 0 then none
  else
    let p1 := (edacPath.toNat &&& 0xF00) / 256
    let p2 := (edacPath.toNat &&& 0xF0) / 16
    let p3 := edacPath.toNat &&& 0xF
    some ([(p1 : Int), p2, p3], sprintf ceCountPath [(p1 : Int), p2, p3])

-- undefined where the file cannot be opened, which is closed then
def visitDimm (files : Files) (dimms : Dimms) (i : Nat) : Option Dimms :=
  match openedCounter (dimms.dimmInfoData i).edacPath with
  | none => some dimms
  | some (_, path) =>
      (files path).map fun counter =>
        { dimms with
          dimmInfoData := Function.update dimms.dimmInfoData i
            { dimms.dimmInfoData i with edacVal := scanned (sscanf [.int] counter) 0 } }

def getEdacVal (files : Files) (dimms : Dimms) : Option Dimms :=
  (List.range dimms.nrDimmSlots).foldlM (visitDimm files) dimms

structure ChannelDir where
  mc : Nat
  csrow : Nat
  channel : Nat
  small : mc < 2147483648 ∧ csrow < 2147483648 ∧ channel < 2147483648

namespace ChannelDir

def numbers (dir : ChannelDir) : List Int := [(dir.mc : Int), dir.csrow, dir.channel]

/-- The directory as `edac_sysfs_decode` puts it together. -/
def csrowDirName (dir : ChannelDir) : List UInt8 :=
  sprintf (text "/sys/devices/system/edac/mc/mc" ++ .int :: (text "/csrow" ++ .int :: text "/"))
    [(dir.mc : Int), dir.csrow]

def ceCount (dir : ChannelDir) : List UInt8 := channelName dir.csrowDirName dir.channel "_ce_count"

end ChannelDir

theorem sprintf_text (string : String) (format : List Directive) (values : List Int) :
    sprintf (text string ++ format) values = ascii string ++ sprintf format values := by
  rw [text]
  induction ascii string with
  | nil => rfl
  | cons byte rest ih => rw [List.map_cons, List.cons_append, sprintf, ih, List.cons_append]

theorem printInt_length {value : Nat} (small : value < 2147483648) :
    (printInt (value : Int)).length ≤ 10 := by
  have positive : ¬(value : Int) < 0 := by omega
  rw [printInt, if_neg positive, Int.natAbs_natCast]
  exact printNat_length (by decide) (by omega)

theorem channelName_eq (dir : ChannelDir) {file : String} (short : (ascii file).length ≤ 20) :
    channelName dir.csrowDirName dir.channel file = sprintf (channelFile file) dir.numbers := by
  obtain ⟨mc, csrow, channel⟩ := dir.small
  have first := printInt_length mc
  have second := printInt_length csrow
  have third := printInt_length channel
  have none : sprintf (text "/") [] = ascii "/" := by
    rw [← List.append_nil (text "/"), sprintf_text, sprintf, List.append_nil]
  have last : sprintf (text file) [] = ascii file := by
    rw [← List.append_nil (text file), sprintf_text, sprintf, List.append_nil]
  have lengths : (ascii "/sys/devices/system/edac/mc/mc").length = 30 ∧
      (ascii "/csrow").length = 6 ∧ (ascii "/").length = 1 ∧ (ascii "ch").length = 2 := by decide
  have joined : ascii "/ch" = ascii "/" ++ ascii "ch" := by decide
  rw [channelName, ChannelDir.csrowDirName, channelFile, ChannelDir.numbers]
  simp only [sprintf_text, sprintf, none, last, joined]
  rw [List.take_of_length_le]
  · simp only [List.append_assoc]
  · simp only [List.length_append]
    omega

theorem packPath_eq (dir : ChannelDir) :
    packPath (channelName dir.csrowDirName dir.channel "_dimm_label") =
      toInt32 (dir.mc * 256 + dir.csrow * 16 + dir.channel) := by
  obtain ⟨mc, csrow, channel⟩ := dir.small
  have apart : separated dimmLabelPath = true := by decide
  have fits : Fits dimmLabelPath dir.numbers :=
    ⟨by omega, by omega, by omega, by omega, by omega, by omega, rfl⟩
  have read := sscanf_sprintf apart fits
  rw [channelName_eq dir (by decide), packPath]
  rw [dimmLabelPath] at read ⊢
  simp only [read]
  exact if_pos rfl

theorem openedCounter_eq {edacPath : Int} (positive : 0 ≤ edacPath) :
    ∃ counter, openedCounter edacPath = some counter ∧
      counter.1 = [edacPath / 256 % 16, edacPath / 16 % 16, edacPath % 16] := by
  have high : edacPath.toNat &&& 0xF00 = edacPath.toNat / 256 % 16 * 256 := and_field _ 4 8
  have middle : edacPath.toNat &&& 0xF0 = edacPath.toNat / 16 % 16 * 16 := and_field _ 4 4
  have low : edacPath.toNat &&& 0xF = edacPath.toNat % 16 := Nat.and_two_pow_sub_one_eq_mod _ 4
  rw [openedCounter, if_neg (by omega)]
  refine ⟨_, rfl, ?_⟩
  simp only [high, middle, low]
  congr 1
  · omega
  · congr 1
    · omega
    · congr 1
      omega

theorem openedCounter_file {edacPath : Int} {counter : List Int × List UInt8}
    (opened : openedCounter edacPath = some counter) :
    counter.2 = sprintf ceCountPath counter.1 := by
  rw [openedCounter, Option.ite_none_left_eq_some] at opened
  rw [← Option.some.inj opened.2]

theorem reads_back_iff (dir : ChannelDir) :
    openedCounter (packPath (channelName dir.csrowDirName dir.channel "_dimm_label")) =
        some (dir.numbers, dir.ceCount) ↔
      dir.mc < 16 ∧ dir.csrow < 16 ∧ dir.channel < 16 := by
  have name : dir.ceCount = sprintf ceCountPath dir.numbers := channelName_eq dir (by decide)
  rw [packPath_eq, name]
  constructor
  · intro opened
    have positive : 0 ≤ toInt32 (dir.mc * 256 + dir.csrow * 16 + dir.channel) := by
      by_contra negative
      rw [openedCounter, if_pos (by omega)] at opened
      contradiction
    obtain ⟨counter, found, digits⟩ := openedCounter_eq positive
    rw [opened, Option.some.injEq] at found
    rw [← found] at digits
    simp only [ChannelDir.numbers, List.cons.injEq, and_true] at digits
    omega
  · rintro ⟨mc, csrow, channel⟩
    rw [toInt32_of_range (by omega) (by omega)]
    have positive : (0 : Int) ≤ dir.mc * 256 + dir.csrow * 16 + dir.channel := by omega
    obtain ⟨counter, opened, digits⟩ := openedCounter_eq positive
    have numbers : counter.1 = dir.numbers := by
      rw [digits, ChannelDir.numbers]
      congr 1
      · omega
      · congr 1
        · omega
        · congr 1
          omega
    rw [opened, ← numbers, ← openedCounter_file opened]

theorem getTopo_stores {files : Files} {csrowDirName label : List UInt8} {channel : Int}
    {dimms after : Dimms} {slot : Nat}
    (parsed : getTopo files csrowDirName channel dimms = some after)
    (opened : files (channelName csrowDirName channel "_dimm_label") = some label)
    (matched : matchingDimm dimms (labelTopo label) = some slot) :
    (after.dimmInfoData slot).edacPath =
      packPath (channelName csrowDirName channel "_dimm_label") := by
  rw [getTopo] at parsed
  simp only [opened] at parsed
  split at parsed
  · contradiction
  · simp only [matched] at parsed
    rw [← Option.some.inj parsed]
    simp

section Counters

variable {files : Files} {dimms : Dimms}

def shown (files : Files) (dimm : DimmInfo) : DimmInfo :=
  match openedCounter dimm.edacPath with
  | none => dimm
  | some (_, path) =>
      { dimm with edacVal := scanned (sscanf [.int] ((files path).getD [])) 0 }

/-- The counter that a slot's path stands for can be opened. -/
def Present (files : Files) (dimm : DimmInfo) : Prop :=
  ∀ numbers path, openedCounter dimm.edacPath = some (numbers, path) → files path ≠ none

theorem visitDimm_shown {i : Nat} (present : Present files (dimms.dimmInfoData i)) :
    visitDimm files dimms i = some { dimms with
      dimmInfoData := Function.update dimms.dimmInfoData i
        (shown files (dimms.dimmInfoData i)) } := by
  rw [visitDimm, shown]
  cases opened : openedCounter (dimms.dimmInfoData i).edacPath with
  | none => simp only [Function.update_eq_self]
  | some counter =>
      obtain ⟨content, found⟩ := Option.ne_none_iff_exists'.mp (present _ _ opened)
      simp only [found, Option.map_some, Option.getD_some]

theorem visitDimms_shown (slots : Nat)
    (present : ∀ slot < slots, Present files (dimms.dimmInfoData slot)) :
    (List.range slots).foldlM (visitDimm files) dimms = some { dimms with
      dimmInfoData := fun slot =>
        if slot < slots then shown files (dimms.dimmInfoData slot)
        else dimms.dimmInfoData slot } := by
  induction slots with
  | zero => simp
  | succ slots ih =>
      have front := ih fun slot below => present slot (Nat.lt_succ_of_lt below)
      have last := present slots (Nat.lt_succ_self slots)
      rw [List.range_succ, List.foldlM_append, front]
      simp only [Option.bind_eq_bind, Option.bind_some, List.foldlM_cons, List.foldlM_nil]
      rw [visitDimm_shown (by simpa using last)]
      simp only [Option.bind_some, Option.pure_def, Option.some.injEq, Dimms.mk.injEq, true_and,
        and_true]
      funext slot
      by_cases here : slot = slots
      · subst here
        simp
      · have same : slot < slots + 1 ↔ slot < slots := by omega
        simp [here, same]

theorem getEdacVal_shown (present : ∀ slot < dimms.nrDimmSlots,
    Present files (dimms.dimmInfoData slot)) :
    getEdacVal files dimms = some { dimms with
      dimmInfoData := fun slot =>
        if slot < dimms.nrDimmSlots then shown files (dimms.dimmInfoData slot)
        else dimms.dimmInfoData slot } :=
  visitDimms_shown dimms.nrDimmSlots present

end Counters

/-- A slot is shown with the counter of a directory: its path is taken apart into the numbers
of the directory, and whatever the counters are, the value is the one in that directory. -/
def ReadsBack (dir : ChannelDir) (dimms : Dimms) (slot : Nat) : Prop :=
  openedCounter (dimms.dimmInfoData slot).edacPath = some (dir.numbers, dir.ceCount) ∧
    ∀ counters : Files, (∀ i < dimms.nrDimmSlots, Present counters (dimms.dimmInfoData i)) →
      ∃ shown_ counter, getEdacVal counters dimms = some shown_ ∧
        counters dir.ceCount = some counter ∧
        (shown_.dimmInfoData slot).edacVal = scanned (sscanf [.int] counter) 0

theorem readsBack_of_visited {dir : ChannelDir} {dimms : Dimms} {slot : Nat}
    (taken : openedCounter (dimms.dimmInfoData slot).edacPath = some (dir.numbers, dir.ceCount))
    (visited : slot < dimms.nrDimmSlots) : ReadsBack dir dimms slot := by
  refine ⟨taken, fun counters present => ?_⟩
  obtain ⟨counter, found⟩ := Option.ne_none_iff_exists'.mp (present slot visited _ _ taken)
  refine ⟨_, counter, getEdacVal_shown present, found, ?_⟩
  simp only [visited, if_true, shown, taken, found, Option.getD_some]

theorem ReadsBack.visited {dir : ChannelDir} {dimms : Dimms} {slot : Nat}
    (back : ReadsBack dir dimms slot) : slot < dimms.nrDimmSlots := by
  by_contra behind
  -- a count that differs from the value that stands there
  obtain ⟨text, differs⟩ : ∃ text,
      scanned (sscanf [.int] text) 0 ≠ (dimms.dimmInfoData slot).edacVal := by
    by_cases seven : (dimms.dimmInfoData slot).edacVal = 7
    · exact ⟨ascii "9", by rw [seven]; decide⟩
    · exact ⟨ascii "7", fun same => seven (same.symm.trans (by decide))⟩
  have present : ∀ i < dimms.nrDimmSlots,
      Present (fun _ => some text) (dimms.dimmInfoData i) :=
    fun _ _ _ _ _ => Option.some_ne_none _
  obtain ⟨after, counter, ran, found, value⟩ := back.2 _ present
  rw [getEdacVal_shown present, Option.some.injEq] at ran
  rw [← ran, ← Option.some.inj found] at value
  simp only [behind, if_false] at value
  exact differs value.symm

theorem getTopo_nrDimmSlots {files : Files} {csrowDirName : List UInt8} {channel : Int}
    {dimms after : Dimms} (parsed : getTopo files csrowDirName channel dimms = some after) :
    after.nrDimmSlots = dimms.nrDimmSlots := by
  rw [getTopo] at parsed
  split at parsed
  · rw [← Option.some.inj parsed]
  · split at parsed
    · contradiction
    · split at parsed <;> rw [← Option.some.inj parsed]

/-- What `get_topo` has packed for a channel `get_edac_val` takes apart into the same numbers,
and shows the counter beside its label, exactly when each of them is below 16 and the slot is
among those that are visited. -/
theorem counter_path_iff {files : Files} (dir : ChannelDir) {dimms after : Dimms} {slot : Nat}
    {label : List UInt8}
    (parsed : getTopo files dir.csrowDirName dir.channel dimms = some after)
    (opened : files (channelName dir.csrowDirName dir.channel "_dimm_label") = some label)
    (matched : matchingDimm dimms (labelTopo label) = some slot) :
    ReadsBack dir after slot ↔
      (dir.mc < 16 ∧ dir.csrow < 16 ∧ dir.channel < 16) ∧ slot < dimms.nrDimmSlots := by
  have taken := reads_back_iff dir
  rw [← getTopo_stores parsed opened matched] at taken
  rw [← getTopo_nrDimmSlots parsed]
  constructor
  · exact fun back => ⟨taken.mp back.1, back.visited⟩
  · rintro ⟨small, visited⟩
    exact readsBack_of_visited (taken.mpr small) visited

def oneDimm : Dimms where
  buf _ := 0
  dimmInfoData _ := ⟨1, 16, 16, -1, -2, fun _ => []⟩
  dimmPlugged := 1
  nrDimmSlots := 1

def oneLabel : Files := fun _ => some (ascii "CPU_SrcID#0_Channel#1_DIMM#0")

theorem oneLabel_matched :
    matchingDimm oneDimm (labelTopo (ascii "CPU_SrcID#0_Channel#1_DIMM#0")) = some 0 := by
  decide

theorem getTopo_oneLabel (csrowDirName : List UInt8) (channel : Int) :
    ∃ after, getTopo oneLabel csrowDirName channel oneDimm = some after := by
  simp only [getTopo, oneLabel, oneLabel_matched]
  exact ⟨_, rfl⟩

theorem counter_path_iff_first : ∃ after,
    getTopo oneLabel (ChannelDir.csrowDirName ⟨1, 2, 3, by decide⟩) 3 oneDimm = some after ∧
      (ReadsBack ⟨1, 2, 3, by decide⟩ after 0 ↔ (1 < 16 ∧ 2 < 16 ∧ 3 < 16) ∧ 0 < 1) := by
  obtain ⟨after, parsed⟩ :=
    getTopo_oneLabel (ChannelDir.csrowDirName ⟨1, 2, 3, by decide⟩) 3
  exact ⟨after, parsed, counter_path_iff ⟨1, 2, 3, by decide⟩ parsed rfl oneLabel_matched⟩

-- five errors of the second controller, seven of the first
def carriedCounters : Files := fun path =>
  some (if path = ascii "/sys/devices/system/edac/mc/mc1/csrow0/ch0_ce_count" then ascii "5"
    else ascii "7")

/-- The 16th row of the first controller is taken for row 0 of the second. -/
theorem row_carried : ∃ after shown_,
    getTopo oneLabel (ChannelDir.csrowDirName ⟨0, 16, 0, by decide⟩) 0 oneDimm = some after ∧
      getEdacVal carriedCounters after = some shown_ ∧
      carriedCounters (ChannelDir.ceCount ⟨0, 16, 0, by decide⟩) = some (ascii "7") ∧
      (shown_.dimmInfoData 0).edacVal = 5 ∧ ¬ReadsBack ⟨0, 16, 0, by decide⟩ after 0 := by
  obtain ⟨after, parsed⟩ :=
    getTopo_oneLabel (ChannelDir.csrowDirName ⟨0, 16, 0, by decide⟩) 0
  have stored := getTopo_stores parsed rfl oneLabel_matched
  have packed := packPath_eq ⟨0, 16, 0, by decide⟩
  have slots := getTopo_nrDimmSlots parsed
  have taken : openedCounter (after.dimmInfoData 0).edacPath =
      some ([1, 0, 0], ascii "/sys/devices/system/edac/mc/mc1/csrow0/ch0_ce_count") := by
    rw [stored]
    exact (congrArg openedCounter packed).trans (by decide +kernel)
  have ran := @getEdacVal_shown carriedCounters after
    fun _ _ _ _ _ => Option.some_ne_none _
  refine ⟨after, _, parsed, ran, by decide +kernel, ?_, fun back => ?_⟩
  · simp only [slots, oneDimm, Nat.zero_lt_one, if_true, shown, taken, carriedCounters,
      Option.getD_some]
    decide
  · rw [ReadsBack, stored] at back
    exact absurd ((reads_back_iff ⟨0, 16, 0, by decide⟩).mp back.1) (by decide)

end DirtyCode.EdacParser
