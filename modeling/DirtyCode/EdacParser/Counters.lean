import DirtyCode.EdacParser.DimmPath

/-!
The main program of `edac_parser.c`: the places of the slots, the channels of sysfs that
`edac_sysfs_decode` visits, and the counters that the slots show in the end.
-/

namespace DirtyCode.EdacParser

open Lib

abbrev Listing := Text → Option (List Text)

-- `snprintf` into 255 bytes
def subDir (dir name : Text) : Text := (dir ++ name ++ ascii "/").take 254

def edacMcDir : Text := ascii "/sys/devices/system/edac/mc/"

-- the names that `edac_sysfs_decode` takes for the counter of a channel
def ceCountName : List Directive := text "ch" ++ .int :: text "_ce_count"

/-- A digit is the number of the channel where a `c` is two bytes behind it. -/
def channelOf (name : Text) : Option Int :=
  if beginWith name "ch" ∧ name.getD 4 0 = 99 then
    match sscanf ceCountName name with
    | [channel] => some channel
    | _ => none
  else none

def subDirs (listing : Listing) (dir : Text) (kind : String) : List Text :=
  (((listing dir).getD []).filter fun name => beginWith name kind).map (subDir dir)

/-- The calls of `get_topo`: the directory and the number of each channel. -/
def visitedChannels (listing : Listing) : List (Text × Int) :=
  (subDirs listing edacMcDir "mc").flatMap fun mcDirName =>
    (subDirs listing mcDirName "csrow").flatMap fun csrowDirName =>
      ((listing csrowDirName).getD []).filterMap fun name =>
        (channelOf name).map fun channel => (csrowDirName, channel)

def edacSysfsDecode (files : Files) (listing : Listing) (dimms : Dimms) : Option Dimms :=
  (visitedChannels listing).foldlM (fun dimms channel => getTopo files channel.1 channel.2 dimms)
    dimms

def locate (server : Server) (nrDimmSlots : Nat) (dimm : DimmInfo) : DimmInfo :=
  if dimm.seq ≠ 0 then
    { dimm with
      topo :=
        if 0 < dimm.szGb then parseDimmPath server nrDimmSlots (dimm.text .dloc) (dimm.text .bloc)
        else -1 }
  else dimm

def locateDimms (server : Server) (dimms : Dimms) : Dimms :=
  { dimms with
    dimmInfoData := fun i =>
      if (i : Int) < maxDimmSlot then locate server dimms.nrDimmSlots (dimms.dimmInfoData i)
      else dimms.dimmInfoData i }

/-- What `main` does behind `decode_dmi_dimm`. -/
def showCounters (server : Server) (files : Files) (listing : Listing) (dimms : Dimms) :
    Option Dimms := do
  let decoded ← edacSysfsDecode files listing (locateDimms server dimms)
  getEdacVal files decoded

structure SmallPlace where
  cpu : Nat
  ha : Nat
  ch : Nat
  dimm : Nat
  small : cpu < 16 ∧ ha < 16 ∧ ch < 16 ∧ dimm < 16

namespace SmallPlace

def place (small : SmallPlace) : Place where
  cpu := small.cpu
  ha := small.ha
  ch := small.ch
  dimm := small.dimm

def topo (small : SmallPlace) : Int :=
  small.cpu * 4096 + small.ha * 256 + small.ch * 16 + small.dimm

theorem ext_topo {first second : SmallPlace} (same : first.topo = second.topo) :
    first = second := by
  obtain ⟨cpu, ha, ch, dimm, small⟩ := first
  obtain ⟨cpu', ha', ch', dimm', small'⟩ := second
  simp only [topo] at same
  have cpus : cpu = cpu' := by omega
  have has : ha = ha' := by omega
  have chs : ch = ch' := by omega
  have dimms : dimm = dimm' := by omega
  subst cpus has chs dimms
  rfl

end SmallPlace

theorem lowHalf_packPlace (server : Server) (place : SmallPlace) :
    lowHalf (packPlace server.chPerAgent place.place) = place.topo := by
  obtain ⟨cpu, ha, ch, dimm⟩ := place.small
  have agents := chPerAgent_cases server
  simp only [packPlace, SmallPlace.place, SmallPlace.topo, lowHalf]
  rw [toInt32_of_range (by omega) (by omega)]
  omega

/-- The drivers, each with its own labels. -/
inductive Driver
  | sandybridge
  | haswell
  | skylake

namespace Driver

def label (place : SmallPlace) : Driver → Text
  | sandybridge => sprintf sandybridgeLabel [place.cpu, place.ch, place.dimm]
  | haswell => sprintf haswellLabel [place.cpu, place.ha, place.ch, place.dimm]
  | skylake => sprintf skylakeLabel [place.cpu, place.ha, place.ch, place.dimm]

end Driver

/-- The label of a channel names a place; what may follow is the newline of sysfs. -/
structure Labelled (files : Files) (channel : Text × Int) (place : SmallPlace) : Prop where
  label : ∃ (driver : Driver) (ending : Text), stops ending = true ∧
    (driver = .sandybridge → place.ha = 0) ∧
    files (channelName channel.1 channel.2 "_dimm_label") = some (driver.label place ++ ending)

/-- A channel without a module: there is no label, or none that the formats fit. -/
def Blank (files : Files) (channel : Text × Int) : Prop :=
  ∀ label, files (channelName channel.1 channel.2 "_dimm_label") = some label →
    labelTopo label < 0

example : labelTopo (ascii "\n") < 0 := by decide

theorem packTopo_small (place : SmallPlace) :
    packTopo place.cpu place.ha place.ch place.dimm = place.topo := by
  obtain ⟨cpu, ha, ch, dimm⟩ := place.small
  rw [packTopo, toInt32_of_range (by omega) (by omega), SmallPlace.topo]

section Labels

variable {driver : Driver} {place : SmallPlace} {ending : Text}

theorem scan_sandybridge (stop : stops ending = true) :
    sscanf sandybridgeLabel (Driver.label place .sandybridge ++ ending) =
      [(place.cpu : Int), place.ch, place.dimm] := by
  obtain ⟨cpu, ha, ch, dimm⟩ := place.small
  rw [Driver.label, sandybridgeLabel]
  simp only [sprintf_text, sprintf, List.append_assoc, List.nil_append]
  rw [sscanf_text (by decide), sscanf_int (by omega) (by omega) _ rfl, sscanf_text (by decide),
    sscanf_int (by omega) (by omega) _ rfl, sscanf_text (by decide),
    sscanf_int (by omega) (by omega) _ stop]
  rfl

theorem scan_four {controller : String} (stop : stops ending = true)
    (solid : (ascii controller).all (fun byte => !isSpace byte) = true)
    (foreign : ∀ rest, stops (ascii controller ++ rest) = true) :
    sscanf (text "CPU_SrcID#" ++ .int :: (text controller ++ .int :: (text "_Chan#" ++ .int ::
        (text "_DIMM#" ++ [.int]))))
      (sprintf (text "CPU_SrcID#" ++ .int :: (text controller ++ .int :: (text "_Chan#" ++ .int ::
          (text "_DIMM#" ++ [.int]))))
        [(place.cpu : Int), place.ha, place.ch, place.dimm] ++ ending) =
      [(place.cpu : Int), place.ha, place.ch, place.dimm] := by
  obtain ⟨cpu, ha, ch, dimm⟩ := place.small
  simp only [sprintf_text, sprintf, List.append_assoc, List.nil_append]
  rw [sscanf_text (by decide), sscanf_int (by omega) (by omega) _ (foreign _), sscanf_text solid,
    sscanf_int (by omega) (by omega) _ rfl, sscanf_text (by decide),
    sscanf_int (by omega) (by omega) _ rfl, sscanf_text (by decide),
    sscanf_int (by omega) (by omega) _ stop]
  rfl

theorem scan_haswell (stop : stops ending = true) :
    sscanf haswellLabel (Driver.label place .haswell ++ ending) =
      [(place.cpu : Int), place.ha, place.ch, place.dimm] :=
  scan_four stop (by decide) fun _ => rfl

theorem scan_skylake (stop : stops ending = true) :
    sscanf skylakeLabel (Driver.label place .skylake ++ ending) =
      [(place.cpu : Int), place.ha, place.ch, place.dimm] :=
  scan_four stop (by decide) fun _ => rfl

theorem scan_foreign (other : driver ≠ .sandybridge) :
    sscanf sandybridgeLabel (driver.label place ++ ending) = [(place.cpu : Int)] := by
  obtain ⟨cpu, ha, ch, dimm⟩ := place.small
  cases driver with
  | sandybridge => exact absurd rfl other
  | haswell =>
      rw [Driver.label, haswellLabel, sandybridgeLabel]
      simp only [sprintf_text, sprintf, List.append_assoc]
      rw [sscanf_text (by decide), sscanf_int (by omega) (by omega) _ rfl]
      rfl
  | skylake =>
      rw [Driver.label, skylakeLabel, sandybridgeLabel]
      simp only [sprintf_text, sprintf, List.append_assoc]
      rw [sscanf_text (by decide), sscanf_int (by omega) (by omega) _ rfl]
      rfl

theorem scan_skylake_foreign :
    sscanf haswellLabel (Driver.label place .skylake ++ ending) = [(place.cpu : Int)] := by
  obtain ⟨cpu, ha, ch, dimm⟩ := place.small
  rw [Driver.label, skylakeLabel, haswellLabel]
  simp only [sprintf_text, sprintf, List.append_assoc]
  rw [sscanf_text (by decide), sscanf_int (by omega) (by omega) _ rfl]
  rfl

theorem labelTopo_driver (stop : stops ending = true)
    (single : driver = .sandybridge → place.ha = 0) :
    labelTopo (driver.label place ++ ending) = place.topo := by
  rw [← packTopo_small, labelTopo]
  cases driver with
  | sandybridge =>
      have alone : (place.ha : Int) = 0 := by exact_mod_cast single rfl
      simp only [scan_sandybridge stop, alone]
      exact if_pos rfl
  | haswell =>
      have first := @scan_foreign .haswell place ending nofun
      simp only [first, scan_haswell stop]
      exact (if_neg (by simp)).trans (if_pos rfl)
  | skylake =>
      have first := @scan_foreign .skylake place ending nofun
      simp only [first, scan_skylake_foreign, scan_skylake stop]
      exact (if_neg (by simp)).trans (if_neg (by simp))

theorem Labelled.unique {files : Files} {channel : Text × Int} {place other : SmallPlace}
    (labelled : Labelled files channel place) (also : Labelled files channel other) :
    place = other := by
  obtain ⟨driver, ending, stop, single, opened⟩ := labelled.label
  obtain ⟨driver', ending', stop', single', opened'⟩ := also.label
  have same := Option.some.inj (opened.symm.trans opened')
  apply SmallPlace.ext_topo
  rw [← labelTopo_driver stop single, same, labelTopo_driver stop' single']

end Labels

section Visits

variable {files : Files} {dimms after : Dimms}

/-- The slot that the label of a channel is found to name. -/
def namedSlot (files : Files) (dimms : Dimms) (channel : Text × Int) : Option Nat :=
  (files (channelName channel.1 channel.2 "_dimm_label")).bind fun label =>
    matchingDimm dimms (labelTopo label)

def channelPath (channel : Text × Int) : Int :=
  packPath (channelName channel.1 channel.2 "_dimm_label")

/-- What the matching looks at. -/
structure SameSlots (dimms other : Dimms) : Prop where
  slots : other.nrDimmSlots = dimms.nrDimmSlots
  info : ∀ i, ∃ edacPath,
    other.dimmInfoData i = { dimms.dimmInfoData i with edacPath := edacPath }

theorem matchingDimm_same (same : SameSlots dimms after) (topo : Int) :
    matchingDimm after topo = matchingDimm dimms topo := by
  rw [matchingDimm, matchingDimm]
  congr 1
  funext i
  obtain ⟨edacPath, info⟩ := same.info i
  rw [info]

theorem namedSlot_same (same : SameSlots dimms after) (channel : Text × Int) :
    namedSlot files after channel = namedSlot files dimms channel := by
  rw [namedSlot, namedSlot]
  congr 1
  funext label
  exact matchingDimm_same same _

theorem getTopo_named {channel : Text × Int}
    (parsed : getTopo files channel.1 channel.2 dimms = some after) (slot : Nat) :
    after.nrDimmSlots = dimms.nrDimmSlots ∧
      after.dimmInfoData slot = { dimms.dimmInfoData slot with
        edacPath :=
          if namedSlot files dimms channel = some slot then channelPath channel
          else (dimms.dimmInfoData slot).edacPath } := by
  rw [getTopo] at parsed
  rw [namedSlot]
  cases opened : files (channelName channel.1 channel.2 "_dimm_label") with
  | none =>
      simp only [opened] at parsed
      rw [← Option.some.inj parsed]
      exact ⟨rfl, rfl⟩
  | some label =>
      simp only [opened] at parsed
      rw [Option.bind_some]
      split at parsed
      · contradiction
      · cases matched : matchingDimm dimms (labelTopo label) with
        | none =>
            simp only [matched] at parsed
            rw [← Option.some.inj parsed]
            exact ⟨rfl, rfl⟩
        | some i =>
            simp only [matched] at parsed
            rw [← Option.some.inj parsed]
            refine ⟨rfl, ?_⟩
            by_cases here : slot = i
            · subst here
              simp [channelPath]
            · simp [here, Ne.symm here]

def lastPath (files : Files) (dimms : Dimms) (slot : Nat) (path : Int)
    (channels : List (Text × Int)) : Int :=
  channels.foldl (fun path channel =>
    if namedSlot files dimms channel = some slot then channelPath channel else path) path

theorem visits_lastPath {channels : List (Text × Int)}
    (visited : channels.foldlM
      (fun dimms channel => getTopo files channel.1 channel.2 dimms) dimms = some after)
    (slot : Nat) :
    after.nrDimmSlots = dimms.nrDimmSlots ∧
      after.dimmInfoData slot = { dimms.dimmInfoData slot with
        edacPath := lastPath files dimms slot (dimms.dimmInfoData slot).edacPath channels } := by
  induction channels generalizing dimms with
  | nil =>
      rw [← Option.some.inj visited]
      exact ⟨rfl, rfl⟩
  | cons channel rest ih =>
      rw [List.foldlM_cons] at visited
      obtain ⟨next, parsed, later⟩ := Option.bind_eq_some_iff.mp visited
      have here := getTopo_named parsed
      have same : SameSlots dimms next := ⟨(here 0).1, fun i => ⟨_, (here i).2⟩⟩
      obtain ⟨slots, info⟩ := ih later
      refine ⟨slots.trans (here slot).1, ?_⟩
      rw [info, (here slot).2]
      simp only [lastPath, List.foldl_cons, namedSlot_same same]

end Visits

section Counters

variable {files : Files} {dimms : Dimms}

theorem visits_defined {channels : List (Text × Int)}
    (counted : ∀ channel ∈ channels,
      files (channelName channel.1 channel.2 "_ce_count") ≠ none) :
    ∃ after, channels.foldlM
      (fun dimms channel => getTopo files channel.1 channel.2 dimms) dimms = some after := by
  induction channels generalizing dimms with
  | nil => exact ⟨dimms, rfl⟩
  | cons channel rest ih =>
      obtain ⟨content, found⟩ :=
        Option.ne_none_iff_exists'.mp (counted channel List.mem_cons_self)
      have parsed : ∃ next, getTopo files channel.1 channel.2 dimms = some next := by
        rw [getTopo, found]
        simp only
        split
        · exact ⟨_, rfl⟩
        · split <;> exact ⟨_, rfl⟩
      obtain ⟨next, parsed⟩ := parsed
      rw [List.foldlM_cons, parsed]
      exact ih fun later member => counted later (List.mem_cons_of_mem _ member)

end Counters

section Matching

variable {server : Server} {dimms : Dimms} {places : Nat → SmallPlace} {slot : Nat}

def Plugged (dimm : DimmInfo) : Prop := dimm.seq ≠ 0 ∧ 0 < dimm.szGb

/-- The texts of each plugged module say its place, and no two of them the same. -/
structure Known (server : Server) (dimms : Dimms) (places : Nat → SmallPlace) : Prop where
  means : ∀ slot < 32, Plugged (dimms.dimmInfoData slot) →
    Means server dimms.nrDimmSlots ((dimms.dimmInfoData slot).text .dloc)
      ((dimms.dimmInfoData slot).text .bloc) (places slot).place
  apart : ∀ slot < 32, ∀ other < 32, Plugged (dimms.dimmInfoData slot) →
    Plugged (dimms.dimmInfoData other) → places slot = places other → slot = other

theorem locateDimms_info (inside : slot < 32) :
    (locateDimms server dimms).dimmInfoData slot =
      locate server dimms.nrDimmSlots (dimms.dimmInfoData slot) := by
  have below : (slot : Int) < maxDimmSlot := by
    rw [maxDimmSlot]
    omega
  rw [locateDimms]
  exact if_pos below

@[simp] theorem locate_seq (server : Server) (nrDimmSlots : Nat) (dimm : DimmInfo) :
    (locate server nrDimmSlots dimm).seq = dimm.seq := by
  rw [locate]
  split <;> rfl

@[simp] theorem locate_szGb (server : Server) (nrDimmSlots : Nat) (dimm : DimmInfo) :
    (locate server nrDimmSlots dimm).szGb = dimm.szGb := by
  rw [locate]
  split <;> rfl

theorem Known.lowHalf_topo (known : Known server dimms places) (inside : slot < 32)
    (plugged : Plugged (dimms.dimmInfoData slot)) :
    lowHalf (locate server dimms.nrDimmSlots (dimms.dimmInfoData slot)).topo =
      (places slot).topo := by
  rw [locate, if_pos plugged.1]
  simp only [plugged.2, if_true]
  rw [parseDimmPath_means (known.means slot inside plugged), lowHalf_packPlace]

theorem Known.matching_iff (known : Known server dimms places) (place : SmallPlace) :
    matchingDimm (locateDimms server dimms) place.topo = some slot ↔
      slot < 32 ∧ Plugged (dimms.dimmInfoData slot) ∧ places slot = place := by
  have fits (i : Nat) (inside : i < 32) :
      ((locateDimms server dimms).dimmInfoData i).seq ≠ 0 ∧
          0 < ((locateDimms server dimms).dimmInfoData i).szGb ∧
          lowHalf ((locateDimms server dimms).dimmInfoData i).topo = place.topo ↔
        Plugged (dimms.dimmInfoData i) ∧ places i = place := by
    rw [locateDimms_info inside, locate_seq, locate_szGb, ← and_assoc]
    refine and_congr_right fun plugged => ?_
    rw [known.lowHalf_topo inside plugged]
    exact ⟨SmallPlace.ext_topo, congrArg SmallPlace.topo⟩
  have slots : maxDimmSlot.toNat = 32 := rfl
  rw [matchingDimm, slots, List.find?_range_eq_some]
  simp only [decide_eq_true_eq, List.mem_range, Bool.not_eq_true', decide_eq_false_iff_not]
  constructor
  · rintro ⟨found, inside, -⟩
    exact ⟨inside, (fits slot inside).mp found⟩
  · rintro ⟨inside, here⟩
    refine ⟨(fits slot inside).mpr here, inside, fun earlier before found => ?_⟩
    obtain ⟨plugged, same⟩ := (fits earlier (by omega)).mp found
    have one := known.apart earlier (by omega) slot inside plugged here.1 (same.trans here.2.symm)
    omega

end Matching

section Listed

variable {listing : Listing}

theorem printNat_two {value : Nat} (large : ¬value < 10) :
    ∃ first second rest, printNat value = first :: second :: rest := by
  have front := printNat_ne_nil (value / 10)
  rw [printNat, if_neg large]
  cases digits : printNat (value / 10) with
  | nil => exact absurd digits front
  | cons first others =>
      cases others with
      | nil => exact ⟨first, _, [], rfl⟩
      | cons second rest => exact ⟨first, second, rest ++ _, rfl⟩

theorem channelOf_ceCount {channel : Nat} (small : channel < 2147483648) :
    channelOf (sprintf ceCountName [(channel : Int)]) =
      if channel < 10 then some (channel : Int) else none := by
  have read : sscanf ceCountName (sprintf ceCountName [(channel : Int)]) = [(channel : Int)] :=
    sscanf_sprintf (by decide) ⟨by omega, by omega, rfl⟩
  have begins : beginWith (sprintf ceCountName [(channel : Int)]) "ch" = true := rfl
  have printed : sprintf ceCountName [(channel : Int)] =
      99 :: 104 :: (printNat channel ++ ascii "_ce_count") := by
    have positive : ¬(channel : Int) < 0 := by omega
    have last : sprintf (text "_ce_count") [] = ascii "_ce_count" := rfl
    rw [ceCountName, sprintf_text]
    simp only [sprintf, printInt, positive, if_false, Int.natAbs_natCast, last]
    rfl
  rw [channelOf, begins, read, printed, List.getD_cons_succ, List.getD_cons_succ]
  by_cases digit : channel < 10
  · rw [printNat, if_pos digit, if_pos digit]
    rfl
  · obtain ⟨first, second, rest, digits⟩ := printNat_two digit
    rw [if_neg digit, if_neg]
    rintro ⟨-, third⟩
    rw [digits] at third
    cases rest with
    | nil => exact absurd (show (95 : UInt8) = 99 from third) (by decide)
    | cons byte rest =>
        have plain := printNat_digits channel byte (by simp [digits])
        have same : byte = 99 := third
        rw [same] at plain
        exact absurd plain (by decide)

def mcName (dir : ChannelDir) : Text := sprintf (text "mc" ++ [.int]) [(dir.mc : Int)]

def csrowName (dir : ChannelDir) : Text := sprintf (text "csrow" ++ [.int]) [(dir.csrow : Int)]

/-- A channel stands in a directory of sysfs, with its controller's and its row's name. -/
structure Listed (listing : Listing) (dir : ChannelDir) : Prop where
  mc : ∃ names, listing edacMcDir = some names ∧ mcName dir ∈ names
  row : ∃ names, listing (subDir edacMcDir (mcName dir)) = some names ∧ csrowName dir ∈ names
  channel : ∃ names, listing dir.csrowDirName = some names ∧
    sprintf ceCountName [(dir.channel : Int)] ∈ names

theorem subDir_csrow (dir : ChannelDir) :
    subDir (subDir edacMcDir (mcName dir)) (csrowName dir) = dir.csrowDirName := by
  obtain ⟨mc, csrow, -⟩ := dir.small
  have first := printInt_length mc
  have second := printInt_length csrow
  have lengths : edacMcDir.length = 28 ∧ (ascii "mc").length = 2 ∧
      (ascii "csrow").length = 5 ∧ (ascii "/").length = 1 := by decide
  have last : sprintf (text "/") [] = ascii "/" := rfl
  have front : ascii "/sys/devices/system/edac/mc/mc" = edacMcDir ++ ascii "mc" := rfl
  have middle : ascii "/csrow" = ascii "/" ++ ascii "csrow" := rfl
  simp only [subDir, mcName, csrowName, ChannelDir.csrowDirName, sprintf_text, sprintf, last, front,
    middle, List.append_nil]
  rw [List.take_of_length_le (by simp only [List.length_append, List.length_take]; omega),
    List.take_of_length_le (by simp only [List.length_append]; omega)]
  simp only [List.append_assoc]

theorem mem_subDirs {dir name : Text} {kind : String}
    (listed : ∃ names, listing dir = some names ∧ name ∈ names)
    (begins : beginWith name kind = true) : subDir dir name ∈ subDirs listing dir kind := by
  obtain ⟨names, found, member⟩ := listed
  rw [subDirs, found]
  exact List.mem_map_of_mem (List.mem_filter.mpr ⟨member, begins⟩)

theorem visited_of_listed {dir : ChannelDir} (listed : Listed listing dir)
    (digit : dir.channel < 10) :
    (dir.csrowDirName, (dir.channel : Int)) ∈ visitedChannels listing := by
  have mc : subDir edacMcDir (mcName dir) ∈ subDirs listing edacMcDir "mc" :=
    mem_subDirs listed.mc rfl
  have row : dir.csrowDirName ∈ subDirs listing (subDir edacMcDir (mcName dir)) "csrow" :=
    subDir_csrow dir ▸ mem_subDirs listed.row rfl
  obtain ⟨names, found, member⟩ := listed.channel
  refine List.mem_flatMap.mpr ⟨_, mc, List.mem_flatMap.mpr ⟨_, row, ?_⟩⟩
  rw [found]
  refine List.mem_filterMap.mpr ⟨_, member, ?_⟩
  rw [channelOf_ceCount dir.small.2.2, if_pos digit]
  rfl

end Listed

section Whole

variable {server : Server} {files : Files} {listing : Listing} {dimms : Dimms}
  {places : Nat → SmallPlace}

/-- The channels of sysfs: each with a counter and a label, and no two with one place. -/
structure ChannelsRight (files : Files) (listing : Listing) : Prop where
  channel : ∀ channel ∈ visitedChannels listing, ∃ dir : ChannelDir,
    channel = (dir.csrowDirName, (dir.channel : Int)) ∧
      (dir.mc < 16 ∧ dir.csrow < 16 ∧ dir.channel < 16) ∧ files dir.ceCount ≠ none
  label : ∀ channel ∈ visitedChannels listing,
    Blank files channel ∨ ∃ place, Labelled files channel place
  apart : ∀ channel ∈ visitedChannels listing, ∀ other ∈ visitedChannels listing, ∀ place,
    Labelled files channel place → Labelled files other place → channel = other

theorem Known.namedSlot_iff (known : Known server dimms places) {channel : Text × Int}
    {place : SmallPlace} (labelled : Labelled files channel place) {slot : Nat} :
    namedSlot files (locateDimms server dimms) channel = some slot ↔
      slot < 32 ∧ Plugged (dimms.dimmInfoData slot) ∧ places slot = place := by
  obtain ⟨driver, ending, stop, single, opened⟩ := labelled.label
  rw [namedSlot, opened, Option.bind_some, labelTopo_driver stop single, known.matching_iff]

theorem namedSlot_blank {channel : Text × Int} (blank : Blank files channel) :
    namedSlot files dimms channel = none := by
  rw [namedSlot, Option.bind_eq_none_iff]
  intro label opened
  have negative := blank label opened
  rw [matchingDimm, List.find?_eq_none]
  intro slot _ found
  have positive : 0 ≤ lowHalf (dimms.dimmInfoData slot).topo := Int.emod_nonneg _ (by decide)
  have same := (of_decide_eq_true found).2.2
  omega

theorem ChannelsRight.named (right : ChannelsRight files listing) {channel : Text × Int}
    (visited : channel ∈ visitedChannels listing) {slot : Nat}
    (named : namedSlot files dimms channel = some slot) :
    ∃ place, Labelled files channel place := by
  rcases right.label channel visited with blank | labelled
  · rw [namedSlot_blank blank] at named
    contradiction
  · exact labelled

theorem lastPath_cases (slot : Nat) (path : Int) (channels : List (Text × Int)) :
    (lastPath files dimms slot path channels = path ∧
        ∀ channel ∈ channels, namedSlot files dimms channel ≠ some slot) ∨
      ∃ channel ∈ channels, namedSlot files dimms channel = some slot ∧
        lastPath files dimms slot path channels = channelPath channel := by
  induction channels generalizing path with
  | nil => exact .inl ⟨rfl, fun _ member => absurd member List.not_mem_nil⟩
  | cons channel rest ih =>
      rw [lastPath, List.foldl_cons]
      obtain ⟨kept, none⟩ | ⟨later, member, names, last⟩ := ih
        (if namedSlot files dimms channel = some slot then channelPath channel else path)
      · rw [lastPath] at kept
        by_cases names : namedSlot files dimms channel = some slot
        · exact .inr ⟨channel, List.mem_cons_self, names, kept.trans (if_pos names)⟩
        · refine .inl ⟨kept.trans (if_neg names), ?_⟩
          exact List.forall_mem_cons.mpr ⟨names, none⟩
      · exact .inr ⟨later, List.mem_cons_of_mem _ member, names, last⟩

theorem locateDimms_edacPath (server : Server) (dimms : Dimms) (slot : Nat) :
    ((locateDimms server dimms).dimmInfoData slot).edacPath =
      (dimms.dimmInfoData slot).edacPath := by
  simp only [locateDimms, locate]
  split_ifs <;> rfl

theorem locateDimms_edacVal (server : Server) (dimms : Dimms) (slot : Nat) :
    ((locateDimms server dimms).dimmInfoData slot).edacVal =
      (dimms.dimmInfoData slot).edacVal := by
  simp only [locateDimms, locate]
  split_ifs <;> rfl

theorem ChannelsRight.opened (right : ChannelsRight files listing) {channel : Text × Int}
    (visited : channel ∈ visitedChannels listing) : ∃ numbers counter,
      openedCounter (channelPath channel) =
        some (numbers, channelName channel.1 channel.2 "_ce_count") ∧
      files (channelName channel.1 channel.2 "_ce_count") = some counter := by
  obtain ⟨dir, rfl, small, counted⟩ := right.channel channel visited
  obtain ⟨counter, found⟩ := Option.ne_none_iff_exists'.mp counted
  exact ⟨dir.numbers, counter, (reads_back_iff dir).mpr small, found⟩

/-- What a slot shows at last of the channels that are labelled with its place. -/
structure ShowsOwn (files : Files) (listing : Listing) (place : SmallPlace)
    (before after : DimmInfo) : Prop where
  counted : ∀ dir : ChannelDir, Listed listing dir → dir.channel < 10 →
    Labelled files (dir.csrowDirName, (dir.channel : Int)) place →
      ∃ counter, files dir.ceCount = some counter ∧
        after.edacVal = scanned (sscanf [.int] counter) 0
  uncounted : (∀ channel ∈ visitedChannels listing, ¬Labelled files channel place) →
    after.edacVal = before.edacVal

theorem openedCounter_neg {edacPath : Int} (negative : edacPath < 0) :
    openedCounter edacPath = none := if_pos negative

/-- Where the names of the plugged modules say their places, every module in one of the
slots shows the counter of the channel that is labelled with its place, in whatever order
sysfs is listed. -/
theorem own_counters_shown (known : Known server dimms places) (right : ChannelsRight files listing)
    (fresh : ∀ slot < dimms.nrDimmSlots, (dimms.dimmInfoData slot).edacPath < 0) :
    ∃ after, showCounters server files listing dimms = some after ∧
      ∀ slot < dimms.nrDimmSlots, slot < 32 → Plugged (dimms.dimmInfoData slot) →
        ShowsOwn files listing (places slot) (dimms.dimmInfoData slot)
          (after.dimmInfoData slot) := by
  obtain ⟨decoded, visited⟩ := @visits_defined files (locateDimms server dimms)
    (visitedChannels listing) fun channel member => by
      obtain ⟨_, counter, -, found⟩ := right.opened member
      rw [found]
      exact Option.some_ne_none _
  have slots := (visits_lastPath visited 0).1
  have paths (slot : Nat) := congrArg DimmInfo.edacPath (visits_lastPath visited slot).2
  have values (slot : Nat) := congrArg DimmInfo.edacVal (visits_lastPath visited slot).2
  simp only [locateDimms_edacPath, locateDimms_edacVal] at paths values
  have present : ∀ slot < decoded.nrDimmSlots, Present files (decoded.dimmInfoData slot) := by
    intro slot below numbers path opened
    rw [paths slot] at opened
    obtain ⟨kept, -⟩ | ⟨channel, member, -, last⟩ := lastPath_cases slot
      (dimms.dimmInfoData slot).edacPath (visitedChannels listing)
    · rw [kept, openedCounter_neg (fresh slot (slots ▸ below))] at opened
      contradiction
    · obtain ⟨_, counter, stands, found⟩ := right.opened member
      rw [last, stands, Option.some.injEq, Prod.mk.injEq] at opened
      rw [← opened.2, found]
      exact Option.some_ne_none _
  have whole : showCounters server files listing dimms = getEdacVal files decoded := by
    rw [showCounters, edacSysfsDecode, visited]
    rfl
  refine ⟨_, whole.trans (visitDimms_shown decoded.nrDimmSlots present), ?_⟩
  intro slot below inside plugged
  simp only [slots.symm ▸ below, if_true]
  have names {channel : Text × Int} {place : SmallPlace}
      (labelled : Labelled files channel place) :
      namedSlot files (locateDimms server dimms) channel = some slot ↔ places slot = place := by
    rw [known.namedSlot_iff labelled]
    exact ⟨fun all => all.2.2, fun same => ⟨inside, plugged, same⟩⟩
  have ways := @lastPath_cases files (locateDimms server dimms) slot
    (dimms.dimmInfoData slot).edacPath (visitedChannels listing)
  rw [← paths slot] at ways
  constructor
  · intro dir listed digit labelled
    have member := visited_of_listed listed digit
    obtain ⟨-, none⟩ | ⟨other, visits, named, last⟩ := ways
    · exact absurd ((names labelled).mpr rfl) (none _ member)
    · obtain ⟨place, placed⟩ := right.named visits named
      have here := (names placed).mp named
      obtain rfl := right.apart _ member other visits _ labelled (here ▸ placed)
      obtain ⟨numbers, counter, stands, found⟩ := right.opened visits
      refine ⟨counter, found, ?_⟩
      simp only [shown, last, stands, found, Option.getD_some]
  · intro unlabelled
    obtain ⟨kept, -⟩ | ⟨other, visits, named, -⟩ := ways
    · simp only [shown, kept, openedCounter_neg (fresh slot below), values slot]
    · obtain ⟨place, placed⟩ := right.named visits named
      exact absurd ((names placed).mp named ▸ placed) (unlabelled other visits)

end Whole

section Sample

def sampleDir (channel : Fin 2) : ChannelDir := ⟨0, 0, channel, by omega⟩

def samplePlace (channel : Fin 2) : SmallPlace := ⟨channel, 0, channel, 0, by omega⟩

def sampleNumbers (channel : Fin 2) : SlotNumbers := ⟨0, channel, channel, 0, by omega⟩

def sampleDimm (channel : Fin 2) : DimmInfo :=
  ⟨1, 16, -1, -1, -2, texts ((Naming.node (ascii "000")).loc1 (sampleNumbers channel))
    ((Naming.node (ascii "000")).loc2 (sampleNumbers channel)) [] []⟩

def sampleDimms : Dimms where
  buf _ := 0
  dimmInfoData slot :=
    if slot = 0 then sampleDimm 1
    else if slot = 1 then sampleDimm 0
    else ⟨0, 0, 0, 0, 0, fun _ => []⟩
  dimmPlugged := 2
  nrDimmSlots := 2

def placeOfSlot (slot : Nat) : SmallPlace := samplePlace (if slot = 0 then 1 else 0)

def sampleListing : Listing := fun dir =>
  if dir = edacMcDir then some [ascii "mc", ascii "mc0"]
  else if dir = edacMcDir ++ ascii "mc0/" then some [ascii "csrow0"]
  else if dir = edacMcDir ++ ascii "mc0/csrow0/" then
    some [ascii "ch1_ce_count", ascii "ch0_dimm_label", ascii "ch0_ce_count"]
  else none

-- seven corrected errors on the first channel, twelve on the second
def sampleFiles : Files := fun path =>
  if path = (sampleDir 0).ceCount then some (ascii "7\n")
  else if path = (sampleDir 1).ceCount then some (ascii "12\n")
  else if path = channelName (sampleDir 0).csrowDirName 0 "_dimm_label" then
    some (Driver.label (samplePlace 0) .skylake ++ [10])
  else if path = channelName (sampleDir 1).csrowDirName 1 "_dimm_label" then
    some (Driver.label (samplePlace 1) .skylake ++ [10])
  else none

theorem sample_visited : visitedChannels sampleListing =
    [((sampleDir 1).csrowDirName, 1), ((sampleDir 0).csrowDirName, 0)] := by
  decide +kernel

theorem sample_listed (channel : Fin 2) : Listed sampleListing (sampleDir channel) where
  mc := ⟨[ascii "mc", ascii "mc0"], rfl, by decide +kernel +revert⟩
  row := ⟨[ascii "csrow0"], by decide +kernel +revert, by decide +kernel +revert⟩
  channel := ⟨[ascii "ch1_ce_count", ascii "ch0_dimm_label", ascii "ch0_ce_count"],
    by decide +kernel +revert, by decide +kernel +revert⟩

theorem sample_labelled (channel : Fin 2) :
    Labelled sampleFiles ((sampleDir channel).csrowDirName, ((sampleDir channel).channel : Int))
      (samplePlace channel) where
  label := ⟨.skylake, [10], by decide, nofun, by decide +kernel +revert⟩

theorem sample_cases {channel : Text × Int} (member : channel ∈ visitedChannels sampleListing) :
    ∃ number : Fin 2,
      channel = ((sampleDir number).csrowDirName, ((sampleDir number).channel : Int)) := by
  rw [sample_visited, List.mem_pair] at member
  rcases member with second | first
  · exact ⟨1, second⟩
  · exact ⟨0, first⟩

theorem sample_plugged {slot : Nat} (plugged : Plugged (sampleDimms.dimmInfoData slot)) :
    slot = 0 ∨ slot = 1 := by
  by_contra other
  obtain ⟨first, second⟩ := not_or.mp other
  rw [sampleDimms] at plugged
  simp only [first, second, if_false] at plugged
  exact plugged.1 rfl

theorem sample_known (bvname pname : Text) :
    Known (purleyServer bvname pname) sampleDimms placeOfSlot where
  means slot _ plugged := by
    obtain rfl | rfl := sample_plugged plugged
    · exact Means.named (.node (ascii "000")) (sampleNumbers 1)
    · exact Means.named (.node (ascii "000")) (sampleNumbers 0)
  apart slot _ other _ plugged also same := by
    obtain rfl | rfl := sample_plugged plugged <;> obtain rfl | rfl := sample_plugged also
    · rfl
    · exact absurd (congrArg SmallPlace.cpu same) (by decide)
    · exact absurd (congrArg SmallPlace.cpu same) (by decide)
    · rfl

theorem sample_small (number : Fin 2) :
    ((sampleDir number).mc < 16 ∧ (sampleDir number).csrow < 16 ∧ (sampleDir number).channel < 16) ∧
      sampleFiles (sampleDir number).ceCount ≠ none := by
  decide +kernel +revert

theorem sample_channels : ChannelsRight sampleFiles sampleListing where
  channel channel member := by
    obtain ⟨number, rfl⟩ := sample_cases member
    exact ⟨sampleDir number, rfl, sample_small number⟩
  label channel member := by
    obtain ⟨number, rfl⟩ := sample_cases member
    exact .inr ⟨samplePlace number, sample_labelled number⟩
  apart channel member other also place labelled labelledToo := by
    obtain ⟨number, rfl⟩ := sample_cases member
    obtain ⟨number', rfl⟩ := sample_cases also
    have first := (sample_labelled number).unique labelled
    have second := (sample_labelled number').unique labelledToo
    have same : (number : Nat) = number' := congrArg SmallPlace.cpu (first.trans second.symm)
    rw [Fin.ext same]

theorem own_counters_shown_sample : ∃ after,
    showCounters (purleyServer (ascii "Huawei") []) sampleFiles sampleListing sampleDimms =
        some after ∧ (after.dimmInfoData 0).edacVal = 12 ∧ (after.dimmInfoData 1).edacVal = 7 := by
  obtain ⟨after, ran, own⟩ :=
    own_counters_shown (sample_known (ascii "Huawei") []) sample_channels (by decide)
  have second := own 0 (by decide) (by decide) ⟨by decide, by decide⟩
  have first := own 1 (by decide) (by decide) ⟨by decide, by decide⟩
  obtain ⟨twelve, stands, value⟩ :=
    second.counted (sampleDir 1) (sample_listed 1) (by decide) (sample_labelled 1)
  obtain ⟨seven, found, number⟩ :=
    first.counted (sampleDir 0) (sample_listed 0) (by decide) (sample_labelled 0)
  have opens : sampleFiles (sampleDir 1).ceCount = some (ascii "12\n") ∧
      sampleFiles (sampleDir 0).ceCount = some (ascii "7\n") := by decide +kernel
  refine ⟨after, ran, ?_, ?_⟩
  · rw [value, Option.some.inj (stands.symm.trans opens.1)]
    decide
  · rw [number, Option.some.inj (found.symm.trans opens.2)]
    decide

end Sample

end DirtyCode.EdacParser
