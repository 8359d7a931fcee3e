import DirtyCode.EdacParser.DmiStrings

/-!
The CPU topology of `edac_parser.c`: `get_index` and `get_ht_index`, which read a file of
one CPU each, and the maxima of `init_cpu_topo`.
-/

namespace DirtyCode.EdacParser

open Lib

abbrev Bytes := List UInt8

def maxPkg : Int := 8
def maxCore : Int := 64
def maxHt : Int := 2

/-- A file of sysfs, and what is on the stack where it is read to. -/
structure SysfsFile where
  content : Option Bytes
  stack : Bytes

inductive TopologyFile
  | physicalPackageId
  | coreId
  | threadSiblingsList

abbrev Sysfs := Int → TopologyFile → SysfsFile

/-- `pread` into the eight bytes of `data`, nothing where it fails. -/
def SysfsFile.data (file : SysfsFile) : Option Bytes :=
  file.content.bind fun content =>
    if content = [] then none
    else some (content.take 8 ++ file.stack.drop (content.take 8).length)

def getIndex (file : SysfsFile) : Int :=
  match file.data with
  | none => -1
  | some data => signedChar (UInt8.ofInt (atoi data))

def getHtIndex (cpuIdx : Int) (file : SysfsFile) : Int :=
  match file.data with
  | none => -1
  | some data =>
      match data.takeWhile (· ≠ 0) with
      | [] => -1
      | text =>
          match (text.dropLast.splitOn 44).findIdx? (fun field => atoi field = cpuIdx) with
          | none => -1
          | some ret => signedChar (UInt8.ofNat ret)

structure Topology where
  topo : Int → Int → Int → Int
  nrPkg : Int
  coreIdMax : Int
  corePerPkg : Int
  htPerCore : Int
  nrLcpu : Int

def startTopology : Topology where
  topo _ _ _ := -1
  nrPkg := -1
  coreIdMax := -1
  corePerPkg := 0
  htPerCore := -1
  nrLcpu := 0

structure LogicalCpu where
  idx : Int
  pidx : Int
  cidx : Int
  hidx : Int
  deriving DecidableEq

def readCpu (sysfs : Sysfs) (idx : Int) : LogicalCpu where
  idx := idx
  pidx := getIndex (sysfs idx .physicalPackageId)
  cidx := getIndex (sysfs idx .coreId)
  hidx := getHtIndex idx (sysfs idx .threadSiblingsList)

-- undefined where the indices leave `topo`
def addCpu (topology : Topology) (cpu : LogicalCpu) : Option Topology :=
  if 0 ≤ cpu.pidx ∧ 0 ≤ cpu.cidx ∧ 0 ≤ cpu.hidx then
    if cpu.pidx < maxPkg ∧ cpu.cidx < maxCore ∧ cpu.hidx < maxHt then
      some {
        topology with
        topo := fun pkg core ht =>
          if pkg = cpu.pidx ∧ core = cpu.cidx ∧ ht = cpu.hidx then
            (BitVec.ofInt 16 cpu.idx).toInt
          else topology.topo pkg core ht
        nrLcpu := topology.nrLcpu + 1
        nrPkg := if topology.nrPkg < cpu.pidx then cpu.pidx else topology.nrPkg
        coreIdMax := if topology.coreIdMax < cpu.cidx then cpu.cidx else topology.coreIdMax
        htPerCore := if topology.htPerCore < cpu.hidx then cpu.pidx else topology.htPerCore }
    else none
  else some topology

def countCores (topology : Topology) : Topology :=
  { topology with
    corePerPkg := topology.corePerPkg + (List.range (topology.coreIdMax + 1).toNat).countP
      fun i => 0 ≤ topology.topo 0 i 0 }

def listedCpus (sysfs : Sysfs) (cpuList : List Bytes) : List LogicalCpu :=
  (cpuList.filter fun name => (name.head?.map isDigit).getD false).map fun name =>
    readCpu sysfs (atoi name)

def initCpuTopo (sysfs : Sysfs) (cpuList : List Bytes) : Option Topology :=
  ((listedCpus sysfs cpuList).foldlM addCpu startTopology).map fun topology =>
    countCores { topology with
      nrPkg := topology.nrPkg + 1
      htPerCore := topology.htPerCore + 1 }

/-- The largest of the indices, -1 where there are none. -/
def largest (indices : List Int) : Int := indices.foldr max (-1)

theorem largest_perm {indices others : List Int} (perm : indices.Perm others) :
    largest indices = largest others := perm.foldr_op_eq

theorem le_largest {indices : List Int} {index : Int} (member : index ∈ indices) :
    index ≤ largest indices := by
  induction indices with
  | nil => contradiction
  | cons first rest ih =>
      rw [largest, List.foldr_cons]
      rcases List.mem_cons.mp member with rfl | later
      · exact le_max_left _ _
      · exact le_max_of_le_right (ih later)

theorem largest_le {indices : List Int} {bound : Int} (least : -1 ≤ bound)
    (below : ∀ index ∈ indices, index ≤ bound) : largest indices ≤ bound := by
  induction indices with
  | nil => exact least
  | cons first rest ih =>
      obtain ⟨here, later⟩ := List.forall_mem_cons.mp below
      exact max_le here (ih later)

structure LogicalCpu.InRange (cpu : LogicalCpu) : Prop where
  pidx : 0 ≤ cpu.pidx ∧ cpu.pidx < 8
  cidx : 0 ≤ cpu.cidx ∧ cpu.cidx < 64
  hidx : 0 ≤ cpu.hidx ∧ cpu.hidx < 2

structure TopologyRight (cpus : List LogicalCpu) (topology : Topology) : Prop where
  nrPkg : topology.nrPkg = 1 + largest (cpus.map LogicalCpu.pidx)
  coreIdMax : topology.coreIdMax = largest (cpus.map LogicalCpu.cidx)
  htPerCore : topology.htPerCore = 1 + largest (cpus.map LogicalCpu.hidx)

theorem TopologyRight.perm {cpus others : List LogicalCpu} {topology : Topology}
    (right : TopologyRight cpus topology) (perm : cpus.Perm others) :
    TopologyRight others topology where
  nrPkg := right.nrPkg.trans (congrArg (1 + ·) (largest_perm (perm.map _)))
  coreIdMax := right.coreIdMax.trans (largest_perm (perm.map _))
  htPerCore := right.htPerCore.trans (congrArg (1 + ·) (largest_perm (perm.map _)))

def takeHt (htPerCore : Int) (cpu : LogicalCpu) : Int :=
  if htPerCore < cpu.hidx then cpu.pidx else htPerCore

theorem foldlM_addCpu {cpus : List LogicalCpu} (inRange : ∀ cpu ∈ cpus, cpu.InRange)
    (topology : Topology) :
    ∃ after, cpus.foldlM addCpu topology = some after ∧
      after.nrPkg = (cpus.map LogicalCpu.pidx).foldl max topology.nrPkg ∧
      after.coreIdMax = (cpus.map LogicalCpu.cidx).foldl max topology.coreIdMax ∧
      after.htPerCore = cpus.foldl takeHt topology.htPerCore := by
  induction cpus generalizing topology with
  | nil => exact ⟨topology, rfl, rfl, rfl, rfl⟩
  | cons cpu rest ih =>
      obtain ⟨here, later⟩ := List.forall_mem_cons.mp inRange
      obtain ⟨pidx, cidx, hidx⟩ := here
      have known : 0 ≤ cpu.pidx ∧ 0 ≤ cpu.cidx ∧ 0 ≤ cpu.hidx := ⟨pidx.1, cidx.1, hidx.1⟩
      have inside : cpu.pidx < maxPkg ∧ cpu.cidx < maxCore ∧ cpu.hidx < maxHt :=
        ⟨pidx.2, cidx.2, hidx.2⟩
      rw [List.foldlM_cons, addCpu, if_pos known, if_pos inside, Option.bind_eq_bind,
        Option.bind_some]
      obtain ⟨after, folded, packages, cores, threads⟩ := ih later _
      refine ⟨after, folded, packages.trans ?_, cores.trans ?_, threads.trans rfl⟩
      · rw [List.map_cons, List.foldl_cons, max_def_lt]
      · rw [List.map_cons, List.foldl_cons, max_def_lt]

theorem foldl_max (indices : List Int) : indices.foldl max (-1) = largest indices :=
  List.foldl_eq_foldr

theorem takeHt_settled {cpus : List LogicalCpu} (inRange : ∀ cpu ∈ cpus, cpu.InRange)
    {htPerCore : Int} (settled : 1 ≤ htPerCore) : cpus.foldl takeHt htPerCore = htPerCore := by
  induction cpus with
  | nil => rfl
  | cons cpu rest ih =>
      obtain ⟨here, later⟩ := List.forall_mem_cons.mp inRange
      have thread := here.hidx.2
      rw [List.foldl_cons, takeHt, if_neg (by omega)]
      exact ih later

/-- A second thread in another package than the first. -/
def LogicalCpu.elsewhere (cpu : LogicalCpu) : Bool := cpu.hidx = 1 ∧ cpu.pidx ≠ 0

/-- From 0 on the first such CPU gives `ht_per_core` the number of its package. -/
theorem takeHt_zero {cpus : List LogicalCpu} (inRange : ∀ cpu ∈ cpus, cpu.InRange) :
    cpus.foldl takeHt 0 = ((cpus.find? LogicalCpu.elsewhere).map LogicalCpu.pidx).getD 0 := by
  induction cpus with
  | nil => rfl
  | cons cpu rest ih =>
      obtain ⟨here, later⟩ := List.forall_mem_cons.mp inRange
      have threads := here.hidx
      have packages := here.pidx.1
      rw [List.foldl_cons]
      by_cases other : cpu.elsewhere = true
      · have second : cpu.hidx = 1 ∧ cpu.pidx ≠ 0 := by simpa [LogicalCpu.elsewhere] using other
        rw [List.find?_cons_of_pos other, takeHt, if_pos (by omega),
          takeHt_settled later (by omega)]
        rfl
      · have unmoved : takeHt 0 cpu = 0 := by
          have known : cpu.hidx = 1 → cpu.pidx = 0 := by simpa [LogicalCpu.elsewhere] using other
          rw [takeHt]
          split
          · exact known (by omega)
          · rfl
        rw [List.find?_cons_of_neg other, unmoved]
        exact ih later

/-- The first CPU listed is of package 0 or 1, and where there are second threads a first
one of package 0 is made up for by package 1, whose second thread comes first of those in
other packages. -/
def ThreadsCounted : List LogicalCpu → Prop
  | [] => True
  | first :: rest =>
      if ∃ cpu ∈ first :: rest, cpu.hidx = 1 then
        first.pidx = 1 ∨ first.pidx = 0 ∧
          (rest.find? LogicalCpu.elsewhere).map LogicalCpu.pidx = some 1
      else first.pidx = 0

instance : DecidablePred ThreadsCounted := fun cpus => by
  cases cpus with
  | nil => exact inferInstanceAs (Decidable True)
  | cons first rest => exact inferInstanceAs (Decidable (ite _ _ _))

theorem largest_hidx {first : LogicalCpu} {rest : List LogicalCpu}
    (inRange : ∀ cpu ∈ first :: rest, cpu.InRange) :
    largest ((first :: rest).map LogicalCpu.hidx) =
      if ∃ cpu ∈ first :: rest, cpu.hidx = 1 then 1 else 0 := by
  have lower : first.hidx ≤ largest ((first :: rest).map LogicalCpu.hidx) :=
    le_largest (List.mem_cons_self)
  have start := (inRange first List.mem_cons_self).hidx.1
  split
  · rename_i second
    obtain ⟨cpu, member, thread⟩ := second
    have reached : cpu.hidx ≤ largest ((first :: rest).map LogicalCpu.hidx) :=
      le_largest (List.mem_map_of_mem member)
    have bound : largest ((first :: rest).map LogicalCpu.hidx) ≤ 1 := by
      refine largest_le (by decide) fun index found => ?_
      obtain ⟨other, listed, rfl⟩ := List.mem_map.mp found
      have thread := (inRange other listed).hidx.2
      omega
    omega
  · rename_i none
    have bound : largest ((first :: rest).map LogicalCpu.hidx) ≤ 0 := by
      refine largest_le (by decide) fun index found => ?_
      obtain ⟨other, listed, rfl⟩ := List.mem_map.mp found
      have threads := (inRange other listed).hidx
      have single : other.hidx ≠ 1 := fun thread => none ⟨other, listed, thread⟩
      omega
    omega

theorem takeHt_right_iff {cpus : List LogicalCpu} (inRange : ∀ cpu ∈ cpus, cpu.InRange) :
    cpus.foldl takeHt (-1) = largest (cpus.map LogicalCpu.hidx) ↔ ThreadsCounted cpus := by
  cases cpus with
  | nil => exact iff_of_true rfl trivial
  | cons first rest =>
      obtain ⟨here, later⟩ := List.forall_mem_cons.mp inRange
      have thread := here.hidx.1
      have package := here.pidx.1
      rw [largest_hidx inRange, List.foldl_cons, takeHt, if_pos (by omega), ThreadsCounted]
      by_cases zero : first.pidx = 0
      · rw [zero, takeHt_zero later]
        cases found : rest.find? LogicalCpu.elsewhere with
        | none => split <;> simp
        | some cpu =>
            have second : cpu.hidx = 1 ∧ cpu.pidx ≠ 0 := by
              simpa [LogicalCpu.elsewhere] using List.find?_some found
            have listed : ∃ cpu ∈ first :: rest, cpu.hidx = 1 :=
              ⟨cpu, List.mem_cons_of_mem _ (List.mem_of_find?_eq_some found), second.1⟩
            rw [if_pos listed, if_pos listed]
            simp
      · rw [takeHt_settled later (by omega)]
        split
        · simp [zero]
        · exact Iff.rfl

/-- Whatever the order of the directory, packages and cores are counted right; the threads
are exactly where the packages of the CPUs happen to give their number. -/
theorem topology_right_iff (sysfs : Sysfs) (cpuList : List Bytes)
    (inRange : ∀ cpu ∈ listedCpus sysfs cpuList, cpu.InRange) :
    (∃ topology, initCpuTopo sysfs cpuList = some topology ∧
      TopologyRight (listedCpus sysfs cpuList) topology) ↔
        ThreadsCounted (listedCpus sysfs cpuList) := by
  obtain ⟨after, folded, packages, cores, threads⟩ := foldlM_addCpu inRange startTopology
  have start : startTopology.nrPkg = -1 ∧ startTopology.coreIdMax = -1 ∧
    startTopology.htPerCore = -1 := ⟨rfl, rfl, rfl⟩
  rw [start.1, foldl_max] at packages
  rw [start.2.1, foldl_max] at cores
  rw [start.2.2] at threads
  rw [← takeHt_right_iff inRange, initCpuTopo, folded, Option.map_some]
  constructor
  · rintro ⟨topology, ended, right⟩
    have counted := right.htPerCore
    rw [← Option.some.inj ended] at counted
    simp only [countCores, threads] at counted
    omega
  · intro counted
    refine ⟨_, rfl, ?_⟩
    constructor
    · simp only [countCores, packages]
      omega
    · exact cores
    · simp only [countCores, threads, counted]
      omega

def twoPackages : Sysfs := fun cpu file =>
  match file with
  | .physicalPackageId => ⟨some [if cpu % 2 = 0 then 48 else 49, 10], List.replicate 8 0⟩
  | .coreId => ⟨some [48, 10], List.replicate 8 0⟩
  | .threadSiblingsList =>
      ⟨some (ascii (if cpu % 2 = 0 then "0,2\n" else "1,3\n")), List.replicate 8 0⟩

theorem topology_right_iff_twoPackages :
    ∃ topology, initCpuTopo twoPackages [[46, 46], [48], [49], [50], [51]] = some topology ∧
      TopologyRight (listedCpus twoPackages [[46, 46], [48], [49], [50], [51]]) topology := by
  have cpus : listedCpus twoPackages [[46, 46], [48], [49], [50], [51]] =
      [⟨0, 0, 0, 0⟩, ⟨1, 1, 0, 0⟩, ⟨2, 0, 0, 1⟩, ⟨3, 1, 0, 1⟩] := by decide
  apply (topology_right_iff twoPackages _ ?_).mpr
  · rw [cpus]
    decide
  · rw [cpus]
    intro cpu member
    simp only [List.mem_cons, List.not_mem_nil, or_false] at member
    rcases member with rfl | rfl | rfl | rfl <;> exact ⟨by decide, by decide, by decide⟩

def oneCore : Sysfs := fun _ file =>
  match file with
  | .threadSiblingsList => ⟨some [48, 44, 49, 10], List.replicate 8 0⟩
  | _ => ⟨some [48, 10], List.replicate 8 0⟩

/-- Both threads are in package 0, so one thread is counted. -/
theorem second_thread_not_counted :
    ¬∃ topology, initCpuTopo oneCore [[48], [49]] = some topology ∧
      TopologyRight (listedCpus oneCore [[48], [49]]) topology := by
  have cpus : listedCpus oneCore [[48], [49]] = [⟨0, 0, 0, 0⟩, ⟨1, 0, 0, 1⟩] := by decide
  rintro ⟨topology, ended, right⟩
  have counted := right.htPerCore
  rw [initCpuTopo, cpus] at ended
  rw [← Option.some.inj ended, cpus] at counted
  exact absurd counted (by decide)

end DirtyCode.EdacParser
