import DirtyCode.Lib.Fgets
import DirtyCode.Lib.Format

/-!
`coreProcess` of `getMemoryInfo.c`: three nested loops read `/proc/zoneinfo` through one
file pointer. A value carries the number of the zone section that it was read in.
-/

namespace DirtyCode.MemoryInfo

open Lib

abbrev Bytes := List UInt8

def strstr (needle : Bytes) : Bytes → Option Bytes
  | [] => if needle.isEmpty then some [] else none
  | byte :: rest =>
      if needle.isPrefixOf (byte :: rest) then some (byte :: rest) else strstr needle rest

def contains (needle : String) (line : Bytes) : Bool := (strstr (ascii needle) line).isSome

-- the number that `sscanf` reads for a `%lld` behind a word, where it returns 1
def scanAfter (word : String) (line : Bytes) : Option Int :=
  (sscanf (text word ++ [.byte 32, .long]) line).head?

-- `sscanf(linebuf, "Node %d, zone", &zoneid)`
def nodeOf (line : Bytes) : Option Int :=
  (sscanf (text "Node " ++ .int :: text ", zone") line).head?

-- a value and the section of the line that it comes from
structure Got where
  value : Int
  zone : Option Nat
  deriving DecidableEq, Repr

structure Fields where
  zone : Nat -- the section whose header the loop was entered with
  zoneid : Int
  freePage : Got
  low : Got
  nrInactiveFile : Got
  cntGot : Nat
  deriving DecidableEq, Repr

structure Report where
  zone : Nat
  node : Int
  free : Got
  low : Got
  inact : Got
  avlb : Int
  deriving DecidableEq, Repr

def Fields.start (zone : Nat) (zoneid : Int) : Fields :=
  ⟨zone, zoneid, ⟨0, none⟩, ⟨0, none⟩, ⟨-1, none⟩, 0⟩

def Fields.report (fields : Fields) : Report where
  zone := fields.zone
  node := fields.zoneid
  free := fields.freePage
  low := fields.low
  inact := fields.nrInactiveFile
  avlb := fields.freePage.value + fields.nrInactiveFile.value - fields.low.value

/-- Which of the three `fgets` reads the next line. -/
inductive Mode
  | outer
  | fields (fields : Fields)
  | low (fields : Fields) (sub : Nat)
  deriving DecidableEq, Repr

-- `if(nr_inactive_file < 0 && strstr(ptr, name) != NULL)`
def takeInactive (name : String) (zone : Nat) (ptr : Bytes) (fields : Fields) : Fields :=
  if fields.nrInactiveFile.value < 0 ∧ contains name ptr then
    match scanAfter name ptr with
    | some value => { fields with
        nrInactiveFile := ⟨value, some zone⟩, cntGot := fields.cntGot + 1 }
    | none => fields
  else fields

-- the test at the end of a pass, and that of `while (cnt_got < 2 && ...)`
def endOfPass (fields : Fields) : Mode × List Report :=
  if fields.cntGot = 2 then (.outer, [fields.report])
  else if fields.cntGot < 2 then (.fields fields, [])
  else (.outer, [])

def outerLine (zone : Nat) (line : Bytes) : Mode × List Report :=
  match nodeOf line with
  | some zoneid =>
      if contains "Normal" line then (.fields (.start zone zoneid), []) else (.outer, [])
  | none => (.outer, [])

def fieldsLine (zone : Nat) (line : Bytes) (fields : Fields) : Mode × List Report :=
  let ptr := line.dropWhile fun byte => byte = 32 ∨ byte = 9
  let fields := takeInactive "nr_zone_inactive_file" zone ptr fields
  let fields := takeInactive "nr_inactive_file" zone ptr fields
  if contains "pages free" ptr then
    match scanAfter "pages free" ptr with
    | some value => (.low { fields with freePage := ⟨value, some zone⟩ } 0, [])
    | none => (.outer, [])
  else endOfPass fields

def lowLine (zone : Nat) (line : Bytes) (fields : Fields) (sub : Nat) : Mode × List Report :=
  match (strstr (ascii "low") line).bind (scanAfter "low") with
  | some value =>
      endOfPass { fields with low := ⟨value, some zone⟩, cntGot := fields.cntGot + 1 }
  | none => if sub + 1 < 3 then (.low fields (sub + 1), []) else endOfPass fields

def step (zone : Nat) (line : Bytes) : Mode → Mode × List Report
  | .outer => outerLine zone line
  | .fields fields => fieldsLine zone line fields
  | .low fields sub => lowLine zone line fields sub

def run : Mode → List (Nat × Bytes) → Mode × List Report
  | mode, [] => (mode, [])
  | mode, (zone, line) :: rest =>
      let stepped := step zone line mode
      let later := run stepped.1 rest
      (later.1, stepped.2 ++ later.2)

-- no line is left for the innermost loop
def finish : Mode → List Report
  | .low fields _ => (endOfPass fields).2
  | _ => []

def readLines (content : Bytes) : List Bytes :=
  (reads 256 content).map fun line => line.takeWhile (· ≠ 0)

theorem readLines_fileOf {lines : List Bytes}
    (short : ∀ line ∈ lines, 10 ∉ line ∧ 0 ∉ line ∧ line.length ≤ 254) :
    readLines (fileOf lines) = lines.map fun line => line ++ [10] := by
  have whole : ∀ line ∈ lines, readsOf 255 line = [line ++ [10]] := by
    intro line member
    have bounded := (short line member).2.2
    rw [readsOf, if_neg (by omega)]
  have passes : reads 256 (fileOf lines) = lines.flatMap (readsOf 255) :=
    reads_fileOf (by decide) fun line member =>
      ⟨(short line member).1, Nat.le_succ_of_le (short line member).2.2⟩
  rw [readLines, passes, List.flatMap_congr whole, ← List.map_eq_flatMap, List.map_map]
  apply List.map_congr_left
  intro line member
  refine List.takeWhile_eq_self_iff.mpr fun byte inside => ?_
  rcases List.mem_append.mp inside with inside | inside
  · exact decide_eq_true fun zero => (short line member).2.1 (zero ▸ inside)
  · rw [List.mem_singleton.mp inside]
    decide

/-- The lines, each with the number of node headers up to it. -/
def numbered : Nat → List Bytes → List (Nat × Bytes)
  | _, [] => []
  | zone, line :: rest =>
      let zone := if (nodeOf line).isSome then zone + 1 else zone
      (zone, line) :: numbered zone rest

def reports (mode : Mode) (lines : List (Nat × Bytes)) : List Report :=
  (run mode lines).2 ++ finish (run mode lines).1

def coreProcess (content : Bytes) : List Report := reports .outer (numbered 0 (readLines content))

end DirtyCode.MemoryInfo
