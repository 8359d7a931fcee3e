import DirtyCode.ConfServer.Session
import DirtyCode.Lib.Loop
import DirtyCode.Lib.Memory
import DirtyCode.Lib.Scan

/-!
`parse_input_conf` of `confServer.c`: the lines of the input buffer are rewritten
in place into one chain of replies for each session.
-/

namespace DirtyCode.ConfServer

open Lib

def inputBufSize : Nat := 8 * 1024 * 1024

structure Config where
  nWorkers : Nat
  forceDisconnectSeconds : Nat
  globalInputBuf : Nat -- its address
  mapped : 0 < globalInputBuf ∧ globalInputBuf + inputBufSize < 2 ^ 64

def scanDot : List UInt8 → Option (List UInt8)
  | [] => none
  | byte :: rest => if byte = 46 then some rest else none

-- `sscanf(line, "%d.%d.%d.%d", ...)`, where it returns 4
def scanAddress (text : List UInt8) : Option (Int × Int × Int × Int) := do
  let (a, text) ← scanInt text
  let text ← scanDot text
  let (b, text) ← scanInt text
  let text ← scanDot text
  let (c, text) ← scanInt text
  let text ← scanDot text
  let (d, _) ← scanInt text
  some (a, b, c, d)

def lookupSession (nWorkers : Nat) (tables : Tables) (ipv4 index : Int) :
    Option (Int × Nat × Session) :=
  let thread := parseThread nWorkers ipv4
  let slot := tables.ipToSlotIdx index
  if slot < 0 then none
  else (tables.sessionArray thread slot.toNat).map fun session => (thread, slot.toNat, session)

-- `while(j > 8)`, which leaves `j` at 8
def blankAddress (memory : Memory) (line : Nat) : Nat → Memory × Nat
  | 0 => (memory, 0)
  | j + 1 =>
      if j + 1 > 8 then blankAddress (memory.set (line + j) 32) line j else (memory, j + 1)

def linkReply (fuel line : Nat) (session : Session) (memory : Memory) :
    Option (Session × Memory) :=
  if session.replyData = 0 then some ({ session with replyData := line }, memory)
  else
    (whileLoop (fun ptr => decide (memory.loadWord ptr ≠ 0)) memory.loadWord fuel
      session.replyData).map fun ptr => (session, memory.storeWord ptr line)

structure Parse where
  memory : Memory
  tables : Tables
  i : Nat
  j : Nat

def blankAt (memory : Memory) (line fuel j : Nat) : Option Nat :=
  whileLoop (fun j => decide (memory (line + j) ≠ 0 ∧ memory (line + j) ≠ 32)) (· + 1) fuel j

def deliverLine (fuel line : Nat) (thread : Int) (slot : Nat) (session : Session)
    (parse : Parse) : Option Parse :=
  (blankAt parse.memory line fuel parse.j).bind fun j =>
    if parse.memory (line + j) ≠ 32 ∨ j < 7 then some { parse with j := j }
    else
      let blanked := blankAddress parse.memory line j
      (linkReply fuel line session (blanked.1.storeWord line 0)).map fun (session, memory) =>
        { parse with
          memory := memory
          tables := parse.tables.setSlot thread slot (some session)
          j := blanked.2 }

def parseLine (cfg : Config) (fuel line : Nat) (text : List UInt8) (parse : Parse) :
    Option Parse :=
  match scanAddress text with
  | none => some parse
  | some (a, b, c, d) =>
      match lookupSession cfg.nWorkers parse.tables (parseIpv4 a b c d) (parseIndex b c d) with
      | none => some parse
      | some (thread, slot, session) => deliverLine fuel line thread slot session parse

def lineEnd (memory : Memory) (p total fuel i : Nat) : Option Nat :=
  whileLoop (fun i => decide (i < total ∧ memory (p + i) ≠ 10 ∧ memory (p + i) ≠ 0)) (· + 1) fuel i

def parseLines (cfg : Config) (total fuel : Nat) : Nat → Parse → Option Parse
  | 0, _ => none
  | count + 1, parse =>
      if parse.i < total then
        (lineEnd parse.memory cfg.globalInputBuf total fuel parse.i).bind fun i =>
          if i = total then some { parse with i := i }
          else
            let line := cfg.globalInputBuf + parse.i
            let memory := parse.memory.set (cfg.globalInputBuf + i) 0
            (parseLine cfg fuel line (memory.slice line (i - parse.i))
              { parse with memory := memory, i := i + 1 }).bind
                (parseLines cfg total fuel count)
      else some parse

def parseInputConf (cfg : Config) (total fuel : Nat) (tables : Tables) (memory : Memory) :
    Option Parse :=
  parseLines cfg total fuel fuel { memory := memory, tables := tables, i := 0, j := 0 }

/-- A number of an address, as a line spells it. -/
structure Octet where
  digits : List UInt8
  nonempty : digits ≠ []
  digit : ∀ byte ∈ digits, isDigit byte = true
  small : decimal digits < 256

def Octet.value (octet : Octet) : Nat := decimal octet.digits

/-- A line `a.b.c.d payload`, without its newline. -/
structure Line where
  first : Octet
  second : Octet
  third : Octet
  fourth : Octet
  payload : List UInt8
  nonempty : payload ≠ []
  unbroken : 10 ∉ payload

namespace Line

def address (line : Line) : List UInt8 :=
  line.first.digits ++ 46 :: (line.second.digits ++ 46 ::
    (line.third.digits ++ 46 :: line.fourth.digits))

def text (line : Line) : List UInt8 := line.address ++ 32 :: line.payload

def ip (line : Line) : BitVec 32 :=
  BitVec.ofNat 32 (line.first.value * 16777216 + line.second.value * 65536 +
    line.third.value * 256 + line.fourth.value)

end Line

def segment (lines : List Line) : List UInt8 := lines.flatMap fun line => line.text ++ [10]

theorem isDigit_iff (byte : UInt8) : isDigit byte = true ↔ 48 ≤ byte.toNat ∧ byte.toNat ≤ 57 := by
  simp [isDigit, UInt8.le_iff_toNat_le]

theorem isSpace_of_isDigit {byte : UInt8} (digit : isDigit byte = true) : isSpace byte = false := by
  rw [isDigit_iff] at digit
  have apart : byte ≠ 32 := by
    rintro rfl
    simp at digit
  simp only [isSpace, apart, UInt8.le_iff_toNat_le, false_or, decide_eq_false_iff_not]
  rintro ⟨-, upper⟩
  have bound : byte.toNat ≤ 13 := upper
  omega

theorem scanInt_octet (octet : Octet) (rest : List UInt8)
    (ends : rest.takeWhile isDigit = []) :
    scanInt (octet.digits ++ rest) = some ((octet.value : Int), rest) := by
  obtain ⟨digits, nonempty, digit, small⟩ := octet
  obtain ⟨byte, others, rfl⟩ := List.exists_cons_of_ne_nil nonempty
  have leading := digit byte List.mem_cons_self
  have minus : byte ≠ 45 := by
    rintro rfl
    simp [isDigit] at leading
  have plus : byte ≠ 43 := by
    rintro rfl
    simp [isDigit] at leading
  have unsigned : scanSign (((byte :: others) ++ rest).dropWhile isSpace) =
      (false, (byte :: others) ++ rest) := by
    simp [isSpace_of_isDigit leading, scanSign, minus, plus]
  have taken : ((byte :: others) ++ rest).takeWhile isDigit = byte :: others := by
    rw [List.takeWhile_append_of_pos digit, ends, List.append_nil]
  have dropped : ((byte :: others) ++ rest).dropWhile isDigit = rest := by
    rw [List.dropWhile_append_of_pos digit]
    simpa [ends] using List.takeWhile_append_dropWhile (p := isDigit) (l := rest)
  have kept : toInt32 (max (-9223372036854775808)
      (min (decimal (byte :: others) : Int) 9223372036854775807)) = decimal (byte :: others) := by
    rw [min_eq_left (by omega), max_eq_right (by omega)]
    exact toInt32_of_range (by omega) (by omega)
  simp only [scanInt, unsigned, taken, dropped, List.cons_ne_nil, if_false, Bool.false_eq_true,
    kept, Octet.value]

theorem scanAddress_address (line : Line) (rest : List UInt8) :
    scanAddress (line.address ++ 32 :: rest) = some ((line.first.value : Int),
      (line.second.value : Int), (line.third.value : Int), (line.fourth.value : Int)) := by
  have dot : ∀ rest, ((46 : UInt8) :: rest).takeWhile isDigit = [] := fun rest => by
    simp [isDigit]
  have blank : ∀ rest, ((32 : UInt8) :: rest).takeWhile isDigit = [] := fun rest => by
    simp [isDigit]
  simp only [scanAddress, Line.address, List.append_assoc, List.cons_append,
    scanInt_octet _ _ (dot _), scanInt_octet _ _ (blank _), Option.bind_eq_bind, Option.bind_some,
    scanDot, if_true]

theorem ipByte_ip (line : Line) :
    ipByte line.ip 3 = line.first.value ∧ ipByte line.ip 2 = line.second.value ∧
      ipByte line.ip 1 = line.third.value ∧ ipByte line.ip 0 = line.fourth.value := by
  have first : line.first.value < 256 := line.first.small
  have second : line.second.value < 256 := line.second.small
  have third : line.third.value < 256 := line.third.small
  have fourth : line.fourth.value < 256 := line.fourth.small
  simp only [ipByte, Line.ip, BitVec.toNat_ofNat]
  omega

def lookupAddress (nWorkers : Nat) (tables : Tables) (ip : BitVec 32) :
    Option (Int × Nat × Session) :=
  lookupSession nWorkers tables
    (parseIpv4 (ipByte ip 3) (ipByte ip 2) (ipByte ip 1) (ipByte ip 0)) (lookupIndex ip)

def placeOf (nWorkers : Nat) (tables : Tables) (ip : BitVec 32) : Option (Int × Nat) :=
  (lookupAddress nWorkers tables ip).map fun found => (found.1, found.2.1)

theorem lookupSession_entry {nWorkers : Nat} {tables : Tables} {ipv4 index thread : Int}
    {slot : Nat} {session : Session}
    (found : lookupSession nWorkers tables ipv4 index = some (thread, slot, session)) :
    tables.sessionArray thread slot = some session := by
  simp only [lookupSession] at found
  split at found
  · contradiction
  · obtain ⟨entry, held, same⟩ := Option.map_eq_some_iff.mp found
    simp only [Prod.mk.injEq] at same
    obtain ⟨rfl, rfl, rfl⟩ := same
    exact held

theorem blankAddress_eq (memory : Memory) (line j : Nat) :
    blankAddress memory line j = (memory.memcpy (line + 8) (fun _ => 32) (j - 8), min j 8) := by
  induction j generalizing memory with
  | zero => simp [blankAddress]
  | succ j ih =>
      by_cases small : j + 1 ≤ 8
      · simp [blankAddress, show ¬j + 1 > 8 by omega, show j + 1 - 8 = 0 by omega,
          min_eq_left small]
      · simp only [blankAddress, show j + 1 > 8 by omega, if_true, ih]
        refine Prod.ext ?_ (by simp; omega)
        funext offset
        simp only [Memory.set, Memory.memcpy]
        split <;> split <;> first | rfl | omega | (split <;> first | rfl | omega)

end DirtyCode.ConfServer
