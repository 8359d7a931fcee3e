import DirtyCode.EdacParser.CounterPath

/-!
`parse_dimm_path` of `edac_parser.c`: the place of a memory slot, from the two texts that the
board names it with. Each maker has its own way to name the slots.
-/

namespace DirtyCode.EdacParser

open Lib

abbrev Text := List UInt8

-- `a == strstr(a, sub)`
def beginWith (a : Text) (sub : String) : Bool := (ascii sub).isPrefixOf a

/-- The channels of one memory controller; the family is not looked at. -/
def channelsPerAgent (model : Nat) (ncore : Int) : Int :=
  if model = 0x2D then 4
  else if model = 0x3E then if 10 < ncore then 2 else 4
  else if model = 0x3F then if 8 < ncore then 2 else 4
  else if model = 0x4F then if 10 < ncore then 2 else 4
  else if model = 0x55 then 3
  else 4

structure Server where
  bvname : Text
  pname : Text
  model : Nat
  corePerPkg : Int

def Server.chPerAgent (server : Server) : Int := channelsPerAgent server.model server.corePerPkg

structure Place where
  cpu : Int
  ha : Int
  ch : Int
  dimm : Int
  deriving DecidableEq

/-- A slot that the board numbers through all controllers of a socket. -/
def bySlot (chPerAgent cpu slot dimm : Int) : Place where
  cpu := cpu
  ha := slot.tdiv chPerAgent
  ch := slot.tmod chPerAgent
  dimm := dimm

def packPlace (chPerAgent : Int) (place : Place) : Int :=
  toInt32 (chPerAgent * 65536 + place.cpu * 4096 + place.ha * 256 + place.ch * 16 + place.dimm)

-- `n == 3`
def three (place : Int → Int → Int → Place) : List Int → Option Place
  | [a, b, c] => some (place a b c)
  | _ => none

-- `n == 4`
def four (place : Int → Int → Int → Int → Place) : List Int → Option Place
  | [a, b, c, d] => some (place a b c d)
  | _ => none

def branchFormat : List Directive :=
  text "BRANCH " ++ .int :: (text " CHANNEL " ++ .int :: (text " DIMM " ++ [.int]))

def nodeFormat : List Directive :=
  text "_Node" ++ .int :: (text "_Channel" ++ .int :: (text "_Dimm" ++ [.int]))

def socketFormat : List Directive := text "P" ++ .int :: nodeFormat

def inspurFormat : List Directive :=
  text "CPU" ++ .int :: (text "_CH" ++ .int :: (text "_DIMM" ++ [.int]))

def inspurShortFormat : List Directive :=
  text "CPU" ++ .int :: (text "_C" ++ .int :: (text "D" ++ [.int]))

def firstFormat : List Directive := text "A1" ++ nodeFormat

def letterFormat : List Directive := text "A" ++ .int :: nodeFormat

def numberFormat : List Directive := .int :: nodeFormat

section Styles

variable (chPerAgent : Int) (loc1 loc2 : Text)

def branchPlace : Option Place :=
  if beginWith loc1 "DIMM" ∧ beginWith loc2 "BRANCH " then
    three (bySlot chPerAgent) (sscanf branchFormat loc2)
  else none

def nodePlace : Option Place :=
  if beginWith loc1 "DIMM" ∧ beginWith loc2 "_Node" then
    three (bySlot chPerAgent) (sscanf nodeFormat loc2)
  else none

-- the number of the node is not looked at
def socketPlace : Option Place :=
  if loc1.head? = some 80 ∧ loc2.head? = some 80 ∧ (chPerAgent = 2 ∨ chPerAgent = 4) then
    four (fun a _ c d => bySlot chPerAgent a c d) (sscanf socketFormat loc2)
  else none

def purleyPlace : Option Place :=
  if loc1.head? = some 80 ∧ loc2.head? = some 80 ∧ chPerAgent = 3 then
    four Place.mk (sscanf socketFormat loc2)
  else none

def inspurPlace : Option Place :=
  if beginWith loc2 "NODE" then
    (three (bySlot chPerAgent) (sscanf inspurFormat loc1)).or
      (three (bySlot chPerAgent) (sscanf inspurShortFormat loc1))
  else none

def firstPlace : Option Place :=
  if beginWith loc1 "CH" ∧ loc2.head? = some 65 then
    three (bySlot chPerAgent) (sscanf firstFormat loc2)
  else none

def letterPlace : Option Place :=
  if (beginWith loc1 "CPU0_DIMM_" ∨ beginWith loc1 "CPU1_DIMM_") ∧ loc2.head? = some 65 then
    four (fun a _ c d => bySlot chPerAgent a c d) (sscanf letterFormat loc2)
  else none

-- here it is the node that counts for the socket
def numberPlace : Option Place :=
  if beginWith loc1 "CPU0_DIMM" ∨ beginWith loc1 "CPU1_DIMM" then
    four (fun _ b c d => bySlot chPerAgent b c d) (sscanf numberFormat loc2.tail)
  else none

/-- The first way of naming that fits. -/
def namedPlace : Option Place :=
  (branchPlace chPerAgent loc1 loc2).or <|
    (nodePlace chPerAgent loc1 loc2).or <|
    (socketPlace chPerAgent loc1 loc2).or <|
    (purleyPlace chPerAgent loc1 loc2).or <|
    (inspurPlace chPerAgent loc1 loc2).or <|
    (firstPlace chPerAgent loc1 loc2).or <|
    (letterPlace chPerAgent loc1 loc2).or <|
    numberPlace chPerAgent loc1 loc2

end Styles

/-- The number that Dell gives a slot in its socket, -1 where there is none. -/
def dellNumber (loc1 : Text) : Int :=
  scanned (sscanf [.int] (if beginWith loc1 "DIMM_" then loc1.drop 6 else loc1.drop 1)) 0

def dellCpu (loc1 : Text) : Int :=
  if beginWith loc1 "DIMM_B" ∨ beginWith loc1 "B" then 1
  else if beginWith loc1 "DIMM_A" ∨ beginWith loc1 "A" then 0
  else -1

/-- The slots of servers that leave some of a socket's places out. -/
def fixUnbalance (pname : Text) (dellSlotIdx : Int) (place : Place) : Place :=
  let place :=
    if ascii "R540" <:+: pname then
      if dellSlotIdx = 8 then { place with ha := 1, ch := 0 }
      else if dellSlotIdx = 9 then { place with ha := 1, ch := 1 }
      else place
    else place
  if ascii "C6420" <:+: pname ∧ dellSlotIdx = 7 then { place with ha := 1, ch := 0 } else place

def dellPlace (server : Server) (nrDimmSlots : Nat) (loc1 : Text) : Place :=
  let slotsPerSocket : Int := if server.model = 0x55 then 6 else 4
  let dellSlotIdx := toInt32 (dellNumber loc1 - 1)
  let slot := dellSlotIdx.tmod slotsPerSocket
  let place := bySlot server.chPerAgent (dellCpu loc1) slot (dellSlotIdx.tdiv slotsPerSocket)
  if server.model = 0x55 ∧ nrDimmSlots = 16 then fixUnbalance server.pname dellSlotIdx place
  else place

def parseDimmPathDell (server : Server) (nrDimmSlots : Nat) (loc1 : Text) : Int :=
  if dellCpu loc1 < 0 then -1
  else packPlace server.chPerAgent (dellPlace server nrDimmSlots loc1)

def parseDimmPath (server : Server) (nrDimmSlots : Nat) (loc1 loc2 : Text) : Int :=
  match namedPlace server.chPerAgent loc1 loc2 with
  | some place => packPlace server.chPerAgent place
  | none =>
      if ascii "Dell" <:+: server.bvname then parseDimmPathDell server nrDimmSlots loc1 else -1

structure SlotNumbers where
  socket : Nat
  node : Nat
  channel : Nat
  dimm : Nat
  small : socket < 2147483648 ∧ node < 2147483648 ∧ channel < 2147483648 ∧ dimm < 2147483648

def SlotNumbers.all (numbers : SlotNumbers) : List Int :=
  [numbers.socket, numbers.node, numbers.channel, numbers.dimm]

/-- The makers' ways to name a slot, with what else stands in its texts. -/
inductive Naming
  | branch (rest : Text)
  | node (rest : Text)
  | socket (rest : Text)
  | inspur (rest : Text)
  | inspurShort (rest : Text)
  | first (rest : Text)
  | letter (second : Bool) (rest : Text)
  | number (second : Bool) (rest : Text) (mark : UInt8) (other : mark ≠ 65 ∧ mark ≠ 78)

namespace Naming

def cpuDimm (second : Bool) : Text := ascii (if second then "CPU1_DIMM" else "CPU0_DIMM")

def loc1 (numbers : SlotNumbers) : Naming → Text
  | branch rest => ascii "DIMM" ++ rest
  | node rest => ascii "DIMM" ++ rest
  | socket rest => ascii "P" ++ rest
  | inspur _ => sprintf inspurFormat [numbers.socket, numbers.channel, numbers.dimm]
  | inspurShort _ => sprintf inspurShortFormat [numbers.socket, numbers.channel, numbers.dimm]
  | first rest => ascii "CH" ++ rest
  | letter second rest => cpuDimm second ++ 95 :: rest
  | number second rest _ _ => cpuDimm second ++ rest

def loc2 (numbers : SlotNumbers) : Naming → Text
  | branch _ => sprintf branchFormat [numbers.node, numbers.channel, numbers.dimm]
  | node _ => sprintf nodeFormat [numbers.node, numbers.channel, numbers.dimm]
  | socket _ => sprintf socketFormat [numbers.socket, numbers.node, numbers.channel, numbers.dimm]
  | inspur rest => ascii "NODE" ++ rest
  | inspurShort rest => ascii "NODE" ++ rest
  | first _ => sprintf firstFormat [numbers.node, numbers.channel, numbers.dimm]
  | letter _ _ => sprintf letterFormat [numbers.socket, numbers.node, numbers.channel, numbers.dimm]
  | number _ _ mark _ =>
      mark :: sprintf numberFormat [numbers.socket, numbers.node, numbers.channel, numbers.dimm]

def place (chPerAgent : Int) (numbers : SlotNumbers) : Naming → Place
  | branch _ => bySlot chPerAgent numbers.node numbers.channel numbers.dimm
  | node _ => bySlot chPerAgent numbers.node numbers.channel numbers.dimm
  | socket _ =>
      if chPerAgent = 3 then ⟨numbers.socket, numbers.node, numbers.channel, numbers.dimm⟩
      else bySlot chPerAgent numbers.socket numbers.channel numbers.dimm
  | inspur _ => bySlot chPerAgent numbers.socket numbers.channel numbers.dimm
  | inspurShort _ => bySlot chPerAgent numbers.socket numbers.channel numbers.dimm
  | first _ => bySlot chPerAgent numbers.node numbers.channel numbers.dimm
  | letter _ _ => bySlot chPerAgent numbers.socket numbers.channel numbers.dimm
  | number _ _ _ _ => bySlot chPerAgent numbers.node numbers.channel numbers.dimm

end Naming

section Readings

variable {chPerAgent : Int} {loc1 loc2 : Text}

theorem branchPlace_none
    (foreign : beginWith loc1 "DIMM" = false ∨ beginWith loc2 "BRANCH " = false) :
    branchPlace chPerAgent loc1 loc2 = none := by
  rw [branchPlace, if_neg]
  rintro ⟨first, second⟩
  simp [first, second] at foreign

theorem nodePlace_none
    (foreign : beginWith loc1 "DIMM" = false ∨ beginWith loc2 "_Node" = false) :
    nodePlace chPerAgent loc1 loc2 = none := by
  rw [nodePlace, if_neg]
  rintro ⟨first, second⟩
  simp [first, second] at foreign

theorem beginWith_head (first : loc1.head? = some 80) :
    beginWith loc1 "P" = true := by
  obtain ⟨rest, rfl⟩ := List.head?_eq_some_iff.mp first
  rfl

theorem socketPlace_none (foreign : beginWith loc1 "P" = false) :
    socketPlace chPerAgent loc1 loc2 = none :=
  if_neg fun both => Bool.false_ne_true (foreign.symm.trans (beginWith_head both.1))

theorem purleyPlace_none (foreign : beginWith loc1 "P" = false) :
    purleyPlace chPerAgent loc1 loc2 = none :=
  if_neg fun both => Bool.false_ne_true (foreign.symm.trans (beginWith_head both.1))

theorem inspurPlace_none (foreign : beginWith loc2 "NODE" = false) :
    inspurPlace chPerAgent loc1 loc2 = none := if_neg (by simp [foreign])

theorem firstPlace_none (foreign : beginWith loc1 "CH" = false) :
    firstPlace chPerAgent loc1 loc2 = none := if_neg (by simp [foreign])

theorem letterPlace_none (foreign : loc2.head? ≠ some 65) :
    letterPlace chPerAgent loc1 loc2 = none := if_neg fun both => foreign both.2

theorem SlotNumbers.read (numbers : SlotNumbers) {format : List Directive} {values : List Int}
    (apart : separated format = true) (ints : onlyInts format values.length = true)
    (known : values ⊆ numbers.all) : sscanf format (sprintf format values) = values := by
  refine sscanf_sprintf apart (fits_of_onlyInts ints fun value member => ?_)
  obtain ⟨socket, node, channel, dimm⟩ := numbers.small
  have one := known member
  simp only [SlotNumbers.all, List.mem_cons, List.not_mem_nil, or_false] at one
  omega

/-- What the texts that begin with a CPU's number begin with. -/
structure CpuDimm (loc1 : Text) : Prop where
  dimm : beginWith loc1 "DIMM" = false
  p : beginWith loc1 "P" = false
  ch : beginWith loc1 "CH" = false
  cpu : beginWith loc1 "CPU0_DIMM" = true ∨ beginWith loc1 "CPU1_DIMM" = true

theorem cpuDimm_known (second : Bool) (rest : Text) : CpuDimm (Naming.cpuDimm second ++ rest) := by
  cases second with
  | false => exact ⟨rfl, rfl, rfl, .inl rfl⟩
  | true => exact ⟨rfl, rfl, rfl, .inr rfl⟩

theorem sscanf_inspur_short (numbers : SlotNumbers) :
    sscanf inspurFormat (sprintf inspurShortFormat
      [(numbers.socket : Int), numbers.channel, numbers.dimm]) = [(numbers.socket : Int)] := by
  obtain ⟨socket, -, -, -⟩ := numbers.small
  have longer (format : List Directive) :
      text "_CH" ++ format = text "_C" ++ .byte 72 :: format := rfl
  rw [inspurFormat, inspurShortFormat, sprintf_text, sscanf_text (by decide)]
  simp only [sprintf, sprintf_text]
  rw [sscanf_int (by omega) (by omega) _ rfl, longer, sscanf_text (by decide),
    sscanf_letter (by decide) (by decide) (by decide)]

theorem namedPlace_style (naming : Naming) (numbers : SlotNumbers)
    (agents : chPerAgent = 2 ∨ chPerAgent = 3 ∨ chPerAgent = 4) :
    namedPlace chPerAgent (naming.loc1 numbers) (naming.loc2 numbers) =
      some (naming.place chPerAgent numbers) := by
  cases naming with
  | branch rest =>
      rw [namedPlace, branchPlace, if_pos ⟨rfl, rfl⟩, Naming.loc2,
        numbers.read (by decide) rfl (by simp [SlotNumbers.all])]
      rfl
  | node rest =>
      rw [namedPlace, branchPlace_none (.inr rfl), nodePlace, if_pos ⟨rfl, rfl⟩, Naming.loc2,
        numbers.read (by decide) rfl (by simp [SlotNumbers.all])]
      rfl
  | socket rest =>
      have read : sscanf socketFormat (Naming.loc2 numbers (.socket rest)) = numbers.all :=
        numbers.read (by decide) rfl (List.Subset.refl _)
      rw [namedPlace, branchPlace_none (.inl rfl), nodePlace_none (.inl rfl)]
      rcases agents with rfl | rfl | rfl
      · rw [socketPlace, if_pos ⟨rfl, rfl, .inl rfl⟩, read]
        rfl
      · rw [socketPlace, if_neg fun all => absurd all.2.2 (by decide), purleyPlace,
          if_pos ⟨rfl, rfl, rfl⟩, read]
        rfl
      · rw [socketPlace, if_pos ⟨rfl, rfl, .inr rfl⟩, read]
        rfl
  | inspur rest =>
      have here : beginWith (Naming.loc2 numbers (.inspur rest)) "NODE" = true := rfl
      rw [namedPlace, branchPlace_none (.inl rfl), nodePlace_none (.inl rfl), socketPlace_none rfl,
        purleyPlace_none rfl,
        inspurPlace, if_pos here, Naming.loc1,
        numbers.read (by decide) rfl (by simp [SlotNumbers.all])]
      rfl
  | inspurShort rest =>
      have here : beginWith (Naming.loc2 numbers (.inspurShort rest)) "NODE" = true := rfl
      rw [namedPlace, branchPlace_none (.inl rfl), nodePlace_none (.inl rfl), socketPlace_none rfl,
        purleyPlace_none rfl,
        inspurPlace, if_pos here, Naming.loc1, sscanf_inspur_short,
        numbers.read (by decide) rfl (by simp [SlotNumbers.all])]
      rfl
  | first rest =>
      rw [namedPlace, branchPlace_none (.inl rfl), nodePlace_none (.inl rfl), socketPlace_none rfl,
        purleyPlace_none rfl,
        inspurPlace_none rfl, firstPlace, if_pos ⟨rfl, rfl⟩, Naming.loc2,
        numbers.read (by decide) rfl (by simp [SlotNumbers.all])]
      rfl
  | letter second rest =>
      have read : sscanf letterFormat (Naming.loc2 numbers (.letter second rest)) = numbers.all :=
        numbers.read (by decide) rfl (List.Subset.refl _)
      have known : CpuDimm (Naming.loc1 numbers (.letter second rest)) := cpuDimm_known _ _
      have marked : beginWith (Naming.loc1 numbers (.letter second rest)) "CPU0_DIMM_" = true ∨
          beginWith (Naming.loc1 numbers (.letter second rest)) "CPU1_DIMM_" = true := by
        cases second
        · exact .inl rfl
        · exact .inr rfl
      rw [namedPlace, branchPlace_none (.inl known.dimm), nodePlace_none (.inl known.dimm),
        socketPlace_none known.p, purleyPlace_none known.p, inspurPlace_none rfl,
        firstPlace_none known.ch, letterPlace, if_pos ⟨marked, rfl⟩, read]
      rfl
  | number second rest mark other =>
      have read : sscanf numberFormat (Naming.loc2 numbers (.number second rest mark other)).tail =
          numbers.all :=
        numbers.read (by decide) rfl (List.Subset.refl _)
      have known : CpuDimm (Naming.loc1 numbers (.number second rest mark other)) :=
        cpuDimm_known _ _
      have node :
          beginWith (Naming.loc2 numbers (.number second rest mark other)) "NODE" = false := by
        have differs : ((78 : UInt8) == mark) = false := beq_false_of_ne other.2.symm
        change ((78 : UInt8) == mark && _) = false
        rw [differs, Bool.false_and]
      have first : (Naming.loc2 numbers (.number second rest mark other)).head? ≠ some 65 :=
        fun same => other.1 (Option.some.inj same)
      rw [namedPlace, branchPlace_none (.inl known.dimm), nodePlace_none (.inl known.dimm),
        socketPlace_none known.p, purleyPlace_none known.p, inspurPlace_none node,
        firstPlace_none known.ch, letterPlace_none first, numberPlace, if_pos known.cpu, read]
      rfl

end Readings

section Dell

variable {server : Server} {nrDimmSlots : Nat}

def dellLoc1 (long second : Bool) (number : Nat) : Text :=
  ascii (if long then "DIMM_" else "") ++ (if second then 66 else 65) :: printInt number

theorem dellCpu_printed (long second : Bool) (number : Nat) :
    dellCpu (dellLoc1 long second number) = if second then 1 else 0 := by
  cases long <;> cases second <;> rfl

theorem dellNumber_printed (long second : Bool) {number : Nat} (small : number < 2147483648) :
    dellNumber (dellLoc1 long second number) = number := by
  have read : sscanf [.int] (printInt number) = [(number : Int)] := by
    rw [← List.append_nil (printInt number), sscanf_int (by omega) (by omega) _ rfl]
    rfl
  have digits : (if beginWith (dellLoc1 long second number) "DIMM_" then
      (dellLoc1 long second number).drop 6 else (dellLoc1 long second number).drop 1) =
        printInt number := by
    cases long <;> cases second <;> rfl
  rw [dellNumber, digits, read]
  rfl

theorem namedPlace_dell (long second : Bool) (number : Nat) {loc2 : Text} (chPerAgent : Int)
    (foreign : beginWith loc2 "BRANCH " = false ∧ beginWith loc2 "_Node" = false) :
    namedPlace chPerAgent (dellLoc1 long second number) loc2 = none := by
  have p : beginWith (dellLoc1 long second number) "P" = false := by
    cases long <;> cases second <;> rfl
  have ch : beginWith (dellLoc1 long second number) "CH" = false := by
    cases long <;> cases second <;> rfl
  have zero : beginWith (dellLoc1 long second number) "CPU0_DIMM" = false := by
    cases long <;> cases second <;> rfl
  have one : beginWith (dellLoc1 long second number) "CPU1_DIMM" = false := by
    cases long <;> cases second <;> rfl
  have inspur : inspurPlace chPerAgent (dellLoc1 long second number) loc2 = none := by
    rw [inspurPlace]
    split
    · cases long <;> cases second <;> rfl
    · rfl
  have letter : letterPlace chPerAgent (dellLoc1 long second number) loc2 = none := by
    rw [letterPlace, if_neg]
    have zero : beginWith (dellLoc1 long second number) "CPU0_DIMM_" = false := by
      cases long <;> cases second <;> rfl
    have one : beginWith (dellLoc1 long second number) "CPU1_DIMM_" = false := by
      cases long <;> cases second <;> rfl
    simp [zero, one]
  have last : numberPlace chPerAgent (dellLoc1 long second number) loc2 = none := by
    rw [numberPlace, if_neg]
    simp [zero, one]
  rw [namedPlace, branchPlace_none (.inr foreign.1), nodePlace_none (.inr foreign.2),
    socketPlace_none p, purleyPlace_none p, inspur, firstPlace_none ch, letter, last]
  rfl

/-- The numbers that a socket's slots have, on the two servers with fewer of them, too. -/
def DellNumber (server : Server) (nrDimmSlots number : Nat) : Prop :=
  1 ≤ number ∧ number < 2147483648 ∧ (server.model = 0x55 → nrDimmSlots = 16 →
    (ascii "R540" <:+: server.pname → number ≤ 10) ∧
      (ascii "C6420" <:+: server.pname → number ≤ 8))

theorem chPerAgent_skylake (skylake : server.model = 0x55) : server.chPerAgent = 3 := by
  simp [Server.chPerAgent, channelsPerAgent, skylake]

theorem chPerAgent_other (other : server.model ≠ 0x55) :
    server.chPerAgent = 2 ∨ server.chPerAgent = 4 := by
  simp only [Server.chPerAgent, channelsPerAgent, other, if_false]
  split_ifs <;> simp

def evenPlace (chPerAgent slotsPerSocket : Int) (cpu : Int) (slot : Nat) : Place :=
  bySlot chPerAgent cpu ((slot : Int) % slotsPerSocket) (slot / slotsPerSocket)

theorem dellPlace_printed (long second : Bool) {slot : Nat} (small : slot + 1 < 2147483648) :
    dellPlace server nrDimmSlots (dellLoc1 long second (slot + 1)) =
      let place := evenPlace server.chPerAgent (if server.model = 0x55 then 6 else 4)
        (if second then 1 else 0) slot
      if server.model = 0x55 ∧ nrDimmSlots = 16 then fixUnbalance server.pname slot place
      else place := by
  have index : toInt32 (((slot + 1 : Nat) : Int) - 1) = slot := by
    rw [toInt32_of_range (by omega) (by omega)]
    omega
  have positive : (0 : Int) ≤ slot := Int.natCast_nonneg slot
  simp only [dellPlace, dellNumber_printed long second small, dellCpu_printed, index, evenPlace,
    Int.tmod_eq_emod_of_nonneg positive, Int.tdiv_eq_ediv_of_nonneg positive]

theorem evenPlace_inj {chPerAgent slotsPerSocket cpu other : Int} {slot next : Nat}
    (agents : chPerAgent = 3 ∧ slotsPerSocket = 6 ∨
      (chPerAgent = 2 ∨ chPerAgent = 4) ∧ slotsPerSocket = 4)
    (same : evenPlace chPerAgent slotsPerSocket cpu slot =
      evenPlace chPerAgent slotsPerSocket other next) : cpu = other ∧ slot = next := by
  have first : (0 : Int) ≤ (slot : Int) % slotsPerSocket := Int.emod_nonneg _ (by omega)
  have second : (0 : Int) ≤ (next : Int) % slotsPerSocket := Int.emod_nonneg _ (by omega)
  simp only [evenPlace, bySlot, Place.mk.injEq, Int.tmod_eq_emod_of_nonneg first,
    Int.tmod_eq_emod_of_nonneg second, Int.tdiv_eq_ediv_of_nonneg first,
    Int.tdiv_eq_ediv_of_nonneg second] at same
  obtain ⟨cpus, has, chs, dimms⟩ := same
  refine ⟨cpus, ?_⟩
  rcases agents with ⟨rfl, rfl⟩ | ⟨rfl | rfl, rfl⟩ <;> omega

theorem fixUnbalance_inj {pname : Text} {cpu other : Int} {slot next : Nat}
    (tenth : ascii "R540" <:+: pname → slot < 10 ∧ next < 10)
    (eighth : ascii "C6420" <:+: pname → slot < 8 ∧ next < 8)
    (same : fixUnbalance pname slot (evenPlace 3 6 cpu slot) =
      fixUnbalance pname next (evenPlace 3 6 other next)) : cpu = other ∧ slot = next := by
  have first : (0 : Int) ≤ (slot : Int) % 6 := Int.emod_nonneg _ (by omega)
  have second : (0 : Int) ≤ (next : Int) % 6 := Int.emod_nonneg _ (by omega)
  by_cases even : ¬ascii "R540" <:+: pname ∧ ¬ascii "C6420" <:+: pname
  · simp only [fixUnbalance, even, false_and, if_false] at same
    exact evenPlace_inj (.inl ⟨rfl, rfl⟩) same
  · simp only [fixUnbalance, evenPlace, bySlot, Int.tmod_eq_emod_of_nonneg first,
      Int.tmod_eq_emod_of_nonneg second, Int.tdiv_eq_ediv_of_nonneg first,
      Int.tdiv_eq_ediv_of_nonneg second] at same
    -- the numbers are bounded, so that the exceptions meet no slot's own place
    have few : slot < 10 ∧ next < 10 := by
      by_cases r540 : ascii "R540" <:+: pname
      · exact tenth r540
      · have bounds := eighth (by simpa [r540] using even)
        omega
    split_ifs at same <;> simp only [Place.mk.injEq] at same <;> grind

theorem dellPlace_inj {long second long' second' : Bool} {number next : Nat}
    (numbered : DellNumber server nrDimmSlots number)
    (alsoNumbered : DellNumber server nrDimmSlots next)
    (same : dellPlace server nrDimmSlots (dellLoc1 long second number) =
      dellPlace server nrDimmSlots (dellLoc1 long' second' next)) :
    second = second' ∧ number = next := by
  obtain ⟨slot, rfl⟩ := Nat.exists_eq_add_of_le' numbered.1
  obtain ⟨later, rfl⟩ := Nat.exists_eq_add_of_le' alsoNumbered.1
  rw [dellPlace_printed long second numbered.2.1, dellPlace_printed long' second' alsoNumbered.2.1]
    at same
  have sockets : ∀ {one two : Bool}, (if one then (1 : Int) else 0) = (if two then 1 else 0) →
      one = two := by decide
  suffices apart : (if second then (1 : Int) else 0) = (if second' then 1 else 0) ∧
      slot = later by
    exact ⟨sockets apart.1, congrArg (· + 1) apart.2⟩
  by_cases skylake : server.model = 0x55
  · simp only [skylake, if_true, true_and, chPerAgent_skylake skylake] at same
    by_cases sixteen : nrDimmSlots = 16
    · simp only [sixteen, if_true] at same
      have one := numbered.2.2 skylake sixteen
      have two := alsoNumbered.2.2 skylake sixteen
      refine fixUnbalance_inj (fun r540 => ?_) (fun c6420 => ?_) same
      · have first := one.1 r540
        have second := two.1 r540
        omega
      · have first := one.2 c6420
        have second := two.2 c6420
        omega
    · simp only [sixteen, if_false] at same
      exact evenPlace_inj (.inl ⟨rfl, rfl⟩) same
  · simp only [skylake, if_false, false_and] at same
    exact evenPlace_inj (.inr ⟨chPerAgent_other skylake, rfl⟩) same

def Place.Fits (place : Place) : Prop :=
  (0 ≤ place.cpu ∧ place.cpu < 16) ∧ (0 ≤ place.ha ∧ place.ha < 16) ∧
    (0 ≤ place.ch ∧ place.ch < 16) ∧ 0 ≤ place.dimm ∧ place.dimm < 16

theorem packPlace_inj {chPerAgent : Int} {first second : Place}
    (agents : 0 ≤ chPerAgent ∧ chPerAgent ≤ 4) (fits : first.Fits) (also : second.Fits)
    (same : packPlace chPerAgent first = packPlace chPerAgent second) : first = second := by
  obtain ⟨cpu, ha, ch, dimm⟩ := first
  obtain ⟨cpu', ha', ch', dimm'⟩ := second
  simp only [Place.Fits] at fits also
  rw [packPlace, packPlace, toInt32_of_range (by dsimp only; omega) (by dsimp only; omega),
    toInt32_of_range (by dsimp only; omega) (by dsimp only; omega)] at same
  dsimp only at same
  rw [Place.mk.injEq]
  omega

theorem evenPlace_fits {chPerAgent slotsPerSocket cpu : Int} {slot : Nat} (few : slot < 64)
    (socket : cpu = 0 ∨ cpu = 1)
    (agents : chPerAgent = 3 ∧ slotsPerSocket = 6 ∨
      (chPerAgent = 2 ∨ chPerAgent = 4) ∧ slotsPerSocket = 4) :
    (evenPlace chPerAgent slotsPerSocket cpu slot).Fits := by
  have place : (0 : Int) ≤ (slot : Int) % slotsPerSocket := Int.emod_nonneg _ (by omega)
  simp only [evenPlace, bySlot, Place.Fits, Int.tmod_eq_emod_of_nonneg place,
    Int.tdiv_eq_ediv_of_nonneg place]
  rcases agents with ⟨rfl, rfl⟩ | ⟨rfl | rfl, rfl⟩ <;> omega

theorem fixUnbalance_fits (pname : Text) (dellSlotIdx : Int) {place : Place} (fits : place.Fits) :
    (fixUnbalance pname dellSlotIdx place).Fits := by
  simp only [Place.Fits] at fits
  simp only [fixUnbalance]
  split_ifs <;> simp only [Place.Fits] <;> omega

theorem dellPlace_fits (long second : Bool) {number : Nat} (positive : 1 ≤ number)
    (few : number ≤ 64) :
    (dellPlace server nrDimmSlots (dellLoc1 long second number)).Fits := by
  obtain ⟨slot, rfl⟩ := Nat.exists_eq_add_of_le' positive
  have socket : (if second then (1 : Int) else 0) = 0 ∨ (if second then (1 : Int) else 0) = 1 := by
    cases second <;> decide
  rw [dellPlace_printed long second (by omega)]
  by_cases skylake : server.model = 0x55
  · have even := evenPlace_fits (show slot < 64 by omega) socket
      (.inl ⟨chPerAgent_skylake skylake, rfl⟩)
    simp only [skylake, if_true, true_and]
    split
    · exact fixUnbalance_fits _ _ even
    · exact even
  · simp only [skylake, if_false, false_and]
    exact evenPlace_fits (by omega) socket (.inr ⟨chPerAgent_other skylake, rfl⟩)

/-- Two slots of a server that Dell names differently are packed into different values. -/
theorem parseDimmPathDell_inj {long second long' second' : Bool} {number next : Nat}
    (numbered : DellNumber server nrDimmSlots number)
    (alsoNumbered : DellNumber server nrDimmSlots next) (few : number ≤ 64 ∧ next ≤ 64)
    (same : parseDimmPathDell server nrDimmSlots (dellLoc1 long second number) =
      parseDimmPathDell server nrDimmSlots (dellLoc1 long' second' next)) :
    second = second' ∧ number = next := by
  have sockets : ∀ (long second : Bool) (number : Nat),
      ¬dellCpu (dellLoc1 long second number) < 0 := by
    intro long second number
    rw [dellCpu_printed]
    cases second <;> decide
  have agents : 0 ≤ server.chPerAgent ∧ server.chPerAgent ≤ 4 := by
    by_cases skylake : server.model = 0x55
    · rw [chPerAgent_skylake skylake]
      decide
    · rcases chPerAgent_other skylake with two | four <;> omega
  rw [parseDimmPathDell, parseDimmPathDell, if_neg (sockets _ _ _), if_neg (sockets _ _ _)] at same
  exact dellPlace_inj numbered alsoNumbered (packPlace_inj agents
    (dellPlace_fits long second numbered.1 few.1)
    (dellPlace_fits long' second' alsoNumbered.1 few.2) same)

end Dell

theorem chPerAgent_cases (server : Server) :
    server.chPerAgent = 2 ∨ server.chPerAgent = 3 ∨ server.chPerAgent = 4 := by
  by_cases skylake : server.model = 0x55
  · exact .inr (.inl (chPerAgent_skylake skylake))
  · rcases chPerAgent_other skylake with two | four
    · exact .inl two
    · exact .inr (.inr four)

/-- What the two texts of a slot say on a server. -/
inductive Means (server : Server) (nrDimmSlots : Nat) : Text → Text → Place → Prop
  | named (naming : Naming) (numbers : SlotNumbers) :
      Means server nrDimmSlots (naming.loc1 numbers) (naming.loc2 numbers)
        (naming.place server.chPerAgent numbers)
  | dell (long second : Bool) (number : Nat) (loc2 : Text)
      (vendor : ascii "Dell" <:+: server.bvname) (numbered : DellNumber server nrDimmSlots number)
      (foreign : beginWith loc2 "BRANCH " = false ∧ beginWith loc2 "_Node" = false) :
      Means server nrDimmSlots (dellLoc1 long second number) loc2
        (dellPlace server nrDimmSlots (dellLoc1 long second number))

/-- The place that the texts mean is packed, whichever way of naming the board follows. -/
theorem parseDimmPath_means {server : Server} {nrDimmSlots : Nat} {loc1 loc2 : Text} {place : Place}
    (means : Means server nrDimmSlots loc1 loc2 place) :
    parseDimmPath server nrDimmSlots loc1 loc2 = packPlace server.chPerAgent place := by
  cases means with
  | named naming numbers =>
      rw [parseDimmPath, namedPlace_style naming numbers (chPerAgent_cases server)]
  | dell long second number _ vendor numbered foreign =>
      have socket : ¬dellCpu (dellLoc1 long second number) < 0 := by
        rw [dellCpu_printed]
        cases second <;> decide
      rw [parseDimmPath, namedPlace_dell long second number _ foreign]
      simp only [vendor, if_true, parseDimmPathDell, socket, if_false]

def purleyServer (bvname pname : Text) : Server where
  bvname := bvname
  pname := pname
  model := 0x55
  corePerPkg := 10

-- DIMM150 and _Node1_Channel5_Dimm0
example :
    parseDimmPath (purleyServer (ascii "Huawei") []) 24
      ((Naming.node (ascii "150")).loc1 ⟨0, 1, 5, 0, by decide⟩)
      ((Naming.node (ascii "150")).loc2 ⟨0, 1, 5, 0, by decide⟩) = 0x31120 :=
  (parseDimmPath_means (.named _ _)).trans (by decide)

def r540 : Server := purleyServer (ascii "Dell Inc.") (ascii "PowerEdge R540")

theorem r540_numbers {number : Nat} (first : 1 ≤ number) (last : number ≤ 10) :
    DellNumber r540 16 number :=
  ⟨first, by omega, fun _ _ => ⟨fun _ => last, fun other => absurd other (by decide)⟩⟩

theorem parseDimmPathDell_inj_last :
    parseDimmPathDell r540 16 (dellLoc1 false false 10) ≠
      parseDimmPathDell r540 16 (dellLoc1 true true 6) :=
  fun same => absurd (parseDimmPathDell_inj (r540_numbers (by decide) (by decide))
    (r540_numbers (by decide) (by decide)) (by decide) same).1 (by decide)

end DirtyCode.EdacParser
