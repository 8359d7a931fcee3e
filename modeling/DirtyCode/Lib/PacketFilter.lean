import Mathlib

/-!
Classic BPF, as far as short socket filters use it: what an instruction does for a packet, and
that every program the kernel attaches returns.
-/

namespace DirtyCode.Lib.PacketFilter

inductive Mode
  | abs
  | ind
  deriving DecidableEq, Repr

inductive Instruction
  | loadByte (mode : Mode) (k : Nat)
  | loadHalf (mode : Mode) (k : Nat)
  /-- `BPF_MSH`: the length in the low half of a byte, in words of four bytes. -/
  | loadIndex (k : Nat)
  | jumpEqual (k jt jf : Nat)
  | ret (k : Nat)
  deriving DecidableEq, Repr

structure Registers where
  accumulator : Nat
  index : Nat
  deriving DecidableEq, Repr

inductive Outcome
  | returned (value : Nat)
  | continued (pc : Nat) (registers : Registers)
  deriving DecidableEq, Repr

def byteAt (packet : List UInt8) (offset : Nat) : Option Nat :=
  packet[offset]?.map UInt8.toNat

def halfAt (packet : List UInt8) (offset : Nat) : Option Nat :=
  match packet[offset]?, packet[offset + 1]? with
  | some high, some low => some (256 * high.toNat + low.toNat)
  | _, _ => none

def Registers.offset (registers : Registers) (k : Nat) : Mode → Nat
  | .abs => k
  | .ind => registers.index + k

/-- A load behind the packet ends the program, which takes nothing of it. -/
def load (pc : Nat) (keep : Nat → Registers) : Option Nat → Outcome
  | none => .returned 0
  | some value => .continued (pc + 1) (keep value)

def step (packet : List UInt8) (pc : Nat) (registers : Registers) : Instruction → Outcome
  | .loadByte mode k =>
      load pc (fun value => { registers with accumulator := value })
        (byteAt packet (registers.offset k mode))
  | .loadHalf mode k =>
      load pc (fun value => { registers with accumulator := value })
        (halfAt packet (registers.offset k mode))
  | .loadIndex k =>
      load pc (fun value => { registers with index := value % 16 * 4 }) (byteAt packet k)
  | .jumpEqual k jt jf =>
      .continued (pc + 1 + if registers.accumulator = k then jt else jf) registers
  | .ret k => .returned k

-- none behind the end of the program, and without fuel
def run (packet : List UInt8) (program : List Instruction) : Nat → Nat → Registers → Option Nat
  | 0, _, _ => none
  | fuel + 1, pc, registers =>
      match program[pc]? with
      | none => none
      | some instruction =>
          match step packet pc registers instruction with
          | .returned value => some value
          | .continued next registers => run packet program fuel next registers

/-- What the kernel checks of a program. -/
structure Attaches (program : List Instruction) : Prop where
  jumps : ∀ pc k jt jf, program[pc]? = some (.jumpEqual k jt jf) →
    pc + 1 + jt < program.length ∧ pc + 1 + jf < program.length
  last : ∃ k, program.getLast? = some (.ret k)

section

variable {packet : List UInt8} {program : List Instruction} {pc fuel : Nat}
  {registers : Registers} {instruction : Instruction}

theorem load_continued {keep : Nat → Registers} {value : Option Nat} {next : Nat}
    {after : Registers} (goesOn : load pc keep value = .continued next after) : next = pc + 1 := by
  cases value with
  | none => cases goesOn
  | some value => exact (Outcome.continued.inj goesOn).1.symm

theorem step_continued {next : Nat} {after : Registers}
    (goesOn : step packet pc registers instruction = .continued next after) :
    (next = pc + 1 ∧ ∀ k, instruction ≠ .ret k) ∨
      ∃ k jt jf, instruction = .jumpEqual k jt jf ∧ (next = pc + 1 + jt ∨ next = pc + 1 + jf) := by
  cases instruction with
  | loadByte mode k => exact Or.inl ⟨load_continued goesOn, fun _ => nofun⟩
  | loadHalf mode k => exact Or.inl ⟨load_continued goesOn, fun _ => nofun⟩
  | loadIndex k => exact Or.inl ⟨load_continued goesOn, fun _ => nofun⟩
  | jumpEqual k jt jf =>
      obtain ⟨rfl, -⟩ := Outcome.continued.inj goesOn
      refine Or.inr ⟨k, jt, jf, rfl, ?_⟩
      by_cases same : registers.accumulator = k
      · exact Or.inl (by rw [if_pos same])
      · exact Or.inr (by rw [if_neg same])
  | ret k => cases goesOn

theorem Attaches.forward (attaches : Attaches program) (here : program[pc]? = some instruction)
    {next : Nat} {after : Registers}
    (goesOn : step packet pc registers instruction = .continued next after) :
    pc < next ∧ next < program.length := by
  have inside := (List.getElem?_eq_some_iff.mp here).1
  rcases step_continued goesOn with ⟨rfl, other⟩ | ⟨k, jt, jf, rfl, target⟩
  · refine ⟨Nat.lt_succ_self pc, ?_⟩
    obtain ⟨k, last⟩ := attaches.last
    rw [List.getLast?_eq_getElem?] at last
    have notLast : pc ≠ program.length - 1 := by
      rintro rfl
      exact other k (Option.some.inj (here.symm.trans last))
    omega
  · have bounds := attaches.jumps pc k jt jf here
    omega

theorem run_continued {next : Nat} {after : Registers} (here : program[pc]? = some instruction)
    (goesOn : step packet pc registers instruction = .continued next after) :
    run packet program (fuel + 1) pc registers = run packet program fuel next after := by
  simp only [run, here, goesOn]

theorem run_returned {value : Nat} (here : program[pc]? = some instruction)
    (returned : step packet pc registers instruction = .returned value) :
    run packet program (fuel + 1) pc registers = some value := by
  simp only [run, here, returned]

theorem Attaches.run_returns (attaches : Attaches program) (inside : pc < program.length)
    (enough : program.length ≤ pc + fuel) :
    ∃ value, run packet program fuel pc registers = some value := by
  induction fuel generalizing pc registers with
  | zero => omega
  | succ fuel ih =>
      have here := List.getElem?_eq_getElem inside
      cases outcome : step packet pc registers program[pc] with
      | returned value => exact ⟨value, run_returned here outcome⟩
      | continued next after =>
          have ahead := attaches.forward here outcome
          rw [run_continued here outcome]
          exact ih ahead.2 (by omega)

theorem run_load {keep : Nat → Registers} {value : Option Nat}
    (here : program[pc]? = some instruction)
    (loads : step packet pc registers instruction = load pc keep value) :
    run packet program (fuel + 1) pc registers =
      value.elim (some 0) fun value => run packet program fuel (pc + 1) (keep value) := by
  cases value with
  | none => exact run_returned here loads
  | some value => exact run_continued here loads

/-- One rule for each instruction, by which a program is carried out. -/
theorem run_loadByte {mode : Mode} {k : Nat} (here : program[pc]? = some (.loadByte mode k)) :
    run packet program (fuel + 1) pc registers =
      (byteAt packet (registers.offset k mode)).elim (some 0) fun value =>
        run packet program fuel (pc + 1) { registers with accumulator := value } :=
  run_load here rfl

theorem run_loadHalf {mode : Mode} {k : Nat} (here : program[pc]? = some (.loadHalf mode k)) :
    run packet program (fuel + 1) pc registers =
      (halfAt packet (registers.offset k mode)).elim (some 0) fun value =>
        run packet program fuel (pc + 1) { registers with accumulator := value } :=
  run_load here rfl

theorem run_loadIndex {k : Nat} (here : program[pc]? = some (.loadIndex k)) :
    run packet program (fuel + 1) pc registers =
      (byteAt packet k).elim (some 0) fun value =>
        run packet program fuel (pc + 1) { registers with index := value % 16 * 4 } :=
  run_load here rfl

theorem run_jumpEqual {k jt jf : Nat} (here : program[pc]? = some (.jumpEqual k jt jf)) :
    run packet program (fuel + 1) pc registers =
      run packet program fuel (pc + 1 + if registers.accumulator = k then jt else jf) registers :=
  run_continued here rfl

theorem run_ret {k : Nat} (here : program[pc]? = some (.ret k)) :
    run packet program (fuel + 1) pc registers = some k :=
  run_returned here rfl

end

/-- A program that `SO_ATTACH_FILTER` takes. -/
structure Filter where
  program : List Instruction
  attaches : Attaches program

namespace Filter

/-- How many bytes of a packet the socket is given. -/
def verdict (filter : Filter) (packet : List UInt8) : Nat :=
  (run packet filter.program filter.program.length 0 ⟨0, 0⟩).getD 0

theorem run_verdict (filter : Filter) (packet : List UInt8) :
    run packet filter.program filter.program.length 0 ⟨0, 0⟩ = some (filter.verdict packet) := by
  obtain ⟨k, last⟩ := filter.attaches.last
  have some_ : 0 < filter.program.length := by
    apply List.length_pos_of_ne_nil
    intro empty
    simp [empty] at last
  obtain ⟨value, returned⟩ := @Attaches.run_returns packet _ 0 filter.program.length ⟨0, 0⟩
    filter.attaches some_ (Nat.le_add_left _ _)
  rw [verdict, returned, Option.getD_some]

def delivered (filter : Filter) (packet : List UInt8) : Option (List UInt8) :=
  if filter.verdict packet = 0 then none else some (packet.take (filter.verdict packet))

end Filter

end DirtyCode.Lib.PacketFilter
