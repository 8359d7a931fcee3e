import DirtyCode.Lib.PacketFilter
import DirtyCode.Ping.Attribution

/-!
The socket filters of `sbping` and `liveping`, and what they let through.
-/

namespace DirtyCode.Ping

open Lib Lib.PacketFilter
open Attribution (Packet)

def icmpFilter (icmpId : Nat) : List Instruction :=
  [.loadIndex 0, .loadHalf .ind 0, .jumpEqual 0 0 2, .loadHalf .ind 4, .jumpEqual icmpId 1 0,
    .ret 0, .ret 0xffff]

-- the comparison with `icmp_id` is commented out
def icmp6Filter : List Instruction :=
  [.loadByte .abs 0, .jumpEqual 0x81 1 0, .ret 0, .ret 0xffff]

theorem icmpFilter_attaches (icmpId : Nat) : Attaches (icmpFilter icmpId) := by
  refine ⟨fun pc k jt jf here => ?_, 0xffff, rfl⟩
  have inside : pc < 7 := (List.getElem?_eq_some_iff.mp here).1
  interval_cases pc <;> simp_all [icmpFilter] <;> omega

theorem icmp6Filter_attaches : Attaches icmp6Filter := by
  refine ⟨fun pc k jt jf here => ?_, 0xffff, rfl⟩
  have inside : pc < 4 := (List.getElem?_eq_some_iff.mp here).1
  interval_cases pc <;> simp_all [icmp6Filter]
  omega

def createBpfFilter (icmpId : Nat) : Filter := ⟨icmpFilter icmpId, icmpFilter_attaches icmpId⟩

def createBpfFilter6 : Filter := ⟨icmp6Filter, icmp6Filter_attaches⟩

/-- The filter of every socket that the process opens. -/
def createIcmpSocket (family : Family) (pid : Nat) : Filter :=
  match family with
  | .inet => createBpfFilter (pid % 65536)
  | .inet6 => createBpfFilter6

/-- The messages that a process waits for. -/
def Wanted (pid : Nat) (message : List UInt8) : Family → Prop
  | .inet => halfAt message 0 = some 0 ∧ halfAt message 4 = some (pid % 65536)
  | .inet6 => byteAt message 0 = some 129

instance (pid : Nat) (message : List UInt8) (family : Family) :
    Decidable (Wanted pid message family) :=
  match family with
  | .inet => inferInstanceAs (Decidable (_ ∧ _))
  | .inet6 => inferInstanceAs (Decidable (_ = _))

section

variable {packet message : List UInt8} {icmpId pid : Nat}

theorem verdict_icmp {first start : Nat} (starts : byteAt packet 0 = some first)
    (length : first % 16 * 4 = start) :
    (createBpfFilter icmpId).verdict packet =
      if halfAt packet start = some 0 ∧ halfAt packet (start + 4) = some icmpId then 0xffff
      else 0 := by
  apply Option.some.inj
  rw [← Filter.run_verdict]
  change run packet (icmpFilter icmpId) 7 0 ⟨0, 0⟩ = _
  rw [run_loadIndex rfl, starts, Option.elim_some, length, run_loadHalf rfl, Registers.offset,
    Nat.add_zero]
  cases halfAt packet start with
  | none => simp
  | some type =>
      rw [Option.elim_some, run_jumpEqual rfl]
      by_cases reply : type = 0
      · rw [if_pos reply, reply, run_loadHalf rfl, Registers.offset]
        cases halfAt packet (start + 4) with
        | none => simp
        | some id =>
            rw [Option.elim_some, run_jumpEqual rfl]
            by_cases own : id = icmpId
            · rw [if_pos own, run_ret rfl, if_pos ⟨rfl, congrArg some own⟩]
            · rw [if_neg own, run_ret rfl, if_neg]
              exact fun both => own (Option.some.inj both.2)
      · rw [if_neg reply, run_ret rfl, if_neg]
        exact fun both => reply (Option.some.inj both.1)

theorem verdict_icmp6 :
    createBpfFilter6.verdict message = if byteAt message 0 = some 129 then 0xffff else 0 := by
  apply Option.some.inj
  rw [← Filter.run_verdict]
  change run message icmp6Filter 4 0 ⟨0, 0⟩ = _
  rw [run_loadByte rfl, Registers.offset]
  cases byteAt message 0 with
  | none => simp
  | some type =>
      rw [Option.elim_some, run_jumpEqual rfl]
      by_cases reply : type = 129
      · rw [if_pos reply, run_ret rfl, reply, if_pos rfl]
      · rw [if_neg reply, run_ret rfl, if_neg]
        exact fun same => reply (Option.some.inj same)

theorem halfAt_append (header message : List UInt8) (k : Nat) :
    halfAt (header ++ message) (header.length + k) = halfAt message k := by
  rw [halfAt, halfAt, Nat.add_assoc, List.getElem?_append_right (Nat.le_add_right _ _),
    List.getElem?_append_right (Nat.le_add_right _ _), Nat.add_sub_cancel_left,
    Nat.add_sub_cancel_left]

/-- A socket is given the packets that its process waits for, in full, and no others. -/
theorem delivered_bytes {family : Family} (packet : Packet family)
    (small : packet.bytes.length ≤ 0xffff) :
    (createIcmpSocket family pid).delivered packet.bytes =
      if Wanted pid packet.message family then some packet.bytes else none := by
  have verdict : (createIcmpSocket family pid).verdict packet.bytes =
      if Wanted pid packet.message family then 0xffff else 0 := by
    have framed := packet.framed
    cases family with
    | inet =>
        obtain ⟨long, length, -⟩ := framed
        have first : byteAt packet.bytes 0 = some (packet.header.getD 0 0).toNat := by
          have inside : 0 < packet.header.length := by omega
          rw [byteAt, Packet.bytes, List.getElem?_append_left inside,
            List.getElem?_eq_getElem inside, List.getD_eq_getElem _ _ inside]
          rfl
        rw [createIcmpSocket, verdict_icmp first length.symm, Packet.bytes, halfAt_append,
          ← Nat.add_zero packet.header.length, halfAt_append]
        rfl
    | inet6 =>
        rw [createIcmpSocket, verdict_icmp6, Packet.bytes, framed.1]
        rfl
  rw [Filter.delivered, verdict]
  by_cases wanted : Wanted pid packet.message family
  · rw [if_pos wanted, if_pos wanted, if_neg (by decide), List.take_of_length_le small]
  · rw [if_neg wanted, if_neg wanted, if_pos rfl]

end

end DirtyCode.Ping
