import DirtyCode.Udps.Ipmi
import DirtyCode.Lib.Machine

/-!
Which bytes a line holds that is forwarded under an address: each received byte keeps
the address of its datagram, and the program's own bytes have none.
-/

namespace DirtyCode.Udps.Ipmi

open Lib

structure Octet where
  value : UInt8
  sender : Option (BitVec 32)

def octets : Alphabet Octet where
  byte := Octet.value
  own := fun value => ⟨value, none⟩
  byte_own := fun _ => rfl

def received (datagram : List UInt8) : List Octet :=
  datagram.map fun value => ⟨value, tagOf datagram⟩

structure Arrival where
  datagram : List UInt8
  outside : Nat → Outside

def start {α : Type} : Forwarder α where
  partialLine := []
  sent := []
  n := 0

def machine (nChannel : Nat) : Machine (Forwarder Octet) Arrival where
  init state := state = start
  step state arrival :=
    some (splitAndSend octets nChannel arrival.outside (received arrival.datagram) state)

/-- The body is what stands between the tag and the line end. -/
def Isolated (line : List Octet) : Prop :=
  ∀ ip, tag ip <+: octets.bytes line →
    ∀ octet ∈ (line.drop (tag ip).length).dropLast, octet.sender = some ip

def AllIsolated (state : Forwarder Octet) : Prop :=
  ∀ message ∈ state.sent, Isolated message.bytes

/-- A line is sent only after a rest of the same address, and where `buf` holds it. -/
def KeepsApart (nChannel : Nat) (ip : BitVec 32) :
    (Nat → Outside) → List (List Octet) → List Octet → Prop
  | _, [], _ => True
  | outside, p1 :: rest, carried =>
      let joined := carried ++ octets.cString p1
      if timely (outside 0) (octets.bytes joined) then
        (0 < nChannel → passes octets ip joined →
          (∀ octet ∈ carried, octet.sender = some ip) ∧
            (lineText octets ip joined).length < maxLineLen) ∧
        KeepsApart nChannel ip (fun k => outside (k + 1)) rest []
      else KeepsApart nChannel ip (fun k => outside (k + 1)) rest carried

def Undisturbed (nChannel : Nat) (state : Forwarder Octet) (arrival : Arrival) : Prop :=
  ∀ ip, tagOf arrival.datagram = some ip →
    KeepsApart nChannel ip arrival.outside
      (splitLines octets.isLineEnd ((received arrival.datagram).drop 9)).1 state.partialLine

theorem received_bytes (datagram : List UInt8) : octets.bytes (received datagram) = datagram := by
  rw [Alphabet.bytes, received, List.map_map]
  exact List.map_id _

theorem received_sender {datagram : List UInt8} {octet : Octet}
    (member : octet ∈ received datagram) :
    octet.sender = tagOf datagram := by
  obtain ⟨value, _, rfl⟩ := List.mem_map.mp member
  rfl

theorem step_erase {nChannel : Nat} {state after : Forwarder Octet} {arrival : Arrival}
    (stepped : (machine nChannel).step state arrival = some after) :
    splitAndSend plain nChannel arrival.outside arrival.datagram (erase octets state) =
      erase octets after := by
  obtain rfl := Option.some.inj stepped
  rw [← splitAndSend_erase, received_bytes]

theorem tag_unique {first second : BitVec 32} {line : List UInt8} (starts : tag first <+: line)
    (alsoStarts : tag second <+: line) : first = second := by
  obtain ⟨rest, rfl⟩ := starts
  obtain ⟨later, same⟩ := alsoStarts
  have bar : ascii " | " = [32, 124, 32] := rfl
  simp only [tag, bar, List.append_assoc, List.cons_append] at same
  exact (dottedIp_unique same).1.symm

theorem tag_length (ip : BitVec 32) : (tag ip).length ≤ maxLineLen - 2 := by
  have bar : (ascii " | ").length = 3 := rfl
  have short := dottedIp_length ip
  rw [tag, List.length_append, bar, maxLineLen]
  omega

theorem isolated_iff {ip : BitVec 32} {line : List Octet} (tagged : tag ip <+: octets.bytes line) :
    Isolated line ↔ ∀ octet ∈ (line.drop (tag ip).length).dropLast, octet.sender = some ip := by
  constructor
  · exact fun isolated => isolated ip tagged
  · intro own other starts
    obtain rfl := tag_unique starts tagged
    exact own

section

variable {nChannel : Nat} {ip : BitVec 32} {stack : Nat → UInt8}

theorem print_length (text : List UInt8) : (octets.print text).length = text.length :=
  List.length_map _

theorem tag_sentBytes (joined : List Octet) :
    tag ip <+: octets.bytes (octets.sentBytes stack (lineText octets ip joined)) := by
  have tagged : octets.print (tag ip) <+: lineText octets ip joined := by
    rw [lineText, List.append_assoc]
    exact List.prefix_append _ _
  have inside : octets.print (tag ip) <+: octets.sentBytes stack (lineText octets ip joined) := by
    rw [Alphabet.sentBytes]
    split
    · exact tagged
    · apply List.IsPrefix.trans _ (List.prefix_append _ _)
      rw [Alphabet.buffer, List.prefix_take_iff, print_length]
      exact ⟨tagged, tag_length ip⟩
  have bytes := inside.map Octet.value
  rwa [show (octets.print (tag ip)).map Octet.value = tag ip from octets.bytes_print _] at bytes

theorem body_of_fit {joined : List Octet}
    (fits : (lineText octets ip joined).length < maxLineLen) :
    ((octets.sentBytes stack (lineText octets ip joined)).drop (tag ip).length).dropLast =
      joined := by
  obtain ⟨final, sent⟩ := octets.sentBytes_fit stack fits
  have whole : octets.sentBytes stack (lineText octets ip joined) =
      octets.print (tag ip) ++ (joined ++ [final]) := by
    rw [← List.append_assoc]
    exact sent
  rw [whole, ← print_length (tag ip), List.drop_left, List.dropLast_concat]

theorem sent_isolated_iff (stack : Nat → UInt8) {carried p1 : List Octet}
    (own : ∀ octet ∈ p1, octet.sender = some ip) :
    Isolated (octets.sentBytes stack (lineText octets ip (carried ++ p1))) ↔
      (∀ octet ∈ carried, octet.sender = some ip) ∧
        (lineText octets ip (carried ++ p1)).length < maxLineLen := by
  rw [isolated_iff (tag_sentBytes _)]
  by_cases fits : (lineText octets ip (carried ++ p1)).length < maxLineLen
  · rw [body_of_fit fits]
    constructor
    · exact fun all => ⟨fun octet member => all octet (List.mem_append_left _ member), fits⟩
    · intro apart octet member
      rcases List.mem_append.mp member with early | late
      · exact apart.1 octet early
      · exact own octet late
  · constructor
    · intro all
      have nul := all _ (octets.nul_mem_sentBytes stack (Nat.le_of_not_lt fits) (tag_length ip))
      contradiction
    · exact fun apart => absurd apart.2 fits

theorem channels_isolated_iff {carried p1 : List Octet}
    (own : ∀ octet ∈ p1, octet.sender = some ip) :
    (∀ message ∈ toChannels octets nChannel ip stack (carried ++ p1), Isolated message.bytes) ↔
      (0 < nChannel → (∀ octet ∈ carried, octet.sender = some ip) ∧
        (lineText octets ip (carried ++ p1)).length < maxLineLen) := by
  rw [← sent_isolated_iff stack own]
  constructor
  · intro all some
    exact all _ (List.mem_map_of_mem (List.mem_range.mpr some))
  · intro isolated message member
    obtain ⟨channel, known, rfl⟩ := List.mem_map.mp member
    exact isolated (Nat.zero_lt_of_lt (List.mem_range.mp known))

end

section

variable {nChannel : Nat} {ip : BitVec 32}

theorem forwardLine_late {outside : Outside} {p1 : List Octet} {state : Forwarder Octet}
    (late : timely outside (octets.bytes (state.partialLine ++ octets.cString p1)) = false) :
    forwardLine octets nChannel ip outside p1 state = state := by
  simp only [forwardLine, late, Bool.false_eq_true, if_false]

theorem forwardLine_partialLine {outside : Outside} {p1 : List Octet} {state : Forwarder Octet}
    (due : timely outside (octets.bytes (state.partialLine ++ octets.cString p1)) = true) :
    (forwardLine octets nChannel ip outside p1 state).partialLine = [] := by
  simp only [forwardLine, due, if_true]
  split <;> rfl

theorem forwardLine_isolated_iff (nChannel : Nat) {outside : Outside} {p1 : List Octet}
    {state : Forwarder Octet}
    (isolated : AllIsolated state) (own : ∀ octet ∈ p1, octet.sender = some ip)
    (due : timely outside (octets.bytes (state.partialLine ++ octets.cString p1)) = true) :
    AllIsolated (forwardLine octets nChannel ip outside p1 state) ↔
      (0 < nChannel → passes octets ip (state.partialLine ++ octets.cString p1) →
        (∀ octet ∈ state.partialLine, octet.sender = some ip) ∧
          (lineText octets ip (state.partialLine ++ octets.cString p1)).length < maxLineLen) := by
  have ownText : ∀ octet ∈ octets.cString p1, octet.sender = some ip :=
    fun octet member => own octet (List.takeWhile_subset _ member)
  by_cases kept : passes octets ip (state.partialLine ++ octets.cString p1) = true
  · simp only [forwardLine, due, kept, if_true, AllIsolated, List.forall_mem_append]
    rw [channels_isolated_iff ownText]
    exact ⟨fun all some _ => all.2 some, fun apart => ⟨isolated, fun some => apart some trivial⟩⟩
  · simp only [forwardLine, due, kept, if_true, Bool.false_eq_true, if_false]
    exact ⟨fun _ _ passed => absurd passed (by decide), fun _ => isolated⟩

theorem forwardLine_sent (outside : Outside) (p1 : List Octet) (state : Forwarder Octet) :
    state.sent <+: (forwardLine octets nChannel ip outside p1 state).sent := by
  simp only [forwardLine]
  split
  · split
    · exact List.prefix_append _ _
    · exact List.prefix_refl _
  · exact List.prefix_refl _

theorem forwardLines_sent (outside : Nat → Outside) (lines : List (List Octet))
    (state : Forwarder Octet) :
    state.sent <+: (forwardLines octets nChannel ip outside lines state).sent := by
  induction lines generalizing outside state with
  | nil => exact List.prefix_refl _
  | cons p1 rest ih => exact (forwardLine_sent _ p1 state).trans (ih _ _)

theorem AllIsolated.of_prefix {state after : Forwarder Octet} (isolated : AllIsolated after)
    (grown : state.sent <+: after.sent) : AllIsolated state :=
  fun message member => isolated message (grown.subset member)

theorem forwardLines_isolated_iff (nChannel : Nat) (outside : Nat → Outside)
    {lines : List (List Octet)}
    {state : Forwarder Octet} (isolated : AllIsolated state)
    (own : ∀ p1 ∈ lines, ∀ octet ∈ p1, octet.sender = some ip) :
    AllIsolated (forwardLines octets nChannel ip outside lines state) ↔
      KeepsApart nChannel ip outside lines state.partialLine := by
  induction lines generalizing outside state with
  | nil => exact ⟨fun _ => trivial, fun _ => isolated⟩
  | cons p1 rest ih =>
      have ownRest := fun line member => own line (List.mem_cons_of_mem p1 member)
      rw [forwardLines, KeepsApart]
      by_cases due : timely (outside 0)
          (octets.bytes (state.partialLine ++ octets.cString p1)) = true
      · have here := forwardLine_isolated_iff nChannel isolated (own p1 List.mem_cons_self) due
        simp only [due, if_true]
        rw [← here]
        constructor
        · intro all
          have first := all.of_prefix (forwardLines_sent _ _ _)
          refine ⟨first, ?_⟩
          rw [← forwardLine_partialLine due]
          exact (ih _ first ownRest).mp all
        · intro apart
          apply (ih _ apart.1 ownRest).mpr
          rw [forwardLine_partialLine due]
          exact apart.2
      · rw [forwardLine_late (Bool.not_eq_true _ ▸ due)]
        simp only [due, Bool.false_eq_true, if_false]
        exact ih _ isolated ownRest

end

theorem step_isolated_iff {nChannel : Nat} {state after : Forwarder Octet} {arrival : Arrival}
    (isolated : AllIsolated state) (stepped : (machine nChannel).step state arrival = some after) :
    AllIsolated after ↔ Undisturbed nChannel state arrival := by
  obtain rfl := Option.some.inj stepped
  rw [splitAndSend, received_bytes, Undisturbed]
  cases tagged : tagOf arrival.datagram with
  | none => exact ⟨fun _ ip found => by contradiction, fun _ => isolated⟩
  | some ip =>
      have own : ∀ p1 ∈ (splitLines octets.isLineEnd ((received arrival.datagram).drop 9)).1,
          ∀ octet ∈ p1, octet.sender = some ip := by
        intro p1 line octet member
        have inside := (splitLines_subset _ _).1 p1 line member
        rw [received_sender (List.drop_subset _ _ inside), tagged]
      let fresh : Forwarder Octet := { state with n := 0 }
      have isolatedFresh : AllIsolated fresh := isolated
      have lines := forwardLines_isolated_iff nChannel arrival.outside isolatedFresh own
      constructor
      · intro all other found
        obtain rfl := Option.some.inj found
        exact lines.mp all
      · exact fun apart => lines.mpr (apart ip rfl)

theorem lines_isolated_iff (nChannel : Nat) (arrivals : List Arrival) :
    (machine nChannel).Along (fun _ _ after => AllIsolated after) start arrivals ↔
      (machine nChannel).Along (fun state arrival _ => Undisturbed nChannel state arrival) start
        arrivals := by
  apply Machine.along_iff AllIsolated
  · exact fun state arrival after isolated stepped => step_isolated_iff isolated stepped
  · exact fun state arrival after isolated apart stepped =>
      (step_isolated_iff isolated stepped).mpr apart
  · intro message member
    cases member

def noon : Outside where
  curTime := 1704110400
  mktime := fun _ => 1704110400
  stack := fun _ => 0

-- one source leaves a line open, and another one sends a whole line
def openedAndSent : List Arrival :=
  [⟨ascii "0a000001 1 | 01/01/2024 | 12:00:00 | A secret", fun _ => noon⟩,
    ⟨ascii "0a000002 2 | 01/01/2024 | 12:00:00 | B\n", fun _ => noon⟩]

def revealing (ip : BitVec 32) (line : List Octet) : Bool :=
  decide (tag ip <+: octets.bytes line) &&
    (line.drop (tag ip).length).dropLast.any fun octet => decide (octet.sender ≠ some ip)

theorem not_isolated_of_revealing {ip : BitVec 32} {line : List Octet}
    (found : revealing ip line = true) : ¬Isolated line := by
  intro isolated
  obtain ⟨tagged, other⟩ := (Bool.and_eq_true _ _).mp found
  obtain ⟨octet, member, foreign⟩ := List.any_eq_true.mp other
  exact of_decide_eq_true foreign (isolated ip (of_decide_eq_true tagged) octet member)

theorem foreign_bytes_forwarded :
    ¬(machine 1).Along (fun _ _ after => AllIsolated after) start openedAndSent := by
  intro along
  have second := ((along _ rfl).2 _ rfl).1
  obtain ⟨message, sent, revealed⟩ := List.any_eq_true.mp
    (show (splitAndSend octets 1 (fun _ => noon) (received (ascii
        "0a000002 2 | 01/01/2024 | 12:00:00 | B\n")) (splitAndSend octets 1 (fun _ => noon)
          (received (ascii "0a000001 1 | 01/01/2024 | 12:00:00 | A secret")) start)).sent.any
            (fun message => revealing 0x0a000002 message.bytes) = true by decide +kernel)
  exact not_isolated_of_revealing revealed (second message sent)

end DirtyCode.Udps.Ipmi
