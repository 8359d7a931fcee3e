import DirtyCode.Udps.Datagram

/-!
`split_and_send` of `udps_fwd.c`, and the datagrams that `drain_client` of
`logCollectSrv.c` makes for it.
-/

namespace DirtyCode.Udps.Fwd

open Lib

/-- What `drain_client` sends for a session at `ip` when it has read `buf`. -/
def rawbuf (ip : BitVec 32) (buf : List UInt8) : List UInt8 := hexText 8 ip.toNat ++ 32 :: buf

structure Message where
  channel : Nat
  bytes : List UInt8

structure Forwarded where
  sent : List Message
  n : Nat

def lineText (ip : BitVec 32) (p1 : List UInt8) : List UInt8 :=
  dottedIp ip ++ 32 :: (plain.cString p1 ++ [10])

def wanted (p1 : List UInt8) : Bool := 20 ≤ p1.length ∧ p1.getD 4 0 = 45 ∧ p1.getD 7 0 = 45

section

variable (nChannel : Nat) (ip : BitVec 32)

def toChannels (stack : Nat → UInt8) (p1 : List UInt8) : List Message :=
  (List.range nChannel).map fun i => ⟨i, plain.sentBytes stack (lineText ip p1)⟩

-- the bytes behind the text in `buf` may be others at every line
def forwardLines : (Nat → Nat → UInt8) → List (List UInt8) → Forwarded → Forwarded
  | _, [], state => state
  | stack, p1 :: rest, state =>
      forwardLines (fun k => stack (k + 1)) rest
        (if wanted p1 then ⟨state.sent ++ toChannels nChannel ip (stack 0) p1, state.n + 1⟩
        else state)

def splitAndSend (stack : Nat → Nat → UInt8) (msg : List UInt8) : Forwarded :=
  match tagOf msg with
  | none => ⟨[], 0⟩
  | some ip =>
      forwardLines nChannel ip stack (splitLines plain.isLineEnd (msg.drop 9)).1 ⟨[], 0⟩

/-- The lines of a text that are forwarded, with their places. -/
def wantedLines (text : List UInt8) : List (List UInt8 × Nat) :=
  (splitLines plain.isLineEnd text).1.zipIdx.filter fun line => wanted line.1

theorem forwardLines_eq (stack : Nat → Nat → UInt8) (lines : List (List UInt8)) (first : Nat)
    (state : Forwarded) :
    forwardLines nChannel ip (fun k => stack (k + first)) lines state =
      let kept := (lines.zipIdx first).filter fun line => wanted line.1
      ⟨state.sent ++ kept.flatMap fun line => toChannels nChannel ip (stack line.2) line.1,
        state.n + kept.length⟩ := by
  induction lines generalizing first state with
  | nil => simp [forwardLines]
  | cons p1 rest ih =>
      have later := ih (first + 1)
      simp only [show ∀ k, k + (first + 1) = k + 1 + first by omega] at later
      rw [forwardLines, later, List.zipIdx_cons]
      by_cases kept : wanted p1 = true
      · simp [kept, Nat.add_assoc, Nat.add_comm 1]
      · simp [kept]

end

theorem tagOf_rawbuf {ip : BitVec 32} (nonzero : ip ≠ 0) {buf : List UInt8} (some_ : buf ≠ []) :
    tagOf (rawbuf ip buf) = some ip := by
  have size : (hexText 8 ip.toNat).length = 8 := hexText_length 8 _
  have long : 10 ≤ (rawbuf ip buf).length := by
    have positive := List.length_pos_of_ne_nil some_
    rw [rawbuf, List.length_append, List.length_cons, size]
    omega
  have blank : (rawbuf ip buf).getD 8 0 = 32 := by
    rw [rawbuf, List.getD_append_right _ _ _ _ size.le, size]
    rfl
  have head : (rawbuf ip buf).take 8 = hexText 8 ip.toNat := by
    rw [rawbuf, List.take_append_of_le_length size.ge, List.take_of_length_le size.le]
  have read : BitVec.ofInt 32 (strtol16 (hexText 8 ip.toNat)) = ip := by
    have number : strtol16 (hexText 8 ip.toNat) = ip.toNat := strtol16_hexText ip.isLt
    rw [number, BitVec.ofInt_natCast, BitVec.ofNat_toNat,
      BitVec.setWidth_eq]
  rw [tagOf, if_neg (not_or.mpr ⟨by omega, by rw [blank]; decide⟩)]
  simp only [head, read]
  exact if_neg nonzero

theorem drop_rawbuf (ip : BitVec 32) (buf : List UInt8) : (rawbuf ip buf).drop 9 = buf := by
  have size : (hexText 8 ip.toNat ++ [32]).length = 9 := by
    rw [List.length_append, hexText_length, List.length_singleton]
  rw [rawbuf, ← List.singleton_append, ← List.append_assoc, ← size, List.drop_left]

/-- A message starts with the address and a blank, and so with no other address. -/
def CarriesOnly (ip : BitVec 32) (bytes : List UInt8) : Prop :=
  ∀ other, dottedIp other ++ [32] <+: bytes ↔ other = ip

theorem carriesOnly_sentBytes (ip : BitVec 32) (stack : Nat → UInt8) (p1 : List UInt8) :
    CarriesOnly ip (plain.sentBytes stack (lineText ip p1)) := by
  have starts : dottedIp ip ++ [32] <+: lineText ip p1 := by
    refine ⟨plain.cString p1 ++ [10], ?_⟩
    rw [lineText, List.append_assoc, List.singleton_append]
  have own : dottedIp ip ++ [32] <+: plain.sentBytes stack (lineText ip p1) := by
    rw [Alphabet.sentBytes]
    split
    · exact starts
    · have short := dottedIp_length ip
      apply List.IsPrefix.trans _ (List.prefix_append _ _)
      rw [Alphabet.buffer, List.prefix_take_iff, List.length_append, List.length_singleton,
        maxLineLen]
      exact ⟨starts, by omega⟩
  intro other
  constructor
  · intro alsoStarts
    obtain ⟨rest, whole⟩ := own
    obtain ⟨later, same⟩ := alsoStarts
    rw [← whole, List.append_assoc, List.append_assoc] at same
    exact (dottedIp_unique same).1
  · rintro rfl
    exact own

/-- The forwarder accepts every datagram of the collector, splits what the collector has
read and sends each wanted line under the session's own address. -/
theorem forwarded_under_tag (nChannel : Nat) (stack : Nat → Nat → UInt8) {ip : BitVec 32}
    (nonzero : ip ≠ 0) {buf : List UInt8} (some_ : buf ≠ []) :
    tagOf (rawbuf ip buf) = some ip ∧
      splitAndSend nChannel stack (rawbuf ip buf) =
        ⟨(wantedLines buf).flatMap fun line => toChannels nChannel ip (stack line.2) line.1,
          (wantedLines buf).length⟩ ∧
      ∀ message ∈ (splitAndSend nChannel stack (rawbuf ip buf)).sent,
        CarriesOnly ip message.bytes := by
  have accepted := tagOf_rawbuf nonzero some_
  have forwarded : splitAndSend nChannel stack (rawbuf ip buf) =
      ⟨(wantedLines buf).flatMap fun line => toChannels nChannel ip (stack line.2) line.1,
        (wantedLines buf).length⟩ := by
    have lines := forwardLines_eq nChannel ip stack (splitLines plain.isLineEnd buf).1 0 ⟨[], 0⟩
    simp only [Nat.add_zero, List.nil_append, Nat.zero_add] at lines
    rw [splitAndSend, accepted, drop_rawbuf]
    exact lines
  refine ⟨accepted, forwarded, ?_⟩
  intro message member
  rw [forwarded] at member
  obtain ⟨line, _, sent⟩ := List.mem_flatMap.mp member
  obtain ⟨channel, _, rfl⟩ := List.mem_map.mp sent
  exact carriesOnly_sentBytes ip _ _

theorem forwarded_under_tag_top :
    (0x80000001 : BitVec 32) ≠ 0 ∧ ascii "2024-01-01 12:00:00 up\n" ≠ [] ∧
      (tagOf (rawbuf 0x80000001 (ascii "2024-01-01 12:00:00 up\n")) = some 0x80000001 ∧
        splitAndSend 1 (fun _ _ => 0) (rawbuf 0x80000001 (ascii "2024-01-01 12:00:00 up\n")) =
          ⟨(wantedLines (ascii "2024-01-01 12:00:00 up\n")).flatMap fun line =>
              toChannels 1 0x80000001 (fun _ => 0) line.1,
            (wantedLines (ascii "2024-01-01 12:00:00 up\n")).length⟩ ∧
        ∀ message ∈ (splitAndSend 1 (fun _ _ => 0)
            (rawbuf 0x80000001 (ascii "2024-01-01 12:00:00 up\n"))).sent,
          CarriesOnly 0x80000001 message.bytes) := by
  have nonzero : (0x80000001 : BitVec 32) ≠ 0 := by decide
  have some_ : ascii "2024-01-01 12:00:00 up\n" ≠ [] := by decide
  exact ⟨nonzero, some_, forwarded_under_tag 1 (fun _ _ => 0) nonzero some_⟩

end DirtyCode.Udps.Fwd
