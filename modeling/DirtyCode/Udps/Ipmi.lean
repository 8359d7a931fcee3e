import DirtyCode.Udps.Datagram
import DirtyCode.Lib.CInt

/-!
`split_and_send` of `udps_ipmi.c`: the lines of a datagram, the first one after what an
earlier datagram left, go to every channel if they are timely and no keyword drops them.
-/

namespace DirtyCode.Udps.Ipmi

open Lib

def maxBackSec : Int := 15 * 60

-- what a line meets: `cur_time`, which another thread sets, `mktime` on a `struct tm`
-- whose `tm_isdst` is not set, and the bytes that lie behind the text in `buf`
structure Outside where
  curTime : Int
  mktime : List Nat → Int
  stack : Nat → UInt8

def notBar (byte : UInt8) : Bool := byte ≠ 0 ∧ byte ≠ 10 ∧ byte ≠ 124

def afterBar (text : List UInt8) : Option (List UInt8) :=
  match text.dropWhile notBar with
  | [] => none
  | byte :: rest => if byte = 124 then some rest else none

/-- `"| %m/%d/%Y | %H:%M:%S"` -/
def timeFormat : List TimeField :=
  [.byte 124, .blank, .number 1 12 2, .byte 47, .number 1 31 2, .byte 47, .number 0 9999 4,
    .blank, .byte 124, .blank, .number 0 23 2, .byte 58, .number 0 59 2, .byte 58, .number 0 61 2]

def getUtc (mktime : List Nat → Int) (head : List UInt8) : Int :=
  let scanned := do
    let first ← afterBar head
    let second ← afterBar first
    let third ← afterBar second
    let result ← strptime timeFormat (124 :: first.take (first.length - third.length - 1))
    some (toInt32 (mktime result))
  scanned.getD (-1)

def timely (outside : Outside) (line : List UInt8) : Bool :=
  let utc := getUtc outside.mktime (line.take 62)
  let delta := toInt32 (outside.curTime - utc)
  utc > 1 ∧ ((delta ≤ maxBackSec ∧ -maxBackSec ≤ delta) ∨
    (delta - 3600 * 8 < maxBackSec ∧ delta - 3600 * 8 > -maxBackSec))

def keywords : List (List UInt8) :=
  [ascii " | Microcontroller BMC Time Hopping | ", ascii " | Event Logging Disabled",
    ascii " | Timestamp Clock Sync", ascii " | Session Audit ",
    ascii " | Lower Non-critical going low "]

def filtered (buf : List UInt8) : Bool := keywords.any fun keyword => decide (keyword <:+: buf)

def tag (ip : BitVec 32) : List UInt8 := dottedIp ip ++ ascii " | "

structure Message (α : Type) where
  channel : Nat
  bytes : List α

structure Forwarder (α : Type) where
  partialLine : List α
  sent : List (Message α)
  n : Nat

section

variable {α : Type} (chars : Alphabet α) (nChannel : Nat) (ip : BitVec 32)

def lineText (joined : List α) : List α := chars.print (tag ip) ++ joined ++ chars.print [10]

/-- Whether no keyword stops the line. -/
def passes (joined : List α) : Bool :=
  !filtered (chars.bytes (Alphabet.buffer (lineText chars ip joined)))

def toChannels (stack : Nat → UInt8) (joined : List α) : List (Message α) :=
  (List.range nChannel).map fun i => ⟨i, chars.sentBytes stack (lineText chars ip joined)⟩

def forwardLine (outside : Outside) (p1 : List α) (state : Forwarder α) : Forwarder α :=
  let joined := state.partialLine ++ chars.cString p1
  if timely outside (chars.bytes joined) then
    if passes chars ip joined then
      { partialLine := []
        sent := state.sent ++ toChannels chars nChannel ip outside.stack joined
        n := state.n + 1 }
    else { state with partialLine := [] }
  else state

def forwardLines : (Nat → Outside) → List (List α) → Forwarder α → Forwarder α
  | _, [], state => state
  | outside, p1 :: rest, state =>
      forwardLines (fun k => outside (k + 1)) rest
        (forwardLine chars nChannel ip (outside 0) p1 state)

-- `msg[len - 1]` once the line ends are overwritten
def endsInside (payload : List α) : Bool :=
  match payload.getLast? with
  | none => false
  | some char => chars.byte char ≠ 0 ∧ chars.byte char ≠ 10

def leftOver (payload rest : List α) : List α :=
  if endsInside chars payload then (chars.cString rest).take (maxLineLen - 1) else []

def forwardPayload (outside : Nat → Outside) (payload : List α) (state : Forwarder α) :
    Forwarder α :=
  let split := splitLines chars.isLineEnd payload
  { forwardLines chars nChannel ip outside split.1 state with
    partialLine := leftOver chars payload split.2 }

def splitAndSend (outside : Nat → Outside) (msg : List α) (state : Forwarder α) : Forwarder α :=
  match tagOf (chars.bytes msg) with
  | none => { state with n := 0 }
  | some ip => forwardPayload chars nChannel ip outside (msg.drop 9) { state with n := 0 }

end

/-! The bytes that the program computes do not depend on what else the characters tell. -/

section

variable {α : Type} (chars : Alphabet α) (nChannel : Nat) (ip : BitVec 32)

def erase (state : Forwarder α) : Forwarder UInt8 where
  partialLine := chars.bytes state.partialLine
  sent := state.sent.map fun message => ⟨message.channel, chars.bytes message.bytes⟩
  n := state.n

theorem bytes_lineText (joined : List α) :
    chars.bytes (lineText chars ip joined) = lineText plain ip (chars.bytes joined) := by
  simp [lineText]

theorem passes_bytes (joined : List α) :
    passes plain ip (chars.bytes joined) = passes chars ip joined := by
  rw [passes, passes, Alphabet.plain_bytes, ← bytes_lineText, ← Alphabet.bytes_buffer]

theorem toChannels_bytes (stack : Nat → UInt8) (joined : List α) :
    toChannels plain nChannel ip stack (chars.bytes joined) =
      (toChannels chars nChannel ip stack joined).map fun message =>
        ⟨message.channel, chars.bytes message.bytes⟩ := by
  rw [toChannels, toChannels, List.map_map, ← bytes_lineText, ← Alphabet.bytes_sentBytes]
  rfl

theorem forwardLine_erase (outside : Outside) (p1 : List α) (state : Forwarder α) :
    forwardLine plain nChannel ip outside (chars.bytes p1) (erase chars state) =
      erase chars (forwardLine chars nChannel ip outside p1 state) := by
  have joined : (erase chars state).partialLine ++ plain.cString (chars.bytes p1) =
      chars.bytes (state.partialLine ++ chars.cString p1) := by
    rw [Alphabet.bytes_append, Alphabet.bytes_cString]
    rfl
  simp only [forwardLine, joined, Alphabet.plain_bytes, passes_bytes, toChannels_bytes]
  split
  · split
    · simp [erase, Alphabet.bytes]
    · rfl
  · rfl

theorem forwardLines_erase (outside : Nat → Outside) (lines : List (List α))
    (state : Forwarder α) :
    forwardLines plain nChannel ip outside (lines.map chars.bytes) (erase chars state) =
      erase chars (forwardLines chars nChannel ip outside lines state) := by
  induction lines generalizing outside state with
  | nil => rfl
  | cons p1 rest ih =>
      rw [List.map_cons, forwardLines, forwardLines, forwardLine_erase]
      exact ih _ _

theorem endsInside_bytes (payload : List α) :
    endsInside plain (chars.bytes payload) = endsInside chars payload := by
  rw [endsInside, endsInside, Alphabet.bytes, List.getLast?_map]
  cases payload.getLast? with
  | none => rfl
  | some char => rfl

theorem leftOver_bytes (payload rest : List α) :
    leftOver plain (chars.bytes payload) (chars.bytes rest) =
      chars.bytes (leftOver chars payload rest) := by
  rw [leftOver, leftOver, endsInside_bytes, ← Alphabet.bytes_cString]
  split
  · exact List.map_take.symm
  · rfl

theorem forwardPayload_erase (outside : Nat → Outside) (payload : List α) (state : Forwarder α) :
    forwardPayload plain nChannel ip outside (chars.bytes payload) (erase chars state) =
      erase chars (forwardPayload chars nChannel ip outside payload state) := by
  have lines : splitLines plain.isLineEnd (chars.bytes payload) =
      ((splitLines chars.isLineEnd payload).1.map chars.bytes,
        chars.bytes (splitLines chars.isLineEnd payload).2) :=
    splitLines_map plain.isLineEnd chars.byte payload
  simp only [forwardPayload, lines, forwardLines_erase, leftOver_bytes]
  rfl

theorem splitAndSend_erase (outside : Nat → Outside) (msg : List α) (state : Forwarder α) :
    splitAndSend plain nChannel outside (chars.bytes msg) (erase chars state) =
      erase chars (splitAndSend chars nChannel outside msg state) := by
  have payload : (chars.bytes msg).drop 9 = chars.bytes (msg.drop 9) := List.map_drop.symm
  rw [splitAndSend, splitAndSend, Alphabet.plain_bytes, payload]
  cases tagOf (chars.bytes msg) with
  | none => rfl
  | some ip => exact forwardPayload_erase chars nChannel ip outside _ { state with n := 0 }

end

end DirtyCode.Udps.Ipmi
