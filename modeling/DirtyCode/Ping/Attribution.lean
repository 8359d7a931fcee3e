import DirtyCode.Ping.Checksum
import DirtyCode.Ping.Record

/-!
`sbping`: which record a received packet updates. The index of a record travels behind the
`struct timeval` of its probe.
-/

namespace DirtyCode.Ping.Attribution

open Lib

def bufSize : Nat := 200

def maxSizeIpHeader : Nat := 60

def maxItems : Nat := 2000000

structure Entry where
  name : List UInt8
  id : Nat
  counters : Record
  deriving DecidableEq, Repr

-- the last byte of the line, its end as a rule, is cut off
def newEntry (line : List UInt8) (nLine : Nat) : Entry where
  name := (line.takeWhile fun byte => byte ≠ 0).dropLast
  id := nLine
  counters := { seq := -1, latency := -1, lastSend := -1, lostStart := -1, lost := 0 }

def Entry.reply (rtt : Int) (e : Entry) : Entry :=
  { e with counters := e.counters.handlePingReply rtt }

def genListFrom : List Entry → List (List UInt8) → Option (List Entry)
  | iplist, [] => some iplist
  | iplist, line :: rest =>
      if iplist.length < maxItems then genListFrom (iplist ++ [newEntry line iplist.length]) rest
      else none -- a store behind the table

def genList (lines : List (List UInt8)) : Option (List Entry) := genListFrom [] lines

/-- A value that `-s` takes. -/
structure PacketSize where
  value : Nat
  accepted : 8 ≤ value ∧ value ≤ bufSize

def echoRequest : Family → UInt8
  | .inet => 8
  | .inet6 => 128

def echoReply : Family → UInt8
  | .inet => 0
  | .inet6 => 129

def htons (value : Nat) : Memory := fun offset => UInt8.ofNat (value / 256 ^ (1 - offset) % 256)

/-- `snd_buf` before the checksum is stored. -/
def filled (type : UInt8) (pid seq sec usec id : Nat) : Memory :=
  let buf : Memory := fun _ => 0
  let buf := (buf.set 0 type).set 1 0
  let buf := (buf.memcpy 4 (htons pid) 2).memcpy 6 (htons seq) 2
  let buf := (buf.memcpy 8 (Memory.littleEndian sec) 8).memcpy 16 (Memory.littleEndian usec) 8
  buf.memcpy 24 (Memory.littleEndian id) 4

/-- `snd_buf` when `send_ping` or `send_ping6` hands it to `sendto`. -/
def sndBuf (family : Family) (sndlen pid seq sec usec id : Nat) : Memory :=
  let buf := filled (echoRequest family) pid seq sec usec id
  match family with
  | .inet => buf.memcpy 2 (Memory.littleEndian (calcCsum buf sndlen).toNat) 2
  | .inet6 => buf

def probe (family : Family) (sndlen pid seq sec usec id : Nat) : List UInt8 :=
  (sndBuf family sndlen pid seq sec usec id).slice 0 sndlen

/-- How the kernel hands over a packet: with its IP header, whose lengths it has checked, but
for IPv6 without. -/
def Framed : Family → List UInt8 → List UInt8 → Prop
  | .inet, header, message =>
      20 ≤ header.length ∧ header.length = (header.getD 0 0).toNat % 16 * 4 ∧
        256 * (header.getD 2 0).toNat + (header.getD 3 0).toNat = header.length + message.length
  | .inet6, header, message => header = [] ∧ message ≠ []

structure Packet (family : Family) where
  header : List UInt8
  message : List UInt8
  framed : Framed family header message

def Packet.bytes {family : Family} (packet : Packet family) : List UInt8 :=
  packet.header ++ packet.message

/-- `rcv_buf` after `recvmsg`, and what lies behind it. -/
def rcvBuf (bufsize : Nat) (stack : Memory) (bytes : List UInt8) : Memory := fun offset =>
  if offset < bufsize + maxSizeIpHeader then bytes.getD offset 0 else stack offset

def icmpStart (family : Family) (buf : Memory) : Nat :=
  match family with
  | .inet => (buf 0).toNat % 16 * 4
  | .inet6 => 0

def rcvdCsum (family : Family) (buf : Memory) : BitVec 16 :=
  match family with
  | .inet =>
      let totLen := 256 * (buf 2).toNat + (buf 3).toNat
      calcCsum (buf.view (icmpStart family buf))
        (((totLen : Int) - icmpStart family buf) % 65536).toNat
  | .inet6 => 0

/-- The `int` where the receiver looks for the index. -/
def ptrIdx (family : Family) (buf : Memory) : Int :=
  (BitVec.ofNat 32 (Memory.ofLittleEndian (buf.slice (icmpStart family buf + 24) 4))).toInt

/-- The value returned and the records, unless a null pointer is followed. The round trip is an
`int` already. -/
def handlePingReply (family : Family) (bufsize : Nat) (stack : Memory) (iplist : List Entry)
    (bytes : List UInt8) (rtt : Int) : Option (Int × List Entry) :=
  let numbytes := min bytes.length (bufsize + maxSizeIpHeader)
  let buf := rcvBuf bufsize stack bytes
  if numbytes = 0 then some (0, iplist)
  else if rcvdCsum family buf ≠ 0 then some (-1, iplist)
  else
    let idx := ptrIdx family buf
    if idx < 0 ∨ iplist.length < idx then some (-1, iplist)
    else
      match iplist[idx.toNat]? with
      | none => none
      | some e =>
          if (e.id : Int) ≠ idx then some (-1, iplist)
          else some (numbytes, iplist.modify idx.toNat (Entry.reply rtt))

/-- The answer to a probe repeats it from its identifier on. The probe has no IP options. -/
structure AnswerTo {family : Family} (sndlen pid seq sec usec id : Nat)
    (packet : Packet family) : Prop where
  header : family = .inet → packet.header.length = 20
  type : packet.message.take 2 = [echoReply family, 0]
  length : packet.message.length = sndlen
  payload : packet.message.drop 4 = (probe family sndlen pid seq sec usec id).drop 4
  checked : family = .inet → Checked packet.message

def EchoOf {family : Family} (sndlen id : Nat) (packet : Packet family) : Prop :=
  ∃ pid seq sec usec, AnswerTo sndlen pid seq sec usec id packet

/-- The records of the lines at any later time. -/
def Listing (lines : List (List UInt8)) (iplist : List Entry) : Prop :=
  ∃ first, genList lines = some first ∧
    iplist.map (fun e => (e.name, e.id)) = first.map fun e => (e.name, e.id)

structure Attributes {family : Family} (size : PacketSize) (stack : Memory)
    (lines : List (List UInt8)) (packet : Packet family) (rtt : Int) : Prop where
  listed : (genList lines).isSome
  echo : ∀ iplist, Listing lines iplist → ∀ id < lines.length, EchoOf size.value id packet →
    handlePingReply family size.value stack iplist packet.bytes rtt =
      some ((packet.bytes.length : Int), iplist.modify id (Entry.reply rtt))
  foreign : ∀ iplist, Listing lines iplist →
    (∀ e ∈ iplist, (e.id : Int) ≠ ptrIdx family (rcvBuf size.value stack packet.bytes)) →
    handlePingReply family size.value stack iplist packet.bytes rtt = some (-1, iplist)

theorem genListFrom_eq (iplist : List Entry) (lines : List (List UInt8))
    (room : iplist.length ≤ maxItems) :
    genListFrom iplist lines = if iplist.length + lines.length ≤ maxItems then
      some (iplist ++ (lines.zipIdx iplist.length).map fun line => newEntry line.1 line.2)
    else none := by
  induction lines generalizing iplist with
  | nil => simp [genListFrom, room]
  | cons line rest ih =>
      rw [genListFrom]
      by_cases more : iplist.length < maxItems
      · have size : (iplist ++ [newEntry line iplist.length]).length = iplist.length + 1 := by simp
        have count : iplist.length + 1 + rest.length = iplist.length + (rest.length + 1) := by omega
        rw [if_pos more, ih _ (by omega), size, List.length_cons, count, List.zipIdx_cons,
          List.map_cons, List.append_assoc, List.singleton_append]
      · rw [if_neg more, if_neg (by simp only [List.length_cons]; omega)]

theorem genList_eq (lines : List (List UInt8)) :
    genList lines = if lines.length ≤ maxItems then
      some (lines.zipIdx.map fun line => newEntry line.1 line.2) else none := by
  have all := genListFrom_eq [] lines (Nat.zero_le _)
  rw [List.length_nil, Nat.zero_add, List.nil_append] at all
  exact all

theorem genList_id {lines : List (List UInt8)} {first : List Entry}
    (listed : genList lines = some first) :
    lines.length ≤ maxItems ∧ first.map Entry.id = List.range lines.length := by
  rw [genList_eq] at listed
  split at listed
  · rename_i short
    refine ⟨short, ?_⟩
    rw [← Option.some.inj listed, List.map_map, List.range_eq_range', ← List.zipIdx_map_snd 0 lines]
    rfl
  · contradiction

theorem Listing.map_id {lines : List (List UInt8)} {iplist : List Entry}
    (listing : Listing lines iplist) : iplist.map Entry.id = List.range lines.length := by
  obtain ⟨first, listed, same⟩ := listing
  have ids := congrArg (List.map Prod.snd) same
  rw [List.map_map, List.map_map] at ids
  exact ids.trans (genList_id listed).2

theorem Listing.length {lines : List (List UInt8)} {iplist : List Entry}
    (listing : Listing lines iplist) : iplist.length = lines.length := by
  have size := congrArg List.length listing.map_id
  rwa [List.length_map, List.length_range] at size

theorem Listing.id {lines : List (List UInt8)} {iplist : List Entry}
    (listing : Listing lines iplist) {i : Nat} (inside : i < iplist.length) :
    iplist[i].id = i := by
  have ids := listing.map_id
  have here : (iplist.map Entry.id)[i]? = some iplist[i].id := by
    rw [List.getElem?_map, List.getElem?_eq_getElem inside]
    rfl
  rw [ids, List.getElem?_range (by rw [← listing.length]; exact inside)] at here
  exact (Option.some.inj here).symm

section

variable {family : Family} {bufsize : Nat} {stack : Memory} {iplist : List Entry}
  {lines : List (List UInt8)} {packet : Packet family} {rtt : Int}

theorem Packet.bytes_ne_nil (packet : Packet family) : packet.bytes ≠ [] := by
  have framed := packet.framed
  intro empty
  obtain ⟨noHeader, noMessage⟩ := List.append_eq_nil_iff.mp empty
  cases family with
  | inet =>
      have long := framed.1
      rw [noHeader] at long
      contradiction
  | inet6 => exact framed.2 noMessage

theorem numbytes_ne_zero (packet : Packet family) (bufsize : Nat) :
    min packet.bytes.length (bufsize + maxSizeIpHeader) ≠ 0 := by
  have some_ := List.length_pos_of_ne_nil packet.bytes_ne_nil
  simp only [maxSizeIpHeader]
  omega

theorem handle_corrupt (bad : rcvdCsum family (rcvBuf bufsize stack packet.bytes) ≠ 0) :
    handlePingReply family bufsize stack iplist packet.bytes rtt = some (-1, iplist) := by
  rw [handlePingReply, if_neg (numbytes_ne_zero packet bufsize), if_pos bad]

theorem handle_outside (good : rcvdCsum family (rcvBuf bufsize stack packet.bytes) = 0)
    (outside : ptrIdx family (rcvBuf bufsize stack packet.bytes) < 0 ∨
      iplist.length < ptrIdx family (rcvBuf bufsize stack packet.bytes)) :
    handlePingReply family bufsize stack iplist packet.bytes rtt = some (-1, iplist) := by
  rw [handlePingReply, if_neg (numbytes_ne_zero packet bufsize), if_neg (not_not.mpr good)]
  exact if_pos outside

theorem handle_behind (good : rcvdCsum family (rcvBuf bufsize stack packet.bytes) = 0)
    (behind : ptrIdx family (rcvBuf bufsize stack packet.bytes) = iplist.length) :
    handlePingReply family bufsize stack iplist packet.bytes rtt = none := by
  rw [handlePingReply, if_neg (numbytes_ne_zero packet bufsize), if_neg (not_not.mpr good)]
  simp only [behind]
  rw [if_neg (by omega), Int.toNat_natCast, List.getElem?_eq_none le_rfl]

theorem handle_listed (listing : Listing lines iplist)
    (good : rcvdCsum family (rcvBuf bufsize stack packet.bytes) = 0) {i : Nat}
    (found : ptrIdx family (rcvBuf bufsize stack packet.bytes) = i) (inside : i < iplist.length) :
    handlePingReply family bufsize stack iplist packet.bytes rtt =
      some (((min packet.bytes.length (bufsize + maxSizeIpHeader) : Nat) : Int),
        iplist.modify i (Entry.reply rtt)) := by
  rw [handlePingReply, if_neg (numbytes_ne_zero packet bufsize), if_neg (not_not.mpr good)]
  simp only [found]
  rw [if_neg (by omega), Int.toNat_natCast, List.getElem?_eq_getElem inside]
  simp only [listing.id inside]
  exact if_neg (not_not.mpr rfl)

theorem rcvBuf_bytes {offset : Nat} (inside : offset < bufsize + maxSizeIpHeader) :
    rcvBuf bufsize stack packet.bytes offset = packet.bytes.getD offset 0 := if_pos inside

theorem rcvBuf_header {offset : Nat} (inside : offset < packet.header.length)
    (near : offset < maxSizeIpHeader) :
    rcvBuf bufsize stack packet.bytes offset = packet.header.getD offset 0 := by
  rw [rcvBuf_bytes (by omega), Packet.bytes, List.getD_append _ _ _ _ inside]

theorem rcvBuf_message {offset : Nat}
    (inside : packet.header.length + offset < bufsize + maxSizeIpHeader) :
    rcvBuf bufsize stack packet.bytes (packet.header.length + offset) =
      packet.message.getD offset 0 := by
  rw [rcvBuf_bytes inside, Packet.bytes, List.getD_append_right _ _ _ _ (Nat.le_add_right _ _),
    Nat.add_sub_cancel_left]

theorem icmpStart_eq (bufsize : Nat) (stack : Memory) (packet : Packet family) :
    icmpStart family (rcvBuf bufsize stack packet.bytes) = packet.header.length := by
  have framed := packet.framed
  cases family with
  | inet =>
      obtain ⟨long, header, -⟩ := framed
      rw [icmpStart, rcvBuf_header (by omega) (by decide)]
      exact header.symm
  | inet6 =>
      rw [framed.1]
      rfl

theorem rcvdCsum_iff
    (fits : packet.header.length + packet.message.length < bufsize + maxSizeIpHeader) :
    rcvdCsum family (rcvBuf bufsize stack packet.bytes) = 0 ↔
      (family = .inet → Checked packet.message) := by
  have framed := packet.framed
  cases family with
  | inet =>
      obtain ⟨long, -, total⟩ := framed
      have totLen : 256 * (rcvBuf bufsize stack packet.bytes 2).toNat +
          (rcvBuf bufsize stack packet.bytes 3).toNat =
            packet.header.length + packet.message.length := by
        rw [rcvBuf_header (by omega) (by decide), rcvBuf_header (by omega) (by decide), total]
      have high := (packet.header.getD 2 0).toNat_lt
      have low := (packet.header.getD 3 0).toNat_lt
      have length : (((packet.header.length + packet.message.length : Nat) : Int) -
          packet.header.length) % 65536 = packet.message.length := by omega
      have held : ∀ offset ≤ packet.message.length,
          (rcvBuf bufsize stack packet.bytes).view packet.header.length offset =
            packet.message.getD offset 0 := fun offset within => rcvBuf_message (by omega)
      rw [rcvdCsum, icmpStart_eq, totLen, length, Int.toNat_natCast, calcCsum_eq_zero_iff held]
      exact ⟨fun checked _ => checked, fun checked => checked rfl⟩
  | inet6 => exact iff_of_true rfl fun wrong => absurd wrong (by decide)

theorem littleEndian_mod (value count offset : Nat) :
    Memory.littleEndian (value % 256 ^ count) offset =
      if offset < count then Memory.littleEndian value offset else 0 := by
  rw [Memory.littleEndian, Memory.littleEndian]
  by_cases inside : offset < count
  · obtain ⟨more, rfl⟩ := Nat.exists_eq_add_of_lt inside
    rw [if_pos inside, Nat.add_assoc, Nat.pow_add, Nat.mod_mul_right_div_self, Nat.pow_succ,
      Nat.mod_mul_left_mod]
  · have small : value % 256 ^ count < 256 ^ offset :=
      (Nat.mod_lt _ (Nat.pow_pos (by decide))).trans_le
        (Nat.pow_le_pow_right (by decide) (Nat.le_of_not_lt inside))
    rw [if_neg inside, Nat.div_eq_of_lt small]
    rfl

theorem sndBuf_behind {pid seq sec usec id offset : Nat} (sndlen : Nat) (behind : 4 ≤ offset) :
    sndBuf family sndlen pid seq sec usec id offset =
      filled (echoRequest family) pid seq sec usec id offset := by
  cases family with
  | inet => exact Memory.memcpy_outside _ _ (by omega)
  | inet6 => rfl

theorem sndBuf_id (family : Family) (sndlen pid seq sec usec id : Nat) {offset : Nat}
    (inside : offset < 4) :
    sndBuf family sndlen pid seq sec usec id (24 + offset) = Memory.littleEndian id offset := by
  have here : 24 ≤ 24 + offset ∧ 24 + offset < 24 + 4 := by omega
  rw [sndBuf_behind sndlen (by omega), filled, Memory.memcpy, if_pos here, Nat.add_sub_cancel_left]

theorem EchoOf.length {sndlen id : Nat} (echo : EchoOf sndlen id packet) :
    packet.message.length = sndlen := by
  obtain ⟨pid, seq, sec, usec, answer⟩ := echo
  exact answer.length

theorem EchoOf.message_id {sndlen id : Nat} (echo : EchoOf sndlen id packet) {offset : Nat}
    (inside : offset < 4) :
    packet.message.getD (24 + offset) 0 =
      if offset < sndlen - 24 then Memory.littleEndian id offset else 0 := by
  obtain ⟨pid, seq, sec, usec, answer⟩ := echo
  by_cases sent : offset < sndlen - 24
  · have size : (probe family sndlen pid seq sec usec id).length = sndlen := Memory.length_slice ..
    have moved : packet.message.getD (24 + offset) 0 =
        (probe family sndlen pid seq sec usec id).getD (24 + offset) 0 := by
      rw [List.getD_eq_getElem?_getD, List.getD_eq_getElem?_getD,
        show 24 + offset = 4 + (20 + offset) by omega, ← List.getElem?_drop, answer.payload,
        List.getElem?_drop]
    have held : (sndBuf family sndlen pid seq sec usec id).slice 0
        (probe family sndlen pid seq sec usec id).length =
          probe family sndlen pid seq sec usec id := by rw [size]; rfl
    have within : 24 + offset < (probe family sndlen pid seq sec usec id).length := by omega
    have byte := Memory.apply_of_slice held within
    rw [if_pos sent, moved, List.getD_eq_getElem _ _ within, ← byte, Nat.zero_add,
      sndBuf_id _ _ _ _ _ _ _ inside]
  · rw [if_neg sent, List.getD_eq_default _ _ (by rw [answer.length]; omega)]

theorem AnswerTo.header_le {sndlen pid seq sec usec id : Nat}
    (answer : AnswerTo sndlen pid seq sec usec id packet) : packet.header.length ≤ 20 := by
  have framed := packet.framed
  cases family with
  | inet => exact (answer.header rfl).le
  | inet6 =>
      rw [framed.1]
      exact Nat.zero_le _

theorem EchoOf.header_le {sndlen id : Nat} (echo : EchoOf sndlen id packet) :
    packet.header.length ≤ 20 := by
  obtain ⟨pid, seq, sec, usec, answer⟩ := echo
  exact answer.header_le

theorem EchoOf.checked {sndlen id : Nat} (echo : EchoOf sndlen id packet) :
    family = .inet → Checked packet.message := by
  obtain ⟨pid, seq, sec, usec, answer⟩ := echo
  exact answer.checked

theorem EchoOf.ptrIdx {id : Nat} (echo : EchoOf bufsize id packet) (small : id < maxItems)
    (size : 8 ≤ bufsize) :
    ptrIdx family (rcvBuf bufsize stack packet.bytes) = (id % 256 ^ (bufsize - 24) : Nat) := by
  have header := echo.header_le
  have length := echo.length
  have bytes : (rcvBuf bufsize stack packet.bytes).slice (packet.header.length + 24) 4 =
      (Memory.littleEndian (id % 256 ^ (bufsize - 24))).slice 0 4 := by
    apply Memory.slice_congr
    intro offset inside
    rw [Nat.zero_add, littleEndian_mod, Nat.add_assoc, ← echo.message_id inside]
    exact rcvBuf_message (by simp only [maxSizeIpHeader]; omega)
  have low : id % 256 ^ (bufsize - 24) ≤ id := Nat.mod_le _ _
  simp only [maxItems] at small
  rw [Attribution.ptrIdx, icmpStart_eq, bytes, Memory.ofLittleEndian_slice, Nat.pow_zero,
    Nat.div_one,
    Nat.mod_eq_of_lt (show id % 256 ^ (bufsize - 24) < 256 ^ 4 by omega),
    BitVec.toInt_eq_toNat_of_lt (by rw [BitVec.toNat_ofNat]; omega), BitVec.toNat_ofNat,
    Nat.mod_eq_of_lt (by omega)]

theorem EchoOf.rcvdCsum {id : Nat} (echo : EchoOf bufsize id packet) :
    rcvdCsum family (rcvBuf bufsize stack packet.bytes) = 0 := by
  have header := echo.header_le
  have length := echo.length
  exact (rcvdCsum_iff (by simp only [maxSizeIpHeader]; omega)).mpr echo.checked

theorem EchoOf.numbytes {id : Nat} (echo : EchoOf bufsize id packet) :
    min packet.bytes.length (bufsize + maxSizeIpHeader) = packet.bytes.length := by
  have header := echo.header_le
  have length := echo.length
  rw [Packet.bytes, List.length_append, maxSizeIpHeader]
  omega

end

theorem Listing.of_genList {lines : List (List UInt8)} {first : List Entry}
    (listed : genList lines = some first) : Listing lines first := ⟨first, listed, rfl⟩

theorem Listing.counters {lines : List (List UInt8)} {iplist : List Entry}
    (listing : Listing lines iplist) (counters : Record) :
    Listing lines (iplist.map fun e => { e with counters := counters }) := by
  obtain ⟨first, listed, same⟩ := listing
  refine ⟨first, listed, ?_⟩
  rw [List.map_map]
  exact same

/-- No record has the index of a packet exactly when it is outside the table or just behind. -/
theorem Listing.foreign_iff {lines : List (List UInt8)} {iplist : List Entry}
    (listing : Listing lines iplist) (idx : Int) :
    (∀ e ∈ iplist, (e.id : Int) ≠ idx) ↔ idx < 0 ∨ lines.length ≤ idx := by
  have size := listing.length
  constructor
  · intro none
    by_contra inside
    have place : idx.toNat < iplist.length := by omega
    have same := none _ (List.getElem_mem place)
    rw [listing.id place] at same
    omega
  · rintro outside e member
    obtain ⟨i, inside, rfl⟩ := List.getElem_of_mem member
    rw [listing.id inside]
    omega

section

variable {family : Family} {size : PacketSize} {stack : Memory} {lines : List (List UInt8)}
  {packet : Packet family} {rtt : Int}

theorem Entry.modify_ne {iplist : List Entry} {id other : Nat} (inside : id < iplist.length)
    (different : other ≠ id) (stale : ∀ e ∈ iplist, e.counters.lost = 1) :
    iplist.modify other (Entry.reply rtt) ≠ iplist.modify id (Entry.reply rtt) := by
  intro same
  have held := stale _ (List.getElem_mem inside)
  have there := congrArg (fun iplist => (iplist[id]?).map fun e : Entry => e.counters.lost) same
  simp only [List.getElem?_modify, List.getElem?_eq_getElem inside, different, if_true,
    if_false] at there
  simp [Entry.reply, Record.handlePingReply, held] at there

/-- An index that the probe has no room for comes back as that of another record. -/
theorem Attributes.near (attributes : Attributes size stack lines packet rtt) {id : Nat}
    (inside : id < lines.length) (echo : EchoOf size.value id packet) :
    id < 256 ^ (size.value - 24) := by
  by_contra far
  obtain ⟨first, listed⟩ := Option.isSome_iff_exists.mp attributes.listed
  have short := (genList_id listed).1
  -- the records tell an update from none
  have fresh := (Listing.of_genList listed).counters ⟨0, 0, 0, 0, 1⟩
  have truncated : id % 256 ^ (size.value - 24) < id :=
    (Nat.mod_lt _ (Nat.pow_pos (by decide))).trans_le (Nat.le_of_not_lt far)
  have place := fresh.length
  have right := attributes.echo _ fresh id inside echo
  rw [handle_listed fresh echo.rcvdCsum (echo.ptrIdx (by omega) size.accepted.1)
    (by omega)] at right
  refine Entry.modify_ne (by omega) truncated.ne ?_ (congrArg Prod.snd (Option.some.inj right))
  intro e member
  obtain ⟨other, -, rfl⟩ := List.mem_map.mp member
  rfl

theorem Attributes.not_behind (attributes : Attributes size stack lines packet rtt)
    (good : rcvdCsum family (rcvBuf size.value stack packet.bytes) = 0) :
    ptrIdx family (rcvBuf size.value stack packet.bytes) ≠ lines.length := by
  intro behind
  obtain ⟨first, listed⟩ := Option.isSome_iff_exists.mp attributes.listed
  have listing := Listing.of_genList listed
  have none := (listing.foreign_iff _).mpr (Or.inr behind.ge)
  have rejected := attributes.foreign first listing none
  rw [handle_behind good (by rw [behind, listing.length])] at rejected
  contradiction

theorem Listing.attributes_echo {iplist : List Entry} (listing : Listing lines iplist)
    (short : lines.length ≤ maxItems) {id : Nat} (inside : id < lines.length)
    (echo : EchoOf size.value id packet) (near : id < 256 ^ (size.value - 24)) :
    handlePingReply family size.value stack iplist packet.bytes rtt =
      some ((packet.bytes.length : Int), iplist.modify id (Entry.reply rtt)) := by
  have shown : ptrIdx family (rcvBuf size.value stack packet.bytes) =
      (id % 256 ^ (size.value - 24) : Nat) := echo.ptrIdx (by omega) size.accepted.1
  rw [Nat.mod_eq_of_lt near] at shown
  rw [handle_listed listing echo.rcvdCsum shown (by rw [listing.length]; exact inside),
    echo.numbytes]

theorem Listing.rejects_foreign {iplist : List Entry} (listing : Listing lines iplist)
    (notBehind : rcvdCsum family (rcvBuf size.value stack packet.bytes) = 0 →
      ptrIdx family (rcvBuf size.value stack packet.bytes) ≠ lines.length)
    (none : ∀ e ∈ iplist, (e.id : Int) ≠ ptrIdx family (rcvBuf size.value stack packet.bytes)) :
    handlePingReply family size.value stack iplist packet.bytes rtt = some (-1, iplist) := by
  by_cases good : rcvdCsum family (rcvBuf size.value stack packet.bytes) = 0
  · have outside := (listing.foreign_iff _).mp none
    have apart := notBehind good
    refine handle_outside good ?_
    rw [listing.length]
    omega
  · exact handle_corrupt good

end

/-- Attribution is right exactly when the table has room for the list, the probes have room
for the index, and no packet with the index just behind the list passes the checksum. -/
theorem attributes_iff {family : Family} (size : PacketSize) (stack : Memory)
    (lines : List (List UInt8)) (packet : Packet family) (rtt : Int) :
    Attributes size stack lines packet rtt ↔ lines.length ≤ maxItems ∧
      (∀ id < lines.length, EchoOf size.value id packet → id < 256 ^ (size.value - 24)) ∧
      (rcvdCsum family (rcvBuf size.value stack packet.bytes) = 0 →
        ptrIdx family (rcvBuf size.value stack packet.bytes) ≠ lines.length) := by
  constructor
  · intro attributes
    obtain ⟨first, listed⟩ := Option.isSome_iff_exists.mp attributes.listed
    exact ⟨(genList_id listed).1, fun _ inside echo => attributes.near inside echo,
      attributes.not_behind⟩
  · rintro ⟨short, near, notBehind⟩
    constructor
    · rw [genList_eq, if_pos short]
      rfl
    · intro iplist listing id inside echo
      exact listing.attributes_echo short inside echo (near id inside echo)
    · intro iplist listing none
      exact listing.rejects_foreign notBehind none

/-- An echo reply of 28 bytes with the index 1, addressed to the process 0x1234. -/
def strayReply : Packet .inet where
  header := [0x45, 0, 0, 48, 0, 0, 0, 0, 64, 1, 0, 0, 127, 0, 0, 1, 127, 0, 0, 1]
  message := [0, 0, 0xEC, 0xCB, 0x12, 0x34, 0, 0, 0, 0, 0, 0, 0, 0, 0, 0, 0, 0, 0, 0, 0, 0, 0, 0,
    1, 0, 0, 0]
  framed := ⟨by decide, by decide, by decide⟩

/-- It reaches the null pointer behind a list of one host. -/
theorem stray_reply_crashes :
    ¬Attributes ⟨200, by decide⟩ (fun _ => 0) [[49, 46, 49, 46, 49, 46, 49, 10]] strayReply 0 := by
  have good : rcvdCsum .inet (rcvBuf 200 (fun _ => 0) strayReply.bytes) = 0 :=
    (rcvdCsum_iff (by decide)).mpr fun _ => by decide
  have behind : ptrIdx .inet (rcvBuf 200 (fun _ => 0) strayReply.bytes) =
      [newEntry [49, 46, 49, 46, 49, 46, 49, 10] 0].length := by decide
  rintro ⟨-, -, foreign⟩
  have listing : Listing [[49, 46, 49, 46, 49, 46, 49, 10]]
      [newEntry [49, 46, 49, 46, 49, 46, 49, 10] 0] := Listing.of_genList rfl
  have rejected := foreign _ listing ((listing.foreign_iff _).mpr (Or.inr behind.ge))
  rw [handle_behind good behind] at rejected
  contradiction

end DirtyCode.Ping.Attribution
