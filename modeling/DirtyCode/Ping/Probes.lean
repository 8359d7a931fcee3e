import DirtyCode.Ping.Filter

/-!
The probes of `sbping` and `liveping` on their way to a host and back: which of them a host
takes for undamaged, and what an answer does to the records of a process.
-/

namespace DirtyCode.Ping

open Lib
open Attribution

section Checksums

variable {buf left right : Memory} {words i : Nat}

theorem wordSum_congr (agree : ∀ offset < 2 * words, left (i + offset) = right (i + offset)) :
    wordSum left words i = wordSum right words i := by
  induction words generalizing i with
  | zero => rfl
  | succ words ih =>
      have low := agree 0 (by omega)
      have high := agree 1 (by omega)
      have later : ∀ offset < 2 * words, left (i + 2 + offset) = right (i + 2 + offset) := by
        intro offset below
        rw [Nat.add_assoc]
        exact agree (2 + offset) (by omega)
      rw [Nat.add_zero] at low
      rw [wordSum, wordSum, halfword, halfword, low, high, ih later]

theorem wordSum_slice (buf : Memory) (words : Nat) :
    wordSum buf words 0 % 65535 = 256 * internetSum (buf.slice 0 (2 * words)) % 65535 ∧
      (wordSum buf words 0 = 0 ↔ internetSum (buf.slice 0 (2 * words)) = 0) := by
  have length : (buf.slice 0 (2 * words)).length = 2 * words := Memory.length_slice ..
  have held : buf.slice 0 (buf.slice 0 (2 * words)).length = buf.slice 0 (2 * words) := by
    rw [length]
  generalize buf.slice 0 (2 * words) = message at length held
  have sums := @wordSum_internetSum (fun offset => message.getD offset 0) message 0
    fun offset _ => by rw [Nat.zero_add]
  have half : (message.length + 1) / 2 = words := by omega
  have same : wordSum (fun offset => message.getD offset 0) words 0 = wordSum buf words 0 := by
    apply wordSum_congr
    intro offset below
    have inside : offset < message.length := by omega
    rw [Memory.apply_of_slice held inside, Nat.zero_add, List.getD_eq_getElem _ _ inside]
  rwa [half, same] at sums

theorem internetSum_append (byte : UInt8) {message : List UInt8} (odd : message.length % 2 = 1) :
    internetSum (message ++ [byte]) = internetSum message + byte.toNat := by
  induction message using internetSum.induct with
  | case1 => simp at odd
  | case2 high => simp [internetSum]
  | case3 high low rest ih =>
      have shorter : rest.length % 2 = 1 := by
        simp only [List.length_cons] at odd
        omega
      rw [List.cons_append, List.cons_append, internetSum, internetSum, ih shorter]
      omega

theorem csumLoop_stands (buf : Memory) (words : Nat) :
    Stands (csumLoop buf words 0 0) (wordSum buf words 0) := by
  have none : Stands 0 0 := ⟨Nat.zero_le _, rfl, Iff.rfl⟩
  have stands : Stands (csumLoop buf words 0 0) (0 + wordSum buf words 0) := none.csumLoop
  rwa [Nat.zero_add] at stands

theorem checked_stored {csum : BitVec 16} (room : 2 ≤ words) (clear : halfword buf 2 = 0)
    (sum : csum.toNat = 65535 - csumLoop buf words 0 0) :
    Checked ((buf.memcpy 2 (Memory.littleEndian csum.toNat) 2).slice 0 (2 * words)) := by
  obtain ⟨small, same, zero⟩ := csumLoop_stands buf words
  set sent := buf.memcpy 2 (Memory.littleEndian csum.toNat) 2 with stored
  have first : halfword sent 0 = halfword buf 0 := by
    rw [halfword, halfword, stored, Memory.memcpy_outside _ _ (by omega),
      Memory.memcpy_outside _ _ (by omega)]
  have second : halfword sent 2 = csum.toNat := by
    have bytes : sent.slice 2 2 = (Memory.littleEndian csum.toNat).slice 0 2 := by
      rw [stored, Memory.slice_memcpy_self]
    have value := congrArg Memory.ofLittleEndian bytes
    have bound : csum.toNat < 256 ^ 2 := csum.isLt
    rw [Memory.ofLittleEndian_slice, Nat.pow_zero, Nat.div_one, Nat.mod_eq_of_lt bound] at value
    rw [← value]
    simp [Memory.slice, Memory.ofLittleEndian, halfword]
  have total : wordSum sent words 0 = wordSum buf words 0 + csum.toNat := by
    obtain ⟨later, rfl⟩ := Nat.exists_eq_add_of_le' room
    have rest : wordSum sent later 4 = wordSum buf later 4 := by
      apply wordSum_congr
      intro offset _
      rw [stored, Memory.memcpy_outside _ _ (by omega)]
    simp only [wordSum, Nat.zero_add, Nat.reduceAdd, first, second, rest, clear]
    omega
  have sums := wordSum_slice sent words
  rw [Checked]
  omega

theorem calcCsum_toNat (buf : Memory) (buflen : Nat) :
    (calcCsum buf buflen).toNat = 65535 - csumLoop buf ((buflen + 1) / 2) 0 0 := by
  have small := (csumLoop_stands buf ((buflen + 1) / 2)).small
  rw [calcCsum, foldCarries_of_small small, BitVec.toNat_not, BitVec.toNat_ofNat,
    Nat.mod_eq_of_lt (Nat.lt_succ_of_le small)]

end Checksums

section Bytes

variable {family : Family} {pid seq sec usec id offset : Nat}

theorem sndBuf_inet (sndlen : Nat) : sndBuf .inet sndlen pid seq sec usec id =
    (filled 8 pid seq sec usec id).memcpy 2
      (Memory.littleEndian (calcCsum (filled 8 pid seq sec usec id) sndlen).toNat) 2 := rfl

theorem filled_csum (type : UInt8) : halfword (filled type pid seq sec usec id) 2 = 0 := by
  simp [halfword, filled, Memory.memcpy, Memory.set]

theorem filled_pid (type : UInt8) (inside : offset < 2) :
    filled type pid seq sec usec id (4 + offset) = htons pid offset := by
  have here : 4 ≤ 4 + offset ∧ 4 + offset < 4 + 2 := by omega
  rw [filled, Memory.memcpy_outside _ _ (by omega), Memory.memcpy_outside _ _ (by omega),
    Memory.memcpy_outside _ _ (by omega), Memory.memcpy_outside _ _ (by omega), Memory.memcpy,
    if_pos here, Nat.add_sub_cancel_left]

theorem filled_sec (type : UInt8) (inside : offset < 8) :
    filled type pid seq sec usec id (8 + offset) = Memory.littleEndian sec offset := by
  have here : 8 ≤ 8 + offset ∧ 8 + offset < 8 + 8 := by omega
  rw [filled, Memory.memcpy_outside _ _ (by omega), Memory.memcpy_outside _ _ (by omega),
    Memory.memcpy, if_pos here, Nat.add_sub_cancel_left]

theorem filled_usec (type : UInt8) (inside : offset < 8) :
    filled type pid seq sec usec id (16 + offset) = Memory.littleEndian usec offset := by
  have here : 16 ≤ 16 + offset ∧ 16 + offset < 16 + 8 := by omega
  rw [filled, Memory.memcpy_outside _ _ (by omega), Memory.memcpy, if_pos here,
    Nat.add_sub_cancel_left]

theorem filled_behind (type : UInt8) (behind : 28 ≤ offset) :
    filled type pid seq sec usec id offset = 0 := by
  rw [filled, Memory.memcpy_outside _ _ (by omega), Memory.memcpy_outside _ _ (by omega),
    Memory.memcpy_outside _ _ (by omega), Memory.memcpy_outside _ _ (by omega),
    Memory.memcpy_outside _ _ (by omega), Memory.set_other _ _ (by omega),
    Memory.set_other _ _ (by omega)]

end Bytes

/-- The checksum of a probe is right exactly when nothing but a zero has been summed up behind
its end, as in every probe that is even or has room for all of its fields. -/
theorem probe_checked_iff (size : PacketSize) (pid seq sec usec id : Nat) :
    (Checked (probe .inet size.value pid seq sec usec id) ↔
      size.value % 2 = 0 ∨ sndBuf .inet size.value pid seq sec usec id size.value = 0) ∧
    (28 ≤ size.value → Checked (probe .inet size.value pid seq sec usec id)) := by
  obtain ⟨value, least, most⟩ := size
  set sent := sndBuf .inet value pid seq sec usec id with stored
  have room : 2 ≤ (value + 1) / 2 := by omega
  have summed : Checked (sent.slice 0 (2 * ((value + 1) / 2))) := by
    rw [stored, sndBuf_inet]
    exact checked_stored room (filled_csum 8) (calcCsum_toNat _ value)
  have exact_ : Checked (probe .inet value pid seq sec usec id) ↔
      value % 2 = 0 ∨ sent value = 0 := by
    rcases Nat.mod_two_eq_zero_or_one value with even | odd
    · have whole : 2 * ((value + 1) / 2) = value := by omega
      rw [whole] at summed
      exact iff_of_true summed (Or.inl even)
    · have whole : 2 * ((value + 1) / 2) = value + 1 := by omega
      have length : (probe .inet value pid seq sec usec id).length = value :=
        Memory.length_slice ..
      have last : sent.slice 0 (value + 1) =
          probe .inet value pid seq sec usec id ++ [sent value] := by
        rw [Memory.slice_append, Nat.zero_add]
        rfl
      rw [whole, last, Checked, internetSum_append _ (by omega)] at summed
      have bound := (sent value).toNat_lt
      have zero : sent value = 0 ↔ (sent value).toNat = 0 := by
        rw [← UInt8.toNat_inj]
        rfl
      rw [zero, Checked]
      omega
  refine ⟨exact_, fun full => exact_.mpr (Or.inr ?_)⟩
  rw [stored, sndBuf_behind value (by omega), filled_behind _ full]

def timeval (buf : Memory) (start : Nat) : Int × Int :=
  ((BitVec.ofNat 64 (Memory.ofLittleEndian (buf.slice start 8))).toInt,
    (BitVec.ofNat 64 (Memory.ofLittleEndian (buf.slice (start + 8) 8))).toInt)

/-- `rtt` in the `int` of a record. -/
def latency (now sent : Int × Int) : Int :=
  let rtt := (now.1 - sent.1) * 1000000 + (now.2 - sent.2)
  -- x86-64 makes the least `int` of a double that fits none
  if -2147483648 ≤ rtt ∧ rtt < 2147483648 then rtt else -2147483648

/-- A thread in `do_work`, when `recvmsg` is about to return; `now` is what the packet came
with or `gettimeofday` tells. -/
structure Worker where
  stack : Memory
  now : Int × Int

/-- A packet arrives at the socket of a thread. -/
def Worker.doWork (family : Family) (bufsize pid : Nat) (bytes : List UInt8)
    (iplist : List Entry) (worker : Worker) : Option (List Entry) :=
  match (createIcmpSocket family pid).delivered bytes with
  | none => some iplist
  | some bytes =>
      let buf := rcvBuf bufsize worker.stack bytes
      let rtt := latency worker.now (timeval buf (icmpStart family buf + 8))
      (handlePingReply family bufsize worker.stack iplist bytes rtt).map Prod.snd

section Answers

variable {family : Family} {sndlen pid seq sec usec id : Nat} {packet : Packet family}

theorem Attribution.AnswerTo.message (answer : AnswerTo sndlen pid seq sec usec id packet)
    {offset : Nat}
    (behind : 4 ≤ offset) (inside : offset < sndlen) :
    packet.message[offset]? = some (filled (echoRequest family) pid seq sec usec id offset) := by
  obtain ⟨more, rfl⟩ := Nat.exists_eq_add_of_le behind
  have length : (probe family sndlen pid seq sec usec id).length = sndlen :=
    Memory.length_slice ..
  have within : 4 + more < (probe family sndlen pid seq sec usec id).length := by omega
  have held : (sndBuf family sndlen pid seq sec usec id).slice 0
      (probe family sndlen pid seq sec usec id).length =
        probe family sndlen pid seq sec usec id := by
    rw [length]
    rfl
  rw [← List.getElem?_drop, answer.payload, List.getElem?_drop, List.getElem?_eq_getElem within,
    ← Memory.apply_of_slice held within, Nat.zero_add, sndBuf_behind _ behind]

theorem Attribution.AnswerTo.halfAt_id (answer : AnswerTo sndlen pid seq sec usec id packet)
    (size : 8 ≤ sndlen) : PacketFilter.halfAt packet.message 4 = some (pid % 65536) := by
  have high := answer.message (Nat.le_refl 4) (by omega)
  have low := answer.message (show 4 ≤ 4 + 1 by omega) (by omega)
  rw [← Nat.add_zero 4, filled_pid _ (by omega)] at high
  rw [filled_pid _ (by omega)] at low
  simp only [Nat.add_zero] at high
  simp only [PacketFilter.halfAt, high, low, htons, UInt8.toNat_ofNat', Option.some.injEq]
  omega

theorem Attribution.AnswerTo.wanted_iff (answer : AnswerTo sndlen pid seq sec usec id packet)
    (size : 8 ≤ sndlen) (other : Nat) :
    Wanted other packet.message family ↔ (family = .inet → pid % 65536 = other % 65536) := by
  have number := answer.halfAt_id size
  have parts := List.take_append_drop 2 packet.message
  rw [answer.type] at parts
  cases family with
  | inet =>
      have type : PacketFilter.halfAt packet.message 0 = some 0 := by
        rw [← parts]
        rfl
      rw [Wanted, number, Option.some.injEq]
      exact ⟨fun wanted _ => wanted.2, fun same => ⟨type, same rfl⟩⟩
  | inet6 =>
      have type : PacketFilter.byteAt packet.message 0 = some 129 := by
        rw [← parts]
        rfl
      exact iff_of_true type nofun

theorem toInt_slice {buf : Memory} {start value : Nat} (small : value < 2 ^ 63)
    (held : ∀ offset < 8, buf (start + offset) = Memory.littleEndian value offset) :
    (BitVec.ofNat 64 (Memory.ofLittleEndian (buf.slice start 8))).toInt = value := by
  have bytes : buf.slice start 8 = (Memory.littleEndian value).slice 0 8 := by
    apply Memory.slice_congr
    intro offset inside
    rw [held offset inside, Nat.zero_add]
  have full : value < 256 ^ 8 := small.trans (by decide)
  rw [bytes, Memory.ofLittleEndian_slice, Nat.pow_zero, Nat.div_one, Nat.mod_eq_of_lt full,
    BitVec.toInt_eq_toNat_of_lt (by rw [BitVec.toNat_ofNat]; omega), BitVec.toNat_ofNat,
    Nat.mod_eq_of_lt (by omega)]

theorem Attribution.AnswerTo.rcvBuf (answer : AnswerTo sndlen pid seq sec usec id packet)
    (stack : Memory)
    {offset : Nat} (behind : 4 ≤ offset) (inside : offset < sndlen) :
    rcvBuf sndlen stack packet.bytes (packet.header.length + offset) =
      filled (echoRequest family) pid seq sec usec id offset := by
  have header := answer.header_le
  rw [rcvBuf_message (by simp only [maxSizeIpHeader]; omega), List.getD_eq_getElem?_getD,
    answer.message behind inside, Option.getD_some]

theorem Attribution.AnswerTo.timeval (answer : AnswerTo sndlen pid seq sec usec id packet)
    (room : 24 ≤ sndlen) (seconds : sec < 2 ^ 63) (micros : usec < 2 ^ 63) (stack : Memory) :
    timeval (Attribution.rcvBuf sndlen stack packet.bytes)
      (icmpStart family (Attribution.rcvBuf sndlen stack packet.bytes) + 8) =
        ((sec : Int), (usec : Int)) := by
  rw [icmpStart_eq]
  set buf := Attribution.rcvBuf sndlen stack packet.bytes with received
  have first := @toInt_slice buf (packet.header.length + 8) sec seconds fun offset inside => by
    rw [received, Nat.add_assoc, answer.rcvBuf stack (by omega) (by omega), filled_sec _ inside]
  have second := @toInt_slice buf (packet.header.length + 8 + 8) usec micros
    fun offset inside => by
      rw [received, Nat.add_assoc, Nat.add_assoc, Nat.add_left_comm 8, ← Nat.add_assoc 8,
        answer.rcvBuf stack (by omega) (by omega), filled_usec _ inside]
  rw [Ping.timeval, first, second]

theorem Attribution.Listing.reply {lines : List (List UInt8)} {iplist : List Entry}
    (listing : Listing lines iplist) (id : Nat) (rtt : Int) :
    Listing lines (iplist.modify id (Entry.reply rtt)) := by
  obtain ⟨first, listed, same⟩ := listing
  refine ⟨first, listed, ?_⟩
  rw [← same]
  apply List.ext_getElem?
  intro i
  rw [List.getElem?_map, List.getElem?_map, List.getElem?_modify]
  cases iplist[i]? with
  | none => rfl
  | some e =>
      by_cases here : id = i
      · simp [here, Entry.reply]
      · simp [here]

theorem Attribution.AnswerTo.doWork {lines : List (List UInt8)} {iplist : List Entry}
    {size : PacketSize}
    (answer : AnswerTo size.value pid seq sec usec id packet) (listing : Listing lines iplist)
    (listed : id < lines.length) (room : 24 ≤ size.value) (near : id < 256 ^ (size.value - 24))
    (seconds : sec < 2 ^ 63) (micros : usec < 2 ^ 63) (other : Nat) (worker : Worker) :
    worker.doWork family size.value other packet.bytes iplist =
      some (if family = .inet → pid % 65536 = other % 65536 then
        iplist.modify id (Entry.reply (latency worker.now (sec, usec))) else iplist) := by
  have small : packet.bytes.length ≤ 0xffff := by
    have header := answer.header_le
    have length := answer.length
    have most : size.value ≤ 200 := size.accepted.2
    rw [Packet.bytes, List.length_append]
    omega
  have short : lines.length ≤ maxItems := by
    obtain ⟨first, genList, -⟩ := listing
    exact (genList_id genList).1
  rw [Worker.doWork, delivered_bytes packet small]
  by_cases wanted : Wanted other packet.message family
  · have own := (answer.wanted_iff (by omega) other).mp wanted
    simp only [if_pos wanted, if_pos own, answer.timeval room seconds micros worker.stack,
      listing.attributes_echo short listed ⟨_, _, _, _, answer⟩ near, Option.map_some]
  · have foreign := mt (answer.wanted_iff (by omega) other).mpr wanted
    simp only [if_neg wanted, if_neg foreign]

end Answers

/-- Each thread of a process is given every answer that the filter lets through, and the
record of the probe, but no other, ends with the round trip that the last of them measured. -/
theorem answers_received {family : Family} {size : PacketSize} {pid seq sec usec id : Nat}
    {packet : Packet family} {lines : List (List UInt8)} {iplist : List Entry}
    (answer : AnswerTo size.value pid seq sec usec id packet) (listing : Listing lines iplist)
    (listed : id < lines.length) (room : 24 ≤ size.value) (near : id < 256 ^ (size.value - 24))
    (seconds : sec < 2 ^ 63) (micros : usec < 2 ^ 63) (other : Nat) (workers : List Worker)
    (last : Worker) :
    (workers ++ [last]).foldlM (Worker.doWork family size.value other packet.bytes) iplist =
      some (if family = .inet → pid % 65536 = other % 65536 then
        iplist.modify id (Entry.reply (latency last.now (sec, usec))) else iplist) := by
  induction workers generalizing iplist with
  | nil =>
      rw [List.nil_append, List.foldlM_cons,
        answer.doWork listing listed room near seconds micros other last]
      rfl
  | cons worker rest ih =>
      rw [List.cons_append, List.foldlM_cons,
        answer.doWork listing listed room near seconds micros other worker]
      by_cases own : family = .inet → pid % 65536 = other % 65536
      · have later := ih (listing.reply id (latency worker.now (sec, usec)))
        simp only [if_pos own] at later ⊢
        rw [Option.bind_eq_bind, Option.bind_some, later, List.modify_modify_eq]
        rfl
      · have later := ih listing
        simp only [if_neg own] at later ⊢
        rw [Option.bind_eq_bind, Option.bind_some, later]

/-- The answer to a probe for the second host of a list, sent 100.00025 seconds after midnight
of the first day by the process 0x1234. -/
def secondAnswer : Packet .inet where
  header := [0x45, 0, 0, 48, 0, 0, 0, 0, 64, 1, 0, 0, 127, 0, 0, 1, 127, 0, 0, 1]
  message := [0, 0, 0x8E, 0xCA, 0x12, 0x34, 0, 0, 100, 0, 0, 0, 0, 0, 0, 0, 250, 0, 0, 0, 0, 0, 0,
    0, 1, 0, 0, 0]
  framed := ⟨by decide, by decide, by decide⟩

/-- A second thread that handles it 650 microseconds after it was sent has the last word. -/
theorem answers_received_second :
    [⟨fun _ => 0, (100, 400)⟩, ⟨fun _ => 0, (100, 900)⟩].foldlM
      (Worker.doWork .inet 28 0x1234 secondAnswer.bytes)
      [newEntry [97, 10] 0, newEntry [98, 10] 1] =
    some [newEntry [97, 10] 0, Entry.reply 650 (newEntry [98, 10] 1)] := by
  have answer : AnswerTo 28 0x1234 0 100 250 1 secondAnswer :=
    ⟨fun _ => rfl, rfl, rfl, by decide +kernel, fun _ => by decide⟩
  have listing : Listing [[97, 10], [98, 10]] [newEntry [97, 10] 0, newEntry [98, 10] 1] :=
    Listing.of_genList rfl
  have received := @answers_received _ ⟨28, by decide⟩ _ _ _ _ _ _ _ _ answer listing (by decide)
    (by decide) (by decide) (by decide) (by decide) 0x1234 [⟨fun _ => 0, (100, 400)⟩]
    ⟨fun _ => 0, (100, 900)⟩
  exact received

end DirtyCode.Ping
