import DirtyCode.Lib.Machine

/-!
The connections of `dpdkWebCli.c`: `reconn` and the events that `loop` handles. The result of
`ff_read` is kept in a `size_t`.
-/

namespace DirtyCode.DpdkWebCli

open Lib

def connMax : Int := 50
def einprogress : Nat := 115

structure Event where
  fd : Nat
  err : Bool
  hup : Bool
  out : Bool
  readable : Bool
  deriving DecidableEq

structure Calls where
  socket : Int
  ioctl : Int
  connect : Int
  errno : Nat

inductive Pc
  | connecting
  | waiting
  | events (left : List Event)
  deriving DecidableEq

structure Client where
  /-- The sockets that are open. -/
  sockets : Finset Nat
  nconn : Int
  pc : Pc
  /-- The sockets that the last step has closed. -/
  closed : List Nat
  deriving DecidableEq

def sizeT (value : Int) : Int := value % 18446744073709551616

/-- Undefined where `err` ends the program, and where a descriptor is in use. -/
def reconn (calls : Calls) (client : Client) : Option Client :=
  if calls.socket < 0 then none
  else if calls.ioctl = -1 then none
  else if calls.connect = -1 ∧ calls.errno ≠ einprogress then none
  else if calls.socket.toNat ∈ client.sockets then none
  else some { client with
    sockets := insert calls.socket.toNat client.sockets
    nconn := client.nconn + 1 }

def Client.close (client : Client) (fd : Nat) : Client :=
  { client with
    sockets := client.sockets.erase fd
    nconn := client.nconn - 1
    closed := fd :: client.closed }

def handleEvent (event : Event) (read : Int) (calls : Calls) (client : Client) : Option Client :=
  if event.err || event.hup then
    if event.hup ∧ 0 < sizeT read then some client
    else some (client.close event.fd)
  else if event.readable then
    if sizeT read ≤ 0 then reconn calls (client.close event.fd)
    else some client
  else some client

inductive ClientStep
  | reconn (calls : Calls)
  | wait (events : List Event)
  | event (read : Int) (calls : Calls)
  | proceed

def Client.step (client : Client) : ClientStep → Option Client
  | .reconn calls =>
      if client.pc = .connecting ∧ client.nconn < connMax then
        reconn calls { client with closed := [] }
      else none
  | .wait events =>
      if client.pc = .waiting ∧ (events.map Event.fd).Nodup ∧
          ∀ event ∈ events, event.fd ∈ client.sockets then
        some { client with pc := .events events, closed := [] }
      else none
  | .event read calls =>
      match client.pc with
      | .events (event :: left) =>
          if -1 ≤ read ∧ read ≤ 8192 then
            handleEvent event read calls { client with pc := .events left, closed := [] }
          else none
      | _ => none
  | .proceed =>
      match client.pc with
      | .connecting =>
          if client.nconn < connMax then none
          else some { client with pc := .waiting, closed := [] }
      | .events [] =>
          some { client with
            pc := if connMax - client.nconn < 10 then .waiting else .connecting
            closed := [] }
      | _ => none

def startClient : Client where
  sockets := ∅
  nconn := 0
  pc := .connecting
  closed := []

def clientMachine : Machine Client ClientStep where
  init client := client = startClient
  step := Client.step

def Event.reads (event : Event) : Bool :=
  if event.err || event.hup then event.hup else event.readable

/-- The event that a step handles, and what it reads in it. -/
def Reads (client : Client) (label : ClientStep) (event : Event) (read : Int) : Prop :=
  ∃ left calls, client.pc = .events (event :: left) ∧ label = .event read calls ∧
    event.reads = true

/-- The count is right behind the step, which has closed the socket that it read nothing from. -/
structure StepRight (client : Client) (label : ClientStep) (after : Client) : Prop where
  counted : after.nconn = after.sockets.card
  closed : ∀ event read, Reads client label event read → read = 0 ∨ read = -1 →
    event.fd ∈ after.closed

def NoFailedRead (client : Client) (label : ClientStep) : Prop :=
  ∀ event read, Reads client label event read → read ≠ -1

structure Counted (client : Client) : Prop where
  nconn : client.nconn = client.sockets.card
  apart : ∀ left, client.pc = .events left → (left.map Event.fd).Nodup
  open_ : ∀ left, client.pc = .events left → ∀ event ∈ left, event.fd ∈ client.sockets

theorem counted_start : Counted startClient where
  nconn := rfl
  apart _ here := by contradiction
  open_ _ here := by contradiction

theorem sizeT_pos_iff {read : Int} (lower : -1 ≤ read) (upper : read ≤ 8192) :
    0 < sizeT read ↔ read ≠ 0 := by
  rw [sizeT]
  omega

section

variable {client after : Client} {calls : Calls}

theorem reconn_cases (connected : reconn calls client = some after) :
    ∃ fd ∉ client.sockets, after =
      { client with sockets := insert fd client.sockets, nconn := client.nconn + 1 } := by
  rw [reconn] at connected
  simp only [Option.ite_none_left_eq_some] at connected
  obtain ⟨-, -, -, fresh, same⟩ := connected
  exact ⟨_, fresh, (Option.some.inj same).symm⟩

theorem Counted.reconn (counted : Counted client) (connected : reconn calls client = some after) :
    Counted after ∧ after.closed = client.closed := by
  obtain ⟨fd, fresh, rfl⟩ := reconn_cases connected
  refine ⟨⟨?_, counted.apart, ?_⟩, rfl⟩
  · simp only [Finset.card_insert_of_notMem fresh, counted.nconn]
    omega
  · intro left here event member
    exact Finset.mem_insert_of_mem (counted.open_ left here event member)

theorem Counted.close {fd : Nat} (counted : Counted client) (there : fd ∈ client.sockets)
    (handled : ∀ left, client.pc = .events left → fd ∉ left.map Event.fd) :
    Counted (client.close fd) where
  nconn := by
    have some_ := Finset.card_pos.mpr ⟨fd, there⟩
    simp only [Client.close, Finset.card_erase_of_mem there, counted.nconn]
    omega
  apart := counted.apart
  open_ left here event member := by
    refine Finset.mem_erase.mpr ⟨?_, counted.open_ left here event member⟩
    rintro rfl
    exact handled left here (List.mem_map_of_mem member)

end

section

variable {client after : Client} {event : Event} {left : List Event} {read : Int} {calls : Calls}

theorem counted_event (counted : Counted client) (here : client.pc = .events (event :: left))
    (lower : -1 ≤ read) (upper : read ≤ 8192)
    (handled : handleEvent event read calls { client with pc := .events left, closed := [] } =
      some after) :
    Counted after ∧ (event.reads = true → (event.fd ∈ after.closed ↔ read = 0)) := by
  have apart := List.nodup_cons.mp (counted.apart _ here)
  have sockets := List.forall_mem_cons.mp (counted.open_ _ here)
  have positive := sizeT_pos_iff lower upper
  have moved : Counted { client with pc := .events left, closed := [] } := by
    refine ⟨counted.nconn, ?_, ?_⟩
    · rintro others same
      rw [← Pc.events.inj same]
      exact apart.2
    · rintro others same
      rw [← Pc.events.inj same]
      exact sockets.2
  have shut : Counted ({ client with pc := .events left, closed := [] }.close event.fd) := by
    refine moved.close sockets.1 ?_
    rintro others same
    rw [← Pc.events.inj same]
    exact apart.1
  rw [handleEvent] at handled
  split at handled
  · rename_i failed
    split at handled
    · rename_i more
      rw [← Option.some.inj handled]
      exact ⟨moved, fun _ => iff_of_false List.not_mem_nil (positive.mp more.2)⟩
    · rename_i ended
      rw [← Option.some.inj handled]
      refine ⟨shut, fun reads => iff_of_true List.mem_cons_self ?_⟩
      rw [Event.reads, if_pos failed] at reads
      by_contra nonzero
      exact ended ⟨reads, positive.mpr nonzero⟩
  · rename_i alive
    split at handled
    · split at handled
      · rename_i ended
        obtain ⟨kept, closed⟩ := shut.reconn handled
        refine ⟨kept, fun _ => iff_of_true ?_ ?_⟩
        · rw [closed]
          exact List.mem_cons_self
        · by_contra nonzero
          exact absurd (positive.mpr nonzero) (not_lt.mpr ended)
      · rename_i more
        rw [← Option.some.inj handled]
        exact ⟨moved, fun _ => iff_of_false List.not_mem_nil (positive.mp (not_le.mp more))⟩
    · rename_i quiet
      rw [← Option.some.inj handled]
      refine ⟨moved, fun reads => ?_⟩
      rw [Event.reads, if_neg alive] at reads
      exact absurd reads quiet

end

theorem counted_step {client after : Client} {label : ClientStep} (counted : Counted client)
    (stepped : client.step label = some after) :
    Counted after ∧ ∀ event read, Reads client label event read →
      -1 ≤ read ∧ (event.fd ∈ after.closed ↔ read = 0) := by
  cases label with
  | reconn calls =>
      rw [Client.step, Option.ite_none_right_eq_some] at stepped
      have same : Counted { client with closed := [] } :=
        ⟨counted.nconn, counted.apart, counted.open_⟩
      refine ⟨(same.reconn stepped.2).1, ?_⟩
      rintro event read ⟨left, others, -, other, -⟩
      contradiction
  | wait events =>
      rw [Client.step, Option.ite_none_right_eq_some] at stepped
      obtain ⟨⟨-, apart, there⟩, same⟩ := stepped
      rw [← Option.some.inj same]
      refine ⟨⟨counted.nconn, ?_, ?_⟩, ?_⟩
      · rintro left here
        rw [← Pc.events.inj here]
        exact apart
      · rintro left here
        rw [← Pc.events.inj here]
        exact there
      · rintro event read ⟨left, others, -, other, -⟩
        contradiction
  | event read calls =>
      rw [Client.step] at stepped
      split at stepped
      · rename_i event left here
        rw [Option.ite_none_right_eq_some] at stepped
        obtain ⟨⟨lower, upper⟩, handled⟩ := stepped
        obtain ⟨kept, closed⟩ := counted_event counted here lower upper handled
        refine ⟨kept, ?_⟩
        rintro other value ⟨others, more, there, same, reads⟩
        rw [here] at there
        obtain ⟨rfl, -⟩ := List.cons.inj (Pc.events.inj there)
        obtain ⟨rfl, -⟩ := ClientStep.event.inj same
        exact ⟨lower, closed reads⟩
      · contradiction
  | proceed =>
      have none : ∀ event read, Reads client .proceed event read →
          -1 ≤ read ∧ (event.fd ∈ after.closed ↔ read = 0) := by
        rintro event read ⟨left, others, -, other, -⟩
        contradiction
      refine ⟨?_, none⟩
      rw [Client.step] at stepped
      split at stepped
      · rw [Option.ite_none_left_eq_some] at stepped
        rw [← Option.some.inj stepped.2]
        exact ⟨counted.nconn, nofun, nofun⟩
      · rw [← Option.some.inj stepped]
        refine ⟨counted.nconn, ?_, ?_⟩
        · intro left here
          simp only at here
          split at here <;> contradiction
        · intro left here
          simp only at here
          split at here <;> contradiction
      · contradiction

theorem step_right_iff {client after : Client} {label : ClientStep} (counted : Counted client)
    (stepped : client.step label = some after) :
    StepRight client label after ↔ NoFailedRead client label := by
  obtain ⟨kept, closed⟩ := counted_step counted stepped
  constructor
  · rintro right event read reads rfl
    have none := (closed event (-1) reads).2.mp (right.closed event (-1) reads (Or.inr rfl))
    contradiction
  · intro allowed
    refine ⟨kept.nconn, ?_⟩
    rintro event read reads (zero | failed)
    · exact (closed event read reads).2.mpr zero
    · exact absurd failed (allowed event read reads)

/-- A run counts right and closes what it has to exactly when no read in it fails; the count
alone is always right. -/
theorem connections_right_iff (labels : List ClientStep) :
    clientMachine.Along StepRight startClient labels ↔
      clientMachine.Along (fun client label _ => NoFailedRead client label) startClient labels := by
  refine Machine.along_iff Counted ?_ ?_ counted_start labels
  · intro client label after counted stepped
    exact step_right_iff counted stepped
  · intro client label after counted _ stepped
    exact (counted_step counted stepped).1

theorem nconn_counts {allowed : Client → ClientStep → Prop} {client : Client}
    (reached : clientMachine.Reachable allowed client) : client.nconn = client.sockets.card := by
  refine Counted.nconn (reached.invariant ?_ fun _ _ _ counted _ stepped =>
    (counted_step counted stepped).1)
  rintro client rfl
  exact counted_start

def firstReadable : List ClientStep :=
  (List.range 50).map (fun fd => ClientStep.reconn ⟨fd + 3, 0, -1, 115⟩) ++
    [.proceed, .wait [⟨3, false, false, false, true⟩]]

/-- The read fails, and its socket stays open. -/
theorem failed_read_kept :
    ¬clientMachine.Along StepRight startClient (firstReadable ++ [.event (-1) ⟨53, 0, 0, 0⟩]) := by
  intro along
  obtain ⟨middle, ran, here⟩ : ∃ middle, clientMachine.run startClient firstReadable = some middle ∧
      middle.pc = .events [⟨3, false, false, false, true⟩] := by
    cases ran : clientMachine.run startClient firstReadable with
    | none => exact absurd ran (by decide)
    | some middle =>
        refine ⟨middle, rfl, ?_⟩
        have pc : (clientMachine.run startClient firstReadable).map Client.pc =
            some (.events [⟨3, false, false, false, true⟩]) := by decide
        rw [ran, Option.map_some, Option.some.injEq] at pc
        exact pc
  have stepped : middle.step (.event (-1) ⟨53, 0, 0, 0⟩) =
      some { middle with pc := .events [], closed := [] } := by
    simp [Client.step, here, handleEvent, sizeT]
  have right := Machine.Along.last along ran stepped
  have closed := right.closed ⟨3, false, false, false, true⟩ (-1)
    ⟨[], ⟨53, 0, 0, 0⟩, here, rfl, rfl⟩ (Or.inr rfl)
  exact absurd closed List.not_mem_nil

end DirtyCode.DpdkWebCli
