import DirtyCode.LogCollect.Accounting

/-!
A live session while memory and disk never fail. The buffers then stay two reads
long through every raise of `net_read_buf_len`, unless `4 * bw` overflows.
-/

namespace DirtyCode.LogCollect

open Lib

/-- `enlarge_session_buf` compares `4 * bw` where it is reached with this chunk. -/
def computesRate (ticks : Nat) (session : Session) (len : Nat) : Prop :=
  session.bufFull len = true ∧ session.diskBuf.isSome = true ∧
    reallocLat ≤ ticks - session.startTicks ∧
    maxDataBlockSize < enlargedLen session (enlargeGap session len)

/-- Calls whose allocations and writes succeed and that do not overflow `4 * bw`. -/
def Modest (system : System) : Action → Prop
  | .drain calloc _ len =>
      let received := { system.core.session with
        networkBytes := system.core.session.networkBytes + len }
      (∀ newlen, calloc newlen = true) ∧
        (computesRate system.ticks received len → averageRate system.ticks received < 536870912)
  | .disk written =>
      ∀ buf, system.core.disk = .write buf → written = system.core.session.diskWriteBufLen
  | _ => True

/-- The lengths `net_read_buf_len` can have, the raised ones in buffers far longer. -/
structure Roomy (session : Session) : Prop where
  aligned : stepDataBlockSize ∣ session.memBufLen
  memory : defaultDataBlockSize ≤ session.memBufLen
  reads : session.netReadBufLen = netReadBuf ∨
    stepDataBlockSize ∣ session.netReadBufLen ∧ session.netReadBufLen ≤ maxDataBlockSize ∧
      session.netReadBufLen + maxDataBlockSize ≤ session.memBufLen

theorem Roomy.twoReads {session : Session} (roomy : Roomy session) :
    2 * session.netReadBufLen ≤ session.memBufLen := by
  obtain ⟨_, memory, small | ⟨_, short, long⟩⟩ := roomy
  · simp only [defaultDataBlockSize] at memory
    simp only [small, netReadBuf]
    omega
  · omega

/-- What holds each time a call comes to `recheck`. -/
structure Rechecking (ticks len : Nat) (session : Session) : Prop where
  aligned : stepDataBlockSize ∣ session.memBufLen
  memory : defaultDataBlockSize ≤ session.memBufLen
  reads : session.netReadBufLen = netReadBuf ∨
    stepDataBlockSize ∣ session.netReadBufLen ∧ session.netReadBufLen ≤ maxDataBlockSize
  fits : session.membufOffset + len ≤ session.memBufLen
  modest : computesRate ticks session len → averageRate ticks session < 536870912
  roomy : Roomy session ∨ maxDataBlockSize < session.membufOffset + len + netReadBuf ∧
    reallocLat ≤ ticks - session.startTicks ∧ 262144 < averageRate ticks session

theorem raisedNetReadBufLen_cases (bw : Int) (netReadBufLen : Nat) :
    (bw ≤ 262144 ∧ raisedNetReadBufLen bw netReadBufLen = netReadBufLen) ∨
    (262144 < bw ∧ stepDataBlockSize ∣ raisedNetReadBufLen bw netReadBufLen ∧
      raisedNetReadBufLen bw netReadBufLen ≤ maxDataBlockSize) := by
  simp only [raisedNetReadBufLen]
  split_ifs
  all_goals first
    | exact .inl ⟨by omega, rfl⟩
    | exact .inr ⟨by omega, by decide, by decide⟩

theorem enlargedLen_le (session : Session) (gap : Nat) :
    enlargedLen session gap ≤ session.memBufLen + gap + stepDataBlockSize := by
  have bound := growFrom_lt (session.memBufLen + gap) gap
    (session.memBufLen + stepDataBlockSize) (session.memBufLen + gap + stepDataBlockSize + 1)
    (by omega) (by omega)
  simp only [enlargedLen]
  omega

theorem enlargedLen_step {session : Session} {gap : Nat} (short : gap ≤ stepDataBlockSize) :
    enlargedLen session gap = session.memBufLen + stepDataBlockSize := by
  simp only [enlargedLen]
  cases gap with
  | zero => rfl
  | succ gap =>
      have reached : ¬session.memBufLen + stepDataBlockSize < session.memBufLen + (gap + 1) := by
        omega
      simp only [growFrom, reached, if_false]

/-- With `calloc` succeeding and no overflow an enlargement fails early on, at a
low rate, or with buffers of almost a megabyte. -/
theorem enlargeSessionBuf_modest {ticks : Nat} {calloc : Nat → Bool} {session : Session}
    (gap : Nat) (succeeds : ∀ newlen, calloc newlen = true)
    (modest : reallocLat ≤ ticks - session.startTicks →
      maxDataBlockSize < enlargedLen session gap → averageRate ticks session < 536870912) :
    let bw := averageRate ticks session
    let raised := { session with netReadBufLen := raisedNetReadBufLen bw session.netReadBufLen }
    ((enlargeSessionBuf ticks calloc session gap).1 ≠ 0 ∧
      (ticks - session.startTicks < reallocLat ∨ bw < 262144) ∧
      (enlargeSessionBuf ticks calloc session gap).2 = session) ∨
    ((enlargeSessionBuf ticks calloc session gap).1 ≠ 0 ∧
      (enlargeSessionBuf ticks calloc session gap).2 = raised ∧
      1048576 < enlargedLen session gap) ∨
    ((enlargeSessionBuf ticks calloc session gap).1 = 0 ∧
      enlargedLen session gap ≤ maxDataBlockSize ∧
      (enlargeSessionBuf ticks calloc session gap).2 =
        session.moveTo (enlargedLen session gap)) ∨
    ((enlargeSessionBuf ticks calloc session gap).1 = 0 ∧
      reallocLat ≤ ticks - session.startTicks ∧ maxDataBlockSize < enlargedLen session gap ∧
      bw < 536870912 ∧ (enlargeSessionBuf ticks calloc session gap).2 =
        raised.moveTo (enlargedLen session gap)) := by
  intro bw raised
  by_cases early : ticks - session.startTicks < reallocLat
  · refine .inl ?_
    simp [enlargeSessionBuf, early]
  · by_cases long : maxDataBlockSize < enlargedLen session gap
    · have slow : bw < 536870912 := modest (by omega) long
      by_cases low : bw < 2 * (maxDataBlockSize : Int)
      · have same : raisedNetReadBufLen bw session.netReadBufLen = session.netReadBufLen := by
          obtain ⟨_, same⟩ | ⟨high, _⟩ := raisedNetReadBufLen_cases bw session.netReadBufLen
          · exact same
          · simp only [maxDataBlockSize] at low
            omega
        refine .inl ⟨?_, .inr (by simpa [maxDataBlockSize] using low), ?_⟩
        · simp [enlargeSessionBuf, early, long, bw, low]
        · simp [enlargeSessionBuf, early, long, bw, low, same]
      · simp only [enlargeSessionBuf, early, long, bw, low, if_true, if_false]
        have high : 262144 ≤ bw := by
          simp only [maxDataBlockSize] at low
          omega
        have exact_product : toInt32 (4 * bw) = 4 * bw :=
          toInt32_of_range (by omega) (by omega)
        simp only [bw] at exact_product high slow
        by_cases refused : toInt32 (4 * bw) < (enlargedLen session gap : Int)
        · simp only [bw] at refused
          refine .inr (.inl ⟨?_, ?_, ?_⟩)
          · simp [refused]
          · simp [refused, raised, bw]
          · omega
        · simp only [bw] at refused
          by_cases huge : extDataBlockSize < enlargedLen session gap
          · refine .inr (.inl ⟨?_, ?_, ?_⟩)
            · simp [refused, huge]
            · simp [refused, huge, raised, bw]
            · simp only [extDataBlockSize] at huge
              omega
          · refine .inr (.inr (.inr ⟨?_, by omega, trivial, slow, ?_⟩))
            · simp [refused, huge, succeeds]
            · simp [refused, huge, succeeds, raised, bw]
    · refine .inr (.inr (.inl ?_))
      simp [enlargeSessionBuf, early, long, succeeds]
      omega

theorem Rechecking.raised {ticks len : Nat} {session : Session}
    (rechecking : Rechecking ticks len session)
    (bw : Int) :
    raisedNetReadBufLen bw session.netReadBufLen = netReadBuf ∨
      stepDataBlockSize ∣ raisedNetReadBufLen bw session.netReadBufLen ∧
        raisedNetReadBufLen bw session.netReadBufLen ≤ maxDataBlockSize := by
  obtain ⟨_, same⟩ | ⟨_, aligned, short⟩ := raisedNetReadBufLen_cases bw session.netReadBufLen
  · rw [same]
    exact rechecking.reads
  · exact .inr ⟨aligned, short⟩

theorem Rechecking.room {ticks len : Nat} {session : Session}
    (rechecking : Rechecking ticks len session) (fits : session.bufFull len = false) :
    Roomy session := by
  obtain ⟨aligned, memory, reads, _, _, roomy | ⟨high, _⟩⟩ := rechecking
  · exact roomy
  · simp only [Session.bufFull, decide_eq_false_iff_not] at fits
    refine ⟨aligned, memory, reads.imp_right fun both => ⟨both.1, both.2, ?_⟩⟩
    have short := both.2
    simp only [stepDataBlockSize, maxDataBlockSize, netReadBuf] at *
    omega

theorem Rechecking.refused {ticks len : Nat} {calloc : Nat → Bool} {session : Session}
    (rechecking : Rechecking ticks len session) (succeeds : ∀ newlen, calloc newlen = true)
    (full : session.bufFull len = true) (pending : session.diskBuf.isSome = true)
    (failed : (enlargeSessionBuf ticks calloc session (enlargeGap session len)).1 ≠ 0) :
    Roomy (enlargeSessionBuf ticks calloc session (enlargeGap session len)).2 := by
  have cases := enlargeSessionBuf_modest (enlargeGap session len) succeeds
    fun steady long => rechecking.modest ⟨full, pending, steady, long⟩
  obtain ⟨_, why, same⟩ | ⟨_, raised, long⟩ | ⟨grew, _⟩ | ⟨grew, _⟩ := cases
  · rw [same]
    obtain roomy | ⟨_, steady, fast⟩ := rechecking.roomy
    · exact roomy
    · omega
  · have upper := enlargedLen_le session (enlargeGap session len)
    have fits := rechecking.fits
    have reads : session.netReadBufLen ≤ 131072 := by
      obtain small | ⟨_, short⟩ := rechecking.reads
      · rw [small]
        decide
      · exact short
    have memory : 900000 ≤ session.memBufLen := by
      simp only [stepDataBlockSize] at upper
      have gap : enlargeGap session len ≤ session.netReadBufLen := by
        simp only [enlargeGap]
        omega
      omega
    have length : (enlargeSessionBuf ticks calloc session (enlargeGap session len)).2.memBufLen =
        session.memBufLen := by
      rw [raised]
    have chunk : (enlargeSessionBuf ticks calloc session (enlargeGap session len)).2.netReadBufLen =
        raisedNetReadBufLen (averageRate ticks session) session.netReadBufLen := by
      rw [raised]
    constructor
    · exact length ▸ rechecking.aligned
    · exact length ▸ rechecking.memory
    · rw [chunk, length]
      obtain small | ⟨whole, short⟩ := rechecking.raised (averageRate ticks session)
      · exact .inl small
      · refine .inr ⟨whole, short, ?_⟩
        simp only [maxDataBlockSize] at short ⊢
        omega
  · exact absurd grew failed
  · exact absurd grew failed

theorem enlargedLen_aligned {session : Session} (gap : Nat)
    (aligned : stepDataBlockSize ∣ session.memBufLen) :
    stepDataBlockSize ∣ enlargedLen session gap :=
  growFrom_aligned _ _ _ (Nat.dvd_add aligned (Nat.dvd_refl _))

theorem Rechecking.moveTo {ticks len : Nat} {session : Session}
    (rechecking : Rechecking ticks len session) (pending : session.diskBuf.isSome = true) :
    Rechecking ticks len (session.moveTo (enlargedLen session (enlargeGap session len))) := by
  have aligned := enlargedLen_aligned (enlargeGap session len) rechecking.aligned
  have longer := lt_enlargedLen session (enlargeGap session len)
  have reached := gap_le_enlargedLen session (enlargeGap session len)
  have memory := rechecking.memory
  have fits := rechecking.fits
  rw [Session.moveTo_keeps _ pending]
  refine ⟨aligned, by dsimp only; omega, rechecking.reads, by dsimp only; omega,
    fun computes => ?_, ?_⟩
  · have again := computes.1
    have gap : session.membufOffset + len + session.netReadBufLen ≤
        enlargedLen session (enlargeGap session len) := by
      simp only [enlargeGap] at reached ⊢
      omega
    simp only [Session.bufFull, decide_eq_true_eq] at again
    omega
  · refine rechecking.roomy.imp (fun roomy => ⟨aligned, by dsimp only; omega, ?_⟩) id
    refine roomy.reads.imp_right fun parts => ⟨parts.1, parts.2.1, ?_⟩
    have room := parts.2.2
    dsimp only
    omega

theorem Rechecking.nearlyBlock {ticks len : Nat} {session : Session}
    (rechecking : Rechecking ticks len session) (full : session.bufFull len = true)
    (long : maxDataBlockSize < enlargedLen session (enlargeGap session len)) :
    maxDataBlockSize < session.membufOffset + len + netReadBuf := by
  obtain roomy | ⟨above, _⟩ := rechecking.roomy
  · simp only [Session.bufFull, decide_eq_true_eq] at full
    obtain small | ⟨_, _, room⟩ := roomy.reads
    · have gap : enlargeGap session len ≤ stepDataBlockSize := by
        have fits := rechecking.fits
        simp only [enlargeGap, small, netReadBuf, stepDataBlockSize]
        omega
      have whole := rechecking.aligned
      rw [enlargedLen_step gap] at long
      simp only [stepDataBlockSize, maxDataBlockSize] at long whole ⊢
      omega
    · omega
  · exact above

theorem Rechecking.raiseTo {ticks len : Nat} {session : Session}
    (rechecking : Rechecking ticks len session) (full : session.bufFull len = true)
    (pending : session.diskBuf.isSome = true) (steady : reallocLat ≤ ticks - session.startTicks)
    (long : maxDataBlockSize < enlargedLen session (enlargeGap session len))
    (slow : averageRate ticks session < 536870912) :
    Rechecking ticks len
      ({ session with
          netReadBufLen :=
            raisedNetReadBufLen (averageRate ticks session) session.netReadBufLen }.moveTo
        (enlargedLen session (enlargeGap session len))) := by
  have aligned := enlargedLen_aligned (enlargeGap session len) rechecking.aligned
  have longer := lt_enlargedLen session (enlargeGap session len)
  have memory := rechecking.memory
  have fits := rechecking.fits
  rw [Session.moveTo_keeps]
  case pending => exact pending
  have reads := rechecking.raised (averageRate ticks session)
  refine ⟨aligned, by dsimp only; omega, by dsimp only; exact reads, by dsimp only; omega,
    fun _ => slow, ?_⟩
  obtain ⟨_, same⟩ | ⟨high, _⟩ :=
    raisedNetReadBufLen_cases (averageRate ticks session) session.netReadBufLen
  · obtain roomy | high := rechecking.roomy
    · refine .inl ⟨aligned, by dsimp only; omega, ?_⟩
      dsimp only
      rw [same]
      refine roomy.reads.imp_right fun parts => ⟨parts.1, parts.2.1, ?_⟩
      have room := parts.2.2
      omega
    · exact .inr high
  · exact .inr ⟨rechecking.nearlyBlock full long, steady, high⟩

theorem Rechecking.grow {ticks len : Nat} {calloc : Nat → Bool} {session : Session}
    (rechecking : Rechecking ticks len session) (succeeds : ∀ newlen, calloc newlen = true)
    (full : session.bufFull len = true) (pending : session.diskBuf.isSome = true)
    (grew : (enlargeSessionBuf ticks calloc session (enlargeGap session len)).1 = 0) :
    Rechecking ticks len
      (enlargeSessionBuf ticks calloc session (enlargeGap session len)).2 := by
  have cases := enlargeSessionBuf_modest (enlargeGap session len) succeeds
    fun steady long => rechecking.modest ⟨full, pending, steady, long⟩
  obtain ⟨failed, _⟩ | ⟨failed, _⟩ | ⟨_, _, moved⟩ | ⟨_, steady, long, slow, moved⟩ := cases
  · exact absurd grew failed
  · exact absurd grew failed
  · exact moved ▸ rechecking.moveTo pending
  · exact moved ▸ rechecking.raiseTo full pending steady long slow

theorem rechecking_enlarged {ticks len : Nat} {calloc : Nat → Bool} {session grown : Session}
    (enlarged : Enlarged ticks calloc len session grown)
    (succeeds : ∀ newlen, calloc newlen = true) (rechecking : Rechecking ticks len session) :
    Rechecking ticks len grown := by
  induction enlarged with
  | refl session => exact rechecking
  | grow full pending succeeded _ ih => exact ih (rechecking.grow succeeds full pending succeeded)

theorem roomy_pass2write {ticks : Nat} {calloc : Nat → Bool} {buf : Memory} {len : Nat}
    {session after : Session} (written : Pass2written ticks calloc buf len session after)
    (succeeds : ∀ newlen, calloc newlen = true) (roomy : Roomy session)
    (bounded : len ≤ session.netReadBufLen)
    (room : session.diskBuf.isSome = true →
      session.membufOffset = 0 ∨
        session.membufOffset + session.netReadBufLen ≤ session.memBufLen)
    (modest : computesRate ticks session len → averageRate ticks session < 536870912) :
    Roomy after := by
  have twoReads := roomy.twoReads
  cases pointer : session.diskBuf with
  | none =>
      cases written with
      | room enlarged _ =>
          rw [(enlarged_keeps enlarged).2.2 pointer]
          exact ⟨roomy.aligned, roomy.memory, roomy.reads⟩
      | stuck enlarged _ pending _ =>
          rw [(enlarged_keeps enlarged).2.2 pointer, pointer] at pending
          contradiction
      | switched _ _ _ => exact ⟨roomy.aligned, roomy.memory, roomy.reads⟩
  | some other =>
      have reserve := room (by rw [pointer]; rfl)
      have rechecking : Rechecking ticks len session :=
        ⟨roomy.aligned, roomy.memory, roomy.reads.imp_right fun reads => ⟨reads.1, reads.2.1⟩,
          by omega, modest, .inl roomy⟩
      cases written with
      | room enlarged fits =>
          have grown := (rechecking_enlarged enlarged succeeds rechecking).room fits
          exact ⟨grown.aligned, grown.memory, grown.reads⟩
      | stuck enlarged full pending failed =>
          have grown := (rechecking_enlarged enlarged succeeds rechecking).refused succeeds full
            pending failed
          exact ⟨grown.aligned, grown.memory, grown.reads⟩
      | switched _ none _ => simp [none] at pointer

theorem diskStepped_keeps {ticks written : Nat} {core after : Core}
    (stepped : DiskStepped ticks written core after) :
    after.session.memBufLen = core.session.memBufLen ∧
      after.session.netReadBufLen = core.session.netReadBufLen := by
  cases stepped with
  | flush _ =>
      simp only [forceFlush]
      split <;> exact ⟨rfl, rfl⟩
  | @finish count _ =>
      obtain ⟨last, bytes, ⟨_, outcome⟩ | ⟨_, _, outcome⟩ | ⟨_, _, outcome⟩⟩ :=
        afterWrite_cases ticks count core
      all_goals
        rw [outcome]
        exact ⟨rfl, rfl⟩
  | _ => exact ⟨rfl, rfl⟩

theorem roomy_start (ip : Int) (slotIdx ticks networkBytes : Nat) :
    Roomy (startSystem ip slotIdx ticks networkBytes).core.session :=
  ⟨⟨8, rfl⟩, Nat.le_refl _, .inl rfl⟩

theorem live_step {system after : System} {action : Action}
    (holds : system.net = .live → Sound system ∧ Roomy system.core.session)
    (modest : Modest system action) (stepped : system.step action = some after)
    (live : after.net = .live) : Sound after ∧ Roomy after.core.session := by
  cases action with
  | tick =>
      have same := Option.some.inj stepped
      obtain ⟨sound, roomy⟩ := holds (by simpa only [← same] using live)
      exact same ▸ ⟨sound_tick sound, roomy⟩
  | disk written =>
      obtain ⟨core, moved, rfl⟩ := Option.map_eq_some_iff.mp stepped
      obtain ⟨sound, roomy⟩ := holds live
      obtain ⟨memory, reads⟩ := diskStepped_keeps (diskStep_cases moved)
      exact ⟨sound_disk sound modest moved, by rw [memory]; exact roomy.aligned,
        by rw [memory]; exact roomy.memory, by rw [memory, reads]; exact roomy.reads⟩
  | drain calloc buf len =>
      obtain ⟨before, _, unstuck, _, bounded, session, written, rfl⟩ := drain_iff.mp stepped
      obtain ⟨sound, roomy⟩ := holds before
      refine ⟨sound_drain sound roomy.twoReads stepped, ?_⟩
      exact roomy_pass2write written modest.1 ⟨roomy.aligned, roomy.memory, roomy.reads⟩ bounded
        (sound.room (by rw [before]; rfl) unstuck) modest.2
  | close =>
      cases pc : system.net <;> simp only [System.step, closeStep, pc] at stepped
      case done => contradiction
      case closing =>
        rw [← Option.some.inj stepped] at live
        dsimp only at live
        split at live <;> contradiction
      all_goals
        rw [← Option.some.inj stepped] at live
        contradiction

/-- In a live session every accepted byte is accounted for, once and in order. -/
theorem live_session_exactly_once {system : System} (reached : machine.Reachable Modest system)
    (live : system.net = .live) :
    system.core.log ++ system.core.inFlight ++ system.core.session.pending ++
      system.core.session.current = system.accepted := by
  have holds : system.net = .live → Sound system ∧ Roomy system.core.session := by
    apply reached.invariant
    · rintro state ⟨ip, slotIdx, ticks, networkBytes, rfl⟩ _
      exact ⟨sound_start ip slotIdx ticks networkBytes, roomy_start ip slotIdx ticks networkBytes⟩
    · exact fun state action after holds modest stepped => live_step holds modest stepped
  exact (holds live).1.kept

/-- `Modest`, the results of `calloc` aside. -/
def Steady (system : System) : Action → Prop
  | .drain _ _ len =>
      let received := { system.core.session with
        networkBytes := system.core.session.networkBytes + len }
      computesRate system.ticks received len → averageRate system.ticks received < 536870912
  | .disk written =>
      ∀ buf, system.core.disk = .write buf → written = system.core.session.diskWriteBufLen
  | _ => True

instance (ticks : Nat) (session : Session) (len : Nat) :
    Decidable (computesRate ticks session len) :=
  inferInstanceAs (Decidable (_ ∧ _))

instance (system : System) (action : Action) : Decidable (Steady system action) :=
  match action with
  | .drain _ _ len => inferInstanceAs (Decidable (computesRate system.ticks
      { system.core.session with
        networkBytes := system.core.session.networkBytes + len } len → _))
  | .disk written => inferInstanceAs (Decidable (∀ buf, system.core.disk = .write buf →
      written = system.core.session.diskWriteBufLen))
  | .tick | .close => inferInstanceAs (Decidable True)

def letters (first : UInt8) (len : Nat) : Action :=
  .drain (fun _ => true) (fun place => first + UInt8.ofNat place) len

-- two bytes flushed by the timer, a third read while the disk thread has them
def flushedLetters : List Action :=
  letters 65 2 :: (List.replicate 241 .tick ++ (List.replicate 11 (.disk 2) ++
    letters 67 1 :: List.replicate 3 (.disk 2)))

theorem flushedLetters_modest : ∀ action ∈ flushedLetters, ∀ system, Steady system action →
    Modest system action := by
  intro action member system steady
  cases action with
  | drain calloc buf len =>
      refine ⟨?_, steady⟩
      simp only [flushedLetters, letters, List.mem_cons, List.mem_append, List.mem_replicate,
        Action.drain.injEq, reduceCtorEq, and_false, false_or, or_false] at member
      rcases member with ⟨rfl, -⟩ | ⟨rfl, -⟩ <;> exact fun _ => rfl
  | disk written => exact steady
  | tick | close => trivial

theorem live_session_exactly_once_flushed :
    ∃ system : System, system.net = .live ∧ system.core.log = [65, 66] ∧
      system.accepted = [65, 66, 67] ∧
      system.core.log ++ system.core.inFlight ++ system.core.session.pending ++
        system.core.session.current = system.accepted := by
  have ran : (machine.runAllowed Steady (startSystem 0 0 0 0) flushedLetters).map
      (fun system => (system.net, system.core.log, system.accepted)) =
        some (.live, [65, 66], [65, 66, 67]) := by
    decide +kernel
  obtain ⟨system, finished, outcome⟩ := Option.map_eq_some_iff.mp ran
  simp only [Prod.mk.injEq] at outcome
  obtain ⟨live, log, accepted⟩ := outcome
  have initial : machine.Reachable Modest (startSystem 0 0 0 0) := .start ⟨0, 0, 0, 0, rfl⟩
  have reached := initial.of_runNarrower flushedLetters_modest finished
  exact ⟨system, live, log, accepted, live_session_exactly_once reached live⟩

theorem enlargeSessionBuf_refuses {ticks : Nat} {calloc : Nat → Bool} {session : Session}
    {gap : Nat} (long : maxDataBlockSize < enlargedLen session gap)
    (refused : toInt32 (4 * averageRate ticks session) < (enlargedLen session gap : Int)) :
    (enlargeSessionBuf ticks calloc session gap).1 ≠ 0 := by
  simp only [enlargeSessionBuf, long, refused, if_true]
  split
  · simp
  · split <;> simp

theorem pending_overwritten (session : Session) (buf : Memory) (len : Nat)
    (cur : session.curBuf = .buf1) (disk : session.diskBuf = some .buf2)
    (full : session.membufOffset = session.memBufLen) (nonempty : 1 ≤ len)
    (queued : 1 ≤ session.diskWriteBufLen) (differs : buf 0 ≠ session.block session.memBufLen) :
    (session.copyIn buf len).pending ≠ session.pending := by
  intro same
  obtain ⟨rest, length⟩ := Nat.exists_eq_succ_of_ne_zero (by omega : session.diskWriteBufLen ≠ 0)
  have inside : session.memBufLen < session.memBufLen + len := by omega
  simp only [Session.pending, Session.copyIn, Session.address, cur, disk, length, full,
    Memory.slice, List.cons.injEq, Memory.memcpy, Nat.zero_add, Nat.le_refl, inside, and_self,
    if_true, Nat.sub_self] at same
  exact differs same.1

/-- Half a gigabyte a second makes `4 * bw` negative: the enlargement is refused
after `net_read_buf_len` was raised, and a later copy destroys a pending byte. -/
theorem live_session_overwrites :
    ¬∀ system, machine.Reachable Succeeding system → system.net = .live →
      system.core.log ++ system.core.inFlight ++ system.core.session.pending ++
        system.core.session.current = system.accepted := by
  intro always
  have arrived : Arrives Succeeding .buf2 none 131072 131072 131072 (319488 + 380531 * 253952)
      180 :=
    arrives_raised (fun _ _ succeeding => succeeding) (fun _ => true) (by decide) 380531
      (fun _ _ => rfl) (by decide) (.inl (by decide))
  obtain ⟨system, reached, settled⟩ := arrived.switch (fun _ _ succeeding => succeeding) 131072
    (by decide) (by decide) (by decide) (by decide)
  let byte : UInt8 := if system.core.session.block 131072 = 0 then 1 else 0
  have overwritten : byte ≠ system.core.session.block 131072 := by
    simp only [byte]
    split
    · rename_i zero
      simp [zero]
    · rename_i other
      exact fun same => other same.symm
  let received := { system.core.session with
    networkBytes := system.core.session.networkBytes + 1 }
  have failed : (enlargeSessionBuf system.ticks (fun _ => true) received
      (system.core.session.membufOffset + 1 + system.core.session.netReadBufLen -
        system.core.session.memBufLen)).1 ≠ 0 := by
    have gap : system.core.session.membufOffset + 1 + system.core.session.netReadBufLen -
        system.core.session.memBufLen = 131073 := by
      rw [settled.memBufLen, settled.membufOffset, settled.netReadBufLen]
    have memory : received.memBufLen = 131072 := settled.memBufLen
    have long := gap_le_enlargedLen received 131073
    rw [gap]
    apply enlargeSessionBuf_refuses
    · simp only [maxDataBlockSize]
      omega
    · have negative : toInt32 (4 * toInt32 ((319488 + 380531 * 253952 + 131072 + 1) / 180 : Nat)) <
          0 := by decide
      have rate : averageRate system.ticks received =
          toInt32 ((319488 + 380531 * 253952 + 131072 + 1) / 180 : Nat) := by
        rw [averageRate, settled.ticks]
        simp only [received, settled.networkBytes]
      rw [rate]
      exact Int.lt_of_lt_of_le negative (Int.natCast_nonneg _)
  obtain ⟨netReadBufLen, stepped⟩ := stuck_copies system (fun _ => true) (fun _ => byte) 1
    settled.live settled.slot settled.stuck (by decide) (by rw [settled.netReadBufLen]; decide)
    (by rw [settled.memBufLen, settled.membufOffset, settled.netReadBufLen]; decide)
    (by rw [settled.diskBuf]; rfl) failed
  have next : Succeeding system (.drain (fun _ => true) (fun _ => byte) 1) := fun _ => rfl
  have before := always system reached settled.live
  have after := always _ (reached.next _ next stepped) settled.live
  have overflow := pending_overwritten system.core.session (fun _ => byte) 1 settled.curBuf
    settled.diskBuf (settled.membufOffset.trans settled.memBufLen.symm) (by decide)
    (settled.queued rfl) (by rw [settled.memBufLen]; exact overwritten)
  have quiet : system.core.disk.writing = false := by rw [settled.scan]; rfl
  rw [inFlight_quiet quiet, List.append_nil] at before
  rw [inFlight_quiet (by exact quiet), List.append_nil] at after
  have same : (system.core.log ++ (system.core.session.copyIn (fun _ => byte) 1).pending) ++
      (system.core.session.copyIn (fun _ => byte) 1).current =
      (system.core.log ++ system.core.session.pending) ++
        (system.core.session.current ++ Memory.slice (fun _ => byte) 0 1) := by
    rw [← List.append_assoc, before]
    exact after
  have length : (system.core.log ++ (system.core.session.copyIn (fun _ => byte) 1).pending).length =
      (system.core.log ++ system.core.session.pending).length := by
    simp [Session.pending, Session.copyIn, settled.diskBuf]
  exact overflow (List.append_cancel_left (List.append_inj same length).1)

end DirtyCode.LogCollect
