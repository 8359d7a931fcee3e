import DirtyCode.LogCollect.Buffer

/-!
`enlarge_session_buf` of `logCollectSrv.c` with the growth loop on `int`, what an
enlargement does to the two buffers of a session, and how often `pass2write` returns
to its `recheck` label.
-/

namespace DirtyCode.LogCollect

open Lib

-- `while(newlen < s->mem_buf_len + gap)`
def growLoop (target : Int) : Nat → Int → Option Int
  | 0, _ => none
  | fuel + 1, newlen =>
      if newlen < target then growLoop target fuel (toInt32 (newlen + stepDataBlockSize))
      else some newlen

def enlargeTo (ticks : Nat) (calloc : Nat → Bool) (session : Session) (newlen : Nat) :
    Int × Session :=
  let allocate (session : Session) : Int × Session :=
    if calloc newlen then (0, session.moveTo newlen) else (-1, session)
  if ticks - session.startTicks < reallocLat then (1, session)
  else if maxDataBlockSize < newlen then
    let bw := averageRate ticks session
    let raised := { session with netReadBufLen := raisedNetReadBufLen bw session.netReadBufLen }
    if bw < 2 * maxDataBlockSize then (2, raised)
    else if toInt32 (4 * bw) < newlen then (3, raised)
    else if extDataBlockSize < newlen then (4, raised)
    else allocate raised
  else allocate session

def enlargeWithin (fuel ticks : Nat) (calloc : Nat → Bool) (session : Session) (gap : Int) :
    Option (Int × Session) :=
  (growLoop (toInt32 (session.memBufLen + gap)) fuel
    (toInt32 (session.memBufLen + stepDataBlockSize))).map fun newlen =>
      enlargeTo ticks calloc session newlen.toNat

theorem enlargeTo_enlargedLen (ticks : Nat) (calloc : Nat → Bool) (session : Session)
    (gap : Nat) :
    enlargeTo ticks calloc session (enlargedLen session gap) =
      enlargeSessionBuf ticks calloc session gap := rfl

theorem toInt32_step (newlen : Int) :
    toInt32 (newlen + stepDataBlockSize) % stepDataBlockSize = newlen % stepDataBlockSize := by
  simp only [toInt32, stepDataBlockSize, Int.bmod_def]
  split <;> omega

theorem growLoop_none {target newlen : Int} (below : newlen < 2147483648)
    (missed : ∀ value, target ≤ value → value < 2147483648 →
      value % stepDataBlockSize ≠ newlen % stepDataBlockSize) (fuel : Nat) :
    growLoop target fuel newlen = none := by
  induction fuel generalizing newlen with
  | zero => rfl
  | succ fuel ih =>
      have short : newlen < target := by
        by_contra reached
        exact missed newlen (by omega) below rfl
      rw [growLoop, if_pos short]
      refine ih (toInt32_range _).2 fun value above range => ?_
      rw [toInt32_step]
      exact missed value above range

theorem growLoop_eq {target newlen fuel more : Nat} {last : Int} (above : target < 2147483648)
    (below : newlen < 2147483648) (enough : target ≤ newlen + more)
    (ran : growLoop target fuel newlen = some last) :
    last = growFrom target more newlen := by
  induction fuel generalizing newlen more with
  | zero => simp [growLoop] at ran
  | succ fuel ih =>
      rw [growLoop] at ran
      by_cases short : newlen < target
      · rw [if_pos (by exact_mod_cast short)] at ran
        obtain ⟨more, rfl⟩ := Nat.exists_eq_succ_of_ne_zero (by omega : more ≠ 0)
        rw [growFrom, if_pos short]
        by_cases fits : newlen + stepDataBlockSize < 2147483648
        · rw [toInt32_natAdd fits] at ran
          refine ih fits ?_ ran
          simp only [stepDataBlockSize]
          omega
        · have missed : ∀ value : Int, target ≤ value → value < 2147483648 →
              value % stepDataBlockSize ≠
                toInt32 ((newlen : Int) + stepDataBlockSize) % stepDataBlockSize := by
            intro value reached range
            rw [toInt32_step]
            simp only [stepDataBlockSize] at fits ⊢
            omega
          rw [growLoop_none (toInt32_range _).2 missed fuel] at ran
          contradiction
      · rw [if_neg (by exact_mod_cast short), Option.some.injEq] at ran
        rw [← ran]
        cases more with
        | zero => rfl
        | succ more => rw [growFrom, if_neg short]

theorem growLoop_ends {target newlen more : Nat} (above : target + stepDataBlockSize ≤ 2147483648)
    (enough : target ≤ newlen + more) :
    ∃ last, growLoop target (more + 1) newlen = some last := by
  induction more generalizing newlen with
  | zero => exact ⟨newlen, by rw [growLoop, if_neg (by omega)]⟩
  | succ more ih =>
      rw [growLoop]
      split
      · rename_i short
        rw [toInt32_natAdd (by omega)]
        refine ih ?_
        simp only [stepDataBlockSize]
        omega
      · exact ⟨newlen, rfl⟩

section Calls

variable {ticks : Nat} {calloc : Nat → Bool} {session : Session} {gap : Nat}

theorem growLoop_first (positive : 1 ≤ gap) (fuel : Nat) :
    growLoop ((session.memBufLen + gap : Nat) : Int) (fuel + 1) session.memBufLen =
      growLoop ((session.memBufLen + gap : Nat) : Int) fuel
        (toInt32 (session.memBufLen + stepDataBlockSize)) := by
  rw [growLoop, if_pos (by exact_mod_cast Nat.lt_add_of_pos_right positive)]

theorem growFrom_first (positive : 1 ≤ gap) :
    growFrom (session.memBufLen + gap) (gap + 1) session.memBufLen =
      enlargedLen session gap := by
  rw [growFrom, if_pos (Nat.lt_add_of_pos_right positive)]
  rfl

theorem enlargeWithin_eq {fuel : Nat} {result : Int × Session} (positive : 1 ≤ gap)
    (noOverflow : session.memBufLen + gap < 2147483648)
    (ran : enlargeWithin fuel ticks calloc session gap = some result) :
    result = enlargeSessionBuf ticks calloc session gap := by
  obtain ⟨newlen, grown, rfl⟩ := Option.map_eq_some_iff.mp ran
  rw [toInt32_natAdd noOverflow, ← growLoop_first positive] at grown
  have settled : newlen = growFrom (session.memBufLen + gap) (gap + 1) session.memBufLen :=
    growLoop_eq noOverflow (by omega) (by omega) grown
  rw [growFrom_first positive] at settled
  rw [settled, Int.toNat_natCast]
  exact enlargeTo_enlargedLen ticks calloc session gap

theorem enlargeWithin_returns (positive : 1 ≤ gap)
    (small : session.memBufLen + gap + stepDataBlockSize ≤ 2147483648) :
    enlargeWithin (gap + 1) ticks calloc session gap =
      some (enlargeSessionBuf ticks calloc session gap) := by
  have noOverflow : session.memBufLen + gap < 2147483648 := by
    simp only [stepDataBlockSize] at small
    omega
  have first : session.memBufLen + stepDataBlockSize < 2147483648 := by omega
  have enough : session.memBufLen + gap ≤ session.memBufLen + stepDataBlockSize + gap := by
    omega
  obtain ⟨last, ended⟩ := growLoop_ends small enough
  have ran : enlargeWithin (gap + 1) ticks calloc session gap =
      some (enlargeTo ticks calloc session last.toNat) := by
    rw [enlargeWithin, toInt32_natAdd noOverflow, toInt32_natAdd first, ended, Option.map_some]
  rw [ran, enlargeWithin_eq positive noOverflow ran]

end Calls

/-- The two buffers are the two halves of the allocation, one for each role. -/
def Session.Halved (session : Session) : Prop :=
  session.diskBuf = some session.curBuf.other

theorem halves_disjoint (session : Session)
    (offset : session.membufOffset ≤ session.memBufLen)
    (queued : session.diskWriteBufLen ≤ session.memBufLen) :
    session.address session.curBuf + session.membufOffset ≤
        session.address session.curBuf.other ∨
      session.address session.curBuf.other + session.diskWriteBufLen ≤
        session.address session.curBuf := by
  cases session.curBuf with
  | buf1 => exact .inl (by simpa [Session.address, Buf.other] using offset)
  | buf2 => exact .inr (by simpa [Session.address, Buf.other] using queued)

/-- An enlargement that succeeds: the session's data in a longer allocation. -/
structure Grown (gap : Nat) (session after : Session) : Prop where
  longer : session.memBufLen + gap ≤ after.memBufLen
  limited : after.memBufLen ≤ extDataBlockSize
  offset : after.membufOffset = session.membufOffset
  queued : after.diskWriteBufLen = session.diskWriteBufLen
  current : after.current = session.current
  pending : after.pending = session.pending
  halved : after.Halved
  disjoint : after.address after.curBuf + after.membufOffset ≤
      after.address after.curBuf.other ∨
    after.address after.curBuf.other + after.diskWriteBufLen ≤ after.address after.curBuf

theorem grown_moveTo {session : Session} {gap newlen : Nat} (halved : session.Halved)
    (offset : session.membufOffset ≤ session.memBufLen)
    (queued : session.diskWriteBufLen ≤ session.memBufLen)
    (longer : session.memBufLen + gap ≤ newlen) (limited : newlen ≤ extDataBlockSize) :
    Grown gap session (session.moveTo newlen) := by
  have pending : session.diskBuf.isSome = true := by rw [halved]; rfl
  have kept := Session.moveTo_keeps newlen pending
  have length : (session.moveTo newlen).memBufLen = newlen := by rw [kept]
  have offsets : (session.moveTo newlen).membufOffset = session.membufOffset := by rw [kept]
  have lengths : (session.moveTo newlen).diskWriteBufLen = session.diskWriteBufLen := by rw [kept]
  exact {
    longer := by rw [length]; exact longer
    limited := by rw [length]; exact limited
    offset := offsets
    queued := lengths
    current := session.current_moveTo newlen (by omega)
    pending := session.pending_moveTo newlen
    halved := by rw [kept]; rfl
    disjoint := halves_disjoint _ (by omega) (by omega) }

/-- A call of `enlarge_session_buf` that returns 0 has put both contents unchanged into
disjoint halves of at least the length asked for, and any other return has changed no
field but `net_read_buf_len`. -/
theorem enlarge_session_buf_keeps_data {fuel ticks gap : Nat} {calloc : Nat → Bool}
    {session : Session} {result : Int × Session} (halved : session.Halved)
    (offset : session.membufOffset ≤ session.memBufLen)
    (queued : session.diskWriteBufLen ≤ session.memBufLen) (positive : 1 ≤ gap)
    (noOverflow : session.memBufLen + gap < 2147483648)
    (ran : enlargeWithin fuel ticks calloc session gap = some result) :
    (result.1 = 0 → Grown gap session result.2) ∧
      (result.1 ≠ 0 → ∃ netReadBufLen,
        result.2 = { session with netReadBufLen := netReadBufLen }) := by
  rw [enlargeWithin_eq positive noOverflow ran]
  obtain ⟨netReadBufLen, ⟨failed, raised⟩ | ⟨succeeded, limited, moved⟩⟩ :=
    enlargeSessionBuf_cases ticks calloc session gap
  · exact ⟨fun zero => absurd zero failed, fun _ => ⟨netReadBufLen, raised⟩⟩
  · refine ⟨fun _ => ?_, fun failed => absurd succeeded failed⟩
    have grown : Grown gap { session with netReadBufLen := netReadBufLen }
        ({ session with netReadBufLen := netReadBufLen }.moveTo (enlargedLen session gap)) :=
      grown_moveTo halved offset queued (gap_le_enlargedLen session gap) limited
    rw [moved]
    exact { grown with }

def waiting : Session :=
  { getNewSession 0 0 with
    curBuf := .buf2, diskBuf := some .buf1, membufOffset := 65536, diskWriteBufLen := 65536 }

theorem enlarge_session_buf_keeps_data_waiting :
    Grown 20000 waiting (waiting.moveTo 90112) := by
  have grown : growLoop (toInt32 (65536 + 20000)) 3 (toInt32 (65536 + 8192)) = some 90112 := by
    decide
  have ran : enlargeWithin 3 180 (fun _ => true) waiting (20000 : Nat) =
      some (0, waiting.moveTo 90112) := by
    change (growLoop (toInt32 (65536 + 20000)) 3 (toInt32 (65536 + 8192))).map _ = _
    rw [grown, Option.map_some]
    rfl
  have length : waiting.memBufLen = 65536 := rfl
  have offset : waiting.membufOffset = waiting.memBufLen := length.symm
  have queued : waiting.diskWriteBufLen = waiting.memBufLen := length.symm
  have halved : waiting.Halved := rfl
  exact (enlarge_session_buf_keeps_data halved offset.le queued.le (by omega) (by omega) ran).1 rfl

/-- What `pass2write` finds when it comes to `recheck` again: the tick, the answers of the
allocator, and the session as the other threads have left it, its `mem_buf_len` apart. -/
structure World where
  ticks : Nat
  calloc : Nat → Bool
  interfere : Session → Session

def World.resume (world : World) (session : Session) : Session :=
  { world.interfere session with memBufLen := session.memBufLen }

-- how the loop is left, after how many enlargements, and with which session
def recheckLoop (worlds : Nat → World) (len : Nat) :
    Nat → Nat → Session → Option (Exit × Nat × Session)
  | 0, _, _ => none
  | fuel + 1, enlargements, session =>
      let world := worlds enlargements
      let session := world.resume session
      if session.bufFull len then
        match pass2writeLocked world.ticks world.calloc session len with
        | (.recheck, enlarged) => recheckLoop worlds len fuel (enlargements + 1) enlarged
        | (exit, last) => some (exit, enlargements, last)
      else some (.setupCopy, enlargements, session)

/-- In a session that nobody else touches, the loop and the copy behind it are the call. -/
theorem pass2writeFrom_eq_recheckLoop (ticks : Nat) (calloc : Nat → Bool) (buf : Memory)
    (len rounds enlargements : Nat) (session : Session) :
    pass2writeFrom ticks calloc buf len rounds session =
      (recheckLoop (fun _ => ⟨ticks, calloc, id⟩) len rounds enlargements session).bind
        fun (exit, _, last) => if exit = .spin then none else some (last.copyIn buf len) := by
  induction rounds generalizing session enlargements with
  | zero => rfl
  | succ rounds ih =>
      have resumed : (⟨ticks, calloc, id⟩ : World).resume session = session := rfl
      simp only [pass2writeFrom, recheckLoop, resumed]
      cases full : session.bufFull len with
      | false => rfl
      | true =>
          simp only [if_true]
          rcases left : pass2writeLocked ticks calloc session len with ⟨exit, last⟩
          cases exit with
          | setupCopy | spin | switched => rfl
          | recheck => exact ih (enlargements + 1) last

theorem enlargeWithin_round {ticks : Nat} {calloc : Nat → Bool} {session : Session} {len : Nat}
    (full : session.bufFull len = true)
    (small : session.membufOffset + len + session.netReadBufLen + stepDataBlockSize ≤
      2147483648) :
    enlargeWithin (enlargeGap session len + 1) ticks calloc session (enlargeGap session len) =
      some (enlargeSessionBuf ticks calloc session (enlargeGap session len)) := by
  have above : session.memBufLen < session.membufOffset + len + session.netReadBufLen := by
    simpa [Session.bufFull] using full
  apply enlargeWithin_returns
  · simp only [enlargeGap]
    omega
  · simp only [enlargeGap]
    omega

theorem pass2writeLocked_recheck {ticks : Nat} {calloc : Nat → Bool} {session enlarged : Session}
    {len : Nat} (again : pass2writeLocked ticks calloc session len = (.recheck, enlarged)) :
    session.memBufLen + stepDataBlockSize ≤ enlarged.memBufLen ∧
      enlarged.memBufLen ≤ extDataBlockSize := by
  simp only [pass2writeLocked] at again
  split at again
  · split at again
    · rename_i _ pending
      split at again
      · simp at again
      · rename_i succeeded
        obtain ⟨netReadBufLen, ⟨failed, _⟩ | ⟨_, limited, moved⟩⟩ :=
          enlargeSessionBuf_cases ticks calloc session (enlargeGap session len)
        · exact absurd failed succeeded
        · have length : enlarged.memBufLen = enlargedLen session (enlargeGap session len) := by
            have queued : { session with netReadBufLen := netReadBufLen }.diskBuf.isSome = true :=
              pending
            rw [← (Prod.mk.inj again).2]
            exact (congrArg Session.memBufLen moved).trans
              (congrArg Session.memBufLen (Session.moveTo_keeps _ queued))
          rw [length]
          exact ⟨lt_enlargedLen session _, limited⟩
    · simp at again
  · simp at again

theorem recheckLoop_ends (worlds : Nat → World) (len enlargements : Nat) {fuel : Nat}
    {session : Session} (some_round : 1 ≤ fuel)
    (enough : extDataBlockSize < session.memBufLen + fuel * stepDataBlockSize) :
    ∃ exit total last, recheckLoop worlds len fuel enlargements session =
        some (exit, total, last) ∧
      exit ≠ .recheck ∧ total < enlargements + fuel := by
  induction fuel generalizing enlargements session with
  | zero => omega
  | succ fuel ih =>
      have length : ((worlds enlargements).resume session).memBufLen = session.memBufLen := rfl
      simp only [recheckLoop]
      cases full : ((worlds enlargements).resume session).bufFull len with
      | false => exact ⟨_, _, _, rfl, by simp, by omega⟩
      | true =>
          simp only [if_true]
          rcases left : pass2writeLocked (worlds enlargements).ticks (worlds enlargements).calloc
            ((worlds enlargements).resume session) len with ⟨exit, last⟩
          cases exit with
          | setupCopy | spin | switched => exact ⟨_, _, _, rfl, by simp, by omega⟩
          | recheck =>
              obtain ⟨longer, limited⟩ := pass2writeLocked_recheck left
              rw [length] at longer
              simp only [stepDataBlockSize] at enough longer ih
              obtain ⟨exit, total, final, ended, different, few⟩ :=
                @ih (enlargements + 1) last (by omega) (by omega)
              exact ⟨exit, total, final, ended, different, by omega⟩

/-- Whatever the session, the chunk, the rate and the other threads are, `pass2write` comes
back to `recheck` at most 256 times and then goes on. -/
theorem recheck_loop_ends (worlds : Nat → World) (len : Nat) (session : Session) :
    ∃ exit enlargements last, recheckLoop worlds len recheckRounds 0 session =
        some (exit, enlargements, last) ∧
      exit ≠ .recheck ∧ enlargements ≤ 256 := by
  have enough : extDataBlockSize < session.memBufLen + recheckRounds * stepDataBlockSize := by
    simp only [extDataBlockSize, recheckRounds, stepDataBlockSize]
    omega
  obtain ⟨exit, enlargements, last, left, different, few⟩ :=
    recheckLoop_ends worlds len 0 (by decide) enough
  refine ⟨exit, enlargements, last, left, different, ?_⟩
  simp only [recheckRounds] at few
  omega

end DirtyCode.LogCollect
