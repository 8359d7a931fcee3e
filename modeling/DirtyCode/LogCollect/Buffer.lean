import DirtyCode.LogCollect.Session

/-!
What the buffer operations do: the fields and bytes each one keeps, the length
`enlarge_session_buf` settles on, and the ways a `pass2write` call can end.
-/

namespace DirtyCode.LogCollect

open Lib

theorem Buf.other_ne (buf : Buf) : buf.other ≠ buf := by
  cases buf <;> decide

theorem Buf.other_other (buf : Buf) : buf.other.other = buf := by
  cases buf <;> rfl

namespace Session

/-- The buffer waiting for the disk is not the one that chunks are copied into. -/
def Apart (session : Session) : Prop :=
  ∀ other, session.diskBuf = some other → other ≠ session.curBuf

theorem switchBuf_apart (session : Session) : session.switchBuf.Apart := by
  rintro other pointer
  simp only [switchBuf, Option.some.injEq] at pointer
  subst pointer
  exact (Buf.other_ne _).symm

theorem switchBuf_pending (session : Session) : session.switchBuf.pending = session.current :=
  rfl

theorem switchBuf_current (session : Session) : session.switchBuf.current = [] := rfl

theorem current_copyIn (session : Session) (buf : Memory) (len : Nat) :
    (session.copyIn buf len).current = session.current ++ buf.slice 0 len := by
  change (session.block.memcpy _ buf len).slice (session.address session.curBuf)
    (session.membufOffset + len) = _
  rw [Memory.slice_append, Memory.slice_memcpy_self, Memory.slice_memcpy_disjoint]
  · rfl
  · exact .inl (Nat.le_refl _)

theorem slice_copyIn_other (session : Session) (buf : Memory) {len count : Nat} {other : Buf}
    (distinct : other ≠ session.curBuf) (inside : session.membufOffset + len ≤ session.memBufLen)
    (bounded : count ≤ session.memBufLen) :
    (session.copyIn buf len).block.slice (session.address other) count =
      session.block.slice (session.address other) count := by
  apply Memory.slice_memcpy_disjoint
  cases current : session.curBuf <;> cases other <;> simp_all [address]
  omega

theorem pending_copyIn (session : Session) (buf : Memory) {len : Nat}
    (apart : session.Apart) (inside : session.membufOffset + len ≤ session.memBufLen)
    (bounded : session.diskWriteBufLen ≤ session.memBufLen) :
    (session.copyIn buf len).pending = session.pending := by
  cases pointer : session.diskBuf with
  | none => simp [pending, copyIn, pointer]
  | some other =>
      have kept := session.slice_copyIn_other buf (apart other pointer) inside bounded
      simpa [pending, copyIn, pointer, address] using kept

theorem moveTo_keeps {session : Session} (newlen : Nat)
    (pending : session.diskBuf.isSome = true) :
    session.moveTo newlen = { session with
      block := (session.moveTo newlen).block
      memBufLen := newlen
      curBuf := .buf1
      diskBuf := some .buf2 } := by
  obtain ⟨buf, pointer⟩ := Option.isSome_iff_exists.mp pending
  simp only [moveTo, pointer]

theorem current_moveTo (session : Session) (newlen : Nat)
    (bounded : session.membufOffset ≤ newlen) :
    (session.moveTo newlen).current = session.current := by
  cases pointer : session.diskBuf with
  | none => simp [moveTo, pointer]
  | some other =>
      simp only [moveTo, pointer, current, address]
      rw [Memory.slice_memcpy_disjoint _ _ (.inl (by omega)), Memory.slice_memcpy_self]
      simp

theorem pending_moveTo (session : Session) (newlen : Nat) :
    (session.moveTo newlen).pending = session.pending := by
  cases pointer : session.diskBuf with
  | none => simp [moveTo, pending, pointer]
  | some other =>
      simp only [moveTo, pointer, pending, address]
      rw [Memory.slice_memcpy_self]
      simp

end Session

theorem le_growFrom (target fuel newlen : Nat) : newlen ≤ growFrom target fuel newlen := by
  induction fuel generalizing newlen with
  | zero => exact Nat.le_refl _
  | succ fuel ih =>
      simp only [growFrom]
      split
      · exact Nat.le_trans (Nat.le_add_right _ _) (ih _)
      · exact Nat.le_refl _

theorem target_le_growFrom (target fuel newlen : Nat) (enough : target ≤ newlen + fuel) :
    target ≤ growFrom target fuel newlen := by
  induction fuel generalizing newlen with
  | zero => simpa [growFrom] using enough
  | succ fuel ih =>
      simp only [growFrom]
      split
      · apply ih
        simp only [stepDataBlockSize]
        omega
      · omega

theorem growFrom_lt (target fuel newlen bound : Nat) (above : newlen < bound)
    (room : target + stepDataBlockSize ≤ bound) : growFrom target fuel newlen < bound := by
  induction fuel generalizing newlen with
  | zero => exact above
  | succ fuel ih =>
      simp only [growFrom]
      split
      · exact ih _ (by omega)
      · exact above

theorem growFrom_aligned (target fuel newlen : Nat) (aligned : stepDataBlockSize ∣ newlen) :
    stepDataBlockSize ∣ growFrom target fuel newlen := by
  induction fuel generalizing newlen with
  | zero => exact aligned
  | succ fuel ih =>
      simp only [growFrom]
      split
      · exact ih _ (Nat.dvd_add aligned (Nat.dvd_refl _))
      · exact aligned

theorem lt_enlargedLen (session : Session) (gap : Nat) :
    session.memBufLen + stepDataBlockSize ≤ enlargedLen session gap :=
  le_growFrom _ _ _

theorem gap_le_enlargedLen (session : Session) (gap : Nat) :
    session.memBufLen + gap ≤ enlargedLen session gap :=
  target_le_growFrom _ _ _ (by omega)

/-- Every way an enlargement attempt ends: only `net_read_buf_len` changes, or
the buffers move to a longer allocation. -/
theorem enlargeSessionBuf_cases (ticks : Nat) (calloc : Nat → Bool) (session : Session)
    (gap : Nat) :
    ∃ netReadBufLen,
      ((enlargeSessionBuf ticks calloc session gap).1 ≠ 0 ∧
        (enlargeSessionBuf ticks calloc session gap).2 =
          { session with netReadBufLen := netReadBufLen }) ∨
      ((enlargeSessionBuf ticks calloc session gap).1 = 0 ∧
        enlargedLen session gap ≤ extDataBlockSize ∧
        (enlargeSessionBuf ticks calloc session gap).2 =
          { session with netReadBufLen := netReadBufLen }.moveTo (enlargedLen session gap)) := by
  have small : ¬maxDataBlockSize < enlargedLen session gap →
      enlargedLen session gap ≤ extDataBlockSize := by
    simp only [maxDataBlockSize, extDataBlockSize]
    omega
  simp only [enlargeSessionBuf]
  split
  · exact ⟨session.netReadBufLen, .inl ⟨by simp, rfl⟩⟩
  · split
    · refine ⟨raisedNetReadBufLen (averageRate ticks session) session.netReadBufLen, ?_⟩
      split
      · exact .inl ⟨by simp, rfl⟩
      · split
        · exact .inl ⟨by simp, rfl⟩
        · split
          · exact .inl ⟨by simp, rfl⟩
          · rename_i _ _ _ fits
            cases calloc (enlargedLen session gap) with
            | false => exact .inl ⟨by simp, rfl⟩
            | true => exact .inr ⟨rfl, by omega, rfl⟩
    · rename_i below
      refine ⟨session.netReadBufLen, ?_⟩
      cases calloc (enlargedLen session gap) with
      | false => exact .inl ⟨by simp, rfl⟩
      | true => exact .inr ⟨rfl, small below, rfl⟩

def enlargeGap (session : Session) (len : Nat) : Nat :=
  session.membufOffset + len + session.netReadBufLen - session.memBufLen

inductive Enlarged (ticks : Nat) (calloc : Nat → Bool) (len : Nat) : Session → Session → Prop
  | refl (session) : Enlarged ticks calloc len session session
  | grow {session last} : session.bufFull len = true → session.diskBuf.isSome = true →
      (enlargeSessionBuf ticks calloc session (enlargeGap session len)).1 = 0 →
      Enlarged ticks calloc len
        (enlargeSessionBuf ticks calloc session (enlargeGap session len)).2 last →
      Enlarged ticks calloc len session last

inductive Pass2written (ticks : Nat) (calloc : Nat → Bool) (buf : Memory) (len : Nat)
    (session : Session) : Session → Prop
  | room {grown} : Enlarged ticks calloc len session grown → grown.bufFull len = false →
      Pass2written ticks calloc buf len session (grown.copyIn buf len)
  | stuck {grown} : Enlarged ticks calloc len session grown → grown.bufFull len = true →
      grown.diskBuf.isSome = true →
      (enlargeSessionBuf ticks calloc grown (enlargeGap grown len)).1 ≠ 0 →
      Pass2written ticks calloc buf len session
        ({ (enlargeSessionBuf ticks calloc grown (enlargeGap grown len)).2 with
          bufFullStuck := true }.copyIn buf len)
  | switched : session.bufFull len = true → session.diskBuf = none →
      session.diskIoInProgress = false →
      Pass2written ticks calloc buf len session (session.submitBuf.copyIn buf len)

theorem enlarged_diskBuf (ticks : Nat) (calloc : Nat → Bool) {session : Session} (gap : Nat)
    (pending : session.diskBuf.isSome = true) :
    (enlargeSessionBuf ticks calloc session gap).2.diskBuf.isSome = true := by
  obtain ⟨netReadBufLen, ⟨_, failed⟩ | ⟨_, _, moved⟩⟩ :=
    enlargeSessionBuf_cases ticks calloc session gap
  · simpa [failed] using pending
  · obtain ⟨buf, pointer⟩ := Option.isSome_iff_exists.mp pending
    simp [moved, Session.moveTo, pointer]

theorem enlarged_keeps {ticks : Nat} {calloc : Nat → Bool} {len : Nat} {session grown : Session}
    (enlarged : Enlarged ticks calloc len session grown) :
    grown = { session with
      block := grown.block
      curBuf := grown.curBuf
      diskBuf := grown.diskBuf
      memBufLen := grown.memBufLen
      netReadBufLen := grown.netReadBufLen } ∧
    session.memBufLen ≤ grown.memBufLen ∧ (session.diskBuf = none → grown = session) := by
  induction enlarged with
  | refl session => exact ⟨rfl, Nat.le_refl _, fun _ => rfl⟩
  | @grow session last _ pending succeeded _ ih =>
      obtain ⟨netReadBufLen, ⟨failed, _⟩ | ⟨_, _, moved⟩⟩ :=
        enlargeSessionBuf_cases ticks calloc session (enlargeGap session len)
      · exact absurd succeeded failed
      · obtain ⟨buf, pointer⟩ := Option.isSome_iff_exists.mp pending
        have longer := lt_enlargedLen session (enlargeGap session len)
        simp only [moved, Session.moveTo, pointer] at ih
        refine ⟨by rw [ih.1], by omega, ?_⟩
        simp [pointer]

theorem enlarged_contents {ticks : Nat} {calloc : Nat → Bool} {len : Nat}
    {session grown : Session} (enlarged : Enlarged ticks calloc len session grown)
    (inside : session.membufOffset ≤ session.memBufLen) (apart : session.Apart) :
    grown.current = session.current ∧ grown.pending = session.pending ∧ grown.Apart := by
  induction enlarged with
  | refl session => exact ⟨rfl, rfl, apart⟩
  | @grow session last _ pending succeeded _ ih =>
      obtain ⟨netReadBufLen, ⟨failed, _⟩ | ⟨_, _, moved⟩⟩ :=
        enlargeSessionBuf_cases ticks calloc session (enlargeGap session len)
      · exact absurd succeeded failed
      · have longer := lt_enlargedLen session (enlargeGap session len)
        obtain ⟨buf, pointer⟩ := Option.isSome_iff_exists.mp pending
        have current := Session.current_moveTo { session with netReadBufLen := netReadBufLen }
          (enlargedLen session (enlargeGap session len)) (by dsimp only; omega)
        have queued := Session.pending_moveTo { session with netReadBufLen := netReadBufLen }
          (enlargedLen session (enlargeGap session len))
        rw [← moved] at current queued
        have next := ih (by simp only [moved, Session.moveTo, pointer]; omega)
          (by intro other; simp [moved, Session.moveTo, pointer]; rintro rfl; decide)
        exact ⟨next.1.trans current, next.2.1.trans queued, next.2.2⟩

theorem pass2writeFrom_cases {ticks : Nat} {calloc : Nat → Bool} {buf : Memory} {len rounds : Nat}
    {session after : Session}
    (ran : pass2writeFrom ticks calloc buf len rounds session = some after) :
    Pass2written ticks calloc buf len session after := by
  induction rounds generalizing session with
  | zero => simp [pass2writeFrom] at ran
  | succ rounds ih =>
      simp only [pass2writeFrom] at ran
      cases full : session.bufFull len with
      | false =>
          simp only [full, Bool.false_eq_true, if_false, Option.some.injEq] at ran
          exact ran ▸ .room (.refl session) full
      | true =>
          simp only [full, if_true, pass2writeLocked] at ran
          cases pointer : session.diskBuf with
          | none =>
              cases busy : session.diskIoInProgress with
              | true => simp [pointer, busy] at ran
              | false =>
                  simp only [pointer, busy, Option.isSome_none, Bool.or_self,
                    Bool.false_eq_true, if_false, Option.some.injEq] at ran
                  exact ran ▸ .switched full pointer busy
          | some other =>
              have pending : session.diskBuf.isSome = true := by simp [pointer]
              simp only [pending, Bool.true_or, if_true] at ran
              by_cases grown : (enlargeSessionBuf ticks calloc session
                  (enlargeGap session len)).1 = 0
              · simp only [enlargeGap] at grown
                simp only [grown, ne_eq, not_true, if_false] at ran
                -- the call goes back to `recheck` with the moved buffers
                cases ih ran with
                | room more fits => exact .room (.grow full pending grown more) fits
                | stuck more again still failed =>
                    exact .stuck (.grow full pending grown more) again still failed
                | switched _ gone _ =>
                    have kept := enlarged_diskBuf ticks calloc (enlargeGap session len) pending
                    simp [enlargeGap, gone] at kept
              · have failed := grown
                simp only [enlargeGap] at grown
                simp only [grown, ne_eq, not_false_iff, if_true, Option.some.injEq] at ran
                exact ran ▸ .stuck (.refl session) full pending failed

theorem pass2writeFrom_enlarged {ticks : Nat} {calloc : Nat → Bool} (buf : Memory)
    {len rounds : Nat} {session grown : Session}
    (enlarged : Enlarged ticks calloc len session grown) (some_round : 1 ≤ rounds)
    (enough : extDataBlockSize < session.memBufLen + rounds * stepDataBlockSize) :
    ∃ left, 1 ≤ left ∧ pass2writeFrom ticks calloc buf len rounds session =
      pass2writeFrom ticks calloc buf len left grown := by
  induction enlarged generalizing rounds with
  | refl session => exact ⟨rounds, some_round, rfl⟩
  | @grow session last full pending succeeded _ ih =>
      obtain ⟨netReadBufLen, ⟨failed, _⟩ | ⟨_, fits, moved⟩⟩ :=
        enlargeSessionBuf_cases ticks calloc session (enlargeGap session len)
      · exact absurd succeeded failed
      · obtain ⟨round, rfl⟩ := Nat.exists_eq_succ_of_ne_zero (by omega : rounds ≠ 0)
        obtain ⟨other, pointer⟩ := Option.isSome_iff_exists.mp pending
        have longer := lt_enlargedLen session (enlargeGap session len)
        have length : (enlargeSessionBuf ticks calloc session
            (enlargeGap session len)).2.memBufLen =
              enlargedLen session (enlargeGap session len) := by
          simp [moved, Session.moveTo, pointer]
        have unfolded : pass2writeFrom ticks calloc buf len (round + 1) session =
            pass2writeFrom ticks calloc buf len round
              (enlargeSessionBuf ticks calloc session (enlargeGap session len)).2 := by
          simp only [enlargeGap] at succeeded
          simp only [pass2writeFrom, full, if_true, pass2writeLocked, pending, Bool.true_or,
            succeeded, ne_eq, not_true, if_false, enlargeGap]
        rw [unfolded]
        apply ih
        · simp only [stepDataBlockSize, extDataBlockSize] at enough fits longer
          omega
        · simp only [stepDataBlockSize, extDataBlockSize] at enough fits longer ⊢
          omega

/-- The rounds suffice: a call ends in `after` exactly when the code can leave it
there, and it has no result only where it waits for the disk thread. -/
theorem pass2write_iff {ticks : Nat} {calloc : Nat → Bool} {buf : Memory} {len : Nat}
    {session after : Session} (nonempty : 1 ≤ len) :
    pass2write ticks calloc session buf len = some after ↔
      Pass2written ticks calloc buf len session after := by
  have enough : ¬len < 1 := by omega
  simp only [pass2write, enough, if_false]
  refine ⟨pass2writeFrom_cases, fun written => ?_⟩
  have rounds : extDataBlockSize < session.memBufLen + recheckRounds * stepDataBlockSize := by
    simp only [extDataBlockSize, recheckRounds, stepDataBlockSize]
    omega
  cases written with
  | @room grown enlarged fits =>
      obtain ⟨left, positive, reached⟩ :=
        pass2writeFrom_enlarged buf enlarged (by decide) rounds
      obtain ⟨round, rfl⟩ := Nat.exists_eq_succ_of_ne_zero (by omega : left ≠ 0)
      simp only [reached, pass2writeFrom, fits, Bool.false_eq_true, if_false]
  | @stuck grown enlarged full pending failed =>
      obtain ⟨left, positive, reached⟩ :=
        pass2writeFrom_enlarged buf enlarged (by decide) rounds
      obtain ⟨round, rfl⟩ := Nat.exists_eq_succ_of_ne_zero (by omega : left ≠ 0)
      simp only [enlargeGap] at failed
      simp only [reached, pass2writeFrom, full, if_true, pass2writeLocked, pending, Bool.true_or,
        ne_eq, failed, not_false_iff, enlargeGap]
  | switched full gone free =>
      simp only [recheckRounds, pass2writeFrom.eq_2, full, if_true, pass2writeLocked, gone, free,
        Option.isSome_none, Bool.or_self, Bool.false_eq_true, if_false]

theorem pass2written_keeps {ticks : Nat} {calloc : Nat → Bool} {buf : Memory} {len : Nat}
    {session after : Session} (written : Pass2written ticks calloc buf len session after) :
    after = { session with
      block := after.block
      curBuf := after.curBuf
      diskBuf := after.diskBuf
      timeOutNeedFlushToDisk := after.timeOutNeedFlushToDisk
      bufFullStuck := after.bufFullStuck
      netReadBufLen := after.netReadBufLen
      diskWriteBufLen := after.diskWriteBufLen
      membufOffset := after.membufOffset
      memBufLen := after.memBufLen } := by
  cases written with
  | room enlarged _ =>
      rw [Session.copyIn, (enlarged_keeps enlarged).1]
  | @stuck grown enlarged _ _ failed =>
      obtain ⟨netReadBufLen, ⟨_, raised⟩ | ⟨succeeded, _⟩⟩ :=
        enlargeSessionBuf_cases ticks calloc grown (enlargeGap grown len)
      · rw [raised, Session.copyIn, (enlarged_keeps enlarged).1]
      · exact absurd succeeded failed
  | switched _ _ _ => rfl

theorem pass2written_waiting {ticks : Nat} {calloc : Nat → Bool} {buf : Memory} {len : Nat}
    {session after : Session} (written : Pass2written ticks calloc buf len session after)
    (idle : session.diskBuf = none) (writing : session.diskIoInProgress = true) :
    after = session.copyIn buf len ∧ session.bufFull len = false := by
  cases written with
  | room enlarged fits =>
      rw [(enlarged_keeps enlarged).2.2 idle] at fits ⊢
      exact ⟨rfl, fits⟩
  | stuck enlarged _ pending _ =>
      rw [(enlarged_keeps enlarged).2.2 idle, idle] at pending
      contradiction
  | switched _ _ busy => simp [writing] at busy

end DirtyCode.LogCollect
