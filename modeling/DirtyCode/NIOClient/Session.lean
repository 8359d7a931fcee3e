import Mathlib
import DirtyCode.Lib.CInt

/-!
The log of one `Session` of `NIOClient.java`: the bytes added pass through `buf` and a
`BufferedOutputStream` that the first flush opens.
-/

namespace DirtyCode.NIOClient

open Lib

def deflen : Nat := 256 * 1024

def bufferSize : Nat := 32768

structure Session where
  nread : Int
  buf : List UInt8 -- the first `bufEndPtr` bytes
  writer : Option (List UInt8) -- what the stream was given since its last flush
  file : List UInt8

def newSession : Session where
  nread := 0
  buf := []
  writer := none
  file := []

namespace Session

def flushToDisk (session : Session) : Session :=
  if session.nread < 1 then session
  else { session with writer := some (session.writer.getD [] ++ session.buf), buf := [] }

/-- `System.arraycopy` throws where the bytes would not fit. -/
def add (session : Session) (sbuf : List UInt8) : Option Session :=
  let session := if deflen < sbuf.length + session.buf.length then session.flushToDisk else session
  if session.buf.length + sbuf.length ≤ deflen then
    some { session with
      buf := session.buf ++ sbuf
      nread := toInt32 (session.nread + sbuf.length) }
  else none

def close (session : Session) : Session :=
  match session.writer with
  | none => session
  | some _ =>
      let session := session.flushToDisk
      { session with file := session.file ++ session.writer.getD [], writer := some [] }

def addAll (session : Session) : List (List UInt8) → Option Session
  | [] => some session
  | sbuf :: rest => (session.add sbuf).bind fun next => next.addAll rest

end Session

/-- All the bytes come into the file and no others. -/
def FileExact (adds : List (List UInt8)) : Prop :=
  ∃ session, newSession.addAll adds = some session ∧ session.close.file = adds.flatten

/-- Where the bytes added so far are. A flush needs `nread`, an `int`, to be positive. -/
structure Holds (session : Session) (text : List UInt8) : Prop where
  nread : session.nread = toInt32 text.length
  content : session.writer.getD [] ++ session.buf = text
  file : session.file = []
  fits : session.buf.length ≤ deflen
  opened : session.writer.isSome ↔ deflen < text.length
  filled : text ≠ [] → session.buf ≠ []
  flushed : text.length < 2147483648 + session.buf.length

theorem holds_new : Holds newSession [] where
  nread := rfl
  content := rfl
  file := rfl
  fits := Nat.zero_le _
  opened := by simp [newSession, deflen]
  filled nonempty := absurd rfl nonempty
  flushed := by decide

theorem toInt32_add (value : Int) (more : Nat) :
    toInt32 (toInt32 value + more) = toInt32 (value + more) := by
  simp only [toInt32, Int.bmod_add_bmod]

theorem positive_iff {length : Nat} (bound : length < 2147483648 + deflen + 1) :
    1 ≤ toInt32 length ↔ 1 ≤ length ∧ length < 2147483648 := by
  simp only [toInt32, Int.bmod_def, deflen] at bound ⊢
  split <;> omega

section

variable {session after : Session} {text sbuf : List UInt8}

theorem Holds.bound (holds : Holds session text) : text.length < 2147483648 + deflen + 1 := by
  have flushed := holds.flushed
  have fits := holds.fits
  omega

theorem Holds.buf_le (holds : Holds session text) : session.buf.length ≤ text.length := by
  have content := congrArg List.length holds.content
  rw [List.length_append] at content
  omega

theorem Holds.flush (holds : Holds session text) (positive : 1 ≤ session.nread) :
    session.flushToDisk = { session with writer := some text, buf := [] } ∧
      text.length < 2147483648 := by
  have large : ¬session.nread < 1 := by omega
  refine ⟨?_, ?_⟩
  · rw [Session.flushToDisk, if_neg large, holds.content]
  · rw [holds.nread] at positive
    exact ((positive_iff holds.bound).mp positive).2

theorem Holds.count (holds : Holds session text) (sbuf : List UInt8) :
    toInt32 (session.nread + sbuf.length) = toInt32 (text ++ sbuf).length := by
  rw [holds.nread, toInt32_add, List.length_append, Nat.cast_add]

theorem add_copied (roomy : sbuf.length + session.buf.length ≤ deflen) :
    session.add sbuf = some { session with
      buf := session.buf ++ sbuf
      nread := toInt32 (session.nread + sbuf.length) } := by
  have fits : session.buf.length + sbuf.length ≤ deflen := by omega
  simp only [Session.add, Nat.not_lt_of_le roomy, if_false, fits, if_true]

theorem Holds.add_flushed (holds : Holds session text) (positive : 1 ≤ session.nread)
    (full : deflen < sbuf.length + session.buf.length) (small : sbuf.length ≤ deflen) :
    session.add sbuf = some { session with
      writer := some text
      buf := sbuf
      nread := toInt32 (session.nread + sbuf.length) } := by
  simp only [Session.add, full, if_true, (holds.flush positive).1, List.length_nil, Nat.zero_add,
    small, List.nil_append]

theorem add_throws (negative : session.nread < 1)
    (full : deflen < sbuf.length + session.buf.length) :
    session.add sbuf = none := by
  have beyond : ¬session.buf.length + sbuf.length ≤ deflen := by omega
  simp only [Session.add, full, if_true, Session.flushToDisk, negative, beyond, if_false]

theorem Holds.copied (holds : Holds session text)
    (roomy : sbuf.length + session.buf.length ≤ deflen) :
    Holds { session with
      buf := session.buf ++ sbuf
      nread := toInt32 (session.nread + sbuf.length) } (text ++ sbuf) where
  nread := holds.count sbuf
  content := by
    rw [← holds.content, List.append_assoc]
  file := holds.file
  fits := by
    rw [List.length_append]
    omega
  opened := by
    rw [holds.opened, List.length_append]
    constructor
    · intro long
      omega
    · intro long
      by_contra short
      have closed : ¬session.writer.isSome = true := fun some_ => short (holds.opened.mp some_)
      have content := holds.content
      rw [Option.not_isSome_iff_eq_none.mp closed, Option.getD_none, List.nil_append] at content
      rw [content] at roomy
      omega
  filled nonempty := by
    intro empty
    obtain ⟨front, back⟩ := List.append_eq_nil_iff.mp empty
    by_cases before : text = []
    · exact nonempty (by rw [before, back]; rfl)
    · exact holds.filled before front
  flushed := by
    have before := holds.flushed
    simp only [List.length_append]
    omega

theorem Holds.refilled (holds : Holds session text) (positive : 1 ≤ session.nread)
    (full : deflen < sbuf.length + session.buf.length) (small : sbuf.length ≤ deflen) :
    Holds { session with
      writer := some text
      buf := sbuf
      nread := toInt32 (session.nread + sbuf.length) } (text ++ sbuf) where
  nread := holds.count sbuf
  content := rfl
  file := holds.file
  fits := small
  opened := by
    have inside := holds.buf_le
    rw [List.length_append]
    simp only [Option.isSome_some, true_iff]
    omega
  filled _ := by
    have before := holds.fits
    rintro rfl
    rw [List.length_nil] at full
    omega
  flushed := by
    have below := (holds.flush positive).2
    simp only [List.length_append]
    omega

theorem Holds.add (holds : Holds session text) (small : sbuf.length ≤ deflen)
    (added : session.add sbuf = some after) : Holds after (text ++ sbuf) := by
  by_cases roomy : sbuf.length + session.buf.length ≤ deflen
  · rw [add_copied roomy] at added
    exact Option.some.inj added ▸ holds.copied roomy
  · have full := Nat.lt_of_not_le roomy
    by_cases positive : 1 ≤ session.nread
    · rw [holds.add_flushed positive full small] at added
      exact Option.some.inj added ▸ holds.refilled positive full small
    · rw [add_throws (by omega) full] at added
      contradiction

theorem Holds.addAll (holds : Holds session text) {adds : List (List UInt8)}
    (small : ∀ sbuf ∈ adds, sbuf.length ≤ deflen) (added : session.addAll adds = some after) :
    Holds after (text ++ adds.flatten) := by
  induction adds generalizing session text with
  | nil =>
      obtain rfl := Option.some.inj added
      rwa [List.flatten_nil, List.append_nil]
  | cons sbuf rest ih =>
      obtain ⟨next, first, later⟩ := Option.bind_eq_some_iff.mp added
      have here := holds.add (small sbuf List.mem_cons_self) first
      have all := ih here (fun other member => small other (List.mem_cons_of_mem _ member)) later
      rwa [List.append_assoc, ← List.flatten_cons] at all

theorem Holds.addAll_isSome (holds : Holds session text) {adds : List (List UInt8)}
    (small : ∀ sbuf ∈ adds, sbuf.length ≤ bufferSize)
    (below : (text ++ adds.flatten).length < 2147483648) : (session.addAll adds).isSome := by
  induction adds generalizing session text with
  | nil => rfl
  | cons sbuf rest ih =>
      have first := small sbuf List.mem_cons_self
      have fits : sbuf.length ≤ deflen := first.trans (by decide)
      have adds_ : ∃ next, session.add sbuf = some next := by
        by_cases roomy : sbuf.length + session.buf.length ≤ deflen
        · exact ⟨_, add_copied roomy⟩
        · have full := Nat.lt_of_not_le roomy
          have positive : 1 ≤ session.nread := by
            have inside := holds.buf_le
            rw [List.flatten_cons, List.length_append] at below
            simp only [deflen, bufferSize] at full first
            rw [holds.nread]
            exact (positive_iff holds.bound).mpr ⟨by omega, by omega⟩
          exact ⟨_, holds.add_flushed positive full fits⟩
      obtain ⟨next, added⟩ := adds_
      rw [Session.addAll, added, Option.bind_some]
      apply ih (holds.add fits added) fun other member =>
        small other (List.mem_cons_of_mem _ member)
      rwa [List.append_assoc, ← List.flatten_cons]

theorem Holds.close_file_iff (holds : Holds session text) :
    session.close.file = text ↔
      text = [] ∨ (deflen < text.length ∧ text.length < 2147483648) := by
  cases opened : session.writer with
  | none =>
      have short : ¬deflen < text.length := by
        rw [← holds.opened, opened]
        decide
      simp only [Session.close, opened, holds.file]
      constructor
      · exact fun same => .inl same.symm
      · rintro (empty | ⟨long, -⟩)
        · exact empty.symm
        · exact absurd long short
  | some given =>
      have long : deflen < text.length := holds.opened.mp (by rw [opened]; rfl)
      by_cases positive : 1 ≤ session.nread
      · obtain ⟨flushed, below⟩ := holds.flush positive
        simp only [Session.close, opened, flushed, holds.file, List.nil_append, Option.getD_some]
        exact iff_of_true trivial (.inr ⟨long, below⟩)
      · have kept : session.flushToDisk = session := by
          rw [Session.flushToDisk, if_pos (by omega)]
        simp only [Session.close, opened, kept, holds.file, List.nil_append, Option.getD_some]
        apply iff_of_false
        · -- what is left in `buf` is missing
          intro whole
          have content := holds.content
          rw [opened, Option.getD_some, whole, List.append_right_eq_self] at content
          exact holds.filled (List.ne_nil_of_length_pos (by omega)) content
        · rintro (empty | ⟨-, below⟩)
          · rw [empty] at long
            contradiction
          · rw [holds.nread] at positive
            exact positive ((positive_iff holds.bound).mpr ⟨by omega, below⟩)

end

/-- A session of reads of at most 32768 bytes is logged whole exactly when it reads
nothing, or more than `buf` holds and less than two gigabytes. -/
theorem file_exact_iff {adds : List (List UInt8)}
    (small : ∀ sbuf ∈ adds, sbuf.length ≤ bufferSize) :
    FileExact adds ↔ adds.flatten = [] ∨
      (deflen < adds.flatten.length ∧ adds.flatten.length < 2147483648) := by
  have fits : ∀ sbuf ∈ adds, sbuf.length ≤ deflen :=
    fun sbuf member => (small sbuf member).trans (by decide)
  constructor
  · rintro ⟨session, added, whole⟩
    exact (holds_new.addAll fits added).close_file_iff.mp whole
  · intro logged
    have below : ([] ++ adds.flatten).length < 2147483648 := by
      rcases logged with empty | ⟨-, below⟩
      · rw [empty]
        decide
      · exact below
    obtain ⟨session, added⟩ := Option.isSome_iff_exists.mp (holds_new.addAll_isSome small below)
    exact ⟨session, added, (holds_new.addAll fits added).close_file_iff.mpr logged⟩

def nineReads : List (List UInt8) := List.replicate 9 (List.replicate bufferSize 97)

theorem file_exact_iff_nineReads :
    (∀ sbuf ∈ nineReads, sbuf.length ≤ bufferSize) ∧
      (FileExact nineReads ↔ nineReads.flatten = [] ∨
        (deflen < nineReads.flatten.length ∧ nineReads.flatten.length < 2147483648)) := by
  have small : ∀ sbuf ∈ nineReads, sbuf.length ≤ bufferSize := by
    intro sbuf member
    rw [List.eq_of_mem_replicate member, List.length_replicate]
  exact ⟨small, file_exact_iff small⟩

/-- Two bytes never reach the file. -/
theorem short_session_lost : ¬FileExact [[104, 105]] := by
  rintro ⟨session, added, whole⟩
  obtain rfl := Option.some.inj added
  revert whole
  decide

end DirtyCode.NIOClient
