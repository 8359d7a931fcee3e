import Mathlib

/-!
A stream of rows, each closed by a symbol that ends it, and what happens to the rows
when the stream arrives in pieces.
-/

namespace DirtyCode.Lib

variable {α : Type*} {ends : α → Prop}

structure Row (ends : α → Prop) where
  text : List α
  terminator : α
  closed : ends terminator
  unbroken : ∀ symbol ∈ text, ¬ends symbol

def Row.all (row : Row ends) : List α := row.text ++ [row.terminator]

def stream (rows : List (Row ends)) : List α := rows.flatMap Row.all

def Row.extend (row : Row ends) (text : List α) (unbroken : ∀ symbol ∈ text, ¬ends symbol) :
    Row ends where
  text := text ++ row.text
  terminator := row.terminator
  closed := row.closed
  unbroken := by
    intro symbol member
    rcases List.mem_append.mp member with inside | inside
    · exact unbroken symbol inside
    · exact row.unbroken symbol inside

/-- The rows of a stream, and what stands behind the last of them. -/
def splitRows (ends : α → Prop) [DecidablePred ends] : List α → List (Row ends) × List α
  | [] => ([], [])
  | symbol :: rest =>
      if closed : ends symbol then
        (⟨[], symbol, closed, by simp⟩ :: (splitRows ends rest).1, (splitRows ends rest).2)
      else
        match splitRows ends rest with
        | ([], tail) => ([], symbol :: tail)
        | (row :: rows, tail) => (row.extend [symbol] (by simpa using closed) :: rows, tail)

/-- The rows that lie across two or more pieces, with the part in the last of these;
`carry` is what the earlier pieces hold of the first row. -/
def cutRows (ends : α → Prop) [DecidablePred ends] :
    List α → List (List α) → List (List α × List α)
  | _, [] => []
  | carry, piece :: rest =>
      match splitRows ends piece with
      | ([], tail) => cutRows ends (carry ++ tail) rest
      | (row :: _, tail) =>
          (if carry = [] then [] else [(carry ++ row.text, row.text)]) ++ cutRows ends tail rest

theorem stream_cons (row : Row ends) (rows : List (Row ends)) :
    stream (row :: rows) = row.text ++ row.terminator :: stream rows := by
  simp [stream, Row.all]

@[simp] theorem stream_nil : stream ([] : List (Row ends)) = [] := rfl

theorem stream_append (first second : List (Row ends)) :
    stream (first ++ second) = stream first ++ stream second := List.flatMap_append

theorem length_stream_cons (row : Row ends) (rows : List (Row ends)) :
    (stream (row :: rows)).length = row.text.length + 1 + (stream rows).length := by
  rw [stream_cons, List.length_append, List.length_cons]
  omega

theorem length_le_stream (rows : List (Row ends)) : rows.length ≤ (stream rows).length := by
  induction rows with
  | nil => exact Nat.zero_le _
  | cons row rest ih =>
      rw [length_stream_cons, List.length_cons]
      omega

variable [DecidablePred ends]

variable (ends) in
theorem splitRows_tail (symbols : List α) :
    ∀ symbol ∈ (splitRows ends symbols).2, ¬ends symbol := by
  induction symbols with
  | nil => simp [splitRows]
  | cons first rest ih =>
      by_cases closed : ends first
      · simpa [splitRows, closed] using ih
      · rcases split : splitRows ends rest with ⟨_ | ⟨row, rows⟩, tail⟩
        · rw [split] at ih
          simpa [splitRows, closed, split] using ih
        · rw [split] at ih
          simpa [splitRows, closed, split] using ih

variable (ends) in
theorem stream_splitRows (symbols : List α) :
    stream (splitRows ends symbols).1 ++ (splitRows ends symbols).2 = symbols := by
  induction symbols with
  | nil => rfl
  | cons first rest ih =>
      by_cases closed : ends first
      · simp [splitRows, closed, stream_cons, ih]
      · rcases split : splitRows ends rest with ⟨_ | ⟨row, rows⟩, tail⟩
        · rw [split] at ih
          simpa [splitRows, closed, split] using ih
        · rw [split] at ih
          simpa [splitRows, closed, split, stream_cons, Row.extend] using ih

theorem splitRows_unbroken {tail : List α} (unbroken : ∀ symbol ∈ tail, ¬ends symbol) :
    splitRows ends tail = ([], tail) := by
  induction tail with
  | nil => rfl
  | cons first rest ih =>
      have later := ih fun symbol member => unbroken symbol (List.mem_cons_of_mem _ member)
      simp [splitRows, unbroken first List.mem_cons_self, later]

theorem splitRows_row (row : Row ends) (rest : List α) :
    splitRows ends (row.text ++ row.terminator :: rest) =
      (row :: (splitRows ends rest).1, (splitRows ends rest).2) := by
  obtain ⟨text, terminator, closed, unbroken⟩ := row
  induction text with
  | nil => simp [splitRows, closed]
  | cons first others ih =>
      have later := ih fun symbol member => unbroken symbol (List.mem_cons_of_mem _ member)
      dsimp only at later
      simp [splitRows, unbroken first List.mem_cons_self, later, Row.extend]

/-- A stream has only one reading as rows. -/
theorem splitRows_stream (rows : List (Row ends)) (rest : List α) :
    splitRows ends (stream rows ++ rest) =
      (rows ++ (splitRows ends rest).1, (splitRows ends rest).2) := by
  induction rows with
  | nil => rfl
  | cons row rows ih =>
      rw [stream_cons, List.append_assoc, List.cons_append, splitRows_row, ih, List.cons_append]

theorem cutRows_unended {piece : List α} (split : splitRows ends piece = ([], piece))
    (carry : List α) (pieces : List (List α)) :
    cutRows ends carry (piece :: pieces) = cutRows ends (carry ++ piece) pieces := by
  rw [cutRows, split]

theorem cutRows_ended {piece tail : List α} {row : Row ends} {more : List (Row ends)}
    (split : splitRows ends piece = (row :: more, tail)) (carry : List α)
    (pieces : List (List α)) :
    cutRows ends carry (piece :: pieces) =
      (if carry = [] then [] else [(carry ++ row.text, row.text)]) ++ cutRows ends tail pieces := by
  rw [cutRows, split]

theorem splitRows_closed {symbol : α} (closed : ends symbol) (text : List α) :
    (splitRows ends (text ++ [symbol])).2 = [] := by
  have whole := stream_splitRows ends (text ++ [symbol])
  have unfinished := splitRows_tail ends (text ++ [symbol])
  rcases List.eq_nil_or_concat (splitRows ends (text ++ [symbol])).2 with none | ⟨rest, last, more⟩
  · exact none
  · rw [more, List.concat_eq_append, ← List.append_assoc] at whole
    have same := List.append_inj_right' whole rfl
    rw [List.cons.injEq] at same
    refine absurd closed (unfinished symbol ?_)
    rw [more, same.1]
    simp

/-- How the pieces of a stream of whole rows lie over these; `carry` is what earlier pieces
hold of the first one. -/
inductive Pieced (ends : α → Prop) [DecidablePred ends] :
    List α → List (List α) → List (Row ends) → Prop
  | done : Pieced ends [] [] []
  | unended {carry piece pieces rows} : splitRows ends piece = ([], piece) →
      Pieced ends (carry ++ piece) pieces rows → Pieced ends carry (piece :: pieces) rows
  | ended {carry piece tail pieces row more later} (unbroken : ∀ symbol ∈ carry, ¬ends symbol) :
      splitRows ends piece = (row :: more, tail) → Pieced ends tail pieces later →
      Pieced ends carry (piece :: pieces) (row.extend carry unbroken :: more ++ later)

theorem Pieced.of_splitRows {carry : List α} {pieces : List (List α)} {rows : List (Row ends)}
    (unbroken : ∀ symbol ∈ carry, ¬ends symbol)
    (complete : splitRows ends (carry ++ pieces.flatten) = (rows, [])) :
    Pieced ends carry pieces rows := by
  induction pieces generalizing carry rows with
  | nil =>
      rw [List.flatten_nil, List.append_nil, splitRows_unbroken unbroken, Prod.mk.injEq] at complete
      obtain ⟨rfl, rfl⟩ := complete
      exact .done
  | cons piece pieces ih =>
      have whole := stream_splitRows ends piece
      have unfinished := splitRows_tail ends piece
      rcases split : splitRows ends piece with ⟨_ | ⟨row, more⟩, tail⟩
      · simp only [split, stream_nil, List.nil_append] at whole unfinished
        subst whole
        refine .unended split (ih ?_ ?_)
        · intro symbol member
          rcases List.mem_append.mp member with inside | inside
          · exact unbroken symbol inside
          · exact unfinished symbol inside
        · rwa [List.flatten_cons, ← List.append_assoc] at complete
      · simp only [split] at whole unfinished
        have text : carry ++ (piece :: pieces).flatten =
            (row.extend carry unbroken).text ++ (row.extend carry unbroken).terminator ::
              (stream more ++ (tail ++ pieces.flatten)) := by
          rw [List.flatten_cons, ← whole, stream_cons]
          simp [Row.extend]
        rw [text, splitRows_row, splitRows_stream, Prod.mk.injEq] at complete
        obtain ⟨same, ended⟩ := complete
        rw [← List.cons_append] at same
        subst same
        exact .ended unbroken split (ih unfinished (Prod.ext rfl ended))

end DirtyCode.Lib
