import DirtyCode.Lib.Pieces

/-!
Files read with `fgets` line by line: what the buffer holds pass by pass, and which lines
come through whole.
-/

namespace DirtyCode.Lib

def fgets : Nat → List UInt8 → List UInt8 × List UInt8
  | _, [] => ([], [])
  | 0, rest => ([], rest)
  | room + 1, byte :: rest =>
      if byte = 10 then ([byte], rest)
      else
        let read := fgets room rest
        (byte :: read.1, read.2)

theorem fgets_append (room : Nat) (rest : List UInt8) :
    (fgets room rest).1 ++ (fgets room rest).2 = rest := by
  induction rest generalizing room with
  | nil => simp [fgets]
  | cons byte rest ih =>
      cases room with
      | zero => simp [fgets]
      | succ room =>
          simp only [fgets]
          split
          · rfl
          · simp only [List.cons_append, ih]

theorem fgets_nonempty {room : Nat} {rest : List UInt8} (some_room : 1 ≤ room)
    (empty : (fgets room rest).1 = []) : rest = [] := by
  cases rest with
  | nil => rfl
  | cons byte rest =>
      obtain ⟨left, rfl⟩ := Nat.exists_eq_succ_of_ne_zero (by omega : room ≠ 0)
      simp only [fgets] at empty
      split at empty <;> contradiction

-- what each pass of `while(fgets(buf, size, fp))` finds in `buf`
def reads (size : Nat) (content : List UInt8) : List (List UInt8) :=
  pieces (fgets (size - 1)) content.length content

def fileOf (lines : List (List UInt8)) : List UInt8 := lines.flatMap fun line => line ++ [10]

theorem fgets_line {room : Nat} {line : List UInt8} (inside : line.length < room)
    (plain : 10 ∉ line) (rest : List UInt8) :
    fgets room (line ++ 10 :: rest) = (line ++ [10], rest) := by
  induction line generalizing room with
  | nil =>
      obtain ⟨room, rfl⟩ := Nat.exists_eq_succ_of_ne_zero (Nat.ne_zero_of_lt inside)
      rfl
  | cons byte line ih =>
      obtain ⟨room, rfl⟩ := Nat.exists_eq_succ_of_ne_zero (Nat.ne_zero_of_lt inside)
      rw [List.mem_cons, not_or] at plain
      rw [List.cons_append, fgets, if_neg (Ne.symm plain.1),
        ih (Nat.lt_of_succ_lt_succ inside) plain.2]
      rfl

theorem fgets_full {line : List UInt8} (plain : 10 ∉ line) (rest : List UInt8) :
    fgets line.length (line ++ 10 :: rest) = (line, 10 :: rest) := by
  induction line with
  | nil => rfl
  | cons byte line ih =>
      rw [List.mem_cons, not_or] at plain
      rw [List.length_cons, List.cons_append, fgets, if_neg (Ne.symm plain.1), ih plain.2]

/-- A line that fills the buffer takes two passes. -/
def readsOf (room : Nat) (line : List UInt8) : List (List UInt8) :=
  if line.length = room then [line, [10]] else [line ++ [10]]

theorem yields_fileOf {room : Nat} (positive : 1 ≤ room) {lines : List (List UInt8)}
    (fitting : ∀ line ∈ lines, 10 ∉ line ∧ line.length ≤ room) :
    Yields (fgets room) (fileOf lines) (lines.flatMap (readsOf room)) := by
  induction lines with
  | nil => exact .done
  | cons line rest ih =>
      have later := ih fun other member => fitting other (List.mem_cons_of_mem _ member)
      obtain ⟨plain, bounded⟩ := fitting line List.mem_cons_self
      have text : fileOf (line :: rest) = line ++ 10 :: fileOf rest := by
        simp [fileOf]
      rw [text, List.flatMap_cons, readsOf]
      split
      · rename_i full
        have filled : line ≠ [] := List.ne_nil_of_length_pos (by omega)
        have ending : fgets room (10 :: fileOf rest) = ([10], fileOf rest) :=
          fgets_line positive List.not_mem_nil (fileOf rest)
        exact .read (full ▸ fgets_full plain (fileOf rest)) filled
          (.read ending (List.cons_ne_nil _ _) later)
      · exact .read (fgets_line (by omega) plain (fileOf rest)) (by simp) later

theorem reads_fileOf {size : Nat} (some_room : 2 ≤ size) {lines : List (List UInt8)}
    (fitting : ∀ line ∈ lines, 10 ∉ line ∧ line.length ≤ size - 1) :
    reads size (fileOf lines) = lines.flatMap (readsOf (size - 1)) := by
  have yields := yields_fileOf (by omega) fitting
  have ends : (fgets (size - 1) []).1 = [] := by rw [fgets]
  exact pieces_of_yields yields ends (yields.length_le (fgets_append (size - 1)))

theorem readsOf_length (room : Nat) (lines : List (List UInt8)) :
    (lines.flatMap (readsOf room)).length =
      lines.length + lines.countP fun line => line.length = room := by
  induction lines with
  | nil => rfl
  | cons line rest ih =>
      rw [List.flatMap_cons, List.length_append, ih, List.countP_cons, List.length_cons, readsOf]
      split
      · rename_i full
        simp only [full, decide_true, if_true, List.length_cons, List.length_nil]
        omega
      · rename_i short
        simp only [short, decide_false, Bool.false_eq_true, if_false, List.length_cons,
          List.length_nil]
        omega

end DirtyCode.Lib
