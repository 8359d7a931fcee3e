import DirtyCode.Lib.DirTree
import DirtyCode.Lib.Machine

/-!
`mkpath`, which the log and configuration servers and `disklist` share, called by several
threads at once.
-/

namespace DirtyCode.Mkpath

open Lib

/-- The names in a path text; a doubled `/` counts once. -/
def names (text : List UInt8) : List (List UInt8) := (text.splitOn 47).filter (· ≠ [])

/-- What is neither empty nor ended early, and has no `.` or `..` among its names. -/
structure FilePath where
  text : List UInt8
  nonempty : text ≠ []
  ended : 0 ∉ text
  plain : ∀ name ∈ names text, name ≠ [46] ∧ name ≠ [46, 46]

-- a relative path starts at the working directory
def route (cwd : List (List UInt8)) (text : List UInt8) : List (List UInt8) :=
  if text.head? = some 47 then names text else cwd ++ names text

/-- `strchr(text + start, '/')`. -/
def strchr (text : List UInt8) (start : Nat) : Option Nat :=
  ((text.drop start).findIdx? (· = 47)).map (start + ·)

inductive At
  | slash (p : Nat) -- `mkdir` of what is in front of it is next
  | returned (value : Int)
  deriving DecidableEq, Repr

structure Call where
  filePath : List UInt8
  at_ : At
  deriving DecidableEq, Repr

def goOn (filePath : List UInt8) (start : Nat) : Call :=
  match strchr filePath start with
  | some p => ⟨filePath, .slash p⟩
  | none => ⟨filePath, .returned 0⟩

def begin (path : FilePath) : Call := goOn path.text 1

def Call.pass (cwd : List (List UInt8)) (refused : Bool) (tree : DirTree) (call : Call) :
    Option (DirTree × Call) :=
  match call.at_ with
  | .returned _ => none
  | .slash p =>
      let cut := call.filePath.set p 0
      match tree.mkdir refused (route cwd (cut.takeWhile (· ≠ 0))) with
      | .made tree => some (tree, goOn (cut.set p 47) (p + 1))
      | .present => some (tree, goOn (cut.set p 47) (p + 1))
      | .failed => some (tree, ⟨cut.set p 47, .returned (-1)⟩)

structure State where
  tree : DirTree
  calls : List Call

structure Pass where
  call : Nat
  refused : Bool

def State.step (cwd : List (List UInt8)) (state : State) (pass : Pass) : Option State :=
  match state.calls[pass.call]? with
  | none => none
  | some call => (call.pass cwd pass.refused state.tree).map fun after =>
      ⟨after.1, state.calls.set pass.call after.2⟩

def start (tree : DirTree) (paths : List FilePath) : State := ⟨tree, paths.map begin⟩

def machine (cwd : List (List UInt8)) (tree : DirTree) (paths : List FilePath) :
    Machine State Pass where
  init state := state = start tree paths
  step := State.step cwd

/-- The directories that a path needs: all that is in front of a `/` but the first byte. -/
def Needs (text : List UInt8) (p : Nat) : Prop := 1 ≤ p ∧ text[p]? = some 47

section Texts

variable {text : List UInt8} {start p q : Nat} {cwd : List (List UInt8)}

theorem strchr_some (found : strchr text start = some p) :
    start ≤ p ∧ text[p]? = some 47 ∧ ∀ k, start ≤ k → k < p → text[k]? ≠ some 47 := by
  obtain ⟨offset, index, rfl⟩ := Option.map_eq_some_iff.mp found
  obtain ⟨inside, here, before⟩ := List.findIdx?_eq_some_iff_getElem.mp index
  refine ⟨Nat.le_add_right _ _, ?_, ?_⟩
  · rw [← List.getElem?_drop, List.getElem?_eq_getElem inside, of_decide_eq_true here]
  · intro k lower upper slash
    obtain ⟨less, rfl⟩ := Nat.exists_eq_add_of_le lower
    rw [← List.getElem?_drop] at slash
    obtain ⟨within, same⟩ := List.getElem?_eq_some_iff.mp slash
    exact before less (by omega) (decide_eq_true same)

theorem strchr_none (found : strchr text start = none) (k : Nat) (behind : start ≤ k) :
    text[k]? ≠ some 47 := by
  intro slash
  obtain ⟨offset, rfl⟩ := Nat.exists_eq_add_of_le behind
  rw [← List.getElem?_drop] at slash
  have none := List.findIdx?_eq_none_iff.mp (Option.map_eq_none_iff.mp found) 47
    (List.mem_of_getElem? slash)
  simp at none

theorem names_append (front behind : List UInt8) :
    names (front ++ 47 :: behind) = names front ++ names behind := by
  simp only [names, List.splitOn_eq_splitOnP]
  rw [List.splitOnP_append_cons _ _ (by simp), List.filter_append]

theorem names_segment {segment : List UInt8} (unbroken : 47 ∉ segment) :
    names segment = if segment = [] then [] else [segment] := by
  have single : segment.splitOn 47 = [segment] := by
    apply List.splitOn_eq_singleton_of_beq_eq_false
    intro byte member
    simp only [beq_eq_false_iff_ne]
    rintro rfl
    exact unbroken member
  rw [names, single]
  by_cases empty : segment = []
  · simp [empty]
  · simp [empty]

theorem take_slash (slash : text[p]? = some 47) (ahead : p < q) :
    text.take q = text.take p ++ 47 :: (text.drop (p + 1)).take (q - (p + 1)) := by
  obtain ⟨within, here⟩ := List.getElem?_eq_some_iff.mp slash
  have parts := List.take_append_drop p (text.take q)
  rw [List.take_take, Nat.min_eq_left ahead.le, List.drop_take, List.drop_eq_getElem_cons within,
    here, show q - p = q - (p + 1) + 1 by omega, List.take_succ_cons] at parts
  exact parts.symm

theorem names_next (slash : text[p]? = some 47) (ahead : p < q) (inside : q < text.length)
    (between : ∀ k, p + 1 ≤ k → k < q → text[k]? ≠ some 47) :
    ∃ more, names (text.take q) = names (text.take p) ++ more ∧ more.length ≤ 1 := by
  have unbroken : 47 ∉ (text.drop (p + 1)).take (q - (p + 1)) := by
    intro member
    obtain ⟨k, below, same⟩ := List.getElem_of_mem member
    rw [List.length_take, List.length_drop] at below
    rw [List.getElem_take, List.getElem_drop] at same
    exact between (p + 1 + k) (by omega) (by omega)
      (List.getElem?_eq_some_iff.mpr ⟨by omega, same⟩)
  refine ⟨_, by rw [take_slash slash ahead, names_append], ?_⟩
  rw [names_segment unbroken]
  split <;> simp

theorem names_first (inside : q ≤ text.length)
    (before : ∀ k, 1 ≤ k → k < q → text[k]? ≠ some 47) : (names (text.take q)).length ≤ 1 := by
  cases text with
  | nil => simp [names]
  | cons byte rest =>
      cases q with
      | zero => simp [names]
      | succ q =>
          have unbroken : 47 ∉ rest.take q := by
            intro member
            obtain ⟨k, below, same⟩ := List.getElem_of_mem member
            rw [List.length_take] at below
            rw [List.getElem_take] at same
            exact before (k + 1) (by omega) (by omega)
              (List.getElem?_eq_some_iff.mpr ⟨by simp only [List.length_cons]; omega, same⟩)
          rw [List.take_succ_cons]
          by_cases slash : byte = 47
          · have apart := names_append [] (rest.take q)
            rw [slash, List.nil_append] at *
            rw [apart, names_segment unbroken]
            split <;> simp [names]
          · have whole : 47 ∉ byte :: rest.take q := by
              simpa [eq_comm, slash] using unbroken
            rw [names_segment whole]
            split <;> simp

def base (cwd : List (List UInt8)) (text : List UInt8) : List (List UInt8) :=
  if text.head? = some 47 then [] else cwd

theorem route_take (some_ : 1 ≤ p) :
    route cwd (text.take p) = base cwd text ++ names (text.take p) := by
  have head : (text.take p).head? = text.head? := by
    obtain ⟨more, rfl⟩ := Nat.exists_eq_add_of_le' some_
    cases text <;> rfl
  rw [route, base, head]
  split <;> rfl

theorem cut_text (ended : 0 ∉ text) (slash : text[p]? = some 47) :
    (text.set p 0).takeWhile (· ≠ 0) = text.take p ∧ (text.set p 0).set p 47 = text := by
  obtain ⟨inside, here⟩ := List.getElem?_eq_some_iff.mp slash
  constructor
  · rw [List.set_eq_take_append_cons_drop, if_pos inside, List.takeWhile_append_of_pos]
    · simp
    · intro byte member
      have other : byte ≠ 0 := by
        rintro rfl
        exact ended (List.mem_of_mem_take member)
      exact decide_eq_true other
  · rw [List.set_set, ← here, List.set_getElem_self]

end Texts

/-- Something stands at every place where the path needs a directory. -/
def Present (cwd : List (List UInt8)) (tree : DirTree) (text : List UInt8) : Prop :=
  ∀ p, Needs text p → (tree.kind (route cwd (text.take p))).isSome

/-- Every directory that the path needs is there, but that a file of the first tree may
stand at the last place: `mkdir` gives `EEXIST` for it, too. -/
def Made (cwd : List (List UInt8)) (first tree : DirTree) (text : List UInt8) : Prop :=
  ∀ p, Needs text p → tree.kind (route cwd (text.take p)) = some true ∨
    first.kind (route cwd (text.take p)) = some false ∧
      ∀ q, Needs text q → route cwd (text.take q) <+: route cwd (text.take p)

/-- A file stands where the path needs a directory with something in it. -/
def Blocked (cwd : List (List UInt8)) (tree : DirTree) (text : List UInt8) : Prop :=
  ∃ p, Needs text p ∧ ∃ above more, more ≠ [] ∧ route cwd (text.take p) = above ++ more ∧
    tree.kind above = some false

/-- Nothing has been added but directories that the paths need. -/
def Grown (cwd : List (List UInt8)) (first : DirTree) (paths : List FilePath) (tree : DirTree) :
    Prop :=
  ∀ place, tree.kind place = first.kind place ∨ (first.kind place = none ∧
    tree.kind place = some true ∧
    ∃ path ∈ paths, ∃ p, Needs path.text p ∧ place = route cwd (path.text.take p))

/-- A call in front of a `/`: all directories before it are there, and there is one name at
most behind the last of them. -/
structure Under (cwd : List (List UInt8)) (tree : DirTree) (text : List UInt8) (p : Nat) :
    Prop where
  needed : Needs text p
  made : ∀ q < p, Needs text q → (tree.kind (route cwd (text.take q))).isSome
  above : ∃ last more, (tree.kind last).isSome ∧ route cwd (text.take p) = last ++ more ∧
    more.length ≤ 1

def At.Holds (cwd : List (List UInt8)) (first tree : DirTree) (mayFail : Prop)
    (text : List UInt8) : At → Prop
  | .slash p => Under cwd tree text p
  | .returned value => value = 0 ∧ Present cwd tree text ∨
      value = -1 ∧ (mayFail ∨ Blocked cwd first text)

structure Call.Holds (cwd : List (List UInt8)) (first tree : DirTree) (mayFail : Prop)
    (path : FilePath) (call : Call) : Prop where
  restored : call.filePath = path.text
  at_ : call.at_.Holds cwd first tree mayFail path.text

/-- The state of all calls, of which those in `mayFail` can be refused a directory. -/
structure Inv (cwd : List (List UInt8)) (first : DirTree) (paths : List FilePath)
    (mayFail : Nat → Prop) (state : State) : Prop where
  grown : Grown cwd first paths state.tree
  count : state.calls.length = paths.length
  calls : ∀ i (call : Call) path, state.calls[i]? = some call → paths[i]? = some path →
    call.Holds cwd first state.tree (mayFail i) path

section Passes

variable {cwd : List (List UInt8)} {first tree later : DirTree} {mayFail : Prop}
  {path : FilePath} {call : Call} {paths : List FilePath} {text : List UInt8} {p : Nat}

theorem Call.Holds.extend (holds : call.Holds cwd first tree mayFail path)
    (extends_ : later.Extends tree) : call.Holds cwd first later mayFail path := by
  obtain ⟨restored, at_⟩ := holds
  refine ⟨restored, ?_⟩
  cases place : call.at_ with
  | slash p =>
      rw [place] at at_
      obtain ⟨needed, made, last, more, present, split, short⟩ := at_
      exact ⟨needed, fun q before needs => extends_.isSome (made q before needs),
        last, more, extends_.isSome present, split, short⟩
  | returned value =>
      rw [place] at at_
      rcases at_ with ⟨zero, made⟩ | failed
      · exact Or.inl ⟨zero, fun q needs => extends_.isSome (made q needs)⟩
      · exact Or.inr failed

theorem goOn_holds {start : Nat} {last : List (List UInt8)} (present : (tree.kind last).isSome)
    (made : ∀ q < start, Needs path.text q →
      (tree.kind (route cwd (path.text.take q))).isSome)
    (ahead : ∀ q, strchr path.text start = some q → 1 ≤ q ∧
      ∃ more, route cwd (path.text.take q) = last ++ more ∧ more.length ≤ 1) :
    (goOn path.text start).Holds cwd first tree mayFail path := by
  rw [goOn]
  cases found : strchr path.text start with
  | none =>
      refine ⟨rfl, Or.inl ⟨rfl, fun q needs => ?_⟩⟩
      by_cases before : q < start
      · exact made q before needs
      · exact absurd needs.2 (strchr_none found q (by omega))
  | some q =>
      obtain ⟨some_, more, split, short⟩ := ahead q found
      obtain ⟨-, slash, between⟩ := strchr_some found
      refine ⟨rfl, ⟨some_, slash⟩, fun k before needs => ?_, last, more, present, split, short⟩
      by_cases earlier : k < start
      · exact made k earlier needs
      · exact absurd needs.2 (between k (by omega) before)

theorem begin_holds (working : tree.kind cwd = some true) :
    (begin path).Holds cwd first tree mayFail path := by
  have present : (tree.kind (base cwd path.text)).isSome := by
    rw [base]
    split
    · rw [tree.root]
      rfl
    · rw [working]
      rfl
  refine goOn_holds present (fun q before needs => absurd needs.1 (by omega)) ?_
  intro q found
  obtain ⟨some_, slash, before⟩ := strchr_some found
  have inside := (List.getElem?_eq_some_iff.mp slash).1
  exact ⟨some_, _, route_take some_, names_first inside.le before⟩

theorem Under.goOn_holds (under : Under cwd tree path.text p) (extends_ : later.Extends tree)
    (present : (later.kind (route cwd (path.text.take p))).isSome) :
    (goOn path.text (p + 1)).Holds cwd first later mayFail path := by
  refine Mkpath.goOn_holds present ?_ ?_
  · intro q before needs
    rcases Nat.lt_succ_iff_lt_or_eq.mp before with earlier | rfl
    · exact extends_.isSome (under.made q earlier needs)
    · exact present
  · intro q found
    obtain ⟨ahead, slash, between⟩ := strchr_some found
    have inside := (List.getElem?_eq_some_iff.mp slash).1
    obtain ⟨more, split, short⟩ := names_next under.needed.2 ahead inside between
    have some_ := under.needed.1
    refine ⟨by omega, more, ?_, short⟩
    rw [route_take (by omega), route_take some_, split, List.append_assoc]

theorem Grown.file (grown : Grown cwd first paths tree) {place : List (List UInt8)}
    (file : tree.kind place = some false) : first.kind place = some false := by
  rcases grown place with same | ⟨-, directory, -⟩
  · rw [← same, file]
  · rw [directory] at file
    cases file

theorem Under.blocked (under : Under cwd tree text p) (grown : Grown cwd first paths tree)
    (absent : tree.kind (route cwd (text.take p)) = none)
    (noParent : tree.kind (route cwd (text.take p)).dropLast ≠ some true) :
    Blocked cwd first text := by
  obtain ⟨last, more, present, split, short⟩ := under.above
  obtain ⟨name, rfl⟩ : ∃ name, more = [name] := by
    match more, short with
    | [], _ =>
        rw [split, List.append_nil] at absent
        rw [absent] at present
        contradiction
    | [name], _ => exact ⟨name, rfl⟩
  rw [split, List.dropLast_concat] at noParent
  refine ⟨p, under.needed, last, [name], List.cons_ne_nil _ _, split, grown.file ?_⟩
  obtain ⟨kind, found⟩ := Option.isSome_iff_exists.mp present
  cases kind with
  | true => exact absurd found noParent
  | false => exact found

theorem Grown.add (grown : Grown cwd first paths tree) (member : path ∈ paths)
    (needed : Needs path.text p) {place : List (List UInt8)}
    (here : route cwd (path.text.take p) = place) (absent : tree.kind place = none)
    (above : tree.kind place.dropLast = some true) :
    Grown cwd first paths (tree.add place absent above) := by
  intro other
  by_cases same : other = place
  · refine Or.inr ⟨?_, ?_, path, member, p, needed, same.trans here.symm⟩
    · rcases grown other with kept | ⟨none, -⟩
      · rw [← kept, same, absent]
      · exact none
    · rw [same, DirTree.kind_add_self]
  · rw [DirTree.kind_add_other absent above same]
    exact grown other

theorem pass_slash {refused : Bool} (restored : call.filePath = path.text)
    (place : call.at_ = .slash p) (needed : Needs path.text p) :
    call.pass cwd refused tree =
      match tree.mkdir refused (route cwd (path.text.take p)) with
      | .made tree => some (tree, goOn path.text (p + 1))
      | .present => some (tree, goOn path.text (p + 1))
      | .failed => some (tree, ⟨path.text, .returned (-1)⟩) := by
  obtain ⟨cut, whole⟩ := cut_text path.ended needed.2
  rw [Call.pass, place, restored]
  simp only [cut, whole]

/-- One pass of a call, in whatever state the other calls have brought the tree. -/
theorem pass_holds {refused : Bool} {after : Call} (holds : call.Holds cwd first tree mayFail path)
    (grown : Grown cwd first paths tree) (member : path ∈ paths)
    (may : refused = true → mayFail)
    (passed : call.pass cwd refused tree = some (later, after)) :
    Grown cwd first paths later ∧ later.Extends tree ∧
      after.Holds cwd first later mayFail path := by
  obtain ⟨restored, at_⟩ := holds
  cases place : call.at_ with
  | returned value =>
      rw [Call.pass, place] at passed
      cases passed
  | slash p =>
      rw [place] at at_
      have under : Under cwd tree path.text p := at_
      rw [pass_slash restored place under.needed] at passed
      cases outcome : tree.mkdir refused (route cwd (path.text.take p)) with
      | made added =>
          rw [outcome] at passed
          obtain ⟨rfl, rfl⟩ := Prod.mk.inj (Option.some.inj passed)
          obtain ⟨absent, above, rfl⟩ := DirTree.mkdir_made outcome
          have more := DirTree.extends_add absent above
          refine ⟨grown.add member under.needed rfl absent above, more,
            under.goOn_holds more ?_⟩
          rw [DirTree.kind_add_self]
          rfl
      | present =>
          rw [outcome] at passed
          obtain ⟨rfl, rfl⟩ := Prod.mk.inj (Option.some.inj passed)
          have same : tree.Extends tree := fun _ _ => rfl
          exact ⟨grown, same, under.goOn_holds same (DirTree.mkdir_present outcome)⟩
      | failed =>
          rw [outcome] at passed
          obtain ⟨rfl, rfl⟩ := Prod.mk.inj (Option.some.inj passed)
          refine ⟨grown, fun _ _ => rfl, rfl, Or.inr ⟨rfl, ?_⟩⟩
          rcases DirTree.mkdir_failed outcome with system | ⟨absent, noParent⟩
          · exact Or.inl (may system)
          · exact Or.inr (under.blocked grown absent noParent)

end Passes

theorem inv_start {cwd : List (List UInt8)} {first : DirTree} (paths : List FilePath)
    (mayFail : Nat → Prop) (working : first.kind cwd = some true) :
    Inv cwd first paths mayFail (start first paths) where
  grown := fun _ => Or.inl rfl
  count := List.length_map ..
  calls := by
    intro i call path here listed
    rw [start, List.getElem?_map, listed, Option.map_some] at here
    rw [← Option.some.inj here]
    exact begin_holds working

theorem inv_step {cwd : List (List UInt8)} {first : DirTree} {paths : List FilePath}
    {mayFail : Nat → Prop} {state after : State} {pass : Pass}
    (inv : Inv cwd first paths mayFail state) (may : pass.refused = true → mayFail pass.call)
    (stepped : state.step cwd pass = some after) : Inv cwd first paths mayFail after := by
  rw [State.step] at stepped
  cases here : state.calls[pass.call]? with
  | none =>
      rw [here] at stepped
      cases stepped
  | some call =>
      rw [here] at stepped
      obtain ⟨⟨later, moved⟩, passed, rfl⟩ := Option.map_eq_some_iff.mp stepped
      have inside := (List.getElem?_eq_some_iff.mp here).1
      have listed := List.getElem?_eq_getElem (inv.count ▸ inside)
      obtain ⟨grown, extends_, holds⟩ := pass_holds (inv.calls _ call _ here listed) inv.grown
        (List.getElem_mem _) may passed
      refine ⟨grown, by rw [List.length_set, inv.count], ?_⟩
      intro i other path found listed'
      rw [List.getElem?_set] at found
      by_cases own : pass.call = i
      · subst own
        rw [if_pos rfl, if_pos inside] at found
        rw [← Option.some.inj found, ← Option.some.inj (listed.symm.trans listed')]
        exact holds
      · rw [if_neg own] at found
        exact (inv.calls i other path found listed').extend extends_

/-- What a caller of `mkpath` is told, and what it finds. -/
structure Answered (cwd : List (List UInt8)) (first tree : DirTree) (mayFail : Prop)
    (path : FilePath) (call : Call) : Prop where
  restored : call.filePath = path.text
  value : ∀ value, call.at_ = .returned value → value = 0 ∨ value = -1
  made : call.at_ = .returned 0 → Made cwd first tree path.text ∧ ¬Blocked cwd first path.text
  failed : call.at_ = .returned (-1) → mayFail ∨ Blocked cwd first path.text

section Presence

variable {cwd : List (List UInt8)} {first tree : DirTree} {paths : List FilePath}
  {text : List UInt8} {p q : Nat}

theorem route_prefix (needed : Needs text p) (ahead : p < q) :
    route cwd (text.take p) <+: route cwd (text.take q) := by
  have some_ := needed.1
  rw [route_take some_, route_take (by omega), take_slash needed.2 ahead, names_append]
  exact (List.prefix_append_right_inj _).mpr (List.prefix_append _ _)

/-- Only the last place can hold a file: above what stands there are directories. -/
theorem Present.made (present : Present cwd tree text) (grown : Grown cwd first paths tree) :
    Made cwd first tree text := by
  intro p needed
  obtain ⟨kind, here⟩ := Option.isSome_iff_exists.mp (present p needed)
  cases kind with
  | true => exact Or.inl here
  | false =>
      refine Or.inr ⟨grown.file here, fun q needs => ?_⟩
      rcases Nat.lt_trichotomy q p with before | rfl | behind
      · exact route_prefix needs before
      · exact List.prefix_rfl
      · have above : route cwd (text.take p) <+: route cwd (text.take q) :=
          route_prefix needed behind
        obtain ⟨more, below⟩ := above
        by_cases last : more = []
        · rw [← below, last, List.append_nil]
        · have directory := DirTree.directory_above more last (below ▸ present q needs)
          rw [here] at directory
          cases directory

theorem Present.not_blocked (allPresent : Present cwd tree text)
    (grown : Grown cwd first paths tree) : ¬Blocked cwd first text := by
  rintro ⟨p, needed, above, more, some_, split, file⟩
  have present := allPresent p needed
  rw [split] at present
  have directory := DirTree.directory_above more some_ present
  rcases grown above with same | ⟨none, -⟩
  · rw [same, file] at directory
    cases directory
  · rw [file] at none
    cases none

end Presence

/-- However the passes of any number of calls are mixed, each call gives its text back as it
was, adds nothing but directories that it needs, returns 0 only when they are all there, a
file at the last place apart, and -1 only when the system refused it one or a file was in
the way. -/
theorem mkpath_answers {cwd : List (List UInt8)} {first : DirTree} {paths : List FilePath}
    {mayFail : Nat → Prop} {state : State} (working : first.kind cwd = some true)
    (reached : (machine cwd first paths).Reachable
      (fun _ pass => pass.refused = true → mayFail pass.call) state) :
    Grown cwd first paths state.tree ∧ ∀ (i : Nat) (call : Call) (path : FilePath),
      state.calls[i]? = some call → paths[i]? = some path →
        Answered cwd first state.tree (mayFail i) path call := by
  have inv : Inv cwd first paths mayFail state := by
    apply reached.invariant
    · rintro _ rfl
      exact inv_start paths mayFail working
    · intro state pass after inv may stepped
      exact inv_step inv may stepped
  refine ⟨inv.grown, fun i call path here listed => ?_⟩
  obtain ⟨restored, at_⟩ := inv.calls i call path here listed
  constructor
  · exact restored
  · intro value returned
    rw [returned] at at_
    rcases at_ with ⟨zero, -⟩ | ⟨minus, -⟩
    · exact Or.inl zero
    · exact Or.inr minus
  · intro returned
    rw [returned] at at_
    rcases at_ with ⟨-, made⟩ | ⟨wrong, -⟩
    · exact ⟨made.made inv.grown, made.not_blocked inv.grown⟩
    · cases wrong
  · intro returned
    rw [returned] at at_
    rcases at_ with ⟨wrong, -⟩ | ⟨-, failed⟩
    · cases wrong
    · exact failed

def Call.left (call : Call) : Nat :=
  match call.at_ with
  | .slash p => call.filePath.length - p
  | .returned _ => 0

section Returns

variable {cwd : List (List UInt8)} {first tree later : DirTree} {mayFail : Prop}
  {path : FilePath} {call after : Call} {paths : List FilePath} {state last : State}

theorem goOn_left (text : List UInt8) (start : Nat) :
    (goOn text start).left ≤ text.length - start := by
  rw [goOn]
  cases found : strchr text start with
  | none => exact Nat.zero_le _
  | some p => exact Nat.sub_le_sub_left (strchr_some found).1 _

theorem pass_left {refused : Bool} (holds : call.Holds cwd first tree mayFail path)
    (passed : call.pass cwd refused tree = some (later, after)) : after.left < call.left := by
  obtain ⟨restored, at_⟩ := holds
  cases place : call.at_ with
  | returned value =>
      rw [Call.pass, place] at passed
      cases passed
  | slash p =>
      rw [place] at at_
      have under : Under cwd tree path.text p := at_
      have inside := (List.getElem?_eq_some_iff.mp under.needed.2).1
      have behind := goOn_left path.text (p + 1)
      have here : call.left = path.text.length - p := by rw [Call.left, place, restored]
      rw [pass_slash restored place under.needed] at passed
      split at passed
      · obtain ⟨-, rfl⟩ := Prod.mk.inj (Option.some.inj passed)
        omega
      · obtain ⟨-, rfl⟩ := Prod.mk.inj (Option.some.inj passed)
        omega
      · obtain ⟨-, rfl⟩ := Prod.mk.inj (Option.some.inj passed)
        have none : (⟨path.text, .returned (-1)⟩ : Call).left = 0 := rfl
        omega

theorem step_left {mayFail : Nat → Prop} {pass : Pass} {next : State} {i : Nat}
    (inv : Inv cwd first paths mayFail state) (stepped : state.step cwd pass = some next)
    (here : state.calls[i]? = some call) : ∃ after, next.calls[i]? = some after ∧
      (if pass.call = i then 1 else 0) + after.left ≤ call.left := by
  rw [State.step] at stepped
  cases found : state.calls[pass.call]? with
  | none =>
      rw [found] at stepped
      cases stepped
  | some own =>
      rw [found] at stepped
      obtain ⟨⟨later, moved⟩, passed, rfl⟩ := Option.map_eq_some_iff.mp stepped
      have inside := (List.getElem?_eq_some_iff.mp found).1
      by_cases same : pass.call = i
      · subst same
        obtain rfl := Option.some.inj (found.symm.trans here)
        have listed := List.getElem?_eq_getElem (inv.count ▸ inside)
        have fewer := pass_left (inv.calls _ own _ found listed) passed
        refine ⟨moved, ?_, ?_⟩
        · rw [List.getElem?_set, if_pos rfl, if_pos inside]
        · rw [if_pos rfl]
          omega
      · refine ⟨call, ?_, ?_⟩
        · rw [List.getElem?_set, if_neg same, here]
        · rw [if_neg same, Nat.zero_add]

theorem run_left {labels : List Pass} {i : Nat} (inv : Inv cwd first paths (fun _ => True) state)
    (ran : (machine cwd first paths).run state labels = some last)
    (here : state.calls[i]? = some call) : ∃ after, last.calls[i]? = some after ∧
      labels.countP (fun pass => pass.call = i) + after.left ≤ call.left := by
  induction labels generalizing state call with
  | nil =>
      obtain rfl := Option.some.inj ran
      exact ⟨call, here, by simp⟩
  | cons pass rest ih =>
      obtain ⟨next, stepped, finished⟩ := Option.bind_eq_some_iff.mp ran
      obtain ⟨between, there, one⟩ := step_left inv stepped here
      obtain ⟨after, ended, others⟩ :=
        ih (inv_step inv (fun _ => trivial) stepped) finished there
      refine ⟨after, ended, ?_⟩
      rw [List.countP_cons]
      simp only [decide_eq_true_eq]
      omega

/-- A call is never held up by the others: until it has returned its next pass is possible,
and it takes fewer of them than its text has bytes. -/
theorem mkpath_returns {labels : List Pass} {i : Nat} (working : first.kind cwd = some true)
    (ran : (machine cwd first paths).run (start first paths) labels = some last)
    (listed : paths[i]? = some path) : ∃ call, last.calls[i]? = some call ∧
      labels.countP (fun pass => pass.call = i) < path.text.length ∧
      ((∃ value, call.at_ = .returned value) ∨
        ∀ refused, (last.step cwd ⟨i, refused⟩).isSome) := by
  have inv := inv_start paths (fun _ => True) working
  have begun : (start first paths).calls[i]? = some (begin path) := by
    rw [start, List.getElem?_map, listed, Option.map_some]
  obtain ⟨call, here, fewer⟩ := run_left inv ran begun
  have most := goOn_left path.text 1
  have some_ := List.length_pos_of_ne_nil path.nonempty
  refine ⟨call, here, by rw [begin] at fewer; omega, ?_⟩
  cases place : call.at_ with
  | returned value => exact Or.inl ⟨value, rfl⟩
  | slash p =>
      refine Or.inr fun refused => ?_
      simp only [State.step, here, Call.pass, place, Option.isSome_map]
      split <;> rfl

end Returns

def bareRoot : DirTree where
  kind := fun route => if route = [] then some true else none
  root := rfl
  parent := by simp

def besides : List FilePath :=
  [⟨[47, 97, 47, 120], by decide, by decide, by decide⟩,
    ⟨[47, 97, 47, 121], by decide, by decide, by decide⟩]

def fileRoot : DirTree where
  kind := fun route =>
    if route = [] then some true else if route = [[102]] then some false else none
  root := rfl
  parent route name found := by
    by_cases top : route = []
    · rw [top]
      rfl
    · have deeper : route ++ [name] ≠ [[102]] := by
        intro same
        have lengths := congrArg List.length same
        rw [List.length_append] at lengths
        exact top (List.length_eq_zero_iff.mp (Nat.succ_injective lengths))
      simp [deeper] at found

-- `/f/x` and `/f/g/x` behind them
def fourPaths : List FilePath :=
  besides ++ [⟨[47, 102, 47, 120], by decide, by decide, by decide⟩,
    ⟨[47, 102, 47, 103, 47, 120], by decide, by decide, by decide⟩]

def fourPasses : List Pass := [⟨3, false⟩, ⟨0, false⟩, ⟨2, false⟩, ⟨1, false⟩, ⟨3, false⟩]

/-- The second call meets the directory that the first has made, the third is content with
the file, and the last finds it in its way. -/
theorem mkpath_answers_four : ∃ state : State,
    (machine [] fileRoot fourPaths).run (start fileRoot fourPaths) fourPasses = some state ∧
    state.calls.map Call.at_ = [.returned 0, .returned 0, .returned 0, .returned (-1)] ∧
    Grown [] fileRoot fourPaths state.tree ∧ ∀ (i : Nat) (call : Call) (path : FilePath),
      state.calls[i]? = some call → fourPaths[i]? = some path →
        Answered [] fileRoot state.tree False path call := by
  refine ⟨_, rfl, rfl, ?_⟩
  have reached : (machine [] fileRoot fourPaths).Reachable
      (fun _ pass => pass.refused = true → False) _ :=
    @Machine.Reachable.of_runAllowed _ _ _ _ _ fourPasses _ _ (.start rfl) rfl
  exact @mkpath_answers [] fileRoot fourPaths (fun _ => False) _ rfl reached

theorem mkpath_returns_besides : ∃ last : State,
    (machine [] bareRoot besides).run (start bareRoot besides) [⟨0, false⟩] = some last ∧
    ∃ call : Call, last.calls[1]? = some call ∧
      [(⟨0, false⟩ : Pass)].countP (fun pass => pass.call = 1) < 4 ∧
      ((∃ value, call.at_ = .returned value) ∨
        ∀ refused, (last.step [] ⟨1, refused⟩).isSome) :=
  ⟨_, rfl, @mkpath_returns [] bareRoot ⟨[47, 97, 47, 121], by decide, by decide, by decide⟩
    besides _ [⟨0, false⟩] 1 rfl rfl rfl⟩

end DirtyCode.Mkpath
