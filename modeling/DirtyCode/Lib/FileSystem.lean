import Mathlib

/-!
Files of a POSIX file system: names, inodes and descriptors. Every byte carries the
number of the write that put it there, so that an overwritten byte never looks like
the one before.
-/

namespace DirtyCode.Lib

abbrev Path := List Char

structure Stamped where
  byte : UInt8
  stamp : Nat
  deriving DecidableEq

structure FileSystem where
  names : Path → Option Nat
  link : Nat → Path
  content : Nat → List Stamped
  inodes : Nat
  writes : Nat
  allocated : ∀ path inode, names path = some inode → inode < inodes
  linked : ∀ path inode, names path = some inode → link inode = path
  unused : ∀ inode, inodes ≤ inode → content inode = []
  stamped : ∀ inode, ∀ byte ∈ content inode, byte.stamp < writes

structure Descriptor where
  inode : Nat
  offset : Nat
  append : Bool
  deriving DecidableEq

namespace FileSystem

variable (fs : FileSystem)

def size (inode : Nat) : Nat := (fs.content inode).length

/-- The name behind `/proc/self/fd`. -/
def readlink (inode : Nat) : Path :=
  if fs.names (fs.link inode) = some inode then fs.link inode
  else fs.link inode ++ [' ', '(', 'd', 'e', 'l', 'e', 't', 'e', 'd', ')']

def create (path : Path) (absent : fs.names path = none) : FileSystem where
  names := Function.update fs.names path (some fs.inodes)
  link := Function.update fs.link fs.inodes path
  content := fs.content
  inodes := fs.inodes + 1
  writes := fs.writes
  allocated := by
    intro other inode found
    by_cases same : other = path
    · subst same
      rw [Function.update_self] at found
      obtain rfl := Option.some.inj found
      exact Nat.lt_succ_self _
    · rw [Function.update_of_ne same] at found
      exact Nat.lt_succ_of_lt (fs.allocated other inode found)
  linked := by
    intro other inode found
    by_cases same : other = path
    · subst same
      rw [Function.update_self] at found
      obtain rfl := Option.some.inj found
      exact Function.update_self _ _ _
    · rw [Function.update_of_ne same] at found
      rw [Function.update_of_ne (Nat.ne_of_lt (fs.allocated other inode found))]
      exact fs.linked other inode found
  unused := fun inode above => fs.unused inode (Nat.le_of_succ_le above)
  stamped := fs.stamped

/-- `open` with `O_CREAT`. -/
def openFile (path : Path) (append : Bool) : Descriptor × FileSystem :=
  match found : fs.names path with
  | some inode => (⟨inode, 0, append⟩, fs)
  | none => (⟨fs.inodes, 0, append⟩, fs.create path found)

def remove (path : Path) : FileSystem where
  names := Function.update fs.names path none
  link := fs.link
  content := fs.content
  inodes := fs.inodes
  writes := fs.writes
  allocated := by
    intro other inode found
    by_cases same : other = path
    · subst same
      rw [Function.update_self] at found
      contradiction
    · rw [Function.update_of_ne same] at found
      exact fs.allocated other inode found
  linked := by
    intro other inode found
    by_cases same : other = path
    · subst same
      rw [Function.update_self] at found
      contradiction
    · rw [Function.update_of_ne same] at found
      exact fs.linked other inode found
  unused := fs.unused
  stamped := fs.stamped

def move (source target : Path) (inode : Nat) (found : fs.names source = some inode)
    (apart : source ≠ target) : FileSystem where
  names := Function.update (Function.update fs.names source none) target (some inode)
  link := Function.update fs.link inode target
  content := fs.content
  inodes := fs.inodes
  writes := fs.writes
  allocated := by
    intro other held there
    by_cases same : other = target
    · subst same
      rw [Function.update_self] at there
      obtain rfl := Option.some.inj there
      exact fs.allocated source inode found
    · rw [Function.update_of_ne same] at there
      by_cases gone : other = source
      · subst gone
        rw [Function.update_self] at there
        contradiction
      · rw [Function.update_of_ne gone] at there
        exact fs.allocated other held there
  linked := by
    intro other held there
    by_cases same : other = target
    · subst same
      rw [Function.update_self] at there
      obtain rfl := Option.some.inj there
      exact Function.update_self _ _ _
    · rw [Function.update_of_ne same] at there
      by_cases gone : other = source
      · subst gone
        rw [Function.update_self] at there
        contradiction
      · rw [Function.update_of_ne gone] at there
        have different : held ≠ inode := by
          rintro rfl
          exact gone ((fs.linked other held there).symm.trans (fs.linked source held found))
        rw [Function.update_of_ne different]
        exact fs.linked other held there
  unused := fs.unused
  stamped := fs.stamped

def rename (source target : Path) : FileSystem :=
  match found : fs.names source with
  | none => fs
  | some inode => if apart : source = target then fs else fs.move source target inode found apart

def stampAll (stamp : Nat) (bytes : List UInt8) : List Stamped :=
  bytes.map fun byte => { byte := byte, stamp := stamp }

/-- The bytes from `start` on, behind zeros where the file was shorter. -/
def overwrite (old : List Stamped) (start stamp : Nat) (bytes : List UInt8) : List Stamped :=
  (old ++ stampAll stamp (List.replicate (start - old.length) 0)).take start ++
    (stampAll stamp bytes ++ old.drop (start + bytes.length))

theorem stamp_of_mem_stampAll {stamp : Nat} {bytes : List UInt8} {byte : Stamped}
    (member : byte ∈ stampAll stamp bytes) : byte.stamp = stamp := by
  obtain ⟨plain, -, rfl⟩ := List.mem_map.mp member
  rfl

theorem stamp_overwrite {old : List Stamped} {start stamp : Nat} {bytes : List UInt8}
    (before : ∀ byte ∈ old, byte.stamp < stamp) :
    ∀ byte ∈ overwrite old start stamp bytes, byte.stamp < stamp + 1 := by
  intro byte member
  rcases List.mem_append.mp member with inside | later
  · rcases List.mem_append.mp (List.mem_of_mem_take inside) with held | padding
    · exact Nat.lt_succ_of_lt (before byte held)
    · rw [stamp_of_mem_stampAll padding]
      exact Nat.lt_succ_self _
  · rcases List.mem_append.mp later with fresh | behind
    · rw [stamp_of_mem_stampAll fresh]
      exact Nat.lt_succ_self _
    · exact Nat.lt_succ_of_lt (before byte (List.mem_of_mem_drop behind))

def store (inode : Nat) (known : inode < fs.inodes) (start : Nat) (bytes : List UInt8) :
    FileSystem where
  names := fs.names
  link := fs.link
  content := Function.update fs.content inode
    (overwrite (fs.content inode) start fs.writes bytes)
  inodes := fs.inodes
  writes := fs.writes + 1
  allocated := fs.allocated
  linked := fs.linked
  unused := by
    intro other above
    rw [Function.update_of_ne (Nat.ne_of_gt (Nat.lt_of_lt_of_le known above))]
    exact fs.unused other above
  stamped := by
    intro other byte member
    by_cases same : other = inode
    · subst same
      rw [Function.update_self] at member
      exact stamp_overwrite (fs.stamped other) byte member
    · rw [Function.update_of_ne same] at member
      exact Nat.lt_succ_of_lt (fs.stamped other byte member)

def write (descriptor : Descriptor) (bytes : List UInt8) : Descriptor × FileSystem :=
  let start := if descriptor.append then fs.size descriptor.inode else descriptor.offset
  if known : descriptor.inode < fs.inodes then
    ({ descriptor with offset := start + bytes.length },
      fs.store descriptor.inode known start bytes)
  else (descriptor, fs)

def dotLast : Path := ['.', 'l', 'a', 's', 't']

/-- One change of a file system whose files are only ever extended or rotated. -/
inductive Change : FileSystem → FileSystem → Prop
  | extend (fs inode known start bytes) : fs.size inode ≤ start →
      Change fs (fs.store inode known start bytes)
  | create (fs path absent) : Change fs (fs.create path absent)
  | rotate (fs path) : Change fs ((fs.remove (path ++ dotLast)).rename path (path ++ dotLast))

def Grows : FileSystem → FileSystem → Prop := Relation.ReflTransGen Change

theorem openFile_of_some {path : Path} {inode : Nat} (found : fs.names path = some inode)
    (append : Bool) : fs.openFile path append = (⟨inode, 0, append⟩, fs) := by
  unfold openFile
  split
  · rename_i other there
    rw [found] at there
    obtain rfl := Option.some.inj there
    rfl
  · rename_i absent
    rw [found] at absent
    contradiction

theorem openFile_of_none {path : Path} (absent : fs.names path = none) (append : Bool) :
    fs.openFile path append = (⟨fs.inodes, 0, append⟩, fs.create path absent) := by
  unfold openFile
  split
  · rename_i inode there
    rw [absent] at there
    contradiction
  · rfl

theorem overwrite_of_end {old : List Stamped} {start : Nat} (behind : old.length ≤ start)
    (stamp : Nat) (bytes : List UInt8) :
    overwrite old start stamp bytes =
      old ++ (stampAll stamp (List.replicate (start - old.length) 0) ++ stampAll stamp bytes) := by
  have full : (old ++ stampAll stamp (List.replicate (start - old.length) 0)).length = start := by
    simp only [List.length_append, stampAll, List.length_map, List.length_replicate]
    omega
  have nothing : old.drop (start + bytes.length) = [] := List.drop_eq_nil_of_le (by omega)
  rw [overwrite, List.take_of_length_le full.le, nothing, List.append_nil, List.append_assoc]

theorem length_overwrite_of_end {old : List Stamped} {start : Nat} (behind : old.length ≤ start)
    (stamp : Nat) (bytes : List UInt8) :
    (overwrite old start stamp bytes).length = start + bytes.length := by
  rw [overwrite_of_end behind]
  simp only [List.length_append, stampAll, List.length_map, List.length_replicate]
  omega

theorem rename_content (source target : Path) :
    (fs.rename source target).content = fs.content := by
  unfold rename
  split
  · rfl
  · split
    · rfl
    · rfl

theorem rename_inodes (source target : Path) : (fs.rename source target).inodes = fs.inodes := by
  unfold rename
  split
  · rfl
  · split
    · rfl
    · rfl

theorem rename_source {source target : Path} (apart : source ≠ target) :
    (fs.rename source target).names source = none := by
  unfold rename
  split
  · assumption
  · rw [dif_neg apart]
    simp only [move, Function.update_of_ne apart, Function.update_self]

theorem readlink_of_name {path : Path} {inode : Nat} (found : fs.names path = some inode) :
    fs.readlink inode = path := by
  have link := fs.linked path inode found
  rw [readlink, link, if_pos found]

theorem names_of_readlink {path : Path} {inode : Nat} (shown : fs.readlink inode = path)
    (plain : path.getLast? ≠ some ')') : fs.names path = some inode := by
  unfold readlink at shown
  split at shown
  · rename_i found
    exact shown ▸ found
  · rw [← shown] at plain
    simp at plain

theorem rename_other {source target path : Path} (first : path ≠ source) (second : path ≠ target) :
    (fs.rename source target).names path = fs.names path := by
  unfold rename
  split
  · rfl
  · split
    · rfl
    · simp only [move, Function.update_of_ne first, Function.update_of_ne second]

theorem rename_target {source target : Path} {inode : Nat} (found : fs.names source = some inode)
    (apart : source ≠ target) : (fs.rename source target).names target = some inode := by
  unfold rename
  split
  · rename_i absent
    rw [found] at absent
    contradiction
  · rename_i other there
    rw [found] at there
    obtain rfl := Option.some.inj there
    rw [dif_neg apart]
    simp only [move, Function.update_self]

theorem remove_other {removed path : Path} (apart : path ≠ removed) :
    (fs.remove removed).names path = fs.names path := Function.update_of_ne apart _ _

theorem create_other {created path : Path} (absent : fs.names created = none)
    (apart : path ≠ created) : (fs.create created absent).names path = fs.names path :=
  Function.update_of_ne apart _ _

theorem create_self {created : Path} (absent : fs.names created = none) :
    (fs.create created absent).names created = some fs.inodes := Function.update_self _ _ _

theorem Change.prefix_ {before after : FileSystem} (change : Change before after) (inode : Nat) :
    before.content inode <+: after.content inode := by
  cases change with
  | extend held known start bytes behind =>
      by_cases same : inode = held
      · subst same
        simp only [store, Function.update_self]
        rw [overwrite_of_end behind]
        exact List.prefix_append _ _
      · simp only [store, Function.update_of_ne same]
        exact List.prefix_rfl
  | create path absent => exact List.prefix_rfl
  | rotate path =>
      rw [rename_content]
      exact List.prefix_rfl

theorem Grows.prefix_ {before after : FileSystem} (grows : Grows before after) (inode : Nat) :
    before.content inode <+: after.content inode := by
  induction grows with
  | refl => exact List.prefix_rfl
  | tail _ change ih => exact ih.trans (change.prefix_ inode)

theorem not_grows_of_overwrite {inode start : Nat} {bytes : List UInt8}
    (known : inode < fs.inodes) (inside : start < fs.size inode) (nonempty : bytes ≠ []) :
    ¬Grows fs (fs.store inode known start bytes) := by
  intro grows
  obtain ⟨rest, kept⟩ := grows.prefix_ inode
  obtain ⟨first, others, rfl⟩ := List.exists_cons_of_ne_nil nonempty
  simp only [store, Function.update_self] at kept
  have long : start < (fs.content inode).length := inside
  have old : (overwrite (fs.content inode) start fs.writes (first :: others))[start]? =
      (fs.content inode)[start]? := by
    rw [← kept, List.getElem?_append_left long]
  have head : ((fs.content inode) ++ stampAll fs.writes
      (List.replicate (start - (fs.content inode).length) 0)).take start =
        (fs.content inode).take start := by
    rw [List.take_append_of_le_length long.le]
  have size : ((fs.content inode).take start).length = start := by
    rw [List.length_take]
    exact Nat.min_eq_left long.le
  have new : (overwrite (fs.content inode) start fs.writes (first :: others))[start]? =
      some ⟨first, fs.writes⟩ := by
    rw [overwrite, head, List.getElem?_append_right size.le, size, Nat.sub_self]
    rfl
  rw [new, List.getElem?_eq_getElem long] at old
  have earlier := fs.stamped inode _ (List.getElem_mem long)
  rw [← Option.some.inj old] at earlier
  exact Nat.lt_irrefl _ earlier

end FileSystem

end DirtyCode.Lib
