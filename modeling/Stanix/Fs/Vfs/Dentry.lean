import Stanix.Fs.Vfs.Attr
import Mathlib.Logic.Function.Basic

/-!
# Dentries and the lookup of a name

`kernel/fs/vfs/vdentry.c`: the kernel keeps a tree of directory entries (dentries) that it has
already asked the file systems for. `vfs_lookup` finds the entry of a name below a directory, in the
tree or else by asking the file system, and goes to the root of what is mounted there.

One task runs at a time here, so that the second search of `vfs_lookup`, under the lock of the
children, finds what the first one found. References to dentries and their eviction are in
`Stanix.Fs.Vfs.DentryLru`. The file systems are a parameter.
-/

namespace Stanix

/-! ## Inodes -/

/-- Source: `S_IFDIR`. -/
def sIFDIR : BitVec 32 := 0o040000#32

/-- Source: `S_IFLNK`. -/
def sIFLNK : BitVec 32 := 0o120000#32

/-- Source: `PERM_EXECUTE`. -/
def permExecute : BitVec 32 := 0o1#32

/-- Source: `PERM_WRITE`. -/
def permWrite : BitVec 32 := 0o2#32

/-- Source: `S_ISDIR`. -/
def sIsDir (mode : BitVec 32) : Prop := mode &&& sIFMT = sIFDIR
  deriving Decidable

/-- Source: `S_ISLNK`. -/
def sIsLnk (mode : BitVec 32) : Prop := mode &&& sIFMT = sIFLNK
  deriving Decidable

/-- The effective ids of the process that makes a call. -/
structure Creds where
  euid : BitVec 32
  egid : BitVec 32

/-- Source: `vfs_user_perm` (`vfs.c:292`), with the attributes that `vfs_getattr` gives. -/
def vfsUserPerm (st : NodeAttr) (uid gid : BitVec 32) : BitVec 32 :=
  (if uid = euidRoot then 0o6#32 ||| (if sIsDir st.mode then 0o1#32 else 0#32) else 0#32) |||
  (if uid = st.uid then (st.mode >>> 6) &&& 0o7#32 else 0#32) |||
  (if gid = st.gid then (st.mode >>> 3) &&& 0o7#32 else 0#32) |||
  (if uid ≠ st.uid ∧ gid ≠ st.gid then st.mode &&& 0o7#32 else 0#32)

/-- The file systems, over a state of theirs: the attributes and the superblock of each inode, and
its operations, none where it has no such operation. Source: `vfs_inode_ops_t`. `lookup` answers with
the inode of a name, `readlink` with as much of the target as fits in the buffer; `create` may fill
in the dentry it is given. -/
structure InodeOps (φ : Type) where
  attr : φ → Nat → NodeAttr
  superblock : φ → Nat → Nat
  lookup : φ → Nat → List Char → Option (φ × Except Errno Nat)
  readlink : φ → Nat → (bufsize : Nat) → Option (φ × Except Errno (List Char))
  create : φ → Nat → List Char → BitVec 32 → Option (Exec (φ × Except Errno (Option Nat)))
  rename : φ → Nat → List Char → Nat → List Char → Option (Exec (φ × Except Errno Unit))

/-! ## Dentries -/

/-- The part of `vfs_dentry_t` that lookups use. `shadow` is the root of what is mounted on the
dentry (`shadow_mount_point->root`). -/
structure Dentry where
  name : List Char
  inode : Option Nat
  parent : Option Nat
  children : List Nat
  shadow : Option Nat
  unlinked : Bool

/-- A dentry as `dentry_constructor` leaves it. -/
def Dentry.blank : Dentry where
  name := []
  inode := none
  parent := none
  children := []
  shadow := none
  unlinked := false

/-- The size of the name of a dentry, with the zero that ends it. Source: `vfs_dentry_t`. -/
def dentryNameSize : Nat := 256

/-- The dentries, those from `next` on not yet allocated; the state of the file systems; and whether
there is memory for the next dentries (there is after the end of the list). -/
structure Vfs (φ : Type) where
  dentry : Nat → Dentry
  next : Nat
  fs : φ
  memory : List Bool

variable {φ : Type}

namespace Vfs

/-- A dentry is changed. -/
def setDentry (s : Vfs φ) (d : Nat) (x : Dentry) : Vfs φ :=
  { s with dentry := Function.update s.dentry d x }

section

variable (s : Vfs φ) (d : Nat) (x : Dentry)
include s d x

@[simp] theorem setDentry_self :
    (s.setDentry d x).dentry d = x := Function.update_self ..

end

theorem setDentry_of_ne (s : Vfs φ) {d d' : Nat} (x : Dentry) (h : d' ≠ d) :
    (s.setDentry d x).dentry d' = s.dentry d' := Function.update_of_ne h ..

/-- Source: `vfs_dentry_allocate` (`vdentry.c:410`). -/
def vfsDentryAllocate (s : Vfs φ) : Vfs φ × Option Nat :=
  match s.memory with
  | false :: memory => ({ s with memory }, none)
  | memory => ({ s.setDentry s.next .blank with next := s.next + 1, memory := memory.tail }, some s.next)

/-- Source: `vfs_dentry_add` (`vdentry.c:14`). -/
def vfsDentryAdd (s : Vfs φ) (parent child : Nat) : Vfs φ :=
  let s := s.setDentry child { s.dentry child with parent := some parent }
  s.setDentry parent { s.dentry parent with children := (s.dentry parent).children ++ [child] }

/-- Removal from a list of children. A dentry that is on no list has no neighbours, and its removal
leaves an empty list behind. Source: `rculist_raw_remove` (`rculist.c:60`). -/
def rculistRemove (children : List Nat) (d : Nat) : List Nat :=
  if d ∈ children then children.erase d else []

/-- Source: `vfs_dentry_remove` (`vdentry.c:20`). -/
def vfsDentryRemove (s : Vfs φ) (d : Nat) : Vfs φ :=
  match (s.dentry d).parent with
  | none => s
  | some p =>
    let s := s.setDentry p { s.dentry p with children := rculistRemove (s.dentry p).children d }
    s.setDentry d { s.dentry d with parent := none }

/-- Source: `vfs_dentry_follow_mount_points` (`vdentry.c:113`). -/
def vfsDentryFollowMountPoints (s : Vfs φ) : (fuel d : Nat) → Exec Nat
  | 0, _ => .error .fuel
  | fuel + 1, d =>
    match (s.dentry d).shadow with
    | none => .ok d
    | some m => s.vfsDentryFollowMountPoints fuel m

/-- Source: `vfs_internal_lookup` (`vdentry.c:133`). -/
def vfsInternalLookup (s : Vfs φ) (entry : Nat) (name : List Char) : Option Nat :=
  (s.dentry entry).children.find? fun c => (s.dentry c).name = name

end Vfs

/-! ## Lookup -/

/-- Source: `vfs_perm` (`vfs.c:322`). -/
def vfsPerm (ops : InodeOps φ) (creds : Creds) (fs : φ) (i : Nat) : BitVec 32 :=
  vfsUserPerm (ops.attr fs i) creds.euid creds.egid

/-- The file system has answered for a name that is not in the tree. A dentry for which it knows no
inode is dropped again. Source: `vfs_lookup` (`vdentry.c:233`). -/
def lookupAnswered (s : Vfs φ) (entry child : Nat) (name : List Char) (fs : φ) :
    Except Errno Nat → Vfs φ × Except Errno Nat
  | .error e => ({ s with fs }, .error e)
  | .ok i =>
    ({ (s.setDentry child { s.dentry child with name, inode := some i }).vfsDentryAdd entry child with
      fs }, .ok child)

/-- The name is not in the tree. Source: `vfs_lookup` (`vdentry.c:200`). -/
def lookupFs (ops : InodeOps φ) (s : Vfs φ) (entry i : Nat) (name : List Char) :
    Exec (Vfs φ × Except Errno Nat) :=
  match ops.lookup s.fs i name with
  | none => .ok (s, .error .opnotsupp)
  | some (fs, answer) =>
    match s.vfsDentryAllocate with
    | (s, none) => .ok (s, .error .nomem)
    | (s, some child) =>
      if dentryNameSize ≤ name.length then .error .bounds
      else .ok (lookupAnswered s entry child name fs answer)

/-- The lookup in a directory that may be searched. Source: `vfs_lookup` (`vdentry.c:164`). -/
def lookupIn (ops : InodeOps φ) (s : Vfs φ) (entry i : Nat) (name : List Char) :
    Exec (Vfs φ × Except Errno Nat) :=
  if name = ['.', '.'] then .ok (s, .ok ((s.dentry entry).parent.getD entry))
  else if name = ['.'] then .ok (s, .ok entry)
  else
    match s.vfsInternalLookup entry name with
    | some child => do
      let child ← s.vfsDentryFollowMountPoints (s.next + 1) child
      return (s, .ok child)
    | none => lookupFs ops s entry i name

/-- Source: `vfs_lookup` (`vdentry.c:143`). -/
def vfsLookup (ops : InodeOps φ) (creds : Creds) (s : Vfs φ) (entry : Nat) (name : List Char) :
    Exec (Vfs φ × Except Errno Nat) :=
  match (s.dentry entry).inode with
  | none => .ok (s, .error .inval)
  | some i =>
    if ¬ sIsDir (ops.attr s.fs i).mode then .ok (s, .error .notdir)
    else if vfsPerm ops creds s.fs i &&& permExecute = 0#32 then .ok (s, .error .acces)
    else lookupIn ops s entry i name

end Stanix
