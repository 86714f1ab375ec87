import Stanix.Fs.Vfs.Dentry
import Mathlib.Data.List.Nodup

/-!
# The file system in memory

`kernel/fs/tmpfs.c`: a directory is a list of entries, each a name and an inode, and a new entry goes
to the end of the list. This module has the operations that the VFS calls for names (`tmpfs_lookup`,
`tmpfs_readlink`, `tmpfs_create`, `tmpfs_rename`) and what they do to the entries of a directory.
Link counts and references of inodes are not part of it.
-/

namespace Stanix

open List Function

/-- The inodes of the file systems in memory, those from `next` on not yet in use: their attributes
and superblocks, the entries of directories and the targets of links. -/
structure Tmpfs where
  attr : Nat → NodeAttr
  superblock : Nat → Nat
  entries : Nat → List (List Char × Nat)
  target : Nat → List Char
  next : Nat

/-! ## Entries of a directory -/

/-- The inode of a name in a list of entries. -/
def entryOf (entries : List (List Char × Nat)) (name : List Char) : Option Nat :=
  (entries.find? fun e => e.1 = name).map (·.2)

/-- The entry of a name leaves the list. -/
def eraseEntry (entries : List (List Char × Nat)) (name : List Char) : List (List Char × Nat) :=
  entries.eraseP fun e => e.1 = name

section

variable {entries : List (List Char × Nat)} {name name' : List Char} {i : Nat}

theorem entryOf_append :
    entryOf (entries ++ [(name, i)]) name' =
      (entryOf entries name').or (if name = name' then some i else none) := by
  unfold entryOf
  rw [List.find?_append]
  cases h : entries.find? fun e => e.1 = name' with
  | some e => simp
  | none =>
    by_cases hn : name = name'
    · simp [hn]
    simp [hn]

theorem entryOf_eq_none : entryOf entries name = none ↔ name ∉ entries.map (·.1) := by
  unfold entryOf
  rw [Option.map_eq_none_iff, List.find?_eq_none]
  constructor
  · grind
  grind

/-- Names are unique in a list of entries. -/
def UniqueNames (entries : List (List Char × Nat)) : Prop := (entries.map (·.1)).Nodup

theorem UniqueNames.erase (h : UniqueNames entries) (name : List Char) :
    UniqueNames (eraseEntry entries name) :=
  h.sublist ((eraseP_sublist).map _)

theorem entryOf_erase_self (h : UniqueNames entries) :
    entryOf (eraseEntry entries name) name = none := by
  induction entries with
  | nil => rfl
  | cons e entries ih => ?_
  unfold UniqueNames at h
  rw [map_cons, nodup_cons] at h
  unfold eraseEntry
  by_cases he : e.1 = name
  · rw [eraseP_cons_of_pos (by simpa using he), entryOf_eq_none]
    exact he ▸ h.1
  rw [eraseP_cons_of_neg (by simpa using he), entryOf, List.find?_cons_of_neg (by simpa using he)]
  exact ih h.2

theorem entryOf_erase_of_ne (hne : name' ≠ name) :
    entryOf (eraseEntry entries name) name' = entryOf entries name' := by
  induction entries with
  | nil => rfl
  | cons e entries ih => ?_
  unfold eraseEntry
  by_cases he : e.1 = name
  · rw [eraseP_cons_of_pos (by simpa using he), entryOf, entryOf,
      List.find?_cons_of_neg (by simpa using fun h => hne (h.symm.trans he))]
  rw [eraseP_cons_of_neg (by simpa using he)]
  by_cases he' : e.1 = name'
  · rw [entryOf, entryOf, List.find?_cons_of_pos (by simpa using he'),
      List.find?_cons_of_pos (by simpa using he')]
  rw [entryOf, entryOf, List.find?_cons_of_neg (by simpa using he'),
    List.find?_cons_of_neg (by simpa using he')]
  exact ih

end

/-! ## The operations -/

namespace Tmpfs

variable (fs : Tmpfs)

/-- The entries of a directory are changed. -/
def setEntries (dir : Nat) (entries : List (List Char × Nat)) : Tmpfs :=
  { fs with entries := update fs.entries dir entries }

/-- Source: `tmpfs_get_entry` (`tmpfs.c:66`). -/
def tmpfsGetEntry (dir : Nat) (name : List Char) : Option Nat := entryOf (fs.entries dir) name

/-- Source: `tmpfs_add_entry` (`tmpfs.c:55`). -/
def tmpfsAddEntry (dir child : Nat) (name : List Char) : Tmpfs :=
  fs.setEntries dir (fs.entries dir ++ [(name, child)])

/-- Source: `tmpfs_remove_entry` (`tmpfs.c:77`), on the entry that `tmpfs_get_entry` finds. -/
def tmpfsRemoveEntry (dir : Nat) (name : List Char) : Tmpfs :=
  fs.setEntries dir (eraseEntry (fs.entries dir) name)

/-- Source: `tmpfs_lookup` (`tmpfs.c:118`), on a name other than `.` and `..`. -/
def tmpfsLookup (dir : Nat) (name : List Char) : Except Errno Nat :=
  match fs.tmpfsGetEntry dir name with
  | none => .error .noent
  | some i => .ok i

/-- Source: `tmpfs_create` (`tmpfs.c:272`) and `tmpfs_mknod` (`tmpfs.c:257`). The dentry is not
filled in. -/
def tmpfsCreate (creds : Creds) (now : Int) (dir : Nat) (name : List Char) (mode : BitVec 32) :
    Exec (Tmpfs × Except Errno (Option Nat)) := do
  Exec.assert (sIsDir (fs.attr dir).mode)
  Exec.assert (fs.tmpfsGetEntry dir name = none)
  let made : Tmpfs := { fs with
    attr := update fs.attr fs.next
      ⟨0o100000#32 ||| mode, creds.euid, creds.egid, now, now, now⟩
    superblock := update fs.superblock fs.next (fs.superblock dir)
    entries := update fs.entries fs.next []
    next := fs.next + 1 }
  return (made.tmpfsAddEntry dir fs.next name, .ok none)

/-- What is left of `tmpfs_rename` once an entry of the new name is out of the way. -/
def tmpfsMoveEntry (i oldDir : Nat) (oldName : List Char) (newDir : Nat) (newName : List Char) :
    Tmpfs :=
  (fs.tmpfsAddEntry newDir i newName).tmpfsRemoveEntry oldDir oldName

/-- Source: `tmpfs_rename` (`tmpfs.c:306`). An entry that is renamed to itself is given back as the
one that stands in the way, and used afterwards. -/
def tmpfsRename (oldDir : Nat) (oldName : List Char) (newDir : Nat) (newName : List Char) :
    Exec (Tmpfs × Except Errno Unit) := do
  Exec.assert (sIsDir (fs.attr oldDir).mode)
  Exec.assert (sIsDir (fs.attr newDir).mode)
  match fs.tmpfsGetEntry oldDir oldName with
  | none => .error .assertion
  | some i =>
    match fs.tmpfsGetEntry newDir newName with
    | none => .ok (fs.tmpfsMoveEntry i oldDir oldName newDir newName, .ok ())
    | some _ =>
      if oldDir = newDir ∧ oldName = newName then .error .null
      else .ok ((fs.tmpfsRemoveEntry newDir newName).tmpfsMoveEntry i oldDir oldName newDir newName,
        .ok ())

end Tmpfs

/-- The operations of the file system in memory. Source: `tmpfs_inode_ops` (`tmpfs.c:394`). -/
def tmpfsOps (creds : Creds) (now : Int) : InodeOps Tmpfs where
  attr fs i := fs.attr i
  superblock fs i := fs.superblock i
  lookup fs dir name := some (fs, fs.tmpfsLookup dir name)
  readlink fs i bufsize := some (fs, .ok ((fs.target i).take bufsize))
  create fs dir name mode := some (fs.tmpfsCreate creds now dir name mode)
  rename fs oldDir oldName newDir newName := some (fs.tmpfsRename oldDir oldName newDir newName)

/-! ## What a rename does to the entries -/

namespace Tmpfs

variable {fs fs' : Tmpfs} {oldDir newDir i : Nat} {oldName newName : List Char}

/-- The names of every directory are unique. -/
def Unique (fs : Tmpfs) : Prop := ∀ dir, UniqueNames (fs.entries dir)

theorem getEntry_addEntry (dir child : Nat) (name : List Char) (dir' : Nat) (name' : List Char) :
    (fs.tmpfsAddEntry dir child name).tmpfsGetEntry dir' name' =
      (fs.tmpfsGetEntry dir' name').or (if dir' = dir ∧ name' = name then some child else none) := by
  unfold tmpfsAddEntry setEntries tmpfsGetEntry
  by_cases hdir : dir' = dir
  · subst hdir
    simp only [update_self, entryOf_append, true_and, eq_comm]
  simp [hdir]

variable (h : fs.Unique)

include h

theorem getEntry_removeEntry (dir : Nat) (name : List Char) (dir' : Nat) (name' : List Char) :
    (fs.tmpfsRemoveEntry dir name).tmpfsGetEntry dir' name' =
      if dir' = dir ∧ name' = name then none else fs.tmpfsGetEntry dir' name' := by
  unfold tmpfsRemoveEntry setEntries tmpfsGetEntry
  by_cases hdir : dir' = dir
  · subst hdir
    by_cases hname : name' = name
    · subst hname
      simp [entryOf_erase_self (h dir')]
    simp [entryOf_erase_of_ne hname, hname]
  simp [hdir]

theorem Unique.removeEntry (dir : Nat) (name : List Char) :
    (fs.tmpfsRemoveEntry dir name).Unique := by
  intro dir'
  unfold tmpfsRemoveEntry setEntries
  by_cases hdir : dir' = dir
  · subst hdir
    simpa using (h dir').erase name
  simpa [update_of_ne hdir] using h dir'

theorem Unique.addEntry {dir child : Nat} {name : List Char}
    (hnone : fs.tmpfsGetEntry dir name = none) : (fs.tmpfsAddEntry dir child name).Unique := by
  intro dir'
  unfold tmpfsAddEntry setEntries
  by_cases hdir : dir' = dir
  · subst hdir
    simp only [update_self, UniqueNames, map_append, map_cons, map_nil]
    rw [nodup_append]
    refine ⟨h dir', nodup_singleton _, fun x hx y hy => ?_⟩
    rw [mem_singleton] at hy
    rintro rfl
    exact entryOf_eq_none.1 hnone (hy ▸ hx)
  simpa [update_of_ne hdir] using h dir'

/-- **A successful rename.** The old name was there and is not the new one; the inode has the new name
afterwards and the old name is free; nothing else changes. -/
theorem tmpfsRename_spec (hrun : fs.tmpfsRename oldDir oldName newDir newName = .ok (fs', .ok ())) :
    ∃ i, fs.tmpfsGetEntry oldDir oldName = some i ∧ ¬ (oldDir = newDir ∧ oldName = newName) ∧
      fs'.Unique ∧ fs'.attr = fs.attr ∧ fs'.superblock = fs.superblock ∧
      ∀ dir name, fs'.tmpfsGetEntry dir name =
        if dir = oldDir ∧ name = oldName then none
        else if dir = newDir ∧ name = newName then some i
        else fs.tmpfsGetEntry dir name := by
  obtain ⟨-, -, hrun⟩ := Exec.bind_eq_ok.1 hrun
  obtain ⟨-, -, hrun⟩ := Exec.bind_eq_ok.1 hrun
  cases hold : fs.tmpfsGetEntry oldDir oldName with
  | none =>
    rw [hold] at hrun
    cases hrun
  | some i => ?_
  rw [hold] at hrun
  refine ⟨i, rfl, ?_⟩
  -- the entry is added where nothing of the new name is, and then the old one is removed
  have hmove (fs0 : Tmpfs) (h0 : fs0.Unique) (hnone : fs0.tmpfsGetEntry newDir newName = none)
      (dir : Nat) (name : List Char) :
      (fs0.tmpfsMoveEntry i oldDir oldName newDir newName).tmpfsGetEntry dir name =
        if dir = oldDir ∧ name = oldName then none
        else if dir = newDir ∧ name = newName then some i else fs0.tmpfsGetEntry dir name := by
    rw [tmpfsMoveEntry, getEntry_removeEntry (h0.addEntry hnone), getEntry_addEntry]
    split
    · rfl
    split
    · next hnew => rw [hnew.1, hnew.2, hnone, Option.none_or]
    simp
  cases hnew : fs.tmpfsGetEntry newDir newName with
  | none =>
    rw [hnew] at hrun
    cases hrun
    refine ⟨?_, (h.addEntry hnew).removeEntry _ _, rfl, rfl, hmove fs h hnew⟩
    rintro ⟨rfl, rfl⟩
    rw [hold] at hnew
    cases hnew
  | some j => ?_
  rw [hnew] at hrun
  dsimp only at hrun
  split at hrun
  · cases hrun
  next hsame =>
  cases hrun
  have hnone : (fs.tmpfsRemoveEntry newDir newName).tmpfsGetEntry newDir newName = none := by
    rw [getEntry_removeEntry h, if_pos ⟨rfl, rfl⟩]
  refine ⟨hsame, ((h.removeEntry _ _).addEntry hnone).removeEntry _ _, rfl, rfl, fun dir name => ?_⟩
  rw [hmove _ (h.removeEntry _ _) hnone]
  split
  · rfl
  split
  · rfl
  next hne => rw [getEntry_removeEntry h, if_neg hne]

end Tmpfs

end Stanix
