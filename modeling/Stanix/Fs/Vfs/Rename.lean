import Stanix.Fs.Tmpfs
import Stanix.Fs.Vfs.Path

/-!
# Renaming and the tree of dentries

`kernel/fs/vfs/vnode.c`: `vfs_rename_at` looks the old and the new name up, has the file system rename
the entry, takes the dentry of the new name out of the tree and moves the dentry of the old name to the
new directory. The dentry keeps its name.
-/

namespace Stanix

variable {φ : Type}

/-- Source: `S_ISVTX`. -/
def sISVTX : BitVec 32 := 0o1000#32

/-! ## The call -/

section Model

variable (ops : InodeOps φ) (creds : Creds)

/-- Source: `vfs_can_delete` (`vnode.c:428`). -/
def vfsCanDelete (s : Vfs φ) (d : Nat) : Exec Bool := do
  let p ← Exec.deref (s.dentry d).parent
  let j ← Exec.deref (s.dentry p).inode
  let i ← Exec.deref (s.dentry d).inode
  if (ops.attr s.fs j).mode &&& sISVTX ≠ 0#32 then
    return decide ((ops.attr s.fs j).uid = creds.euid ∨ (ops.attr s.fs i).uid = creds.euid)
  else return decide (vfsPerm ops creds s.fs j &&& permWrite ≠ 0#32)

/-- Source: `vfs_unlink_dentry` (`vnode.c:63`). -/
def Vfs.vfsUnlinkDentry (s : Vfs φ) (d : Nat) : Vfs φ :=
  (s.setDentry d { s.dentry d with unlinked := true }).vfsDentryRemove d

/-- The dentry of the new name goes, if there is one, and that of the old name is moved. Source:
`vfs_rename_at` (`vnode.c:527`). -/
def Vfs.moveDentry (s : Vfs φ) (old new newParent : Nat) : Vfs φ :=
  let s := if (s.dentry new).inode ≠ none then s.vfsUnlinkDentry new else s
  (s.vfsDentryRemove old).vfsDentryAdd newParent old

/-- The file system has answered. Source: `vfs_rename_at` (`vnode.c:525`). -/
def renameAnswered (s : Vfs φ) (old new newParent : Nat) :
    φ × Except Errno Unit → Vfs φ × Except Errno Unit
  | (fs, .error e) => ({ s with fs }, .error e)
  | (fs, .ok ()) => ({ s.moveDentry old new newParent with fs }, .ok ())

/-- The entry may be deleted; the file system is asked. Source: `vfs_rename_at` (`vnode.c:514`). -/
def renameAllowed (s : Vfs φ) (i j old new newParent : Nat) : Exec (Vfs φ × Except Errno Unit) :=
  if vfsPerm ops creds s.fs j &&& permWrite = 0#32 then .ok (s, .error .acces)
  else
    match ops.rename s.fs i (s.dentry old).name j (s.dentry new).name with
    | none => .ok (s, .error .opnotsupp)
    | some r => do
      let r ← r
      return renameAnswered s old new newParent r

/-- The dentry of the new name: the one that was found, or a new one without an inode. Source:
`vfs_rename_at` (`vnode.c:494`). -/
def renameTarget (newName : List Char) : Vfs φ × Except Errno Nat → Exec (Vfs φ × Except Errno Nat)
  | (s, .ok c) => .ok (s, .ok c)
  | (s, .error .noent) =>
    match s.vfsDentryAllocate with
    | (s, none) => .ok (s, .error .nomem)
    | (s, some c) =>
      if dentryNameSize ≤ newName.length then .error .bounds
      else .ok (s.setDentry c { s.dentry c with name := newName }, .ok c)
  | (s, .error e) => .ok (s, .error e)

/-- Both dentries are there. Source: `vfs_rename_at` (`vnode.c:504`). -/
def renameFound (i j old newParent : Nat) : Vfs φ × Except Errno Nat → Exec (Vfs φ × Except Errno Unit)
  | (s, .error e) => .ok (s, .error e)
  | (s, .ok new) => do
    let allowed ← vfsCanDelete ops creds s old
    if allowed then renameAllowed ops creds s i j old new newParent else .ok (s, .error .acces)

/-- The dentry of the old name is there. Source: `vfs_rename_at` (`vnode.c:488`). -/
def renameLookedUp (i j newParent : Nat) (newName : List Char) :
    Vfs φ × Except Errno Nat → Exec (Vfs φ × Except Errno Unit)
  | (s, .error e) => .ok (s, .error e)
  | (s, .ok old) => do
    let r ← vfsLookup ops creds s newParent newName
    let r ← renameTarget newName r
    renameFound ops creds i j old newParent r

/-- `vfs_rename_at` (`vnode.c:457`) between two directories that are already resolved. -/
def vfsRenameIn (s : Vfs φ) (oldParent : Nat) (oldName : List Char) (newParent : Nat)
    (newName : List Char) : Exec (Vfs φ × Except Errno Unit) := do
  let i ← Exec.deref (s.dentry oldParent).inode
  let j ← Exec.deref (s.dentry newParent).inode
  if ops.superblock s.fs i ≠ ops.superblock s.fs j then .ok (s, .error .xdev)
  else do
    let r ← vfsLookup ops creds s oldParent oldName
    renameLookedUp ops creds i j newParent newName r

end Model

end Stanix
