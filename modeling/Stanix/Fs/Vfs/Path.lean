import Stanix.Fs.Vfs.Dentry

/-!
# Resolution of paths

`kernel/fs/vfs/vdentry.c`: `vfs_get_dentry_at_recur` cuts a path into its components, looks them up
one after the other and follows symbolic links, calling itself on the target of a link; with
`O_CREAT` the last component is created where it is missing. `vfs_get_dentry_parent_at` picks the
dentry to start from.

Two slips of the source are in the model as they are: the target of an absolute link is resolved from
`NULL`, which fails an assertion, and a link that cannot be followed leaves the error code of the call
unset.
-/

namespace Stanix

/-- The constants that the headers of the C library give: `NAME_MAX`, `PATH_MAX` and
`SYMLOOP_MAX`. -/
structure VfsLimits where
  nameMax : Nat
  pathMax : Nat
  symloopMax : Nat

/-- The flags that resolution looks at: `O_CREAT`, `O_NOFOLLOW` and `O_EXCL`. -/
structure OpenFlags where
  creat : Bool
  nofollow : Bool
  excl : Bool

/-- The maximal number of components. Source: `path_array` (`vdentry.c:270`). -/
def pathDepthMax : Nat := 128

/-- The components of a path. Source: `vfs_get_dentry_at_recur` (`vdentry.c:272`). -/
def pathComponents (path : List Char) : List (List Char) := (path.splitOn '/').filter (· ≠ [])

variable {φ : Type}

section Model

variable (ops : InodeOps φ) (creds : Creds) (limits : VfsLimits)

/-! ## Creating the last component -/

/-- The file system has created an inode, and may have filled in its dentry. Source: `vfs_create_at`
(`vnode.c:269`). -/
def createAnswered (s : Vfs φ) (parent child : Nat) (name : List Char) (fs : φ) :
    Except Errno (Option Nat) → Vfs φ × Except Errno Unit
  | .error e => ({ s with fs }, .error e)
  | .ok none => ({ s with fs }, .ok ())
  | .ok (some i) =>
    ({ (s.setDentry child { s.dentry child with name, inode := some i }).vfsDentryAdd parent child with
      fs }, .ok ())

/-- Nothing of the name is there yet. Source: `vfs_create_child_dentry` (`vnode.c:21`) and
`vfs_create_at` (`vnode.c:264`). -/
def createAbsent (s : Vfs φ) (parent i child : Nat) (name : List Char) (mode : BitVec 32) :
    Exec (Vfs φ × Except Errno Unit) :=
  if vfsPerm ops creds s.fs i &&& permWrite = 0#32 then .ok (s, .error .acces)
  else if dentryNameSize ≤ name.length then .error .bounds
  else
    match ops.create s.fs i name mode with
    | none => .ok (s, .error .opnotsupp)
    | some r => do
      let (fs, answer) ← r
      return createAnswered s parent child name fs answer

/-- The lookup of the name to be created. Source: `vfs_create_child_dentry` (`vnode.c:11`). -/
def createLookedUp (parent i child : Nat) (name : List Char) (mode : BitVec 32) :
    Vfs φ × Except Errno Nat → Exec (Vfs φ × Except Errno Unit)
  | (s, .ok _) => .ok (s, .error .exist)
  | (s, .error .noent) => createAbsent ops creds s parent i child name mode
  | (s, .error e) => .ok (s, .error e)

/-- `vfs_create_at` (`vnode.c:258`) on a path of one component, which is resolved to the dentry it is
relative to. The name is cut to `NAME_MAX`, the zero that ends it included. -/
def vfsCreateIn (s : Vfs φ) (parent : Nat) (name : List Char) (mode : BitVec 32) :
    Exec (Vfs φ × Except Errno Unit) := do
  let i ← Exec.deref (s.dentry parent).inode
  if sIsDir (ops.attr s.fs i).mode then
    match s.vfsDentryAllocate with
    | (s, none) => .ok (s, .error .nomem)
    | (s, some child) => do
      let r ← vfsLookup ops creds s parent (name.take (limits.nameMax - 1))
      createLookedUp ops creds parent i child (name.take (limits.nameMax - 1)) mode r
  else .ok (s, .error .notdir)

/-! ## One component -/

/-- The value of `ret` when control goes to `error`: not set, zero, or an error code. Zero makes the
call return `NULL`. -/
abbrev Ret := Option (Option Errno)

/-- What the walk over the components gives: the dentry it is at (or `NULL`) and whether the last one
was created, or what `ret` is at `error`. -/
abbrev WalkEnd := Except (Option Errno) (Option Nat × Bool)

/-- Control goes to `error` with whatever `ret` is. -/
def failWith {α : Type} (s : Vfs φ) (loops : Nat) : Ret → Exec (Vfs φ × Nat × Except (Option Errno) α)
  | none => .error .uninit
  | some e => .ok (s, loops, .error e)

/-- Source: `vfs_readlink` (`vnode.c:203`) on a symbolic link. -/
def vfsReadlink (fs : φ) (i bufsize : Nat) : φ × Except Errno (List Char) :=
  match ops.readlink fs i bufsize with
  | none => (fs, .error .opnotsupp)
  | some answer => answer

/-- What a call of `vfs_get_dentry_at_recur` on the target of a link gives: the state, how many links
may still be followed, and the dentry (or `NULL`). -/
abbrev Recur (φ : Type) :=
  Option Nat → List Char → Nat → Vfs φ → Exec (Vfs φ × Nat × Except Errno (Option Nat))

/-- The target of a link is resolved, from `NULL` if it is absolute and else from the parent of the
link. Source: `vfs_get_dentry_at_recur` (`vdentry.c:354`). -/
def resolveTarget (recur : Recur φ) (s : Vfs φ) (loops d : Nat) (target : List Char) :
    Exec (Vfs φ × Nat × Except Errno (Option Nat)) :=
  if target.head? = some '/' then recur none target loops s
  else
    match (s.dentry d).parent with
    | none => .error .assertion
    | some p => recur (some p) target loops s

/-- The loop that follows symbolic links. Source: `vfs_get_dentry_at_recur` (`vdentry.c:346`). -/
def followLinks (recur : Recur φ) (ret : Ret) : (fuel : Nat) → Vfs φ → (loops : Nat) → Option Nat →
    Exec (Vfs φ × Nat × Except (Option Errno) (Option Nat))
  | 0, _, _, _ => .error .fuel
  | _ + 1, s, loops, none => .ok (s, loops, .ok none)
  | fuel + 1, s, loops, some d => do
    let i ← Exec.deref (s.dentry d).inode
    if sIsLnk (ops.attr s.fs i).mode then
      if loops = 0 then failWith s loops ret
      else
        match vfsReadlink ops s.fs i limits.pathMax with
        | (fs, .error _) => failWith { s with fs } (loops - 1) ret
        | (fs, .ok target) =>
          if limits.pathMax ≤ target.length then .error .bounds
          else do
            let r ← resolveTarget recur { s with fs } (loops - 1) d target
            match r with
            | (s, loops, .error e) => .ok (s, loops, .error (some e))
            | (s, loops, .ok next) => followLinks recur ret fuel s loops next
    else .ok (s, loops, .ok (some d))

/-- A dentry that was looked up again after its creation. -/
def createdAnswer (ret : Option Errno) (created : Bool) :
    Vfs φ × Except Errno Nat → Vfs φ × Except Errno (Nat × Ret × Bool)
  | (s, .error e) => (s, .error e)
  | (s, .ok c) => (s, .ok (c, some ret, created))

/-- What `vfs_create_at` answered; the new entry is looked up again. Source:
`vfs_get_dentry_at_recur` (`vdentry.c:319`). -/
def createdIn (d : Nat) (name : List Char) :
    Vfs φ × Except Errno Unit → Exec (Vfs φ × Except Errno (Nat × Ret × Bool))
  | (s, .ok ()) => createdAnswer none true <$> vfsLookup ops creds s d name
  | (s, .error .exist) => createdAnswer (some .exist) false <$> vfsLookup ops creds s d name
  | (s, .error e) => .ok (s, .error e)

/-- A missing last component is created. Source: `vfs_get_dentry_at_recur` (`vdentry.c:312`). -/
def createMissing (s : Vfs φ) (d : Nat) (name : List Char) (mode : BitVec 32) :
    Exec (Vfs φ × Except Errno (Nat × Ret × Bool)) := do
  let i ← Exec.deref (s.dentry d).inode
  match ops.create s.fs i name mode with
  | none => .ok (s, .error .inval)
  | some _ => do
    let r ← vfsCreateIn ops creds limits s d name mode
    createdIn ops creds d name r

/-- The answer to the lookup of a component. Source: `vfs_get_dentry_at_recur` (`vdentry.c:306`). -/
def componentAnswered (flags : OpenFlags) (mode : BitVec 32) (d : Nat) (name : List Char)
    (isLast : Bool) : Vfs φ × Except Errno Nat → Exec (Vfs φ × Except Errno (Nat × Ret × Bool))
  | (s, .ok c) => .ok (s, .ok (c, none, false))
  | (s, .error e) =>
    if e = .noent ∧ isLast ∧ flags.creat then createMissing ops creds limits s d name mode
    else .ok (s, .error e)

/-! ## The walk -/

/-- The loop over the components. Source: `vfs_get_dentry_at_recur` (`vdentry.c:303`). -/
def walkPath (recur : Recur φ) (flags : OpenFlags) (mode : BitVec 32) :
    List (List Char) → Vfs φ → (loops : Nat) → Option Nat → Exec (Vfs φ × Nat × WalkEnd)
  | [], s, loops, current => .ok (s, loops, .ok (current, false))
  | _ :: _, _, _, none => .error .assertion
  | name :: names, s, loops, some d => do
    let r ← vfsLookup ops creds s d name
    let r ← componentAnswered ops creds limits flags mode d name names.isEmpty r
    match r with
    | (s, .error e) => .ok (s, loops, .error (some e))
    | (s, .ok (c, ret, created)) =>
      if flags.nofollow ∧ names = [] then .ok (s, loops, .ok (some c, created))
      else do
        let r ← followLinks ops limits recur ret (loops + 1) s loops (some c)
        match r with
        | (s, loops, .error e) => .ok (s, loops, .error e)
        | (s, loops, .ok next) =>
          if names = [] then .ok (s, loops, .ok (next, created))
          else walkPath recur flags mode names s loops next

/-- The end of the walk. Source: `vfs_get_dentry_at_recur` (`vdentry.c:369`). -/
def walkEnded (flags : OpenFlags) :
    Vfs φ × Nat × WalkEnd → Exec (Vfs φ × Nat × Except Errno (Option Nat))
  | (s, loops, .error none) => .ok (s, loops, .ok none)
  | (s, loops, .error (some e)) => .ok (s, loops, .error e)
  | (_, _, .ok (none, _)) => .error .assertion
  | (s, loops, .ok (some d, created)) =>
    if ¬ created ∧ flags.excl then .ok (s, loops, .error .exist) else .ok (s, loops, .ok (some d))

/-- Source: `vfs_get_dentry_at_recur` (`vdentry.c:262`). With `parent` the last component is left
over for the caller, who gets `NULL` if there is none. -/
def vfsGetDentryAtRecur (flags : OpenFlags) (mode : BitVec 32) :
    (fuel : Nat) → (parent : Bool) → Recur φ
  | 0, _, _, _, _, _ => .error .fuel
  | fuel + 1, parent, at?, path, loops, s =>
    if pathDepthMax < (pathComponents path).length then .error .bounds
    else if parent ∧ pathComponents path = [] then .ok (s, loops, .ok none)
    else do
      let names := if parent then (pathComponents path).dropLast else pathComponents path
      let r ← walkPath ops creds limits (vfsGetDentryAtRecur flags mode fuel false) flags mode names s
        loops at?
      walkEnded flags r

/-- The root and the working directory of a process. Source: `vfs_context_t`. -/
structure VfsContext where
  root : Nat
  cwd : Nat

/-- Source: `vfs_get_dentry_parent_at` (`vdentry.c:383`), called by a process; with `parent` unset
this is `vfs_get_dentry_at`. -/
def vfsGetDentryParentAt (context : VfsContext) (flags : OpenFlags) (mode : BitVec 32) (parent : Bool)
    (at? : Option Nat) (path : List Char) (s : Vfs φ) :
    Exec (Vfs φ × Nat × Except Errno (Option Nat)) :=
  let start := at?.getD
    (if path.head? = some '/' ∨ path = [] then context.root else context.cwd)
  vfsGetDentryAtRecur ops creds limits flags mode (limits.symloopMax + 1) parent (some start) path
    limits.symloopMax s

end Model

end Stanix
