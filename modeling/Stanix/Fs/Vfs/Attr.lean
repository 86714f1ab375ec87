import Stanix.Base.Exec

/-!
# Mode and owner of a file

`vfs_chmod` and `vfs_chown` of `kernel/fs/vfs/vnode.c`, with the attribute update they share. Both
are open to the owner of the file and to the superuser. A change of owner means to clear the
set-user-id and set-group-id bits: it computes the mode without them, but the mask it passes on names
the owner and the group only, so that the mode is not stored.
-/

namespace Stanix

open Except

/-! ## The attributes of a node -/

/-- The bits of a mode that give the type of the file (`S_IFMT`). -/
def sIFMT : BitVec 32 := 0o170000#32

/-- Source: `S_ISUID`. -/
def sISUID : BitVec 32 := 0o4000#32

/-- Source: `S_ISGID`. -/
def sISGID : BitVec 32 := 0o2000#32

/-- Source: `EUID_ROOT` (`scheduler.h:76`). -/
def euidRoot : BitVec 32 := 0#32

/-- Source: `VNODE_ATTR_MODE` (`vfs.h:379`). -/
def vnodeAttrMode : BitVec 32 := 0x01#32

/-- Source: `VNODE_ATTR_UID`. -/
def vnodeAttrUid : BitVec 32 := 0x02#32

/-- Source: `VNODE_ATTR_GID`. -/
def vnodeAttrGid : BitVec 32 := 0x04#32

/-- Source: `VNODE_ATTR_ATIME`. -/
def vnodeAttrAtime : BitVec 32 := 0x08#32

/-- Source: `VNODE_ATTR_MTIME`. -/
def vnodeAttrMtime : BitVec 32 := 0x10#32

/-- Source: `VNODE_ATTR_CTIME`. -/
def vnodeAttrCtime : BitVec 32 := 0x20#32

/-- The attributes that a `struct stat` and a `vfs_node_t` both have. What a caller does not set in
a `struct stat` is not determined. -/
structure NodeAttr where
  mode : BitVec 32
  uid : BitVec 32
  gid : BitVec 32
  atime : Int
  mtime : Int
  ctime : Int
  deriving DecidableEq

/-- The part of `vfs_node_t` that the attribute calls use. -/
structure AttrNode extends NodeAttr where
  dirty : Bool
  deriving DecidableEq

/-! ## The calls -/

/-- The store of one attribute, if the mask names it. -/
def storeIf {α : Type _} (mask bit : BitVec 32) (new old : α) : α :=
  if mask &&& bit ≠ 0#32 then new else old

/-- Source: `vfs_raw_setattr` (`vnode.c:700`). `answer` is that of the file system's own `setattr`,
which is there for every node that a run is about. -/
def vfsRawSetattr (answer : Except Errno Unit) (node : AttrNode) (st : NodeAttr)
    (mask : BitVec 32) : Except Errno Unit × AttrNode :=
  match answer with
  | .error e => (.error e, node)
  | .ok () =>
    (.ok (),
      { mode := storeIf mask vnodeAttrMode ((st.mode &&& ~~~sIFMT) ||| (node.mode &&& sIFMT)) node.mode
        uid := storeIf mask vnodeAttrUid st.uid node.uid
        gid := storeIf mask vnodeAttrGid st.gid node.gid
        atime := storeIf mask vnodeAttrAtime st.atime node.atime
        mtime := storeIf mask vnodeAttrMtime st.mtime node.mtime
        ctime := storeIf mask vnodeAttrCtime st.ctime node.ctime
        dirty := true })

/-- Source: `vfs_chmod` (`vnode.c:137`), called with the effective user id `euid`. The fields of the
`struct stat` that it leaves unset are those of `st`. -/
def vfsChmod (euid : BitVec 32) (answer : Except Errno Unit) (st : NodeAttr) (node : AttrNode)
    (perm : BitVec 32) : Except Errno Unit × AttrNode :=
  if euid = node.uid ∨ euid = euidRoot then
    vfsRawSetattr answer node { st with mode := perm } vnodeAttrMode
  else
    (.error .perm, node)

/-- Source: `vfs_chown` (`vnode.c:153`). -/
def vfsChown (euid : BitVec 32) (answer : Except Errno Unit) (st : NodeAttr) (node : AttrNode)
    (owner groupOwner : BitVec 32) : Except Errno Unit × AttrNode :=
  if euid = node.uid ∨ euid = euidRoot then
    -- clear setuid bit and setgid bit
    vfsRawSetattr answer node
      { st with uid := owner, gid := groupOwner, mode := node.mode &&& ~~~(sISUID ||| sISGID) }
      (vnodeAttrUid ||| vnodeAttrGid)
  else
    (.error .perm, node)

/-- A call of a run, with the answer of the file system and the unset part of the `struct stat`. -/
inductive AttrCall
  | chmod (perm : BitVec 32) (answer : Except Errno Unit) (st : NodeAttr)
  | chown (owner groupOwner : BitVec 32) (answer : Except Errno Unit) (st : NodeAttr)

/-- One call of a process with the effective user id `euid`. -/
def AttrCall.step (euid : BitVec 32) (node : AttrNode) :
    AttrCall → Exec (Except Errno Unit × AttrNode)
  | .chmod perm answer st => .ok (vfsChmod euid answer st node perm)
  | .chown owner groupOwner answer st => .ok (vfsChown euid answer st node owner groupOwner)

/-! ## What a change of owner stores -/

variable {euid : BitVec 32} {node node' : AttrNode} {r : Except Errno Unit}

/-- A call either leaves the node or is one of its owner that the file system accepts. A change of
mode keeps the owner, a change of owner keeps the mode. -/
theorem AttrCall.step_cases (hroot : euid ≠ euidRoot) {call : AttrCall}
    (h : call.step euid node = .ok (r, node')) :
    node' = node ∨ node.uid = euid ∧
      ((∃ perm st, call = .chmod perm (.ok ()) st ∧ node'.uid = node.uid) ∨
        ∃ owner group st, call = .chown owner group (.ok ()) st ∧ node'.uid = owner ∧
          node'.mode = node.mode) := by
  cases call
  all_goals
    simp only [step, vfsChmod, vfsChown, ok.injEq] at h
    split at h
    case isFalse => exact .inl (congrArg Prod.snd h).symm
    rename_i answer st hown
    cases answer with
    | error e => exact .inl (congrArg Prod.snd h).symm
    | ok u => ?_
    obtain rfl := congrArg Prod.snd h
    refine .inr ⟨(hown.resolve_right hroot).symm, ?_⟩
  · exact .inl ⟨_, st, rfl, rfl⟩
  exact .inr ⟨_, _, st, rfl, rfl, rfl⟩

/-- A file of somebody else has no set-user-id bit. -/
def NoForeignSetuid (euid : BitVec 32) (node : AttrNode) : Prop :=
  node.uid ≠ euid → node.mode &&& sISUID = 0#32

/-- A file is not given away while its set-user-id bit is set. -/
def ChownsClear (euid : BitVec 32) (node : AttrNode) : AttrCall → Prop
  | .chmod _ _ _ => True
  | .chown owner _ answer _ =>
    node.uid = euid → answer = .ok () → owner ≠ euid → node.mode &&& sISUID = 0#32

open AttrCall

/-- One call keeps foreign files without the set-user-id bit exactly if it does not give the file
away while the bit is set. -/
theorem step_noForeignSetuid (hroot : euid ≠ euidRoot) {call : AttrCall}
    (h : call.step euid node = .ok (r, node')) (hnode : NoForeignSetuid euid node) :
    NoForeignSetuid euid node' ↔ ChownsClear euid node call := by
  unfold NoForeignSetuid at hnode ⊢
  cases call with
  | chmod perm answer st =>
    rcases step_cases hroot h with rfl | ⟨hown, ⟨_, _, _, hu⟩ | ⟨_, _, _, hcall, _⟩⟩
    · exact iff_of_true hnode trivial
    · exact iff_of_true (fun hne => absurd (hu.trans hown) hne) trivial
    cases hcall
  | chown owner group answer st => ?_
  unfold ChownsClear
  by_cases hown : node.uid = euid
  · cases answer with
    | error e =>
      rcases step_cases hroot h with rfl | ⟨_, ⟨_, _, hcall, _⟩ | ⟨_, _, _, hcall, _⟩⟩
      · exact iff_of_true hnode nofun
      · cases hcall
      cases hcall
    | ok u =>
      have hnode' : node'.uid = owner ∧ node'.mode = node.mode := by
        simp only [step, vfsChown, hown, true_or, if_true, ok.injEq] at h
        obtain rfl := congrArg Prod.snd h
        exact ⟨rfl, rfl⟩
      simp only [hnode'.1, hnode'.2, hown, true_imp_iff]
  -- a process that does not own the file changes nothing
  rcases step_cases hroot h with rfl | ⟨howns, _⟩
  · exact iff_of_true hnode fun h' => absurd h' hown
  exact absurd howns hown

/-- **Set-user-id files of others.** In a run of mode and owner changes that an unprivileged process
makes on a file of its own, the file never has the set-user-id bit while it belongs to somebody else,
if and only if no call gives it away with the bit set. -/
theorem chown_keeps_setuid_clear_iff (euid : BitVec 32) (hroot : euid ≠ euidRoot) (node : AttrNode)
    (hown : node.uid = euid) (calls : List AttrCall) :
    RunAll (AttrCall.step euid) (NoForeignSetuid euid) node calls ↔
      CallsAll (AttrCall.step euid) (ChownsClear euid) node calls := by
  refine runAll_iff (I := fun _ _ => True) (A := fun _ _ => True) (fun _ node call _ _ => ?_) trivial
    (fun h => absurd hown h) ?_
  · cases call with
    | chmod perm answer st => exact ⟨_, _, rfl, trivial, step_noForeignSetuid hroot rfl⟩
    | chown owner group answer st => exact ⟨_, _, rfl, trivial, step_noForeignSetuid hroot rfl⟩
  exact .of_mem fun _ _ _ => trivial

/-- A regular file of user 1000 that everybody may read and run. -/
def userFile : AttrNode where
  mode := 0o100755#32
  uid := 1000#32
  gid := 1000#32
  atime := 0
  mtime := 0
  ctime := 0
  dirty := false

/-- A user makes a script private and gives it to user 1001. -/
theorem chown_keeps_setuid_clear_private :
    RunAll (AttrCall.step 1000#32) (NoForeignSetuid 1000#32) userFile
      [.chmod 0o700#32 (.ok ()) userFile.toNodeAttr,
        .chown 1001#32 1001#32 (.ok ()) userFile.toNodeAttr] :=
  (chown_keeps_setuid_clear_iff 1000#32 (by decide) userFile rfl _).2
    ⟨trivial, fun _ node' h => by
      simp only [step, ok.injEq] at h
      obtain rfl := congrArg Prod.snd h
      exact ⟨fun _ _ _ => by decide, fun _ _ _ => trivial⟩⟩

/-- **A set-user-id file of the superuser**, made by an unprivileged user in two calls. -/
theorem chown_leaves_setuid :
    ¬ RunAll (AttrCall.step 1000#32) (NoForeignSetuid 1000#32) userFile
      [.chmod 0o4755#32 (.ok ()) userFile.toNodeAttr,
        .chown euidRoot euidRoot (.ok ()) userFile.toNodeAttr] :=
  fun h => absurd (RunAll.final h rfl (by decide)) (by decide)

end Stanix
