import Stanix.Fs.Vfs.Rename
import Stanix.Fs.Vfs.Tree
import Mathlib.Data.List.Find

/-!
# Agreement of the dentries with the file system after a rename

A tree of dentries over the file system in memory agrees with it if every dentry that hangs from a
directory has the name and the inode of an entry there. A rename that succeeds gives the entry its new
name in the file system and leaves the dentry its old one: `rename_coherent_iff` says when the two
still agree, and lookups answer as they should.
-/

namespace Stanix

open Vfs Exec List Dentry Tmpfs

variable {s s' s'' : Vfs Tmpfs} {creds : Creds} {now : Int} {N p d c : Nat} {name : List Char}
  {r : Except Errno Nat} {φ : Type} {fuel m j n : Nat}

/-! ## What a lookup answers -/

/-- The inode that a lookup led to. -/
def answerInode {φ : Type} : Vfs φ × Except Errno Nat → Except Errno (Option Nat)
  | (_, .error e) => .error e
  | (s, .ok d) => .ok (s.dentry d).inode

/-- What `vfs_lookup` answers when there is memory: an error, or the inode of the dentry found. -/
def lookupAnswer {φ : Type} (ops : InodeOps φ) (creds : Creds) (s : Vfs φ) (p : Nat)
    (name : List Char) : Exec (Except Errno (Option Nat)) :=
  answerInode <$> vfsLookup ops creds { s with memory := [] } p name

/-- Every dentry that hangs from a directory has the name and the inode of an entry there. -/
def Coherent (s : Vfs Tmpfs) : Prop :=
  ∀ d c, c ∈ (s.dentry d).children → ∃ j i, (s.dentry d).inode = some j ∧
    (s.dentry c).inode = some i ∧ s.fs.tmpfsGetEntry j (s.dentry c).name = some i

/-- The inode of what is mounted on a name below a dentry. -/
def mountedInode (s : Vfs Tmpfs) (p : Nat) (name : List Char) : Option (Option Nat) :=
  match s.vfsInternalLookup p name with
  | none => none
  | some c =>
    match (s.dentry c).shadow, s.vfsDentryFollowMountPoints (s.next + 1) c with
    | some _, .ok m => some (s.dentry m).inode
    | _, _ => none

/-- What a lookup should answer: the root of what is mounted on the name, or what the file system
knows. -/
def tmpfsAnswer (creds : Creds) (fs : Tmpfs) (inode : Option Nat) (mounted : Option (Option Nat))
    (name : List Char) : Exec (Except Errno (Option Nat)) :=
  match inode with
  | none => .ok (.error .inval)
  | some j =>
    if ¬ sIsDir (fs.attr j).mode then .ok (.error .notdir)
    else if vfsUserPerm (fs.attr j) creds.euid creds.egid &&& permExecute = 0#32 then
      .ok (.error .acces)
    else
      match mounted with
      | some i => .ok (.ok i)
      | none =>
        if dentryNameSize ≤ name.length then .error .bounds
        else
          match fs.tmpfsGetEntry j name with
          | none => .ok (.error .noent)
          | some i => .ok (.ok (some i))

/-- A name of an entry, other than `.` and `..`. -/
def Proper (name : List Char) : Prop := name ≠ ['.', '.'] ∧ name ≠ ['.']

/-! ## What moving dentries leaves alone -/

/-- A field of dentries that links have no part in. -/
structure Unlinked {β : Type} (f : Dentry → β) : Prop where
  parent : ∀ x q, f { x with parent := q } = f x
  children : ∀ x l, f { x with children := l } = f x
  unlinked : ∀ x b, f { x with unlinked := b } = f x

theorem unlinked_name : Unlinked Dentry.name := ⟨fun _ _ => rfl, fun _ _ => rfl, fun _ _ => rfl⟩

theorem unlinked_inode : Unlinked Dentry.inode := ⟨fun _ _ => rfl, fun _ _ => rfl, fun _ _ => rfl⟩

theorem unlinked_shadow : Unlinked Dentry.shadow := ⟨fun _ _ => rfl, fun _ _ => rfl, fun _ _ => rfl⟩

section

variable {φ β : Type} {f : Dentry → β} (hf : Unlinked f) (s : Vfs φ)

theorem setDentry_field {x : Dentry} (hx : f x = f (s.dentry d)) (d' : Nat) :
    f ((s.setDentry d x).dentry d') = f (s.dentry d') := by
  by_cases h : d' = d
  · rw [h, setDentry_self, hx]
  rw [setDentry_of_ne s x h]

theorem add_children (p c d : Nat) : ((s.vfsDentryAdd p c).dentry d).children =
    if d = p then (s.dentry p).children ++ [c] else (s.dentry d).children := by
  have hchild := setDentry_field s (f := children)
    (x := { s.dentry c with parent := some p }) rfl
  simp only [vfsDentryAdd]
  split
  · next h => rw [h, setDentry_self, hchild]
  next h => rw [setDentry_of_ne _ _ h, hchild]

theorem add_parent (p c d : Nat) : ((s.vfsDentryAdd p c).dentry d).parent =
    if d = c then some p else (s.dentry d).parent := by
  refine (setDentry_field _ (by rfl) d).trans ?_
  split
  · next h => rw [h, setDentry_self]
  next h => rw [setDentry_of_ne _ _ h]

theorem remove_parent (c d : Nat) : ((s.vfsDentryRemove c).dentry d).parent =
    if d = c then none else (s.dentry d).parent := by
  unfold vfsDentryRemove
  split
  · next h =>
    split
    · next hd => rw [hd, h]
    rfl
  split
  · next hd => rw [hd, setDentry_self]
  next hd =>
  rw [setDentry_of_ne _ _ hd]
  exact setDentry_field _ (by rfl) d

theorem remove_children {c p : Nat} (h : (s.dentry c).parent = some p) (d : Nat) :
    ((s.vfsDentryRemove c).dentry d).children =
      if d = p then rculistRemove (s.dentry p).children c else (s.dentry d).children := by
  simp only [vfsDentryRemove, h]
  refine (setDentry_field _ (by rfl) d).trans ?_
  split
  · next hd => rw [hd, setDentry_self]
  next hd => rw [setDentry_of_ne _ _ hd]

theorem remove_children_filter {c p : Nat} (h : (s.dentry c).parent = some p)
    (hmem : c ∈ (s.dentry p).children) (hnodup : (s.dentry p).children.Nodup)
    (honly : ∀ d, d ≠ p → c ∉ (s.dentry d).children) (d : Nat) :
    ((s.vfsDentryRemove c).dentry d).children = (s.dentry d).children.filter (· ≠ c) := by
  rw [remove_children s h]
  split
  · next hd =>
    rw [hd, rculistRemove, if_pos hmem, hnodup.erase_eq_filter]
    refine filter_congr fun x _ => ?_
    by_cases hx : x = c <;> simp [hx]
  next hd =>
  refine (filter_eq_self.2 fun x hx => ?_).symm
  have hne : x ≠ c := by
    rintro rfl
    exact honly d hd hx
  simpa using hne

include hf

theorem Unlinked.add (p c d : Nat) : f ((s.vfsDentryAdd p c).dentry d) = f (s.dentry d) := by
  unfold vfsDentryAdd
  rw [setDentry_field _ (hf.children _ _), setDentry_field _ (hf.parent _ _)]

theorem Unlinked.remove (c d : Nat) : f ((s.vfsDentryRemove c).dentry d) = f (s.dentry d) := by
  unfold vfsDentryRemove
  split
  · rfl
  rw [setDentry_field _ (hf.parent _ _), setDentry_field _ (hf.children _ _)]

theorem Unlinked.move (old new newParent d : Nat) :
    f ((s.moveDentry old new newParent).dentry d) = f (s.dentry d) := by
  unfold moveDentry
  rw [hf.add, hf.remove]
  split
  · rw [vfsUnlinkDentry, hf.remove, setDentry_field _ (hf.unlinked _ _)]
  rfl

end

theorem remove_next (s : Vfs φ) (d : Nat) : (s.vfsDentryRemove d).next = s.next := by
  unfold vfsDentryRemove
  split <;> rfl

theorem moveDentry_next (s : Vfs φ) (old new newParent : Nat) :
    (s.moveDentry old new newParent).next = s.next := by
  refine (remove_next _ old).trans ?_
  split
  · exact remove_next _ new
  rfl

/-! ## Mounts -/

theorem follow_of_none (h : (s.dentry d).shadow = none) :
    s.vfsDentryFollowMountPoints (fuel + 1) d = .ok d := by
  simp only [vfsDentryFollowMountPoints, h]

theorem follow_mono (h : s.vfsDentryFollowMountPoints fuel d = .ok m) (k : Nat) :
    s.vfsDentryFollowMountPoints (fuel + k) d = .ok m := by
  induction fuel generalizing d with
  | zero => cases h
  | succ fuel ih => ?_
  rw [Nat.add_right_comm]
  unfold vfsDentryFollowMountPoints at h ⊢
  split
  · next hnone =>
    rw [hnone] at h
    exact h
  next x hx =>
  rw [hx] at h
  exact ih h

theorem follow_congr {P : Nat → Prop}
    (hsame : ∀ d, P d → (s'.dentry d).shadow = (s.dentry d).shadow)
    (hroot : ∀ d m, (s.dentry d).shadow = some m → P m) (hd : P d) :
    s'.vfsDentryFollowMountPoints fuel d = s.vfsDentryFollowMountPoints fuel d := by
  induction fuel generalizing d with
  | zero => rfl
  | succ fuel ih => ?_
  unfold vfsDentryFollowMountPoints
  rw [hsame d hd]
  split
  · rfl
  next m hm => exact ih (hroot d m hm)

theorem follow_eq_of_shadow (hsame : ∀ d, (s'.dentry d).shadow = (s.dentry d).shadow) :
    s'.vfsDentryFollowMountPoints fuel d = s.vfsDentryFollowMountPoints fuel d :=
  follow_congr (fun d _ => hsame d) (fun _ _ _ => trivial) trivial

theorem follow_lt (hlt : ∀ d m, (s.dentry d).shadow = some m → m < n) (hd : d < n)
    (h : s.vfsDentryFollowMountPoints fuel d = .ok m) : m < n := by
  induction fuel generalizing d with
  | zero => cases h
  | succ fuel ih => ?_
  unfold vfsDentryFollowMountPoints at h
  split at h
  · cases h
    exact hd
  next x hx => exact ih (hlt d x hx) h

theorem follow_memory (memory : List Bool) (fuel : Nat) :
    ({ s with memory } : Vfs Tmpfs).vfsDentryFollowMountPoints fuel d =
      s.vfsDentryFollowMountPoints fuel d := follow_eq_of_shadow fun _ => rfl

/-! ## Trees over the file system in memory -/

/-- A tree of dentries in which only the first `N` have children: names are unique, in the file system
and below a dentry; a directory has one dentry; mounts end somewhere; the dentries agree with the file
system. -/
structure TmpfsTree (N : Nat) (s : Vfs Tmpfs) : Prop where
  bound : N ≤ s.next
  unique : s.fs.Unique
  child : ∀ d c, c ∈ (s.dentry d).children → d < N ∧ c < s.next ∧ (s.dentry c).parent = some d
  nodup : ∀ d, (s.dentry d).children.Nodup
  names : ∀ d c c', c ∈ (s.dentry d).children → c' ∈ (s.dentry d).children →
    (s.dentry c).name = (s.dentry c').name → c = c'
  short : ∀ d c, c ∈ (s.dentry d).children → (s.dentry c).name.length < dentryNameSize
  shadow_lt : ∀ d m, (s.dentry d).shadow = some m → m < s.next
  mounts : ∀ d, ∃ m, s.vfsDentryFollowMountPoints (s.next + 1) d = .ok m
  one : ∀ d d' j, d < N → d' < N → (s.dentry d).inode = some j → (s.dentry d').inode = some j →
    sIsDir (s.fs.attr j).mode → d = d'
  coherent : Coherent s

theorem mem_of_internalLookup {s : Vfs φ} (h : s.vfsInternalLookup p name = some c) :
    c ∈ (s.dentry p).children ∧ (s.dentry c).name = name :=
  ⟨mem_of_find?_eq_some h, by simpa using List.find?_some h⟩

theorem internalLookup_none {s : Vfs φ} (h : s.vfsInternalLookup p name = none) :
    ∀ c ∈ (s.dentry p).children, (s.dentry c).name ≠ name := fun c hc heq => by
  simpa [heq] using List.find?_eq_none.1 h c hc

theorem internalLookup_congr {s s' : Vfs φ}
    (hchildren : (s'.dentry p).children = (s.dentry p).children)
    (hnames : ∀ c ∈ (s.dentry p).children, (s'.dentry c).name = (s.dentry c).name) :
    s'.vfsInternalLookup p name = s.vfsInternalLookup p name := by
  unfold vfsInternalLookup
  rw [hchildren]
  exact List.find?_congr fun c hc => by rw [hnames c hc]

theorem lookupFs_memory (p j : Nat) (name : List Char) :
    answerInode <$> lookupFs (tmpfsOps creds now) { s with memory := [] } p j name =
      if dentryNameSize ≤ name.length then .error .bounds
      else .ok ((s.fs.tmpfsLookup j name).map some) := by
  unfold lookupFs
  simp only [tmpfsOps, vfsDentryAllocate]
  split
  · rfl
  cases s.fs.tmpfsLookup j name with
  | error e => rfl
  | ok i =>
    refine congrArg (fun x => (.ok (.ok x) : Exec (Except Errno (Option Nat)))) ?_
    refine (unlinked_inode.add _ p s.next s.next).trans ?_
    rw [setDentry_self]

/-- **What a lookup answers** where the dentries agree with the file system: cached or not, it is what
the file system knows, unless something is mounted there. -/
theorem lookupAnswer_eq (hcoherent : Coherent s)
    (hshort : ∀ d c, c ∈ (s.dentry d).children → (s.dentry c).name.length < dentryNameSize)
    (hmounts : ∀ d, ∃ m, s.vfsDentryFollowMountPoints (s.next + 1) d = .ok m) (hname : Proper name) :
    lookupAnswer (tmpfsOps creds now) creds s p name =
      tmpfsAnswer creds s.fs (s.dentry p).inode (mountedInode s p name) name := by
  unfold lookupAnswer vfsLookup tmpfsAnswer
  cases hj : (s.dentry p).inode with
  | none => rfl
  | some j => ?_
  dsimp only
  show answerInode <$> (if ¬ sIsDir (s.fs.attr j).mode then _ else _) = _
  split
  · rfl
  show answerInode <$> (if vfsUserPerm (s.fs.attr j) creds.euid creds.egid &&& permExecute = 0#32
    then _ else _) = _
  split
  · rfl
  rw [lookupIn, if_neg hname.1, if_neg hname.2,
    show ({ s with memory := [] } : Vfs Tmpfs).vfsInternalLookup p name =
      s.vfsInternalLookup p name from rfl]
  unfold mountedInode
  cases hc : s.vfsInternalLookup p name with
  | some c =>
    obtain ⟨hmem, rfl⟩ := mem_of_internalLookup hc
    obtain ⟨m, hm⟩ := hmounts c
    dsimp only
    rw [show ({ s with memory := [] } : Vfs Tmpfs).vfsDentryFollowMountPoints (s.next + 1) c = .ok m
      from (follow_memory [] _).trans hm]
    cases hshadow : (s.dentry c).shadow with
    | some x =>
      rw [hm]
      rfl
    | none => ?_
    -- a dentry that nothing is mounted on has the inode of its entry
    rw [follow_of_none hshadow] at hm
    cases hm
    obtain ⟨j', i, hj', hi, hentry⟩ := hcoherent p c hmem
    rw [hj] at hj'
    cases hj'
    rw [if_neg (by have := hshort p c hmem; omega), hentry]
    show (.ok (.ok (s.dentry c).inode) : Exec (Except Errno (Option Nat))) = _
    rw [hi]
  | none => ?_
  rw [lookupFs_memory]
  split
  · rfl
  unfold tmpfsLookup
  cases s.fs.tmpfsGetEntry j name <;> rfl

/-! ## Lookups keep the tree -/

/-- The dentries of a tree are there later, and nothing else is mounted on a name. -/
structure SameTree (N : Nat) (s s' : Vfs Tmpfs) : Prop where
  fs : s'.fs = s.fs
  next : s.next ≤ s'.next
  name : ∀ d < s.next, (s'.dentry d).name = (s.dentry d).name
  inode : ∀ d < s.next, (s'.dentry d).inode = (s.dentry d).inode
  children : ∀ d c, c ∈ (s.dentry d).children → c ∈ (s'.dentry d).children
  mounted : ∀ p < N, ∀ name, mountedInode s' p name = mountedInode s p name

theorem SameTree.refl (N : Nat) (s : Vfs Tmpfs) : SameTree N s s :=
  ⟨rfl, le_rfl, fun _ _ => rfl, fun _ _ => rfl, fun _ _ hc => hc, fun _ _ _ => rfl⟩

theorem SameTree.trans (h : SameTree N s s') (h' : SameTree N s' s'') : SameTree N s s'' where
  fs := h'.fs.trans h.fs
  next := h.next.trans h'.next
  name d hd := (h'.name d (hd.trans_le h.next)).trans (h.name d hd)
  inode d hd := (h'.inode d (hd.trans_le h.next)).trans (h.inode d hd)
  children d c hc := h'.children d c (h.children d c hc)
  mounted p hp name := (h'.mounted p hp name).trans (h.mounted p hp name)

theorem shadow_of_mounted_none (hc : s.vfsInternalLookup p name = some c)
    (hfollow : s.vfsDentryFollowMountPoints (s.next + 1) c = .ok m)
    (h : mountedInode s p name = none) : (s.dentry c).shadow = none := by
  unfold mountedInode at h
  rw [hc] at h
  dsimp only at h
  rw [hfollow] at h
  cases hs : (s.dentry c).shadow with
  | none => rfl
  | some x =>
    rw [hs] at h
    cases h

theorem mounted_none_of_lookup {P : Prop} [Decidable P]
    (hc : s.vfsInternalLookup p name = if P then some c else none)
    (hs : (s.dentry c).shadow = none) : mountedInode s p name = none := by
  unfold mountedInode
  rw [hc]
  split
  · rfl
  next x hx =>
  split at hx
  · cases hx
    rw [hs]
  cases hx

/-- What is mounted on a name does not depend on how many dentries there are. -/
theorem mountedInode_congr (h : TmpfsTree N s) (hnext : s.next ≤ s'.next)
    (hshadow : ∀ d < s.next, (s'.dentry d).shadow = (s.dentry d).shadow)
    (hinode : ∀ d < s.next, (s'.dentry d).inode = (s.dentry d).inode)
    (hlookup : s'.vfsInternalLookup p name = s.vfsInternalLookup p name) :
    mountedInode s' p name = mountedInode s p name := by
  unfold mountedInode
  rw [hlookup]
  cases hc : s.vfsInternalLookup p name with
  | none => rfl
  | some c => ?_
  have hlt := (h.child p c (mem_of_internalLookup hc).1).2.1
  obtain ⟨m, hm⟩ := h.mounts c
  have hm' : s'.vfsDentryFollowMountPoints (s'.next + 1) c = .ok m := by
    rw [follow_congr hshadow h.shadow_lt hlt]
    obtain ⟨k, hk⟩ := Nat.exists_eq_add_of_le hnext
    rw [hk, Nat.add_right_comm]
    exact follow_mono hm k
  dsimp only
  rw [hm, hm', hshadow c hlt]
  cases (s.dentry c).shadow with
  | none => rfl
  | some _ => exact congrArg some (hinode m (follow_lt h.shadow_lt hlt hm))

/-- A dentry has been allocated, and hangs from nothing yet. -/
structure Adds (s s' : Vfs Tmpfs) : Prop where
  fs : s'.fs = s.fs
  next : s'.next = s.next + 1
  old : ∀ d, d ≠ s.next → s'.dentry d = s.dentry d
  children : (s'.dentry s.next).children = []
  shadow : (s'.dentry s.next).shadow = none

theorem Adds.allocate (h : s.vfsDentryAllocate = (s', some c)) :
    c = s.next ∧ s'.dentry s.next = .blank ∧ Adds s s' := by
  obtain ⟨rfl, hdentry, hnext, hfs⟩ := allocate_eq h
  have hself : s'.dentry s.next = .blank := by rw [hdentry, setDentry_self]
  exact ⟨rfl, hself, hfs, hnext, fun d hd => by rw [hdentry, setDentry_of_ne _ _ hd],
    by rw [hself]; rfl, by rw [hself]; rfl⟩

theorem Adds.set (h : Adds s s') {x : Dentry} (hchildren : x.children = [])
    (hshadow : x.shadow = none) : Adds s (s'.setDentry s.next x) where
  fs := h.fs
  next := h.next
  old d hd := (setDentry_of_ne _ _ hd).trans (h.old d hd)
  children := by rw [setDentry_self, hchildren]
  shadow := by rw [setDentry_self, hshadow]

theorem Adds.mem (he : Adds s s') (h : TmpfsTree N s) (hc : c ∈ (s'.dentry d).children) :
    c ∈ (s.dentry d).children ∧ c < s.next ∧ s'.dentry d = s.dentry d ∧
      s'.dentry c = s.dentry c := by
  by_cases hd : d = s.next
  · rw [hd, he.children] at hc
    cases hc
  rw [he.old d hd] at hc
  have hlt := (h.child d c hc).2.1
  exact ⟨hc, hlt, he.old d hd, he.old c (by omega)⟩

section

variable (h : TmpfsTree N s)

include h

/-- **A dentry is allocated.** -/
theorem TmpfsTree.extend (he : Adds s s') : TmpfsTree N s' ∧ SameTree N s s' := by
  have hbound := h.bound
  have hnext := he.next
  have hlt (d : Nat) (hd : d < s.next) : s'.dentry d = s.dentry d := he.old d (by omega)
  have hnew (d m : Nat) (hm : (s'.dentry d).shadow = some m) : (s.dentry d).shadow = some m := by
    by_cases hd : d = s.next
    · rw [hd, he.shadow] at hm
      cases hm
    rwa [he.old d hd] at hm
  refine ⟨⟨by omega, he.fs ▸ h.unique, fun d c hc => ?_, fun d => ?_, fun d c c' hc hc' heq => ?_,
    fun d c hc => ?_, fun d m hm => ?_, fun d => ?_, fun d d' j hd hd' hj hj' hdir => ?_,
    fun d c hc => ?_⟩, ⟨he.fs, by omega, fun d hd => by rw [hlt d hd], fun d hd => by rw [hlt d hd],
    fun d c hc => ?_, fun p hp name => ?_⟩⟩
  · obtain ⟨hc, -, -, hdentry⟩ := he.mem h hc
    obtain ⟨hd, hc', hparent⟩ := h.child d c hc
    exact ⟨hd, by omega, by rw [hdentry, hparent]⟩
  · by_cases hd : d = s.next
    · rw [hd, he.children]
      exact nodup_nil
    rw [he.old d hd]
    exact h.nodup d
  · obtain ⟨hc, -, -, hdentry⟩ := he.mem h hc
    obtain ⟨hc', -, -, hdentry'⟩ := he.mem h hc'
    rw [hdentry, hdentry'] at heq
    exact h.names d c c' hc hc' heq
  · obtain ⟨hc, -, -, hdentry⟩ := he.mem h hc
    rw [hdentry]
    exact h.short d c hc
  · have := h.shadow_lt d m (hnew d m hm)
    omega
  · by_cases hd : d = s.next
    · exact ⟨d, follow_of_none (hd ▸ he.shadow)⟩
    -- from any other dentry the same roots are reached
    obtain ⟨m, hm⟩ := h.mounts d
    refine ⟨m, (follow_congr (fun d hd => by rw [he.old d hd])
      (fun d m hm => (h.shadow_lt d m hm).ne) hd).trans ?_⟩
    rw [hnext]
    exact follow_mono hm 1
  · rw [hlt d (by omega)] at hj
    rw [hlt d' (by omega)] at hj'
    exact h.one d d' j hd hd' hj hj' (he.fs ▸ hdir)
  · obtain ⟨hc, -, hd, hdentry⟩ := he.mem h hc
    rw [hd, hdentry, he.fs]
    exact h.coherent d c hc
  · rw [hlt d (by have := h.child d c hc; omega)]
    exact hc
  refine mountedInode_congr h (by omega) (fun d hd => by rw [hlt d hd])
    (fun d hd => by rw [hlt d hd]) ?_
  refine internalLookup_congr (by rw [hlt p (by omega)]) fun c hc => ?_
  rw [hlt c (h.child p c hc).2.1]

/-- **A dentry is linked** below a directory that has an entry of its name and inode. -/
theorem TmpfsTree.link (hp : p < N) (hc : N ≤ c) (hlt : c < s.next)
    (horphan : ∀ d, c ∉ (s.dentry d).children) (hshadow : (s.dentry c).shadow = none)
    (hnames : ∀ c' ∈ (s.dentry p).children, (s.dentry c').name ≠ (s.dentry c).name)
    (hshort : (s.dentry c).name.length < dentryNameSize)
    (hentry : ∃ j i, (s.dentry p).inode = some j ∧ (s.dentry c).inode = some i ∧
      s.fs.tmpfsGetEntry j (s.dentry c).name = some i) :
    TmpfsTree N (s.vfsDentryAdd p c) ∧ SameTree N s (s.vfsDentryAdd p c) ∧
      c ∈ ((s.vfsDentryAdd p c).dentry p).children := by
  have hname (d : Nat) := unlinked_name.add s p c d
  have hinode (d : Nat) := unlinked_inode.add s p c d
  have hshadow' (d : Nat) := unlinked_shadow.add s p c d
  have hself : ((s.vfsDentryAdd p c).dentry p).children = (s.dentry p).children ++ [c] := by
    rw [add_children, if_pos rfl]
  have hother (d : Nat) (hd : d ≠ p) :
      ((s.vfsDentryAdd p c).dentry d).children = (s.dentry d).children := by
    rw [add_children, if_neg hd]
  have hmem (d c' : Nat) (hc' : c' ∈ ((s.vfsDentryAdd p c).dentry d).children) :
      c' ∈ (s.dentry d).children ∨ d = p ∧ c' = c := by
    by_cases hd : d = p
    · grind
    rw [hother d hd] at hc'
    exact .inl hc'
  refine ⟨⟨h.bound, h.unique, fun d c' hc' => ?_, fun d => ?_, fun d c1 c2 h1 h2 heq => ?_,
    fun d c' hc' => ?_, fun d m hm => h.shadow_lt d m ((hshadow' d).symm.trans hm), fun d => ?_,
    fun d d' j hd hd' hj hj' hdir => h.one d d' j hd hd' ((hinode d).symm.trans hj)
      ((hinode d').symm.trans hj') hdir, fun d c' hc' => ?_⟩,
    ⟨rfl, le_rfl, fun d _ => hname d, fun d _ => hinode d, fun d c' hc' => ?_,
      fun q hq name => ?_⟩, ?_⟩
  · rcases hmem d c' hc' with hin | ⟨rfl, rfl⟩
    · obtain ⟨hd, hlt', hp'⟩ := h.child d c' hin
      refine ⟨hd, hlt', ?_⟩
      rw [add_parent, if_neg, hp']
      rintro rfl
      exact horphan d hin
    exact ⟨hp, hlt, by rw [add_parent, if_pos rfl]⟩
  · by_cases hd : d = p
    · rw [hd, hself, nodup_append]
      refine ⟨h.nodup p, nodup_singleton _, fun x hx y hy => ?_⟩
      rw [mem_singleton] at hy
      rintro rfl
      exact horphan p (hy ▸ hx)
    rw [hother d hd]
    exact h.nodup d
  · rw [hname, hname] at heq
    rcases hmem d c1 h1 with in1 | ⟨hd, rfl⟩
    · rcases hmem d c2 h2 with in2 | ⟨rfl, rfl⟩
      · exact h.names d c1 c2 in1 in2 heq
      exact absurd heq (hnames c1 in1)
    grind
  · rw [hname]
    rcases hmem d c' hc' with hc' | ⟨rfl, rfl⟩
    · exact h.short d c' hc'
    exact hshort
  · rw [follow_eq_of_shadow hshadow']
    exact h.mounts d
  · rw [hinode, hinode, hname]
    rcases hmem d c' hc' with hc' | ⟨rfl, rfl⟩
    · exact h.coherent d c' hc'
    exact hentry
  · grind
  · by_cases hq' : q = p ∧ name = (s.dentry c).name
    · -- nothing was cached under the name, and nothing is mounted on the new dentry
      obtain ⟨rfl, rfl⟩ := hq'
      have hnone : s.vfsInternalLookup q (s.dentry c).name = none := by
        simpa [vfsInternalLookup] using hnames
      have hsome : (s.vfsDentryAdd q c).vfsInternalLookup q (s.dentry c).name = some c := by
        unfold vfsInternalLookup at hnone ⊢
        simp only [hself, hname, List.find?_append, hnone]
        simp
      simp only [mountedInode, hnone, hsome, hshadow', hshadow]
    refine mountedInode_congr h (le_rfl) (fun d _ => hshadow' d) (fun d _ => hinode d) ?_
    unfold vfsInternalLookup
    by_cases hqp : q = p
    · grind
    simp only [hother q hqp, hname]
  rw [hself]
  exact mem_append_right _ (mem_singleton.2 rfl)

theorem TmpfsTree.memory (memory : List Bool) :
    TmpfsTree N { s with memory } ∧ SameTree N s { s with memory } := by
  refine ⟨{ h with mounts := fun d => ?_ }, { SameTree.refl N s with mounted := fun p _ name => ?_ }⟩
  · rw [follow_memory]
    exact h.mounts d
  exact mountedInode_congr h (le_rfl) (fun _ _ => rfl) (fun _ _ => rfl) rfl

/-- What the lookup of a name on which nothing is mounted finds. -/
def Finds (s : Vfs Tmpfs) (p : Nat) (name : List Char) : Except Errno Nat → Prop
  | .ok c => c ∈ (s.dentry p).children ∧ (s.dentry c).name = name
  | .error .noent => ∀ c ∈ (s.dentry p).children, (s.dentry c).name ≠ name
  | .error _ => True

theorem TmpfsTree.linkNew (hp : p < N) (he : Adds s s') {i : Nat}
    (hnew : s'.dentry s.next = { Dentry.blank with name, inode := some i })
    (hnames : ∀ c ∈ (s.dentry p).children, (s.dentry c).name ≠ name)
    (hshort : name.length < dentryNameSize) (hj : (s.dentry p).inode = some j)
    (hentry : s.fs.tmpfsGetEntry j name = some i) :
    TmpfsTree N (s'.vfsDentryAdd p s.next) ∧ SameTree N s (s'.vfsDentryAdd p s.next) ∧
      Finds (s'.vfsDentryAdd p s.next) p name (.ok s.next) := by
  have hbound := h.bound
  have hnext := he.next
  obtain ⟨htree, hsame⟩ := h.extend he
  have hother (c : Nat) (hc : c ∈ (s'.dentry p).children) :
      (s'.dentry c).name ≠ (s'.dentry s.next).name := by
    obtain ⟨hc, -, -, hdentry⟩ := he.mem h hc
    rw [hdentry, hnew]
    exact hnames c hc
  obtain ⟨htree', hsame', hin⟩ := htree.link hp hbound (by omega)
    (fun d hd => lt_irrefl _ (he.mem h hd).2.1) he.shadow hother (by rw [hnew]; exact hshort)
    ⟨j, i, by rw [he.old p (by omega), hj], by rw [hnew], by rw [hnew, he.fs]; exact hentry⟩
  exact ⟨htree', hsame.trans hsame', hin, (unlinked_name.add _ _ _ _).trans (by rw [hnew])⟩

/-- The lookup of a name that is not in the tree. -/
theorem lookupFs_tree (hp : p < N) (hj : (s.dentry p).inode = some j)
    (hnone : s.vfsInternalLookup p name = none)
    (hrun : lookupFs (tmpfsOps creds now) s p j name = .ok (s', r)) :
    TmpfsTree N s' ∧ SameTree N s s' ∧ Finds s' p name r := by
  have hnames := internalLookup_none hnone
  unfold lookupFs at hrun
  simp only [tmpfsOps] at hrun
  cases halloc : s.vfsDentryAllocate with
  | mk s1 c => ?_
  rw [halloc] at hrun
  cases c with
  | none =>
    cases hrun
    rw [allocate_none halloc]
    obtain ⟨htree, hsame⟩ := h.memory s'.memory
    exact ⟨htree, hsame, trivial⟩
  | some c => ?_
  obtain ⟨rfl, hself, he⟩ := Adds.allocate halloc
  dsimp only at hrun
  split at hrun
  · cases hrun
  next hlong =>
  unfold tmpfsLookup at hrun
  cases hentry : s.fs.tmpfsGetEntry j name with
  | none =>
    rw [hentry] at hrun
    cases hrun
    have he' : Adds s { s1 with fs := s.fs } := { he with fs := rfl }
    obtain ⟨htree, hsame⟩ := h.extend he'
    refine ⟨htree, hsame, fun c hc => ?_⟩
    obtain ⟨hc, -, -, hdentry⟩ := he'.mem h hc
    rw [hdentry]
    exact hnames c hc
  | some i => ?_
  rw [hentry] at hrun
  cases hrun
  rw [hself]
  have he' : Adds s { s1.setDentry s.next { blank with name, inode := some i } with
    fs := s.fs } := { he.set rfl rfl with fs := rfl }
  exact h.linkNew hp he' (setDentry_self ..) hnames (by omega) hj hentry

/-- **One lookup** of a name on which nothing is mounted. -/
theorem lookup_tree (hp : p < N) (hname : Proper name) (hmounted : mountedInode s p name = none)
    (hrun : vfsLookup (tmpfsOps creds now) creds s p name = .ok (s', r)) :
    TmpfsTree N s' ∧ SameTree N s s' ∧ Finds s' p name r := by
  unfold vfsLookup at hrun
  cases hj : (s.dentry p).inode with
  | none =>
    rw [hj] at hrun
    cases hrun
    exact ⟨h, .refl N _, trivial⟩
  | some j => ?_
  rw [hj] at hrun
  dsimp only at hrun
  iterate 2
    split at hrun
    · cases hrun
      exact ⟨h, .refl N _, trivial⟩
  rw [lookupIn, if_neg hname.1, if_neg hname.2] at hrun
  cases hc : s.vfsInternalLookup p name with
  | none =>
    rw [hc] at hrun
    exact lookupFs_tree h hp hj hc hrun
  | some c => ?_
  rw [hc] at hrun
  obtain ⟨m, hm, hrun⟩ := bind_eq_ok.1 hrun
  cases hrun
  rw [follow_of_none (shadow_of_mounted_none hc hm hmounted)] at hm
  cases hm
  exact ⟨h, .refl N _, mem_of_internalLookup hc⟩

end

/-! ## A rename -/

/-- A directory that the process may look names up in. -/
def SearchableDir (creds : Creds) (s : Vfs Tmpfs) (p j : Nat) : Prop :=
  (s.dentry p).inode = some j ∧ sIsDir (s.fs.attr j).mode ∧
    vfsUserPerm (s.fs.attr j) creds.euid creds.egid &&& permExecute ≠ 0#32

theorem lookup_searchable (hj : (s.dentry p).inode = some j)
    (hrun : vfsLookup (tmpfsOps creds now) creds s p name = .ok (s', r))
    (hr : (∃ c, r = .ok c) ∨ r = .error .noent) : SearchableDir creds s p j := by
  unfold vfsLookup at hrun
  rw [hj] at hrun
  dsimp only at hrun
  iterate 2
    split at hrun
    · cases hrun
      rcases hr with ⟨c, hc⟩ | hc <;> cases hc
  next hdir hperm => exact ⟨hj, not_not.1 hdir, hperm⟩

/-- The dentry of the new name: one that was there, or a new one without an inode. -/
structure IsTarget (s : Vfs Tmpfs) (p : Nat) (name : List Char) (new : Nat) : Prop where
  named : (s.dentry new).name = name
  short : name.length < dentryNameSize
  there : (s.dentry new).inode ≠ none → new ∈ (s.dentry p).children
  absent : (s.dentry new).inode = none → ∀ c ∈ (s.dentry p).children, (s.dentry c).name ≠ name

/-- The lookup of the new name, and a new dentry if there is none. -/
theorem renameTarget_tree (h : TmpfsTree N s) (hp : p < N) (hname : Proper name)
    (hmounted : mountedInode s p name = none) {x : Vfs Tmpfs × Except Errno Nat} {new : Nat}
    (hlookup : vfsLookup (tmpfsOps creds now) creds s p name = .ok x)
    (hrun : renameTarget name x = .ok (s', .ok new)) :
    TmpfsTree N s' ∧ SameTree N s s' ∧ IsTarget s' p name new ∧
      ((∃ c, x.2 = .ok c) ∨ x.2 = .error .noent) := by
  obtain ⟨s1, r⟩ := x
  obtain ⟨htree, hsame, hfinds⟩ := lookup_tree h hp hname hmounted hlookup
  cases r with
  | ok c =>
    cases hrun
    obtain ⟨hmem, hc⟩ := hfinds
    obtain ⟨j, i, -, hi, -⟩ := htree.coherent p new hmem
    refine ⟨htree, hsame, ⟨hc, hc ▸ htree.short p new hmem, fun _ => hmem, fun hnone => ?_⟩,
      .inl ⟨new, rfl⟩⟩
    rw [hi] at hnone
    cases hnone
  | error e => ?_
  have hnoent : e = .noent := by
    cases e with
    | noent => rfl
    | _ => cases hrun
  subst hnoent
  simp only [renameTarget] at hrun
  cases halloc : s1.vfsDentryAllocate with
  | mk s₂ c => ?_
  rw [halloc] at hrun
  cases c with
  | none => cases hrun
  | some c => ?_
  obtain ⟨rfl, hself, he⟩ := Adds.allocate halloc
  dsimp only at hrun
  split at hrun
  · cases hrun
  next hlong =>
  cases hrun
  rw [hself]
  have he' := he.set (x := { blank with name }) rfl rfl
  obtain ⟨htree', hsame'⟩ := htree.extend he'
  refine ⟨htree', hsame.trans hsame', ⟨by rw [setDentry_self], by omega, fun hsome => ?_,
    fun _ c hc => ?_⟩, .inr rfl⟩
  · rw [setDentry_self] at hsome
    exact absurd rfl hsome
  obtain ⟨hc, -, -, hdentry⟩ := he'.mem htree hc
  rw [hdentry]
  exact hfinds c hc

/-- What a successful rename consists of: the lookups lead to a tree with the two dentries, the file
system renames the entry, and the dentry is moved. -/
structure RenameRun (creds : Creds) (N : Nat) (s s' s₂ : Vfs Tmpfs) (oldParent : Nat)
    (oldName : List Char) (newParent : Nat) (newName : List Char) (i j old new : Nat) (fs : Tmpfs) :
    Prop where
  tree : TmpfsTree N s₂
  same : SameTree N s s₂
  oldDir : SearchableDir creds s₂ oldParent i
  newDir : SearchableDir creds s₂ newParent j
  mem : old ∈ (s₂.dentry oldParent).children
  named : (s₂.dentry old).name = oldName
  target : IsTarget s₂ newParent newName new
  rename : s₂.fs.tmpfsRename i oldName j newName = .ok (fs, .ok ())
  eq : s' = { s₂.moveDentry old new newParent with fs }

section Run

variable {s₂ : Vfs Tmpfs} {oldParent newParent i j old new : Nat} {oldName newName : List Char}
  {fs : Tmpfs}

/-- **Inversion of a rename** of a name on which nothing is mounted to another such name. -/
theorem rename_run (h : TmpfsTree N s) (hold : oldParent < N) (hnew : newParent < N)
    (hon : Proper oldName) (hnn : Proper newName) (hom : mountedInode s oldParent oldName = none)
    (hnm : mountedInode s newParent newName = none)
    (hrun : vfsRenameIn (tmpfsOps creds now) creds s oldParent oldName newParent newName =
      .ok (s', .ok ())) :
    ∃ s₂ i j old new fs, RenameRun creds N s s' s₂ oldParent oldName newParent newName i j old new
      fs := by
  obtain ⟨i, hi, hrun⟩ := bind_eq_ok.1 hrun
  obtain ⟨j, hj, hrun⟩ := bind_eq_ok.1 hrun
  rw [deref_eq_ok] at hi hj
  split at hrun
  · cases hrun
  obtain ⟨⟨s1, r⟩, hlookup, hrun⟩ := bind_eq_ok.1 hrun
  cases r with
  | error _ => cases hrun
  | ok old => ?_
  obtain ⟨htree1, hsame1, hmem, hname⟩ := lookup_tree h hold hon hom hlookup
  have hdir := lookup_searchable hi hlookup (.inl ⟨old, rfl⟩)
  obtain ⟨x, hlookup2, hrun⟩ := bind_eq_ok.1 hrun
  obtain ⟨⟨s₂, t⟩, htarget, hfinish⟩ := bind_eq_ok.1 hrun
  cases t with
  | error _ => cases hfinish
  | ok new => ?_
  have hbound := h.bound
  obtain ⟨htree, hsame2, histarget, hfound⟩ := renameTarget_tree htree1 hnew hnn
    ((hsame1.mounted newParent hnew newName).trans hnm) hlookup2 htarget
  have hsame := hsame1.trans hsame2
  have hj1 := (hsame1.inode newParent (by omega)).trans hj
  have hdir' := lookup_searchable hj1 hlookup2 hfound
  obtain ⟨allowed, -, hasked⟩ := bind_eq_ok.1 hfinish
  cases allowed with
  | false => cases hasked
  | true => ?_
  have hlt : old < s1.next := (htree1.child oldParent old hmem).2.1
  have hname2 := (hsame2.name old hlt).trans hname
  simp only [if_true, renameAllowed] at hasked
  split at hasked
  · cases hasked
  obtain ⟨⟨fs, answer⟩, hfs, hanswer⟩ := bind_eq_ok.1 hasked
  cases answer with
  | error _ => cases hanswer
  | ok _ => ?_
  cases hanswer
  rw [hname2, histarget.named] at hfs
  refine ⟨s₂, i, j, old, new, fs, htree, hsame, ?_, ?_, hsame2.children _ _ hmem, hname2,
    histarget, hfs, rfl⟩
  · exact ⟨(hsame.inode oldParent (by omega)).trans hi, hsame.fs ▸ hdir.2⟩
  refine ⟨(hsame2.inode newParent ?_).trans hj1, hsame2.fs ▸ hdir'.2⟩
  have := hsame1.next
  omega

/-- The dentries that a rename leaves where they are. -/
def stays (s : Vfs Tmpfs) (old new c : Nat) : Bool :=
  c ≠ old && (c ≠ new || (s.dentry new).inode = none)

section

variable (h : RenameRun creds N s s' s₂ oldParent oldName newParent newName i j old new fs)
include h

/-- **The children after a rename**: those that stay, and the renamed one at the end of the new
directory. -/
theorem RenameRun.children (hne : old ≠ new) (d : Nat) :
    (s'.dentry d).children = (s₂.dentry d).children.filter (stays s₂ old new) ++
      if d = newParent then [old] else [] := by
  have htree := h.tree
  have hp := (htree.child _ _ h.mem).2.2
  -- the dentry of the new name goes
  have hfirst : ∃ s3 : Vfs Tmpfs,
      s'.dentry = ((s3.vfsDentryRemove old).vfsDentryAdd newParent old).dentry ∧
      (s3.dentry old).parent = some oldParent ∧ ∀ d, (s3.dentry d).children =
        (s₂.dentry d).children.filter (fun c => c ≠ new || (s₂.dentry new).inode = none) := by
    rw [h.eq]
    unfold moveDentry
    split
    · next hsome =>
      have hmem := h.target.there hsome
      have hpn := (htree.child _ _ hmem).2.2
      have hfield (d : Nat) := setDentry_field s₂ (f := fun x => (x.parent, x.children))
        (x := { s₂.dentry new with unlinked := true }) rfl d
      simp only [Prod.mk.injEq] at hfield
      refine ⟨s₂.vfsUnlinkDentry new, rfl, ?_, fun d => ?_⟩
      · rw [vfsUnlinkDentry, remove_parent, if_neg hne, (hfield old).1, hp]
      rw [vfsUnlinkDentry, remove_children_filter _ ((hfield new).1.trans hpn)
        (by rw [(hfield newParent).2]; exact hmem) (by rw [(hfield newParent).2]; exact htree.nodup _)
        (fun d hd => by
          rw [(hfield d).2]
          exact fun hin => hd (Option.some.inj ((htree.child d new hin).2.2.symm.trans hpn))),
        (hfield d).2]
      simp [hsome]
    next hnone =>
    rw [not_not] at hnone
    refine ⟨s₂, rfl, hp, fun d => ?_⟩
    simp [hnone]
  obtain ⟨s3, heq, hp3, hchildren⟩ := hfirst
  rw [heq, add_children]
  have hremove := remove_children_filter s3 hp3
    (by rw [hchildren]; exact mem_filter.2 ⟨h.mem, by simp [hne]⟩)
    (by rw [hchildren]; exact (htree.nodup _).filter _)
    (fun d hd => by
      rw [hchildren]
      exact fun hin => hd (Option.some.inj
        ((htree.child d old (mem_filter.1 hin).1).2.2.symm.trans hp)))
  rw [hremove, hremove, hchildren, hchildren, filter_filter, filter_filter]
  split
  · next hd =>
    rw [hd]
    rfl
  rw [append_nil]
  rfl

theorem RenameRun.ne (hdiff : ¬ (i = j ∧ oldName = newName)) : old ≠ new := by
  rintro rfl
  obtain ⟨i', k, hi', hk, -⟩ := h.tree.coherent _ _ h.mem
  have hin := h.target.there (by rw [hk]; exact Option.some_ne_none k)
  have hp : oldParent = newParent := Option.some.inj
    ((h.tree.child _ _ h.mem).2.2.symm.trans (h.tree.child _ _ hin).2.2)
  have hi := h.oldDir.1
  rw [hp, h.newDir.1] at hi
  exact hdiff ⟨(Option.some.inj hi).symm, h.named.symm.trans h.target.named⟩

theorem RenameRun.field {β : Type} {f : Dentry → β} (hf : Unlinked f) (d : Nat) :
    f (s'.dentry d) = f (s₂.dentry d) := by
  rw [h.eq]
  exact hf.move s₂ old new newParent d

theorem RenameRun.shadow (hold : oldParent < N) (hom : mountedInode s oldParent oldName = none) :
    (s₂.dentry old).shadow = none := by
  have hlookup : s₂.vfsInternalLookup oldParent oldName = some old := by
    cases hc : s₂.vfsInternalLookup oldParent oldName with
    | none => exact absurd h.named (internalLookup_none hc old h.mem)
    | some c =>
      obtain ⟨hmem, hname⟩ := mem_of_internalLookup hc
      rw [h.tree.names _ c old hmem h.mem (hname.trans h.named.symm)]
  have hm := (h.same.mounted oldParent hold oldName).trans hom
  obtain ⟨m, hfollow⟩ := h.tree.mounts old
  exact shadow_of_mounted_none hlookup hfollow hm

section

variable (hne : old ≠ new)

include hne

/-- **The search after a rename**: among the dentries that stay, and then the renamed one in the new
directory. -/
theorem RenameRun.internalLookup (p : Nat) (name : List Char) :
    s'.vfsInternalLookup p name =
      ((s₂.dentry p).children.find? fun c => stays s₂ old new c && decide ((s₂.dentry c).name = name)).or
        (if p = newParent ∧ oldName = name then some old else none) := by
  have hname (d : Nat) := h.field unlinked_name d
  unfold vfsInternalLookup
  simp only [hname]
  rw [h.children hne, List.find?_append, List.find?_filter]
  refine congrArg₂ Option.or ?_ ?_
  · congr 1
    funext c
    by_cases hc : stays s₂ old new c = true <;> simp [hc]
  by_cases hp : p = newParent
  · by_cases hn : oldName = name
    · simp [hp, hn, h.named]
    simp [hp, hn, h.named]
  simp [hp]

/-- A name other than the two is looked up as before, but for the old name in the new directory. -/
theorem RenameRun.internalLookup_other (hold : ¬ (p = oldParent ∧ name = oldName))
    (hnew : ¬ (p = newParent ∧ name = newName)) :
    s'.vfsInternalLookup p name = (s₂.vfsInternalLookup p name).or
      (if p = newParent ∧ oldName = name then some old else none) := by
  rw [h.internalLookup hne]
  congr 1
  have hstays : ∀ c ∈ (s₂.dentry p).children, (s₂.dentry c).name = name → stays s₂ old new c = true := by
    intro c hc hcn
    have hp := (h.tree.child p c hc).2.2
    have hco : c ≠ old := by
      rintro rfl
      refine hold ⟨Option.some.inj (hp.symm.trans (h.tree.child _ _ h.mem).2.2), ?_⟩
      exact hcn.symm.trans h.named
    simp only [stays, hco, ne_eq, not_false_eq_true, decide_true, Bool.true_and, Bool.or_eq_true,
      decide_eq_true_eq]
    by_cases hnone : (s₂.dentry new).inode = none
    · exact .inr hnone
    refine .inl ?_
    rintro rfl
    refine hnew ⟨Option.some.inj (hp.symm.trans (h.tree.child _ _ (h.target.there hnone)).2.2), ?_⟩
    exact hcn.symm.trans h.target.named
  refine List.find?_congr fun c hc => ?_
  by_cases hcn : (s₂.dentry c).name = name
  · simp [hcn, hstays c hc hcn]
  simp [hcn]

theorem RenameRun.mounted_other (hshadow : (s₂.dentry old).shadow = none) (hp : p < N)
    (hold : ¬ (p = oldParent ∧ name = oldName)) (hnew : ¬ (p = newParent ∧ name = newName)) :
    mountedInode s' p name = mountedInode s p name := by
  rw [← h.same.mounted p hp name]
  have hnext : s'.next = s₂.next := by
    rw [h.eq]
    exact moveDentry_next s₂ old new newParent
  have hlookup := h.internalLookup_other hne hold hnew
  cases hc : s₂.vfsInternalLookup p name with
  | some c =>
    rw [hc, Option.some_or, ← hc] at hlookup
    exact mountedInode_congr h.tree (by omega) (fun d _ => h.field unlinked_shadow d)
      (fun d _ => h.field unlinked_inode d) hlookup
  | none =>
    rw [hc] at hlookup
    rw [mounted_none_of_lookup hlookup ((h.field unlinked_shadow old).trans hshadow), mountedInode, hc]

theorem RenameRun.mounted_none (hshadow : (s₂.dentry old).shadow = none)
    (hfree : ∀ c ∈ (s₂.dentry p).children, stays s₂ old new c = true → (s₂.dentry c).name ≠ name) :
    mountedInode s' p name = none := by
  have hlookup := h.internalLookup hne p name
  have hnone : ((s₂.dentry p).children.find? fun c => stays s₂ old new c &&
      decide ((s₂.dentry c).name = name)) = none := by
    refine List.find?_eq_none.2 fun c hc hboth => ?_
    rw [Bool.and_eq_true, decide_eq_true_eq] at hboth
    exact hfree c hc hboth.1 hboth.2
  rw [hnone] at hlookup
  exact mounted_none_of_lookup hlookup ((h.field unlinked_shadow old).trans hshadow)

end

theorem RenameRun.name_ne_old (hc : c ∈ (s₂.dentry oldParent).children)
    (hstays : stays s₂ old new c = true) : (s₂.dentry c).name ≠ oldName := fun hcn => by
  simp only [stays, Bool.and_eq_true, decide_eq_true_eq] at hstays
  exact hstays.1 (h.tree.names _ c old hc h.mem (hcn.trans h.named.symm))

theorem RenameRun.name_ne_new (hc : c ∈ (s₂.dentry newParent).children)
    (hstays : stays s₂ old new c = true) : (s₂.dentry c).name ≠ newName := fun hcn => by
  simp only [stays, Bool.and_eq_true, decide_eq_true_eq, Bool.or_eq_true] at hstays
  by_cases hnone : (s₂.dentry new).inode = none
  · exact h.target.absent hnone c hc hcn
  · exact hstays.2.elim (fun hne => hne (h.tree.names _ c new hc (h.target.there hnone)
      (hcn.trans h.target.named.symm))) hnone

/-- **The dentries agree with the file system** after a rename exactly if the new directory has, under
the old name, the inode that was renamed. -/
theorem RenameRun.coherent_iff (hold : oldParent < N) (hnew : newParent < N) :
    Coherent s' ↔ i ≠ j ∧ (oldName = newName ∨
      s₂.fs.tmpfsGetEntry j oldName = s₂.fs.tmpfsGetEntry i oldName) := by
  obtain ⟨k, hk, hdiff, -, hattr, -, hget⟩ := tmpfsRename_spec h.tree.unique h.rename
  have hne := h.ne hdiff
  have hfs : s'.fs = fs := by rw [h.eq]
  have hinode (d : Nat) := h.field unlinked_inode d
  have hname (d : Nat) := h.field unlinked_name d
  -- the renamed dentry has the inode of the old entry
  have hold_inode : (s₂.dentry old).inode = some k := by
    obtain ⟨i', k', hi', hk', hentry⟩ := h.tree.coherent _ _ h.mem
    rw [h.oldDir.1] at hi'
    cases hi'
    rw [h.named, hk] at hentry
    rw [hk', hentry]
  constructor
  · intro hcoherent
    have hin : old ∈ (s'.dentry newParent).children := by
      rw [h.children hne, if_pos rfl]
      exact mem_append_right _ (mem_singleton.2 rfl)
    obtain ⟨j', k', hj', hk', hentry⟩ := hcoherent _ _ hin
    rw [hinode, h.newDir.1] at hj'
    cases hj'
    rw [hinode, hold_inode] at hk'
    cases hk'
    rw [hname, h.named, hfs, hget] at hentry
    split at hentry
    · cases hentry
    next hnot =>
    have hij : i ≠ j := fun heq => hnot ⟨heq.symm, rfl⟩
    refine ⟨hij, ?_⟩
    split at hentry
    · next hsame => exact .inl hsame.2
    exact .inr (hentry.trans hk.symm)
  rintro ⟨hij, hcond⟩ d c hc
  rw [h.children hne, mem_append, mem_filter] at hc
  rw [hinode, hinode, hname, hfs]
  rcases hc with ⟨hc, hstays⟩ | hc
  · obtain ⟨j', k', hj', hk', hentry⟩ := h.tree.coherent d c hc
    refine ⟨j', k', hj', hk', ?_⟩
    have hd := (h.tree.child d c hc).1
    rw [hget, if_neg, if_neg, hentry]
    · rintro ⟨rfl, hcn⟩
      have hp := h.tree.one d newParent j' hd hnew hj' h.newDir.1 h.newDir.2.1
      exact h.name_ne_new (hp ▸ hc) hstays hcn
    rintro ⟨rfl, hcn⟩
    have hp := h.tree.one d oldParent j' hd hold hj' h.oldDir.1 h.oldDir.2.1
    exact h.name_ne_old (hp ▸ hc) hstays hcn
  split at hc
  · next hd =>
    rw [mem_singleton] at hc
    subst hd hc
    refine ⟨j, k, h.newDir.1, hold_inode, ?_⟩
    rw [h.named, hget, if_neg (fun heq => hij heq.1.symm)]
    split
    · rfl
    next hnot =>
    rcases hcond with hcond | hcond
    · exact absurd ⟨rfl, hcond⟩ hnot
    rw [hcond, hk]
  cases hc

theorem RenameRun.answer (hne : old ≠ new) (hcoherent : Coherent s') (hname : Proper name)
    (now : Int) (p : Nat) :
    lookupAnswer (tmpfsOps creds now) creds s' p name =
      tmpfsAnswer creds fs (s₂.dentry p).inode (mountedInode s' p name) name := by
  have hnext : s'.next = s₂.next := by
    rw [h.eq]
    exact moveDentry_next s₂ old new newParent
  have hshort (d c : Nat) (hc : c ∈ (s'.dentry d).children) :
      (s'.dentry c).name.length < dentryNameSize := by
    rw [h.field unlinked_name]
    rw [h.children hne, mem_append, mem_filter] at hc
    rcases hc with ⟨hc, -⟩ | hc
    · exact h.tree.short d c hc
    split at hc
    · rw [mem_singleton.1 hc]
      exact h.tree.short _ _ h.mem
    cases hc
  have hmounts (d : Nat) : ∃ m, s'.vfsDentryFollowMountPoints (s'.next + 1) d = .ok m := by
    rw [hnext, follow_eq_of_shadow (h.field unlinked_shadow)]
    exact h.tree.mounts d
  rw [lookupAnswer_eq hcoherent hshort hmounts hname, h.field unlinked_inode, h.eq]

end

theorem tmpfsAnswer_searchable {fs : Tmpfs} (hdir : sIsDir (fs.attr j).mode)
    (hperm : vfsUserPerm (fs.attr j) creds.euid creds.egid &&& permExecute ≠ 0#32)
    (hshort : name.length < dentryNameSize) :
    tmpfsAnswer creds fs (some j) none name = match fs.tmpfsGetEntry j name with
      | none => .ok (.error .noent)
      | some i => .ok (.ok (some i)) := by
  simp only [tmpfsAnswer, hdir, not_true_eq_false, if_false, hperm, if_neg (not_le.2 hshort)]

end Run

/-! ## Renames keep the agreement -/

/-- The dentries and the file system agree after a rename: the old name is gone, the new one has the
renamed inode, every other lookup answers as before, and every dentry has the name and the inode of
an entry. -/
structure RenameAgrees (creds : Creds) (now : Int) (s s' : Vfs Tmpfs) (oldParent : Nat)
    (oldName : List Char) (newParent : Nat) (newName : List Char) : Prop where
  gone : ¬ ((s.dentry oldParent).inode = (s.dentry newParent).inode ∧ oldName = newName) →
    lookupAnswer (tmpfsOps creds now) creds s' oldParent oldName = .ok (.error .noent)
  there : ∃ i, lookupAnswer (tmpfsOps creds now) creds s oldParent oldName = .ok (.ok (some i)) ∧
    lookupAnswer (tmpfsOps creds now) creds s' newParent newName = .ok (.ok (some i))
  others : ∀ p < s.next, ∀ name, Proper name → ¬ (p = oldParent ∧ name = oldName) →
    ¬ (p = newParent ∧ name = newName) →
    lookupAnswer (tmpfsOps creds now) creds s' p name = lookupAnswer (tmpfsOps creds now) creds s p name
  coherent : Coherent s'

/-- The rename goes to another directory, and keeps the name or finds the same inode there under the
old name. -/
def RenameKeeps (s : Vfs Tmpfs) (oldParent : Nat) (oldName : List Char) (newParent : Nat)
    (newName : List Char) : Prop :=
  ∃ i j, (s.dentry oldParent).inode = some i ∧ (s.dentry newParent).inode = some j ∧ i ≠ j ∧
    (oldName = newName ∨ s.fs.tmpfsGetEntry j oldName = s.fs.tmpfsGetEntry i oldName)

/-- **Renames and the tree of dentries.** In every tree over the file system in memory, a successful
rename between names on which nothing is mounted leaves the dentries in agreement with the file
system exactly if it goes to another directory and keeps the name, or finds the same inode there
under the old name. -/
theorem rename_coherent_iff (creds : Creds) (now : Int) (s s' : Vfs Tmpfs)
    (htree : TmpfsTree s.next s) (oldParent newParent : Nat) (oldName newName : List Char)
    (hold : oldParent < s.next) (hnew : newParent < s.next) (hon : Proper oldName)
    (hnn : Proper newName) (hom : mountedInode s oldParent oldName = none)
    (hnm : mountedInode s newParent newName = none)
    (hrun : vfsRenameIn (tmpfsOps creds now) creds s oldParent oldName newParent newName =
      .ok (s', .ok ())) :
    RenameAgrees creds now s s' oldParent oldName newParent newName ↔
      RenameKeeps s oldParent oldName newParent newName := by
  obtain ⟨s₂, i, j, old, new, fs, h⟩ := rename_run htree hold hnew hon hnn hom hnm hrun
  obtain ⟨k, hk, hdiff, -, hattr, -, hget⟩ := tmpfsRename_spec h.tree.unique h.rename
  have hne := h.ne hdiff
  have hinode (p : Nat) (hp : p < s.next) := h.same.inode p hp
  have hi := (hinode oldParent hold).symm.trans h.oldDir.1
  have hj := (hinode newParent hnew).symm.trans h.newDir.1
  have hiff := h.coherent_iff hold hnew
  rw [h.same.fs] at hiff hk
  constructor
  · intro hagrees
    exact ⟨i, j, hi, hj, hiff.1 hagrees.coherent⟩
  rintro ⟨i', j', hi', hj', hkeeps⟩
  rw [hi] at hi'
  rw [hj] at hj'
  cases hi'
  cases hj'
  have hcoherent := hiff.2 hkeeps
  have hshadow := h.shadow hold hom
  have hbefore (p : Nat) (name : List Char) (hname : Proper name) :
      lookupAnswer (tmpfsOps creds now) creds s p name =
        tmpfsAnswer creds s.fs (s.dentry p).inode (mountedInode s p name) name :=
    lookupAnswer_eq htree.coherent htree.short htree.mounts hname
  have hafter (p : Nat) (name : List Char) (hname : Proper name) :=
    h.answer hne hcoherent hname now p
  have hsold := h.oldDir.2
  have hsnew := h.newDir.2
  rw [h.same.fs] at hsold hsnew
  have hshort := h.named ▸ h.tree.short _ _ h.mem
  refine ⟨fun _ => ?_, ⟨k, ?_, ?_⟩, fun p hp name hname hpo hpn => ?_, hcoherent⟩
  · rw [hafter _ _ hon, h.oldDir.1, h.mounted_none hne hshadow fun _ => h.name_ne_old,
      tmpfsAnswer_searchable (hattr ▸ h.oldDir.2.1) (hattr ▸ h.oldDir.2.2) hshort, hget,
      if_pos ⟨rfl, rfl⟩]
  · rw [hbefore _ _ hon, hi, hom, tmpfsAnswer_searchable hsold.1 hsold.2 hshort, hk]
  · rw [hafter _ _ hnn, h.newDir.1, h.mounted_none hne hshadow fun _ => h.name_ne_new,
      tmpfsAnswer_searchable (hattr ▸ h.newDir.2.1) (hattr ▸ h.newDir.2.2) h.target.short, hget,
      if_neg (fun heq => hkeeps.1 heq.1.symm), if_pos ⟨rfl, rfl⟩]
  rw [hafter _ _ hname, hbefore _ _ hname, hinode p hp, h.mounted_other hne hshadow hp hpo hpn]
  cases hq : (s.dentry p).inode with
  | none => rfl
  | some q => ?_
  -- another directory, or another name
  have hother (hdir : sIsDir (s.fs.attr q).mode) :
      fs.tmpfsGetEntry q name = s.fs.tmpfsGetEntry q name := by
    rw [hget, if_neg, if_neg, h.same.fs]
    · rintro ⟨rfl, rfl⟩
      exact hpn ⟨htree.one p newParent q hp hnew hq hj hdir, rfl⟩
    rintro ⟨rfl, rfl⟩
    exact hpo ⟨htree.one p oldParent q hp hold hq hi hdir, rfl⟩
  rw [h.same.fs] at hattr
  simp only [tmpfsAnswer, hattr]
  split
  · rfl
  next hdir => rw [hother (not_not.1 hdir)]

/-- Two directories `a` and `b`, and a file `x` in `a`, none of them looked up yet but for the
directories. -/
def twoDirs : Vfs Tmpfs where
  dentry
    | 0 => { Dentry.blank with inode := some 0, children := [1, 2] }
    | 1 => { Dentry.blank with name := ['a'], inode := some 1, parent := some 0 }
    | 2 => { Dentry.blank with name := ['b'], inode := some 2, parent := some 0 }
    | _ => .blank
  next := 3
  fs :=
    { attr := fun i => ⟨if i = 3 then 0o100644#32 else 0o040755#32, 0#32, 0#32, 0, 0, 0⟩
      superblock := fun _ => 0
      entries := fun
        | 0 => [(['a'], 1), (['b'], 2)]
        | 1 => [(['x'], 3)]
        | _ => []
      target := fun _ => []
      next := 4 }
  memory := []

theorem twoDirs_tree : TmpfsTree twoDirs.next twoDirs := by
  have hshadow (d : Nat) : (twoDirs.dentry d).shadow = none := by
    rcases d with _ | _ | _ | d <;> rfl
  have hchild (d c : Nat) (hc : c ∈ (twoDirs.dentry d).children) : d = 0 ∧ (c = 1 ∨ c = 2) := by
    rcases d with _ | _ | _ | d
    · exact ⟨rfl, by simpa [twoDirs] using hc⟩
    all_goals cases hc
  refine ⟨le_rfl, fun dir => ?_, fun d c hc => ?_, fun d => ?_, fun d c c' hc hc' heq => ?_,
    fun d c hc => ?_, fun d m hm => ?_, fun d => ⟨d, follow_of_none (hshadow d)⟩,
    fun d d' j hd hd' hj hj' _ => ?_, fun d c hc => ?_⟩
  · rcases dir with _ | _ | dir
    · unfold UniqueNames
      decide
    · unfold UniqueNames
      decide
    exact nodup_nil
  · obtain ⟨rfl, rfl | rfl⟩ := hchild d c hc <;> exact ⟨by decide, by decide, rfl⟩
  · rcases d with _ | _ | _ | d
    · decide
    all_goals exact nodup_nil
  · obtain ⟨rfl, rfl | rfl⟩ := hchild d c hc <;> obtain ⟨-, rfl | rfl⟩ := hchild _ c' hc'
    · rfl
    · exact absurd heq (by decide)
    · exact absurd heq (by decide)
    rfl
  · obtain ⟨rfl, rfl | rfl⟩ := hchild d c hc <;> decide
  · rw [hshadow] at hm
    cases hm
  · have hself (d : Nat) (hd : d < 3) : (twoDirs.dentry d).inode = some d := by
      rcases d with _ | _ | _ | d
      · rfl
      · rfl
      · rfl
      omega
    rw [hself d hd] at hj
    rw [hself d' hd'] at hj'
    exact Option.some.inj (hj.trans hj'.symm)
  obtain ⟨rfl, rfl | rfl⟩ := hchild d c hc
  · exact ⟨0, 1, rfl, rfl, rfl⟩
  exact ⟨0, 2, rfl, rfl, rfl⟩

/-- `x` moves from `a` to `b` under its name. -/
theorem rename_coherent_move :
    ∃ s', vfsRenameIn (tmpfsOps ⟨0#32, 0#32⟩ 0) ⟨0#32, 0#32⟩ twoDirs 1 ['x'] 2 ['x'] =
        .ok (s', .ok ()) ∧
      RenameAgrees ⟨0#32, 0#32⟩ 0 twoDirs s' 1 ['x'] 2 ['x'] :=
  ⟨_, rfl, (rename_coherent_iff ⟨0#32, 0#32⟩ 0 twoDirs _ twoDirs_tree 1 2 ['x'] ['x'] (by decide)
    (by decide) ⟨by decide, by decide⟩ ⟨by decide, by decide⟩ rfl rfl rfl).2
    ⟨1, 2, rfl, rfl, by decide, .inl rfl⟩⟩

/-- **The old name is still there.** After `x` was renamed to `y` in the same directory, a lookup of
`x` finds the renamed dentry. -/
theorem rename_old_name_stays :
    ¬ ∀ (creds : Creds) (now : Int) (s s' : Vfs Tmpfs) (oldParent newParent : Nat)
      (oldName newName : List Char), TmpfsTree s.next s → oldParent < s.next → newParent < s.next →
      Proper oldName → Proper newName → mountedInode s oldParent oldName = none →
      mountedInode s newParent newName = none →
      vfsRenameIn (tmpfsOps creds now) creds s oldParent oldName newParent newName = .ok (s', .ok ()) →
      RenameAgrees creds now s s' oldParent oldName newParent newName := by
  intro h
  have hagrees := h ⟨0#32, 0#32⟩ 0 twoDirs _ 1 1 ['x'] ['y'] twoDirs_tree (by decide) (by decide)
    ⟨by decide, by decide⟩ ⟨by decide, by decide⟩ rfl rfl rfl
  have hgone := hagrees.gone (by decide)
  cases hgone

end Stanix
