import Stanix.Fs.Vfs.Dentry

/-!
# Trees of dentries

What a state of `Stanix.Fs.Vfs.Dentry` has to satisfy to be a tree, what it means for a dentry to be
in the subtree of another one, and what a lookup does to a tree: it adds at most one dentry, below the
directory that is searched, and leaves the others where they are (`vfsLookup_spec`).
-/

namespace Stanix

open Function Except

variable {φ : Type}

namespace Vfs

variable {s s' s'' : Vfs φ} {r d c e : Nat}

/-- A dentry is in the subtree of another one: its chain of parents leads there. -/
inductive Below (s : Vfs φ) (r : Nat) : Nat → Prop
  | refl : Below s r r
  | step {d p : Nat} : (s.dentry d).parent = some p → Below s r p → Below s r d

/-- A tree of dentries: links lead to allocated dentries; a child has the dentry it is a child of as
parent; what is mounted on a dentry has the parent of that dentry; no chain of parents is circular. A
mount that `vfs_move_mount_at` has moved is left out: it keeps its old parent (`vfs.c:277`). -/
structure Wf (s : Vfs φ) : Prop where
  parent_lt : ∀ d p, (s.dentry d).parent = some p → d < s.next ∧ p < s.next
  child : ∀ d c, c ∈ (s.dentry d).children → (s.dentry c).parent = some d
  shadow : ∀ d m, (s.dentry d).shadow = some m →
    m < s.next ∧ (s.dentry m).parent = (s.dentry d).parent
  acyclic : ∃ rank : Nat → Nat, ∀ d p, (s.dentry d).parent = some p → rank p < rank d

/-- The dentries of a state are there later, with their parents and inodes. -/
structure Grows (s s' : Vfs φ) : Prop where
  next : s.next ≤ s'.next
  parent : ∀ d < s.next, (s'.dentry d).parent = (s.dentry d).parent
  inode : ∀ d < s.next, (s'.dentry d).inode = (s.dentry d).inode

theorem Grows.refl (s : Vfs φ) : s.Grows s := ⟨Nat.le_refl _, fun _ _ => rfl, fun _ _ => rfl⟩

theorem Grows.trans (h : s.Grows s') (h' : s'.Grows s'') : s.Grows s'' where
  next := Nat.le_trans h.next h'.next
  parent d hd := (h'.parent d (Nat.lt_of_lt_of_le hd h.next)).trans (h.parent d hd)
  inode d hd := (h'.inode d (Nat.lt_of_lt_of_le hd h.next)).trans (h.inode d hd)

theorem Below.lt (h : s.Below r d) (hwf : s.Wf) (hr : r < s.next) : d < s.next := by
  cases h with
  | refl => exact hr
  | step hp _ => exact (hwf.parent_lt _ _ hp).1

theorem Below.grows (h : s.Below r d) (hwf : s.Wf) (hg : s.Grows s') : s'.Below r d := by
  induction h with
  | refl => exact .refl
  | step hp _ ih => exact .step ((hg.parent _ (hwf.parent_lt _ _ hp).1).trans hp) ih

theorem Below.rank_le {rank : Nat → Nat}
    (hrank : ∀ d p, (s.dentry d).parent = some p → rank p < rank d) (h : s.Below r d) :
    rank r ≤ rank d := by
  induction h with
  | refl => exact Nat.le_refl _
  | step hp _ ih => exact Nat.le_trans ih (Nat.le_of_lt (hrank _ _ hp))

theorem Wf.parent_not_below (hwf : s.Wf) {p : Nat} (hp : (s.dentry r).parent = some p) :
    ¬ s.Below r p := by
  obtain ⟨rank, hrank⟩ := hwf.acyclic
  intro h
  have hle := h.rank_le hrank
  have hlt := hrank _ _ hp
  omega

/-! ## New dentries -/

/-- A dentry that is allocated and that nothing leads to. -/
structure Orphan (s : Vfs φ) (c : Nat) : Prop where
  lt : c < s.next
  parent : (s.dentry c).parent = none
  children : (s.dentry c).children = []
  shadow : (s.dentry c).shadow = none
  not_parent : ∀ d, (s.dentry d).parent ≠ some c
  not_shadow : ∀ d, (s.dentry d).shadow ≠ some c

theorem allocate_eq (h : s.vfsDentryAllocate = (s', some c)) :
    c = s.next ∧ s'.dentry = (s.setDentry s.next .blank).dentry ∧ s'.next = s.next + 1 ∧
      s'.fs = s.fs := by
  unfold vfsDentryAllocate at h
  split at h
  · cases h
  cases h
  exact ⟨rfl, rfl, rfl, rfl⟩

theorem allocate_none (h : s.vfsDentryAllocate = (s', none)) :
    s' = { s with memory := s'.memory } := by
  unfold vfsDentryAllocate at h
  split at h
  · cases h
    rfl
  cases h

/-- **A dentry is allocated.** -/
theorem allocate_spec (hwf : s.Wf) (h : s.vfsDentryAllocate = (s', some c)) :
    s'.Wf ∧ s.Grows s' ∧ s'.Orphan c ∧ s'.fs = s.fs := by
  obtain ⟨rfl, hdentry, hnext, hfs⟩ := allocate_eq h
  have hself : s'.dentry s.next = .blank := by rw [hdentry, setDentry_self]
  have hother (d : Nat) (hd : d ≠ s.next) : s'.dentry d = s.dentry d := by
    rw [hdentry, setDentry_of_ne s .blank hd]
  have hparent (d p : Nat) (hp : (s'.dentry d).parent = some p) :
      (s.dentry d).parent = some p ∧ d ≠ s.next := by
    by_cases hd : d = s.next
    · rw [hd, hself] at hp
      cases hp
    rw [hother d hd] at hp
    exact ⟨hp, hd⟩
  have hshadow (d m : Nat) (hm : (s'.dentry d).shadow = some m) :
      (s.dentry d).shadow = some m ∧ d ≠ s.next := by
    by_cases hd : d = s.next
    · rw [hd, hself] at hm
      cases hm
    rw [hother d hd] at hm
    exact ⟨hm, hd⟩
  refine ⟨⟨fun d p hp => ?_, fun d c hc => ?_, fun d m hm => ?_, ?_⟩,
    ⟨by omega, fun d hd => by rw [hother d (by omega)], fun d hd => by rw [hother d (by omega)]⟩,
    ⟨by omega, by rw [hself]; rfl, by rw [hself]; rfl, by rw [hself]; rfl, fun d hd => ?_,
      fun d hd => ?_⟩, hfs⟩
  · have := hwf.parent_lt d p (hparent d p hp).1
    omega
  · have hd : d ≠ s.next := by
      rintro rfl
      rw [hself] at hc
      cases hc
    rw [hother d hd] at hc
    have hp := hwf.child d c hc
    rw [hother c (by have := hwf.parent_lt c d hp; omega), hp]
  · obtain ⟨hm, hd⟩ := hshadow d m hm
    obtain ⟨hlt, hp⟩ := hwf.shadow d m hm
    rw [hother m (by omega), hother d hd]
    exact ⟨by omega, hp⟩
  · obtain ⟨rank, hrank⟩ := hwf.acyclic
    exact ⟨rank, fun d p hp => hrank d p (hparent d p hp).1⟩
  · have := hwf.parent_lt d _ (hparent d _ hd).1
    omega
  have := (hwf.shadow d _ (hshadow d _ hd).1).1
  omega

theorem add_dentry (s : Vfs φ) (hne : d ≠ c) (name : List Char) (i : Nat) (d' : Nat) :
    ((s.setDentry c { s.dentry c with name, inode := some i }).vfsDentryAdd d c).dentry d' =
      if d' = c then { s.dentry c with name, inode := some i, parent := some d }
      else if d' = d then { s.dentry d with children := (s.dentry d).children ++ [c] }
      else s.dentry d' := by
  simp only [vfsDentryAdd, setDentry, update_apply, if_neg hne, if_true]
  by_cases hc : d' = c
  · subst hc
    simp [Ne.symm hne]
  by_cases hd : d' = d
  · simp [hc]
  simp [hc, hd]

/-- **A new child.** -/
theorem Wf.add (hwf : s.Wf) (ho : s.Orphan c) (hd : d < s.next) (hne : d ≠ c) (name : List Char)
    (i : Nat) (s' : Vfs φ) (hs' : s'.dentry = ((s.setDentry c { s.dentry c with
      name, inode := some i }).vfsDentryAdd d c).dentry) (hnext : s'.next = s.next) :
    s'.Wf ∧ (∀ e, e ≠ c → (s'.dentry e).parent = (s.dentry e).parent ∧
      (s'.dentry e).inode = (s.dentry e).inode) ∧ (s'.dentry c).parent = some d := by
  have hget (e : Nat) := hs' ▸ add_dentry s hne name i e
  have hself : s'.dentry c = { s.dentry c with name, inode := some i, parent := some d } := by
    rw [hget c, if_pos rfl]
  have hsame (e : Nat) (he : e ≠ c) : (s'.dentry e).parent = (s.dentry e).parent ∧
      (s'.dentry e).inode = (s.dentry e).inode := by
    rw [hget e, if_neg he]
    split
    · next heq => rw [heq]; exact ⟨rfl, rfl⟩
    exact ⟨rfl, rfl⟩
  have hparent (e : Nat) (he : e ≠ c) := (hsame e he).1
  have hshadow (e : Nat) : (s'.dentry e).shadow = (s.dentry e).shadow := by
    rw [hget e]
    split
    · next heq => rw [heq]
    split
    · next heq => rw [heq]
    rfl
  have hlt := ho.lt
  refine ⟨⟨fun e p hp => ?_, fun e x hx => ?_, fun e m hm => ?_, ?_⟩, hsame, by rw [hself]⟩
  · by_cases he : e = c
    · subst he
      rw [hself] at hp
      cases hp
      omega
    rw [hparent e he] at hp
    have := hwf.parent_lt e p hp
    omega
  · rw [hget e] at hx
    have hold (hx : x ∈ (s.dentry e).children) : (s'.dentry x).parent = some e := by
      have hp := hwf.child e x hx
      rw [hparent x, hp]
      rintro rfl
      rw [ho.parent] at hp
      cases hp
    split at hx
    · next he =>
      subst he
      rw [show ({ s.dentry e with name, inode := some i, parent := some d } : Dentry).children =
        (s.dentry e).children from rfl, ho.children] at hx
      cases hx
    split at hx
    · next he =>
      subst he
      rcases List.mem_append.1 hx with hx | hx
      · exact hold hx
      cases List.mem_singleton.1 hx
      rw [hself]
    exact hold hx
  · rw [hshadow e] at hm
    obtain ⟨hm', hp⟩ := hwf.shadow e m hm
    have hec : e ≠ c := by
      rintro rfl
      rw [ho.shadow] at hm
      cases hm
    have hmc : m ≠ c := by
      rintro rfl
      exact ho.not_shadow e hm
    rw [hparent m hmc, hparent e hec]
    exact ⟨by omega, hp⟩
  obtain ⟨rank, hrank⟩ := hwf.acyclic
  refine ⟨update rank c (rank d + 1), fun e p hp => ?_⟩
  by_cases he : e = c
  · grind
  rw [hparent e he] at hp
  have hpc : p ≠ c := by
    rintro rfl
    exact ho.not_parent e hp
  rw [update_of_ne he, update_of_ne hpc]
  exact hrank e p hp

theorem Orphan.add (he : s.Orphan e) (hec : e ≠ c) (hde : d ≠ e)
    (hne : d ≠ c) (name : List Char) (i : Nat)
    (hs' : s'.dentry = ((s.setDentry c { s.dentry c with name, inode := some i }).vfsDentryAdd
      d c).dentry) (hnext : s'.next = s.next) : s'.Orphan e := by
  have hget (x : Nat) := hs' ▸ add_dentry s hne name i x
  have hself : s'.dentry e = s.dentry e := by rw [hget e, if_neg hec, if_neg (Ne.symm hde)]
  refine ⟨hnext ▸ he.lt, by rw [hself, he.parent], by rw [hself, he.children], by rw [hself, he.shadow],
    fun x hx => ?_, fun x hx => ?_⟩
  · rw [hget x] at hx
    split at hx
    · exact hde (Option.some.inj hx)
    split at hx
    · next heq => exact he.not_parent d hx
    exact he.not_parent x hx
  rw [hget x] at hx
  split at hx
  · exact he.not_shadow c hx
  split at hx
  · exact he.not_shadow d hx
  exact he.not_shadow x hx

theorem Orphan.allocate (he : s.Orphan e) (h : s.vfsDentryAllocate = (s', some c)) :
    s'.Orphan e ∧ e ≠ c := by
  obtain ⟨rfl, hdentry, hnext, -⟩ := allocate_eq h
  have hlt := he.lt
  have hget (x : Nat) : s'.dentry x = s.dentry x ∨ s'.dentry x = .blank := by
    rw [hdentry]
    by_cases hx : x = s.next
    · exact .inr (hx ▸ setDentry_self ..)
    exact .inl (setDentry_of_ne s .blank hx)
  have hself : s'.dentry e = s.dentry e := by
    rw [hdentry, setDentry_of_ne s .blank (by omega)]
  refine ⟨⟨by omega, by rw [hself, he.parent], by rw [hself, he.children], by rw [hself, he.shadow],
    fun x hx => ?_, fun x hx => ?_⟩, by omega⟩
  · rcases hget x with hx' | hx' <;> rw [hx'] at hx
    · exact he.not_parent x hx
    cases hx
  rcases hget x with hx' | hx' <;> rw [hx'] at hx
  · exact he.not_shadow x hx
  cases hx

theorem Wf.followMountPoints (hwf : s.Wf) {fuel : Nat} {m : Nat}
    (h : s.vfsDentryFollowMountPoints fuel d = .ok m) :
    (s.dentry m).parent = (s.dentry d).parent := by
  induction fuel generalizing d with
  | zero => cases h
  | succ fuel ih =>
    unfold vfsDentryFollowMountPoints at h
    split at h
    · cases h
      rfl
    next x hx => exact (ih h).trans (hwf.shadow d x hx).2

end Vfs

/-! ## What a lookup does -/

/-- No operation of a file system changes the attributes of a directory behind the back of the
kernel. -/
structure InodeOps.Lawful (ops : InodeOps φ) : Prop where
  lookup : ∀ fs i name fs' r, ops.lookup fs i name = some (fs', r) →
    ∀ j, sIsDir (ops.attr fs j).mode → ops.attr fs' j = ops.attr fs j
  readlink : ∀ fs i n fs' r, ops.readlink fs i n = some (fs', r) →
    ∀ j, sIsDir (ops.attr fs j).mode → ops.attr fs' j = ops.attr fs j
  create : ∀ fs i name mode fs' r, ops.create fs i name mode = some (.ok (fs', r)) →
    ∀ j, sIsDir (ops.attr fs j).mode → ops.attr fs' j = ops.attr fs j

/-- The directories of two states of the file systems have the same attributes. -/
def InodeOps.KeepsDirs (ops : InodeOps φ) (fs fs' : φ) : Prop :=
  ∀ j, sIsDir (ops.attr fs j).mode → ops.attr fs' j = ops.attr fs j

theorem InodeOps.KeepsDirs.refl (ops : InodeOps φ) (fs : φ) : ops.KeepsDirs fs fs := fun _ _ => rfl

theorem InodeOps.KeepsDirs.trans {ops : InodeOps φ} {fs fs' fs'' : φ} (h : ops.KeepsDirs fs fs')
    (h' : ops.KeepsDirs fs' fs'') : ops.KeepsDirs fs fs'' := fun j hj => by
  have heq := h j hj
  rw [h' j (heq ▸ hj), heq]

/-- The process may look names up in a directory. -/
def Searchable (ops : InodeOps φ) (creds : Creds) (s : Vfs φ) (d : Nat) : Prop :=
  ∃ i, (s.dentry d).inode = some i ∧ sIsDir (ops.attr s.fs i).mode ∧
    vfsPerm ops creds s.fs i &&& permExecute ≠ 0#32

section

variable {ops : InodeOps φ} {creds : Creds} {s s' : Vfs φ} {d : Nat} {name : List Char}
  {r : Except Errno Nat}

/-- The state after a lookup or the creation of a file: the tree is one, the old dentries are where
they were, directories have their attributes, and what nothing led to still has nothing that leads to
it, the directory itself aside. -/
structure Vfs.Kept (ops : InodeOps φ) (s s' : Vfs φ) (d : Nat) : Prop extends Vfs.Grows s s' where
  wf : s'.Wf
  dirs : ops.KeepsDirs s.fs s'.fs
  orphan : ∀ c, s.Orphan c → c ≠ d → s'.Orphan c

theorem Vfs.Kept.refl (ops : InodeOps φ) (hwf : s.Wf) (d : Nat) : s.Kept ops s d :=
  ⟨.refl s, hwf, .refl ops s.fs, fun _ ho _ => ho⟩

/-- The dentry that a lookup found: the parent, the directory itself, or something with the directory
as parent. -/
def Found (s s' : Vfs φ) (d : Nat) (name : List Char) (c : Nat) : Prop :=
  (name = ['.', '.'] ∧ c = (s.dentry d).parent.getD d) ∨ c = d ∨ (s'.dentry c).parent = some d

/-- A new dentry for a name of the directory. -/
theorem Vfs.Kept.answered (hops : ops.Lawful) {s1 : Vfs φ} {c i : Nat} {fs : φ}
    {answer : Except Errno Nat} (hwf : s.Wf) (hd : d < s.next)
    (halloc : s.vfsDentryAllocate = (s1, some c)) (hfs : ops.lookup s.fs i name = some (fs, answer))
    (h : lookupAnswered s1 d c name fs answer = (s', r)) :
    s.Kept ops s' d ∧ ∀ c, r = .ok c → (s'.dentry c).parent = some d := by
  obtain ⟨hwf1, hgrow, ho, hfs1⟩ := Vfs.allocate_spec hwf halloc
  have hdirs : ops.KeepsDirs s.fs fs := hops.lookup _ _ _ _ _ hfs
  cases answer with
  | error e =>
    cases h
    refine ⟨⟨{ hgrow with }, ⟨hwf1.1, hwf1.2, hwf1.3, hwf1.4⟩, hdirs, fun x hx _ => ?_⟩, by simp⟩
    obtain ⟨hx, -⟩ := hx.allocate halloc
    exact ⟨hx.1, hx.2, hx.3, hx.4, hx.5, hx.6⟩
  | ok j => ?_
  cases h
  have hold (x : Nat) (hx : x < s.next) : x ≠ c := by
    have := (Vfs.allocate_eq halloc).1
    omega
  obtain ⟨hwf', hkeep, hparent⟩ := hwf1.add ho (Nat.lt_of_lt_of_le hd hgrow.next) (hold d hd)
    name j { (s1.setDentry c { s1.dentry c with name, inode := some j }).vfsDentryAdd d c with fs }
    rfl rfl
  refine ⟨⟨⟨hgrow.next, fun x hx => ?_, fun x hx => ?_⟩, hwf', hdirs, fun x hx hxd => ?_⟩,
    fun x hx => ?_⟩
  · exact (hkeep x (hold x hx)).1.trans (hgrow.parent x hx)
  · exact (hkeep x (hold x hx)).2.trans (hgrow.inode x hx)
  · obtain ⟨hx, hxc⟩ := hx.allocate halloc
    exact hx.add hxc (Ne.symm hxd) (hold d hd) name j rfl rfl
  cases hx
  exact hparent

theorem Vfs.Kept.of_fs (hwf : s.Wf) {fs : φ} (hdirs : ops.KeepsDirs s.fs fs) (memory : List Bool) :
    s.Kept ops { s with fs, memory } d :=
  ⟨⟨Nat.le_refl _, fun _ _ => rfl, fun _ _ => rfl⟩, ⟨hwf.1, hwf.2, hwf.3, hwf.4⟩, hdirs,
    fun _ ho _ => ⟨ho.1, ho.2, ho.3, ho.4, ho.5, ho.6⟩⟩

/-- The lookup of a name that is not in the tree. -/
theorem lookupFs_spec (hops : ops.Lawful) {i : Nat} (hwf : s.Wf) (hd : d < s.next)
    (h : lookupFs ops s d i name = .ok (s', r)) :
    s.Kept ops s' d ∧ ∀ c, r = .ok c → (s'.dentry c).parent = some d := by
  unfold lookupFs at h
  cases hfs : ops.lookup s.fs i name with
  | none =>
    rw [hfs] at h
    cases h
    exact ⟨.refl ops hwf d, by simp⟩
  | some x => ?_
  rw [hfs] at h
  cases halloc : s.vfsDentryAllocate with
  | mk s1 c => ?_
  rw [halloc] at h
  cases c with
  | none =>
    cases h
    rw [Vfs.allocate_none halloc]
    exact ⟨.of_fs hwf (.refl ops _) _, by simp⟩
  | some c =>
    dsimp only at h
    split at h
    · cases h
    exact Vfs.Kept.answered hops hwf hd halloc hfs (ok.inj h)

/-- **One lookup.** The tree stays one, and a dentry is found only in a directory that may be
searched. -/
theorem vfsLookup_spec (hops : ops.Lawful) (hwf : s.Wf) (hd : d < s.next)
    (h : vfsLookup ops creds s d name = .ok (s', r)) :
    s.Kept ops s' d ∧ ∀ c, r = .ok c → Searchable ops creds s d ∧ Found s s' d name c := by
  unfold vfsLookup at h
  cases hi : (s.dentry d).inode with
  | none =>
    rw [hi] at h
    cases h
    exact ⟨.refl ops hwf d, by simp⟩
  | some i => ?_
  rw [hi] at h
  dsimp only at h
  split at h
  · cases h
    exact ⟨.refl ops hwf d, by simp⟩
  next hdir =>
  split at h
  · cases h
    exact ⟨.refl ops hwf d, by simp⟩
  next hperm =>
  have hsearch : Searchable ops creds s d := ⟨i, hi, not_not.1 hdir, hperm⟩
  unfold lookupIn at h
  split at h
  · next hname =>
    cases h
    refine ⟨.refl ops hwf d, fun c hc => ⟨hsearch, .inl ⟨hname, ?_⟩⟩⟩
    exact (ok.inj hc).symm
  split at h
  · cases h
    exact ⟨.refl ops hwf d, fun c hc => ⟨hsearch, .inr (.inl (ok.inj hc).symm)⟩⟩
  split at h
  · next x hx =>
    obtain ⟨m, hm, h⟩ := Exec.bind_eq_ok.1 h
    cases h
    refine ⟨.refl ops hwf d, fun c hc => ⟨hsearch, .inr (.inr ?_)⟩⟩
    cases hc
    rw [hwf.followMountPoints hm]
    exact hwf.child d x (List.mem_of_find?_eq_some hx)
  obtain ⟨hkept, hfound⟩ := lookupFs_spec hops hwf hd h
  exact ⟨hkept, fun c hc => ⟨hsearch, .inr (.inr (hfound c hc))⟩⟩

end

end Stanix
