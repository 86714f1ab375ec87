import Stanix.Fs.Vfs.Path
import Stanix.Fs.Vfs.Tree

/-!
# Confinement to a directory

A process whose root was set by `chroot` should reach only what is below that directory, whatever
path it resolves. `vfs_lookup` answers `..` with the parent of the directory it is in, and does not
ask whether that directory is the root of the process: the root of a process confines it only if it
has no parent, or if the process cannot look anything up in it (`chroot_confined_iff`).
-/

namespace Stanix

open Exec

variable {φ : Type} {ops : InodeOps φ} {creds : Creds} {limits : VfsLimits} {s s' s'' : Vfs φ}
  {r d : Nat} {name : List Char} {e : Except Errno (Nat × Ret × Bool)} {mode : BitVec 32}
  {current : Option Nat} {flags : OpenFlags} {recur : Recur φ} {c i loops loops' : Nat}

/-! ## Creating a file in a tree -/

theorem Vfs.Kept.trans (h : s.Kept ops s' d) (h' : s'.Kept ops s'' d) : s.Kept ops s'' d where
  toGrows := h.toGrows.trans h'.toGrows
  wf := h'.wf
  dirs := h.dirs.trans h'.dirs
  orphan c ho hc := h'.orphan c (h.orphan c ho hc) hc

theorem Vfs.Kept.allocate (hwf : s.Wf) (h : s.vfsDentryAllocate = (s', some c)) :
    s.Kept ops s' d := by
  obtain ⟨hwf', hgrow, -, hfs⟩ := Vfs.allocate_spec hwf h
  exact ⟨hgrow, hwf', hfs ▸ .refl ops _, fun e he _ => (he.allocate h).1⟩

theorem createAnswered_spec {fs : φ} {answer : Except Errno (Option Nat)} {e : Except Errno Unit}
    (hwf : s.Wf) (hd : d < s.next) (ho : s.Orphan c) (hne : d ≠ c) (hdirs : ops.KeepsDirs s.fs fs)
    (h : createAnswered s d c name fs answer = (s', e)) :
    s'.Wf ∧ s'.next = s.next ∧ ops.KeepsDirs s.fs s'.fs ∧
      (∀ x, x ≠ c → (s'.dentry x).parent = (s.dentry x).parent ∧
        (s'.dentry x).inode = (s.dentry x).inode) ∧
      ∀ x, s.Orphan x → x ≠ d → x ≠ c → s'.Orphan x := by
  have hsame : ({ s with fs } : Vfs φ).Wf ∧ ∀ x, s.Orphan x → ({ s with fs } : Vfs φ).Orphan x :=
    ⟨⟨hwf.1, hwf.2, hwf.3, hwf.4⟩, fun x hx => ⟨hx.1, hx.2, hx.3, hx.4, hx.5, hx.6⟩⟩
  rcases answer with e' | _ | i
  iterate 2
    · cases h
      exact ⟨hsame.1, rfl, hdirs, fun _ _ => ⟨rfl, rfl⟩, fun x hx _ _ => hsame.2 x hx⟩
  cases h
  obtain ⟨hwf', hkeep, -⟩ := hwf.add ho hd hne name i
    { (s.setDentry c { s.dentry c with name, inode := some i }).vfsDentryAdd d c with fs } rfl rfl
  exact ⟨hwf', rfl, hdirs, hkeep, fun x hx hxd hxc =>
    hx.add hxc (Ne.symm hxd) hne name i rfl rfl⟩

/-- What follows the lookup of the name that is to be created: nothing, or the file system is asked
to create it. -/
theorem createLookedUp_cases {x : Except Errno Nat} {e : Except Errno Unit}
    (h : createLookedUp ops creds d i c name mode (s, x) = .ok (s', e)) :
    s' = s ∨ ∃ fs answer, ops.create s.fs i name mode = some (.ok (fs, answer)) ∧
      createAnswered s d c name fs answer = (s', e) := by
  have habsent (h : createAbsent ops creds s d i c name mode = .ok (s', e)) :
      s' = s ∨ ∃ fs answer, ops.create s.fs i name mode = some (.ok (fs, answer)) ∧
        createAnswered s d c name fs answer = (s', e) := by
    unfold createAbsent at h
    split at h
    · cases h
      exact .inl rfl
    split at h
    · cases h
    split at h
    · cases h
      exact .inl rfl
    next r hcreate =>
    obtain ⟨⟨fs, answer⟩, rfl, h⟩ := bind_eq_ok.1 h
    exact .inr ⟨fs, answer, hcreate, Except.ok.inj h⟩
  cases x with
  | ok _ =>
    cases h
    exact .inl rfl
  | error e' => ?_
  cases e' with
  | noent => exact habsent h
  | _ =>
    cases h
    exact .inl rfl

/-- **A file is created** in a directory. -/
theorem vfsCreateIn_spec (hops : ops.Lawful) {e : Except Errno Unit} (hwf : s.Wf) (hd : d < s.next)
    (h : vfsCreateIn ops creds limits s d name mode = .ok (s', e)) : s.Kept ops s' d := by
  obtain ⟨i, -, h⟩ := bind_eq_ok.1 h
  split at h
  · cases halloc : s.vfsDentryAllocate with
    | mk s1 c =>
      rw [halloc] at h
      cases c with
      | none =>
        cases h
        rw [Vfs.allocate_none halloc]
        exact .of_fs hwf (.refl ops _) _
      | some c => ?_
      have hkept1 : s.Kept ops s1 d := .allocate hwf halloc
      have ho : s1.Orphan c := (Vfs.allocate_spec hwf halloc).2.2.1
      have hc : c = s.next := (Vfs.allocate_eq halloc).1
      obtain ⟨⟨s2, r⟩, hlookup, h⟩ := bind_eq_ok.1 h
      have hd1 : d < s1.next := Nat.lt_of_lt_of_le hd hkept1.next
      obtain ⟨hkept2, -⟩ := vfsLookup_spec hops hkept1.wf hd1 hlookup
      have hkept := hkept1.trans hkept2
      rcases createLookedUp_cases h with rfl | ⟨fs, answer, hcreate, hanswer⟩
      · exact hkept
      obtain ⟨hwf', hnext, hdirs, hkeep, horphan⟩ := createAnswered_spec hkept2.wf
        (Nat.lt_of_lt_of_le hd hkept.next) (hkept2.orphan c ho (by omega)) (by omega)
        (hops.create _ _ _ _ _ _ hcreate) hanswer
      refine ⟨⟨hnext ▸ hkept.next, fun x hx => ?_, fun x hx => ?_⟩, hwf', hkept.dirs.trans hdirs,
        fun x hx hxd => horphan x (hkept.orphan x hx hxd) hxd ?_⟩
      · exact (hkeep x (by omega)).1.trans (hkept.parent x hx)
      · exact (hkeep x (by omega)).2.trans (hkept.inode x hx)
      have := hx.lt
      omega
  cases h
  exact .refl ops hwf d

/-! ## Staying inside -/

/-- The root of a process keeps it inside: there is nothing above the root, or the process cannot
look anything up in it. -/
def Confines (ops : InodeOps φ) (creds : Creds) (s : Vfs φ) (r : Nat) : Prop :=
  (s.dentry r).parent = none ∨ ¬ Searchable ops creds s r

/-- A dentry is a directory, as `sys_chroot` requires. -/
def IsDirectory (ops : InodeOps φ) (s : Vfs φ) (r : Nat) : Prop :=
  ∃ i, (s.dentry r).inode = some i ∧ sIsDir (ops.attr s.fs i).mode

/-- A tree with a directory in it that confines a process. -/
structure Inside (ops : InodeOps φ) (creds : Creds) (r : Nat) (s : Vfs φ) : Prop where
  wf : s.Wf
  lt : r < s.next
  directory : IsDirectory ops s r
  confines : Confines ops creds s r

theorem Inside.kept (h : Inside ops creds r s) (hk : s.Kept ops s' d) : Inside ops creds r s' := by
  obtain ⟨i, hi, hdir⟩ := h.directory
  have hinode := hk.inode r h.lt
  have hattr := hk.dirs i hdir
  refine ⟨hk.wf, Nat.lt_of_lt_of_le h.lt hk.next, ⟨i, hinode.trans hi, hattr ▸ hdir⟩, ?_⟩
  rcases h.confines with hp | hs
  · exact .inl ((hk.parent r h.lt).trans hp)
  refine .inr ?_
  rintro ⟨j, hj, -, hperm⟩
  refine hs ⟨i, hi, hdir, ?_⟩
  rw [hinode, hi] at hj
  cases hj
  rwa [vfsPerm, hattr] at hperm

/-- A step of a resolution: the directory still confines the process, and the dentry found is below
it. -/
structure Stays (ops : InodeOps φ) (creds : Creds) (r : Nat) (s s' : Vfs φ) (found : Option Nat) :
    Prop where
  inside : Inside ops creds r s'
  grows : s.Grows s'
  below : ∀ d, found = some d → s'.Below r d

theorem Stays.trans {x y : Option Nat} (h : Stays ops creds r s s' x)
    (h' : Stays ops creds r s' s'' y) : Stays ops creds r s s'' y :=
  ⟨h'.inside, h.grows.trans h'.grows, h'.below⟩

section

variable (hops : ops.Lawful) (h : Inside ops creds r s) (hd : s.Below r d)
include hops h hd

/-- **One lookup stays inside.** Only `..` leads upwards, and at the root it leads nowhere else. -/
theorem vfsLookup_stays {e : Except Errno Nat} (hrun : vfsLookup ops creds s d name = .ok (s', e)) :
    Stays ops creds r s s' e.toOption := by
  have hlt := hd.lt h.wf h.lt
  obtain ⟨hkept, hfound⟩ := vfsLookup_spec hops h.wf hlt hrun
  refine ⟨h.kept hkept, hkept.toGrows, fun c hc => ?_⟩
  cases e with
  | error _ => cases hc
  | ok x => ?_
  cases hc
  obtain ⟨hsearch, ⟨-, rfl⟩ | rfl | hp⟩ := hfound c rfl
  · -- at the root itself the process finds no parent, as it was able to search
    cases hd with
    | refl =>
      rcases h.confines with hp | hs
      · rw [hp]
        exact .refl
      exact absurd hsearch hs
    | step hp hbelow =>
      rw [hp]
      exact hbelow.grows h.wf hkept.toGrows
  · exact hd.grows h.wf hkept.toGrows
  exact .step hp (hd.grows h.wf hkept.toGrows)

theorem createdAnswer_stays {ret : Option Errno} {created : Bool}
    (hrun : createdAnswer ret created <$> vfsLookup ops creds s d name = .ok (s', e)) :
    Stays ops creds r s s' (e.toOption.map (·.1)) := by
  cases hlookup : vfsLookup ops creds s d name with
  | error _ =>
    rw [hlookup] at hrun
    cases hrun
  | ok x => ?_
  obtain ⟨s1, c⟩ := x
  rw [hlookup] at hrun
  have hstays := vfsLookup_stays hops h hd hlookup
  cases c with
  | error _ =>
    cases hrun
    exact ⟨hstays.inside, hstays.grows, by simp [Except.toOption]⟩
  | ok c =>
    cases hrun
    exact ⟨hstays.inside, hstays.grows, fun x hx => hstays.below x hx⟩

theorem createMissing_stays (hrun : createMissing ops creds limits s d name mode = .ok (s', e)) :
    Stays ops creds r s s' (e.toOption.map (·.1)) := by
  obtain ⟨i, -, hrun⟩ := bind_eq_ok.1 hrun
  split at hrun
  · cases hrun
    exact ⟨h, .refl _, by simp [Except.toOption]⟩
  obtain ⟨⟨s1, made⟩, hmade, hrun⟩ := bind_eq_ok.1 hrun
  have hkept := vfsCreateIn_spec hops h.wf (hd.lt h.wf h.lt) hmade
  have h1 := h.kept hkept
  have hd1 := hd.grows h.wf hkept.toGrows
  have hfirst : Stays ops creds r s s1 none := ⟨h1, hkept.toGrows, by simp⟩
  unfold createdIn at hrun
  split at hrun
  iterate 2
    · next heq =>
      cases heq
      exact hfirst.trans (createdAnswer_stays hops h1 hd1 hrun)
  next heq =>
  cases heq
  cases hrun
  exact ⟨h1, hkept.toGrows, by simp [Except.toOption]⟩

/-- **One component.** -/
theorem component_stays {isLast : Bool} {x : Vfs φ × Except Errno Nat}
    (hlookup : vfsLookup ops creds s d name = .ok x)
    (hrun : componentAnswered ops creds limits flags mode d name isLast x = .ok (s', e)) :
    Stays ops creds r s s' (e.toOption.map (·.1)) := by
  obtain ⟨s1, c⟩ := x
  have hstays := vfsLookup_stays hops h hd hlookup
  cases c with
  | ok c =>
    cases hrun
    exact ⟨hstays.inside, hstays.grows, fun x hx => hstays.below x hx⟩
  | error _ => ?_
  simp only [componentAnswered] at hrun
  split at hrun
  · exact hstays.trans (createMissing_stays hops hstays.inside (hd.grows h.wf hstays.grows) hrun)
  cases hrun
  exact ⟨hstays.inside, hstays.grows, by simp [Except.toOption]⟩

end

/-- A resolution of the target of a link stays inside if it starts there. -/
def RecurStays (ops : InodeOps φ) (creds : Creds) (r : Nat) (recur : Recur φ) : Prop :=
  ∀ at? path loops s s' loops' e, Inside ops creds r s → (∀ d, at? = some d → s.Below r d) →
    recur at? path loops s = .ok (s', loops', e) → Stays ops creds r s s' (e.toOption.join)

theorem Inside.read (hops : ops.Lawful) {n : Nat} {fs : φ} {x : Except Errno (List Char)}
    (h : Inside ops creds r s) (hread : vfsReadlink ops s.fs i n = (fs, x)) :
    Stays ops creds r s { s with fs } none ∧ ∀ d, s.Below r d → ({ s with fs } : Vfs φ).Below r d := by
  have hdirs : ops.KeepsDirs s.fs fs := by
    unfold vfsReadlink at hread
    split at hread
    · cases hread
      exact .refl ops _
    next heq =>
    subst hread
    exact hops.readlink _ _ _ _ _ heq
  have hkept : s.Kept ops { s with fs } r := .of_fs h.wf hdirs s.memory
  exact ⟨⟨h.kept hkept, hkept.toGrows, by simp⟩, fun d hd => hd.grows h.wf hkept.toGrows⟩

section

variable (hops : ops.Lawful) (hrecur : RecurStays ops creds r recur) (h : Inside ops creds r s)
  (hcurrent : ∀ d, current = some d → s.Below r d)
include hops hrecur h hcurrent

/-- **Links.** The parent of what is below the root, and not the root, is below the root. A link that
is the root itself is none, as the root is a directory. -/
theorem followLinks_stays {ret : Ret} {fuel : Nat} {e : Except (Option Errno) (Option Nat)}
    (hrun : followLinks ops limits recur ret fuel s loops current = .ok (s', loops', e)) :
    Stays ops creds r s s' e.toOption.join := by
  induction fuel generalizing s loops current with
  | zero => cases hrun
  | succ fuel ih => ?_
  cases current with
  | none =>
    cases hrun
    exact ⟨h, .refl _, by simp [Except.toOption]⟩
  | some d => ?_
  have hd := hcurrent d rfl
  obtain ⟨i, hi, hrun⟩ := bind_eq_ok.1 hrun
  rw [deref_eq_ok] at hi
  split at hrun
  · next hlink =>
    split at hrun
    · cases ret with
      | none => cases hrun
      | some _ =>
        cases hrun
        exact ⟨h, .refl _, by simp [Except.toOption]⟩
    split at hrun
    · next fs _ hread =>
      cases ret with
      | none => cases hrun
      | some _ =>
        cases hrun
        exact ⟨(h.read hops hread).1.inside, (h.read hops hread).1.grows,
          by simp [Except.toOption]⟩
    next fs target hread =>
    split at hrun
    · cases hrun
    obtain ⟨⟨s1, loops1, x⟩, htarget, hrun⟩ := bind_eq_ok.1 hrun
    obtain ⟨hfirst, hbelow⟩ := h.read hops hread
    have hsecond : Stays ops creds r { s with fs } s1 x.toOption.join := by
      unfold resolveTarget at htarget
      split at htarget
      · exact hrecur _ _ _ _ _ _ _ hfirst.inside (by simp) htarget
      split at htarget
      · cases htarget
      next p hp =>
      refine hrecur _ _ _ _ _ _ _ hfirst.inside (fun y hy => ?_) htarget
      cases hy
      cases hd with
      | refl =>
        obtain ⟨j, hj, hdir⟩ := h.directory
        rw [hi] at hj
        cases hj
        rw [sIsLnk, hdir] at hlink
        exact absurd hlink (by decide)
      | step hp' hbelow' =>
        rw [show (s.dentry d).parent = some p from hp] at hp'
        cases hp'
        exact hbelow p hbelow'
    cases x with
    | error _ =>
      cases hrun
      exact hfirst.trans ⟨hsecond.inside, hsecond.grows, by simp [Except.toOption]⟩
    | ok next =>
      exact hfirst.trans (hsecond.trans
        (ih hsecond.inside (fun y hy => hsecond.below y hy) hrun))
  cases hrun
  exact ⟨h, .refl _, fun y hy => by cases hy; exact hd⟩

/-- **The walk** over the components of a path. -/
theorem walkPath_stays {names : List (List Char)} {e : WalkEnd}
    (hrun : walkPath ops creds limits recur flags mode names s loops current =
      .ok (s', loops', e)) : Stays ops creds r s s' (e.toOption.bind (·.1)) := by
  induction names generalizing s loops current with
  | nil =>
    cases hrun
    exact ⟨h, .refl _, fun d hd => hcurrent d hd⟩
  | cons name names ih => ?_
  cases current with
  | none => cases hrun
  | some d => ?_
  obtain ⟨x, hlookup, hrun⟩ := bind_eq_ok.1 hrun
  obtain ⟨⟨s1, y⟩, hcomponent, hrun⟩ := bind_eq_ok.1 hrun
  have hfirst := component_stays hops h (hcurrent d rfl) hlookup hcomponent
  cases y with
  | error _ =>
    cases hrun
    exact ⟨hfirst.inside, hfirst.grows, by simp [Except.toOption]⟩
  | ok y => ?_
  obtain ⟨c, ret, created⟩ := y
  have hc : s1.Below r c := hfirst.below c rfl
  dsimp only at hrun
  split at hrun
  · cases hrun
    exact ⟨hfirst.inside, hfirst.grows, fun d hd => by cases hd; exact hc⟩
  obtain ⟨⟨s2, loops2, z⟩, hlinks, hrun⟩ := bind_eq_ok.1 hrun
  have hsecond := followLinks_stays hops hrecur hfirst.inside
    (fun d hd => by cases hd; exact hc) hlinks
  cases z with
  | error _ =>
    cases hrun
    exact hfirst.trans ⟨hsecond.inside, hsecond.grows, by simp [Except.toOption]⟩
  | ok next => ?_
  have hnext (d : Nat) (hd : next = some d) : s2.Below r d := hsecond.below d hd
  dsimp only at hrun
  split at hrun
  · cases hrun
    exact hfirst.trans ⟨hsecond.inside, hsecond.grows, fun d hd => hnext d hd⟩
  exact hfirst.trans (hsecond.trans (ih hsecond.inside hnext hrun))

end

/-- **Resolution stays inside**, by induction over the depth of links. -/
theorem vfsGetDentryAtRecur_stays (hops : ops.Lawful) (flags : OpenFlags) (mode : BitVec 32)
    (fuel : Nat) (parent : Bool) :
    RecurStays ops creds r (vfsGetDentryAtRecur ops creds limits flags mode fuel parent) := by
  induction fuel generalizing parent with
  | zero =>
    intro at? path loops s s' loops' e h hat hrun
    cases hrun
  | succ fuel ih => ?_
  intro at? path loops s s' loops' e h hat hrun
  unfold vfsGetDentryAtRecur at hrun
  split at hrun
  · cases hrun
  split at hrun
  · cases hrun
    exact ⟨h, .refl _, by simp [Except.toOption]⟩
  obtain ⟨⟨s1, loops1, x⟩, hwalk, hrun⟩ := bind_eq_ok.1 hrun
  have hstays := walkPath_stays hops (ih false) h hat hwalk
  unfold walkEnded at hrun
  split at hrun
  iterate 2
    · next heq =>
      cases heq
      cases hrun
      exact ⟨hstays.inside, hstays.grows, by simp [Except.toOption]⟩
  · cases hrun
  next d created heq =>
  cases heq
  split at hrun
  · cases hrun
    exact ⟨hstays.inside, hstays.grows, by simp [Except.toOption]⟩
  cases hrun
  exact ⟨hstays.inside, hstays.grows, fun x hx => hstays.below x hx⟩

/-! ## Confinement -/

/-- Whatever path a process with root `r` resolves, from its root, from a working directory below it
or from any other dentry below it, it gets a dentry below its root. -/
def Confined (ops : InodeOps φ) (creds : Creds) (limits : VfsLimits) (s : Vfs φ) (r : Nat) : Prop :=
  ∀ (context : VfsContext) (flags : OpenFlags) (mode : BitVec 32) (parent : Bool)
    (at? : Option Nat) (path : List Char) (s' : Vfs φ) (loops d : Nat),
    context.root = r → s.Below r context.cwd → (∀ a, at? = some a → s.Below r a) →
    vfsGetDentryParentAt ops creds limits context flags mode parent at? path s =
      .ok (s', loops, .ok (some d)) → s'.Below r d

/-- The way out: `..` at the root of the process. -/
theorem not_confined_of_parent (hwf : s.Wf) {p : Nat} (hp : (s.dentry r).parent = some p)
    (hsearch : Searchable ops creds s r) : ¬ Confined ops creds limits s r := by
  intro hconfined
  obtain ⟨i, hi, hdir, hperm⟩ := hsearch
  have hlookup : vfsLookup ops creds s r ['.', '.'] = .ok (s, .ok p) := by
    simp only [vfsLookup, hi, hdir, not_true_eq_false, if_false, hperm, lookupIn, if_true, hp,
      Option.getD_some]
  have hcomponents : pathComponents ['.', '.'] = [['.', '.']] := by decide
  refine hwf.parent_not_below hp (hconfined ⟨r, r⟩ ⟨false, true, false⟩ 0#32 false none ['.', '.'] s
    limits.symloopMax p rfl .refl (by simp) ?_)
  simp [vfsGetDentryParentAt, vfsGetDentryAtRecur, hcomponents, pathDepthMax, walkPath, hlookup,
    componentAnswered, walkEnded]

/-- **Confinement by chroot.** In every tree of dentries, a process whose root is a directory of the
tree resolves all paths to dentries below its root exactly if the root has no parent or the process
may not look names up in it. -/
theorem chroot_confined_iff (ops : InodeOps φ) (hops : ops.Lawful) (creds : Creds)
    (limits : VfsLimits) (s : Vfs φ) (hwf : s.Wf) (r : Nat) (hr : r < s.next)
    (hdir : IsDirectory ops s r) :
    Confined ops creds limits s r ↔ Confines ops creds s r := by
  constructor
  · intro hconfined
    by_cases hsearch : Searchable ops creds s r
    · refine .inl (Option.eq_none_iff_forall_ne_some.2 fun p hp => ?_)
      exact not_confined_of_parent hwf hp hsearch hconfined
    exact .inr hsearch
  intro hconfines context flags mode parent at? path s' loops d hroot hcwd hat hrun
  have hstart (a : Nat) (ha : some (at?.getD (if path.head? = some '/' ∨ path = [] then context.root
      else context.cwd)) = some a) : s.Below r a := by
    cases ha
    cases at? with
    | some a => exact hat a rfl
    | none =>
      split
      · rw [hroot]
        exact .refl
      exact hcwd
  exact (vfsGetDentryAtRecur_stays hops flags mode _ parent _ _ _ _ _ _ _ ⟨hwf, hr, hdir, hconfines⟩
    hstart hrun).below d rfl

/-- A file system whose inodes are all directories that everyone may search. -/
def openDirs : InodeOps Unit where
  attr _ _ := ⟨0o040755#32, 0#32, 0#32, 0, 0, 0⟩
  superblock _ _ := 0
  lookup _ _ _ := some ((), .error .noent)
  readlink _ _ _ := none
  create _ _ _ _ := none
  rename _ _ _ _ _ := none

theorem openDirs_lawful : openDirs.Lawful :=
  ⟨fun _ _ _ _ _ _ _ _ => rfl, fun _ _ _ _ _ _ _ _ => rfl, fun _ _ _ _ _ _ _ _ _ => rfl⟩

/-- The root of the system and a directory `jail` in it. -/
def jailTree : Vfs Unit where
  dentry
    | 0 => { Dentry.blank with inode := some 0, children := [1] }
    | 1 => { Dentry.blank with name := ['j', 'a', 'i', 'l'], inode := some 1, parent := some 0 }
    | _ => .blank
  next := 2
  fs := ()
  memory := []

theorem jailTree_wf : jailTree.Wf := by
  have hparent (d p : Nat) (hp : (jailTree.dentry d).parent = some p) : d = 1 ∧ p = 0 := by
    rcases d with _ | _ | d
    · cases hp
    · cases hp
      exact ⟨rfl, rfl⟩
    cases hp
  refine ⟨fun d p hp => ?_, fun d c hc => ?_, fun d m hm => ?_, id, fun d p hp => ?_⟩
  · obtain ⟨rfl, rfl⟩ := hparent d p hp
    decide
  · rcases d with _ | _ | d
    · cases List.mem_singleton.1 hc
      rfl
    · cases hc
    cases hc
  · rcases d with _ | _ | d <;> cases hm
  obtain ⟨rfl, rfl⟩ := hparent d p hp
  decide

/-- The root of the system confines every process. -/
theorem chroot_confined_root :
    Confined openDirs ⟨1000#32, 1000#32⟩ ⟨255, 4096, 8⟩ jailTree 0 :=
  (chroot_confined_iff openDirs openDirs_lawful ⟨1000#32, 1000#32⟩ ⟨255, 4096, 8⟩ jailTree jailTree_wf 0
    (by decide) ⟨0, rfl, by decide⟩).2 (.inl rfl)

/-- **The way out of a chroot.** A process with root `/jail` resolves `..` to `/`. -/
theorem chroot_escape :
    ¬ ∀ (φ : Type) (ops : InodeOps φ), ops.Lawful → ∀ (creds : Creds) (limits : VfsLimits) (s : Vfs φ),
      s.Wf → ∀ r < s.next, IsDirectory ops s r → Confined ops creds limits s r := by
  intro h
  refine not_confined_of_parent jailTree_wf rfl ⟨1, rfl, by decide, by decide⟩
    (h Unit openDirs openDirs_lawful ⟨1000#32, 1000#32⟩ ⟨255, 4096, 8⟩ jailTree jailTree_wf 1
      (by decide) ⟨1, rfl, by decide⟩)

end Stanix
