import Stanix.Fs.Vfs.Path

/-!
# Resolution against a reference walk

`Resolver.walk` is what path resolution is meant to be: one list of names that are still to be looked
up, with the names of a link's target put in front of it. It starts an absolute target at the root of
the process and has an error for everything that goes wrong. With `faulty` it goes wrong itself where
the source does: at an absolute target, at a link that cannot be read or is one too many, and at a
path, a target or a name that is too long for the arrays of the source.

`vfs_get_dentry_at_recur` calls itself on the target of a link instead. It is the faulty walk for
every path (`Resolver.recur_eq`), which gives `vfs_get_dentry_iff_walk`.
-/

namespace Stanix

open Exec List

variable {φ : Type}

/-- What the resolution of a path depends on: the file systems, and the ids, the limits and the root
of the process. -/
structure Resolver (φ : Type) where
  ops : InodeOps φ
  creds : Creds
  limits : VfsLimits
  root : Nat

/-- The end of a walk: the state, how many links may still be followed, and the dentry or an error. -/
abbrev Walked (φ : Type) := Vfs φ × Nat × Except Errno Nat

/-- How a link is followed: the link and its inode, the names that are left and the state. -/
abbrev FollowLink (φ : Type) := Nat → Nat → List (List Char) → Vfs φ → Exec (Walked φ)

/-- A walk goes on from the dentry where another one has ended. -/
def Walked.andThen (next : Nat → Vfs φ → Nat → Exec (Walked φ)) : Walked φ → Exec (Walked φ)
  | (s, loops, .error e) => .ok (s, loops, .error e)
  | (s, loops, .ok d) => next loops s d

/-- The answer of a walk as the code gives it. -/
def Walked.toDentry (r : Walked φ) : Vfs φ × Nat × Except Errno (Option Nat) :=
  (r.1, r.2.1, r.2.2.map some)

/-- No creation and no special treatment of the last component. -/
def lookupFlags : OpenFlags := ⟨false, false, false⟩

/-- A place where the source goes wrong, and the answer of the reference there. -/
def amend {α : Type} (faulty : Bool) (fault : Fault) (answer : Exec α) : Exec α :=
  if faulty then .error fault else answer

theorem amend_eq_ok {α : Type} {faulty : Bool} {fault : Fault} {answer : Exec α} {r : α} :
    amend faulty fault answer = .ok r ↔ faulty = false ∧ answer = .ok r := by
  cases faulty <;> simp [amend]

namespace Resolver

variable (R : Resolver φ) (faulty : Bool)

/-! ## The reference walk -/

/-- A dentry has been reached, and is followed if it is a link. -/
def reached (follow : FollowLink φ) (rest : Vfs φ → Nat → Exec (Walked φ))
    (names : List (List Char)) (s : Vfs φ) (c : Nat) : Exec (Walked φ) := do
  let i ← deref (s.dentry c).inode
  if sIsLnk (R.ops.attr s.fs i).mode then follow c i names s else rest s c

/-- Names are looked up one after the other; `follow` takes over where a link is met. A lookup goes
over the end of an array if the name is too long for a new dentry. -/
def walkNames (loops : Nat) (follow : FollowLink φ) :
    List (List Char) → Vfs φ → Nat → Exec (Walked φ)
  | [], s, d => .ok (s, loops, .ok d)
  | name :: names, s, d =>
    match vfsLookup R.ops R.creds s d name with
    | .error .bounds => amend faulty .bounds (.ok (s, loops, .error .nametoolong))
    | .error fault => .error fault
    | .ok (s, .error e) => .ok (s, loops, .error e)
    | .ok (s, .ok c) => R.reached follow (walkNames loops follow names) names s c

/-- A link is followed. A target without names is the directory that it starts at. -/
def follow : (loops : Nat) → FollowLink φ
  | 0, _, _, _, s => amend faulty .uninit (.ok (s, 0, .error .loop))
  | loops + 1, c, i, names, s =>
    match vfsReadlink R.ops s.fs i R.limits.pathMax with
    | (fs, .error e) => amend faulty .uninit (.ok ({ s with fs }, loops, .error e))
    | (fs, .ok target) =>
      if R.limits.pathMax ≤ target.length then
        amend faulty .bounds (.ok ({ s with fs }, loops, .error .nametoolong))
      else
        match if target.head? = some '/' then some R.root else (s.dentry c).parent with
        | none => .error .assertion
        | some start =>
          if pathDepthMax < (pathComponents target).length then
            amend faulty .bounds (.ok ({ s with fs }, loops, .error .nametoolong))
          else if target.head? = some '/' ∧ faulty then .error .assertion
          else if pathComponents target = [] then
            R.reached (follow loops) (R.walkNames faulty loops (follow loops) names) names
              { s with fs } start
          else
            R.walkNames faulty loops (follow loops) (pathComponents target ++ names)
              { s with fs } start

/-- **The reference walk** over names from a dentry. -/
def walk (loops : Nat) : List (List Char) → Vfs φ → Nat → Exec (Walked φ) :=
  R.walkNames faulty loops (R.follow faulty loops)

/-- The reference for a whole path. With `parent` the last name is left over, and there is no dentry
if there is no name. -/
def resolve (parent : Bool) (path : List Char) (loops : Nat) (s : Vfs φ) (start : Nat) :
    Exec (Vfs φ × Nat × Except Errno (Option Nat)) :=
  if pathDepthMax < (pathComponents path).length then
    amend faulty .bounds (.ok (s, loops, .error .nametoolong))
  else if parent ∧ pathComponents path = [] then .ok (s, loops, .ok none)
  else
    Walked.toDentry <$> R.walk faulty loops
      (if parent then (pathComponents path).dropLast else pathComponents path) s start

/-- The walk over a path comes to no place where the source goes wrong. -/
def Clean (parent : Bool) (path : List Char) (loops : Nat) (s : Vfs φ) (start : Nat) : Prop :=
  ∃ r, R.resolve true parent path loops s start = .ok r

/-- The dentry is there and is not a link. -/
def NotLink (s : Vfs φ) (d : Nat) : Prop :=
  ∃ i, (s.dentry d).inode = some i ∧ ¬ sIsLnk (R.ops.attr s.fs i).mode

variable {R faulty} {mode : BitVec 32} {names : List (List Char)} {s s' : Vfs φ}
  {loops l c d d' n : Nat} {follow : FollowLink φ} {rest : Vfs φ → Nat → Exec (Walked φ)}

open Walked

theorem reached_append {next : Nat → Vfs φ → Nat → Exec (Walked φ)}
    {rest' : Vfs φ → Nat → Exec (Walked φ)} {a b : List (List Char)}
    (hrest : ∀ s d, rest' s d = rest s d >>= andThen next)
    (hfollow : ∀ c i s, follow c i (a ++ b) s = follow c i a s >>= andThen next) :
    R.reached follow rest' (a ++ b) s c = R.reached follow rest a s c >>= andThen next := by
  unfold reached
  rcases (s.dentry c).inode with _ | i
  · rfl
  simp only [deref_some, ok_bind]
  split
  · exact hfollow ..
  exact hrest ..

theorem walkNames_append {next : Nat → Vfs φ → Nat → Exec (Walked φ)} {b : List (List Char)}
    (hb : ∀ s d, R.walkNames faulty loops follow b s d = next loops s d)
    (hfollow : ∀ c i a s, follow c i (a ++ b) s = follow c i a s >>= andThen next)
    (a : List (List Char)) (s : Vfs φ) (d : Nat) : R.walkNames faulty loops follow (a ++ b) s d =
      R.walkNames faulty loops follow a s d >>= andThen next := by
  induction a generalizing s d with
  | nil => exact hb s d
  | cons name a ih => ?_
  rw [cons_append, walkNames, walkNames]
  split
  · unfold amend
    split <;> rfl
  · rfl
  · rfl
  exact reached_append ih fun c i s => hfollow c i a s

/-- **A walk over two lists of names** is one walk after the other. -/
theorem walk_append (a b : List (List Char)) (s : Vfs φ) (d : Nat) :
    R.walk faulty loops (a ++ b) s d =
      R.walk faulty loops a s d >>= andThen fun loops => R.walk faulty loops b := by
  refine walkNames_append (fun _ _ => rfl) (fun c i a s => ?_) a s d
  induction loops generalizing c i a s with
  | zero =>
    unfold Resolver.follow amend
    split <;> rfl
  | succ loops ih => ?_
  have hamend (fault : Fault) (s : Vfs φ) (e : Errno) :
      amend faulty fault (.ok (s, loops, .error e)) =
        amend faulty fault (.ok (s, loops, .error e)) >>=
          andThen fun loops => R.walk faulty loops b := by
    unfold amend
    split <;> rfl
  rw [Resolver.follow, Resolver.follow]
  split
  · exact hamend ..
  split
  · exact hamend ..
  split
  · rfl
  split
  · exact hamend ..
  split
  · rfl
  split
  · exact reached_append (fun s d => walkNames_append (fun _ _ => rfl) ih a s d) fun c i s => ih c i a s
  rw [← append_assoc]
  exact walkNames_append (fun _ _ => rfl) ih ..

/-! ## Where a walk ends -/

theorem reached_eq_ok {r : Walked φ} (h : R.reached follow rest names s c = .ok r) :
    (∃ i, follow c i names s = .ok r) ∨ R.NotLink s c ∧ rest s c = .ok r := by
  obtain ⟨i, hi, h⟩ := bind_eq_ok.1 h
  split at h
  · exact .inl ⟨i, h⟩
  · next hnot => exact .inr ⟨⟨i, deref_eq_ok.1 hi, hnot⟩, h⟩

theorem walkNames_end (hfollow : ∀ c i names s, follow c i names s = .ok (s', l, .ok d') →
      l ≤ loops ∧ R.NotLink s' d') (hd : names = [] → R.NotLink s d)
    (h : R.walkNames faulty loops follow names s d = .ok (s', l, .ok d')) :
    l ≤ loops ∧ R.NotLink s' d' := by
  induction names generalizing s d with
  | nil =>
    cases h
    exact ⟨Nat.le_refl _, hd rfl⟩
  | cons name names ih => ?_
  rw [walkNames] at h
  split at h
  · cases (amend_eq_ok.1 h).2
  · cases h
  · cases h
  rcases reached_eq_ok h with ⟨i, h⟩ | ⟨hc, h⟩
  · exact hfollow _ _ _ _ h
  exact ih (fun _ => hc) h

theorem follow_end (c i : Nat) (names : List (List Char)) (s : Vfs φ)
    (h : R.follow faulty loops c i names s = .ok (s', l, .ok d')) : l ≤ loops ∧ R.NotLink s' d' := by
  induction loops generalizing c i names s with
  | zero => cases (amend_eq_ok.1 h).2
  | succ loops ih => ?_
  have hle (hend : l ≤ loops ∧ R.NotLink s' d') : l ≤ loops + 1 ∧ R.NotLink s' d' :=
    ⟨Nat.le_succ_of_le hend.1, hend.2⟩
  rw [Resolver.follow] at h
  split at h
  · cases (amend_eq_ok.1 h).2
  split at h
  · cases (amend_eq_ok.1 h).2
  split at h
  · cases h
  split at h
  · cases (amend_eq_ok.1 h).2
  split at h
  · cases h
  split at h
  · rcases reached_eq_ok h with ⟨i, h⟩ | ⟨hc, h⟩
    · exact hle (ih _ _ _ _ h)
    exact hle (walkNames_end ih (fun _ => hc) h)
  · next hne => exact hle (walkNames_end ih (fun hnil => absurd (append_eq_nil_iff.1 hnil).1 hne) h)

theorem walk_end (hne : names ≠ []) (h : R.walk faulty loops names s d = .ok (s', l, .ok d')) :
    l ≤ loops ∧ R.NotLink s' d' :=
  walkNames_end follow_end (fun hnil => absurd hnil hne) h

/-! ## The right walk and the faulty one -/

theorem reached_of_faulty {follow' : FollowLink φ} {rest' : Vfs φ → Nat → Exec (Walked φ)}
    {r : Walked φ} (hfollow : ∀ i, follow c i names s = .ok r → follow' c i names s = .ok r)
    (hrest : rest s c = .ok r → rest' s c = .ok r) (h : R.reached follow rest names s c = .ok r) :
    R.reached follow' rest' names s c = .ok r := by
  obtain ⟨i, hi, h⟩ := bind_eq_ok.1 h
  refine bind_eq_ok.2 ⟨i, hi, ?_⟩
  split at h
  · next hlnk =>
    rw [if_pos hlnk]
    exact hfollow i h
  · next hlnk =>
    rw [if_neg hlnk]
    exact hrest h

/-- Where the faulty walk has an answer, the right one has the same. -/
theorem walkNames_of_faulty {follow' : FollowLink φ} {r : Walked φ}
    (hfollow : ∀ c i names s, follow c i names s = .ok r → follow' c i names s = .ok r)
    (h : R.walkNames true loops follow names s d = .ok r) :
    R.walkNames false loops follow' names s d = .ok r := by
  induction names generalizing s d with
  | nil => exact h
  | cons name names ih => ?_
  rw [walkNames] at h ⊢
  split at h
  · cases h
  · cases h
  · exact h
  exact reached_of_faulty (fun i => hfollow _ i _ _) ih h

theorem follow_of_faulty {r : Walked φ} (c i : Nat) (names : List (List Char)) (s : Vfs φ)
    (h : R.follow true loops c i names s = .ok r) : R.follow false loops c i names s = .ok r := by
  induction loops generalizing c i names s with
  | zero => cases h
  | succ loops ih => ?_
  rw [Resolver.follow] at h ⊢
  split at h
  · cases h
  split at h
  · cases h
  next hlength =>
  split at h
  · cases h
  split at h
  · cases h
  next hdepth =>
  split at h
  · cases h
  rw [if_neg hlength, if_neg hdepth, if_neg (by simp)]
  split at h
  · next hnil =>
    rw [if_pos hnil]
    exact reached_of_faulty (fun i => ih _ i _ _) (walkNames_of_faulty ih) h
  · next hne =>
    rw [if_neg hne]
    exact walkNames_of_faulty ih h

theorem resolve_of_faulty {parent : Bool} {path : List Char}
    {r : Vfs φ × Nat × Except Errno (Option Nat)}
    (h : R.resolve true parent path loops s d = .ok r) :
    R.resolve false parent path loops s d = .ok r := by
  unfold resolve at h ⊢
  split at h
  · cases h
  next hdepth =>
  rw [if_neg hdepth]
  split at h
  · next hnone => rw [if_pos hnone, h]
  next hsome =>
  rw [if_neg hsome]
  generalize (if parent then (pathComponents path).dropLast else pathComponents path) = names at h ⊢
  cases hw : R.walk true loops names s d with
  | error => rw [hw] at h; cases h
  | ok w =>
    rw [hw] at h
    rw [walk, walkNames_of_faulty follow_of_faulty hw]
    exact h

/-! ## The code is the faulty walk -/

variable (R) in
/-- The function resolves the targets of links as the faulty walk does, with less than `n` links to
follow; it fails where there is nothing to start from. -/
structure Recurs (n : Nat) (recur : Recur φ) : Prop where
  some : ∀ target s d {loops}, loops < n →
    recur (some d) target loops s = R.resolve true false target loops s d
  none : ∀ target s {loops}, loops < n → recur none target loops s =
    .error (if pathDepthMax < (pathComponents target).length then .bounds else .assertion)

variable (R) in
/-- What the loop over the components does behind a component: it ends, or goes on with the others. -/
def behind (recur : Recur φ) (mode : BitVec 32) (names : List (List Char)) :
    Vfs φ × Nat × Except (Option Errno) (Option Nat) → Exec (Vfs φ × Nat × WalkEnd)
  | (s, loops, .error e) => .ok (s, loops, .error e)
  | (s, loops, .ok next) =>
    if names = [] then .ok (s, loops, .ok (next, false))
    else walkPath R.ops R.creds R.limits recur lookupFlags mode names s loops next

section

variable {recur : Recur φ} (hrecur : R.Recurs n recur)
include hrecur

/-- **The loop over links**, from a dentry that has been reached. -/
theorem followLinks_eq (hrest : ∀ s loops d, loops ≤ n →
      R.behind recur mode names (s, loops, .ok (some d)) >>= walkEnded lookupFlags =
        toDentry <$> R.walk true loops names s d)
    (fuel : Nat) (hfuel : loops < fuel) (hn : loops ≤ n) (s : Vfs φ) (c : Nat) :
    followLinks R.ops R.limits recur none fuel s loops (some c) >>= R.behind recur mode names >>=
        walkEnded lookupFlags =
      toDentry <$> R.reached (R.follow true loops) (R.walk true loops names) names s c := by
  induction fuel generalizing loops s c with
  | zero => exact absurd hfuel (Nat.not_lt_zero _)
  | succ fuel ih => ?_
  rw [followLinks, reached]
  rcases (s.dentry c).inode with _ | i
  · rfl
  simp only [deref_some, ok_bind]
  split
  case isFalse => exact hrest s loops c hn
  case isTrue => ?_
  cases loops with
  | zero => rfl
  | succ loops => ?_
  rw [if_neg (Nat.succ_ne_zero _), Resolver.follow]
  rcases vfsReadlink R.ops s.fs i R.limits.pathMax with ⟨fs, e | target⟩
  · rfl
  dsimp only
  by_cases hlength : R.limits.pathMax ≤ target.length
  · rw [if_pos hlength, if_pos hlength]
    rfl
  rw [if_neg hlength, if_neg hlength, resolveTarget, Nat.add_sub_cancel]
  by_cases habsolute : target.head? = some '/'
  · simp only [if_pos habsolute, hrecur.none target { s with fs } hn]
    split <;> simp_all [amend]
  simp only [if_neg habsolute]
  rcases (s.dentry c).parent with _ | p
  · rfl
  dsimp only
  rw [hrecur.some target { s with fs } p hn, resolve]
  by_cases hdepth : pathDepthMax < (pathComponents target).length
  · rw [if_pos hdepth, if_pos hdepth]
    rfl
  have hparent : ¬ (false = true ∧ pathComponents target = []) := by simp
  rw [if_neg hdepth, if_neg hdepth, if_neg hparent, if_neg Bool.false_ne_true,
    if_neg fun h => habsolute h.1]
  by_cases hnil : pathComponents target = []
  · rw [if_pos hnil, hnil]
    exact @ih loops (by omega) (by omega) { s with fs } p
  rw [if_neg hnil]
  have happend : R.walkNames true loops (R.follow true loops) (pathComponents target ++ names)
      { s with fs } p = R.walk true loops (pathComponents target) { s with fs } p >>=
        andThen fun loops => R.walk true loops names := walk_append ..
  rw [happend]
  rcases hwalk : R.walk true loops (pathComponents target) { s with fs } p with _ | ⟨s1, l, e | d⟩
  · rfl
  · rfl
  obtain ⟨hl, j, hj, hnot⟩ := walk_end hnil hwalk
  have hstep := @ih l (by omega) (by omega) s1 d
  rw [reached, hj, deref_some, ok_bind, if_neg hnot] at hstep
  exact hstep

/-- **The loop over the components** is the faulty walk. -/
theorem walkPath_eq (hn : loops ≤ n) (s : Vfs φ) (d : Nat) :
    walkPath R.ops R.creds R.limits recur lookupFlags mode names s loops (some d) >>=
      walkEnded lookupFlags = toDentry <$> R.walk true loops names s d := by
  induction names generalizing s loops d with
  | nil => rfl
  | cons name names ih => ?_
  -- the loop ends behind the last component as a walk over no components does
  have hbehind (s : Vfs φ) (loops d : Nat) (hn : loops ≤ n) :
      R.behind recur mode names (s, loops, .ok (some d)) >>= walkEnded lookupFlags =
        toDentry <$> R.walk true loops names s d := by
    rw [← ih hn s d, behind]
    split
    · next hnil => rw [hnil, walkPath]
    rfl
  rw [walk, walkNames, walkPath]
  rcases vfsLookup R.ops R.creds s d name with fault | ⟨s, e | c⟩
  · cases fault <;> rfl
  · simp [componentAnswered, lookupFlags, toDentry, walkEnded, Except.map]
  exact followLinks_eq hrecur hbehind (loops + 1) (Nat.lt_succ_self _) hn s c

end

/-- **One call** is the faulty walk, if the calls on the targets of links are. -/
theorem recur_eq
    (hrecur : R.Recurs n (vfsGetDentryAtRecur R.ops R.creds R.limits lookupFlags mode n false))
    (hn : loops ≤ n) (path : List Char) (parent : Bool) (s : Vfs φ) (d : Nat) :
    vfsGetDentryAtRecur R.ops R.creds R.limits lookupFlags mode (n + 1) parent (some d) path loops s =
      R.resolve true parent path loops s d := by
  rw [vfsGetDentryAtRecur, resolve]
  split
  · rfl
  split
  · rfl
  exact walkPath_eq hrecur hn s d

theorem recurs (n : Nat) : R.Recurs n
    (vfsGetDentryAtRecur R.ops R.creds R.limits lookupFlags mode n false) := by
  induction n with
  | zero => exact ⟨fun _ _ _ _ h => absurd h (Nat.not_lt_zero _), fun _ _ _ h => absurd h (Nat.not_lt_zero _)⟩
  | succ n ih =>
    refine ⟨fun target s d _ h => recur_eq ih (Nat.le_of_lt_succ h) target false s d,
      fun target s _ _ => ?_⟩
    rw [vfsGetDentryAtRecur]
    split
    · rfl
    rw [if_neg (by simp)]
    cases pathComponents target <;> rfl

end Resolver

/-- File systems in which a name of one character is a link to `target` and all others are directories. -/
def linkResolver (target : String) : Resolver Unit where
  ops :=
    { attr := fun _ i => ⟨if i = 1 then sIFLNK else sIFDIR ||| 0o755#32, 0, 0, 0, 0, 0⟩
      superblock := fun _ _ => 0
      lookup := fun _ _ name => some ((), .ok name.length)
      readlink := fun _ _ _ => some ((), .ok target.toList)
      create := fun _ _ _ _ => none
      rename := fun _ _ _ _ _ => none }
  creds := ⟨0, 0⟩
  limits := ⟨256, 4096, 8⟩
  root := 0

/-- The kernel knows the root directory. -/
def rootVfs : Vfs Unit := ⟨fun _ => { Dentry.blank with inode := some 0 }, 1, (), []⟩

end Stanix
