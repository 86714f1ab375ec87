import Mathlib.Tactic.Common

/-!
# Runs of imperative code

The models of this development are shallow: a C function becomes a Lean function on an explicit
state, and what can stop it early becomes a `Fault`. `Exec` is the resulting monad and `runOps` the
run of a list of calls. `runOps_refines` is the induction over runs for a refinement.
`runAll_of_invariant` and `runAll_iff` are the inductions for a property of every state of a run
(`RunAll`), under a condition on every call of it (`CallsAll`); `statesAll_of_invariant` is the one
for runs that may end in a fault.
-/

namespace Stanix

/-- What ends the execution of modelled code before it returns. -/
inductive Fault
  /-- A pointer that is NULL or points to no object is dereferenced. -/
  | null
  /-- Control reaches a point the code marks as unreachable. -/
  | unreachable
  /-- An assertion of the code fails. -/
  | assertion
  /-- An array is indexed past its end. -/
  | bounds
  /-- A division by zero. -/
  | division
  /-- A loop or a recursion is cut off by the fuel of the model. -/
  | fuel
  /-- An allocation whose result is used unchecked returns NULL. -/
  | oom
  /-- The code stops the machine on purpose. -/
  | panic
  /-- A variable is read that was never set. -/
  | uninit
  deriving DecidableEq, Repr

/-- The error codes that calls answer with. -/
inductive Errno
  | nomem
  | inval
  | acces
  | badf
  | fault
  | intr
  | io
  | opnotsupp
  | noexec
  | perm
  | noent
  | exist
  | notdir
  | isdir
  | notempty
  | busy
  | xdev
  | loop
  | nametoolong
  | nolink
  | again
  | timedout
  | pipe
  | nospc
  | ilseq
  | ftype
  | notconn
  | nosys
  deriving DecidableEq, Repr

/-- Executions of modelled code: a result or the fault that ended it. -/
abbrev Exec (α : Type _) := Except Fault α

namespace Exec

variable {α β : Type _} {x : Exec α}

/-- Dereference of a nullable pointer. -/
def deref : Option α → Exec α
  | some a => .ok a
  | none => .error .null

/-- An assertion of the code. -/
def assert (p : Prop) [Decidable p] : Exec Unit :=
  if p then .ok () else .error .assertion

@[simp] theorem deref_some (a : α) : deref (some a) = .ok a := rfl

@[simp] theorem deref_none : deref (none : Option α) = .error .null := rfl

theorem deref_eq_ok {o : Option α} {a : α} : deref o = .ok a ↔ o = some a := by
  cases o <;> simp

@[simp] theorem assert_of {p : Prop} [Decidable p] (h : p) : assert p = .ok () := if_pos h

theorem assert_eq_ok {p : Prop} [Decidable p] {u : Unit} : assert p = .ok u ↔ p := by
  unfold assert
  split <;> simp_all

@[simp] theorem ok_bind (a : α) (f : α → Exec β) : (Except.ok a : Exec α) >>= f = f a := rfl

@[simp] theorem error_bind (e : Fault) (f : α → Exec β) :
    (Except.error e : Exec α) >>= f = .error e := rfl

@[simp] theorem pure_eq (a : α) : (pure a : Exec α) = .ok a := rfl

/-- A sequence of two computations returns when both do. -/
theorem bind_eq_ok {f : α → Exec β} {b : β} : x >>= f = .ok b ↔ ∃ a, x = .ok a ∧ f a = .ok b := by
  cases x with
  | error e => simp
  | ok a => simp

/-- A test of the result of a computation. -/
def okAnd (x : Exec α) (p : α → Bool) : Bool :=
  match x with
  | .ok a => p a
  | .error _ => false

/-- A test of the fault that ended a computation. -/
def faultIs (x : Exec α) (f : Fault) : Bool :=
  match x with
  | .ok _ => false
  | .error e => decide (e = f)

theorem okAnd_eq_true {p : α → Bool} : x.okAnd p = true ↔ ∃ a, x = .ok a ∧ p a = true := by
  cases x <;> simp [okAnd]

theorem faultIs_eq_true {f : Fault} : x.faultIs f = true ↔ x = .error f := by
  cases x <;> simp [faultIs]

end Exec

/-! Conditions on the value of a nullable pointer, decided by looking at it. -/

instance decidableExistsEqSome {α : Type _} (o : Option α) (P : α → Prop) [DecidablePred P] :
    Decidable (∃ a, o = some a ∧ P a) :=
  match o with
  | none => .isFalse fun ⟨_, h, _⟩ => Option.some_ne_none _ h.symm
  | some a => decidable_of_iff (P a) ⟨fun h => ⟨a, rfl, h⟩, fun ⟨_, h, h'⟩ => Option.some.inj h ▸ h'⟩

instance decidableForallEqSome {α : Type _} (o : Option α) (P : α → Prop) [DecidablePred P] :
    Decidable (∀ a, o = some a → P a) :=
  match o with
  | none => .isTrue fun _ h => absurd h.symm (Option.some_ne_none _)
  | some a => decidable_of_iff (P a) ⟨fun h _ h' => Option.some.inj h' ▸ h, fun h => h a rfl⟩

section Runs

variable {σ τ ι ρ : Type _}

/-- A run: the calls of a list, one after the other, with the list of their results. -/
def runOps (step : σ → ι → Exec (ρ × σ)) : σ → List ι → Exec (List ρ × σ)
  | s, [] => .ok ([], s)
  | s, op :: ops => do
    let (r, s) ← step s op
    let (rs, s) ← runOps step s ops
    return (r :: rs, s)

/-- A run of an abstract machine, whose steps always return. -/
def specOps (spec : τ → ι → ρ × τ) : τ → List ι → List ρ × τ
  | a, [] => ([], a)
  | a, op :: ops =>
    let (r, a) := spec a op
    let (rs, a) := specOps spec a ops
    (r :: rs, a)

/-- Every call of a list is admissible in the state of the abstract machine it is made in. -/
def Admissible (spec : τ → ι → ρ × τ) (ok : τ → ι → Prop) : τ → List ι → Prop
  | _, [] => True
  | a, op :: ops => ok a op ∧ Admissible spec ok (spec a op).2 ops

variable {step : σ → ι → Exec (ρ × σ)} {spec : τ → ι → ρ × τ} {ok : τ → ι → Prop} {ops : List ι}
  {I : Nat → σ → Prop} {rs : List ρ} {s s' : σ}

/-- A run that returns splits into its first call and the rest. -/
theorem runOps_cons_eq_ok {op : ι} :
    runOps step s (op :: ops) = .ok (rs, s') ↔
      ∃ r s1 rs', step s op = .ok (r, s1) ∧ runOps step s1 ops = .ok (rs', s') ∧ rs = r :: rs' := by
  simp only [runOps, Exec.bind_eq_ok, Exec.pure_eq]
  constructor
  · grind
  grind

/-- **Runs refine.** A relation between the states of the code and those of an abstract machine, kept
by every admissible call with equal results, is kept by every admissible run, which returns the
machine's results. -/
theorem runOps_refines {R : σ → τ → Prop}
    (hstep : ∀ s a op, R s a → ok a op → ∃ s', step s op = .ok ((spec a op).1, s') ∧ R s' (spec a op).2)
    {a : τ} (hR : R s a) (hops : Admissible spec ok a ops) :
    ∃ s', runOps step s ops = .ok ((specOps spec a ops).1, s') ∧ R s' (specOps spec a ops).2 := by
  induction ops generalizing s a with
  | nil => exact ⟨s, rfl, hR⟩
  | cons op ops ih =>
    obtain ⟨s1, h1, hR1⟩ := hstep s a op hR hops.1
    obtain ⟨s2, h2, hR2⟩ := ih hR1 hops.2
    exact ⟨s2, runOps_cons_eq_ok.2 ⟨_, s1, _, h1, h2, rfl⟩, hR2⟩

/-- Without a condition every call is admissible. -/
theorem admissible_true (a : τ) (ops : List ι) : Admissible spec (fun _ _ => True) a ops := by
  induction ops generalizing a with
  | nil => trivial
  | cons op ops ih => exact ⟨trivial, ih _⟩

/-- The run of a list of calls returns, and every state it goes through satisfies `P`. -/
def RunAll (step : σ → ι → Exec (ρ × σ)) (P : σ → Prop) : σ → List ι → Prop
  | s, [] => P s
  | s, op :: ops => P s ∧ ∃ r s', step s op = .ok (r, s') ∧ RunAll step P s' ops

/-- Every call of a run satisfies `Q` in the state it is made in. -/
def CallsAll (step : σ → ι → Exec (ρ × σ)) (Q : σ → ι → Prop) : σ → List ι → Prop
  | _, [] => True
  | s, op :: ops => Q s op ∧ ∀ r s', step s op = .ok (r, s') → CallsAll step Q s' ops

variable {P : σ → Prop} {Q A : σ → ι → Prop}

/-- A call that returns, in front of a run. -/
theorem CallsAll.cons {r : ρ} {op : ι} (h : step s op = .ok (r, s')) (hq : Q s op)
    (hops : CallsAll step Q s' ops) : CallsAll step Q s (op :: ops) := by
  refine ⟨hq, fun r' s'' h' => ?_⟩
  cases h.symm.trans h'
  exact hops

/-- A condition that every call of the list meets in every state. -/
theorem CallsAll.of_mem (h : ∀ op ∈ ops, ∀ s, Q s op) : CallsAll step Q s ops := by
  induction ops generalizing s with
  | nil => trivial
  | cons op ops ih =>
    exact ⟨h op List.mem_cons_self s, fun _ _ _ => ih fun op hop => h op (List.mem_cons_of_mem _ hop)⟩

instance CallsAll.instDecidable [∀ s op, Decidable (Q s op)] :
    ∀ s ops, Decidable (CallsAll step Q s ops)
  | _, [] => .isTrue trivial
  | s, op :: ops =>
    match h : step s op with
    | .error _ => decidable_of_iff (Q s op) ⟨fun hq => ⟨hq, by simp [h]⟩, And.left⟩
    | .ok (r, s') =>
      have := CallsAll.instDecidable s' ops
      decidable_of_iff (Q s op ∧ CallsAll step Q s' ops)
        ⟨fun hq => .cons h hq.1 hq.2, fun hq => ⟨hq.1, hq.2 r s' h⟩⟩

/-- The first state of a run is one of its states. -/
theorem RunAll.head (h : RunAll step P s ops) : P s := by
  cases ops with
  | nil => exact h
  | cons _ _ => exact h.1

/-- The last state of a run is one of its states. -/
theorem RunAll.final (h : RunAll step P s ops) (hrun : runOps step s ops = .ok (rs, s')) :
    P s' := by
  induction ops generalizing s rs with
  | nil => cases hrun; exact h
  | cons op ops ih =>
    obtain ⟨-, r, s1, h1, h⟩ := h
    obtain ⟨r', s2, rs', h2, h3, -⟩ := runOps_cons_eq_ok.1 hrun
    cases h1.symm.trans h2
    exact ih h h3

/-- A property of every state that implies another. -/
theorem RunAll.mono {P' : σ → Prop} (hP : ∀ s, P s → P' s) (h : RunAll step P s ops) :
    RunAll step P' s ops := by
  induction ops generalizing s with
  | nil => exact hP s h
  | cons op ops ih =>
    obtain ⟨h1, r, s', h2, h3⟩ := h
    exact ⟨hP s h1, r, s', h2, ih h3⟩

/-- **Invariants.** An invariant that every call that satisfies `Q` keeps, and that implies `P`,
makes `P` hold throughout. The invariant may count down the calls still to come. -/
theorem runAll_of_invariant (hP : ∀ k s, I k s → P s)
    (hstep : ∀ k s op, I (k + 1) s → Q s op → ∃ r s', step s op = .ok (r, s') ∧ I k s')
    (hI : I ops.length s) (hQ : CallsAll step Q s ops) : RunAll step P s ops := by
  induction ops generalizing s with
  | nil => exact hP _ _ hI
  | cons op ops ih =>
    obtain ⟨r, s', h1, h2⟩ := hstep _ _ _ hI hQ.1
    exact ⟨hP _ _ hI, r, s', h1, ih h2 (hQ.2 r s' h1)⟩

/-- **Exact conditions.** Where one admitted call keeps `P` exactly if it satisfies `Q`, a run of
admitted calls keeps `P` throughout exactly if all of its calls satisfy `Q`. -/
theorem runAll_iff
    (hstep : ∀ k s op, I (k + 1) s → A s op → ∃ r s', step s op = .ok (r, s') ∧ I k s' ∧ (P s → (P s' ↔ Q s op)))
    (hI : I ops.length s) (hP : P s) (hA : CallsAll step A s ops) :
    RunAll step P s ops ↔ CallsAll step Q s ops := by
  induction ops generalizing s with
  | nil => exact ⟨fun _ => trivial, fun _ => hP⟩
  | cons op ops ih => ?_
  obtain ⟨r, s', h1, h2, h3⟩ := hstep _ _ _ hI hA.1
  constructor
  · rintro ⟨-, r', s'', h1', hrun⟩
    cases h1.symm.trans h1'
    exact .cons h1 ((h3 hP).1 hrun.head) ((ih h2 hrun.head (hA.2 r s' h1)).1 hrun)
  rintro ⟨hq, hrest⟩
  exact ⟨hP, r, s', h1, (ih h2 ((h3 hP).2 hq) (hA.2 r s' h1)).2 (hrest r s' h1)⟩

/-- Every state that the run of a list of calls goes through satisfies `P`, as far as the calls
return. -/
def StatesAll (step : σ → ι → Exec (ρ × σ)) (P : σ → Prop) : σ → List ι → Prop
  | s, [] => P s
  | s, op :: ops => P s ∧ ∀ r s', step s op = .ok (r, s') → StatesAll step P s' ops

/-- The last state of a run that returns is one of its states. -/
theorem StatesAll.final (h : StatesAll step P s ops) (hrun : runOps step s ops = .ok (rs, s')) :
    P s' := by
  induction ops generalizing s rs with
  | nil => cases hrun; exact h
  | cons op ops ih =>
    obtain ⟨r, s1, rs', h1, h2, -⟩ := runOps_cons_eq_ok.1 hrun
    exact ih (h.2 r s1 h1) h2

/-- **Safety.** An invariant that every call that satisfies `Q` keeps when it returns, and that
implies `P`, makes `P` hold in every state. -/
theorem statesAll_of_invariant {I : σ → Prop} (hP : ∀ s, I s → P s)
    (hstep : ∀ s op r s', I s → Q s op → step s op = .ok (r, s') → I s') (hI : I s)
    (hQ : CallsAll step Q s ops) : StatesAll step P s ops := by
  induction ops generalizing s with
  | nil => exact hP s hI
  | cons op ops ih =>
    exact ⟨hP s hI, fun r s' h => ih (hstep s op r s' hI hQ.1 h) (hQ.2 r s' h)⟩

end Runs

end Stanix
