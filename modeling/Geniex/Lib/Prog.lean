import Mathlib.Tactic

/-!
# Programs with state and exceptions

`Prog σ ε α` is a program over the state `σ` that returns an `α` or throws an `ε`; a throw keeps
the state reached so far, as an exception of an imperative language does.

* `Triple P x Q E`: from a state in `P`, a return of `x` satisfies `Q` and a throw of `x`
  satisfies `E`. The rules follow the constructors (`Triple.bind`, `Triple.modify`, ...).
* `Triple.forFrom`: the rule of counting loops, with an invariant indexed by the counter.
* `Throws T x`: the exceptions of `x` are among `T`.
* `Stable I x`: `x` keeps `I` at both exits.
-/

/-- A program over the state `σ` that returns an `α` or throws an `ε`. -/
def Prog (σ ε α : Type) : Type := σ → Except ε α × σ

namespace Prog

variable {σ ε α β : Type}

instance : Monad (Prog σ ε) where
  pure a := fun s => (.ok a, s)
  bind x f := fun s =>
    match x s with
    | (.ok a, s') => f a s'
    | (.error e, s') => (.error e, s')

/-- Leave the program by the exception `e`. -/
def throw (e : ε) : Prog σ ε α := fun s => (.error e, s)

/-- The current state. -/
def get : Prog σ ε σ := fun s => (.ok s, s)

/-- Update the state. -/
def modify (f : σ → σ) : Prog σ ε Unit := fun s => (.ok (), f s)

/-- `if (c) x;`. -/
def when (c : Prop) [Decidable c] (x : Prog σ ε Unit) : Prog σ ε Unit := if c then x else pure ()

/-- Run `f` on the state when `x` leaves by an exception. -/
def onThrow (x : Prog σ ε α) (f : σ → σ) : Prog σ ε α := fun s =>
  match x s with
  | (.ok a, s') => (.ok a, s')
  | (.error e, s') => (.error e, f s')

/-- `for (j = i; j < i + n; ++j) body j`. -/
def forFrom (body : ℕ → Prog σ ε Unit) : ℕ → ℕ → Prog σ ε Unit
  | _, 0 => pure ()
  | i, n + 1 => do
    body i
    forFrom body (i + 1) n

/-- `for (j = 0; j < n; ++j) body j`. -/
def forRange (n : ℕ) (body : ℕ → Prog σ ε Unit) : Prog σ ε Unit := forFrom body 0 n

@[simp] theorem pure_apply (a : α) (s : σ) : (pure a : Prog σ ε α) s = (.ok a, s) := rfl

@[simp] theorem throw_apply (e : ε) (s : σ) : (throw e : Prog σ ε α) s = (.error e, s) := rfl

@[simp] theorem get_apply (s : σ) : (get : Prog σ ε σ) s = (.ok s, s) := rfl

@[simp] theorem modify_apply (f : σ → σ) (s : σ) :
    (modify f : Prog σ ε Unit) s = (.ok (), f s) := rfl

theorem bind_apply (x : Prog σ ε α) (f : α → Prog σ ε β) (s : σ) :
    (x >>= f) s = match x s with
      | (.ok a, s') => f a s'
      | (.error e, s') => (.error e, s') := rfl

/-- A bind whose first part returns runs on. -/
theorem bind_ok {x : Prog σ ε α} {s s' : σ} {a : α} (h : x s = (.ok a, s'))
    (f : α → Prog σ ε β) : (x >>= f) s = f a s' := by
  rw [bind_apply, h]

/-- A bind whose first part throws throws. -/
theorem bind_error {x : Prog σ ε α} {s s' : σ} {e : ε} (h : x s = (.error e, s'))
    (f : α → Prog σ ε β) : (x >>= f) s = (.error e, s') := by
  rw [bind_apply, h]

/-- A bind that returns has a first part that returns. -/
theorem bind_eq_ok {x : Prog σ ε α} {f : α → Prog σ ε β} {s t : σ} {b : β}
    (h : (x >>= f) s = (.ok b, t)) : ∃ a s', x s = (.ok a, s') ∧ f a s' = (.ok b, t) := by
  rw [bind_apply] at h
  rcases hx : x s with ⟨r, s'⟩
  rw [hx] at h
  cases r with
  | ok a => exact ⟨a, s', rfl, h⟩
  | error e => cases h

/-- A run, by its result. -/
theorem eq_of_result {x : Except ε α × σ} {r : Except ε α} (h : x.1 = r) : x = (r, x.2) :=
  Prod.ext h rfl

@[simp] theorem get_bind (f : σ → Prog σ ε β) (s : σ) : (get >>= f) s = f s s := rfl

@[simp] theorem modify_bind (g : σ → σ) (f : Unit → Prog σ ε β) (s : σ) :
    (modify g >>= f) s = f () (g s) := rfl

@[simp] theorem pure_bind' (a : α) (f : α → Prog σ ε β) : (pure a >>= f) = f a := rfl

theorem bind_assoc' {γ : Type} (x : Prog σ ε α) (f : α → Prog σ ε β) (g : β → Prog σ ε γ) :
    x >>= f >>= g = x >>= fun a => f a >>= g := by
  funext s
  rw [bind_apply, bind_apply, bind_apply]
  rcases x s with ⟨r, s'⟩
  cases r <;> rfl

/-! ## Triples -/

/-- From a state in `P`, a return of `x` satisfies `Q` and a throw satisfies `E`. -/
def Triple (P : σ → Prop) (x : Prog σ ε α) (Q : α → σ → Prop) (E : ε → σ → Prop) : Prop :=
  ∀ s, P s → match x s with
    | (.ok a, s') => Q a s'
    | (.error e, s') => E e s'

variable {P P' : σ → Prop} {x : Prog σ ε α} {f : α → Prog σ ε β} {Q Q' : α → σ → Prop}
  {E E' : ε → σ → Prop}

theorem Triple.pure {a : α} (h : ∀ s, P s → Q a s) : Triple P (pure a : Prog σ ε α) Q E :=
  fun s hs => h s hs

theorem Triple.throw {e : ε} (h : ∀ s, P s → E e s) : Triple P (throw e : Prog σ ε α) Q E :=
  fun s hs => h s hs

theorem Triple.modify {g : σ → σ} {Q : Unit → σ → Prop} (h : ∀ s, P s → Q () (g s)) :
    Triple P (modify g : Prog σ ε Unit) Q E :=
  fun s hs => h s hs

/-- Sequencing. -/
theorem Triple.bind {R : α → σ → Prop} {Q : β → σ → Prop} (hx : Triple P x R E)
    (hf : ∀ a, Triple (R a) (f a) Q E) : Triple P (x >>= f) Q E := by
  intro s hs
  have h := hx s hs
  rw [bind_apply]
  rcases hxs : x s with ⟨r, s'⟩
  rw [hxs] at h
  cases r with
  | ok a => exact hf a s' h
  | error e => exact h

/-- Reading the state: the rest is proved for the state read. -/
theorem Triple.get {f : σ → Prog σ ε β} {Q : β → σ → Prop}
    (h : ∀ s₀, P s₀ → Triple (fun s => s = s₀) (f s₀) Q E) : Triple P (Prog.get >>= f) Q E :=
  fun s hs => h s hs s rfl

/-- A triple, one start state at a time. -/
theorem Triple.of_eq (h : ∀ s₀, P s₀ → Triple (fun s => s = s₀) x Q E) : Triple P x Q E :=
  fun s hs => h s hs s rfl

theorem Triple.of_exists {ι : Type} {P : ι → σ → Prop} (h : ∀ i, Triple (P i) x Q E) :
    Triple (fun s => ∃ i, P i s) x Q E :=
  fun s ⟨i, hs⟩ => h i s hs

/-- Consequence. -/
theorem Triple.conseq (h : Triple P' x Q' E') (hP : ∀ s, P s → P' s)
    (hQ : ∀ a s, Q' a s → Q a s) (hE : ∀ e s, E' e s → E e s) : Triple P x Q E := by
  intro s hs
  have h' := h s (hP s hs)
  rcases hxs : x s with ⟨r, s'⟩
  rw [hxs] at h'
  cases r with
  | ok a => exact hQ a s' h'
  | error e => exact hE e s' h'

/-- A stronger precondition. -/
theorem Triple.pre (h : Triple P' x Q E) (hP : ∀ s, P s → P' s) : Triple P x Q E :=
  h.conseq hP (fun _ _ h => h) (fun _ _ h => h)

/-- A weaker postcondition. -/
theorem Triple.post (h : Triple P x Q' E) (hQ : ∀ a s, Q' a s → Q a s) : Triple P x Q E :=
  h.conseq (fun _ h => h) hQ (fun _ _ h => h)

/-- Two specifications of one program. -/
theorem Triple.and (h : Triple P x Q E) (h' : Triple P' x Q' E') :
    Triple (fun s => P s ∧ P' s) x (fun a s => Q a s ∧ Q' a s) (fun e s => E e s ∧ E' e s) := by
  rintro s ⟨hs, hs'⟩
  have h₁ := h s hs
  have h₂ := h' s hs'
  rcases hxs : x s with ⟨r, s'⟩
  rw [hxs] at h₁ h₂
  cases r with
  | ok a => exact ⟨h₁, h₂⟩
  | error e => exact ⟨h₁, h₂⟩

theorem Triple.ite {c : Prop} [Decidable c] {y z : Prog σ ε α} (hy : c → Triple P y Q E)
    (hz : ¬c → Triple P z Q E) : Triple P (if c then y else z) Q E := by
  split_ifs with h
  · exact hy h
  · exact hz h

theorem Triple.when {c : Prop} [Decidable c] {y : Prog σ ε Unit} {Q : Unit → σ → Prop}
    (hy : c → Triple P y Q E) (hn : ¬c → ∀ s, P s → Q () s) : Triple P (Prog.when c y) Q E :=
  Triple.ite hy fun h => Triple.pure (hn h)

theorem Triple.onThrow {g : σ → σ} (hx : Triple P x Q E') (h : ∀ e s, E' e s → E e (g s)) :
    Triple P (x.onThrow g) Q E := by
  intro s hs
  have h' := hx s hs
  unfold Prog.onThrow
  rcases hxs : x s with ⟨r, s'⟩
  rw [hxs] at h'
  cases r with
  | ok a => exact h'
  | error e => exact h e s' h'

/-- The counting loop, with an invariant indexed by the counter. -/
theorem Triple.forFrom {body : ℕ → Prog σ ε Unit} {I : ℕ → σ → Prop} :
    ∀ (n i : ℕ), (∀ j, i ≤ j → j < i + n → Triple (I j) (body j) (fun _ => I (j + 1)) E) →
      Triple (I i) (Prog.forFrom body i n) (fun _ => I (i + n)) E := by
  intro n
  induction n with
  | zero => intro i _; exact Triple.pure fun s hs => hs
  | succ n ih =>
    intro i h
    have hrest := ih (i + 1) fun j h1 h2 => h j (by omega) (by omega)
    rw [show i + 1 + n = i + (n + 1) by omega] at hrest
    exact Triple.bind (h i le_rfl (by omega)) fun _ => hrest

theorem Triple.forRange {n : ℕ} {body : ℕ → Prog σ ε Unit} {I : ℕ → σ → Prop}
    (h : ∀ j, j < n → Triple (I j) (body j) (fun _ => I (j + 1)) E) :
    Triple (I 0) (Prog.forRange n body) (fun _ => I n) E := by
  have := Triple.forFrom (E := E) n 0 fun j _ hj => h j (by omega)
  rwa [Nat.zero_add] at this

/-- What holds of no state in particular holds after every run. -/
theorem Triple.fact {c : Prop} : Triple (fun _ => c) x (fun _ _ => c) (fun _ _ => True) := by
  intro s hc
  rcases x s with ⟨r, s'⟩
  cases r with
  | ok a => exact hc
  | error e => trivial

/-- What a triple says of a run that returns. -/
theorem Triple.ok (h : Triple P x Q E) {s s' : σ} {a : α} (hs : P s) (hx : x s = (.ok a, s')) :
    Q a s' := by
  have := h s hs
  rwa [hx] at this

/-- What a triple says of a run that throws. -/
theorem Triple.error (h : Triple P x Q E) {s s' : σ} {e : ε} (hs : P s)
    (hx : x s = (.error e, s')) : E e s' := by
  have := h s hs
  rwa [hx] at this

/-- What a triple says of the state after a run, however it ends. -/
theorem Triple.snd {I : σ → Prop} (h : Triple P x Q E) (hq : ∀ a s, Q a s → I s)
    (he : ∀ e s, E e s → I s) {s : σ} (hs : P s) : I (x s).2 := by
  have h' := h s hs
  rcases hx : x s with ⟨r, s'⟩
  rw [hx] at h'
  cases r with
  | ok a => exact hq a s' h'
  | error e => exact he e s' h'

/-! ## What a program throws -/

/-- Every exception of `x` satisfies `T`. -/
def Throws (T : ε → Prop) (x : Prog σ ε α) : Prop :=
  Triple (fun _ => True) x (fun _ _ => True) fun e _ => T e

section Throws

variable {T : ε → Prop}

theorem Throws.pure (a : α) : Throws T (pure a : Prog σ ε α) := Triple.pure fun _ _ => trivial

theorem Throws.throw {e : ε} (h : T e) : Throws T (throw e : Prog σ ε α) :=
  Triple.throw fun _ _ => h

theorem Throws.modify (g : σ → σ) : Throws T (modify g : Prog σ ε Unit) :=
  Triple.modify fun _ _ => trivial

theorem Throws.bind (hx : Throws T x) (hf : ∀ a, Throws T (f a)) : Throws T (x >>= f) :=
  Triple.bind hx hf

theorem Throws.get {f : σ → Prog σ ε β} (h : ∀ s, Throws T (f s)) : Throws T (Prog.get >>= f) :=
  Triple.get fun s₀ _ => (h s₀).pre fun _ _ => trivial

theorem Throws.ite {c : Prop} [Decidable c] {y z : Prog σ ε α} (hy : c → Throws T y)
    (hz : ¬c → Throws T z) : Throws T (if c then y else z) :=
  Triple.ite hy hz

theorem Throws.when {c : Prop} [Decidable c] {y : Prog σ ε Unit} (hy : c → Throws T y) :
    Throws T (Prog.when c y) :=
  Triple.when hy fun _ _ _ => trivial

theorem Throws.onThrow (hx : Throws T x) (g : σ → σ) : Throws T (x.onThrow g) :=
  Triple.onThrow hx fun _ _ h => h

theorem Throws.forRange {body : ℕ → Prog σ ε Unit} (h : ∀ j, Throws T (body j)) (n : ℕ) :
    Throws T (Prog.forRange n body) :=
  Triple.forRange (I := fun _ _ => True) fun j _ => h j

/-- What the exceptions of a program are, beside what it keeps. -/
theorem Throws.triple (hx : Throws T x) (h : Triple P x Q E) :
    Triple P x Q fun e s => E e s ∧ T e :=
  (Triple.and h hx).conseq (fun _ hs => ⟨hs, trivial⟩) (fun _ _ h => h.1) fun _ _ h => h

theorem Throws.error (h : Throws T x) {s s' : σ} {e : ε} (hx : x s = (.error e, s')) : T e :=
  Triple.error h trivial hx

end Throws

/-! ## Properties kept at both exits -/

/-- `x` keeps `I` at both exits. -/
def Stable (I : σ → Prop) (x : Prog σ ε α) : Prop := Triple I x (fun _ => I) (fun _ => I)

variable {I : σ → Prop}

theorem Stable.pure (a : α) : Stable I (pure a : Prog σ ε α) := Triple.pure fun _ h => h

theorem Stable.throw (e : ε) : Stable I (throw e : Prog σ ε α) := Triple.throw fun _ h => h

theorem Stable.modify {g : σ → σ} (h : ∀ s, I s → I (g s)) : Stable I (modify g : Prog σ ε Unit) :=
  Triple.modify h

theorem Stable.bind (hx : Stable I x) (hf : ∀ a, Stable I (f a)) : Stable I (x >>= f) :=
  Triple.bind hx hf

theorem Stable.get {f : σ → Prog σ ε β} (h : ∀ s, Stable I (f s)) : Stable I (Prog.get >>= f) :=
  Triple.get fun s₀ h₀ => (h s₀).pre fun _ hs => hs ▸ h₀

theorem Stable.ite {c : Prop} [Decidable c] {y z : Prog σ ε α} (hy : c → Stable I y)
    (hz : ¬c → Stable I z) : Stable I (if c then y else z) :=
  Triple.ite hy hz

theorem Stable.when {c : Prop} [Decidable c] {y : Prog σ ε Unit} (hy : c → Stable I y) :
    Stable I (Prog.when c y) :=
  Triple.when hy fun _ _ h => h

theorem Stable.onThrow {g : σ → σ} (hx : Stable I x) (h : ∀ s, I s → I (g s)) :
    Stable I (x.onThrow g) :=
  Triple.onThrow hx fun _ s => h s

theorem Stable.forFrom {body : ℕ → Prog σ ε Unit} (h : ∀ j, Stable I (body j)) (n i : ℕ) :
    Stable I (Prog.forFrom body i n) :=
  Triple.forFrom (I := fun _ => I) n i fun j _ _ => h j

theorem Stable.forRange {body : ℕ → Prog σ ε Unit} (h : ∀ j, Stable I (body j)) (n : ℕ) :
    Stable I (Prog.forRange n body) := Stable.forFrom h n 0

/-- The state after a stable run. -/
theorem Stable.snd (h : Stable I x) {s : σ} (hs : I s) : I (x s).2 :=
  Triple.snd h (fun _ _ h => h) (fun _ _ h => h) hs

end Prog
