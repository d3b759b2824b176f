import Geniex.Lib.Prog

/-!
# Two programs in step

`InStep P x y Q E`: from related states, `x` and `y` both return, with one result and into states
related by `Q`, or both throw, with one exception and into states related by `E`. The rules follow
the constructors of a program; a branch asks that both sides take it together.
-/

namespace Prog

variable {σ σ' ε α β : Type}

/-- From states in `P`, the ends of `x` and `y` are alike. -/
def InStep (P : σ → σ' → Prop) (x : Prog σ ε α) (y : Prog σ' ε α) (Q : α → σ → σ' → Prop)
    (E : ε → σ → σ' → Prop) : Prop :=
  ∀ s t, P s t → (x s).1 = (y t).1 ∧
    match (x s).1 with
    | .ok a => Q a (x s).2 (y t).2
    | .error e => E e (x s).2 (y t).2

namespace InStep

variable {P P' : σ → σ' → Prop} {x : Prog σ ε α} {y : Prog σ' ε α} {Q Q' : α → σ → σ' → Prop}
  {E E' : ε → σ → σ' → Prop}

theorem pure {a : α} (h : ∀ s t, P s t → Q a s t) :
    InStep P (Pure.pure a : Prog σ ε α) (Pure.pure a : Prog σ' ε α) Q E :=
  fun s t hP => ⟨rfl, h s t hP⟩

theorem throw {e : ε} (h : ∀ s t, P s t → E e s t) :
    InStep P (Prog.throw e : Prog σ ε α) (Prog.throw e : Prog σ' ε α) Q E :=
  fun s t hP => ⟨rfl, h s t hP⟩

theorem modify {f : σ → σ} {g : σ' → σ'} {Q : Unit → σ → σ' → Prop}
    (h : ∀ s t, P s t → Q () (f s) (g t)) :
    InStep P (Prog.modify f : Prog σ ε Unit) (Prog.modify g : Prog σ' ε Unit) Q E :=
  fun s t hP => ⟨rfl, h s t hP⟩

/-- Sequencing. -/
theorem bind {R : α → σ → σ' → Prop} {f : α → Prog σ ε β} {g : α → Prog σ' ε β}
    {Q : β → σ → σ' → Prop} (hx : InStep P x y R E) (hf : ∀ a, InStep (R a) (f a) (g a) Q E) :
    InStep P (x >>= f) (y >>= g) Q E := by
  intro s t hP
  obtain ⟨heq, hends⟩ := hx s t hP
  rw [bind_apply, bind_apply]
  rcases hxs : x s with ⟨r, s'⟩
  rcases hyt : y t with ⟨r', t'⟩
  rw [hxs, hyt] at heq hends
  cases heq
  cases r with
  | ok a => exact hf a s' t' hends
  | error e => exact ⟨rfl, hends⟩

/-- Reading both states: the rest is proved for the states read. -/
theorem get {f : σ → Prog σ ε β} {g : σ' → Prog σ' ε β} {Q : β → σ → σ' → Prop}
    (h : ∀ s₀ t₀, P s₀ t₀ → InStep (fun s t => s = s₀ ∧ t = t₀) (f s₀) (g t₀) Q E) :
    InStep P (Prog.get >>= f) (Prog.get >>= g) Q E :=
  fun s t hP => h s t hP s t ⟨rfl, rfl⟩

/-- One pair of start states at a time. -/
theorem of_eq (h : ∀ s₀ t₀, P s₀ t₀ → InStep (fun s t => s = s₀ ∧ t = t₀) x y Q E) :
    InStep P x y Q E :=
  fun s t hP => h s t hP s t ⟨rfl, rfl⟩

/-- Consequence. -/
theorem conseq (h : InStep P' x y Q' E') (hP : ∀ s t, P s t → P' s t)
    (hQ : ∀ a s t, Q' a s t → Q a s t) (hE : ∀ e s t, E' e s t → E e s t) :
    InStep P x y Q E := by
  intro s t hst
  obtain ⟨heq, hends⟩ := h s t (hP s t hst)
  refine ⟨heq, ?_⟩
  cases hr : (x s).1 with
  | ok a =>
    rw [hr] at hends
    exact hQ a _ _ hends
  | error e =>
    rw [hr] at hends
    exact hE e _ _ hends

/-- A stronger precondition. -/
theorem pre (h : InStep P' x y Q E) (hP : ∀ s t, P s t → P' s t) : InStep P x y Q E :=
  h.conseq hP (fun _ _ _ h => h) fun _ _ _ h => h

/-- A weaker postcondition. -/
theorem post (h : InStep P x y Q' E) (hQ : ∀ a s t, Q' a s t → Q a s t) : InStep P x y Q E :=
  h.conseq (fun _ _ h => h) hQ fun _ _ _ h => h

/-- A branch that both sides take together. -/
theorem ite {c c' : Prop} [Decidable c] [Decidable c'] {x' : Prog σ ε α} {y' : Prog σ' ε α}
    (hc : c ↔ c') (hthen : c → InStep P x y Q E) (helse : ¬c → InStep P x' y' Q E) :
    InStep P (if c then x else x') (if c' then y else y') Q E := by
  by_cases h : c
  · rw [if_pos h, if_pos (hc.mp h)]
    exact hthen h
  · rw [if_neg h, if_neg (mt hc.mpr h)]
    exact helse h

theorem when {c c' : Prop} [Decidable c] [Decidable c'] {x : Prog σ ε Unit} {y : Prog σ' ε Unit}
    {Q : Unit → σ → σ' → Prop} (hc : c ↔ c') (hthen : c → InStep P x y Q E)
    (helse : ¬c → ∀ s t, P s t → Q () s t) : InStep P (Prog.when c x) (Prog.when c' y) Q E :=
  ite hc hthen fun h => pure (helse h)

theorem onThrow {f : σ → σ} {g : σ' → σ'} (hx : InStep P x y Q E')
    (h : ∀ e s t, E' e s t → E e (f s) (g t)) : InStep P (x.onThrow f) (y.onThrow g) Q E := by
  intro s t hP
  obtain ⟨heq, hends⟩ := hx s t hP
  unfold Prog.onThrow
  rcases hxs : x s with ⟨r, s'⟩
  rcases hyt : y t with ⟨r', t'⟩
  rw [hxs, hyt] at heq hends
  cases heq
  cases r with
  | ok a => exact ⟨rfl, hends⟩
  | error e => exact ⟨rfl, h e s' t' hends⟩

/-- Two counting loops, with a relation indexed by the counter. -/
theorem forFrom {body : ℕ → Prog σ ε Unit} {body' : ℕ → Prog σ' ε Unit}
    {R : ℕ → σ → σ' → Prop} :
    ∀ n i : ℕ, (∀ j, i ≤ j → j < i + n →
        InStep (R j) (body j) (body' j) (fun _ => R (j + 1)) E) →
      InStep (R i) (Prog.forFrom body i n) (Prog.forFrom body' i n) (fun _ => R (i + n)) E := by
  intro n
  induction n with
  | zero => exact fun i _ => pure fun _ _ h => h
  | succ n ih =>
    intro i h
    have hrest := ih (i + 1) fun j h1 h2 => h j (by omega) (by omega)
    rw [show i + 1 + n = i + (n + 1) by omega] at hrest
    exact bind (h i le_rfl (by omega)) fun _ => hrest

theorem forRange {n : ℕ} {body : ℕ → Prog σ ε Unit} {body' : ℕ → Prog σ' ε Unit}
    {R : ℕ → σ → σ' → Prop}
    (h : ∀ j, j < n → InStep (R j) (body j) (body' j) (fun _ => R (j + 1)) E) :
    InStep (R 0) (Prog.forRange n body) (Prog.forRange n body') (fun _ => R n) E := by
  have hloop := forFrom (E := E) n 0 fun j _ hj => h j (by omega)
  rwa [Nat.zero_add] at hloop

/-- Two runs from related states have one result. -/
theorem result (h : InStep P x y Q E) {s : σ} {t : σ'} (hP : P s t) : (x s).1 = (y t).1 :=
  (h s t hP).1

theorem ok (h : InStep P x y Q E) {s s' : σ} {t t' : σ'} {a b : α} (hP : P s t)
    (hx : x s = (.ok a, s')) (hy : y t = (.ok b, t')) : Q a s' t' := by
  have hends := (h s t hP).2
  rwa [hx, hy] at hends

theorem error (h : InStep P x y Q E) {s s' : σ} {t t' : σ'} {e e' : ε} (hP : P s t)
    (hx : x s = (.error e, s')) (hy : y t = (.error e', t')) : E e s' t' := by
  have hends := (h s t hP).2
  rwa [hx, hy] at hends

/-- What the ends of two runs share, however they end. -/
theorem snd {R : σ → σ' → Prop} (h : InStep P x y Q E) (hQ : ∀ a s t, Q a s t → R s t)
    (hE : ∀ e s t, E e s t → R s t) {s : σ} {t : σ'} (hP : P s t) : R (x s).2 (y t).2 := by
  have hends := (h s t hP).2
  cases hr : (x s).1 with
  | ok a =>
    rw [hr] at hends
    exact hQ a _ _ hends
  | error e =>
    rw [hr] at hends
    exact hE e _ _ hends

end InStep

end Prog
