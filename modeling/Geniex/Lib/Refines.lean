import Geniex.Lib.Prog

/-!
# One program in the place of another

`Refines P x y Q`: from related states, whenever `y` returns so does `x`, and results and states are
related. Nothing is asked of `x` where `y` throws. The rules follow the constructors of a program.
-/

namespace Prog

variable {σ σ' ε ε' α β γ δ : Type}

/-- From states in `P`, whenever `y` returns, `x` returns, and both ends are in `Q`. -/
def Refines (P : σ → σ' → Prop) (x : Prog σ ε α) (y : Prog σ' ε' β) (Q : α → β → σ → σ' → Prop) :
    Prop :=
  ∀ s t, P s t → ∀ b t', y t = (.ok b, t') → ∃ a s', x s = (.ok a, s') ∧ Q a b s' t'

namespace Refines

variable {P P' : σ → σ' → Prop} {x : Prog σ ε α} {y : Prog σ' ε' β}
  {Q Q' : α → β → σ → σ' → Prop}

theorem pure {a : α} {b : β} (h : ∀ s t, P s t → Q a b s t) :
    Refines P (Pure.pure a : Prog σ ε α) (Pure.pure b : Prog σ' ε' β) Q := by
  rintro s t hP _ _ ⟨⟩
  exact ⟨a, s, rfl, h s t hP⟩

theorem modify {f : σ → σ} {g : σ' → σ'} {Q : Unit → Unit → σ → σ' → Prop}
    (h : ∀ s t, P s t → Q () () (f s) (g t)) :
    Refines P (Prog.modify f : Prog σ ε Unit) (Prog.modify g : Prog σ' ε' Unit) Q := by
  rintro s t hP _ _ ⟨⟩
  exact ⟨(), f s, rfl, h s t hP⟩

theorem bind {R : α → β → σ → σ' → Prop} {f : α → Prog σ ε γ} {g : β → Prog σ' ε' δ}
    {Q : γ → δ → σ → σ' → Prop} (hx : Refines P x y R)
    (hf : ∀ a b, Refines (R a b) (f a) (g b) Q) : Refines P (x >>= f) (y >>= g) Q := by
  intro s t hP d t' hy
  obtain ⟨b, t₁, hy₁, hy₂⟩ := bind_eq_ok hy
  obtain ⟨a, s₁, hx₁, hR⟩ := hx s t hP b t₁ hy₁
  obtain ⟨c, s', hx₂, hQ⟩ := hf a b s₁ t₁ hR d t' hy₂
  exact ⟨c, s', (bind_ok hx₁ f).trans hx₂, hQ⟩

/-- Reading both states. -/
theorem get {f : σ → Prog σ ε γ} {g : σ' → Prog σ' ε' δ} {Q : γ → δ → σ → σ' → Prop}
    (h : ∀ s₀ t₀, P s₀ t₀ → Refines (fun s t => s = s₀ ∧ t = t₀) (f s₀) (g t₀) Q) :
    Refines P (Prog.get >>= f) (Prog.get >>= g) Q :=
  fun s t hP => h s t hP s t ⟨rfl, rfl⟩

theorem conseq (h : Refines P' x y Q') (hP : ∀ s t, P s t → P' s t)
    (hQ : ∀ a b s t, Q' a b s t → Q a b s t) : Refines P x y Q := by
  intro s t hst b t' hy
  obtain ⟨a, s', hx, hQ'⟩ := h s t (hP s t hst) b t' hy
  exact ⟨a, s', hx, hQ _ _ _ _ hQ'⟩

/-- A program with nothing in its place. -/
theorem idle {y : Prog σ' ε' Unit} {Q : Unit → Unit → σ → σ' → Prop}
    (h : ∀ s, Triple (P s) y (fun _ => Q () () s) fun _ _ => True) :
    Refines P (Pure.pure () : Prog σ ε Unit) y Q :=
  fun s _ hP _ _ hy => ⟨(), s, rfl, (h s).ok hP hy⟩

/-- The counting loop, with an invariant indexed by the counter. -/
theorem forFrom {f : ℕ → Prog σ ε Unit} {g : ℕ → Prog σ' ε' Unit} {J : ℕ → σ → σ' → Prop} :
    ∀ n i : ℕ, (∀ j, i ≤ j → j < i + n → Refines (J j) (f j) (g j) fun _ _ => J (j + 1)) →
      Refines (J i) (Prog.forFrom f i n) (Prog.forFrom g i n) fun _ _ => J (i + n) := by
  intro n
  induction n with
  | zero => exact fun i _ => Refines.pure fun _ _ h => h
  | succ n ih =>
    intro i h
    have hrest := ih (i + 1) fun j h₁ h₂ => h j (by omega) (by omega)
    rw [show i + 1 + n = i + (n + 1) by omega] at hrest
    exact Refines.bind (h i le_rfl (by omega)) fun _ _ => hrest

theorem forRange {n : ℕ} {f : ℕ → Prog σ ε Unit} {g : ℕ → Prog σ' ε' Unit}
    {J : ℕ → σ → σ' → Prop} (h : ∀ j < n, Refines (J j) (f j) (g j) fun _ _ => J (j + 1)) :
    Refines (J 0) (Prog.forRange n f) (Prog.forRange n g) fun _ _ => J n := by
  have hloop := Refines.forFrom (f := f) (g := g) (J := J) n 0 fun j _ hj => h j (by omega)
  rwa [Nat.zero_add] at hloop

end Refines

end Prog
