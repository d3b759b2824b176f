import Geniex.Lib.Prog

/-!
# Triples over a log

A program whose state has a log, to which every part of it only adds. `Logged log fits P x Q`: from
a state in `P`, a return of `x` satisfies `Q` if what `x` has logged `fits`. A condition on the log
of a whole run is so at hand at each of its steps.
-/

namespace Prog

variable {σ ε ν α β : Type} {log : σ → List ν} {fits : List ν → Prop}

/-- Parts of a log that fits fit. -/
def Hereditary (fits : List ν → Prop) : Prop := ∀ a b, fits (a ++ b) → fits a ∧ fits b

/-- From a state in `P`, a return of `x` satisfies `Q` if what `x` has logged fits. The newest
entry of a log comes first. -/
def Logged (log : σ → List ν) (fits : List ν → Prop) (P : σ → Prop) (x : Prog σ ε α)
    (Q : α → σ → Prop) : Prop :=
  ∀ s a s', x s = (.ok a, s') → ∃ new, log s' = new ++ log s ∧ (fits new → P s → Q a s')

namespace Logged

variable {P P' : σ → Prop} {x : Prog σ ε α} {f : α → Prog σ ε β} {Q Q' : α → σ → Prop}

theorem pure {a : α} (h : ∀ s, P s → Q a s) : Logged log fits P (pure a : Prog σ ε α) Q := by
  intro s a' s' hx
  cases hx
  exact ⟨[], rfl, fun _ => h s⟩

theorem throw (e : ε) : Logged log fits P (throw e : Prog σ ε α) Q := by
  intro s a s' hx
  cases hx

/-- An update that at most adds to the log. -/
theorem modify {g : σ → σ} {Q : Unit → σ → Prop} (hlog : ∀ s, log s <:+ log (g s))
    (h : ∀ s, P s → Q () (g s)) : Logged log fits P (Prog.modify g : Prog σ ε Unit) Q := by
  intro s a s' hx
  cases hx
  obtain ⟨new, hnew⟩ := hlog s
  exact ⟨new, hnew.symm, fun _ => h s⟩

/-- An update, with what it adds to the log. -/
theorem modifyLog {g : σ → σ} {Q : Unit → σ → Prop} (new : σ → List ν)
    (hlog : ∀ s, log (g s) = new s ++ log s) (h : ∀ s, fits (new s) → P s → Q () (g s)) :
    Logged log fits P (Prog.modify g : Prog σ ε Unit) Q := by
  intro s a s' hx
  cases hx
  exact ⟨new s, hlog s, h s⟩

/-- Sequencing, with what is known of every result of the first part. -/
theorem bindResult (hfits : Hereditary fits) {C : α → Prop} {R : α → σ → Prop} {Q : β → σ → Prop}
    (hx : Logged log fits P x R) (hC : ∀ s a s', x s = (.ok a, s') → C a)
    (hf : ∀ a, C a → Logged log fits (R a) (f a) Q) : Logged log fits P (x >>= f) Q := by
  intro s b t hrun
  obtain ⟨a, s', hxs, hfs⟩ := bind_eq_ok hrun
  obtain ⟨new, hnew, hQ⟩ := hx s a s' hxs
  obtain ⟨new', hnew', hQ'⟩ := hf a (hC s a s' hxs) s' b t hfs
  refine ⟨new' ++ new, by rw [hnew', hnew, List.append_assoc], fun hfit hP => ?_⟩
  obtain ⟨h', h⟩ := hfits _ _ hfit
  exact hQ' h' (hQ h hP)

/-- Sequencing. -/
theorem bind (hfits : Hereditary fits) {R : α → σ → Prop} {Q : β → σ → Prop}
    (hx : Logged log fits P x R) (hf : ∀ a, Logged log fits (R a) (f a) Q) :
    Logged log fits P (x >>= f) Q :=
  bindResult (C := fun _ => True) hfits hx (fun _ _ _ _ => trivial) fun a _ => hf a

/-- Reading the state: the rest is proved for the state read. -/
theorem get {f : σ → Prog σ ε β} {Q : β → σ → Prop}
    (h : ∀ s₀, Logged log fits (fun s => s = s₀ ∧ P s) (f s₀) Q) :
    Logged log fits P (Prog.get >>= f) Q := by
  intro s b t hrun
  obtain ⟨new, hnew, hQ⟩ := h s s b t hrun
  exact ⟨new, hnew, fun hfit hP => hQ hfit ⟨rfl, hP⟩⟩

/-- Consequence. -/
theorem conseq (h : Logged log fits P' x Q') (hP : ∀ s, P s → P' s)
    (hQ : ∀ a s, Q' a s → Q a s) : Logged log fits P x Q := by
  intro s a s' hx
  obtain ⟨new, hnew, h'⟩ := h s a s' hx
  exact ⟨new, hnew, fun hfit hp => hQ a s' (h' hfit (hP s hp))⟩

theorem pre (h : Logged log fits P' x Q) (hP : ∀ s, P s → P' s) : Logged log fits P x Q :=
  h.conseq hP fun _ _ h => h

theorem post (h : Logged log fits P x Q') (hQ : ∀ a s, Q' a s → Q a s) :
    Logged log fits P x Q :=
  h.conseq (fun _ h => h) hQ

/-- A fact that does not depend on the state. -/
theorem frame {C : Prop} (h : Logged log fits P x Q) :
    Logged log fits (fun s => P s ∧ C) x fun a s => Q a s ∧ C := by
  intro s a s' hx
  obtain ⟨new, hnew, hQ⟩ := h s a s' hx
  exact ⟨new, hnew, fun hfit ⟨hP, hC⟩ => ⟨hQ hfit hP, hC⟩⟩

theorem ite {c : Prop} [Decidable c] {y z : Prog σ ε α} (hy : c → Logged log fits P y Q)
    (hz : ¬c → Logged log fits P z Q) : Logged log fits P (if c then y else z) Q := by
  split_ifs with h
  · exact hy h
  · exact hz h

theorem when {c : Prop} [Decidable c] {y : Prog σ ε Unit} {Q : Unit → σ → Prop}
    (hy : c → Logged log fits P y Q) (hn : ¬c → ∀ s, P s → Q () s) :
    Logged log fits P (Prog.when c y) Q :=
  ite hy fun h => pure (hn h)

/-- The counting loop, with an invariant indexed by the counter. -/
theorem forFrom (hfits : Hereditary fits) {body : ℕ → Prog σ ε Unit} {I : ℕ → σ → Prop} :
    ∀ n i : ℕ, (∀ j, i ≤ j → j < i + n → Logged log fits (I j) (body j) fun _ => I (j + 1)) →
      Logged log fits (I i) (Prog.forFrom body i n) fun _ => I (i + n) := by
  intro n
  induction n with
  | zero => exact fun i _ => pure fun s hs => hs
  | succ n ih =>
    intro i h
    have hrest := ih (i + 1) fun j h1 h2 => h j (by omega) (by omega)
    rw [show i + 1 + n = i + (n + 1) by omega] at hrest
    exact bind hfits (h i le_rfl (by omega)) fun _ => hrest

theorem forRange (hfits : Hereditary fits) {n : ℕ} {body : ℕ → Prog σ ε Unit} {I : ℕ → σ → Prop}
    (h : ∀ j, j < n → Logged log fits (I j) (body j) fun _ => I (j + 1)) :
    Logged log fits (I 0) (Prog.forRange n body) fun _ => I n := by
  have := forFrom hfits (I := I) n 0 fun j _ hj => h j (by omega)
  rwa [Nat.zero_add] at this

end Logged

end Prog
