import Mathlib.Tactic

/-!
# Ranges and consecutive layout

* `Range`: a half-open range, with disjointness and containment.
* `place`: ranges of given sizes laid one after the other; they are disjoint (`place_disjoint`) and
  end at the sum of the sizes (`place_within`).
-/

namespace Layout

/-- The half-open range `[base, base + size)`. -/
structure Range where
  base : ℕ
  size : ℕ
  deriving DecidableEq

namespace Range

def Disjoint (a b : Range) : Prop := a.base + a.size ≤ b.base ∨ b.base + b.size ≤ a.base

def Within (a b : Range) : Prop := b.base ≤ a.base ∧ a.base + a.size ≤ b.base + b.size

theorem Disjoint.symm {a b : Range} (h : a.Disjoint b) : b.Disjoint a := Or.symm h

theorem Within.refl (a : Range) : a.Within a := ⟨le_rfl, le_rfl⟩

theorem Within.trans {a b c : Range} (h : a.Within b) (h' : b.Within c) : a.Within c :=
  ⟨h'.1.trans h.1, h.2.trans h'.2⟩

/-- Parts of disjoint ranges are disjoint. -/
theorem Disjoint.mono {a a' b b' : Range} (h : a'.Disjoint b') (ha : a.Within a')
    (hb : b.Within b') : a.Disjoint b := by
  unfold Disjoint Within at *
  omega

end Range

variable {κ : Type}

/-- Lay ranges of the given sizes one after the other, from `start` on. -/
def place (start : ℕ) : List (κ × ℕ) → List (κ × Range)
  | [] => []
  | (k, n) :: l => (k, ⟨start, n⟩) :: place (start + n) l

/-- The sum of the sizes. -/
def total (l : List (κ × ℕ)) : ℕ := (l.map Prod.snd).sum

@[simp] theorem total_cons (p : κ × ℕ) (l : List (κ × ℕ)) : total (p :: l) = p.2 + total l := rfl

theorem place_keys (l : List (κ × ℕ)) (start : ℕ) :
    (place start l).map Prod.fst = l.map Prod.fst := by
  induction l generalizing start with
  | nil => rfl
  | cons p l ih => simp [place, ih]

/-- Every range lies between the start and the end. -/
theorem place_within {l : List (κ × ℕ)} {start : ℕ} {k : κ} {r : Range}
    (h : (k, r) ∈ place start l) : r.Within ⟨start, total l⟩ := by
  induction l generalizing start with
  | nil => cases h
  | cons p l ih =>
    rcases List.mem_cons.mp h with heq | hmem
    · obtain ⟨rfl, rfl⟩ := Prod.mk.inj heq
      exact ⟨le_rfl, by simp⟩
    · have := ih hmem
      unfold Range.Within at *
      simp only [total_cons] at *
      omega

/-- The ranges are disjoint. -/
theorem place_disjoint (l : List (κ × ℕ)) (start : ℕ) :
    (place start l).Pairwise fun p q => p.2.Disjoint q.2 := by
  induction l generalizing start with
  | nil => exact List.Pairwise.nil
  | cons p l ih =>
    apply List.Pairwise.cons _ (ih _)
    intro q hq
    have := place_within hq
    exact Or.inl this.1

/-- Every size has its range. -/
theorem mem_place {l : List (κ × ℕ)} {k : κ} {n : ℕ} (h : (k, n) ∈ l) (start : ℕ) :
    ∃ base, (k, ⟨base, n⟩) ∈ place start l := by
  induction l generalizing start with
  | nil => cases h
  | cons p l ih =>
    rcases List.mem_cons.mp h with rfl | hmem
    · exact ⟨start, List.mem_cons_self⟩
    · obtain ⟨base, hb⟩ := ih hmem (start + p.2)
      exact ⟨base, List.mem_cons_of_mem _ hb⟩

end Layout
