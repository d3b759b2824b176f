import Mathlib.Data.List.Basic
import Mathlib.Tactic

/-!
# Loops that read a description

A variable starts at a default, and a loop assigns to it as long as it still has the default: after
the loop it holds the first value that is not the default. A loop of checks succeeds if every check
does.
-/

namespace WriteOnce

variable {α β : Type*} [DecidableEq α] {d : α}

/-- `if (a == d) a = x;` -/
def assign (d a x : α) : α := if a = d then x else a

/-- The first value that is not the default. -/
def firstSet (d : α) (l : List α) : α := (l.find? fun a => a ≠ d).getD d

@[simp] theorem firstSet_nil : firstSet d [] = d := rfl

@[simp] theorem firstSet_cons (a : α) (l : List α) :
    firstSet d (a :: l) = assign d a (firstSet d l) := by
  unfold firstSet assign
  by_cases h : a = d
  · rw [if_pos h, List.find?_cons_of_neg (by simpa using h)]
  · rw [if_neg h, List.find?_cons_of_pos (by simpa using h), Option.getD_some]

@[simp] theorem assign_default (a : α) : assign d a d = a := by
  unfold assign
  split_ifs with h
  · exact h.symm
  · rfl

theorem assign_assoc (a x y : α) : assign d (assign d a x) y = assign d a (assign d x y) := by
  unfold assign
  split_ifs <;> rfl

theorem firstSet_append (l l' : List α) :
    firstSet d (l ++ l') = assign d (firstSet d l) (firstSet d l') := by
  induction l with
  | nil => simp [assign]
  | cons a l ih => rw [List.cons_append, firstSet_cons, firstSet_cons, ih, assign_assoc]

/-- What was set is one of the values. -/
theorem firstSet_mem {l : List α} (h : firstSet d l ≠ d) : firstSet d l ∈ l := by
  induction l with
  | nil => exact absurd rfl h
  | cons a l ih =>
    rw [firstSet_cons] at h ⊢
    unfold assign at h ⊢
    split_ifs at h ⊢ with ha
    · exact List.mem_cons_of_mem _ (ih h)
    · exact List.mem_cons_self

omit [DecidableEq α] in
/-- A loop of checks succeeds if every check does, with the results in order. -/
theorem mapM_ok_iff {ε γ : Type*} {f : β → Except ε γ} {p : β → Prop} {v : β → γ}
    (hf : ∀ b c, f b = .ok c ↔ p b ∧ c = v b) (l : List β) (r : List γ) :
    l.mapM f = .ok r ↔ (∀ b ∈ l, p b) ∧ r = l.map v := by
  induction l generalizing r with
  | nil =>
    rw [List.mapM_nil]
    exact ⟨fun h => ⟨fun b hb => absurd hb List.not_mem_nil, (Except.ok.inj h).symm⟩,
      fun h => congrArg _ h.2.symm⟩
  | cons b l ih =>
    rw [List.mapM_cons, List.forall_mem_cons, List.map_cons]
    by_cases hb : p b
    · rw [(hf b (v b)).mpr ⟨hb, rfl⟩]
      change (l.mapM f >>= fun cs => pure (v b :: cs)) = .ok r ↔ _
      cases hl : l.mapM f with
      | error e =>
        refine ⟨fun h => (by cases h), fun h => ?_⟩
        rw [(ih _).mpr ⟨h.1.2, rfl⟩] at hl
        cases hl
      | ok cs =>
        obtain ⟨hall, rfl⟩ := (ih cs).mp hl
        exact ⟨fun h => ⟨⟨hb, hall⟩, (Except.ok.inj h).symm⟩, fun h => congrArg _ h.2.symm⟩
    · refine ⟨fun h => ?_, fun h => absurd h.1.1 hb⟩
      cases hfb : f b with
      | error e =>
        rw [hfb] at h
        cases h
      | ok c => exact absurd ((hf b c).mp hfb).1 hb

end WriteOnce
