import Mathlib.Algebra.BigOperators.Group.List.Basic
import Mathlib.Data.List.GetD
import Mathlib.Tactic

/-!
# Trees that are laid out level by level

Every node of level `d` has `bs[d]` children; the nodes are numbered level by level, and the
children of a node stand together.

* `width`, `first`: the number of nodes of a level, and the first of them.
* `exists_level`, `level_unique`: a node is one of one level.
* `parents_at`: the parent of a node, by its place in its level.
* `flatMap_replicate`: the parents of a level, in the order of the children.
-/

namespace LevelTree

variable {bs : List ℕ} {d e j k m : ℕ}

/-- The number of nodes of level `d`. -/
def width (bs : List ℕ) (d : ℕ) : ℕ := (bs.take d).prod

/-- The first node of level `d`. -/
def first (bs : List ℕ) : ℕ → ℕ
  | 0 => 0
  | d + 1 => first bs d + width bs d

@[simp] theorem width_zero (bs : List ℕ) : width bs 0 = 1 := rfl

@[simp] theorem first_zero (bs : List ℕ) : first bs 0 = 0 := rfl

theorem first_succ (bs : List ℕ) (d : ℕ) : first bs (d + 1) = first bs d + width bs d := rfl

theorem first_one (bs : List ℕ) : first bs 1 = 1 := rfl

theorem width_succ (h : d < bs.length) : width bs (d + 1) = width bs d * bs.getD d 0 := by
  unfold width
  rw [List.take_succ_eq_append_getElem h, List.prod_append, List.prod_singleton,
    List.getD_eq_getElem _ _ h]

theorem width_pos (hpos : ∀ b ∈ bs, 0 < b) (d : ℕ) : 0 < width bs d :=
  List.prod_pos fun b hb => hpos b (List.mem_of_mem_take hb)

theorem first_mono (bs : List ℕ) : Monotone (first bs) := monotone_nat_of_le_succ fun d => by
  rw [first_succ]
  exact Nat.le_add_right _ _

/-- The first node of a level stands after all levels before it. -/
theorem first_eq_sum (bs : List ℕ) (d : ℕ) : first bs d = ((List.range d).map (width bs)).sum := by
  induction d with
  | zero => rfl
  | succ d ih =>
    rw [first_succ, ih, List.range_succ, List.map_append, List.sum_append, List.map_singleton,
      List.sum_singleton]

/-- Every node is one of some level. -/
theorem exists_level (n : ℕ) : ∀ i, i < first bs n → ∃ d < n, ∃ m < width bs d, i = first bs d + m := by
  induction n with
  | zero => exact fun i hi => absurd hi (Nat.not_lt_zero i)
  | succ n ih =>
    intro i hi
    rcases Nat.lt_or_ge i (first bs n) with hlt | hge
    · obtain ⟨d, hd, hrest⟩ := ih i hlt
      exact ⟨d, by omega, hrest⟩
    · rw [first_succ] at hi
      exact ⟨n, Nat.lt_succ_self n, i - first bs n, by omega, by omega⟩

/-- A node is one of one level only. -/
theorem level_unique (hm : m < width bs d) (hk : k < width bs e)
    (h : first bs d + m = first bs e + k) : d = e ∧ m = k := by
  have hapart : ∀ {a b x y : ℕ}, a < b → x < width bs a → first bs a + x < first bs b + y := by
    intro a b x y hab hx
    have := first_mono bs (show a + 1 ≤ b from hab)
    rw [first_succ] at this
    omega
  rcases Nat.lt_trichotomy d e with hlt | rfl | hlt
  · exact absurd h (hapart hlt hm).ne
  · exact ⟨rfl, by omega⟩
  · exact absurd h.symm (hapart hlt hk).ne

/-! ## The list of parents -/

/-- The parents of level `d + 1`. -/
def levelParents (bs : List ℕ) (d : ℕ) : List (Option ℕ) :=
  (List.range (width bs d * bs.getD d 0)).map fun m => some (first bs d + m / bs.getD d 0)

/-- The parents of the root and the next `d` levels. -/
def parents (bs : List ℕ) : ℕ → List (Option ℕ)
  | 0 => [none]
  | d + 1 => parents bs d ++ levelParents bs d

theorem parents_length (h : d ≤ bs.length) : (parents bs d).length = first bs (d + 1) := by
  induction d with
  | zero => rfl
  | succ d ih =>
    rw [parents, List.length_append, ih (by omega), levelParents, List.length_map, List.length_range,
      first_succ bs (d + 1), width_succ h]

/-- The parent of node `m` of a level is node `m / b` of the level before. -/
theorem parents_at (hd : d < e) (he : e ≤ bs.length) (hm : m < width bs (d + 1)) :
    (parents bs e)[first bs (d + 1) + m]? = some (some (first bs d + m / bs.getD d 0)) := by
  induction e with
  | zero => exact absurd hd (Nat.not_lt_zero d)
  | succ e ih =>
    have hlen : (parents bs e).length = first bs (e + 1) := parents_length (by omega)
    rw [parents]
    rcases Nat.lt_succ_iff_lt_or_eq.mp hd with hlt | rfl
    · have := first_mono bs (show d + 2 ≤ e + 1 by omega)
      rw [first_succ bs (d + 1)] at this
      rw [List.getElem?_append_left (by omega)]
      exact ih hlt (by omega)
    · rw [width_succ (by omega)] at hm
      rw [List.getElem?_append_right (by omega), hlen, Nat.add_sub_cancel_left, levelParents,
        List.getElem?_map, List.getElem?_range hm]
      rfl

theorem parents_root (e : ℕ) : (parents bs e)[0]? = some none := by
  induction e with
  | zero => rfl
  | succ e ih =>
    obtain ⟨hlt, -⟩ := List.getElem?_eq_some_iff.mp ih
    rw [parents, List.getElem?_append_left hlt, ih]

/-- `b` children for each of `n` nodes, in order: child `m` is one of node `m / b`. -/
theorem flatMap_replicate {α : Type*} (f : ℕ → α) (b s n : ℕ) :
    ((List.range' s n).flatMap fun node => List.replicate b (f node)) =
      (List.range (n * b)).map fun m => f (s + m / b) := by
  induction n with
  | zero => simp
  | succ n ih =>
    rw [List.range'_1_concat, List.flatMap_append, ih, Nat.succ_mul n b, List.range_add,
      List.map_append, List.flatMap_singleton]
    refine congrArg (_ ++ ·) (List.eq_replicate_iff.mpr ⟨?_, fun y hy => ?_⟩).symm
    · rw [List.length_map, List.length_map, List.length_range]
    · obtain ⟨_, hk, rfl⟩ := List.mem_map.mp hy
      obtain ⟨m, hm, rfl⟩ := List.mem_map.mp hk
      have hmb := List.mem_range.mp hm
      have hdiv : (n * b + m) / b = n := by
        rw [Nat.mul_comm, Nat.mul_add_div (by omega), Nat.div_eq_of_lt hmb, Nat.add_zero]
      exact congrArg (fun i => f (s + i)) hdiv

end LevelTree
