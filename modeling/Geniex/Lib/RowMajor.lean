import Mathlib.Tactic

/-!
# Cells in row-major order

The cells of a grid in the order of nested loops, and how far the first `n` of them reach.

* `range_product`, `flatMap_range_mul`, `map_range_mul`: cell `k` of an `n × m` grid is
  `(k / m, k % m)`.
* `rows_le_iff`, `columns_le_iff`: the greatest row and the greatest column of the first `n` cells.
-/

namespace RowMajor

theorem cell_div {m c : ℕ} (r : ℕ) (hc : c < m) : (r * m + c) / m = r := by
  rw [Nat.mul_comm, Nat.mul_add_div (by omega), Nat.div_eq_of_lt hc, Nat.add_zero]

theorem cell_mod {m c : ℕ} (r : ℕ) (hc : c < m) : (r * m + c) % m = c := by
  rw [Nat.mul_comm, Nat.mul_add_mod, Nat.mod_eq_of_lt hc]

theorem range_product (n m : ℕ) :
    List.range n ×ˢ List.range m = (List.range (n * m)).map fun k => (k / m, k % m) := by
  induction n with
  | zero => simp
  | succ n ih =>
    have hrow : (List.range m).map (fun j => (n, j)) =
        (List.range m).map ((fun k => (k / m, k % m)) ∘ (n * m + ·)) := by
      refine List.map_congr_left fun j hj => ?_
      have hlt : j < m := List.mem_range.mp hj
      rw [Function.comp_apply, cell_div n hlt, cell_mod n hlt]
    have hsplit : List.range (n + 1) ×ˢ List.range m =
        List.range n ×ˢ List.range m ++ (List.range m).map fun j => (n, j) := by
      rw [List.range_succ]
      simp only [SProd.sprod, List.product, List.flatMap_append, List.flatMap_cons,
        List.flatMap_nil, List.append_nil]
    rw [hsplit, ih, hrow, Nat.succ_mul, List.range_add, List.map_append, List.map_map]

/-- A loop over the cells, row by row. -/
theorem flatMap_range_mul {β : Type} (f : ℕ → List β) (n m : ℕ) : (List.range (n * m)).flatMap f =
    (List.range n).flatMap fun r => (List.range m).flatMap fun c => f (r * m + c) := by
  induction n with
  | zero => simp
  | succ n ih =>
    rw [Nat.succ_mul, List.range_add, List.flatMap_append, ih, List.range_succ,
      List.flatMap_append, List.flatMap_singleton, List.flatMap_map]

/-- A row-major list, row by row. -/
theorem map_range_mul {β : Type} (f : ℕ → β) (n m : ℕ) : (List.range (n * m)).map f =
    (List.range n).flatMap fun r => (List.range m).map fun c => f (r * m + c) := by
  simp only [List.map_eq_flatMap]
  exact flatMap_range_mul _ n m

/-- A cell lies in one row and one column. -/
theorem cell_unique {m r c r' c' : ℕ} (hc : c < m) (hc' : c' < m)
    (h : r * m + c = r' * m + c') : r = r' ∧ c = c' := by
  constructor
  · rw [← cell_div r hc, h, cell_div r' hc']
  · rw [← cell_mod r hc, h, cell_mod r' hc']

/-- The rows of the first `n` cells, in a grid of `h` rows that repeats. -/
theorem rows_le_iff {h w n a : ℕ} (hh : 0 < h) (hw : 0 < w) (hn : 0 < n) :
    (∀ k < n, k / w % h ≤ a) ↔ min h ((n - 1) / w + 1) ≤ a + 1 := by
  constructor
  · intro hall
    set m := min h ((n - 1) / w + 1) with hm
    have hmpos : 0 < m := lt_min hh (Nat.succ_pos _)
    have hle : w * (m - 1) ≤ n - 1 := by
      have : m - 1 ≤ (n - 1) / w := by omega
      calc w * (m - 1) ≤ w * ((n - 1) / w) := Nat.mul_le_mul_left w this
        _ ≤ n - 1 := Nat.mul_div_le (n - 1) w
    have hrow := hall (w * (m - 1)) (by omega)
    rw [Nat.mul_div_cancel_left _ hw, Nat.mod_eq_of_lt (by omega)] at hrow
    omega
  · intro hle k hk
    have hdiv : k / w ≤ (n - 1) / w := Nat.div_le_div_right (by omega)
    have hmod := Nat.mod_lt (k / w) hh
    have hself := Nat.mod_le (k / w) h
    omega

/-- The columns of the first `n` cells. -/
theorem columns_le_iff {w n a : ℕ} (hw : 0 < w) (hn : 0 < n) :
    (∀ k < n, k % w ≤ a) ↔ min w n ≤ a + 1 := by
  constructor
  · intro hall
    have hcol := hall (min w n - 1) (by omega)
    rw [Nat.mod_eq_of_lt (by omega)] at hcol
    omega
  · intro hle k hk
    have hmod := Nat.mod_lt k hw
    have hself := Nat.mod_le k w
    omega

end RowMajor
