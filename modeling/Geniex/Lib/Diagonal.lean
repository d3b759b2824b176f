import Mathlib.Tactic

/-!
# Blocks along a diagonal

Points with coordinates in `ℕ`, in blocks that are laid one after the other: each block lies in a
cube, and the cubes stand along the diagonal.

* `lay`: the points of all blocks, with the labels of their blocks.
* `pairwise_lay`: a relation between any two points in order, from how it holds within a block and
  of a point that lies below another in every coordinate.
* `mem_lay_lt`: all points lie below the end.
* `led_lay_iff`: whether one coordinate reaches as far as all.
-/

namespace Diagonal

variable {ι κ : Type}

/-- A block of points inside a cube. -/
structure Block (ι κ : Type) where
  label : κ
  width : ℕ
  cells : List (ι → ℕ)
  inside : ∀ c ∈ cells, ∀ d, c d < width

/-- The points of a block whose cube starts at `start`. -/
def Block.at (b : Block ι κ) (start : ℕ) : List (κ × (ι → ℕ)) :=
  b.cells.map fun c => (b.label, fun d => start + c d)

/-- The points of the blocks, laid from `start` on. -/
def lay : ℕ → List (Block ι κ) → List (κ × (ι → ℕ))
  | _, [] => []
  | start, b :: bs => b.at start ++ lay (start + b.width) bs

/-- Where the cube after the last one starts. -/
def stop (start : ℕ) (bs : List (Block ι κ)) : ℕ := start + (bs.map Block.width).sum

theorem stop_cons (start : ℕ) (b : Block ι κ) (bs : List (Block ι κ)) :
    stop start (b :: bs) = stop (start + b.width) bs := by
  simp [stop, Nat.add_assoc]

theorem start_le_stop (start : ℕ) (bs : List (Block ι κ)) : start ≤ stop start bs :=
  Nat.le_add_right _ _

theorem lay_append (start : ℕ) (bs bs' : List (Block ι κ)) :
    lay start (bs ++ bs') = lay start bs ++ lay (stop start bs) bs' := by
  induction bs generalizing start with
  | nil => rfl
  | cons b bs ih => rw [List.cons_append, lay, lay, ih, stop_cons, List.append_assoc]

theorem mem_at {b : Block ι κ} {start : ℕ} {x : κ × (ι → ℕ)} :
    x ∈ b.at start ↔ ∃ c ∈ b.cells, x = (b.label, fun d => start + c d) := by
  simp only [Block.at, List.mem_map, eq_comm]

/-- A point of a block lies in its cube. -/
theorem Block.at_bounds {b : Block ι κ} {start : ℕ} {x : κ × (ι → ℕ)} (h : x ∈ b.at start) (d : ι) :
    start ≤ x.2 d ∧ x.2 d < start + b.width := by
  obtain ⟨c, hc, rfl⟩ := mem_at.mp h
  exact ⟨Nat.le_add_right _ _, Nat.add_lt_add_left (b.inside c hc d) _⟩

theorem le_of_mem_lay {bs : List (Block ι κ)} {start : ℕ} {x : κ × (ι → ℕ)}
    (h : x ∈ lay start bs) (d : ι) : start ≤ x.2 d := by
  induction bs generalizing start with
  | nil => cases h
  | cons b bs ih =>
    rcases List.mem_append.mp h with h | h
    · exact (b.at_bounds h d).1
    · exact (Nat.le_add_right _ _).trans (ih h)

theorem mem_lay_lt {bs : List (Block ι κ)} {start : ℕ} {x : κ × (ι → ℕ)}
    (h : x ∈ lay start bs) (d : ι) : x.2 d < stop start bs := by
  induction bs generalizing start with
  | nil => cases h
  | cons b bs ih =>
    rw [stop_cons]
    rcases List.mem_append.mp h with h | h
    · exact (b.at_bounds h d).2.trans_le (start_le_stop _ _)
    · exact ih h

/-- A relation between any two points, the earlier one first. -/
theorem pairwise_lay {R : κ × (ι → ℕ) → κ × (ι → ℕ) → Prop} {bs : List (Block ι κ)}
    (hbelow : ∀ x y, (∀ d, x.2 d < y.2 d) → R x y)
    (hin : ∀ b ∈ bs, ∀ start, (b.at start).Pairwise R) (start : ℕ) : (lay start bs).Pairwise R := by
  induction bs generalizing start with
  | nil => exact List.Pairwise.nil
  | cons b bs ih =>
    refine List.pairwise_append.mpr ⟨hin b List.mem_cons_self start,
      ih (fun b' hb' => hin b' (List.mem_cons_of_mem _ hb')) _, fun x hx y hy => hbelow x y fun d => ?_⟩
    exact (b.at_bounds hx d).2.trans_le (le_of_mem_lay hy d)

/-- Blocks without repetitions are laid without repetitions. -/
theorem pairwise_ne_lay [Nonempty ι] {bs : List (Block ι κ)} (h : ∀ b ∈ bs, b.cells.Nodup)
    (start : ℕ) : (lay start bs).Pairwise fun x y => x.2 ≠ y.2 := by
  refine pairwise_lay (fun x y hlt heq => ?_) (fun b hb start => ?_) start
  · obtain ⟨d⟩ := ‹Nonempty ι›
    exact (hlt d).ne (congrFun heq d)
  · refine List.pairwise_map.mpr ((h b hb).imp fun hne heq => hne ?_)
    funext d
    exact Nat.add_left_cancel (congrFun heq d)

/-- A point whose coordinate `d₀` is no less than any coordinate of any point. -/
def Led (d₀ : ι) (points : List (ι → ℕ)) : Prop := ∃ x ∈ points, ∀ y ∈ points, ∀ d, y d ≤ x d₀

theorem lay_eq_nil {bs : List (Block ι κ)} (h : ∀ b ∈ bs, b.cells = []) (start : ℕ) :
    lay start bs = [] := by
  induction bs generalizing start with
  | nil => rfl
  | cons b bs ih =>
    rw [lay, ih (fun b' hb' => h b' (List.mem_cons_of_mem _ hb')), Block.at,
      h b List.mem_cons_self]
    rfl

/-- Whether the points are led is a matter of the last block with cells. -/
theorem led_lay_iff {d₀ : ι} {pre post : List (Block ι κ)} {b : Block ι κ} (hb : b.cells ≠ [])
    (hpost : ∀ b' ∈ post, b'.cells = []) (start : ℕ) :
    Led d₀ ((lay start (pre ++ b :: post)).map Prod.snd) ↔ Led d₀ b.cells := by
  set s := stop start pre with hs
  have hlay : (lay start (pre ++ b :: post)).map Prod.snd =
      (lay start pre).map Prod.snd ++ b.cells.map fun c d => s + c d := by
    rw [lay_append, lay, lay_eq_nil hpost, List.append_nil, List.map_append, Block.at, List.map_map]
    rfl
  have hpre : ∀ x ∈ (lay start pre).map Prod.snd, ∀ d, x d < s := by
    intro x hx d
    obtain ⟨y, hy, rfl⟩ := List.mem_map.mp hx
    exact mem_lay_lt hy d
  rw [hlay]
  constructor
  · rintro ⟨x, hx, hall⟩
    rcases List.mem_append.mp hx with hx | hx
    · obtain ⟨c, hc⟩ := List.exists_mem_of_ne_nil _ hb
      have hle := hall _ (List.mem_append_right _ (List.mem_map_of_mem hc)) d₀
      have hlt := hpre x hx d₀
      omega
    · obtain ⟨c, hc, rfl⟩ := List.mem_map.mp hx
      refine ⟨c, hc, fun c' hc' d => ?_⟩
      exact Nat.le_of_add_le_add_left (hall _ (List.mem_append_right _ (List.mem_map_of_mem hc')) d)
  · rintro ⟨c, hc, hall⟩
    refine ⟨_, List.mem_append_right _ (List.mem_map_of_mem hc), fun y hy d => ?_⟩
    rcases List.mem_append.mp hy with hy | hy
    · exact (hpre y hy d).le.trans (Nat.le_add_right _ _)
    · obtain ⟨c', hc', rfl⟩ := List.mem_map.mp hy
      exact Nat.add_le_add_left (hall c' hc' d) _

end Diagonal
