import Mathlib.Tactic

/-!
# Lists in blocks

A list that is made of blocks, by nested loops or by a list of lists.

* `flatMap_comm_perm`: two nested loops in the other order.
* `getElem?_flatMap_range`: an element of a list of equal blocks.
* `key_eq_iff`: the elements of the block `k` lie between the lengths of the first `k` and the first
  `k + 1` blocks.
* `foldl_pushSum`: a loop that keeps these lengths.
-/

namespace Blocks

variable {α β γ : Type}

/-- Two nested loops in the other order. -/
theorem flatMap_comm_perm (xs : List α) (ys : List β) (f : α → β → List γ) :
    (xs.flatMap fun x => ys.flatMap (f x)).Perm
      (ys.flatMap fun y => xs.flatMap fun x => f x y) := by
  induction xs with
  | nil => simp
  | cons x xs ih =>
    simp only [List.flatMap_cons]
    exact (ih.append_left _).trans
      (List.flatMap_append_perm ys (f x) fun y => xs.flatMap fun x => f x y)

/-- Past `a`, a loop does nothing. -/
theorem flatMap_range_cut (f : ℕ → List β) {a n : ℕ} (h : a ≤ n) :
    ((List.range n).flatMap fun i => if i < a then f i else []) = (List.range a).flatMap f := by
  obtain ⟨k, rfl⟩ := Nat.exists_eq_add_of_le h
  rw [List.range_add, List.flatMap_append, List.flatMap_map]
  have hin : ((List.range a).flatMap fun i => if i < a then f i else []) =
      (List.range a).flatMap f := by
    apply List.flatMap_congr
    intro i hi
    exact if_pos (List.mem_range.mp hi)
  have hout : ((List.range k).flatMap fun i => if a + i < a then f (a + i) else []) = [] := by
    apply List.flatMap_eq_nil_iff.mpr
    intro i _
    exact if_neg (by omega)
  rw [hin, hout, List.append_nil]

theorem length_flatMap_range {f : ℕ → List β} {n m : ℕ} (hlen : ∀ r < n, (f r).length = m) :
    ((List.range n).flatMap f).length = n * m := by
  induction n with
  | zero => simp
  | succ n ih =>
    rw [List.range_succ, List.flatMap_append, List.length_append, ih fun r hr => hlen r (by omega),
      List.flatMap_singleton, hlen n (Nat.lt_succ_self n), Nat.succ_mul]

/-- An element of a list of equal blocks. -/
theorem getElem?_flatMap_range {f : ℕ → List β} {n m i j : ℕ}
    (hlen : ∀ r < n, (f r).length = m) (hi : i < n) (hj : j < m) :
    ((List.range n).flatMap f)[i * m + j]? = (f i)[j]? := by
  induction n with
  | zero => exact absurd hi (Nat.not_lt_zero i)
  | succ n ih =>
    have hfirst := length_flatMap_range fun r (hr : r < n) => hlen r (by omega)
    rw [List.range_succ, List.flatMap_append, List.flatMap_singleton]
    by_cases hin : i = n
    · subst hin
      rw [List.getElem?_append_right (by omega), hfirst, Nat.add_sub_cancel_left]
    · have hlt : i * m + j < n * m := by
        have hle : (i + 1) * m ≤ n * m := Nat.mul_le_mul_right m (by omega)
        rw [Nat.succ_mul] at hle
        omega
      rw [List.getElem?_append_left (by omega)]
      exact ih (fun r hr => hlen r (by omega)) (by omega)

/-! ## Blocks with a key -/

section Keys

variable {Ws : List (List β)} {key : β → ℕ}

/-- The key of an element is the number of its block. -/
def Keyed (key : β → ℕ) (Ws : List (List β)) : Prop :=
  ∀ k W, Ws[k]? = some W → ∀ x ∈ W, key x = k

/-- Where the block `k` begins. -/
def start (Ws : List (List β)) (k : ℕ) : ℕ := (Ws.take k).flatten.length

theorem flatten_eq (Ws : List (List β)) (k : ℕ) :
    Ws.flatten = (Ws.take k).flatten ++ (Ws.drop k).flatten := by
  rw [← List.flatten_append, List.take_append_drop]

theorem start_succ {k : ℕ} {W : List β} (hW : Ws[k]? = some W) :
    start Ws (k + 1) = start Ws k + W.length := by
  unfold start
  rw [List.take_add_one, hW, List.flatten_append, List.length_append]
  simp

theorem start_length (Ws : List (List β)) : start Ws Ws.length = Ws.flatten.length := by
  unfold start
  rw [List.take_length]

theorem Keyed.lt_of_mem_take (hkey : Keyed key Ws) {k : ℕ} {x : β}
    (hx : x ∈ (Ws.take k).flatten) : key x < k := by
  obtain ⟨W, hW, hxW⟩ := List.mem_flatten.mp hx
  obtain ⟨i, hi, rfl⟩ := List.mem_iff_getElem.mp hW
  have hik : i < k := lt_of_lt_of_le hi (List.length_take_le _ _)
  rw [List.getElem_take] at hxW
  rw [hkey i _ (List.getElem?_eq_getElem _) x hxW]
  exact hik

theorem Keyed.le_of_mem_drop (hkey : Keyed key Ws) {k : ℕ} {x : β}
    (hx : x ∈ (Ws.drop k).flatten) : k ≤ key x := by
  obtain ⟨W, hW, hxW⟩ := List.mem_flatten.mp hx
  obtain ⟨i, hi, rfl⟩ := List.mem_iff_getElem.mp hW
  rw [List.getElem_drop] at hxW
  rw [hkey (k + i) _ (List.getElem?_eq_getElem _) x hxW]
  exact Nat.le_add_right k i

/-- The elements of a block are those between where it begins and where the next one does. -/
theorem key_eq_iff (hkey : Keyed key Ws) {i k : ℕ} {x : β} (hx : Ws.flatten[i]? = some x) :
    key x = k ↔ start Ws k ≤ i ∧ i < start Ws (k + 1) := by
  have hbefore : ∀ k, i < start Ws k → key x < k := by
    intro k hlt
    rw [flatten_eq Ws k, List.getElem?_append_left hlt] at hx
    exact hkey.lt_of_mem_take (List.mem_of_getElem? hx)
  have hafter : ∀ k, start Ws k ≤ i → k ≤ key x := by
    intro k hle
    rw [flatten_eq Ws k, List.getElem?_append_right hle] at hx
    exact hkey.le_of_mem_drop (List.mem_of_getElem? hx)
  constructor
  · rintro rfl
    constructor
    · by_contra hlt
      exact absurd (hbefore (key x) (by omega)) (Nat.lt_irrefl _)
    · by_contra hle
      exact absurd (hafter (key x + 1) (by omega)) (Nat.not_succ_le_self _)
  · rintro ⟨hle, hlt⟩
    have := hafter k hle
    have := hbefore (k + 1) hlt
    omega

/-- A key is that of as many elements as its block has. -/
theorem countP_key (hkey : Keyed key Ws) {k : ℕ} {W : List β} (hW : Ws[k]? = some W) :
    Ws.flatten.countP (fun x => key x = k) = W.length := by
  obtain ⟨hk, rfl⟩ := List.getElem?_eq_some_iff.mp hW
  have hbefore : (Ws.take k).flatten.countP (fun x => key x = k) = 0 := by
    apply List.countP_eq_zero.mpr
    intro x hx
    simpa using (hkey.lt_of_mem_take hx).ne
  have hafter : (Ws.drop (k + 1)).flatten.countP (fun x => key x = k) = 0 := by
    apply List.countP_eq_zero.mpr
    intro x hx
    simpa using (Nat.lt_of_succ_le (hkey.le_of_mem_drop hx)).ne'
  have hin : Ws[k].countP (fun x => key x = k) = Ws[k].length := by
    apply List.countP_eq_length.mpr
    intro x hx
    simpa using hkey k _ hW x hx
  rw [flatten_eq Ws k, List.drop_eq_getElem_cons hk, List.flatten_cons, List.countP_append,
    List.countP_append, hbefore, hafter, hin, Nat.add_zero, Nat.zero_add]

end Keys

/-! ## Sums -/

/-- Append the last element plus `n`, unless it is the last element again. -/
def pushSum (sums : List ℕ) (n : ℕ) : List ℕ :=
  if sums.getLastD 0 + n ≠ sums.getLastD 0 then sums ++ [sums.getLastD 0 + n] else sums

/-- A loop that keeps the sums of no zeros. -/
theorem foldl_pushSum {ns : List ℕ} (h : ∀ n ∈ ns, n ≠ 0) :
    ns.foldl pushSum [0] = (List.range (ns.length + 1)).map fun k => (ns.take k).sum := by
  induction ns using List.reverseRecOn with
  | nil => rfl
  | append_singleton ns n ih =>
    have hn : n ≠ 0 := h n (by simp)
    have hlast : ((List.range (ns.length + 1)).map fun k => (ns.take k).sum).getLastD 0 =
        ns.sum := by
      rw [List.range_succ, List.map_append, List.map_singleton, List.getLastD_concat,
        List.take_length]
    have hfirst : ((List.range (ns.length + 1)).map fun k => ((ns ++ [n]).take k).sum) =
        (List.range (ns.length + 1)).map fun k => (ns.take k).sum := by
      apply List.map_congr_left
      intro k hk
      rw [List.take_append_of_le_length (Nat.lt_succ_iff.mp (List.mem_range.mp hk))]
    rw [List.foldl_append, ih fun m hm => h m (List.mem_append_left _ hm), List.foldl_cons,
      List.foldl_nil, pushSum, hlast, if_pos (by omega), List.length_append, List.length_singleton,
      List.range_succ (n := ns.length + 1), List.map_append, hfirst, List.map_singleton,
      List.take_of_length_le (by simp), List.sum_append, List.sum_singleton]

end Blocks
