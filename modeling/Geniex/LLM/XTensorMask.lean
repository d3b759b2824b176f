import Geniex.LLM.Mask
import Geniex.Lib.RowMajor
import Mathlib.Data.List.GetD

/-!
# The mask of the tensor library

`XTensorLLMUtils::get_attention_mask` builds the causal mask from views of whole planes.

* `Plane`: a tensor of two dimensions, with the views and the functions that the builder uses.
* `xtensorMask_eq`: it is the mask of the plain loops.
-/

namespace Geniex

/-- The greatest number of 4-byte elements that a vector holds. -/
def vectorMax : ℕ := 2 ^ 61 - 1

/-- A tensor of two dimensions. -/
structure Plane where
  rows : ℕ
  cols : ℕ
  entry : ℕ → ℕ → ℤ

namespace Plane

/-- `view(p, range(0, r), range(first, first + c)) = src`. -/
def assign (p : Plane) (r first c : ℕ) (src : ℕ → ℕ → ℤ) : Plane :=
  { p with entry := fun row col =>
      if row < r ∧ first ≤ col ∧ col < first + c then src row (col - first) else p.entry row col }

/-- The elements in memory. -/
def toList (p : Plane) : List ℤ :=
  (List.range p.rows ×ˢ List.range p.cols).map fun c => p.entry c.1 c.2

end Plane

/-- `static_cast<int>` of a `size_t`. -/
def intOfSize (n : ℕ) : ℤ := (n : ℤ).bmod (2 ^ 32)

/-- `xt::arange<int>(0, stop)`. -/
def arange (stop : ℤ) : List ℤ := (List.range stop.toNat).map fun n : ℕ => (n : ℤ)

/-- `where(greater_equal(rows, cols), 0.f, -1000000000.f)`, for a column and a row of ids. -/
def causalPlane (ids : List ℤ) (row col : ℕ) : ℤ :=
  if ids.getD col 0 ≤ ids.getD row 0 then 0 else maskedValue

/-- The mask with the columns of the past cleared. -/
def pastPlane (nPast currLen seqLen kvLen : ℕ) : Plane :=
  let ones : Plane := ⟨seqLen, kvLen + seqLen, fun _ _ => 1 * maskedValue⟩
  if 0 < nPast then ones.assign currLen 0 nPast fun _ _ => 0 else ones

/-- The elements of a mask, in `size_t`. -/
def maskSize (seqLen kvLen : ℕ) : ℕ := seqLen * (kvLen + seqLen) % 2 ^ 64

/-- A builder writes behind the elements of its mask, which the code does not notice. -/
def WritesOutside (currLen seqLen kvLen : ℕ) : Prop :=
  currLen ≠ 0 ∧
    maskSize seqLen kvLen ≤ (currLen - 1) * (kvLen + seqLen) + kvLen + (currLen - 1)

instance (currLen seqLen kvLen : ℕ) : Decidable (WritesOutside currLen seqLen kvLen) :=
  inferInstanceAs (Decidable (_ ∧ _))

/-- `XTensorLLMUtils::get_attention_mask(n_past, curr_len)`, or `none` if it throws or writes
outside. -/
def xtensorMask (nPast currLen seqLen kvLen : ℕ) : Option (List ℤ) :=
  if vectorMax < maskSize seqLen kvLen then none
  else if currLen = 0 then
    some ((Plane.mk seqLen (kvLen + seqLen) fun _ _ => 1 * maskedValue).toList.take
      (maskSize seqLen kvLen))
  else
    let ids := arange (intOfSize currLen)
    -- `reshape_view` into `curr_len` rows
    if ids.length = currLen ∧ ¬WritesOutside currLen seqLen kvLen then
      some (((pastPlane nPast currLen seqLen kvLen).assign currLen kvLen currLen
        (causalPlane ids)).toList.take (maskSize seqLen kvLen))
    else none

/-- `get_attention_mask` of the plain loops, or `none` if the vector throws or is written outside. -/
def plainMask (nPast currLen seqLen kvLen : ℕ) : Option (List ℤ) :=
  if vectorMax < maskSize seqLen kvLen ∨ WritesOutside currLen seqLen kvLen then none
  else some ((List.range (maskSize seqLen kvLen)).map (getAttentionMask nPast currLen seqLen kvLen))

/-! ## Agreement -/

variable {nPast currLen seqLen kvLen : ℕ}

theorem maskSize_le : maskSize seqLen kvLen ≤ seqLen * (kvLen + seqLen) := Nat.mod_le _ _

/-- The mask of the plain loops, plane-wise. -/
theorem plainMask_rows (hcurr : currLen ≤ seqLen) :
    (List.range (maskSize seqLen kvLen)).map (getAttentionMask nPast currLen seqLen kvLen) =
      ((List.range seqLen ×ˢ List.range (kvLen + seqLen)).map fun c =>
        if c.1 < currLen ∧ (c.2 < min nPast kvLen ∨ kvLen ≤ c.2 ∧ c.2 ≤ kvLen + c.1) then 0
        else maskedValue).take (maskSize seqLen kvLen) := by
  conv_lhs => rw [← min_eq_left (@maskSize_le seqLen kvLen), ← List.take_range,
    List.map_take]
  congr 1
  rw [RowMajor.range_product, List.map_map]
  refine List.map_congr_left fun i hi => ?_
  have hlt : i < seqLen * (kvLen + seqLen) := List.mem_range.mp hi
  have hpos : 0 < kvLen + seqLen := Nat.pos_of_ne_zero fun h => by
    rw [h, Nat.mul_zero] at hlt
    exact absurd hlt (Nat.not_lt_zero i)
  have hcol : i % (kvLen + seqLen) < kvLen + seqLen := Nat.mod_lt i hpos
  have hindex : i = i / (kvLen + seqLen) * (kvLen + seqLen) + i % (kvLen + seqLen) :=
    (Nat.div_add_mod' i _).symm
  conv_lhs => rw [hindex]
  exact getAttentionMask_apply hcurr hcol

/-- A builder that writes inside a vector has fewer rows to write than an `int` counts. -/
theorem rows_lt_of_inside (hheld : ¬vectorMax < maskSize seqLen kvLen)
    (hinside : ¬WritesOutside currLen seqLen kvLen) (hcurr : currLen ≤ seqLen) :
    currLen < 2 ^ 31 := by
  by_contra hlarge
  have hle : 2 ^ 31 ≤ currLen := not_lt.mp hlarge
  have hmul : (2 ^ 31 - 1) * 2 ^ 31 ≤ (currLen - 1) * (kvLen + seqLen) :=
    Nat.mul_le_mul (by omega) (by omega)
  have hlast := not_le.mp fun h => hinside ⟨by omega, h⟩
  unfold vectorMax at hheld
  omega

/-- A mask whose elements `size_t` counts is not written outside. -/
theorem not_writesOutside (hcurr : currLen ≤ seqLen) (hsize : seqLen * (kvLen + seqLen) < 2 ^ 64) :
    ¬WritesOutside currLen seqLen kvLen := by
  rintro ⟨hne, hle⟩
  rw [maskSize, Nat.mod_eq_of_lt hsize] at hle
  obtain ⟨n, rfl⟩ := Nat.exists_eq_succ_of_ne_zero hne
  have hrows : (n + 1) * (kvLen + seqLen) ≤ seqLen * (kvLen + seqLen) :=
    Nat.mul_le_mul_right _ hcurr
  rw [Nat.add_mul] at hrows
  rw [Nat.succ_sub_one] at hle
  omega

theorem arange_intOfSize (h : currLen < 2 ^ 31) :
    arange (intOfSize currLen) = (List.range currLen).map fun n : ℕ => (n : ℤ) := by
  have hint : intOfSize currLen = currLen := by
    unfold intOfSize
    rw [Int.bmod_def]
    split_ifs <;> omega
  rw [arange, hint, Int.toNat_natCast]

/-- A row of ids against a column of them: the lower triangle. -/
theorem causalPlane_range {row col : ℕ} (hrow : row < currLen) (hcol : col < currLen) :
    causalPlane ((List.range currLen).map fun n : ℕ => (n : ℤ)) row col =
      if col ≤ row then 0 else maskedValue := by
  have hget : ∀ i < currLen, ((List.range currLen).map fun n : ℕ => (n : ℤ)).getD i 0 = i := by
    intro i hi
    rw [List.getD_eq_getElem _ _ (by simpa using hi), List.getElem_map, List.getElem_range]
  unfold causalPlane
  rw [hget row hrow, hget col hcol]
  simp only [Nat.cast_le]

theorem pastPlane_shape : (pastPlane nPast currLen seqLen kvLen).rows = seqLen ∧
    (pastPlane nPast currLen seqLen kvLen).cols = kvLen + seqLen := by
  unfold pastPlane
  dsimp only
  split_ifs <;> exact ⟨rfl, rfl⟩

theorem pastPlane_entry (row col : ℕ) : (pastPlane nPast currLen seqLen kvLen).entry row col =
    if row < currLen ∧ col < nPast then 0 else maskedValue := by
  unfold pastPlane
  dsimp only
  split_ifs with hpos hpast hpast
  · exact if_pos ⟨hpast.1, Nat.zero_le _, by omega⟩
  · exact (if_neg (by omega)).trans (one_mul _)
  · omega
  · exact one_mul _

/-- What the planes leave at an entry. -/
theorem causal_entry {row col : ℕ} (hpast : nPast ≤ kvLen) :
    ((pastPlane nPast currLen seqLen kvLen).assign currLen kvLen currLen
      (causalPlane ((List.range currLen).map fun n : ℕ => (n : ℤ)))).entry row col =
      if row < currLen ∧ (col < min nPast kvLen ∨ kvLen ≤ col ∧ col ≤ kvLen + row) then 0
      else maskedValue := by
  rw [min_eq_left hpast, Plane.assign]
  dsimp only
  rw [pastPlane_entry]
  by_cases hblock : row < currLen ∧ kvLen ≤ col ∧ col < kvLen + currLen
  · rw [if_pos hblock, causalPlane_range hblock.1 (by omega)]
    split_ifs <;> first | rfl | omega
  · rw [if_neg hblock]
    split_ifs <;> first | rfl | omega

/-- The two builders make the same mask, and make one wherever a vector holds it. -/
theorem xtensorMask_eq (hpast : nPast ≤ kvLen) (hcurr : currLen ≤ seqLen) :
    xtensorMask nPast currLen seqLen kvLen = plainMask nPast currLen seqLen kvLen ∧
      (seqLen * (kvLen + seqLen) ≤ vectorMax → ∃ mask,
        plainMask nPast currLen seqLen kvLen = some mask ∧
          mask.length = seqLen * (kvLen + seqLen)) := by
  constructor
  · unfold xtensorMask plainMask
    by_cases hheld : vectorMax < maskSize seqLen kvLen
    · rw [if_pos hheld, if_pos (Or.inl hheld)]
    rw [if_neg hheld]
    by_cases hzero : currLen = 0
    · subst hzero
      rw [if_pos rfl, if_neg (not_or.mpr ⟨hheld, fun h => h.1 rfl⟩), plainMask_rows hcurr]
      refine congrArg (fun l => some (List.take _ l)) (List.map_congr_left fun c _ => ?_)
      rw [if_neg (by omega), one_mul]
    rw [if_neg hzero]
    by_cases hinside : WritesOutside currLen seqLen kvLen
    · rw [if_pos (Or.inr hinside)]
      exact if_neg fun h => h.2 hinside
    · -- the ids count the rows, since an `int` counts those that are written inside
      rw [if_neg (not_or.mpr ⟨hheld, hinside⟩), plainMask_rows hcurr,
        arange_intOfSize (rows_lt_of_inside hheld hinside hcurr)]
      dsimp only
      rw [if_pos ⟨by rw [List.length_map, List.length_range], hinside⟩]
      refine congrArg (fun l => some (List.take _ l)) ?_
      unfold Plane.toList
      show (List.range (pastPlane nPast currLen seqLen kvLen).rows ×ˢ
        List.range (pastPlane nPast currLen seqLen kvLen).cols).map _ = _
      rw [pastPlane_shape.1, pastPlane_shape.2]
      exact List.map_congr_left fun c _ => causal_entry hpast
  · intro hheld
    have hsize : seqLen * (kvLen + seqLen) < 2 ^ 64 := by
      unfold vectorMax at hheld
      omega
    have hmod : maskSize seqLen kvLen = seqLen * (kvLen + seqLen) := Nat.mod_eq_of_lt hsize
    refine ⟨_, if_neg (not_or.mpr ⟨by omega, not_writesOutside hcurr hsize⟩), ?_⟩
    rw [List.length_map, List.length_range, hmod]

/-- Two rows, one of them in use, after one token of three. -/
theorem xtensorMask_eq_two : xtensorMask 1 1 2 3 = plainMask 1 1 2 3 ∧
    plainMask 1 1 2 3 = some [0, maskedValue, maskedValue, 0, maskedValue,
      maskedValue, maskedValue, maskedValue, maskedValue, maskedValue] :=
  ⟨(xtensorMask_eq (by decide) (by decide)).1, by decide +kernel⟩

end Geniex
