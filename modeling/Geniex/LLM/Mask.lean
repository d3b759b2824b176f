import Geniex.Lib.Mem

/-!
# The causal attention mask

`getAttentionMask` is the plain-loop builder; `getAttentionMask_apply` says which entries are zero.
-/

namespace Geniex

open FlatMem

/-- `-1e9f`, the value of a hidden position. -/
def maskedValue : ℤ := -1000000000

/-- `row_ptr[first + col] = 0.f` for `col` in `[0, n)`. -/
def clearRun (m : ℕ → ℤ) (first n : ℕ) : ℕ → ℤ :=
  upto (fun col m => Function.update m (first + col) 0) n m

theorem clearRun_apply (m : ℕ → ℤ) (first n i : ℕ) :
    clearRun m first n i = if first ≤ i ∧ i < first + n then 0 else m i :=
  upto_update (fun _ => 0) first n m i

/-- The two inner loops of `get_attention_mask`. -/
def maskRow (nPast seqLen kvLen row : ℕ) (m : ℕ → ℤ) : ℕ → ℤ :=
  clearRun (clearRun m (row * (kvLen + seqLen)) (min nPast kvLen))
    (row * (kvLen + seqLen) + kvLen) (row + 1)

/-- `get_attention_mask(n_past, curr_len, seq_len, kv_len)`. -/
def getAttentionMask (nPast currLen seqLen kvLen : ℕ) : ℕ → ℤ :=
  upto (maskRow nPast seqLen kvLen) currLen fun _ => maskedValue

/-- Row `j < curr_len` sees the past columns below `min n_past kv_len` and the first `j + 1`
columns of the current block; every other entry is masked. -/
theorem getAttentionMask_apply {nPast currLen seqLen kvLen row col : ℕ} (hcurr : currLen ≤ seqLen)
    (hcol : col < kvLen + seqLen) :
    getAttentionMask nPast currLen seqLen kvLen (row * (kvLen + seqLen) + col) =
      if row < currLen ∧ (col < min nPast kvLen ∨ kvLen ≤ col ∧ col ≤ kvLen + row) then 0
      else maskedValue := by
  unfold getAttentionMask
  rw [upto_rows ?_ ?_ hcol]
  · rw [maskRow, clearRun_apply, clearRun_apply]
    split_ifs <;> first | rfl | omega
  · intro k hk m i hi
    have hmin : min nPast kvLen ≤ kvLen := min_le_right _ _
    rw [maskRow, clearRun_apply, clearRun_apply, if_neg (by omega), if_neg (by omega)]
  · intro k m m' i h
    rw [maskRow, clearRun_apply, clearRun_apply, maskRow, clearRun_apply, clearRun_apply, h]

end Geniex
