import Geniex.CB.KVCacheManager
import Geniex.LLM.Mask
import Geniex.SSD.Rows

/-!
# The attention mask and the positions of a batch

The inputs of all sessions of a step stand one behind the other in one pass. `getAttentionMask` is
block-diagonal: `visible_batch` says that a row sees the KV columns of its own session and the rows
of its own session up to itself, in order, and nothing of the other sessions.
`getPositionIds_row` is the position of a row.
-/

namespace Geniex.CB

open FlatMem

/-- A session's part of a pass: its first row and its number of rows. -/
abbrev InSegment : Type := ℕ × ℕ

/-- What the loops over the sessions read of one of them. -/
abbrev Part : Type := KVCacheSegment × InSegment

namespace KVCacheManager

/-- A session's rows of `getPositionIds`. -/
def positionRows (p : Part) (out : ℕ → Int32) : ℕ → Int32 :=
  upto (fun j out => Function.update out (p.2.1 + j) (Int32.ofNat (p.1.length + j))) p.2.2 out

/-- `getPositionIds(segs, in_segs, padded_len, out_pos_ids)`: the ids and the number of valid
tokens. -/
def getPositionIds (segs : List KVCacheSegment) (inSegs : List InSegment) (paddedLen : ℕ) :
    List Int32 × ℕ :=
  let out := (segs.zip inSegs).foldl (fun out p => positionRows p out) fun _ => 0
  ((List.range paddedLen).map out, ((segs.zip inSegs).map fun p => p.2.2).sum)

/-- Row `r` of a session in `getAttentionMask`. -/
def maskRow (seqLen kvLen : ℕ) (p : Part) (r : ℕ) (m : ℕ → ℤ) : ℕ → ℤ :=
  clearRun (clearRun m ((p.2.1 + r) * (kvLen + seqLen) + p.1.startPos) p.1.length)
    ((p.2.1 + r) * (kvLen + seqLen) + (kvLen + p.2.1)) (r + 1)

/-- A session's rows of `getAttentionMask`. -/
def maskRows (seqLen kvLen : ℕ) (p : Part) (m : ℕ → ℤ) : ℕ → ℤ :=
  upto (maskRow seqLen kvLen p) p.2.2 m

/-- `getAttentionMask(kv_segs, in_segs, seq_len, kv_len, out_mask)`. -/
def getAttentionMask (kvSegs : List KVCacheSegment) (inSegs : List InSegment) (seqLen kvLen : ℕ) :
    ℕ → ℤ :=
  (kvSegs.zip inSegs).foldl (fun m p => maskRows seqLen kvLen p m) fun _ => maskedValue

/-! ## The rows of a pass -/

/-- The parts of a pass: rows one behind the other within the pass, KV columns within the cache. -/
structure Parts (seqLen kvLen : ℕ) (parts : List Part) : Prop where
  apart : parts.Pairwise fun p q => p.2.1 + p.2.2 ≤ q.2.1
  rows : ∀ p ∈ parts, p.2.1 + p.2.2 ≤ seqLen
  columns : ∀ p ∈ parts, p.1.fin ≤ kvLen

variable {seqLen kvLen : ℕ} {parts : List Part} {p : Part} {r : ℕ}

/-- Two parts that share a row are one. -/
theorem Parts.eq_of_row (h : Parts seqLen kvLen parts) {q : Part} (hp : p ∈ parts) (hq : q ∈ parts)
    (hr : r < p.2.2) (hin : q.2.1 ≤ p.2.1 + r) (hlt : p.2.1 + r < q.2.1 + q.2.2) : q = p := by
  by_contra hne
  rcases (List.pairwise_iff_getElem.mp h.apart) with hpair
  obtain ⟨i, hi, rfl⟩ := List.mem_iff_getElem.mp hp
  obtain ⟨j, hj, rfl⟩ := List.mem_iff_getElem.mp hq
  rcases Nat.lt_trichotomy i j with hij | rfl | hij
  · have := hpair i j hi hj hij
    omega
  · exact hne rfl
  · have := hpair j i hj hi hij
    omega

/-- What a row of a session leaves in an entry of the mask. -/
def opened (kvLen : ℕ) (p : Part) (r c : ℕ) : Prop :=
  p.1.startPos ≤ c ∧ c < p.1.fin ∨ kvLen + p.2.1 ≤ c ∧ c ≤ kvLen + p.2.1 + r

instance (kvLen : ℕ) (p : Part) (r c : ℕ) : Decidable (opened kvLen p r c) := by
  unfold opened
  infer_instance

theorem maskRow_in (m : ℕ → ℤ) (c : ℕ) :
    maskRow seqLen kvLen p r m ((p.2.1 + r) * (kvLen + seqLen) + c) =
      if opened kvLen p r c then 0 else m ((p.2.1 + r) * (kvLen + seqLen) + c) := by
  unfold maskRow opened KVCacheSegment.fin
  rw [clearRun_apply, clearRun_apply]
  split_ifs <;> first | rfl | omega

theorem maskRow_out (hfin : p.1.fin ≤ kvLen) (hrow : p.2.1 + r < seqLen) {k c : ℕ}
    (hk : k ≠ p.2.1 + r) (hc : c < kvLen + seqLen) (m : ℕ → ℤ) :
    maskRow seqLen kvLen p r m (k * (kvLen + seqLen) + c) = m (k * (kvLen + seqLen) + c) := by
  unfold KVCacheSegment.fin at hfin
  unfold maskRow
  have hapart := row_apart hk hc
  rw [clearRun_apply, clearRun_apply, if_neg (by omega), if_neg (by omega)]

/-- A session leaves the rows of the others alone. -/
theorem maskRows_out (hfin : p.1.fin ≤ kvLen) (hrows : p.2.1 + p.2.2 ≤ seqLen) {k c : ℕ}
    (hk : k < p.2.1 ∨ p.2.1 + p.2.2 ≤ k) (hc : c < kvLen + seqLen) (m : ℕ → ℤ) :
    maskRows seqLen kvLen p m (k * (kvLen + seqLen) + c) = m (k * (kvLen + seqLen) + c) :=
  upto_out _ m fun r hr m => maskRow_out hfin (by omega) (by omega) hc m

theorem maskRows_in (hfin : p.1.fin ≤ kvLen) (hrows : p.2.1 + p.2.2 ≤ seqLen) (hr : r < p.2.2)
    {c : ℕ} (hc : c < kvLen + seqLen) (m : ℕ → ℤ) :
    maskRows seqLen kvLen p m ((p.2.1 + r) * (kvLen + seqLen) + c) =
      if opened kvLen p r c then 0 else m ((p.2.1 + r) * (kvLen + seqLen) + c) := by
  apply upto_at (φ := fun v => if opened kvLen p r c then 0 else v) m hr
  · exact fun m => maskRow_in m c
  · intro r' hr' hne m
    exact maskRow_out hfin (by omega) (by omega) hc m

variable {kvSegs : List KVCacheSegment} {inSegs : List InSegment}

/-- A row is open on its own session's columns and its own session's rows up to itself. -/
theorem getAttentionMask_row (h : Parts seqLen kvLen (kvSegs.zip inSegs))
    (hp : p ∈ kvSegs.zip inSegs) (hr : r < p.2.2) {c : ℕ} (hc : c < kvLen + seqLen) :
    getAttentionMask kvSegs inSegs seqLen kvLen ((p.2.1 + r) * (kvLen + seqLen) + c) =
      if opened kvLen p r c then 0 else maskedValue := by
  unfold getAttentionMask
  apply foldl_at (φ := fun v => if opened kvLen p r c then 0 else v) _ hp
  · intro v
    split_ifs <;> rfl
  · exact fun m => maskRows_in (h.columns p hp) (h.rows p hp) hr hc m
  · intro q hq hne m
    refine maskRows_out (h.columns q hq) (h.rows q hq) ?_ hc m
    by_contra hin
    rw [not_or, not_lt, not_le] at hin
    exact hne (h.eq_of_row hp hq hr hin.1 hin.2)

/-- A row of no session sees nothing. -/
theorem getAttentionMask_padding (h : Parts seqLen kvLen (kvSegs.zip inSegs)) {k c : ℕ}
    (hk : ∀ p ∈ kvSegs.zip inSegs, k < p.2.1 ∨ p.2.1 + p.2.2 ≤ k) (hc : c < kvLen + seqLen) :
    getAttentionMask kvSegs inSegs seqLen kvLen (k * (kvLen + seqLen) + c) = maskedValue := by
  have hall : ∀ (l : List Part) (m : ℕ → ℤ), (∀ p ∈ l, p ∈ kvSegs.zip inSegs) →
      l.foldl (fun m p => maskRows seqLen kvLen p m) m (k * (kvLen + seqLen) + c) =
        m (k * (kvLen + seqLen) + c) := by
    intro l
    induction l with
    | nil => exact fun _ _ => rfl
    | cons p l ih =>
      intro m hl
      have hp := hl p List.mem_cons_self
      rw [List.foldl_cons, ih _ fun q hq => hl q (List.mem_cons_of_mem _ hq),
        maskRows_out (h.columns p hp) (h.rows p hp) (hk p hp) hc]
  exact hall _ _ fun _ hp => hp

/-- What row `r` of a session sees: the session's own columns and rows, in order. -/
theorem visible_batch (h : Parts seqLen kvLen (kvSegs.zip inSegs)) (hp : p ∈ kvSegs.zip inSegs)
    (hr : r < p.2.2) :
    SSDConfig.visiblePast (getAttentionMask kvSegs inSegs seqLen kvLen) seqLen kvLen (p.2.1 + r) =
        List.range' p.1.startPos p.1.length ∧
      SSDConfig.visibleBlock (getAttentionMask kvSegs inSegs seqLen kvLen) seqLen kvLen
          (p.2.1 + r) =
        List.range' p.2.1 (r + 1) := by
  have hfin := h.columns p hp
  have hrows := h.rows p hp
  have hopen : ∀ c < kvLen + seqLen, getAttentionMask kvSegs inSegs seqLen kvLen
      ((p.2.1 + r) * (kvLen + seqLen) + c) = 0 ↔ opened kvLen p r c := by
    intro c hc
    rw [getAttentionMask_row h hp hr hc]
    split_ifs with ho
    · exact iff_of_true rfl ho
    · exact iff_of_false (by decide) ho
  unfold KVCacheSegment.fin at hfin
  constructor
  · have hlen : p.1.length = p.1.startPos + p.1.length - p.1.startPos := by omega
    rw [hlen]
    apply SSDConfig.visiblePast_eq hfin
    intro c hc
    rw [hopen c (by omega)]
    unfold opened KVCacheSegment.fin
    omega
  · apply SSDConfig.visibleBlock_eq List.pairwise_lt_range'
    · intro j hj
      rw [List.mem_range'_1] at hj
      omega
    · intro j hj
      rw [hopen (kvLen + j) (by omega), List.mem_range'_1]
      unfold opened KVCacheSegment.fin
      omega

/-! ## Positions -/

theorem positionRows_apply (out : ℕ → Int32) (i : ℕ) :
    positionRows p out i =
      if p.2.1 ≤ i ∧ i < p.2.1 + p.2.2 then Int32.ofNat (p.1.length + (i - p.2.1)) else out i :=
  upto_update (fun j => Int32.ofNat (p.1.length + j)) p.2.1 p.2.2 out i

/-- The position of row `r` of a session is its place in the session. -/
theorem getPositionIds_row (h : Parts seqLen kvLen (kvSegs.zip inSegs))
    (hp : p ∈ kvSegs.zip inSegs) (hr : r < p.2.2) :
    (getPositionIds kvSegs inSegs seqLen).1.getD (p.2.1 + r) 0 = Int32.ofNat (p.1.length + r) := by
  have hrow : p.2.1 + r < seqLen := by
    have := h.rows p hp
    omega
  unfold getPositionIds
  have hlt : p.2.1 + r < ((List.range seqLen).map ((kvSegs.zip inSegs).foldl
      (fun out p => positionRows p out) fun _ => 0)).length := by
    rw [List.length_map, List.length_range]
    exact hrow
  rw [List.getD_eq_getElem _ _ hlt, List.getElem_map, List.getElem_range]
  apply foldl_at (φ := fun _ => Int32.ofNat (p.1.length + r)) _ hp
  · exact fun _ => rfl
  · intro out
    rw [positionRows_apply, if_pos (by omega), Nat.add_sub_cancel_left]
  · intro q hq hne out
    rw [positionRows_apply, if_neg]
    exact fun hin => hne (h.eq_of_row hp hq hr hin.1 hin.2)

end KVCacheManager

end Geniex.CB
