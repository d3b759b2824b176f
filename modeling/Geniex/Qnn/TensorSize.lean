import Geniex.Types

/-!
# The two sizes of a tensor

The planner folds the shape of a tensor into the five slots of `Dims` and multiplies them as
`uint32_t` (`fillDims`, `Dims::getAlignedSize`). The graph multiplies all dimensions as `size_t`
(`tensorByteSize`).
-/

namespace Geniex

/-- The parts of a `Qnn_Tensor_t` that its sizes depend on. The rank is a `uint32_t`. -/
structure QnnTensor where
  dataType : DataType
  dimensions : List UInt32
  rank_lt : dimensions.length < 2 ^ 32

namespace QnnTensor

/-- `QNN_TENSOR_GET_RANK` -/
def rank (t : QnnTensor) : UInt32 := UInt32.ofNat t.dimensions.length

/-- How many ones `fillDims` pushes: the bound `4 - rank` of its loop is unsigned. -/
def leadingOnes (t : QnnTensor) : ℕ := (4 - t.rank).toNat

/-- `fillDims`; `none` is its `false`. -/
def fillDims (t : QnnTensor) : Option (List UInt64) :=
  if t.rank < 1 then none
  else some (List.replicate t.leadingOnes 1 ++ t.dimensions.map UInt32.toUInt64)

end QnnTensor

/-- `getDataTypeSize`: a type that is not in `g_qnnDataTypeToSize` has size zero. -/
def getDataTypeSize : DataType → UInt64
  | .int8 | .uint8 | .sfixedPoint8 | .ufixedPoint8 | .bool8 => 1
  | .int16 | .uint16 | .float16 | .sfixedPoint16 | .ufixedPoint16 => 2
  | .int32 | .uint32 | .float32 | .sfixedPoint32 | .ufixedPoint32 => 4
  | .int64 | .uint64 => 8
  | .float64 | .undefined => 0

/-- `QnnApi::getTensorShape` -/
def getTensorShape (t : QnnTensor) : Option (List UInt64) :=
  t.fillDims.map (· ++ [getDataTypeSize t.dataType])

/-! ## The planner's size -/

/-- `QnnUtils::Dims` -/
structure Dims where
  batch : UInt32
  height : UInt32
  width : UInt32
  channel : UInt32
  bitWidth : UInt32

namespace Dims

/-- `Dims(std::vector<size_t>&)` -/
def ofShape (tDims : List UInt64) : Dims where
  batch := if 1 < tDims.getD 0 0 ∧ tDims.getD 1 0 ≠ 1 then (tDims.getD 0 0).toUInt32 else 1
  height := if tDims.getD 0 0 ≠ 1 ∧ tDims.getD 1 0 = 1 then (tDims.getD 0 0).toUInt32
    else (tDims.getD 1 0).toUInt32
  width := (tDims.getD 2 0).toUInt32
  channel := (tDims.getD 3 0).toUInt32
  bitWidth := (tDims.getD 4 0).toUInt32

/-- `Dims::getSize`: the product is that of `uint32_t`. -/
def getSize (d : Dims) : UInt64 :=
  (d.batch * d.height * d.width * d.channel * d.bitWidth).toUInt64

/-- `Dims::getAlignedSize` -/
def getAlignedSize (d : Dims) : UInt64 :=
  let size := d.getSize
  if size &&& 7 ≠ 0 then size + (8 - (size &&& 7)) else size

/-- No product that `getSize` computes wraps around. -/
structure Exact (d : Dims) : Prop where
  rows : (d.batch * d.height).toNat = d.batch.toNat * d.height.toNat
  columns : (d.batch * d.height * d.width).toNat = (d.batch * d.height).toNat * d.width.toNat
  elements : (d.batch * d.height * d.width * d.channel).toNat =
    (d.batch * d.height * d.width).toNat * d.channel.toNat
  bytes : (d.batch * d.height * d.width * d.channel * d.bitWidth).toNat =
    (d.batch * d.height * d.width * d.channel).toNat * d.bitWidth.toNat

/-- A product of `uint32_t` is exact below `2 ^ 32`. -/
theorem mul_exact_iff (a b : UInt32) : (a * b).toNat = a.toNat * b.toNat ↔
    a.toNat * b.toNat < 2 ^ 32 := by
  rw [UInt32.toNat_mul]
  constructor
  · intro h
    have hlt := Nat.mod_lt (a.toNat * b.toNat) (y := 2 ^ 32) (by decide)
    omega
  · exact Nat.mod_eq_of_lt

/-- The bounds that keep a product of five numbers exact, one factor at a time. -/
theorem exact_iff (d : Dims) : d.Exact ↔
    d.batch.toNat * d.height.toNat < 2 ^ 32 ∧
    d.batch.toNat * d.height.toNat * d.width.toNat < 2 ^ 32 ∧
    d.batch.toNat * d.height.toNat * d.width.toNat * d.channel.toNat < 2 ^ 32 ∧
    d.batch.toNat * d.height.toNat * d.width.toNat * d.channel.toNat * d.bitWidth.toNat
      < 2 ^ 32 := by
  constructor
  · rintro ⟨h1, h2, h3, h4⟩
    have l1 := (mul_exact_iff _ _).mp h1
    have l2 := (mul_exact_iff _ _).mp h2
    have l3 := (mul_exact_iff _ _).mp h3
    have l4 := (mul_exact_iff _ _).mp h4
    rw [h1] at l2
    rw [h2, h1] at l3
    rw [h3, h2, h1] at l4
    exact ⟨l1, l2, l3, l4⟩
  · rintro ⟨l1, l2, l3, l4⟩
    have h1 := (mul_exact_iff _ _).mpr l1
    rw [← h1] at l2 l3 l4
    have h2 := (mul_exact_iff _ _).mpr l2
    rw [← h2] at l3 l4
    have h3 := (mul_exact_iff _ _).mpr l3
    rw [← h3] at l4
    exact ⟨h1, h2, h3, (mul_exact_iff _ _).mpr l4⟩

/-- The size that is not rounded, where no product wraps around. -/
theorem Exact.getSize {d : Dims} (h : d.Exact) : d.getSize.toNat =
    d.batch.toNat * d.height.toNat * d.width.toNat * d.channel.toNat * d.bitWidth.toNat := by
  unfold Dims.getSize
  rw [UInt32.toNat_toUInt64, h.bytes, h.elements, h.columns, h.rows]

/-- The rounding to a multiple of eight. -/
theorem getAlignedSize_eq (d : Dims) :
    d.getAlignedSize.toNat = (d.getSize.toNat + 7) / 8 * 8 := by
  have hand : (d.getSize &&& 7).toNat = d.getSize.toNat % 8 := by
    rw [UInt64.toNat_and]
    exact Nat.and_two_pow_sub_one_eq_mod _ 3
  have hlt : d.getSize.toNat < 2 ^ 32 := by
    unfold getSize
    rw [UInt32.toNat_toUInt64]
    exact UInt32.toNat_lt _
  have hzero : d.getSize &&& 7 = 0 ↔ d.getSize.toNat % 8 = 0 := by
    rw [← hand, ← UInt64.toNat_inj, UInt64.toNat_zero]
  unfold getAlignedSize
  by_cases h : d.getSize.toNat % 8 = 0
  · rw [if_neg (not_not.mpr (hzero.mpr h))]
    omega
  · have hle : (d.getSize &&& 7) ≤ 8 := by
      rw [UInt64.le_iff_toNat_le, hand]
      exact (Nat.mod_lt _ (by decide)).le
    rw [if_pos (hzero.not.mpr h), UInt64.toNat_add, UInt64.toNat_sub_of_le _ _ hle, hand,
      Nat.mod_eq_of_lt]
    · show _ + (8 - _) = _
      omega
    · show _ + (8 - _) < _
      omega

end Dims

/-! ## The graph's size -/

/-- `tensorByteSize`; `none` is a data type it throws for. -/
def tensorByteSize (t : QnnTensor) : Option UInt64 :=
  if t.dataType = .undefined then none
  else some (t.dimensions.foldl (fun n d => n * d.toUInt64) 1 *
    UInt64.ofNat t.dataType.elementSize)

/-- The number of elements. -/
def QnnTensor.elements (t : QnnTensor) : ℕ := (t.dimensions.map UInt32.toNat).prod

theorem foldl_dims (dims : List UInt32) (n : UInt64) :
    (dims.foldl (fun n d => n * d.toUInt64) n).toNat =
      n.toNat * (dims.map UInt32.toNat).prod % 2 ^ 64 := by
  induction dims generalizing n with
  | nil => simp [Nat.mod_eq_of_lt n.toNat_lt]
  | cons d dims ih =>
    rw [List.foldl_cons, ih, List.map_cons, List.prod_cons, UInt64.toNat_mul,
      UInt32.toNat_toUInt64, Nat.mod_mul_mod, Nat.mul_assoc]

theorem elementSize_lt (dt : DataType) : dt.elementSize < 2 ^ 64 := by
  cases dt <;> decide

/-- The graph's size is exact below `2 ^ 64`. -/
theorem tensorByteSize_eq (t : QnnTensor) (hdt : t.dataType ≠ .undefined)
    (hlt : t.elements * t.dataType.elementSize < 2 ^ 64) :
    ∃ bytes, tensorByteSize t = some bytes ∧
      bytes.toNat = t.elements * t.dataType.elementSize := by
  refine ⟨_, if_neg hdt, ?_⟩
  rw [UInt64.toNat_mul, foldl_dims, UInt64.toNat_one, Nat.one_mul, UInt64.toNat_ofNat',
    Nat.mod_eq_of_lt (elementSize_lt _), Nat.mod_mul_mod]
  exact Nat.mod_eq_of_lt hlt

/-! ## The planned size covers the tensor -/

/-- What the plan owes a tensor: the loop that pads its shape runs `4 - rank` times, no product
wraps around, and the size is a multiple of eight that covers the bytes the graph transfers. -/
def PlanCovers (t : QnnTensor) : Prop :=
  (t.leadingOnes : ℤ) = 4 - t.dimensions.length ∧
  ∃ shape bytes, getTensorShape t = some shape ∧ tensorByteSize t = some bytes ∧
    (Dims.ofShape shape).Exact ∧ 8 ∣ (Dims.ofShape shape).getAlignedSize.toNat ∧
    bytes ≤ (Dims.ofShape shape).getAlignedSize

/-- Dimension `i` of the four that a shape of rank at most four is padded to. -/
def QnnTensor.padded (t : QnnTensor) (i : ℕ) : ℕ :=
  (List.replicate (4 - t.dimensions.length) 1 ++ t.dimensions.map UInt32.toNat).getD i 1

/-- The first two dimensions as one; a batch of zero counts only before a second dimension of
one. -/
def QnnTensor.rows (t : QnnTensor) : ℕ :=
  if t.padded 0 = 0 ∧ t.padded 1 ≠ 1 then t.padded 1 else t.padded 0 * t.padded 1

/-- When the plan covers a tensor: rank at most four, a known data type unless the tensor is empty,
and products below `2 ^ 32`. -/
structure PlanFits (t : QnnTensor) : Prop where
  rank : t.dimensions.length ≤ 4
  known : t.dataType = .float64 → 0 ∈ t.dimensions
  rows : t.rows < 2 ^ 32
  columns : t.rows * t.padded 2 < 2 ^ 32
  elements : t.rows * t.padded 2 * t.padded 3 < 2 ^ 32
  bytes : t.rows * t.padded 2 * t.padded 3 * (getDataTypeSize t.dataType).toNat < 2 ^ 32

namespace QnnTensor

variable (t : QnnTensor)

theorem rank_toNat : t.rank.toNat = t.dimensions.length := by
  unfold rank
  rw [UInt32.toNat_ofNat']
  exact Nat.mod_eq_of_lt t.rank_lt

/-- The unsigned bound of the loop is `4 - rank` for a rank of at most four only. -/
theorem leadingOnes_iff :
    (t.leadingOnes : ℤ) = 4 - t.dimensions.length ↔ t.dimensions.length ≤ 4 := by
  constructor
  · intro h
    omega
  · intro h
    have hle : t.rank ≤ 4 := by
      rw [UInt32.le_iff_toNat_le, rank_toNat]
      exact h
    unfold leadingOnes
    rw [UInt32.toNat_sub_of_le _ _ hle, rank_toNat]
    show ((4 - _ : ℕ) : ℤ) = _
    omega

/-- The shape of a tensor of rank at most four. -/
theorem getTensorShape_eq (h0 : t.dimensions ≠ []) (h : t.dimensions.length ≤ 4) :
    ∃ x0 x1 x2 x3 : UInt32, getTensorShape t = some [x0.toUInt64, x1.toUInt64, x2.toUInt64,
      x3.toUInt64, getDataTypeSize t.dataType] ∧
      t.padded 0 = x0.toNat ∧ t.padded 1 = x1.toNat ∧ t.padded 2 = x2.toNat ∧
      t.padded 3 = x3.toNat ∧ t.elements = x0.toNat * x1.toNat * x2.toNat * x3.toNat := by
  have hones : t.leadingOnes = 4 - t.dimensions.length := by
    have hiff := t.leadingOnes_iff.mpr h
    omega
  have hpos : ¬ t.rank < 1 := by
    rw [UInt32.lt_iff_toNat_lt, rank_toNat]
    have hne := List.length_pos_iff.mpr h0
    show ¬ _ < 1
    omega
  unfold getTensorShape fillDims padded elements
  rw [if_neg hpos, hones]
  generalize t.dimensions = dims at h0 h ⊢
  match dims, h0, h with
  | [a], _, _ => exact ⟨1, 1, 1, a, by simp⟩
  | [a, b], _, _ => exact ⟨1, 1, a, b, by simp⟩
  | [a, b, c], _, _ => exact ⟨1, a, b, c, by simp [Nat.mul_assoc]⟩
  | [a, b, c, d], _, _ => exact ⟨a, b, c, d, by simp [Nat.mul_assoc]⟩
  | _ :: _ :: _ :: _ :: _ :: _, _, h =>
    simp only [List.length_cons] at h
    omega

theorem elements_eq_zero : t.elements = 0 ↔ 0 ∈ t.dimensions := by
  unfold elements
  rw [List.prod_eq_zero_iff, List.mem_map]
  constructor
  · rintro ⟨d, hd, hzero⟩
    rwa [← UInt32.toNat_inj.mp (hzero.trans UInt32.toNat_zero.symm)]
  · intro h
    exact ⟨0, h, rfl⟩

end QnnTensor

/-- The five slots of a padded shape, with the first two folded. -/
theorem Dims.ofShape_rows (x0 x1 : UInt32) (rest : List UInt64) :
    (Dims.ofShape (x0.toUInt64 :: x1.toUInt64 :: rest)).batch.toNat *
      (Dims.ofShape (x0.toUInt64 :: x1.toUInt64 :: rest)).height.toNat =
        if x0.toNat = 0 ∧ x1.toNat ≠ 1 then x1.toNat else x0.toNat * x1.toNat := by
  have hone : ∀ x : UInt32, x.toUInt64 = 1 ↔ x.toNat = 1 := fun x => by
    rw [← UInt64.toNat_inj, UInt32.toNat_toUInt64, UInt64.toNat_one]
  have hlt : ∀ x : UInt32, 1 < x.toUInt64 ↔ 1 < x.toNat := fun x => by
    rw [UInt64.lt_iff_toNat_lt, UInt32.toNat_toUInt64, UInt64.toNat_one]
  simp only [Dims.ofShape, List.getD_cons_zero, List.getD_cons_succ, ne_eq, hone, hlt,
    UInt32.toUInt32_toUInt64]
  split_ifs <;> (try rw [UInt32.toNat_one]) <;> grind

/-- The size that the planner reserves covers a tensor, with no wrap around on the way, exactly if
its rank and its products fit. -/
theorem plan_covers_iff (t : QnnTensor) (hrank : t.dimensions ≠ [])
    (hdt : t.dataType ≠ .undefined) (hbytes : t.elements * t.dataType.elementSize < 2 ^ 64) :
    PlanCovers t ↔ PlanFits t := by
  obtain ⟨bytes, hbs, hbytesEq⟩ := tensorByteSize_eq t hdt hbytes
  have hsize : t.dataType ≠ .float64 →
      (getDataTypeSize t.dataType).toNat = t.dataType.elementSize := by
    intro hne
    cases hd : t.dataType <;> first | rfl | exact absurd hd hne
  by_cases hle : t.dimensions.length ≤ 4
  swap
  · constructor
    · intro h
      exact absurd (t.leadingOnes_iff.mp h.1) hle
    · intro h
      exact absurd h.rank hle
  obtain ⟨x0, x1, x2, x3, hshape, hp0, hp1, hp2, hp3, hel⟩ := t.getTensorShape_eq hrank hle
  set d := Dims.ofShape [x0.toUInt64, x1.toUInt64, x2.toUInt64, x3.toUInt64,
    getDataTypeSize t.dataType] with hd
  have hrows : d.batch.toNat * d.height.toNat = t.rows := by
    unfold QnnTensor.rows
    rw [hd, Dims.ofShape_rows, hp0, hp1]
  have hw : d.width.toNat = t.padded 2 := by
    rw [hd, hp2]
    simp [Dims.ofShape]
  have hc : d.channel.toNat = t.padded 3 := by
    rw [hd, hp3]
    simp [Dims.ofShape]
  have hb : d.bitWidth.toNat = (getDataTypeSize t.dataType).toNat := by
    rw [hd]
    cases t.dataType <;> rfl
  have hexact := d.exact_iff
  rw [hrows, hw, hc, hb] at hexact
  constructor
  · rintro ⟨-, shape, bytes', hs, hbs', hex, -, hcov⟩
    obtain rfl := Option.some.inj (hs.symm.trans hshape)
    obtain rfl := Option.some.inj (hbs'.symm.trans hbs)
    obtain ⟨l1, l2, l3, l4⟩ := hexact.mp hex
    refine ⟨hle, fun hf => ?_, l1, l2, l3, l4⟩
    -- a type of no size has no bytes reserved
    have hzero : d.getSize.toNat = 0 := by
      rw [hex.getSize, hb, hf]
      rfl
    have hnone : bytes'.toNat ≤ 0 := by
      have hle' := UInt64.le_iff_toNat_le.mp hcov
      rwa [Dims.getAlignedSize_eq, hzero] at hle'
    rw [hbytesEq, hf] at hnone
    apply t.elements_eq_zero.mp
    simpa [DataType.elementSize] using hnone
  · rintro ⟨-, hknown, l1, l2, l3, l4⟩
    have hex := hexact.mpr ⟨l1, l2, l3, l4⟩
    refine ⟨t.leadingOnes_iff.mpr hle, _, bytes, hshape, hbs, hex, ?_, ?_⟩
    · rw [Dims.getAlignedSize_eq]
      exact Nat.dvd_mul_left _ _
    · rw [UInt64.le_iff_toNat_le, Dims.getAlignedSize_eq, hex.getSize, hrows, hw, hc, hb, hbytesEq]
      have hfold : t.elements ≤ t.rows * t.padded 2 * t.padded 3 := by
        rw [hel, ← hp0, ← hp1, ← hp2, ← hp3]
        apply Nat.mul_le_mul_right
        apply Nat.mul_le_mul_right
        unfold QnnTensor.rows
        split_ifs with hzero
        · rw [hzero.1, Nat.zero_mul]
          exact Nat.zero_le _
        · exact le_rfl
      rcases eq_or_ne t.dataType .float64 with hf | hf
      · rw [t.elements_eq_zero.mpr (hknown hf), Nat.zero_mul]
        exact Nat.zero_le _
      · rw [hsize hf]
        have hmul := Nat.mul_le_mul_right t.dataType.elementSize hfold
        omega

/-- A row of a thousand floats. -/
theorem plan_covers_row : PlanCovers ⟨.float32, [1, 1000], by decide⟩ :=
  (plan_covers_iff ⟨.float32, [1, 1000], by decide⟩ (by decide) (by decide) (by decide)).mpr
    ⟨by decide, by decide, by decide, by decide, by decide, by decide⟩

/-- No byte is reserved for a matrix of `2 ^ 32` floats. -/
theorem plan_matrix : ¬ ∀ t : QnnTensor, t.dimensions ≠ [] → t.dataType ≠ .undefined →
    t.elements * t.dataType.elementSize < 2 ^ 64 → PlanCovers t := by
  intro h
  obtain ⟨-, shape, bytes, hshape, hbytes, -, -, hcov⟩ :=
    h ⟨.float32, [65536, 65536], by decide⟩ (by decide) (by decide) (by decide)
  obtain rfl := Option.some.inj
    (hshape.symm.trans (show _ = some [1, 1, 65536, 65536, 4] by decide +kernel))
  obtain rfl := Option.some.inj (hbytes.symm.trans (show _ = some 17179869184 by decide +kernel))
  exact absurd hcov (by decide +kernel)

end Geniex
