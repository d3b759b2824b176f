import Geniex.LLM.Rope
import Geniex.LLM.InputProvider
import Geniex.Lib.Mem
import Geniex.Lib.RowMajor

/-!
# The cos/sin tables of MRoPE

`MRoPEInputProvider::fillCosSin` over the frequencies of its constructor. Each column of a table is
driven by one of the three position dimensions.

* `writeColumns_apply`: what a loop over the rows leaves in a column.
* `fillTable_entry`: every entry of a table, whatever the table held before.
* `mrope_columns`: each dimension drives as many columns as its section says.
-/

namespace Geniex

/-- `MRoPEInterleaving`. -/
inductive MRoPEInterleaving
  | block
  | stride
  deriving DecidableEq

/-- The fields of `MRoPEInputProvider` that `fillCosSin` reads. -/
structure MRoPETable (K : Type) where
  mropeSection : List Int32
  style : MRoPEInterleaving
  halfDim : ℕ
  invFreq : ℕ → Extended K

namespace MRoPETable

variable {K : Type} [Field K] [LinearOrder K]

/-- The constructor of `MRoPEInputProvider`. -/
def new (F : MathFns K) (mropeSection : List Int32) (theta : ℚ) (style : MRoPEInterleaving) :
    MRoPETable K :=
  let halfDim := sizeOfInt (mropeSection.foldl (· + ·) 0)
  { mropeSection := mropeSection
    style := style
    halfDim := halfDim
    invFreq := fun i => .fin 1 / .fin (F.pow (theta : K) ((i : K) / (halfDim : K))) }

section Fill

variable (r : MRoPETable K) (g : Extended K → Extended K) (positionIds : List Int32) (seqLen : ℕ)

/-- `freqs[(dim * seq_len + t) * half_dim + i]`. -/
def freq (dim t i : ℕ) : Extended K :=
  .fin ((positionIds.getD (dim * seqLen + t) 0).toInt : K) * r.invFreq i

/-- Column `i` of every row, from the frequencies of `dim`. -/
def writeColumn (dim i : ℕ) (m : ℕ → Extended K) : ℕ → Extended K :=
  FlatMem.upto (fun t m =>
    Function.update m (t * r.halfDim + i) (g (r.freq positionIds seqLen dim t i))) seqLen m

/-- Columns `off`, ..., `off + len - 1` of every row. -/
def writeColumns (dim off len : ℕ) (m : ℕ → Extended K) : ℕ → Extended K :=
  FlatMem.upto (fun t m => FlatMem.upto (fun k m =>
    Function.update m (t * r.halfDim + (off + k))
      (g (r.freq positionIds seqLen dim t (off + k)))) len m) seqLen m

/-- The loop over the sections, contiguous from `off` on. -/
def fillBlock : ℕ → List Int32 → ℕ → (ℕ → Extended K) → ℕ → Extended K
  | _, [], _, m => m
  | dim, s :: rest, off, m =>
    if off < r.halfDim then
      let len := min (sizeOfInt s) (r.halfDim - off)
      fillBlock (dim + 1) rest (off + len) (r.writeColumns g positionIds seqLen dim off len m)
    else m

/-- How often `for (i = dim; i < length && i < half_dim; i += 3)` goes round. -/
def strideCount (dim : ℕ) (length : Int32) : ℕ :=
  ((min length.toInt ((r.halfDim : ℤ).bmod (2 ^ 32)) - dim + 2) / 3).toNat

/-- The columns of a dimension at stride 3. -/
def fillStride (dim : ℕ) (m : ℕ → Extended K) : ℕ → Extended K :=
  if dim < r.mropeSection.length then
    FlatMem.upto (fun k m => r.writeColumn g positionIds seqLen dim (dim + 3 * k) m)
      (r.strideCount dim (r.mropeSection.getD dim 0 * 3)) m
  else m

/-- One of the two tables, which held `m`. -/
def fillTable (m : ℕ → Extended K) : ℕ → Extended K :=
  match r.style with
  | .block => r.fillBlock g positionIds seqLen 0 r.mropeSection 0 m
  | .stride =>
    -- temporal fills all, then height and width override
    r.fillStride g positionIds seqLen 2 (r.fillStride g positionIds seqLen 1
      (r.writeColumns g positionIds seqLen 0 0 r.halfDim m))

end Fill

/-- `fillCosSin(position_ids, seq_len, out_cos, out_sin)`. `resize` keeps what the tables held. -/
def fillCosSin (r : MRoPETable K) (F : MathFns K) (positionIds : List Int32) (seqLen : ℕ)
    (outCos outSin : ℕ → Extended K) : List (Extended K) × List (Extended K) :=
  ((List.range (seqLen * r.halfDim)).map
      (r.fillTable (Extended.apply F.cos) positionIds seqLen outCos),
    (List.range (seqLen * r.halfDim)).map
      (r.fillTable (Extended.apply F.sin) positionIds seqLen outSin))

/-! ## Columns -/

section Columns

variable {r : MRoPETable K} {g : Extended K → Extended K} {positionIds : List Int32} {seqLen : ℕ}

/-- What a loop over the rows leaves in an entry. -/
theorem writeColumns_apply {dim off len t i : ℕ} (m : ℕ → Extended K) (hlen : off + len ≤ r.halfDim)
    (hi : i < r.halfDim) :
    r.writeColumns g positionIds seqLen dim off len m (t * r.halfDim + i) =
      if t < seqLen ∧ off ≤ i ∧ i < off + len then g (r.freq positionIds seqLen dim t i)
      else m (t * r.halfDim + i) := by
  have hrow : ∀ (n : ℕ) (m : ℕ → Extended K) (j : ℕ), FlatMem.upto (fun k m =>
      Function.update m (n * r.halfDim + (off + k))
        (g (r.freq positionIds seqLen dim n (off + k)))) len m j =
      if n * r.halfDim + off ≤ j ∧ j < n * r.halfDim + off + len then
        g (r.freq positionIds seqLen dim n (off + (j - (n * r.halfDim + off)))) else m j := by
    intro n m j
    simp only [← Nat.add_assoc]
    exact FlatMem.upto_update (fun k => g (r.freq positionIds seqLen dim n (off + k))) _ _ _ _
  unfold writeColumns
  rw [FlatMem.upto_rows ?_ ?_ hi]
  · rw [hrow]
    split_ifs with ht hin hcol
    · have hback : off + (t * r.halfDim + i - (t * r.halfDim + off)) = i := by omega
      rw [hback]
    all_goals first | rfl | omega
  · intro n hn m j hj
    rw [hrow, if_neg (by omega)]
  · intro n m m' j h
    rw [hrow, hrow, h]

/-- The section of a column, counted from `off`. -/
def blockOf : List Int32 → ℕ → ℕ → Option ℕ
  | [], _, _ => none
  | s :: rest, off, i =>
    if off ≤ i ∧ i < off + sizeOfInt s then some 0
    else (blockOf rest (off + sizeOfInt s) i).map (· + 1)

theorem blockOf_none {ss : List Int32} {off i : ℕ} (hi : i < off) : blockOf ss off i = none := by
  induction ss generalizing off with
  | nil => rfl
  | cons s rest ih => rw [blockOf, if_neg (by omega), ih (by omega), Option.map_none]

/-- The contiguous layout: a column takes the dimension of its section. -/
theorem fillBlock_entry (ss : List Int32) (dim off : ℕ) (m : ℕ → Extended K) {t i : ℕ}
    (ht : t < seqLen) (hi : i < r.halfDim) (hsum : off + (ss.map sizeOfInt).sum ≤ r.halfDim) :
    r.fillBlock g positionIds seqLen dim ss off m (t * r.halfDim + i) =
      match blockOf ss off i with
      | some k => g (r.freq positionIds seqLen (dim + k) t i)
      | none => m (t * r.halfDim + i) := by
  induction ss generalizing dim off m with
  | nil => rfl
  | cons s rest ih =>
    rw [List.map_cons, List.sum_cons] at hsum
    rw [fillBlock, blockOf]
    split_ifs with hoff hin hin
    · dsimp only
      rw [min_eq_left (by omega), ih _ _ _ (by omega), blockOf_none (by omega),
        writeColumns_apply m (by omega) hi, if_pos ⟨ht, hin⟩]
      rfl
    · dsimp only
      rw [min_eq_left (by omega), ih _ _ _ (by omega)]
      cases blockOf rest (off + sizeOfInt s) i with
      | none =>
        rw [Option.map_none, writeColumns_apply m (by omega) hi]
        exact if_neg fun h => hin h.2
      | some k =>
        rw [Option.map_some]
        show g (r.freq positionIds seqLen (dim + 1 + k) t i) =
          g (r.freq positionIds seqLen (dim + (k + 1)) t i)
        rw [Nat.add_assoc, Nat.add_comm 1 k]
    · omega
    · rw [blockOf_none (by omega), Option.map_none]

/-- A loop at stride 3 writes the columns that are a multiple of 3 away, in every row. -/
theorem strideColumns_apply {dim n t i : ℕ} (m : ℕ → Extended K)
    (hn : ∀ k < n, dim + 3 * k < r.halfDim) (ht : t < seqLen) (hi : i < r.halfDim) :
    FlatMem.upto (fun k m => r.writeColumn g positionIds seqLen dim (dim + 3 * k) m) n m
        (t * r.halfDim + i) =
      if ∃ k < n, i = dim + 3 * k then g (r.freq positionIds seqLen dim t i)
      else m (t * r.halfDim + i) := by
  induction n with
  | zero => rw [if_neg (by omega)]; rfl
  | succ n ih =>
    show r.writeColumns g positionIds seqLen dim (dim + 3 * n) 1 (FlatMem.upto _ n m) _ = _
    rw [writeColumns_apply _ (by have := hn n (by omega); omega) hi,
      ih fun k hk => hn k (by omega)]
    by_cases hcol : i = dim + 3 * n
    · rw [if_pos (by omega), if_pos ⟨n, by omega, hcol⟩]
    · rw [if_neg (by omega)]
      refine if_congr ⟨?_, ?_⟩ rfl rfl
      · rintro ⟨k, hk, rfl⟩
        exact ⟨k, by omega, rfl⟩
      · rintro ⟨k, hk, rfl⟩
        exact ⟨k, by omega, rfl⟩

theorem toInt_mul_three {s : Int32} (h0 : 0 ≤ s.toInt) (h : 3 * s.toInt < 2 ^ 31) :
    (s * 3).toInt = s.toInt * 3 := by
  rw [Int32.toInt_mul]
  show (s.toInt * 3).bmod (2 ^ 32) = _
  rw [Int.bmod_def]
  split_ifs <;> omega

theorem bmod_halfDim {n : ℕ} (h : n < 2 ^ 31) : (n : ℤ).bmod (2 ^ 32) = n := by
  rw [Int.bmod_def]
  split_ifs <;> omega

omit [Field K] [LinearOrder K] in
/-- The loop goes round once for each column of the section: the last one,
`dim + 3 * (section - 1)`, is below both bounds. -/
theorem strideCount_eq {dim : ℕ} {s : Int32} (hdim : dim < 3) (h0 : 0 ≤ s.toInt)
    (hsection : 3 * s.toInt ≤ r.halfDim) (hint : r.halfDim < 2 ^ 31) :
    r.strideCount dim (s * 3) = s.toInt.toNat := by
  have hmin : min (s.toInt * 3) (r.halfDim : ℤ) = s.toInt * 3 := min_eq_left (by omega)
  have hback : (s.toInt * 3 - dim + 2) / 3 = s.toInt := by omega
  have hthree := toInt_mul_three h0 (by omega)
  unfold strideCount
  rw [hthree, bmod_halfDim hint, hmin, hback]

/-- A dimension at stride 3 takes the columns of its residue below three times its section. -/
theorem fillStride_entry {dim t i : ℕ} (m : ℕ → Extended K) (hsize : dim < r.mropeSection.length)
    (hdim : dim < 3) (h0 : 0 ≤ (r.mropeSection.getD dim 0).toInt)
    (hsection : 3 * (r.mropeSection.getD dim 0).toInt ≤ r.halfDim) (hint : r.halfDim < 2 ^ 31)
    (ht : t < seqLen) (hi : i < r.halfDim) :
    r.fillStride g positionIds seqLen dim m (t * r.halfDim + i) =
      if i % 3 = dim ∧ (i : ℤ) < 3 * (r.mropeSection.getD dim 0).toInt then
        g (r.freq positionIds seqLen dim t i)
      else m (t * r.halfDim + i) := by
  have hcount := strideCount_eq hdim h0 hsection hint
  have hthree := Int.toNat_of_nonneg h0
  rw [fillStride, if_pos hsize, strideColumns_apply _ (fun k hk => by omega) ht hi]
  refine if_congr ⟨?_, fun h => ⟨i / 3, by omega, by omega⟩⟩ rfl rfl
  rintro ⟨k, hk, rfl⟩
  omega

end Columns

/-! ## Three sections -/

/-- The dimension that drives a column, for three sections. -/
def columnDim (style : MRoPEInterleaving) (s0 s1 s2 i : ℕ) : ℕ :=
  match style with
  | .block => if i < s0 then 0 else if i < s0 + s1 then 1 else 2
  | .stride => if i % 3 = 1 ∧ i < 3 * s1 then 1 else if i % 3 = 2 ∧ i < 3 * s2 then 2 else 0

/-- How many of the first `n` columns a dimension drives in the contiguous layout. -/
theorem count_block (s0 s1 s2 d n : ℕ) (hd : d < 3) (hn : n ≤ s0 + s1 + s2) :
    Nat.count (fun i => columnDim .block s0 s1 s2 i = d) n =
      if d = 0 then min n s0 else if d = 1 then min (n - s0) s1 else n - s0 - s1 := by
  induction n with
  | zero => rw [Nat.count_zero]; split_ifs <;> omega
  | succ n ih =>
    rw [Nat.count_succ, ih (by omega), columnDim]
    split_ifs <;> omega

/-- How many of the first `n` columns a dimension drives at stride 3. -/
theorem count_stride (s0 s1 s2 d n : ℕ) (hd : d < 3) :
    Nat.count (fun i => columnDim .stride s0 s1 s2 i = d) n =
      if d = 1 then min ((n + 1) / 3) s1 else if d = 2 then min (n / 3) s2
      else n - min ((n + 1) / 3) s1 - min (n / 3) s2 := by
  induction n with
  | zero => rw [Nat.count_zero]; split_ifs <;> omega
  | succ n ih =>
    rw [Nat.count_succ, ih, columnDim]
    split_ifs <;> omega

/-! ## Every entry -/

section Entries

variable (F : MathFns K) {s0 s1 s2 : Int32} (theta : ℚ) {style : MRoPEInterleaving}

/-- The sections are no negative numbers, and an `int` holds their sum. At stride 3, the second and
the third take at most a third of the columns each. -/
structure SectionsFit (style : MRoPEInterleaving) (s0 s1 s2 : Int32) : Prop where
  zero : 0 ≤ s0.toInt
  one : 0 ≤ s1.toInt
  two : 0 ≤ s2.toInt
  sum : s0.toInt + s1.toInt + s2.toInt < 2 ^ 31
  stride : style = .stride → 3 * s1.toInt ≤ s0.toInt + s1.toInt + s2.toInt ∧
    3 * s2.toInt ≤ s0.toInt + s1.toInt + s2.toInt

theorem sizeOfInt_eq {n : Int32} (h : 0 ≤ n.toInt) : sizeOfInt n = n.toInt.toNat := by
  have hlt := n.toInt_lt
  unfold sizeOfInt
  rw [Int.emod_eq_of_lt h (by omega)]

theorem SectionsFit.halfDim (h : SectionsFit style s0 s1 s2) :
    (new F [s0, s1, s2] theta style).halfDim = sizeOfInt s0 + sizeOfInt s1 + sizeOfInt s2 := by
  have h0 := h.zero
  have h1 := h.one
  have h2 := h.two
  have hsum := h.sum
  have hint : (s0 + s1 + s2).toInt = s0.toInt + s1.toInt + s2.toInt := by
    rw [Int32.toInt_add, Int32.toInt_add]
    rw [Int.bmod_def, Int.bmod_def]
    split_ifs <;> omega
  show sizeOfInt (0 + s0 + s1 + s2) = _
  rw [Int32.zero_add, sizeOfInt_eq (by omega), hint, sizeOfInt_eq h0, sizeOfInt_eq h1,
    sizeOfInt_eq h2]
  omega

/-- Every entry of a table is that of the dimension of its column. -/
theorem fillTable_entry (h : SectionsFit style s0 s1 s2) (g : Extended K → Extended K)
    (positionIds : List Int32) {seqLen t i : ℕ} (m : ℕ → Extended K) (ht : t < seqLen)
    (hi : i < (new F [s0, s1, s2] theta style).halfDim) :
    (new F [s0, s1, s2] theta style).fillTable g positionIds seqLen m
        (t * (new F [s0, s1, s2] theta style).halfDim + i) =
      g ((new F [s0, s1, s2] theta style).freq positionIds seqLen
        (columnDim style (sizeOfInt s0) (sizeOfInt s1) (sizeOfInt s2) i) t i) := by
  have hhalf := h.halfDim F theta
  have h1 := h.one
  have h2 := h.two
  have hsum := h.sum
  have hn0 := sizeOfInt_eq h.zero
  have hn1 := sizeOfInt_eq h1
  have hn2 := sizeOfInt_eq h2
  cases style with
  | block =>
    have hsections : 0 + ([s0, s1, s2].map sizeOfInt).sum ≤
        (new F [s0, s1, s2] theta .block).halfDim := by
      simp only [List.map_cons, List.map_nil, List.sum_cons, List.sum_nil]
      omega
    show fillBlock _ g positionIds seqLen 0 [s0, s1, s2] 0 m _ = _
    rw [fillBlock_entry _ _ _ _ ht hi hsections]
    rw [hhalf] at hi
    simp only [blockOf, columnDim]
    split_ifs <;> first | rfl | omega
  | stride =>
    obtain ⟨hthird1, hthird2⟩ := h.stride rfl
    have hint : (new F [s0, s1, s2] theta .stride).halfDim < 2 ^ 31 := by omega
    have hsection1 : 0 ≤ ((new F [s0, s1, s2] theta .stride).mropeSection.getD 1 0).toInt ∧
        3 * ((new F [s0, s1, s2] theta .stride).mropeSection.getD 1 0).toInt ≤
          (new F [s0, s1, s2] theta .stride).halfDim := by
      show 0 ≤ s1.toInt ∧ 3 * s1.toInt ≤ _
      omega
    have hsection2 : 0 ≤ ((new F [s0, s1, s2] theta .stride).mropeSection.getD 2 0).toInt ∧
        3 * ((new F [s0, s1, s2] theta .stride).mropeSection.getD 2 0).toInt ≤
          (new F [s0, s1, s2] theta .stride).halfDim := by
      show 0 ≤ s2.toInt ∧ 3 * s2.toInt ≤ _
      omega
    show fillStride _ g positionIds seqLen 2 (fillStride _ g positionIds seqLen 1
      (writeColumns _ g positionIds seqLen 0 0 _ m)) _ = _
    rw [fillStride_entry _ (by exact Nat.lt_succ_self 2) (by decide) hsection2.1 hsection2.2 hint ht
        hi,
      fillStride_entry _ (by exact Nat.lt_succ_of_lt (Nat.lt_succ_self 1)) (by decide) hsection1.1
        hsection1.2 hint ht hi,
      writeColumns_apply m (by omega) hi]
    rw [if_pos (show t < seqLen ∧ 0 ≤ i ∧ i < 0 + (new F [s0, s1, s2] theta .stride).halfDim from
      ⟨ht, Nat.zero_le _, by omega⟩)]
    show (if i % 3 = 2 ∧ (i : ℤ) < 3 * s2.toInt then _ else
      if i % 3 = 1 ∧ (i : ℤ) < 3 * s1.toInt then _ else _) = _
    simp only [columnDim]
    split_ifs <;> first | rfl | omega

theorem columnDim_lt (style : MRoPEInterleaving) (s0 s1 s2 i : ℕ) :
    columnDim style s0 s1 s2 i < 3 := by
  cases style <;> simp only [columnDim] <;> split_ifs <;> omega

/-- A table whose three dimensions agree, row by row. -/
theorem fillTable_rows (h : SectionsFit style s0 s1 s2) (g : Extended K → Extended K)
    (positionIds : List Int32) (m : ℕ → Extended K) (p : List Int32)
    (hsame : ∀ d < 3, ∀ t < p.length, positionIds.getD (d * p.length + t) 0 = p.getD t 0) :
    (List.range (p.length * (new F [s0, s1, s2] theta style).halfDim)).map
        ((new F [s0, s1, s2] theta style).fillTable g positionIds p.length m) =
      p.flatMap fun pos => (List.range (new F [s0, s1, s2] theta style).halfDim).map fun i =>
        g (.fin (pos.toInt : K) * (new F [s0, s1, s2] theta style).invFreq i) := by
  have hp : p = (List.range p.length).map fun t => p.getD t 0 := by
    refine List.ext_getElem (by simp) fun t ht _ => ?_
    rw [List.getElem_map, List.getElem_range, List.getD_eq_getElem?_getD,
      List.getElem?_eq_getElem ht, Option.getD_some]
  rw [RowMajor.map_range_mul]
  conv_rhs => rw [hp, List.flatMap_map]
  refine List.flatMap_congr fun t ht => List.map_congr_left fun i hi => ?_
  have htlt := List.mem_range.mp ht
  rw [fillTable_entry F theta h g positionIds m htlt (List.mem_range.mp hi), freq,
    hsame _ (columnDim_lt _ _ _ _ _) t htlt]

variable [CharZero K]

/-- The frequencies are those of a rotary embedding of twice the dimension. -/
theorem invFreq_eq (F : MathFns K) (mropeSection : List Int32) (theta : ℚ)
    (style : MRoPEInterleaving) (i : ℕ) :
    (new F mropeSection theta style).invFreq i =
      plainFreq F (2 * (new F mropeSection theta style).halfDim) theta i := by
  show Extended.fin 1 / Extended.fin (F.pow _ ((i : K) / (_ : K))) =
    Extended.fin 1 / Extended.fin (F.pow _ _)
  congr 3
  push_cast
  rcases eq_or_ne ((new F mropeSection theta style).halfDim : K) 0 with h0 | hne
  · show (i : K) / ((new F mropeSection theta style).halfDim : K) = _
    rw [h0]
    simp
  · show (i : K) / ((new F mropeSection theta style).halfDim : K) = _
    field_simp

/-- Each column of the tables is driven by one dimension, which depends on the column only; the
dimensions drive as many columns as their sections say, in their layout; and where the three agree
the tables are those of `RotaryEmbedding`. -/
theorem mrope_columns (h : SectionsFit style s0 s1 s2) (positionIds : List Int32) (seqLen : ℕ)
    (outCos outSin : ℕ → Extended K) (r : MRoPETable K) (hr : r = new F [s0, s1, s2] theta style)
    (dim : ℕ → ℕ) (hdim : dim = columnDim style (sizeOfInt s0) (sizeOfInt s1) (sizeOfInt s2)) :
    (∀ t < seqLen, ∀ i < r.halfDim,
      (r.fillCosSin F positionIds seqLen outCos outSin).1[t * r.halfDim + i]? =
        some ((.fin (positionIds.getD (dim i * seqLen + t) 0).toInt * r.invFreq i).apply F.cos) ∧
      (r.fillCosSin F positionIds seqLen outCos outSin).2[t * r.halfDim + i]? =
        some ((.fin (positionIds.getD (dim i * seqLen + t) 0).toInt * r.invFreq i).apply F.sin)) ∧
    (r.halfDim = s0.toInt + s1.toInt + s2.toInt ∧
      Nat.count (fun i => dim i = 0) r.halfDim = s0.toInt ∧
      Nat.count (fun i => dim i = 1) r.halfDim = s1.toInt ∧
      Nat.count (fun i => dim i = 2) r.halfDim = s2.toInt) ∧
    (style = .block → ∀ i < r.halfDim, (dim i = 0 ↔ (i : ℤ) < s0.toInt) ∧
      (dim i = 1 ↔ s0.toInt ≤ i ∧ (i : ℤ) < s0.toInt + s1.toInt) ∧
      (dim i = 2 ↔ s0.toInt + s1.toInt ≤ i)) ∧
    (style = .stride → ∀ i < r.halfDim, dim i ≠ 0 → dim i = i % 3) ∧
    ∀ p : List Int32, p.length = seqLen →
      (∀ d < 3, ∀ t < seqLen, positionIds.getD (d * seqLen + t) 0 = p.getD t 0) →
      r.fillCosSin F positionIds seqLen outCos outSin =
        (RotaryEmbedding F (2 * r.halfDim) theta).forward F p := by
  have hhalf := h.halfDim F theta
  have hn0 := sizeOfInt_eq h.zero
  have hn1 := sizeOfInt_eq h.one
  have hn2 := sizeOfInt_eq h.two
  have h0 := h.zero
  have h1 := h.one
  have h2 := h.two
  have hthird := h.stride
  subst hr hdim
  refine ⟨fun t ht i hi => ?_, ⟨?_, ?_⟩, ?_, ?_, ?_⟩
  · have hlt := FlatMem.row_lt ht hi
    unfold fillCosSin
    rw [List.getElem?_map, List.getElem?_map, List.getElem?_range hlt, Option.map_some,
      Option.map_some, fillTable_entry F theta h _ positionIds _ ht hi,
      fillTable_entry F theta h _ positionIds _ ht hi]
    exact ⟨rfl, rfl⟩
  · omega
  · cases style with
    | block =>
      rw [count_block _ _ _ _ _ (by decide) (by omega), count_block _ _ _ _ _ (by decide) (by omega),
        count_block _ _ _ _ _ (by decide) (by omega)]
      simp only [if_true, one_ne_zero, if_false, OfNat.ofNat_ne_zero, OfNat.ofNat_ne_one]
      omega
    | stride =>
      obtain ⟨hthird1, hthird2⟩ := hthird rfl
      rw [count_stride _ _ _ _ _ (by decide), count_stride _ _ _ _ _ (by decide),
        count_stride _ _ _ _ _ (by decide)]
      simp only [if_true, zero_ne_one, if_false, OfNat.ofNat_ne_one, OfNat.zero_ne_ofNat]
      omega
  · intro hblock i hi
    have hsum : (i : ℤ) < s0.toInt + s1.toInt + s2.toInt := by omega
    subst hblock
    refine ⟨?_, ?_, ?_⟩ <;> simp only [columnDim] <;> split_ifs <;> constructor <;> intro hcol <;>
      first | exact hcol.elim | omega
  · rintro rfl i hi hne
    simp only [columnDim] at hne ⊢
    split_ifs at hne ⊢ <;> omega
  · rintro p rfl hsame
    unfold fillCosSin RotaryTable.forward
    rw [fillTable_rows F theta h _ _ _ p hsame, fillTable_rows F theta h _ _ _ p hsame]
    have hrow : ∀ (f : K → K) (pos : Int32),
        ((List.range (new F [s0, s1, s2] theta style).halfDim).map fun i =>
          (.fin (pos.toInt : K) * (new F [s0, s1, s2] theta style).invFreq i).apply f) =
        (RotaryEmbedding F (2 * (new F [s0, s1, s2] theta style).halfDim) theta).invFreq.map
          fun x => (.fin (pos.toInt : K) * x).apply f * .fin 1 := by
      intro f pos
      unfold RotaryEmbedding
      rw [Nat.mul_div_cancel_left _ (by decide), List.map_map]
      refine List.map_congr_left fun i _ => ?_
      rw [Function.comp_apply, Extended.apply_mul_one, invFreq_eq]
    simp only [hrow]
    rfl

end Entries

/-- One column for each dimension, at a token of an image. -/
theorem mrope_columns_three : SectionsFit .stride 1 1 1 ∧
    ((new (⟨id, id, fun _ x => x + 1, id, id⟩ : MathFns ℚ) [1, 1, 1] 1 .stride).fillCosSin
      ⟨id, id, fun _ x => x + 1, id, id⟩ [5, 6, 7] 1 (fun _ => .fin 0)
        fun _ => .fin 0).1[0 * 3 + 2]? = some (.fin (21 / 5)) := by
  have hfit : SectionsFit .stride 1 1 1 :=
    ⟨by decide, by decide, by decide, by decide, fun _ => by decide⟩
  refine ⟨hfit, ?_⟩
  have hentry := ((mrope_columns (⟨id, id, fun _ x => x + 1, id, id⟩ : MathFns ℚ) 1 hfit [5, 6, 7] 1
    (fun _ => .fin 0) (fun _ => .fin 0) _ rfl _ rfl).1 0 (by decide) 2 (by decide)).1
  exact hentry.trans (by decide +kernel)

end MRoPETable

end Geniex
