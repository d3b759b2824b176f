import Geniex.LLM.Operations

/-!
# The stride of a KV buffer

`reshapeKV` moves the rows of a shard's KV tensors in place, in one buffer that all strides share.

* `fillEncodedZero_at`: padding is the encoded zero, element by element.
* `reshapeKV_column`, `reshapeKV_padding`: the columns of every row after one restride.
* `reshapes_column`: the columns that survive a sequence of restrides.
-/

namespace Geniex

open FlatMem

variable {spec : LLMSpec} {t : KVTensor}

/-! ## Padding -/

/-- Byte `i` of an array of the encoded zero of a type. -/
def zeroByte : EncodedZero → ℕ → UInt8
  | .byte v, _ => v
  | .wide v, i => wideByte v i

/-- A type whose encoded zero has 16 bits has elements of two bytes. -/
theorem elementSize_of_wide {dt : DataType} {v : UInt16}
    (h : encodedZeroForDtype dt = some (.wide v)) : dt.elementSize = 2 := by
  cases dt <;> simp_all [encodedZeroForDtype, DataType.elementSize]

theorem wideByte_even (v : UInt16) {k i : ℕ} (hk : k % 2 = 0) :
    wideByte v (k + i) = wideByte v i := by
  unfold wideByte
  rw [show (k + i) % 2 = i % 2 by omega]

/-- Padding writes the encoded zero, whatever was there. -/
theorem fillEncodedZero_at {dt : DataType} {z : EncodedZero} (hz : encodedZeroForDtype dt = some z)
    (m : ℕ → UInt8) {dst n i : ℕ} (hn : n % 2 = 0 ∨ ∃ v, z = .byte v) (hi : i < n) :
    fillEncodedZero dt m dst n (dst + i) = zeroByte z i := by
  unfold fillEncodedZero
  rw [hz]
  cases z with
  | byte v => exact fill_in (by omega) (by omega)
  | wide v =>
    have heven : n % 2 = 0 := hn.resolve_right nofun
    dsimp only
    rw [fill_in (by omega) (by omega), Nat.add_sub_cancel_left]
    rfl

theorem fillEncodedZero_local {dt : DataType} (m m' : ℕ → UInt8) (dst n i : ℕ) (h : m i = m' i) :
    fillEncodedZero dt m dst n i = fillEncodedZero dt m' dst n i := by
  unfold fillEncodedZero
  cases encodedZeroForDtype dt with
  | none => exact h
  | some z =>
    cases z <;> dsimp only <;> unfold fill memcpy <;> split_ifs <;> first | rfl | exact h

/-- A column of a type with a 16-bit zero has an even number of bytes. -/
theorem tokenSize_even {v : UInt16} (h : encodedZeroForDtype (spec.dtype t) = some (.wide v)) :
    spec.tokenSize t % 2 = 0 := by
  unfold LLMSpec.tokenSize
  rw [elementSize_of_wide h]
  split_ifs <;> omega

/-! ## One restride -/

section Restride

variable {old new n r c b : ℕ} {kv : KVMem}

/-- The columns that a restride keeps, with `n_valid` of them valid. -/
def kept (n old new : ℕ) : ℕ := min n (min old new)

theorem reshapeKV_tensor (ht : spec.hasTensor t = true) (old new n : ℕ) (kv : KVMem) :
    reshapeKV spec t.shard old new n kv t =
      if old = new then kv t else restrideTensor spec t old new n (kv t) := by
  unfold reshapeKV
  split_ifs with h
  · rfl
  · exact if_pos ⟨rfl, ht⟩

theorem reshapeAll_tensor (ht : spec.hasTensor t = true) :
    reshapeAll spec old new n kv t = reshapeKV spec t.shard old new n kv t := by
  rw [reshapeAll_apply, reshapeKV_tensor ht]
  by_cases heq : old = new
  · rw [if_neg (by tauto), if_pos heq]
  · rw [if_pos ⟨heq, ht⟩, if_neg heq]

/-- A kept column of a row is the same column at the new stride. -/
theorem reshapeKV_column (ht : spec.hasTensor t = true) (hr : r < spec.rows t)
    (hc : c < kept n old new) (hb : b < spec.tokenSize t) :
    reshapeKV spec t.shard old new n kv t (cell new (spec.tokenSize t) r c b) =
      kv t (cell old (spec.tokenSize t) r c b) := by
  rw [reshapeKV_tensor ht]
  unfold kept at hc
  split_ifs with h
  · rw [h]
  · exact restride_cell (fillEncodedZero_padsOnly _) (by omega) (by omega) hr hc hb

/-- The other columns of a widened row hold the encoded zero. -/
theorem reshapeKV_padding (ht : spec.hasTensor t = true) {z : EncodedZero}
    (hz : encodedZeroForDtype (spec.dtype t) = some z) (hlt : old < new) (hr : r < spec.rows t)
    (hc : kept n old new ≤ c) (hcn : c < new) (hb : b < spec.tokenSize t) :
    reshapeKV spec t.shard old new n kv t (cell new (spec.tokenSize t) r c b) = zeroByte z b := by
  rw [reshapeKV_tensor ht, if_neg hlt.ne]
  unfold restrideTensor
  have hkept : min n (min old new) = kept n old new := rfl
  set ts := spec.tokenSize t with hts
  set k := kept n old new with hk
  have hkold : k ≤ old := by
    rw [hk, kept]
    omega
  have hcopy : k * ts ≤ c * ts := Nat.mul_le_mul_right ts hc
  have hin : c * ts + b < new * ts := col_lt hcn hb
  rw [hkept, cell_eq]
  refine restride_padded (fillEncodedZero_padsOnly _)
    (Nat.mul_lt_mul_of_pos_right hlt (by omega)) (Nat.mul_le_mul_right ts hkold) hr hin
    fun m => ?_
  have heven : ∀ v, z = .wide v → ts % 2 = 0 := by
    rintro v rfl
    exact tokenSize_even hz
  -- the byte of the row, as an offset into the padding
  have hoff : r * (new * ts) + (c * ts + b) =
      r * (new * ts) + k * ts + ((c - k) * ts + b) := by
    rw [Nat.sub_mul]
    omega
  have hlen : (c - k) * ts + b < new * ts - k * ts := by
    rw [Nat.sub_mul]
    omega
  have hmod : ∀ j, ts % 2 = 0 → (j * ts) % 2 = 0 := fun j h => by
    rw [Nat.mul_mod, h, Nat.mul_zero, Nat.zero_mod]
  cases z with
  | byte v =>
    rw [hoff, fillEncodedZero_at hz m (Or.inr ⟨v, rfl⟩) hlen]
    rfl
  | wide v =>
    have hts2 := heven v rfl
    have h1 := hmod new hts2
    have h2 := hmod k hts2
    rw [hoff, fillEncodedZero_at hz m (Or.inl (by omega)) hlen]
    exact wideByte_even v (hmod _ hts2)

/-- A restride stays inside the rows of the wider stride. -/
theorem reshapeKV_inside (ht : spec.hasTensor t = true) {kv' : KVMem} :
    (∀ i, spec.byteCount t (max old new) ≤ i →
        reshapeKV spec t.shard old new n kv t i = kv t i) ∧
      ((∀ i < spec.byteCount t (max old new), kv t i = kv' t i) →
        ∀ i < spec.byteCount t (max old new),
          reshapeKV spec t.shard old new n kv t i = reshapeKV spec t.shard old new n kv' t i) := by
  have hmax : spec.byteCount t (max old new) =
      spec.rows t * max (old * spec.tokenSize t) (new * spec.tokenSize t) := by
    unfold LLMSpec.byteCount
    rw [max_mul_of_nonneg _ _ (Nat.zero_le _)]
  have hold : min n (min old new) * spec.tokenSize t ≤ old * spec.tokenSize t :=
    Nat.mul_le_mul_right _ (by omega)
  have hnew : min n (min old new) * spec.tokenSize t ≤ new * spec.tokenSize t :=
    Nat.mul_le_mul_right _ (by omega)
  rw [hmax, reshapeKV_tensor ht, reshapeKV_tensor ht]
  split_ifs
  · exact ⟨fun i _ => rfl, fun h => h⟩
  · exact ⟨fun i hi => restride_out (fillEncodedZero_padsOnly _) hnew hi,
      fun h => restride_congr (fun m m' => fillEncodedZero_local m m') hold h⟩

/-- The bytes of a tensor are the same at two strides: every column of a row is where it would move
to, and the rest of the wider row is padding. -/
def StrideFree (spec : LLMSpec) (old new : ℕ) (t : KVTensor) (m : ℕ → UInt8) : Prop :=
  ∀ r < spec.rows t, ∀ c < new, ∀ b < spec.tokenSize t,
    (c < old → m (cell new (spec.tokenSize t) r c b) = m (cell old (spec.tokenSize t) r c b)) ∧
    (old ≤ c → ∀ z, encodedZeroForDtype (spec.dtype t) = some z →
      m (cell new (spec.tokenSize t) r c b) = zeroByte z b)

/-- Byte `i` of the padding of a row is a byte of a column. -/
theorem zeroByte_column {z : EncodedZero} (hz : encodedZeroForDtype (spec.dtype t) = some z)
    (c b : ℕ) : zeroByte z (c * spec.tokenSize t + b) = zeroByte z b := by
  cases z with
  | byte v => rfl
  | wide v =>
    refine wideByte_even v ?_
    rw [Nat.mul_mod, tokenSize_even hz, Nat.mul_zero, Nat.zero_mod]

/-- A widening of tensors whose columns are all valid changes nothing just where the bytes are the
same at both strides. -/
theorem reshapeAll_fixed (hle : old ≤ new) (hn : old ≤ n) :
    reshapeAll spec old new n kv = kv ↔
      ∀ t, spec.hasTensor t = true → StrideFree spec old new t (kv t) := by
  have hkept : kept n old new = old := by
    unfold kept
    omega
  constructor
  · intro hfix t ht r hr c hc b hb
    have hcell := congrFun (congrFun hfix t) (cell new (spec.tokenSize t) r c b)
    rw [reshapeAll_tensor ht] at hcell
    refine ⟨fun hco => ?_, fun hco z hz => ?_⟩
    · rw [← hcell, reshapeKV_column ht hr (by omega) hb]
    · rcases hle.eq_or_lt with heq | hlt
      · omega
      · rw [← hcell, reshapeKV_padding ht hz hlt hr (by omega) hc hb]
  · intro hfree
    funext t
    rw [reshapeAll_apply]
    split_ifs with h
    · have ht := h.2
      have hts : ∀ {i k : ℕ}, i < k * spec.tokenSize t → 0 < spec.tokenSize t := fun {i k} hi =>
        Nat.pos_of_ne_zero fun h0 => by rw [h0, Nat.mul_zero] at hi; omega
      unfold restrideTensor
      rw [show min n (min old new) = old by omega]
      refine restride_fixed (fun r hr i hi => ?_) fun hlt r hr => ?_
      · have hpos := hts hi
        have hdiv := Nat.div_add_mod' i (spec.tokenSize t)
        have hc : i / spec.tokenSize t < old := Nat.div_lt_of_lt_mul (by rwa [Nat.mul_comm])
        have hcell := (hfree t ht r hr _ (hc.trans_le hle) _ (Nat.mod_lt i hpos)).1 hc
        rw [cell_eq, cell_eq, hdiv] at hcell
        exact hcell
      · -- the padding is there already
        funext i
        cases hz : encodedZeroForDtype (spec.dtype t) with
        | none =>
          unfold fillEncodedZero
          rw [hz]
        | some z =>
          by_cases hin : r * (new * spec.tokenSize t) + old * spec.tokenSize t ≤ i ∧
              i < r * (new * spec.tokenSize t) + old * spec.tokenSize t +
                (new * spec.tokenSize t - old * spec.tokenSize t)
          · obtain ⟨k, rfl⟩ := Nat.exists_eq_add_of_le hin.1
            have hk : k < (new - old) * spec.tokenSize t := by
              rw [Nat.sub_mul]
              omega
            have hpos := hts hk
            have hdiv := Nat.div_add_mod' k (spec.tokenSize t)
            have hc : k / spec.tokenSize t < new - old :=
              Nat.div_lt_of_lt_mul (by rwa [Nat.mul_comm])
            have heven : (new * spec.tokenSize t - old * spec.tokenSize t) % 2 = 0 ∨
                ∃ v, z = .byte v := by
              cases z with
              | byte v => exact Or.inr ⟨v, rfl⟩
              | wide v =>
                left
                rw [← Nat.sub_mul, Nat.mul_mod, tokenSize_even hz, Nat.mul_zero, Nat.zero_mod]
            have hcell := (hfree t ht r hr (old + k / spec.tokenSize t) (by omega) _
              (Nat.mod_lt k hpos)).2 (Nat.le_add_right _ _) z hz
            rw [cell_eq, Nat.add_mul, Nat.add_assoc, hdiv, ← Nat.add_assoc] at hcell
            have hcolumn := zeroByte_column hz (k / spec.tokenSize t) (k % spec.tokenSize t)
            rw [hdiv] at hcolumn
            rw [fillEncodedZero_at hz _ heven (by omega), hcell, hcolumn]
          · exact fillEncodedZero_padsOnly _ _ _ _ _ (by omega)
    · rfl

/-- A restride of a tensor whose type has an encoded zero depends on the bytes of the old rows. -/
theorem reshapeAll_agree (ht : spec.hasTensor t = true)
    (hz : (encodedZeroForDtype (spec.dtype t)).isSome) {kv' : KVMem}
    (h : ∀ i < spec.byteCount t old, kv' t i = kv t i) :
    ∀ i < spec.byteCount t new,
      reshapeAll spec old new n kv' t i = reshapeAll spec old new n kv t i := by
  obtain ⟨z, hz⟩ := Option.isSome_iff_exists.mp hz
  intro i hi
  rw [reshapeAll_tensor ht, reshapeAll_tensor ht]
  rcases Nat.lt_or_ge old new with hlt | hge
  · obtain ⟨r, hr, c, hc, b, hb, rfl⟩ := exists_cell hi
    rcases Nat.lt_or_ge c (kept n old new) with hck | hck
    · rw [reshapeKV_column ht hr hck hb, reshapeKV_column ht hr hck hb]
      refine h _ (cell_lt hr ?_ hb)
      unfold kept at hck
      omega
    · rw [reshapeKV_padding ht hz hlt hr hck hc hb, reshapeKV_padding ht hz hlt hr hck hc hb]
  · have hmax : max old new = old := max_eq_left hge
    have hin : (∀ i < spec.byteCount t (max old new), kv' t i = kv t i) →
        ∀ i < spec.byteCount t (max old new), reshapeKV spec t.shard old new n kv' t i =
          reshapeKV spec t.shard old new n kv t i := (reshapeKV_inside ht).2
    rw [hmax] at hin
    exact hin h i (hi.trans_le (byteCount_le hge))

end Restride

/-- The initial fill of a tensor whose type has an encoded zero leaves nothing of what was there. -/
theorem initKVBuffers_agree (ht : spec.hasTensor t = true)
    (hz : (encodedZeroForDtype (spec.dtype t)).isSome) (p : Phase) {a i : ℕ} (ha : a < spec.numCl)
    (hi : i < spec.byteCount t (spec.kvLen p a)) (kv kv' : KVMem) :
    initKVBuffers spec kv t i = initKVBuffers spec kv' t i := by
  obtain ⟨z, hz⟩ := Option.isSome_iff_exists.mp hz
  have heven : ∀ len, spec.byteCount t len % 2 = 0 ∨ ∃ v, z = .byte v := by
    intro len
    cases z with
    | byte v => exact Or.inr ⟨v, rfl⟩
    | wide v =>
      left
      unfold LLMSpec.byteCount
      rw [← Nat.mul_assoc, Nat.mul_mod, tokenSize_even hz, Nat.mul_zero, Nat.zero_mod]
  have hwrite : ∀ {len}, i < spec.byteCount t len → ∀ m m' : ℕ → UInt8,
      fillEncodedZero (spec.dtype t) m 0 (spec.byteCount t len) i =
        fillEncodedZero (spec.dtype t) m' 0 (spec.byteCount t len) i := by
    intro len hin m m'
    have hat : ∀ n : ℕ → UInt8, fillEncodedZero (spec.dtype t) n 0 (spec.byteCount t len) (0 + i) =
        zeroByte z i := fun n => fillEncodedZero_at hz n (heven len) hin
    simp only [Nat.zero_add] at hat
    rw [hat m, hat m']
  unfold initKVBuffers
  rw [if_pos ht, if_pos ht]
  have hlocal : ∀ (q : Phase) (r : ℕ) (m m' : ℕ → UInt8), m i = m' i →
      fillEncodedZero (spec.dtype t) m 0 (spec.byteCount t (spec.kvLen q r)) i =
        fillEncodedZero (spec.dtype t) m' 0 (spec.byteCount t (spec.kvLen q r)) i :=
    fun _ _ m m' => fillEncodedZero_local m m' 0 _ i
  cases p with
  | prefill =>
    exact upto_agree (hlocal .decode) _ _ _
      (Or.inl (upto_agree (hlocal .prefill) _ _ _ (Or.inr ⟨a, ha, hwrite hi⟩)))
  | decode => exact upto_agree (hlocal .decode) _ _ _ (Or.inr ⟨a, ha, hwrite hi⟩)

/-! ## Sequences of restrides -/

/-- Restrides of a shard's tensors along a sequence of strides. -/
def reshapes (spec : LLMSpec) (s n : ℕ) : ℕ → List ℕ → KVMem → KVMem
  | _, [], kv => kv
  | l, l' :: ls, kv => reshapes spec s n l' ls (reshapeKV spec s l l' n kv)

/-- The least of `n` and all strides. -/
def leastStride (n : ℕ) (strides : List ℕ) : ℕ := strides.foldr min n

theorem reshapes_column (ht : spec.hasTensor t = true) {n r c b : ℕ} (hr : r < spec.rows t)
    (hb : b < spec.tokenSize t) (ls : List ℕ) :
    ∀ (l : ℕ) (kv : KVMem), c < leastStride n (l :: ls) →
      reshapes spec t.shard n l ls kv t
          (cell ((l :: ls).getLastD 0) (spec.tokenSize t) r c b) =
        kv t (cell l (spec.tokenSize t) r c b) := by
  induction ls with
  | nil => exact fun l kv _ => rfl
  | cons l' ls ih =>
    intro l kv hc
    have hleast : ∀ ls : List ℕ, leastStride n ls ≤ n := by
      intro ls
      induction ls with
      | nil => exact le_rfl
      | cons a as ih => exact (min_le_right _ _).trans ih
    have hc' : c < min l (leastStride n (l' :: ls)) := hc
    have hl' : leastStride n (l' :: ls) ≤ l' := min_le_left _ _
    have hn := hleast (l' :: ls)
    rw [reshapes]
    refine (ih l' _ (by omega)).trans ?_
    exact reshapeKV_column ht hr (by unfold kept; omega) hb

section Lost

variable {z : EncodedZero} {n r c b : ℕ}

/-- A column below `n_valid` that is the encoded zero wherever it exists stays so. -/
theorem reshapes_zero (ht : spec.hasTensor t = true)
    (hz : encodedZeroForDtype (spec.dtype t) = some z) (hr : r < spec.rows t)
    (hb : b < spec.tokenSize t) (hcn : c < n) (ls : List ℕ) :
    ∀ (l : ℕ) (kv : KVMem),
      (c < l → kv t (cell l (spec.tokenSize t) r c b) = zeroByte z b) →
      c < (l :: ls).getLastD 0 →
      reshapes spec t.shard n l ls kv t
          (cell ((l :: ls).getLastD 0) (spec.tokenSize t) r c b) = zeroByte z b := by
  induction ls with
  | nil => exact fun l kv hzero hc => hzero hc
  | cons l' ls ih =>
    intro l kv hzero hc
    refine ih l' _ (fun hcl' => ?_) hc
    rcases Nat.lt_or_ge c l with hcl | hcl
    · -- the column is moved with its row
      rw [reshapeKV_column ht hr (by unfold kept; omega) hb]
      exact hzero hcl
    · -- the column is new
      exact reshapeKV_padding ht hz (by omega) hr (by unfold kept; omega) hcl' hb

/-- A column below `n_valid` that some stride does not reach is the encoded zero in the end. -/
theorem reshapes_lost (ht : spec.hasTensor t = true)
    (hz : encodedZeroForDtype (spec.dtype t) = some z) (hr : r < spec.rows t)
    (hb : b < spec.tokenSize t) (hcn : c < n) (ls : List ℕ) :
    ∀ (l : ℕ) (kv : KVMem), leastStride n (l :: ls) ≤ c → c < (l :: ls).getLastD 0 →
      reshapes spec t.shard n l ls kv t
          (cell ((l :: ls).getLastD 0) (spec.tokenSize t) r c b) = zeroByte z b := by
  induction ls with
  | nil =>
    intro l kv hleast hc
    have hl : leastStride n [l] = min l n := rfl
    have hc' : c < l := hc
    omega
  | cons l' ls ih =>
    intro l kv hleast hc
    rcases Nat.lt_or_ge c l with hcl | hcl
    · have hrest : leastStride n (l :: l' :: ls) = min l (leastStride n (l' :: ls)) := rfl
      exact ih l' _ (by omega) hc
    · exact reshapes_zero ht hz hr hb hcn (l' :: ls) l kv (fun h => absurd h (by omega)) hc

end Lost

/-- **In-place restriding.** For every tensor, at any number of rows and any token size: a restride
keeps the first `min(n_valid, old, new)` columns of every row, pads the rest of a widened row with
the encoded zero, and stays inside the rows of the wider stride. Along any sequence of strides the
columns below `n_valid` and below every stride survive; the other columns below `n_valid` end as the
encoded zero. -/
theorem reshapeKV_restrides (spec : LLMSpec) (t : KVTensor) (ht : spec.hasTensor t = true) (n : ℕ) :
    (∀ (old new : ℕ) (kv kv' : KVMem),
      (∀ r < spec.rows t, ∀ c < kept n old new, ∀ b < spec.tokenSize t,
        reshapeKV spec t.shard old new n kv t (cell new (spec.tokenSize t) r c b) =
          kv t (cell old (spec.tokenSize t) r c b)) ∧
      (old < new → ∀ z, encodedZeroForDtype (spec.dtype t) = some z → ∀ r < spec.rows t,
        ∀ c < new, kept n old new ≤ c → ∀ b < spec.tokenSize t,
          reshapeKV spec t.shard old new n kv t (cell new (spec.tokenSize t) r c b) =
            zeroByte z b) ∧
      (∀ i, spec.byteCount t (max old new) ≤ i →
        reshapeKV spec t.shard old new n kv t i = kv t i) ∧
      ((∀ i < spec.byteCount t (max old new), kv t i = kv' t i) →
        ∀ i < spec.byteCount t (max old new),
          reshapeKV spec t.shard old new n kv t i = reshapeKV spec t.shard old new n kv' t i)) ∧
    ∀ (l : ℕ) (ls : List ℕ) (kv : KVMem), ∀ r < spec.rows t, ∀ c, ∀ b < spec.tokenSize t,
      (c < leastStride n (l :: ls) →
        reshapes spec t.shard n l ls kv t
            (cell ((l :: ls).getLastD 0) (spec.tokenSize t) r c b) =
          kv t (cell l (spec.tokenSize t) r c b)) ∧
      ∀ z, encodedZeroForDtype (spec.dtype t) = some z → leastStride n (l :: ls) ≤ c → c < n →
        c < (l :: ls).getLastD 0 →
        reshapes spec t.shard n l ls kv t
            (cell ((l :: ls).getLastD 0) (spec.tokenSize t) r c b) = zeroByte z b := by
  refine ⟨fun old new kv kv' => ⟨?_, ?_, ?_⟩, fun l ls kv r hr c b hb => ⟨?_, ?_⟩⟩
  · exact fun r hr c hc b hb => reshapeKV_column ht hr hc hb
  · exact fun hlt z hz r hr c hcn hc b hb => reshapeKV_padding ht hz hlt hr hc hcn hb
  · exact reshapeKV_inside ht
  · exact reshapes_column ht hr hb ls l kv
  · exact fun z hz hleast hcn hc => reshapes_lost ht hz hr hb hcn ls l kv hleast hc

/-- A key tensor of two rows, widened from two columns to three and narrowed to one. -/
theorem reshapeKV_restrides_tiny :
    reshapes (tinySpec [4] 2 1) 0 2 2 [3, 1] (fun _ i => UInt8.ofNat i) ⟨0, 0, true⟩
      (cell 1 1 1 0 0) = UInt8.ofNat (cell 2 1 1 0 0) :=
  ((reshapeKV_restrides (tinySpec [4] 2 1) ⟨0, 0, true⟩ (by decide) 2).2 2 [3, 1] _ 1 (by decide) 0 0
    (by decide)).1 (by decide)

/-- More than the first `min(n_valid, old, new)` columns can survive: at an unchanged stride nothing
is touched, and a narrowing leaves the first row where it is. -/
theorem restride_keeps_more :
    (∀ kv : KVMem, ∀ r < 2, reshapes (tinySpec [4] 2 1) 0 1 2 [2] kv ⟨0, 0, true⟩ (cell 2 1 r 1 0) =
      kv ⟨0, 0, true⟩ (cell 2 1 r 1 0)) ∧
    (∀ kv : KVMem, reshapes (tinySpec [4] 2 1) 0 1 3 [2] kv ⟨0, 0, true⟩ (cell 2 1 0 1 0) =
      kv ⟨0, 0, true⟩ (cell 3 1 0 1 0)) ∧
    leastStride 1 [2, 2] = 1 ∧ leastStride 1 [3, 2] = 1 := by
  refine ⟨fun kv r _ => rfl, fun kv => rfl, rfl, rfl⟩

end Geniex
