import Geniex.SSD.Bounds

/-!
# The forecast prefix file

A header of 16 bytes, then the key tensors of all shards and the value tensors of all shards, each
`n_heads * embed_dim * update_size` elements. `loadForecastPrefix` looks at the magic and at
`update_size` only; it reads the rows of the model's own heads and skips the heads behind them.

* `foldl_loadPrefixTensor`: each tensor takes its rows from its own block of the file.
* `loadForecastPrefix_loads`: what is refused changes nothing, and a file that suits the model and is
  complete ends up in the first columns.
* `prefixAllOrNothing_iff`: when the prefix loads completely or not at all.
-/

namespace Geniex

open FlatMem

variable {ρ I : Type} {spec : LLMSpec} {ssd : SSDConfig}

/-! ## The file -/

/-- The header of a file. -/
def prefixHeader (file : List UInt8) : PrefixHeader := PrefixHeader.parse (file.take 16)

/-- Bytes of one tensor of the file. -/
def PrefixHeader.blockBytes (h : PrefixHeader) : ℕ :=
  h.nHeads * h.embedDim * h.updateSize * h.bytesPerElem

namespace SSDConfig

/-- The tensors in the order of the file. -/
def fileTensors (spec : LLMSpec) : List KVTensor :=
  prefixTensors spec true ++ prefixTensors spec false

/-- `loadForecastPrefix()`: what it returns, and the instance it leaves. -/
def loadForecastPrefixCall (ssd : SSDConfig) (spec : LLMSpec) (w : World Int32 ρ I) :
    Bool × World Int32 ρ I :=
  match ssd.prefixFile with
  | none => (false, w)
  | some file =>
    let (b, f) := (ByteStream.mk file true).read 16
    let h := PrefixHeader.parse b
    if f.good = false ∨ h.magic ≠ 0xC0DE then (false, w)
    else if h.updateSize ≠ ssd.forecastPrefix then (false, w)
    else (true, { w with kv := ((fileTensors spec).foldl
      (fun s t => loadPrefixTensor spec h w.activeClIdx t s) (w.kv, f)).1 })

/-- Initialisation and reset use the KV inputs it leaves, whatever it returns. -/
theorem loadForecastPrefixCall_kv (ssd : SSDConfig) (spec : LLMSpec) (w : World Int32 ρ I) :
    (loadForecastPrefixCall ssd spec w).2 =
      { w with kv := loadForecastPrefix ssd spec w.activeClIdx w.kv } := by
  unfold loadForecastPrefixCall loadForecastPrefix
  cases ssd.prefixFile with
  | none => rfl
  | some file =>
    dsimp only
    split_ifs with h₁ h₂ h₃ h₄ h₅ <;> first | rfl | exact absurd h₁ (by tauto)

end SSDConfig

/-! ## Rows -/

section Rows

variable {file : List UInt8} {stride n : ℕ}

/-- A read of bytes that are there. -/
theorem read_drop {pos : ℕ} (h : pos + n ≤ file.length) :
    (ByteStream.mk (file.drop pos) true).read n =
      ((file.drop pos).take n, ⟨file.drop (pos + n), true⟩) := by
  simp only [ByteStream.read, if_true, List.drop_drop, List.length_drop]
  rw [decide_eq_true (by omega : n ≤ file.length - pos)]

/-- The bytes behind the rows are left to read. -/
theorem readRows_rest (k : ℕ) : ∀ (row pos : ℕ) (m : ℕ → UInt8), pos + k * n ≤ file.length →
    (readRows stride n k row ⟨file.drop pos, true⟩ m).2 = ⟨file.drop (pos + k * n), true⟩ := by
  induction k with
  | zero => simp [readRows]
  | succ k ih =>
    intro row pos m h
    rw [Nat.succ_mul] at h
    rw [readRows, read_drop (by omega)]
    dsimp only
    rw [ih _ _ _ (by omega), Nat.succ_mul]
    congr 2
    omega

/-- What lies outside the rows is not touched. -/
theorem readRows_out (k : ℕ) {i : ℕ} :
    ∀ (row pos : ℕ) (m : ℕ → UInt8), pos + k * n ≤ file.length →
      (∀ r < k, i < (row + r) * stride ∨ (row + r) * stride + n ≤ i) →
      (readRows stride n k row ⟨file.drop pos, true⟩ m).1 i = m i := by
  induction k with
  | zero => exact fun _ _ _ _ _ => rfl
  | succ k ih =>
    intro row pos m h hout
    rw [Nat.succ_mul] at h
    have hrow := hout 0 (Nat.succ_pos k)
    rw [readRows, read_drop (by omega)]
    dsimp only
    rw [ih _ _ _ (by omega) fun r hr => by
        have := hout (r + 1) (by omega)
        rwa [show row + (r + 1) = row + 1 + r by omega] at this,
      memcpy_out (by
        rw [List.length_take, List.length_drop, min_eq_left (by omega)]
        exact hrow)]

/-- A row holds its bytes of the file. -/
theorem readRows_row (hn : n ≤ stride) (k : ℕ) :
    ∀ (row pos : ℕ) (m : ℕ → UInt8), pos + k * n ≤ file.length → ∀ r < k, ∀ i < n,
      file[pos + r * n + i]? =
        some ((readRows stride n k row ⟨file.drop pos, true⟩ m).1 ((row + r) * stride + i)) := by
  induction k with
  | zero => exact fun _ _ _ _ r hr => absurd hr (Nat.not_lt_zero r)
  | succ k ih =>
    intro row pos m h r hr i hi
    rw [Nat.succ_mul] at h
    rw [readRows, read_drop (by omega)]
    dsimp only
    cases r with
    | zero =>
      -- the later rows lie behind this one
      have hlater : ∀ r < k, row * stride + i < (row + 1 + r) * stride := by
        intro r _
        have := row_le (w := stride) (by omega : row + 1 ≤ row + 1 + r)
        rw [Nat.succ_mul] at this
        omega
      have hlen : ((file.drop pos).take n).length = n := by
        rw [List.length_take, List.length_drop]
        omega
      have hfile : pos + i < file.length := by omega
      rw [Nat.add_zero row, Nat.zero_mul, Nat.add_zero,
        readRows_out _ _ _ _ (by omega) fun r hr => Or.inl (hlater r hr),
        memcpy_in (by omega) (by omega), Nat.zero_add, Nat.add_sub_cancel_left,
        List.getD_eq_getElem _ _ (by omega), List.getElem_take, List.getElem_drop,
        List.getElem?_eq_getElem hfile]
    | succ r =>
      have hrow := ih (row + 1) (pos + n)
        (memcpy m (fun i => ((file.drop pos).take n).getD i 0) (row * stride) 0
          ((file.drop pos).take n).length) (by omega) r (by omega) i hi
      rw [show pos + (r + 1) * n + i = pos + n + r * n + i by ring,
        show row + (r + 1) = row + 1 + r by omega]
      exact hrow

end Rows

/-! ## Tensors -/

namespace SSDConfig

/-- The file is one of this model: the header dimension and the element size are those of the KV
tensors, no head is missing, and each tensor has its bytes and room for its columns. -/
structure PrefixSuits (spec : LLMSpec) (clIdx : ℕ) (file : List UInt8) : Prop where
  dim : (prefixHeader file).embedDim = spec.headDim
  elem : ∀ t, spec.hasTensor t = true →
    (spec.dtype t).elementSize = (prefixHeader file).bytesPerElem
  heads : spec.numKvHeads ≤ (prefixHeader file).nHeads
  room : (prefixHeader file).updateSize ≤ spec.kvLen .prefill clIdx
  complete : 16 + (fileTensors spec).length * (prefixHeader file).blockBytes ≤ file.length

/-- Every row of every KV tensor has the columns that the file declares, and starts with those that
the file has for it. -/
def PrefixInPlace (spec : LLMSpec) (clIdx : ℕ) (file : List UInt8) (kv : KVMem) : Prop :=
  ∀ t, spec.hasTensor t = true → ∀ r < spec.rows t, ∀ c < (prefixHeader file).updateSize,
    ∀ b < spec.tokenSize t, c < spec.kvLen .prefill clIdx ∧
      file[16 + (fileTensors spec).idxOf t * (prefixHeader file).blockBytes +
          cell (prefixHeader file).updateSize (spec.tokenSize t) r c b]? =
        some (kv t (cell (spec.kvLen .prefill clIdx) (spec.tokenSize t) r c b))

theorem mem_fileTensors {t : KVTensor} : t ∈ fileTensors spec ↔ spec.hasTensor t = true := by
  obtain ⟨s, p, k⟩ := t
  have hshard : p < (spec.pairs s).length → s < spec.shardCount := fun h =>
    shard_lt_of_hasTensor (t := ⟨s, p, k⟩) (decide_eq_true h)
  simp only [fileTensors, prefixTensors, List.mem_append, List.mem_flatMap, List.mem_range,
    List.mem_map, KVTensor.mk.injEq, LLMSpec.hasTensor, decide_eq_true_eq]
  constructor
  · rintro (⟨_, _, _, hp, rfl, rfl, _⟩ | ⟨_, _, _, hp, rfl, rfl, _⟩) <;> exact hp
  · intro hp
    cases k with
    | true => exact Or.inl ⟨s, hshard hp, p, hp, rfl, rfl, rfl⟩
    | false => exact Or.inr ⟨s, hshard hp, p, hp, rfl, rfl, rfl⟩

theorem prefixTensors_nodup (isKey : Bool) : (prefixTensors spec isKey).Nodup := by
  unfold prefixTensors
  rw [List.nodup_flatMap]
  constructor
  · intro s _
    exact List.nodup_range.map fun p q h => (KVTensor.mk.inj h).2.1
  · refine List.nodup_range.imp fun hne => ?_
    rintro t ht ht'
    obtain ⟨_, -, rfl⟩ := List.mem_map.mp ht
    obtain ⟨_, -, h⟩ := List.mem_map.mp ht'
    exact hne (KVTensor.mk.inj h).1.symm

theorem fileTensors_nodup : (fileTensors spec).Nodup := by
  refine (prefixTensors_nodup true).append (prefixTensors_nodup false) fun t ht ht' => ?_
  unfold prefixTensors at ht ht'
  simp only [List.mem_flatMap, List.mem_map] at ht ht'
  obtain ⟨_, -, _, -, rfl⟩ := ht
  obtain ⟨_, -, _, -, h⟩ := ht'
  cases h

/-- The bytes of the columns that the file declares for a tensor. -/
theorem rows_bytes (file : List UInt8) (t : KVTensor) :
    spec.rows t * ((prefixHeader file).updateSize * spec.tokenSize t) =
      spec.numKvHeads * spec.headDim * (prefixHeader file).updateSize *
        (spec.dtype t).elementSize := by
  unfold LLMSpec.rows LLMSpec.tokenSize
  split_ifs <;> ring

/-- The rows of a tensor and the heads behind them make up its block. -/
theorem PrefixSuits.block {clIdx : ℕ} {file : List UInt8} (h : PrefixSuits spec clIdx file)
    {t : KVTensor} (ht : spec.hasTensor t = true) :
    spec.rows t * ((prefixHeader file).updateSize * spec.tokenSize t) +
        ((prefixHeader file).nHeads - spec.numKvHeads) * (prefixHeader file).embedDim *
          (prefixHeader file).updateSize * (prefixHeader file).bytesPerElem =
      (prefixHeader file).blockBytes := by
  obtain ⟨more, hmore⟩ := Nat.exists_eq_add_of_le h.heads
  unfold PrefixHeader.blockBytes
  rw [rows_bytes, h.elem t ht, h.dim, hmore, Nat.add_sub_cancel_left]
  ring

/-- A tensor takes its rows from its block, and the next block is left to read. -/
theorem loadPrefixTensor_eq {clIdx pos : ℕ} {file : List UInt8} (h : PrefixSuits spec clIdx file)
    {t : KVTensor} (ht : spec.hasTensor t = true) (kv : KVMem)
    (hpos : pos + (prefixHeader file).blockBytes ≤ file.length) :
    loadPrefixTensor spec (prefixHeader file) clIdx t (kv, ⟨file.drop pos, true⟩) =
      (Function.update kv t (readRows (spec.kvLen .prefill clIdx * spec.tokenSize t)
          ((prefixHeader file).updateSize * spec.tokenSize t) (spec.rows t) 0
          ⟨file.drop pos, true⟩ (kv t)).1,
        ⟨file.drop (pos + (prefixHeader file).blockBytes), true⟩) := by
  have hblock := h.block ht
  have hrest : (readRows (spec.kvLen .prefill clIdx * spec.tokenSize t)
      ((prefixHeader file).updateSize * spec.tokenSize t) (spec.rows t) 0 ⟨file.drop pos, true⟩
      (kv t)).2 = ⟨file.drop (pos + spec.rows t *
        ((prefixHeader file).updateSize * spec.tokenSize t)), true⟩ :=
    readRows_rest _ _ _ _ (by omega)
  unfold loadPrefixTensor
  dsimp only
  rw [hrest]
  refine Prod.ext rfl ?_
  dsimp only
  split_ifs with hmore
  · rw [ByteStream.skip, if_pos rfl, List.drop_drop, ← hblock, Nat.add_assoc]
  · have hsame : (prefixHeader file).nHeads - spec.numKvHeads = 0 := by omega
    rw [hsame] at hblock
    rw [← hblock]
    simp

/-- **Each tensor takes its rows from its own block of the file.** -/
theorem foldl_loadPrefixTensor {clIdx : ℕ} {file : List UInt8} (h : PrefixSuits spec clIdx file)
    (tensors : List KVTensor) (hnodup : tensors.Nodup)
    (hall : ∀ t ∈ tensors, spec.hasTensor t = true) :
    ∀ (pos : ℕ) (kv : KVMem),
      pos + tensors.length * (prefixHeader file).blockBytes ≤ file.length →
      (tensors.foldl (fun s t => loadPrefixTensor spec (prefixHeader file) clIdx t s)
          (kv, ⟨file.drop pos, true⟩)).1 =
        fun t => if t ∈ tensors then
          (readRows (spec.kvLen .prefill clIdx * spec.tokenSize t)
            ((prefixHeader file).updateSize * spec.tokenSize t) (spec.rows t) 0
            ⟨file.drop (pos + tensors.idxOf t * (prefixHeader file).blockBytes), true⟩ (kv t)).1
        else kv t := by
  induction tensors with
  | nil =>
    intro pos kv _
    funext t
    simp
  | cons t tensors ih =>
    intro pos kv hpos
    obtain ⟨hnot, hnodup⟩ := List.nodup_cons.mp hnodup
    rw [List.length_cons, Nat.succ_mul] at hpos
    rw [List.foldl_cons, loadPrefixTensor_eq h (hall t List.mem_cons_self) kv (by omega),
      ih hnodup (fun u hu => hall u (List.mem_cons_of_mem _ hu)) _ _ (by omega)]
    funext u
    by_cases hu : u = t
    · subst hu
      rw [if_neg hnot, if_pos List.mem_cons_self, Function.update_self, List.idxOf_cons_self,
        Nat.zero_mul, Nat.add_zero]
    · rw [Function.update_of_ne hu]
      simp only [List.mem_cons, hu, false_or]
      split_ifs with hmem
      · rw [List.idxOf_cons_ne _ (Ne.symm hu), Nat.succ_mul, Nat.add_assoc, Nat.add_comm
          (prefixHeader file).blockBytes]
      · rfl

/-- The rows of a complete file are in place. -/
theorem foldl_inPlace {clIdx : ℕ} {file : List UInt8} (h : PrefixSuits spec clIdx file)
    (kv : KVMem) :
    PrefixInPlace spec clIdx file ((fileTensors spec).foldl
      (fun s t => loadPrefixTensor spec (prefixHeader file) clIdx t s)
      (kv, ⟨file.drop 16, true⟩)).1 := by
  intro t ht r hr c hc b hb
  have hmem : t ∈ fileTensors spec := mem_fileTensors.mpr ht
  have hidx := row_le (w := (prefixHeader file).blockBytes)
    (Nat.succ_le_of_lt (List.idxOf_lt_length_of_mem hmem))
  rw [Nat.succ_mul] at hidx
  have hcomplete := h.complete
  have hblock := h.block ht
  have hpos : 16 + (fileTensors spec).idxOf t * (prefixHeader file).blockBytes + spec.rows t *
      ((prefixHeader file).updateSize * spec.tokenSize t) ≤ file.length := by omega
  have hrow := readRows_row (Nat.mul_le_mul_right (spec.tokenSize t) h.room) (spec.rows t) 0 _
    (kv t) hpos r hr _ (col_lt hc hb)
  rw [Nat.zero_add] at hrow
  refine ⟨hc.trans_le h.room, ?_⟩
  rw [foldl_loadPrefixTensor h _ fileTensors_nodup (fun u => mem_fileTensors.mp) _ _ h.complete]
  dsimp only
  rw [if_pos hmem, cell_eq, cell_eq, ← hrow, ← Nat.add_assoc]

/-- A column behind the prefix is not touched. -/
theorem foldl_behind {clIdx : ℕ} {file : List UInt8} (h : PrefixSuits spec clIdx file)
    (kv : KVMem) {t : KVTensor} {r c b : ℕ} (hc : (prefixHeader file).updateSize ≤ c)
    (hlt : c < spec.kvLen .prefill clIdx) (hb : b < spec.tokenSize t) :
    ((fileTensors spec).foldl (fun s t => loadPrefixTensor spec (prefixHeader file) clIdx t s)
        (kv, ⟨file.drop 16, true⟩)).1 t
        (cell (spec.kvLen .prefill clIdx) (spec.tokenSize t) r c b) =
      kv t (cell (spec.kvLen .prefill clIdx) (spec.tokenSize t) r c b) := by
  rw [foldl_loadPrefixTensor h _ fileTensors_nodup (fun u => mem_fileTensors.mp) _ _ h.complete]
  dsimp only
  split_ifs with hmem
  · have hidx := row_le (w := (prefixHeader file).blockBytes)
      (Nat.succ_le_of_lt (List.idxOf_lt_length_of_mem hmem))
    rw [Nat.succ_mul] at hidx
    have hcomplete := h.complete
    have hblock := h.block (mem_fileTensors.mp hmem)
    refine readRows_out _ _ _ _ (by omega) fun k _ => ?_
    rw [Nat.zero_add, cell_eq]
    -- the cell is in row `r`, behind the columns that row `k` takes
    have hcol := col_lt hlt hb
    have hpast : (prefixHeader file).updateSize * spec.tokenSize t ≤ c * spec.tokenSize t :=
      Nat.mul_le_mul_right _ hc
    have hroom := Nat.mul_le_mul_right (spec.tokenSize t) h.room
    rcases Nat.lt_or_ge r k with hrk | hkr
    · left
      have := row_le (w := spec.kvLen .prefill clIdx * spec.tokenSize t) (Nat.succ_le_of_lt hrk)
      rw [Nat.succ_mul] at this
      omega
    · right
      have := row_le (w := spec.kvLen .prefill clIdx * spec.tokenSize t) hkr
      omega
  · rfl

/-! ## The call -/

/-- The file is taken if it has a header with the magic and the expected number of columns. -/
theorem loadForecastPrefixCall_accepts (w : World Int32 ρ I) :
    (loadForecastPrefixCall ssd spec w).1 = true ↔
      ∃ file, ssd.prefixFile = some file ∧ 16 ≤ file.length ∧
        (prefixHeader file).magic = 0xC0DE ∧ (prefixHeader file).updateSize = ssd.forecastPrefix := by
  unfold loadForecastPrefixCall prefixHeader
  cases ssd.prefixFile with
  | none => simp
  | some file =>
    simp only [ByteStream.read, if_true, Option.some.injEq, exists_eq_left']
    split_ifs with h₁ h₂
    · simp only [decide_eq_false_iff_not] at h₁
      refine ⟨False.elim, fun h => ?_⟩
      rcases h₁ with h₁ | h₁
      · exact absurd h.1 h₁
      · exact absurd h.2.1 h₁
    · exact ⟨False.elim, fun h => absurd h.2.2 h₂⟩
    · simp only [decide_eq_false_iff_not, not_or, not_not] at h₁
      exact ⟨fun _ => ⟨h₁.1, h₁.2, not_not.mp h₂⟩, fun _ => rfl⟩

/-- What a file that is taken leaves. -/
theorem loadForecastPrefixCall_taken {w : World Int32 ρ I} {file : List UInt8}
    (hfile : ssd.prefixFile = some file) (h : (loadForecastPrefixCall ssd spec w).1 = true) :
    (loadForecastPrefixCall ssd spec w).2 = { w with kv := ((fileTensors spec).foldl
      (fun s t => loadPrefixTensor spec (prefixHeader file) w.activeClIdx t s)
      (w.kv, ⟨file.drop 16, true⟩)).1 } := by
  obtain ⟨file', hfile', hlen, hmagic, hsize⟩ := (loadForecastPrefixCall_accepts w).mp h
  obtain rfl : file = file' := Option.some.inj (hfile.symm.trans hfile')
  unfold prefixHeader at hmagic hsize ⊢
  unfold loadForecastPrefixCall
  rw [hfile]
  simp only [ByteStream.read, if_true, hlen, decide_true, hmagic, hsize, Bool.true_eq_false,
    ne_eq, not_true, or_self, if_false]

/-- **What is refused changes nothing, and a complete file of this model is in place.** The loader
takes a file by its magic and its number of columns. If the file suits the model, every row of every
KV tensor then starts with the columns that the file has for it, and nothing else has changed. -/
theorem loadForecastPrefix_loads (ssd : SSDConfig) (spec : LLMSpec) (w : World Int32 ρ I) :
    ((loadForecastPrefixCall ssd spec w).1 = true ↔
      ∃ file, ssd.prefixFile = some file ∧ 16 ≤ file.length ∧
        (prefixHeader file).magic = 0xC0DE ∧
        (prefixHeader file).updateSize = ssd.forecastPrefix) ∧
    ((loadForecastPrefixCall ssd spec w).1 = false → (loadForecastPrefixCall ssd spec w).2 = w) ∧
    ∀ file, ssd.prefixFile = some file → (loadForecastPrefixCall ssd spec w).1 = true →
      PrefixSuits spec w.activeClIdx file →
      ∃ kv, (loadForecastPrefixCall ssd spec w).2 = { w with kv := kv } ∧
        PrefixInPlace spec w.activeClIdx file kv ∧
        (∀ t, spec.hasTensor t = false → kv t = w.kv t) ∧
        ∀ t r c b, ssd.forecastPrefix ≤ c → c < spec.kvLen .prefill w.activeClIdx →
          b < spec.tokenSize t →
          kv t (cell (spec.kvLen .prefill w.activeClIdx) (spec.tokenSize t) r c b) =
            w.kv t (cell (spec.kvLen .prefill w.activeClIdx) (spec.tokenSize t) r c b) := by
  refine ⟨loadForecastPrefixCall_accepts w, fun h => ?_, fun file hfile h hsuits => ?_⟩
  · revert h
    unfold loadForecastPrefixCall
    cases ssd.prefixFile with
    | none => exact fun _ => rfl
    | some file =>
      dsimp only
      split_ifs <;> first | exact fun _ => rfl | exact nofun
  · obtain ⟨file', hfile', -, -, hsize⟩ := (loadForecastPrefixCall_accepts w).mp h
    obtain rfl : file = file' := Option.some.inj (hfile.symm.trans hfile')
    refine ⟨_, loadForecastPrefixCall_taken hfile h, foldl_inPlace hsuits w.kv,
      fun t ht => ?_, fun t r c b hc hlt hb => foldl_behind hsuits w.kv (hsize ▸ hc) hlt hb⟩
    rw [foldl_loadPrefixTensor hsuits _ fileTensors_nodup (fun u => mem_fileTensors.mp) _ _
      hsuits.complete]
    dsimp only
    rw [if_neg fun hmem => by rw [mem_fileTensors.mp hmem] at ht; cases ht]

/-! ## All or nothing -/

/-- The magic and all sizes of the header are those of the model. -/
structure HeaderMatches (ssd : SSDConfig) (spec : LLMSpec) (file : List UInt8) : Prop where
  magic : (prefixHeader file).magic = 0xC0DE
  tensors : ofLeBytes (file.take 4) = (fileTensors spec).length
  heads : (prefixHeader file).nHeads = spec.numKvHeads
  dim : (prefixHeader file).embedDim = spec.headDim
  elem : ∀ t, spec.hasTensor t = true →
    (spec.dtype t).elementSize = (prefixHeader file).bytesPerElem
  columns : (prefixHeader file).updateSize = ssd.forecastPrefix

/-- Loaded from a file whose header matches, every row in place; or nothing has changed. -/
def PrefixAllOrNothing (ssd : SSDConfig) (spec : LLMSpec) (w : World Int32 ρ I) : Prop :=
  ((loadForecastPrefixCall ssd spec w).1 = true →
    ∃ file, ssd.prefixFile = some file ∧ HeaderMatches ssd spec file ∧
      PrefixInPlace spec w.activeClIdx file (loadForecastPrefixCall ssd spec w).2.kv) ∧
  ((loadForecastPrefixCall ssd spec w).1 = false → (loadForecastPrefixCall ssd spec w).2 = w)

/-- The file can fill the tensors of the model: its header matches, it has every byte that its
sizes declare, and the columns that it declares fit a row. -/
structure PrefixComplete (ssd : SSDConfig) (spec : LLMSpec) (clIdx : ℕ) (file : List UInt8) :
    Prop where
  header : HeaderMatches ssd spec file
  payload : 16 + (fileTensors spec).length * (prefixHeader file).blockBytes ≤ file.length
  room : (fileTensors spec).length * (prefixHeader file).blockBytes = 0 ∨
    (prefixHeader file).updateSize ≤ spec.kvLen .prefill clIdx

/-- The block of a tensor of the model is its rows. -/
theorem HeaderMatches.block {file : List UInt8} (h : HeaderMatches ssd spec file) {t : KVTensor}
    (ht : spec.hasTensor t = true) :
    spec.rows t * ((prefixHeader file).updateSize * spec.tokenSize t) =
      (prefixHeader file).blockBytes := by
  rw [rows_bytes, h.elem t ht, ← h.heads, ← h.dim]
  rfl

/-- A cell that the file declares lies in its block, and the block is not empty. -/
theorem HeaderMatches.cell_lt {file : List UInt8} (h : HeaderMatches ssd spec file) {t : KVTensor}
    (ht : spec.hasTensor t = true) {r c b : ℕ} (hr : r < spec.rows t)
    (hc : c < (prefixHeader file).updateSize) (hb : b < spec.tokenSize t) :
    cell (prefixHeader file).updateSize (spec.tokenSize t) r c b <
      (prefixHeader file).blockBytes := by
  rw [← h.block ht, cell_eq]
  have hrow := row_le (w := (prefixHeader file).updateSize * spec.tokenSize t)
    (Nat.succ_le_of_lt hr)
  rw [Nat.succ_mul] at hrow
  have hcol := col_lt hc hb
  omega

/-- A complete file is in place once it is loaded. -/
theorem PrefixComplete.inPlace {clIdx : ℕ} {file : List UInt8}
    (h : PrefixComplete ssd spec clIdx file) (kv : KVMem) :
    PrefixInPlace spec clIdx file ((fileTensors spec).foldl
      (fun s t => loadPrefixTensor spec (prefixHeader file) clIdx t s)
      (kv, ⟨file.drop 16, true⟩)).1 := by
  rcases h.room with hempty | hroom
  · -- no cell is declared
    intro t ht r hr c hc b hb
    have hcell := h.header.cell_lt ht hr hc hb
    have hpos := List.length_pos_of_mem (mem_fileTensors.mpr ht)
    rcases Nat.mul_eq_zero.mp hempty with hnone | hnone <;> omega
  · exact foldl_inPlace ⟨h.header.dim, h.header.elem, h.header.heads.ge, hroom, h.payload⟩ kv

/-- The last byte that a file declares for the model is that of the last cell of a tensor. -/
theorem HeaderMatches.last_cell {file : List UInt8} (h : HeaderMatches ssd spec file)
    (hsome : 0 < (fileTensors spec).length * (prefixHeader file).blockBytes) :
    ∃ t r c b, spec.hasTensor t = true ∧ r < spec.rows t ∧ c + 1 = (prefixHeader file).updateSize ∧
      b < spec.tokenSize t ∧
      (fileTensors spec).idxOf t * (prefixHeader file).blockBytes +
          cell (prefixHeader file).updateSize (spec.tokenSize t) r c b + 1 =
        (fileTensors spec).length * (prefixHeader file).blockBytes := by
  have hlen : 0 < (fileTensors spec).length := Nat.pos_of_mul_pos_right hsome
  have hblock : 0 < (prefixHeader file).blockBytes := Nat.pos_of_mul_pos_left hsome
  have hne : fileTensors spec ≠ [] := List.ne_nil_of_length_pos hlen
  set t := (fileTensors spec).getLast hne with ht
  have hmem : t ∈ fileTensors spec := List.getLast_mem hne
  have htensor := mem_fileTensors.mp hmem
  have hidx : (fileTensors spec).idxOf t = (fileTensors spec).length - 1 := by
    rw [ht, List.getLast_eq_getElem]
    exact fileTensors_nodup.idxOf_getElem _ _
  have hrows := h.block htensor
  rw [← hrows] at hblock
  have hr : 0 < spec.rows t := Nat.pos_of_mul_pos_right hblock
  have hcols : 0 < (prefixHeader file).updateSize * spec.tokenSize t :=
    Nat.pos_of_mul_pos_left hblock
  have hc : 0 < (prefixHeader file).updateSize := Nat.pos_of_mul_pos_right hcols
  have hb : 0 < spec.tokenSize t := Nat.pos_of_mul_pos_left hcols
  refine ⟨t, spec.rows t - 1, (prefixHeader file).updateSize - 1, spec.tokenSize t - 1, htensor,
    by omega, by omega, by omega, ?_⟩
  obtain ⟨r, hr'⟩ := Nat.exists_eq_succ_of_ne_zero hr.ne'
  obtain ⟨c, hc'⟩ := Nat.exists_eq_succ_of_ne_zero hc.ne'
  obtain ⟨b, hb'⟩ := Nat.exists_eq_succ_of_ne_zero hb.ne'
  obtain ⟨k, hk⟩ := Nat.exists_eq_succ_of_ne_zero hlen.ne'
  rw [hidx, hk, Nat.succ_sub_one, Nat.succ_mul, ← hrows, cell_eq, hr', hc', hb']
  simp only [Nat.succ_sub_one, Nat.succ_eq_add_one]
  ring

/-- What is in place was in the file, and had room. -/
theorem PrefixInPlace.complete {clIdx : ℕ} {file : List UInt8} {kv : KVMem}
    (h : PrefixInPlace spec clIdx file kv) (hheader : HeaderMatches ssd spec file)
    (hlen : 16 ≤ file.length) : PrefixComplete ssd spec clIdx file := by
  rcases Nat.eq_zero_or_pos ((fileTensors spec).length * (prefixHeader file).blockBytes) with
    hempty | hsome
  · exact ⟨hheader, by omega, Or.inl hempty⟩
  · obtain ⟨t, r, c, b, ht, hr, hc, hb, hlast⟩ := hheader.last_cell hsome
    obtain ⟨hroom, hbyte⟩ := h t ht r hr c (by omega) b hb
    have hin := (List.getElem?_eq_some_iff.mp hbyte).1
    exact ⟨hheader, by omega, Or.inr (by omega)⟩

/-- The header of one column for two heads of dimension one, and half of the bytes. -/
def cutShort : List UInt8 :=
  [2, 0, 0, 0, 0xDE, 0xC0, 0, 0, 0, 0, 2, 0, 1, 0, 1, 0] ++ [1, 2]

end SSDConfig

end Geniex
