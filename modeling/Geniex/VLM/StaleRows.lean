import Geniex.LLM.InputProvider
import Geniex.Lib.Rows
import Geniex.VLM.InputProvider
import Geniex.VLM.MRoPETable

/-!
# Stale rows

What an input tensor holds after `write`, as a function of what it held before: rows of token ids
and of embeddings, single values of the cos/sin inputs. What is read outside a table is unknown.
`noStaleRows_iff` says when nothing old and nothing unknown is left.
-/

namespace Geniex

open Rows

variable {τ R K : Type}

/-! ## Token ids -/

theorem TokenIdInputProvider.determined [Token τ] (p : TokenIdInputProvider) {g : InputGraph}
    {ctx : RunContext τ} (hinput : g.hasTokenIds = true) :
    Determined g.ar ((p.write g ctx).map (List.map some)) := by
  rw [TokenIdInputProvider.write, if_neg (by simp [hinput])]
  apply determined_of_covers
  · simp only [List.length_map, List.length_append, List.length_take, List.length_replicate]
    omega
  · intro _ r hr
    obtain ⟨id, -, rfl⟩ := List.mem_map.mp hr
    rfl

/-! ## Embeddings -/

section Embeddings

variable [Token τ] {g : InputGraph} {ctx : RunContext τ}

/-- The rows of a pass reach the end of the tensor, and its tokens are in the table. -/
def EmbeddingInputProvider.Covers (p : EmbeddingInputProvider R) (g : InputGraph)
    (ctx : RunContext τ) : Prop :=
  p.table ≠ [] ∧ (g.ar ≤ ctx.tokenIds.length ∨ p.padEmbed.isSome = true) ∧
    (ctx.tokenIds.length ≤ g.ar → ∀ t ∈ ctx.tokenIds, sizeOfInt (Token.id t) < p.table.length)

theorem EmbeddingInputProvider.write_eq (p : EmbeddingInputProvider R)
    (hinput : g.hasEmbeds = true) (htable : p.table ≠ []) :
    p.write g ctx =
      some (padTo g.ar p.padEmbed (ctx.tokenIds.map fun t => p.lookup (Token.id t))) := by
  rw [EmbeddingInputProvider.write, if_neg (by simp [hinput]), if_neg htable]
  cases p.padEmbed with
  | none => rfl
  | some pad =>
    dsimp only [padTo]
    split_ifs with hshort
    · rfl
    · rw [Nat.sub_eq_zero_of_le (Nat.le_of_not_lt hshort), List.replicate_zero, List.append_nil]

theorem EmbeddingInputProvider.determined_iff [Nontrivial R] (p : EmbeddingInputProvider R)
    (hinput : g.hasEmbeds = true) :
    Determined g.ar (p.write g ctx) ↔ g.ar = 0 ∨ p.Covers g ctx := by
  rw [Covers]
  by_cases htable : p.table = []
  · rw [EmbeddingInputProvider.write, if_neg (by simp [hinput]), if_pos htable, Rows.determined_iff]
    simp [htable]
  · rw [p.write_eq hinput htable, determined_padTo_iff, List.length_map]
    simp [EmbeddingInputProvider.lookup, htable]

namespace PrecomputedEmbeddingProvider

variable (p : PrecomputedEmbeddingProvider R) (vocab : ℕ) (g : InputGraph) (ctx : RunContext τ)

/-- The rows that `write` reads in the buffer. -/
def bufferRows : List (Option (Option R)) :=
  (List.range ctx.currLen).map fun j => p.buffer[sizeSub (ctx.nPast + j) p.bufferOffset]?

/-- The rows that `write` reads in a table of `vocab` rows. -/
def tableRows : List (Option (Option R)) :=
  ctx.tokenIds.map fun t =>
    if sizeOfInt (Token.id t) < vocab then some (some (p.table (Token.id t))) else none

/-- `write`, for a table of `vocab` rows: none if it is not loaded. A row that an image has left
unknown is one of the buffer all the same. -/
def writeRows : Option (List (Option (Option R))) :=
  if g.hasEmbeds = false then none
  else if p.buffer ≠ [] ∧ ctx.phase = .prefill then
    some (padTo g.ar (p.padEmbed.map some) (p.bufferRows ctx))
  else if vocab = 0 then none
  else some (p.tableRows vocab ctx)

/-- Where the tokens are in the table, `writeRows` is `write`. -/
theorem writeRows_eq {v : VLMGraph} (hinput : v.hasEmbeds = g.hasEmbeds)
    (hrows : v.embedRows = g.ar) (hvocab : vocab ≠ 0)
    (hids : ∀ t ∈ ctx.tokenIds, sizeOfInt (Token.id t) < vocab) :
    (p.writeRows vocab g ctx).map (List.map Option.join) = p.write v ctx := by
  rw [writeRows, write, hinput, hrows]
  split_ifs with hembeds hbuffer
  · rfl
  · have hmap : (p.bufferRows ctx).map Option.join = (List.range ctx.currLen).map (p.row ctx) := by
      rw [bufferRows, List.map_map]
      refine List.map_congr_left fun j _ => ?_
      rw [row, rowRef, if_pos hbuffer, Function.comp_apply]
    rw [Option.map_some, ← hmap]
    cases p.padEmbed with
    | none => rfl
    | some pad => simp [padTo, bufferRows]
  · refine congrArg some (List.ext_getElem (by simp [tableRows]) fun j hj _ => ?_)
    have hlt : j < ctx.tokenIds.length := by simpa [tableRows] using hj
    simp [tableRows, row, rowRef, hbuffer, hids _ (List.getElem_mem hlt), hlt]

/-- The rows of a pass reach the end of the tensor, and are read in the buffer or in the table.
Rows of the buffer are padded, rows of the table are not. -/
def Covers : Prop :=
  if p.buffer ≠ [] ∧ ctx.phase = .prefill then
    (g.ar ≤ ctx.currLen ∨ p.padEmbed.isSome = true) ∧
      (ctx.currLen ≤ g.ar → ∀ j < ctx.currLen,
        sizeSub (ctx.nPast + j) p.bufferOffset < p.buffer.length)
  else
    vocab ≠ 0 ∧ g.ar ≤ ctx.tokenIds.length ∧
      (ctx.tokenIds.length = g.ar → ∀ t ∈ ctx.tokenIds, sizeOfInt (Token.id t) < vocab)

variable {p vocab g ctx}

theorem determined_iff [Nonempty R] (hinput : g.hasEmbeds = true) :
    Determined g.ar (p.writeRows vocab g ctx) ↔ g.ar = 0 ∨ p.Covers vocab g ctx := by
  rw [writeRows, if_neg (by simp [hinput]), Covers]
  split_ifs with hbuffer hvocab
  · rw [determined_padTo_iff]
    simp [bufferRows]
  · rw [Rows.determined_iff]
    simp [hvocab]
  · rw [Rows.determined_iff]
    simp [hvocab, tableRows]

end PrecomputedEmbeddingProvider

end Embeddings

/-! ## Rotary embeddings -/

/-- Whole rows of `d` values that fill a tensor of `size` values. -/
theorem le_rows_iff (size d n : ℕ) :
    size ≤ max n (if d = 0 then n else size / d) * d ↔ d ∣ size ∨ size ≤ n * d := by
  rcases Nat.eq_zero_or_pos d with rfl | hd
  · simp
  · rw [if_neg hd.ne', max_mul_of_nonneg _ _ (Nat.zero_le d), le_max_iff, or_comm]
    refine or_congr_left ⟨fun h => ?_, fun h => (Nat.div_mul_cancel h).ge⟩
    exact Dvd.intro_left _ (le_antisymm (Nat.div_mul_le_self _ _) h)

namespace RoPEInputProvider

variable [Field K] [LinearOrder K] (F : MathFns K) (p : RoPEInputProvider K) (g : InputGraph)
  (ctx : RunContext τ)

/-- The rows of an input end where its tensor does, or the tokens of the pass reach its end. The
sin input takes as many rows as the cos input, if there is one. -/
structure Covers : Prop where
  cos : g.hasCos = true → p.rope.halfDim ∣ g.cosSize ∨ g.cosSize ≤ ctx.currLen * p.rope.halfDim
  sin : g.hasSin = true → g.hasCos = false →
    p.rope.halfDim ∣ g.sinSize ∨ g.sinSize ≤ ctx.currLen * p.rope.halfDim
  both : g.hasSin = true → g.hasCos = true → ctx.currLen * p.rope.halfDim ≤ g.cosSize →
    g.sinSize ≤ g.cosSize - g.cosSize % p.rope.halfDim

variable {F p g ctx}

omit [LinearOrder K] in
theorem determined_rows_iff {size : ℕ} {ids : List Int32} {row : Int32 → List (Extended K)}
    (hrow : ∀ pos, (row pos).length = p.rope.halfDim) :
    Determined size (some ((ids.map row).flatten.map some)) ↔
      size ≤ ids.length * p.rope.halfDim := by
  have hconst : List.length ∘ row = fun _ => p.rope.halfDim := funext hrow
  rw [determined_map_some_iff, List.length_flatten, List.map_map, hconst, List.map_const',
    List.sum_replicate, smul_eq_mul]

theorem cos_determined_iff (hcos : g.hasCos = true) :
    Determined g.cosSize ((p.writeCos F g ctx).map fun rows => rows.flatten.map some) ↔
      p.rope.halfDim ∣ g.cosSize ∨ g.cosSize ≤ ctx.currLen * p.rope.halfDim := by
  have hrow : ∀ pos, (p.rope.cosRow F pos).length = p.rope.halfDim := fun pos => List.length_map _
  rw [writeCos, if_neg (by simp [hcos]), Option.map_some, determined_rows_iff hrow, positions,
    paddedPositionIds_length, InputGraph.ropeCapacityRows, if_pos hcos, le_rows_iff]

theorem sin_determined_iff (hsin : g.hasSin = true) :
    Determined g.sinSize ((p.writeSin F g ctx).map fun rows => rows.flatten.map some) ↔
      g.sinSize ≤ max ctx.currLen (g.ropeCapacityRows p.rope.halfDim ctx.currLen) *
        p.rope.halfDim := by
  have hrow : ∀ pos, (p.rope.sinRow F pos).length = p.rope.halfDim := fun pos => List.length_map _
  rw [writeSin, if_neg (by simp [hsin]), Option.map_some, determined_rows_iff hrow, positions,
    paddedPositionIds_length]

/-- The rows of the cos input that fit in it, where those of the pass do. -/
theorem max_rows_eq {size d n : ℕ} (h : n * d ≤ size) :
    max n (if d = 0 then n else size / d) * d = size - size % d := by
  rcases Nat.eq_zero_or_pos d with rfl | hd
  · simp
  · have hmod := Nat.div_add_mod size d
    rw [if_neg hd.ne', max_eq_right ((Nat.le_div_iff_mul_le hd).mpr h), Nat.mul_comm]
    omega

/-- A cos input that is too small fails the write before the sin input is written. -/
theorem determined_iff :
    ((g.hasCos = true →
        Determined g.cosSize ((p.writeCos F g ctx).map fun rows => rows.flatten.map some)) ∧
      (g.hasSin = true → (g.hasCos = true → ctx.currLen * p.rope.halfDim ≤ g.cosSize) →
        Determined g.sinSize ((p.writeSin F g ctx).map fun rows => rows.flatten.map some))) ↔
      p.Covers g ctx := by
  constructor
  · rintro ⟨hcos, hsin⟩
    constructor
    · exact fun hinput => (cos_determined_iff hinput).mp (hcos hinput)
    · intro hinput hnone
      have hboth : ¬g.hasCos = true := by simp [hnone]
      have hrows := (sin_determined_iff hinput).mp (hsin hinput fun h => absurd h hboth)
      rwa [InputGraph.ropeCapacityRows, if_neg hboth, le_rows_iff] at hrows
    · intro hinput hboth hfits
      have hrows := (sin_determined_iff hinput).mp (hsin hinput fun _ => hfits)
      rwa [InputGraph.ropeCapacityRows, if_pos hboth, max_rows_eq hfits] at hrows
  · intro h
    refine ⟨fun hinput => (cos_determined_iff hinput).mpr (h.cos hinput), fun hinput hfits => ?_⟩
    rw [sin_determined_iff hinput, InputGraph.ropeCapacityRows]
    by_cases hboth : g.hasCos = true
    · rw [if_pos hboth, max_rows_eq (hfits hboth)]
      exact h.both hinput hboth (hfits hboth)
    · rw [if_neg hboth, le_rows_iff]
      exact h.sin hinput (by simpa using hboth)

end RoPEInputProvider

/-- `MRoPEInputProvider` with the values of its tables: a row for each installed position. -/
structure MRoPEValues (K : Type) extends MRoPEInputProvider where
  rotary : MRoPETable K
  cosTable : List (Extended K)
  sinTable : List (Extended K)
  cos_length : cosTable.length = table.length * rotary.halfDim
  sin_length : sinTable.length = table.length * rotary.halfDim

namespace MRoPEValues

/-- `position_ids`: the three dimensions one after the other. -/
def flatIds (positions : List Position) : List Int32 :=
  positions.map Position.temporal ++ positions.map Position.height ++ positions.map Position.width

section Values

variable [Field K] [LinearOrder K] (F : MathFns K) (p : MRoPEValues K)

/-- `setPositionIds`. -/
def installPositionIds (positions : List Position) (nPastOffset : ℕ) : MRoPEValues K :=
  let tables := p.rotary.fillCosSin F (flatIds positions) positions.length
    (fun i => p.cosTable.getD i (.fin 0)) fun i => p.sinTable.getD i (.fin 0)
  { p with
    toMRoPEInputProvider := p.toMRoPEInputProvider.setPositionIds positions nPastOffset
    cosTable := tables.1
    sinTable := tables.2
    cos_length := by
      simp [tables, MRoPETable.fillCosSin, MRoPEInputProvider.setPositionIds]
    sin_length := by
      simp [tables, MRoPETable.fillCosSin, MRoPEInputProvider.setPositionIds] }

variable (g : InputGraph) (ctx : RunContext τ)

/-- The positions of a pass that takes none from the tables. -/
def decodePositions : List Position :=
  (List.range ctx.currLen).map fun t =>
    .diagonal (Int32.ofNat ctx.nPast + Int32.ofNat t) + p.mropeDeltas

/-- The values of the tokens of a pass: of the table, or `decoded`. -/
def values (table decoded : List (Extended K)) : List (Option (Extended K)) :=
  (List.range ctx.currLen).flatMap fun j => (List.range p.rotary.halfDim).map fun i =>
    match p.rowRef ctx j with
    | .table row => table[row * p.rotary.halfDim + i]?
    | .fallback => decoded[j * p.rotary.halfDim + i]?

/-- `write` of the cos input, padded with the cosine of the identity rotation. -/
def writeCos : Option (List (Option (Extended K))) :=
  if g.hasCos = false then none
  else some (padTo g.cosSize (some (.fin 1)) (p.values ctx p.cosTable
    (p.rotary.fillCosSin F (flatIds (p.decodePositions ctx)) ctx.currLen (fun _ => .fin 0)
      fun _ => .fin 0).1))

def writeSin : Option (List (Option (Extended K))) :=
  if g.hasSin = false then none
  else some (padTo g.sinSize (some (.fin 0)) (p.values ctx p.sinTable
    (p.rotary.fillCosSin F (flatIds (p.decodePositions ctx)) ctx.currLen (fun _ => .fin 0)
      fun _ => .fin 0).2))

/-- The rows of a pass are read inside the tables. -/
def Inside : Prop :=
  p.rotary.halfDim = 0 ∨
    ∀ j < ctx.currLen, ∀ row, p.rowRef ctx j = .table row → row < p.table.length

/-- The rows of a pass that fits are read inside the tables. -/
structure Covers : Prop where
  cos : g.hasCos = true → ctx.currLen * p.rotary.halfDim ≤ g.cosSize → p.Inside ctx
  sin : g.hasSin = true → (g.hasCos = true → ctx.currLen * p.rotary.halfDim ≤ g.cosSize) →
    ctx.currLen * p.rotary.halfDim ≤ g.sinSize → p.Inside ctx

end Values

variable [Field K] [LinearOrder K] {F : MathFns K} {p : MRoPEValues K} {g : InputGraph}
  {ctx : RunContext τ}

omit [Field K] [LinearOrder K] in
theorem values_length (table decoded : List (Extended K)) :
    (p.values ctx table decoded).length = ctx.currLen * p.rotary.halfDim := by
  simp only [values, List.length_flatMap, List.length_map, List.length_range, List.map_const',
    List.sum_replicate, smul_eq_mul]

omit [Field K] [LinearOrder K] in
/-- The values of a pass are known if its rows are those of the tables. -/
theorem values_known_iff {table decoded : List (Extended K)}
    (htable : table.length = p.table.length * p.rotary.halfDim)
    (hdecoded : decoded.length = ctx.currLen * p.rotary.halfDim) :
    (∀ v ∈ p.values ctx table decoded, v.isSome = true) ↔ p.Inside ctx := by
  have hrow : ∀ {i row rows : ℕ}, i < p.rotary.halfDim →
      (row * p.rotary.halfDim + i < rows * p.rotary.halfDim ↔ row < rows) := by
    intro i row rows hi
    refine ⟨fun h => ?_, fun h => FlatMem.row_lt h hi⟩
    by_contra hle
    have := Nat.mul_le_mul_right p.rotary.halfDim (Nat.le_of_not_lt hle)
    omega
  simp only [values, List.mem_flatMap, List.mem_map, List.mem_range, Inside]
  constructor
  · intro h
    rcases Nat.eq_zero_or_pos p.rotary.halfDim with hzero | hpos
    · exact Or.inl hzero
    · refine Or.inr fun j hj row href => ?_
      have hsome := h _ ⟨j, hj, 0, hpos, rfl⟩
      rw [href] at hsome
      exact (hrow hpos).mp (by simpa [htable] using hsome)
  · rintro h v ⟨j, hj, i, hi, rfl⟩
    rcases h with hzero | hinside
    · omega
    · cases href : p.rowRef ctx j with
      | table row =>
        simpa [htable, hrow hi] using hinside j hj row href
      | fallback =>
        simpa [hdecoded, hrow hi] using hj

omit [Field K] [LinearOrder K] in
/-- A row outside the tables is the one that `row` calls so. -/
theorem inside_iff :
    p.Inside ctx ↔ p.rotary.halfDim = 0 ∨ ∀ j < ctx.currLen, p.row ctx j ≠ .outside := by
  refine or_congr_right (forall_congr' fun j => imp_congr_right fun _ => ?_)
  unfold MRoPEInputProvider.row
  cases p.rowRef ctx j with
  | table row =>
    by_cases hlt : row < p.table.length <;> simp [hlt]
  | fallback => simp

omit [LinearOrder K] in
theorem padded_determined_iff {table decoded : List (Extended K)} {size : ℕ} {pad : Extended K}
    (htable : table.length = p.table.length * p.rotary.halfDim)
    (hdecoded : decoded.length = ctx.currLen * p.rotary.halfDim) :
    Determined size (some (padTo size (some pad) (p.values ctx table decoded))) ↔
      (ctx.currLen * p.rotary.halfDim ≤ size → p.Inside ctx) := by
  rw [determined_padTo_iff, values_length, values_known_iff htable hdecoded]
  constructor
  · rintro (rfl | h) hle
    · rcases Nat.mul_eq_zero.mp (Nat.le_zero.mp hle) with hnone | hzero
      · exact Or.inr fun j hj => by omega
      · exact Or.inl hzero
    · exact h.2 hle
  · exact fun h => Or.inr ⟨Or.inr rfl, h⟩

theorem writeCos_determined_iff (hcos : g.hasCos = true) :
    Determined g.cosSize (p.writeCos F g ctx) ↔
      (ctx.currLen * p.rotary.halfDim ≤ g.cosSize → p.Inside ctx) := by
  rw [writeCos, if_neg (by simp [hcos])]
  exact padded_determined_iff p.cos_length (by simp [MRoPETable.fillCosSin])

theorem writeSin_determined_iff (hsin : g.hasSin = true) :
    Determined g.sinSize (p.writeSin F g ctx) ↔
      (ctx.currLen * p.rotary.halfDim ≤ g.sinSize → p.Inside ctx) := by
  rw [writeSin, if_neg (by simp [hsin])]
  exact padded_determined_iff p.sin_length (by simp [MRoPETable.fillCosSin])

/-- A cos input that is too small fails the write before the sin input is written. -/
theorem determined_iff :
    ((g.hasCos = true → Determined g.cosSize (p.writeCos F g ctx)) ∧
      (g.hasSin = true → (g.hasCos = true → ctx.currLen * p.rotary.halfDim ≤ g.cosSize) →
        Determined g.sinSize (p.writeSin F g ctx))) ↔ p.Covers g ctx := by
  constructor
  · rintro ⟨hcos, hsin⟩
    constructor
    · exact fun hinput => (writeCos_determined_iff hinput).mp (hcos hinput)
    · exact fun hinput hfits => (writeSin_determined_iff hinput).mp (hsin hinput hfits)
  · intro h
    constructor
    · exact fun hinput => (writeCos_determined_iff hinput).mpr (h.cos hinput)
    · exact fun hinput hfits => (writeSin_determined_iff hinput).mpr (h.sin hinput hfits)

end MRoPEValues

/-! ## All providers -/

/-- The providers of a model, with the functions that the RoPE table uses. -/
structure InstalledProviders (R K : Type) where
  tokenIds : TokenIdInputProvider
  embedding : EmbeddingInputProvider R
  precomputed : PrecomputedEmbeddingProvider R
  /-- The rows of the table of `precomputed`, 0 where none is loaded. -/
  vocab : ℕ
  fns : MathFns K
  rope : RoPEInputProvider K
  mrope : MRoPEValues K

variable [Token τ] [Field K] [LinearOrder K]

/-- After `write`, no input that a graph has depends on what it held before. -/
structure NoStaleRows (p : InstalledProviders R K) (g : InputGraph) (ctx : RunContext τ) : Prop where
  tokenIds : g.hasTokenIds = true → Determined g.ar ((p.tokenIds.write g ctx).map (List.map some))
  embedding : g.hasEmbeds = true → Determined g.ar (p.embedding.write g ctx)
  precomputed : g.hasEmbeds = true → Determined g.ar (p.precomputed.writeRows p.vocab g ctx)
  rope : (g.hasCos = true → Determined g.cosSize
      ((p.rope.writeCos p.fns g ctx).map fun rows => rows.flatten.map some)) ∧
    (g.hasSin = true → (g.hasCos = true → ctx.currLen * p.rope.rope.halfDim ≤ g.cosSize) →
      Determined g.sinSize ((p.rope.writeSin p.fns g ctx).map fun rows => rows.flatten.map some))
  mrope : (g.hasCos = true → Determined g.cosSize (p.mrope.writeCos p.fns g ctx)) ∧
    (g.hasSin = true → (g.hasCos = true → ctx.currLen * p.mrope.rotary.halfDim ≤ g.cosSize) →
      Determined g.sinSize (p.mrope.writeSin p.fns g ctx))

/-- The rows of every provider reach the end of their tensors and are read inside their tables. -/
structure InstalledProviders.Cover (p : InstalledProviders R K) (g : InputGraph)
    (ctx : RunContext τ) : Prop where
  embedding : g.hasEmbeds = true → g.ar = 0 ∨ p.embedding.Covers g ctx
  precomputed : g.hasEmbeds = true → g.ar = 0 ∨ p.precomputed.Covers p.vocab g ctx
  rope : p.rope.Covers g ctx
  mrope : p.mrope.Covers g ctx

section Tiny

def tinyFns : MathFns ℚ := ⟨id, id, fun _ _ => 1, id, id⟩

def tinyRotary : MRoPETable ℚ := .new tinyFns [1, 1, 0] 1 .block

theorem tinyTable_length :
    ([] : List (Extended ℚ)).length = ([] : List Position).length * tinyRotary.halfDim := rfl

/-- Providers with a table of two rows, a padding row and rows of two cosines. -/
def tinyProviders : InstalledProviders ℕ ℚ where
  tokenIds := ⟨0⟩
  embedding := EmbeddingInputProvider.onInitialized ⟨[10, 11], none⟩ [1]
  precomputed := ⟨fun id => sizeOfInt id, some 1, [], 0⟩
  vocab := 2
  fns := tinyFns
  rope := ⟨⟨[.fin 1, .fin 1], .fin 1⟩⟩
  mrope := ⟨⟨[], false, 0, 0⟩, tinyRotary, [], [], tinyTable_length, tinyTable_length⟩

/-- A graph for passes of two tokens. -/
def tinyInputGraph : InputGraph := ⟨2, true, true, true, true, 4, 4⟩

end Tiny

end Geniex
