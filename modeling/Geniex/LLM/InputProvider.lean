import Geniex.LLM.Rope

/-!
# The input providers of a language model

`TokenIdInputProvider`, `EmbeddingInputProvider` and the four RoPE providers: the rows that `write`
gives to `Graph::write`, from the first row of the tensor on, or `none` where it writes nothing. A
row that is read outside its table is `none`.
-/

namespace Geniex

/-- `static_cast<size_t>` of an `int`. -/
def sizeOfInt (n : Int32) : ℕ := (n.toInt % 2 ^ 64).toNat

/-- The inputs of a graph: `ar` token ids, `ar` rows of `hidden_size` values, and the numbers of
values of the cos and the sin input. -/
structure InputGraph where
  ar : ℕ
  hasTokenIds : Bool
  hasEmbeds : Bool
  hasCos : Bool
  hasSin : Bool
  cosSize : ℕ
  sinSize : ℕ

variable {τ R K : Type}

/-! ## Token ids -/

/-- `TokenIdInputProvider`. -/
structure TokenIdInputProvider where
  padTokenId : Int32 := 0

/-- The ids that fit, padded to the capacity. -/
def TokenIdInputProvider.write [Token τ] (p : TokenIdInputProvider) (g : InputGraph)
    (ctx : RunContext τ) : Option (List Int32) :=
  if g.hasTokenIds = false then none
  else
    let n := min ctx.tokenIds.length g.ar
    some ((ctx.tokenIds.take n).map Token.id ++ List.replicate (g.ar - n) p.padTokenId)

/-! ## Embeddings -/

/-- `EmbeddingInputProvider`. The table and the padding row may be empty. -/
structure EmbeddingInputProvider (R : Type) where
  table : List R
  padEmbed : Option R

namespace EmbeddingInputProvider

variable (p : EmbeddingInputProvider R)

/-- The row of a token, which no check keeps inside the table. -/
def lookup (id : Int32) : Option R := p.table[sizeOfInt id]?

/-- `onInitialized`, after the table is loaded. -/
def onInitialized (eosTokenIds : List Int32) : EmbeddingInputProvider R :=
  let padId := eosTokenIds.headD 0
  if p.padEmbed.isNone ∧ p.table ≠ [] ∧ 0 ≤ padId ∧ sizeOfInt padId < p.table.length then
    { p with padEmbed := p.lookup padId }
  else p

/-- The rows of the tokens, padded if there is a padding row. -/
def write [Token τ] (g : InputGraph) (ctx : RunContext τ) : Option (List (Option R)) :=
  if g.hasEmbeds = false then none
  else if p.table = [] then none
  else
    let embeds := ctx.tokenIds.map fun t => p.lookup (Token.id t)
    match p.padEmbed with
    | some pad =>
      if embeds.length < g.ar then
        some (embeds ++ List.replicate (g.ar - embeds.length) (some pad))
      else some embeds
    | none => some embeds

end EmbeddingInputProvider

/-! ## Positions -/

/-- `paddedPositionIds(n_past, curr_len, capacity_rows)`. -/
def paddedPositionIds (nPast currLen capacityRows : ℕ) : List Int32 :=
  (List.range (max currLen capacityRows)).map fun i =>
    if i < currLen then Int32.ofNat (nPast + i) else 0

theorem paddedPositionIds_length (nPast currLen capacityRows : ℕ) :
    (paddedPositionIds nPast currLen capacityRows).length = max currLen capacityRows := by
  rw [paddedPositionIds, List.length_map, List.length_range]

/-- `ropeCapacityRows(g, has_cos ? cos_name : sin_name, half_dim, curr_len)`: the rows of `half_dim`
values that fit. -/
def InputGraph.ropeCapacityRows (g : InputGraph) (halfDim currLen : ℕ) : ℕ :=
  if halfDim = 0 then currLen else (if g.hasCos then g.cosSize else g.sinSize) / halfDim

/-- `RoPEInputProvider`, `LongRoPEInputProvider`, `Llama3RoPEInputProvider` and
`PartialRoPEInputProvider`, which differ in their tables only. -/
structure RoPEInputProvider (K : Type) where
  rope : RotaryTable K

namespace RoPEInputProvider

variable [Field K] [LinearOrder K] (F : MathFns K) (p : RoPEInputProvider K) (g : InputGraph)
  (ctx : RunContext τ)

/-- The positions whose rows are written. -/
def positions : List Int32 :=
  paddedPositionIds ctx.nPast ctx.currLen (g.ropeCapacityRows p.rope.halfDim ctx.currLen)

/-- The rows of the cos input, whose values are written one after the other. -/
def writeCos : Option (List (List (Extended K))) :=
  if g.hasCos = false then none else some ((p.positions g ctx).map (p.rope.cosRow F))

def writeSin : Option (List (List (Extended K))) :=
  if g.hasSin = false then none else some ((p.positions g ctx).map (p.rope.sinRow F))

end RoPEInputProvider

end Geniex
