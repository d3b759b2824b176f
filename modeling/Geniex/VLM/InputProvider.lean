import Geniex.LLM.World
import Geniex.VLM.Positions

/-!
# The input providers of a vision-language model

`PrecomputedEmbeddingProvider`, `MRoPEInputProvider` and `DeepstackInputProvider`: what is installed
in them for a prompt and what they write into a graph. A row of embeddings is opaque, and a row of
the cos/sin tables is known by its position. A row that is read outside its table is `none`.

Each provider finds the row of token `j` of a pass through a `RowRef`; `write` is defined from it.
-/

namespace Geniex

/-- `a - b` in `size_t`. -/
def sizeSub (a b : ℕ) : ℕ := (a + (2 ^ 64 - b % 2 ^ 64)) % 2 ^ 64

theorem sizeSub_of_le {a b : ℕ} (h : b ≤ a) (ha : a < 2 ^ 64) : sizeSub a b = a - b := by
  unfold sizeSub
  rw [Nat.mod_eq_of_lt (by omega : b < 2 ^ 64),
    show a + (2 ^ 64 - b) = a - b + 2 ^ 64 by omega, Nat.add_mod_right,
    Nat.mod_eq_of_lt (by omega)]

theorem sizeSub_of_lt {a b : ℕ} (h : a < b) (hb : b < 2 ^ 64) : sizeSub a b = a + 2 ^ 64 - b := by
  unfold sizeSub
  rw [Nat.mod_eq_of_lt hb, Nat.mod_eq_of_lt (by omega)]
  omega

/-- Which row serves a token: a row of the installed table, or the fallback. -/
inductive RowRef
  | table (index : ℕ)
  | fallback
  deriving DecidableEq, Repr

/-- The inputs that a graph has, and their sizes in rows. -/
structure VLMGraph where
  hasEmbeds : Bool
  embedRows : ℕ
  hasCos : Bool
  hasSin : Bool
  ropeRows : ℕ
  hasVisualMask : Bool
  maskRows : ℕ
  hasDeepstack : ℕ → Bool
  deepstackRows : ℕ

variable {τ R : Type}

/-! ## Embeddings -/

/-- `PrecomputedEmbeddingProvider`, with a loaded table. -/
structure PrecomputedEmbeddingProvider (R : Type) where
  table : Int32 → R
  /-- Empty when the padding token is not in the table. -/
  padEmbed : Option R
  buffer : List (Option R)
  bufferOffset : ℕ

namespace PrecomputedEmbeddingProvider

variable (p : PrecomputedEmbeddingProvider R)

def lookupBatch (ids : List Int32) : List (Option R) := ids.map fun id => some (p.table id)

def setBuffer (embeds : List (Option R)) (nPastOffset : ℕ) : PrecomputedEmbeddingProvider R :=
  { p with buffer := embeds, bufferOffset := nPastOffset }

def clearBuffer : PrecomputedEmbeddingProvider R := { p with buffer := [], bufferOffset := 0 }

/-- The row at `buffer_.data() + (n_past - buffer_offset_) * hidden_size_`, `j` rows on. -/
def rowRef (ctx : RunContext τ) (j : ℕ) : RowRef :=
  if p.buffer ≠ [] ∧ ctx.phase = .prefill then .table (sizeSub (ctx.nPast + j) p.bufferOffset)
  else .fallback

/-- The embedding of token `j`. -/
def row [Token τ] (ctx : RunContext τ) (j : ℕ) : Option R :=
  match p.rowRef ctx j with
  | .table i => (p.buffer[i]?).join
  | .fallback => ctx.tokenIds[j]?.map fun t => p.table (Token.id t)

/-- The rows that `write` writes, from the first row of the tensor on. -/
def write [Token τ] (g : VLMGraph) (ctx : RunContext τ) : Option (List (Option R)) :=
  if g.hasEmbeds = false then none
  else if p.buffer ≠ [] ∧ ctx.phase = .prefill then
    let rows := (List.range ctx.currLen).map (p.row ctx)
    match p.padEmbed with
    | some pad => some (rows ++ List.replicate (g.embedRows - ctx.currLen) (some pad))
    | none => some rows
  else some ((List.range ctx.tokenIds.length).map (p.row ctx))

end PrecomputedEmbeddingProvider

/-! ## Positions -/

/-- A row of the cos/sin inputs. -/
inductive RopeRow
  | rotation (p : Position)
  | outside
  | identity
  deriving DecidableEq, Repr

/-- `MRoPEInputProvider`. The cos/sin tables are kept as the positions they are computed from. -/
structure MRoPEInputProvider where
  table : List Position
  hasPrefillPositions : Bool
  positionOffset : ℕ
  mropeDeltas : Position

namespace MRoPEInputProvider

variable (p : MRoPEInputProvider)

def setPositionIds (positionIds : List Position) (nPastOffset : ℕ) : MRoPEInputProvider :=
  { p with table := positionIds, positionOffset := nPastOffset, hasPrefillPositions := true }

def clearPositionIds : MRoPEInputProvider :=
  { p with hasPrefillPositions := false, positionOffset := 0, table := [] }

def setMropeDeltas (deltas : Position) : MRoPEInputProvider := { p with mropeDeltas := deltas }

def resetMropeDeltas : MRoPEInputProvider := { p with mropeDeltas := 0 }

/-- The row at `cos_table_.data() + (n_past - position_offset_) * half_dim_`, `j` rows on. -/
def rowRef (ctx : RunContext τ) (j : ℕ) : RowRef :=
  if p.hasPrefillPositions = true ∧ ctx.phase = .prefill then
    .table (sizeSub (ctx.nPast + j) p.positionOffset)
  else .fallback

/-- The rotation of token `j`: from the table, or the sequential position. -/
def row (ctx : RunContext τ) (j : ℕ) : RopeRow :=
  match p.rowRef ctx j with
  | .table i =>
    match p.table[i]? with
    | some q => .rotation q
    | none => .outside
  | .fallback =>
    .rotation (.diagonal (Int32.ofNat ctx.nPast + Int32.ofNat j) + p.mropeDeltas)

/-- Both inputs are padded with the identity rotation. -/
def write (g : VLMGraph) (ctx : RunContext τ) : List RopeRow :=
  (List.range ctx.currLen).map (p.row ctx) ++ List.replicate (g.ropeRows - ctx.currLen) .identity

end MRoPEInputProvider

/-! ## DeepStack -/

/-- `DeepstackInputProvider`. -/
structure DeepstackInputProvider (R : Type) where
  embeds : List (List R)
  mask : List Bool
  maskOffset : ℕ

namespace DeepstackInputProvider

variable (p : DeepstackInputProvider R)

def setEmbeds (levels : List (List R)) : DeepstackInputProvider R := { p with embeds := levels }

def setVisualMask (mask : List Bool) (nPastOffset : ℕ) : DeepstackInputProvider R :=
  { p with mask := mask, maskOffset := nPastOffset }

/-- The provider after `clear()`. -/
def cleared : DeepstackInputProvider R := ⟨[], [], 0⟩

/-- `is_visual_prefill`. -/
def IsVisualPrefill (ctx : RunContext τ) : Prop :=
  ctx.phase = .prefill ∧ p.mask ≠ [] ∧ p.maskOffset ≤ ctx.nPast

instance (ctx : RunContext τ) : Decidable (p.IsVisualPrefill ctx) := by
  unfold IsVisualPrefill
  infer_instance

/-- The entry of the mask for token `j`. -/
def rowRef (ctx : RunContext τ) (j : ℕ) : RowRef :=
  if p.IsVisualPrefill ctx ∧ ctx.nPast - p.maskOffset + j < p.mask.length then
    .table (ctx.nPast - p.maskOffset + j)
  else .fallback

/-- Whether token `j` is marked as visual. -/
def marked (ctx : RunContext τ) (j : ℕ) : Bool :=
  match p.rowRef ctx j with
  | .table i => p.mask.getD i false
  | .fallback => false

/-- The mask of the chunk, zero beyond its tokens. -/
def writeMask (g : VLMGraph) (ctx : RunContext τ) : List Bool :=
  (List.range g.maskRows).map fun j => decide (j < ctx.currLen) && p.marked ctx j

/-- `visual_offset`: the visual tokens before the chunk. -/
def visualOffset (ctx : RunContext τ) : ℕ :=
  if p.IsVisualPrefill ctx then (p.mask.take (ctx.nPast - p.maskOffset)).count true else 0

/-- A level of features from the first row of the chunk on, padded with zeros (`none`). -/
def writeLevel (g : VLMGraph) (ctx : RunContext τ) (level : List R) : List (Option R) :=
  let rows := if p.IsVisualPrefill ctx then (level.drop (p.visualOffset ctx)).take g.deepstackRows
    else []
  rows.map some ++ List.replicate (g.deepstackRows - rows.length) none

end DeepstackInputProvider

/-! ## What a vision-language model adds -/

/-- What a vision-language model adds to an `LLMModel`: its input providers and its own
`mrope_deltas_`. -/
structure VLMState (R : Type) where
  embProvider : PrecomputedEmbeddingProvider R
  mropeProvider : MRoPEInputProvider
  deepstackProvider : Option (DeepstackInputProvider R)
  mropeDeltas : Position

/-- What the providers write into a graph. An input that a graph lacks is `none`. -/
structure VLMInputs (R : Type) where
  embeds : Option (List (Option R))
  cos : Option (List RopeRow)
  sin : Option (List RopeRow)
  visualMask : Option (List Bool)
  deepstack : List (Option (List (Option R)))

namespace VLMState

variable [Token τ]

/-- The `write` of every provider. -/
def write (graphs : ℕ → VLMGraph) (p : VLMState R) (gi : ℕ) (ctx : RunContext τ) : VLMInputs R where
  embeds := p.embProvider.write (graphs gi) ctx
  cos := if (graphs gi).hasCos then some (p.mropeProvider.write (graphs gi) ctx) else none
  sin := if (graphs gi).hasSin then some (p.mropeProvider.write (graphs gi) ctx) else none
  visualMask :=
    match p.deepstackProvider with
    | some d => if (graphs gi).hasVisualMask then some (d.writeMask (graphs gi) ctx) else none
    | none => none
  deepstack :=
    match p.deepstackProvider with
    | some d =>
      if (graphs gi).hasVisualMask then
        d.embeds.mapIdx fun k level =>
          if (graphs gi).hasDeepstack k then some (d.writeLevel (graphs gi) ctx level) else none
      else []
    | none => []

end VLMState

end Geniex
