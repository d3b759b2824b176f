import Geniex.Lib.Extended
import Geniex.Types

/-!
# Rotary embeddings

The classes that compute the cos/sin rows of a position, and the choice among them by the
configuration of a bundle. Arithmetic is exact over an ordered field `K`, with the infinities and
the NaN that a division by zero leads to; the functions of `<cmath>` are parameters.

The four classes differ in their frequencies and in a factor, and share `forward`.
-/

namespace Geniex

/-- The functions of `<cmath>`. The cosine and the sine of what is no number are NaN; a logarithm
and a root may be taken of an infinity. -/
structure MathFns (K : Type) where
  cos : K → K
  sin : K → K
  pow : K → K → K
  log : Extended K → Extended K
  sqrt : Extended K → Extended K

/-- A rotary embedding after its constructor: `inv_freq_` and the factor of both rows. -/
structure RotaryTable (K : Type) where
  invFreq : List (Extended K)
  scale : Extended K

/-! ## Rows -/

namespace RotaryTable

variable {K : Type} [Field K] [LinearOrder K] (F : MathFns K) (r : RotaryTable K)

def halfDim : ℕ := r.invFreq.length

/-- The row of cosines for a position. -/
def cosRow (pos : Int32) : List (Extended K) :=
  r.invFreq.map fun f => (.fin (pos.toInt : K) * f).apply F.cos * r.scale

/-- The row of sines for a position. -/
def sinRow (pos : Int32) : List (Extended K) :=
  r.invFreq.map fun f => (.fin (pos.toInt : K) * f).apply F.sin * r.scale

/-- `forward(position_ids)`. -/
def forward (positionIds : List Int32) : List (Extended K) × List (Extended K) :=
  (positionIds.flatMap (r.cosRow F), positionIds.flatMap (r.sinRow F))

end RotaryTable

/-! ## Classes -/

section Classes

variable {K : Type} [Field K] [LinearOrder K] (F : MathFns K)

/-- The frequencies of a plain table over `ropeDim` dimensions. -/
def plainFreq (ropeDim : ℕ) (theta : ℚ) (i : ℕ) : Extended K :=
  .fin 1 / .fin (F.pow (theta : K) (((i * 2 : ℕ) : K) * (1 / (ropeDim : K))))

/-- `RotaryEmbedding`. -/
def RotaryEmbedding (headDim : ℕ) (theta : ℚ) : RotaryTable K where
  invFreq := (List.range (headDim / 2)).map (plainFreq F headDim theta)
  scale := .fin 1

/-- `PartialRoPEEmbedding`. -/
def PartialRoPEEmbedding (headDim : ℕ) (theta ropeFraction scale : ℚ) : RotaryTable K :=
  let ropeDim := ⌊(headDim : ℚ) * ropeFraction⌋₊
  { invFreq := (List.range (ropeDim / 2)).map (plainFreq F ropeDim theta)
    scale := .fin (scale : K) }

/-- The factor of `LongRoPEEmbedding::forward`. -/
def longRoPEScale (maxPositionEmbeddings originalMaxPositionEmbeddings : Int32) : Extended K :=
  let scaleRatio : Extended K := .fin (maxPositionEmbeddings.toInt : K) /
    .fin (originalMaxPositionEmbeddings.toInt : K)
  if scaleRatio ≤ .fin 1 then .fin 1
  else F.sqrt (.fin 1 + F.log scaleRatio / F.log (.fin (originalMaxPositionEmbeddings.toInt : K)))

/-- `LongRoPEEmbedding`. -/
def LongRoPEEmbedding (headDim : ℕ) (theta : ℚ) (extFactors : List ℚ)
    (maxPositionEmbeddings originalMaxPositionEmbeddings : Int32) : RotaryTable K where
  invFreq := (List.range (headDim / 2)).map fun i : ℕ =>
    .fin 1 / .fin ((extFactors.getD i 1 : K) *
      F.pow (theta : K) (((i * 2 : ℕ) : K) / (headDim : K)))
  scale := longRoPEScale F maxPositionEmbeddings originalMaxPositionEmbeddings

/-- `kPi`. -/
def kPi : K := 314159265358979323846 / 10 ^ 20

/-- The frequency scaling of `Llama3RoPEEmbedding`, for a frequency and the power that it is the
inverse of. -/
def llama3Freq (factor lowFreqFactor highFreqFactor oldCtx power : K) : Extended K :=
  let lowFreqWavelen : Extended K := .fin oldCtx / .fin lowFreqFactor
  let highFreqWavelen : Extended K := .fin oldCtx / .fin highFreqFactor
  let invFreq : Extended K := .fin 1 / .fin power
  let wavelen : Extended K := .fin (2 * kPi) / invFreq
  if wavelen < highFreqWavelen then invFreq
  else if lowFreqWavelen < wavelen then .fin 1 / .fin (factor * power)
  else
    let smooth : Extended K := (.fin oldCtx / wavelen - .fin lowFreqFactor) /
      .fin (highFreqFactor - lowFreqFactor)
    (.fin 1 - smooth) * invFreq / .fin factor + smooth * invFreq

/-- `Llama3RoPEEmbedding`. -/
def Llama3RoPEEmbedding (headDim : ℕ) (theta factor lowFreqFactor highFreqFactor : ℚ)
    (originalMaxPositionEmbeddings : Int32) : RotaryTable K where
  invFreq := (List.range (headDim / 2)).map fun j : ℕ =>
    llama3Freq (factor : K) (lowFreqFactor : K) (highFreqFactor : K)
      (originalMaxPositionEmbeddings.toInt : K)
      (F.pow (theta : K) ((j : K) * (1 / ((headDim / 2 : ℕ) : K))))
  scale := .fin 1

end Classes

/-! ## The choice -/

/-- `RopeScaling`. -/
inductive RopeScaling
  | standard
  | llama3 (factor lowFreqFactor highFreqFactor : ℚ) (originalMaxPositionEmbeddings : ℕ)
  | longRope (longFactor : List ℚ) (originalMaxPositionEmbeddings : ℕ)
  | partialRope (ropeFraction scale : ℚ)
  | mrope
  deriving DecidableEq, Repr

/-- `ParsedGenieConfig`: the fields that choose the table. -/
structure ParsedGenieConfig where
  ropeTheta : ℚ := 10000
  ropeScaling : RopeScaling := .standard

/-- The table of the provider that `makeRoPEProvider` makes. -/
def makeRoPEProvider {K : Type} [Field K] [LinearOrder K] (F : MathFns K) (headDim : ℕ)
    (gc : ParsedGenieConfig) : RotaryTable K :=
  match gc.ropeScaling with
  | .llama3 factor low high orig =>
    Llama3RoPEEmbedding F headDim gc.ropeTheta factor low high (Int32.ofNat orig)
  | .longRope longFactor orig =>
    let orig := if orig ≠ 0 then orig else 4096
    LongRoPEEmbedding F headDim gc.ropeTheta longFactor 131072 (Int32.ofNat orig)
  | .partialRope fraction scale => PartialRoPEEmbedding F headDim gc.ropeTheta fraction scale
  | .mrope => RotaryEmbedding F headDim gc.ropeTheta
  | .standard => RotaryEmbedding F headDim gc.ropeTheta

end Geniex
