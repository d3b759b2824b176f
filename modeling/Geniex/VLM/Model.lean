import Geniex.LLM.Operations
import Geniex.VLM.InputProvider

/-!
# Vision-language models

`VLMModel::generate` over an `LLMModel`, with the overrides of `Qwen25VLModel` and `Qwen3VLModel`.
The vision encoder is a parameter of the environment. `Qwen25VLModel` has no DeepStack provider, and
it does not override `resetKVCache`.
-/

namespace Geniex

open Prog

/-- `PixelData`, with values dequantised. -/
structure PixelData where
  pixelValues : List ℚ
  imageGridThw : List ImageGrid

/-- `VLMInput`. -/
structure VLMInput where
  pixelData : PixelData

/-- The subclasses of `VLMModel`. -/
inductive VLMClass
  | qwen25VL
  | qwen3VL
  deriving DecidableEq, Repr

/-- What `makeModel` wires into a model. -/
structure VLMSettings where
  cls : VLMClass
  imageTokenId : Int32
  visionStartToken : Int32
  spatialMergeSize : Int32

/-- Parameters of an instance: those of an `LLMModel`, the inputs of the graphs, and
`VisionEncoder::encode`, with the image features and the DeepStack levels or an error message. -/
structure VLMEnv (τ R : Type) where
  exec : ℕ → ℕ → ExecIn (VLMInputs R) → Option GraphOut
  sample : GenerationConfig → List (SamplerCall τ) → List ℚ → Int32
  nWorkers : ℕ
  clockKeeperThreads : ℕ
  finishes : ℕ → KVJob → Bool
  graphs : ℕ → VLMGraph
  encode : PixelData → Except String (List R × List (List R))

variable {τ R : Type} [Token τ]

/-- The environment of the underlying `LLMModel`. -/
def VLMEnv.toEnv (env : VLMEnv τ R) : Env τ (VLMState R) (VLMInputs R) where
  exec := env.exec
  sample := env.sample
  write := VLMState.write env.graphs
  nWorkers := env.nWorkers
  clockKeeperThreads := env.clockKeeperThreads
  finishes := env.finishes

/-! ## Preparing the providers -/

/-- The loop of `maskedScatter`, from the given row of the multimodal embeddings. -/
def scatterFrom (multimodal : List R) (targetTokenId : Int32) :
    ℕ → List Int32 → List (Option R) → List (Option R)
  | srcRow, id :: ids, e :: es =>
    if id = targetTokenId then
      multimodal[srcRow]? :: scatterFrom multimodal targetTokenId (srcRow + 1) ids es
    else e :: scatterFrom multimodal targetTokenId srcRow ids es
  | _, _, es => es

/-- `VLMModel::maskedScatter`. -/
def maskedScatter (inputEmbeds : List (Option R)) (multimodalEmbeds : List R)
    (inputIds : List Int32) (targetTokenId : Int32) : List (Option R) :=
  scatterFrom multimodalEmbeds targetTokenId 0 inputIds inputEmbeds

namespace VLMState

variable (s : VLMSettings) (ids : List Int32) (input : VLMInput) (nPast : ℕ) (p : VLMState R)

/-- `deepstack_provider_->setEmbeds(...)`, where there is a provider. -/
def setDeepstackEmbeds (levels : List (List R)) : VLMState R :=
  { p with deepstackProvider := p.deepstackProvider.map (·.setEmbeds levels) }

/-- The positions of a prompt, shared by the two `preparePositions`. -/
def prepareMRoPE : VLMState R :=
  let mrope := computeMRoPEPositions ids input.pixelData.imageGridThw []
    ⟨s.spatialMergeSize, s.visionStartToken, s.imageTokenId, 0, 0⟩
  let offset := Position.diagonal (Int32.ofNat nPast) + p.mropeDeltas
  let deltas := p.mropeDeltas + mrope.deltas
  { p with
    mropeProvider := (p.mropeProvider.setPositionIds (mrope.positionIds.map (· + offset))
      nPast).setMropeDeltas deltas
    mropeDeltas := deltas }

/-- The visual mask of a prompt, where there is a DeepStack provider. -/
def prepareVisualMask : VLMState R :=
  { p with
    deepstackProvider := p.deepstackProvider.map
      (·.setVisualMask (ids.map (decide <| · = s.imageTokenId)) nPast) }

/-- `preparePositions(input_ids, vlm_input, n_past)`. -/
def preparePositions : VLMState R :=
  match s.cls with
  | .qwen25VL => prepareMRoPE s ids input nPast p
  | .qwen3VL => prepareMRoPE s ids input nPast (prepareVisualMask s ids nPast p)

/-- `clearPositions()`. -/
def clearPositions : VLMState R :=
  { p with
    mropeProvider := p.mropeProvider.clearPositionIds
    deepstackProvider := p.deepstackProvider.map fun _ => .cleared }

def setBuffer (embeds : List (Option R)) : VLMState R :=
  { p with embProvider := p.embProvider.setBuffer embeds nPast }

def clearBuffer : VLMState R := { p with embProvider := p.embProvider.clearBuffer }

/-- What `Qwen3VLModel::resetKVCache` adds to `LLMModel::resetKVCache`. -/
def resetPositions : VLMState R :=
  let p := p.clearPositions
  { p with mropeDeltas := 0, mropeProvider := p.mropeProvider.resetMropeDeltas }

end VLMState

/-! ## The call -/

variable (spec : LLMSpec) (s : VLMSettings) (env : VLMEnv τ R)

/-- A program over a vision-language model. -/
abbrev VLMRun (τ R α : Type) : Type := Run τ (VLMState R) (VLMInputs R) α

/-- Update the providers. -/
def modifyProviders (f : VLMState R → VLMState R) : VLMRun τ R Unit :=
  Prog.modify fun w => { w with providers := f w.providers }

/-- `encodeVision(pixel_data)`. -/
def encodeVision (pixelData : PixelData) : VLMRun τ R (List R) :=
  match env.encode pixelData with
  | .error msg => Prog.throw (.visionFailed msg)
  | .ok (features, levels) => do
    modifyProviders (·.setDeepstackEmbeds levels)
    pure features

/-- The embeddings of a prompt, with the image features scattered into them. -/
def embedPrompt (ids : List Int32) (input : VLMInput) : VLMRun τ R (List (Option R)) := do
  let w ← Prog.get
  let textEmbeds := w.providers.embProvider.lookupBatch ids
  if input.pixelData.pixelValues = [] then pure textEmbeds
  else do
    let visionEmbeds ← encodeVision env input.pixelData
    pure (maskedScatter textEmbeds visionEmbeds ids s.imageTokenId)

/-- The part of `VLMModel::generate` before `LLMModel::generate`. -/
def prepareInputs (prompt : List τ) (input : VLMInput) : VLMRun τ R Unit := do
  -- `text_embeds.size() / prompt_tokens.size()`
  Prog.when (prompt = []) (Prog.throw .divisionByZero)
  let embeds ← embedPrompt s env (prompt.map Token.id) input
  let w ← Prog.get
  modifyProviders (·.setBuffer w.nPast embeds)
  modifyProviders (·.preparePositions s (prompt.map Token.id) input w.nPast)

/-- `VLMModel::generate`. -/
def vlmGenerate (prompt : List τ) (input : VLMInput) (cfg : GenerationConfig)
    (callback : List Int32 → CallbackAnswer) : VLMRun τ R (List τ) := do
  prepareInputs s env prompt input
  let result ← generate spec env.toEnv prompt cfg callback
  modifyProviders (·.clearBuffer)
  modifyProviders (·.clearPositions)
  pure result

/-- `resetKVCache()`: overridden by `Qwen3VLModel` only. -/
def vlmResetKVCache (w : World τ (VLMState R) (VLMInputs R)) :
    World τ (VLMState R) (VLMInputs R) :=
  match s.cls with
  | .qwen25VL => resetKVCache spec w
  | .qwen3VL =>
    let w := resetKVCache spec w
    { w with providers := w.providers.resetPositions }

/-- The providers of a new model: `Qwen3VLModel` has a DeepStack provider. -/
def newProviders (table : Int32 → R) (padEmbed : Option R) : VLMState R where
  embProvider := ⟨table, padEmbed, [], 0⟩
  mropeProvider := ⟨[], false, 0, 0⟩
  deepstackProvider :=
    match s.cls with
    | .qwen25VL => none
    | .qwen3VL => some .cleared
  mropeDeltas := 0

end Geniex
