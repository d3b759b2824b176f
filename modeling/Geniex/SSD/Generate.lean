import Geniex.LLM.File
import Geniex.SSD.Tree

/-!
# Self-speculative decoding

`SSDModel`: an `LLMModel` whose `generate` drafts a tree of tokens in each forward pass, accepts
the path that greedy decoding confirms, and commits the KV columns of that path. The order of the
definitions is the order of the calls, innermost first.

An instance is a `World` over `int32_t` tokens. It never samples with a sampler, never promotes the
context length, and uses no decode pool.
-/

namespace Geniex

open Prog FlatMem

variable {ρ I : Type}

namespace SSDConfig

variable (ssd : SSDConfig) (spec : LLMSpec) (env : Env Int32 ρ I)

/-! ## One forward pass -/

/-- The inputs of an execution: the mask and the position ids are this class's own. -/
def execInput (shard : ℕ) (phase : Phase) (clIdx : ℕ) (ctx : RunContext Int32) (mask : ℕ → ℤ)
    (positions : List Int32) (w : World Int32 ρ I) : ExecIn I :=
  { Geniex.execInput spec env shard phase clIdx ctx w with
    mask := if spec.hasAttentionMask shard then some mask else none
    positions := some positions }

/-- `"SSD prefill execute failed: ..."` -/
def prefillFailedMsg (shard : ℕ) : String := "SSD prefill execute failed: shard=" ++ toString shard

/-- `"SSD graph execute failed: ..."` -/
def executeFailedMsg (phase : Phase) (shard : ℕ) : String :=
  "SSD graph execute failed: phase=" ++ toString phase.index ++ " shard=" ++ toString shard

/-- `"Graph::write overflow on graph ..."`, up to the names and the sizes. -/
def writeOverflowMsg : String := "Graph::write overflow"

/-- The write of the cos and sin rows, which throws if they are more than the inputs have. -/
def writeCosSin (phase : Phase) (shard numTokens : ℕ) : Run Int32 ρ I Unit :=
  Prog.when (spec.hasCosSin shard = true ∧ spec.seqLen phase < numTokens)
    (Prog.throw (.executeFailed writeOverflowMsg))

/-- A shard's part of a forward pass, up to its execution. -/
def runShard (phase : Phase) (clIdx : ℕ) (ctx : RunContext Int32) (mask : ℕ → ℤ)
    (positions : List Int32) (msg : String) (shard : ℕ) : Run Int32 ρ I Unit := do
  writeCosSin spec phase shard ctx.currLen
  let w ← Prog.get
  execGraph spec env shard phase clIdx ctx
    (execInput spec env shard phase clIdx ctx mask positions w) (.executeFailed msg)

/-- A shard's part of a tree pass. -/
def treeShard (clIdx : ℕ) (ctx : RunContext Int32) (mask : ℕ → ℤ) (positions : List Int32)
    (s : ℕ) : Run Int32 ρ I Unit := do
  runShard spec env .decode clIdx ctx mask positions (executeFailedMsg .decode s) s
  Prog.when (s + 1 < spec.shardCount) (Prog.modify (applyConnection spec .decode s clIdx))

/-- `runShardsWithTreeMask(tokens, /*phase=*/1, n_past, kv_prefix_offset)`. -/
def runShardsWithTreeMask (tokens : List Int32) (kvPrefixOffset : ℕ) : Run Int32 ρ I Unit := do
  let w ← Prog.get
  let kvLen := spec.kvLen .decode w.activeClIdx
  Prog.modify (World.log (.step .decode w.nPast tokens.length))
  Prog.forRange spec.shardCount
    (treeShard spec env w.activeClIdx ⟨tokens, w.nPast, tokens.length, .decode⟩
      (ssd.buildTreeAttentionMask w.nPast tokens.length spec.seqLenDecode kvLen kvPrefixOffset)
      (ssd.computeTreePositionIds w.nPast tokens.length))

/-! ## Prefill -/

/-- A shard's part of a prefill chunk. -/
def prefillShard (clIdx : ℕ) (ctx : RunContext Int32) (mask : ℕ → ℤ) (positions : List Int32)
    (s : ℕ) : Run Int32 ρ I Unit := do
  runShard spec env .prefill clIdx ctx mask positions (prefillFailedMsg s) s
  Prog.modify (updateKV spec s .prefill ctx.nPast ctx.currLen)
  Prog.when (s + 1 < spec.shardCount) (Prog.modify (applyConnection spec .prefill s clIdx))

/-- The body of the prefill loop. -/
def prefillChunk (chunk : List Int32) : Run Int32 ρ I Unit := do
  let w ← Prog.get
  Prog.modify (World.log (.step .prefill w.nPast chunk.length))
  Prog.forRange spec.shardCount
    (prefillShard spec env w.activeClIdx ⟨chunk, w.nPast, chunk.length, .prefill⟩
      (ssd.prefillMask w.nPast chunk.length spec.seqLenPrefill (spec.kvLen .prefill w.activeClIdx))
      (ssd.prefillPositions w.nPast chunk.length))
  Prog.modify fun w => { w with nPast := w.nPast + chunk.length }

/-- The prefill loop over the tokens left; `last` is the size of the last chunk. -/
def prefillLoop : ℕ → List Int32 → ℕ → Run Int32 ρ I ℕ
  | 0, _, last => pure last
  | fuel + 1, tokens, last =>
    if tokens = [] then pure last
    else do
      prefillChunk ssd spec env (tokens.take spec.seqLenPrefill)
      prefillLoop fuel (tokens.drop spec.seqLenPrefill) (tokens.take spec.seqLenPrefill).length

/-! ## Commit of an accepted path -/

/-- `CopyRun`: a run of consecutive selected rows. -/
structure CopyRun where
  srcStart : ℕ
  count : ℕ
  deriving DecidableEq

/-- The runs of `selectiveKVUpdate`: a selected row extends the last run or starts a new one. -/
def extendRuns (runs : List CopyRun) (pos : ℕ) : List CopyRun :=
  match runs.getLast? with
  | some r =>
    if r.srcStart + r.count = pos then runs.dropLast ++ [⟨r.srcStart, r.count + 1⟩]
    else runs ++ [⟨pos, 1⟩]
  | none => [⟨pos, 1⟩]

/-- The runs of the selected rows. -/
def copyRuns (selected : List Bool) : List CopyRun :=
  (List.range selected.length).foldl
    (fun runs pos => if selected.getD pos false = true then extendRuns runs pos else runs) []

/-- The loop over the runs for one tensor: each run is copied to the columns after the last. -/
def copyRunsTo (t : KVTensor) (src : ℕ → UInt8) (srcLen dstLen : ℕ) :
    List CopyRun → ℕ → (ℕ → UInt8) → ℕ → UInt8
  | [], _, m => m
  | r :: runs, dstCol, m =>
    copyRunsTo t src srcLen dstLen runs (dstCol + r.count)
      (copyKV spec t m src srcLen r.srcStart dstLen dstCol r.count)

/-- The shards that have KV tensors. -/
def kvShards : List ℕ := (List.range spec.shardCount).filter fun s => spec.pairs s ≠ []

/-- `selectiveKVUpdate(selected, n_accepted)`. `kv_tensor_cache_` was built at initialisation, from
the decode graphs of the first context length. -/
def selectiveKVUpdate (selected : List Bool) (w : World Int32 ρ I) : World Int32 ρ I :=
  { w with
    kv := fun t =>
      if spec.hasTensor t then
        copyRunsTo spec t ((w.outs (spec.graphIndex .decode t.shard 0)).kvOut t) spec.seqLenDecode
          (spec.kvLen .decode 0) (copyRuns selected) w.nPast (w.kv t)
      else w.kv t
    trace := (kvShards spec).reverse.map
      (fun s => .kvWrite ⟨.decode, s, 0, w.nPast, selected.count true⟩) ++ w.trace }

/-! ## The decode loop -/

/-- `readLogitsAt(/*phase=*/1, position, dst)`. -/
def readLogitsAt (w : World Int32 ρ I) (position : ℕ) : List ℚ :=
  readLastLogits spec .decode position w

/-- `argmaxLogits` of a row of the last pass. -/
def answerAt (w : World Int32 ρ I) (position : ℕ) : Int32 :=
  Int32.ofNat (argmax (readLogitsAt spec w position))

/-- `forecast_tokens`. -/
def forecastTokens : List Int32 := ssd.genForecastTokens spec.vocabSize ssd.numDraftNodes

/-- `total_ssd_tokens`. -/
def totalSsdTokens : ℕ := ssd.numDraftNodes + (forecastTokens ssd spec).length

/-- `selected`, after the loop over the accepted ids. -/
def selectedRows (ids : List ℕ) : List Bool :=
  (List.range (totalSsdTokens ssd spec)).map fun i => decide (i ∈ ids)

/-- The loop over the accepted tokens: what has been emitted, and whether to leave. -/
def speak (callback : List Int32 → CallbackAnswer) :
    List Int32 → List Int32 → Run Int32 ρ I (List Int32 × Bool)
  | [], out => pure (out, false)
  | tok :: rest, out => do
    Prog.modify (World.log (.sampled tok))
    if isEos spec tok = true then pure (out, true)
    else do
      Prog.modify (World.log (.emitted tok))
      match callback (out ++ [tok]) with
      | .stop => pure (out ++ [tok], true)
      | .throw => Prog.throw .callbackThrew
      | .continue => speak callback rest (out ++ [tok])

/-- A step of the loop up to the emission: the pass, the verification, the commit. -/
def treeStep (tree : List Int32) : Run Int32 ρ I (List Int32 × List ℕ) := do
  runShardsWithTreeMask ssd spec env (tree ++ forecastTokens ssd spec) ssd.numDraftNodes
  let w ← Prog.get
  let accepted := ssd.verifyDraftTree (isEos spec) (answerAt spec w) tree
  Prog.modify (World.log (.accepted w.nPast accepted.1))
  Prog.modify (selectiveKVUpdate spec (selectedRows ssd spec accepted.2))
  Prog.modify fun w => { w with nPast := w.nPast + accepted.1.length }
  pure accepted

/-- The next draft tree, from the forecast rows of the last accepted node. -/
def nextTree (accepted : List Int32 × List ℕ) (w : World Int32 ρ I) : List Int32 :=
  ssd.buildSampleTree (readLogitsAt spec w) (accepted.1.getLastD 0)
    (ssd.numDraftNodes + accepted.2.getLastD 0 * ssd.draftLevels)

/-- The decode loop, with the number of steps left, the draft tree and the tokens emitted. -/
def decodeLoop (maxTokens : Int32) (callback : List Int32 → CallbackAnswer) :
    ℕ → List Int32 → List Int32 → Run Int32 ρ I (List Int32)
  | 0, _, out => pure out
  | n + 1, tree, out => do
    let w ← Prog.get
    if w.nPast + totalSsdTokens ssd spec > spec.cl w.activeClIdx then pure out
    else do
      let accepted ← treeStep ssd spec env tree
      let (out, stop) ← speak spec callback accepted.1 out
      if stop = true ∨ maxTokens ≤ Int32.ofNat out.length then pure out
      else do
        let w ← Prog.get
        decodeLoop maxTokens callback n (nextTree ssd spec accepted w) out

/-! ## The call -/

/-- The initial pass: the first token and one forecast token for each level. -/
def initialStep (first : Int32) : Run Int32 ρ I Unit := do
  runShardsWithTreeMask ssd spec env (first :: ssd.forecastRow spec.vocabSize) 1
  Prog.modify fun w => upto (fun s w => updateKV spec s .decode w.nPast 1 w) spec.shardCount w
  Prog.modify fun w => { w with nPast := w.nPast + 1 }

/-- Prefill, the layout switch and the first token. -/
def prefillStage (prompt : List Int32) : Run Int32 ρ I Int32 := do
  let w ← Prog.get
  Prog.modify (World.log (.enter w.nPast prompt.length))
  let last ← prefillLoop ssd spec env prompt.length prompt 0
  Prog.modify fun w => restrideActive spec .prefill .decode w.nPast w
  -- `last_chunk_size - 1` is a `size_t`
  sampleNextToken spec env .prefill ((last + (2 ^ 64 - 1)) % 2 ^ 64)

/-- From the initial pass on: what is done unless the callback has stopped the call. -/
def decodeStage (cfg : GenerationConfig) (callback : List Int32 → CallbackAnswer) (first : Int32) :
    Run Int32 ρ I (List Int32) := do
  initialStep ssd spec env first
  let w ← Prog.get
  decodeLoop ssd spec env cfg.maxTokens callback cfg.maxTokens.toInt.toNat
    (ssd.buildSampleTree (readLogitsAt spec w) first 1) [first]

/-- `SSDModel::generate`, up to the exit restride. -/
def generateBody (prompt : List Int32) (cfg : GenerationConfig)
    (callback : List Int32 → CallbackAnswer) : Run Int32 ρ I (List Int32) := do
  let first ← prefillStage ssd spec env prompt
  if isEos spec first = true then pure []
  else do
    Prog.modify (World.log (.emitted first))
    match callback [first] with
    | .stop => pure [first]
    | .throw => Prog.throw .callbackThrew
    | .continue => decodeStage ssd spec env cfg callback first

/-- `SSDModel::generate(prompt_tokens, gen_cfg, token_callback)`. -/
def generate (prompt : List Int32) (cfg : GenerationConfig)
    (callback : List Int32 → CallbackAnswer) : Run Int32 ρ I (List Int32) := do
  let out ← generateBody ssd spec env prompt cfg callback
  Prog.modify fun w => restrideActive spec .decode .prefill w.nPast w
  pure out

end SSDConfig

end Geniex
