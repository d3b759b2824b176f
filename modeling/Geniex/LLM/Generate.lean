import Geniex.LLM.KVCache
import Geniex.LLM.Mask

/-!
# Generation

`LLMModel::generate` and everything it calls, over a model instance. The order of the definitions
is the order of the calls, innermost first: the background write-backs, one graph execution
(`runShard`), one prefill chunk, the sliding-window eviction, one decode step, the whole call.
-/

namespace Geniex

open Prog

variable {τ ρ I : Type} (spec : LLMSpec) (env : Env τ ρ I)

/-! ## Background write-backs -/

/-- Run queued jobs, in order. -/
def runJobs (jobs : List KVJob) (w : World τ ρ I) : World τ ρ I :=
  jobs.foldl (fun w j => updateKV spec j.shard .decode j.off 1 w) w

/-- The workers complete the queued jobs for which `done` holds. -/
def settle (done : KVJob → Bool) (w : World τ ρ I) : World τ ρ I :=
  { runJobs spec (w.pending.filter done) w with
    pending := w.pending.filter fun j => !done j }

/-- The jobs that complete before the next execution; with no workers, none does. -/
def background (w : World τ ρ I) : World τ ρ I :=
  if env.nWorkers = 0 then w else settle spec (env.finishes w.tick) w

/-- `if (decode_pool_) decode_pool_->wait();` -/
def waitPool : Run τ ρ I Unit := do
  let w ← Prog.get
  if w.pending = [] ∨ env.decodePool = false then
    pure ()
  else if env.nWorkers = 0 then
    Prog.throw .blocked
  else
    Prog.modify (settle spec fun _ => true)

/-- `enqueue` of the write-back on the pool, or the write-back itself without a pool. -/
def writeBack (s off : ℕ) (w : World τ ρ I) : World τ ρ I :=
  if env.decodePool then { w with pending := w.pending ++ [⟨s, off⟩] }
  else updateKV spec s .decode off 1 w

/-! ## One execution -/

/-- What the graph of a shard reads: its own KV tensors, as many bytes as its view has. -/
def kvView (phase : Phase) (shard clIdx : ℕ) (kv : KVMem) : KVMem := fun t i =>
  if t.shard = shard ∧ spec.hasTensor t ∧ i < spec.byteCount t (spec.kvLen phase clIdx) then kv t i
  else 0

/-- The inputs of an execution. The first shard has no hidden-state input. -/
def execInput (shard : ℕ) (phase : Phase) (clIdx : ℕ) (ctx : RunContext τ) (w : World τ ρ I) :
    ExecIn I where
  inputs := env.write w.providers (spec.graphIndex phase shard clIdx) ctx
  mask :=
    if spec.hasAttentionMask shard then
      some (getAttentionMask ctx.nPast ctx.currLen (spec.seqLen phase) (spec.kvLen phase clIdx))
    else none
  positions := none
  hidden := if shard = 0 then none else some (w.hiddenIn (spec.graphIndex phase shard clIdx))
  kv := kvView spec phase shard clIdx w.kv

/-- The key/value of the positions of `ctx`, as the outputs of a shard's graph hold it. -/
def produce (shard : ℕ) (ctx : RunContext τ) (out : GraphOut) (old : KVColumns) : KVColumns :=
  fun t r c b =>
    if t.shard = shard ∧ ctx.nPast ≤ c ∧ c < ctx.nPast + ctx.currLen then
      out.kvOut t (FlatMem.cell (spec.seqLen ctx.phase) (spec.tokenSize t) r (c - ctx.nPast) b)
    else old t r c b

/-- `"Graph execute failed: ..."` -/
def executeFailedMsg (phase : Phase) (shard clIdx nPast : ℕ) : String :=
  "Graph execute failed: phase=" ++ toString phase.index ++ " shard=" ++ toString shard ++
    " cl_idx=" ++ toString clIdx ++ " n_past=" ++ toString nPast

/-- `Graph::execute` on prepared inputs: log it, then store the outputs or fail. -/
def execGraph (shard : ℕ) (phase : Phase) (clIdx : ℕ) (ctx : RunContext τ) (input : ExecIn I)
    (err : Err) : Run τ ρ I Unit := fun w =>
  let w' := { w.log (.exec ⟨phase, shard, clIdx, ctx, input, w.produced⟩) with tick := w.tick + 1 }
  match env.exec w.tick (spec.graphIndex phase shard clIdx) input with
  | none => (.error err, w')
  | some out =>
    (.ok (), { w' with
      outs := Function.update w.outs (spec.graphIndex phase shard clIdx) out
      produced := produce spec shard ctx out w.produced })

/-- `runShard(shard, phase, cl_idx, ctx)`. -/
def runShard (shard : ℕ) (phase : Phase) (clIdx : ℕ) (ctx : RunContext τ) : Run τ ρ I Unit := do
  Prog.modify (background spec env)
  let w ← Prog.get
  execGraph spec env shard phase clIdx ctx (execInput spec env shard phase clIdx ctx w)
    (.executeFailed (executeFailedMsg phase shard clIdx ctx.nPast))

/-- `applyConnections({shard_hidden_state_[cl][s]})`: shard `s`'s hidden state, to shard `s + 1`. -/
def applyConnection (phase : Phase) (s clIdx : ℕ) (w : World τ ρ I) : World τ ρ I :=
  { w with
    hiddenIn := Function.update w.hiddenIn (spec.graphIndex phase (s + 1) clIdx)
      (w.outs (spec.graphIndex phase s clIdx)).hidden }

/-! ## Prefill -/

/-- A shard's part of a prefill chunk. -/
def prefillShard (isFinal : Bool) (clIdx : ℕ) (ctx : RunContext τ) (s : ℕ) : Run τ ρ I Unit :=
  Prog.when (¬(isFinal = false ∧ spec.lmHeadOnly s = true)) do
    runShard spec env s .prefill clIdx ctx
    Prog.modify (updateKV spec s .prefill ctx.nPast ctx.currLen)
    Prog.when (s + 1 < spec.shardCount ∧ ¬(isFinal = false ∧ spec.lmHeadOnly (s + 1) = true))
      (Prog.modify (applyConnection spec .prefill s clIdx))

/-- The body of the loop of `prefillChunks`. -/
def prefillChunk (isFinal : Bool) (chunk : List τ) : Run τ ρ I Unit := do
  let w ← Prog.get
  Prog.modify (World.log (.step .prefill w.nPast chunk.length))
  Prog.modify
    (promoteCL spec (w.nPast + chunk.length) spec.seqLenPrefill spec.seqLenPrefill)
  let w' ← Prog.get
  Prog.forRange spec.shardCount
    (prefillShard spec env isFinal w'.activeClIdx ⟨chunk, w.nPast, chunk.length, .prefill⟩)
  Prog.modify fun w =>
    { w with tokenHistory := w.tokenHistory ++ chunk, nPast := w.nPast + chunk.length }

/-- The loop of `prefillChunks` over the tokens left; `last` is the size of the last chunk. -/
def prefillLoop : ℕ → List τ → ℕ → Run τ ρ I ℕ
  | 0, _, last => pure last
  | fuel + 1, tokens, last =>
    if tokens = [] then pure last
    else do
      prefillChunk spec env (tokens.length ≤ spec.seqLenPrefill) (tokens.take spec.seqLenPrefill)
      prefillLoop fuel (tokens.drop spec.seqLenPrefill) (tokens.take spec.seqLenPrefill).length

/-- `prefillChunks(tokens, &last_chunk_size)`, with the size of the last chunk as its result. -/
def prefillChunks (tokens : List τ) : Run τ ρ I ℕ := prefillLoop spec env tokens.length tokens 0

/-! ## Sliding window -/

/-- `computeSlideDiscard(n_past, n_fit, max_cl, n_keep)`. -/
def computeSlideDiscard (nPast nFit maxCl nKeep : ℕ) : ℕ :=
  if nPast ≤ nKeep then 0
  else
    let past : ℤ := nPast
    let needed : ℤ := past + nFit - maxCl + 1
    let discard := min (max (past / 2 - nKeep) needed) (past - nKeep)
    if 0 < discard then discard.toNat else 0

variable [Token τ]

/-- `token_history_.resize(n)`. -/
def resizeHistory (h : List τ) (n : ℕ) : List τ :=
  h.take n ++ List.replicate (n - h.length) (Token.ofId 0)

/-- The layout switch of every shard between two strides of the active context length. -/
def restrideActive (old new : Phase) (nValid : ℕ) (w : World τ ρ I) : World τ ρ I :=
  w.setKV (reshapeAll spec (spec.kvLen old w.activeClIdx) (spec.kvLen new w.activeClIdx) nValid w.kv)

/-- `slideWindowEvict(n_discard, n_keep, at_decode_stride)`. -/
def slideWindowEvict (nDiscard nKeep : ℕ) (atDecodeStride : Bool) : Run τ ρ I Unit :=
  Prog.when (nDiscard ≠ 0) do
    let w ← Prog.get
    Prog.modify (World.log (.evictEntry w.nPast w.tokenHistory.length nKeep nDiscard))
    Prog.when (atDecodeStride = true) (Prog.modify (restrideActive spec .decode .prefill nKeep))
    Prog.modify fun w =>
      { w with nPast := nKeep, tokenHistory := resizeHistory w.tokenHistory nKeep }
    -- the surviving tail, read before the history was truncated
    let _ ← prefillChunks spec env
      ((w.tokenHistory.drop (nKeep + nDiscard)).take (w.nPast - (nKeep + nDiscard)))
    Prog.when (atDecodeStride = true)
      (Prog.modify fun w => restrideActive spec .prefill .decode w.nPast w)
    Prog.modify (World.log (.evicted nKeep nDiscard))

/-- `n_keep`: the anchored prefix, at most the largest context length. -/
def nKeepOf (cfg : GenerationConfig) : ℕ :=
  if cfg.slidingWindow then min cfg.slidingWindowNKeep.toInt.toNat spec.maxCl else 0

/-- `try_slide(n_fit, at_decode_stride)`. -/
def trySlide (cfg : GenerationConfig) (nFit : ℕ) (atDecodeStride : Bool) : Run τ ρ I Unit := do
  let w ← Prog.get
  let nDiscard := computeSlideDiscard w.nPast nFit spec.maxCl (nKeepOf spec cfg)
  Prog.when (cfg.slidingWindow = true ∧ nDiscard ≠ 0 ∧ w.nPast - nDiscard + nFit ≤ spec.maxCl)
    (slideWindowEvict spec env nDiscard (nKeepOf spec cfg) atDecodeStride)

/-- Make room for `nFit` tokens or report that there is none. -/
def ensureRoom (cfg : GenerationConfig) (nFit : ℕ) (atDecodeStride : Bool) (msg : String) :
    Run τ ρ I Unit := do
  let w ← Prog.get
  Prog.when (w.nPast + nFit > spec.maxCl) do
    trySlide spec env cfg nFit atDecodeStride
    let w ← Prog.get
    Prog.when (w.nPast + nFit > spec.maxCl) (Prog.throw (.contextLengthExceeded msg))

/-- `"geniex: prompt exceeds max context length (" + max_cl + ")"` -/
def promptExceedsMsg : String :=
  "geniex: prompt exceeds max context length (" ++ toString spec.maxCl ++ ")"

/-- `"geniex: generation exceeds max context length (" + max_cl + ")"` -/
def generationExceedsMsg : String :=
  "geniex: generation exceeds max context length (" ++ toString spec.maxCl ++ ")"

/-! ## Sampling -/

/-- `std::max_element`, as an index: the first of the greatest elements. -/
def maxElementFrom : List ℚ → ℕ → ℕ → ℚ → ℕ
  | [], _, best, _ => best
  | x :: xs, i, best, v => if v < x then maxElementFrom xs (i + 1) i x
    else maxElementFrom xs (i + 1) best v

def argmax : List ℚ → ℕ
  | [] => 0
  | x :: xs => maxElementFrom xs 1 0 x

/-- `readLastLogits(phase, token_offset, out)`: `vocab_size` values from the given row on. The
offset is a `size_t` product; nothing checks it against the size of the tensor. -/
def readLastLogits (phase : Phase) (tokenOffset : ℕ) (w : World τ ρ I) : List ℚ :=
  let out := w.outs (spec.graphIndex phase (spec.shardCount - 1) w.activeClIdx)
  (List.range spec.vocabSize).map fun i =>
    out.logits ((tokenOffset * spec.vocabSize) % 2 ^ 64 + i)

/-- Feed calls to the cached sampler. -/
def feedSampler (calls : List (SamplerCall τ)) (w : World τ ρ I) : World τ ρ I :=
  { w with
    sampler := w.sampler.map fun s => { s with calls := s.calls ++ calls }
    trace := (calls.map Event.sampler).reverse ++ w.trace }

/-- `sampleNextToken(phase, token_offset)`. -/
def sampleNextToken (phase : Phase) (tokenOffset : ℕ) : Run τ ρ I τ := do
  let w ← Prog.get
  let logits := readLastLogits spec phase tokenOffset w
  match w.sampler with
  | some s =>
    let tok := Token.ofId (env.sample s.cfg s.calls logits)
    Prog.modify (feedSampler [.sample logits, .accept tok])
    Prog.modify (World.log (.sampled tok))
    pure tok
  | none =>
    let tok := Token.ofId (Int32.ofNat (argmax logits))
    Prog.modify (World.log (.sampled tok))
    pure tok

/-- Reuse the cached sampler iff the configuration is unchanged, else build a new one. -/
def buildSampler (cfg : GenerationConfig) (w : World τ ρ I) : World τ ρ I :=
  if w.sampler.isSome && w.samplerCfg.any (samplerCfgEqual · cfg) then w
  else { w with sampler := some ⟨cfg, []⟩, samplerCfg := some cfg }

/-- `prepareSampler(gen_cfg, prompt_tokens)`. -/
def prepareSampler (cfg : GenerationConfig) (prompt : List τ) (w : World τ ρ I) : World τ ρ I :=
  if cfg.enableSampling = false then { w with sampler := none, samplerCfg := none }
  else if prompt = [] then buildSampler cfg w
  else feedSampler [.init prompt] (buildSampler cfg w)

/-! ## Decode -/

/-- Whether a token is one of the end-of-sequence tokens. -/
def isEos (tok : τ) : Bool := spec.eosTokenIds.any (· == Token.id tok)

/-- A shard's part of a decode step. -/
def decodeShard (clIdx : ℕ) (ctx : RunContext τ) (s : ℕ) : Run τ ρ I Unit := do
  runShard spec env s .decode clIdx ctx
  Prog.modify (writeBack spec env s ctx.nPast)
  Prog.when (s + 1 < spec.shardCount) (Prog.modify (applyConnection spec .decode s clIdx))

/-- A decode step at its position: promotion, the shards in order, the bookkeeping. -/
def decodeForward (tok : τ) : Run τ ρ I Unit := do
  let w ← Prog.get
  Prog.modify (World.log (.step .decode w.nPast 1))
  Prog.modify (promoteCL spec (w.nPast + 1) spec.seqLenDecode spec.seqLenDecode)
  let w' ← Prog.get
  Prog.forRange spec.shardCount
    (decodeShard spec env w'.activeClIdx ⟨[tok], w.nPast, 1, .decode⟩)
  Prog.modify fun w =>
    { w.log (.appended [tok]) with
      nPast := w.nPast + 1, tokenHistory := w.tokenHistory ++ [tok] }

/-- A step of the decode loop after the callback, up to the sampling. -/
def decodeStep (cfg : GenerationConfig) (tok : τ) : Run τ ρ I Unit := do
  waitPool spec env
  ensureRoom spec env cfg 1 true (generationExceedsMsg spec)
  decodeForward spec env tok

/-- Leave the decode loop. -/
def leaveLoop (reason : StopReason) (out : List τ) : Run τ ρ I (List τ) := do
  Prog.modify (World.log (.stopped reason))
  pure out

/-- The decode loop, with the number of steps left, the next token and the tokens emitted. -/
def decodeLoop (cfg : GenerationConfig) (callback : List Int32 → CallbackAnswer) :
    ℕ → τ → List τ → Run τ ρ I (List τ)
  | 0, _, out => leaveLoop .maxTokens out
  | n + 1, next, out =>
    if isEos spec next = true then leaveLoop .eos out
    else do
      Prog.modify (World.log (.emitted next))
      match callback ((out ++ [next]).map Token.id) with
      | .stop => leaveLoop .callback (out ++ [next])
      | .throw => Prog.throw .callbackThrew
      | .continue => do
        decodeStep spec env cfg next
        let next' ← sampleNextToken spec env .decode 0
        decodeLoop cfg callback n next' (out ++ [next])

/-! ## The call -/

/-- Entry and prefill: up to and including the first sampled token. -/
def prefillStage (prompt : List τ) (cfg : GenerationConfig) : Run τ ρ I τ := do
  let w ← Prog.get
  Prog.modify (World.log (.enter w.nPast prompt.length))
  Prog.modify (prepareSampler cfg prompt)
  ensureRoom spec env cfg prompt.length false (promptExceedsMsg spec)
  let last ← prefillChunks spec env prompt
  Prog.modify (World.log (.appended prompt))
  Prog.modify fun w => restrideActive spec .prefill .decode w.nPast w
  -- `last_chunk_size - 1` is a `size_t`
  sampleNextToken spec env .prefill ((last + (2 ^ 64 - 1)) % 2 ^ 64)

/-- The decode window: the loop, between the start and the stop of the clock keeper. -/
def decodeStage (cfg : GenerationConfig) (callback : List Int32 → CallbackAnswer) (first : τ) :
    Run τ ρ I (List τ) := do
  Prog.modify fun w =>
    { w with clockKeeper := w.clockKeeper || (env.decodePool && 0 < env.clockKeeperThreads) }
  let out ← (decodeLoop spec env cfg callback cfg.maxTokens.toInt.toNat first []).onThrow
    (World.log (.abort env.decodePool))
  waitPool spec env
  Prog.modify fun w => { w with clockKeeper := w.clockKeeper && !env.decodePool }
  pure out

/-- The exit restride: promote so that the history fits the prefill stride, then restride. -/
def restorePrefillStride (w : World τ ρ I) : World τ ρ I :=
  let w := promoteCL spec w.nPast spec.seqLenPrefill spec.seqLenDecode w
  restrideActive spec .decode .prefill w.nPast w

/-- `LLMModel::generate`, up to the exit restride. -/
def generateBody (prompt : List τ) (cfg : GenerationConfig)
    (callback : List Int32 → CallbackAnswer) : Run τ ρ I (List τ) := do
  let first ← prefillStage spec env prompt cfg
  decodeStage spec env cfg callback first

/-- `LLMModel::generate(prompt_tokens, gen_cfg, token_callback)`. -/
def generate (prompt : List τ) (cfg : GenerationConfig) (callback : List Int32 → CallbackAnswer) :
    Run τ ρ I (List τ) := do
  let out ← generateBody spec env prompt cfg callback
  Prog.modify (restorePrefillStride spec)
  pure out

/-- `LLMModel::resetKVCache`. -/
def resetKVCache (w : World τ ρ I) : World τ ρ I :=
  { w with
    nPast := 0, activeClIdx := 0, tokenHistory := [], sampler := none, samplerCfg := none
    kv := initKVBuffers spec w.kv }

/-- A newly initialised instance: the buffers hold what the allocator left, except the KV inputs,
which `onInitialized` fills. -/
def initWorld (providers : ρ) (kv : KVMem) (outs : ℕ → GraphOut) (hiddenIn : ℕ → ℕ → UInt8) :
    World τ ρ I where
  nPast := 0
  activeClIdx := 0
  tokenHistory := []
  sampler := none
  samplerCfg := none
  kv := initKVBuffers spec kv
  outs := outs
  hiddenIn := hiddenIn
  pending := []
  clockKeeper := false
  providers := providers
  tick := 0
  produced := fun _ _ _ _ => 0
  trace := []

end Geniex
