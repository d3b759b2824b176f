import Geniex.CB.Mask
import Geniex.CB.Scheduler
import Geniex.SSD.Oracle

/-!
# Continuous batching

`generateBatch` serves several sessions with one set of graphs: each pass of the prefill graph runs
the next rows of every session of the batch, one behind the other. The KV columns of all sessions
share one buffer, where a session's segment moves as others grow and complete.

* `BatchEnv`: graph execution and the input providers, as parameters.
* `BatchState`: what `generateBatch` changes, of the model, of the scheduler and of the manager.
* `batchStep`: one round of the loop.
-/

namespace Geniex.CB

open FlatMem KVCacheManager Scheduler

/-- `CBStepContext`. -/
structure StepContext where
  sessions : List Session
  inSegs : List InSegment
  /-- The segments before this step's growth. -/
  kvSegs : List KVCacheSegment
  concatTokens : List Int32
  seqLen : ℕ
  kvLen : ℕ

/-- Parameters of a `CBLLMModel`. -/
structure BatchEnv (I : Type) where
  /-- `Graph::execute` of a graph, at the given execution count; `none` is a failure. -/
  exec : ℕ → ℕ → ExecIn I → Option GraphOut
  /-- What the `CBInputProvider`s write into a graph. -/
  write : ℕ → StepContext → I

/-- What `generateBatch` works on. `streamed` are the calls of the token callback. -/
structure BatchState where
  sessions : Scheduler
  segs : KVCacheManager
  kv : KVMem
  activeClIdx : ℕ
  /-- The output buffers, by graph index. -/
  outs : ℕ → GraphOut
  /-- The hidden-state input buffers, by graph index. -/
  hiddenIn : ℕ → ℕ → UInt8
  /-- The number of graph executions so far. -/
  tick : ℕ
  streamed : List (String × Int32)

variable (spec : LLMSpec)

/-! ## The KV buffer -/

/-- `moveKVBuffer(src_start, dst_start, length)`: in every row of every KV tensor, key rows of one
element a column and value rows of `head_dim` elements a column. -/
def moveKVBuffer (clIdx : ℕ) (mv : Move) (kv : KVMem) : KVMem :=
  if mv.src = mv.dst ∨ mv.len = 0 then kv
  else fun t =>
    if spec.hasTensor t then
      moveRows (spec.rows t) (spec.tokenSize t) (spec.kvLen .prefill clIdx) mv (kv t)
    else kv t

/-- `for (const auto& m : moves) moveKVBuffer(m.src, m.dst, m.len);` -/
def moveAll (clIdx : ℕ) (moves : List Move) (kv : KVMem) : KVMem :=
  moves.foldl (fun kv mv => moveKVBuffer spec clIdx mv kv) kv

/-- `copyNewKV(shard, ...)`: each session's new columns, behind its segment. -/
def copyNewKV (shard clIdx : ℕ) (parts : List Part) (out : GraphOut) (kv : KVMem) : KVMem :=
  fun t =>
    if t.shard = shard ∧ spec.hasTensor t then
      parts.foldl (fun m p => copyKV spec t m (out.kvOut t) spec.seqLenPrefill p.2.1
        (spec.kvLen .prefill clIdx) p.1.fin p.2.2) (kv t)
    else kv t

/-- `selectCL(required_kv, seq_len, n_valid)`. -/
def selectCL (required nValid : ℕ) (σ : BatchState) : BatchState :=
  if spec.numCl ≤ 1 then σ
  else
    let newCl := promoteTarget spec required spec.seqLenPrefill σ.activeClIdx
    if newCl ≤ σ.activeClIdx then σ
    else
      { σ with
        kv := reshapeAll spec (spec.kvLen .prefill σ.activeClIdx) (spec.kvLen .prefill newCl)
          nValid σ.kv
        activeClIdx := newCl }

/-! ## The inputs of a step -/

/-- A session's tokens of a step: the next `n` of its prompt, or its last sampled token. -/
def stepTokens (s : Session) (n : ℕ) : List Int32 :=
  if s.processedLength < s.queryLen then (s.queryTokens.drop s.processedLength).take n
  else [s.pendingToken]

/-- `concat_tokens.resize(n, 0)`. -/
def resized (l : List Int32) (n : ℕ) : List Int32 := l.take n ++ List.replicate (n - l.length) 0

/-- The rows of the sessions of a batch, one behind the other from row `off` on. -/
def inSegments : ℕ → List ℕ → List InSegment
  | _, [] => []
  | off, n :: rest => (off, n) :: inSegments (off + n) rest

/-- `if (!kv_mgr.getSegment(s->id)) kv_mgr.allocate(s->id, 0);` -/
def ensureSegment (segs : KVCacheManager) (s : Session) : KVCacheManager :=
  if (getSegment segs s.id).isSome then segs else allocate segs s.id 0

/-- A segment for every session of a batch. -/
def allocateAll (batch : List Session) (segs : KVCacheManager) : KVCacheManager :=
  batch.foldl ensureSegment segs

/-- `growth_list`. -/
def growthList (batch : List Session) (lens : List ℕ) : List (String × ℕ) :=
  (batch.map (·.id)).zip lens

/-- The context of a step, from the segments that have been shifted for it. -/
def stepContext (clIdx : ℕ) (batch : List Session) (lens : List ℕ) (segs : KVCacheManager) :
    StepContext where
  sessions := batch
  inSegs := inSegments 0 lens
  kvSegs := batch.filterMap fun s => getSegment segs s.id
  concatTokens := resized ((batch.zip lens).flatMap fun p => stepTokens p.1 p.2) spec.seqLenPrefill
  seqLen := spec.seqLenPrefill
  kvLen := spec.kvLen .prefill clIdx

/-- The sessions of a step with their rows. -/
def StepContext.parts (ctx : StepContext) : List Part := ctx.kvSegs.zip ctx.inSegs

/-- The mask of a step. -/
def StepContext.mask (ctx : StepContext) : ℕ → ℤ :=
  KVCacheManager.getAttentionMask ctx.kvSegs ctx.inSegs ctx.seqLen ctx.kvLen

/-! ## The pass -/

section Pass

variable {I : Type} (env : BatchEnv I)

/-- What shard `s` reads, given its hidden-state input. -/
def batchInput (clIdx : ℕ) (ctx : StepContext) (s : ℕ) (hidden : ℕ → UInt8) (kv : KVMem) :
    ExecIn I where
  inputs := env.write (spec.graphIndex .prefill s clIdx) ctx
  mask := if spec.hasAttentionMask s then some ctx.mask else none
  positions := none
  hidden := if s = 0 then none else some hidden
  kv := kvView spec .prefill s clIdx kv

/-- `"CB graph execute failed: shard=" + s + " cl_idx=" + active_cl_idx_` -/
def batchFailedMsg (shard clIdx : ℕ) : String :=
  "CB graph execute failed: shard=" ++ toString shard ++ " cl_idx=" ++ toString clIdx

/-- A shard's part of a pass. -/
def batchShard (ctx : StepContext) (s : ℕ) : Prog BatchState String Unit := fun σ =>
  let g := spec.graphIndex .prefill s σ.activeClIdx
  match env.exec σ.tick g (batchInput spec env σ.activeClIdx ctx s (σ.hiddenIn g) σ.kv) with
  | none => (.error (batchFailedMsg s σ.activeClIdx), { σ with tick := σ.tick + 1 })
  | some out =>
    (.ok (), { σ with
      tick := σ.tick + 1
      outs := Function.update σ.outs g out
      kv := copyNewKV spec s σ.activeClIdx ctx.parts out σ.kv
      hiddenIn :=
        if s + 1 < spec.shardCount then
          Function.update σ.hiddenIn (spec.graphIndex .prefill (s + 1) σ.activeClIdx) out.hidden
        else σ.hiddenIn })

/-! ## After the pass -/

/-- The scheduler and the segments advance by the rows of the pass. -/
def advanceAll (growth : List (String × ℕ)) (σ : BatchState) : BatchState :=
  { σ with
    sessions := growth.foldl (fun ss g => updateSession ss g.1 g.2) σ.sessions
    segs := growth.foldl (fun segs g => extend g.1 g.2 segs) σ.segs }

/-- A session takes up a token. -/
def Session.push (tok : Int32) (s : Session) : Session :=
  { s with
    generatedTokens := s.generatedTokens ++ [tok]
    generatedLen := s.generatedLen + 1
    pendingToken := tok }

/-- `sampleNextToken(/*phase=*/0, row)`: without a sampler, the greatest logit. -/
def nextToken (row : ℕ) (σ : BatchState) : Int32 :=
  rowAnswer spec (σ.outs (spec.graphIndex .prefill (spec.shardCount - 1) σ.activeClIdx)) row

/-- The body of the sampling loop for the session at index `k`, whose last row is `row`. -/
def sampleOne (k row : ℕ) (σ : BatchState) : BatchState :=
  match σ.sessions[k]? with
  | none => σ
  | some s =>
    if s.queryLen ≤ s.processedLength then
      if isEos spec (nextToken spec row σ) = true ∨ s.maxTokens ≤ s.generatedLen then
        { σ with sessions := completeSession σ.sessions s.id }
      else
        { σ with
          sessions := σ.sessions.modify k (Session.push (nextToken spec row σ))
          streamed := σ.streamed ++ [(s.id, nextToken spec row σ)] }
    else σ

/-- The sampling loop: the last row of every session of the batch. -/
def sampleAll (batch : List ℕ) (inSegs : List InSegment) (σ : BatchState) : BatchState :=
  (batch.zip inSegs).foldl (fun σ p => sampleOne spec p.1 (p.2.1 + p.2.2 - 1) σ) σ

/-- Release the segments of the completed sessions. -/
def releaseCompleted (ss : Scheduler) (segs : KVCacheManager) : KVCacheManager :=
  ss.foldl (fun segs s =>
    if s.status = .completed ∧ (getSegment segs s.id).isSome then release segs s.id else segs) segs

/-- Release the completed sessions and close the gaps. -/
def defragment (σ : BatchState) : BatchState :=
  let r := compact (releaseCompleted σ.sessions σ.segs)
  { σ with
    segs := r.2
    kv := moveAll spec σ.activeClIdx r.1 σ.kv }

/-! ## The loop -/

/-- The sessions of a batch that has just been picked. -/
def pickedBatch (σ : BatchState) : List Session :=
  sessionsAt 0 (getNextBatch σ.sessions spec.seqLenPrefill).1
    (getNextBatch σ.sessions spec.seqLenPrefill).2

/-- The rows of the sessions of the next batch. -/
def pickedLens (σ : BatchState) : List ℕ := segLengths spec.seqLenPrefill 0 (pickedBatch spec σ)

/-- `kv_used`, once the sessions of the next batch have their segments. -/
def kvUsed (σ : BatchState) : ℕ := totalUsed (allocateAll (pickedBatch spec σ) σ.segs)

/-- `required_kv`. -/
def requiredKv (σ : BatchState) : ℕ := kvUsed spec σ + (pickedLens spec σ).sum

/-- Steps 1 and 2 of a round: pick the batch, allocate, select a context length, make room. -/
def prepare (σ : BatchState) : BatchState :=
  let batch := pickedBatch spec σ
  let σ₁ := selectCL spec (requiredKv spec σ) (kvUsed spec σ)
    { σ with
      sessions := (getNextBatch σ.sessions spec.seqLenPrefill).1
      segs := allocateAll batch σ.segs }
  let r := shiftForGrowth σ₁.segs (growthList batch (pickedLens spec σ))
  { σ₁ with
    segs := r.2
    kv := moveAll spec σ₁.activeClIdx r.1 σ₁.kv }

/-- Steps 6 to 8 of a round: advance, sample, release. -/
def finish (batch : List ℕ) (ctx : StepContext) (growth : List (String × ℕ)) (σ : BatchState) :
    BatchState :=
  defragment spec (sampleAll spec batch ctx.inSegs (advanceAll growth σ))

/-- A round of the loop of `generateBatch`; `false` when the loop is left. -/
def batchStep : Prog BatchState String Bool := do
  let σ ← Prog.get
  if hasActiveSessions σ.sessions = false then pure false
  else
    let batch := (getNextBatch σ.sessions spec.seqLenPrefill).2
    if batch = [] then do
      Prog.modify fun σ => { σ with sessions := (getNextBatch σ.sessions spec.seqLenPrefill).1 }
      pure false
    else do
      Prog.modify (prepare spec)
      let σ' ← Prog.get
      let ctx := stepContext spec σ'.activeClIdx (pickedBatch spec σ) (pickedLens spec σ) σ'.segs
      Prog.forRange spec.shardCount (batchShard spec env ctx)
      Prog.modify (finish spec batch ctx (growthList (pickedBatch spec σ) (pickedLens spec σ)))
      pure true

/-- `generateBatch(scheduler, kv_mgr, token_callback)`, for at most `fuel` rounds; `true` when the
loop is left. -/
def generateBatch : ℕ → Prog BatchState String Bool
  | 0 => pure false
  | fuel + 1 => do
    let again ← batchStep spec env
    if again = true then generateBatch fuel else pure true

end Pass

end Geniex.CB
