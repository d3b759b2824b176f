import Geniex.Lib.Prog
import Geniex.Types

/-!
# The state of a model instance and what it depends on

* `Env`: the code outside the repository (graph execution, the sampler chain), the input providers
  and the configuration of the decode pool, as parameters.
* `World`: the fields of an `LLMModel` instance, with the buffers of its graphs. All context-length
  and phase variants of a KV tensor share one buffer, so there is one memory for each `KVTensor`.
* `Event`: the log of a run. The log and `produced` are read by no code, only by theorems.
-/

namespace Geniex

/-- Why a call ended other than by returning. `blocked` is a `ThreadPool::wait` that never
returns and `divisionByZero` ends the process; the others are C++ exceptions. -/
inductive Err
  | contextLengthExceeded (msg : String)
  | executeFailed (msg : String)
  | visionFailed (msg : String)
  | callbackThrew
  | readError (msg : String)
  | blocked
  | divisionByZero
  deriving DecidableEq, Repr

/-- The buffers of all KV input tensors. -/
abbrev KVMem : Type := KVTensor → ℕ → UInt8

/-- Byte `b` of column `c` of row `r` of a KV tensor, as a function of the four. -/
abbrev KVColumns : Type := KVTensor → ℕ → ℕ → ℕ → UInt8

/-- The output tensors of a graph: its KV outputs, the hidden state it hands to the next shard, and
its logits, dequantised. -/
structure GraphOut where
  kvOut : KVMem
  hidden : ℕ → UInt8
  logits : ℕ → ℚ

/-- What a graph reads when it executes: what the providers wrote, the attention mask, the position
ids that override the providers' (SSD only), the hidden state and its KV inputs. -/
structure ExecIn (I : Type) where
  inputs : I
  mask : Option (ℕ → ℤ)
  positions : Option (List Int32)
  hidden : Option (ℕ → UInt8)
  kv : KVMem

/-- A call of the sampler chain. -/
inductive SamplerCall (τ : Type)
  | init (tokens : List τ)
  | sample (logits : List ℚ)
  | accept (token : τ)
  deriving DecidableEq

/-- `Sampler`: the configuration it was built from, and the calls made so far. -/
structure Sampler (τ : Type) where
  cfg : GenerationConfig
  calls : List (SamplerCall τ)

/-- A queued `updateKV(shard, /*phase=*/1, off, /*n_tok=*/1)`. -/
structure KVJob where
  shard : ℕ
  off : ℕ
  deriving DecidableEq, Repr

/-- Parameters of an instance. -/
structure Env (τ ρ I : Type) where
  /-- `Graph::execute` of a graph, at the given execution count; `none` is a failure. -/
  exec : ℕ → ℕ → ExecIn I → Option GraphOut
  /-- The token id that the sampler chain draws. -/
  sample : GenerationConfig → List (SamplerCall τ) → List ℚ → Int32
  /-- What the input providers write into a graph, less the rows that they leave alone. -/
  write : ρ → ℕ → RunContext τ → I
  /-- `n_decode_workers` after environment overrides. -/
  nWorkers : ℕ
  /-- `clock_keeper_threads_`. -/
  clockKeeperThreads : ℕ
  /-- The queued jobs that complete before the given execution. -/
  finishes : ℕ → KVJob → Bool

/-- An execution of a graph. -/
structure ExecRecord (τ I : Type) where
  phase : Phase
  shard : ℕ
  clIdx : ℕ
  ctx : RunContext τ
  input : ExecIn I
  /-- The key/value produced for each position so far. -/
  produced : KVColumns

/-- A KV write-back: the columns `[off, off + nTok)` of the KV inputs of a graph. -/
structure KVWrite where
  phase : Phase
  shard : ℕ
  clIdx : ℕ
  off : ℕ
  nTok : ℕ
  deriving DecidableEq, Repr

/-- Why the decode loop was left by a return. -/
inductive StopReason
  | eos
  | callback
  | maxTokens
  deriving DecidableEq

/-- The log of a run. -/
inductive Event (τ I : Type)
  /-- `generate` is entered. -/
  | enter (nPast promptLen : ℕ)
  /-- A prefill chunk or decode step of `n` tokens starts. -/
  | step (phase : Phase) (nPast n : ℕ)
  | exec (r : ExecRecord τ I)
  | kvWrite (w : KVWrite)
  /-- `slideWindowEvict` is entered with a non-zero amount. -/
  | evictEntry (nPast historySize nKeep nDiscard : ℕ)
  /-- An eviction is complete. -/
  | evicted (nKeep nDiscard : ℕ)
  /-- A prompt or a decoded token has been appended to the history. -/
  | appended (tokens : List τ)
  | sampler (call : SamplerCall τ)
  /-- `sampleNextToken` returns a token, or the next token of an accepted path is taken up. -/
  | sampled (token : τ)
  /-- A path of a draft tree is accepted, and committed from column `nPast` on. -/
  | accepted (nPast : ℕ) (path : List τ)
  /-- A token is added to the output and passed to the callback. -/
  | emitted (token : τ)
  /-- The decode loop is left by a return. -/
  | stopped (reason : StopReason)
  /-- The decode loop is left by an exception. -/
  | abort (decodePool : Bool)
  /-- `resetKVCache` or a load replaces the state while so many write-backs are queued. -/
  | cleared (queued : ℕ)

/-- An `LLMModel` instance. -/
structure World (τ ρ I : Type) where
  nPast : ℕ
  activeClIdx : ℕ
  tokenHistory : List τ
  sampler : Option (Sampler τ)
  /-- `sampler_cfg_` where `sampler_cfg_valid_`. -/
  samplerCfg : Option GenerationConfig
  kv : KVMem
  /-- The output buffers, by graph index. -/
  outs : ℕ → GraphOut
  /-- The hidden-state input buffers, by graph index. -/
  hiddenIn : ℕ → ℕ → UInt8
  /-- Jobs queued on the decode pool and not run yet. -/
  pending : List KVJob
  clockKeeper : Bool
  providers : ρ
  /-- The number of graph executions so far. -/
  tick : ℕ
  /-- The key/value that the last execution of a position produced for it. -/
  produced : KVColumns
  /-- Newest first. -/
  trace : List (Event τ I)

/-- A program over a model instance. -/
abbrev Run (τ ρ I α : Type) : Type := Prog (World τ ρ I) Err α

variable {τ ρ I : Type}

/-- `decode_pool_ != nullptr`: `onInitialized` creates the pool if either count is positive. -/
def Env.decodePool (env : Env τ ρ I) : Bool := 0 < env.nWorkers || 0 < env.clockKeeperThreads

/-! ## The log -/

/-- The executions of a log. -/
def execs : List (Event τ I) → List (ExecRecord τ I)
  | [] => []
  | .exec x :: es => x :: execs es
  | _ :: es => execs es

theorem mem_execs {es : List (Event τ I)} {x : ExecRecord τ I} :
    x ∈ execs es ↔ Event.exec x ∈ es := by
  induction es with
  | nil => simp [execs]
  | cons e es ih => cases e <;> simp [execs, ih]

namespace World

def log (e : Event τ I) (w : World τ ρ I) : World τ ρ I := { w with trace := e :: w.trace }

def setKV (kv : KVMem) (w : World τ ρ I) : World τ ρ I := { w with kv := kv }

@[simp] theorem log_nPast (e : Event τ I) (w : World τ ρ I) : (w.log e).nPast = w.nPast := rfl
@[simp] theorem log_activeClIdx (e : Event τ I) (w : World τ ρ I) :
    (w.log e).activeClIdx = w.activeClIdx := rfl
@[simp] theorem log_tokenHistory (e : Event τ I) (w : World τ ρ I) :
    (w.log e).tokenHistory = w.tokenHistory := rfl
@[simp] theorem log_kv (e : Event τ I) (w : World τ ρ I) : (w.log e).kv = w.kv := rfl
@[simp] theorem log_pending (e : Event τ I) (w : World τ ρ I) : (w.log e).pending = w.pending := rfl
@[simp] theorem log_produced (e : Event τ I) (w : World τ ρ I) :
    (w.log e).produced = w.produced := rfl
@[simp] theorem log_trace (e : Event τ I) (w : World τ ρ I) :
    (w.log e).trace = e :: w.trace := rfl

end World

end Geniex
