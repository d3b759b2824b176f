import Geniex.LLM.File

/-!
# Runs of public operations

`Reachable spec env w`: some sequence of public operations on an instance with the environment
`env` ends in `w`. A call of `generate` may end by any exception; one that blocks forever has no
state after it. A loaded file is one that any reachable state of the same specification saved, and
the events of the run that saved it count as events of the run.
-/

namespace Geniex

variable {τ ρ I : Type} [Token τ]

/-- The state after loading the file that `v` saved. -/
def loaded (spec : LLMSpec) (v w : World τ ρ I) : World τ ρ I :=
  { (loadKVCacheFromFile spec (saveKVCacheToFile spec v) w).2 with
    produced := v.produced
    trace := .cleared w.pending.length :: (v.trace ++ w.trace) }

/-- The states between the operations of a run. -/
inductive Reachable (spec : LLMSpec) : Env τ ρ I → World τ ρ I → Prop
  | init (env : Env τ ρ I) (providers : ρ) (kv : KVMem) (outs : ℕ → GraphOut)
      (hiddenIn : ℕ → ℕ → UInt8) : Reachable spec env (initWorld spec providers kv outs hiddenIn)
  | generate {env : Env τ ρ I} {w w' : World τ ρ I} {r : Except Err (List τ)} (prompt : List τ)
      (cfg : GenerationConfig) (callback : List Int32 → CallbackAnswer) (h : Reachable spec env w)
      (hrun : generate spec env prompt cfg callback w = (r, w')) (hr : r ≠ .error .blocked) :
      Reachable spec env w'
  | reset {env : Env τ ρ I} {w : World τ ρ I} (h : Reachable spec env w) :
      Reachable spec env ((resetKVCache spec w).log (.cleared w.pending.length))
  | load {env env' : Env τ ρ I} {w v : World τ ρ I} (h : Reachable spec env w)
      (hv : Reachable spec env' v) : Reachable spec env (loaded spec v w)
  /-- A layer above installs tables in the input providers. -/
  | install {env : Env τ ρ I} {w : World τ ρ I} (providers : ρ) (h : Reachable spec env w) :
      Reachable spec env { w with providers := providers }
  /-- The workers complete jobs that are still queued. -/
  | idle {env : Env τ ρ I} {w : World τ ρ I} (done : KVJob → Bool) (hn : 0 < env.nWorkers)
      (h : Reachable spec env w) : Reachable spec env (settle spec done w)

/-! ## A small instance -/

/-- One shard with one pair of 8-bit KV tensors of two rows; token 2 ends the text. -/
def tinySpec (contextLengths : List ℕ) (prefill decode : ℕ)
    (hne : contextLengths ≠ [] := by decide)
    (hasc : contextLengths.Pairwise (· < ·) := by decide)
    (hlt : ∀ cl ∈ contextLengths, cl < 2 ^ 33 := by decide) (hdec : 0 < decode := by decide)
    (hle : decode ≤ prefill := by decide)
    (hpre : ∀ cl ∈ contextLengths, prefill ≤ cl := by decide) : LLMSpec where
  shards := [⟨false, true, false, [⟨.uint8, .uint8⟩]⟩]
  numKvHeads := 2
  headDim := 1
  vocabSize := 3
  seqLenPrefill := prefill
  seqLenDecode := decode
  contextLengths := contextLengths
  eosTokenIds := [2]
  shards_ne := by decide
  contextLengths_ne := hne
  ascending := hasc
  contextLength_lt := hlt
  decode_pos := hdec
  decode_le_prefill := hle
  prefill_le := hpre
  lmHead_pairs := by decide

/-- Four columns, and prefill chunks of two tokens. -/
abbrev fourColumns : LLMSpec := tinySpec [4] 2 1

/-- Four columns, token by token. -/
abbrev singleSteps : LLMSpec := tinySpec [4] 1 1

/-- Four columns, then eight. -/
abbrev twoContexts : LLMSpec := tinySpec [4, 8] 2 1

/-- Sixteen columns, four tokens at a time. -/
abbrev sixteenColumns : LLMSpec := tinySpec [16] 4 4

/-- A graph that always predicts token 1, and whose `n`-th execution produces KV bytes `n`. -/
def tinyEnv (nWorkers clockKeeperThreads : ℕ) : Env Int32 Unit Unit where
  exec tick _ _ := some
    ⟨fun _ _ => UInt8.ofNat (tick + 1), fun _ => 0, fun i => if i % 3 = 1 then 1 else 0⟩
  sample _ _ _ := 0
  write _ _ _ := ()
  nWorkers := nWorkers
  clockKeeperThreads := clockKeeperThreads
  finishes _ _ := true

/-- A new instance over buffers of zeros. -/
def tinyWorld (spec : LLMSpec) : World Int32 Unit Unit :=
  initWorld spec () (fun _ _ => 0) (fun _ => ⟨fun _ _ => 0, fun _ => 0, fun _ => 0⟩) fun _ _ => 0

/-- Greedy decoding of at most `n` tokens. -/
def tinyCfg (n : Int32) : GenerationConfig := { maxTokens := n, seed := 0 }

/-- One call on a new instance, with a callback that never stops it. -/
def tinyRun (spec : LLMSpec) (env : Env Int32 Unit Unit) (prompt : List Int32) (n : Int32) :
    Except Err (List Int32) × World Int32 Unit Unit :=
  generate spec env prompt (tinyCfg n) (fun _ => .continue) (tinyWorld spec)

theorem tinyWorld_reachable (spec : LLMSpec) (env : Env Int32 Unit Unit) :
    Reachable spec env (tinyWorld spec) := Reachable.init env _ _ _ _

/-- Whether a result is a call that blocks forever. -/
def isBlocked {α : Type} : Except Err α → Bool
  | .error .blocked => true
  | _ => false

theorem tinyRun_reachable (spec : LLMSpec) (env : Env Int32 Unit Unit) (prompt : List Int32)
    (n : Int32) (h : isBlocked (tinyRun spec env prompt n).1 = false) :
    Reachable spec env (tinyRun spec env prompt n).2 := by
  refine Reachable.generate prompt (tinyCfg n) (fun _ => .continue) (tinyWorld_reachable spec env)
    (r := (tinyRun spec env prompt n).1) rfl fun hr => ?_
  rw [hr] at h
  cases h

end Geniex
