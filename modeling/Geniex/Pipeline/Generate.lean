import Geniex.LLM.Sampling
import Geniex.SSD.Instance

/-!
# The text pipeline

`LLMPipeline` puts a tokenizer before a model: it encodes the prompt, sets a BOS token before the
first one, streams the decoded pieces to the caller, and reports how many tokens were generated and
why the call ended.

* `ModelClass`: the two decoders that stand behind the pipeline.
* `generateTokens`, `generateText`: the pre-tokenized and the text call of a pipeline that is ready.
-/

namespace Geniex

variable {ρ I : Type}

/-- The class of the model behind the pipeline. -/
inductive ModelClass
  | llm
  | ssd (cfg : SSDConfig)

namespace ModelClass

/-- `generate`, by class. -/
def generate (m : ModelClass) (spec : LLMSpec) (env : Env Int32 ρ I) (prompt : List Int32)
    (cfg : GenerationConfig) (callback : List Int32 → CallbackAnswer) :
    Run Int32 ρ I (List Int32) :=
  match m with
  | llm => Geniex.generate spec env prompt cfg callback
  | ssd c => c.generate spec env prompt cfg callback

/-- `resetKVCache`, by class. -/
def resetKVCache (m : ModelClass) (spec : LLMSpec) (w : World Int32 ρ I) : World Int32 ρ I :=
  match m with
  | llm => (Geniex.resetKVCache spec w).log (.cleared w.pending.length)
  | ssd c => c.resetKVCache spec w

/-- A newly initialised model, by class. -/
def initWorld (m : ModelClass) (spec : LLMSpec) (providers : ρ) (kv : KVMem) (outs : ℕ → GraphOut)
    (hiddenIn : ℕ → ℕ → UInt8) : World Int32 ρ I :=
  match m with
  | llm => Geniex.initWorld spec providers kv outs hiddenIn
  | ssd c => c.initWorld spec providers kv outs hiddenIn

end ModelClass

/-! ## Streaming -/

/-- What a call streams through: the tokenizer's `decode_token`, which may depend on the tokens of
the call so far, and the caller's `on_token`, on the pieces it has been given; `none` is null. -/
structure Stream where
  decodeToken : List Int32 → String
  onToken : Option (List String → CallbackAnswer)

namespace Stream

variable (s : Stream)

/-- The pieces of the tokens of a call, one a token. -/
def pieces (tokens : List Int32) : List String := tokens.inits.tail.map s.decodeToken

/-- `on_each_token`, on the tokens so far. `user_stopped` is not set where it continues: the model
makes no call after one that has returned false. -/
def onEachToken (tokens : List Int32) : CallbackAnswer :=
  if s.decodeToken tokens = "" then .continue
  else
    match s.onToken with
    | none => .continue
    | some f => f ((s.pieces tokens).filter fun piece => piece ≠ "")

/-- `user_stopped`, after the calls for these tokens. -/
def userStopped (tokens : List Int32) : Bool :=
  tokens.inits.tail.any fun said => s.onEachToken said = .stop

/-- It is set once one of the calls has returned false. -/
theorem userStopped_iff {tokens : List Int32} :
    s.userStopped tokens = true ↔
      ∃ said, said ≠ [] ∧ said <+: tokens ∧ s.onEachToken said = .stop := by
  have hmem : ∀ said, said ∈ tokens.inits.tail ↔ said ≠ [] ∧ said <+: tokens := by
    intro said
    cases tokens with
    | nil => simp
    | cons t ts =>
      rw [List.inits_cons, List.tail_cons, List.mem_map]
      constructor
      · rintro ⟨pre, hpre, rfl⟩
        exact ⟨List.cons_ne_nil _ _, List.cons_prefix_cons.mpr ⟨rfl, (List.mem_inits _ _).mp hpre⟩⟩
      · rintro ⟨hne, hpre⟩
        cases said with
        | nil => exact absurd rfl hne
        | cons u us =>
          obtain ⟨rfl, htail⟩ := List.cons_prefix_cons.mp hpre
          exact ⟨us, (List.mem_inits _ _).mpr htail, rfl⟩
  simp only [userStopped, List.any_eq_true, hmem, decide_eq_true_eq, and_assoc]

end Stream

/-! ## The result -/

/-- `stop_reason`. -/
inductive ReportedReason
  | eos
  | length
  | user
  | contextLength
  | error
  deriving DecidableEq, Repr

/-- The text of a reason. -/
def ReportedReason.text : ReportedReason → String
  | eos => "eos"
  | length => "length"
  | user => "user"
  | contextLength => "context_length"
  | error => "error"

/-- `GenerateResult`, without the times. -/
structure GenerateResult where
  fullText : String
  promptTokens : ℕ
  generatedTokens : ℕ
  stopReason : ReportedReason
  deriving DecidableEq

/-- `finalize_generate_result`: a terminating EOS counts as a generated token. -/
def finalizeGenerateResult (promptTokens : ℕ) (fullText : String) (generatedTokens : ℕ)
    (reason : ReportedReason) : GenerateResult where
  fullText := fullText
  promptTokens := promptTokens
  generatedTokens := generatedTokens + if reason = .eos then 1 else 0
  stopReason := reason

/-- The events that a call has logged. -/
def newEvents (before after : World Int32 ρ I) : List (Event Int32 I) :=
  after.trace.take (after.trace.length - before.trace.length)

theorem newEvents_eq {w w' : World Int32 ρ I} {es : List (Event Int32 I)}
    (h : w'.trace = es ++ w.trace) : newEvents w w' = es := by
  unfold newEvents
  rw [h, List.length_append, Nat.add_sub_cancel, List.take_left]

/-- `effective_cfg`: with the tokenizer, for grammars. -/
def effectiveCfg (cfg : GenerationConfig) : GenerationConfig := { cfg with tokenizer := true }

/-- `LLMPipeline::generateTokens`: the result of the call and the model it leaves. The variables that
the callback captures hold what the tokens it was called with have made of them. -/
def generateTokens (m : ModelClass) (spec : LLMSpec) (env : Env Int32 ρ I) (s : Stream)
    (inputIds : List Int32) (cfg : GenerationConfig) (w : World Int32 ρ I) :
    Except Err GenerateResult × World Int32 ρ I :=
  let r := m.generate spec env inputIds (effectiveCfg cfg) s.onEachToken w
  let streamed := emittedTokens (newEvents w r.2)
  let finish := finalizeGenerateResult inputIds.length (String.join (s.pieces streamed))
  match r.1 with
  | .ok output =>
    (.ok (finish output.length
      (if s.userStopped streamed = true then .user
        else if cfg.maxTokens.toInt ≤ output.length then .length
        else .eos)), r.2)
  | .error (.contextLengthExceeded _) => (.ok (finish streamed.length .contextLength), r.2)
  | .error e => (.error e, r.2)

/-- The tokens that `LLMPipeline::generate` hands to the model for an encoded prompt: BOS is
prepended only on the first turn. -/
def withBos (bosTokenId : Int32) (nPast : ℕ) (encoded : List Int32) : List Int32 :=
  if 0 ≤ bosTokenId ∧ nPast = 0 ∧ (encoded = [] ∨ encoded.head? ≠ some bosTokenId) then
    bosTokenId :: encoded
  else encoded

/-- `LLMPipeline::generate(prompt_utf8, gen_cfg, on_token)` of a pipeline that is ready. -/
def generateText (m : ModelClass) (spec : LLMSpec) (env : Env Int32 ρ I) (s : Stream)
    (encode : String → List Int32) (bosTokenId : Int32) (prompt : String) (cfg : GenerationConfig)
    (w : World Int32 ρ I) : Except Err GenerateResult × World Int32 ρ I :=
  generateTokens m spec env s (withBos bosTokenId w.nPast (encode prompt)) cfg w

end Geniex
