import Geniex.Pipeline.BosToken
import Geniex.VLM.SavedConversation

/-!
# The vision pipeline

`VLMPipeline` puts a vision processor before a vision-language model and handles the BOS token, the
stream and the result with code of its own.

* `generateVision_text`: a call that reaches the model is a call of `LLMPipeline` over the model
  that `prepareInputs` has set up.
* `visionBos_iff`: over a run of the pipeline, the BOS token comes first exactly in the calls before
  which the conversation has no tokens.
* `visionReason_iff`: when the reported stop reason is the true one.
-/

namespace Geniex

open Prog

variable {R : Type} (spec : LLMSpec) (s : VLMSettings) (env : VLMEnv Int32 R)

/-- What `VisionProcessor::process` makes of a prompt and its images; `image_grid_thw` has a row for
each image. -/
structure BatchFeatures where
  inputIds : List Int32
  pixelValues : List ℚ
  imageGridThw : List ImageGrid

/-- `toPixelData` -/
def toPixelData (bf : BatchFeatures) : PixelData :=
  if bf.imageGridThw = [] then ⟨[], []⟩ else ⟨bf.pixelValues, bf.imageGridThw⟩

/-- The result of a call that does not reach the model. -/
def errorResult : GenerateResult := ⟨"", 0, 0, .error⟩

/-- The end of `VLMPipeline::generate`: the result of the model's call and the model it leaves. -/
def finishVision (st : Stream) (ids : List Int32) (cfg : GenerationConfig)
    (w : World Int32 (VLMState R) (VLMInputs R))
    (r : Except Err (List Int32) × World Int32 (VLMState R) (VLMInputs R)) :
    Except Err GenerateResult × World Int32 (VLMState R) (VLMInputs R) :=
  let streamed := emittedTokens (newEvents w r.2)
  let finish := finalizeGenerateResult ids.length (String.join (st.pieces streamed))
  match r.1 with
  | .ok output =>
    (.ok (finish output.length
      (if st.userStopped streamed = true then .user
        else if cfg.maxTokens.toInt ≤ output.length then .length
        else .eos)), r.2)
  | .error (.contextLengthExceeded _) => (.ok (finish streamed.length .contextLength), r.2)
  | .error e => (.error e, r.2)

/-- `VLMPipeline::generate(formatted_prompt, image_paths, gen_cfg, on_token)` of a pipeline that is
ready; `process` gives nothing where the processor throws. -/
def generateVision (st : Stream) (process : String → List String → Option BatchFeatures)
    (bosTokenId : Int32) (prompt : String) (imagePaths : List String) (cfg : GenerationConfig)
    (w : World Int32 (VLMState R) (VLMInputs R)) :
    Except Err GenerateResult × World Int32 (VLMState R) (VLMInputs R) :=
  match process prompt imagePaths with
  | none => (.ok errorResult, w)
  | some bf =>
    finishVision st (withBos bosTokenId w.nPast bf.inputIds) cfg w
      (vlmGenerate spec s env (withBos bosTokenId w.nPast bf.inputIds) ⟨toPixelData bf⟩
        (effectiveCfg cfg) st.onEachToken w)

variable {spec s env}

section Call

variable {st : Stream} {ids : List Int32} {cfg : GenerationConfig} {input : VLMInput}
  {w w' : World Int32 (VLMState R) (VLMInputs R)} {result : GenerateResult}

/-- The two pipelines end a call alike. -/
theorem generateTokens_finish (env : Env Int32 (VLMState R) (VLMInputs R)) :
    generateTokens .llm spec env st ids cfg w =
      finishVision st ids cfg w
        (Geniex.generate spec env ids (effectiveCfg cfg) st.onEachToken w) := rfl

/-- The clean-up after the model's call shows neither in its log nor in its past. -/
theorem cleanUp_frame (w : World Int32 (VLMState R) (VLMInputs R)) (r : Except Err (List Int32)) :
    ∃ p, cleanUp w r = { w with providers := p } := by
  cases r
  · exact ⟨w.providers, rfl⟩
  · exact ⟨_, rfl⟩

/-- A result of the model's call is the result of a text call over the prepared model. -/
theorem finishVision_text
    (hrun : finishVision st ids cfg w
      (vlmGenerate spec s env ids input (effectiveCfg cfg) st.onEachToken w) = (.ok result, w')) :
    ∃ p w₂, Installed s w.nPast ids.length p ∧
      prepareInputs s env ids input w = (.ok (), { w with providers := p }) ∧
      generateTokens .llm spec env.toEnv st ids cfg { w with providers := p } = (.ok result, w₂) ∧
      ∃ q, w' = { w₂ with providers := q } := by
  rcases hgen : vlmGenerate spec s env ids input (effectiveCfg cfg) st.onEachToken w with ⟨r, v⟩
  rw [hgen] at hrun
  rcases vlmGenerate_cases ids input _ _ w v r hgen with
    ⟨-, hr⟩ | ⟨p, w₂, -, hinst, -, hprep, hcall, rfl⟩
  · rcases hr with ⟨msg, rfl⟩ | rfl <;> cases hrun
  obtain ⟨q, hq⟩ := cleanUp_frame w₂ r
  rw [hq] at hrun
  have hend : (finishVision st ids cfg w (r, { w₂ with providers := q })).2 =
      { w₂ with providers := q } := by
    unfold finishVision
    rcases r with e | out
    · cases e <;> rfl
    · rfl
  have hresult : finishVision st ids cfg { w with providers := p } (r, w₂) = (.ok result, w₂) := by
    have hfirst : (finishVision st ids cfg w (r, { w₂ with providers := q })).1 = .ok result := by
      rw [hrun]
    unfold finishVision at hfirst ⊢
    rcases r with e | out
    · cases e with
      | contextLengthExceeded msg => exact Prod.ext hfirst rfl
      | _ => cases hfirst
    · exact Prod.ext hfirst rfl
  refine ⟨p, w₂, hinst, hprep, ?_, q, ?_⟩
  · rw [generateTokens_finish, hcall, hresult]
  · rw [hrun] at hend
    exact hend

/-- A call of the pipeline that reaches the model. -/
theorem generateVision_text {process : String → List String → Option BatchFeatures} {b : Int32}
    {prompt : String} {images : List String} {bf : BatchFeatures}
    (hbf : process prompt images = some bf)
    (hrun : generateVision spec s env st process b prompt images cfg w = (.ok result, w')) :
    ∃ p w₂, Installed s w.nPast (withBos b w.nPast bf.inputIds).length p ∧
      prepareInputs s env (withBos b w.nPast bf.inputIds) ⟨toPixelData bf⟩ w =
        (.ok (), { w with providers := p }) ∧
      generateTokens .llm spec env.toEnv st (withBos b w.nPast bf.inputIds) cfg
        { w with providers := p } = (.ok result, w₂) ∧
      ∃ q, w' = { w₂ with providers := q } := by
  unfold generateVision at hrun
  rw [hbf] at hrun
  exact finishVision_text hrun

end Call

/-! ## The BOS token -/

/-- The states of a vision pipeline between its operations. A call is one that gives a result. -/
inductive VisionRun (spec : LLMSpec) (s : VLMSettings) :
    Origin → World Int32 (VLMState R) (VLMInputs R) → Prop
  | create (table : Int32 → R) (padEmbed : Option R) (kv : KVMem) (outs : ℕ → GraphOut)
      (hiddenIn : ℕ → ℕ → UInt8) :
      VisionRun spec s .fresh (initWorld spec (newProviders s table padEmbed) kv outs hiddenIn)
  | call {o : Origin} {w w' : World Int32 (VLMState R) (VLMInputs R)} {result : GenerateResult}
      (env : VLMEnv Int32 R) (st : Stream)
      (process : String → List String → Option BatchFeatures) (bosTokenId : Int32)
      (prompt : String) (imagePaths : List String) (cfg : GenerationConfig)
      (h : VisionRun spec s o w)
      (hrun : generateVision spec s env st process bosTokenId prompt imagePaths cfg w =
        (.ok result, w')) :
      VisionRun spec s (if passedTokens (newEvents w w') = true then .tokens else o) w'
  | reset {o : Origin} {w : World Int32 (VLMState R) (VLMInputs R)} (h : VisionRun spec s o w) :
      VisionRun spec s .fresh ((vlmResetKVCache spec s w).log (.cleared w.pending.length))
  /-- A pipeline of the same bundle has saved the file; its `n_past_` is a `size_t`. -/
  | load {o o' : Origin} {w v : World Int32 (VLMState R) (VLMInputs R)} (h : VisionRun spec s o w)
      (hv : VisionRun spec s o' v) (hsize : v.nPast < 2 ^ 64) :
      VisionRun spec s (if o' = .tokens then .tokens else .emptyLoad) (loaded spec v w)
  /-- The workers complete write-backs that are still queued. -/
  | idle {o : Origin} {w : World Int32 (VLMState R) (VLMInputs R)} (done : KVJob → Bool)
      (h : VisionRun spec s o w) : VisionRun spec s o (settle spec done w)

/-- Replacing the providers leaves what the past rests on. -/
theorem PastMarks.install {o : Origin} {w : World Int32 (VLMState R) (VLMInputs R)}
    (h : PastMarks .llm spec o w) (p : VLMState R) :
    PastMarks .llm spec o { w with providers := p } := by
  have hc := h.counted rfl
  exact ⟨fun _ => ⟨hc.size, hc.le, hc.active, hc.fits, hc.entries⟩, h.zero, h.above⟩

theorem VisionRun.pastMarks {o : Origin} {w : World Int32 (VLMState R) (VLMInputs R)}
    (h : VisionRun spec s o w) : PastMarks .llm spec o w := by
  induction h with
  | create table padEmbed kv outs hiddenIn =>
    exact ⟨fun _ => initWorld_counted _ kv outs hiddenIn, fun _ => ⟨fun _ => nofun, fun _ => rfl⟩,
      Nat.zero_le _⟩
  | @call o w w' result env st process b prompt images cfg _ hrun ih =>
    cases hbf : process prompt images with
    | none =>
      have hsame : w' = w := by
        unfold generateVision at hrun
        rw [hbf] at hrun
        exact (Prod.mk.inj hrun).2.symm
      have hnone : passedTokens (newEvents w w') = false := by
        rw [hsame, newEvents_eq (List.nil_append w.trace).symm]
        rfl
      rwa [hnone, if_neg (by decide), hsame]
    | some bf =>
      obtain ⟨p, w₂, -, -, htext, q, rfl⟩ := generateVision_text hbf hrun
      exact ((ih.install p).text htext).install q
  | @reset o w _ ih =>
    have hreset : ((vlmResetKVCache spec s w).log (.cleared w.pending.length)).nPast = 0 := by
      unfold vlmResetKVCache
      cases s.cls <;> rfl
    refine ⟨fun _ => ?_, fun _ => ⟨fun _ => nofun, fun _ => hreset⟩, Nat.zero_le _⟩
    have hc := (ih.counted rfl).reset
    unfold vlmResetKVCache
    cases s.cls
    · exact hc
    · exact ⟨hc.size, hc.le, hc.active, hc.fits, hc.entries⟩
  | @load o o' w v _ _ hsize ih ihv =>
    refine ⟨fun _ => (ih.counted rfl).load (ihv.counted rfl), fun hzero => ?_, Nat.zero_le _⟩
    rw [loaded_nPast hsize, ihv.zero hzero]
    cases o' <;> simp
  | @idle o w done _ ih =>
    refine ⟨fun _ => (settle_quietly spec done w).counted (ih.counted rfl), fun hzero => ?_,
      Nat.zero_le _⟩
    rw [(settle_rested done w).nPast]
    exact ih.zero hzero

/-- The BOS token is set before a prompt that does not begin with it exactly when no token of the
conversation has been passed to the model, nor come with a loaded file. -/
theorem visionBos_iff {o : Origin} {w : World Int32 (VLMState R) (VLMInputs R)}
    (h : VisionRun spec s o w) {b : Int32} (hb : 0 ≤ b) (ids : List Int32) :
    withBos b w.nPast ids = (if o ≠ .tokens ∧ ids.head? ≠ some b then b :: ids else ids) := by
  have hzero : w.nPast = 0 ↔ o ≠ .tokens := h.pastMarks.zero rfl
  have hnil : ids = [] → ids.head? ≠ some b := fun hids => by simp [hids]
  unfold withBos
  simp only [hb, hzero, true_and]
  by_cases hhead : ids.head? = some b
  · have hne : ids ≠ [] := fun hids => hnil hids hhead
    simp [hhead, hne]
  · simp [hhead]

/-! ## The stop reason -/

/-- The result of a call that reaches the model tells the truth about the call if and only if the
model, prepared for the prompt, is not ended at the wrong place. -/
theorem visionReason_iff {st : Stream} {process : String → List String → Option BatchFeatures}
    {b : Int32} {prompt : String} {images : List String} {bf : BatchFeatures}
    {cfg : GenerationConfig} {w w' : World Int32 (VLMState R) (VLMInputs R)}
    {result : GenerateResult} (h : VLMReachable spec s env w)
    (hbf : process prompt images = some bf)
    (hrun : generateVision spec s env st process b prompt images cfg w = (.ok result, w')) :
    ∃ p es, prepareInputs s env (withBos b w.nPast bf.inputIds) ⟨toPixelData bf⟩ w =
        (.ok (), { w with providers := p }) ∧
      w'.trace = es ++ w.trace ∧
      (TellsTruth .llm spec env.toEnv st (withBos b w.nPast bf.inputIds) cfg
          { w with providers := p } es result ↔
        LLMReasonClear spec env.toEnv (withBos b w.nPast bf.inputIds) (effectiveCfg cfg)
          st.onEachToken { w with providers := p }) := by
  obtain ⟨p, w₂, -, hprep, htext, q, rfl⟩ := generateVision_text hbf hrun
  obtain ⟨es, ht, hiff⟩ := llm_tellsTruth_iff (h.reachable.install p) htext
  exact ⟨p, es, hprep, ht, hiff⟩

/-! ## A first turn with an image -/

/-- A prompt with an image of two by two merged patches. -/
def imageFeatures : BatchFeatures :=
  ⟨151652 :: List.replicate 4 151655, List.replicate 48 0, [⟨1, 4, 4⟩]⟩

/-- A processor that knows one prompt. -/
def imageProcess (_ : String) (_ : List String) : Option BatchFeatures := some imageFeatures

/-- A new `Qwen25VLModel`. -/
def newVision : World Int32 (VLMState Int32) (VLMInputs Int32) :=
  tinyVLM Int32 twoContexts .qwen25VL

/-- The model after a first call for one token. -/
def afterImage : World Int32 (VLMState Int32) (VLMInputs Int32) :=
  (generateVision twoContexts (tinySettings .qwen25VL) fourRowsEnv tinyStream imageProcess 1 "" []
    (tinyCfg 1) newVision).2

theorem afterImage_run :
    generateVision twoContexts (tinySettings .qwen25VL) fourRowsEnv tinyStream imageProcess 1 "" []
      (tinyCfg 1) newVision = (.ok ⟨"a", 6, 1, .length⟩, afterImage) := by
  have hresult : (generateVision twoContexts (tinySettings .qwen25VL) fourRowsEnv tinyStream
      imageProcess 1 "" [] (tinyCfg 1) newVision).1 = .ok ⟨"a", 6, 1, .length⟩ := by
    decide +kernel
  exact eq_of_result hresult

/-- The second turn goes without BOS. -/
theorem visionBos_iff_second : withBos 1 afterImage.nPast [5] = [5] := by
  have hnew : VisionRun twoContexts (tinySettings .qwen25VL) .fresh newVision :=
    VisionRun.create _ _ _ _ _
  have hpassed : passedTokens (newEvents newVision afterImage) = true := by decide +kernel
  have hsecond := VisionRun.call fourRowsEnv tinyStream imageProcess 1 "" [] (tinyCfg 1) hnew
    afterImage_run
  rw [if_pos hpassed] at hsecond
  have hb : (0 : Int32) ≤ 1 := by decide
  have hgiven := visionBos_iff hsecond hb [5]
  rwa [if_neg (by decide)] at hgiven

theorem visionReason_iff_first : ∃ p es,
    prepareInputs (tinySettings .qwen25VL) fourRowsEnv
        (withBos 1 newVision.nPast imageFeatures.inputIds) ⟨toPixelData imageFeatures⟩ newVision =
      (.ok (), { newVision with providers := p }) ∧
    afterImage.trace = es ++ newVision.trace ∧
    (TellsTruth .llm twoContexts fourRowsEnv.toEnv tinyStream
        (withBos 1 newVision.nPast imageFeatures.inputIds) (tinyCfg 1)
        { newVision with providers := p } es ⟨"a", 6, 1, .length⟩ ↔
      LLMReasonClear twoContexts fourRowsEnv.toEnv
        (withBos 1 newVision.nPast imageFeatures.inputIds) (effectiveCfg (tinyCfg 1))
        tinyStream.onEachToken { newVision with providers := p }) := by
  have hnew : VLMReachable twoContexts (tinySettings .qwen25VL) fourRowsEnv newVision :=
    VLMReachable.init _ _ _ _ _ _
  have hbf : imageProcess "" [] = some imageFeatures := rfl
  exact visionReason_iff hnew hbf afterImage_run

end Geniex
