import Geniex.LLM.Rejection
import Geniex.VLM.Rows

/-!
# Rejected prompts of a vision-language model

`VLMModel::generate` installs the tables of a prompt before `LLMModel::generate` looks whether there
is room for it.

* `Holds`: the providers hold the tables of a prompt already (`prepared_iff`).
* `harmless_iff`: the rejected calls that change nothing, for the three classes.
-/

namespace Geniex

open Prog

variable {τ R : Type} [Token τ] {spec : LLMSpec} {s : VLMSettings} {env : VLMEnv τ R}

/-! ## The tables of a prompt -/

/-- The positions of a prompt, before the offset of the conversation. -/
def promptPositions (s : VLMSettings) (ids : List Int32) (input : VLMInput) : MRoPEPositions :=
  computeMRoPEPositions ids input.pixelData.imageGridThw []
    ⟨s.spatialMergeSize, s.visionStartToken, s.imageTokenId, 0, 0⟩

/-- The tables of a prompt at position `n` are installed, with these embeddings and these DeepStack
levels if it has an image, and the prompt leaves the offset of the positions after it alone. -/
structure TablesOf (s : VLMSettings) (ids : List Int32) (input : VLMInput) (n : ℕ)
    (embeds : List (Option R)) (levels : Option (List (List R))) (p : VLMState R) : Prop where
  buffer : p.embProvider.buffer = embeds
  bufferOffset : p.embProvider.bufferOffset = n
  table : p.mropeProvider.table = (promptPositions s ids input).positionIds.map
    (· + (Position.diagonal (Int32.ofNat n) + p.mropeDeltas))
  hasPositions : p.mropeProvider.hasPrefillPositions = true
  positionOffset : p.mropeProvider.positionOffset = n
  deltas : (promptPositions s ids input).deltas = 0
  sameDeltas : p.mropeProvider.mropeDeltas = p.mropeDeltas
  embeds : ∀ d, p.deepstackProvider = some d → ∀ l, levels = some l → d.embeds = l
  mask : s.cls = .qwen3VL → ∀ d, p.deepstackProvider = some d →
    d.mask = ids.map (decide <| · = s.imageTokenId) ∧ d.maskOffset = n

omit [Token τ] in
theorem Position.add_eq_left (p q : Position) : p + q = p ↔ q = 0 := by
  obtain ⟨a, b, c⟩ := p
  obtain ⟨x, y, z⟩ := q
  have hsum : (⟨a, b, c⟩ + ⟨x, y, z⟩ : Position) = ⟨a + x, b + y, c + z⟩ := rfl
  have hzero : (0 : Position) = ⟨0, 0, 0⟩ := rfl
  rw [hsum, hzero]
  simp

/-- `setDeepstackEmbeds` for a prompt with an image. -/
def withLevels (levels : Option (List (List R))) (p : VLMState R) : VLMState R :=
  match levels with
  | none => p
  | some l => p.setDeepstackEmbeds l

/-- What is installed in a DeepStack provider. -/
def installDeepstack (s : VLMSettings) (ids : List Int32) (n : ℕ) (levels : Option (List (List R)))
    (d : DeepstackInputProvider R) : DeepstackInputProvider R :=
  match s.cls with
  | .qwen25VL => { d with embeds := levels.getD d.embeds }
  | .qwen3VL => ⟨levels.getD d.embeds, ids.map (decide <| · = s.imageTokenId), n⟩

omit [Token τ] in
theorem installs_eq (ids : List Int32) (input : VLMInput) (n : ℕ) (embeds : List (Option R))
    (levels : Option (List (List R))) (p : VLMState R) :
    ((withLevels levels p).setBuffer n embeds).preparePositions s ids input n =
      { embProvider := p.embProvider.setBuffer embeds n
        mropeProvider := ⟨(promptPositions s ids input).positionIds.map
          (· + (Position.diagonal (Int32.ofNat n) + p.mropeDeltas)), true, n,
          p.mropeDeltas + (promptPositions s ids input).deltas⟩
        deepstackProvider := p.deepstackProvider.map (installDeepstack s ids n levels)
        mropeDeltas := p.mropeDeltas + (promptPositions s ids input).deltas } := by
  unfold VLMState.preparePositions installDeepstack
  cases s.cls <;> cases levels <;> cases hd : p.deepstackProvider <;>
    simp [withLevels, VLMState.setBuffer, VLMState.prepareMRoPE, VLMState.prepareVisualMask,
      VLMState.setDeepstackEmbeds, MRoPEInputProvider.setPositionIds,
      MRoPEInputProvider.setMropeDeltas, DeepstackInputProvider.setEmbeds,
      DeepstackInputProvider.setVisualMask, promptPositions, hd]

theorem installDeepstack_iff (ids : List Int32) (n : ℕ) (levels : Option (List (List R)))
    (d : DeepstackInputProvider R) : installDeepstack s ids n levels d = d ↔
      (∀ l, levels = some l → d.embeds = l) ∧
      (s.cls = .qwen3VL → d.mask = ids.map (decide <| · = s.imageTokenId) ∧ d.maskOffset = n) := by
  obtain ⟨embeds, mask, off⟩ := d
  unfold installDeepstack
  cases s.cls <;> cases levels <;> simp [eq_comm]

/-- Installing the tables of a prompt changes nothing just where they are installed. -/
theorem installs_nothing_iff (ids : List Int32) (input : VLMInput) (n : ℕ)
    (embeds : List (Option R)) (levels : Option (List (List R))) (p : VLMState R) :
    ((withLevels levels p).setBuffer n embeds).preparePositions s ids input n = p ↔
      TablesOf s ids input n embeds levels p := by
  rw [installs_eq]
  constructor
  · intro h
    have hemb := congrArg VLMState.embProvider h
    have hmrope := congrArg VLMState.mropeProvider h
    have hdeep := congrArg VLMState.deepstackProvider h
    have hdeltas := congrArg VLMState.mropeDeltas h
    have hsame := congrArg MRoPEInputProvider.mropeDeltas hmrope
    have hfix : ∀ d, p.deepstackProvider = some d → installDeepstack s ids n levels d = d := by
      intro d hd
      rw [hd] at hdeep
      exact Option.some.inj hdeep
    exact {
      buffer := (congrArg PrecomputedEmbeddingProvider.buffer hemb).symm
      bufferOffset := (congrArg PrecomputedEmbeddingProvider.bufferOffset hemb).symm
      table := (congrArg MRoPEInputProvider.table hmrope).symm
      hasPositions := (congrArg MRoPEInputProvider.hasPrefillPositions hmrope).symm
      positionOffset := (congrArg MRoPEInputProvider.positionOffset hmrope).symm
      deltas := (Position.add_eq_left _ _).mp hdeltas
      sameDeltas := hsame.symm.trans hdeltas
      embeds := fun d hd => ((installDeepstack_iff ids n levels d).mp (hfix d hd)).1
      mask := fun hcls d hd => ((installDeepstack_iff ids n levels d).mp (hfix d hd)).2 hcls }
  · intro h
    have hdeltas : p.mropeDeltas + (promptPositions s ids input).deltas = p.mropeDeltas :=
      (Position.add_eq_left _ _).mpr h.deltas
    have hemb : p.embProvider.setBuffer embeds n = p.embProvider := by
      unfold PrecomputedEmbeddingProvider.setBuffer
      rw [← h.buffer, ← h.bufferOffset]
    have hdeep : p.deepstackProvider.map (installDeepstack s ids n levels) =
        p.deepstackProvider := by
      cases hd : p.deepstackProvider with
      | none => rfl
      | some d =>
        refine congrArg some ((installDeepstack_iff ids n levels d).mpr ⟨h.embeds d hd, fun hcls =>
          h.mask hcls d hd⟩)
    rw [hemb, hdeep, hdeltas, ← h.table, ← h.hasPositions]
    nth_rewrite 1 [← h.positionOffset, ← h.sameDeltas]
    rfl

/-- The providers hold the tables of a prompt already, with the image features that the encoder
computes. -/
structure Holds (s : VLMSettings) (env : VLMEnv τ R) (prompt : List τ) (input : VLMInput)
    (w : World τ (VLMState R) (VLMInputs R)) : Prop where
  text : input.pixelData.pixelValues = [] → TablesOf s (prompt.map Token.id) input w.nPast
    (w.providers.embProvider.lookupBatch (prompt.map Token.id)) none w.providers
  image : input.pixelData.pixelValues ≠ [] → ∀ features levels,
    env.encode input.pixelData = .ok (features, levels) →
    TablesOf s (prompt.map Token.id) input w.nPast
      (maskedScatter (w.providers.embProvider.lookupBatch (prompt.map Token.id)) features
        (prompt.map Token.id) s.imageTokenId) (some levels) w.providers

/-- What `prepareInputs` installs in the providers. -/
theorem prepareInputs_providers {prompt : List τ} {input : VLMInput}
    {w : World τ (VLMState R) (VLMInputs R)} {p : VLMState R} (hne : prompt ≠ [])
    (hrun : prepareInputs s env prompt input w = (.ok (), { w with providers := p })) :
    ∃ embeds levels, p = ((withLevels levels w.providers).setBuffer w.nPast embeds).preparePositions
        s (prompt.map Token.id) input w.nPast ∧
      (TablesOf s (prompt.map Token.id) input w.nPast embeds levels w.providers ↔
        Holds s env prompt input w) := by
  set ids := prompt.map Token.id with hids
  unfold prepareInputs embedPrompt at hrun
  rw [Prog.when, if_neg hne, pure_bind', bind_assoc', get_bind] at hrun
  by_cases himage : input.pixelData.pixelValues = []
  · rw [if_pos himage] at hrun
    have hp := congrArg (World.providers ∘ Prod.snd) hrun
    exact ⟨_, none, hp.symm, fun h => ⟨fun _ => h, fun hno => absurd himage hno⟩,
      fun h => h.text himage⟩
  · rw [if_neg himage] at hrun
    unfold encodeVision at hrun
    cases hencode : env.encode input.pixelData with
    | error msg =>
      rw [hencode] at hrun
      cases hrun
    | ok out =>
      obtain ⟨features, levels⟩ := out
      rw [hencode] at hrun
      have hp := congrArg (World.providers ∘ Prod.snd) hrun
      refine ⟨_, some levels, hp.symm, fun h => ⟨fun hyes => absurd hyes himage,
        fun _ features' levels' heq => ?_⟩, fun h => h.image himage features levels hencode⟩
      rw [hencode] at heq
      cases heq
      exact h

/-- The providers stay as they are just where they hold the tables of the prompt. -/
theorem prepared_iff {prompt : List τ} {input : VLMInput}
    {w : World τ (VLMState R) (VLMInputs R)} {p : VLMState R} (hne : prompt ≠ [])
    (hrun : prepareInputs s env prompt input w = (.ok (), { w with providers := p })) :
    p = w.providers ↔ Holds s env prompt input w := by
  obtain ⟨embeds, levels, rfl, hholds⟩ := prepareInputs_providers hne hrun
  exact (installs_nothing_iff _ input w.nPast embeds levels w.providers).trans hholds

/-! ## The same calls -/

section Twin

variable {w v : World τ (VLMState R) (VLMInputs R)}

omit [Token τ] in
theorem Twin.providers (h : Twin w v) : v.providers = w.providers := by
  obtain ⟨c, clock, trace, rfl⟩ := h.same
  rfl

omit [Token τ] in
theorem Twin.modifyProviders (f : VLMState R → VLMState R) :
    InStep Twin (modifyProviders f : VLMRun τ R Unit) (modifyProviders f) (fun _ => Twin)
      fun _ => Twin :=
  InStep.modify fun w v h => by
    obtain ⟨c, clock, trace, rfl⟩ := h.same
    exact ⟨⟨_, _, _, rfl⟩, h.samplerCfg⟩

theorem Twin.prepareInputs (prompt : List τ) (input : VLMInput) :
    InStep Twin (prepareInputs s env prompt input) (prepareInputs s env prompt input)
      (fun _ => Twin) fun _ => Twin := by
  have hembed : ∀ ids : List Int32, InStep Twin (embedPrompt s env ids input)
      (embedPrompt s env ids input) (fun _ => Twin) fun _ => Twin := by
    refine fun ids => InStep.get fun w₀ v₀ h₀ => ?_
    rw [h₀.providers]
    refine (InStep.ite Iff.rfl (fun _ => InStep.pure fun _ _ h => h) fun _ =>
      InStep.bind (R := fun _ => Twin) ?_ fun _ => InStep.pure fun _ _ h => h).pre ?_
    · unfold encodeVision
      cases env.encode input.pixelData with
      | error msg => exact InStep.throw fun _ _ h => h
      | ok out => exact InStep.bind (Twin.modifyProviders _) fun _ => InStep.pure fun _ _ h => h
    · rintro w v ⟨rfl, rfl⟩
      exact h₀
  refine InStep.bind (R := fun _ => Twin) (InStep.when Iff.rfl (fun _ => InStep.throw
    fun _ _ h => h) fun _ _ _ h => h) fun _ => InStep.bind (hembed _) fun embeds =>
      InStep.get fun w₀ v₀ h₀ => ?_
  rw [← (Twin.carried.books h₀).nPast]
  refine (InStep.bind (Twin.modifyProviders _) fun _ => Twin.modifyProviders _).pre ?_
  rintro w v ⟨rfl, rfl⟩
  exact h₀

theorem Twin.vlmGenerate (prompt : List τ) (input : VLMInput) (cfg : GenerationConfig)
    (callback : List Int32 → CallbackAnswer) :
    InStep Twin (vlmGenerate spec s env prompt input cfg callback)
      (vlmGenerate spec s env prompt input cfg callback) (fun _ => Twin) fun _ => Twin :=
  InStep.bind (Twin.prepareInputs prompt input) fun _ =>
    InStep.bind (Twin.generate prompt cfg callback) fun _ =>
      InStep.bind (Twin.modifyProviders _) fun _ => InStep.bind (Twin.modifyProviders _) fun _ =>
        InStep.pure fun _ _ h => h

end Twin

/-! ## What a rejection changes -/

/-- A call of a vision-language model that is rejected before it executes a graph of the language
model. -/
structure VLMRejection (spec : LLMSpec) (s : VLMSettings) (env : VLMEnv τ R) where
  prompt : List τ
  input : VLMInput
  cfg : GenerationConfig
  callback : List Int32 → CallbackAnswer
  before : World τ (VLMState R) (VLMInputs R)
  after : World τ (VLMState R) (VLMInputs R)
  msg : String
  reachable : VLMReachable spec s env before
  run : vlmGenerate spec s env prompt input cfg callback before =
    (.error (.contextLengthExceeded msg), after)
  idle : execs after.trace = execs before.trace

namespace VLMRejection

/-- A rejection changes nothing, and a later shorter prompt produces what it would have produced. -/
def Harmless (r : VLMRejection spec s env) : Prop :=
  Unchanged r.before r.after ∧ ∀ prompt input cfg callback, prompt.length < r.prompt.length →
    (vlmGenerate spec s env prompt input cfg callback r.after).1 =
      (vlmGenerate spec s env prompt input cfg callback r.before).1

/-- The call samples greedily, there is no sampler, and the providers hold the tables of the prompt
already. -/
structure Bare (r : VLMRejection spec s env) : Prop where
  greedy : r.cfg.enableSampling = false
  noSampler : r.before.sampler = none
  holds : Holds s env r.prompt r.input r.before

variable (r : VLMRejection spec s env)

/-- The rejected call of the language model. -/
theorem inner : ∃ (p : VLMState R) (q : Rejection spec env.toEnv),
    (p = r.before.providers ↔ Holds s env r.prompt r.input r.before) ∧ q.prompt ≠ [] ∧
      q.cfg = r.cfg ∧ q.before = { r.before with providers := p } ∧ q.after = r.after := by
  rcases vlmGenerate_cases r.prompt r.input r.cfg r.callback r.before r.after _ r.run with
    ⟨-, ⟨msg, h⟩ | h⟩ | ⟨p, w₂, hne, -, -, hprep, hgen, hafter⟩
  · cases h
  · cases h
  · have hw₂ : r.after = w₂ := hafter
    subst hw₂
    exact ⟨p, ⟨r.prompt, r.cfg, r.callback, { r.before with providers := p }, r.after, r.msg,
      r.reachable.reachable.install p, hgen, r.idle⟩, prepared_iff hne hprep, hne, rfl, rfl, rfl⟩

theorem harmless_bare : r.Harmless ↔ r.Bare := by
  obtain ⟨p, q, hholds, hne, hcfg, hbefore, hafter⟩ := r.inner
  have hbare : q.Bare ↔ r.cfg.enableSampling = false ∧ r.before.sampler = none := by
    refine ⟨fun h => ⟨hcfg ▸ h.greedy, ?_⟩, fun h => ⟨hcfg ▸ h.1, ?_, fun hnil => absurd hnil hne⟩⟩
    · have hnone := h.noSampler
      rwa [hbefore] at hnone
    · rw [hbefore]
      exact h.2
  -- where the providers stay, the call of the language model starts in the same state
  have hsame : Holds s env r.prompt r.input r.before → q.before = r.before := by
    intro h
    rw [hbefore, hholds.mpr h]
  constructor
  · intro h
    have hproviders : r.after.providers = p := by
      obtain ⟨s', c, clock, trace, hstate⟩ := q.left.2.state
      have hbase : rejectedBase spec q.prompt q.before = q.before := if_neg hne
      rw [hbase, hbefore] at hstate
      rw [← hafter, hstate]
    have hold : Holds s env r.prompt r.input r.before :=
      hholds.mp (hproviders.symm.trans h.1.providers)
    have hunchanged : Unchanged q.before q.after := by
      rw [hsame hold, hafter]
      exact h.1
    obtain ⟨hgreedy, hnone⟩ := hbare.mp (q.unchanged_iff.mp hunchanged)
    exact ⟨hgreedy, hnone, hold⟩
  · intro h
    have hq : q.Bare := hbare.mpr ⟨h.greedy, h.noSampler⟩
    have hunchanged := q.unchanged_iff.mpr hq
    have htwin := q.twin hq
    rw [hsame h.holds, hafter] at hunchanged htwin
    exact ⟨hunchanged, fun prompt input cfg callback _ =>
      ((Twin.vlmGenerate prompt input cfg callback).result htwin).symm⟩

end VLMRejection

/-- **Which rejected calls leave the conversation as it was.** A call that throws
`ContextLengthExceededError` before it executes a graph changes nothing that a later call reads, if
and only if it samples greedily, there is no sampler, and nothing was left to install: for an empty
prompt the KV tensors are the same at both strides and nothing is queued, and for a
vision-language model the providers hold the tables of the prompt already. -/
theorem harmless_iff {ρ I : Type} (spec : LLMSpec) (s : VLMSettings) (env : Env τ ρ I)
    (vlmEnv : VLMEnv τ R) :
    (∀ r : Rejection spec env, r.Harmless ↔ r.Bare) ∧
      ∀ r : VLMRejection spec s vlmEnv, r.Harmless ↔ r.Bare :=
  ⟨fun r => r.harmless_bare, fun r => r.harmless_bare⟩

/-- A prompt of five tokens for a new instance with four columns. -/
def tinyRejection (cfg : GenerationConfig)
    (hrun : (generate fourColumns (tinyEnv 1 1) [0, 0, 0, 0, 0] cfg (fun _ => .continue)
      (tinyWorld fourColumns)).1 =
        .error (.contextLengthExceeded (promptExceedsMsg fourColumns)))
    (hidle : (execs (generate fourColumns (tinyEnv 1 1) [0, 0, 0, 0, 0] cfg
      (fun _ => .continue) (tinyWorld fourColumns)).2.trace).length = 0) :
    Rejection fourColumns (tinyEnv 1 1) where
  prompt := [0, 0, 0, 0, 0]
  cfg := cfg
  callback _ := .continue
  before := tinyWorld fourColumns
  after := _
  msg := promptExceedsMsg fourColumns
  reachable := tinyWorld_reachable _ _
  run := eq_of_result hrun
  idle := List.eq_nil_of_length_eq_zero hidle

/-- The same for a vision-language model, with greedy sampling and no image. -/
def tinyVLMRejection : VLMRejection fourColumns (tinySettings .qwen25VL)
    (tinyVLMEnv Int32) where
  prompt := [0, 0, 0, 0, 0]
  input := noImage
  cfg := tinyCfg 1
  callback _ := .continue
  before := tinyVLM Int32 fourColumns .qwen25VL
  after := _
  msg := promptExceedsMsg fourColumns
  reachable := tinyVLM_reachable Int32 fourColumns .qwen25VL
  run := eq_of_result (by decide +kernel)
  idle := List.eq_nil_of_length_eq_zero (by decide +kernel)

/-- With greedy sampling on a new instance the rejection changes nothing. -/
theorem harmless_greedy :
    (tinyRejection (tinyCfg 1) (by decide +kernel) (by decide +kernel)).Harmless :=
  ((harmless_iff (tinySpec [4] 2 1) (tinySettings .qwen25VL) (tinyEnv 1 1) (tinyVLMEnv Int32)).1
    _).mpr ⟨rfl, rfl, nofun⟩

/-- With sampling enabled the sampler has been fed the rejected prompt, and a vision-language model
keeps its tables even with greedy sampling. -/
theorem rejection_leaves_traces :
    (∃ r : Rejection (tinySpec [4] 2 1) (tinyEnv 1 1), ¬r.Harmless) ∧
    ∃ r : VLMRejection (tinySpec [4] 2 1) (tinySettings .qwen25VL) (tinyVLMEnv Int32),
      r.cfg.enableSampling = false ∧ r.before.sampler = none ∧ ¬r.Harmless := by
  refine ⟨⟨tinyRejection { maxTokens := 1, seed := 0, enableSampling := true } (by decide +kernel)
    (by decide +kernel), fun h => ?_⟩, tinyVLMRejection, rfl, rfl, fun h => ?_⟩
  · have hbare := (Rejection.harmless_bare _).mp h
    exact absurd hbare.greedy (by decide)
  · have hbare := (VLMRejection.harmless_bare _).mp h
    have hbuffer := (hbare.holds.text rfl).buffer
    cases hbuffer

end Geniex
