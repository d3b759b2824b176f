import Geniex.VLM.Model
import Geniex.LLM.Passes

/-!
# Runs of a vision-language model

* `VLMReachable`: the states between the operations of a run. They are states of a run of the
  underlying `LLMModel` (`VLMReachable.reachable`).
* `Installed`: what `prepareInputs` leaves in the providers (`prepareInputs_installed`).
-/

namespace Geniex

open Prog

variable {τ R : Type} [Token τ]

/-- The states between the operations of a run of a vision-language model. -/
inductive VLMReachable (spec : LLMSpec) (s : VLMSettings) :
    VLMEnv τ R → World τ (VLMState R) (VLMInputs R) → Prop
  | init (env : VLMEnv τ R) (table : Int32 → R) (padEmbed : Option R) (kv : KVMem)
      (outs : ℕ → GraphOut) (hiddenIn : ℕ → ℕ → UInt8) :
      VLMReachable spec s env (initWorld spec (newProviders s table padEmbed) kv outs hiddenIn)
  | generate {env : VLMEnv τ R} {w w' : World τ (VLMState R) (VLMInputs R)}
      {r : Except Err (List τ)} (prompt : List τ) (input : VLMInput) (cfg : GenerationConfig)
      (callback : List Int32 → CallbackAnswer) (h : VLMReachable spec s env w)
      (hrun : vlmGenerate spec s env prompt input cfg callback w = (r, w'))
      (hr : r ≠ .error .blocked) (hz : r ≠ .error .divisionByZero) : VLMReachable spec s env w'
  | reset {env : VLMEnv τ R} {w : World τ (VLMState R) (VLMInputs R)}
      (h : VLMReachable spec s env w) :
      VLMReachable spec s env ((vlmResetKVCache spec s w).log (.cleared w.pending.length))
  | load {env env' : VLMEnv τ R} {w v : World τ (VLMState R) (VLMInputs R)}
      (h : VLMReachable spec s env w) (hv : VLMReachable spec s env' v) :
      VLMReachable spec s env (loaded spec v w)
  /-- The workers complete jobs that are still queued. -/
  | idle {env : VLMEnv τ R} {w : World τ (VLMState R) (VLMInputs R)} (done : KVJob → Bool)
      (hn : 0 < env.nWorkers) (h : VLMReachable spec s env w) :
      VLMReachable spec s env (settle spec done w)

variable {spec : LLMSpec} {s : VLMSettings} {env : VLMEnv τ R}
  {w : World τ (VLMState R) (VLMInputs R)}

/-! ## Preparing the providers -/

/-- The tables of a prompt of `L` tokens that starts at position `o`. -/
structure Installed (s : VLMSettings) (o L : ℕ) (p : VLMState R) : Prop where
  buffer : p.embProvider.buffer.length = L
  bufferOffset : p.embProvider.bufferOffset = o
  table : p.mropeProvider.table.length = L
  hasPositions : p.mropeProvider.hasPrefillPositions = true
  positionOffset : p.mropeProvider.positionOffset = o
  mask : s.cls = .qwen3VL → ∀ d, p.deepstackProvider = some d →
    d.mask.length = L ∧ d.maskOffset = o

omit [Token τ] in
theorem scatterFrom_length (multimodal : List R) (target : Int32) (row : ℕ) (ids : List Int32)
    (es : List (Option R)) : (scatterFrom multimodal target row ids es).length = es.length := by
  induction ids generalizing row es with
  | nil => cases es <;> rfl
  | cons id ids ih =>
    cases es with
    | nil => rfl
    | cons e es =>
      unfold scatterFrom
      split_ifs <;> rw [List.length_cons, List.length_cons, ih]

omit [Token τ] in
/-- An embedding for each token of the prompt. -/
theorem embedPrompt_length (ids : List Int32) (input : VLMInput)
    (w₀ : World τ (VLMState R) (VLMInputs R)) :
    Triple (fun w => w = w₀) (embedPrompt s env ids input)
      (fun embeds w => embeds.length = ids.length ∧ ∃ p, w = { w₀ with providers := p } ∧
        (p.deepstackProvider = none ↔ w₀.providers.deepstackProvider = none))
      (fun e w => w = w₀ ∧ ∃ msg, e = .visionFailed msg) := by
  refine Triple.get fun w₁ hw₁ => ?_
  subst hw₁
  have htext : (w₁.providers.embProvider.lookupBatch ids).length = ids.length := List.length_map ..
  refine Triple.ite (fun _ => Triple.pure fun w hw => ⟨htext, w₁.providers, hw, Iff.rfl⟩)
    fun _ => ?_
  refine Triple.bind (R := fun _ w => ∃ p, w = { w₁ with providers := p } ∧
      (p.deepstackProvider = none ↔ w₁.providers.deepstackProvider = none)) ?_ fun features =>
    Triple.pure fun w hw => ⟨(scatterFrom_length ..).trans htext, hw⟩
  unfold encodeVision
  cases env.encode input.pixelData with
  | error msg => exact Triple.throw fun w hw => ⟨hw, msg, rfl⟩
  | ok out =>
    refine Triple.bind (R := fun _ w => ∃ p, w = { w₁ with providers := p } ∧
      (p.deepstackProvider = none ↔ w₁.providers.deepstackProvider = none))
      (Triple.modify fun w hw => ?_) fun _ => Triple.pure fun _ h => h
    subst hw
    exact ⟨_, rfl, Option.map_eq_none_iff⟩

/-- `prepareInputs` changes the providers only; when it returns, they hold the tables of the
prompt. -/
theorem prepareInputs_installed (prompt : List τ) (input : VLMInput)
    (w₀ : World τ (VLMState R) (VLMInputs R)) :
    Triple (fun w => w = w₀) (prepareInputs s env prompt input)
      (fun _ w => prompt ≠ [] ∧ ∃ p, w = { w₀ with providers := p } ∧
        (p.deepstackProvider = none ↔ w₀.providers.deepstackProvider = none) ∧
        Installed s w₀.nPast prompt.length p)
      (fun e w => w = w₀ ∧ ((∃ msg, e = .visionFailed msg) ∨ e = .divisionByZero)) := by
  refine Triple.bind (R := fun _ w => w = w₀ ∧ prompt ≠ [])
    (Triple.when (fun _ => Triple.throw fun w hw => ⟨hw, Or.inr rfl⟩) fun h w hw => ⟨hw, h⟩)
    fun _ => Triple.of_eq fun w₁ hw₁ => ?_
  obtain ⟨rfl, hne⟩ := hw₁
  refine Triple.bind ((embedPrompt_length _ input w₁).conseq (fun _ h => h) (fun _ _ h => h)
    fun _ w hw => ⟨hw.1, Or.inl hw.2⟩) fun embeds => Triple.get fun w₂ hw₂ => ?_
  obtain ⟨hlen, p, rfl, hd⟩ := hw₂
  refine Triple.bind (R := fun _ w => w = { w₁ with providers := p.setBuffer w₁.nPast embeds })
    (Triple.modify fun w hw => by subst hw; rfl) fun _ => Triple.modify fun w hw => ?_
  subst hw
  rw [List.length_map] at hlen
  have hpos : ((computeMRoPEPositions (prompt.map Token.id) input.pixelData.imageGridThw []
      ⟨s.spatialMergeSize, s.visionStartToken, s.imageTokenId, 0, 0⟩).positionIds).length =
      prompt.length := (computeMRoPEPositions_length ..).trans (List.length_map ..)
  refine ⟨hne, _, rfl, ?_, ?_⟩
  · unfold VLMState.preparePositions
    cases s.cls with
    | qwen25VL => exact hd
    | qwen3VL => exact Option.map_eq_none_iff.trans hd
  · unfold VLMState.preparePositions
    cases hcls : s.cls with
    | qwen25VL =>
      exact ⟨hlen, rfl, (List.length_map ..).trans hpos, rfl, rfl, fun h => by cases hcls.symm.trans h⟩
    | qwen3VL =>
      refine ⟨hlen, rfl, (List.length_map ..).trans hpos, rfl, rfl, fun _ d hmask => ?_⟩
      obtain ⟨d', -, rfl⟩ := Option.map_eq_some_iff.mp hmask
      exact ⟨(List.length_map ..).trans (List.length_map ..), rfl⟩

/-! ## The underlying model -/

/-- The clean-up after `LLMModel::generate`, which only a return reaches. -/
def cleanUp (w : World τ (VLMState R) (VLMInputs R)) :
    Except Err (List τ) → World τ (VLMState R) (VLMInputs R)
  | .ok _ => { w with providers := w.providers.clearBuffer.clearPositions }
  | .error _ => w

/-- A call of `VLMModel::generate` is a call of `LLMModel::generate` from the prepared providers,
unless it ends before. -/
theorem vlmGenerate_cases (prompt : List τ) (input : VLMInput) (cfg : GenerationConfig)
    (callback : List Int32 → CallbackAnswer) (w₀ w' : World τ (VLMState R) (VLMInputs R))
    (r : Except Err (List τ)) (hrun : vlmGenerate spec s env prompt input cfg callback w₀ = (r, w')) :
    (w' = w₀ ∧ ((∃ msg, r = .error (.visionFailed msg)) ∨ r = .error .divisionByZero)) ∨
      ∃ p w₂, prompt ≠ [] ∧ Installed s w₀.nPast prompt.length p ∧
        (p.deepstackProvider = none ↔ w₀.providers.deepstackProvider = none) ∧
        prepareInputs s env prompt input w₀ = (.ok (), { w₀ with providers := p }) ∧
        Geniex.generate spec env.toEnv prompt cfg callback { w₀ with providers := p } = (r, w₂) ∧
        w' = cleanUp w₂ r := by
  unfold vlmGenerate at hrun
  rcases hprep : prepareInputs s env prompt input w₀ with ⟨r₁, w₁⟩
  cases r₁ with
  | error e =>
    rw [bind_error hprep] at hrun
    cases hrun
    obtain ⟨rfl, hcase⟩ := (prepareInputs_installed prompt input w₀).error rfl hprep
    refine Or.inl ⟨rfl, hcase.imp ?_ (congrArg _)⟩
    rintro ⟨msg, rfl⟩
    exact ⟨msg, rfl⟩
  | ok u =>
    obtain ⟨hne, p, rfl, hd, hinst⟩ := (prepareInputs_installed prompt input w₀).ok rfl hprep
    rw [bind_ok hprep] at hrun
    rcases hgen : Geniex.generate spec env.toEnv prompt cfg callback { w₀ with providers := p }
      with ⟨r₂, w₂⟩
    refine Or.inr ⟨p, w₂, hne, hinst, hd, rfl, ?_⟩
    cases r₂ with
    | error e =>
      rw [bind_error hgen] at hrun
      cases hrun
      exact ⟨hgen, rfl⟩
    | ok out =>
      rw [bind_ok hgen] at hrun
      cases hrun
      exact ⟨hgen, rfl⟩

/-- The states of a run are states of a run of the underlying `LLMModel`. -/
theorem VLMReachable.reachable (h : VLMReachable spec s env w) : Reachable spec env.toEnv w := by
  induction h with
  | init env table padEmbed kv outs hiddenIn => exact .init _ _ _ _ _
  | @generate env w w' r prompt input cfg callback _ hrun hr hz ih =>
    rcases vlmGenerate_cases prompt input cfg callback w w' r hrun with
      ⟨rfl, -⟩ | ⟨p, w₂, -, -, -, -, hgen, rfl⟩
    · exact ih
    · have h₂ : Reachable spec env.toEnv w₂ := .generate prompt cfg callback (ih.install p) hgen hr
      cases r with
      | ok _ => exact h₂.install _
      | error _ => exact h₂
  | @reset env w _ ih =>
    unfold vlmResetKVCache
    cases s.cls with
    | qwen25VL => exact ih.reset
    | qwen3VL => exact ih.reset.install w.providers.resetPositions
  | load _ _ ih ihv => exact ih.load ihv
  | idle done hn _ ih => exact ih.idle done hn

/-- Only a `Qwen25VLModel` has no DeepStack provider. -/
theorem VLMReachable.deepstack_iff (h : VLMReachable spec s env w) :
    w.providers.deepstackProvider = none ↔ s.cls = .qwen25VL := by
  induction h with
  | init env table padEmbed kv outs hiddenIn =>
    show (newProviders s table padEmbed).deepstackProvider = none ↔ _
    unfold newProviders
    cases s.cls <;> simp
  | @generate env w w' r prompt input cfg callback _ hrun hr hz ih =>
    rcases vlmGenerate_cases prompt input cfg callback w w' r hrun with
      ⟨rfl, -⟩ | ⟨p, w₂, -, -, hd, -, hgen, rfl⟩
    · exact ih
    · have hp := generate_providers spec env.toEnv prompt cfg callback { w with providers := p }
      rw [hgen] at hp
      have hsame : w₂.providers.deepstackProvider = none ↔ s.cls = .qwen25VL := by
        rw [hp]
        exact hd.trans ih
      cases r with
      | ok _ => exact Option.map_eq_none_iff.trans hsame
      | error _ => exact hsame
  | @reset env w _ ih =>
    unfold vlmResetKVCache
    cases hcls : s.cls with
    | qwen25VL => exact ih.trans (by rw [hcls])
    | qwen3VL => exact Option.map_eq_none_iff.trans (ih.trans (by rw [hcls]))
  | load _ hv ih _ =>
    rw [loaded_eq hv.reachable.counted]
    exact ih
  | @idle env w done _ _ ih =>
    have hran : Ran spec env.toEnv (fun _ => False) w _ := settle_ran done w
    rw [hran.providers]
    exact ih

theorem VLMReachable.deepstack (h : VLMReachable spec s env w) (hcls : s.cls = .qwen25VL) :
    w.providers.deepstackProvider = none :=
  h.deepstack_iff.mpr hcls

end Geniex
