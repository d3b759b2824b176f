import Geniex.LLM.Replay
import Geniex.VLM.Runs

/-!
# Two vision-language models that go on alike

What a prompt is prepared from is the embedding table, the DeepStack levels and the offset of the
positions (`ProvidersAlike`); the rest of the providers is installed anew with every prompt.

* `vlmGenerate_alike`: a call keeps two models alike.
* `vlmResetKVCache_alike`: a reset leaves what a new model has, where no offset is left.
-/

namespace Geniex

open Prog

variable {τ R : Type} [Token τ] {spec : LLMSpec} {s : VLMSettings} {env env' : VLMEnv τ R}

/-- What is read before it is installed. -/
structure ProvidersAlike (p p' : VLMState R) : Prop where
  table : p'.embProvider.table = p.embProvider.table
  padEmbed : p'.embProvider.padEmbed = p.embProvider.padEmbed
  deepstack : p'.deepstackProvider = p.deepstackProvider
  mropeDeltas : p'.mropeDeltas = p.mropeDeltas

theorem ProvidersAlike.refl (p : VLMState R) : ProvidersAlike p p := ⟨rfl, rfl, rfl, rfl⟩

namespace ProvidersAlike

variable {p p' : VLMState R}

theorem setDeepstackEmbeds (h : ProvidersAlike p p') (levels : List (List R)) :
    ProvidersAlike (p.setDeepstackEmbeds levels) (p'.setDeepstackEmbeds levels) :=
  ⟨h.table, h.padEmbed, congrArg (Option.map _) h.deepstack, h.mropeDeltas⟩

/-- With a prompt installed, the providers are the same. -/
theorem installed (h : ProvidersAlike p p') (s : VLMSettings) (ids : List Int32) (input : VLMInput)
    (nPast : ℕ) (embeds : List (Option R)) :
    (p'.setBuffer nPast embeds).preparePositions s ids input nPast =
      (p.setBuffer nPast embeds).preparePositions s ids input nPast := by
  obtain ⟨⟨table, pad, buffer, offset⟩, mrope, deepstack, deltas⟩ := p
  obtain ⟨⟨table', pad', buffer', offset'⟩, mrope', deepstack', deltas'⟩ := p'
  obtain ⟨htable, hpad, hdeepstack, hdeltas⟩ := h
  dsimp only at htable hpad hdeepstack hdeltas
  subst htable hpad hdeepstack hdeltas
  unfold VLMState.preparePositions
  cases s.cls <;> rfl

end ProvidersAlike

/-! ## Other providers -/

section Install

variable {ρ I : Type}

omit [Token τ]

theorem runJobs_install (p : ρ) (jobs : List KVJob) (v : World τ ρ I) :
    runJobs spec jobs { v with providers := p } = { runJobs spec jobs v with providers := p } := by
  induction jobs generalizing v with
  | nil => rfl
  | cons j jobs ih =>
    have hstep : updateKV spec j.shard .decode j.off 1 { v with providers := p } =
        { updateKV spec j.shard .decode j.off 1 v with providers := p } := by
      unfold updateKV
      split_ifs <;> rfl
    show runJobs spec jobs (updateKV spec j.shard .decode j.off 1 { v with providers := p }) = _
    rw [hstep, ih]
    rfl

theorem settle_install (p : ρ) (done : KVJob → Bool) (v : World τ ρ I) :
    settle spec done { v with providers := p } = { settle spec done v with providers := p } := by
  unfold settle
  rw [runJobs_install]

end Install

/-! ## A call -/

/-- Alike but for the providers, whose differences do not last. -/
structure VLMAlike (spec : LLMSpec) (env : VLMEnv τ R)
    (w₀ v₀ w v : World τ (VLMState R) (VLMInputs R)) : Prop where
  left : LeftAlike spec env.toEnv w₀ v₀ w { v with providers := w.providers }
  providers : ProvidersAlike w.providers v.providers

/-- The same, with nothing queued. -/
structure VLMReady (spec : LLMSpec) (w₀ v₀ w v : World τ (VLMState R) (VLMInputs R)) : Prop where
  rests : RestsAlike spec w₀ v₀ .prefill w { v with providers := w.providers }
  providers : ProvidersAlike w.providers v.providers

section Call

variable {w₀ v₀ w v : World τ (VLMState R) (VLMInputs R)}

theorem VLMReady.alike (h : VLMReady spec w₀ v₀ w v) : VLMAlike spec env w₀ v₀ w v :=
  ⟨h.rests.left, h.providers⟩

omit [Token τ] in
/-- Two updates of the providers. -/
theorem VLMReady.modify (h : VLMReady spec w₀ v₀ w v) {p p' : VLMState R}
    (hp : ProvidersAlike p p') :
    VLMReady spec w₀ v₀ { w with providers := p } { v with providers := p' } :=
  ⟨⟨{ h.rests.toAlike with providers := rfl }, h.rests.idle⟩, hp⟩

theorem VLMAlike.of_left (h : LeftAlike spec env.toEnv w₀ v₀ w v) :
    VLMAlike spec env w₀ v₀ w v := by
  have hsame : { v with providers := w.providers } = v := by rw [← h.providers]
  refine ⟨by rwa [hsame], ?_⟩
  rw [h.providers]
  exact ProvidersAlike.refl _

theorem VLMAlike.sameLog (h : VLMAlike spec env w₀ v₀ w v) : SameLog w₀ v₀ w v := h.left.sameLog

theorem VLMAlike.settle (h : VLMAlike spec env w₀ v₀ w v) (done : KVJob → Bool) :
    VLMAlike spec env w₀ v₀ (settle spec done w) (settle spec done v) := by
  have hleft := h.left.settle done
  have hkept : ∀ u : World τ (VLMState R) (VLMInputs R),
      (Geniex.settle spec done u).providers = u.providers := by
    intro u
    unfold Geniex.settle
    rw [runJobs_eq]
  have hw := hkept w
  have hv := hkept v
  refine ⟨?_, ?_⟩
  · rw [settle_install w.providers done v] at hleft
    rwa [hw]
  · rw [hw, hv]
    exact h.providers

/-- The embeddings of a prompt. -/
theorem embedPrompt_alike (henc : env'.encode = env.encode) (ids : List Int32) (input : VLMInput) :
    InStep (VLMReady spec w₀ v₀) (embedPrompt s env ids input : VLMRun τ R _)
      (embedPrompt s env' ids input) (fun _ => VLMReady spec w₀ v₀)
      fun _ => VLMAlike spec env w₀ v₀ := by
  refine InStep.get fun w₁ v₁ h₁ => ?_
  have htext : v₁.providers.embProvider.lookupBatch ids =
      w₁.providers.embProvider.lookupBatch ids := by
    unfold PrecomputedEmbeddingProvider.lookupBatch
    rw [h₁.providers.table]
  rw [htext]
  apply InStep.ite Iff.rfl
  · intro _
    apply InStep.pure
    rintro w v ⟨rfl, rfl⟩
    exact h₁
  · intro _
    refine InStep.bind (R := fun _ => VLMReady spec w₀ v₀) ?_ fun _ => InStep.pure fun _ _ h => h
    unfold encodeVision
    rw [henc]
    cases env.encode input.pixelData with
    | error msg =>
      apply InStep.throw
      rintro w v ⟨rfl, rfl⟩
      exact h₁.alike
    | ok out =>
      refine InStep.bind (R := fun _ => VLMReady spec w₀ v₀) (InStep.modify ?_) fun _ =>
        InStep.pure fun _ _ h => h
      rintro w v ⟨rfl, rfl⟩
      exact h₁.modify (h₁.providers.setDeepstackEmbeds _)

/-- With the prompt installed, the providers are the same. -/
theorem prepareInputs_alike (henc : env'.encode = env.encode) (prompt : List τ) (input : VLMInput) :
    InStep (VLMReady spec w₀ v₀) (prepareInputs s env prompt input : VLMRun τ R _)
      (prepareInputs s env' prompt input) (fun _ => RestsAlike spec w₀ v₀ .prefill)
      fun _ => VLMAlike spec env w₀ v₀ := by
  refine InStep.bind (R := fun _ => VLMReady spec w₀ v₀)
    (InStep.when Iff.rfl (fun _ => InStep.throw fun _ _ h => h.alike) fun _ _ _ h => h) fun _ =>
    InStep.bind (embedPrompt_alike henc _ input) fun embeds => InStep.get fun w₁ v₁ h₁ => ?_
  have hpast : v₁.nPast = w₁.nPast := h₁.rests.nPast
  rw [hpast]
  refine InStep.bind (R := fun _ w v =>
    w = { w₁ with providers := w₁.providers.setBuffer w₁.nPast embeds } ∧
      v = { v₁ with providers := v₁.providers.setBuffer w₁.nPast embeds }) (InStep.modify ?_)
    fun _ => InStep.modify ?_
  · rintro w v ⟨rfl, rfl⟩
    exact ⟨rfl, rfl⟩
  · rintro w v ⟨rfl, rfl⟩
    have hsame := h₁.providers.installed s (prompt.map Token.id) input w₁.nPast embeds
    exact ⟨{ h₁.rests.toAlike with providers := hsame }, h₁.rests.idle⟩

/-- **A call keeps two models alike.** -/
theorem vlmGenerate_alike (hal : Aligned env.toEnv env'.toEnv w₀ v₀)
    (henc : env'.encode = env.encode) (hpad : Padded spec) (hhead : HeadLast spec)
    {prompt : List τ} (hprompt : prompt ≠ []) (input : VLMInput) (cfg : GenerationConfig)
    (callback : List Int32 → CallbackAnswer) :
    InStep (VLMReady spec w₀ v₀) (vlmGenerate spec s env prompt input cfg callback)
      (vlmGenerate spec s env' prompt input cfg callback) (fun _ => VLMAlike spec env w₀ v₀)
      fun _ => VLMAlike spec env w₀ v₀ := by
  have hcall := (alike_call hal hpad hhead).generate (Or.inl hprompt) cfg callback
  have hclear : ∀ f : VLMState R → VLMState R, InStep (RestsAlike spec w₀ v₀ .prefill)
      (modifyProviders f : VLMRun τ R Unit) (modifyProviders f)
      (fun _ => RestsAlike spec w₀ v₀ .prefill) fun _ => VLMAlike spec env w₀ v₀ := by
    intro f
    apply InStep.modify
    intro w v h
    exact ⟨{ h.toAlike with providers := congrArg f h.providers }, h.idle⟩
  refine InStep.bind (prepareInputs_alike henc prompt input) fun _ => InStep.bind
    (hcall.conseq (fun _ _ h => h) (fun _ _ _ h => h) fun _ _ _ h => VLMAlike.of_left h) fun out =>
    InStep.bind (hclear _) fun _ => InStep.bind (hclear _) fun _ => InStep.pure fun w v h =>
    VLMAlike.of_left h.left

end Call

/-! ## Later calls -/

/-- A call of `VLMModel::generate`. -/
structure VLMRequest (τ : Type) extends Request τ where
  input : VLMInput

/-- The environment of an instance whose executions, from the `l`-th on, are those of `env` from the
`k`-th on. -/
def VLMEnv.since (env : VLMEnv τ R) (k l : ℕ) : VLMEnv τ R :=
  { env with
    exec := fun n => env.exec (k + (n - l))
    finishes := fun n => env.finishes (k + (n - l)) }

/-- **Models that are alike do the same in all later calls.** -/
theorem VLMAlike.sameFrom {w₀ v₀ : World τ (VLMState R) (VLMInputs R)}
    (h : VLMAlike spec env w₀ v₀ w₀ v₀) (hpad : Padded spec) (hhead : HeadLast spec) :
    SameFrom spec
      (fun c : VLMRequest τ => vlmGenerate spec s env c.prompt c.input c.cfg c.callback)
      (fun c => vlmGenerate spec s (env.since w₀.tick v₀.tick) c.prompt c.input c.cfg c.callback)
      (fun c => c.toRequest.Ready) w₀ v₀ := by
  refine SameFrom.of_step (R := VLMAlike spec env w₀ v₀) h (fun h done => h.settle done) ?_
    fun h => h.sameLog
  intro c w v h hok
  have hal : Aligned env.toEnv (env.since w₀.tick v₀.tick).toEnv w₀ v₀ :=
    env.toEnv.since_aligned w₀ v₀
  have hcall := vlmGenerate_alike (s := s) hal rfl hpad hhead hok.1 c.input c.cfg c.callback
  have hstart : VLMReady spec w₀ v₀ w v := ⟨⟨h.left.toAlike, hok.2⟩, h.providers⟩
  exact ⟨hcall.result hstart, hcall.snd (fun _ _ _ h => h) (fun _ _ _ h => h) hstart⟩

/-! ## A reset -/

/-- A reset with nothing queued and no offset left leaves what a new model has. -/
theorem vlmResetKVCache_alike (hpad : Padded spec) {w : World τ (VLMState R) (VLMInputs R)}
    (hdeepstack : w.providers.deepstackProvider = none ↔ s.cls = .qwen25VL)
    (hidle : w.pending = []) (hdeltas : s.cls = .qwen25VL → w.providers.mropeDeltas = 0)
    (kv : KVMem) (outs : ℕ → GraphOut) (hiddenIn : ℕ → ℕ → UInt8) (v : World τ (VLMState R)
      (VLMInputs R)) (hv : v = initWorld spec (newProviders s w.providers.embProvider.table
        w.providers.embProvider.padEmbed) kv outs hiddenIn) :
    VLMAlike spec env (vlmResetKVCache spec s w) v (vlmResetKVCache spec s w) v := by
  subst hv
  have hbase : LeftAlike spec env.toEnv (resetKVCache spec w)
      (initWorld spec w.providers kv outs hiddenIn) (resetKVCache spec w)
      (initWorld spec w.providers kv outs hiddenIn) :=
    resetKVCache_alike hpad hidle kv outs hiddenIn
  unfold vlmResetKVCache newProviders
  cases hcls : s.cls with
  | qwen25VL =>
    refine ⟨{ hbase with }, rfl, rfl, ?_, ?_⟩
    · exact (hdeepstack.mpr hcls).symm
    · exact (hdeltas hcls).symm
  | qwen3VL =>
    refine ⟨{ hbase with providers := rfl, jobs := JobsAlike.of_nil hidle }, rfl, rfl, ?_, rfl⟩
    have hsome : w.providers.deepstackProvider ≠ none := fun h => by
      have := hdeepstack.mp h
      rw [hcls] at this
      cases this
    obtain ⟨d, hd⟩ := Option.ne_none_iff_exists'.mp hsome
    show some DeepstackInputProvider.cleared = w.providers.deepstackProvider.map _
    rw [hd]
    rfl

end Geniex
