import Geniex.LLM.History

/-!
# Invariants of a call

`CallInvariant`: what keeps a predicate on instances through a whole call of `generate`, at both of
its exits. It is a predicate on the active context length, the queued write-backs, the providers and the log; the
two forward passes, the wait and the promotion have to keep it. `CallThrows`: what a call throws.
-/

namespace Geniex

open Prog

variable {τ ρ I : Type} {spec : LLMSpec} {env : Env τ ρ I}

/-- The parts of a call keep `J`. -/
structure CallInvariant (spec : LLMSpec) (env : Env τ ρ I) (J : World τ ρ I → Prop) : Prop where
  plain : ∀ w w' : World τ ρ I, w'.activeClIdx = w.activeClIdx → w'.pending = w.pending →
    w'.providers = w.providers → w'.trace = w.trace → J w → J w'
  log : ∀ (w : World τ ρ I) (e : Event τ I), (∀ x, e ≠ .kvWrite x) → J w → J (w.log e)
  wait : Stable J (waitPool spec env)
  promote : ∀ required capacity stride w, J w → J (promoteCL spec required capacity stride w)
  chunk : ∀ (isFinal : Bool) (chunk : List τ), Stable J (prefillChunk spec env isFinal chunk)
  forward : ∀ tok : τ, Stable J (decodeForward spec env tok)

namespace CallInvariant

variable {J : World τ ρ I → Prop}

theorem logs (h : CallInvariant spec env J) (es : List (Event τ I))
    (hes : ∀ e ∈ es, ∀ x, e ≠ .kvWrite x) (w : World τ ρ I) (hw : J w) :
    J { w with trace := es ++ w.trace } := by
  induction es with
  | nil => exact hw
  | cons e es ih =>
    exact h.log { w with trace := es ++ w.trace } e (hes e List.mem_cons_self)
      (ih fun e he => hes e (List.mem_cons_of_mem _ he))

theorem restride (h : CallInvariant spec env J) {w : World τ ρ I} (hw : J w) (old new : Phase)
    (n : ℕ) : J (restrideActive spec old new n w) := h.plain w _ rfl rfl rfl rfl hw

theorem prefillLoop (h : CallInvariant spec env J) (fuel : ℕ) (tokens : List τ) (last : ℕ) :
    Stable J (Geniex.prefillLoop spec env fuel tokens last) := by
  induction fuel generalizing tokens last with
  | zero => exact Stable.pure _
  | succ fuel ih =>
    exact Stable.ite (fun _ => Stable.pure _) fun _ => Stable.bind (h.chunk _ _) fun _ => ih _ _

theorem feed (h : CallInvariant spec env J) {w : World τ ρ I} (hw : J w)
    (calls : List (SamplerCall τ)) : J (feedSampler calls w) := by
  refine h.plain { w with trace := (calls.map Event.sampler).reverse ++ w.trace } _ rfl rfl rfl rfl
    (h.logs _ (fun e he => ?_) w hw)
  obtain ⟨c, -, rfl⟩ := List.mem_map.mp (List.mem_reverse.mp he)
  simp

theorem prepare (h : CallInvariant spec env J) {w : World τ ρ I} (hw : J w)
    (cfg : GenerationConfig) (prompt : List τ) : J (prepareSampler cfg prompt w) := by
  have hbuild : J (buildSampler cfg w) := by
    unfold buildSampler
    split_ifs
    · exact hw
    · exact h.plain w _ rfl rfl rfl rfl hw
  unfold prepareSampler
  split_ifs
  · exact h.plain w _ rfl rfl rfl rfl hw
  · exact hbuild
  · exact h.feed hbuild _

section Call

variable [Token τ]

theorem slideWindowEvict (h : CallInvariant spec env J) (nDiscard nKeep : ℕ) (b : Bool) :
    Stable J (Geniex.slideWindowEvict spec env nDiscard nKeep b) :=
  Stable.when fun _ => Stable.get fun _ =>
    Stable.bind (Stable.modify fun w hw => h.log w _ (by simp) hw) fun _ =>
    Stable.bind (Stable.when fun _ => Stable.modify fun _ hw => h.restride hw _ _ _) fun _ =>
    Stable.bind (Stable.modify fun w hw => h.plain w _ rfl rfl rfl rfl hw) fun _ =>
    Stable.bind (h.prefillLoop _ _ _) fun _ =>
    Stable.bind (Stable.when fun _ => Stable.modify fun _ hw => h.restride hw _ _ _) fun _ =>
    Stable.modify fun w hw => h.log w _ (by simp) hw

theorem ensureRoom (h : CallInvariant spec env J) (cfg : GenerationConfig) (nFit : ℕ) (b : Bool)
    (msg : String) : Stable J (Geniex.ensureRoom spec env cfg nFit b msg) :=
  Stable.get fun _ => Stable.when fun _ =>
    Stable.bind (Stable.get fun _ => Stable.when fun _ => h.slideWindowEvict _ _ _) fun _ =>
    Stable.get fun _ => Stable.when fun _ => Stable.throw _

theorem sampleNextToken (h : CallInvariant spec env J) (phase : Phase) (off : ℕ) :
    Stable J (Geniex.sampleNextToken spec env phase off) := by
  refine Stable.get fun w => ?_
  cases w.sampler with
  | none =>
    exact Stable.bind (Stable.modify fun w hw => h.log w _ (by simp) hw) fun _ => Stable.pure _
  | some s =>
    exact Stable.bind (Stable.modify fun _ hw => h.feed hw _) fun _ =>
      Stable.bind (Stable.modify fun w hw => h.log w _ (by simp) hw) fun _ => Stable.pure _

theorem prefillStage (h : CallInvariant spec env J) (prompt : List τ) (cfg : GenerationConfig) :
    Stable J (Geniex.prefillStage spec env prompt cfg) :=
  Stable.get fun _ => Stable.bind (Stable.modify fun w hw => h.log w _ (by simp) hw) fun _ =>
    Stable.bind (Stable.modify fun _ hw => h.prepare hw _ _) fun _ =>
    Stable.bind (h.ensureRoom _ _ _ _) fun _ => Stable.bind (h.prefillLoop _ _ _) fun _ =>
    Stable.bind (Stable.modify fun w hw => h.log w _ (by simp) hw) fun _ =>
    Stable.bind (Stable.modify fun _ hw => h.restride hw _ _ _) fun _ => h.sampleNextToken _ _

theorem decodeStep (h : CallInvariant spec env J) (cfg : GenerationConfig) (tok : τ) :
    Stable J (Geniex.decodeStep spec env cfg tok) :=
  Stable.bind h.wait fun _ => Stable.bind (h.ensureRoom _ _ _ _) fun _ => h.forward _

theorem decodeLoop (h : CallInvariant spec env J) (cfg : GenerationConfig)
    (callback : List Int32 → CallbackAnswer) (n : ℕ) (next : τ) (out : List τ) :
    Stable J (Geniex.decodeLoop spec env cfg callback n next out) := by
  have hlog : ∀ e : Event τ I, (∀ x, e ≠ .kvWrite x) →
      Stable J (Prog.modify (World.log e) : Run τ ρ I Unit) := fun e he =>
    Stable.modify fun w hw => h.log w e he hw
  have hleave : ∀ (reason : StopReason) (out : List τ),
      Stable J (leaveLoop reason out : Run τ ρ I (List τ)) := fun reason out =>
    Stable.bind (hlog _ (by simp)) fun _ => Stable.pure _
  induction n generalizing next out with
  | zero => exact hleave _ _
  | succ n ih =>
    unfold Geniex.decodeLoop
    refine Stable.ite (fun _ => hleave _ _) fun _ => Stable.bind (hlog _ (by simp)) fun _ => ?_
    cases callback ((out ++ [next]).map Token.id) with
    | stop => exact hleave _ _
    | throw => exact Stable.throw _
    | «continue» =>
      exact Stable.bind (h.decodeStep _ _) fun _ =>
        Stable.bind (h.sampleNextToken _ _) fun _ => ih _ _

/-- A predicate that the two forward passes keep is kept by the call. -/
theorem generate (h : CallInvariant spec env J) (prompt : List τ) (cfg : GenerationConfig)
    (callback : List Int32 → CallbackAnswer) :
    Stable J (Geniex.generate spec env prompt cfg callback) := by
  have hdecode : ∀ first : τ, Stable J (decodeStage spec env cfg callback first) := fun first =>
    Stable.bind (Stable.modify fun w hw => h.plain w _ rfl rfl rfl rfl hw) fun _ =>
      Stable.bind (Stable.onThrow (h.decodeLoop _ _ _ _ _) fun w hw =>
        h.log w _ (by simp) hw) fun _ => Stable.bind h.wait fun _ =>
      Stable.bind (Stable.modify fun w hw => h.plain w _ rfl rfl rfl rfl hw) fun _ => Stable.pure _
  exact Stable.bind (Stable.bind (h.prefillStage _ _) fun first => hdecode first) fun _ =>
    Stable.bind (Stable.modify fun _ hw => h.restride (h.promote _ _ _ _ hw) _ _ _) fun _ =>
    Stable.pure _

end Call

end CallInvariant

/-! ## What a call throws -/

section Throws

variable {T : Err → Prop}

theorem execGraph_throws (hx : ∀ msg, T (.executeFailed msg)) (shard : ℕ) (phase : Phase)
    (clIdx : ℕ) (ctx : RunContext τ) (input : ExecIn I) (msg : String) :
    Throws T (execGraph spec env shard phase clIdx ctx input (.executeFailed msg)) := by
  intro w _
  unfold execGraph
  dsimp only
  cases env.exec w.tick _ _ with
  | none => exact hx msg
  | some out => trivial

theorem runShard_throws (hx : ∀ msg, T (.executeFailed msg)) (shard : ℕ) (phase : Phase)
    (clIdx : ℕ) (ctx : RunContext τ) : Throws T (runShard spec env shard phase clIdx ctx) :=
  Throws.bind (Throws.modify _) fun _ => Throws.get fun _ => execGraph_throws hx _ _ _ _ _ _

theorem prefillLoop_throws (hx : ∀ msg, T (.executeFailed msg)) (fuel : ℕ) (tokens : List τ)
    (last : ℕ) : Throws T (prefillLoop spec env fuel tokens last) := by
  induction fuel generalizing tokens last with
  | zero => exact Throws.pure _
  | succ fuel ih =>
    refine Throws.ite (fun _ => Throws.pure _) fun _ => Throws.bind ?_ fun _ => ih _ _
    exact Throws.get fun _ => Throws.bind (Throws.modify _) fun _ => Throws.bind (Throws.modify _)
      fun _ => Throws.get fun _ => Throws.bind (Throws.forRange (fun _ => Throws.when fun _ =>
        Throws.bind (runShard_throws hx _ _ _ _) fun _ => Throws.bind (Throws.modify _) fun _ =>
          Throws.when fun _ => Throws.modify _) _) fun _ => Throws.modify _

theorem decodeForward_throws (hx : ∀ msg, T (.executeFailed msg)) (tok : τ) :
    Throws T (decodeForward spec env tok : Run τ ρ I Unit) :=
  Throws.get fun _ => Throws.bind (Throws.modify _) fun _ => Throws.bind (Throws.modify _) fun _ =>
    Throws.get fun _ => Throws.bind (Throws.forRange (fun _ =>
      Throws.bind (runShard_throws hx _ _ _ _) fun _ => Throws.bind (Throws.modify _) fun _ =>
        Throws.when fun _ => Throws.modify _) _) fun _ => Throws.modify _

theorem waitPool_throws (hb : T .blocked) : Throws T (waitPool spec env : Run τ ρ I Unit) :=
  Throws.get fun _ => Throws.ite (fun _ => Throws.pure _) fun _ =>
    Throws.ite (fun _ => Throws.throw hb) fun _ => Throws.modify _

/-- The exceptions of a call. -/
structure CallThrows (T : Err → Prop) : Prop where
  limit : ∀ msg, T (.contextLengthExceeded msg)
  execute : ∀ msg, T (.executeFailed msg)
  callback : T .callbackThrew
  blocked : T .blocked

variable [Token τ]

theorem slideWindowEvict_throws (hx : ∀ msg, T (.executeFailed msg)) (d k : ℕ) (b : Bool) :
    Throws T (slideWindowEvict spec env d k b : Run τ ρ I Unit) :=
  Throws.when fun _ => Throws.get fun _ => Throws.bind (Throws.modify _) fun _ =>
    Throws.bind (Throws.when fun _ => Throws.modify _) fun _ =>
    Throws.bind (Throws.modify _) fun _ => Throws.bind (prefillLoop_throws hx _ _ _) fun _ =>
    Throws.bind (Throws.when fun _ => Throws.modify _) fun _ => Throws.modify _

theorem sampleNextToken_throws (phase : Phase) (off : ℕ) :
    Throws T (sampleNextToken spec env phase off : Run τ ρ I τ) := by
  refine Throws.get fun w => ?_
  cases w.sampler with
  | none => exact Throws.bind (Throws.modify _) fun _ => Throws.pure _
  | some s =>
    exact Throws.bind (Throws.modify _) fun _ => Throws.bind (Throws.modify _) fun _ =>
      Throws.pure _

namespace CallThrows

theorem ensureRoom (h : CallThrows T) (cfg : GenerationConfig) (nFit : ℕ) (b : Bool)
    (msg : String) : Throws T (ensureRoom spec env cfg nFit b msg : Run τ ρ I Unit) :=
  Throws.get fun _ => Throws.when fun _ =>
    Throws.bind (Throws.get fun _ => Throws.when fun _ => slideWindowEvict_throws h.execute _ _ _)
      fun _ => Throws.get fun _ => Throws.when fun _ => Throws.throw (h.limit msg)

theorem decodeLoop (h : CallThrows T) (cfg : GenerationConfig)
    (callback : List Int32 → CallbackAnswer) (n : ℕ) (next : τ) (out : List τ) :
    Throws T (decodeLoop spec env cfg callback n next out : Run τ ρ I (List τ)) := by
  have hleave : ∀ (reason : StopReason) (out : List τ),
      Throws T (leaveLoop reason out : Run τ ρ I (List τ)) := fun _ _ =>
    Throws.bind (Throws.modify _) fun _ => Throws.pure _
  induction n generalizing next out with
  | zero => exact hleave _ _
  | succ n ih =>
    unfold Geniex.decodeLoop
    refine Throws.ite (fun _ => hleave _ _) fun _ => Throws.bind (Throws.modify _) fun _ => ?_
    cases callback ((out ++ [next]).map Token.id) with
    | stop => exact hleave _ _
    | throw => exact Throws.throw h.callback
    | «continue» =>
      refine Throws.bind (Throws.bind (waitPool_throws h.blocked) fun _ =>
        Throws.bind (h.ensureRoom _ _ _ _) fun _ => decodeForward_throws h.execute _) fun _ => ?_
      exact Throws.bind (sampleNextToken_throws _ _) fun _ => ih _ _

/-- A call throws nothing else. -/
theorem generate (h : CallThrows T) (prompt : List τ) (cfg : GenerationConfig)
    (callback : List Int32 → CallbackAnswer) :
    Throws T (generate spec env prompt cfg callback : Run τ ρ I (List τ)) := by
  have hprefill : Throws T (prefillStage spec env prompt cfg : Run τ ρ I τ) :=
    Throws.get fun _ => Throws.bind (Throws.modify _) fun _ => Throws.bind (Throws.modify _)
      fun _ => Throws.bind (h.ensureRoom _ _ _ _) fun _ =>
      Throws.bind (prefillLoop_throws h.execute _ _ _) fun _ => Throws.bind (Throws.modify _)
      fun _ => Throws.bind (Throws.modify _) fun _ => sampleNextToken_throws _ _
  have hdecode : ∀ first : τ, Throws T
      (decodeStage spec env cfg callback first : Run τ ρ I (List τ)) := fun first =>
    Throws.bind (Throws.modify _) fun _ => Throws.bind (Throws.onThrow (h.decodeLoop _ _ _ _ _) _)
      fun _ => Throws.bind (waitPool_throws h.blocked) fun _ => Throws.bind (Throws.modify _)
      fun _ => Throws.pure _
  exact Throws.bind (Throws.bind hprefill hdecode) fun _ => Throws.bind (Throws.modify _)
    fun _ => Throws.pure _

end CallThrows

end Throws

/-! ## The log grows -/

@[simp] theorem promoteCL_trace (required capacity stride : ℕ) (w : World τ ρ I) :
    (promoteCL spec required capacity stride w).trace = w.trace := by
  unfold promoteCL
  dsimp only
  split_ifs <;> rfl

/-- Quiet work extends the log. -/
theorem Quietly.grows {α : Type} {x : Run τ ρ I α} (hx : ∀ w, Stable (Quietly spec w) x)
    (old : List (Event τ I)) : Stable (fun w : World τ ρ I => old <:+ w.trace) x := by
  refine Triple.of_eq fun w₁ hw₁ => (hx w₁).conseq
    (fun w hw => by subst hw; exact Quietly.refl w) (fun _ w hw => ?_) fun _ w hw => ?_
  all_goals
    obtain ⟨es, -, ht⟩ := hw.trace
    rw [ht]
    exact hw₁.trans (List.suffix_append es _)

theorem logGrows (old : List (Event τ I)) :
    CallInvariant spec env fun w : World τ ρ I => old <:+ w.trace where
  plain w w' _ _ _ ht hw := ht ▸ hw
  log w e _ hw := hw.trans (List.suffix_cons e _)
  wait := Quietly.grows waitPool_quietly old
  promote _ _ _ w hw := by rwa [promoteCL_trace]
  chunk isFinal chunk :=
    Stable.get fun _ => Stable.bind (Stable.modify fun w hw => hw.trans (List.suffix_cons _ _))
      fun _ => Stable.bind (Stable.modify fun w hw => by rwa [promoteCL_trace]) fun _ =>
      Stable.get fun _ => Stable.bind (Stable.forRange (fun _ => Quietly.grows (fun w₀ =>
        prefillShard_quietly w₀ _ _ _ _) old) _) fun _ => Stable.modify fun _ hw => hw
  forward tok :=
    Stable.get fun _ => Stable.bind (Stable.modify fun w hw => hw.trans (List.suffix_cons _ _))
      fun _ => Stable.bind (Stable.modify fun w hw => by rwa [promoteCL_trace]) fun _ =>
      Stable.get fun _ => Stable.bind (Stable.forRange (fun _ => Quietly.grows (fun w₀ =>
        decodeShard_quietly w₀ _ _ _) old) _) fun _ =>
      Stable.modify fun _ hw => hw.trans (List.suffix_cons _ _)

variable (spec env) in
/-- A call extends the log, however it ends. -/
theorem generate_grows [Token τ] (prompt : List τ) (cfg : GenerationConfig)
    (callback : List Int32 → CallbackAnswer) (w : World τ ρ I) :
    w.trace <:+ (generate spec env prompt cfg callback w).2.trace :=
  ((logGrows w.trace).generate prompt cfg callback).snd List.suffix_rfl

end Geniex
