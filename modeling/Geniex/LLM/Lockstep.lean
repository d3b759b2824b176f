import Geniex.LLM.CallInvariant
import Geniex.Lib.InStep

/-!
# Two calls in step

`CallRelation`: what keeps two instances related through the same call of `generate`. What differs
between them (KV bytes, queued write-backs, the pool) is known to the relations: `Q` at a stride with
nothing queued, `J` at the head of the decode loop, `E` at an exception. `CallRelation.generate` is
the whole call.
-/

namespace Geniex

open Prog

variable {τ ρ I : Type} {spec : LLMSpec} {env env' : Env τ ρ I}

/-- Two instances with the same bookkeeping. Without a sampler its configuration is not read. -/
structure SameBooks (w v : World τ ρ I) : Prop where
  nPast : w.nPast = v.nPast
  history : w.tokenHistory = v.tokenHistory
  sampler : w.sampler = v.sampler
  samplerCfg : w.sampler ≠ none → w.samplerCfg = v.samplerCfg

/-- The logits that a call can read are the same. -/
def SameLogits (spec : LLMSpec) (phase : Phase) (w v : World τ ρ I) : Prop :=
  ∀ off, readLastLogits spec phase off w = readLastLogits spec phase off v

/-- A relation that survives the same bookkeeping on both sides. -/
structure Carried (R : World τ ρ I → World τ ρ I → Prop) : Prop where
  books : ∀ {w v}, R w v → SameBooks w v
  log : ∀ {w v}, R w v → ∀ e, R (w.log e) (v.log e)
  setHistory : ∀ {w v}, R w v → ∀ n h,
    R { w with nPast := n, tokenHistory := h } { v with nPast := n, tokenHistory := h }
  setSampler : ∀ {w v}, R w v → ∀ s c,
    R { w with sampler := s, samplerCfg := c } { v with sampler := s, samplerCfg := c }
  mapSampler : ∀ {w v}, R w v → ∀ f : Sampler τ → Sampler τ,
    R { w with sampler := w.sampler.map f } { v with sampler := v.sampler.map f }
  setClock : ∀ {w v}, R w v → ∀ k k', R { w with clockKeeper := k } { v with clockKeeper := k' }

namespace Carried

variable {R : World τ ρ I → World τ ρ I → Prop} {w v : World τ ρ I}

theorem logs (h : Carried R) (hw : R w v) (es : List (Event τ I)) :
    R { w with trace := es ++ w.trace } { v with trace := es ++ v.trace } := by
  induction es with
  | nil => exact hw
  | cons e es ih => exact h.log ih e

theorem feed (h : Carried R) (hw : R w v) (calls : List (SamplerCall τ)) :
    R (feedSampler calls w) (feedSampler calls v) :=
  h.mapSampler (h.logs hw (calls.map Event.sampler).reverse) _

theorem prepare (h : Carried R) (hw : R w v) (cfg : GenerationConfig) (prompt : List τ) :
    R (prepareSampler cfg prompt w) (prepareSampler cfg prompt v) := by
  have hbooks := h.books hw
  have hcond : (w.sampler.isSome && w.samplerCfg.any (samplerCfgEqual · cfg)) =
      (v.sampler.isSome && v.samplerCfg.any (samplerCfgEqual · cfg)) := by
    rw [← hbooks.sampler]
    cases hs : w.sampler with
    | none => rfl
    | some s => rw [hbooks.samplerCfg (by simp [hs])]
  have hbuild : R (buildSampler cfg w) (buildSampler cfg v) := by
    unfold buildSampler
    rw [← hcond]
    split_ifs
    · exact hw
    · exact h.setSampler hw _ _
  unfold prepareSampler
  split_ifs
  · exact h.setSampler hw _ _
  · exact hbuild
  · exact h.feed hbuild _

/-- Sampling from the same logits draws the same token. -/
theorem sampleNextToken [Token τ] (h : Carried R) (hsample : env.sample = env'.sample)
    {E : Err → World τ ρ I → World τ ρ I → Prop} (phase : Phase) (off : ℕ) :
    InStep (fun w v => R w v ∧ SameLogits spec phase w v) (sampleNextToken spec env phase off)
      (sampleNextToken spec env' phase off) (fun _ => R) E := by
  refine InStep.get fun w₀ v₀ ⟨hw, hlogits⟩ => ?_
  have hbooks := h.books hw
  dsimp only
  rw [← hbooks.sampler, ← hlogits off, ← hsample]
  cases w₀.sampler with
  | none =>
    refine InStep.bind (R := fun _ => R) (InStep.modify ?_) fun _ => InStep.pure fun _ _ h => h
    rintro w v ⟨rfl, rfl⟩
    exact h.log hw _
  | some s =>
    refine InStep.bind (R := fun _ => R) (InStep.modify ?_) fun _ => InStep.bind (R := fun _ => R)
      (InStep.modify fun w v hw => h.log hw _) fun _ => InStep.pure fun _ _ h => h
    rintro w v ⟨rfl, rfl⟩
    exact h.feed hw _

end Carried

/-- The parts of a call keep two instances related. -/
structure CallRelation (spec : LLMSpec) (env env' : Env τ ρ I)
    (Q : Phase → World τ ρ I → World τ ρ I → Prop) (J E : World τ ρ I → World τ ρ I → Prop) :
    Prop where
  sample : env.sample = env'.sample
  stride : ∀ p, Carried (Q p)
  head : Carried J
  rest : ∀ {w v}, Q .decode w v → J w v
  left : ∀ {p w v}, Q p w v → E w v
  leftHead : ∀ {w v}, J w v → E w v
  abort : ∀ {w v}, E w v → ∀ b b', E (w.log (.abort b)) (v.log (.abort b'))
  restride : ∀ {p w v}, Q p w v → ∀ q n,
    Q q (restrideActive spec p q n w) (restrideActive spec p q n v)
  promote : ∀ {p w v}, Q p w v → ∀ required reserved,
    Q p (promoteCL spec required reserved (spec.seqLen p) w)
      (promoteCL spec required reserved (spec.seqLen p) v)
  wait : InStep J (waitPool spec env) (waitPool spec env') (fun _ => Q .decode) fun _ => E
  chunk : ∀ (isFinal : Bool) (chunk : List τ), InStep (Q .prefill)
    (prefillChunk spec env isFinal chunk) (prefillChunk spec env' isFinal chunk)
    (fun _ w v => Q .prefill w v ∧ (isFinal = true → SameLogits spec .prefill w v)) fun _ => E
  forward : ∀ tok : τ, InStep (Q .decode) (decodeForward spec env tok)
    (decodeForward spec env' tok) (fun _ w v => J w v ∧ SameLogits spec .decode w v) fun _ => E

namespace CallRelation

variable {Q : Phase → World τ ρ I → World τ ρ I → Prop} {J E : World τ ρ I → World τ ρ I → Prop}

/-- A prefill that runs a chunk ends with its final chunk. -/
theorem prefillLoop (h : CallRelation spec env env' Q J E) (fuel : ℕ) (tokens : List τ) (last : ℕ)
    (hfuel : tokens.length ≤ fuel) :
    InStep (Q .prefill) (Geniex.prefillLoop spec env fuel tokens last)
      (Geniex.prefillLoop spec env' fuel tokens last)
      (fun _ w v => Q .prefill w v ∧ (tokens ≠ [] → SameLogits spec .prefill w v)) fun _ => E := by
  induction fuel generalizing tokens last with
  | zero =>
    have hnil : tokens = [] := List.length_eq_zero_iff.mp (Nat.le_zero.mp hfuel)
    exact InStep.pure fun _ _ hw => ⟨hw, fun hne => absurd hnil hne⟩
  | succ fuel ih =>
    refine InStep.ite Iff.rfl (fun hnil => InStep.pure fun _ _ hw =>
      ⟨hw, fun hne => absurd hnil hne⟩) fun hne => ?_
    have hpos : 0 < spec.seqLenPrefill := spec.seqLen_pos .prefill
    have hlen : 0 < tokens.length := List.length_pos_of_ne_nil hne
    refine InStep.bind (h.chunk _ _) fun _ => ?_
    by_cases hfinal : tokens.length ≤ spec.seqLenPrefill
    · rw [List.drop_of_length_le hfinal]
      have hrest : ∀ env : Env τ ρ I, Geniex.prefillLoop spec env fuel ([] : List τ)
          (tokens.take spec.seqLenPrefill).length = pure (tokens.take spec.seqLenPrefill).length :=
        fun env => by cases fuel <;> rfl
      rw [hrest env, hrest env']
      exact InStep.pure fun _ _ hw => ⟨hw.1, fun _ => hw.2 (decide_eq_true hfinal)⟩
    · have hdrop : tokens.drop spec.seqLenPrefill ≠ [] :=
        List.ne_nil_of_length_pos (by rw [List.length_drop]; omega)
      refine (ih _ _ ?_).conseq (fun _ _ hw => hw.1) (fun _ _ _ hw => ⟨hw.1, fun _ => hw.2 hdrop⟩)
        fun _ _ _ h => h
      rw [List.length_drop]
      omega

section Call

variable [Token τ]

theorem slideWindowEvict (h : CallRelation spec env env' Q J E) (d k : ℕ) {p : Phase} {b : Bool}
    (hb : b = true ↔ p = .decode) :
    InStep (Q p) (Geniex.slideWindowEvict spec env d k b) (Geniex.slideWindowEvict spec env' d k b)
      (fun _ => Q p) fun _ => E := by
  refine InStep.when Iff.rfl (fun _ => InStep.get fun w₀ v₀ hw₀ => ?_) fun _ _ _ hw => hw
  have hbooks := (h.stride p).books hw₀
  rw [← hbooks.nPast, ← hbooks.history]
  refine InStep.bind (R := fun _ => Q p) (InStep.modify ?_) fun _ => ?_
  · rintro w v ⟨rfl, rfl⟩
    exact (h.stride p).log hw₀ _
  refine InStep.bind (R := fun _ => Q .prefill) (InStep.when Iff.rfl (fun hdecode =>
    InStep.modify fun w v hw => ?_) fun hprefill w v hw => ?_) fun _ => ?_
  · obtain rfl := hb.mp hdecode
    exact h.restride hw _ _
  · cases p with
    | prefill => exact hw
    | decode => exact absurd (hb.mpr rfl) hprefill
  refine InStep.bind (R := fun _ => Q .prefill) (InStep.modify fun w v hw => ?_) fun _ => ?_
  · rw [((h.stride .prefill).books hw).history]
    exact (h.stride .prefill).setHistory hw _ _
  refine InStep.bind (h.prefillLoop _ _ _ le_rfl) fun _ => ?_
  refine InStep.bind (R := fun _ => Q p) (InStep.when Iff.rfl (fun hdecode =>
    InStep.modify fun w v hw => ?_) fun hprefill w v hw => ?_) fun _ =>
      InStep.modify fun w v hw => (h.stride p).log hw _
  · obtain rfl := hb.mp hdecode
    rw [((h.stride .prefill).books hw.1).nPast]
    exact h.restride hw.1 _ _
  · cases p with
    | prefill => exact hw.1
    | decode => exact absurd (hb.mpr rfl) hprefill

theorem ensureRoom (h : CallRelation spec env env' Q J E) (cfg : GenerationConfig) (nFit : ℕ)
    {p : Phase} {b : Bool} (hb : b = true ↔ p = .decode) (msg : String) :
    InStep (Q p) (Geniex.ensureRoom spec env cfg nFit b msg)
      (Geniex.ensureRoom spec env' cfg nFit b msg) (fun _ => Q p) fun _ => E := by
  refine InStep.get fun w₀ v₀ hw₀ => ?_
  have hbooks := (h.stride p).books hw₀
  refine InStep.when (by rw [hbooks.nPast]) (fun _ => ?_) fun _ w v hw => by
    obtain ⟨rfl, rfl⟩ := hw
    exact hw₀
  refine InStep.bind (R := fun _ => Q p) (InStep.get fun w₁ v₁ hw₁ => ?_) fun _ =>
    InStep.get fun w₂ v₂ hw₂ => ?_
  · obtain ⟨rfl, rfl⟩ := hw₁
    dsimp only
    rw [← hbooks.nPast]
    refine InStep.when Iff.rfl (fun _ => (h.slideWindowEvict _ _ hb).pre ?_) ?_
    · rintro w v ⟨rfl, rfl⟩
      exact hw₀
    · rintro _ w v ⟨rfl, rfl⟩
      exact hw₀
  · have hbooks₂ := (h.stride p).books hw₂
    refine InStep.when (by rw [hbooks₂.nPast]) (fun _ => InStep.throw ?_) ?_
    · rintro w v ⟨rfl, rfl⟩
      exact h.left hw₂
    · rintro _ w v ⟨rfl, rfl⟩
      exact hw₂

/-- Entry and prefill. A prompt without tokens is sampled from logits that no chunk has computed. -/
theorem prefillStage (h : CallRelation spec env env' Q J E) {prompt : List τ}
    (hlogits : prompt ≠ [] ∨ ∀ w v, Q .prefill w v → SameLogits spec .prefill w v)
    (cfg : GenerationConfig) :
    InStep (Q .prefill) (Geniex.prefillStage spec env prompt cfg)
      (Geniex.prefillStage spec env' prompt cfg) (fun _ => Q .decode) fun _ => E := by
  have hprefill := h.stride .prefill
  refine InStep.get fun w₀ v₀ hw₀ => ?_
  rw [← (hprefill.books hw₀).nPast]
  refine InStep.bind (R := fun _ => Q .prefill) (InStep.modify ?_) fun _ => ?_
  · rintro w v ⟨rfl, rfl⟩
    exact hprefill.log hw₀ _
  refine InStep.bind (R := fun _ => Q .prefill) (InStep.modify fun w v hw =>
    hprefill.prepare hw _ _) fun _ => ?_
  refine InStep.bind (h.ensureRoom cfg prompt.length (by simp) _) fun _ => ?_
  refine InStep.bind (h.prefillLoop _ prompt 0 le_rfl) fun last => ?_
  have hsame : ∀ w v, Q .prefill w v ∧ (prompt ≠ [] → SameLogits spec .prefill w v) →
      SameLogits spec .prefill w v := fun w v hw => hlogits.elim hw.2 fun hall => hall w v hw.1
  refine InStep.bind (R := fun _ w v => Q .prefill w v ∧ SameLogits spec .prefill w v)
    (InStep.modify fun w v hw => ⟨hprefill.log hw.1 _, hsame w v hw⟩) fun _ => ?_
  refine InStep.bind (R := fun _ w v => Q .decode w v ∧ SameLogits spec .prefill w v)
    (InStep.modify fun w v hw => ⟨?_, hw.2⟩) fun _ =>
      (h.stride .decode).sampleNextToken h.sample _ _
  rw [(hprefill.books hw.1).nPast]
  exact h.restride hw.1 _ _

theorem decodeStep (h : CallRelation spec env env' Q J E) (cfg : GenerationConfig) (tok : τ) :
    InStep J (Geniex.decodeStep spec env cfg tok) (Geniex.decodeStep spec env' cfg tok)
      (fun _ w v => J w v ∧ SameLogits spec .decode w v) fun _ => E :=
  InStep.bind h.wait fun _ => InStep.bind (h.ensureRoom cfg 1 (by simp) _) fun _ => h.forward tok

theorem decodeLoop (h : CallRelation spec env env' Q J E) (cfg : GenerationConfig)
    (callback : List Int32 → CallbackAnswer) (n : ℕ) (next : τ) (out : List τ) :
    InStep J (Geniex.decodeLoop spec env cfg callback n next out)
      (Geniex.decodeLoop spec env' cfg callback n next out) (fun _ => J) fun _ => E := by
  have hleave : ∀ (reason : StopReason) (out : List τ), InStep J
      (leaveLoop reason out : Run τ ρ I (List τ)) (leaveLoop reason out) (fun _ => J) fun _ => E :=
    fun _ _ => InStep.bind (R := fun _ => J) (InStep.modify fun _ _ hw => h.head.log hw _) fun _ =>
      InStep.pure fun _ _ hw => hw
  induction n generalizing next out with
  | zero => exact hleave _ _
  | succ n ih =>
    unfold Geniex.decodeLoop
    refine InStep.ite Iff.rfl (fun _ => hleave _ _) fun _ => InStep.bind (R := fun _ => J)
      (InStep.modify fun _ _ hw => h.head.log hw _) fun _ => ?_
    cases callback ((out ++ [next]).map Token.id) with
    | stop => exact hleave _ _
    | throw => exact InStep.throw fun _ _ hw => h.leftHead hw
    | «continue» =>
      exact InStep.bind (h.decodeStep cfg next) fun _ =>
        InStep.bind (h.head.sampleNextToken h.sample _ _) fun next' => ih next' _

theorem decodeStage (h : CallRelation spec env env' Q J E) (cfg : GenerationConfig)
    (callback : List Int32 → CallbackAnswer) (first : τ) :
    InStep (Q .decode) (Geniex.decodeStage spec env cfg callback first)
      (Geniex.decodeStage spec env' cfg callback first) (fun _ => Q .decode) fun _ => E := by
  refine InStep.bind (R := fun _ => J) (InStep.modify fun w v hw =>
    h.head.setClock (h.rest hw) _ _) fun _ => ?_
  refine InStep.bind (InStep.onThrow (h.decodeLoop cfg callback _ first []) fun _ w v hw =>
    h.abort hw _ _) fun out => ?_
  exact InStep.bind h.wait fun _ => InStep.bind (R := fun _ => Q .decode) (InStep.modify
    fun w v hw => (h.stride .decode).setClock hw _ _) fun _ => InStep.pure fun _ _ hw => hw

theorem generateBody (h : CallRelation spec env env' Q J E) {prompt : List τ}
    (hlogits : prompt ≠ [] ∨ ∀ w v, Q .prefill w v → SameLogits spec .prefill w v)
    (cfg : GenerationConfig) (callback : List Int32 → CallbackAnswer) :
    InStep (Q .prefill) (Geniex.generateBody spec env prompt cfg callback)
      (Geniex.generateBody spec env' prompt cfg callback) (fun _ => Q .decode) fun _ => E :=
  InStep.bind (h.prefillStage hlogits cfg) fun first => h.decodeStage cfg callback first

/-- **Two related instances make the same call alike.** -/
theorem generate (h : CallRelation spec env env' Q J E) {prompt : List τ}
    (hlogits : prompt ≠ [] ∨ ∀ w v, Q .prefill w v → SameLogits spec .prefill w v)
    (cfg : GenerationConfig) (callback : List Int32 → CallbackAnswer) :
    InStep (Q .prefill) (Geniex.generate spec env prompt cfg callback)
      (Geniex.generate spec env' prompt cfg callback) (fun _ => Q .prefill) fun _ => E := by
  refine InStep.bind (h.generateBody hlogits cfg callback) fun out => InStep.bind (R := fun _ =>
    Q .prefill) (InStep.modify fun w v hw => ?_) fun _ => InStep.pure fun _ _ hw => hw
  unfold restorePrefillStride
  have hpromote : Q .decode (promoteCL spec w.nPast spec.seqLenPrefill spec.seqLenDecode w)
      (promoteCL spec w.nPast spec.seqLenPrefill spec.seqLenDecode v) := h.promote hw _ _
  rw [← ((h.stride .decode).books hw).nPast]
  dsimp only
  rw [← ((h.stride .decode).books hpromote).nPast]
  exact h.restride hpromote _ _

end Call

end CallRelation

end Geniex
