import Geniex.Pipeline.TreeStopReason
import Geniex.SSD.LogitsRows

/-!
# The BOS token of a conversation

`generate` prepends the BOS token where `nPast()` is zero. Whether that is the first turn of a
conversation is a matter of everything that the pipeline has done before.

* `Advanced`: a call moves `n_past` away from zero exactly if one of its passes has had tokens.
* `PipelineRun`: the states of a pipeline, with what its KV cache has been given.
* `withBos_iff`: the calls that are handed what the first turn asks for.
-/

namespace Geniex

open Prog

variable {ρ I : Type} {spec : LLMSpec} {env : Env Int32 ρ I} {cfg : GenerationConfig}
  {callback : List Int32 → CallbackAnswer} {prompt : List Int32} {w₀ w₁ w w' : World Int32 ρ I}

/-! ## Passes over tokens -/

/-- A pass has had tokens, whose KV columns it has written. -/
def passedTokens (es : List (Event Int32 I)) : Bool :=
  es.any fun e =>
    match e with
    | .step _ _ n => 0 < n
    | _ => false

theorem passedTokens_append (es es' : List (Event Int32 I)) :
    passedTokens (es ++ es') = (passedTokens es || passedTokens es') := List.any_append

theorem passedTokens_eq_false {es : List (Event Int32 I)}
    (h : ∀ phase n k, Event.step phase n k ∉ es) : passedTokens es = false := by
  refine List.any_eq_false.mpr fun e he => ?_
  cases e with
  | step phase n k => exact absurd he (h phase n k)
  | _ => simp

/-- A pass since `w₀` has had tokens, and there is a past. -/
structure Moved (w₀ w : World Int32 ρ I) : Prop where
  passed : Since w₀ (fun es => passedTokens es = true) w
  pos : 0 < w.nPast

/-- No pass since `w₀` has had tokens, and the past is the same. -/
structure Rested (w₀ w : World Int32 ρ I) : Prop where
  none : Since w₀ (fun es => passedTokens es = false) w
  nPast : w.nPast = w₀.nPast

/-- The past has moved away from zero if a pass has had tokens, and not moved if none has. -/
def Advanced (w₀ w : World Int32 ρ I) : Prop := Moved w₀ w ∨ Rested w₀ w

theorem Rested.refl (w : World Int32 ρ I) : Rested w w := ⟨Since.start rfl, rfl⟩

theorem Rested.log {e : Event Int32 I} (he : ∀ phase n k, e ≠ .step phase n k)
    (w : World Int32 ρ I) : Rested w (w.log e) :=
  ⟨⟨[e], rfl, passedTokens_eq_false fun phase n k hmem =>
    he phase n k (List.mem_singleton.mp hmem).symm⟩, rfl⟩

theorem Rested.plain (hn : w'.nPast = w.nPast) (ht : w'.trace = w.trace) : Rested w w' :=
  ⟨⟨[], ht, rfl⟩, hn⟩

/-- Tokens that were passed after a growth of the log. -/
theorem Moved.since (h : Moved w₁ w) (hgrow : w₀.trace <:+ w₁.trace) : Moved w₀ w := by
  obtain ⟨es, ht, hes⟩ := h.passed
  obtain ⟨es₀, ht₀⟩ := hgrow
  refine ⟨⟨es ++ es₀, by rw [ht, ← ht₀, List.append_assoc], ?_⟩, h.pos⟩
  show passedTokens (es ++ es₀) = true
  rw [passedTokens_append, hes, Bool.true_or]

theorem Moved.grows (h : Moved w₀ w) : w₀.trace <:+ w.trace := by
  obtain ⟨es, ht, -⟩ := h.passed
  exact ⟨es, ht.symm⟩

theorem Moved.later (h : Moved w₀ w₁) (hgrow : w₁.trace <:+ w.trace) (hpos : 0 < w.nPast) :
    Moved w₀ w := by
  obtain ⟨es, ht, hes⟩ := h.passed
  obtain ⟨es', ht'⟩ := hgrow
  refine ⟨⟨es' ++ es, by rw [← ht', ht, List.append_assoc], ?_⟩, hpos⟩
  show passedTokens (es' ++ es) = true
  rw [passedTokens_append, hes, Bool.or_true]

/-- A step that is logged with tokens. -/
theorem Moved.of_step {phase : Phase} {n k : ℕ} (hk : 0 < k)
    (hgrow : (w₀.log (.step phase n k)).trace <:+ w.trace) (hpos : 0 < w.nPast) : Moved w₀ w := by
  obtain ⟨es, ht⟩ := hgrow
  refine ⟨⟨es ++ [.step phase n k], by rw [← ht]; simp, ?_⟩, hpos⟩
  show passedTokens (es ++ [.step phase n k]) = true
  rw [passedTokens_append]
  simp [passedTokens, hk]

theorem Rested.trans (h : Rested w₀ w₁) (h' : Rested w₁ w) : Rested w₀ w := by
  obtain ⟨es, ht, hes⟩ := h.none
  obtain ⟨es', ht', hes'⟩ := h'.none
  refine ⟨⟨es' ++ es, by rw [ht', ht, List.append_assoc], ?_⟩, h'.nPast.trans h.nPast⟩
  show passedTokens (es' ++ es) = false
  rw [passedTokens_append, hes, hes', Bool.or_false]

theorem Rested.grows (h : Rested w₀ w) : w₀.trace <:+ w.trace := by
  obtain ⟨es, ht, -⟩ := h.none
  exact ⟨es, ht.symm⟩

theorem Advanced.rest (h : Advanced w₀ w₁) (h' : Rested w₁ w) : Advanced w₀ w :=
  h.imp (fun h => h.later h'.grows (h'.nPast ▸ h.pos)) fun h => h.trans h'

theorem Advanced.grows (h : Advanced w₀ w) : w₀.trace <:+ w.trace := h.elim (·.grows) (·.grows)

/-! ## The plain decoder -/

theorem updateKV_rested (s : ℕ) (phase : Phase) (off n : ℕ) (w : World Int32 ρ I) :
    Rested w (updateKV spec s phase off n w) := by
  obtain ⟨es, ht, hes⟩ := updateKV_trace spec s phase off n w
  refine ⟨⟨es, ht, passedTokens_eq_false fun phase n k hmem => ?_⟩, by simp⟩
  cases hes _ hmem

theorem runJobs_rested (jobs : List KVJob) (w : World Int32 ρ I) :
    Rested w (runJobs spec jobs w) := by
  unfold runJobs
  induction jobs generalizing w with
  | nil => exact Rested.refl w
  | cons j jobs ih => exact (updateKV_rested _ _ _ _ w).trans (ih _)

theorem settle_rested (done : KVJob → Bool) (w : World Int32 ρ I) :
    Rested w (settle spec done w) :=
  (runJobs_rested (w.pending.filter done) w).trans (Rested.plain rfl rfl)

theorem waitPool_rested (w₀ : World Int32 ρ I) : Stable (Rested w₀) (waitPool spec env) :=
  Stable.get fun _ => Stable.ite (fun _ => Stable.pure _) fun _ =>
    Stable.ite (fun _ => Stable.throw _) fun _ =>
    Stable.modify fun w hw => hw.trans (settle_rested _ w)

theorem feedSampler_rested (calls : List (SamplerCall Int32)) (w : World Int32 ρ I) :
    Rested w (feedSampler calls w) := by
  refine ⟨⟨(calls.map Event.sampler).reverse, rfl, passedTokens_eq_false fun phase n k hmem => ?_⟩,
    rfl⟩
  simp at hmem

theorem prepareSampler_rested (cfg : GenerationConfig) (prompt : List Int32)
    (w : World Int32 ρ I) : Rested w (prepareSampler cfg prompt w) := by
  have hbuild : Rested w (buildSampler cfg w) := by
    unfold buildSampler
    split_ifs
    · exact Rested.refl w
    · exact Rested.plain rfl rfl
  unfold prepareSampler
  split_ifs
  · exact Rested.plain rfl rfl
  · exact hbuild
  · exact hbuild.trans (feedSampler_rested _ _)

theorem sampleNextToken_rested (w₀ : World Int32 ρ I) (phase : Phase) (off : ℕ) :
    Stable (Rested w₀) (sampleNextToken spec env phase off) := by
  refine Stable.get fun w => ?_
  cases w.sampler with
  | none =>
    exact Stable.bind (Stable.modify fun w hw => hw.trans (Rested.log (by simp) w)) fun _ =>
      Stable.pure _
  | some s =>
    exact Stable.bind (Stable.modify fun w hw => hw.trans (feedSampler_rested _ w)) fun _ =>
      Stable.bind (Stable.modify fun w hw => hw.trans (Rested.log (by simp) w)) fun _ =>
      Stable.pure _

/-- Work without a pass keeps what is known of the call. -/
theorem Advanced.stable {α : Type} {x : Run Int32 ρ I α} (hx : ∀ w, Stable (Rested w) x) :
    Stable (Advanced w₀) x :=
  Triple.of_eq fun w₁ hw₁ => (hx w₁).conseq (fun w hw => hw ▸ Rested.refl w)
    (fun _ _ hw => hw₁.rest hw) fun _ _ hw => hw₁.rest hw

theorem restrideActive_rested (old new : Phase) (n : ℕ) (w : World Int32 ρ I) :
    Rested w (restrideActive spec old new n w) := Rested.plain rfl rfl

theorem promoteCL_rested (required capacity stride : ℕ) (w : World Int32 ρ I) :
    Rested w (promoteCL spec required capacity stride w) := by
  unfold promoteCL
  dsimp only
  split_ifs <;> exact Rested.plain rfl rfl

/-- A chunk logs its step first. -/
theorem prefillChunk_moves (isFinal : Bool) {chunk : List Int32} (hne : chunk ≠ [])
    (w₁ : World Int32 ρ I) :
    Triple (fun w => w = w₁) (prefillChunk spec env isFinal chunk) (fun _ => Moved w₁)
      fun _ _ => True := by
  have hpos : 0 < chunk.length := List.length_pos_of_ne_nil hne
  refine Triple.get fun v hv => ?_
  subst hv
  set old := (v.log (.step .prefill v.nPast chunk.length)).trace with hold
  refine Triple.bind (R := fun _ w => old <:+ w.trace)
    (Triple.modify fun w hw => by rw [hw]) fun _ => ?_
  refine Triple.bind (R := fun _ w => old <:+ w.trace)
    (Triple.modify fun w hw => by rwa [promoteCL_trace]) fun _ => Triple.get fun v' hv' => ?_
  refine Triple.bind (R := fun _ w => old <:+ w.trace) ?_ fun _ => Triple.modify fun w hw => ?_
  · exact (Stable.forRange (fun _ => Quietly.grows (fun w₀ => prefillShard_quietly w₀ _ _ _ _) old)
      _).conseq (fun w hw => hw ▸ hv') (fun _ _ h => h) fun _ _ _ => trivial
  · exact Moved.of_step hpos hw (Nat.lt_add_left _ hpos)

/-- The loop of a prefill with tokens. -/
theorem prefillLoop_moves {fuel : ℕ} {tokens : List Int32} (hne : tokens ≠ [])
    (hfuel : tokens.length ≤ fuel) (last : ℕ) (w₁ : World Int32 ρ I)
    (hactive : w₁.activeClIdx < spec.numCl) :
    Triple (fun w => w = w₁) (prefillLoop spec env fuel tokens last) (fun _ => Moved w₁)
      fun _ _ => True := by
  have hlength : 0 < tokens.length := List.length_pos_of_ne_nil hne
  have hend : Triple (fun w => w = w₁) (prefillLoop spec env fuel tokens last)
      (fun _ w => 0 < w.nPast) fun _ _ => True :=
    (prefillLoop_appended fuel tokens last w₁ hactive hfuel).conseq (fun _ h => h)
      (fun _ w hw => by rw [hw.nPast]; omega) fun _ _ _ => trivial
  have hlog : Triple (fun w => w = w₁) (prefillLoop spec env fuel tokens last)
      (fun _ w => ∃ v, Moved w₁ v ∧ v.trace <:+ w.trace) fun _ _ => True := by
    cases fuel with
    | zero => omega
    | succ fuel =>
      refine Triple.ite (fun h => absurd h hne) fun _ =>
        Triple.bind (prefillChunk_moves _ (spec.firstChunk_ne_nil hne) w₁) fun _ => Triple.of_eq fun v hv => ?_
      exact ((logGrows v.trace).prefillLoop _ _ _).conseq (fun w hw => hw ▸ List.suffix_rfl)
        (fun _ w hw => ⟨v, hv, hw⟩) fun _ _ _ => trivial
  exact (hend.and hlog).conseq (fun _ h => ⟨h, h⟩)
    (fun _ w ⟨hpos, v, hv, hgrow⟩ => hv.later hgrow hpos) fun _ _ _ => trivial

/-- A decode step at its position. -/
theorem decodeForward_moves (tok : Int32) (w₁ : World Int32 ρ I) :
    Triple (fun w => w = w₁) (decodeForward spec env tok) (fun _ => Moved w₁)
      fun _ _ => True := by
  refine Triple.get fun v hv => ?_
  subst hv
  set old := (v.log (.step .decode v.nPast 1)).trace with hold
  refine Triple.bind (R := fun _ w => old <:+ w.trace)
    (Triple.modify fun w hw => by rw [hw]) fun _ => ?_
  refine Triple.bind (R := fun _ w => old <:+ w.trace)
    (Triple.modify fun w hw => by rwa [promoteCL_trace]) fun _ => Triple.get fun v' hv' => ?_
  refine Triple.bind (R := fun _ w => old <:+ w.trace) ?_ fun _ => Triple.modify fun w hw => ?_
  · exact (Stable.forRange (fun _ => Quietly.grows (fun w₀ => decodeShard_quietly w₀ _ _ _) old)
      _).conseq (fun w hw => hw ▸ hv') (fun _ _ h => h) fun _ _ _ => trivial
  · exact Moved.of_step one_pos (hw.trans (List.suffix_cons _ _)) (Nat.succ_pos _)

/-- The prefill stage of a prompt, which is in the cache once the stage returns. -/
theorem prefillStage_advances (hc : Counted spec w₀) (prompt : List Int32) :
    Triple (fun w => w = w₀) (prefillStage spec env prompt cfg) (fun _ => Advanced w₀)
      fun _ _ => True := by
  refine Triple.get fun v hv => ?_
  subst hv
  set v₁ := prepareSampler cfg prompt (v.log (.enter v.nPast prompt.length)) with hv₁
  have hrest : Rested v v₁ :=
    (Rested.log (by simp) v).trans (prepareSampler_rested cfg prompt _)
  have hq : Quietly spec v v₁ :=
    (log_quietly (by trivial) v).trans (prepareSampler_quietly cfg prompt _)
  refine Triple.bind (R := fun _ w => w = v.log (.enter v.nPast prompt.length))
    (Triple.modify fun w hw => by rw [hw]) fun _ => ?_
  refine Triple.bind (R := fun _ w => w = v₁) (Triple.modify fun w hw => by rw [hw]) fun _ => ?_
  have hlast : ∀ last : ℕ, Triple (Advanced v) (do
      Prog.modify (World.log (.appended prompt))
      Prog.modify fun w => restrideActive spec .prefill .decode w.nPast w
      sampleNextToken spec env .prefill ((last + (2 ^ 64 - 1)) % 2 ^ 64)) (fun _ => Advanced v)
      fun _ _ => True := fun last =>
    Triple.bind (R := fun _ => Advanced v)
      (Triple.modify fun w hw => hw.rest (Rested.log (by simp) w)) fun _ =>
      Triple.bind (R := fun _ => Advanced v)
        (Triple.modify fun w hw => hw.rest (restrideActive_rested _ _ _ w)) fun _ =>
      (Advanced.stable fun w => sampleNextToken_rested w _ _).conseq (fun _ h => h)
        (fun _ _ h => h) fun _ _ _ => trivial
  by_cases hnil : prompt = []
  · -- nothing to make room for, and nothing to pass
    subst hnil
    have hle : ¬v₁.nPast + ([] : List Int32).length > spec.maxCl := by
      have := (hq.counted hc).le
      simpa using this
    refine Triple.bind (R := fun _ w => w = v₁) ?_ fun _ =>
      Triple.bind (Triple.pure fun w hw => ?_) hlast
    · exact Triple.get fun w hw => Triple.when (fun hfull => absurd (hw ▸ hfull) hle)
        fun _ w' hw' => hw'.trans hw
    · exact hw ▸ Or.inr hrest
  · refine Triple.bind ((ensureRoom_follows v₁ (hq.counted hc) cfg _ _ _).conseq (fun _ h => h)
      (fun _ _ h => h) fun _ _ _ => trivial) fun _ => Triple.of_eq fun v₂ hv₂ => ?_
    obtain ⟨es, ht, -⟩ := hv₂.1.log
    have hgrow : v.trace <:+ v₂.trace := hrest.grows.trans ⟨es, ht.symm⟩
    exact Triple.bind ((prefillLoop_moves hnil le_rfl 0 v₂ hv₂.1.counted.active).post
      fun _ w hw => Or.inl (hw.since hgrow)) hlast

/-- A decode step that returns has passed its token. -/
theorem decodeStep_moves (tok : Int32) (w₀ : World Int32 ρ I) :
    Triple (fun w => w₀.trace <:+ w.trace) (decodeStep spec env cfg tok) (fun _ => Moved w₀)
      fun _ _ => True := by
  have hgrow : CallInvariant spec env fun w : World Int32 ρ I => w₀.trace <:+ w.trace :=
    logGrows w₀.trace
  exact Triple.bind (hgrow.wait.conseq (fun _ h => h) (fun _ _ h => h) fun _ _ _ => trivial)
    fun _ => Triple.bind ((hgrow.ensureRoom cfg 1 true _).conseq (fun _ h => h)
      (fun _ _ h => h) fun _ _ _ => trivial) fun _ => Triple.of_eq fun v hv =>
    (decodeForward_moves tok v).post fun _ w hw => hw.since hv

/-- A decode step that meets the context limit has passed nothing. -/
theorem decodeStep_limit {tok : Int32} {msg : String} (hc : Counted spec w)
    (hrun : decodeStep spec env cfg tok w = (.error (.contextLengthExceeded msg), w')) :
    Rested w w' := by
  have hroom := decodeStep_context hc hrun
  unfold decodeStep at hrun
  rcases hwait : waitPool spec env w with ⟨e | _, w₁⟩
  · rw [bind_error hwait] at hrun
    cases hrun
    exact (waitPool_rested w).error (Rested.refl w) hwait
  · have hq : Quietly spec w w₁ := (waitPool_quietly w).ok (Quietly.refl w) hwait
    rw [bind_ok hwait, bind_error (ensureRoom_rejects (by rwa [hq.nPast]) _ _)] at hrun
    cases hrun
    exact (waitPool_rested w).ok (Rested.refl w) hwait

/-- The exception that `generateTokens` turns into a result. -/
def Err.Limit (e : Err) : Prop := ∃ msg, e = .contextLengthExceeded msg

theorem decodeStep_advances (tok : Int32) :
    Triple (fun w => Counted spec w ∧ Advanced w₀ w) (decodeStep spec env cfg tok)
      (fun _ w => Counted spec w ∧ Advanced w₀ w) fun e w => e.Limit → Advanced w₀ w := by
  refine Triple.of_eq fun v ⟨hc, hv⟩ => ?_
  have hcounted : Triple (fun w => w = v) (decodeStep spec env cfg tok)
      (fun _ w => Counted spec w) fun _ w => Counted spec w :=
    (decodeStep_follows v hc cfg tok).conseq (fun _ h => h) (fun _ _ h => h.counted) fun _ _ h => h
  have hlimit : Triple (fun w => w = v) (decodeStep spec env cfg tok) (fun _ _ => True)
      fun e w => e.Limit → Advanced w₀ w := by
    rintro w rfl
    rcases hrun : decodeStep spec env cfg tok w with ⟨e | _, w'⟩
    · rintro ⟨msg, rfl⟩
      exact hv.rest (decodeStep_limit hc hrun)
    · trivial
  exact ((decodeStep_moves tok w₀).and (hcounted.and hlimit)).conseq
    (fun w hw => ⟨hw ▸ hv.grows, hw, hw⟩) (fun _ w h => ⟨h.2.1, Or.inl h.1⟩) fun _ _ h => h.2.2

theorem decodeLoop_advances (n : ℕ) (next : Int32) (out : List Int32) :
    Triple (fun w => Counted spec w ∧ Advanced w₀ w)
      (decodeLoop spec env cfg callback n next out) (fun _ => Advanced w₀)
      fun e w => e.Limit → Advanced w₀ w := by
  have hleave : ∀ (reason : StopReason) (out : List Int32),
      Triple (fun w => Counted spec w ∧ Advanced w₀ w) (leaveLoop reason out : Run Int32 ρ I _)
        (fun _ => Advanced w₀) fun e w => e.Limit → Advanced w₀ w := fun reason out =>
    Triple.bind (R := fun _ => Advanced w₀)
      (Triple.modify fun w hw => hw.2.rest (Rested.log (by simp) w)) fun _ =>
      Triple.pure fun _ h => h
  induction n generalizing next out with
  | zero => exact hleave _ _
  | succ n ih =>
    unfold Geniex.decodeLoop
    refine Triple.ite (fun _ => hleave _ _) fun _ => Triple.bind
      (R := fun _ w => Counted spec w ∧ Advanced w₀ w) (Triple.modify fun w hw =>
        ⟨hw.1.log (by simp), hw.2.rest (Rested.log (by simp) w)⟩) fun _ => ?_
    cases callback ((out ++ [next]).map Token.id) with
    | stop => exact hleave _ _
    | throw => exact Triple.throw fun w hw _ => hw.2
    | «continue» =>
      refine Triple.bind (decodeStep_advances next) fun _ => Triple.bind ?_ fun _ => ih _ _
      refine Triple.of_eq fun v hw => ?_
      obtain ⟨hc, hv⟩ := hw
      exact ((sampleNextToken_quietly v .decode 0).and (sampleNextToken_rested v .decode 0)).conseq
        (fun w hw => by subst hw; exact ⟨Quietly.refl w, Rested.refl w⟩)
        (fun _ w hw => ⟨hw.1.counted hc, hv.rest hw.2⟩) fun _ w hw _ => hv.rest hw.2

/-- A call of the plain decoder that returns or meets the context limit. -/
theorem generate_advances (hc : Counted spec w₀) :
    Triple (fun w => w = w₀) (generate spec env prompt cfg callback) (fun _ => Advanced w₀)
      fun e w => e.Limit → Advanced w₀ w := by
  by_cases hroom : RoomFor spec cfg prompt.length w₀.nPast
  swap
  · rintro w rfl
    have hrun : generate spec env prompt cfg callback w =
        (.error (.contextLengthExceeded (promptExceedsMsg spec)),
          prepareSampler cfg prompt (w.log (.enter w.nPast prompt.length))) :=
      bind_error (bind_error (prefillStage_rejects hroom) _) _
    rw [hrun]
    exact fun _ => Or.inr ((Rested.log (by simp) w).trans (prepareSampler_rested cfg prompt _))
  have hprefill : Triple (fun w => w = w₀) (prefillStage spec env prompt cfg)
      (fun _ w => Counted spec w ∧ Advanced w₀ w) fun e w => e.Limit → Advanced w₀ w :=
    ((prefillStage_follows w₀ hc prompt cfg).and
      ((prefillStage_advances hc prompt).and (prefillStage_fails hc hroom))).conseq
      (fun _ hw => ⟨hw, hw, hw⟩) (fun _ _ h => ⟨h.1.counted, h.2.1⟩) fun e w h hlimit => by
        obtain ⟨msg, rfl⟩ := h.2.2
        obtain ⟨msg', h'⟩ := hlimit
        cases h'
  have hwait : Triple (Advanced w₀) (waitPool spec env) (fun _ => Advanced w₀)
      fun e w => e.Limit → Advanced w₀ w :=
    (Advanced.stable fun w => waitPool_rested w).conseq (fun _ h => h) (fun _ _ h => h)
      fun _ _ h _ => h
  refine Triple.bind (R := fun _ => Advanced w₀) (Triple.bind hprefill fun first => Triple.bind
    (R := fun _ w => Counted spec w ∧ Advanced w₀ w) (Triple.modify fun w hw =>
      ⟨⟨hw.1.size, hw.1.le, hw.1.active, hw.1.fits, hw.1.entries⟩,
        hw.2.rest (Rested.plain rfl rfl)⟩) fun _ => ?_) fun out => ?_
  · refine Triple.bind ((decodeLoop_advances _ first []).onThrow fun e w hw hlimit =>
      (hw hlimit).rest (Rested.log (by simp) w)) fun out => Triple.bind hwait fun _ => ?_
    exact Triple.bind (R := fun _ => Advanced w₀)
      (Triple.modify fun w hw => hw.rest (Rested.plain rfl rfl)) fun _ => Triple.pure fun _ h => h
  · refine Triple.bind (R := fun _ => Advanced w₀) (Triple.modify fun w hw => hw.rest ?_) fun _ =>
      Triple.pure fun _ h => h
    exact (promoteCL_rested _ _ _ w).trans (restrideActive_rested _ _ _ _)

/-! ## The tree decoder -/

/-- What stays above one past position since a move keeps the move. -/
theorem Moved.above (h : Moved w₀ w₁) (habove : AbovePrefix 1 w₁ w) : Moved w₀ w :=
  h.later habove.grows habove.nPast

theorem Moved.stable {α : Type} {x : Run Int32 ρ I α}
    (hx : ∀ w, Stable (AbovePrefix 1 w) x) : Stable (Moved w₀) x :=
  Triple.of_eq fun w₁ hw₁ => (hx w₁).conseq
    (fun w hw => by subst hw; exact ⟨hw₁.pos, Since.start (by simp)⟩) (fun _ _ hw => hw₁.above hw)
    fun _ _ hw => hw₁.above hw

variable {ssd : SSDConfig}

theorem ssdPrefillChunk_moves {chunk : List Int32} (hne : chunk ≠ []) (w₁ : World Int32 ρ I) :
    Triple (fun w => w = w₁) (ssd.prefillChunk spec env chunk) (fun _ => Moved w₁)
      fun _ _ => True := by
  have hpos : 0 < chunk.length := List.length_pos_of_ne_nil hne
  refine Triple.get fun v hv => ?_
  subst hv
  set v' := v.log (.step .prefill v.nPast chunk.length) with hv'
  refine Triple.bind (R := fun _ => AbovePrefix 0 v')
    (Triple.modify fun w hw => by subst hw; exact ⟨Nat.zero_le _, Since.start (by simp)⟩) fun _ =>
    Triple.bind (R := fun _ => AbovePrefix 0 v') ?_ fun _ => Triple.modify fun w hw =>
      Moved.of_step hpos hw.grows (Nat.lt_add_left _ hpos)
  exact (Stable.forRange (fun s => AbovePrefix.prefillShard _ _ _ s (Nat.zero_le _)) _).conseq
    (fun _ h => h) (fun _ _ h => h) fun _ _ _ => trivial

theorem ssdPrefillLoop_moves {fuel : ℕ} {tokens : List Int32} (hne : tokens ≠ [])
    (hfuel : tokens.length ≤ fuel) (last : ℕ) (w₁ : World Int32 ρ I) :
    Triple (fun w => w = w₁) (ssd.prefillLoop spec env fuel tokens last) (fun _ => Moved w₁)
      fun _ _ => True := by
  have hlength : 0 < tokens.length := List.length_pos_of_ne_nil hne
  cases fuel with
  | zero => omega
  | succ fuel =>
    refine Triple.ite (fun h => absurd h hne) fun _ =>
      Triple.bind (ssdPrefillChunk_moves (spec.firstChunk_ne_nil hne) w₁) fun _ => ?_
    exact (Moved.stable fun _ => AbovePrefix.prefillLoop _ _ _).conseq (fun _ h => h)
      (fun _ _ h => h) fun _ _ _ => trivial

/-- The initial pass commits the first token. -/
theorem initialStep_moves (first : Int32) (w₁ : World Int32 ρ I) :
    Triple (fun w => w = w₁) (ssd.initialStep spec env first) (fun _ => Moved w₁)
      fun _ _ => True := by
  set v' := w₁.log (.step .decode w₁.nPast (first :: ssd.forecastRow spec.vocabSize).length)
    with hv'
  have hpass : Triple (fun w => w = w₁)
      (ssd.runShardsWithTreeMask spec env (first :: ssd.forecastRow spec.vocabSize) 1)
      (fun _ => AbovePrefix 0 v') fun _ _ => True := by
    refine Triple.get fun v hv => ?_
    subst hv
    refine Triple.bind (R := fun _ => AbovePrefix 0 v') (Triple.modify fun w hw => by
      subst hw; exact ⟨Nat.zero_le _, Since.start (by simp)⟩) fun _ => ?_
    exact (Stable.forRange (fun s => AbovePrefix.treeShard _ _ _ s (Nat.zero_le _)) _).conseq
      (fun _ h => h) (fun _ _ h => h) fun _ _ _ => trivial
  refine Triple.bind hpass fun _ => Triple.bind (R := fun _ => AbovePrefix 0 v')
    (Triple.modify fun w hw => ?_) fun _ => Triple.modify fun w hw =>
      Moved.of_step (Nat.succ_pos _) hw.grows (Nat.succ_pos _)
  induction spec.shardCount with
  | zero => exact hw
  | succ n ih => exact ih.updateKV _ _ _ _

/-- A call of the tree decoder that returns. -/
theorem ssd_generate_advances :
    Triple (fun w => w = w₀) (ssd.generate spec env prompt cfg callback) (fun _ => Advanced w₀)
      fun _ _ => True := by
  have hprefill : Triple (fun w => w = w₀) (ssd.prefillStage spec env prompt)
      (fun _ => Advanced w₀) fun _ _ => True := by
    refine Triple.get fun v hv => ?_
    subst hv
    set v₁ := v.log (.enter v.nPast prompt.length) with hv₁
    have hrest : Rested v v₁ := Rested.log (by simp) v
    refine Triple.bind (R := fun _ w => w = v₁) (Triple.modify fun w hw => by rw [hw]) fun _ => ?_
    refine Triple.bind (R := fun _ => Advanced v) ?_ fun last => Triple.bind
      (R := fun _ => Advanced v) (Triple.modify fun w hw =>
        hw.rest (restrideActive_rested _ _ _ w)) fun _ =>
      (Advanced.stable fun w => sampleNextToken_rested w _ _).conseq (fun _ h => h)
        (fun _ _ h => h) fun _ _ _ => trivial
    by_cases hnil : prompt = []
    · subst hnil
      exact Triple.pure fun w hw => hw ▸ Or.inr hrest
    · exact (ssdPrefillLoop_moves hnil le_rfl 0 v₁).post fun _ w hw =>
        Or.inl (hw.since hrest.grows)
  refine Triple.bind (R := fun _ => Advanced w₀) (Triple.bind hprefill fun first => Triple.ite
    (fun _ => Triple.pure fun _ h => h) fun _ => Triple.bind (R := fun _ => Advanced w₀)
      (Triple.modify fun w hw => hw.rest (Rested.log (by simp) w)) fun _ => ?_) fun _ =>
    Triple.bind (R := fun _ => Advanced w₀) (Triple.modify fun w hw =>
      hw.rest (restrideActive_rested _ _ _ w)) fun _ => Triple.pure fun _ h => h
  cases callback [first] with
  | stop => exact Triple.pure fun _ h => h
  | throw => exact Triple.throw fun _ _ => trivial
  | «continue» =>
    have hstep : Triple (Advanced w₀) (ssd.initialStep spec env first) (fun _ => Moved w₀)
        fun _ _ => True := Triple.of_eq fun w₁ hw₁ =>
      (initialStep_moves first w₁).post fun _ w hw => hw.since hw₁.grows
    refine Triple.bind hstep fun _ => Triple.get fun w₁ hw₁ => ?_
    exact (Moved.stable fun _ => AbovePrefix.decodeLoop _ _ _ _ _).conseq (fun w hw => hw ▸ hw₁)
      (fun _ _ h => Or.inl h) fun _ _ _ => trivial

/-! ## Runs of a pipeline -/

/-- What the KV cache of a pipeline has been given since its creation or its last reset. -/
inductive Origin
  | fresh
  /-- A conversation without tokens has been loaded, and nothing has been passed since. -/
  | emptyLoad
  | tokens
  deriving DecidableEq, Repr

/-- `forecast_prefix` of the model class. -/
def ModelClass.forecastPrefix : ModelClass → ℕ
  | .llm => 0
  | .ssd c => c.forecastPrefix

/-- The states of a pipeline between its operations. A text call is one that gives a result: it is
complete, stopped, or ended by the context limit. -/
inductive PipelineRun (m : ModelClass) (spec : LLMSpec) : Origin → World Int32 ρ I → Prop
  | create (providers : ρ) (kv : KVMem) (outs : ℕ → GraphOut) (hiddenIn : ℕ → ℕ → UInt8) :
      PipelineRun m spec .fresh (m.initWorld spec providers kv outs hiddenIn)
  | text {o : Origin} {w w' : World Int32 ρ I} {result : GenerateResult} (env : Env Int32 ρ I)
      (s : Stream) (encode : String → List Int32) (bosTokenId : Int32) (prompt : String)
      (cfg : GenerationConfig) (h : PipelineRun m spec o w)
      (hrun : generateText m spec env s encode bosTokenId prompt cfg w = (.ok result, w')) :
      PipelineRun m spec (if passedTokens (newEvents w w') = true then .tokens else o) w'
  | reset {o : Origin} {w : World Int32 ρ I} (h : PipelineRun m spec o w) :
      PipelineRun m spec .fresh (m.resetKVCache spec w)
  /-- A pipeline of the same bundle has saved the file; its `n_past_` is a `size_t`. -/
  | load {o o' : Origin} {w v : World Int32 ρ I} (h : PipelineRun m spec o w)
      (hv : PipelineRun m spec o' v) (hsize : v.nPast < 2 ^ 64) :
      PipelineRun m spec (if o' = .tokens then .tokens else .emptyLoad) (loaded spec v w)
  /-- The workers complete write-backs that are still queued. -/
  | idle {o : Origin} {w : World Int32 ρ I} (done : KVJob → Bool) (h : PipelineRun m spec o w) :
      PipelineRun m spec o (settle spec done w)

/-- What a text call is to hand to the model: the BOS token comes first on the first turn of a
conversation, and a loaded conversation has had its first turn. -/
def firstTurnBos (bosTokenId : Int32) (o : Origin) (encoded : List Int32) : List Int32 :=
  if o = .fresh ∧ encoded.head? ≠ some bosTokenId then bosTokenId :: encoded else encoded

/-- What ties `n_past` to the conversation. -/
structure PastMarks (m : ModelClass) (spec : LLMSpec) (o : Origin) (w : World Int32 ρ I) : Prop where
  counted : m = .llm → Counted spec w
  zero : m.forecastPrefix = 0 → (w.nPast = 0 ↔ o ≠ .tokens)
  above : m.forecastPrefix ≤ w.nPast

/-- A call through the pipeline that gives a result. -/
theorem generateTokens_advances {m : ModelClass} {s : Stream} {ids : List Int32}
    {result : GenerateResult} (hc : m = .llm → Counted spec w)
    (hrun : generateTokens m spec env s ids cfg w = (.ok result, w')) :
    Advanced w w' ∧ (m = .llm → Counted spec w') ∧
      (m.forecastPrefix ≤ w.nPast → m.forecastPrefix ≤ w'.nPast) := by
  unfold generateTokens at hrun
  dsimp only at hrun
  rcases hgen : m.generate spec env ids (effectiveCfg cfg) s.onEachToken w with ⟨r, v⟩
  rw [hgen] at hrun
  have hends : v = w' ∧ ((∃ out, r = .ok out) ∨ ∃ e, e.Limit ∧ r = .error e) := by
    rcases r with e | out
    · cases e with
      | contextLengthExceeded msg =>
        cases hrun
        exact ⟨rfl, Or.inr ⟨_, ⟨msg, rfl⟩, rfl⟩⟩
      | _ => cases hrun
    · cases hrun
      exact ⟨rfl, Or.inl ⟨out, rfl⟩⟩
  obtain ⟨rfl, hends⟩ := hends
  cases m with
  | llm =>
    have hc := hc rfl
    have hcounted : Counted spec v := by
      have : Counted spec (Geniex.generate spec env ids (effectiveCfg cfg) s.onEachToken w).2 :=
        generate_counted hc ids (effectiveCfg cfg) s.onEachToken
      rwa [show Geniex.generate spec env ids (effectiveCfg cfg) s.onEachToken w = (r, v) from hgen]
        at this
    refine ⟨?_, fun _ => hcounted, fun _ => Nat.zero_le _⟩
    rcases hends with ⟨out, rfl⟩ | ⟨e, hlimit, rfl⟩
    · exact (generate_advances hc).ok rfl hgen
    · exact (generate_advances hc).error rfl hgen hlimit
  | ssd c =>
    have habove : c.forecastPrefix ≤ w.nPast → c.forecastPrefix ≤ v.nPast := fun hle => by
      have hend : AbovePrefix c.forecastPrefix w
          (c.generate spec env ids (effectiveCfg cfg) s.onEachToken w).2 :=
        (AbovePrefix.generate ids (effectiveCfg cfg) s.onEachToken).snd
          ⟨hle, Since.start (by simp)⟩
      rw [show c.generate spec env ids (effectiveCfg cfg) s.onEachToken w = (r, v) from hgen] at hend
      exact hend.nPast
    refine ⟨?_, nofun, habove⟩
    rcases hends with ⟨out, rfl⟩ | ⟨e, ⟨msg, rfl⟩, rfl⟩
    · exact ssd_generate_advances.ok rfl hgen
    · exact absurd rfl ((ssd_generate_throws (T := fun e => e ≠ .contextLengthExceeded msg)
        (fun _ => nofun) nofun).error hgen)

theorem PastMarks.text {m : ModelClass} {s : Stream} {ids : List Int32} {o : Origin}
    {result : GenerateResult} (h : PastMarks m spec o w)
    (hrun : generateTokens m spec env s ids cfg w = (.ok result, w')) :
    PastMarks m spec (if passedTokens (newEvents w w') = true then .tokens else o) w' := by
  obtain ⟨hadvanced, hcounted, habove⟩ := generateTokens_advances h.counted hrun
  refine ⟨hcounted, fun hzero => ?_, habove h.above⟩
  rcases hadvanced with ⟨⟨es, ht, hes⟩, hpos⟩ | ⟨⟨es, ht, hes⟩, hn⟩
  · rw [newEvents_eq ht, if_pos hes]
    simp only [ne_eq, not_true_eq_false, iff_false]
    omega
  · rw [newEvents_eq ht, if_neg (by rw [hes]; decide), hn]
    exact h.zero hzero

theorem PipelineRun.pastMarks {m : ModelClass} {o : Origin} (h : PipelineRun m spec o w) :
    PastMarks m spec o w := by
  induction h with
  | create providers kv outs hiddenIn =>
    cases m with
    | llm =>
      exact ⟨fun _ => initWorld_counted providers kv outs hiddenIn,
        fun _ => ⟨fun _ => nofun, fun _ => rfl⟩, Nat.zero_le _⟩
    | ssd c => exact ⟨nofun, fun hzero => ⟨fun _ => nofun, fun _ => hzero⟩, le_rfl⟩
  | text env s encode bosTokenId prompt cfg _ hrun ih => exact ih.text hrun
  | reset _ ih =>
    cases m with
    | llm => exact ⟨fun _ => (ih.counted rfl).reset, fun _ => ⟨fun _ => nofun, fun _ => rfl⟩,
        Nat.zero_le _⟩
    | ssd c => exact ⟨nofun, fun hzero => ⟨fun _ => nofun, fun _ => hzero⟩, le_rfl⟩
  | @load o o' w v _ _ hsize ih ihv =>
    refine ⟨fun hm => (ih.counted hm).load (ihv.counted hm), fun hzero => ?_, ?_⟩
    · rw [loaded_nPast hsize, ihv.zero hzero]
      cases o' <;> simp
    · rw [loaded_nPast hsize]
      exact ihv.above
  | idle done _ ih =>
    exact ⟨fun hm => (settle_quietly spec done _).counted (ih.counted hm),
      fun hzero => by rw [(settle_rested done _).nPast]; exact ih.zero hzero,
      by rw [(settle_rested done _).nPast]; exact ih.above⟩

/-- **BOS once per conversation**, and exactly when. A text call hands to the model what the first
turn asks for if and only if the prompt starts with the BOS token itself, or tokens have been passed
or loaded, or the conversation is fresh and the model has no forecast prefix, or a conversation
without tokens has been loaded into a model with one: `n_past` starts at the end of the prefix, and
so no turn of a tree decoder with a prefix is its first. -/
theorem withBos_iff {m : ModelClass} {o : Origin} (h : PipelineRun m spec o w) {b : Int32}
    (hb : 0 ≤ b) (encode : String → List Int32) (prompt : String) :
    withBos b w.nPast (encode prompt) = firstTurnBos b o (encode prompt) ↔
      (encode prompt).head? = some b ∨ o = .tokens ∨ (o = .fresh ∧ m.forecastPrefix = 0) ∨
        (o = .emptyLoad ∧ m.forecastPrefix ≠ 0) := by
  have hmarks := h.pastMarks
  generalize encode prompt = ids
  have hcons : b :: ids ≠ ids := fun heq => by simpa using congrArg List.length heq
  by_cases hhead : ids.head? = some b
  · have hne : ids ≠ [] := fun hnil => by simp [hnil] at hhead
    simp [withBos, firstTurnBos, hhead, hne]
  have hzero : w.nPast = 0 ↔ m.forecastPrefix = 0 ∧ o ≠ .tokens := by
    refine ⟨fun hn => ?_, fun ⟨hp, ho⟩ => (hmarks.zero hp).mpr ho⟩
    have hp : m.forecastPrefix = 0 := by
      have := hmarks.above
      omega
    exact ⟨hp, (hmarks.zero hp).mp hn⟩
  have hgiven : withBos b w.nPast ids =
      if m.forecastPrefix = 0 ∧ o ≠ .tokens then b :: ids else ids := by
    unfold withBos
    simp only [hb, hhead, hzero, true_and, ne_eq, not_false_eq_true, or_true, and_true]
  have hasked : firstTurnBos b o ids = if o = .fresh then b :: ids else ids := by
    unfold firstTurnBos
    simp only [ne_eq, hhead, not_false_eq_true, and_true]
  rw [hgiven, hasked]
  by_cases hp : m.forecastPrefix = 0 <;> cases o <;> simp [hp, hhead, hcons, hcons.symm]

/-- A new pipeline over the model class, with buffers of zeros. -/
def tinyPipeline (m : ModelClass) (spec : LLMSpec) : World Int32 Unit Unit :=
  m.initWorld spec () (fun _ _ => 0) (fun _ => ⟨fun _ _ => 0, fun _ => 0, fun _ => 0⟩) fun _ _ => 0

/-- An instance of `withBos_iff`: the first turn over a plain model. -/
theorem withBos_iff_tiny :
    withBos 1 (tinyPipeline .llm (tinySpec [4] 2 1)).nPast [5] = firstTurnBos 1 .fresh [5] :=
  (withBos_iff (PipelineRun.create () _ _ _) (b := 1) (by decide) (fun _ => [5]) "").mpr
    (Or.inr (Or.inr (Or.inl ⟨rfl, rfl⟩)))

/-- The first turn of a tree decoder with a forecast prefix of one column goes without BOS. -/
theorem forecastPrefix_noBos :
    PipelineRun (.ssd ⟨[1], 1, none⟩) (tinySpec [8] 4 3) .fresh
        (tinyPipeline (.ssd ⟨[1], 1, none⟩) (tinySpec [8] 4 3)) ∧
      firstTurnBos 1 .fresh [5] = [1, 5] ∧
      withBos 1 (tinyPipeline (.ssd ⟨[1], 1, none⟩) (tinySpec [8] 4 3)).nPast [5] = [5] :=
  ⟨PipelineRun.create () _ _ _, by decide, by decide⟩

end Geniex
