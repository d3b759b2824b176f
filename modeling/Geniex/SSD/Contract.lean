import Geniex.LLM.Sampling
import Geniex.SSD.Layout

/-!
# The output contract of the two decoders

`KeepsContract`: at most `max_tokens` tokens, one callback call for each in order, no EOS, and
nothing after an EOS or after the callback has stopped the call.

* `StepsHaveRoom`: each step of a tree-decoding call begins with room for what it may emit.
* `keepsContract_of_room`: the plain decoder keeps the contract always, the tree decoder if its steps
  have room. It may go past `max_tokens` otherwise, and keeps the rest of the contract even then.
-/

namespace Geniex

open Prog

variable {τ ρ I : Type}

/-- What a call that returns `out` and logs `es` owes its caller. -/
structure KeepsContract [Token τ] (spec : LLMSpec) (maxTokens : Int32)
    (callback : List Int32 → CallbackAnswer) (out : List τ) (es : List (Event τ I)) : Prop where
  emitted : emittedTokens es = out
  length : (out.length : ℤ) ≤ max 0 maxTokens.toInt
  notEos : ∀ t ∈ out, isEos spec t = false
  inTime : InTime spec callback es

/-! ## What a log says of the steps -/

section Log

variable (spec : LLMSpec) (callback : List Int32 → CallbackAnswer) (levels : ℕ) (maxTokens : Int32)

/-- `max_tokens` leaves room at each step of a call: for a token when the first one is emitted, for
a second one when the first path is accepted, and, as long as any is left, for a token more than the
levels of the tree whenever a path is. Newest event first. -/
def StepsHaveRoom : List (Event Int32 I) → Prop
  | [] => True
  | .emitted _ :: es => (emittedTokens es = [] → 1 ≤ maxTokens.toInt) ∧ StepsHaveRoom es
  | .accepted _ _ :: es =>
    ((emittedTokens es).length = 1 → 2 ≤ maxTokens.toInt) ∧
      ((emittedTokens es).length < maxTokens.toInt →
        (emittedTokens es).length + levels < maxTokens.toInt) ∧ StepsHaveRoom es
  | _ :: es => StepsHaveRoom es

/-- A log of a call that has emitted `out` and has the path `rest` to emit. -/
structure Uttered (out rest : List Int32) (es : List (Event Int32 I)) : Prop where
  emitted : emittedTokens es = out
  inTime : InTime spec callback es
  notEos : ∀ t ∈ out, isEos spec t = false
  fits : StepsHaveRoom levels maxTokens es → ((out ++ rest).length : ℤ) ≤ max 0 maxTokens.toInt

/-- A log at a head of the loop: one token has been emitted, or the limit is not reached. -/
def BelowLimit (out : List Int32) (es : List (Event Int32 I)) : Prop :=
  StepsHaveRoom levels maxTokens es → out.length = 1 ∨ (out.length : ℤ) < maxTokens.toInt

/-- A log after which the call may still emit. -/
structure Unstopped (out : List Int32) (es : List (Event Int32 I)) : Prop where
  sampled : sampledTokens es ≠ []
  noEos : ∀ t ∈ sampledTokens es, isEos spec t = false
  told : ∀ said, said ≠ [] → said <+: out → callback said = .continue

/-- A log without sampled tokens. -/
structure Unspoken (es : List (Event Int32 I)) : Prop where
  sampled : sampledTokens es = []
  emitted : emittedTokens es = []
  inTime : InTime spec callback es

end Log

/-- The events since `w₀` satisfy `P`. -/
def Since (w₀ : World τ ρ I) (P : List (Event τ I) → Prop) (w : World τ ρ I) : Prop :=
  ∃ es, w.trace = es ++ w₀.trace ∧ P es

theorem Since.start {w₀ : World τ ρ I} {P : List (Event τ I) → Prop} (h : P []) : Since w₀ P w₀ :=
  ⟨[], rfl, h⟩

theorem Since.log {w₀ w : World τ ρ I} {P Q : List (Event τ I) → Prop} {e : Event τ I}
    (h : Since w₀ P w) (he : ∀ es, P es → Q (e :: es)) : Since w₀ Q (w.log e) := by
  obtain ⟨es, ht, hes⟩ := h
  exact ⟨e :: es, by rw [World.log_trace, ht, List.cons_append], he es hes⟩

theorem Since.mono {w₀ w : World τ ρ I} {P Q : List (Event τ I) → Prop} (h : Since w₀ P w)
    (hpq : ∀ es, P es → Q es) : Since w₀ Q w := by
  obtain ⟨es, ht, hes⟩ := h
  exact ⟨es, ht, hpq es hes⟩

/-- The passes keep what silent events keep. -/
theorem Since.work {w₀ : World τ ρ I} {P : List (Event τ I) → Prop}
    (h : ∀ (e : Event τ I) (es : List (Event τ I)), e.Silent → P es → P (e :: es)) :
    WorkInvariant (Since w₀ P) where
  plain _ _ _ ht hw := by
    obtain ⟨es, hes⟩ := hw
    exact ⟨es, by rw [ht]; exact hes⟩
  log _ e he hw := hw.log fun es => h e es he

variable {spec : LLMSpec} {env : Env Int32 ρ I} {callback : List Int32 → CallbackAnswer}
  {levels : ℕ} {maxTokens : Int32} {w₀ : World Int32 ρ I} {ssd : SSDConfig}

/-! ## Events one at a time -/

/-- A call that emits so few tokens that a whole path more would fit has had room at each step. -/
theorem stepsHaveRoom_of_lt {es : List (Event Int32 I)}
    (h : ((emittedTokens es).length : ℤ) + levels < maxTokens.toInt) (htwo : 2 ≤ maxTokens.toInt) :
    StepsHaveRoom levels maxTokens es := by
  induction es with
  | nil => trivial
  | cons e es ih =>
    cases e with
    | emitted t =>
      rw [emittedTokens, List.length_append] at h
      push_cast at h
      exact ⟨fun _ => by omega, ih (by omega)⟩
    | accepted n path => exact ⟨fun _ => htwo, fun _ => h, ih h⟩
    | _ => exact ih h

/-- A silent event is nothing that the call says. -/
theorem silence (spec : LLMSpec) (callback : List Int32 → CallbackAnswer) (levels : ℕ)
    (maxTokens : Int32) {e : Event Int32 I} (he : e.Silent) (es : List (Event Int32 I)) :
    sampledTokens (e :: es) = sampledTokens es ∧ emittedTokens (e :: es) = emittedTokens es ∧
      (InTime spec callback (e :: es) ↔ InTime spec callback es) ∧
      (StepsHaveRoom levels maxTokens (e :: es) ↔ StepsHaveRoom levels maxTokens es) := by
  cases e with
  | appended | sampler | sampled | accepted | emitted | stopped => exact he.elim
  | _ => exact ⟨rfl, rfl, Iff.rfl, Iff.rfl⟩

theorem Unspoken.silent {e : Event Int32 I} {es : List (Event Int32 I)} (he : e.Silent)
    (h : Unspoken spec callback es) : Unspoken spec callback (e :: es) := by
  obtain ⟨hsampled, hemitted, htime, -⟩ := silence spec callback 0 0 he es
  exact ⟨hsampled.trans h.sampled, hemitted.trans h.emitted, htime.mpr h.inTime⟩

theorem Uttered.silent {out rest : List Int32} {e : Event Int32 I} {es : List (Event Int32 I)}
    (he : e.Silent) (h : Uttered spec callback levels maxTokens out rest es) :
    Uttered spec callback levels maxTokens out rest (e :: es) := by
  obtain ⟨-, hemitted, htime, hroom⟩ := silence spec callback levels maxTokens he es
  exact ⟨hemitted.trans h.emitted, htime.mpr h.inTime, h.notEos, fun hfits => h.fits (hroom.mp hfits)⟩

theorem Unstopped.silent {out : List Int32} {e : Event Int32 I} {es : List (Event Int32 I)}
    (he : e.Silent) (h : Unstopped spec callback out es) :
    Unstopped spec callback out (e :: es) := by
  have hsampled := (silence spec callback 0 0 he es).1
  refine ⟨?_, ?_, h.told⟩
  · rw [hsampled]
    exact h.sampled
  · rw [hsampled]
    exact h.noEos

theorem BelowLimit.silent {out : List Int32} {e : Event Int32 I} {es : List (Event Int32 I)}
    (spec : LLMSpec) (callback : List Int32 → CallbackAnswer) (he : e.Silent)
    (h : BelowLimit levels maxTokens out es) : BelowLimit levels maxTokens out (e :: es) :=
  fun hroom => h ((silence spec callback levels maxTokens he es).2.2.2.mp hroom)

/-- A path is accepted while the call may still emit: it is no longer than the step has room for. -/
theorem Uttered.accept {out path : List Int32} {es : List (Event Int32 I)} (n : ℕ)
    (h : Uttered spec callback levels maxTokens out [] es)
    (hbelow : BelowLimit levels maxTokens out es) (hpath : path.length ≤ levels + 1) :
    Uttered spec callback levels maxTokens out path (.accepted n path :: es) := by
  refine ⟨h.emitted, h.inTime, h.notEos, ?_⟩
  rintro ⟨hsecond, hroom, hes⟩
  rw [h.emitted] at hsecond hroom
  rw [List.length_append]
  push_cast
  rcases hbelow hes with hone | hlt
  · have htwo := hsecond hone
    have hleft := hroom (by omega)
    omega
  · have hleft := hroom hlt
    omega

/-- The next token of the path is taken up. -/
theorem Uttered.sample {out rest : List Int32} {t : Int32} {es : List (Event Int32 I)}
    (h : Uttered spec callback levels maxTokens out rest es) :
    Uttered spec callback levels maxTokens out rest (.sampled t :: es) :=
  ⟨h.emitted, h.inTime, h.notEos, h.fits⟩

/-- What is left of a path may be dropped. -/
theorem Uttered.drop {out rest : List Int32} {es : List (Event Int32 I)}
    (h : Uttered spec callback levels maxTokens out rest es) :
    Uttered spec callback levels maxTokens out [] es := by
  refine ⟨h.emitted, h.inTime, h.notEos, fun hroom => ?_⟩
  have hfits := h.fits hroom
  rw [List.length_append] at hfits
  rw [List.append_nil]
  omega

/-- It is emitted. -/
theorem Uttered.emit {out rest : List Int32} {t : Int32} {es : List (Event Int32 I)}
    (h : Uttered spec callback levels maxTokens out (t :: rest) es)
    (hopen : Unstopped spec callback out es) (ht : isEos spec t = false) :
    Uttered spec callback levels maxTokens (out ++ [t]) rest (.emitted t :: es) := by
  refine ⟨by rw [emittedTokens, h.emitted], ⟨hopen.noEos, ?_, h.inTime⟩,
    List.forall_mem_append.mpr ⟨h.notEos, List.forall_mem_singleton.mpr ht⟩, ?_⟩
  · intro said hne hpre
    rw [h.emitted] at hpre
    exact (congrArg callback (List.map_id' said)).trans (hopen.told said hne hpre)
  · rintro ⟨-, hroom⟩
    rw [List.append_assoc, List.singleton_append]
    exact h.fits hroom

/-- The test of the loop: if it goes on, the limit is not reached. -/
theorem Uttered.below {out : List Int32} {es : List (Event Int32 I)}
    (h : Uttered spec callback levels maxTokens out [] es)
    (htest : ¬maxTokens ≤ Int32.ofNat out.length) : BelowLimit levels maxTokens out es := by
  intro hroom
  have hfits := h.fits hroom
  have hmax := maxTokens.toInt_lt
  rw [List.append_nil] at hfits
  rw [Int32.le_iff_toInt_le, Int32.toInt_ofNat_of_lt (by omega)] at htest
  omega

theorem Unstopped.sample {out : List Int32} {t : Int32} {es : List (Event Int32 I)}
    (h : Unstopped spec callback out es) (ht : isEos spec t = false) :
    Unstopped spec callback out (.sampled t :: es) :=
  ⟨by simp [sampledTokens],
    List.forall_mem_append.mpr ⟨h.noEos, List.forall_mem_singleton.mpr ht⟩, h.told⟩

theorem Unstopped.emit {out : List Int32} {t : Int32} {es : List (Event Int32 I)}
    (h : Unstopped spec callback out es) (hcall : callback (out ++ [t]) = .continue) :
    Unstopped spec callback (out ++ [t]) (.emitted t :: es) := by
  refine ⟨h.sampled, h.noEos, fun said hne hpre => ?_⟩
  rcases List.prefix_concat_iff.mp hpre with rfl | hpre
  · exact hcall
  · exact h.told said hne hpre

/-! ## The passes -/

section Passes

variable {J : World Int32 ρ I → Prop}

/-- The write of the rows at most throws. -/
theorem SSDConfig.writeCosSin_keeps {E : Err → World Int32 ρ I → Prop} {phase : Phase}
    {shard n : ℕ} (h : ∀ w, J w → E (.executeFailed writeOverflowMsg) w) :
    Triple J (writeCosSin spec phase shard n) (fun _ => J) E :=
  Triple.when (fun _ => Triple.throw h) fun _ _ hw => hw

theorem WorkInvariant.ssdShard (h : WorkInvariant J) (phase : Phase) (clIdx : ℕ)
    (ctx : RunContext Int32) (mask : ℕ → ℤ) (positions : List Int32) (msg : String) (s : ℕ) :
    Stable J (SSDConfig.runShard spec env phase clIdx ctx mask positions msg s) :=
  Stable.bind (SSDConfig.writeCosSin_keeps fun _ hw => hw) fun _ =>
    Stable.get fun _ => h.execGraph _ _ _ _ _ _

theorem WorkInvariant.treePass (h : WorkInvariant J) (tokens : List Int32) (kvPrefixOffset : ℕ) :
    Stable J (ssd.runShardsWithTreeMask spec env tokens kvPrefixOffset) := by
  refine Stable.get fun w₁ => Stable.bind (Stable.modify fun w hw => h.log w _ trivial hw)
    fun _ => Stable.forRange (fun s => ?_) _
  exact Stable.bind (h.ssdShard _ _ _ _ _ _ _) fun _ =>
    Stable.when fun _ => Stable.modify fun w hw => h.plain w _ rfl rfl hw

theorem WorkInvariant.ssdPrefill (h : WorkInvariant J) (fuel : ℕ) (tokens : List Int32)
    (last : ℕ) : Stable J (ssd.prefillLoop spec env fuel tokens last) := by
  induction fuel generalizing tokens last with
  | zero => exact Stable.pure _
  | succ fuel ih =>
    refine Stable.ite (fun _ => Stable.pure _) fun _ => Stable.bind ?_ fun _ => ih _ _
    refine Stable.get fun w₁ => Stable.bind (Stable.modify fun w hw => h.log w _ trivial hw)
      fun _ => Stable.bind (Stable.forRange (fun s => ?_) _) fun _ =>
      Stable.modify fun w hw => h.plain w _ rfl rfl hw
    exact Stable.bind (h.ssdShard _ _ _ _ _ _ _) fun _ =>
      Stable.bind (Stable.modify fun _ hw => h.updateKV _ _ _ _ hw) fun _ =>
      Stable.when fun _ => Stable.modify fun w hw => h.plain w _ rfl rfl hw

theorem WorkInvariant.commit (h : WorkInvariant J) (selected : List Bool) {w : World Int32 ρ I}
    (hw : J w) : J (SSDConfig.selectiveKVUpdate spec selected w) := by
  have hlogs : ∀ shards : List ℕ, J { w with
      trace := shards.map
        (fun s => .kvWrite ⟨.decode, s, 0, w.nPast, selected.count true⟩) ++ w.trace } := by
    intro shards
    induction shards with
    | nil => exact hw
    | cons s shards ih => exact h.log _ (.kvWrite ⟨.decode, s, 0, _, _⟩) trivial ih
  have hw' := hlogs (SSDConfig.kvShards spec).reverse
  exact h.plain { w with trace := _ } _ rfl rfl hw'

theorem WorkInvariant.initialStep (h : WorkInvariant J) (first : Int32) :
    Stable J (ssd.initialStep spec env first) := by
  refine Stable.bind (h.treePass _ _) fun _ => Stable.bind (Stable.modify fun w hw => ?_) fun _ =>
    Stable.modify fun w hw => h.plain w _ rfl rfl hw
  induction spec.shardCount with
  | zero => exact hw
  | succ n ih => exact h.updateKV _ _ _ _ ih

/-- What no token changes when it is said, is kept; an exception leaves it too. -/
theorem SSDConfig.speak_kept {E : World Int32 ρ I → Prop}
    (hsampled : ∀ w t, J w → J (w.log (.sampled t)))
    (hemitted : ∀ w t, J w → J (w.log (.emitted t))) (hthrow : ∀ w, J w → E w)
    (callback : List Int32 → CallbackAnswer) (path out : List Int32) :
    Triple J (SSDConfig.speak spec callback path out) (fun _ => J) fun _ => E := by
  induction path generalizing out with
  | nil => exact Triple.pure fun _ h => h
  | cons t rest ih =>
    refine Triple.bind (R := fun _ => J) (Triple.modify fun w h => hsampled w t h) fun _ =>
      Triple.ite (fun _ => Triple.pure fun _ h => h) fun _ =>
      Triple.bind (R := fun _ => J) (Triple.modify fun w h => hemitted w t h) fun _ => ?_
    cases callback (out ++ [t]) with
    | stop => exact Triple.pure fun _ h => h
    | throw => exact Triple.throw hthrow
    | «continue» => exact ih _

end Passes

/-! ## The call -/

theorem sampleNextToken_unspoken (phase : Phase) (off : ℕ) :
    Triple (Since w₀ (Unspoken spec callback)) (sampleNextToken spec env phase off)
      (fun tok => Since w₀ fun es =>
        ∃ es', es = .sampled tok :: es' ∧ Unspoken spec callback es') (fun _ _ => True) := by
  refine Triple.get fun w₁ hw₁ => ?_
  have hlog : ∀ (tok : Int32) (w : World Int32 ρ I), Since w₀ (Unspoken spec callback) w →
      Since w₀ (fun es => ∃ es', es = .sampled tok :: es' ∧ Unspoken spec callback es')
        (w.log (.sampled tok)) :=
    fun tok w hw => hw.log fun es hes => ⟨es, rfl, hes⟩
  cases w₁.sampler with
  | none =>
    exact Triple.bind (Triple.modify fun w hw => hlog _ w (hw ▸ hw₁)) fun _ =>
      Triple.pure fun _ hw => hw
  | some s =>
    refine Triple.bind (R := fun _ => Since w₀ (Unspoken spec callback))
      (Triple.modify fun w hw => ?_) fun _ =>
      Triple.bind (Triple.modify fun w hw => hlog _ w hw) fun _ => Triple.pure fun _ hw => hw
    subst hw
    obtain ⟨es, ht, hes⟩ := hw₁
    refine ⟨[.sampler (.accept _), .sampler (.sample _)] ++ es, by
      rw [List.append_assoc, ← ht]; rfl, ?_⟩
    exact ⟨hes.sampled, hes.emitted, hes.inTime⟩

theorem speak_uttered (path out : List Int32) :
    Triple (Since w₀ fun es =>
        Uttered spec callback levels maxTokens out path es ∧ Unstopped spec callback out es)
      (SSDConfig.speak spec callback path out)
      (fun r => Since w₀ fun es => Uttered spec callback levels maxTokens r.1 [] es ∧
        (r.2 = false → Unstopped spec callback r.1 es)) (fun _ _ => True) := by
  induction path generalizing out with
  | nil => exact Triple.pure fun w hw => hw.mono fun es hes => ⟨hes.1, fun _ => hes.2⟩
  | cons t rest ih =>
    refine Triple.bind (R := fun _ => Since w₀ fun es =>
      Uttered spec callback levels maxTokens out (t :: rest) es ∧
        (isEos spec t = false → Unstopped spec callback out es))
      (Triple.modify fun w hw => hw.log fun es hes =>
        ⟨hes.1.sample, fun ht => hes.2.sample ht⟩) fun _ => ?_
    refine Triple.ite (fun ht => Triple.pure fun w hw => hw.mono fun es hes =>
      ⟨hes.1.drop, fun h => by cases h⟩) fun ht => ?_
    rw [Bool.not_eq_true] at ht
    refine Triple.bind (R := fun _ => Since w₀ fun es =>
      Uttered spec callback levels maxTokens (out ++ [t]) rest es ∧
        (callback (out ++ [t]) = .continue → Unstopped spec callback (out ++ [t]) es))
      (Triple.modify fun w hw => hw.log fun es hes =>
        ⟨hes.1.emit (hes.2 ht) ht, fun hcall => (hes.2 ht).emit hcall⟩) fun _ => ?_
    cases hcall : callback (out ++ [t]) with
    | stop =>
      exact Triple.pure fun w hw => hw.mono fun es hes => ⟨hes.1.drop, fun h => by cases h⟩
    | throw => exact Triple.throw fun _ _ => trivial
    | «continue» => exact (ih (out ++ [t])).pre fun w hw => hw.mono fun es hes => ⟨hes.1, hes.2 rfl⟩

variable (spec callback levels maxTokens w₀) in
theorem open_work (out rest : List Int32) :
    WorkInvariant (Since w₀ fun es =>
      Uttered spec callback levels maxTokens out rest es ∧ Unstopped spec callback out es) :=
  Since.work fun _ _ he hes => ⟨hes.1.silent he, hes.2.silent he⟩

variable (spec callback levels maxTokens w₀) in
/-- At a head of the loop the passes keep the log. -/
theorem head_work (out : List Int32) :
    WorkInvariant (Since w₀ fun es => Uttered spec callback levels maxTokens out [] es ∧
      Unstopped spec callback out es ∧ BelowLimit levels maxTokens out es) :=
  Since.work fun _ _ he hes => ⟨hes.1.silent he, hes.2.1.silent he, hes.2.2.silent spec callback he⟩

theorem treeStep_uttered (tree out : List Int32) :
    Triple (Since w₀ fun es => Uttered spec callback ssd.draftLevels maxTokens out [] es ∧
        Unstopped spec callback out es ∧ BelowLimit ssd.draftLevels maxTokens out es)
      (ssd.treeStep spec env tree)
      (fun accepted => Since w₀ fun es =>
        Uttered spec callback ssd.draftLevels maxTokens out accepted.1 es ∧
          Unstopped spec callback out es)
      (fun _ _ => True) := by
  refine Triple.bind (((head_work spec callback ssd.draftLevels maxTokens w₀ out).treePass _ _).conseq
    (fun _ h => h) (fun _ _ h => h) fun _ _ _ => trivial) fun _ => Triple.get fun w₁ hw₁ => ?_
  have hlen := ssd.verifyDraftTree_length_le (isEos spec) (SSDConfig.answerAt spec w₁) tree
  set accepted := ssd.verifyDraftTree (isEos spec) (SSDConfig.answerAt spec w₁) tree
  have hwork := open_work spec callback ssd.draftLevels maxTokens w₀ out accepted.1
  refine Triple.bind (R := fun _ => Since w₀ fun es =>
    Uttered spec callback ssd.draftLevels maxTokens out accepted.1 es ∧
      Unstopped spec callback out es)
    (Triple.modify fun w hw => ?_) fun _ => ?_
  · subst hw
    exact hw₁.log fun es hes =>
      ⟨hes.1.accept _ hes.2.2 hlen, hes.2.1.sampled, hes.2.1.noEos, hes.2.1.told⟩
  · exact Triple.bind (Triple.modify fun w hw => hwork.commit _ hw) fun _ =>
      Triple.bind (Triple.modify fun w hw => hwork.plain w _ rfl rfl hw) fun _ =>
      Triple.pure fun _ hw => hw

theorem decodeLoop_uttered (n : ℕ) (tree out : List Int32) :
    Triple (Since w₀ fun es => Uttered spec callback ssd.draftLevels maxTokens out [] es ∧
        Unstopped spec callback out es ∧ BelowLimit ssd.draftLevels maxTokens out es)
      (ssd.decodeLoop spec env maxTokens callback n tree out)
      (fun out' => Since w₀ (Uttered spec callback ssd.draftLevels maxTokens out' []))
      (fun _ _ => True) := by
  induction n generalizing tree out with
  | zero => exact Triple.pure fun w hw => hw.mono fun es hes => hes.1
  | succ n ih =>
    refine Triple.get fun w₁ hw₁ => Triple.pre (Triple.ite (fun _ => Triple.pure fun w hw =>
      hw.mono fun es hes => hes.1) fun _ => ?_) fun w hw => hw ▸ hw₁
    refine Triple.bind (treeStep_uttered tree out) fun accepted =>
      Triple.bind (speak_uttered accepted.1 out) fun said => ?_
    refine Triple.ite (fun _ => Triple.pure fun w hw => hw.mono fun es hes => hes.1) fun hgo => ?_
    refine Triple.get fun w₂ hw₂ => (ih _ _).pre fun w hw => ?_
    subst hw
    rw [not_or, Bool.not_eq_true] at hgo
    exact hw₂.mono fun es hes => ⟨hes.1, hes.2 hgo.1, hes.1.below hgo.2⟩

variable (callback) in
theorem prefillStage_unspoken (prompt : List Int32) :
    Triple (fun w => w = w₀) (ssd.prefillStage spec env prompt)
      (fun first => Since w₀ fun es =>
        ∃ es', es = .sampled first :: es' ∧ Unspoken spec callback es')
      (fun _ _ => True) := by
  have hwork : WorkInvariant (Since w₀ (Unspoken (I := I) spec callback)) :=
    Since.work fun _ _ he hes => hes.silent he
  refine Triple.get fun w₁ hw₁ => ?_
  refine Triple.bind (R := fun _ => Since w₀ (Unspoken spec callback))
    (Triple.modify fun w hw => ?_) fun _ => ?_
  · subst hw hw₁
    have hstart : Since w (Unspoken spec callback) w := Since.start ⟨rfl, rfl, trivial⟩
    exact hstart.log fun es hes => hes.silent trivial
  · refine Triple.bind ((hwork.ssdPrefill _ _ _).conseq (fun _ h => h) (fun _ _ h => h)
      fun _ _ _ => trivial) fun last => ?_
    exact Triple.bind (Triple.modify fun w hw => hwork.plain w _ rfl rfl hw) fun _ =>
      sampleNextToken_unspoken _ _

/-- What the log of a call says once its first token is sampled. -/
theorem first_uttered {first : Int32} {es : List (Event Int32 I)}
    (h : Unspoken spec callback es) :
    Uttered spec callback levels maxTokens [] [] (.sampled first :: es) ∧
      (isEos spec first = false → Uttered spec callback levels maxTokens [first] []
        (.emitted first :: .sampled first :: es)) := by
  refine ⟨⟨h.emitted, h.inTime, by simp, fun _ => le_max_left _ _⟩, fun ht =>
    ⟨?_, ⟨?_, ?_, h.inTime⟩, ?_, ?_⟩⟩
  · show emittedTokens es ++ [first] = [first]
    rw [h.emitted, List.nil_append]
  · rw [sampledTokens, h.sampled]
    simpa using ht
  · intro said hne hpre
    have hnil : said <+: emittedTokens es := hpre
    rw [h.emitted] at hnil
    exact absurd (List.prefix_nil.mp hnil) hne
  · simpa using ht
  · rintro ⟨hfirst, -⟩
    exact (hfirst h.emitted).trans (le_max_right _ _)

theorem generate_uttered (prompt : List Int32) (cfg : GenerationConfig) :
    Triple (fun w => w = w₀) (ssd.generate spec env prompt cfg callback)
      (fun out => Since w₀ (Uttered spec callback ssd.draftLevels cfg.maxTokens out []))
      (fun _ _ => True) := by
  have hwork : ∀ out, WorkInvariant
      (Since w₀ (Uttered (I := I) spec callback ssd.draftLevels cfg.maxTokens out [])) :=
    fun out => Since.work fun _ _ he hes => hes.silent he
  refine Triple.bind ?_ fun out => Triple.bind (Triple.modify fun w hw =>
    (hwork out).plain w _ rfl rfl hw) fun _ => Triple.pure fun _ hw => hw
  refine Triple.bind (prefillStage_unspoken callback prompt) fun first => Triple.ite (fun ht => ?_)
    fun ht => ?_
  · refine Triple.pure fun w hw => hw.mono fun es hes => ?_
    obtain ⟨es', rfl, hes'⟩ := hes
    exact (first_uttered hes').1
  · rw [Bool.not_eq_true] at ht
    refine Triple.bind (R := fun _ => Since w₀ fun es =>
      ∃ es', es = .emitted first :: .sampled first :: es' ∧ Unspoken spec callback es')
      (Triple.modify fun w hw => hw.log fun es hes => ?_) fun _ => ?_
    · obtain ⟨es', rfl, hes'⟩ := hes
      exact ⟨es', rfl, hes'⟩
    · cases hcall : callback [first] with
      | stop =>
        refine Triple.pure fun w hw => hw.mono fun es hes => ?_
        obtain ⟨es', rfl, hes'⟩ := hes
        exact (first_uttered hes').2 ht
      | throw => exact Triple.throw fun _ _ => trivial
      | «continue» =>
        have hhead := head_work spec callback ssd.draftLevels cfg.maxTokens w₀ [first]
        refine Triple.bind (((hhead.initialStep first).pre ?_).conseq
          (fun _ h => h) (fun _ _ h => h) fun _ _ _ => trivial) fun _ => Triple.get fun w₁ hw₁ =>
          (decodeLoop_uttered _ _ _).pre fun w hw => hw ▸ hw₁
        intro w hw
        refine hw.mono fun es hes => ?_
        obtain ⟨es', rfl, hes'⟩ := hes
        refine ⟨(first_uttered hes').2 ht, ⟨by simp [sampledTokens], ?_, ?_⟩, fun _ => Or.inl rfl⟩
        · show ∀ t ∈ sampledTokens es' ++ [first], isEos spec t = false
          rw [hes'.sampled]
          simpa using ht
        · intro said hne hpre
          rcases List.prefix_concat_iff.mp (show said <+: [] ++ [first] from hpre) with rfl | hpre
          · exact hcall
          · exact absurd (List.prefix_nil.mp hpre) hne

/-- **The output contract of both decoders.** Every call of the plain decoder that returns keeps it.
A call of the tree decoder that returns has called the callback once for each token in order, has
emitted no EOS, and nothing after an EOS or a stop; it keeps the contract if `max_tokens` has room
at each of its steps. -/
theorem keepsContract_of_room (spec : LLMSpec) (prompt out : List Int32) (cfg : GenerationConfig)
    (callback : List Int32 → CallbackAnswer) :
    (∀ (env : Env Int32 ρ I) (w₀ w : World Int32 ρ I),
      generate spec env prompt cfg callback w₀ = (.ok out, w) →
        ∃ es, w.trace = es ++ w₀.trace ∧ KeepsContract spec cfg.maxTokens callback out es) ∧
    ∀ (ssd : SSDConfig) (env : Env Int32 ρ I) (w₀ w : World Int32 ρ I),
      ssd.generate spec env prompt cfg callback w₀ = (.ok out, w) →
        ∃ es, w.trace = es ++ w₀.trace ∧ emittedTokens es = out ∧
          (∀ t ∈ out, isEos spec t = false) ∧ InTime spec callback es ∧
          (StepsHaveRoom ssd.draftLevels cfg.maxTokens es →
            KeepsContract spec cfg.maxTokens callback out es) := by
  refine ⟨fun env w₀ w h => ?_, fun ssd env w₀ w h => ?_⟩
  · obtain ⟨es, ht, hemitted, hlen, heos, htime⟩ := generate_keepsContract h
    exact ⟨es, ht, hemitted, hlen, heos, htime⟩
  · obtain ⟨es, ht, hes⟩ : Since w₀ (Uttered spec callback ssd.draftLevels cfg.maxTokens out []) w :=
      (generate_uttered prompt cfg).ok rfl h
    refine ⟨es, ht, hes.emitted, hes.notEos, hes.inTime, fun hroom => ?_⟩
    have hfits := hes.fits hroom
    rw [List.append_nil] at hfits
    exact ⟨hes.emitted, hfits, hes.notEos, hes.inTime⟩

/-- One child of the root, one forecast token for each of the two nodes, no forecast prefix. -/
def tinySSD : SSDConfig := ⟨[1], 0, none⟩

/-- A call of the tree decoder on a new instance, with a callback that never stops it. -/
def tinySSDRun (n : Int32) : Except Err (List Int32) × World Int32 Unit Unit :=
  tinySSD.generate sixteenColumns (tinyEnv 0 0) [0, 0] (tinyCfg n) (fun _ => .continue)
    (tinyWorld sixteenColumns)

/-- A callback that stops a call at its second token. -/
def stopAtTwo (said : List Int32) : CallbackAnswer := if said.length = 2 then .stop else .continue

/-- A call of the tree decoder on a new instance, with that callback. -/
def tinyStoppedRun (n : Int32) : Except Err (List Int32) × World Int32 Unit Unit :=
  tinySSD.generate sixteenColumns (tinyEnv 0 0) [0, 0] (tinyCfg n) stopAtTwo
    (tinyWorld sixteenColumns)

/-- The plain decoder at a limit of three tokens, and the tree decoder at one of four that the
callback does not let it reach. -/
theorem keepsContract_of_room_tiny :
    (∃ es, (tinyRun (tinySpec [16] 4 4) (tinyEnv 0 0) [0, 0] 3).2.trace =
        es ++ (tinyWorld (tinySpec [16] 4 4)).trace ∧
      KeepsContract (tinySpec [16] 4 4) 3 (fun _ => .continue) [1, 1, 1] es) ∧
    ∃ es, (tinyStoppedRun 4).2.trace = es ++ (tinyWorld sixteenColumns).trace ∧
      KeepsContract sixteenColumns 4 stopAtTwo [1, 1] es := by
  have hplain : (tinyRun (tinySpec [16] 4 4) (tinyEnv 0 0) [0, 0] 3).1 = .ok [1, 1, 1] := by
    decide +kernel
  have htree : (tinyStoppedRun 4).1 = .ok [1, 1] := by decide +kernel
  have hfirst := (keepsContract_of_room (ρ := Unit) (I := Unit) (tinySpec [16] 4 4) [0, 0] [1, 1, 1]
    (tinyCfg 3) fun _ => .continue).1
  have hsecond := (keepsContract_of_room (ρ := Unit) (I := Unit) sixteenColumns [0, 0] [1, 1]
    (tinyCfg 4) stopAtTwo).2
  refine ⟨hfirst (tinyEnv 0 0) (tinyWorld _) _ (eq_of_result hplain), ?_⟩
  obtain ⟨es, ht, hemitted, -, -, hroom⟩ :=
    hsecond tinySSD (tinyEnv 0 0) (tinyWorld sixteenColumns) (tinyStoppedRun 4).2
      (eq_of_result htree)
  exact ⟨es, ht, hroom (stepsHaveRoom_of_lt (by rw [hemitted]; decide) (by decide))⟩

/-- With `max_tokens` 0 the tree decoder emits one token, and with 1 it emits two. -/
theorem ssd_exceeds_limit :
    (tinySSDRun 0).1 = .ok [1] ∧ (tinySSDRun 1).1 = .ok [1, 1] ∧
      (∀ es, ¬KeepsContract (tinySpec [16] 4 4) 0 (fun _ => .continue) [(1 : Int32)]
        (es : List (Event Int32 Unit))) ∧
      ∀ es, ¬KeepsContract (tinySpec [16] 4 4) 1 (fun _ => .continue) [(1 : Int32), 1]
        (es : List (Event Int32 Unit)) := by
  refine ⟨by decide +kernel, by decide +kernel, fun es h => ?_, fun es h => ?_⟩
  · exact absurd h.length (by decide)
  · exact absurd h.length (by decide)

end Geniex
