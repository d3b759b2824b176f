import Geniex.LLM.CallInvariant

/-!
# What is sampled and what is said

The tokens that a call samples, emits and feeds to the sampler.

* `WorkInvariant`: what the passes of a call keep of a predicate that reads the sampler and the log.
* `Said.decodeLoop`: how the loop moves the three along, and how it ends.
* `generate_keepsContract`: a call emits what it returns, at most `max_tokens` tokens, none of them
  an EOS, and nothing after the callback has stopped it or an EOS has been sampled.
* `SamplingRun.heard_iff`: the sampler has been fed the conversation, unless a prompt was rejected
  or a call ended by `max_tokens`.
-/

namespace Geniex

open Prog

variable {τ ρ I : Type} {spec : LLMSpec} {env : Env τ ρ I}

/-! ## What a log says -/

/-- The prompt that a call has read: the first tokens that it appended to the history. -/
def promptRead : List (Event τ I) → Option (List τ)
  | [] => none
  | .appended ts :: es => (promptRead es).or (some ts)
  | _ :: es => promptRead es

/-- The sampled tokens of a log, oldest first. -/
def sampledTokens : List (Event τ I) → List τ
  | [] => []
  | .sampled t :: es => sampledTokens es ++ [t]
  | _ :: es => sampledTokens es

/-- The emitted tokens of a log, oldest first: one callback call for each. -/
def emittedTokens : List (Event τ I) → List τ
  | [] => []
  | .emitted t :: es => emittedTokens es ++ [t]
  | _ :: es => emittedTokens es

/-- How the decode loops of a log were left, newest first. -/
def stopReasons : List (Event τ I) → List StopReason
  | [] => []
  | .stopped r :: es => r :: stopReasons es
  | _ :: es => stopReasons es

/-- The tokens that `Sampler::init` and `Sampler::accept` have appended to the sampler's history. -/
def fedTokens : List (SamplerCall τ) → List τ
  | [] => []
  | .init ts :: cs => ts ++ fedTokens cs
  | .accept t :: cs => t :: fedTokens cs
  | .sample _ :: cs => fedTokens cs

/-- The history of the cached sampler. -/
def heard (w : World τ ρ I) : List τ :=
  match w.sampler with
  | some s => fedTokens s.calls
  | none => []

/-- An event that is not about prompts, sampling or output. -/
def Event.Silent : Event τ I → Prop
  | .appended _ | .sampler _ | .sampled _ | .accepted _ _ | .emitted _ | .stopped _ => False
  | _ => True

theorem fedTokens_append (cs cs' : List (SamplerCall τ)) :
    fedTokens (cs ++ cs') = fedTokens cs ++ fedTokens cs' := by
  induction cs with
  | nil => rfl
  | cons c cs ih => cases c <;> simp [fedTokens, ih]

/-! ## The passes -/

/-- The passes of a call keep `J`, which reads the sampler and the log. -/
structure WorkInvariant (J : World τ ρ I → Prop) : Prop where
  plain : ∀ w w' : World τ ρ I, w'.sampler = w.sampler → w'.trace = w.trace → J w → J w'
  log : ∀ (w : World τ ρ I) (e : Event τ I), e.Silent → J w → J (w.log e)

namespace WorkInvariant

variable {J : World τ ρ I → Prop}

theorem modify (h : WorkInvariant J) {g : World τ ρ I → World τ ρ I}
    (hs : ∀ w, (g w).sampler = w.sampler) (ht : ∀ w, (g w).trace = w.trace) :
    Stable J (Prog.modify g : Run τ ρ I Unit) :=
  Stable.modify fun w hw => h.plain w _ (hs w) (ht w) hw

theorem updateKV (h : WorkInvariant J) (s : ℕ) (phase : Phase) (off n : ℕ) {w : World τ ρ I}
    (hw : J w) : J (updateKV spec s phase off n w) := by
  unfold Geniex.updateKV
  split_ifs
  · exact hw
  · exact h.plain (w.log (.kvWrite ⟨phase, s, w.activeClIdx, off, n⟩)) _ rfl rfl
      (h.log w _ trivial hw)

theorem runJobs (h : WorkInvariant J) (jobs : List KVJob) {w : World τ ρ I} (hw : J w) :
    J (runJobs spec jobs w) := by
  unfold Geniex.runJobs
  induction jobs generalizing w with
  | nil => exact hw
  | cons j jobs ih => exact ih (h.updateKV _ _ _ _ hw)

theorem settle (h : WorkInvariant J) (done : KVJob → Bool) {w : World τ ρ I} (hw : J w) :
    J (settle spec done w) :=
  h.plain (Geniex.runJobs spec (w.pending.filter done) w) _ rfl rfl (h.runJobs _ hw)

theorem background (h : WorkInvariant J) {w : World τ ρ I} (hw : J w) :
    J (background spec env w) := by
  unfold Geniex.background
  split_ifs
  · exact hw
  · exact h.settle _ hw

theorem promote (h : WorkInvariant J) (required capacity stride : ℕ) {w : World τ ρ I}
    (hw : J w) : J (promoteCL spec required capacity stride w) := by
  unfold promoteCL
  dsimp only
  split_ifs
  · exact hw
  · exact hw
  · exact h.plain w _ rfl rfl hw

theorem wait (h : WorkInvariant J) : Stable J (waitPool spec env) :=
  Stable.get fun _ => Stable.ite (fun _ => Stable.pure ()) fun _ =>
    Stable.ite (fun _ => Stable.throw _) fun _ => Stable.modify fun _ hw => h.settle _ hw

theorem execGraph (h : WorkInvariant J) (shard : ℕ) (phase : Phase) (clIdx : ℕ)
    (ctx : RunContext τ) (input : ExecIn I) (err : Err) :
    Stable J (execGraph spec env shard phase clIdx ctx input err) := by
  intro w hw
  set w' := w.log (.exec ⟨phase, shard, clIdx, ctx, input, w.produced⟩)
  have hlog : J w' := h.log w _ trivial hw
  unfold Geniex.execGraph
  dsimp only
  cases env.exec w.tick _ _ with
  | none => exact h.plain w' _ rfl rfl hlog
  | some out => exact h.plain w' _ rfl rfl hlog

theorem runShard (h : WorkInvariant J) (shard : ℕ) (phase : Phase) (clIdx : ℕ)
    (ctx : RunContext τ) : Stable J (runShard spec env shard phase clIdx ctx) :=
  Stable.bind (Stable.modify fun _ hw => h.background hw) fun _ =>
    Stable.get fun _ => h.execGraph _ _ _ _ _ _

theorem prefillShard (h : WorkInvariant J) (isFinal : Bool) (clIdx : ℕ) (ctx : RunContext τ)
    (s : ℕ) : Stable J (prefillShard spec env isFinal clIdx ctx s) :=
  Stable.when fun _ => Stable.bind (h.runShard _ _ _ _) fun _ =>
    Stable.bind (Stable.modify fun _ hw => h.updateKV _ _ _ _ hw) fun _ =>
      Stable.when fun _ => Stable.modify fun w hw => h.plain w _ rfl rfl hw

theorem prefillLoop (h : WorkInvariant J) (fuel : ℕ) (tokens : List τ) (last : ℕ) :
    Stable J (prefillLoop spec env fuel tokens last) := by
  induction fuel generalizing tokens last with
  | zero => exact Stable.pure _
  | succ fuel ih =>
    refine Stable.ite (fun _ => Stable.pure _) fun _ => Stable.bind ?_ fun _ => ih _ _
    exact Stable.get fun _ => Stable.bind (Stable.modify fun w hw => h.log w _ trivial hw)
      fun _ => Stable.bind (Stable.modify fun _ hw => h.promote _ _ _ hw) fun _ =>
      Stable.get fun _ => Stable.bind (Stable.forRange (fun _ => h.prefillShard _ _ _ _) _)
      fun _ => Stable.modify fun w hw => h.plain w _ rfl rfl hw

section Call

variable [Token τ]

theorem ensureRoom (h : WorkInvariant J) (cfg : GenerationConfig) (nFit : ℕ) (b : Bool)
    (msg : String) : Stable J (ensureRoom spec env cfg nFit b msg) := by
  have hevict : ∀ d k, Stable J (slideWindowEvict spec env d k b) := fun d k =>
    Stable.when fun _ => Stable.get fun _ =>
      Stable.bind (Stable.modify fun w hw => h.log w _ trivial hw) fun _ =>
      Stable.bind (Stable.when fun _ => h.modify (fun _ => rfl) fun _ => rfl) fun _ =>
      Stable.bind (h.modify (fun _ => rfl) fun _ => rfl) fun _ =>
      Stable.bind (h.prefillLoop _ _ _) fun _ =>
      Stable.bind (Stable.when fun _ => h.modify (fun _ => rfl) fun _ => rfl) fun _ =>
      Stable.modify fun w hw => h.log w _ trivial hw
  exact Stable.get fun _ => Stable.when fun _ =>
    Stable.bind (Stable.get fun _ => Stable.when fun _ => hevict _ _) fun _ =>
    Stable.get fun _ => Stable.when fun _ => Stable.throw _

/-- A decode step, which also appends its token to the history. -/
theorem decodeStep (h : WorkInvariant J) {tok : τ} (happ : ∀ w, J w → J (w.log (.appended [tok])))
    (cfg : GenerationConfig) : Stable J (decodeStep spec env cfg tok) := by
  have hshard : ∀ clIdx ctx s, Stable J (decodeShard spec env clIdx ctx s) := fun clIdx ctx s =>
    Stable.bind (h.runShard _ _ _ _) fun _ =>
      Stable.bind (Stable.modify fun w hw => by
        unfold writeBack
        split_ifs
        · exact h.plain w _ rfl rfl hw
        · exact h.updateKV _ _ _ _ hw) fun _ =>
      Stable.when fun _ => Stable.modify fun w hw => h.plain w _ rfl rfl hw
  refine Stable.bind h.wait fun _ => Stable.bind (h.ensureRoom _ _ _ _) fun _ => ?_
  exact Stable.get fun _ => Stable.bind (Stable.modify fun w hw => h.log w _ trivial hw)
    fun _ => Stable.bind (Stable.modify fun _ hw => h.promote _ _ _ hw) fun _ =>
    Stable.get fun _ => Stable.bind (Stable.forRange (fun _ => hshard _ _ _) _)
    fun _ => Stable.modify fun w hw => h.plain (w.log (.appended [tok])) _ rfl rfl (happ w hw)

end Call

end WorkInvariant

/-! ## The call -/

variable [Token τ]

/-- No token is emitted after an EOS has been sampled, nor after the callback has stopped or thrown.
Newest event first. -/
def InTime (spec : LLMSpec) (callback : List Int32 → CallbackAnswer) : List (Event τ I) → Prop
  | [] => True
  | .emitted _ :: es => (∀ t ∈ sampledTokens es, isEos spec t = false) ∧
      (∀ said, said ≠ [] → said <+: emittedTokens es →
        callback (said.map Token.id) = .continue) ∧ InTime spec callback es
  | _ :: es => InTime spec callback es

omit [Token τ] in
theorem samplerEvents_append (cs : List (SamplerCall τ)) (es : List (Event τ I)) :
    promptRead (cs.map Event.sampler ++ es) = promptRead es ∧
      sampledTokens (cs.map Event.sampler ++ es) = sampledTokens es ∧
      emittedTokens (cs.map Event.sampler ++ es) = emittedTokens es ∧
      stopReasons (cs.map Event.sampler ++ es) = stopReasons es := by
  induction cs with
  | nil => exact ⟨rfl, rfl, rfl, rfl⟩
  | cons c cs ih => exact ih

theorem inTime_append {callback : List Int32 → CallbackAnswer} {es : List (Event τ I)}
    (cs : List (SamplerCall τ)) (h : InTime spec callback es) :
    InTime spec callback (cs.map Event.sampler ++ es) := by
  induction cs with
  | nil => exact h
  | cons c cs ih => exact ih

/-- The sampled tokens that are not emitted when the loop is left. -/
def LastUnsaid (spec : LLMSpec) : StopReason → List τ → Prop
  | .eos, unsaid => ∃ t, unsaid = [t] ∧ isEos spec t = true
  | .callback, unsaid => unsaid = []
  | .maxTokens, unsaid => ∃ t, unsaid = [t]

/-- What the log says since `w₀`, and what the sampler of `w₀` has been fed since. -/
structure Said (spec : LLMSpec) (callback : List Int32 → CallbackAnswer) (w₀ : World τ ρ I)
    (prompt : Option (List τ)) (sampled emitted : List τ) (stops : List StopReason) (fed : List τ)
    (w : World τ ρ I) : Prop where
  log : ∃ es, w.trace = es ++ w₀.trace ∧ InTime spec callback es ∧ promptRead es = prompt ∧
    sampledTokens es = sampled ∧ emittedTokens es = emitted ∧ stopReasons es = stops
  sampler : ∀ s₀, w₀.sampler = some s₀ →
    ∃ s, w.sampler = some s ∧ fedTokens s.calls = fedTokens s₀.calls ++ fed

namespace Said

variable {callback : List Int32 → CallbackAnswer} {w₀ w : World τ ρ I} {prompt : Option (List τ)}
  {sampled emitted fed : List τ} {stops : List StopReason}

theorem work : WorkInvariant (Said spec callback w₀ prompt sampled emitted stops fed) where
  plain w w' hs ht h := ⟨by rw [ht]; exact h.log, by rw [hs]; exact h.sampler⟩
  log w e he h := by
    obtain ⟨es, ht, hes⟩ := h.log
    refine ⟨⟨e :: es, by rw [World.log_trace, ht, List.cons_append], ?_⟩, h.sampler⟩
    cases e with
    | appended | sampler | sampled | accepted | emitted | stopped => exact he.elim
    | _ => exact hes

/-- A decoded token is appended after the prompt. -/
theorem appended {ts ps : List τ} (h : Said spec callback w₀ (some ps) sampled emitted stops fed w) :
    Said spec callback w₀ (some ps) sampled emitted stops fed (w.log (.appended ts)) := by
  obtain ⟨es, ht, htime, hread, hes⟩ := h.log
  exact ⟨⟨.appended ts :: es, by rw [World.log_trace, ht, List.cons_append], htime,
    by rw [promptRead, hread]; rfl, hes⟩, h.sampler⟩

/-- The prompt has entered the cache. -/
theorem enter {ps : List τ} (h : Said spec callback w₀ none sampled emitted stops fed w) :
    Said spec callback w₀ (some ps) sampled emitted stops fed (w.log (.appended ps)) := by
  obtain ⟨es, ht, htime, hread, hes⟩ := h.log
  exact ⟨⟨.appended ps :: es, by rw [World.log_trace, ht, List.cons_append], htime,
    by rw [promptRead, hread]; rfl, hes⟩, h.sampler⟩

theorem emit {t : τ} (h : Said spec callback w₀ prompt sampled emitted stops fed w)
    (heos : ∀ x ∈ sampled, isEos spec x = false)
    (hcont : ∀ said, said ≠ [] → said <+: emitted → callback (said.map Token.id) = .continue) :
    Said spec callback w₀ prompt sampled (emitted ++ [t]) stops fed (w.log (.emitted t)) := by
  obtain ⟨es, ht, htime, hread, hsampled, hemitted, hstops⟩ := h.log
  refine ⟨⟨.emitted t :: es, by rw [World.log_trace, ht, List.cons_append],
    ⟨by rwa [hsampled], by rwa [hemitted], htime⟩, hread, hsampled, ?_, hstops⟩, h.sampler⟩
  rw [emittedTokens, hemitted]

theorem stop {r : StopReason} (h : Said spec callback w₀ prompt sampled emitted stops fed w) :
    Said spec callback w₀ prompt sampled emitted (r :: stops) fed (w.log (.stopped r)) := by
  obtain ⟨es, ht, htime, hread, hsampled, hemitted, hstops⟩ := h.log
  exact ⟨⟨.stopped r :: es, by rw [World.log_trace, ht, List.cons_append], htime, hread, hsampled,
    hemitted, by rw [stopReasons, hstops]⟩, h.sampler⟩

theorem feed (cs : List (SamplerCall τ))
    (h : Said spec callback w₀ prompt sampled emitted stops fed w) :
    Said spec callback w₀ prompt sampled emitted stops (fed ++ fedTokens cs)
      (feedSampler cs w) := by
  constructor
  · obtain ⟨es, ht, htime, hread, hsampled, hemitted, hstops⟩ := h.log
    obtain ⟨hread', hsampled', hemitted', hstops'⟩ := samplerEvents_append cs.reverse es
    refine ⟨cs.reverse.map Event.sampler ++ es, ?_, inTime_append _ htime, hread'.trans hread,
      hsampled'.trans hsampled, hemitted'.trans hemitted, hstops'.trans hstops⟩
    rw [List.append_assoc, ← ht, List.map_reverse]
    rfl
  · intro s₀ hs₀
    obtain ⟨s, hs, hfed⟩ := h.sampler s₀ hs₀
    refine ⟨_, congrArg (Option.map _) hs, ?_⟩
    rw [fedTokens_append, hfed, List.append_assoc]

/-- A token is sampled, and fed to the sampler if there is one. -/
theorem sample {E : Err → World τ ρ I → Prop} (phase : Phase) (off : ℕ) :
    Triple (Said spec callback w₀ prompt sampled emitted stops fed)
      (sampleNextToken spec env phase off)
      (fun tok => Said spec callback w₀ prompt (sampled ++ [tok]) emitted stops (fed ++ [tok])) E := by
  have hlog : ∀ (tok : τ) (fed : List τ) (w : World τ ρ I),
      Said spec callback w₀ prompt sampled emitted stops fed w →
      Said spec callback w₀ prompt (sampled ++ [tok]) emitted stops fed (w.log (.sampled tok)) := by
    intro tok fed w h
    obtain ⟨es, ht, htime, hread, hsampled, hemitted, hstops⟩ := h.log
    exact ⟨⟨.sampled tok :: es, by rw [World.log_trace, ht, List.cons_append], htime, hread,
      by rw [sampledTokens, hsampled], hemitted, hstops⟩, h.sampler⟩
  refine Triple.get fun w₁ hw₁ => ?_
  cases hs : w₁.sampler with
  | none =>
    refine Triple.bind (Triple.modify fun w hw => ?_) fun _ => Triple.pure fun w hw => hw
    subst hw
    refine ⟨(hlog _ _ _ hw₁).log, fun s₀ hs₀ => ?_⟩
    obtain ⟨s, hs', -⟩ := hw₁.sampler s₀ hs₀
    rw [hs] at hs'
    cases hs'
  | some s =>
    refine Triple.bind (R := fun _ => Said spec callback w₀ prompt sampled emitted stops
      (fed ++ [Token.ofId (env.sample s.cfg s.calls (readLastLogits spec phase off w₁))]))
      (Triple.modify fun w hw => ?_) fun _ => Triple.bind (Triple.modify fun w hw => hlog _ _ w hw)
        fun _ => Triple.pure fun w hw => hw
    subst hw
    exact hw₁.feed [.sample _, .accept _]

/-- The decode loop: every token but a last one that stays unsaid is emitted. -/
theorem decodeLoop {ps : List τ} (cfg : GenerationConfig) (n : ℕ) (next : τ) (out pre : List τ)
    (heos : ∀ t ∈ out, isEos spec t = false)
    (hcont : ∀ said, said ≠ [] → said <+: out → callback (said.map Token.id) = .continue) :
    Triple (Said spec callback w₀ (some ps) (out ++ [next]) out [] (pre ++ (out ++ [next])))
      (decodeLoop spec env cfg callback n next out)
      (fun out' w => ∃ unsaid r,
        Said spec callback w₀ (some ps) (out' ++ unsaid) out' [r] (pre ++ (out' ++ unsaid)) w ∧
          out'.length ≤ out.length + n ∧ (∀ t ∈ out', isEos spec t = false) ∧
          LastUnsaid spec r unsaid)
      (fun _ w => ∃ out', Said spec callback w₀ (some ps) out' out' [] (pre ++ out') w) := by
  have hleave : ∀ (r : StopReason) (sampled out fed : List τ) (E : Err → World τ ρ I → Prop),
      Triple (Said spec callback w₀ (some ps) sampled out [] fed) (leaveLoop r out)
        (fun out' w => out' = out ∧ Said spec callback w₀ (some ps) sampled out [r] fed w) E :=
    fun r sampled out fed E =>
      Triple.bind (R := fun _ => Said spec callback w₀ (some ps) sampled out [r] fed)
        (Triple.modify fun w hw => hw.stop) fun _ => Triple.pure fun w hw => ⟨rfl, hw⟩
  induction n generalizing next out with
  | zero =>
    refine (hleave .maxTokens _ out _ _).post fun out' w hw => ?_
    obtain ⟨rfl, hw⟩ := hw
    exact ⟨[next], .maxTokens, hw, le_rfl, heos, next, rfl⟩
  | succ n ih =>
    unfold Geniex.decodeLoop
    refine Triple.ite (fun hnext => (hleave .eos _ out _ _).post fun out' w hw => ?_) fun hnext => ?_
    · obtain ⟨rfl, hw⟩ := hw
      exact ⟨[next], .eos, hw, by omega, heos, next, rfl, hnext⟩
    · have heos' : ∀ t ∈ out ++ [next], isEos spec t = false := by
        intro t ht
        rcases List.mem_append.mp ht with ht | ht
        · exact heos t ht
        · rw [List.mem_singleton.mp ht]
          simpa using hnext
      refine Triple.bind (R := fun _ => Said spec callback w₀ (some ps) (out ++ [next])
        (out ++ [next]) [] (pre ++ (out ++ [next])))
        (Triple.modify fun w hw => hw.emit heos' hcont) fun _ => ?_
      cases hcb : callback ((out ++ [next]).map Token.id) with
      | stop =>
        refine (hleave .callback _ _ _ _).post fun out' w hw => ?_
        obtain ⟨rfl, hw⟩ := hw
        refine ⟨[], .callback, by rwa [List.append_nil], ?_, heos', rfl⟩
        rw [List.length_append, List.length_singleton]
        omega
      | throw => exact Triple.throw fun w hw => ⟨_, hw⟩
      | «continue» =>
        have hcont' : ∀ said, said ≠ [] → said <+: out ++ [next] →
            callback (said.map Token.id) = .continue := by
          intro said hne hpre
          rcases List.prefix_concat_iff.mp hpre with rfl | hpre
          · exact hcb
          · exact hcont said hne hpre
        refine Triple.bind ((work.decodeStep (fun w hw => hw.appended) cfg).conseq
          (fun _ h => h) (fun _ _ h => h) fun _ w hw => ⟨_, hw⟩) fun _ => ?_
        refine Triple.bind (sample .decode 0) fun next' => ?_
        rw [List.append_assoc pre]
        refine (ih next' (out ++ [next]) heos' hcont').post fun out' w hw => ?_
        obtain ⟨unsaid, r, hsaid, hlen, hrest⟩ := hw
        refine ⟨unsaid, r, hsaid, ?_, hrest⟩
        rw [List.length_append, List.length_singleton] at hlen
        omega

end Said

/-- The instance with the sampler that the call uses, before the prompt is fed to it. -/
def withSampler (cfg : GenerationConfig) (w : World τ ρ I) : World τ ρ I :=
  if cfg.enableSampling = false then { w with sampler := none, samplerCfg := none }
  else buildSampler cfg w

/-- A call that is rejected or fails before its prompt is in the cache says nothing. -/
def Unread (spec : LLMSpec) (callback : List Int32 → CallbackAnswer) (w₀ : World τ ρ I)
    (prompt : List τ) (w : World τ ρ I) : Prop :=
  Said spec callback w₀ none [] [] [] prompt w

omit [Token τ] in
theorem withSampler_log (cfg : GenerationConfig) (e : Event τ I) (w : World τ ρ I) :
    withSampler cfg (w.log e) = (withSampler cfg w).log e := by
  unfold withSampler buildSampler World.log
  dsimp only
  split_ifs <;> rfl

omit [Token τ] in
theorem withSampler_trace (cfg : GenerationConfig) (w : World τ ρ I) :
    (withSampler cfg w).trace = w.trace := by
  unfold withSampler buildSampler
  split_ifs <;> rfl

omit [Token τ] in
/-- The prompt is fed to the sampler that the call uses. -/
theorem prepareSampler_eq (cfg : GenerationConfig) (prompt : List τ) (w : World τ ρ I) :
    prepareSampler cfg prompt w =
      if cfg.enableSampling = false ∨ prompt = [] then withSampler cfg w
      else feedSampler [.init prompt] (withSampler cfg w) := by
  unfold prepareSampler withSampler
  by_cases hoff : cfg.enableSampling = false <;> by_cases hnil : prompt = [] <;> simp [hoff, hnil]

theorem prepareSampler_said {callback : List Int32 → CallbackAnswer} (cfg : GenerationConfig)
    (prompt : List τ) (w : World τ ρ I) (n m : ℕ) :
    Unread spec callback (withSampler cfg w) prompt
      (prepareSampler cfg prompt (w.log (.enter n m))) := by
  have hstart : Said spec callback (withSampler cfg w) none [] [] [] []
      (withSampler cfg (w.log (.enter n m))) := by
    rw [withSampler_log]
    refine ⟨⟨[.enter n m], rfl, trivial, rfl, rfl, rfl, rfl⟩, fun s₀ hs₀ => ?_⟩
    exact ⟨s₀, hs₀, by rw [List.append_nil]⟩
  rw [prepareSampler_eq]
  split_ifs with h
  · rcases h with hoff | rfl
    · refine ⟨hstart.log, fun s₀ hs₀ => ?_⟩
      rw [withSampler, if_pos hoff] at hs₀
      cases hs₀
    · exact hstart
  · have hfed := hstart.feed [.init prompt]
    rwa [fedTokens, fedTokens, List.append_nil, List.nil_append] at hfed

/-- Entry and prefill: the first token is sampled, or nothing is said. -/
theorem prefillStage_said (callback : List Int32 → CallbackAnswer) (prompt : List τ)
    (cfg : GenerationConfig) (w₀ : World τ ρ I) :
    Triple (fun w => w = w₀) (prefillStage spec env prompt cfg)
      (fun first => Said spec callback (withSampler cfg w₀) (some prompt) [first] [] []
        (prompt ++ [first]))
      (fun _ => Unread spec callback (withSampler cfg w₀) prompt) := by
  refine Triple.get fun w₁ hw₁ => ?_
  subst hw₁
  refine Triple.bind (R := fun _ w => w = w₁.log (.enter w₁.nPast prompt.length))
    (Triple.modify fun w hw => by rw [hw]) fun _ => ?_
  refine Triple.bind (R := fun _ => Unread spec callback (withSampler cfg w₁) prompt)
    (Triple.modify fun w hw => hw ▸ prepareSampler_said cfg prompt w₁ _ _) fun _ => ?_
  refine Triple.bind (Said.work.ensureRoom _ _ _ _) fun _ =>
    Triple.bind (Said.work.prefillLoop _ _ _) fun _ => ?_
  refine Triple.bind (R := fun _ => Said spec callback (withSampler cfg w₁) (some prompt) [] [] []
    prompt) (Triple.modify fun w hw => hw.enter) fun _ => ?_
  refine Triple.bind (R := fun _ => Said spec callback (withSampler cfg w₁) (some prompt) [] [] []
    prompt) (Triple.modify fun w hw => Said.work.plain w _ rfl rfl hw) fun _ => ?_
  exact Said.sample .prefill _

/-- A call that returns: all sampled tokens but a last one at most are emitted, and those are
returned. -/
structure Returned (spec : LLMSpec) (callback : List Int32 → CallbackAnswer) (w₀ : World τ ρ I)
    (prompt : List τ) (cfg : GenerationConfig) (out : List τ) (w : World τ ρ I) : Prop where
  said : ∃ unsaid r, Said spec callback w₀ (some prompt) (out ++ unsaid) out [r]
    (prompt ++ (out ++ unsaid)) w ∧ LastUnsaid spec r unsaid
  length : out.length ≤ cfg.maxTokens.toInt.toNat
  notEos : ∀ t ∈ out, isEos spec t = false

/-- A decode window left by an exception, other than by a wait that never returns, has emitted all
that was sampled. -/
def Cut (spec : LLMSpec) (callback : List Int32 → CallbackAnswer) (w₀ : World τ ρ I)
    (prompt : List τ) (e : Err) (w : World τ ρ I) : Prop :=
  e = .blocked ∨ ∃ out, Said spec callback w₀ (some prompt) out out [] (prompt ++ out) w

theorem returned_work {callback : List Int32 → CallbackAnswer} {w₀ : World τ ρ I}
    {prompt out : List τ} {cfg : GenerationConfig} :
    WorkInvariant (Returned spec callback w₀ prompt cfg out) where
  plain w w' hs ht h := by
    obtain ⟨unsaid, r, hsaid, hr⟩ := h.said
    exact ⟨⟨unsaid, r, Said.work.plain w w' hs ht hsaid, hr⟩, h.length, h.notEos⟩
  log w e he h := by
    obtain ⟨unsaid, r, hsaid, hr⟩ := h.said
    exact ⟨⟨unsaid, r, Said.work.log w e he hsaid, hr⟩, h.length, h.notEos⟩

omit [Token τ] in
theorem waitPool_blocked : Triple (fun _ => True) (waitPool spec env : Run τ ρ I Unit)
    (fun _ _ => True) (fun e _ => e = .blocked) :=
  Triple.get fun _ _ => Triple.ite (fun _ => Triple.pure fun _ _ => trivial) fun _ =>
    Triple.ite (fun _ => Triple.throw fun _ _ => rfl) fun _ => Triple.modify fun _ _ => trivial

theorem decodeStage_said {callback : List Int32 → CallbackAnswer} {w₀ : World τ ρ I}
    (prompt : List τ) (cfg : GenerationConfig) (first : τ) :
    Triple (Said spec callback w₀ (some prompt) [first] [] [] (prompt ++ [first]))
      (decodeStage spec env cfg callback first)
      (fun out => Returned spec callback w₀ prompt cfg out) (Cut spec callback w₀ prompt) := by
  refine Triple.bind (R := fun _ => Said spec callback w₀ (some prompt) [first] [] []
    (prompt ++ [first])) (Triple.modify fun w hw => Said.work.plain w _ rfl rfl hw) fun _ => ?_
  refine Triple.bind (R := fun out => Returned spec callback w₀ prompt cfg out)
    (Triple.onThrow ((Said.decodeLoop cfg _ first [] prompt (by simp)
      fun said hne hpre => absurd (List.prefix_nil.mp hpre) hne).post fun out w hw => ?_)
      fun _ w hw => Or.inr ?_) fun out => ?_
  · obtain ⟨unsaid, r, hsaid, hlen, heos, hr⟩ := hw
    rw [List.length_nil, Nat.zero_add] at hlen
    exact ⟨⟨unsaid, r, hsaid, hr⟩, hlen, heos⟩
  · obtain ⟨out, hout⟩ := hw
    exact ⟨out, Said.work.log w _ trivial hout⟩
  · have hwait : Triple (Returned spec callback w₀ prompt cfg out) (waitPool spec env)
        (fun _ => Returned spec callback w₀ prompt cfg out) (Cut spec callback w₀ prompt) :=
      (returned_work.wait.and waitPool_blocked).conseq (fun _ h => ⟨h, trivial⟩) (fun _ _ h => h.1)
        fun _ _ h => Or.inl h.2
    refine Triple.bind hwait fun _ => ?_
    exact Triple.bind (R := fun _ => Returned spec callback w₀ prompt cfg out)
      (Triple.modify fun w hw => returned_work.plain w _ rfl rfl hw) fun _ =>
        Triple.pure fun _ hw => hw

/-- A call, by the exceptions `E` of its prefill. -/
theorem generate_said (callback : List Int32 → CallbackAnswer) (prompt : List τ)
    (cfg : GenerationConfig) (w₀ : World τ ρ I) {E : Err → World τ ρ I → Prop}
    (hE : Triple (fun w => w = w₀) (prefillStage spec env prompt cfg) (fun _ _ => True) E) :
    Triple (fun w => w = w₀) (generate spec env prompt cfg callback)
      (fun out => Returned spec callback (withSampler cfg w₀) prompt cfg out)
      (fun e w => E e w ∨ Cut spec callback (withSampler cfg w₀) prompt e w) := by
  refine Triple.bind (R := fun out => Returned spec callback (withSampler cfg w₀) prompt cfg out)
    (Triple.bind (((prefillStage_said callback prompt cfg w₀).and hE).conseq (fun _ h => ⟨h, h⟩)
      (fun _ _ h => h.1) fun _ _ h => Or.inl h.2) fun first =>
        (decodeStage_said prompt cfg first).conseq (fun _ h => h) (fun _ _ h => h)
          fun _ _ h => Or.inr h) fun out => ?_
  refine Triple.bind (R := fun _ => Returned spec callback (withSampler cfg w₀) prompt cfg out)
    (Triple.modify fun w hw => ?_) fun _ => Triple.pure fun _ hw => hw
  exact returned_work.plain (promoteCL spec w.nPast spec.seqLenPrefill spec.seqLenDecode w) _ rfl rfl
    (returned_work.promote _ _ _ hw)

/-- The output contract of a call that returns: it has emitted what it returns, one callback call
for each token in order, at most `max_tokens` tokens and no EOS, and has emitted nothing after an
EOS was sampled or the callback stopped it. -/
theorem generate_keepsContract {prompt out : List τ} {cfg : GenerationConfig}
    {callback : List Int32 → CallbackAnswer} {w₀ w : World τ ρ I}
    (h : generate spec env prompt cfg callback w₀ = (.ok out, w)) :
    ∃ es, w.trace = es ++ w₀.trace ∧ emittedTokens es = out ∧
      (out.length : ℤ) ≤ max 0 cfg.maxTokens.toInt ∧ (∀ t ∈ out, isEos spec t = false) ∧
      InTime spec callback es := by
  have hall : Triple (fun w => w = w₀) (prefillStage spec env prompt cfg) (fun _ _ => True)
      (fun _ _ => True) := (prefillStage_said callback prompt cfg w₀).conseq
    (fun _ h => h) (fun _ _ _ => trivial) fun _ _ _ => trivial
  have hret := (generate_said callback prompt cfg w₀ hall).ok rfl h
  obtain ⟨unsaid, r, hsaid, -⟩ := hret.said
  obtain ⟨es, ht, htime, -, -, hemitted, -⟩ := hsaid.log
  rw [withSampler_trace] at ht
  have hlen := hret.length
  exact ⟨es, ht, hemitted, by omega, hret.notEos, htime⟩

/-! ## Room for a prompt -/

/-- There is room for `nFit` more tokens, if need be after an eviction. -/
def RoomFor (spec : LLMSpec) (cfg : GenerationConfig) (nFit nPast : ℕ) : Prop :=
  nPast + nFit ≤ spec.maxCl ∨
    cfg.slidingWindow = true ∧
      computeSlideDiscard nPast nFit spec.maxCl (nKeepOf spec cfg) ≠ 0 ∧
      nPast - computeSlideDiscard nPast nFit spec.maxCl (nKeepOf spec cfg) + nFit ≤ spec.maxCl

/-- The exception is a failed execution. -/
def Failed (e : Err) : Prop := ∃ msg, e = .executeFailed msg

/-- Where there is room for the tokens, making room fails only by a failed execution. -/
theorem ensureRoom_fails {w₀ : World τ ρ I} (hc : Counted spec w₀) {cfg : GenerationConfig}
    {nFit : ℕ} (hroom : RoomFor spec cfg nFit w₀.nPast) (b : Bool) (msg : String) :
    Triple (fun w => w = w₀) (ensureRoom spec env cfg nFit b msg) (fun _ _ => True)
      (fun e _ => Failed e) := by
  refine Triple.get fun w₁ hw₁ => ?_
  subst hw₁
  refine Triple.when (fun hfull => ?_) fun _ _ _ => trivial
  obtain ⟨hslide, hne, hfit⟩ := hroom.resolve_left (not_le.mpr hfull)
  set d := computeSlideDiscard w₁.nPast nFit spec.maxCl (nKeepOf spec cfg) with hd
  have hdle := computeSlideDiscard_le w₁.nPast nFit spec.maxCl (nKeepOf spec cfg)
  rw [← hd] at hdle
  have htry : Triple (fun w => w = w₁) (trySlide spec env cfg nFit b)
      (fun _ w => w.nPast + nFit ≤ spec.maxCl) (fun e _ => Failed e) := by
    refine Triple.get fun w₂ hw₂ => ?_
    subst hw₂
    refine Triple.when (fun _ => ?_) fun hno _ _ => absurd ⟨hslide, hne, hfit⟩ hno
    refine ((slideWindowEvict_throws (fun msg => ⟨msg, rfl⟩) d _ b).triple
      (slideWindowEvict_follows w₂ hc (by omega) b)).conseq (fun _ h => h) (fun _ w hw => ?_)
      fun _ _ h => h.2
    have hsize := hw.1.counted.size
    have hsize₀ := hc.size
    rw [hw.2, List.length_append, List.length_take, List.length_drop] at hsize
    omega
  refine Triple.bind htry fun _ => Triple.get fun w₂ hw₂ => ?_
  exact Triple.when (fun hno => absurd hw₂ (by omega)) fun _ _ _ => trivial

/-- Where there is no room for the tokens, making room throws before any work. -/
theorem ensureRoom_rejects {w : World τ ρ I} {cfg : GenerationConfig} {nFit : ℕ}
    (hroom : ¬RoomFor spec cfg nFit w.nPast) (b : Bool) (msg : String) :
    ensureRoom spec env cfg nFit b msg w = (.error (.contextLengthExceeded msg), w) := by
  unfold RoomFor at hroom
  rw [not_or] at hroom
  have hfull : w.nPast + nFit > spec.maxCl := not_le.mp hroom.1
  have htry : trySlide spec env cfg nFit b w = (.ok (), w) := by
    unfold trySlide Prog.when
    rw [Prog.get_bind, if_neg hroom.2]
    rfl
  unfold ensureRoom Prog.when
  rw [Prog.get_bind, if_pos hfull, Prog.bind_ok htry, Prog.get_bind, if_pos hfull]
  rfl

/-- A prompt that has no room is rejected before any work, but after it has been fed to the
sampler. -/
theorem prefillStage_rejects {prompt : List τ} {cfg : GenerationConfig} {w₀ : World τ ρ I}
    (hroom : ¬RoomFor spec cfg prompt.length w₀.nPast) :
    prefillStage spec env prompt cfg w₀ =
      (.error (.contextLengthExceeded (promptExceedsMsg spec)),
        prepareSampler cfg prompt (w₀.log (.enter w₀.nPast prompt.length))) := by
  set w₁ := prepareSampler cfg prompt (w₀.log (.enter w₀.nPast prompt.length)) with hw₁
  have hq : Quietly spec (w₀.log (.enter w₀.nPast prompt.length)) w₁ :=
    prepareSampler_quietly cfg prompt _
  have hn : w₁.nPast = w₀.nPast := hq.nPast
  have hrej : ensureRoom spec env cfg prompt.length false (promptExceedsMsg spec) w₁ =
      (.error (.contextLengthExceeded (promptExceedsMsg spec)), w₁) :=
    ensureRoom_rejects (by rwa [hn]) _ _
  unfold prefillStage
  rw [Prog.get_bind, Prog.modify_bind, Prog.modify_bind, Prog.bind_error hrej]

/-- A call whose prompt has no room is rejected with the prompt fed to the sampler. -/
theorem generate_rejects (callback : List Int32 → CallbackAnswer) {prompt : List τ}
    {cfg : GenerationConfig} {w₀ : World τ ρ I}
    (hroom : ¬RoomFor spec cfg prompt.length w₀.nPast) :
    Unread spec callback (withSampler cfg w₀) prompt
      (generate spec env prompt cfg callback w₀).2 := by
  have hbody : generate spec env prompt cfg callback w₀ =
      (.error (.contextLengthExceeded (promptExceedsMsg spec)),
        prepareSampler cfg prompt (w₀.log (.enter w₀.nPast prompt.length))) :=
    Prog.bind_error (Prog.bind_error (prefillStage_rejects hroom) _) _
  rw [hbody]
  exact prepareSampler_said cfg prompt w₀ _ _

/-- Where there is room for the prompt, the prefill fails only by a failed execution. -/
theorem prefillStage_fails {prompt : List τ} {cfg : GenerationConfig} {w₀ : World τ ρ I}
    (hc : Counted spec w₀) (hroom : RoomFor spec cfg prompt.length w₀.nPast) :
    Triple (fun w => w = w₀) (prefillStage spec env prompt cfg) (fun _ _ => True)
      (fun e _ => Failed e) := by
  refine Triple.get fun w₁ hw₁ => ?_
  subst hw₁
  set w₂ := prepareSampler cfg prompt (w₁.log (.enter w₁.nPast prompt.length)) with hw₂
  have hq : Quietly spec w₁ w₂ :=
    (log_quietly (by trivial) w₁).trans (prepareSampler_quietly cfg prompt _)
  have hroom₂ : RoomFor spec cfg prompt.length w₂.nPast := by rwa [hq.nPast]
  refine Triple.bind (R := fun _ w => w = w₁.log (.enter w₁.nPast prompt.length))
    (Triple.modify fun w hw => by rw [hw]) fun _ => ?_
  refine Triple.bind (R := fun _ w => w = w₂) (Triple.modify fun w hw => by rw [hw]) fun _ => ?_
  refine Triple.bind (ensureRoom_fails (hq.counted hc) hroom₂ false _) fun _ => ?_
  exact Throws.bind (prefillLoop_throws (fun msg => ⟨msg, rfl⟩) _ _ _) fun _ =>
    Throws.bind (Throws.modify _) fun _ => Throws.bind (Throws.modify _) fun _ =>
    sampleNextToken_throws _ _

/-! ## Calls with one sampler -/

/-- A call of `generate`, with the events that it logged. -/
structure Call (τ ρ I : Type) where
  prompt : List τ
  cfg : GenerationConfig
  callback : List Int32 → CallbackAnswer
  before : World τ ρ I
  after : World τ ρ I
  result : Except Err (List τ)
  log : List (Event τ I)

namespace Call

/-- The call has been made, with sampling enabled, and was ended by an EOS, by the callback, by
`max_tokens` or by the context limit. -/
structure Ran (spec : LLMSpec) (env : Env τ ρ I) (c : Call τ ρ I) : Prop where
  run : generate spec env c.prompt c.cfg c.callback c.before = (c.result, c.after)
  log : c.after.trace = c.log ++ c.before.trace
  sampling : c.cfg.enableSampling = true
  ended : (∃ out, c.result = .ok out) ∨ ∃ msg, c.result = .error (.contextLengthExceeded msg)

/-- The sampler of the state before the call is one for its configuration. -/
def Reuses (c : Call τ ρ I) : Prop :=
  (c.before.sampler.isSome && c.before.samplerCfg.any (samplerCfgEqual · c.cfg)) = true

/-- The conversation of a call: its prompt if it has entered the cache, the tokens it emitted, and
the EOS if it stopped on one. -/
def said (c : Call τ ρ I) : List τ :=
  (promptRead c.log).getD [] ++ emittedTokens c.log ++
    if .eos ∈ stopReasons c.log then (sampledTokens c.log).getLast?.toList else []

/-- The prompt has room, and the call is not ended by `max_tokens`. -/
def Fine (spec : LLMSpec) (c : Call τ ρ I) : Prop :=
  RoomFor spec c.cfg c.prompt.length c.before.nPast ∧ .maxTokens ∉ stopReasons c.log

end Call

/-- Calls with an unchanged sampler configuration, from the one that built the sampler on. -/
inductive SamplingRun (spec : LLMSpec) (env : Env τ ρ I) : World τ ρ I → List (Call τ ρ I) → Prop
  | first {c : Call τ ρ I} (hreach : Reachable spec env c.before) (hc : c.Ran spec env)
      (hnew : ¬c.Reuses) : SamplingRun spec env c.after [c]
  | next {cs : List (Call τ ρ I)} {c : Call τ ρ I} (h : SamplingRun spec env c.before cs)
      (hc : c.Ran spec env) (hsame : c.Reuses) : SamplingRun spec env c.after (cs ++ [c])

/-- A call feeds the sampler its conversation, and more exactly if its prompt has no room or it is
ended by `max_tokens`. -/
theorem Call.Ran.heard {c : Call τ ρ I} (h : c.Ran spec env) (hc : Counted spec c.before) :
    ∃ more, Geniex.heard c.after = Geniex.heard (withSampler c.cfg c.before) ++ (c.said ++ more) ∧
      (more = [] ↔ c.Fine spec) := by
  have hsome : ∃ s, (withSampler c.cfg c.before).sampler = some s := by
    unfold withSampler buildSampler
    rw [if_neg (by rw [h.sampling]; decide)]
    split_ifs with hreuse
    · rw [Bool.and_eq_true] at hreuse
      exact Option.isSome_iff_exists.mp hreuse.1
    · exact ⟨_, rfl⟩
  obtain ⟨s₀, hs₀⟩ := hsome
  -- what the log says, in the words of `Said`
  have hsaid : ∀ {prompt sampled emitted stops fed},
      Said spec c.callback (withSampler c.cfg c.before) prompt sampled emitted stops fed c.after →
      promptRead c.log = prompt ∧ sampledTokens c.log = sampled ∧ emittedTokens c.log = emitted ∧
        stopReasons c.log = stops ∧
        Geniex.heard c.after = Geniex.heard (withSampler c.cfg c.before) ++ fed := by
    intro prompt sampled emitted stops fed hw
    obtain ⟨es, ht, -, hread, hsampled, hemitted, hstops⟩ := hw.log
    rw [withSampler_trace, h.log] at ht
    obtain rfl := List.append_cancel_right ht
    obtain ⟨s, hs, hfed⟩ := hw.sampler s₀ hs₀
    refine ⟨hread, hsampled, hemitted, hstops, ?_⟩
    unfold Geniex.heard
    rw [hs, hs₀]
    exact hfed
  by_cases hroom : RoomFor spec c.cfg c.prompt.length c.before.nPast
  · have hfails : Triple (fun w => w = c.before) (prefillStage spec env c.prompt c.cfg)
        (fun _ _ => True) (fun e _ => Failed e) := prefillStage_fails hc hroom
    have hcall := generate_said c.callback c.prompt c.cfg c.before hfails
    rcases h.ended with ⟨out, hout⟩ | ⟨msg, herr⟩
    · have hret := hcall.ok rfl (by rw [h.run, hout])
      obtain ⟨unsaid, r, hw, hlast⟩ := hret.said
      obtain ⟨hread, hsampled, hemitted, hstops, hheard⟩ := hsaid hw
      rw [hheard, Call.said, hread, hsampled, hemitted, hstops, Option.getD_some]
      unfold Call.Fine
      rw [hstops]
      cases r with
      | eos =>
        obtain ⟨t, rfl, -⟩ := hlast
        exact ⟨[], by simp, iff_of_true rfl ⟨hroom, by simp⟩⟩
      | callback =>
        obtain rfl : unsaid = [] := hlast
        exact ⟨[], by simp, iff_of_true rfl ⟨hroom, by simp⟩⟩
      | maxTokens =>
        obtain ⟨t, rfl⟩ := hlast
        exact ⟨[t], by simp, iff_of_false (by simp) fun hf => hf.2 (by simp)⟩
    · have hthrown := hcall.error rfl (by rw [h.run, herr])
      rcases hthrown with ⟨msg', hmsg⟩ | hblocked | ⟨out, hw⟩
      · cases hmsg
      · cases hblocked
      · obtain ⟨hread, hsampled, hemitted, hstops, hheard⟩ := hsaid hw
        refine ⟨[], ?_, iff_of_true rfl ⟨hroom, by rw [hstops]; simp⟩⟩
        rw [hheard, Call.said, hread, hsampled, hemitted, hstops]
        simp
  · have hrej : Unread spec c.callback (withSampler c.cfg c.before) c.prompt
        (generate spec env c.prompt c.cfg c.callback c.before).2 := generate_rejects c.callback hroom
    rw [h.run] at hrej
    obtain ⟨hread, hsampled, hemitted, hstops, hheard⟩ := hsaid hrej
    refine ⟨c.prompt, ?_, iff_of_false (fun hnil => hroom ?_) fun hf => hroom hf.1⟩
    · rw [hheard, Call.said, hread, hsampled, hemitted, hstops]
      rfl
    · -- an empty prompt always has room
      left
      rw [hnil]
      exact hc.le

namespace SamplingRun

variable {w : World τ ρ I} {cs : List (Call τ ρ I)}

theorem reachable (h : SamplingRun spec env w cs) : Reachable spec env w := by
  have hcall : ∀ {c : Call τ ρ I}, c.Ran spec env → Reachable spec env c.before →
      Reachable spec env c.after := by
    intro c hc hreach
    refine hreach.generate c.prompt c.cfg c.callback hc.run fun hblocked => ?_
    rcases hc.ended with ⟨out, hout⟩ | ⟨msg, herr⟩
    · rw [hout] at hblocked
      cases hblocked
    · rw [herr] at hblocked
      cases hblocked
  induction h with
  | first hreach hc _ => exact hcall hc hreach
  | next _ hc _ ih => exact hcall hc ih

/-- The sampler has heard at least as much as was said, and just that if all calls are fine. -/
theorem heard_fine (h : SamplingRun spec env w cs) :
    (cs.flatMap Call.said).length ≤ (heard w).length ∧
      (heard w = cs.flatMap Call.said ↔ ∀ c ∈ cs, c.Fine spec) := by
  induction h with
  | @first c hreach hc hnew =>
    obtain ⟨more, hheard, hfine⟩ := hc.heard hreach.counted
    have hbase : heard (withSampler c.cfg c.before) = [] := by
      unfold Call.Reuses at hnew
      unfold withSampler buildSampler
      rw [if_neg (by rw [hc.sampling]; decide), if_neg hnew]
      rfl
    rw [hheard, hbase, List.nil_append]
    simp [hfine]
  | @next cs c h hc hsame ih =>
    obtain ⟨hle, hiff⟩ := ih
    obtain ⟨more, hheard, hfine⟩ := hc.heard h.reachable.counted
    have hbase : withSampler c.cfg c.before = c.before := by
      unfold Call.Reuses at hsame
      unfold withSampler buildSampler
      rw [if_neg (by rw [hc.sampling]; decide), if_pos hsame]
    rw [hheard, hbase, List.flatMap_append, List.flatMap_singleton]
    simp only [List.length_append]
    refine ⟨by omega, fun heq => ?_, fun hall => ?_⟩
    · -- the lengths leave no room for more in any call
      have hlen := congrArg List.length heq
      simp only [List.length_append] at hlen
      have hmore : more = [] := List.eq_nil_of_length_eq_zero (by omega)
      subst hmore
      rw [List.append_nil] at heq
      have hold := hiff.mp (List.append_cancel_right heq)
      intro c' hc'
      rcases List.mem_append.mp hc' with hc' | hc'
      · exact hold c' hc'
      · rw [List.mem_singleton.mp hc']
        exact hfine.mp rfl
    · rw [hiff.mpr fun c' hc' => hall c' (List.mem_append_left _ hc'),
        hfine.mpr (hall c (by simp)), List.append_nil]

/-- The sampler has heard the conversation exactly when every prompt had room and no call was ended
by `max_tokens`. -/
theorem heard_iff (h : SamplingRun spec env w cs) :
    heard w = cs.flatMap Call.said ↔ ∀ c ∈ cs, c.Fine spec := h.heard_fine.2

end SamplingRun

/-- One call with sampling on a new instance: a prompt of one token and at most `n` tokens. -/
def tinyCall (n : Int32) (callback : List Int32 → CallbackAnswer) : Call Int32 Unit Unit :=
  let cfg : GenerationConfig := { maxTokens := n, seed := 0, enableSampling := true }
  let run := generate fourColumns (tinyEnv 1 1) [0] cfg callback
    (tinyWorld fourColumns)
  ⟨[0], cfg, callback, tinyWorld fourColumns, run.2, run.1, run.2.trace⟩

theorem tinyCall_run (n : Int32) (callback : List Int32 → CallbackAnswer)
    (h : ∃ out, (tinyCall n callback).result = .ok out) :
    SamplingRun (tinySpec [4] 2 1) (tinyEnv 1 1) (tinyCall n callback).after
      [tinyCall n callback] :=
  .first (c := tinyCall n callback) (tinyWorld_reachable _ _)
    ⟨by simp only [tinyCall], (List.append_nil _).symm, rfl, Or.inl h⟩ (by
      unfold Call.Reuses
      exact Bool.false_ne_true)

/-- The callback stops at the first token: the sampler has heard the prompt and that token. -/
theorem heard_stopped : heard (tinyCall 5 fun _ => .stop).after = [0, 0] := by
  refine ((tinyCall_run 5 (fun _ => .stop) ⟨[0], by decide +kernel⟩).heard_iff.mpr ?_).trans
    (by decide +kernel)
  intro c hc
  rw [List.mem_singleton.mp hc]
  exact ⟨Or.inl (by decide), by decide +kernel⟩

/-- Ended by `max_tokens` after one token, the sampler has heard a second one that was never
emitted. -/
theorem heard_unsaid : SamplingRun (tinySpec [4] 2 1) (tinyEnv 1 1)
      (tinyCall 1 fun _ => .continue).after [tinyCall 1 fun _ => .continue] ∧
    (tinyCall 1 fun _ => .continue).said = [0, 0] ∧
    heard (tinyCall 1 fun _ => .continue).after = [0, 0, 0] :=
  ⟨tinyCall_run 1 _ ⟨[0], by decide +kernel⟩, by decide +kernel, by decide +kernel⟩

end Geniex
