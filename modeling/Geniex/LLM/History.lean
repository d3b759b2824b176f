import Geniex.LLM.Operations

/-!
# The token history and the position counter

* `Counted`: the history has `n_past` tokens, and so had it at every entry to an eviction.
* `Quietly w₀ w`: `w` comes from `w₀` by work that moves neither the history nor the counter. The
  writes and executions of a shard do (`runShard_quietly`, `updateKV_quietly`).
* `replay`: the history that the logged appends and evictions of a run leave.
-/

namespace Geniex

open Prog

variable {τ ρ I : Type} {spec : LLMSpec} {env : Env τ ρ I}

/-- An event that says nothing of the history. -/
def Event.Quiet : Event τ I → Prop
  | .evictEntry .. | .evicted .. | .appended .. => False
  | _ => True

/-- `w` comes from `w₀` with the history and the counter untouched. -/
structure Quietly (spec : LLMSpec) (w₀ w : World τ ρ I) : Prop where
  nPast : w.nPast = w₀.nPast
  tokenHistory : w.tokenHistory = w₀.tokenHistory
  active : w₀.activeClIdx < spec.numCl →
    w₀.activeClIdx ≤ w.activeClIdx ∧ w.activeClIdx < spec.numCl
  trace : ∃ es, (∀ e ∈ es, Event.Quiet e) ∧ w.trace = es ++ w₀.trace

/-- Work that moves neither the counter, the history nor the active context length, with the given
quiet events. -/
theorem Quietly.of_eq {w₀ w : World τ ρ I} (es : List (Event τ I)) (hn : w.nPast = w₀.nPast)
    (hh : w.tokenHistory = w₀.tokenHistory) (ha : w.activeClIdx = w₀.activeClIdx)
    (hq : ∀ e ∈ es, Event.Quiet e) (ht : w.trace = es ++ w₀.trace) : Quietly spec w₀ w :=
  ⟨hn, hh, fun h => ⟨ha.ge, ha ▸ h⟩, es, hq, ht⟩

namespace Quietly

theorem refl (w : World τ ρ I) : Quietly spec w w := of_eq [] rfl rfl rfl (by simp) rfl

theorem trans {w₀ w₁ w₂ : World τ ρ I} (h₁ : Quietly spec w₀ w₁) (h₂ : Quietly spec w₁ w₂) :
    Quietly spec w₀ w₂ := by
  obtain ⟨es₁, hq₁, ht₁⟩ := h₁.trace
  obtain ⟨es₂, hq₂, ht₂⟩ := h₂.trace
  refine ⟨h₂.nPast.trans h₁.nPast, h₂.tokenHistory.trans h₁.tokenHistory, fun h => ?_,
    es₂ ++ es₁, ?_, by rw [ht₂, ht₁, List.append_assoc]⟩
  · have ha₁ := h₁.active h
    have ha₂ := h₂.active ha₁.2
    exact ⟨ha₁.1.trans ha₂.1, ha₂.2⟩
  intro e he
  rcases List.mem_append.mp he with he | he
  · exact hq₂ e he
  · exact hq₁ e he

/-- A step that moves neither, with at most one quiet event. -/
theorem stable {w₀ : World τ ρ I} {g : World τ ρ I → World τ ρ I}
    (h : ∀ w, Quietly spec w (g w)) : Stable (Quietly spec w₀) (Prog.modify g : Run τ ρ I Unit) :=
  Stable.modify fun w hw => hw.trans (h w)

end Quietly

theorem log_quietly {e : Event τ I} (he : e.Quiet) (w : World τ ρ I) :
    Quietly spec w (w.log e) :=
  Quietly.of_eq [e] rfl rfl rfl (by simpa using he) rfl

theorem updateKV_quietly (s : ℕ) (phase : Phase) (off n : ℕ) (w : World τ ρ I) :
    Quietly spec w (updateKV spec s phase off n w) := by
  unfold updateKV
  split_ifs
  · exact Quietly.refl w
  · exact Quietly.of_eq [.kvWrite ⟨phase, s, w.activeClIdx, off, n⟩] rfl rfl rfl
      (by simp [Event.Quiet]) rfl

theorem runJobs_quietly (jobs : List KVJob) (w : World τ ρ I) :
    Quietly spec w (runJobs spec jobs w) := by
  unfold runJobs
  induction jobs generalizing w with
  | nil => exact Quietly.refl w
  | cons j jobs ih => exact (updateKV_quietly _ _ _ _ w).trans (ih _)

variable (spec) in
theorem settle_quietly (done : KVJob → Bool) (w : World τ ρ I) :
    Quietly spec w (settle spec done w) := by
  have h : Quietly spec w (runJobs spec (w.pending.filter done) w) := runJobs_quietly _ w
  exact ⟨h.nPast, h.tokenHistory, h.active, h.trace⟩

theorem background_quietly (w : World τ ρ I) : Quietly spec w (background spec env w) := by
  unfold background
  split_ifs
  · exact Quietly.refl w
  · exact settle_quietly spec _ w

theorem promoteCL_quietly (required cap stride : ℕ) (w : World τ ρ I)
    (h : w.activeClIdx < spec.numCl) :
    Quietly spec w (promoteCL spec required cap stride w) := by
  rw [promoteCL_eq h]
  have hspec := promoteTarget_spec required cap h
  exact ⟨rfl, rfl, fun _ => ⟨hspec.1, hspec.2.1⟩, [], by simp, rfl⟩

theorem waitPool_quietly (w₀ : World τ ρ I) :
    Stable (Quietly spec w₀) (waitPool spec env) :=
  Stable.get fun _ => Stable.ite (fun _ => Stable.pure ()) fun _ =>
    Stable.ite (fun _ => Stable.throw _) fun _ => Quietly.stable (settle_quietly spec _)

theorem execGraph_quietly (w₀ : World τ ρ I) (shard : ℕ) (phase : Phase) (clIdx : ℕ)
    (ctx : RunContext τ) (input : ExecIn I) (err : Err) :
    Stable (Quietly spec w₀) (execGraph spec env shard phase clIdx ctx input err) := by
  intro w hw
  have hlog : Quietly spec w₀ (w.log (.exec ⟨phase, shard, clIdx, ctx, input, w.produced⟩)) :=
    hw.trans (log_quietly (by trivial) w)
  unfold execGraph
  cases env.exec w.tick (spec.graphIndex phase shard clIdx) input with
  | none => exact ⟨hlog.nPast, hlog.tokenHistory, hlog.active, hlog.trace⟩
  | some out => exact ⟨hlog.nPast, hlog.tokenHistory, hlog.active, hlog.trace⟩

theorem runShard_quietly (w₀ : World τ ρ I) (shard : ℕ) (phase : Phase) (clIdx : ℕ)
    (ctx : RunContext τ) : Stable (Quietly spec w₀) (runShard spec env shard phase clIdx ctx) :=
  Stable.bind (Quietly.stable background_quietly) fun _ =>
    Stable.get fun _ => execGraph_quietly w₀ _ _ _ _ _ _

theorem applyConnection_quietly (phase : Phase) (s clIdx : ℕ) (w : World τ ρ I) :
    Quietly spec w (applyConnection spec phase s clIdx w) :=
  Quietly.of_eq [] rfl rfl rfl (by simp) rfl

theorem writeBack_quietly (s off : ℕ) (w : World τ ρ I) :
    Quietly spec w (writeBack spec env s off w) := by
  unfold writeBack
  split_ifs
  · exact Quietly.of_eq [] rfl rfl rfl (by simp) rfl
  · exact updateKV_quietly _ _ _ _ w

theorem restrideActive_quietly (old new : Phase) (n : ℕ) (w : World τ ρ I) :
    Quietly spec w (restrideActive spec old new n w) :=
  Quietly.of_eq [] rfl rfl rfl (by simp) rfl

theorem prefillShard_quietly (w₀ : World τ ρ I) (isFinal : Bool) (clIdx : ℕ) (ctx : RunContext τ)
    (s : ℕ) : Stable (Quietly spec w₀) (prefillShard spec env isFinal clIdx ctx s) :=
  Stable.when fun _ => Stable.bind (runShard_quietly w₀ _ _ _ _) fun _ =>
    Stable.bind (Quietly.stable (updateKV_quietly _ _ _ _)) fun _ =>
      Stable.when fun _ => Quietly.stable (applyConnection_quietly _ _ _)

theorem decodeShard_quietly (w₀ : World τ ρ I) (clIdx : ℕ) (ctx : RunContext τ) (s : ℕ) :
    Stable (Quietly spec w₀) (decodeShard spec env clIdx ctx s) :=
  Stable.bind (runShard_quietly w₀ _ _ _ _) fun _ =>
    Stable.bind (Quietly.stable (writeBack_quietly _ _)) fun _ =>
      Stable.when fun _ => Quietly.stable (applyConnection_quietly _ _ _)

/-! ## A prefill pass -/

/-- The history fits the stride of a phase, or no larger context length is left. -/
def Fits (spec : LLMSpec) (phase : Phase) (w : World τ ρ I) : Prop :=
  w.nPast ≤ spec.kvLen phase w.activeClIdx ∨ w.activeClIdx + 1 = spec.numCl

theorem Fits.mono {w₀ w : World τ ρ I} {phase : Phase} (h : Fits spec phase w₀)
    (hn : w.nPast ≤ w₀.nPast) (ha : w₀.activeClIdx ≤ w.activeClIdx)
    (hlt : w.activeClIdx < spec.numCl) : Fits spec phase w := by
  rcases h with h | h
  · exact Or.inl (hn.trans (h.trans (spec.kvLen_mono ha hlt)))
  · exact Or.inr (by omega)

theorem Fits.decode {w : World τ ρ I} (h : Fits spec .prefill w) : Fits spec .decode w :=
  h.imp_left fun h => h.trans (spec.kvLen_prefill_le _)

/-- `w` comes from `w₀` by appending `ts` to the history. -/
structure Appended (spec : LLMSpec) (ts : List τ) (w₀ w : World τ ρ I) : Prop where
  nPast : w.nPast = w₀.nPast + ts.length
  tokenHistory : w.tokenHistory = w₀.tokenHistory ++ ts
  active : w₀.activeClIdx < spec.numCl →
    w₀.activeClIdx ≤ w.activeClIdx ∧ w.activeClIdx < spec.numCl
  fits : w₀.activeClIdx < spec.numCl → ts ≠ [] → Fits spec .prefill w
  trace : ∃ es, (∀ e ∈ es, Event.Quiet e) ∧ w.trace = es ++ w₀.trace

theorem Quietly.appended {w₀ w : World τ ρ I} (h : Quietly spec w₀ w) :
    Appended spec [] w₀ w :=
  ⟨h.nPast, by simp [h.tokenHistory], h.active, fun _ h => absurd rfl h, h.trace⟩

theorem Appended.trans {w₀ w₁ w₂ : World τ ρ I} {ts ts' : List τ} (h₁ : Appended spec ts w₀ w₁)
    (h₂ : Appended spec ts' w₁ w₂) : Appended spec (ts ++ ts') w₀ w₂ := by
  obtain ⟨es₁, hq₁, ht₁⟩ := h₁.trace
  obtain ⟨es₂, hq₂, ht₂⟩ := h₂.trace
  refine ⟨by rw [h₂.nPast, h₁.nPast, List.length_append, Nat.add_assoc],
    by rw [h₂.tokenHistory, h₁.tokenHistory, List.append_assoc], fun h => ?_, fun h hne => ?_,
    es₂ ++ es₁, ?_, by rw [ht₂, ht₁, List.append_assoc]⟩
  · have ha₁ := h₁.active h
    have ha₂ := h₂.active ha₁.2
    exact ⟨ha₁.1.trans ha₂.1, ha₂.2⟩
  · have ha₁ := h₁.active h
    have ha₂ := h₂.active ha₁.2
    by_cases hts' : ts' = []
    · subst hts'
      exact (h₁.fits h (by simpa using hne)).mono h₂.nPast.le ha₂.1 ha₂.2
    · exact h₂.fits ha₁.2 hts'
  · intro e he
    rcases List.mem_append.mp he with he | he
    · exact hq₂ e he
    · exact hq₁ e he

theorem prefillChunk_appended (w₀ : World τ ρ I) (ha : w₀.activeClIdx < spec.numCl)
    (isFinal : Bool) (chunk : List τ) :
    Triple (fun w => w = w₀) (prefillChunk spec env isFinal chunk)
      (fun _ w => Appended spec chunk w₀ w) (fun _ w => Quietly spec w₀ w) := by
  refine Triple.get fun w₁ hw₁ => ?_
  subst hw₁
  have hlog : Triple (fun w => w = w₁)
      (Prog.modify (World.log (.step .prefill w₁.nPast chunk.length)) : Run τ ρ I Unit)
      (fun _ w => Quietly spec w₁ w) (fun _ w => Quietly spec w₁ w) :=
    Triple.modify fun w hw => hw ▸ log_quietly (by trivial) w
  have hprom : Triple (Quietly spec w₁) (Prog.modify (promoteCL spec (w₁.nPast + chunk.length)
      spec.seqLenPrefill spec.seqLenPrefill) : Run τ ρ I Unit)
      (fun _ w => Quietly spec w₁ w ∧ (w₁.nPast + chunk.length ≤ spec.kvLen .prefill w.activeClIdx ∨
        w.activeClIdx + 1 = spec.numCl)) (fun _ w => Quietly spec w₁ w) := by
    refine Triple.modify fun w hw => ?_
    have haw := (hw.active ha).2
    refine ⟨hw.trans (promoteCL_quietly _ _ _ w haw), ?_⟩
    rw [promoteCL_eq haw]
    exact (promoteTarget_spec (w₁.nPast + chunk.length) spec.seqLenPrefill haw).2.2
  refine Triple.bind hlog fun _ => Triple.bind hprom fun _ => Triple.get fun w₂ hw₂ => ?_
  have hshards : Stable (Quietly spec w₂) (Prog.forRange spec.shardCount (prefillShard spec env
      isFinal w₂.activeClIdx ⟨chunk, w₁.nPast, chunk.length, .prefill⟩)) :=
    Stable.forRange (fun s => prefillShard_quietly w₂ _ _ _ s) _
  refine Triple.bind (hshards.conseq (fun w hw => by subst hw; exact Quietly.refl w)
    (fun _ _ h => h) fun _ w hw => hw₂.1.trans hw) fun _ => Triple.modify fun w hw => ?_
  have hq := hw₂.1.trans hw
  have haw := hw.active (hw₂.1.active ha).2
  refine ⟨congrArg (· + _) hq.nPast, congrArg (· ++ _) hq.tokenHistory, hq.active,
    fun _ _ => ?_, hq.trace⟩
  rcases hw₂.2 with h | h
  · left
    show w.nPast + chunk.length ≤ _
    rw [hq.nPast]
    exact h.trans (spec.kvLen_mono haw.1 haw.2)
  · right
    show w.activeClIdx + 1 = _
    omega

/-- `prefillChunks` appends its tokens; left by an exception, it has appended a prefix of them. -/
theorem prefillLoop_appended (fuel : ℕ) (tokens : List τ) (last : ℕ) (w₀ : World τ ρ I)
    (ha : w₀.activeClIdx < spec.numCl) (hfuel : tokens.length ≤ fuel) :
    Triple (fun w => w = w₀) (prefillLoop spec env fuel tokens last)
      (fun _ w => Appended spec tokens w₀ w)
      (fun _ w => ∃ pre, pre <+: tokens ∧ Appended spec pre w₀ w) := by
  induction fuel generalizing tokens last w₀ with
  | zero =>
    obtain rfl : tokens = [] := List.length_eq_zero_iff.mp (by omega)
    exact Triple.pure fun w hw => hw ▸ (Quietly.refl w).appended
  | succ fuel ih =>
    unfold prefillLoop
    refine Triple.ite (fun h => ?_) fun h => ?_
    · subst h
      exact Triple.pure fun w hw => hw ▸ (Quietly.refl w).appended
    · have hpos : 0 < spec.seqLenPrefill := spec.seqLen_pos .prefill
      have hlen : 0 < tokens.length := List.length_pos_of_ne_nil h
      have hsplit := List.take_append_drop spec.seqLenPrefill tokens
      refine Triple.bind ((prefillChunk_appended w₀ ha _ _).conseq (fun _ h => h)
        (fun _ _ h => h) fun _ w hw => ⟨[], List.nil_prefix, hw.appended⟩) fun _ => ?_
      refine Triple.of_eq fun w₁ hw₁ => ?_
      refine (ih _ _ w₁ (hw₁.active ha).2 (by rw [List.length_drop]; omega)).conseq
        (fun _ h => h) (fun _ w hw => hsplit ▸ hw₁.trans hw) ?_
      rintro _ w ⟨pre, hpre, hw⟩
      refine ⟨_, ?_, hw₁.trans hw⟩
      nth_rewrite 2 [← hsplit]
      exact (List.prefix_append_right_inj _).mpr hpre

/-! ## A call -/

/-- The history has `n_past` tokens, now and at every entry to an eviction. -/
structure Counted (spec : LLMSpec) (w : World τ ρ I) : Prop where
  size : w.tokenHistory.length = w.nPast
  le : w.nPast ≤ spec.maxCl
  active : w.activeClIdx < spec.numCl
  fits : Fits spec .decode w
  entries : ∀ n h k d, Event.evictEntry n h k d ∈ w.trace → h = n ∧ k + d ≤ h

/-- The history that logged appends and evictions leave, newest event first. -/
def replay (h₀ : List τ) : List (Event τ I) → List τ
  | [] => h₀
  | .appended ts :: es => replay h₀ es ++ ts
  | .evicted k d :: es => (replay h₀ es).take k ++ (replay h₀ es).drop (k + d)
  | _ :: es => replay h₀ es

/-- The tokens that logged appends added, oldest first. -/
def appendedTokens : List (Event τ I) → List τ
  | [] => []
  | .appended ts :: es => appendedTokens es ++ ts
  | _ :: es => appendedTokens es

theorem replay_append (h₀ : List τ) (es' es : List (Event τ I)) :
    replay h₀ (es' ++ es) = replay (replay h₀ es) es' := by
  induction es' with
  | nil => rfl
  | cons e es' ih => cases e <;> simp only [List.cons_append, replay, ih]

theorem appendedTokens_append (es' es : List (Event τ I)) :
    appendedTokens (es' ++ es) = appendedTokens es ++ appendedTokens es' := by
  induction es' with
  | nil => simp [appendedTokens]
  | cons e es' ih =>
    cases e <;> simp only [List.cons_append, appendedTokens, ih, List.append_assoc]

theorem replay_quiet {h₀ : List τ} {es : List (Event τ I)} (h : ∀ e ∈ es, Event.Quiet e) :
    replay h₀ es = h₀ := by
  induction es with
  | nil => rfl
  | cons e es ih =>
    have he := h e List.mem_cons_self
    have hes := ih fun e he => h e (List.mem_cons_of_mem _ he)
    cases e <;> first | exact hes | exact he.elim

theorem appendedTokens_quiet {es : List (Event τ I)} (h : ∀ e ∈ es, Event.Quiet e) :
    appendedTokens es = ([] : List τ) := by
  induction es with
  | nil => rfl
  | cons e es ih =>
    have he := h e List.mem_cons_self
    have hes := ih fun e he => h e (List.mem_cons_of_mem _ he)
    cases e <;> first | exact hes | exact he.elim

/-- `w` comes from `w₀` by evictions and by appending `ts`, and both are in the log. -/
structure Follows (spec : LLMSpec) (ts : List τ) (w₀ w : World τ ρ I) : Prop where
  counted : Counted spec w
  log : ∃ es, w.trace = es ++ w₀.trace ∧ w.tokenHistory = replay w₀.tokenHistory es ∧
    appendedTokens es = ts

namespace Follows

theorem refl {w : World τ ρ I} (h : Counted spec w) : Follows spec [] w w :=
  ⟨h, [], rfl, rfl, rfl⟩

theorem trans {w₀ w₁ w₂ : World τ ρ I} {ts ts' : List τ} (h₁ : Follows spec ts w₀ w₁)
    (h₂ : Follows spec ts' w₁ w₂) : Follows spec (ts ++ ts') w₀ w₂ := by
  obtain ⟨es₁, ht₁, hh₁, ha₁⟩ := h₁.log
  obtain ⟨es₂, ht₂, hh₂, ha₂⟩ := h₂.log
  exact ⟨h₂.counted, es₂ ++ es₁, by rw [ht₂, ht₁, List.append_assoc],
    by rw [hh₂, hh₁, replay_append], by rw [appendedTokens_append, ha₁, ha₂]⟩

end Follows

theorem Counted.entries_append {w₀ : World τ ρ I} {es : List (Event τ I)} (h : Counted spec w₀)
    (hq : ∀ e ∈ es, Event.Quiet e) :
    ∀ n h k d, Event.evictEntry n h k d ∈ es ++ w₀.trace → h = n ∧ k + d ≤ h := by
  intro n m k d hmem
  rcases List.mem_append.mp hmem with he | he
  · exact (hq _ he).elim
  · exact h.entries n m k d he

/-- Logging anything but an eviction's entry. -/
theorem Counted.log {w : World τ ρ I} {e : Event τ I} (h : Counted spec w)
    (he : ∀ n m k d, e ≠ .evictEntry n m k d) : Counted spec (w.log e) := by
  refine ⟨h.size, h.le, h.active, h.fits, fun n m k d hmem => ?_⟩
  rcases List.mem_cons.mp hmem with heq | hmem
  · exact absurd heq.symm (he n m k d)
  · exact h.entries n m k d hmem

theorem Quietly.counted {w₀ w : World τ ρ I} (h : Quietly spec w₀ w) (hc : Counted spec w₀) :
    Counted spec w := by
  obtain ⟨es, hq, ht⟩ := h.trace
  have ha := h.active hc.active
  exact ⟨by rw [h.tokenHistory, h.nPast, hc.size], by rw [h.nPast]; exact hc.le, ha.2,
    hc.fits.mono h.nPast.le ha.1 ha.2, by rw [ht]; exact hc.entries_append hq⟩

theorem Quietly.follows {w₀ w : World τ ρ I} (h : Quietly spec w₀ w) (hc : Counted spec w₀) :
    Follows spec [] w₀ w := by
  obtain ⟨es, hq, ht⟩ := h.trace
  exact ⟨h.counted hc, es, ht, by rw [h.tokenHistory, replay_quiet hq], appendedTokens_quiet hq⟩

theorem Appended.counted {w₀ w : World τ ρ I} {ts : List τ} (h : Appended spec ts w₀ w)
    (hc : Counted spec w₀) (hroom : w₀.nPast + ts.length ≤ spec.maxCl) : Counted spec w := by
  obtain ⟨es, hq, ht⟩ := h.trace
  have ha := h.active hc.active
  refine ⟨by rw [h.tokenHistory, h.nPast, List.length_append, hc.size], by rw [h.nPast]; exact hroom,
    ha.2, ?_, by rw [ht]; exact hc.entries_append hq⟩
  by_cases hts : ts = []
  · subst hts
    exact hc.fits.mono h.nPast.le ha.1 ha.2
  · exact (h.fits hc.active hts).decode

/-- Quiet work within a call. -/
theorem Follows.quietly {α : Type} {x : Run τ ρ I α} {w₀ : World τ ρ I} {ts : List τ}
    (hx : ∀ w₁, Stable (Quietly spec w₁) x) :
    Triple (Follows spec ts w₀) x (fun _ => Follows spec ts w₀) (fun _ w => Counted spec w) := by
  refine Triple.of_eq fun w₁ hw₁ => (hx w₁).conseq
    (fun w hw => by subst hw; exact Quietly.refl w) (fun _ w hw => ?_)
    fun _ w hw => hw.counted hw₁.counted
  have := hw₁.trans (hw.follows hw₁.counted)
  rwa [List.append_nil] at this

theorem computeSlideDiscard_le (nPast nFit maxCl nKeep : ℕ) :
    computeSlideDiscard nPast nFit maxCl nKeep ≤ nPast - nKeep := by
  unfold computeSlideDiscard
  split_ifs with h
  · exact Nat.zero_le _
  · simp only
    split_ifs <;> omega

theorem feedSampler_quietly (calls : List (SamplerCall τ)) (w : World τ ρ I) :
    Quietly spec w (feedSampler calls w) := by
  refine Quietly.of_eq (calls.map Event.sampler).reverse rfl rfl rfl (fun e he => ?_) rfl
  obtain ⟨c, -, rfl⟩ := List.mem_map.mp (List.mem_reverse.mp he)
  trivial

theorem buildSampler_quietly (cfg : GenerationConfig) (w : World τ ρ I) :
    Quietly spec w (buildSampler cfg w) := by
  unfold buildSampler
  split_ifs
  · exact Quietly.refl w
  · exact Quietly.of_eq [] rfl rfl rfl (by simp) rfl

theorem prepareSampler_quietly (cfg : GenerationConfig) (prompt : List τ) (w : World τ ρ I) :
    Quietly spec w (prepareSampler cfg prompt w) := by
  unfold prepareSampler
  split_ifs
  · exact Quietly.of_eq [] rfl rfl rfl (by simp) rfl
  · exact buildSampler_quietly cfg w
  · exact (buildSampler_quietly cfg w).trans (feedSampler_quietly _ _)

section Call

variable [Token τ]

/-- The state in which an eviction starts its re-prefill. -/
theorem truncate_counted {w₀ w : World τ ρ I} {n k d : ℕ} (hc : Counted spec w₀)
    (hkd : k + d ≤ w₀.nPast)
    (hw : Quietly spec (w₀.log (.evictEntry w₀.nPast w₀.tokenHistory.length k d)) w)
    (hn : n = k) :
    Counted spec { w with nPast := n, tokenHistory := resizeHistory w.tokenHistory k } ∧
      resizeHistory w.tokenHistory k = w₀.tokenHistory.take k := by
  subst hn
  have hh : w.tokenHistory = w₀.tokenHistory := hw.tokenHistory
  have hsize := hc.size
  have htake : resizeHistory w.tokenHistory n = w₀.tokenHistory.take n := by
    unfold resizeHistory
    rw [hh, show n - w₀.tokenHistory.length = 0 by omega, List.replicate_zero, List.append_nil]
  obtain ⟨es, hq, ht⟩ := hw.trace
  have ha := hw.active hc.active
  refine ⟨⟨?_, ?_, ha.2, hc.fits.mono (by show n ≤ w₀.nPast; omega) ha.1 ha.2, ?_⟩, htake⟩
  · show (resizeHistory w.tokenHistory n).length = n
    rw [htake, List.length_take]
    omega
  · have := hc.le
    show n ≤ spec.maxCl
    omega
  · intro m h k' d' hmem
    rw [show w.trace = es ++ (w₀.log _).trace from ht] at hmem
    rcases List.mem_append.mp hmem with he | he
    · exact (hq _ he).elim
    · rcases List.mem_cons.mp he with heq | he
      · cases heq
        exact ⟨hsize, by omega⟩
      · exact hc.entries m h k' d' he

/-- An eviction takes the positions `[k, k + d)` out of the history. -/
theorem slideWindowEvict_follows (w₀ : World τ ρ I) (hc : Counted spec w₀) {k d : ℕ}
    (hkd : k + d ≤ w₀.nPast) (atDecodeStride : Bool) :
    Triple (fun w => w = w₀) (slideWindowEvict spec env d k atDecodeStride)
      (fun _ w => Follows spec [] w₀ w ∧
        w.tokenHistory = w₀.tokenHistory.take k ++ w₀.tokenHistory.drop (k + d))
      (fun _ w => Counted spec w) := by
  unfold slideWindowEvict
  refine Triple.when (fun _ => Triple.get fun w₁ hw₁ => ?_) fun hd w hw => ?_
  swap
  · subst hw
    refine ⟨Follows.refl hc, ?_⟩
    rw [not_not.mp hd, Nat.add_zero, List.take_append_drop]
  subst hw₁
  have hlog : Triple (fun w => w = w₁)
      (Prog.modify (World.log (.evictEntry w₁.nPast w₁.tokenHistory.length k d)) : Run τ ρ I Unit)
      (fun _ => Quietly spec (w₁.log (.evictEntry w₁.nPast w₁.tokenHistory.length k d)))
      (fun _ w => Counted spec w) := Triple.modify fun w hw => hw ▸ Quietly.refl _
  refine Triple.bind hlog fun _ => Triple.bind (R := fun _ =>
      Quietly spec (w₁.log (.evictEntry w₁.nPast w₁.tokenHistory.length k d)))
    (Triple.when (fun _ => Triple.modify fun w hw => hw.trans (restrideActive_quietly _ _ _ w))
      fun _ _ hw => hw) fun _ => Triple.of_eq fun w₂ hw₂ => ?_
  obtain ⟨hc₂, htake⟩ := truncate_counted hc hkd hw₂ rfl
  set w₃ := { w₂ with nPast := k, tokenHistory := resizeHistory w₂.tokenHistory k } with hw₃
  set tail := (w₁.tokenHistory.drop (k + d)).take (w₁.nPast - (k + d)) with htail
  have hsize := hc.size
  have htail' : tail = w₁.tokenHistory.drop (k + d) :=
    List.take_of_length_le (by rw [List.length_drop]; omega)
  have hroom : w₃.nPast + tail.length ≤ spec.maxCl := by
    have := hc.le
    rw [htail', List.length_drop]
    show k + _ ≤ _
    omega
  refine Triple.bind (R := fun _ w => w = w₃) (Triple.modify fun w hw => by rw [hw]) fun _ => ?_
  refine Triple.bind ((prefillLoop_appended _ tail 0 w₃ hc₂.active le_rfl).conseq
    (fun _ h => h) (fun _ _ h => h) ?_) fun _ => ?_
  · rintro _ w ⟨pre, hpre, hw⟩
    have := hpre.length_le
    exact hw.counted hc₂ (by omega)
  · refine Triple.bind (R := fun _ w => Appended spec tail w₃ w) (Triple.when (fun _ =>
      Triple.modify fun w hw => ?_) fun _ _ hw => hw) fun _ => Triple.modify fun w hw => ?_
    · exact ⟨hw.nPast, hw.tokenHistory, hw.active, hw.fits, hw.trace⟩
    · have hcw := hw.counted hc₂ hroom
      obtain ⟨es, hq, ht⟩ := hw.trace
      obtain ⟨es₂, hq₂, ht₂⟩ := hw₂.trace
      have hhist : w.tokenHistory =
          w₁.tokenHistory.take k ++ w₁.tokenHistory.drop (k + d) := by
        rw [hw.tokenHistory, htail']
        exact congrArg (· ++ _) htake
      refine ⟨⟨hcw.log (by simp), ?_⟩, hhist⟩
      refine ⟨.evicted k d :: (es ++ (es₂ ++ [.evictEntry w₁.nPast w₁.tokenHistory.length k d])),
        ?_, ?_, ?_⟩
      · show _ :: w.trace = _
        rw [ht, show w₃.trace = es₂ ++ (w₁.log _).trace from ht₂]
        simp
      · show w.tokenHistory = _
        rw [hhist, replay, replay_append, replay_append, replay_quiet hq, replay_quiet hq₂]
        rfl
      · show appendedTokens (es ++ (es₂ ++ _)) = []
        rw [appendedTokens_append, appendedTokens_append, appendedTokens_quiet hq,
          appendedTokens_quiet hq₂]
        rfl

theorem trySlide_follows (w₀ : World τ ρ I) (hc : Counted spec w₀) (cfg : GenerationConfig)
    (nFit : ℕ) (atDecodeStride : Bool) :
    Triple (fun w => w = w₀) (trySlide spec env cfg nFit atDecodeStride)
      (fun _ w => Follows spec [] w₀ w) (fun _ w => Counted spec w) := by
  refine Triple.get fun w₁ hw₁ => ?_
  subst hw₁
  refine Triple.when (fun h => ?_) fun _ w hw => by subst hw; exact Follows.refl hc
  have := computeSlideDiscard_le w₁.nPast nFit spec.maxCl (nKeepOf spec cfg)
  exact (slideWindowEvict_follows w₁ hc (by omega) _).post fun _ _ h => h.1

theorem ensureRoom_follows (w₀ : World τ ρ I) (hc : Counted spec w₀) (cfg : GenerationConfig)
    (nFit : ℕ) (atDecodeStride : Bool) (msg : String) :
    Triple (fun w => w = w₀) (ensureRoom spec env cfg nFit atDecodeStride msg)
      (fun _ w => Follows spec [] w₀ w ∧ w.nPast + nFit ≤ spec.maxCl)
      (fun _ w => Counted spec w) := by
  refine Triple.get fun w₁ hw₁ => ?_
  subst hw₁
  refine Triple.when (fun _ => ?_) fun h w hw => by
    subst hw
    exact ⟨Follows.refl hc, by omega⟩
  refine Triple.bind (trySlide_follows w₁ hc cfg nFit atDecodeStride) fun _ =>
    Triple.get fun w₂ hw₂ => ?_
  refine Triple.when (fun _ => Triple.throw fun w hw => hw ▸ hw₂.counted) fun h w hw => ?_
  subst hw
  exact ⟨hw₂, by omega⟩

theorem sampleNextToken_quietly (w₀ : World τ ρ I) (phase : Phase) (off : ℕ) :
    Stable (Quietly spec w₀) (sampleNextToken spec env phase off) := by
  refine Stable.get fun w => ?_
  cases w.sampler with
  | none =>
    exact Stable.bind (Quietly.stable (log_quietly (by trivial))) fun _ => Stable.pure _
  | some s =>
    exact Stable.bind (Quietly.stable (feedSampler_quietly _)) fun _ =>
      Stable.bind (Quietly.stable (log_quietly (by trivial))) fun _ => Stable.pure _

theorem prefillStage_follows (w₀ : World τ ρ I) (hc : Counted spec w₀) (prompt : List τ)
    (cfg : GenerationConfig) :
    Triple (fun w => w = w₀) (prefillStage spec env prompt cfg)
      (fun _ w => Follows spec prompt w₀ w) (fun _ w => Counted spec w) := by
  refine Triple.get fun w₁ hw₁ => ?_
  subst hw₁
  have hentry : Triple (fun w => w = w₁)
      (Prog.modify (World.log (.enter w₁.nPast prompt.length)) : Run τ ρ I Unit)
      (fun _ => Quietly spec w₁) (fun _ w => Counted spec w) :=
    Triple.modify fun w hw => hw ▸ log_quietly (by trivial) w
  refine Triple.bind hentry fun _ => Triple.bind (R := fun _ => Quietly spec w₁)
    (Triple.modify fun w hw => hw.trans (prepareSampler_quietly cfg prompt w)) fun _ =>
      Triple.of_eq fun w₂ hw₂ => ?_
  have hf₂ := hw₂.follows hc
  refine Triple.bind (ensureRoom_follows w₂ hf₂.counted cfg _ _ _) fun _ =>
    Triple.of_eq fun w₃ hw₃ => ?_
  refine Triple.bind ((prefillLoop_appended _ prompt 0 w₃ hw₃.1.counted.active le_rfl).conseq
    (fun _ h => h) (fun _ _ h => h) ?_) fun last => ?_
  · rintro _ w ⟨pre, hpre, hw⟩
    have := hpre.length_le
    exact hw.counted hw₃.1.counted (by omega)
  · refine Triple.bind (R := fun _ w => Follows spec prompt w₁ w)
      (Triple.modify fun w hw => ?_) fun _ => Triple.bind (R := fun _ w => Follows spec prompt w₁ w)
      (Follows.quietly fun w₄ => Quietly.stable fun w => restrideActive_quietly _ _ _ w) fun _ =>
        Follows.quietly fun w₄ => sampleNextToken_quietly w₄ _ _
    · have hcw := hw.counted hw₃.1.counted hw₃.2
      obtain ⟨es, hq, ht⟩ := hw.trace
      have hlast : Follows spec prompt w₃ (w.log (.appended prompt)) := by
        refine ⟨hcw.log (by simp), .appended prompt :: es, by simp [ht], ?_, ?_⟩
        · rw [replay, replay_quiet hq]; exact hw.tokenHistory
        · rw [appendedTokens, appendedTokens_quiet hq, List.nil_append]
      exact (hf₂.trans hw₃.1).trans hlast

omit [Token τ] in
/-- A decode step at its position appends its token. -/
theorem decodeForward_follows (w₀ : World τ ρ I) (hc : Counted spec w₀)
    (hroom : w₀.nPast + 1 ≤ spec.maxCl) (tok : τ) :
    Triple (fun w => w = w₀) (decodeForward spec env tok)
      (fun _ w => Follows spec [tok] w₀ w ∧ w.tokenHistory = w₀.tokenHistory ++ [tok])
      (fun _ => Quietly spec w₀) := by
  refine Triple.get fun w₂ hw₂ => ?_
  subst hw₂
  have hlog : Triple (fun w => w = w₂)
      (Prog.modify (World.log (.step .decode w₂.nPast 1)) : Run τ ρ I Unit)
      (fun _ => Quietly spec w₂) (fun _ w => Quietly spec w₂ w) :=
    Triple.modify fun w hw => hw ▸ log_quietly (by trivial) w
  have hprom : Triple (Quietly spec w₂) (Prog.modify (promoteCL spec (w₂.nPast + 1)
      spec.seqLenDecode spec.seqLenDecode) : Run τ ρ I Unit)
      (fun _ w => Quietly spec w₂ w ∧ (w₂.nPast + 1 ≤ spec.kvLen .decode w.activeClIdx ∨
        w.activeClIdx + 1 = spec.numCl)) (fun _ w => Quietly spec w₂ w) := by
    refine Triple.modify fun w hw => ?_
    have haw := (hw.active hc.active).2
    refine ⟨hw.trans (promoteCL_quietly _ _ _ w haw), ?_⟩
    rw [promoteCL_eq haw]
    exact (promoteTarget_spec (w₂.nPast + 1) spec.seqLenDecode haw).2.2
  refine Triple.bind hlog fun _ => Triple.bind hprom fun _ => Triple.get fun w₃ hw₃ => ?_
  have hshards : Stable (Quietly spec w₃) (Prog.forRange spec.shardCount
      (decodeShard spec env w₃.activeClIdx ⟨[tok], w₂.nPast, 1, .decode⟩)) :=
    Stable.forRange (fun s => decodeShard_quietly w₃ _ _ s) _
  refine Triple.bind (hshards.conseq (fun w hw => by subst hw; exact Quietly.refl w)
    (fun _ _ h => h) fun _ w hw => hw₃.1.trans hw) fun _ => Triple.modify fun w hw => ?_
  have hq₂ := hw₃.1.trans hw
  have ha := hw.active (hw₃.1.active hc.active).2
  obtain ⟨es, hq, ht⟩ := hq₂.trace
  have hcw := hq₂.counted hc
  have hhist : w.tokenHistory ++ [tok] = w₂.tokenHistory ++ [tok] := by rw [hq₂.tokenHistory]
  refine ⟨⟨⟨?_, ?_, hcw.active, ?_, (hcw.log (by simp)).entries⟩, .appended [tok] :: es, ?_, ?_, ?_⟩,
    hhist⟩
  · show (w.tokenHistory ++ [tok]).length = w.nPast + 1
    rw [List.length_append, hcw.size]
    rfl
  · show w.nPast + 1 ≤ _
    rw [hq₂.nPast]
    exact hroom
  · show w.nPast + 1 ≤ spec.kvLen .decode w.activeClIdx ∨ w.activeClIdx + 1 = spec.numCl
    rw [hq₂.nPast]
    exact hw₃.2.imp (fun h => h.trans (spec.kvLen_mono ha.1 ha.2)) fun h => by omega
  · show _ :: w.trace = _
    rw [ht]
    rfl
  · rw [replay, replay_quiet hq]
    exact hhist
  · rw [appendedTokens, appendedTokens_quiet hq, List.nil_append]

theorem decodeStep_follows (w₀ : World τ ρ I) (hc : Counted spec w₀) (cfg : GenerationConfig)
    (tok : τ) :
    Triple (fun w => w = w₀) (decodeStep spec env cfg tok)
      (fun _ w => Follows spec [tok] w₀ w) (fun _ w => Counted spec w) := by
  refine Triple.bind ((waitPool_quietly w₀).conseq (fun w hw => by subst hw; exact Quietly.refl w)
    (fun _ _ h => h) fun _ _ h => h.counted hc) fun _ => Triple.of_eq fun w₁ hw₁ => ?_
  have hf₁ := hw₁.follows hc
  refine Triple.bind (ensureRoom_follows w₁ hf₁.counted cfg _ _ _) fun _ =>
    Triple.of_eq fun w₂ hw₂ => ?_
  have hc₂ := hw₂.1.counted
  exact (decodeForward_follows w₂ hc₂ hw₂.2 tok).conseq (fun _ h => h)
    (fun _ _ h => (hf₁.trans hw₂.1).trans h.1) fun _ _ h => h.counted hc₂

/-- The callback stopped the run that returned `out`. -/
def CallbackStopped (callback : List Int32 → CallbackAnswer) (out : List τ) : Prop :=
  out ≠ [] ∧ callback (out.map Token.id) = .stop

instance (callback : List Int32 → CallbackAnswer) (out : List τ) :
    Decidable (CallbackStopped callback out) := by
  unfold CallbackStopped
  infer_instance

/-- The returned tokens that enter the history: all of them, unless the callback stopped the run
before the last one was decoded. -/
def decoded (callback : List Int32 → CallbackAnswer) (out : List τ) : List τ :=
  if CallbackStopped callback out then out.dropLast else out

theorem decodeLoop_follows (w₀ : World τ ρ I) (pre : List τ) (cfg : GenerationConfig)
    (callback : List Int32 → CallbackAnswer) (n : ℕ) (next : τ) (out : List τ)
    (hout : ¬CallbackStopped callback out) :
    Triple (Follows spec (pre ++ out) w₀) (decodeLoop spec env cfg callback n next out)
      (fun out' w => Follows spec (pre ++ decoded callback out') w₀ w)
      (fun _ w => Counted spec w) := by
  have hlog : ∀ (e : Event τ I) (ts : List τ), e.Quiet → Triple (Follows spec ts w₀)
      (Prog.modify (World.log e) : Run τ ρ I Unit) (fun _ => Follows spec ts w₀)
      (fun _ w => Counted spec w) := fun e ts he => Triple.modify fun w hw => by
    have h := hw.trans ((log_quietly he w).follows hw.counted)
    rwa [List.append_nil] at h
  have hleave : ∀ (reason : StopReason) (out : List τ),
      Triple (Follows spec (pre ++ decoded callback out) w₀) (leaveLoop reason out)
        (fun out' w => Follows spec (pre ++ decoded callback out') w₀ w)
        (fun _ w => Counted spec w) := fun reason out =>
    Triple.bind (hlog _ _ trivial) fun _ => Triple.pure fun _ h => h
  have hsame : decoded callback out = out := by rw [decoded, if_neg hout]
  induction n generalizing next out with
  | zero => exact (hleave _ out).pre fun w hw => by rwa [hsame]
  | succ n ih =>
    unfold decodeLoop
    refine Triple.ite (fun _ => (hleave _ out).pre fun w hw => by rwa [hsame]) fun _ =>
      Triple.bind (hlog _ _ trivial) fun _ => ?_
    cases hcb : callback ((out ++ [next]).map Token.id) with
    | stop =>
      have hstop : CallbackStopped callback (out ++ [next]) := ⟨by simp, hcb⟩
      refine (hleave _ _).pre fun w hw => ?_
      rwa [decoded, if_pos hstop, List.dropLast_concat]
    | throw => exact Triple.throw fun w hw => hw.counted
    | «continue» =>
      have hnot : ¬CallbackStopped callback (out ++ [next]) := by
        rintro ⟨-, hs⟩
        rw [hcb] at hs
        cases hs
      have hstep : Triple (Follows spec (pre ++ out) w₀) (decodeStep spec env cfg next)
          (fun _ => Follows spec (pre ++ (out ++ [next])) w₀) (fun _ w => Counted spec w) := by
        refine Triple.of_eq fun w₁ hw₁ => (decodeStep_follows w₁ hw₁.counted cfg next).post
          fun _ w hw => ?_
        rw [← List.append_assoc]
        exact hw₁.trans hw
      exact Triple.bind hstep fun _ => Triple.bind
        (Follows.quietly fun w₁ => sampleNextToken_quietly w₁ _ _) fun next' =>
          ih next' _ hnot (by rw [decoded, if_neg hnot])

theorem decodeStage_follows (w₀ : World τ ρ I) (prompt : List τ) (cfg : GenerationConfig)
    (callback : List Int32 → CallbackAnswer) (first : τ) :
    Triple (Follows spec prompt w₀) (decodeStage spec env cfg callback first)
      (fun out w => Follows spec (prompt ++ decoded callback out) w₀ w)
      (fun _ w => Counted spec w) := by
  have hloop : Triple (Follows spec (prompt ++ []) w₀)
      (decodeLoop spec env cfg callback cfg.maxTokens.toInt.toNat first [])
      (fun out w => Follows spec (prompt ++ decoded callback out) w₀ w)
      (fun _ w => Counted spec w) :=
    decodeLoop_follows w₀ prompt cfg callback _ first [] fun h => h.1 rfl
  refine Triple.bind (R := fun _ => Follows spec (prompt ++ []) w₀)
    (Triple.modify fun w hw => ?_) fun _ => ?_
  · rw [List.append_nil]
    have hc := hw.counted
    exact ⟨⟨hc.size, hc.le, hc.active, hc.fits, hc.entries⟩, hw.log⟩
  · refine Triple.bind (hloop.onThrow fun _ w hw => hw.log (by simp)) fun out => ?_
    · exact Triple.bind (Follows.quietly fun w₁ => waitPool_quietly w₁) fun _ =>
        Triple.bind (Follows.quietly fun w₁ => Quietly.stable fun w =>
          Quietly.of_eq [] rfl rfl rfl (by simp) rfl) fun _ => Triple.pure fun _ h => h

theorem generateBody_follows (w₀ : World τ ρ I) (hc : Counted spec w₀) (prompt : List τ)
    (cfg : GenerationConfig) (callback : List Int32 → CallbackAnswer) :
    Triple (fun w => w = w₀) (generateBody spec env prompt cfg callback)
      (fun out w => Follows spec (prompt ++ decoded callback out) w₀ w)
      (fun _ w => Counted spec w) :=
  Triple.bind (prefillStage_follows w₀ hc prompt cfg) fun first =>
    decodeStage_follows w₀ prompt cfg callback first

theorem generate_follows (w₀ : World τ ρ I) (hc : Counted spec w₀) (prompt : List τ)
    (cfg : GenerationConfig) (callback : List Int32 → CallbackAnswer) :
    Triple (fun w => w = w₀) (generate spec env prompt cfg callback)
      (fun out w => Follows spec (prompt ++ decoded callback out) w₀ w)
      (fun _ w => Counted spec w) := by
  refine Triple.bind (generateBody_follows w₀ hc prompt cfg callback) fun out => ?_
  have hlast : Triple (Follows spec (prompt ++ decoded callback out) w₀)
      (Prog.modify (restorePrefillStride spec) : Run τ ρ I Unit)
      (fun _ => Follows spec (prompt ++ decoded callback out) w₀) (fun _ w => Counted spec w) := by
    refine Triple.modify fun w hw => ?_
    have hquiet : Quietly spec w (restorePrefillStride spec w) :=
      (promoteCL_quietly _ _ _ w hw.counted.active).trans (restrideActive_quietly _ _ _ _)
    have := hw.trans (hquiet.follows hw.counted)
    rwa [List.append_nil] at this
  exact Triple.bind hlast fun _ => Triple.pure fun _ h => h

end Call

/-! ## Runs -/

section Runs

variable [Token τ]

theorem loaded_eq {v w : World τ ρ I} (hv : Counted spec v) :
    loaded spec v w = { w with
      nPast := v.nPast
      activeClIdx := v.activeClIdx
      tokenHistory := v.tokenHistory.map fun t => Token.ofId (Token.id t)
      kv := loadedKV spec v.kv w.kv
      produced := v.produced
      trace := .cleared w.pending.length :: (v.trace ++ w.trace) } := by
  have hn := hv.le
  have hmax := spec.maxCl_lt
  have ha := hv.active
  have hcl := spec.numCl_le
  have hsize := hv.size
  unfold loaded
  rw [loadKVCacheFromFile_save (by omega) (by omega) (by unfold maxHistory; omega)]

omit [Token τ] in
theorem initWorld_counted (providers : ρ) (kv : KVMem) (outs : ℕ → GraphOut)
    (hiddenIn : ℕ → ℕ → UInt8) :
    Counted spec (initWorld spec providers kv outs hiddenIn : World τ ρ I) :=
  ⟨rfl, Nat.zero_le _, spec.numCl_pos, Or.inl (Nat.zero_le _), fun _ _ _ _ hmem => nomatch hmem⟩

omit [Token τ] in
theorem Counted.reset {w : World τ ρ I} (h : Counted spec w) :
    Counted spec ((resetKVCache spec w).log (.cleared w.pending.length)) := by
  have hc : Counted spec (resetKVCache spec w) :=
    ⟨rfl, Nat.zero_le _, spec.numCl_pos, Or.inl (Nat.zero_le _), h.entries⟩
  exact hc.log (by simp)

theorem Counted.load {w v : World τ ρ I} (hw : Counted spec w) (hv : Counted spec v) :
    Counted spec (loaded spec v w) := by
  rw [loaded_eq hv]
  refine ⟨by simp [hv.size], hv.le, hv.active, hv.fits, fun n h k d hmem => ?_⟩
  rcases List.mem_append.mp (List.mem_of_ne_of_mem (by simp) hmem) with he | he
  · exact hv.entries n h k d he
  · exact hw.entries n h k d he

/-- The state that a call of `generate` ends in, whatever its result. -/
theorem generate_counted {w : World τ ρ I} (hc : Counted spec w) (prompt : List τ)
    (cfg : GenerationConfig) (callback : List Int32 → CallbackAnswer) :
    Counted spec (generate spec env prompt cfg callback w).2 :=
  (generate_follows w hc prompt cfg callback).snd (fun _ _ h => h.counted) (fun _ _ h => h) rfl

/-- In every state of a run between operations the history has `n_past` tokens. -/
theorem Reachable.counted {w : World τ ρ I} (h : Reachable spec env w) : Counted spec w := by
  induction h with
  | init env providers kv outs hiddenIn => exact initWorld_counted providers kv outs hiddenIn
  | @generate env w w' r prompt cfg callback _ hrun _ ih =>
    have : Counted spec (Geniex.generate spec env prompt cfg callback w).2 :=
      generate_counted ih prompt cfg callback
    rwa [hrun] at this
  | reset _ ih => exact ih.reset
  | load _ _ ihw ihv => exact ihw.load ihv
  | install providers _ ih => exact ⟨ih.size, ih.le, ih.active, ih.fits, ih.entries⟩
  | idle done _ _ ih => exact (settle_quietly spec done _).counted ih

/-- **History and position counter agree.** In every state between operations the history has
`n_past` tokens; so it has at every entry to an eviction, whose slice therefore lies within it. A
call that returns leaves the history at entry, the prompt and the returned tokens (less the last
one iff the callback stopped the run), with the evicted positions deleted where they were logged. -/
theorem tokenHistory_agrees {w : World τ ρ I} (h : Reachable spec env w) (prompt : List τ)
    (cfg : GenerationConfig) (callback : List Int32 → CallbackAnswer) :
    w.tokenHistory.length = w.nPast ∧
      (∀ n size nKeep nDiscard, Event.evictEntry n size nKeep nDiscard ∈
          (generate spec env prompt cfg callback w).2.trace →
        size = n ∧ nKeep + nDiscard ≤ size) ∧
      ∀ out w', generate spec env prompt cfg callback w = (.ok out, w') →
        ∃ es, w'.trace = es ++ w.trace ∧ w'.tokenHistory = replay w.tokenHistory es ∧
          appendedTokens es =
            prompt ++ if CallbackStopped callback out then out.dropLast else out := by
  refine ⟨h.counted.size, (generate_counted h.counted prompt cfg callback).entries, fun out w' hrun => ?_⟩
  exact ((generate_follows w h.counted prompt cfg callback).ok rfl hrun).log

/-- An instance of `tokenHistory_agrees`: the state after a call that decoded one token. -/
theorem tokenHistory_agrees_tiny :
    (tinyRun (tinySpec [4] 2 1) (tinyEnv 1 1) [0, 0] 1).2.tokenHistory.length =
      (tinyRun (tinySpec [4] 2 1) (tinyEnv 1 1) [0, 0] 1).2.nPast :=
  (tokenHistory_agrees (tinyRun_reachable (tinySpec [4] 2 1) (tinyEnv 1 1) [0, 0] 1 (by decide +kernel))
    [] (tinyCfg 0) fun _ => .continue).1

end Runs

end Geniex
