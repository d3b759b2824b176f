import Geniex.LLM.CallInvariant

/-!
# The passes of a call

Which tokens each execution of a call is given, and at which positions.

* `Ran S w₀ w`: `w` comes from `w₀` without an eviction, by executions with a context in `S`.
* `PlacedRows`: a judgement on the context of an execution that holds where the tokens stand where
  the call put them, and fails where an eviction has moved them.
* `generate_rows`: in a call, the judgement holds of an execution exactly if it is not a prefill
  after an eviction.
-/

namespace Geniex

open Prog

variable {τ ρ I : Type} {spec : LLMSpec} {env : Env τ ρ I}

/-! ## Executions with a given context -/

/-- The event is no eviction, and an execution reads what the providers `p` write for a context
in `S`. -/
def Event.Pass (spec : LLMSpec) (env : Env τ ρ I) (p : ρ) (S : RunContext τ → Prop) :
    Event τ I → Prop
  | .exec r => r.phase = r.ctx.phase ∧
      r.input.inputs = env.write p (spec.graphIndex r.phase r.shard r.clIdx) r.ctx ∧ S r.ctx
  | .evictEntry .. => False
  | _ => True

/-- `w` comes from `w₀` by executions with a context in `S`. -/
structure Ran (spec : LLMSpec) (env : Env τ ρ I) (S : RunContext τ → Prop) (w₀ w : World τ ρ I) :
    Prop where
  providers : w.providers = w₀.providers
  trace : ∃ es, (∀ e ∈ es, Event.Pass spec env w₀.providers S e) ∧ w.trace = es ++ w₀.trace

namespace Ran

variable {S : RunContext τ → Prop} {w₀ w₁ w : World τ ρ I}

theorem of_trace (es : List (Event τ I)) (hp : w.providers = w₀.providers)
    (ht : w.trace = es ++ w₀.trace) (hes : ∀ e ∈ es, Event.Pass spec env w₀.providers S e) :
    Ran spec env S w₀ w := ⟨hp, es, hes, ht⟩

theorem refl (w : World τ ρ I) : Ran spec env S w w := of_trace [] rfl rfl (by simp)

theorem trans (h₁ : Ran spec env S w₀ w₁) (h₂ : Ran spec env S w₁ w) : Ran spec env S w₀ w := by
  obtain ⟨es₁, hes₁, ht₁⟩ := h₁.trace
  obtain ⟨es₂, hes₂, ht₂⟩ := h₂.trace
  refine of_trace (es₂ ++ es₁) (h₂.providers.trans h₁.providers)
    (by rw [ht₂, ht₁, List.append_assoc]) fun e he => ?_
  rcases List.mem_append.mp he with he | he
  · have := hes₂ e he
    rwa [h₁.providers] at this
  · exact hes₁ e he

theorem stable {g : World τ ρ I → World τ ρ I} (h : ∀ w, Ran spec env S w (g w)) :
    Stable (Ran spec env S w₀) (Prog.modify g : Run τ ρ I Unit) :=
  Stable.modify fun w hw => hw.trans (h w)

end Ran

variable {S : RunContext τ → Prop}

theorem log_ran {e : Event τ I} (w : World τ ρ I) (he : Event.Pass spec env w.providers S e) :
    Ran spec env S w (w.log e) :=
  Ran.of_trace [e] rfl rfl (by simpa using he)

theorem updateKV_ran (s : ℕ) (phase : Phase) (off n : ℕ) (w : World τ ρ I) :
    Ran spec env S w (updateKV spec s phase off n w) := by
  unfold updateKV
  split_ifs
  · exact Ran.refl w
  · exact Ran.of_trace [.kvWrite ⟨phase, s, w.activeClIdx, off, n⟩] rfl rfl
      (by simp [Event.Pass])

theorem runJobs_ran (jobs : List KVJob) (w : World τ ρ I) :
    Ran spec env S w (runJobs spec jobs w) := by
  unfold runJobs
  induction jobs generalizing w with
  | nil => exact Ran.refl w
  | cons j jobs ih => exact (updateKV_ran _ _ _ _ w).trans (ih _)

theorem settle_ran (done : KVJob → Bool) (w : World τ ρ I) :
    Ran spec env S w (settle spec done w) := by
  have h : Ran spec env S w (runJobs spec (w.pending.filter done) w) := runJobs_ran _ w
  exact ⟨h.providers, h.trace⟩

theorem background_ran (w : World τ ρ I) : Ran spec env S w (background spec env w) := by
  unfold background
  split_ifs
  · exact Ran.refl w
  · exact settle_ran _ w

theorem promoteCL_ran (required capacity stride : ℕ) (w : World τ ρ I) :
    Ran spec env S w (promoteCL spec required capacity stride w) := by
  unfold promoteCL
  dsimp only
  split_ifs <;> exact Ran.of_trace [] rfl rfl (by simp)

theorem waitPool_ran (w₀ : World τ ρ I) : Stable (Ran spec env S w₀) (waitPool spec env) :=
  Stable.get fun _ => Stable.ite (fun _ => Stable.pure ()) fun _ =>
    Stable.ite (fun _ => Stable.throw _) fun _ => Ran.stable (settle_ran _)

theorem writeBack_ran (s off : ℕ) (w : World τ ρ I) :
    Ran spec env S w (writeBack spec env s off w) := by
  unfold writeBack
  split_ifs
  · exact Ran.of_trace [] rfl rfl (by simp)
  · exact updateKV_ran _ _ _ _ w

theorem restrideActive_ran (old new : Phase) (n : ℕ) (w : World τ ρ I) :
    Ran spec env S w (restrideActive spec old new n w) := Ran.of_trace [] rfl rfl (by simp)

theorem applyConnection_ran (phase : Phase) (s clIdx : ℕ) (w : World τ ρ I) :
    Ran spec env S w (applyConnection spec phase s clIdx w) := Ran.of_trace [] rfl rfl (by simp)

theorem feedSampler_ran (calls : List (SamplerCall τ)) (w : World τ ρ I) :
    Ran spec env S w (feedSampler calls w) := by
  refine Ran.of_trace (calls.map Event.sampler).reverse rfl rfl fun e he => ?_
  obtain ⟨c, -, rfl⟩ := List.mem_map.mp (List.mem_reverse.mp he)
  trivial

theorem prepareSampler_ran (cfg : GenerationConfig) (prompt : List τ) (w : World τ ρ I) :
    Ran spec env S w (prepareSampler cfg prompt w) := by
  have hbuild : Ran spec env S w (buildSampler cfg w) := by
    unfold buildSampler
    split_ifs
    · exact Ran.refl w
    · exact Ran.of_trace [] rfl rfl (by simp)
  unfold prepareSampler
  split_ifs
  · exact Ran.of_trace [] rfl rfl (by simp)
  · exact hbuild
  · exact hbuild.trans (feedSampler_ran _ _)

theorem sampleNextToken_ran [Token τ] (w₀ : World τ ρ I) (phase : Phase) (off : ℕ) :
    Stable (Ran spec env S w₀) (sampleNextToken spec env phase off) := by
  refine Stable.get fun w => ?_
  cases w.sampler with
  | none => exact Stable.bind (Ran.stable fun w => log_ran w trivial) fun _ => Stable.pure _
  | some s =>
    exact Stable.bind (Ran.stable (feedSampler_ran _)) fun _ =>
      Stable.bind (Ran.stable fun w => log_ran w trivial) fun _ => Stable.pure _

/-! ## Forward passes -/

/-- One execution reads what the providers write for its context. -/
theorem runShard_ran {ctx : RunContext τ} (hS : S ctx) (w₀ : World τ ρ I) (shard clIdx : ℕ) :
    Stable (Ran spec env S w₀) (runShard spec env shard ctx.phase clIdx ctx) := by
  refine Stable.bind (Ran.stable background_ran) fun _ => Triple.get fun w₁ hw₁ => ?_
  rintro w rfl
  have hlog : Ran spec env S w (w.log (.exec ⟨ctx.phase, shard, clIdx, ctx,
      execInput spec env shard ctx.phase clIdx ctx w, w.produced⟩)) := log_ran w ⟨rfl, rfl, hS⟩
  have hnext := hw₁.trans hlog
  unfold execGraph
  dsimp only
  cases env.exec w.tick _ _ with
  | none => exact ⟨hnext.providers, hnext.trace⟩
  | some out => exact ⟨hnext.providers, hnext.trace⟩

theorem prefillShard_ran (isFinal : Bool) (clIdx : ℕ) {chunk : List τ} {n : ℕ}
    (hS : S ⟨chunk, n, chunk.length, .prefill⟩) (w₀ : World τ ρ I) (s : ℕ) :
    Stable (Ran spec env S w₀)
      (prefillShard spec env isFinal clIdx ⟨chunk, n, chunk.length, .prefill⟩ s) :=
  Stable.when fun _ => Stable.bind (runShard_ran hS w₀ s clIdx) fun _ =>
    Stable.bind (Ran.stable (updateKV_ran _ _ _ _)) fun _ =>
      Stable.when fun _ => Ran.stable (applyConnection_ran _ _ _)

theorem prefillChunk_ran (isFinal : Bool) (chunk : List τ) (w₀ : World τ ρ I)
    (hS : S ⟨chunk, w₀.nPast, chunk.length, .prefill⟩) :
    Triple (fun w => w = w₀) (prefillChunk spec env isFinal chunk)
      (fun _ => Ran spec env S w₀) (fun _ => Ran spec env S w₀) := by
  refine Triple.get fun w₁ hw₁ => ?_
  subst hw₁
  refine Triple.bind (R := fun _ => Ran spec env S w₁)
    (Triple.modify fun w hw => hw ▸ log_ran w trivial) fun _ => ?_
  refine Stable.bind (Ran.stable (promoteCL_ran _ _ _)) fun _ => Stable.get fun w₂ => ?_
  exact Stable.bind (Stable.forRange (fun s => prefillShard_ran isFinal w₂.activeClIdx hS w₁ s) _)
    fun _ => Ran.stable fun w => Ran.of_trace [] rfl rfl (by simp)

/-- A prefill whose tokens satisfy `X` at their positions runs chunks whose tokens do. -/
theorem prefillLoop_ran {X : ℕ → τ → Prop}
    (hS : ∀ chunk n, chunk ≠ [] → (∀ j t, chunk[j]? = some t → X (n + j) t) →
      S ⟨chunk, n, chunk.length, .prefill⟩) (fuel : ℕ) (tokens : List τ) (last : ℕ)
    (w₀ : World τ ρ I) (ha : w₀.activeClIdx < spec.numCl)
    (hX : ∀ j t, tokens[j]? = some t → X (w₀.nPast + j) t) :
    Triple (fun w => w = w₀) (prefillLoop spec env fuel tokens last)
      (fun _ => Ran spec env S w₀) (fun _ => Ran spec env S w₀) := by
  induction fuel generalizing tokens last w₀ with
  | zero => exact Triple.pure fun w hw => hw ▸ Ran.refl w
  | succ fuel ih =>
    refine Triple.ite (fun _ => Triple.pure fun w hw => hw ▸ Ran.refl w) fun hne => ?_
    have hpos : 0 < spec.seqLenPrefill := spec.seqLen_pos .prefill
    have hlen : 0 < tokens.length := List.length_pos_of_ne_nil hne
    have hchunk : S ⟨tokens.take spec.seqLenPrefill, w₀.nPast,
        (tokens.take spec.seqLenPrefill).length, .prefill⟩ := by
      refine hS _ _ (List.ne_nil_of_length_pos (by rw [List.length_take]; omega)) fun j t ht => ?_
      rw [List.getElem?_take] at ht
      split_ifs at ht
      exact hX j t ht
    have hboth : Triple (fun w => w = w₀ ∧ w = w₀) (prefillChunk spec env _ _)
        (fun _ w => Ran spec env S w₀ w ∧ Appended spec _ w₀ w)
        (fun _ w => Ran spec env S w₀ w ∧ Quietly spec w₀ w) :=
      (prefillChunk_ran (tokens.length ≤ spec.seqLenPrefill) _ w₀ hchunk).and
        (prefillChunk_appended w₀ ha _ _)
    refine Triple.bind (hboth.conseq (fun _ h => ⟨h, h⟩) (fun _ _ h => h) fun _ _ h => h.1)
      fun _ => Triple.of_eq fun w₁ hw₁ => ?_
    refine (ih (tokens.drop spec.seqLenPrefill) _ w₁ (hw₁.2.active ha).2 fun j t ht => ?_).conseq
      (fun _ h => h) (fun _ _ h => hw₁.1.trans h) fun _ _ h => hw₁.1.trans h
    -- tokens are left only after a full chunk
    rw [List.getElem?_drop] at ht
    have hlt := (List.getElem?_eq_some_iff.mp ht).1
    have := hX _ t ht
    rwa [hw₁.2.nPast, List.length_take, min_eq_left (by omega), Nat.add_assoc]

theorem decodeForward_ran (tok : τ) (w₀ : World τ ρ I) (hS : S ⟨[tok], w₀.nPast, 1, .decode⟩) :
    Triple (fun w => w = w₀) (decodeForward spec env tok)
      (fun _ => Ran spec env S w₀) (fun _ => Ran spec env S w₀) := by
  refine Triple.get fun w₁ hw₁ => ?_
  subst hw₁
  refine Triple.bind (R := fun _ => Ran spec env S w₁)
    (Triple.modify fun w hw => hw ▸ log_ran w trivial) fun _ => ?_
  refine Stable.bind (Ran.stable (promoteCL_ran _ _ _)) fun _ => Stable.get fun w₂ => ?_
  refine Stable.bind (Stable.forRange (fun s => ?_) _) fun _ =>
    Ran.stable fun w => Ran.of_trace [.appended [tok]] rfl rfl (by simp [Event.Pass])
  exact Stable.bind (runShard_ran hS w₁ s _) fun _ => Stable.bind (Ran.stable (writeBack_ran _ _))
    fun _ => Stable.when fun _ => Ran.stable (applyConnection_ran _ _ _)

/-- A call keeps the providers. -/
theorem providersKept (p : ρ) : CallInvariant spec env fun w : World τ ρ I => w.providers = p where
  plain _ _ _ _ hp _ hw := hp.trans hw
  log _ _ _ hw := hw
  wait := Triple.of_eq fun w₁ hw₁ => (waitPool_ran (S := fun _ => True) w₁).conseq
    (fun w hw => by subst hw; exact Ran.refl w) (fun _ _ hw => hw.providers.trans hw₁)
    fun _ _ hw => hw.providers.trans hw₁
  promote required capacity stride w hw :=
    (promoteCL_ran (S := fun _ => True) required capacity stride w :
      Ran spec env _ w _).providers.trans hw
  chunk isFinal chunk := Triple.of_eq fun w₁ hw₁ =>
    (prefillChunk_ran (S := fun _ => True) isFinal chunk w₁ trivial).conseq (fun _ hw => hw)
      (fun _ _ hw => hw.providers.trans hw₁) fun _ _ hw => hw.providers.trans hw₁
  forward tok := Triple.of_eq fun w₁ hw₁ =>
    (decodeForward_ran (S := fun _ => True) tok w₁ trivial).conseq (fun _ hw => hw)
      (fun _ _ hw => hw.providers.trans hw₁) fun _ _ hw => hw.providers.trans hw₁

variable (spec env) in
theorem generate_providers [Token τ] (prompt : List τ) (cfg : GenerationConfig)
    (callback : List Int32 → CallbackAnswer) (w : World τ ρ I) :
    (generate spec env prompt cfg callback w).2.providers = w.providers :=
  ((providersKept w.providers).generate prompt cfg callback).snd rfl

/-! ## Rows in their place -/

/-- Whether an eviction has been entered. -/
def Evicts (es : List (Event τ I)) : Prop := ∃ n h k d, Event.evictEntry n h k d ∈ es

/-- Each execution reads what the providers `p` write for its context, and `right` holds of the
context exactly if it is not a prefill after an eviction. Newest first. -/
def RowsLog (spec : LLMSpec) (env : Env τ ρ I) (p : ρ) (right : RunContext τ → Prop) :
    List (Event τ I) → Prop
  | [] => True
  | e :: es => (∀ r, e = .exec r →
      r.input.inputs = env.write p (spec.graphIndex r.phase r.shard r.clIdx) r.ctx ∧
        (right r.ctx ↔ ¬(r.phase = .prefill ∧ Evicts es))) ∧ RowsLog spec env p right es

/-- An execution in the prefill phase comes after an eviction. -/
def PrefillsAfterEvict (es : List (Event τ I)) : Prop :=
  ∃ es₁ r es₂, es = es₁ ++ .exec r :: es₂ ∧ r.phase = .prefill ∧ Evicts es₂

theorem RowsLog.right_iff {p : ρ} {right : RunContext τ → Prop} {es : List (Event τ I)}
    (h : RowsLog spec env p right es) :
    (∀ r, Event.exec r ∈ es → right r.ctx) ↔ ¬PrefillsAfterEvict es := by
  induction es with
  | nil =>
    refine ⟨?_, by simp⟩
    rintro - ⟨es₁, r, es₂, heq, -⟩
    exact absurd heq (by simp)
  | cons e es ih =>
    obtain ⟨he, hes⟩ := h
    constructor
    · rintro hall ⟨es₁, r, es₂, heq, hphase, hev⟩
      cases es₁ with
      | nil =>
        obtain ⟨rfl, rfl⟩ := List.cons_eq_cons.mp heq
        exact ((he r rfl).2.mp (hall r List.mem_cons_self)) ⟨hphase, hev⟩
      | cons e' es₁ =>
        obtain ⟨rfl, rfl⟩ := List.cons_eq_cons.mp heq
        exact (ih hes).mp (fun r hr => hall r (List.mem_cons_of_mem _ hr))
          ⟨es₁, r, es₂, rfl, hphase, hev⟩
    · intro hno r hr
      rcases List.mem_cons.mp hr with rfl | hr
      · exact (he r rfl).2.mpr fun h => hno ⟨[], r, es, rfl, h⟩
      · refine (ih hes).mpr (fun h => hno ?_) r hr
        obtain ⟨es₁, r', es₂, rfl, h⟩ := h
        exact ⟨e :: es₁, r', es₂, rfl, h⟩

theorem RowsLog.inputs {p : ρ} {right : RunContext τ → Prop} {es : List (Event τ I)}
    (h : RowsLog spec env p right es) {r : ExecRecord τ I} (hr : Event.exec r ∈ es) :
    r.input.inputs = env.write p (spec.graphIndex r.phase r.shard r.clIdx) r.ctx := by
  induction es with
  | nil => cases hr
  | cons e es ih =>
    rcases List.mem_cons.mp hr with rfl | hr
    · exact (h.1 r rfl).1
    · exact ih h.2 hr

theorem evicts_append {p : ρ} {es es' : List (Event τ I)}
    (hes : ∀ e ∈ es', Event.Pass spec env p S e) : Evicts (es' ++ es) ↔ Evicts es := by
  constructor
  · rintro ⟨n, h, k, d, hmem⟩
    exact ⟨n, h, k, d, (List.mem_append.mp hmem).resolve_left fun hm => hes _ hm⟩
  · rintro ⟨n, h, k, d, hmem⟩
    exact ⟨n, h, k, d, List.mem_append_right _ hmem⟩

/-- Executions on which the judgement is as it should be extend a log. -/
theorem RowsLog.append {p : ρ} {right : RunContext τ → Prop} {es es' : List (Event τ I)}
    (h : RowsLog spec env p right es) (hes : ∀ e ∈ es', Event.Pass spec env p S e)
    (hS : ∀ ctx, S ctx → (right ctx ↔ ¬(ctx.phase = .prefill ∧ Evicts es))) :
    RowsLog spec env p right (es' ++ es) := by
  induction es' with
  | nil => exact h
  | cons e es' ih =>
    have hrest : ∀ e ∈ es', Event.Pass spec env p S e := fun e he => hes e (List.mem_cons_of_mem _ he)
    refine ⟨fun r hr => ?_, ih hrest⟩
    subst hr
    obtain ⟨hphase, hin, hctx⟩ := hes _ List.mem_cons_self
    refine ⟨hin, ?_⟩
    rw [hphase]
    exact (hS _ hctx).trans (not_congr (and_congr_right fun _ => (evicts_append hrest).symm))

/-! ## A call -/

/-- A judgement on the context of an execution in a call that starts at position `o` with a prompt of
`L` tokens, whose tokens know their index in the prompt (`origin`). -/
structure PlacedRows (spec : LLMSpec) (origin : τ → Option ℕ) (o L : ℕ)
    (right : RunContext τ → Prop) : Prop where
  /-- A decoded token is no token of the prompt. -/
  decode : ∀ tok n, origin tok = none → right ⟨[tok], n, 1, .decode⟩
  /-- A chunk of the prompt in its place. -/
  own : ∀ chunk n, chunk ≠ [] → o + L ≤ spec.maxCl →
    (∀ j t, chunk[j]? = some t → o ≤ n + j ∧ n + j < o + L ∧ origin t = some (n + j - o)) →
    right ⟨chunk, n, chunk.length, .prefill⟩
  /-- A chunk of tokens that stand before their place in the prompt, or have none. -/
  moved : ∀ chunk n, chunk ≠ [] → o ≤ spec.maxCl →
    (∀ j t, chunk[j]? = some t → ∀ i, origin t = some i → n + j < o + i ∧ i < spec.maxCl) →
    ¬right ⟨chunk, n, chunk.length, .prefill⟩

/-- Where the token at position `n` of the history stands, before and after an eviction that keeps
`k` tokens. -/
def Placed (spec : LLMSpec) (origin : τ → Option ℕ) (o k : ℕ) (evicted : Bool) (n : ℕ) (t : τ) :
    Prop :=
  match evicted with
  | false => ∀ i, origin t = some i → o + i = n
  | true => k ≤ n → ∀ i, origin t = some i → n < o + i ∧ i < spec.maxCl

/-- The log of a call that started in `w₀`. -/
def CallLog (spec : LLMSpec) (env : Env τ ρ I) (right : RunContext τ → Prop)
    (w₀ w : World τ ρ I) : Prop :=
  ∃ es, w.trace = es ++ w₀.trace ∧ RowsLog spec env w₀.providers right es

/-- A state in a call that started in `w₀`. -/
structure InCall (spec : LLMSpec) (env : Env τ ρ I) (right : RunContext τ → Prop)
    (origin : τ → Option ℕ) (k : ℕ) (w₀ : World τ ρ I) (evicted : Bool) (w : World τ ρ I) :
    Prop where
  counted : Counted spec w
  start : w₀.nPast ≤ spec.maxCl
  providers : w.providers = w₀.providers
  log : ∃ es, w.trace = es ++ w₀.trace ∧ RowsLog spec env w₀.providers right es ∧
    (Evicts es ↔ evicted = true)
  placed : ∀ n t, w.tokenHistory[n]? = some t → Placed spec origin w₀.nPast k evicted n t

variable {right : RunContext τ → Prop} {origin : τ → Option ℕ} {k L : ℕ} {evicted : Bool}
  {w₀ w₁ w : World τ ρ I}

namespace InCall

theorem callLog (h : InCall spec env right origin k w₀ evicted w) :
    CallLog spec env right w₀ w := by
  obtain ⟨es, ht, hrows, -⟩ := h.log
  exact ⟨es, ht, hrows⟩

/-- Executions on which the judgement is as it should be extend the log. -/
theorem ranLog (h : InCall spec env right origin k w₀ evicted w₁) (hr : Ran spec env S w₁ w)
    (hS : ∀ ctx, S ctx → (right ctx ↔ ¬(ctx.phase = .prefill ∧ evicted = true))) :
    ∃ es, w.trace = es ++ w₀.trace ∧ RowsLog spec env w₀.providers right es ∧
      (Evicts es ↔ evicted = true) := by
  obtain ⟨es, ht, hrows, hev⟩ := h.log
  obtain ⟨es', hes', ht'⟩ := hr.trace
  rw [h.providers] at hes'
  refine ⟨es' ++ es, by rw [ht', ht, List.append_assoc],
    hrows.append hes' fun ctx hctx => ?_, (evicts_append hes').trans hev⟩
  rw [hS ctx hctx, hev]

/-- Tokens that stand where they should extend the history. -/
theorem append (h : InCall spec env right origin k w₀ evicted w₁) (ts : List τ)
    (hc : Counted spec w) (hh : w.tokenHistory = w₁.tokenHistory ++ ts)
    (hr : Ran spec env S w₁ w)
    (hS : ∀ ctx, S ctx → (right ctx ↔ ¬(ctx.phase = .prefill ∧ evicted = true)))
    (hts : ∀ j t, ts[j]? = some t → Placed spec origin w₀.nPast k evicted (w₁.nPast + j) t) :
    InCall spec env right origin k w₀ evicted w := by
  refine ⟨hc, h.start, hr.providers.trans h.providers, h.ranLog hr hS, fun n t hn => ?_⟩
  rw [hh] at hn
  have hsize := h.counted.size
  rcases lt_or_ge n w₁.tokenHistory.length with hlt | hge
  · rw [List.getElem?_append_left hlt] at hn
    exact h.placed n t hn
  · rw [List.getElem?_append_right hge] at hn
    have := hts _ t hn
    rwa [show w₁.nPast + (n - w₁.tokenHistory.length) = n by omega] at this

/-- The log of anything but an execution or an eviction. -/
theorem logs (h : InCall spec env right origin k w₀ evicted w₁) {e : Event τ I}
    (he : ∀ p, Event.Pass spec env p (fun _ => False) e) :
    InCall spec env right origin k w₀ evicted (w₁.log e) := by
  refine h.append [] (h.counted.log fun n m k d heq => ?_) (List.append_nil _).symm
    (log_ran w₁ (he _)) (fun _ hf => hf.elim) (by simp)
  subst heq
  exact he w₁.providers

/-- Quiet work without executions. -/
theorem quiet {α : Type} {x : Run τ ρ I α} (hq : ∀ w₁, Stable (Quietly spec w₁) x)
    (hr : ∀ w₁, Stable (Ran spec env (fun _ => False) w₁) x) :
    Triple (InCall spec env right origin k w₀ evicted) x
      (fun _ => InCall spec env right origin k w₀ evicted) (fun _ => CallLog spec env right w₀) := by
  refine Triple.of_eq fun w₁ hw₁ => ((hq w₁).and (hr w₁)).conseq
    (fun w hw => by subst hw; exact ⟨Quietly.refl w, Ran.refl w⟩) (fun _ w hw => ?_) fun _ w hw => ?_
  · refine hw₁.append [] (hw.1.counted hw₁.counted) ?_ hw.2 (fun _ h => h.elim) ?_
    · rw [hw.1.tokenHistory, List.append_nil]
    · simp
  · obtain ⟨es, ht, hrows, -⟩ := hw₁.ranLog hw.2 fun _ h => h.elim
    exact ⟨es, ht, hrows⟩

end InCall

section Call

variable [Token τ] {cfg : GenerationConfig}

/-- An eviction: every chunk of the re-prefill stands before its place. -/
theorem slideWindowEvict_placed (rule : PlacedRows spec origin w₀.nPast L right) {d : ℕ}
    (hd : d ≠ 0) (w₁ : World τ ρ I) (h : InCall spec env right origin k w₀ evicted w₁)
    (hkd : k + d ≤ w₁.nPast) (atDecodeStride : Bool) :
    Triple (fun w => w = w₁) (slideWindowEvict spec env d k atDecodeStride)
      (fun _ w => InCall spec env right origin k w₀ true w ∧ w.nPast < w₁.nPast)
      (fun _ => CallLog spec env right w₀) := by
  have hsize := h.counted.size
  have hmax := h.counted.le
  -- where the tokens of the tail stood, and where they stand
  have hearly : ∀ n t, w₁.tokenHistory[n + d]? = some t → k ≤ n →
      ∀ i, origin t = some i → n < w₀.nPast + i ∧ i < spec.maxCl := by
    intro n t hn hk i hi
    have hlt := (List.getElem?_eq_some_iff.mp hn).1
    have hp := h.placed _ t hn
    cases evicted with
    | false =>
      have := hp i hi
      omega
    | true =>
      have := hp (by omega) i hi
      omega
  set S : RunContext τ → Prop := fun ctx => ctx.phase = .prefill ∧ ¬right ctx with hSdef
  have hS : ∀ ctx, S ctx → (right ctx ↔ ¬(ctx.phase = .prefill ∧ (true = true))) := by
    rintro ctx ⟨hphase, hwrong⟩
    simp [hphase, hwrong]
  set ev : Event τ I := .evictEntry w₁.nPast w₁.tokenHistory.length k d with hev
  have hran : Triple (fun w => w = w₁) (slideWindowEvict spec env d k atDecodeStride)
      (fun _ => Ran spec env S (w₁.log ev)) (fun _ => Ran spec env S (w₁.log ev)) := by
    refine Triple.when (fun _ => Triple.get fun w₂ hw₂ => ?_) fun hz => absurd hd hz
    subst hw₂
    refine Triple.bind (R := fun _ w => Ran spec env S (w₂.log ev) w ∧ w.activeClIdx < spec.numCl)
      (Triple.modify fun w hw => by subst hw; exact ⟨Ran.refl _, h.counted.active⟩) fun _ => ?_
    refine Triple.bind (R := fun _ w => Ran spec env S (w₂.log ev) w ∧ w.activeClIdx < spec.numCl)
      (Triple.when (fun _ => Triple.modify fun w hw =>
        ⟨hw.1.trans (restrideActive_ran _ _ _ w), hw.2⟩) fun _ _ hw => hw) fun _ => ?_
    refine Triple.bind (R := fun _ w => Ran spec env S (w₂.log ev) w ∧
        w.activeClIdx < spec.numCl ∧ w.nPast = k)
      (Triple.modify fun w hw => ⟨⟨hw.1.providers, hw.1.trace⟩, hw.2, rfl⟩) fun _ => ?_
    refine Triple.bind (R := fun _ => Ran spec env S (w₂.log ev)) (Triple.of_eq fun w₃ hw₃ => ?_)
      fun _ => Stable.bind (Stable.when fun _ => Ran.stable fun w => restrideActive_ran _ _ _ w)
        fun _ => Ran.stable fun w => log_ran w trivial
    refine (prefillLoop_ran (X := fun n t => ∀ i, origin t = some i →
        n < w₀.nPast + i ∧ i < spec.maxCl) (fun chunk n hne hX => ?_) _ _ _ w₃ hw₃.2.1
      fun j t ht => ?_).conseq (fun _ h => h) (fun _ _ hw => hw₃.1.trans hw)
        fun _ _ hw => hw₃.1.trans hw
    · exact ⟨rfl, rule.moved chunk n hne h.start hX⟩
    · rw [List.getElem?_take] at ht
      split_ifs at ht
      rw [List.getElem?_drop] at ht
      rw [hw₃.2.2]
      exact hearly (k + j) t (by rwa [show k + j + d = k + d + j by omega]) (by omega)
  refine ((slideWindowEvict_follows w₁ h.counted hkd atDecodeStride).and hran).conseq
    (fun _ h => ⟨h, h⟩) (fun _ w hw => ?_) fun _ w hw => ?_
  all_goals
    obtain ⟨es, ht, hrows, -⟩ := h.log
    obtain ⟨es', hes', ht'⟩ := hw.2.trace
    rw [show (w₁.log ev).providers = w₀.providers from h.providers] at hes'
    have hlog : RowsLog spec env w₀.providers right (ev :: es) := ⟨fun r hr => by simp [hev] at hr, hrows⟩
    have hevicts : Evicts (ev :: es) := ⟨_, _, _, _, List.mem_cons_self⟩
    have hlog' := hlog.append hes' fun ctx hctx => by rw [hS ctx hctx]; simp [hevicts]
    have htrace : w.trace = (es' ++ ev :: es) ++ w₀.trace := by
      rw [ht', World.log_trace, ht, List.append_assoc, List.cons_append]
  · obtain ⟨⟨hf, hh⟩, hr⟩ := hw
    refine ⟨⟨hf.counted, h.start, hr.providers.trans h.providers,
      ⟨_, htrace, hlog', by simpa using (evicts_append hes').mpr hevicts⟩, fun n t hn hk => ?_⟩, ?_⟩
    · rw [hh, List.getElem?_append_right (by rw [List.length_take]; omega), List.length_take,
        List.getElem?_drop] at hn
      exact hearly n t (by rwa [show k + d + (n - min k w₁.tokenHistory.length) = n + d by omega] at hn) hk
    · have hlen := hf.counted.size
      rw [hh, List.length_append, List.length_take, List.length_drop] at hlen
      omega
  · exact ⟨_, htrace, hlog'⟩

/-- Making room: nothing happens, or an eviction moves the tokens after the first `n_keep`. -/
theorem ensureRoom_placed (rule : PlacedRows spec origin w₀.nPast L right) (nFit : ℕ)
    (atDecodeStride : Bool) (msg : String) (w₁ : World τ ρ I)
    (h : InCall spec env right origin (nKeepOf spec cfg) w₀ evicted w₁) :
    Triple (fun w => w = w₁) (ensureRoom spec env cfg nFit atDecodeStride msg)
      (fun _ w => w.nPast + nFit ≤ spec.maxCl ∧ ∃ e,
        InCall spec env right origin (nKeepOf spec cfg) w₀ e w ∧
        ((e = evicted ∧ w.nPast = w₁.nPast) ∨ (e = true ∧ w.nPast < w₁.nPast)))
      (fun _ => CallLog spec env right w₀) := by
  refine Triple.get fun w₂ hw₂ => ?_
  subst hw₂
  refine Triple.when (fun _ => ?_) fun hroom w hw => ?_
  · refine Triple.bind (R := fun _ w => ∃ e,
      InCall spec env right origin (nKeepOf spec cfg) w₀ e w ∧
        ((e = evicted ∧ w.nPast = w₂.nPast) ∨ (e = true ∧ w.nPast < w₂.nPast)))
      (Triple.get fun w₃ hw₃ => ?_) fun _ => Triple.get fun w₃ hw₃ => ?_
    · subst hw₃
      have := computeSlideDiscard_le w₃.nPast nFit spec.maxCl (nKeepOf spec cfg)
      refine Triple.when (fun hc => ?_) fun _ w hw => ⟨evicted, hw ▸ h, Or.inl ⟨rfl, by rw [hw]⟩⟩
      exact (slideWindowEvict_placed rule hc.2.1 w₃ h (by omega) atDecodeStride).post
        fun _ w hw => ⟨true, hw.1, Or.inr ⟨rfl, hw.2⟩⟩
    · obtain ⟨e, hin, hcase⟩ := hw₃
      refine Triple.when (fun _ => Triple.throw fun w hw => hw ▸ hin.callLog) fun hroom w hw => ?_
      subst hw
      exact ⟨by omega, e, hin, hcase⟩
  · subst hw
    exact ⟨by omega, evicted, h, Or.inl ⟨rfl, rfl⟩⟩

/-- What the sampler draws is no token of the prompt. -/
theorem sampleNextToken_placed (hsampled : ∀ x, origin (Token.ofId x) = none) (phase : Phase)
    (off : ℕ) :
    Triple (InCall spec env right origin k w₀ evicted) (sampleNextToken spec env phase off)
      (fun tok w => origin tok = none ∧ InCall spec env right origin k w₀ evicted w)
      (fun _ => CallLog spec env right w₀) := by
  have hdrawn : Triple (fun _ => True) (sampleNextToken spec env phase off : Run τ ρ I τ)
      (fun tok _ => origin tok = none) (fun _ _ => True) := by
    refine Triple.get fun w _ => ?_
    cases w.sampler with
    | none =>
      exact Triple.bind (R := fun _ _ => True) (Triple.modify fun _ _ => trivial) fun _ =>
        Triple.pure fun _ _ => hsampled _
    | some s =>
      exact Triple.bind (R := fun _ _ => True) (Triple.modify fun _ _ => trivial) fun _ =>
        Triple.bind (R := fun _ _ => True) (Triple.modify fun _ _ => trivial) fun _ =>
          Triple.pure fun _ _ => hsampled _
  exact (hdrawn.and (InCall.quiet (fun w₁ => sampleNextToken_quietly w₁ _ _)
    fun w₁ => sampleNextToken_ran w₁ _ _)).conseq (fun _ h => ⟨trivial, h⟩) (fun _ _ h => h)
      fun _ _ h => h.2

omit [Token τ] in
/-- The prefill of the prompt: in its place, or before it if an eviction has made room. -/
theorem prefillChunks_placed {prompt : List τ}
    (rule : PlacedRows spec origin w₀.nPast prompt.length right)
    (hprompt : ∀ j t, prompt[j]? = some t → origin t = some j) (w₁ : World τ ρ I)
    (h : InCall spec env right origin k w₀ evicted w₁)
    (hroom : w₁.nPast + prompt.length ≤ spec.maxCl)
    (hplace : (evicted = false ∧ w₁.nPast = w₀.nPast) ∨
      (evicted = true ∧ w₁.nPast < w₀.nPast)) :
    Triple (fun w => w = w₁) (prefillChunks spec env prompt)
      (fun _ => InCall spec env right origin k w₀ evicted) (fun _ => CallLog spec env right w₀) := by
  have hlt : ∀ j t, prompt[j]? = some t → j < prompt.length := fun j t ht =>
    (List.getElem?_eq_some_iff.mp ht).1
  set S : RunContext τ → Prop := fun ctx => ctx.phase = .prefill ∧ (right ctx ↔ evicted = false)
    with hSdef
  have hS : ∀ ctx, S ctx → (right ctx ↔ ¬(ctx.phase = .prefill ∧ evicted = true)) := by
    rintro ctx ⟨hphase, hright⟩
    rw [hright]
    simp [hphase]
  have hran : Triple (fun w => w = w₁) (prefillChunks spec env prompt)
      (fun _ => Ran spec env S w₁) (fun _ => Ran spec env S w₁) := by
    rcases hplace with ⟨rfl, hn⟩ | ⟨rfl, hn⟩
    · refine prefillLoop_ran (X := fun n t => w₀.nPast ≤ n ∧ n < w₀.nPast + prompt.length ∧
        origin t = some (n - w₀.nPast)) (fun chunk n hne hX => ⟨rfl, ?_⟩) _ _ _ w₁
        h.counted.active fun j t ht => ?_
      · have := hlt j t ht
        rw [hn, Nat.add_sub_cancel_left]
        exact ⟨by omega, by omega, hprompt j t ht⟩
      · exact iff_of_true (rule.own chunk n hne (by omega) hX) rfl
    · refine prefillLoop_ran (X := fun n t => ∀ i, origin t = some i →
        n < w₀.nPast + i ∧ i < spec.maxCl) (fun chunk n hne hX => ⟨rfl, ?_⟩) _ _ _ w₁
        h.counted.active fun j t ht i hi => ?_
      · rw [hprompt j t ht] at hi
        obtain rfl := Option.some.inj hi
        have := hlt j t ht
        omega
      · exact iff_of_false (rule.moved chunk n hne h.start hX) (by simp)
  refine ((prefillLoop_appended _ prompt 0 w₁ h.counted.active le_rfl).and hran).conseq
    (fun _ h => ⟨h, h⟩) (fun _ w hw => ?_) fun _ w hw => ?_
  · refine h.append prompt (hw.1.counted h.counted hroom) hw.1.tokenHistory hw.2 hS fun j t ht => ?_
    have hj := hlt j t ht
    rcases hplace with ⟨rfl, hn⟩ | ⟨rfl, hn⟩
    · intro i hi
      rw [hprompt j t ht] at hi
      obtain rfl := Option.some.inj hi
      rw [hn]
    · intro _ i hi
      rw [hprompt j t ht] at hi
      obtain rfl := Option.some.inj hi
      omega
  · obtain ⟨es, ht, hrows, -⟩ := h.ranLog hw.2 hS
    exact ⟨es, ht, hrows⟩

/-- Entry and prefill. -/
theorem prefillStage_placed {prompt : List τ}
    (rule : PlacedRows spec origin w₀.nPast prompt.length right)
    (hprompt : ∀ j t, prompt[j]? = some t → origin t = some j)
    (hsampled : ∀ x, origin (Token.ofId x) = none)
    (h : InCall spec env right origin (nKeepOf spec cfg) w₀ false w₀) :
    Triple (fun w => w = w₀) (prefillStage spec env prompt cfg)
      (fun tok w => origin tok = none ∧ ∃ e,
        InCall spec env right origin (nKeepOf spec cfg) w₀ e w)
      (fun _ => CallLog spec env right w₀) := by
  refine Triple.get fun w₁ hw₁ => ?_
  subst hw₁
  refine Triple.bind (R := fun _ w => Quietly spec w₁ w ∧ Ran spec env (fun _ => False) w₁ w)
    (Triple.modify fun w hw => ?_) fun _ => ?_
  · subst hw
    exact ⟨log_quietly (by trivial) w, log_ran w trivial⟩
  refine Triple.bind (R := fun _ w => Quietly spec w₁ w ∧ Ran spec env (fun _ => False) w₁ w)
    (Triple.modify fun w hw => ⟨hw.1.trans (prepareSampler_quietly cfg prompt w),
      hw.2.trans (prepareSampler_ran cfg prompt w)⟩) fun _ => Triple.of_eq fun w₂ hw₂ => ?_
  have h₂ : InCall spec env right origin (nKeepOf spec cfg) w₁ false w₂ :=
    h.append [] (hw₂.1.counted h.counted) (by rw [hw₂.1.tokenHistory, List.append_nil]) hw₂.2
      (fun _ hf => hf.elim) (by simp)
  refine Triple.bind (ensureRoom_placed rule prompt.length false _ w₂ h₂) fun _ =>
    Triple.of_eq fun w₃ hw₃ => ?_
  obtain ⟨hroom, e, h₃, hcase⟩ := hw₃
  rw [hw₂.1.nPast] at hcase
  refine Triple.bind (prefillChunks_placed rule hprompt w₃ h₃ hroom hcase) fun last => ?_
  refine Triple.bind (R := fun _ => InCall spec env right origin (nKeepOf spec cfg) w₁ e)
    (Triple.modify fun w hw => hw.logs fun _ => trivial) fun _ => ?_
  refine Triple.bind (InCall.quiet (fun _ => Quietly.stable fun w => restrideActive_quietly _ _ _ w)
    fun _ => Ran.stable fun w => restrideActive_ran _ _ _ w) fun _ => ?_
  exact (sampleNextToken_placed hsampled _ _).post fun _ w hw => ⟨hw.1, e, hw.2⟩

/-- A decode step. -/
theorem decodeStep_placed (rule : PlacedRows spec origin w₀.nPast L right) {tok : τ}
    (htok : origin tok = none) :
    Triple (fun w => ∃ e, InCall spec env right origin (nKeepOf spec cfg) w₀ e w)
      (decodeStep spec env cfg tok)
      (fun _ w => ∃ e, InCall spec env right origin (nKeepOf spec cfg) w₀ e w)
      (fun _ => CallLog spec env right w₀) := by
  refine Triple.of_exists fun e => Triple.bind (InCall.quiet (fun w₁ => waitPool_quietly w₁)
    fun w₁ => waitPool_ran w₁) fun _ => Triple.of_eq fun w₁ h₁ => ?_
  refine Triple.bind (ensureRoom_placed rule 1 true _ w₁ h₁) fun _ => Triple.of_eq fun w₂ hw₂ => ?_
  obtain ⟨hroom, e', h₂, -⟩ := hw₂
  set S : RunContext τ → Prop := fun ctx => ctx = ⟨[tok], w₂.nPast, 1, .decode⟩
  have hS : ∀ ctx, S ctx → (right ctx ↔ ¬(ctx.phase = .prefill ∧ e' = true)) := by
    rintro ctx rfl
    exact iff_of_true (rule.decode tok _ htok) (by simp)
  have hran : Triple (fun w => w = w₂) (decodeForward spec env tok)
      (fun _ => Ran spec env S w₂) (fun _ => Ran spec env S w₂) := decodeForward_ran tok w₂ rfl
  refine ((decodeForward_follows w₂ h₂.counted hroom tok).and hran).conseq
    (fun _ h => ⟨h, h⟩) (fun _ w hw => ⟨e', ?_⟩) fun _ w hw => ?_
  · refine h₂.append [tok] hw.1.1.counted hw.1.2 hw.2 hS fun j t ht => ?_
    obtain rfl : t = tok := by
      have := List.mem_of_getElem? ht
      simpa using this
    cases e' <;> simp [Placed, htok]
  · obtain ⟨es, ht, hrows, -⟩ := h₂.ranLog hw.2 hS
    exact ⟨es, ht, hrows⟩

theorem decodeLoop_placed (rule : PlacedRows spec origin w₀.nPast L right)
    (hsampled : ∀ x, origin (Token.ofId x) = none) (callback : List Int32 → CallbackAnswer)
    (n : ℕ) (next : τ) (out : List τ) (hnext : origin next = none) :
    Triple (fun w => ∃ e, InCall spec env right origin (nKeepOf spec cfg) w₀ e w)
      (decodeLoop spec env cfg callback n next out)
      (fun _ w => ∃ e, InCall spec env right origin (nKeepOf spec cfg) w₀ e w)
      (fun _ => CallLog spec env right w₀) := by
  have hlog : ∀ e : Event τ I, (∀ p, Event.Pass spec env p (fun _ => False) e) →
      Triple (fun w => ∃ e, InCall spec env right origin (nKeepOf spec cfg) w₀ e w)
        (Prog.modify (World.log e) : Run τ ρ I Unit)
        (fun _ w => ∃ e, InCall spec env right origin (nKeepOf spec cfg) w₀ e w)
        (fun _ => CallLog spec env right w₀) := fun e he =>
    Triple.modify fun w ⟨e', h⟩ => ⟨e', h.logs he⟩
  have hleave : ∀ (reason : StopReason) (out : List τ),
      Triple (fun w => ∃ e, InCall spec env right origin (nKeepOf spec cfg) w₀ e w)
        (leaveLoop reason out)
        (fun _ w => ∃ e, InCall spec env right origin (nKeepOf spec cfg) w₀ e w)
        (fun _ => CallLog spec env right w₀) := fun reason out =>
    Triple.bind (hlog _ fun _ => trivial) fun _ => Triple.pure fun _ h => h
  induction n generalizing next out with
  | zero => exact hleave _ _
  | succ n ih =>
    unfold decodeLoop
    refine Triple.ite (fun _ => hleave _ _) fun _ => Triple.bind (hlog _ fun _ => trivial) fun _ => ?_
    cases callback ((out ++ [next]).map Token.id) with
    | stop => exact hleave _ _
    | throw => exact Triple.throw fun w ⟨e, h⟩ => h.callLog
    | «continue» =>
      refine Triple.bind (decodeStep_placed rule hnext) fun _ => ?_
      refine Triple.bind (R := fun tok w => origin tok = none ∧ ∃ e,
        InCall spec env right origin (nKeepOf spec cfg) w₀ e w)
        (Triple.of_exists fun e => (sampleNextToken_placed hsampled _ _).post
          fun _ _ h => ⟨h.1, e, h.2⟩) fun tok => ?_
      exact Triple.of_eq fun w₁ hw₁ => (ih tok _ hw₁.1).pre fun w hw => hw ▸ hw₁.2

variable (spec env cfg) in
/-- The judgement holds of an execution of a call exactly if it is not a prefill after an
eviction. -/
theorem generate_rows (hc : Counted spec w₀) {prompt : List τ}
    (rule : PlacedRows spec origin w₀.nPast prompt.length right)
    (hprompt : ∀ j t, prompt[j]? = some t → origin t = some j)
    (hhistory : ∀ t ∈ w₀.tokenHistory, origin t = none)
    (hsampled : ∀ x, origin (Token.ofId x) = none) (callback : List Int32 → CallbackAnswer) :
    CallLog spec env right w₀ (generate spec env prompt cfg callback w₀).2 := by
  have hstart : InCall spec env right origin (nKeepOf spec cfg) w₀ false w₀ := by
    refine ⟨hc, hc.le, rfl, ⟨[], rfl, trivial, ?_⟩, fun n t ht i hi => ?_⟩
    · simp [Evicts]
    · rw [hhistory t (List.mem_of_getElem? ht)] at hi
      cases hi
  set J : World τ ρ I → Prop := fun w =>
    ∃ e, InCall spec env right origin (nKeepOf spec cfg) w₀ e w with hJ
  have hplain : ∀ (w : World τ ρ I) (b : Bool), J w → J { w with clockKeeper := b } := by
    rintro w b ⟨e, h⟩
    exact ⟨e, ⟨h.counted.size, h.counted.le, h.counted.active, h.counted.fits, h.counted.entries⟩,
      h.start, h.providers, h.log, h.placed⟩
  have hdecode : ∀ first : τ, origin first = none → Triple J (decodeStage spec env cfg callback first)
      (fun _ => J) (fun _ => CallLog spec env right w₀) := by
    intro first hfirst
    refine Triple.bind (R := fun _ => J) (Triple.modify fun w hw => hplain w _ hw) fun _ => ?_
    refine Triple.bind (R := fun _ => J) ((decodeLoop_placed rule hsampled callback _ first []
      hfirst).onThrow fun _ w hw => ?_) fun out => ?_
    · obtain ⟨es, ht, hrows⟩ := hw
      exact ⟨_ :: es, by rw [World.log_trace, ht, List.cons_append], by simp, hrows⟩
    · refine Triple.bind (R := fun _ => J) (Triple.of_exists fun e => (InCall.quiet
        (fun w₁ => waitPool_quietly w₁) fun w₁ => waitPool_ran w₁).post fun _ _ h => ⟨e, h⟩) fun _ => ?_
      exact Triple.bind (R := fun _ => J) (Triple.modify fun w hw => hplain w _ hw) fun _ =>
        Triple.pure fun _ h => h
  have hcall : Triple (fun w => w = w₀) (generate spec env prompt cfg callback)
      (fun _ => J) (fun _ => CallLog spec env right w₀) := by
    refine Triple.bind (R := fun _ => J) (Triple.bind (prefillStage_placed rule hprompt hsampled hstart)
      fun first => Triple.of_eq fun w₁ hw₁ => (hdecode first hw₁.1).pre fun w hw => hw ▸ hw₁.2)
      fun out => ?_
    refine Triple.bind (R := fun _ => J) (Triple.modify fun w ⟨e, h⟩ => ⟨e, ?_⟩) fun _ =>
      Triple.pure fun _ h => h
    have hq : Quietly spec w (restorePrefillStride spec w) :=
      (promoteCL_quietly _ _ _ w h.counted.active).trans (restrideActive_quietly _ _ _ _)
    have hr : Ran spec env (fun _ => False) w (restorePrefillStride spec w) :=
      (promoteCL_ran _ _ _ w).trans (restrideActive_ran _ _ _ _)
    exact h.append [] (hq.counted h.counted) (by rw [hq.tokenHistory, List.append_nil]) hr
      (fun _ hf => hf.elim) (by simp)
  exact hcall.snd (fun _ _ ⟨_, h⟩ => h.callLog) (fun _ _ h => h) rfl

end Call

end Geniex
