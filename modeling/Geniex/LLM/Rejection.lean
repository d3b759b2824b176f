import Geniex.LLM.LogitsRows
import Geniex.LLM.Overlap
import Geniex.LLM.Restride

/-!
# Rejected prompts

* `Twin`: instances that differ in what no code reads; they make the same calls (`twin_call`).
* `rejected_state`: the state that a call leaves which throws `ContextLengthExceededError` before it
  executes a graph.
* `unchanged_iff`: when that is the state before the call.
-/

namespace Geniex

open Prog

variable {τ ρ I : Type} {spec : LLMSpec} {env : Env τ ρ I}

/-! ## What no code reads -/

variable (spec) in
/-- A forward pass: the log, the promotion, the shards and the bookkeeping. -/
def forwardPass (phase : Phase) (k reserved : ℕ) (body : ℕ → ℕ → ℕ → Run τ ρ I Unit)
    (done : World τ ρ I → World τ ρ I) : Run τ ρ I Unit := do
  let w ← Prog.get
  Prog.modify (World.log (.step phase w.nPast k))
  Prog.modify (promoteCL spec (w.nPast + k) reserved reserved)
  let w' ← Prog.get
  Prog.forRange spec.shardCount (body w.nPast w'.activeClIdx)
  Prog.modify done

/-- `v` is `w` but for the log and the clock keeper. Without a sampler its configuration may differ
as well. -/
structure Twin (w v : World τ ρ I) : Prop where
  same : ∃ c clock trace, v = { w with samplerCfg := c, clockKeeper := clock, trace := trace }
  samplerCfg : w.sampler ≠ none → v.samplerCfg = w.samplerCfg

namespace Twin

variable {w v : World τ ρ I}

theorem carried : Carried (Twin : World τ ρ I → World τ ρ I → Prop) where
  books h := by
    obtain ⟨c, clock, trace, rfl⟩ := h.same
    exact ⟨rfl, rfl, rfl, fun hs => (h.samplerCfg hs).symm⟩
  log h e := by
    obtain ⟨c, clock, trace, rfl⟩ := h.same
    exact ⟨⟨_, _, _, rfl⟩, h.samplerCfg⟩
  setHistory h n l := by
    obtain ⟨c, clock, trace, rfl⟩ := h.same
    exact ⟨⟨_, _, _, rfl⟩, h.samplerCfg⟩
  setSampler h s c := by
    obtain ⟨_, clock, trace, rfl⟩ := h.same
    exact ⟨⟨_, _, _, rfl⟩, fun _ => rfl⟩
  mapSampler h f := by
    obtain ⟨c, clock, trace, rfl⟩ := h.same
    refine ⟨⟨_, _, _, rfl⟩, fun hs => h.samplerCfg fun hnone => hs ?_⟩
    exact Option.map_eq_none_iff.mpr hnone
  setClock h k k' := by
    obtain ⟨c, clock, trace, rfl⟩ := h.same
    exact ⟨⟨_, _, _, rfl⟩, h.samplerCfg⟩

theorem updateKV (h : Twin w v) (s : ℕ) (phase : Phase) (off n : ℕ) :
    Twin (updateKV spec s phase off n w) (updateKV spec s phase off n v) := by
  obtain ⟨c, clock, trace, rfl⟩ := h.same
  unfold Geniex.updateKV
  split_ifs
  · exact h
  · exact ⟨⟨_, _, _, rfl⟩, h.samplerCfg⟩

theorem settle (h : Twin w v) (done : KVJob → Bool) :
    Twin (settle spec done w) (settle spec done v) := by
  have hjobs : ∀ (jobs : List KVJob) {w v : World τ ρ I}, Twin w v →
      Twin (runJobs spec jobs w) (runJobs spec jobs v) := by
    intro jobs
    induction jobs with
    | nil => exact fun h => h
    | cons j jobs ih => exact fun h => ih (h.updateKV _ _ _ _)
  have hpending : v.pending = w.pending := by
    obtain ⟨c, clock, trace, rfl⟩ := h.same
    rfl
  have hend := hjobs (w.pending.filter done) h
  unfold Geniex.settle
  rw [hpending]
  obtain ⟨c, clock, trace, hv⟩ := hend.same
  exact ⟨⟨c, clock, trace, by rw [hv]⟩, hend.samplerCfg⟩

theorem background (h : Twin w v) : Twin (background spec env w) (background spec env v) := by
  have htick : v.tick = w.tick := by
    obtain ⟨c, clock, trace, rfl⟩ := h.same
    rfl
  unfold Geniex.background
  rw [htick]
  split_ifs
  · exact h
  · exact h.settle _

theorem promote (h : Twin w v) (required reserved stride : ℕ) :
    Twin (promoteCL spec required reserved stride w) (promoteCL spec required reserved stride v) := by
  obtain ⟨c, clock, trace, rfl⟩ := h.same
  unfold promoteCL
  dsimp only
  split_ifs
  · exact h
  · exact h
  · exact ⟨⟨_, _, _, rfl⟩, h.samplerCfg⟩

theorem writeBack (h : Twin w v) (s off : ℕ) :
    Twin (writeBack spec env s off w) (writeBack spec env s off v) := by
  unfold Geniex.writeBack
  split_ifs
  · obtain ⟨c, clock, trace, rfl⟩ := h.same
    exact ⟨⟨_, _, _, rfl⟩, h.samplerCfg⟩
  · exact h.updateKV _ _ _ _

theorem applyConnection (h : Twin w v) (phase : Phase) (s a : ℕ) :
    Twin (applyConnection spec phase s a w) (applyConnection spec phase s a v) := by
  obtain ⟨c, clock, trace, rfl⟩ := h.same
  exact ⟨⟨_, _, _, rfl⟩, h.samplerCfg⟩

theorem runShard (s : ℕ) (phase : Phase) (a : ℕ) (ctx : RunContext τ) :
    InStep Twin (runShard spec env s phase a ctx : Run τ ρ I Unit) (runShard spec env s phase a ctx)
      (fun _ => Twin) fun _ => Twin := by
  refine InStep.bind (R := fun _ => Twin) (InStep.modify fun w v h => h.background) fun _ =>
    InStep.get fun w₁ v₁ h => ?_
  rintro w v ⟨rfl, rfl⟩
  obtain ⟨c, clock, trace, rfl⟩ := h.same
  have hinput : execInput spec env s phase a ctx { w with
      samplerCfg := c, clockKeeper := clock, trace := trace } =
      execInput spec env s phase a ctx w := rfl
  rw [hinput]
  unfold execGraph
  dsimp only
  cases env.exec w.tick (spec.graphIndex phase s a) (execInput spec env s phase a ctx w) with
  | none => exact ⟨rfl, ⟨_, _, _, rfl⟩, h.samplerCfg⟩
  | some out => exact ⟨rfl, ⟨_, _, _, rfl⟩, h.samplerCfg⟩

theorem logits (h : Twin w v) (phase : Phase) : SameLogits spec phase w v := by
  obtain ⟨c, clock, trace, rfl⟩ := h.same
  exact fun _ => rfl

theorem waitPool : InStep Twin (waitPool spec env : Run τ ρ I Unit) (waitPool spec env)
    (fun _ => Twin) fun _ => Twin := by
  refine InStep.get fun w₀ v₀ h₀ => ?_
  have hpending : v₀.pending = w₀.pending := by
    obtain ⟨c, clock, trace, rfl⟩ := h₀.same
    rfl
  have hstart : ∀ w v, w = w₀ ∧ v = v₀ → Twin w v := by
    rintro w v ⟨rfl, rfl⟩
    exact h₀
  rw [hpending]
  exact InStep.ite Iff.rfl (fun _ => InStep.pure hstart) fun _ =>
    InStep.ite Iff.rfl (fun _ => InStep.throw hstart) fun _ =>
      InStep.modify fun w v h => (hstart w v h).settle _

theorem prefillShard (isFinal : Bool) (a : ℕ) (ctx : RunContext τ) (s : ℕ) :
    InStep Twin (prefillShard spec env isFinal a ctx s : Run τ ρ I Unit)
      (prefillShard spec env isFinal a ctx s) (fun _ => Twin) fun _ => Twin :=
  InStep.when Iff.rfl (fun _ => InStep.bind (runShard s .prefill a ctx) fun _ =>
    InStep.bind (R := fun _ => Twin) (InStep.modify fun _ _ h => h.updateKV _ _ _ _) fun _ =>
      InStep.when Iff.rfl (fun _ => InStep.modify fun _ _ h => h.applyConnection _ _ _)
        fun _ _ _ h => h) fun _ _ _ h => h

theorem decodeShard (a : ℕ) (ctx : RunContext τ) (s : ℕ) :
    InStep Twin (decodeShard spec env a ctx s : Run τ ρ I Unit) (decodeShard spec env a ctx s)
      (fun _ => Twin) fun _ => Twin :=
  InStep.bind (runShard s .decode a ctx) fun _ =>
    InStep.bind (R := fun _ => Twin) (InStep.modify fun _ _ h => h.writeBack _ _) fun _ =>
      InStep.when Iff.rfl (fun _ => InStep.modify fun _ _ h => h.applyConnection _ _ _)
        fun _ _ _ h => h

theorem pass (phase : Phase) (k reserved : ℕ) (body : ℕ → ℕ → ℕ → Run τ ρ I Unit)
    (done : World τ ρ I → World τ ρ I)
    (hbody : ∀ n a s, InStep Twin (body n a s) (body n a s) (fun _ => Twin) fun _ => Twin)
    (hdone : ∀ {w v : World τ ρ I}, Twin w v → Twin (done w) (done v)) :
    InStep Twin (forwardPass spec phase k reserved body done)
      (forwardPass spec phase k reserved body done) (fun _ => Twin) fun _ => Twin := by
  refine InStep.get fun w₀ v₀ h₀ => ?_
  rw [← (carried.books h₀).nPast]
  refine InStep.bind (R := fun _ => Twin) (InStep.modify ?_) fun _ =>
    InStep.bind (R := fun _ => Twin) (InStep.modify fun _ _ h => h.promote _ _ _) fun _ =>
    InStep.get fun w₁ v₁ h₁ => ?_
  · rintro w v ⟨rfl, rfl⟩
    exact carried.log h₀ _
  have hactive : v₁.activeClIdx = w₁.activeClIdx := by
    obtain ⟨c, clock, trace, rfl⟩ := h₁.same
    rfl
  have hshards : InStep Twin (Prog.forRange spec.shardCount (body w₀.nPast w₁.activeClIdx))
      (Prog.forRange spec.shardCount (body w₀.nPast w₁.activeClIdx)) (fun _ => Twin)
      fun _ => Twin := InStep.forRange (R := fun _ => Twin) fun s _ => hbody _ _ s
  rw [hactive]
  refine InStep.bind (hshards.pre ?_) fun _ => InStep.modify fun _ _ h => hdone h
  rintro w v ⟨rfl, rfl⟩
  exact h₁

/-- Such instances make the same calls. -/
theorem call : CallRelation spec env env (fun _ => Twin) (Twin : World τ ρ I → World τ ρ I → Prop)
    Twin where
  sample := rfl
  stride _ := carried
  head := carried
  rest h := h
  left h := h
  leftHead h := h
  abort {w v} h b b' := by
    obtain ⟨c, clock, trace, rfl⟩ := h.same
    exact ⟨⟨_, _, _, rfl⟩, h.samplerCfg⟩
  restride {_ w v} h q n := by
    obtain ⟨c, clock, trace, rfl⟩ := h.same
    exact ⟨⟨_, _, _, rfl⟩, h.samplerCfg⟩
  promote h required reserved := h.promote required reserved _
  wait := waitPool
  chunk isFinal chunk := by
    refine (pass .prefill chunk.length spec.seqLenPrefill (fun n a => Geniex.prefillShard spec env
      isFinal a ⟨chunk, n, chunk.length, .prefill⟩) (fun w => { w with
        tokenHistory := w.tokenHistory ++ chunk, nPast := w.nPast + chunk.length })
      (fun n a s => prefillShard isFinal a _ s) ?_).post fun _ w v h => ⟨h, fun _ => h.logits _⟩
    intro w v h
    obtain ⟨c, clock, trace, rfl⟩ := h.same
    exact ⟨⟨_, _, _, rfl⟩, h.samplerCfg⟩
  forward tok := by
    refine (pass .decode 1 spec.seqLenDecode (fun n a => Geniex.decodeShard spec env a
      ⟨[tok], n, 1, .decode⟩) (fun w => { w.log (.appended [tok]) with
        nPast := w.nPast + 1, tokenHistory := w.tokenHistory ++ [tok] })
      (fun n a s => decodeShard a _ s) ?_).post fun _ w v h => ⟨h, h.logits _⟩
    intro w v h
    obtain ⟨c, clock, trace, rfl⟩ := h.same
    exact ⟨⟨_, _, _, rfl⟩, h.samplerCfg⟩

theorem generate [Token τ] (prompt : List τ) (cfg : GenerationConfig)
    (callback : List Int32 → CallbackAnswer) :
    InStep Twin (Geniex.generate spec env prompt cfg callback : Run τ ρ I (List τ))
      (Geniex.generate spec env prompt cfg callback) (fun _ => Twin) fun _ => Twin :=
  call.generate (Or.inr fun _ _ h => h.logits _) cfg callback

end Twin

/-! ## The state after a rejection -/

/-- The calls of the sampler chain in a log. -/
def samplerCalls : List (Event τ I) → List (SamplerCall τ)
  | [] => []
  | .sampler c :: es => c :: samplerCalls es
  | _ :: es => samplerCalls es

theorem samplerCalls_append (es es' : List (Event τ I)) :
    samplerCalls (es ++ es') = samplerCalls es ++ samplerCalls es' := by
  induction es with
  | nil => rfl
  | cons e es ih => cases e <;> simp [samplerCalls, ih]

theorem samplerCalls_none {es : List (Event τ I)} (h : ∀ e ∈ es, ∀ c, e ≠ .sampler c) :
    samplerCalls es = [] := by
  induction es with
  | nil => rfl
  | cons e es ih =>
    have hrest := ih fun e he => h e (List.mem_cons_of_mem _ he)
    cases e with
    | sampler c => exact absurd rfl (h _ List.mem_cons_self c)
    | _ => exact hrest

/-- A graph has been executed since `w₀`. -/
def Busy (w₀ w : World τ ρ I) : Prop := (execs w₀.trace).length < (execs w.trace).length

theorem Busy.of_suffix {w₀ w w' : World τ ρ I} (h : Busy w₀ w) (hs : w.trace <:+ w'.trace) :
    Busy w₀ w' := by
  obtain ⟨es, ht⟩ := hs
  unfold Busy at *
  rw [← ht, execs_append, List.length_append]
  omega

/-- What only adds to the log keeps it so. -/
theorem Busy.stable {α : Type} {x : Run τ ρ I α} {w₀ : World τ ρ I}
    (hx : ∀ old, Stable (fun w : World τ ρ I => old <:+ w.trace) x) : Stable (Busy w₀) x :=
  Triple.of_eq fun w₁ h₁ => (hx w₁.trace).conseq
    (fun w hw => by subst hw; exact List.suffix_rfl) (fun _ _ hs => h₁.of_suffix hs)
    fun _ _ hs => h₁.of_suffix hs

theorem LastPass.busy {w₀ w : World τ ρ I} {phase : Phase} {tokens : List τ}
    (h : LastPass spec w₀ phase tokens w) : Busy w₀ w := by
  obtain ⟨n, es, x, ht, hx, -⟩ := h
  unfold Busy
  have hne : execs es ≠ [] := fun hnil => by
    rw [hnil] at hx
    cases hx
  have hpos := List.length_pos_of_ne_nil hne
  rw [ht, execs_append, List.length_append]
  omega

/-- `w` is `base` but for the sampler, the clock keeper and the log. The log names no call of the
sampler chain since `w₀` if the call samples greedily; if not, there is one where `fed` holds. -/
structure Reached (cfg : GenerationConfig) (fed : Prop) (w₀ base w : World τ ρ I) : Prop where
  state : ∃ s c clock trace, w = { base with
    sampler := s, samplerCfg := c, clockKeeper := clock, trace := trace }
  quiet : cfg.enableSampling = false →
    w.sampler = none ∧ samplerCalls w.trace = samplerCalls w₀.trace
  loud : cfg.enableSampling = true → w.sampler ≠ none ∧
    (fed → (samplerCalls w₀.trace).length < (samplerCalls w.trace).length) ∧
    (samplerCalls w₀.trace).length ≤ (samplerCalls w.trace).length

namespace Reached

variable {cfg : GenerationConfig} {fed : Prop} {w₀ base w : World τ ρ I}

theorem plain {w' base' : World τ ρ I} (h : Reached cfg fed w₀ base w)
    (hs : w'.sampler = w.sampler) (hc : samplerCalls w'.trace = samplerCalls w.trace)
    (hstate : ∃ s c clock trace, w' = { base' with
      sampler := s, samplerCfg := c, clockKeeper := clock, trace := trace }) :
    Reached cfg fed w₀ base' w' :=
  ⟨hstate, by rw [hs, hc]; exact h.quiet, by rw [hs, hc]; exact h.loud⟩

theorem log (h : Reached cfg fed w₀ base w) {e : Event τ I} (he : ∀ c, e ≠ .sampler c) :
    Reached cfg fed w₀ base (w.log e) := by
  obtain ⟨s, c, clock, trace, hw⟩ := h.state
  refine h.plain rfl ?_ ⟨s, c, clock, e :: trace, by rw [hw]; rfl⟩
  cases e with
  | sampler c => exact absurd rfl (he c)
  | _ => rfl

theorem clock (h : Reached cfg fed w₀ base w) (k : Bool) :
    Reached cfg fed w₀ base { w with clockKeeper := k } := by
  obtain ⟨s, c, clock, trace, rfl⟩ := h.state
  exact h.plain rfl rfl ⟨_, _, _, _, rfl⟩

theorem restride (h : Reached cfg fed w₀ base w) (old new : Phase) (n : ℕ) :
    Reached cfg fed w₀ (restrideActive spec old new n base) (restrideActive spec old new n w) := by
  obtain ⟨s, c, clock, trace, rfl⟩ := h.state
  exact h.plain rfl rfl ⟨_, _, _, _, rfl⟩

theorem settle (h : Reached cfg fed w₀ base w) :
    Reached cfg fed w₀ (settle spec (fun _ => true) base) (settle spec (fun _ => true) w) := by
  have hall : ∀ w : World τ ρ I, Geniex.settle spec (fun _ => true) w = { w with
      kv := completed spec w, pending := [], trace := (runJobs spec w.pending w).trace } := by
    intro w
    unfold Geniex.settle completed
    rw [List.filter_true, runJobs_eq]
    simp
  have htrace : samplerCalls (runJobs spec w.pending w).trace = samplerCalls w.trace := by
    obtain ⟨-, -, -, -, -, es, ht, hes⟩ := runJobs_frame spec w.pending w
    rw [ht, samplerCalls_append, samplerCalls_none fun e he c hc => ?_, List.nil_append]
    obtain ⟨j, -, rfl⟩ := hes e he
    cases hc
  have hcalls : samplerCalls (Geniex.settle spec (fun _ => true) w).trace =
      samplerCalls w.trace := by rw [hall, htrace]
  refine h.plain (by rw [hall]) hcalls ?_
  obtain ⟨s, c, clock, trace, rfl⟩ := h.state
  have hkv : completed spec { base with
      sampler := s, samplerCfg := c, clockKeeper := clock, trace := trace } = completed spec base :=
    Overlaps.completed_congr rfl rfl rfl fun _ _ => rfl
  rw [hall, hall, hkv]
  exact ⟨_, _, _, _, rfl⟩

theorem feed (h : Reached cfg fed w₀ base w) (hon : w.sampler ≠ none)
    {calls : List (SamplerCall τ)} (hne : calls ≠ []) :
    Reached cfg True w₀ base (feedSampler calls w) := by
  have hmap : samplerCalls ((calls.map Event.sampler).reverse ++ w.trace : List (Event τ I)) =
      calls.reverse ++ samplerCalls w.trace := by
    rw [samplerCalls_append, ← List.map_reverse]
    congr 1
    induction calls.reverse with
    | nil => rfl
    | cons c cs ih => exact congrArg (c :: ·) ih
  have hpos := List.length_pos_of_ne_nil hne
  obtain ⟨s, c, clock, trace, rfl⟩ := h.state
  refine ⟨⟨_, _, _, _, rfl⟩, fun hoff => absurd (h.quiet hoff).1 hon, fun hset => ?_⟩
  have hle : (samplerCalls w₀.trace).length ≤ (samplerCalls trace).length := (h.loud hset).2.2
  have hcalls : (samplerCalls (feedSampler calls { base with
      sampler := s, samplerCfg := c, clockKeeper := clock, trace := trace }).trace).length =
      calls.length + (samplerCalls trace).length := by
    refine (congrArg List.length hmap).trans ?_
    rw [List.length_append, List.length_reverse]
  refine ⟨fun hnone => hon (Option.map_eq_none_iff.mp hnone), fun _ => ?_, ?_⟩
  all_goals
    rw [hcalls]
    omega

/-- Preparing the sampler feeds it a prompt that is not empty. -/
theorem prepare (cfg : GenerationConfig) (prompt : List τ) (w : World τ ρ I) (n : ℕ) :
    Reached cfg (prompt ≠ []) w w (prepareSampler cfg prompt (w.log (.enter n prompt.length))) := by
  have hbuild : cfg.enableSampling = true → Reached cfg False w w
      (buildSampler cfg (w.log (.enter n prompt.length))) ∧
      (buildSampler cfg (w.log (.enter n prompt.length))).sampler ≠ none := by
    intro hon
    have hoff : cfg.enableSampling ≠ false := by rw [hon]; decide
    unfold buildSampler
    split_ifs with hreuse
    · have hsome : (w.log (.enter n prompt.length)).sampler ≠ none := by
        rw [Bool.and_eq_true, Option.isSome_iff_ne_none] at hreuse
        exact hreuse.1
      exact ⟨⟨⟨_, _, _, _, rfl⟩, fun h => absurd h hoff, fun _ => ⟨hsome, False.elim, le_rfl⟩⟩,
        hsome⟩
    · exact ⟨⟨⟨_, _, _, _, rfl⟩, fun h => absurd h hoff, fun _ => ⟨nofun, False.elim, le_rfl⟩⟩,
        nofun⟩
  unfold prepareSampler
  split_ifs with hoff hnil
  · refine ⟨⟨_, _, _, _, rfl⟩, fun _ => ⟨rfl, rfl⟩, fun h => ?_⟩
    rw [hoff] at h
    cases h
  · obtain ⟨hb, -⟩ := hbuild (by simpa using hoff)
    exact ⟨hb.state, hb.quiet, fun hon => ⟨(hb.loud hon).1, fun hne => absurd hnil hne,
      (hb.loud hon).2.2⟩⟩
  · obtain ⟨hb, hsome⟩ := hbuild (by simpa using hoff)
    have hfed : Reached cfg True w w (feedSampler [.init prompt]
      (buildSampler cfg (w.log (.enter n prompt.length)))) := hb.feed hsome (List.cons_ne_nil _ _)
    exact ⟨hfed.state, hfed.quiet, fun hon => ⟨(hfed.loud hon).1,
      fun _ => (hfed.loud hon).2.1 trivial, (hfed.loud hon).2.2⟩⟩

/-- Sampling feeds the sampler, if there is one. -/
theorem sample [Token τ] {E : Err → World τ ρ I → Prop} (phase : Phase) (off : ℕ) :
    Triple (Reached cfg fed w₀ base) (sampleNextToken spec env phase off)
      (fun _ => Reached cfg True w₀ base) E := by
  refine Triple.get fun w₁ hw₁ => ?_
  cases hs : w₁.sampler with
  | none =>
    refine Triple.bind (R := fun _ => Reached cfg True w₀ base) (Triple.modify fun w hw => ?_)
      fun _ => Triple.pure fun _ hw => hw
    subst hw
    have hlog := hw₁.log (e := .sampled (Token.ofId (Int32.ofNat (argmax
      (readLastLogits spec phase off w))))) nofun
    exact ⟨hlog.state, hlog.quiet, fun hon => absurd hs (hw₁.loud hon).1⟩
  | some s =>
    refine Triple.bind (R := fun _ => Reached cfg True w₀ base) (Triple.modify fun w hw => ?_)
      fun _ => Triple.bind (R := fun _ => Reached cfg True w₀ base)
        (Triple.modify fun w hw => hw.log nofun) fun _ => Triple.pure fun _ hw => hw
    subst hw
    exact hw₁.feed (by rw [hs]; nofun) (List.cons_ne_nil _ _)

end Reached

/-! ## Rejected calls -/

section Rejected

variable [Token τ]

/-- The exception of a call that has no room. -/
def OverLimit (e : Err) : Prop := ∃ msg, e = .contextLengthExceeded msg

theorem not_overLimit_of_failed {e : Err} (h : Failed e) : ¬OverLimit e := by
  rintro ⟨msg, rfl⟩
  obtain ⟨msg', h⟩ := h
  cases h

omit [Token τ] in
theorem settle_nil {w : World τ ρ I} (h : w.pending = []) (done : KVJob → Bool) :
    settle spec done w = w := by
  unfold settle runJobs
  rw [h]
  simp only [List.filter_nil, List.foldl_nil]
  rw [← h]

/-- Before the first decode step of a call with an empty prompt. -/
structure Primed (spec : LLMSpec) (env : Env τ ρ I) (cfg : GenerationConfig)
    (w₀ base w : World τ ρ I) : Prop where
  reached : Reached cfg True w₀ base w
  counted : Counted spec w
  pooled : Pooled env w
  grows : w₀.trace <:+ w.trace

variable {cfg : GenerationConfig} {w₀ base : World τ ρ I} {prompt : List τ} {full : Prop}

/-- The way out of a call: by another exception, after an execution, or rejected in `base` because
it is `full`. -/
def LeavesBy (cfg : GenerationConfig) (full : Prop) (w₀ base : World τ ρ I) (e : Err)
    (w : World τ ρ I) : Prop :=
  OverLimit e → Busy w₀ w ∨ full ∧ Reached cfg True w₀ base w

omit [Token τ] in
/-- After an execution nothing more is to be shown. -/
theorem Busy.leaves {α : Type} {x : Run τ ρ I α}
    (hx : ∀ old, Stable (fun w : World τ ρ I => old <:+ w.trace) x) :
    Triple (Busy w₀) x (fun _ => Busy w₀) (LeavesBy cfg full w₀ base) :=
  (Busy.stable hx).conseq (fun _ h => h) (fun _ _ h => h) fun _ _ h _ => Or.inl h

omit [Token τ] in
theorem Primed.wait : Triple (Primed spec env cfg w₀ base) (waitPool spec env)
    (fun _ => Primed spec env cfg w₀ (settle spec (fun _ => true) base)) fun e _ => e = .blocked := by
  refine Triple.get fun w₁ hw₁ => Triple.ite (fun hidle => Triple.pure fun w hw => ?_) fun _ =>
    Triple.ite (fun _ => Triple.throw fun _ _ => rfl) fun _ => Triple.modify fun w hw => ?_
  · subst hw
    have hnil : w.pending = [] := hidle.elim id fun hpool => by
      by_contra hne
      rw [hw₁.pooled hne] at hpool
      cases hpool
    have hbase : base.pending = [] := by
      obtain ⟨s, c, clock, trace, rfl⟩ := hw₁.reached.state
      exact hnil
    rw [settle_nil hbase]
    exact hw₁
  · subst hw
    have hq : Quietly spec w (settle spec (fun _ => true) w) := settle_quietly spec _ w
    obtain ⟨es, -, ht⟩ := hq.trace
    exact ⟨hw₁.reached.settle, hq.counted hw₁.counted, hw₁.pooled.settle _,
      hw₁.grows.trans ⟨es, ht.symm⟩⟩

/-- A call with an empty prompt is rejected in its first decode step, or after an execution. -/
theorem Primed.decodeLoop (callback : List Int32 → CallbackAnswer) (n : ℕ) (next : τ)
    (out : List τ) : Triple (Primed spec env cfg w₀ base)
      (Geniex.decodeLoop spec env cfg callback n next out) (fun _ _ => True)
      (LeavesBy cfg (¬RoomFor spec cfg 1 base.nPast) w₀ (settle spec (fun _ => true) base)) := by
  have hleave : ∀ (reason : StopReason) (out : List τ), Triple (Primed spec env cfg w₀ base)
      (leaveLoop reason out : Run τ ρ I (List τ)) (fun _ _ => True)
      (LeavesBy cfg (¬RoomFor spec cfg 1 base.nPast) w₀ (settle spec (fun _ => true) base)) :=
    fun _ _ =>
    Triple.bind (R := fun _ _ => True) (Triple.modify fun _ _ => trivial) fun _ =>
      Triple.pure fun _ _ => trivial
  cases n with
  | zero => exact hleave _ _
  | succ n =>
    unfold Geniex.decodeLoop
    refine Triple.ite (fun _ => hleave _ _) fun _ => Triple.bind (R := fun _ =>
      Primed spec env cfg w₀ base) (Triple.modify fun w hw => ?_) fun _ => ?_
    · exact ⟨hw.reached.log (by simp), hw.counted.log (by simp), hw.pooled,
        hw.grows.trans (List.suffix_cons _ _)⟩
    cases callback ((out ++ [next]).map Token.id) with
    | stop => exact hleave _ _
    | throw =>
      apply Triple.throw
      rintro w _ ⟨msg, h⟩
      cases h
    | «continue» =>
      refine Triple.bind (R := fun _ => Busy w₀) ?_ fun _ => Triple.bind
        (Busy.leaves fun old => (logGrows old).sampleNextToken _ _) fun _ =>
        (Busy.leaves fun old => (logGrows old).decodeLoop _ _ _ _ _).post fun _ _ _ => trivial
      refine Triple.bind (Primed.wait.conseq (fun _ h => h) (fun _ _ h => h)
        fun e w he => ?_) fun _ => Triple.bind (R := fun _ w => w₀.trace <:+ w.trace)
        (Triple.of_eq fun w₁ hw₁ => ?_) fun _ => ?_
      · subst he
        rintro ⟨msg, h⟩
        cases h
      · by_cases hroom : RoomFor spec cfg 1 w₁.nPast
        · refine ((ensureRoom_fails hw₁.counted hroom true _).and
            ((logGrows w₀.trace).ensureRoom cfg 1 true _)).conseq (fun w hw => ?_)
            (fun _ _ h => h.2) fun _ _ h => fun hover => absurd hover (not_overLimit_of_failed h.1)
          subst hw
          exact ⟨rfl, hw₁.grows⟩
        · intro w hw
          subst hw
          rw [ensureRoom_rejects hroom]
          have hn : w.nPast = base.nPast := by
            obtain ⟨s, c, clock, trace, hstate⟩ := hw₁.reached.state
            rw [hstate]
            exact (settle_quietly spec _ base).nPast
          rw [hn] at hroom
          exact fun _ => Or.inr ⟨hroom, hw₁.reached⟩
      · refine ((decodeForward_throws (fun msg => ⟨msg, rfl⟩) next).triple
          (decodeForward_lastPass next)).conseq (fun _ h => h) (fun _ _ h => h.busy)
          fun e w h hover => absurd hover (not_overLimit_of_failed h.2)

/-- The prefill of an empty prompt only switches to the decode stride, and samples. -/
theorem prefillStage_nil (hc : Counted spec w₀) (hpooled : Pooled env w₀)
    (cfg : GenerationConfig) :
    Triple (fun w => w = w₀) (prefillStage spec env [] cfg)
      (fun _ => Primed spec env cfg w₀ (restrideActive spec .prefill .decode w₀.nPast w₀))
      (fun e _ => ¬OverLimit e) := by
  have hreached : Triple (fun w => w = w₀) (prefillStage spec env [] cfg)
      (fun _ => Reached cfg True w₀ (restrideActive spec .prefill .decode w₀.nPast w₀))
      (fun e _ => ¬OverLimit e) := by
    refine Triple.get fun w₁ hw₁ => ?_
    subst hw₁
    refine Triple.bind (R := fun _ w => w = w₁.log (.enter w₁.nPast ([] : List τ).length))
      (Triple.modify fun w hw => by rw [hw]) fun _ => ?_
    refine Triple.bind (R := fun _ => Reached cfg ([] ≠ ([] : List τ)) w₁ w₁)
      (Triple.modify fun w hw => ?_) fun _ => ?_
    · subst hw
      exact Reached.prepare cfg [] w₁ w₁.nPast
    refine Triple.bind (R := fun _ => Reached cfg ([] ≠ ([] : List τ)) w₁ w₁)
      (Triple.get fun w₂ hw₂ => Triple.when (fun hfull => ?_) fun _ w hw => hw ▸ hw₂) fun _ => ?_
    · have hn : w₂.nPast = w₁.nPast := by
        obtain ⟨s, c, clock, trace, rfl⟩ := hw₂.state
        rfl
      have hle := hc.le
      have hlen : ([] : List τ).length = 0 := rfl
      omega
    refine Triple.bind (R := fun _ => Reached cfg ([] ≠ ([] : List τ)) w₁ w₁)
      (Triple.pure fun _ hw => hw) fun last => ?_
    refine Triple.bind (R := fun _ => Reached cfg ([] ≠ ([] : List τ)) w₁ w₁)
      (Triple.modify fun w hw => hw.log nofun) fun _ => ?_
    refine Triple.bind (R := fun _ => Reached cfg ([] ≠ ([] : List τ)) w₁
      (restrideActive spec .prefill .decode w₁.nPast w₁)) (Triple.modify fun w hw => ?_)
      fun _ => Reached.sample _ _
    have hn : w.nPast = w₁.nPast := by
      obtain ⟨s, c, clock, trace, rfl⟩ := hw.state
      rfl
    rw [hn]
    exact hw.restride _ _ _
  refine (hreached.and ((prefillStage_follows w₀ hc [] cfg).and
    ((Pooled.call.prefillStage [] cfg).and ((logGrows w₀.trace).prefillStage [] cfg)))).conseq ?_
    (fun _ w hw => ⟨hw.1, hw.2.1.counted, hw.2.2.1, hw.2.2.2⟩) fun _ _ h => h.1
  rintro w rfl
  exact ⟨rfl, rfl, hpooled, List.suffix_rfl⟩

/-- The prefill of a prompt is rejected with nothing done but feeding the sampler, or executes. -/
theorem prefillStage_leaves (hc : Counted spec w₀) (hne : prompt ≠ []) (cfg : GenerationConfig) :
    Triple (fun w => w = w₀) (prefillStage spec env prompt cfg) (fun _ => Busy w₀)
      (LeavesBy cfg (prompt = [] → ¬RoomFor spec cfg 1 w₀.nPast) w₀ w₀) := by
  set w₂ := prepareSampler cfg prompt (w₀.log (.enter w₀.nPast prompt.length)) with hw₂
  have hq : Quietly spec w₀ w₂ :=
    (log_quietly (by trivial) w₀).trans (prepareSampler_quietly cfg prompt _)
  obtain ⟨es, -, ht⟩ := hq.trace
  refine Triple.get fun w₁ hw₁ => ?_
  subst hw₁
  refine Triple.bind (R := fun _ w => w = w₁.log (.enter w₁.nPast prompt.length))
    (Triple.modify fun w hw => by rw [hw]) fun _ => ?_
  refine Triple.bind (R := fun _ w => w = w₂) (Triple.modify fun w hw => by rw [hw]) fun _ => ?_
  refine Triple.bind (R := fun _ w => w₁.trace <:+ w.trace) ?_ fun _ => ?_
  · by_cases hroom : RoomFor spec cfg prompt.length w₂.nPast
    · refine ((ensureRoom_fails (hq.counted hc) hroom false _).and
        ((logGrows w₁.trace).ensureRoom cfg prompt.length false _)).conseq (fun w hw => ?_)
        (fun _ _ h => h.2) fun _ _ h => fun hover => absurd hover (not_overLimit_of_failed h.1)
      subst hw
      exact ⟨rfl, es, ht.symm⟩
    · intro w hw
      subst hw
      rw [ensureRoom_rejects hroom]
      have hreached := Reached.prepare cfg prompt w₁ w₁.nPast
      exact fun _ => Or.inr ⟨fun hnil => absurd hnil hne, hreached.state, hreached.quiet,
        fun hon => ⟨(hreached.loud hon).1, fun _ => (hreached.loud hon).2.1 hne,
          (hreached.loud hon).2.2⟩⟩
  refine Triple.bind (R := fun _ => Busy w₁) ?_ fun last => ?_
  · refine ((prefillLoop_throws (fun msg => ⟨msg, rfl⟩) _ prompt 0).triple
      (prefillLoop_lastPass _ prompt 0 hne le_rfl)).conseq (fun _ h => h) (fun _ w h => ?_)
      fun e w h hover => absurd hover (not_overLimit_of_failed h.2)
    obtain ⟨chunk, hlast, -⟩ := h
    exact hlast.busy
  exact Busy.leaves fun old => Stable.bind (Stable.modify fun w hw =>
    hw.trans (List.suffix_cons _ _)) fun _ =>
    Stable.bind (Stable.modify fun w hw => hw) fun _ => (logGrows old).sampleNextToken _ _

variable (spec) in
/-- The state that a rejection leaves, but for the sampler, the clock keeper and the log. A call with
an empty prompt is rejected at the decode stride, after it has waited for the pool. -/
def rejectedBase (prompt : List τ) (w : World τ ρ I) : World τ ρ I :=
  if prompt = [] then
    settle spec (fun _ => true) (restrideActive spec .prefill .decode w.nPast w)
  else w

/-- **A call that is over the limit has executed a graph, or leaves `rejectedBase`.** -/
theorem generate_leaves (hc : Counted spec w₀) (hpooled : Pooled env w₀) (prompt : List τ)
    (cfg : GenerationConfig) (callback : List Int32 → CallbackAnswer) :
    Triple (fun w => w = w₀) (generate spec env prompt cfg callback) (fun _ _ => True)
      (LeavesBy cfg (prompt = [] → ¬RoomFor spec cfg 1 w₀.nPast) w₀
        (rejectedBase spec prompt w₀)) := by
  have hwait : ∀ {P : World τ ρ I → Prop} {full : Prop} {base : World τ ρ I},
      Triple P (waitPool spec env) (fun _ _ => True) (LeavesBy cfg full w₀ base) :=
    fun {P full base} => waitPool_blocked.conseq (fun _ _ => trivial) (fun _ _ h => h) fun e w he => by
      subst he
      rintro ⟨msg, h⟩
      cases h
  refine Triple.bind (R := fun _ _ => True) ?_ fun out => Triple.bind (R := fun _ _ => True)
    (Triple.modify fun _ _ => trivial) fun _ => Triple.pure fun _ _ => trivial
  by_cases hne : prompt = []
  · subst hne
    have hbase : rejectedBase spec [] w₀ = settle spec (fun _ => true)
      (restrideActive spec .prefill .decode w₀.nPast w₀) := if_pos rfl
    rw [hbase]
    refine Triple.bind ((prefillStage_nil hc hpooled cfg).conseq (fun _ h => h) (fun _ _ h => h)
      fun _ _ h hover => absurd hover h) fun first => ?_
    refine Triple.bind (R := fun _ => Primed spec env cfg w₀
      (restrideActive spec .prefill .decode w₀.nPast w₀)) (Triple.modify fun w hw => ?_) fun _ => ?_
    · obtain ⟨hsize, hle, hactive, hfits, hentries⟩ := hw.counted
      exact ⟨hw.reached.clock _, ⟨hsize, hle, hactive, hfits, hentries⟩, hw.pooled, hw.grows⟩
    refine Triple.bind (Triple.onThrow (Primed.decodeLoop callback _ first []) ?_) fun out =>
      Triple.bind hwait fun _ => Triple.bind (R := fun _ _ => True)
        (Triple.modify fun _ _ => trivial) fun _ => Triple.pure fun _ _ => trivial
    intro e w h hover
    exact (h hover).imp (fun hbusy => hbusy.of_suffix (List.suffix_cons _ _))
      fun hleft => ⟨fun _ => hleft.1, hleft.2.log nofun⟩
  · have hbase : rejectedBase spec prompt w₀ = w₀ := if_neg hne
    rw [hbase]
    refine Triple.bind (prefillStage_leaves hc hne cfg) fun first => ?_
    refine Triple.bind (R := fun _ => Busy w₀) (Triple.modify fun _ hw => hw) fun _ => ?_
    have hloop : Triple (Busy w₀) (decodeLoop spec env cfg callback cfg.maxTokens.toInt.toNat first [])
        (fun _ => Busy w₀) (LeavesBy cfg (prompt = [] → ¬RoomFor spec cfg 1 w₀.nPast) w₀ w₀) :=
      Busy.leaves fun old => (logGrows old).decodeLoop _ _ _ _ _
    refine Triple.bind (Triple.onThrow hloop ?_) fun out => Triple.bind hwait fun _ =>
      Triple.bind (R := fun _ _ => True) (Triple.modify fun _ _ => trivial) fun _ =>
        Triple.pure fun _ _ => trivial
    intro e w h hover
    exact (h hover).imp (fun hbusy => hbusy.of_suffix (List.suffix_cons _ _))
      fun hleft => ⟨hleft.1, hleft.2.log nofun⟩

/-! ## What a rejection changes -/

/-- The state that a conversation goes on from is the same, and the sampler chain has not been
called. A write-back that is still queued is a part of the KV cache. -/
structure Unchanged (w w' : World τ ρ I) : Prop where
  nPast : w'.nPast = w.nPast
  tokenHistory : w'.tokenHistory = w.tokenHistory
  activeClIdx : w'.activeClIdx = w.activeClIdx
  kv : w'.kv = w.kv
  pending : w'.pending = w.pending
  sampler : w'.sampler = w.sampler
  samplerCalls : samplerCalls w'.trace = samplerCalls w.trace
  providers : w'.providers = w.providers

/-- A call that is rejected before it executes a graph. -/
structure Rejection (spec : LLMSpec) (env : Env τ ρ I) where
  prompt : List τ
  cfg : GenerationConfig
  callback : List Int32 → CallbackAnswer
  before : World τ ρ I
  after : World τ ρ I
  msg : String
  reachable : Reachable spec env before
  run : generate spec env prompt cfg callback before = (.error (.contextLengthExceeded msg), after)
  idle : execs after.trace = execs before.trace

namespace Rejection

/-- A rejection changes nothing, and a later shorter prompt produces what it would have produced. -/
def Harmless (r : Rejection spec env) : Prop :=
  Unchanged r.before r.after ∧ ∀ prompt cfg callback, prompt.length < r.prompt.length →
    (generate spec env prompt cfg callback r.after).1 =
      (generate spec env prompt cfg callback r.before).1

/-- The call samples greedily and there is no sampler; if its prompt is empty, nothing is queued and
the KV tensors are the same at both strides. -/
structure Bare (r : Rejection spec env) : Prop where
  greedy : r.cfg.enableSampling = false
  noSampler : r.before.sampler = none
  empty : r.prompt = [] → r.before.pending = [] ∧ ∀ t, spec.hasTensor t = true →
    StrideFree spec (spec.kvLen .prefill r.before.activeClIdx)
      (spec.kvLen .decode r.before.activeClIdx) t (r.before.kv t)

variable (r : Rejection spec env)

/-- What a rejection leaves. -/
theorem left : (r.prompt = [] → ¬RoomFor spec r.cfg 1 r.before.nPast) ∧
    Reached r.cfg True r.before (rejectedBase spec r.prompt r.before) r.after := by
  have hleaves := (generate_leaves r.reachable.counted r.reachable.pooled r.prompt r.cfg
    r.callback).error rfl r.run
  refine (hleaves ⟨r.msg, rfl⟩).resolve_left fun hbusy => ?_
  unfold Busy at hbusy
  rw [r.idle] at hbusy
  exact lt_irrefl _ hbusy

/-- The switch to the decode stride changes no byte just where the bytes are the same at both. -/
theorem restride_iff (hnil : r.prompt = []) :
    (restrideActive spec .prefill .decode r.before.nPast r.before).kv = r.before.kv ↔
      ∀ t, spec.hasTensor t = true → StrideFree spec (spec.kvLen .prefill r.before.activeClIdx)
        (spec.kvLen .decode r.before.activeClIdx) t (r.before.kv t) := by
  have hfull := r.left.1 hnil
  unfold RoomFor at hfull
  have hle := spec.kvLen_prefill_le r.before.activeClIdx
  refine reshapeAll_fixed hle ?_
  have hmax := spec.cl_le_maxCl r.reachable.counted.active
  have hlen : spec.kvLen .prefill r.before.activeClIdx =
    spec.cl r.before.activeClIdx - spec.seqLen .prefill := rfl
  omega

/-- Without a trace in the sampler the two instances make the same calls. -/
theorem twin (h : r.Bare) : Twin r.before r.after := by
  obtain ⟨-, hreached⟩ := r.left
  have hbase : rejectedBase spec r.prompt r.before = r.before := by
    unfold rejectedBase
    split_ifs with hnil
    · obtain ⟨hpending, hfree⟩ := h.empty hnil
      have hkv := (r.restride_iff hnil).mpr hfree
      have hsame : restrideActive spec .prefill .decode r.before.nPast r.before = r.before := by
        have hset : restrideActive spec .prefill .decode r.before.nPast r.before = r.before.setKV
          (restrideActive spec .prefill .decode r.before.nPast r.before).kv := rfl
        rw [hset, hkv]
        rfl
      rw [hsame, settle_nil hpending]
    · rfl
  rw [hbase] at hreached
  have hnone := (hreached.quiet h.greedy).1
  obtain ⟨s, c, clock, trace, hafter⟩ := hreached.state
  rw [hafter] at hnone ⊢
  have hs : s = r.before.sampler := hnone.trans h.noSampler.symm
  subst hs
  exact ⟨⟨c, clock, trace, rfl⟩, fun hne => absurd h.noSampler hne⟩

theorem unchanged_iff : Unchanged r.before r.after ↔ r.Bare := by
  obtain ⟨-, hreached⟩ := r.left
  constructor
  · intro h
    have hgreedy : r.cfg.enableSampling = false := by
      by_contra hon
      have hfed := (hreached.loud (by simpa using hon)).2.1 trivial
      rw [h.samplerCalls] at hfed
      exact lt_irrefl _ hfed
    refine ⟨hgreedy, h.sampler.symm.trans (hreached.quiet hgreedy).1, fun hnil => ?_⟩
    have hbase : rejectedBase spec r.prompt r.before = settle spec (fun _ => true)
      (restrideActive spec .prefill .decode r.before.nPast r.before) := if_pos hnil
    obtain ⟨s, c, clock, trace, hafter⟩ := hreached.state
    rw [hbase] at hafter
    have hpending : r.before.pending = [] := by
      rw [← h.pending, hafter]
      exact List.filter_false _
    have hkv := h.kv
    rw [hafter, settle_nil (w := restrideActive spec .prefill .decode r.before.nPast r.before)
      hpending] at hkv
    exact ⟨hpending, (r.restride_iff hnil).mp hkv⟩
  · intro h
    have htwin := r.twin h
    have hcalls := (hreached.quiet h.greedy).2
    obtain ⟨c, clock, trace, hafter⟩ := htwin.same
    rw [hafter] at hcalls ⊢
    exact ⟨rfl, rfl, rfl, rfl, rfl, rfl, hcalls, rfl⟩

theorem harmless_bare : r.Harmless ↔ r.Bare :=
  ⟨fun h => r.unchanged_iff.mp h.1, fun h => ⟨r.unchanged_iff.mpr h, fun _ _ _ _ =>
    ((Twin.generate _ _ _).result (r.twin h)).symm⟩⟩

end Rejection

end Rejected

end Geniex
