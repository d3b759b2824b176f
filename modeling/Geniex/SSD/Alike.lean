import Geniex.LLM.Replay
import Geniex.SSD.Instance

/-!
# Two tree decoders that go on alike

* `TreeAlike`: two instances of `SSDModel` with the same bookkeeping and the same bytes in what
  their graphs read.
* `SSDConfig.generate_alike`: a call keeps them alike.
* `SSDConfig.resetKVCache_alike`: a reset leaves what a new instance has.
-/

namespace Geniex

open Prog FlatMem

variable {ρ I : Type} {spec : LLMSpec} {env env' : Env Int32 ρ I} {w₀ v₀ w v : World Int32 ρ I}

/-- No shard of a pass is left out. -/
def NoSkip (_s : ℕ) : Prop := False

/-- Alike at the first context length, with nothing queued. -/
structure TreeAlike (spec : LLMSpec) (w₀ v₀ : World Int32 ρ I) (p : Phase)
    (w v : World Int32 ρ I) : Prop extends RestsAlike spec w₀ v₀ p w v where
  first : w.activeClIdx = 0

/-- After the first `s` shards of a pass. -/
structure TreePassed (spec : LLMSpec) (env : Env Int32 ρ I) (w₀ v₀ : World Int32 ρ I) (p : Phase)
    (s : ℕ) (w v : World Int32 ρ I) : Prop
    extends PassedAlike spec env w₀ v₀ p 0 NoSkip s w v where
  queue : w.pending = []

/-- The same, with the input of the next shard in place. -/
structure TreePassing (spec : LLMSpec) (env : Env Int32 ρ I) (w₀ v₀ : World Int32 ρ I) (p : Phase)
    (s : ℕ) (w v : World Int32 ρ I) : Prop
    extends PassingAlike spec env w₀ v₀ p 0 NoSkip s w v where
  queue : w.pending = []

theorem TreeAlike.carried (p : Phase) : Carried (TreeAlike spec w₀ v₀ p) where
  books h := RestsAlike.carried.books h.toRestsAlike
  log h e := ⟨RestsAlike.carried.log h.toRestsAlike e, h.first⟩
  setHistory h n l := ⟨RestsAlike.carried.setHistory h.toRestsAlike n l, h.first⟩
  setSampler h s c := ⟨RestsAlike.carried.setSampler h.toRestsAlike s c, h.first⟩
  mapSampler h f := ⟨RestsAlike.carried.mapSampler h.toRestsAlike f, h.first⟩
  setClock h k k' := ⟨RestsAlike.carried.setClock h.toRestsAlike k k', h.first⟩

theorem TreeAlike.left {p : Phase} (h : TreeAlike spec w₀ v₀ p w v) :
    TreeAlike spec w₀ v₀ .prefill w v := ⟨⟨h.toAlike.prefill, h.idle⟩, h.first⟩

theorem TreePassed.rests {p : Phase} {s : ℕ} (h : TreePassed spec env w₀ v₀ p s w v) :
    TreeAlike spec w₀ v₀ p w v := ⟨⟨h.alike, h.queue⟩, h.active⟩

theorem TreePassed.logits {p : Phase} (h : TreePassed spec env w₀ v₀ p spec.shardCount w v) :
    SameLogits spec p w v := h.toPassedAlike.logits not_false

theorem TreePassing.passed {p : Phase} {s : ℕ} (h : TreePassing spec env w₀ v₀ p s w v) :
    TreePassed spec env w₀ v₀ p s w v := ⟨h.toPassedAlike, h.queue⟩

theorem TreeAlike.start {p : Phase} (h : TreeAlike spec w₀ v₀ p w v) :
    TreePassing spec env w₀ v₀ p 0 w v where
  alike := h.toAlike
  active := h.first
  outs := nofun
  jobs := JobsAlike.of_nil h.idle
  idle _ := h.idle
  hidden := nofun
  queue := h.idle

namespace SSDConfig

variable {ssd : SSDConfig}

/-! ## Passes -/

theorem runShard_alike (hal : Aligned env env' w₀ v₀) {p : Phase} {s : ℕ} (hs : s < spec.shardCount)
    (ctx : RunContext Int32) (mask : ℕ → ℤ) (positions : List Int32) (msg : String) :
    InStep (TreePassing spec env w₀ v₀ p s)
      (runShard spec env p 0 ctx mask positions msg s : Run Int32 ρ I Unit)
      (runShard spec env' p 0 ctx mask positions msg s)
      (fun _ => TreePassed spec env w₀ v₀ p (s + 1)) fun _ => TreeAlike spec w₀ v₀ .prefill := by
  refine InStep.bind (R := fun _ => TreePassing spec env w₀ v₀ p s) (InStep.when Iff.rfl
    (fun _ => InStep.throw fun _ _ h => h.passed.rests.left) fun _ _ _ h => h) fun _ => ?_
  refine InStep.get fun w₁ v₁ h₁ => ?_
  have hinput : execInput spec env' s p 0 ctx mask positions v₁ =
      execInput spec env s p 0 ctx mask positions w₁ := by
    unfold execInput
    rw [h₁.toPassingAlike.execInput hal hs not_false]
  rw [hinput]
  have hexec : InStep (PassedAlike spec env w₀ v₀ p 0 NoSkip s)
      (execGraph spec env s p 0 ctx (execInput spec env s p 0 ctx mask positions w₁)
        (.executeFailed msg))
      (execGraph spec env' s p 0 ctx (execInput spec env s p 0 ctx mask positions w₁)
        (.executeFailed msg))
      (fun _ => PassedAlike spec env w₀ v₀ p 0 NoSkip (s + 1)) fun _ => LeftAlike spec env w₀ v₀ :=
    PassedAlike.execGraph hal ctx _ _
  intro w v hwv
  obtain ⟨rfl, rfl⟩ := hwv
  obtain ⟨hresult, hends⟩ := hexec w v h₁.toPassedAlike
  refine ⟨hresult, ?_⟩
  have hframe : ∀ e : Env Int32 ρ I, ∀ input u,
      (execGraph spec e s p 0 ctx input (.executeFailed msg) u).2.pending = u.pending ∧
        (execGraph spec e s p 0 ctx input (.executeFailed msg) u).2.activeClIdx =
          u.activeClIdx := by
    intro e input u
    unfold execGraph
    dsimp only
    cases e.exec u.tick (spec.graphIndex p s 0) input <;> exact ⟨rfl, rfl⟩
  obtain ⟨hqueue, hactive⟩ := hframe env (execInput spec env s p 0 ctx mask positions w) w
  cases hr : (execGraph spec env s p 0 ctx (execInput spec env s p 0 ctx mask positions w)
      (.executeFailed msg) w).1 with
  | ok u =>
    rw [hr] at hends
    exact ⟨hends, hqueue.trans h₁.queue⟩
  | error e =>
    rw [hr] at hends
    exact ⟨⟨hends.toAlike, hqueue.trans h₁.queue⟩, hactive.trans h₁.active⟩

theorem connect_alike {p : Phase} {s : ℕ} (h : TreePassed spec env w₀ v₀ p (s + 1) w v) :
    TreePassing spec env w₀ v₀ p (s + 1) (applyConnection spec p s 0 w)
      (applyConnection spec p s 0 v) :=
  ⟨h.toPassedAlike.connect not_false, h.queue⟩

/-- The next shard, if there is one. -/
theorem nextShard_alike {p : Phase} {s : ℕ} :
    InStep (TreePassed spec env w₀ v₀ p (s + 1))
      (Prog.when (s + 1 < spec.shardCount) (Prog.modify (applyConnection spec p s 0)) :
        Run Int32 ρ I Unit)
      (Prog.when (s + 1 < spec.shardCount) (Prog.modify (applyConnection spec p s 0)))
      (fun _ => TreePassing spec env w₀ v₀ p (s + 1)) fun _ => TreeAlike spec w₀ v₀ .prefill :=
  InStep.when Iff.rfl (fun _ => InStep.modify fun _ _ h => connect_alike h)
    fun hlast _ _ h => ⟨⟨h.toPassedAlike, fun _ hs _ => absurd hs hlast⟩, h.queue⟩

/-- A write-back of a shard that has run. -/
theorem updateKV_alike {p : Phase} {s n : ℕ} (h : TreePassed spec env w₀ v₀ p n w v) (hs : s < n)
    (off k : ℕ) :
    TreePassed spec env w₀ v₀ p n (updateKV spec s p off k w) (updateKV spec s p off k v) := by
  refine ⟨h.toPassedAlike.updateKV hs not_false off k, ?_⟩
  rw [updateKV_frame]
  exact h.queue

theorem runShardsWithTreeMask_alike (hal : Aligned env env' w₀ v₀) (tokens : List Int32) (off : ℕ) :
    InStep (TreeAlike spec w₀ v₀ .decode)
      (runShardsWithTreeMask ssd spec env tokens off : Run Int32 ρ I Unit)
      (runShardsWithTreeMask ssd spec env' tokens off)
      (fun _ => TreePassed spec env w₀ v₀ .decode spec.shardCount)
      fun _ => TreeAlike spec w₀ v₀ .prefill := by
  refine InStep.get fun w₁ v₁ h₁ => ?_
  have hactive : v₁.activeClIdx = 0 := h₁.active.trans h₁.first
  have hpast : v₁.nPast = w₁.nPast := h₁.nPast
  rw [hactive, hpast, h₁.first]
  refine InStep.bind (R := fun _ => TreeAlike spec w₀ v₀ .decode) (InStep.modify ?_) fun _ => ?_
  · rintro w v ⟨rfl, rfl⟩
    exact (TreeAlike.carried .decode).log h₁ _
  · refine (InStep.pre (InStep.forRange fun s hs => ?_) fun _ _ h => h.start).post
      fun _ _ _ h => ⟨h.toPassedAlike, h.queue⟩
    exact InStep.bind (runShard_alike hal hs _ _ _ _) fun _ => nextShard_alike

theorem prefillChunk_alike (hal : Aligned env env' w₀ v₀) (chunk : List Int32) :
    InStep (TreeAlike spec w₀ v₀ .prefill) (prefillChunk ssd spec env chunk : Run Int32 ρ I Unit)
      (prefillChunk ssd spec env' chunk)
      (fun _ w v => TreeAlike spec w₀ v₀ .prefill w v ∧ SameLogits spec .prefill w v)
      fun _ => TreeAlike spec w₀ v₀ .prefill := by
  refine InStep.get fun w₁ v₁ h₁ => ?_
  have hactive : v₁.activeClIdx = 0 := h₁.active.trans h₁.first
  have hpast : v₁.nPast = w₁.nPast := h₁.nPast
  rw [hactive, hpast, h₁.first]
  refine InStep.bind (R := fun _ => TreeAlike spec w₀ v₀ .prefill) (InStep.modify ?_) fun _ => ?_
  · rintro w v ⟨rfl, rfl⟩
    exact (TreeAlike.carried .prefill).log h₁ _
  refine InStep.bind (R := fun _ => TreePassing spec env w₀ v₀ .prefill spec.shardCount)
    (InStep.pre (InStep.forRange fun s hs => ?_) fun _ _ h => h.start) fun _ => InStep.modify ?_
  · refine InStep.bind (runShard_alike hal hs _ _ _ _) fun _ => InStep.bind
      (R := fun _ => TreePassed spec env w₀ v₀ .prefill (s + 1)) (InStep.modify ?_) fun _ =>
      nextShard_alike
    intro w v h
    exact updateKV_alike h (Nat.lt_succ_self s) _ _
  · intro w v h
    have hpassed : TreePassed spec env w₀ v₀ .prefill spec.shardCount w v :=
      ⟨h.toPassedAlike, h.queue⟩
    have hlogits := hpassed.logits
    refine ⟨⟨⟨{ h.alike with nPast := congrArg (· + chunk.length) h.alike.nPast }, h.queue⟩,
      h.active⟩, fun off => hlogits off⟩

/-- The loop over the chunks. With a token left, or the logits of a chunk, its last logits are the
same. -/
theorem prefillLoop_alike (hal : Aligned env env' w₀ v₀) (fuel : ℕ) (tokens : List Int32) (last : ℕ)
    (hfuel : tokens.length ≤ fuel) :
    InStep (fun w v => TreeAlike spec w₀ v₀ .prefill w v ∧
        (tokens = [] → SameLogits spec .prefill w v))
      (prefillLoop ssd spec env fuel tokens last : Run Int32 ρ I ℕ)
      (prefillLoop ssd spec env' fuel tokens last)
      (fun _ w v => TreeAlike spec w₀ v₀ .prefill w v ∧ SameLogits spec .prefill w v)
      fun _ => TreeAlike spec w₀ v₀ .prefill := by
  induction fuel generalizing tokens last with
  | zero =>
    have hnil : tokens = [] := List.length_eq_zero_iff.mp (Nat.le_zero.mp hfuel)
    exact InStep.pure fun _ _ h => ⟨h.1, h.2 hnil⟩
  | succ fuel ih =>
    have hpos : 0 < spec.seqLenPrefill := spec.seqLen_pos .prefill
    refine InStep.ite Iff.rfl (fun hnil => InStep.pure fun _ _ h => ⟨h.1, h.2 hnil⟩) fun hne =>
      InStep.bind ((prefillChunk_alike hal _).pre fun _ _ h => h.1) fun _ =>
        (ih _ _ ?_).pre fun _ _ h => ⟨h.1, fun _ => h.2⟩
    have hlen : 0 < tokens.length := List.length_pos_iff.mpr hne
    rw [List.length_drop]
    omega

theorem prefillStage_alike (hal : Aligned env env' w₀ v₀) (hpad : Padded spec) {prompt : List Int32}
    (hprompt : prompt ≠ []) :
    InStep (TreeAlike spec w₀ v₀ .prefill) (prefillStage ssd spec env prompt : Run Int32 ρ I Int32)
      (prefillStage ssd spec env' prompt) (fun _ => TreeAlike spec w₀ v₀ .decode)
      fun _ => TreeAlike spec w₀ v₀ .prefill := by
  refine InStep.get fun w₁ v₁ h₁ => ?_
  have hpast : v₁.nPast = w₁.nPast := h₁.nPast
  rw [hpast]
  refine InStep.bind (R := fun _ => TreeAlike spec w₀ v₀ .prefill) (InStep.modify ?_) fun _ =>
    InStep.bind ((prefillLoop_alike hal _ prompt 0 le_rfl).pre fun _ _ h =>
      ⟨h, fun hnil => absurd hnil hprompt⟩) fun last => InStep.bind
      (R := fun _ w v => TreeAlike spec w₀ v₀ .decode w v ∧ SameLogits spec .prefill w v)
      (InStep.modify ?_) fun _ => (TreeAlike.carried .decode).sampleNextToken hal.sample.symm _ _
  · rintro w v ⟨rfl, rfl⟩
    exact (TreeAlike.carried .prefill).log h₁ _
  · intro w v h
    rw [h.1.nPast]
    exact ⟨⟨⟨h.1.toAlike.restride hpad _ _, h.1.idle⟩, h.1.first⟩, fun off => h.2 off⟩

/-! ## Steps -/

/-- The same rows of logits. -/
theorem readLogitsAt_alike (h : SameLogits spec .decode w v) :
    readLogitsAt spec v = readLogitsAt spec w := by
  funext position
  exact (h position).symm

theorem answerAt_alike (h : SameLogits spec .decode w v) : answerAt spec v = answerAt spec w := by
  unfold answerAt
  rw [readLogitsAt_alike h]

theorem initialStep_alike (hal : Aligned env env' w₀ v₀) (first : Int32) :
    InStep (TreeAlike spec w₀ v₀ .decode) (initialStep ssd spec env first : Run Int32 ρ I Unit)
      (initialStep ssd spec env' first)
      (fun _ w v => TreeAlike spec w₀ v₀ .decode w v ∧ SameLogits spec .decode w v)
      fun _ => TreeAlike spec w₀ v₀ .prefill := by
  have hloop : ∀ n ≤ spec.shardCount, ∀ {w v : World Int32 ρ I},
      TreePassed spec env w₀ v₀ .decode spec.shardCount w v →
      TreePassed spec env w₀ v₀ .decode spec.shardCount
        (upto (fun s w => updateKV spec s .decode w.nPast 1 w) n w)
        (upto (fun s w => updateKV spec s .decode w.nPast 1 w) n v) := by
    intro n
    induction n with
    | zero => exact fun _ _ _ h => h
    | succ n ih =>
      intro hn w v h
      have hn' := ih (by omega) h
      show TreePassed spec env w₀ v₀ .decode spec.shardCount
        (updateKV spec n .decode (upto _ n w).nPast 1 (upto _ n w))
        (updateKV spec n .decode (upto _ n v).nPast 1 (upto _ n v))
      rw [hn'.alike.nPast]
      exact updateKV_alike hn' (by omega) _ _
  refine InStep.bind (runShardsWithTreeMask_alike hal _ _) fun _ => InStep.bind
    (R := fun _ => TreePassed spec env w₀ v₀ .decode spec.shardCount) (InStep.modify ?_) fun _ =>
    InStep.modify ?_
  · intro w v h
    exact hloop _ le_rfl h
  · intro w v h
    have hlogits := h.logits
    exact ⟨⟨⟨{ h.alike with nPast := congrArg (· + 1) h.alike.nPast }, h.queue⟩, h.active⟩,
      fun off => hlogits off⟩

theorem copyRunsTo_agree {t : KVTensor} {src : ℕ → UInt8} {srcLen dstLen i : ℕ}
    (runs : List CopyRun) (dstCol : ℕ) {m m' : ℕ → UInt8} (h : m' i = m i) :
    copyRunsTo spec t src srcLen dstLen runs dstCol m' i =
      copyRunsTo spec t src srcLen dstLen runs dstCol m i := by
  induction runs generalizing dstCol m m' with
  | nil => exact h
  | cons r runs ih => exact ih _ (copyKV_agree h)

theorem selectiveKVUpdate_alike (selected : List Bool)
    (h : TreePassed spec env w₀ v₀ .decode spec.shardCount w v) :
    TreePassed spec env w₀ v₀ .decode spec.shardCount (selectiveKVUpdate spec selected w)
      (selectiveKVUpdate spec selected v) := by
  have hpast : v.nPast = w.nPast := h.alike.nPast
  have hlog : SameLog w₀ v₀ (selectiveKVUpdate spec selected w)
      (selectiveKVUpdate spec selected v) := by
    refine h.alike.sameLog.append _ _ ?_ rfl rfl
    rw [hpast]
  refine ⟨⟨{ h.alike with kv := fun t ht i hi => ?_, sameLog := hlog }, h.active, h.outs,
    ⟨h.jobs.outs, h.jobs.pooled⟩, h.idle⟩, h.queue⟩
  have hout := h.outs t.shard (shard_lt_of_hasTensor ht) not_false
  unfold selectiveKVUpdate
  dsimp only
  rw [if_pos ht, if_pos ht, hout, hpast]
  exact copyRunsTo_agree _ _ (h.alike.kv t ht i hi)

/-- At the head of the decode loop. -/
def HeadsAlike (spec : LLMSpec) (w₀ v₀ w v : World Int32 ρ I) : Prop :=
  TreeAlike spec w₀ v₀ .decode w v ∧ SameLogits spec .decode w v

theorem HeadsAlike.log (h : HeadsAlike spec w₀ v₀ w v) (e : Event Int32 I) :
    HeadsAlike spec w₀ v₀ (w.log e) (v.log e) :=
  ⟨(TreeAlike.carried .decode).log h.1 e, fun off => h.2 off⟩

theorem treeStep_alike (hal : Aligned env env' w₀ v₀) (tree : List Int32) :
    InStep (HeadsAlike spec w₀ v₀)
      (treeStep ssd spec env tree : Run Int32 ρ I (List Int32 × List ℕ))
      (treeStep ssd spec env' tree) (fun _ => HeadsAlike spec w₀ v₀)
      fun _ => TreeAlike spec w₀ v₀ .prefill := by
  refine InStep.bind ((runShardsWithTreeMask_alike hal _ _).pre fun _ _ h => h.1) fun _ =>
    InStep.get fun w₁ v₁ h₁ => ?_
  have hpast : v₁.nPast = w₁.nPast := h₁.alike.nPast
  dsimp only
  rw [answerAt_alike h₁.logits, hpast]
  refine InStep.bind (R := fun _ => TreePassed spec env w₀ v₀ .decode spec.shardCount)
    (InStep.modify ?_) fun _ => InStep.bind
    (R := fun _ => TreePassed spec env w₀ v₀ .decode spec.shardCount) (InStep.modify ?_) fun _ =>
    InStep.bind (R := fun _ => HeadsAlike spec w₀ v₀) (InStep.modify ?_) fun _ =>
    InStep.pure fun _ _ h => h
  · rintro w v ⟨rfl, rfl⟩
    exact ⟨h₁.toPassedAlike.log _, h₁.queue⟩
  · intro w v h
    exact selectiveKVUpdate_alike _ h
  · intro w v h
    have hlogits := h.logits
    exact ⟨⟨⟨{ h.alike with nPast := congrArg (· + _) h.alike.nPast }, h.queue⟩, h.active⟩,
      fun off => hlogits off⟩

/-- The accepted tokens are said alike. -/
theorem speak_alike (callback : List Int32 → CallbackAnswer) (accepted out : List Int32) :
    InStep (HeadsAlike spec w₀ v₀) (speak spec callback accepted out : Run Int32 ρ I _)
      (speak spec callback accepted out) (fun _ => HeadsAlike spec w₀ v₀)
      fun _ => TreeAlike spec w₀ v₀ .prefill := by
  induction accepted generalizing out with
  | nil => exact InStep.pure fun _ _ h => h
  | cons tok rest ih =>
    have hlog : ∀ e : Event Int32 I, InStep (HeadsAlike spec w₀ v₀)
        (Prog.modify (World.log e) : Run Int32 ρ I Unit) (Prog.modify (World.log e))
        (fun _ => HeadsAlike spec w₀ v₀) fun _ => TreeAlike spec w₀ v₀ .prefill :=
      fun e => InStep.modify fun _ _ h => h.log e
    refine InStep.bind (hlog _) fun _ => InStep.ite Iff.rfl
      (fun _ => InStep.pure fun _ _ h => h) fun _ => InStep.bind (hlog _) fun _ => ?_
    cases callback (out ++ [tok]) with
    | stop => exact InStep.pure fun _ _ h => h
    | throw => exact InStep.throw fun _ _ h => h.1.left
    | «continue» => exact ih _

theorem decodeLoop_alike (hal : Aligned env env' w₀ v₀) (maxTokens : Int32)
    (callback : List Int32 → CallbackAnswer) (n : ℕ) (tree out : List Int32) :
    InStep (HeadsAlike spec w₀ v₀)
      (decodeLoop ssd spec env maxTokens callback n tree out : Run Int32 ρ I _)
      (decodeLoop ssd spec env' maxTokens callback n tree out) (fun _ => HeadsAlike spec w₀ v₀)
      fun _ => TreeAlike spec w₀ v₀ .prefill := by
  induction n generalizing tree out with
  | zero => exact InStep.pure fun _ _ h => h
  | succ n ih =>
    refine InStep.get fun w₁ v₁ h₁ => ?_
    have hpast : v₁.nPast = w₁.nPast := h₁.1.nPast
    have hactive : v₁.activeClIdx = w₁.activeClIdx := h₁.1.active
    rw [hpast, hactive]
    apply InStep.ite Iff.rfl
    · intro _
      apply InStep.pure
      rintro w v ⟨rfl, rfl⟩
      exact h₁
    · intro _
      refine InStep.bind (InStep.pre (treeStep_alike hal tree) ?_) fun accepted => InStep.bind
        (speak_alike callback accepted.1 out) fun said => InStep.ite Iff.rfl
        (fun _ => InStep.pure fun _ _ h => h) fun _ => InStep.get fun w₂ v₂ h₂ => ?_
      · rintro w v ⟨rfl, rfl⟩
        exact h₁
      · have htree : nextTree ssd spec accepted v₂ = nextTree ssd spec accepted w₂ := by
          unfold nextTree
          rw [readLogitsAt_alike h₂.2]
        rw [htree]
        refine (ih _ _).pre ?_
        rintro w v ⟨rfl, rfl⟩
        exact h₂

theorem decodeStage_alike (hal : Aligned env env' w₀ v₀) (cfg : GenerationConfig)
    (callback : List Int32 → CallbackAnswer) (first : Int32) :
    InStep (TreeAlike spec w₀ v₀ .decode)
      (decodeStage ssd spec env cfg callback first : Run Int32 ρ I _)
      (decodeStage ssd spec env' cfg callback first) (fun _ => TreeAlike spec w₀ v₀ .decode)
      fun _ => TreeAlike spec w₀ v₀ .prefill := by
  refine InStep.bind (initialStep_alike hal first) fun _ => InStep.get fun w₁ v₁ h₁ => ?_
  rw [readLogitsAt_alike h₁.2]
  refine ((decodeLoop_alike hal _ callback _ _ _).pre ?_).post fun _ _ _ h => h.1
  rintro w v ⟨rfl, rfl⟩
  exact h₁

/-- **A call keeps two tree decoders alike.** -/
theorem generate_alike (hal : Aligned env env' w₀ v₀) (hpad : Padded spec) {prompt : List Int32}
    (hprompt : prompt ≠ []) (cfg : GenerationConfig) (callback : List Int32 → CallbackAnswer) :
    InStep (TreeAlike spec w₀ v₀ .prefill)
      (generate ssd spec env prompt cfg callback : Run Int32 ρ I _)
      (generate ssd spec env' prompt cfg callback) (fun _ => TreeAlike spec w₀ v₀ .prefill)
      fun _ => TreeAlike spec w₀ v₀ .prefill := by
  refine InStep.bind (R := fun _ => TreeAlike spec w₀ v₀ .decode) ?_ fun out => InStep.bind
    (R := fun _ => TreeAlike spec w₀ v₀ .prefill) (InStep.modify ?_) fun _ =>
    InStep.pure fun _ _ h => h
  · refine InStep.bind (prefillStage_alike hal hpad hprompt) fun first => InStep.ite Iff.rfl
      (fun _ => InStep.pure fun _ _ h => h) fun _ => InStep.bind
      (R := fun _ => TreeAlike spec w₀ v₀ .decode) (InStep.modify fun _ _ h =>
        (TreeAlike.carried .decode).log h _) fun _ => ?_
    cases callback [first] with
    | stop => exact InStep.pure fun _ _ h => h
    | throw => exact InStep.throw fun _ _ h => h.left
    | «continue» => exact decodeStage_alike hal cfg callback first
  · intro w v h
    rw [h.nPast]
    exact ⟨⟨h.toAlike.restride hpad _ _, h.idle⟩, h.first⟩

/-! ## Later calls -/

/-- **Tree decoders that are alike do the same in all later calls.** -/
theorem sameFrom_alike (h : TreeAlike spec w₀ v₀ .prefill w₀ v₀) (hal : Aligned env env' w₀ v₀)
    (hpad : Padded spec) :
    SameFrom spec (fun c : Request Int32 => generate ssd spec env c.prompt c.cfg c.callback)
      (fun c => generate ssd spec env' c.prompt c.cfg c.callback) Request.Ready w₀ v₀ := by
  have hsettle : ∀ (done : KVJob → Bool) (w : World Int32 ρ I), w.pending = [] →
      settle spec done w = w := by
    intro done w hidle
    unfold settle
    rw [hidle]
    show { w with pending := [] } = w
    rw [← hidle]
  refine SameFrom.of_step (R := TreeAlike spec w₀ v₀ .prefill) h ?_ ?_ fun h => h.sameLog
  · intro w v h done
    rwa [hsettle done w h.idle, hsettle done v (h.pending.trans h.idle)]
  · intro c w v h hok
    have hcall : InStep (TreeAlike spec w₀ v₀ .prefill)
        (ssd.generate spec env c.prompt c.cfg c.callback)
        (ssd.generate spec env' c.prompt c.cfg c.callback)
        (fun _ => TreeAlike spec w₀ v₀ .prefill) fun _ => TreeAlike spec w₀ v₀ .prefill :=
      generate_alike hal hpad hok.1 c.cfg c.callback
    exact ⟨hcall.result h, hcall.snd (fun _ _ _ h => h) (fun _ _ _ h => h) h⟩

/-! ## A reset -/

/-- What is read does not depend on what it overwrites. -/
theorem readRows_stream (stride n : ℕ) :
    ∀ (k row : ℕ) (f : ByteStream) (m m' : ℕ → UInt8),
      (readRows stride n k row f m').2 = (readRows stride n k row f m).2 := by
  intro k
  induction k with
  | zero => exact fun _ _ _ _ => rfl
  | succ k ih => exact fun _ _ _ _ => ih _ _ _ _

theorem readRows_agree (stride n : ℕ) {i : ℕ} :
    ∀ (k row : ℕ) (f : ByteStream) {m m' : ℕ → UInt8}, m' i = m i →
      (readRows stride n k row f m').1 i = (readRows stride n k row f m).1 i := by
  intro k
  induction k with
  | zero => exact fun _ _ _ _ h => h
  | succ k ih =>
    intro row f m m' h
    apply ih
    unfold memcpy
    split_ifs
    · rfl
    · exact h

/-- The prefix is loaded over buffers that agree at a byte. -/
theorem loadForecastPrefix_agree (clIdx : ℕ) {kv kv' : KVMem} {t : KVTensor} {i : ℕ}
    (h : kv' t i = kv t i) :
    loadForecastPrefix ssd spec clIdx kv' t i = loadForecastPrefix ssd spec clIdx kv t i := by
  have hstep : ∀ (hd : PrefixHeader) (u : KVTensor) {s s' : KVMem × ByteStream},
      s'.1 t i = s.1 t i ∧ s'.2 = s.2 →
      (loadPrefixTensor spec hd clIdx u s').1 t i = (loadPrefixTensor spec hd clIdx u s).1 t i ∧
        (loadPrefixTensor spec hd clIdx u s').2 = (loadPrefixTensor spec hd clIdx u s).2 := by
    rintro hd u ⟨kv, f⟩ ⟨kv', f'⟩ ⟨hkv, hf⟩
    obtain rfl : f' = f := hf
    have hstream := readRows_stream (spec.kvLen .prefill clIdx * spec.tokenSize u)
      (hd.updateSize * spec.tokenSize u) (spec.rows u) 0 f' (kv u) (kv' u)
    unfold loadPrefixTensor
    dsimp only
    refine ⟨?_, by rw [hstream]⟩
    by_cases htu : t = u
    · subst htu
      rw [Function.update_self, Function.update_self]
      exact readRows_agree _ _ _ _ _ hkv
    · rw [Function.update_of_ne htu, Function.update_of_ne htu]
      exact hkv
  have hfold : ∀ (hd : PrefixHeader) (ts : List KVTensor) {s s' : KVMem × ByteStream},
      s'.1 t i = s.1 t i ∧ s'.2 = s.2 →
      (ts.foldl (fun s u => loadPrefixTensor spec hd clIdx u s) s').1 t i =
        (ts.foldl (fun s u => loadPrefixTensor spec hd clIdx u s) s).1 t i := by
    intro hd ts
    induction ts with
    | nil => exact fun hs => hs.1
    | cons u ts ih => exact fun hs => ih (hstep hd u hs)
  unfold loadForecastPrefix
  cases ssd.prefixFile with
  | none => exact h
  | some file =>
    dsimp only
    split_ifs
    · exact h
    · exact hfold _ _ ⟨h, rfl⟩

/-- A reset with nothing queued leaves what a new instance has. -/
theorem resetKVCache_alike (env : Env Int32 ρ I) (hpad : Padded spec) {w : World Int32 ρ I}
    (hidle : w.pending = [])
    (kv : KVMem) (outs : ℕ → GraphOut) (hiddenIn : ℕ → ℕ → UInt8) :
    TreeAlike spec (ssd.resetKVCache spec w) (ssd.initWorld spec w.providers kv outs hiddenIn)
      .prefill (ssd.resetKVCache spec w) (ssd.initWorld spec w.providers kv outs hiddenIn) := by
  have hbase : LeftAlike spec env (Geniex.resetKVCache spec w)
      (Geniex.initWorld spec w.providers kv outs hiddenIn) (Geniex.resetKVCache spec w)
      (Geniex.initWorld spec w.providers kv outs hiddenIn) :=
    Geniex.resetKVCache_alike hpad hidle kv outs hiddenIn
  refine ⟨⟨{ hbase.toAlike with nPast := rfl, kv := fun t ht i hi => ?_ }, hidle⟩, rfl⟩
  exact loadForecastPrefix_agree 0 (hbase.kv t ht i hi)

end SSDConfig

end Geniex
