import Geniex.LLM.Sampling
import Geniex.LLM.WriteBack

/-!
# The rows of the logits

`readLastLogits` takes a row index and checks it against nothing.

* `RowComputed`: the row is one of the rows that the newest pass of the call has filled.
* `LogitsRead`: the rows that a call reads.
* `readsComputed_iff`: they are computed if and only if the prompt is not empty.
-/

namespace Geniex

open Prog

variable {τ ρ I : Type} {spec : LLMSpec} {env : Env τ ρ I}

/-! ## The newest pass -/

/-- The newest execution since `w₀` is that of shard `s` with the context `ctx`, at the context
length that is active in `w`. -/
def Newest (w₀ : World τ ρ I) (ctx : RunContext τ) (s : ℕ) (w : World τ ρ I) : Prop :=
  ∃ es x, w.trace = es ++ w₀.trace ∧ (execs es).head? = some x ∧ x.phase = ctx.phase ∧
    x.shard = s ∧ x.clIdx = w.activeClIdx ∧ x.ctx = ctx

/-- The last shard has executed last, on `tokens`. -/
def LastPass (spec : LLMSpec) (w₀ : World τ ρ I) (phase : Phase) (tokens : List τ)
    (w : World τ ρ I) : Prop :=
  ∃ n, Newest w₀ ⟨tokens, n, tokens.length, phase⟩ (spec.shardCount - 1) w

/-- Row `row` of the logits, read in `w` by a call that started in `w₀`, is one of its graph's
rows, and the graph has just filled it with one of the tokens of the call. -/
def RowComputed (spec : LLMSpec) (w₀ w : World τ ρ I) (phase : Phase) (row : ℕ) : Prop :=
  row < spec.seqLen phase ∧ ∃ tokens, LastPass spec w₀ phase tokens w ∧ row < tokens.length

/-- `w` comes after `w₀`, at the context length `a`. -/
structure After (w₀ : World τ ρ I) (a : ℕ) (w : World τ ρ I) : Prop where
  trace : w₀.trace <:+ w.trace
  active : w.activeClIdx = a

variable {w₀ w w' : World τ ρ I} {ctx : RunContext τ} {s a : ℕ}

theorem execs_append (es es' : List (Event τ I)) : execs (es ++ es') = execs es ++ execs es' := by
  induction es with
  | nil => rfl
  | cons e es ih => cases e <;> simp [execs, ih]

/-- Without an execution the newest one stays. -/
theorem Newest.still (h : Newest w₀ ctx s w) (ha : w'.activeClIdx = w.activeClIdx)
    (ht : ∃ es, (∀ x, Event.exec x ∉ es) ∧ w'.trace = es ++ w.trace) : Newest w₀ ctx s w' := by
  obtain ⟨es, x, hes, hx, h1, h2, h3, h4⟩ := h
  obtain ⟨es', hno, ht⟩ := ht
  have hnone : execs es' = [] :=
    List.eq_nil_iff_forall_not_mem.mpr fun x hx => hno x (mem_execs.mp hx)
  refine ⟨es' ++ es, x, by rw [ht, hes, List.append_assoc], ?_, h1, h2, h3.trans ha.symm, h4⟩
  rw [execs_append, hnone, List.nil_append, hx]

theorem Newest.plain (h : Newest w₀ ctx s w) (ha : w'.activeClIdx = w.activeClIdx)
    (ht : w'.trace = w.trace) : Newest w₀ ctx s w' :=
  h.still ha ⟨[], by simp, ht⟩

theorem Newest.log (h : Newest w₀ ctx s w) {e : Event τ I} (he : ∀ x, e ≠ .exec x) :
    Newest w₀ ctx s (w.log e) :=
  h.still rfl ⟨[e], fun x hx => he x (List.mem_singleton.mp hx).symm, rfl⟩

theorem Newest.updateKV (h : Newest w₀ ctx s w) (s' : ℕ) (phase : Phase) (off n : ℕ) :
    Newest w₀ ctx s (updateKV spec s' phase off n w) := by
  obtain ⟨es, ht, hes⟩ := updateKV_trace spec s' phase off n w
  refine h.still (by simp) ⟨es, fun x hx => ?_, ht⟩
  cases hes _ hx

theorem Newest.after (h : Newest w₀ ctx s w) : w₀.trace <:+ w.trace := by
  obtain ⟨es, x, hes, -⟩ := h
  exact ⟨es, hes.symm⟩

theorem After.execGraph (shard : ℕ) (input : ExecIn I) (err : Err) :
    Triple (After w₀ a) (execGraph spec env shard ctx.phase a ctx input err)
      (fun _ w => Newest w₀ ctx shard w ∧ w.activeClIdx = a) (fun _ _ => True) := by
  rintro w ⟨⟨es, ht⟩, ha⟩
  unfold Geniex.execGraph
  dsimp only
  cases env.exec w.tick _ _ with
  | none => trivial
  | some out =>
    refine ⟨⟨.exec ⟨ctx.phase, shard, a, ctx, input, w.produced⟩ :: es, _, ?_, rfl, rfl, rfl,
      ha.symm, rfl⟩, ha⟩
    show Event.exec _ :: w.trace = _
    rw [← ht, List.cons_append]

theorem After.background (h : After w₀ a w) : After w₀ a (background spec env w) := by
  unfold Geniex.background
  split_ifs
  · exact h
  · obtain ⟨h1, -, -, -, -, es, h6, -⟩ :=
      runJobs_frame spec (w.pending.filter (env.finishes w.tick)) w
    exact ⟨h.trace.trans ⟨es, h6.symm⟩, h1.trans h.active⟩

theorem After.runShard (shard : ℕ) :
    Triple (After w₀ a) (runShard spec env shard ctx.phase a ctx)
      (fun _ w => Newest w₀ ctx shard w ∧ w.activeClIdx = a) (fun _ _ => True) :=
  Triple.bind (Triple.modify fun _ h => h.background) fun _ =>
    Triple.get fun _ hw₁ => (After.execGraph _ _ _).pre fun _ hw => hw ▸ hw₁

/-- The shards of a pass, each of which executes last. -/
theorem After.shards {body : ℕ → Run τ ρ I Unit}
    (h : ∀ s, Triple (After w₀ a) (body s) (fun _ w => Newest w₀ ctx s w ∧ w.activeClIdx = a)
      fun _ _ => True) :
    Triple (After w₀ a) (Prog.forRange spec.shardCount body)
      (fun _ w => Newest w₀ ctx (spec.shardCount - 1) w ∧ w.activeClIdx = a) fun _ _ => True := by
  have hloop : Triple (fun w => After w₀ a w ∧ (0 ≠ 0 → Newest w₀ ctx (0 - 1) w))
      (Prog.forRange spec.shardCount body) (fun _ w => After w₀ a w ∧
        (spec.shardCount ≠ 0 → Newest w₀ ctx (spec.shardCount - 1) w)) fun _ _ => True :=
    Triple.forRange (I := fun s w => After w₀ a w ∧ (s ≠ 0 → Newest w₀ ctx (s - 1) w))
      fun s _ => (h s).conseq (fun _ hw => hw.1)
        (fun _ w hw => ⟨⟨hw.1.after, hw.2⟩, fun _ => hw.1⟩) fun _ _ h => h
  exact hloop.conseq (fun w hw => ⟨hw, fun h => absurd rfl h⟩)
    (fun _ w hw => ⟨hw.2 spec.shardCount_pos.ne', hw.1.active⟩) fun _ _ h => h

/-! ## The passes of a call -/

theorem prefillShard_newest (clIdx : ℕ) (hctx : ctx.phase = .prefill) (s : ℕ) :
    Triple (After w₀ clIdx) (prefillShard spec env true clIdx ctx s)
      (fun _ w => Newest w₀ ctx s w ∧ w.activeClIdx = clIdx) (fun _ _ => True) := by
  have hrun : Triple (After w₀ clIdx) (runShard spec env s ctx.phase clIdx ctx)
      (fun _ w => Newest w₀ ctx s w ∧ w.activeClIdx = clIdx) (fun _ _ => True) := After.runShard s
  rw [hctx] at hrun
  refine Triple.when (fun _ => ?_) fun h => absurd (fun h => absurd h.1 (by simp)) h
  refine Triple.bind hrun fun _ => Triple.bind (R := fun _ w => Newest w₀ ctx s w ∧
    w.activeClIdx = clIdx) (Triple.modify fun w hw => ⟨hw.1.updateKV _ _ _ _, by simp [hw.2]⟩)
    fun _ => ?_
  exact Triple.when (fun _ => Triple.modify fun w hw => ⟨hw.1.plain rfl rfl, hw.2⟩)
    fun _ _ hw => hw

theorem decodeShard_newest (clIdx : ℕ) (hctx : ctx.phase = .decode) (s : ℕ) :
    Triple (After w₀ clIdx) (decodeShard spec env clIdx ctx s)
      (fun _ w => Newest w₀ ctx s w ∧ w.activeClIdx = clIdx) (fun _ _ => True) := by
  have hrun : Triple (After w₀ clIdx) (runShard spec env s ctx.phase clIdx ctx)
      (fun _ w => Newest w₀ ctx s w ∧ w.activeClIdx = clIdx) (fun _ _ => True) := After.runShard s
  rw [hctx] at hrun
  refine Triple.bind hrun fun _ => Triple.bind (R := fun _ w => Newest w₀ ctx s w ∧
    w.activeClIdx = clIdx) (Triple.modify fun w hw => ?_) fun _ =>
    Triple.when (fun _ => Triple.modify fun w hw => ⟨hw.1.plain rfl rfl, hw.2⟩) fun _ _ hw => hw
  unfold writeBack
  split_ifs
  · exact ⟨hw.1.plain rfl rfl, hw.2⟩
  · exact ⟨hw.1.updateKV _ _ _ _, by simp [hw.2]⟩

/-- The final chunk of a prefill ends with the last shard. -/
theorem prefillChunk_lastPass (chunk : List τ) :
    Triple (fun w => w₀.trace <:+ w.trace) (prefillChunk spec env true chunk)
      (fun _ => LastPass spec w₀ .prefill chunk) (fun _ _ => True) := by
  refine Triple.get fun w₁ hw₁ => ?_
  refine Triple.bind (R := fun _ w => w₀.trace <:+ w.trace)
    (Triple.modify fun w hw => ?_) fun _ => ?_
  · subst hw
    exact hw₁.trans (List.suffix_cons _ _)
  refine Triple.bind (R := fun _ w => w₀.trace <:+ w.trace)
    (Triple.modify fun w hw => by rwa [promoteCL_trace]) fun _ => Triple.get fun w₂ hw₂ => ?_
  refine Triple.bind ((After.shards fun s => prefillShard_newest w₂.activeClIdx rfl s).pre
    fun w hw => by subst hw; exact ⟨hw₂, rfl⟩) fun _ => Triple.modify fun w hw => ?_
  exact ⟨w₁.nPast, hw.1.plain rfl rfl⟩

/-- A prefill of a prompt that is not empty ends with the last shard on its last chunk. -/
theorem prefillLoop_lastPass (fuel : ℕ) (tokens : List τ) (last : ℕ) (hne : tokens ≠ [])
    (hfuel : tokens.length ≤ fuel) :
    Triple (fun w => w₀.trace <:+ w.trace) (prefillLoop spec env fuel tokens last)
      (fun n w => ∃ chunk, LastPass spec w₀ .prefill chunk w ∧ n = chunk.length ∧ chunk ≠ [] ∧
        chunk.length ≤ spec.seqLenPrefill) (fun _ _ => True) := by
  have hpos : 0 < spec.seqLenPrefill := spec.seqLen_pos .prefill
  induction fuel generalizing tokens last with
  | zero => exact absurd (List.length_eq_zero_iff.mp (Nat.le_zero.mp hfuel)) hne
  | succ fuel ih =>
    have hlen : 0 < tokens.length := List.length_pos_of_ne_nil hne
    refine Triple.ite (fun h => absurd h hne) fun _ => ?_
    by_cases hfinal : tokens.length ≤ spec.seqLenPrefill
    · rw [decide_eq_true hfinal]
      refine Triple.bind (prefillChunk_lastPass _) fun _ => ?_
      rw [List.drop_of_length_le hfinal, List.take_of_length_le hfinal]
      have hrest : prefillLoop spec env fuel ([] : List τ) tokens.length = pure tokens.length := by
        cases fuel <;> rfl
      rw [hrest]
      exact Triple.pure fun w hw => ⟨tokens, hw, rfl, hne, hfinal⟩
    · refine Triple.bind (((logGrows w₀.trace).chunk _ _).conseq (fun _ h => h) (fun _ _ h => h)
        fun _ _ _ => trivial) fun _ => ?_
      refine ih _ _ (List.ne_nil_of_length_pos ?_) ?_ <;> rw [List.length_drop] <;> omega

theorem decodeForward_lastPass (tok : τ) :
    Triple (fun w => w₀.trace <:+ w.trace) (decodeForward spec env tok)
      (fun _ => LastPass spec w₀ .decode [tok]) (fun _ _ => True) := by
  refine Triple.get fun w₁ hw₁ => ?_
  refine Triple.bind (R := fun _ w => w₀.trace <:+ w.trace)
    (Triple.modify fun w hw => ?_) fun _ => ?_
  · subst hw
    exact hw₁.trans (List.suffix_cons _ _)
  refine Triple.bind (R := fun _ w => w₀.trace <:+ w.trace)
    (Triple.modify fun w hw => by rwa [promoteCL_trace]) fun _ => Triple.get fun w₂ hw₂ => ?_
  refine Triple.bind ((After.shards fun s => decodeShard_newest w₂.activeClIdx rfl s).pre
    fun w hw => by subst hw; exact ⟨hw₂, rfl⟩) fun _ => Triple.modify fun w hw => ?_
  exact ⟨w₁.nPast, (hw.1.log (e := .appended [tok]) (by simp)).plain rfl rfl⟩

/-! ## The rows that a call reads -/

section Reads

variable [Token τ]

variable (spec env) in
/-- `prefillStage` up to its sampling, with the size of the last chunk. -/
def prefillPrompt (prompt : List τ) (cfg : GenerationConfig) : Run τ ρ I ℕ := do
  let w ← Prog.get
  Prog.modify (World.log (.enter w.nPast prompt.length))
  Prog.modify (prepareSampler cfg prompt)
  ensureRoom spec env cfg prompt.length false (promptExceedsMsg spec)
  let last ← prefillChunks spec env prompt
  Prog.modify (World.log (.appended prompt))
  Prog.modify fun w => restrideActive spec .prefill .decode w.nPast w
  pure last

/-- `last_chunk_size - 1`, as a `size_t`. -/
def lastRow (last : ℕ) : ℕ := (last + (2 ^ 64 - 1)) % 2 ^ 64

theorem prefillStage_eq (prompt : List τ) (cfg : GenerationConfig) :
    (prefillStage spec env prompt cfg : Run τ ρ I τ) =
      prefillPrompt spec env prompt cfg >>= fun last =>
        sampleNextToken spec env .prefill (lastRow last) := by
  unfold prefillPrompt
  simp only [Prog.bind_assoc', Prog.pure_bind']
  rfl

/-- The states at the head of the decode loop of a call, with the number of steps left, the next
token and the tokens emitted. -/
inductive DecodeHead (spec : LLMSpec) (env : Env τ ρ I) (prompt : List τ) (cfg : GenerationConfig)
    (callback : List Int32 → CallbackAnswer) (w₀ : World τ ρ I) :
    ℕ → τ → List τ → World τ ρ I → Prop
  | first {first : τ} {w : World τ ρ I} (clockKeeper : Bool)
      (hprefill : prefillStage spec env prompt cfg w₀ = (.ok first, w)) :
      DecodeHead spec env prompt cfg callback w₀ cfg.maxTokens.toInt.toNat first []
        { w with clockKeeper := clockKeeper }
  | next {n : ℕ} {tok next : τ} {out : List τ} {w w₁ w₂ : World τ ρ I}
      (h : DecodeHead spec env prompt cfg callback w₀ (n + 1) tok out w)
      (heos : isEos spec tok = false)
      (hanswer : callback ((out ++ [tok]).map Token.id) = .continue)
      (hstep : decodeStep spec env cfg tok (w.log (.emitted tok)) = (.ok (), w₁))
      (hsample : sampleNextToken spec env .decode 0 w₁ = (.ok next, w₂)) :
      DecodeHead spec env prompt cfg callback w₀ n next (out ++ [tok]) w₂

/-- A call that starts in `w₀` reads row `row` of the logits of a phase in `w`. -/
inductive LogitsRead (spec : LLMSpec) (env : Env τ ρ I) (prompt : List τ) (cfg : GenerationConfig)
    (callback : List Int32 → CallbackAnswer) (w₀ : World τ ρ I) :
    World τ ρ I → Phase → ℕ → Prop
  | prefill {last : ℕ} {w : World τ ρ I}
      (h : prefillPrompt spec env prompt cfg w₀ = (.ok last, w)) :
      LogitsRead spec env prompt cfg callback w₀ w .prefill (lastRow last)
  | decode {n : ℕ} {tok : τ} {out : List τ} {w w₁ : World τ ρ I}
      (h : DecodeHead spec env prompt cfg callback w₀ (n + 1) tok out w)
      (heos : isEos spec tok = false)
      (hanswer : callback ((out ++ [tok]).map Token.id) = .continue)
      (hstep : decodeStep spec env cfg tok (w.log (.emitted tok)) = (.ok (), w₁)) :
      LogitsRead spec env prompt cfg callback w₀ w₁ .decode 0

/-- Every row of the logits that a call reads is computed, and what it takes away in an eviction is
there to be taken. -/
structure ReadsComputed (spec : LLMSpec) (env : Env τ ρ I) (prompt : List τ)
    (cfg : GenerationConfig) (callback : List Int32 → CallbackAnswer) (w₀ : World τ ρ I) :
    Prop where
  rows : ∀ w phase row, LogitsRead spec env prompt cfg callback w₀ w phase row →
    RowComputed spec w₀ w phase row
  evictions : ∀ n h k d,
    Event.evictEntry n h k d ∈ (generate spec env prompt cfg callback w₀).2.trace → k + d ≤ n

variable {prompt : List τ} {cfg : GenerationConfig} {callback : List Int32 → CallbackAnswer}

/-- The row before the end of a chunk. -/
theorem lastRow_of_pos {last : ℕ} (h : 0 < last) (hlt : last < 2 ^ 64) :
    lastRow last = last - 1 := by
  unfold lastRow
  omega

theorem seqLen_lt (spec : LLMSpec) (phase : Phase) : spec.seqLen phase < 2 ^ 64 := by
  have h := spec.seqLen_le_maxCl phase
  have hlt := spec.maxCl_lt
  omega

/-- After the prefill of a prompt that is not empty the last row of its last chunk is computed. -/
theorem prefillPrompt_row (hne : prompt ≠ []) {last : ℕ}
    (hrun : prefillPrompt spec env prompt cfg w₀ = (.ok last, w)) :
    RowComputed spec w₀ w .prefill (lastRow last) := by
  have hgrows : Triple (fun w => w = w₀) (prefillPrompt spec env prompt cfg)
      (fun last w => ∃ chunk, LastPass spec w₀ .prefill chunk w ∧ last = chunk.length ∧
        chunk ≠ [] ∧ chunk.length ≤ spec.seqLenPrefill) (fun _ _ => True) := by
    have hg : CallInvariant spec env fun w : World τ ρ I => w₀.trace <:+ w.trace := logGrows _
    refine Triple.get fun w₁ hw₁ => Triple.bind (R := fun _ w => w₀.trace <:+ w.trace)
      (Triple.modify fun w hw => ?_) fun _ => ?_
    · subst hw hw₁
      exact List.suffix_cons _ _
    refine Triple.bind (R := fun _ w => w₀.trace <:+ w.trace)
      (Triple.modify fun w hw => hg.prepare hw _ _) fun _ => ?_
    refine Triple.bind ((hg.ensureRoom cfg prompt.length false _).conseq (fun _ h => h)
      (fun _ _ h => h) fun _ _ _ => trivial) fun _ => ?_
    refine Triple.bind (prefillLoop_lastPass _ prompt 0 hne le_rfl) fun last => ?_
    refine Triple.bind (R := fun _ w => ∃ chunk, LastPass spec w₀ .prefill chunk w ∧
      last = chunk.length ∧ chunk ≠ [] ∧ chunk.length ≤ spec.seqLenPrefill)
      (Triple.modify fun w hw => ?_) fun _ => Triple.bind (R := fun _ w => ∃ chunk,
        LastPass spec w₀ .prefill chunk w ∧ last = chunk.length ∧ chunk ≠ [] ∧
          chunk.length ≤ spec.seqLenPrefill) (Triple.modify fun w hw => ?_) fun _ =>
        Triple.pure fun _ hw => hw
    · obtain ⟨chunk, ⟨n, hn⟩, hrest⟩ := hw
      exact ⟨chunk, ⟨n, hn.log (by simp)⟩, hrest⟩
    · obtain ⟨chunk, ⟨n, hn⟩, hrest⟩ := hw
      exact ⟨chunk, ⟨n, hn.plain rfl rfl⟩, hrest⟩
  obtain ⟨chunk, hpass, rfl, hchunk, hle⟩ := hgrows.ok rfl hrun
  have hlt := seqLen_lt spec .prefill
  have hpos := List.length_pos_of_ne_nil hchunk
  rw [lastRow_of_pos hpos (hle.trans_lt hlt)]
  exact ⟨lt_of_lt_of_le (by omega) hle, chunk, hpass, by omega⟩

/-- The prefill of an empty prompt reads the last of `2 ^ 64` rows. -/
theorem prefillPrompt_nil (env : Env τ ρ I) (cfg : GenerationConfig) (hc : Counted spec w₀) :
    ∃ w, prefillPrompt spec env ([] : List τ) cfg w₀ = (.ok 0, w) := by
  set w₁ := prepareSampler cfg ([] : List τ) (w₀.log (.enter w₀.nPast 0)) with hw₁
  have hq : Quietly spec w₀ w₁ :=
    (log_quietly (by trivial) w₀).trans (prepareSampler_quietly cfg [] _)
  have hroom : ensureRoom spec env cfg 0 false (promptExceedsMsg spec) w₁ = (.ok (), w₁) := by
    unfold ensureRoom
    rw [Prog.get_bind, Prog.when, if_neg]
    · rfl
    · rw [hq.nPast]
      have := hc.le
      omega
  unfold prefillPrompt
  rw [Prog.get_bind, Prog.modify_bind, Prog.modify_bind]
  exact ⟨_, Prog.bind_ok hroom _⟩

/-- The states of a decode loop keep what the parts of a call keep. -/
theorem DecodeHead.keeps {J : World τ ρ I → Prop} (hJ : CallInvariant spec env J) {n : ℕ} {tok : τ}
    {out : List τ} (h : DecodeHead spec env prompt cfg callback w₀ n tok out w) (h₀ : J w₀) :
    J w := by
  induction h with
  | @first _ w _ hprefill =>
    have hkeep := (hJ.prefillStage prompt cfg).snd h₀
    rw [hprefill] at hkeep
    exact hJ.plain w _ rfl rfl rfl rfl hkeep
  | next h heos hanswer hstep hsample ih =>
    have hstep' := Triple.ok (hJ.decodeStep cfg _) (hJ.log _ _ (by simp) ih) hstep
    exact Triple.ok (hJ.sampleNextToken _ _) hstep' hsample

theorem DecodeHead.grows {n : ℕ} {tok : τ} {out : List τ}
    (h : DecodeHead spec env prompt cfg callback w₀ n tok out w) : w₀.trace <:+ w.trace :=
  h.keeps (logGrows w₀.trace) List.suffix_rfl

/-- A step of the decode loop computes the row it reads. -/
theorem decodeStep_row (tok : τ) (h : w₀.trace <:+ w.trace)
    (hrun : decodeStep spec env cfg tok w = (.ok (), w')) : RowComputed spec w₀ w' .decode 0 := by
  have hg : CallInvariant spec env fun w : World τ ρ I => w₀.trace <:+ w.trace := logGrows _
  have hpass : Triple (fun w => w₀.trace <:+ w.trace) (decodeStep spec env cfg tok)
      (fun _ => LastPass spec w₀ .decode [tok]) (fun _ _ => True) :=
    Triple.bind (hg.wait.conseq (fun _ h => h) (fun _ _ h => h) fun _ _ _ => trivial) fun _ =>
      Triple.bind ((hg.ensureRoom cfg 1 true _).conseq (fun _ h => h) (fun _ _ h => h)
        fun _ _ _ => trivial) fun _ => decodeForward_lastPass tok
  exact ⟨spec.seqLen_pos .decode, [tok], hpass.ok h hrun, Nat.zero_lt_one⟩

/-- A call reads computed rows only, if and only if its prompt is not empty. -/
theorem readsComputed_iff (hc : Counted spec w₀) :
    ReadsComputed spec env prompt cfg callback w₀ ↔ prompt ≠ [] := by
  constructor
  · rintro ⟨hrows, -⟩ rfl
    obtain ⟨w, hrun⟩ := prefillPrompt_nil env cfg hc
    obtain ⟨hlt, -⟩ := hrows w .prefill _ (LogitsRead.prefill hrun)
    have := seqLen_lt spec .prefill
    unfold lastRow at hlt
    omega
  · refine fun hne => ⟨fun w phase row hread => ?_, fun n h k d hmem => ?_⟩
    · cases hread with
      | prefill hrun => exact prefillPrompt_row hne hrun
      | decode hhead heos hanswer hstep =>
        exact decodeStep_row _ (hhead.grows.trans (List.suffix_cons _ _)) hstep
    · obtain ⟨rfl, hle⟩ := (generate_counted hc prompt cfg callback).entries n h k d hmem
      exact hle

end Reads

end Geniex
