import Geniex.LLM.WriteBack

/-!
# What the KV cache holds

The invariant behind the results about the cache: where the rows are laid out, which columns hold
the key/value that was produced for their position, and what every execution has read.

* `Fine`, `Whole`: every step had room at the largest context length; no call with an empty prompt
  found more history than the prefill stride holds.
* `Sound`: the invariant at a stride.
* `Mid`: the invariant within a chunk or decode step, between two shards; `Mid.runShard` is one
  execution, `Mid.commit` and `Mid.writeBack` the two write-backs.
-/

namespace Geniex

open FlatMem Prog

variable {τ ρ I : Type} {spec : LLMSpec} {env : Env τ ρ I}

/-! ## Conditions on a log -/

/-- Every chunk and decode step started with room at the largest context length. -/
def Fine (spec : LLMSpec) (trace : List (Event τ I)) : Prop :=
  ∀ p n k, Event.step p n k ∈ trace → n + k ≤ spec.maxCl - spec.seqLen p

/-- A call with an empty prompt found no more history than the prefill stride holds. -/
def Whole (spec : LLMSpec) (trace : List (Event τ I)) : Prop :=
  ∀ n len, Event.enter n len ∈ trace → 0 < len ∨ n ≤ spec.maxCl - spec.seqLenPrefill

theorem Fine.of_suffix {old trace : List (Event τ I)} (h : Fine spec trace) (hs : old <:+ trace) :
    Fine spec old := fun p n k hm => h p n k (hs.subset hm)

theorem Whole.of_suffix {old trace : List (Event τ I)} (h : Whole spec trace)
    (hs : old <:+ trace) : Whole spec old := fun n len hm => h n len (hs.subset hm)

/-- An execution sees exactly the causal past: the mask is zero at the columns of the positions up
to each row's own, and the past columns hold what was produced for their positions. -/
structure SeesPast (spec : LLMSpec) (x : ExecRecord τ I) : Prop where
  room : x.ctx.nPast ≤ spec.kvLen x.phase x.clIdx
  mask : ∀ m, x.input.mask = some m → ∀ j < spec.seqLen x.phase,
    ∀ col < spec.kvLen x.phase x.clIdx + spec.seqLen x.phase,
      m (j * (spec.kvLen x.phase x.clIdx + spec.seqLen x.phase) + col) =
        if j < x.ctx.currLen ∧ (col < x.ctx.nPast ∨ spec.kvLen x.phase x.clIdx ≤ col ∧
            col ≤ spec.kvLen x.phase x.clIdx + j) then 0
        else maskedValue
  past : ∀ t, spec.hasTensor t = true → t.shard = x.shard → ∀ r < spec.rows t,
    ∀ c < x.ctx.nPast, ∀ b < spec.tokenSize t,
      x.input.kv t (cell (spec.kvLen x.phase x.clIdx) (spec.tokenSize t) r c b) =
        x.produced t r c b

/-- Every execution of the run did, if the run had room. -/
def Seen (spec : LLMSpec) (trace : List (Event τ I)) : Prop :=
  Fine spec trace → Whole spec trace → ∀ x, Event.exec x ∈ trace → SeesPast spec x

/-- Events that are no executions say nothing of it. -/
theorem Seen.append {trace : List (Event τ I)} (h : Seen spec trace) (es : List (Event τ I))
    (hes : ∀ x, Event.exec x ∉ es) : Seen spec (es ++ trace) := by
  intro hf hw x hx
  have hs := List.suffix_append es trace
  exact h (hf.of_suffix hs) (hw.of_suffix hs) x
    ((List.mem_append.mp hx).resolve_left (hes x))

/-! ## The invariant -/

/-- At the row width `len`, the columns below `bound` hold what was produced for them, except those
with a write-back still queued. -/
def HeldAt (spec : LLMSpec) (w : World τ ρ I) (len : ℕ) (bound : KVTensor → ℕ) : Prop :=
  ∀ t, spec.hasTensor t = true → ∀ r < spec.rows t, ∀ c < bound t, ∀ b < spec.tokenSize t,
    (∀ j ∈ w.pending, ¬(j.shard = t.shard ∧ j.off = c)) →
      w.kv t (cell len (spec.tokenSize t) r c b) = w.produced t r c b

/-- The outputs that queued write-backs will copy are what was produced for their positions. -/
def JobsHold (spec : LLMSpec) (w : World τ ρ I) : Prop :=
  ∀ j ∈ w.pending, ∀ t, spec.hasTensor t = true → t.shard = j.shard → ∀ r < spec.rows t,
    ∀ b < spec.tokenSize t,
      (w.outs (spec.graphIndex .decode j.shard w.activeClIdx)).kvOut t
        (cell (spec.seqLen .decode) (spec.tokenSize t) r 0 b) = w.produced t r j.off b

/-- The invariant at the stride of `phase`. -/
structure Sound (spec : LLMSpec) (env : Env τ ρ I) (phase : Phase) (clock : Bool)
    (bound : KVTensor → ℕ) (w : World τ ρ I) : Prop where
  queued : Queued spec w
  clockKeeper : w.clockKeeper = clock
  pool : ∀ j ∈ w.pending, phase = .decode ∧ env.decodePool = true
  seen : Seen spec w.trace
  good : Fine spec w.trace → HeldAt spec w (spec.kvLen phase w.activeClIdx) bound ∧ JobsHold spec w

namespace Sound

variable {phase : Phase} {clock : Bool} {bound B : KVTensor → ℕ} {w : World τ ρ I}

theorem active (h : Sound spec env phase clock bound w) : w.activeClIdx < spec.numCl :=
  h.queued.active

/-- Fewer columns. -/
theorem mono (h : Sound spec env phase clock bound w)
    (hle : ∀ t, spec.hasTensor t = true → B t ≤ bound t) :
    Sound spec env phase clock B w := by
  refine ⟨h.queued, h.clockKeeper, h.pool, h.seen, fun hf => ?_⟩
  obtain ⟨hheld, hjobs⟩ := h.good hf
  exact ⟨fun t ht r hr c hc => hheld t ht r hr c (hc.trans_le (hle t ht)), hjobs⟩

/-- Logging an event that is neither a write-back nor an execution. -/
theorem log (h : Sound spec env phase clock bound w) {e : Event τ I} (hw : ∀ x, e ≠ .kvWrite x)
    (hx : ∀ x, e ≠ .exec x) : Sound spec env phase clock bound (w.log e) :=
  ⟨h.queued.log hw, h.clockKeeper, h.pool,
    h.seen.append [e] fun x hm => hx x (List.mem_singleton.mp hm).symm,
    fun hf => h.good (hf.of_suffix (List.suffix_cons e _))⟩

end Sound

/-! ## Background write-backs -/

/-- A run of write-backs that fit their rows writes what was produced, column by column. -/
theorem runJobs_cell {jobs : List KVJob} {w : World τ ρ I} {t : KVTensor} {r c b : ℕ}
    (ht : spec.hasTensor t = true) (hr : r < spec.rows t) (hb : b < spec.tokenSize t)
    (hc : c < spec.kvLen .decode w.activeClIdx)
    (hfit : ∀ j ∈ jobs, j.off + 1 ≤ spec.kvLen .decode w.activeClIdx)
    (hold : ∀ j ∈ jobs, j.shard = t.shard →
      (w.outs (spec.graphIndex .decode j.shard w.activeClIdx)).kvOut t
        (cell (spec.seqLen .decode) (spec.tokenSize t) r 0 b) = w.produced t r j.off b) :
    (runJobs spec jobs w).kv t (cell (spec.kvLen .decode w.activeClIdx) (spec.tokenSize t) r c b) =
      if ∃ j ∈ jobs, j.shard = t.shard ∧ j.off = c then w.produced t r c b
      else w.kv t (cell (spec.kvLen .decode w.activeClIdx) (spec.tokenSize t) r c b) := by
  unfold runJobs
  induction jobs generalizing w with
  | nil => simp
  | cons j jobs ih =>
    have hstep := updateKV_cell (s := j.shard) (w := w) ht (hfit j List.mem_cons_self) hr hc hb
    have hrec := ih (w := updateKV spec j.shard .decode j.off 1 w) (by simpa using hc)
      (fun j' hj' => by simpa using hfit j' (List.mem_cons_of_mem _ hj'))
      (fun j' hj' hs => by simpa using hold j' (List.mem_cons_of_mem _ hj') hs)
    rw [updateKV_activeClIdx, updateKV_produced] at hrec
    rw [List.foldl_cons, hrec, hstep]
    by_cases hex : ∃ j ∈ jobs, j.shard = t.shard ∧ j.off = c
    · rw [if_pos hex, if_pos]
      obtain ⟨j', hj', h⟩ := hex
      exact ⟨j', List.mem_cons_of_mem _ hj', h⟩
    · rw [if_neg hex]
      by_cases hj : t.shard = j.shard ∧ j.off = c
      · obtain ⟨hs, rfl⟩ := hj
        rw [if_pos ⟨hs, le_rfl, Nat.lt_succ_self _⟩,
          if_pos ⟨j, List.mem_cons_self, hs.symm, rfl⟩, Nat.sub_self]
        exact hold j List.mem_cons_self hs.symm
      · rw [if_neg (by omega), if_neg]
        rintro ⟨j', hj', h⟩
        rcases List.mem_cons.mp hj' with rfl | hj'
        · exact hj ⟨h.1.symm, h.2⟩
        · exact hex ⟨j', hj', h⟩

/-- The workers complete queued jobs. -/
theorem Sound.settle {phase : Phase} {clock : Bool} {bound : KVTensor → ℕ} {w : World τ ρ I}
    (h : Sound spec env phase clock bound w) (done : KVJob → Bool)
    (hbound : Fine spec w.trace → ∀ t, spec.hasTensor t = true →
      bound t ≤ spec.kvLen phase w.activeClIdx) :
    Sound spec env phase clock bound (Geniex.settle spec done w) := by
  obtain ⟨h1, h2, h3, h4, h5, es, h6, h7⟩ := runJobs_frame spec (w.pending.filter done) w
  have hsuffix : w.trace <:+ (Geniex.settle spec done w).trace := by
    show _ <:+ (runJobs spec _ w).trace
    rw [h6]
    exact List.suffix_append es _
  have hstill : ∀ j ∈ w.pending.filter fun j => !done j, j ∈ w.pending :=
    fun j hj => (List.mem_filter.mp hj).1
  refine ⟨h.queued.settle done, h4.trans h.clockKeeper, fun j hj => h.pool j (hstill j hj), ?_,
    fun hf => ?_⟩
  · show Seen spec (runJobs spec _ w).trace
    rw [h6]
    refine h.seen.append es fun x hx => ?_
    obtain ⟨j, -, heq⟩ := h7 _ hx
    cases heq
  · replace hf := hf.of_suffix hsuffix
    obtain ⟨hheld, hjobs⟩ := h.good hf
    have hfit : ∀ j ∈ w.pending, j.off + 1 ≤ spec.kvLen .decode w.activeClIdx := fun j hj =>
      (h.queued.jobs j hj).2 (hf _ _ _ (h.queued.jobs j hj).1)
    refine ⟨fun t ht r hr c hc b hb hfree => ?_, fun j hj t ht hs r hr b hb => ?_⟩
    · show (runJobs spec _ w).kv t (cell (spec.kvLen phase (runJobs spec _ w).activeClIdx) _ r c b) =
        (runJobs spec _ w).produced t r c b
      rw [h1, h5]
      by_cases hnil : w.pending = []
      · have hrun : runJobs spec (w.pending.filter done) w = w := by
          rw [hnil, List.filter_nil]
          rfl
        rw [hrun]
        exact hheld t ht r hr c hc b hb (by simp [hnil])
      · -- a queued job means the decode stride
        obtain ⟨j₀, hj₀⟩ := List.exists_mem_of_ne_nil _ hnil
        obtain rfl := (h.pool j₀ hj₀).1
        have hlt := hc.trans_le (hbound hf t ht)
        rw [runJobs_cell ht hr hb hlt (fun j hj => hfit j (List.mem_filter.mp hj).1)
          fun j hj hs => hjobs j (List.mem_filter.mp hj).1 t ht hs.symm r hr b hb]
        split_ifs with hex
        · rfl
        · refine hheld t ht r hr c hc b hb fun j hj hjc => ?_
          by_cases hd : done j = true
          · exact hex ⟨j, List.mem_filter.mpr ⟨hj, hd⟩, hjc⟩
          · exact hfree j (List.mem_filter.mpr ⟨hj, by simpa using hd⟩) hjc
    · show ((runJobs spec _ w).outs (spec.graphIndex .decode j.shard
        (runJobs spec _ w).activeClIdx)).kvOut t _ = (runJobs spec _ w).produced t r j.off b
      rw [h1, h3, h5]
      exact hjobs j (hstill j hj) t ht hs r hr b hb

/-! ## Within a chunk or decode step -/

/-- The invariant in a chunk or decode step of `k` tokens from position `n₀` on, when the shards
below `s` are done. Of the columns that should be held, those from `cap` on may be lost, but not in
a whole run. -/
structure Mid (spec : LLMSpec) (env : Env τ ρ I) (phase : Phase) (clock : Bool) (cap n₀ k a s : ℕ)
    (w : World τ ρ I) : Prop where
  sound : Sound spec env phase clock (fun t => min cap (if t.shard < s then n₀ + k else n₀)) w
  active : w.activeClIdx = a
  nPast : w.nPast = n₀
  fresh : ∀ j ∈ w.pending, j.off = n₀ ∧ j.shard < s
  step : Event.step phase n₀ k ∈ w.trace
  room : n₀ + k ≤ spec.maxCl - spec.seqLen phase → n₀ + k ≤ spec.kvLen phase a
  whole : Whole spec w.trace → spec.maxCl ≤ cap

/-- The outputs of shard `s` are what was produced for the positions of the step. -/
def OutputsHold (spec : LLMSpec) (phase : Phase) (n₀ k a s : ℕ) (w : World τ ρ I) : Prop :=
  ∀ t, spec.hasTensor t = true → t.shard = s → ∀ r < spec.rows t, ∀ i < k, ∀ b < spec.tokenSize t,
    (w.outs (spec.graphIndex phase s a)).kvOut t (cell (spec.seqLen phase) (spec.tokenSize t) r i b) =
      w.produced t r (n₀ + i) b

namespace Mid

variable {phase : Phase} {clock : Bool} {cap n₀ k a s : ℕ} {w : World τ ρ I}

theorem fit (h : Mid spec env phase clock cap n₀ k a s w) (hf : Fine spec w.trace) :
    n₀ + k ≤ spec.kvLen phase a := h.room (hf _ _ _ h.step)

/-- The workers complete queued jobs between two executions. -/
theorem background (h : Mid spec env phase clock cap n₀ k a s w) :
    Mid spec env phase clock cap n₀ k a s (Geniex.background spec env w) := by
  unfold Geniex.background
  split_ifs
  · exact h
  · obtain ⟨h1, h2, -, -, -, es, h6, -⟩ :=
      runJobs_frame spec (w.pending.filter (env.finishes w.tick)) w
    have hsuffix : w.trace <:+ (Geniex.settle spec (env.finishes w.tick) w).trace := by
      show _ <:+ (runJobs spec _ w).trace
      rw [h6]
      exact List.suffix_append es _
    refine ⟨h.sound.settle _ fun hf t _ => ?_, h1.trans h.active, h2.trans h.nPast,
      fun j hj => h.fresh j (List.mem_filter.mp hj).1, hsuffix.subset h.step, h.room,
      fun hw => h.whole (hw.of_suffix hsuffix)⟩
    have := h.fit hf
    rw [h.active]
    split_ifs <;> omega

/-- What a shard reads in the middle of a step is the causal past. -/
theorem sees (h : Mid spec env phase clock cap n₀ k a s w) (hk : k ≤ spec.seqLen phase)
    (hf : Fine spec w.trace) (hw : Whole spec w.trace) (tokens : List τ) :
    SeesPast spec ⟨phase, s, a, ⟨tokens, n₀, k, phase⟩,
      execInput spec env s phase a ⟨tokens, n₀, k, phase⟩ w, w.produced⟩ := by
  have hfit := h.fit hf
  have hcap := h.whole hw
  have hlen : spec.kvLen phase a ≤ spec.maxCl - spec.seqLen phase :=
    spec.kvLen_le_last (h.active ▸ h.sound.active)
  refine ⟨(Nat.le_add_right _ _).trans hfit, ?_, ?_⟩
  · intro m hm j hj col hcol
    simp only [execInput] at hm
    split_ifs at hm with hmask
    cases hm
    rw [getAttentionMask_apply hk hcol, Nat.min_eq_left ((Nat.le_add_right _ _).trans hfit)]
  · intro t ht hs r hr c hc b hb
    change t.shard = s at hs
    change c < n₀ at hc
    have hlt : c < spec.kvLen phase a := by omega
    show kvView spec phase s a w.kv t _ = w.produced t r c b
    unfold kvView LLMSpec.byteCount
    rw [if_pos ⟨hs, ht, cell_lt hr hlt hb⟩, ← h.active]
    refine (h.sound.good hf).1 t ht r hr c ?_ b hb fun j hj hjs => ?_
    · show c < min cap (if t.shard < s then n₀ + k else n₀)
      split_ifs <;> omega
    · have := (h.fresh j hj).2
      omega

/-- Logging an execution that saw the past. -/
theorem logExec (h : Mid spec env phase clock cap n₀ k a s w) {x : ExecRecord τ I}
    (hx : Fine spec w.trace → Whole spec w.trace → SeesPast spec x) :
    Mid spec env phase clock cap n₀ k a s { w.log (.exec x) with tick := w.tick + 1 } := by
  have hsuffix : w.trace <:+ (w.log (.exec x)).trace := List.suffix_cons _ _
  refine ⟨⟨(h.sound.queued.log (e := .exec x) (by simp)).of_eq rfl rfl rfl, h.sound.clockKeeper,
    h.sound.pool, fun hf hw y hy => ?_, fun hf => h.sound.good (hf.of_suffix hsuffix)⟩, h.active,
    h.nPast, h.fresh, hsuffix.subset h.step, h.room, fun hw => h.whole (hw.of_suffix hsuffix)⟩
  replace hf := hf.of_suffix hsuffix
  replace hw := hw.of_suffix hsuffix
  rcases List.mem_cons.mp hy with heq | hy
  · cases heq
    exact hx hf hw
  · exact h.sound.seen hf hw y hy

theorem graphIndex_shard {s s' : ℕ} (ha : a < spec.numCl)
    (h : spec.graphIndex phase s a = spec.graphIndex phase s' a) : s = s' := by
  unfold LLMSpec.graphIndex at h
  exact Nat.eq_of_mul_eq_mul_right (by omega : 0 < spec.numCl) (by omega)

/-- Storing the outputs of shard `s`. -/
theorem store (h : Mid spec env phase clock cap n₀ k a s w) (tokens : List τ) (out : GraphOut) :
    Mid spec env phase clock cap n₀ k a s { w with
        outs := Function.update w.outs (spec.graphIndex phase s a) out
        produced := produce spec s ⟨tokens, n₀, k, phase⟩ out w.produced } ∧
      OutputsHold spec phase n₀ k a s { w with
        outs := Function.update w.outs (spec.graphIndex phase s a) out
        produced := produce spec s ⟨tokens, n₀, k, phase⟩ out w.produced } := by
  have ha : a < spec.numCl := h.active ▸ h.sound.active
  refine ⟨⟨⟨h.sound.queued.of_eq rfl rfl rfl, h.sound.clockKeeper, h.sound.pool, h.sound.seen,
    fun hf => ?_⟩, h.active, h.nPast, h.fresh, h.step, h.room, h.whole⟩,
    fun t ht hs r hr i hi b hb => ?_⟩
  · obtain ⟨hheld, hjobs⟩ := h.sound.good hf
    refine ⟨fun t ht r hr c hc b hb hfree => ?_, fun j hj t ht hs r hr b hb => ?_⟩
    · show _ = produce spec s _ out w.produced t r c b
      unfold produce
      rw [if_neg]
      · exact hheld t ht r hr c hc b hb hfree
      · rintro ⟨rfl, h1, -⟩
        simp only [lt_irrefl, if_false] at hc
        exact absurd (hc.trans_le (min_le_right _ _)) (not_lt.mpr h1)
    · -- a queued job is of an earlier shard, so its outputs are still there
      have hjs := (h.fresh j hj).2
      obtain rfl := (h.sound.pool j hj).1
      show (Function.update w.outs _ out (spec.graphIndex .decode j.shard w.activeClIdx)).kvOut t _ =
        produce spec s _ out w.produced t r j.off b
      rw [Function.update_of_ne, produce, if_neg (by omega)]
      · exact hjobs j hj t ht hs r hr b hb
      · intro heq
        rw [h.active] at heq
        have := graphIndex_shard ha heq
        omega
  · show (Function.update w.outs (spec.graphIndex phase s a) out (spec.graphIndex phase s a)).kvOut t _ =
      produce spec s _ out w.produced t r (n₀ + i) b
    rw [Function.update_self, produce, if_pos ⟨hs, Nat.le_add_right _ _, by show _ < n₀ + k; omega⟩,
      Nat.add_sub_cancel_left]

/-- One execution in the middle of a step. -/
theorem runShard (hk : k ≤ spec.seqLen phase) (tokens : List τ) :
    Triple (Mid spec env phase clock cap n₀ k a s)
      (Geniex.runShard spec env s phase a ⟨tokens, n₀, k, phase⟩)
      (fun _ w => Mid spec env phase clock cap n₀ k a s w ∧ OutputsHold spec phase n₀ k a s w)
      (fun _ w => Mid spec env phase clock cap n₀ k a s w) := by
  refine Triple.bind (R := fun _ => Mid spec env phase clock cap n₀ k a s)
    (Triple.modify fun w hw => hw.background) fun _ => Triple.get fun w₁ hw₁ => ?_
  rintro w rfl
  have hlog := hw₁.logExec fun hf hw => hw₁.sees (w := w) hk hf hw tokens
  unfold execGraph
  cases env.exec w.tick (spec.graphIndex phase s a)
      (execInput spec env s phase a ⟨tokens, n₀, k, phase⟩ w) with
  | none => exact hlog
  | some out => exact hlog.store tokens out

/-- A shard without KV tensors has nothing to write back. -/
theorem skip (h : Mid spec env phase clock cap n₀ k a s w) (hs : spec.pairs s = []) :
    Mid spec env phase clock cap n₀ k a (s + 1) w := by
  refine ⟨h.sound.mono fun t ht => ?_, h.active, h.nPast,
    fun j hj => ⟨(h.fresh j hj).1, Nat.lt_succ_of_lt (h.fresh j hj).2⟩, h.step, h.room, h.whole⟩
  have hne : t.shard ≠ s := fun heq => pairs_ne_of_hasTensor ht (heq ▸ hs)
  split_ifs <;> omega

/-- The write-back of shard `s` by the generating thread. -/
theorem commit (h : Mid spec env phase clock cap n₀ k a s w)
    (hout : OutputsHold spec phase n₀ k a s w) :
    Mid spec env phase clock cap n₀ k a (s + 1) (updateKV spec s phase n₀ k w) := by
  obtain ⟨es, htr, hes⟩ := updateKV_trace spec s phase n₀ k w
  have hsuffix : w.trace <:+ (updateKV spec s phase n₀ k w).trace := htr ▸ List.suffix_append es _
  refine ⟨⟨h.sound.queued.updateKV h.step (h.active ▸ h.room), ?_, fun j hj => ?_, ?_, fun hf => ?_⟩,
    ?_, ?_, fun j hj => ?_, hsuffix.subset h.step, h.room, fun hw => h.whole (hw.of_suffix hsuffix)⟩
  · rw [updateKV_clockKeeper]
    exact h.sound.clockKeeper
  · rw [updateKV_pending] at hj
    exact h.sound.pool j hj
  · rw [htr]
    exact h.sound.seen.append es fun x hx => by cases hes _ hx
  · replace hf := hf.of_suffix hsuffix
    have hfit := h.fit hf
    obtain ⟨hheld, hjobs⟩ := h.sound.good hf
    refine ⟨fun t ht r hr c hc b hb hfree => ?_, fun j hj t ht hs r hr b hb => ?_⟩
    · have hlt : c < spec.kvLen phase w.activeClIdx := by
        rw [h.active]
        simp only at hc
        split_ifs at hc <;> omega
      rw [updateKV_pending] at hfree
      rw [updateKV_activeClIdx, updateKV_produced,
        updateKV_cell ht (by rw [h.active]; exact hfit) hr hlt hb]
      split_ifs with hin
      · obtain ⟨hts, h1, h2⟩ := hin
        have := hout t ht hts r hr (c - n₀) (by omega) b hb
        rwa [← h.active, Nat.add_sub_cancel' h1] at this
      · refine hheld t ht r hr c ?_ b hb hfree
        simp only at hc ⊢
        split_ifs at hc ⊢ <;> omega
    · rw [updateKV_pending] at hj
      rw [updateKV_outs, updateKV_activeClIdx, updateKV_produced]
      exact hjobs j hj t ht hs r hr b hb
  · rw [updateKV_activeClIdx]
    exact h.active
  · rw [updateKV_nPast]
    exact h.nPast
  · rw [updateKV_pending] at hj
    exact ⟨(h.fresh j hj).1, Nat.lt_succ_of_lt (h.fresh j hj).2⟩

/-- The write-back of shard `s` after a decode step, queued if there is a pool. -/
theorem writeBack (h : Mid spec env .decode clock cap n₀ 1 a s w)
    (hout : OutputsHold spec .decode n₀ 1 a s w) :
    Mid spec env .decode clock cap n₀ 1 a (s + 1) (Geniex.writeBack spec env s n₀ w) := by
  have hq := h.sound.queued.enqueue env s h.step (h.active ▸ h.room)
  unfold Geniex.writeBack at hq ⊢
  split_ifs at hq ⊢ with hpool
  · refine ⟨⟨hq, h.sound.clockKeeper, fun j _ => ⟨rfl, hpool⟩, h.sound.seen, fun hf => ?_⟩,
      h.active, h.nPast, fun j hj => ?_, h.step, h.room, h.whole⟩
    · obtain ⟨hheld, hjobs⟩ := h.sound.good hf
      refine ⟨fun t ht r hr c hc b hb hfree => ?_, fun j hj t ht hs r hr b hb => ?_⟩
      · -- the new column is queued
        have hnew := hfree ⟨s, n₀⟩ (List.mem_append_right _ (List.mem_singleton_self _))
        refine hheld t ht r hr c ?_ b hb fun j hj => hfree j (List.mem_append_left _ hj)
        simp only at hc hnew ⊢
        split_ifs at hc ⊢ <;> omega
      · rcases List.mem_append.mp hj with hj | hj
        · exact hjobs j hj t ht hs r hr b hb
        · obtain rfl := List.mem_singleton.mp hj
          show (w.outs (spec.graphIndex .decode s w.activeClIdx)).kvOut t _ = w.produced t r n₀ b
          rw [h.active]
          exact hout t ht hs r hr 0 Nat.one_pos b hb
    · rcases List.mem_append.mp hj with hj | hj
      · exact ⟨(h.fresh j hj).1, Nat.lt_succ_of_lt (h.fresh j hj).2⟩
      · obtain rfl := List.mem_singleton.mp hj
        exact ⟨rfl, Nat.lt_succ_self _⟩
  · exact h.commit hout

theorem applyConnection (h : Mid spec env phase clock cap n₀ k a s w) (p : Phase) (s' i : ℕ) :
    Mid spec env phase clock cap n₀ k a s (Geniex.applyConnection spec p s' i w) :=
  ⟨⟨h.sound.queued.of_eq rfl rfl rfl, h.sound.clockKeeper, h.sound.pool, h.sound.seen,
    h.sound.good⟩, h.active, h.nPast, h.fresh, h.step, h.room, h.whole⟩

/-- A shard's part of a prefill chunk. -/
theorem prefillShard (isFinal : Bool) (tokens : List τ) (hk : k ≤ spec.seqLenPrefill) :
    Triple (Mid spec env .prefill clock cap n₀ k a s)
      (Geniex.prefillShard spec env isFinal a ⟨tokens, n₀, k, .prefill⟩ s)
      (fun _ => Mid spec env .prefill clock cap n₀ k a (s + 1))
      (fun _ w => ∃ s, Mid spec env .prefill clock cap n₀ k a s w) := by
  refine Triple.when (fun _ => ?_) fun hskip w hw => ?_
  · refine Triple.bind ((runShard hk tokens).conseq (fun _ h => h) (fun _ _ h => h)
      fun _ _ h => ⟨s, h⟩) fun _ => Triple.bind (R := fun _ =>
        Mid spec env .prefill clock cap n₀ k a (s + 1)) (Triple.modify fun w hw => hw.1.commit hw.2)
      fun _ => Triple.when (fun _ => Triple.modify fun w hw => hw.applyConnection _ _ _)
        fun _ _ hw => hw
  · rw [not_not] at hskip
    exact hw.skip (spec.pairs_of_lmHeadOnly hskip.2)

/-- A shard's part of a decode step. -/
theorem decodeShard (tokens : List τ) :
    Triple (Mid spec env .decode clock cap n₀ 1 a s)
      (Geniex.decodeShard spec env a ⟨tokens, n₀, 1, .decode⟩ s)
      (fun _ => Mid spec env .decode clock cap n₀ 1 a (s + 1))
      (fun _ w => ∃ s, Mid spec env .decode clock cap n₀ 1 a s w) := by
  refine Triple.bind ((runShard spec.decode_pos tokens).conseq (fun _ h => h)
    (fun _ _ h => h) fun _ _ h => ⟨s, h⟩) fun _ => Triple.bind (R := fun _ =>
      Mid spec env .decode clock cap n₀ 1 a (s + 1)) (Triple.modify fun w hw => hw.1.writeBack hw.2)
    fun _ => Triple.when (fun _ => Triple.modify fun w hw => hw.applyConnection _ _ _)
      fun _ _ hw => hw

end Mid

end Geniex
