import Geniex.LLM.CallInvariant

/-!
# Write-backs and their rows

* `Queued`: every write-back, done or still queued, belongs to a logged chunk or decode step, and
  stays in its row if that step had room at the largest context length.
* `writeBacks_inRow_iff`: in a run, the write-backs stay in their rows if and only if every step
  that wrote back had room.
-/

namespace Geniex

open Prog

variable {τ ρ I : Type} {spec : LLMSpec} {env : Env τ ρ I}

/-- The write-backs of a log. -/
def kvWrites : List (Event τ I) → List KVWrite
  | [] => []
  | .kvWrite x :: es => x :: kvWrites es
  | _ :: es => kvWrites es

theorem mem_kvWrites {es : List (Event τ I)} {x : KVWrite} :
    x ∈ kvWrites es ↔ Event.kvWrite x ∈ es := by
  induction es with
  | nil => simp [kvWrites]
  | cons e es ih => cases e <;> simp [kvWrites, ih]

/-- A write-back stays in its row. -/
def InRow (spec : LLMSpec) (x : KVWrite) : Prop := x.off + x.nTok ≤ spec.kvLen x.phase x.clIdx

instance (spec : LLMSpec) (x : KVWrite) : Decidable (InRow spec x) := by
  unfold InRow
  infer_instance

/-- Every write-back belongs to a logged step, and stays in its row if the step had room. -/
def WritesInRow (spec : LLMSpec) (trace : List (Event τ I)) : Prop :=
  ∀ x, Event.kvWrite x ∈ trace → Event.step x.phase x.off x.nTok ∈ trace ∧
    (x.off + x.nTok ≤ spec.maxCl - spec.seqLen x.phase → InRow spec x)

/-- The same for the write-backs that are still queued. -/
structure Queued (spec : LLMSpec) (w : World τ ρ I) : Prop where
  active : w.activeClIdx < spec.numCl
  jobs : ∀ j ∈ w.pending, Event.step .decode j.off 1 ∈ w.trace ∧
    (j.off + 1 ≤ spec.maxCl - spec.seqLenDecode → j.off + 1 ≤ spec.kvLen .decode w.activeClIdx)
  writes : WritesInRow spec w.trace

/-! ## One write-back -/

section Fields

variable (s : ℕ) (phase : Phase) (off n : ℕ) (w : World τ ρ I)

@[simp] theorem updateKV_activeClIdx :
    (updateKV spec s phase off n w).activeClIdx = w.activeClIdx := by
  unfold updateKV; split_ifs <;> rfl

@[simp] theorem updateKV_nPast : (updateKV spec s phase off n w).nPast = w.nPast := by
  unfold updateKV; split_ifs <;> rfl

@[simp] theorem updateKV_outs : (updateKV spec s phase off n w).outs = w.outs := by
  unfold updateKV; split_ifs <;> rfl

@[simp] theorem updateKV_pending : (updateKV spec s phase off n w).pending = w.pending := by
  unfold updateKV; split_ifs <;> rfl

@[simp] theorem updateKV_clockKeeper :
    (updateKV spec s phase off n w).clockKeeper = w.clockKeeper := by
  unfold updateKV; split_ifs <;> rfl

@[simp] theorem updateKV_produced : (updateKV spec s phase off n w).produced = w.produced := by
  unfold updateKV; split_ifs <;> rfl

variable (spec) in
/-- A write-back logs at most itself. -/
theorem updateKV_trace : ∃ es, (updateKV spec s phase off n w).trace = es ++ w.trace ∧
    ∀ e ∈ es, e = Event.kvWrite ⟨phase, s, w.activeClIdx, off, n⟩ := by
  unfold updateKV
  split_ifs
  · exact ⟨[], rfl, by simp⟩
  · exact ⟨[_], rfl, by simp⟩

end Fields

variable (spec) in
/-- What a run of write-backs leaves as it was, and what it logs. -/
theorem runJobs_frame (jobs : List KVJob) (w : World τ ρ I) :
    (runJobs spec jobs w).activeClIdx = w.activeClIdx ∧
      (runJobs spec jobs w).nPast = w.nPast ∧ (runJobs spec jobs w).outs = w.outs ∧
      (runJobs spec jobs w).clockKeeper = w.clockKeeper ∧
      (runJobs spec jobs w).produced = w.produced ∧
      ∃ es, (runJobs spec jobs w).trace = es ++ w.trace ∧
        ∀ e ∈ es, ∃ j ∈ jobs, e = Event.kvWrite ⟨.decode, j.shard, w.activeClIdx, j.off, 1⟩ := by
  unfold runJobs
  induction jobs generalizing w with
  | nil => exact ⟨rfl, rfl, rfl, rfl, rfl, [], rfl, by simp⟩
  | cons j jobs ih =>
    obtain ⟨h1, h2, h3, h4, h5, es, h6, h7⟩ := ih (updateKV spec j.shard .decode j.off 1 w)
    obtain ⟨es', h8, h9⟩ := updateKV_trace spec j.shard .decode j.off 1 w
    refine ⟨h1.trans (by simp), h2.trans (by simp), h3.trans (by simp), h4.trans (by simp),
      h5.trans (by simp), es ++ es', by rw [List.foldl_cons, h6, h8, List.append_assoc], ?_⟩
    intro e he
    rcases List.mem_append.mp he with he | he
    · obtain ⟨j', hj', heq⟩ := h7 e he
      exact ⟨j', List.mem_cons_of_mem _ hj', by simpa using heq⟩
    · exact ⟨j, List.mem_cons_self, h9 e he⟩

theorem WritesInRow.cons {e : Event τ I} {trace : List (Event τ I)} (h : WritesInRow spec trace)
    (he : ∀ x, e ≠ .kvWrite x) : WritesInRow spec (e :: trace) := by
  intro x hx
  rcases List.mem_cons.mp hx with heq | hx
  · exact absurd heq.symm (he x)
  · exact ⟨List.mem_cons_of_mem _ (h x hx).1, (h x hx).2⟩

/-- More write-backs, each of a logged step. -/
theorem WritesInRow.append {es trace : List (Event τ I)} (h : WritesInRow spec trace)
    (hes : ∀ x, Event.kvWrite x ∈ es → Event.step x.phase x.off x.nTok ∈ trace ∧
      (x.off + x.nTok ≤ spec.maxCl - spec.seqLen x.phase → InRow spec x)) :
    WritesInRow spec (es ++ trace) := by
  intro x hx
  rcases List.mem_append.mp hx with hx | hx
  · exact ⟨List.mem_append_right _ (hes x hx).1, (hes x hx).2⟩
  · exact ⟨List.mem_append_right _ (h x hx).1, (h x hx).2⟩

namespace Queued

variable {w w' : World τ ρ I}

theorem of_eq (h : Queued spec w) (ha : w'.activeClIdx = w.activeClIdx)
    (hp : w'.pending = w.pending) (ht : w'.trace = w.trace) : Queued spec w' :=
  ⟨ha ▸ h.active, by rw [hp, ht, ha]; exact h.jobs, ht ▸ h.writes⟩

theorem log (h : Queued spec w) {e : Event τ I} (he : ∀ x, e ≠ .kvWrite x) :
    Queued spec (w.log e) :=
  ⟨h.active, fun j hj => ⟨List.mem_cons_of_mem _ (h.jobs j hj).1, (h.jobs j hj).2⟩,
    h.writes.cons he⟩

theorem promote (h : Queued spec w) (required capacity stride : ℕ) :
    Queued spec (promoteCL spec required capacity stride w) := by
  have hspec := promoteTarget_spec required capacity h.active
  rw [promoteCL_eq h.active]
  exact ⟨hspec.2.1, fun j hj => ⟨(h.jobs j hj).1, fun hroom =>
    ((h.jobs j hj).2 hroom).trans (spec.kvLen_mono hspec.1 hspec.2.1)⟩, h.writes⟩

/-- A write-back of a logged step. -/
theorem updateKV (h : Queued spec w) {s : ℕ} {phase : Phase} {off n : ℕ}
    (hstep : Event.step phase off n ∈ w.trace)
    (hroom : off + n ≤ spec.maxCl - spec.seqLen phase → off + n ≤ spec.kvLen phase w.activeClIdx) :
    Queued spec (Geniex.updateKV spec s phase off n w) := by
  obtain ⟨es, ht, hes⟩ := updateKV_trace spec s phase off n w
  refine ⟨?_, fun j hj => ?_, ?_⟩
  · rw [updateKV_activeClIdx]
    exact h.active
  · rw [updateKV_pending] at hj
    rw [ht, updateKV_activeClIdx]
    exact ⟨List.mem_append_right _ (h.jobs j hj).1, (h.jobs j hj).2⟩
  · rw [ht]
    refine h.writes.append fun x hx => ?_
    cases hes _ hx
    exact ⟨hstep, hroom⟩

/-- The workers complete queued jobs. -/
theorem settle (h : Queued spec w) (done : KVJob → Bool) :
    Queued spec (Geniex.settle spec done w) := by
  obtain ⟨ha, -, -, -, -, es, ht, hes⟩ :=
    runJobs_frame spec (w.pending.filter done) w
  have hall : ∀ j ∈ w.pending, Event.step .decode j.off 1 ∈ es ++ w.trace ∧
      (j.off + 1 ≤ spec.maxCl - spec.seqLenDecode → j.off + 1 ≤ spec.kvLen .decode w.activeClIdx) :=
    fun j hj => ⟨List.mem_append_right _ (h.jobs j hj).1, (h.jobs j hj).2⟩
  refine ⟨ha ▸ h.active, fun j hj => ?_, ?_⟩
  · show _ ∈ (runJobs spec _ w).trace ∧ (_ → _ ≤ spec.kvLen .decode (runJobs spec _ w).activeClIdx)
    rw [ht, ha]
    exact hall j (List.mem_filter.mp hj).1
  · show WritesInRow spec (runJobs spec _ w).trace
    rw [ht]
    refine h.writes.append fun x hx => ?_
    obtain ⟨j, hj, heq⟩ := hes _ hx
    cases heq
    exact h.jobs j (List.mem_filter.mp hj).1

/-- Queueing the write-back of a logged step. -/
theorem enqueue (h : Queued spec w) (env : Env τ ρ I) (s : ℕ) {off : ℕ}
    (hstep : Event.step .decode off 1 ∈ w.trace)
    (hroom : off + 1 ≤ spec.maxCl - spec.seqLenDecode →
      off + 1 ≤ spec.kvLen .decode w.activeClIdx) :
    Queued spec (writeBack spec env s off w) := by
  unfold writeBack
  split_ifs
  · refine ⟨h.active, fun j hj => ?_, h.writes⟩
    rcases List.mem_append.mp hj with hj | hj
    · exact h.jobs j hj
    · obtain rfl := List.mem_singleton.mp hj
      exact ⟨hstep, hroom⟩
  · exact h.updateKV hstep hroom

end Queued

/-! ## Within a step -/

/-- Within a chunk or decode step of `k` tokens from position `n` on. -/
structure Stepping (spec : LLMSpec) (phase : Phase) (n k a : ℕ) (w : World τ ρ I) : Prop where
  queued : Queued spec w
  active : w.activeClIdx = a
  step : Event.step phase n k ∈ w.trace

namespace Stepping

variable {phase : Phase} {n k a : ℕ} {w : World τ ρ I}

theorem settle (h : Stepping spec phase n k a w) (done : KVJob → Bool) :
    Stepping spec phase n k a (Geniex.settle spec done w) := by
  obtain ⟨ha, -, -, -, -, es, ht, -⟩ := runJobs_frame spec (w.pending.filter done) w
  refine ⟨h.queued.settle done, ha.trans h.active, ?_⟩
  show _ ∈ (runJobs spec _ w).trace
  rw [ht]
  exact List.mem_append_right _ h.step

theorem runShard (s : ℕ) (ctx : RunContext τ) :
    Stable (Stepping spec phase n k a) (Geniex.runShard spec env s phase a ctx) := by
  refine Stable.bind (Stable.modify fun w hw => ?_) fun _ => Stable.get fun w₁ w hw => ?_
  · unfold background
    split_ifs
    · exact hw
    · exact hw.settle _
  · have hlog : Stepping spec phase n k a
        (w.log (.exec ⟨phase, s, a, ctx, execInput spec env s phase a ctx w₁, w.produced⟩)) :=
      ⟨hw.queued.log (by simp), hw.active, List.mem_cons_of_mem _ hw.step⟩
    unfold execGraph
    cases env.exec w.tick (spec.graphIndex phase s a) (execInput spec env s phase a ctx w₁) with
    | none => exact ⟨hlog.queued.of_eq rfl rfl rfl, hlog.active, hlog.step⟩
    | some out => exact ⟨hlog.queued.of_eq rfl rfl rfl, hlog.active, hlog.step⟩

theorem prefillShard (hroom : n + k ≤ spec.maxCl - spec.seqLen .prefill → n + k ≤ spec.kvLen .prefill a)
    (isFinal : Bool) (tokens : List τ) (s : ℕ) :
    Stable (Stepping spec .prefill n k a)
      (Geniex.prefillShard spec env isFinal a ⟨tokens, n, k, .prefill⟩ s) := by
  refine Stable.when fun _ => Stable.bind (runShard s _) fun _ => Stable.bind
    (Stable.modify fun w hw => ?_) fun _ => Stable.when fun _ => Stable.modify fun w hw =>
      ⟨hw.queued.of_eq rfl rfl rfl, hw.active, hw.step⟩
  obtain ⟨es, ht, -⟩ := updateKV_trace spec s .prefill n k w
  exact ⟨hw.queued.updateKV hw.step (hw.active ▸ hroom), (updateKV_activeClIdx ..).trans hw.active,
    ht ▸ List.mem_append_right _ hw.step⟩

theorem decodeShard (hroom : n + 1 ≤ spec.maxCl - spec.seqLenDecode → n + 1 ≤ spec.kvLen .decode a)
    (tokens : List τ) (s : ℕ) :
    Stable (Stepping spec .decode n 1 a)
      (Geniex.decodeShard spec env a ⟨tokens, n, 1, .decode⟩ s) := by
  refine Stable.bind (runShard s _) fun _ => Stable.bind
    (Stable.modify fun w hw => ?_) fun _ => Stable.when fun _ => Stable.modify fun w hw =>
      ⟨hw.queued.of_eq rfl rfl rfl, hw.active, hw.step⟩
  have hq := hw.queued.enqueue env s hw.step (hw.active ▸ hroom)
  obtain ⟨es, ht, -⟩ := updateKV_trace spec s .decode n 1 w
  show Stepping spec .decode n 1 a (writeBack spec env s n w)
  unfold writeBack at hq ⊢
  split_ifs at hq ⊢
  · exact ⟨hq, hw.active, hw.step⟩
  · exact ⟨hq, (updateKV_activeClIdx ..).trans hw.active, ht ▸ List.mem_append_right _ hw.step⟩

end Stepping

/-- A promotion for a step leaves room for it, if the largest context length has any. -/
theorem promoteTarget_room (p : Phase) (required : ℕ) {a : ℕ} (ha : a < spec.numCl) :
    required ≤ spec.maxCl - spec.seqLen p →
      required ≤ spec.kvLen p (promoteTarget spec required (spec.seqLen p) a) := by
  intro hroom
  rcases (promoteTarget_spec required (spec.seqLen p) ha).2.2 with h | h
  · exact h
  · rw [spec.kvLen_last h]
    exact hroom

/-- The state in which the shards of a step start. -/
theorem Queued.start {w : World τ ρ I} (h : Queued spec w) (p : Phase) (n k : ℕ) :
    Stepping spec p n k (promoteTarget spec (n + k) (spec.seqLen p) w.activeClIdx)
      (promoteCL spec (n + k) (spec.seqLen p) (spec.seqLen p) (w.log (.step p n k))) := by
  have hl : Queued spec (w.log (.step p n k)) := h.log (by simp)
  refine ⟨hl.promote _ _ _, ?_, ?_⟩
  · rw [promoteCL_eq hl.active]
    rfl
  · rw [promoteCL_trace]
    exact List.mem_cons_self

/-! ## A call -/

theorem queued_call : CallInvariant spec env (Queued spec : World τ ρ I → Prop) where
  plain _ _ ha hp _ ht hw := hw.of_eq ha hp ht
  log _ _ he hw := hw.log he
  promote _ _ _ _ hw := hw.promote _ _ _
  wait := Stable.get fun _ => Stable.ite (fun _ => Stable.pure _) fun _ =>
    Stable.ite (fun _ => Stable.throw _) fun _ => Stable.modify fun _ hw => hw.settle _
  chunk isFinal chunk := by
    refine Triple.get fun w₁ hw₁ => ?_
    have hstart := hw₁.start .prefill w₁.nPast chunk.length
    have hroom := promoteTarget_room .prefill (w₁.nPast + chunk.length) hw₁.active
    refine Triple.bind (R := fun _ w => w = w₁.log (.step .prefill w₁.nPast chunk.length))
      (Triple.modify fun w hw => by rw [hw]) fun _ => Triple.bind (R := fun _ =>
        Stepping spec .prefill w₁.nPast chunk.length _) (Triple.modify fun w hw => hw ▸ hstart)
      fun _ => Triple.get fun w₂ hw₂ => ?_
    rw [hw₂.active]
    exact Triple.bind ((Stable.forRange (Stepping.prefillShard hroom isFinal chunk) _).conseq
      (fun w hw => by subst hw; exact hw₂) (fun _ _ h => h) fun _ _ h => h.queued) fun _ =>
      Triple.modify fun w hw => hw.queued.of_eq rfl rfl rfl
  forward tok := by
    refine Triple.get fun w₁ hw₁ => ?_
    have hstart := hw₁.start .decode w₁.nPast 1
    have hroom := promoteTarget_room .decode (w₁.nPast + 1) hw₁.active
    refine Triple.bind (R := fun _ w => w = w₁.log (.step .decode w₁.nPast 1))
      (Triple.modify fun w hw => by rw [hw]) fun _ => Triple.bind (R := fun _ =>
        Stepping spec .decode w₁.nPast 1 _) (Triple.modify fun w hw => hw ▸ hstart)
      fun _ => Triple.get fun w₂ hw₂ => ?_
    rw [hw₂.active]
    exact Triple.bind ((Stable.forRange (Stepping.decodeShard hroom [tok]) _).conseq
      (fun w hw => by subst hw; exact hw₂) (fun _ _ h => h) fun _ _ h => h.queued) fun _ =>
      Triple.modify fun w hw => (hw.queued.log (e := .appended [tok]) (by simp)).of_eq rfl rfl rfl

/-! ## Runs -/

section Runs

variable [Token τ]

/-- Nothing was queued when a state was replaced. -/
def ClearedIdle (trace : List (Event τ I)) : Prop := ∀ n, Event.cleared n ∈ trace → n = 0

omit [Token τ] in
theorem ClearedIdle.of_suffix {old trace : List (Event τ I)} (h : ClearedIdle trace)
    (hs : old <:+ trace) : ClearedIdle old := fun n hn => h n (hs.subset hn)

theorem Reachable.queued {w : World τ ρ I} (h : Reachable spec env w)
    (hc : ClearedIdle w.trace) : Queued spec w := by
  induction h with
  | init env providers kv outs hiddenIn =>
    exact ⟨spec.numCl_pos, fun _ hj => (nomatch hj), fun _ hx => (nomatch hx)⟩
  | @generate env w w' r prompt cfg callback _ hrun _ ih =>
    have hgrow := generate_grows spec env prompt cfg callback w
    have hkeep : Queued spec w → Queued spec (Geniex.generate spec env prompt cfg callback w).2 :=
      (queued_call.generate prompt cfg callback).snd
    rw [hrun] at hgrow hkeep
    exact hkeep (ih (hc.of_suffix hgrow))
  | @reset _ w _ ih =>
    have hnil : w.pending = [] := List.length_eq_zero_iff.mp (hc _ List.mem_cons_self)
    have hq := ih (hc.of_suffix (List.suffix_cons _ _))
    have hreset : Queued spec (resetKVCache spec w) := by
      refine ⟨spec.numCl_pos, fun j hj => ?_, hq.writes⟩
      change j ∈ w.pending at hj
      rw [hnil] at hj
      cases hj
    exact hreset.log (by simp)
  | @load _ _ w v _ hv ihw ihv =>
    rw [loaded_eq hv.counted] at hc ⊢
    have hnil : w.pending = [] := List.length_eq_zero_iff.mp (hc _ List.mem_cons_self)
    have hqw := ihw (hc.of_suffix (List.suffix_append (_ :: v.trace) _))
    have hqv := ihv fun n hn => hc n (List.mem_cons_of_mem _ (List.mem_append_left _ hn))
    refine ⟨hqv.active, fun j hj => ?_, WritesInRow.cons (fun x hx => ?_) (by simp)⟩
    · change j ∈ w.pending at hj
      rw [hnil] at hj
      cases hj
    · rcases List.mem_append.mp hx with hx | hx
      · exact ⟨List.mem_append_left _ (hqv.writes x hx).1, (hqv.writes x hx).2⟩
      · exact ⟨List.mem_append_right _ (hqw.writes x hx).1, (hqw.writes x hx).2⟩
  | install providers _ ih => exact (ih hc).of_eq rfl rfl rfl
  | @idle _ w done _ _ ih =>
    obtain ⟨es, -, ht⟩ := (settle_quietly spec done w).trace
    exact (ih (hc.of_suffix (ht ▸ List.suffix_append _ _))).settle done

/-- A chunk or decode step got as far as writing back. -/
def WroteBack (trace : List (Event τ I)) (p : Phase) (n k : ℕ) : Prop :=
  ∃ s a, Event.kvWrite ⟨p, s, a, n, k⟩ ∈ trace

/-- **When write-backs stay in their rows.** In a run that replaced no state with write-backs still
queued, and in any call from its end: every write-back stays in its row if and only if every chunk
or decode step that wrote back had room at the largest context length. -/
theorem writeBacks_inRow_iff {w : World τ ρ I} (h : Reachable spec env w)
    (hc : ClearedIdle w.trace) (prompt : List τ) (cfg : GenerationConfig)
    (callback : List Int32 → CallbackAnswer) :
    let trace := (generate spec env prompt cfg callback w).2.trace
    (∀ x, Event.kvWrite x ∈ trace → InRow spec x) ↔
      ∀ p n k, Event.step p n k ∈ trace → WroteBack trace p n k →
        n + k ≤ spec.maxCl - spec.seqLen p := by
  intro trace
  have hq : Queued spec (generate spec env prompt cfg callback w).2 :=
    (queued_call.generate prompt cfg callback).snd (h.queued hc)
  constructor
  · rintro hrow p n k - ⟨s, a, hx⟩
    have hfit : n + k ≤ spec.kvLen p a := hrow _ hx
    by_cases ha : a < spec.numCl
    · exact hfit.trans (spec.kvLen_le_last ha)
    · have hzero : spec.kvLen p a = 0 := by
        unfold LLMSpec.kvLen LLMSpec.cl
        rw [List.getD_eq_getElem?_getD, List.getElem?_eq_none (not_lt.mp ha), Option.getD_none,
          Nat.zero_sub]
      omega
  · intro hroom x hx
    obtain ⟨hstep, hfit⟩ := hq.writes x hx
    exact hfit (hroom _ _ _ hstep ⟨x.shard, x.clIdx, hx⟩)

/-- An instance: a two-token prompt at a context length of 4 with AR 2 and 1. -/
theorem writeBacks_inRow_tiny :
    (tinyRun (tinySpec [4] 2 1) (tinyEnv 1 1) [0, 0] 0).1 = .ok [] ∧
      ∀ x, Event.kvWrite x ∈ (tinyRun (tinySpec [4] 2 1) (tinyEnv 1 1) [0, 0] 0).2.trace →
        InRow (tinySpec [4] 2 1) x := by
  have hc : ClearedIdle (tinyWorld (tinySpec [4] 2 1)).trace := fun _ hn => nomatch hn
  refine ⟨by decide +kernel, (writeBacks_inRow_iff (tinyWorld_reachable _ (tinyEnv 1 1)) hc [0, 0]
    (tinyCfg 0) fun _ => .continue).mpr fun p n k _ hwrote => ?_⟩
  obtain ⟨s, a, hx⟩ := hwrote
  have hall : ∀ x ∈ kvWrites (tinyRun (tinySpec [4] 2 1) (tinyEnv 1 1) [0, 0] 0).2.trace,
      x.off + x.nTok ≤ (tinySpec [4] 2 1).maxCl - (tinySpec [4] 2 1).seqLen x.phase := by
    decide +kernel
  exact hall _ (mem_kvWrites.mpr hx)

/-- A prompt of four tokens fits that context length, and its second chunk writes past its rows. -/
theorem writeBack_past_row :
    (tinyRun (tinySpec [4] 2 1) (tinyEnv 1 1) [0, 0, 0, 0] 0).1 = .ok [] ∧
      ∃ x, Event.kvWrite x ∈ (tinyRun (tinySpec [4] 2 1) (tinyEnv 1 1) [0, 0, 0, 0] 0).2.trace ∧
        ¬InRow (tinySpec [4] 2 1) x := by
  refine ⟨by decide +kernel, ⟨.prefill, 0, 0, 2, 2⟩, mem_kvWrites.mp ?_, by decide⟩
  decide +kernel

end Runs

end Geniex
