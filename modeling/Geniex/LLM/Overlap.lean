import Geniex.LLM.Eviction
import Geniex.LLM.Lockstep

/-!
# Overlapped and serial decoding

A decode step queues its write-backs on the pool and goes on; without a pool it does them at once.

* `runJobs_tensor`: what queued write-backs do to one tensor.
* `Overlaps`: an instance, and the one whose write-backs are done at once.
* `overlapped_serial`: the runs of the two, when no operation starts with a write-back queued.
-/

namespace Geniex

open FlatMem Prog

variable {τ ρ I : Type} {spec : LLMSpec} {env : Env τ ρ I}

/-! ## The queued write-backs -/

/-- What a queued write-back does to a tensor of its shard. -/
def jobWrite (spec : LLMSpec) (w : World τ ρ I) (t : KVTensor) (m : ℕ → UInt8) (j : KVJob) :
    ℕ → UInt8 :=
  copyKV spec t m ((w.outs (spec.graphIndex .decode j.shard w.activeClIdx)).kvOut t)
    (spec.seqLen .decode) 0 (spec.kvLen .decode w.activeClIdx) j.off 1

/-- A run of write-backs, tensor by tensor: the jobs of its shard, in order. -/
theorem runJobs_tensor (jobs : List KVJob) (w : World τ ρ I) (t : KVTensor) :
    (runJobs spec jobs w).kv t =
      if spec.hasTensor t = true then
        (jobs.filter (·.shard = t.shard)).foldl (jobWrite spec w t) (w.kv t)
      else w.kv t := by
  unfold runJobs
  induction jobs generalizing w with
  | nil => simp
  | cons j jobs ih =>
    have hwrite : jobWrite spec (updateKV spec j.shard .decode j.off 1 w) t = jobWrite spec w t := by
      funext m j'
      unfold jobWrite
      rw [updateKV_outs, updateKV_activeClIdx]
    rw [List.foldl_cons, ih, hwrite, updateKV_kv, List.filter_cons]
    by_cases ht : spec.hasTensor t = true
    · by_cases hs : j.shard = t.shard
      · simp [ht, hs, jobWrite]
      · simp [ht, hs, Ne.symm hs]
    · simp [ht]

/-- Write-backs change the KV tensors and the log. -/
theorem runJobs_eq (jobs : List KVJob) (w : World τ ρ I) :
    runJobs spec jobs w =
      { w with kv := (runJobs spec jobs w).kv, trace := (runJobs spec jobs w).trace } := by
  unfold runJobs
  induction jobs generalizing w with
  | nil => rfl
  | cons j jobs ih =>
    rw [List.foldl_cons, ih, updateKV_frame]

/-- Write-backs of other shards leave a tensor alone. -/
theorem runJobs_other {jobs : List KVJob} {t : KVTensor} (h : ∀ j ∈ jobs, j.shard ≠ t.shard)
    (w : World τ ρ I) : (runJobs spec jobs w).kv t = w.kv t := by
  have hnil : jobs.filter (·.shard = t.shard) = [] :=
    List.filter_eq_nil_iff.mpr fun j hj => by simpa using h j hj
  rw [runJobs_tensor, hnil]
  split_ifs <;> rfl

/-- Write-backs of different shards can be done in any order. -/
theorem runJobs_split {jobs : List KVJob} (h : jobs.Pairwise (·.shard < ·.shard))
    (done : KVJob → Bool) (w : World τ ρ I) :
    (runJobs spec (jobs.filter fun j => !done j) (runJobs spec (jobs.filter done) w)).kv =
      (runJobs spec jobs w).kv := by
  funext t
  obtain ⟨hactive, -, houts, -⟩ := runJobs_frame spec (jobs.filter done) w
  have hwrite : jobWrite spec (runJobs spec (jobs.filter done) w) t = jobWrite spec w t := by
    funext m j
    unfold jobWrite
    rw [houts, hactive]
  rw [runJobs_tensor, runJobs_tensor, runJobs_tensor, hwrite]
  split_ifs
  · -- at most one job is of the shard of the tensor
    have hcomm : ∀ q : KVJob → Bool, (jobs.filter q).filter (·.shard = t.shard) =
        (jobs.filter (·.shard = t.shard)).filter q := fun q => List.filter_comm ..
    rw [hcomm, hcomm, ← List.foldl_append]
    have hone := h.sublist (List.filter_sublist (p := (·.shard = t.shard)))
    have hshard : ∀ j ∈ jobs.filter (·.shard = t.shard), j.shard = t.shard := fun j hj => by
      simpa using (List.mem_filter.mp hj).2
    generalize jobs.filter (·.shard = t.shard) = own at hone hshard ⊢
    match own with
    | [] => rfl
    | [j] => cases hd : done j <;> simp [hd]
    | j :: j' :: l =>
      have hlt := (List.pairwise_cons.mp hone).1 j' List.mem_cons_self
      rw [hshard j List.mem_cons_self,
        hshard j' (List.mem_cons_of_mem _ List.mem_cons_self)] at hlt
      exact absurd hlt (lt_irrefl _)
  · rfl

/-! ## Two instances -/

/-- The environment in which a decode step writes back at once. -/
def Env.serial (env : Env τ ρ I) : Env τ ρ I := { env with nWorkers := 0, clockKeeperThreads := 0 }

/-- The KV tensors when the queued write-backs are done. -/
def completed (spec : LLMSpec) (w : World τ ρ I) : KVMem := (runJobs spec w.pending w).kv

/-- `v` is `w` with its queued write-backs done, but for the clock keeper and the log, which has the
same executions. -/
structure Overlaps (spec : LLMSpec) (w v : World τ ρ I) : Prop where
  active : w.activeClIdx < spec.numCl
  jobs : w.pending.Pairwise (·.shard < ·.shard)
  same : ∃ kv jobs clock trace, v = { w with
    kv := kv, pending := jobs, clockKeeper := clock, trace := trace }
  serial : v.pending = []
  kv : v.kv = completed spec w
  execs : execs v.trace = execs w.trace

/-- The same with nothing queued. -/
structure Rests (spec : LLMSpec) (w v : World τ ρ I) : Prop extends Overlaps spec w v where
  idle : w.pending = []

namespace Overlaps

variable {w v : World τ ρ I}

theorem execs_quiet {es trace : List (Event τ I)} (h : ∀ x, Event.exec x ∉ es) :
    Geniex.execs (es ++ trace) = Geniex.execs trace := by
  induction es with
  | nil => rfl
  | cons e es ih =>
    have hrest := ih fun x hx => h x (List.mem_cons_of_mem _ hx)
    cases e with
    | exec x => exact absurd List.mem_cons_self (h x)
    | _ => exact hrest

theorem runJobs_execs (jobs : List KVJob) (w : World τ ρ I) :
    Geniex.execs (runJobs spec jobs w).trace = Geniex.execs w.trace := by
  obtain ⟨-, -, -, -, -, es, ht, hes⟩ := runJobs_frame spec jobs w
  rw [ht]
  refine execs_quiet fun x hx => ?_
  obtain ⟨j, -, heq⟩ := hes _ hx
  cases heq

/-- Write-backs read the outputs and change the KV tensors; the rest may differ. -/
theorem completed_congr {w w' : World τ ρ I} (hp : w'.pending = w.pending)
    (ha : w'.activeClIdx = w.activeClIdx) (hkv : w'.kv = w.kv)
    (houts : ∀ j ∈ w.pending, w'.outs (spec.graphIndex .decode j.shard w.activeClIdx) =
      w.outs (spec.graphIndex .decode j.shard w.activeClIdx)) :
    completed spec w' = completed spec w := by
  unfold completed
  funext t
  rw [runJobs_tensor, runJobs_tensor, hp, hkv]
  split_ifs
  · refine List.foldl_ext _ _ _ fun m j hj => ?_
    unfold jobWrite
    rw [ha, houts j (List.mem_filter.mp hj).1]
  · rfl

theorem completed_settle (h : w.pending.Pairwise (·.shard < ·.shard)) (done : KVJob → Bool) :
    completed spec (settle spec done w) = completed spec w := by
  have hrest : completed spec (Geniex.settle spec done w) =
      (runJobs spec (w.pending.filter fun j => !done j)
        (runJobs spec (w.pending.filter done) w)).kv := by
    unfold completed
    funext t
    rw [runJobs_tensor, runJobs_tensor]
    rfl
  exact hrest.trans (runJobs_split h done w)

/-- The workers complete queued jobs. -/
theorem settle (h : Overlaps spec w v) (done : KVJob → Bool) :
    Overlaps spec (settle spec done w) v := by
  obtain ⟨kv, jobs, clock, trace, rfl⟩ := h.same
  have hframe : runJobs spec (w.pending.filter done) w = { w with
      kv := (runJobs spec (w.pending.filter done) w).kv
      trace := (runJobs spec (w.pending.filter done) w).trace } := runJobs_eq _ w
  refine ⟨?_, h.jobs.sublist List.filter_sublist, ⟨kv, jobs, clock, trace, ?_⟩, h.serial,
    h.kv.trans (completed_settle h.jobs done).symm, ?_⟩
  · show (runJobs spec _ w).activeClIdx < _
    rw [hframe]
    exact h.active
  · unfold Geniex.settle
    rw [hframe]
  · show Geniex.execs trace = Geniex.execs (runJobs spec _ w).trace
    rw [runJobs_execs]
    exact h.execs

theorem background (h : Overlaps spec w v) : Overlaps spec (background spec env w) v := by
  unfold Geniex.background
  split_ifs
  · exact h
  · exact h.settle _

/-- Work that touches neither the KV tensors nor the outputs of the queued write-backs. -/
theorem plain (h : Overlaps spec w v) {w' v' : World τ ρ I} (hp : w'.pending = w.pending)
    (ha : w'.activeClIdx = w.activeClIdx) (hkv : w'.kv = w.kv)
    (houts : ∀ j ∈ w.pending, w'.outs (spec.graphIndex .decode j.shard w.activeClIdx) =
      w.outs (spec.graphIndex .decode j.shard w.activeClIdx))
    (hsame : ∃ kv jobs clock trace, v' = { w' with
      kv := kv, pending := jobs, clockKeeper := clock, trace := trace })
    (hp' : v'.pending = v.pending) (hkv' : v'.kv = v.kv)
    (hx : Geniex.execs v'.trace = Geniex.execs w'.trace) : Overlaps spec w' v' where
  active := ha ▸ h.active
  jobs := hp ▸ h.jobs
  same := hsame
  serial := hp'.trans h.serial
  kv := (hkv'.trans h.kv).trans (completed_congr hp ha hkv houts).symm
  execs := hx

/-- The two have the same bookkeeping. -/
theorem carried : Carried (Overlaps spec : World τ ρ I → World τ ρ I → Prop) where
  books h := by
    obtain ⟨kv, jobs, clock, trace, rfl⟩ := h.same
    exact ⟨rfl, rfl, rfl, fun _ => rfl⟩
  log h e := by
    obtain ⟨kv, jobs, clock, trace, rfl⟩ := h.same
    refine h.plain rfl rfl rfl (fun _ _ => rfl) ⟨_, _, _, _, rfl⟩ rfl rfl ?_
    cases e with
    | exec x => exact congrArg (x :: ·) h.execs
    | _ => exact h.execs
  setHistory h n l := by
    obtain ⟨kv, jobs, clock, trace, rfl⟩ := h.same
    exact h.plain rfl rfl rfl (fun _ _ => rfl) ⟨_, _, _, _, rfl⟩ rfl rfl h.execs
  setSampler h s c := by
    obtain ⟨kv, jobs, clock, trace, rfl⟩ := h.same
    exact h.plain rfl rfl rfl (fun _ _ => rfl) ⟨_, _, _, _, rfl⟩ rfl rfl h.execs
  mapSampler h f := by
    obtain ⟨kv, jobs, clock, trace, rfl⟩ := h.same
    exact h.plain rfl rfl rfl (fun _ _ => rfl) ⟨_, _, _, _, rfl⟩ rfl rfl h.execs
  setClock h k k' := by
    obtain ⟨kv, jobs, clock, trace, rfl⟩ := h.same
    exact h.plain rfl rfl rfl (fun _ _ => rfl) ⟨_, _, _, _, rfl⟩ rfl rfl h.execs

/-- The same logits. -/
theorem logits (h : Overlaps spec w v) (phase : Phase) : SameLogits spec phase w v := by
  obtain ⟨kv, jobs, clock, trace, rfl⟩ := h.same
  exact fun _ => rfl

end Overlaps

namespace Rests

variable {w v : World τ ρ I}

theorem same_kv (h : Rests spec w v) : v.kv = w.kv := by
  refine h.kv.trans ?_
  unfold completed
  rw [h.idle]
  rfl

/-- New KV bytes and a new context length, on both sides. -/
theorem move (h : Rests spec w v) (g : KVMem → KVMem) {a : ℕ} (ha : a < spec.numCl) :
    Rests spec { w with kv := g w.kv, activeClIdx := a }
      { v with kv := g v.kv, activeClIdx := a } := by
  obtain ⟨kv, jobs, clock, trace, rfl⟩ := h.same
  obtain rfl : kv = w.kv := h.same_kv
  refine ⟨⟨ha, h.jobs, ⟨_, _, _, _, rfl⟩, h.serial, ?_, h.execs⟩, h.idle⟩
  unfold completed
  dsimp only
  rw [h.idle]
  rfl

theorem carried : Carried (Rests spec : World τ ρ I → World τ ρ I → Prop) where
  books h := Overlaps.carried.books h.toOverlaps
  log h e := ⟨Overlaps.carried.log h.toOverlaps e, h.idle⟩
  setHistory h n l := ⟨Overlaps.carried.setHistory h.toOverlaps n l, h.idle⟩
  setSampler h s c := ⟨Overlaps.carried.setSampler h.toOverlaps s c, h.idle⟩
  mapSampler h f := ⟨Overlaps.carried.mapSampler h.toOverlaps f, h.idle⟩
  setClock h k k' := ⟨Overlaps.carried.setClock h.toOverlaps k k', h.idle⟩

theorem restride (h : Rests spec w v) (p q : Phase) (n : ℕ) :
    Rests spec (restrideActive spec p q n w) (restrideActive spec p q n v) := by
  obtain ⟨kv, jobs, clock, trace, rfl⟩ := h.same
  exact h.move (reshapeAll spec (spec.kvLen p w.activeClIdx) (spec.kvLen q w.activeClIdx) n) h.active

theorem promote (h : Rests spec w v) (required reserved stride : ℕ) :
    Rests spec (promoteCL spec required reserved stride w)
      (promoteCL spec required reserved stride v) := by
  obtain ⟨kv, jobs, clock, trace, rfl⟩ := h.same
  rw [promoteCL_eq h.active, promoteCL_eq (by exact h.active)]
  exact h.move (fun m => reshapeAll spec (spec.cl w.activeClIdx - stride)
    (spec.cl (promoteTarget spec required reserved w.activeClIdx) - stride) w.nPast m)
    (promoteTarget_spec required reserved h.active).2.1

theorem updateKV (h : Rests spec w v) (s : ℕ) (p : Phase) (off n : ℕ) :
    Rests spec (updateKV spec s p off n w) (updateKV spec s p off n v) := by
  obtain ⟨kv, jobs, clock, trace, rfl⟩ := h.same
  obtain rfl : kv = w.kv := h.same_kv
  unfold Geniex.updateKV
  split_ifs
  · exact h
  · refine ⟨⟨h.active, h.jobs, ⟨_, _, _, _, rfl⟩, h.serial, ?_, h.execs⟩, h.idle⟩
    unfold completed
    dsimp only
    rw [h.idle]
    rfl

end Rests

/-! ## One shard -/

/-- Within a chunk or step, when the shards below `s` have run: only their write-backs are queued,
and only in a decode step. -/
structure RunsShard (spec : LLMSpec) (p : Phase) (a s : ℕ) (w v : World τ ρ I) : Prop where
  overlaps : Overlaps spec w v
  active : w.activeClIdx = a
  before : ∀ j ∈ w.pending, p = .decode ∧ j.shard < s

namespace RunsShard

variable {p : Phase} {a s : ℕ} {w v : World τ ρ I}

theorem rests (h : RunsShard spec .prefill a s w v) : Rests spec w v :=
  ⟨h.overlaps, List.eq_nil_iff_forall_not_mem.mpr fun j hj => by cases (h.before j hj).1⟩

theorem background (h : RunsShard spec p a s w v) :
    RunsShard spec p a s (background spec env w) v := by
  refine ⟨h.overlaps.background, ?_, fun j hj => h.before j ?_⟩
  · obtain ⟨ha, -⟩ := runJobs_frame spec (w.pending.filter (env.finishes w.tick)) w
    unfold Geniex.background
    split_ifs
    · exact h.active
    · exact ha.trans h.active
  · unfold Geniex.background at hj
    split_ifs at hj
    · exact hj
    · exact (List.mem_filter.mp hj).1

/-- A shard reads the same inputs, whatever is still queued. -/
theorem execInput (h : RunsShard spec p a s w v) (ctx : RunContext τ) :
    execInput spec env.serial s p a ctx v = execInput spec env s p a ctx w := by
  have hview : kvView spec p s a v.kv = kvView spec p s a w.kv := by
    funext t i
    unfold kvView
    by_cases hs : t.shard = s
    · rw [h.overlaps.kv, completed, runJobs_other fun j hj => by
        have := (h.before j hj).2
        omega]
    · rw [if_neg (by tauto), if_neg (by tauto)]
  obtain ⟨kv, jobs, clock, trace, rfl⟩ := h.overlaps.same
  unfold Geniex.execInput
  rw [hview]
  rfl

/-- One execution. -/
theorem runShard (ctx : RunContext τ) :
    InStep (RunsShard spec p a s) (runShard spec env s p a ctx : Run τ ρ I Unit)
      (runShard spec env.serial s p a ctx) (fun _ => RunsShard spec p a s)
      fun _ => Overlaps spec := by
  refine InStep.bind (R := fun _ => RunsShard spec p a s) (InStep.modify fun w v h => ?_) fun _ =>
    InStep.get fun w₁ v₁ h => ?_
  · have hidle : Geniex.background spec env.serial v = v := if_pos rfl
    rw [hidle]
    exact h.background
  rintro w v ⟨rfl, rfl⟩
  have hinput : Geniex.execInput spec env.serial s p a ctx v = Geniex.execInput spec env s p a ctx w :=
    h.execInput ctx
  obtain ⟨kv, jobs, clock, trace, rfl⟩ := h.overlaps.same
  rw [hinput]
  have hexecs : ∀ x, execs (Event.exec x :: trace) = execs (Event.exec x :: w.trace) :=
    fun x => congrArg (x :: ·) h.overlaps.execs
  unfold execGraph
  dsimp only
  rw [show env.serial.exec = env.exec from rfl]
  cases env.exec w.tick (spec.graphIndex p s a) (Geniex.execInput spec env s p a ctx w) with
  | none =>
    exact ⟨rfl, h.overlaps.plain rfl rfl rfl (fun _ _ => rfl) ⟨_, _, _, _, rfl⟩ rfl rfl (hexecs _)⟩
  | some out =>
    refine ⟨rfl, h.overlaps.plain rfl rfl rfl (fun j hj => ?_) ⟨_, _, _, _, rfl⟩ rfl rfl (hexecs _),
      h.active, h.before⟩
    -- the outputs of the queued write-backs are those of earlier shards
    obtain ⟨rfl, hlt⟩ := h.before j hj
    refine Function.update_of_ne (fun heq => ?_) _ _
    rw [h.active] at heq
    exact hlt.ne (Mid.graphIndex_shard (h.active ▸ h.overlaps.active) heq)

/-- A shard's part of a prefill chunk. -/
theorem prefillShard (isFinal : Bool) (ctx : RunContext τ) (s : ℕ) :
    InStep (RunsShard spec .prefill a s) (prefillShard spec env isFinal a ctx s : Run τ ρ I Unit)
      (prefillShard spec env.serial isFinal a ctx s) (fun _ => RunsShard spec .prefill a (s + 1))
      fun _ => Overlaps spec := by
  refine InStep.when Iff.rfl (fun _ => InStep.bind (runShard ctx) fun _ => ?_) fun _ w v h => ?_
  · refine InStep.bind (R := fun _ => RunsShard spec .prefill a (s + 1))
      (InStep.modify fun w v h => ?_) fun _ => InStep.when Iff.rfl (fun _ =>
        InStep.modify fun w v h => ?_) fun _ _ _ h => h
    · have hupdate := h.rests.updateKV s .prefill ctx.nPast ctx.currLen
      refine ⟨hupdate.toOverlaps, (updateKV_activeClIdx ..).trans h.active, fun j hj => ?_⟩
      rw [hupdate.idle] at hj
      cases hj
    · obtain ⟨kv, jobs, clock, trace, rfl⟩ := h.overlaps.same
      exact ⟨h.overlaps.plain rfl rfl rfl (fun _ _ => rfl) ⟨_, _, _, _, rfl⟩ rfl rfl
        h.overlaps.execs, h.active, h.before⟩
  · exact ⟨h.overlaps, h.active, fun j hj => ⟨(h.before j hj).1, Nat.lt_succ_of_lt (h.before j hj).2⟩⟩

/-- A write-back that is queued, and one that is done at once. -/
theorem writeBack (hn : 0 < env.nWorkers) (h : RunsShard spec .decode a s w v) (off : ℕ) :
    RunsShard spec .decode a (s + 1) (writeBack spec env s off w)
      (writeBack spec env.serial s off v) := by
  have hpool : env.decodePool = true := by simp [Env.decodePool, hn]
  have hserial : env.serial.decodePool = false := rfl
  obtain ⟨kv, jobs, clock, trace, rfl⟩ := h.overlaps.same
  unfold Geniex.writeBack
  rw [if_pos hpool, hserial, if_neg Bool.false_ne_true]
  set v : World τ ρ I :=
    { w with kv := kv, pending := jobs, clockKeeper := clock, trace := trace } with hv
  have hkv : (updateKV spec s .decode off 1 v).kv =
      completed spec { w with pending := w.pending ++ [⟨s, off⟩] } := by
    obtain ⟨ha, -, houts, -⟩ := runJobs_frame spec w.pending w
    have hbefore : v.kv = (runJobs spec w.pending w).kv := h.overlaps.kv
    have hlast : completed spec { w with pending := w.pending ++ [⟨s, off⟩] } =
        (updateKV spec s .decode off 1 (runJobs spec w.pending w)).kv := by
      funext t
      have hall : completed spec { w with pending := w.pending ++ [⟨s, off⟩] } t =
          (runJobs spec (w.pending ++ [⟨s, off⟩]) w).kv t := by
        unfold completed
        rw [runJobs_tensor, runJobs_tensor]
        rfl
      rw [hall]
      unfold runJobs
      rw [List.foldl_append]
      rfl
    rw [hlast]
    funext t
    rw [updateKV_kv, updateKV_kv, hbefore, houts, ha]
  obtain ⟨es, ht, hes⟩ := updateKV_trace spec s .decode off 1 v
  have hframe : Geniex.updateKV spec s .decode off 1 v = { v with
      kv := (Geniex.updateKV spec s .decode off 1 v).kv
      trace := (Geniex.updateKV spec s .decode off 1 v).trace } := updateKV_frame s .decode off 1 v
  refine ⟨⟨h.overlaps.active, ?_, ⟨_, _, _, _, hframe⟩, ?_, hkv, ?_⟩, h.active, fun j hj => ?_⟩
  · refine List.pairwise_append.mpr ⟨h.overlaps.jobs, List.pairwise_singleton _ _, fun j hj j' hj' => ?_⟩
    rw [List.mem_singleton.mp hj']
    exact (h.before j hj).2
  · rw [updateKV_pending]
    exact h.overlaps.serial
  · rw [ht, Overlaps.execs_quiet fun x hx => by cases hes _ hx]
    exact h.overlaps.execs
  · rcases List.mem_append.mp hj with hj | hj
    · exact ⟨rfl, Nat.lt_succ_of_lt (h.before j hj).2⟩
    · rw [List.mem_singleton.mp hj]
      exact ⟨rfl, Nat.lt_succ_self s⟩

/-- A shard's part of a decode step. -/
theorem decodeShard (hn : 0 < env.nWorkers) (ctx : RunContext τ) (s : ℕ) :
    InStep (RunsShard spec .decode a s) (decodeShard spec env a ctx s : Run τ ρ I Unit)
      (decodeShard spec env.serial a ctx s) (fun _ => RunsShard spec .decode a (s + 1))
      fun _ => Overlaps spec := by
  refine InStep.bind (runShard ctx) fun _ => InStep.bind (R := fun _ =>
    RunsShard spec .decode a (s + 1)) (InStep.modify fun w v h => h.writeBack hn ctx.nPast)
    fun _ => InStep.when Iff.rfl (fun _ => InStep.modify fun w v h => ?_) fun _ _ _ h => h
  obtain ⟨kv, jobs, clock, trace, rfl⟩ := h.overlaps.same
  exact ⟨h.overlaps.plain rfl rfl rfl (fun _ _ => rfl) ⟨_, _, _, _, rfl⟩ rfl rfl
    h.overlaps.execs, h.active, h.before⟩

end RunsShard

/-! ## A call -/

/-- Waiting for the pool completes what is queued. -/
theorem waitPool_overlaps (hn : 0 < env.nWorkers) :
    InStep (Overlaps spec) (waitPool spec env : Run τ ρ I Unit) (waitPool spec env.serial)
      (fun _ => Rests spec) fun _ => Overlaps spec := by
  have hpool : env.decodePool = true := by simp [Env.decodePool, hn]
  refine InStep.get fun w₀ v₀ h => ?_
  rw [if_pos (Or.inl h.serial)]
  rintro w v ⟨rfl, rfl⟩
  by_cases hnil : w.pending = []
  · rw [if_pos (Or.inl hnil)]
    exact ⟨rfl, h, hnil⟩
  · rw [if_neg (by simp [hnil, hpool]), if_neg hn.ne']
    exact ⟨rfl, h.settle _, List.filter_false _⟩

/-- **A call with overlap does what the call without does.** -/
theorem overlaps_call (hn : 0 < env.nWorkers) :
    CallRelation spec env env.serial (fun _ => Rests spec) (Overlaps spec : World τ ρ I →
      World τ ρ I → Prop) (Overlaps spec) where
  sample := rfl
  stride _ := Rests.carried
  head := Overlaps.carried
  rest h := h.toOverlaps
  left h := h.toOverlaps
  leftHead h := h
  abort {w v} h b b' := by
    obtain ⟨kv, jobs, clock, trace, rfl⟩ := h.same
    exact h.plain rfl rfl rfl (fun _ _ => rfl) ⟨_, _, _, _, rfl⟩ rfl rfl h.execs
  restride h q n := h.restride _ q n
  promote h required reserved := h.promote required reserved _
  wait := waitPool_overlaps hn
  chunk isFinal chunk := by
    refine InStep.get fun w₀ v₀ h₀ => ?_
    have hbooks := Rests.carried.books h₀
    rw [← hbooks.nPast]
    refine InStep.bind (R := fun _ => Rests spec) (InStep.modify ?_) fun _ =>
      InStep.bind (R := fun _ => Rests spec) (InStep.modify fun w v h => h.promote _ _ _) fun _ =>
      InStep.get fun w₁ v₁ h₁ => ?_
    · rintro w v ⟨rfl, rfl⟩
      exact Rests.carried.log h₀ _
    have hactive : v₁.activeClIdx = w₁.activeClIdx := by
      obtain ⟨kv, jobs, clock, trace, rfl⟩ := h₁.same
      rfl
    rw [hactive]
    have hstart : RunsShard spec .prefill w₁.activeClIdx 0 w₁ v₁ :=
      ⟨h₁.toOverlaps, rfl, fun j hj => by rw [h₁.idle] at hj; cases hj⟩
    have hshards : InStep (RunsShard spec .prefill w₁.activeClIdx 0) (Prog.forRange spec.shardCount
        (prefillShard spec env isFinal w₁.activeClIdx ⟨chunk, w₀.nPast, chunk.length, .prefill⟩))
        (Prog.forRange spec.shardCount (prefillShard spec env.serial isFinal w₁.activeClIdx
          ⟨chunk, w₀.nPast, chunk.length, .prefill⟩))
        (fun _ => RunsShard spec .prefill w₁.activeClIdx spec.shardCount) fun _ => Overlaps spec :=
      InStep.forRange (R := RunsShard spec .prefill w₁.activeClIdx) fun s _ =>
        RunsShard.prefillShard isFinal _ s
    refine InStep.bind (hshards.pre ?_) fun _ => InStep.modify fun w v h => ?_
    · rintro w v ⟨rfl, rfl⟩
      exact hstart
    · have hend := h.rests
      have hbooks := Rests.carried.books hend
      rw [← hbooks.history, ← hbooks.nPast]
      have hset := Rests.carried.setHistory hend (w.nPast + chunk.length) (w.tokenHistory ++ chunk)
      exact ⟨hset, fun _ => hset.logits _⟩
  forward tok := by
    refine InStep.get fun w₀ v₀ h₀ => ?_
    have hbooks := Rests.carried.books h₀
    rw [← hbooks.nPast]
    refine InStep.bind (R := fun _ => Rests spec) (InStep.modify ?_) fun _ =>
      InStep.bind (R := fun _ => Rests spec) (InStep.modify fun w v h => h.promote _ _ _) fun _ =>
      InStep.get fun w₁ v₁ h₁ => ?_
    · rintro w v ⟨rfl, rfl⟩
      exact Rests.carried.log h₀ _
    have hactive : v₁.activeClIdx = w₁.activeClIdx := by
      obtain ⟨kv, jobs, clock, trace, rfl⟩ := h₁.same
      rfl
    rw [hactive]
    have hstart : RunsShard spec .decode w₁.activeClIdx 0 w₁ v₁ :=
      ⟨h₁.toOverlaps, rfl, fun j hj => by rw [h₁.idle] at hj; cases hj⟩
    have hshards : InStep (RunsShard spec .decode w₁.activeClIdx 0) (Prog.forRange spec.shardCount
        (decodeShard spec env w₁.activeClIdx ⟨[tok], w₀.nPast, 1, .decode⟩))
        (Prog.forRange spec.shardCount (decodeShard spec env.serial w₁.activeClIdx
          ⟨[tok], w₀.nPast, 1, .decode⟩))
        (fun _ => RunsShard spec .decode w₁.activeClIdx spec.shardCount) fun _ => Overlaps spec :=
      InStep.forRange (R := RunsShard spec .decode w₁.activeClIdx) fun s _ =>
        RunsShard.decodeShard hn _ s
    refine InStep.bind (hshards.pre ?_) fun _ => InStep.modify fun w v h => ?_
    · rintro w v ⟨rfl, rfl⟩
      exact hstart
    · have hbooks := Overlaps.carried.books h.overlaps
      rw [← hbooks.history, ← hbooks.nPast]
      have hset := Overlaps.carried.setHistory (Overlaps.carried.log h.overlaps (.appended [tok]))
        (w.nPast + 1) (w.tokenHistory ++ [tok])
      exact ⟨hset, hset.logits _⟩

/-! ## Runs -/

section Runs

variable [Token τ]

/-- The states of a run with overlap, and of the same run without. No operation starts with a
write-back queued. -/
inductive OverlapRun (spec : LLMSpec) (env : Env τ ρ I) : World τ ρ I → World τ ρ I → Prop
  | init (providers : ρ) (kv : KVMem) (outs : ℕ → GraphOut) (hiddenIn : ℕ → ℕ → UInt8) :
      OverlapRun spec env (initWorld spec providers kv outs hiddenIn)
        (initWorld spec providers kv outs hiddenIn)
  | generate {w v : World τ ρ I} (prompt : List τ) (cfg : GenerationConfig)
      (callback : List Int32 → CallbackAnswer) (h : OverlapRun spec env w v)
      (hidle : w.pending = [])
      (hr : (generate spec env prompt cfg callback w).1 ≠ .error .blocked) :
      OverlapRun spec env (generate spec env prompt cfg callback w).2
        (generate spec env.serial prompt cfg callback v).2
  | reset {w v : World τ ρ I} (h : OverlapRun spec env w v) (hidle : w.pending = []) :
      OverlapRun spec env ((resetKVCache spec w).log (.cleared w.pending.length))
        ((resetKVCache spec v).log (.cleared v.pending.length))
  | load {w v u : World τ ρ I} {env' : Env τ ρ I} (h : OverlapRun spec env w v)
      (hidle : w.pending = []) (hu : Reachable spec env' u) :
      OverlapRun spec env (loaded spec u w) (loaded spec u v)
  | install {w v : World τ ρ I} (providers : ρ) (h : OverlapRun spec env w v) :
      OverlapRun spec env { w with providers := providers } { v with providers := providers }
  | idle {w v : World τ ρ I} (done : KVJob → Bool) (h : OverlapRun spec env w v) :
      OverlapRun spec env (settle spec done w) v

theorem OverlapRun.reachable (hn : 0 < env.nWorkers) {w v : World τ ρ I}
    (h : OverlapRun spec env w v) : Reachable spec env w := by
  induction h with
  | init providers kv outs hiddenIn => exact .init env _ _ _ _
  | generate prompt cfg callback _ _ hr ih => exact .generate prompt cfg callback ih rfl hr
  | reset _ _ ih => exact ih.reset
  | load _ _ hu ih => exact ih.load hu
  | install providers _ ih => exact ih.install providers
  | idle done _ ih => exact ih.idle done hn

theorem OverlapRun.overlaps (hn : 0 < env.nWorkers) {w v : World τ ρ I}
    (h : OverlapRun spec env w v) : Overlaps spec w v := by
  induction h with
  | init providers kv outs hiddenIn =>
    exact ⟨spec.numCl_pos, List.Pairwise.nil, ⟨_, _, _, _, rfl⟩, rfl, rfl, rfl⟩
  | generate prompt cfg callback _ hidle _ ih =>
    exact ((overlaps_call hn).generate (Or.inr fun _ _ h => h.logits _) cfg callback).snd
      (fun _ _ _ h => h.toOverlaps) (fun _ _ _ h => h) ⟨ih, hidle⟩
  | @reset w v _ hidle ih =>
    have hrests : Rests spec w v := ⟨ih, hidle⟩
    have hpending : v.pending = w.pending := by rw [ih.serial, hidle]
    rw [hpending]
    have hset := Rests.carried.setSampler (Rests.carried.setHistory
      (hrests.move (initKVBuffers spec) spec.numCl_pos) 0 []) none none
    exact (Rests.carried.log hset (.cleared w.pending.length)).toOverlaps
  | @load w v u _ _ hidle hu ih =>
    have hrests : Rests spec w v := ⟨ih, hidle⟩
    have hpending : v.pending = w.pending := by rw [ih.serial, hidle]
    rw [loaded_eq hu.counted, loaded_eq hu.counted, hpending]
    obtain ⟨kv, jobs, clock, trace, rfl⟩ := ih.same
    obtain rfl : kv = w.kv := hrests.same_kv
    refine ⟨hu.counted.active, ih.jobs, ⟨_, _, _, _, rfl⟩, hidle, ?_, ?_⟩
    · unfold completed
      dsimp only
      rw [hidle]
      rfl
    · show execs (u.trace ++ trace) = execs (u.trace ++ w.trace)
      rw [execs_append, execs_append, ← ih.execs]
  | install providers _ ih =>
    obtain ⟨kv, jobs, clock, trace, rfl⟩ := ih.same
    exact ih.plain rfl rfl rfl (fun _ _ => rfl) ⟨_, _, _, _, rfl⟩ rfl rfl ih.execs
  | idle done _ ih => exact ih.settle done

/-! ## What is complete when -/

/-- What a decode step, or the end of the loop, does next. -/
inductive Moment (τ : Type)
  | makeRoom (tok : τ)
  | promote (tok : τ)
  | execute (tok : τ) (shard : ℕ)
  | restride

/-- The states in which a call that starts in `w₀` does it. -/
inductive Reaches (spec : LLMSpec) (env : Env τ ρ I) (prompt : List τ) (cfg : GenerationConfig)
    (callback : List Int32 → CallbackAnswer) (w₀ : World τ ρ I) : Moment τ → World τ ρ I → Prop
  | makeRoom {n : ℕ} {tok : τ} {out : List τ} {w w₁ : World τ ρ I}
      (h : DecodeHead spec env prompt cfg callback w₀ (n + 1) tok out w)
      (heos : isEos spec tok = false)
      (hanswer : callback ((out ++ [tok]).map Token.id) = .continue)
      (hwait : waitPool spec env (w.log (.emitted tok)) = (.ok (), w₁)) :
      Reaches spec env prompt cfg callback w₀ (.makeRoom tok) w₁
  | promote {tok : τ} {w w₁ : World τ ρ I}
      (h : Reaches spec env prompt cfg callback w₀ (.makeRoom tok) w)
      (hroom : ensureRoom spec env cfg 1 true (generationExceedsMsg spec) w = (.ok (), w₁)) :
      Reaches spec env prompt cfg callback w₀ (.promote tok) w₁
  | execute {tok : τ} {shard : ℕ} {w w₁ w₂ : World τ ρ I}
      (h : Reaches spec env prompt cfg callback w₀ (.promote tok) w)
      (hpromote : w₁ = promoteCL spec (w.nPast + 1) spec.seqLenDecode spec.seqLenDecode
        (w.log (.step .decode w.nPast 1)))
      (hshards : Prog.forRange shard (decodeShard spec env w₁.activeClIdx
        ⟨[tok], w.nPast, 1, .decode⟩) w₁ = (.ok (), w₂)) :
      Reaches spec env prompt cfg callback w₀ (.execute tok shard) w₂
  | restride {out : List τ} {w : World τ ρ I}
      (hbody : generateBody spec env prompt cfg callback w₀ = (.ok out, w)) :
      Reaches spec env prompt cfg callback w₀ .restride w

/-- The write-backs that have to be complete are. -/
def Moment.Ready (w : World τ ρ I) : Moment τ → Prop
  | .execute _ shard => ∀ j ∈ w.pending, j.shard < shard
  | _ => w.pending = []

omit [Token τ] in
theorem Rests.refl {w : World τ ρ I} (ha : w.activeClIdx < spec.numCl) (hidle : w.pending = []) :
    Rests spec w w := by
  refine ⟨⟨ha, ?_, ⟨_, _, _, _, rfl⟩, hidle, ?_, rfl⟩, hidle⟩
  · rw [hidle]
    exact List.Pairwise.nil
  · unfold completed
    rw [hidle]
    rfl

variable {prompt : List τ} {cfg : GenerationConfig} {callback : List Int32 → CallbackAnswer}

/-- A write-back is complete before its shard is executed again, the rows are restrided or promoted,
or an eviction starts. -/
theorem Reaches.ready (hn : 0 < env.nWorkers) {w₀ w : World τ ρ I} {m : Moment τ}
    (hc : Counted spec w₀) (hidle₀ : w₀.pending = [])
    (h : Reaches spec env prompt cfg callback w₀ m w) :
    w.activeClIdx < spec.numCl ∧ m.Ready w := by
  have hcall : CallRelation spec env env.serial (fun _ => Rests spec) (Overlaps spec : World τ ρ I →
      World τ ρ I → Prop) (Overlaps spec) := overlaps_call hn
  induction h with
  | @makeRoom n tok out w w₁ hhead heos hanswer hwait =>
    have hlog : Quietly spec w (w.log (.emitted tok)) := log_quietly (by trivial) w
    have hq : Quietly spec w w₁ := (waitPool_quietly w).ok hlog hwait
    have hpooled : Pooled env w := hhead.keeps Pooled.call fun hne => absurd hidle₀ hne
    exact ⟨(hq.counted (hhead.counted hc)).active,
      waitPool_idle (w := w.log (.emitted tok)) hpooled hwait⟩
  | @promote tok w w₁ _ hroom ih =>
    obtain ⟨ha, hidle⟩ := ih
    obtain ⟨-, hends⟩ := hcall.ensureRoom cfg 1 (p := .decode) (b := true) (by simp) _ w w
      (Rests.refl ha hidle)
    rw [hroom] at hends
    exact ⟨hends.active, hends.idle⟩
  | @execute tok shard w w₁ w₂ _ hpromote hshards ih =>
    obtain ⟨ha, hidle⟩ := ih
    have hstart : Rests spec w₁ w₁ := by
      rw [hpromote]
      exact (Rests.carried.log (Rests.refl ha hidle) _).promote _ _ _
    have hloop : InStep (RunsShard spec .decode w₁.activeClIdx 0)
        (Prog.forRange shard (decodeShard spec env w₁.activeClIdx ⟨[tok], w.nPast, 1, .decode⟩))
        (Prog.forRange shard (decodeShard spec env.serial w₁.activeClIdx
          ⟨[tok], w.nPast, 1, .decode⟩))
        (fun _ => RunsShard spec .decode w₁.activeClIdx shard) fun _ => Overlaps spec :=
      InStep.forRange (R := RunsShard spec .decode w₁.activeClIdx) fun s _ =>
        RunsShard.decodeShard hn _ s
    obtain ⟨-, hends⟩ := hloop w₁ w₁ ⟨hstart.toOverlaps, rfl, fun j hj => by
      rw [hstart.idle] at hj
      cases hj⟩
    rw [hshards] at hends
    exact ⟨hends.overlaps.active, fun j hj => (hends.before j hj).2⟩
  | @restride out w hbody =>
    obtain ⟨-, hends⟩ := hcall.generateBody (Or.inr fun _ _ h => h.logits _) cfg callback w₀ w₀
      (Rests.refl hc.active hidle₀)
    rw [hbody] at hends
    exact ⟨hends.active, hends.idle⟩

omit [Token τ] in
/-- A write-back writes the KV inputs of its own shard, and reads the KV outputs of its own. -/
theorem runJob_own (j : KVJob) (x : World τ ρ I) :
    (∀ t : KVTensor, t.shard ≠ j.shard → (runJobs spec [j] x).kv t = x.kv t) ∧
      ∀ y : World τ ρ I, y.activeClIdx = x.activeClIdx → y.kv = x.kv →
        y.outs (spec.graphIndex .decode j.shard x.activeClIdx) =
          x.outs (spec.graphIndex .decode j.shard x.activeClIdx) →
        (runJobs spec [j] y).kv = (runJobs spec [j] x).kv := by
  refine ⟨fun t ht => runJobs_other (fun j' hj' => ?_) x, fun y ha hkv houts => ?_⟩
  · rw [List.mem_singleton.mp hj']
    exact ht.symm
  · funext t
    rw [runJobs_tensor, runJobs_tensor, hkv]
    split_ifs
    · refine List.foldl_ext _ _ _ fun m j' hj' => ?_
      rw [List.mem_singleton.mp (List.mem_filter.mp hj').1]
      unfold jobWrite
      rw [ha, houts]
    · rfl

/-- The ends of a call with overlap and of the call without. What is still queued after an exception
is left out of the comparison of the KV bytes. -/
structure SameEnd (spec : LLMSpec) (o u : Except Err (List τ) × World τ ρ I) : Prop where
  result : o.1 = u.1
  execs : execs o.2.trace = execs u.2.trace
  nPast : o.2.nPast = u.2.nPast
  history : o.2.tokenHistory = u.2.tokenHistory
  kv : (settle spec (fun _ => true) o.2).kv = u.2.kv
  returned : ∀ out, o.1 = .ok out → o.2.kv = u.2.kv

/-- **Overlapped decoding equals serial decoding**, for any number of workers and whichever queued
write-backs they complete when, in every run in which no operation starts with a write-back queued.
Every execution of the run reads the same; a call returns or throws the same, with the same history
and, once what is queued is done, the same KV bytes; a call that returns leaves nothing queued. A
write-back touches its own shard only, and is complete when it has to be. -/
theorem overlapped_serial (hn : 0 < env.nWorkers) {w v : World τ ρ I}
    (h : OverlapRun spec env w v) (hidle : w.pending = []) (prompt : List τ)
    (cfg : GenerationConfig) (callback : List Int32 → CallbackAnswer) :
    SameEnd spec (generate spec env prompt cfg callback w)
        (generate spec env.serial prompt cfg callback v) ∧
      (∀ m w', Reaches spec env prompt cfg callback w m w' → m.Ready w') ∧
      ∀ (j : KVJob) (x : World τ ρ I),
        (∀ t : KVTensor, t.shard ≠ j.shard → (runJobs spec [j] x).kv t = x.kv t) ∧
        ∀ y : World τ ρ I, y.activeClIdx = x.activeClIdx → y.kv = x.kv →
          y.outs (spec.graphIndex .decode j.shard x.activeClIdx) =
            x.outs (spec.graphIndex .decode j.shard x.activeClIdx) →
          (runJobs spec [j] y).kv = (runJobs spec [j] x).kv := by
  have hc := (h.reachable hn).counted
  have hcall : InStep (Rests spec) (generate spec env prompt cfg callback)
      (generate spec env.serial prompt cfg callback) (fun _ => Rests spec) fun _ => Overlaps spec :=
    (overlaps_call hn).generate (Or.inr fun _ _ h => h.logits _) cfg callback
  have hstart : Rests spec w v := ⟨h.overlaps hn, hidle⟩
  refine ⟨?_, fun m w' hm => (hm.ready hn hc hidle).2, runJob_own⟩
  have hends := (hcall w v hstart).2
  have hresult := hcall.result hstart
  have hend := hcall.snd (fun _ _ _ h => h.toOverlaps) (fun _ _ _ h => h) hstart
  generalize generate spec env prompt cfg callback w = o at hends hresult hend ⊢
  generalize generate spec env.serial prompt cfg callback v = u at hends hresult hend ⊢
  have hbooks := Overlaps.carried.books hend
  refine ⟨hresult, hend.execs.symm, hbooks.nPast, hbooks.history, ?_, fun out hout => ?_⟩
  · rw [hend.kv]
    unfold completed
    show (runJobs spec (o.2.pending.filter fun _ => true) o.2).kv = _
    rw [List.filter_true]
  · rw [hout] at hends
    exact hends.same_kv.symm

/-! ## An abandoned write-back -/

omit [Token τ]

/-- A pool of one worker that completes nothing before it has to. -/
def tinyLazy : Env Int32 Unit Unit := { tinyEnv 1 0 with finishes := fun _ _ => false }

/-- A callback that throws at the second token. -/
def throwSecond (tokens : List Int32) : CallbackAnswer :=
  if tokens.length = 1 then .continue else .throw

/-- A call whose callback throws at the second token. -/
def tinyAborted (env : Env Int32 Unit Unit) : Except Err (List Int32) × World Int32 Unit Unit :=
  generate singleSteps env [0] (tinyCfg 2) throwSecond (tinyWorld singleSteps)

/-- A call after it, without decoding. -/
def tinyAfter (env : Env Int32 Unit Unit) : Except Err (List Int32) × World Int32 Unit Unit :=
  generate singleSteps env [0] (tinyCfg 0) (fun _ => .continue) (tinyAborted env).2

/-- What the newest execution of a log reads in column 1 of a key tensor. -/
def readsColumn (es : List (Event Int32 Unit)) : Option UInt8 :=
  (execs es).head?.map fun x => x.input.kv ⟨0, 0, true⟩ (cell 3 1 0 1 0)

/-- The first call alone. -/
theorem overlapped_serial_tiny :
    SameEnd (tinySpec [4] 1 1) (tinyAborted tinyLazy) (tinyAborted tinyLazy.serial) :=
  have hrun : OverlapRun (tinySpec [4] 1 1) tinyLazy (tinyWorld (tinySpec [4] 1 1))
      (tinyWorld (tinySpec [4] 1 1)) := OverlapRun.init _ _ _ _
  have hn : 0 < tinyLazy.nWorkers := by decide
  (overlapped_serial hn hrun rfl [0] (tinyCfg 2) throwSecond).1

/-- It leaves a write-back queued, and the call after it executes the shard before that is done: it
reads other bytes than without overlap. -/
theorem abandoned_writeBack :
    Reachable (tinySpec [4] 1 1) tinyLazy (tinyAborted tinyLazy).2 ∧
      (tinyAborted tinyLazy).2.pending = [⟨0, 1⟩] ∧
      (tinyAborted tinyLazy.serial).2.pending = [] ∧
      (tinyAfter tinyLazy).1 = .ok [] ∧ (tinyAfter tinyLazy.serial).1 = .ok [] ∧
      readsColumn (tinyAfter tinyLazy).2.trace = some 0x80 ∧
      readsColumn (tinyAfter tinyLazy.serial).2.trace = some 2 := by
  have hthrow : (tinyAborted tinyLazy).1 = .error .callbackThrew := by decide +kernel
  have hrun : generate (tinySpec [4] 1 1) tinyLazy [0] (tinyCfg 2) throwSecond
      (tinyWorld (tinySpec [4] 1 1)) = (.error .callbackThrew, (tinyAborted tinyLazy).2) := by
    rw [← hthrow]
    unfold tinyAborted
    exact eq_of_result rfl
  refine ⟨?_, by decide +kernel, by decide +kernel, by decide +kernel, by decide +kernel,
    by decide +kernel, by decide +kernel⟩
  exact Reachable.generate [0] (tinyCfg 2) throwSecond (tinyWorld_reachable _ _) hrun (by simp)

end Runs

end Geniex
