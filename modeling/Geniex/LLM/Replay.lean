import Geniex.LLM.Rejection

/-!
# Two instances that go on alike

* `Alike`: two instances with the same bookkeeping and the same bytes in what their graphs read. What
  they did before `w₀` and `v₀` may differ, and so may the rest of their buffers.
* `PassingAlike`: the same in the middle of a forward pass.
* `alike_call`: a call of `generate` keeps such instances alike, and logs the same on both.
* `Later`, `SameFrom`: all later calls.
-/

namespace Geniex

open Prog

variable {τ ρ I : Type} {spec : LLMSpec} {env env' : Env τ ρ I}

/-! ## What is the same -/

/-- An event, without what no code reads. -/
def Event.blind : Event τ I → Event τ I
  | .exec x => .exec { x with produced := fun _ _ _ _ => 0 }
  | .abort _ => .abort true
  | e => e

/-- The logs say the same since `w₀` and `v₀`. -/
def SameLog (w₀ v₀ w v : World τ ρ I) : Prop :=
  ∃ es es', w.trace = es ++ w₀.trace ∧ v.trace = es' ++ v₀.trace ∧
    es'.map Event.blind = es.map Event.blind

/-- Every KV tensor has a type with an encoded zero. -/
def Padded (spec : LLMSpec) : Prop :=
  ∀ t, spec.hasTensor t = true → (encodedZeroForDtype (spec.dtype t)).isSome

/-- The shards that are only an LM head are the last ones. -/
def HeadLast (spec : LLMSpec) : Prop :=
  ∀ s, s + 1 < spec.shardCount → spec.lmHeadOnly s = true → spec.lmHeadOnly (s + 1) = true

/-- Two environments that go on alike from the states `w₀` and `v₀`. -/
structure Aligned (env env' : Env τ ρ I) (w₀ v₀ : World τ ρ I) : Prop where
  exec : ∀ n gi x, env'.exec (v₀.tick + n) gi x = env.exec (w₀.tick + n) gi x
  finishes : ∀ n j, env'.finishes (v₀.tick + n) j = env.finishes (w₀.tick + n) j
  sample : env'.sample = env.sample
  write : env'.write = env.write
  nWorkers : env'.nWorkers = env.nWorkers
  clockKeeperThreads : env'.clockKeeperThreads = env.clockKeeperThreads

/-- `v` is `w` in all that a call reads, at the stride of `p`. -/
structure Alike (spec : LLMSpec) (w₀ v₀ : World τ ρ I) (p : Phase) (w v : World τ ρ I) : Prop where
  active : v.activeClIdx = w.activeClIdx
  activeLt : w.activeClIdx < spec.numCl
  nPast : v.nPast = w.nPast
  tokenHistory : v.tokenHistory = w.tokenHistory
  sampler : v.sampler = w.sampler
  samplerCfg : w.sampler ≠ none → v.samplerCfg = w.samplerCfg
  providers : v.providers = w.providers
  pending : v.pending = w.pending
  tick : ∃ n, w.tick = w₀.tick + n ∧ v.tick = v₀.tick + n
  kv : ∀ t, spec.hasTensor t = true → ∀ i < spec.byteCount t (spec.kvLen p w.activeClIdx),
    v.kv t i = w.kv t i
  sameLog : SameLog w₀ v₀ w v

theorem Env.decodePool_congr (hn : env'.nWorkers = env.nWorkers)
    (hc : env'.clockKeeperThreads = env.clockKeeperThreads) : env'.decodePool = env.decodePool := by
  unfold Env.decodePool
  rw [hn, hc]

/-- A copy of columns depends on what it overwrites byte by byte. -/
theorem copyKV_agree {t : KVTensor} {d d' src : ℕ → UInt8} {srcLen srcOff dstLen dstOff n i : ℕ}
    (h : d' i = d i) : copyKV spec t d' src srcLen srcOff dstLen dstOff n i =
      copyKV spec t d src srcLen srcOff dstLen dstOff n i := by
  unfold copyKV FlatMem.copyRows
  induction spec.rows t with
  | zero => exact h
  | succ k ih =>
    show FlatMem.memcpy _ _ _ _ _ i = FlatMem.memcpy _ _ _ _ _ i
    unfold FlatMem.memcpy
    split_ifs
    · rfl
    · exact ih

namespace SameLog

variable {w₀ v₀ w v : World τ ρ I}

theorem append (h : SameLog w₀ v₀ w v) (es es' : List (Event τ I))
    (heq : es'.map Event.blind = es.map Event.blind) {w' v' : World τ ρ I}
    (hw : w'.trace = es ++ w.trace) (hv : v'.trace = es' ++ v.trace) : SameLog w₀ v₀ w' v' := by
  obtain ⟨fs, fs', hfs, hfs', hsame⟩ := h
  refine ⟨es ++ fs, es' ++ fs', by rw [hw, hfs, List.append_assoc],
    by rw [hv, hfs', List.append_assoc], ?_⟩
  rw [List.map_append, List.map_append, heq, hsame]

/-- What a log shows of what is compared. -/
theorem filterMap {β : Type} (h : SameLog w₀ v₀ w v) (f : Event τ I → Option β)
    (hf : ∀ e, f e.blind = f e) :
    (v.trace.take (v.trace.length - v₀.trace.length)).filterMap f =
      (w.trace.take (w.trace.length - w₀.trace.length)).filterMap f := by
  obtain ⟨es, es', hw, hv, hsame⟩ := h
  have hblind : ∀ l : List (Event τ I), (l.map Event.blind).filterMap f = l.filterMap f := by
    intro l
    rw [List.filterMap_map]
    congr 1
    ext e
    rw [Function.comp_apply, hf]
  rw [hw, hv, List.length_append, List.length_append, Nat.add_sub_cancel, Nat.add_sub_cancel,
    List.take_left, List.take_left, ← hblind es', hsame, hblind]

end SameLog

namespace Alike

variable {w₀ v₀ w v : World τ ρ I} {p q : Phase}

/-- Two equal updates of what is not compared. -/
theorem plain {w' v' : World τ ρ I} (h : Alike spec w₀ v₀ p w v)
    (hw : ∃ outs hidden clock produced, w' = { w with
      outs := outs, hiddenIn := hidden, clockKeeper := clock, produced := produced })
    (hv : ∃ outs hidden clock produced, v' = { v with
      outs := outs, hiddenIn := hidden, clockKeeper := clock, produced := produced }) :
    Alike spec w₀ v₀ p w' v' := by
  obtain ⟨_, _, _, _, rfl⟩ := hw
  obtain ⟨_, _, _, _, rfl⟩ := hv
  exact { h with }

theorem log (h : Alike spec w₀ v₀ p w v) (e : Event τ I) :
    Alike spec w₀ v₀ p (w.log e) (v.log e) :=
  { h with sameLog := h.sameLog.append [e] [e] rfl rfl rfl }

theorem carried : Carried (Alike spec w₀ v₀ p) where
  books h := ⟨h.nPast.symm, h.tokenHistory.symm, h.sampler.symm, fun hs => (h.samplerCfg hs).symm⟩
  log h e := h.log e
  setHistory h _ _ := { h with nPast := rfl, tokenHistory := rfl }
  setSampler h _ _ := { h with sampler := rfl, samplerCfg := fun _ => rfl }
  mapSampler h f := { h with
    sampler := congrArg (Option.map f) h.sampler
    samplerCfg := fun hs => h.samplerCfg fun hnone => hs (Option.map_eq_none_iff.mpr hnone) }
  setClock h _ _ := h.plain ⟨_, _, _, _, rfl⟩ ⟨_, _, _, _, rfl⟩

/-- At the prefill stride a tensor has fewer bytes. -/
theorem prefill (h : Alike spec w₀ v₀ p w v) : Alike spec w₀ v₀ .prefill w v := by
  refine { h with kv := fun t ht i hi => h.kv t ht i (hi.trans_le (byteCount_le ?_)) }
  cases p with
  | prefill => exact le_rfl
  | decode => exact spec.kvLen_prefill_le _

/-- A layout switch of tensors whose padding is written. -/
theorem restride (h : Alike spec w₀ v₀ p w v) (hpad : Padded spec) (q : Phase) (n : ℕ) :
    Alike spec w₀ v₀ q (restrideActive spec p q n w) (restrideActive spec p q n v) := by
  refine { h with kv := fun t ht => ?_ }
  show ∀ i < _, reshapeAll spec (spec.kvLen p v.activeClIdx) (spec.kvLen q v.activeClIdx) n v.kv t i =
    reshapeAll spec (spec.kvLen p w.activeClIdx) (spec.kvLen q w.activeClIdx) n w.kv t i
  rw [h.active]
  exact reshapeAll_agree ht (hpad t ht) (h.kv t ht)

theorem promote (h : Alike spec w₀ v₀ p w v) (hpad : Padded spec) (required reserved : ℕ) :
    Alike spec w₀ v₀ p (promoteCL spec required reserved (spec.seqLen p) w)
      (promoteCL spec required reserved (spec.seqLen p) v) := by
  have hlt : v.activeClIdx < spec.numCl := by
    rw [h.active]
    exact h.activeLt
  have hspec := promoteTarget_spec required reserved h.activeLt
  rw [promoteCL_eq h.activeLt, promoteCL_eq hlt, h.active, h.nPast]
  refine { h with active := rfl, activeLt := hspec.2.1, nPast := rfl, kv := fun t ht => ?_ }
  exact reshapeAll_agree ht (hpad t ht) (h.kv t ht)

/-- A write-back of equal outputs. -/
theorem updateKV (h : Alike spec w₀ v₀ p w v) {s : ℕ} {phase : Phase}
    (hout : v.outs (spec.graphIndex phase s w.activeClIdx) =
      w.outs (spec.graphIndex phase s w.activeClIdx)) (off n : ℕ) :
    Alike spec w₀ v₀ p (updateKV spec s phase off n w) (updateKV spec s phase off n v) := by
  have hkv : ∀ t, spec.hasTensor t = true →
      ∀ i < spec.byteCount t (spec.kvLen p w.activeClIdx),
        (Geniex.updateKV spec s phase off n v).kv t i =
          (Geniex.updateKV spec s phase off n w).kv t i := by
    intro t ht i hi
    rw [updateKV_kv, updateKV_kv, h.active, hout]
    split_ifs
    · exact copyKV_agree (h.kv t ht i hi)
    · exact h.kv t ht i hi
  unfold Geniex.updateKV at hkv ⊢
  split_ifs at hkv ⊢
  · exact h
  · rw [h.active] at hkv ⊢
    exact { h with
      active := rfl
      kv := hkv
      sameLog := h.sameLog.append [_] [_] rfl rfl rfl }

end Alike

/-! ## The queued write-backs -/

/-- The queued write-backs read the same outputs; without a pool none is queued. -/
structure JobsAlike (spec : LLMSpec) (env : Env τ ρ I) (w v : World τ ρ I) : Prop where
  outs : ∀ j ∈ w.pending, v.outs (spec.graphIndex .decode j.shard w.activeClIdx) =
    w.outs (spec.graphIndex .decode j.shard w.activeClIdx)
  pooled : w.pending ≠ [] → env.decodePool = true

/-- What an exception leaves. -/
structure LeftAlike (spec : LLMSpec) (env : Env τ ρ I) (w₀ v₀ w v : World τ ρ I) : Prop
    extends Alike spec w₀ v₀ .prefill w v where
  jobs : JobsAlike spec env w v

section Jobs

variable {w₀ v₀ w v : World τ ρ I} {p : Phase}

theorem JobsAlike.of_nil (h : w.pending = []) : JobsAlike spec env w v where
  outs j hj := by
    rw [h] at hj
    cases hj
  pooled hne := absurd h hne

theorem Alike.runJobs (jobs : List KVJob) : ∀ {w v : World τ ρ I}, Alike spec w₀ v₀ p w v →
    (∀ j ∈ jobs, v.outs (spec.graphIndex .decode j.shard w.activeClIdx) =
      w.outs (spec.graphIndex .decode j.shard w.activeClIdx)) →
    Alike spec w₀ v₀ p (runJobs spec jobs w) (runJobs spec jobs v) := by
  induction jobs with
  | nil => exact fun h _ => h
  | cons j jobs ih =>
    intro w v h houts
    refine ih (h.updateKV (houts j List.mem_cons_self) _ _) fun j' hj' => ?_
    rw [updateKV_activeClIdx, updateKV_outs, updateKV_outs]
    exact houts j' (List.mem_cons_of_mem _ hj')

theorem JobsAlike.settle (h : JobsAlike spec env w v) (done : KVJob → Bool) :
    JobsAlike spec env (settle spec done w) (settle spec done v) := by
  obtain ⟨ha, -, houts, -⟩ := runJobs_frame spec (w.pending.filter done) w
  obtain ⟨-, -, houts', -⟩ := runJobs_frame spec (v.pending.filter done) v
  constructor
  · intro j hj
    show (Geniex.runJobs spec (v.pending.filter done) v).outs _ =
      (Geniex.runJobs spec (w.pending.filter done) w).outs _
    rw [houts, houts']
    show v.outs (spec.graphIndex .decode j.shard
      (Geniex.runJobs spec (w.pending.filter done) w).activeClIdx) = w.outs (spec.graphIndex .decode
        j.shard (Geniex.runJobs spec (w.pending.filter done) w).activeClIdx)
    rw [ha]
    exact h.outs j (List.mem_filter.mp hj).1
  · intro hne
    refine h.pooled fun hnil => hne ?_
    show w.pending.filter _ = []
    rw [hnil, List.filter_nil]

/-- The workers of both complete the same queued jobs. -/
theorem Alike.settle (h : Alike spec w₀ v₀ p w v) (hjobs : JobsAlike spec env w v)
    (done : KVJob → Bool) : Alike spec w₀ v₀ p (settle spec done w) (settle spec done v) := by
  have hrun := h.runJobs (w.pending.filter done) fun j hj => hjobs.outs j (List.mem_filter.mp hj).1
  unfold Geniex.settle
  rw [h.pending]
  exact { hrun with pending := rfl }

theorem Alike.background (h : Alike spec w₀ v₀ p w v) (hjobs : JobsAlike spec env w v)
    (hal : Aligned env env' w₀ v₀) : Alike spec w₀ v₀ p (background spec env w)
      (background spec env' v) ∧
      JobsAlike spec env (background spec env w) (background spec env' v) := by
  obtain ⟨n, hw, hv⟩ := h.tick
  have hdone : env'.finishes v.tick = env.finishes w.tick := by
    funext j
    rw [hv, hw]
    exact hal.finishes n j
  unfold Geniex.background
  rw [hal.nWorkers, hdone]
  split_ifs
  · exact ⟨h, hjobs⟩
  · exact ⟨h.settle hjobs _, hjobs.settle _⟩

end Jobs

/-! ## One shard -/

/-- Within a chunk or step at context length `a`, when the shards below `s` have run, or have been
left out. -/
structure PassedAlike (spec : LLMSpec) (env : Env τ ρ I) (w₀ v₀ : World τ ρ I) (p : Phase) (a : ℕ)
    (skip : ℕ → Prop) (s : ℕ) (w v : World τ ρ I) : Prop where
  alike : Alike spec w₀ v₀ p w v
  active : w.activeClIdx = a
  outs : ∀ s' < s, ¬skip s' →
    v.outs (spec.graphIndex p s' a) = w.outs (spec.graphIndex p s' a)
  jobs : JobsAlike spec env w v
  idle : p = .prefill → w.pending = []

/-- The same, with the input of shard `s` in place. -/
structure PassingAlike (spec : LLMSpec) (env : Env τ ρ I) (w₀ v₀ : World τ ρ I) (p : Phase) (a : ℕ)
    (skip : ℕ → Prop) (s : ℕ) (w v : World τ ρ I) : Prop
    extends PassedAlike spec env w₀ v₀ p a skip s w v where
  hidden : 0 < s → s < spec.shardCount → ¬skip s →
    v.hiddenIn (spec.graphIndex p s a) = w.hiddenIn (spec.graphIndex p s a)

section Shard

variable {w₀ v₀ w v : World τ ρ I} {p : Phase} {a s : ℕ} {skip : ℕ → Prop}

theorem PassedAlike.left (h : PassedAlike spec env w₀ v₀ p a skip s w v) : LeftAlike spec env w₀ v₀ w v :=
  ⟨h.alike.prefill, h.jobs⟩

theorem PassedAlike.log (h : PassedAlike spec env w₀ v₀ p a skip s w v) (e : Event τ I) :
    PassedAlike spec env w₀ v₀ p a skip s (w.log e) (v.log e) :=
  ⟨h.alike.log e, h.active, h.outs, ⟨h.jobs.outs, h.jobs.pooled⟩, h.idle⟩

theorem PassedAlike.setHistory (h : PassedAlike spec env w₀ v₀ p a skip s w v) (n : ℕ) (l : List τ) :
    PassedAlike spec env w₀ v₀ p a skip s { w with nPast := n, tokenHistory := l }
      { v with nPast := n, tokenHistory := l } :=
  ⟨Alike.carried.setHistory h.alike n l, h.active, h.outs, ⟨h.jobs.outs, h.jobs.pooled⟩, h.idle⟩

/-- The logits of the last shard, where it has run. -/
theorem PassedAlike.logits (h : PassedAlike spec env w₀ v₀ p a skip spec.shardCount w v)
    (hlast : ¬skip (spec.shardCount - 1)) : SameLogits spec p w v := by
  intro off
  have hpos : 0 < spec.shardCount := List.length_pos_of_ne_nil spec.shards_ne
  have hout := h.outs (spec.shardCount - 1) (by omega) hlast
  unfold readLastLogits
  rw [h.alike.active, h.active, hout]

/-- A shard reads the same KV tensors. -/
theorem PassingAlike.kvView (h : PassingAlike spec env w₀ v₀ p a skip s w v) :
    kvView spec p s a v.kv = kvView spec p s a w.kv := by
  funext t i
  unfold Geniex.kvView
  by_cases hin : t.shard = s ∧ spec.hasTensor t ∧ i < spec.byteCount t (spec.kvLen p a)
  · obtain ⟨-, ht, hi⟩ := hin
    have hkv := h.alike.kv t ht i
    rw [h.active] at hkv
    rw [hkv hi]
  · rw [if_neg hin, if_neg hin]

theorem PassingAlike.execInput (h : PassingAlike spec env w₀ v₀ p a skip s w v)
    (hal : Aligned env env' w₀ v₀) (hs : s < spec.shardCount) (hrun : ¬skip s)
    (ctx : RunContext τ) : execInput spec env' s p a ctx v = execInput spec env s p a ctx w := by
  have hhidden : (if s = 0 then none else some (v.hiddenIn (spec.graphIndex p s a))) =
      if s = 0 then none else some (w.hiddenIn (spec.graphIndex p s a)) := by
    split_ifs with hzero
    · rfl
    · rw [h.hidden (Nat.pos_of_ne_zero hzero) hs hrun]
  unfold Geniex.execInput
  rw [h.kvView, h.alike.providers, hal.write, hhidden]

/-- An execution on the same inputs. -/
theorem PassedAlike.execGraph (hal : Aligned env env' w₀ v₀) (ctx : RunContext τ) (input : ExecIn I)
    (err : Err) :
    InStep (PassedAlike spec env w₀ v₀ p a skip s) (execGraph spec env s p a ctx input err)
      (execGraph spec env' s p a ctx input err) (fun _ => PassedAlike spec env w₀ v₀ p a skip (s + 1))
      fun _ => LeftAlike spec env w₀ v₀ := by
  intro w v h
  obtain ⟨n, hw, hv⟩ := h.alike.tick
  have hexec : env'.exec v.tick (spec.graphIndex p s a) input =
      env.exec w.tick (spec.graphIndex p s a) input := by
    rw [hv, hw]
    exact hal.exec n _ _
  have htick : ∃ n, w.tick + 1 = w₀.tick + n ∧ v.tick + 1 = v₀.tick + n :=
    ⟨n + 1, by omega, by omega⟩
  have hlog : SameLog w₀ v₀
      (w.log (.exec ⟨p, s, a, ctx, input, w.produced⟩))
      (v.log (.exec ⟨p, s, a, ctx, input, v.produced⟩)) :=
    h.alike.sameLog.append [.exec ⟨p, s, a, ctx, input, w.produced⟩]
      [.exec ⟨p, s, a, ctx, input, v.produced⟩] rfl rfl rfl
  -- the buffer of the graph gets the same outputs
  have hupdate : ∀ out gi, v.outs gi = w.outs gi →
      Function.update v.outs (spec.graphIndex p s a) out gi =
        Function.update w.outs (spec.graphIndex p s a) out gi := by
    intro out gi hgi
    by_cases heq : gi = spec.graphIndex p s a
    · rw [heq, Function.update_self, Function.update_self]
    · rw [Function.update_of_ne heq, Function.update_of_ne heq, hgi]
  unfold Geniex.execGraph
  dsimp only
  rw [hexec]
  cases env.exec w.tick (spec.graphIndex p s a) input with
  | none =>
    exact ⟨rfl, { h.alike.prefill with tick := htick, sameLog := hlog },
      ⟨h.jobs.outs, h.jobs.pooled⟩⟩
  | some out =>
    refine ⟨rfl, { h.alike with tick := htick, sameLog := hlog }, h.active, fun s' hs' hrun => ?_,
      ⟨fun j hj => hupdate out _ (h.jobs.outs j hj), h.jobs.pooled⟩, h.idle⟩
    rcases Nat.lt_succ_iff_lt_or_eq.mp hs' with hlt | rfl
    · exact hupdate out _ (h.outs s' hlt hrun)
    · show Function.update v.outs _ out _ = Function.update w.outs _ out _
      rw [Function.update_self, Function.update_self]

/-- The workers change the KV tensors and the log, and complete queued jobs. -/
theorem background_frame (env : Env τ ρ I) (w : World τ ρ I) : ∃ kv jobs trace,
    background spec env w = { w with kv := kv, pending := jobs, trace := trace } ∧
      ∀ j ∈ jobs, j ∈ w.pending := by
  unfold background
  split_ifs
  · exact ⟨_, _, _, rfl, fun _ hj => hj⟩
  · have hrun : runJobs spec (w.pending.filter (env.finishes w.tick)) w = { w with
        kv := (runJobs spec (w.pending.filter (env.finishes w.tick)) w).kv
        trace := (runJobs spec (w.pending.filter (env.finishes w.tick)) w).trace } :=
      runJobs_eq _ w
    refine ⟨(runJobs spec (w.pending.filter (env.finishes w.tick)) w).kv,
      w.pending.filter fun j => !env.finishes w.tick j,
      (runJobs spec (w.pending.filter (env.finishes w.tick)) w).trace, ?_,
      fun j hj => (List.mem_filter.mp hj).1⟩
    unfold settle
    rw [hrun]

theorem PassingAlike.background (h : PassingAlike spec env w₀ v₀ p a skip s w v)
    (hal : Aligned env env' w₀ v₀) :
    PassingAlike spec env w₀ v₀ p a skip s (background spec env w) (background spec env' v) := by
  obtain ⟨halike, hjobs⟩ := h.alike.background h.jobs hal
  obtain ⟨kv, jobs, trace, hw, hsub⟩ := background_frame env w
  obtain ⟨kv', jobs', trace', hv, -⟩ := background_frame env' v
  rw [hw, hv] at halike hjobs ⊢
  refine ⟨⟨halike, h.active, h.outs, hjobs, fun hp => ?_⟩, h.hidden⟩
  have hnil := h.idle hp
  refine List.eq_nil_iff_forall_not_mem.mpr fun j hj => ?_
  have hj' := hsub j hj
  rw [hnil] at hj'
  cases hj'

theorem PassingAlike.runShard (hal : Aligned env env' w₀ v₀) (hs : s < spec.shardCount)
    (hrun : ¬skip s) (ctx : RunContext τ) :
    InStep (PassingAlike spec env w₀ v₀ p a skip s) (runShard spec env s p a ctx : Run τ ρ I Unit)
      (runShard spec env' s p a ctx) (fun _ => PassedAlike spec env w₀ v₀ p a skip (s + 1))
      fun _ => LeftAlike spec env w₀ v₀ := by
  refine InStep.bind (R := fun _ => PassingAlike spec env w₀ v₀ p a skip s)
    (InStep.modify fun w v h => ?_) fun _ => InStep.get fun w₁ v₁ h₁ => ?_
  · exact h.background hal
  · rw [h₁.execInput hal hs hrun]
    refine (PassedAlike.execGraph hal ctx _ _).pre ?_
    rintro w v ⟨rfl, rfl⟩
    exact h₁.toPassedAlike

theorem PassedAlike.updateKV {k : ℕ} (h : PassedAlike spec env w₀ v₀ p a skip k w v) (hs : s < k)
    (hrun : ¬skip s) (off n : ℕ) :
    PassedAlike spec env w₀ v₀ p a skip k (updateKV spec s p off n w)
      (updateKV spec s p off n v) := by
  have hout : v.outs (spec.graphIndex p s w.activeClIdx) =
      w.outs (spec.graphIndex p s w.activeClIdx) := by
    rw [h.active]
    exact h.outs s hs hrun
  have halike := h.alike.updateKV hout off n
  rw [updateKV_frame, updateKV_frame s p off n v] at halike ⊢
  exact ⟨halike, h.active, h.outs, ⟨h.jobs.outs, h.jobs.pooled⟩, h.idle⟩

/-- A write-back that is queued on both sides, or done on both. -/
theorem PassedAlike.writeBack (h : PassedAlike spec env w₀ v₀ .decode a skip (s + 1) w v)
    (hal : Aligned env env' w₀ v₀) (hrun : ¬skip s) (off : ℕ) :
    PassedAlike spec env w₀ v₀ .decode a skip (s + 1) (writeBack spec env s off w)
      (writeBack spec env' s off v) := by
  unfold Geniex.writeBack
  rw [Env.decodePool_congr hal.nWorkers hal.clockKeeperThreads]
  split_ifs with hpool
  · refine ⟨{ h.alike with pending := congrArg (· ++ [⟨s, off⟩]) h.alike.pending }, h.active, h.outs,
      ⟨fun j hj => ?_, fun _ => hpool⟩, nofun⟩
    rcases List.mem_append.mp hj with hj | hj
    · exact h.jobs.outs j hj
    · rw [List.mem_singleton.mp hj]
      show v.outs (spec.graphIndex .decode s w.activeClIdx) =
        w.outs (spec.graphIndex .decode s w.activeClIdx)
      rw [h.active]
      exact h.outs s (Nat.lt_succ_self s) hrun
  · exact h.updateKV (Nat.lt_succ_self s) hrun off 1

/-- The hidden state of a shard that has run, to the next one. -/
theorem PassedAlike.connect (h : PassedAlike spec env w₀ v₀ p a skip (s + 1) w v) (hrun : ¬skip s) :
    PassingAlike spec env w₀ v₀ p a skip (s + 1) (applyConnection spec p s a w)
      (applyConnection spec p s a v) := by
  have halike : Alike spec w₀ v₀ p (applyConnection spec p s a w) (applyConnection spec p s a v) :=
    h.alike.plain ⟨_, _, _, _, rfl⟩ ⟨_, _, _, _, rfl⟩
  refine ⟨⟨halike, h.active, h.outs, ⟨h.jobs.outs, h.jobs.pooled⟩, h.idle⟩, fun _ _ _ => ?_⟩
  unfold applyConnection
  dsimp only
  rw [Function.update_self, Function.update_self, h.outs s (Nat.lt_succ_self s) hrun]

/-- The shards that a chunk leaves out. -/
def Skipped (spec : LLMSpec) (isFinal : Bool) (s : ℕ) : Prop :=
  isFinal = false ∧ spec.lmHeadOnly s = true

/-- A shard's part of a prefill chunk. -/
theorem PassingAlike.prefillShard (hal : Aligned env env' w₀ v₀) (hhead : HeadLast spec)
    (isFinal : Bool) (ctx : RunContext τ) (hs : s < spec.shardCount) :
    InStep (PassingAlike spec env w₀ v₀ .prefill a (Skipped spec isFinal) s)
      (prefillShard spec env isFinal a ctx s : Run τ ρ I Unit)
      (prefillShard spec env' isFinal a ctx s)
      (fun _ => PassingAlike spec env w₀ v₀ .prefill a (Skipped spec isFinal) (s + 1))
      fun _ => LeftAlike spec env w₀ v₀ := by
  refine InStep.when Iff.rfl (fun hrun => ?_) fun hskip w v h => ?_
  · refine InStep.bind (PassingAlike.runShard hal hs hrun ctx) fun _ => InStep.bind
      (R := fun _ => PassedAlike spec env w₀ v₀ .prefill a (Skipped spec isFinal) (s + 1))
      (InStep.modify fun w v h => h.updateKV (Nat.lt_succ_self s) hrun _ _) fun _ =>
        InStep.when Iff.rfl (fun _ => InStep.modify fun w v h => h.connect hrun)
          fun hlast w v h => ⟨h, fun _ hs' hrun' => absurd ⟨hs', hrun'⟩ hlast⟩
  · have hskip' : Skipped spec isFinal s := not_not.mp hskip
    refine ⟨⟨h.alike, h.active, fun s' hs' hrun' => ?_, h.jobs, h.idle⟩, fun _ hs' hrun' => ?_⟩
    · rcases Nat.lt_succ_iff_lt_or_eq.mp hs' with hlt | rfl
      · exact h.outs s' hlt hrun'
      · exact absurd hskip' hrun'
    · exact absurd ⟨hskip'.1, hhead s hs' hskip'.2⟩ hrun'

/-- A shard's part of a decode step. -/
theorem PassingAlike.decodeShard (hal : Aligned env env' w₀ v₀) (ctx : RunContext τ)
    (hs : s < spec.shardCount) :
    InStep (PassingAlike spec env w₀ v₀ .decode a (fun _ => False) s)
      (decodeShard spec env a ctx s : Run τ ρ I Unit) (decodeShard spec env' a ctx s)
      (fun _ => PassingAlike spec env w₀ v₀ .decode a (fun _ => False) (s + 1))
      fun _ => LeftAlike spec env w₀ v₀ := by
  refine InStep.bind (PassingAlike.runShard hal hs not_false ctx) fun _ => InStep.bind
    (R := fun _ => PassedAlike spec env w₀ v₀ .decode a (fun _ => False) (s + 1))
    (InStep.modify fun w v h => h.writeBack hal not_false _) fun _ =>
      InStep.when Iff.rfl (fun _ => InStep.modify fun w v h => h.connect not_false)
        fun hlast w v h => ⟨h, fun _ hs' _ => absurd hs' hlast⟩

end Shard

/-! ## A call -/

/-- Alike, with nothing queued. -/
structure RestsAlike (spec : LLMSpec) (w₀ v₀ : World τ ρ I) (p : Phase) (w v : World τ ρ I) : Prop
    extends Alike spec w₀ v₀ p w v where
  idle : w.pending = []

/-- The head of the decode loop. -/
structure HeadAlike (spec : LLMSpec) (env : Env τ ρ I) (w₀ v₀ w v : World τ ρ I) : Prop
    extends Alike spec w₀ v₀ .decode w v where
  jobs : JobsAlike spec env w v

section Call

variable {w₀ v₀ w v : World τ ρ I} {p : Phase}

theorem RestsAlike.carried : Carried (RestsAlike spec w₀ v₀ p) where
  books h := Alike.carried.books h.toAlike
  log h e := ⟨h.toAlike.log e, h.idle⟩
  setHistory h n l := ⟨Alike.carried.setHistory h.toAlike n l, h.idle⟩
  setSampler h s c := ⟨Alike.carried.setSampler h.toAlike s c, h.idle⟩
  mapSampler h f := ⟨Alike.carried.mapSampler h.toAlike f, h.idle⟩
  setClock h k k' := ⟨Alike.carried.setClock h.toAlike k k', h.idle⟩

theorem HeadAlike.carried : Carried (HeadAlike spec env w₀ v₀) where
  books h := Alike.carried.books h.toAlike
  log h e := ⟨h.toAlike.log e, h.jobs.outs, h.jobs.pooled⟩
  setHistory h n l := ⟨Alike.carried.setHistory h.toAlike n l, h.jobs.outs, h.jobs.pooled⟩
  setSampler h s c := ⟨Alike.carried.setSampler h.toAlike s c, h.jobs.outs, h.jobs.pooled⟩
  mapSampler h f := ⟨Alike.carried.mapSampler h.toAlike f, h.jobs.outs, h.jobs.pooled⟩
  setClock h k k' := ⟨Alike.carried.setClock h.toAlike k k', h.jobs.outs, h.jobs.pooled⟩

theorem RestsAlike.left (h : RestsAlike spec w₀ v₀ p w v) : LeftAlike spec env w₀ v₀ w v :=
  ⟨h.toAlike.prefill, JobsAlike.of_nil h.idle⟩

theorem RestsAlike.promote (h : RestsAlike spec w₀ v₀ p w v) (hpad : Padded spec)
    (required reserved : ℕ) :
    RestsAlike spec w₀ v₀ p (promoteCL spec required reserved (spec.seqLen p) w)
      (promoteCL spec required reserved (spec.seqLen p) v) := by
  refine ⟨h.toAlike.promote hpad required reserved, ?_⟩
  rw [promoteCL_eq h.activeLt]
  exact h.idle

/-- Waiting for the pool completes what is queued, on both sides. -/
theorem HeadAlike.wait (hal : Aligned env env' w₀ v₀) :
    InStep (HeadAlike spec env w₀ v₀) (waitPool spec env) (waitPool spec env')
      (fun _ => RestsAlike spec w₀ v₀ .decode) fun _ => LeftAlike spec env w₀ v₀ := by
  refine InStep.get fun w₀' v₀' h => ?_
  rw [h.pending, hal.nWorkers, Env.decodePool_congr hal.nWorkers hal.clockKeeperThreads]
  refine InStep.ite Iff.rfl (fun hidle => InStep.pure ?_) fun hbusy => InStep.ite Iff.rfl
    (fun _ => InStep.throw ?_) fun _ => InStep.modify ?_
  · rintro w v ⟨rfl, rfl⟩
    refine ⟨h.toAlike, ?_⟩
    by_contra hne
    rcases hidle with hnil | hpool
    · exact hne hnil
    · rw [h.jobs.pooled hne] at hpool
      cases hpool
  · rintro w v ⟨rfl, rfl⟩
    exact ⟨h.toAlike.prefill, h.jobs⟩
  · rintro w v ⟨rfl, rfl⟩
    exact ⟨h.toAlike.settle h.jobs _, List.filter_false _⟩

/-- A forward pass whose shards go on alike, up to its bookkeeping. -/
theorem RestsAlike.pass (hpad : Padded spec) (skip : ℕ → Prop) {k : ℕ}
    (body body' : ℕ → ℕ → ℕ → Run τ ρ I Unit) (done : World τ ρ I → World τ ρ I)
    (hbody : ∀ n a s, s < spec.shardCount →
      InStep (PassingAlike spec env w₀ v₀ p a skip s) (body n a s) (body' n a s)
        (fun _ => PassingAlike spec env w₀ v₀ p a skip (s + 1)) fun _ => LeftAlike spec env w₀ v₀)
    (hdone : ∀ {a w v}, PassedAlike spec env w₀ v₀ p a skip spec.shardCount w v →
      PassedAlike spec env w₀ v₀ p a skip spec.shardCount (done w) (done v)) :
    InStep (RestsAlike spec w₀ v₀ p) (forwardPass spec p k (spec.seqLen p) body done)
      (forwardPass spec p k (spec.seqLen p) body' done)
      (fun _ w v => ∃ a, PassedAlike spec env w₀ v₀ p a skip spec.shardCount w v)
      fun _ => LeftAlike spec env w₀ v₀ := by
  refine InStep.get fun w₁ v₁ h₁ => ?_
  rw [h₁.nPast]
  refine InStep.bind (R := fun _ => RestsAlike spec w₀ v₀ p) (InStep.modify ?_) fun _ =>
    InStep.bind (R := fun _ => RestsAlike spec w₀ v₀ p)
      (InStep.modify fun w v h => h.promote hpad _ _) fun _ => InStep.get fun w₂ v₂ h₂ => ?_
  · rintro w v ⟨rfl, rfl⟩
    exact RestsAlike.carried.log h₁ _
  have hshards : InStep (PassingAlike spec env w₀ v₀ p w₂.activeClIdx skip 0)
      (Prog.forRange spec.shardCount (body w₁.nPast w₂.activeClIdx))
      (Prog.forRange spec.shardCount (body' w₁.nPast w₂.activeClIdx))
      (fun _ => PassingAlike spec env w₀ v₀ p w₂.activeClIdx skip spec.shardCount)
      fun _ => LeftAlike spec env w₀ v₀ := InStep.forRange fun s hs => hbody _ _ s hs
  rw [h₂.active]
  refine InStep.bind (hshards.pre ?_) fun _ => InStep.modify fun w v h => ⟨_, hdone h.toPassedAlike⟩
  rintro w v ⟨rfl, rfl⟩
  exact ⟨⟨h₂.toAlike, rfl, nofun, JobsAlike.of_nil h₂.idle, fun _ => h₂.idle⟩, nofun⟩

/-- **Two instances that are alike stay alike in a call.** -/
theorem alike_call (hal : Aligned env env' w₀ v₀) (hpad : Padded spec) (hhead : HeadLast spec) :
    CallRelation spec env env' (RestsAlike spec w₀ v₀) (HeadAlike spec env w₀ v₀)
      (LeftAlike spec env w₀ v₀) where
  sample := hal.sample.symm
  stride _ := RestsAlike.carried
  head := HeadAlike.carried
  rest h := ⟨h.toAlike, JobsAlike.of_nil h.idle⟩
  left h := h.left
  leftHead h := ⟨h.toAlike.prefill, h.jobs⟩
  abort h b b' := ⟨{ h.toAlike with
    sameLog := h.sameLog.append [.abort b] [.abort b'] rfl rfl rfl }, h.jobs.outs, h.jobs.pooled⟩
  restride h q n := ⟨h.toAlike.restride hpad q n, h.idle⟩
  promote h required reserved := h.promote hpad required reserved
  wait := HeadAlike.wait hal
  chunk isFinal chunk := by
    refine (RestsAlike.pass hpad (Skipped spec isFinal)
      (fun n a => prefillShard spec env isFinal a ⟨chunk, n, chunk.length, .prefill⟩)
      (fun n a => prefillShard spec env' isFinal a ⟨chunk, n, chunk.length, .prefill⟩)
      (fun w => { w with
        tokenHistory := w.tokenHistory ++ chunk, nPast := w.nPast + chunk.length })
      (fun n a s hs => PassingAlike.prefillShard hal hhead isFinal _ hs) ?_).post ?_
    · intro a w v h
      rw [h.alike.nPast, h.alike.tokenHistory]
      exact h.setHistory _ _
    · rintro _ w v ⟨a, h⟩
      exact ⟨⟨h.alike, h.idle rfl⟩, fun hfinal => h.logits fun hskip => by
        rw [hfinal] at hskip
        cases hskip.1⟩
  forward tok := by
    refine (RestsAlike.pass hpad (fun _ => False)
      (fun n a => decodeShard spec env a ⟨[tok], n, 1, .decode⟩)
      (fun n a => decodeShard spec env' a ⟨[tok], n, 1, .decode⟩)
      (fun w => { w.log (.appended [tok]) with
        nPast := w.nPast + 1, tokenHistory := w.tokenHistory ++ [tok] })
      (fun n a s hs => PassingAlike.decodeShard hal _ hs) ?_).post ?_
    · intro a w v h
      dsimp only
      rw [h.alike.nPast, h.alike.tokenHistory]
      exact (h.log (.appended [tok])).setHistory _ _
    · rintro _ w v ⟨a, h⟩
      exact ⟨⟨h.alike, h.jobs⟩, h.logits not_false⟩

end Call

/-! ## Later calls -/

/-- Two instances after the same later calls, where `Ok` allows them. Between calls the workers of
both complete the same queued jobs. -/
inductive Later {C α : Type} (spec : LLMSpec) (call call' : C → Run τ ρ I α)
    (Ok : C → World τ ρ I → World τ ρ I → Prop) (w₀ v₀ : World τ ρ I) :
    World τ ρ I → World τ ρ I → Prop
  | start : Later spec call call' Ok w₀ v₀ w₀ v₀
  | call {w v : World τ ρ I} (c : C) (h : Later spec call call' Ok w₀ v₀ w v) (hok : Ok c w v) :
      Later spec call call' Ok w₀ v₀ (call c w).2 (call' c v).2
  | idle {w v : World τ ρ I} (done : KVJob → Bool) (h : Later spec call call' Ok w₀ v₀ w v) :
      Later spec call call' Ok w₀ v₀ (settle spec done w) (settle spec done v)

/-- Whatever calls are made later, the next one returns the same, and the same has been logged. -/
def SameFrom {C α : Type} (spec : LLMSpec) (call call' : C → Run τ ρ I α)
    (Ok : C → World τ ρ I → World τ ρ I → Prop) (w₀ v₀ : World τ ρ I) : Prop :=
  ∀ w v, Later spec call call' Ok w₀ v₀ w v → ∀ c, Ok c w v →
    (call' c v).1 = (call c w).1 ∧ SameLog w₀ v₀ (call c w).2 (call' c v).2

/-- A relation that calls keep. -/
theorem SameFrom.of_step {C α : Type} {call call' : C → Run τ ρ I α}
    {Ok : C → World τ ρ I → World τ ρ I → Prop} {w₀ v₀ : World τ ρ I}
    {R : World τ ρ I → World τ ρ I → Prop} (hstart : R w₀ v₀)
    (hidle : ∀ {w v}, R w v → ∀ done, R (settle spec done w) (settle spec done v))
    (hcall : ∀ {c w v}, R w v → Ok c w v →
      (call c w).1 = (call' c v).1 ∧ R (call c w).2 (call' c v).2)
    (hlog : ∀ {w v}, R w v → SameLog w₀ v₀ w v) : SameFrom spec call call' Ok w₀ v₀ := by
  have hrun : ∀ {w v}, Later spec call call' Ok w₀ v₀ w v → R w v := by
    intro w v h
    induction h with
    | start => exact hstart
    | call c _ hok ih => exact (hcall ih hok).2
    | idle done _ ih => exact hidle ih done
  intro w v h c hok
  obtain ⟨hresult, hend⟩ := hcall (hrun h) hok
  exact ⟨hresult.symm, hlog hend⟩

/-- A call of `LLMModel::generate` or `SSDModel::generate`. -/
structure Request (τ : Type) where
  prompt : List τ
  cfg : GenerationConfig
  callback : List Int32 → CallbackAnswer

/-- A call with a prompt, when nothing is queued. -/
def Request.Ready (c : Request τ) (w _v : World τ ρ I) : Prop := c.prompt ≠ [] ∧ w.pending = []

/-- The environment of an instance whose executions, from the `l`-th on, are those of `env` from the
`k`-th on. -/
def Env.since (env : Env τ ρ I) (k l : ℕ) : Env τ ρ I :=
  { env with
    exec := fun n => env.exec (k + (n - l))
    finishes := fun n => env.finishes (k + (n - l)) }

theorem Env.since_aligned (env : Env τ ρ I) (w₀ v₀ : World τ ρ I) :
    Aligned env (env.since w₀.tick v₀.tick) w₀ v₀ where
  exec n gi x := by
    show env.exec (w₀.tick + (v₀.tick + n - v₀.tick)) gi x = _
    rw [Nat.add_sub_cancel_left]
  finishes n j := by
    show env.finishes (w₀.tick + (v₀.tick + n - v₀.tick)) j = _
    rw [Nat.add_sub_cancel_left]
  sample := rfl
  write := rfl
  nWorkers := rfl
  clockKeeperThreads := rfl

theorem SameLog.refl (w₀ v₀ : World τ ρ I) : SameLog w₀ v₀ w₀ v₀ := ⟨[], [], rfl, rfl, rfl⟩

section Later

variable {w₀ v₀ : World τ ρ I}

theorem LeftAlike.settle {w v : World τ ρ I} (h : LeftAlike spec env w₀ v₀ w v)
    (done : KVJob → Bool) :
    LeftAlike spec env w₀ v₀ (settle spec done w) (settle spec done v) :=
  ⟨h.toAlike.settle h.jobs done, h.jobs.settle done⟩

/-- **Instances that are alike do the same in all later calls.** -/
theorem Alike.sameFrom [Token τ] (h : LeftAlike spec env w₀ v₀ w₀ v₀)
    (hal : Aligned env env' w₀ v₀) (hpad : Padded spec) (hhead : HeadLast spec) :
    SameFrom spec (fun c : Request τ => generate spec env c.prompt c.cfg c.callback)
      (fun c => generate spec env' c.prompt c.cfg c.callback) Request.Ready w₀ v₀ := by
  refine SameFrom.of_step (R := LeftAlike spec env w₀ v₀) h (fun h done => h.settle done) ?_
    fun h => h.sameLog
  intro c w v h hok
  have hcall := (alike_call hal hpad hhead).generate (Or.inl hok.1) c.cfg c.callback
  have hstart : RestsAlike spec w₀ v₀ .prefill w v := ⟨h.toAlike, hok.2⟩
  exact ⟨hcall.result hstart, hcall.snd (fun _ _ _ h => h.left) (fun _ _ _ h => h) hstart⟩

end Later

/-! ## A reset -/

/-- A reset with nothing queued leaves what a new instance has. -/
theorem resetKVCache_alike (hpad : Padded spec) {w : World τ ρ I} (hidle : w.pending = [])
    (kv : KVMem) (outs : ℕ → GraphOut) (hiddenIn : ℕ → ℕ → UInt8) :
    LeftAlike spec env (resetKVCache spec w) (initWorld spec w.providers kv outs hiddenIn)
      (resetKVCache spec w) (initWorld spec w.providers kv outs hiddenIn) where
  active := rfl
  activeLt := spec.numCl_pos
  nPast := rfl
  tokenHistory := rfl
  sampler := rfl
  samplerCfg _ := rfl
  providers := rfl
  pending := hidle.symm
  tick := ⟨0, rfl, rfl⟩
  kv t ht _ hi := initKVBuffers_agree ht (hpad t ht) .prefill spec.numCl_pos hi _ _
  sameLog := SameLog.refl _ _
  jobs := JobsAlike.of_nil hidle

end Geniex
