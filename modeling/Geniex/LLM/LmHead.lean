import Geniex.Lib.Refines
import Geniex.LLM.Operations

/-!
# Skipping the LM head

`prefillChunks` runs the shards that are only an LM head in the last chunk alone, and hands no
hidden state to them before.

* `fullPrefillChunks`: every shard and every connection, in every chunk.
* `Agree`: two instances that differ in buffers of LM-head graphs only.
* `prefillChunks_transparent`: the two leave the same state and the same logits.
-/

namespace Geniex

open Prog

variable {τ ρ I : Type} {spec : LLMSpec} {env : Env τ ρ I}

/-! ## Without skipping -/

/-- The loop of `prefillChunks`, with every chunk run as the last one is. -/
def fullPrefillLoop (spec : LLMSpec) (env : Env τ ρ I) : ℕ → List τ → ℕ → Run τ ρ I ℕ
  | 0, _, last => pure last
  | fuel + 1, tokens, last =>
    if tokens = [] then pure last
    else do
      prefillChunk spec env true (tokens.take spec.seqLenPrefill)
      fullPrefillLoop spec env fuel (tokens.drop spec.seqLenPrefill)
        (tokens.take spec.seqLenPrefill).length

/-- `prefillChunks`, running every shard and applying every connection for every chunk. -/
def fullPrefillChunks (spec : LLMSpec) (env : Env τ ρ I) (tokens : List τ) : Run τ ρ I ℕ :=
  fullPrefillLoop spec env tokens.length tokens 0

/-! ## Two instances that agree -/

/-- The prefill graphs of the shards that are only an LM head. -/
def lmGraphs (spec : LLMSpec) : Set ℕ :=
  {g | ∃ s a, spec.lmHeadOnly s = true ∧ a < spec.numCl ∧ g = spec.graphIndex .prefill s a}

/-- Two instances at one context length that differ in the outputs of the graphs in `X` and the
hidden-state inputs of the LM head only. -/
structure Agree (spec : LLMSpec) (a : ℕ) (X : Set ℕ) (w v : World τ ρ I) : Prop where
  nPast : w.nPast = v.nPast
  active : w.activeClIdx = a ∧ v.activeClIdx = a
  history : w.tokenHistory = v.tokenHistory
  kv : w.kv = v.kv
  providers : w.providers = v.providers
  pending : w.pending = [] ∧ v.pending = []
  outs : ∀ g, g ∉ X → w.outs g = v.outs g
  hiddenIn : ∀ g, g ∉ lmGraphs spec → w.hiddenIn g = v.hiddenIn g

/-- The graph of any other shard is none of the LM head's. -/
theorem graphIndex_not_lm {s a : ℕ} (ha : a < spec.numCl) (hs : spec.lmHeadOnly s ≠ true) :
    spec.graphIndex .prefill s a ∉ lmGraphs spec := by
  rintro ⟨s', a', hlm, ha', heq⟩
  unfold LLMSpec.graphIndex at heq
  have hdiv : ∀ {x y : ℕ}, y < spec.numCl → (x * spec.numCl + y) / spec.numCl = x := by
    intro x y hy
    rw [Nat.mul_comm, Nat.mul_add_div (by omega), Nat.div_eq_of_lt hy, Nat.add_zero]
  have hsame : s * spec.numCl + a = s' * spec.numCl + a' := by omega
  have hshard : s = s' := by rw [← hdiv (x := s) ha, hsame, hdiv ha']
  exact hs (hshard ▸ hlm)

/-- The LM head has no KV tensors to write back. -/
theorem updateKV_lm {s : ℕ} (hs : spec.lmHeadOnly s = true) (phase : Phase) (off n : ℕ)
    (w : World τ ρ I) : updateKV spec s phase off n w = w :=
  if_pos (spec.pairs_of_lmHeadOnly hs)

namespace Agree

variable {a : ℕ} {X Y : Set ℕ} {w v : World τ ρ I}

theorem mono (h : Agree spec a X w v) (hXY : X ⊆ Y) : Agree spec a Y w v :=
  { h with outs := fun g hg => h.outs g fun hX => hg (hXY hX) }

theorem promoteCL (h : Agree spec a X w v) (ha : a < spec.numCl) (required capacity stride : ℕ) :
    Agree spec (promoteTarget spec required capacity a) X
      (promoteCL spec required capacity stride w)
      (Geniex.promoteCL spec required capacity stride v) := by
  obtain ⟨hw, hv⟩ := h.active
  rw [promoteCL_eq (hw ▸ ha), promoteCL_eq (hv ▸ ha), hw, hv]
  refine ⟨h.nPast, ⟨rfl, rfl⟩, h.history, ?_, h.providers, h.pending, h.outs, h.hiddenIn⟩
  dsimp only
  rw [h.nPast, h.kv]

theorem log (h : Agree spec a X w v) (e e' : Event τ I) : Agree spec a X (w.log e) (v.log e') :=
  ⟨h.nPast, h.active, h.history, h.kv, h.providers, h.pending, h.outs, h.hiddenIn⟩

/-- A write-back of outputs that agree. -/
theorem updateKV (h : Agree spec a X w v) {s : ℕ} {phase : Phase}
    (hout : spec.graphIndex phase s a ∉ X) (off n : ℕ) :
    Agree spec a X (updateKV spec s phase off n w) (Geniex.updateKV spec s phase off n v) := by
  rw [updateKV_frame s phase off n w, updateKV_frame s phase off n v]
  refine ⟨h.nPast, h.active, h.history, ?_, h.providers, h.pending, h.outs, h.hiddenIn⟩
  funext t
  show (Geniex.updateKV spec s phase off n w).kv t = (Geniex.updateKV spec s phase off n v).kv t
  rw [updateKV_kv, updateKV_kv, h.kv, h.active.1, h.active.2, h.outs _ hout]

/-- A connection between shards whose outputs agree. -/
theorem applyConnection (h : Agree spec a X w v) {s : ℕ}
    (hout : spec.graphIndex .prefill s a ∉ X) :
    Agree spec a X (applyConnection spec .prefill s a w)
        (Geniex.applyConnection spec .prefill s a v) ∧
      (Geniex.applyConnection spec .prefill s a w).hiddenIn (spec.graphIndex .prefill (s + 1) a) =
        (Geniex.applyConnection spec .prefill s a v).hiddenIn
          (spec.graphIndex .prefill (s + 1) a) := by
  constructor
  · refine ⟨h.nPast, h.active, h.history, h.kv, h.providers, h.pending, h.outs, fun g hg => ?_⟩
    simp only [Geniex.applyConnection, Function.update_apply, h.outs _ hout]
    split_ifs
    · rfl
    · exact h.hiddenIn g hg
  · simp only [Geniex.applyConnection, Function.update_self, h.outs _ hout]

/-- A connection to the LM head in one of them. -/
theorem connect_right (h : Agree spec a X w v) (ha : a < spec.numCl) {s : ℕ}
    (hs : spec.lmHeadOnly (s + 1) = true) :
    Agree spec a X w (Geniex.applyConnection spec .prefill s a v) := by
  refine ⟨h.nPast, h.active, h.history, h.kv, h.providers, h.pending, h.outs, fun g hg => ?_⟩
  have hne : g ≠ spec.graphIndex .prefill (s + 1) a := by
    rintro rfl
    exact hg ⟨s + 1, a, hs, ha, rfl⟩
  simp only [Geniex.applyConnection, Function.update_of_ne hne]
  exact h.hiddenIn g hg

end Agree

/-! ## One execution -/

/-- With no jobs queued nothing happens in the background. -/
theorem background_idle {w : World τ ρ I} (h : w.pending = []) : background spec env w = w := by
  unfold background settle
  rw [h]
  split_ifs
  · rfl
  · show { w with pending := [] } = w
    rw [← h]

/-- An execution that succeeds, with no jobs queued. -/
theorem runShard_ok {w w' : World τ ρ I} {s a : ℕ} {phase : Phase} {ctx : RunContext τ}
    (hidle : w.pending = []) :
    runShard spec env s phase a ctx w = (.ok (), w') ↔
      ∃ out, env.exec w.tick (spec.graphIndex phase s a) (execInput spec env s phase a ctx w) =
          some out ∧
        w' = { w.log (.exec ⟨phase, s, a, ctx, execInput spec env s phase a ctx w, w.produced⟩) with
          tick := w.tick + 1
          outs := Function.update w.outs (spec.graphIndex phase s a) out
          produced := produce spec s ctx out w.produced } := by
  unfold runShard
  rw [modify_bind, background_idle hidle, get_bind, execGraph]
  cases hx : env.exec w.tick (spec.graphIndex phase s a) (execInput spec env s phase a ctx w) with
  | none => simp
  | some out => simp [eq_comm]

/-- The hidden-state inputs of a shard agree; the first shard has none. -/
def HiddenAgrees (spec : LLMSpec) (a s : ℕ) (w v : World τ ρ I) : Prop :=
  s ≠ 0 → w.hiddenIn (spec.graphIndex .prefill s a) = v.hiddenIn (spec.graphIndex .prefill s a)

section Chunk

variable {a : ℕ} {ctx : RunContext τ} {X : Set ℕ}

/-- Two executions of a shard on hidden states that agree. -/
theorem runShard_refines (hdet : ∀ n m g x, env.exec n g x = env.exec m g x) (s : ℕ) :
    Refines (fun w v => Agree spec a X w v ∧ HiddenAgrees spec a s w v)
      (runShard spec env s .prefill a ctx) (runShard spec env s .prefill a ctx)
      fun _ _ => Agree spec a (X \ {spec.graphIndex .prefill s a}) := by
  rintro w v ⟨h, hhidden⟩ ⟨⟩ v' hrun
  obtain ⟨out, hexec, rfl⟩ := (runShard_ok h.pending.2).mp hrun
  have hin : execInput spec env s .prefill a ctx w = execInput spec env s .prefill a ctx v := by
    unfold execInput
    rw [h.providers, h.kv]
    by_cases hs : s = 0
    · rw [if_pos hs, if_pos hs]
    · rw [hhidden hs]
  refine ⟨(), _, (runShard_ok h.pending.1).mpr ⟨out, ?_, rfl⟩, ?_⟩
  · rw [hin, hdet w.tick v.tick]
    exact hexec
  · refine ⟨h.nPast, h.active, h.history, h.kv, h.providers, h.pending, fun g hg => ?_, h.hiddenIn⟩
    show Function.update w.outs _ out g = Function.update v.outs _ out g
    rw [Function.update_apply, Function.update_apply]
    split_ifs with heq
    · rfl
    · exact h.outs g fun hX => hg ⟨hX, heq⟩

/-- An execution of the LM head in one of two instances. -/
theorem runShard_right (ha : a < spec.numCl) {s : ℕ} (hs : spec.lmHeadOnly s = true)
    (w : World τ ρ I) :
    Triple (Agree spec a (lmGraphs spec) w) (runShard spec env s .prefill a ctx)
      (fun _ => Agree spec a (lmGraphs spec) w) fun _ _ => True := by
  intro v h
  rcases hrun : runShard spec env s .prefill a ctx v with ⟨r, v'⟩
  cases r with
  | error e => trivial
  | ok u =>
    obtain ⟨out, -, rfl⟩ := (runShard_ok h.pending.2).mp hrun
    refine ⟨h.nPast, h.active, h.history, h.kv, h.providers, h.pending, fun g hg => ?_, h.hiddenIn⟩
    have hne : g ≠ spec.graphIndex .prefill s a := by
      rintro rfl
      exact hg ⟨s, a, hs, ha, rfl⟩
    exact (h.outs g hg).trans (Function.update_of_ne hne _ _).symm

/-! ## One chunk -/

/-- A shard's part of the last chunk. -/
theorem prefillShard_final (s : ℕ) :
    prefillShard spec env true a ctx s = (do
      runShard spec env s .prefill a ctx
      Prog.modify (updateKV spec s .prefill ctx.nPast ctx.currLen)
      Prog.when (s + 1 < spec.shardCount) (Prog.modify (applyConnection spec .prefill s a))) := by
  unfold prefillShard
  simp [Prog.when]

/-- In a chunk that is not the last, a shard that runs reads and leaves what it does without
skipping; the LM head changes its own buffers only. -/
theorem prefillShard_skips (hdet : ∀ n m g x, env.exec n g x = env.exec m g x)
    (hsuffix : ∀ s, s + 1 < spec.shardCount → spec.lmHeadOnly s = true →
      spec.lmHeadOnly (s + 1) = true) (ha : a < spec.numCl) (s : ℕ) :
    Refines (Agree spec a (lmGraphs spec)) (prefillShard spec env false a ctx s)
      (prefillShard spec env true a ctx s) fun _ _ => Agree spec a (lmGraphs spec) := by
  rw [prefillShard_final]
  unfold prefillShard
  by_cases hs : spec.lmHeadOnly s = true
  · rw [Prog.when, if_neg (by simp [hs])]
    refine Refines.idle fun w => Triple.bind (runShard_right ha hs w) fun _ =>
      Triple.bind (R := fun _ => Agree spec a (lmGraphs spec) w) (Triple.modify fun v h => ?_)
        fun _ => Triple.when (fun hnext => Triple.modify fun v h => ?_) fun _ v h => h
    · rwa [updateKV_lm hs]
    · exact h.connect_right ha (hsuffix s hnext hs)
  · have hout := graphIndex_not_lm ha hs
    rw [Prog.when, if_pos (by simp [hs])]
    refine Refines.bind (R := fun _ _ => Agree spec a (lmGraphs spec))
      ((runShard_refines hdet s).conseq (fun w v h => ⟨h, fun _ => h.hiddenIn _ hout⟩)
        fun _ _ w v h => h.mono Set.sdiff_subset) fun _ _ => ?_
    refine Refines.bind (R := fun _ _ => Agree spec a (lmGraphs spec))
      (Refines.modify fun w v h => h.updateKV hout _ _) fun _ _ => ?_
    by_cases hnext : s + 1 < spec.shardCount
    · by_cases hlm : spec.lmHeadOnly (s + 1) = true
      · rw [Prog.when, Prog.when, if_neg (by simp [hlm]), if_pos hnext]
        exact Refines.idle fun w => Triple.modify fun v h => h.connect_right ha hlm
      · rw [Prog.when, Prog.when, if_pos (by simp [hlm, hnext]), if_pos hnext]
        exact Refines.modify fun w v h => (h.applyConnection hout).1
    · rw [Prog.when, Prog.when, if_neg (fun h => hnext h.1), if_neg hnext]
      exact Refines.pure fun w v h => h

/-- The LM-head graphs that have not been executed in the last chunk up to shard `n`. -/
def notYet (spec : LLMSpec) (a n : ℕ) : Set ℕ :=
  {g ∈ lmGraphs spec | ∀ s < n, g ≠ spec.graphIndex .prefill s a}

theorem notYet_diff (n : ℕ) :
    notYet spec a n \ {spec.graphIndex .prefill n a} ⊆ notYet spec a (n + 1) := by
  rintro g ⟨⟨hg, hbefore⟩, hne⟩
  refine ⟨hg, fun s hs => ?_⟩
  rcases Nat.lt_succ_iff_lt_or_eq.mp hs with hlt | rfl
  · exact hbefore s hlt
  · exact hne

theorem executed_not_notYet (spec : LLMSpec) (a : ℕ) {s n : ℕ} (h : s < n) :
    spec.graphIndex .prefill s a ∉ notYet spec a n :=
  fun hg => hg.2 s h rfl

/-- In the last chunk every shard reads what the shard before it has left in this chunk. -/
theorem prefillShard_last (hdet : ∀ n m g x, env.exec n g x = env.exec m g x) (s : ℕ) :
    Refines (fun w v => Agree spec a (notYet spec a s) w v ∧ HiddenAgrees spec a s w v)
      (prefillShard spec env true a ctx s) (prefillShard spec env true a ctx s)
      fun _ _ w v => Agree spec a (notYet spec a (s + 1)) w v ∧
        (s + 1 < spec.shardCount → HiddenAgrees spec a (s + 1) w v) := by
  have hout := executed_not_notYet spec a (Nat.lt_succ_self s)
  rw [prefillShard_final]
  refine Refines.bind (R := fun _ _ => Agree spec a (notYet spec a (s + 1)))
    ((runShard_refines hdet s).conseq (fun w v h => h) fun _ _ w v h => h.mono (notYet_diff s))
    fun _ _ => ?_
  refine Refines.bind (R := fun _ _ => Agree spec a (notYet spec a (s + 1)))
    (Refines.modify fun w v h => h.updateKV hout _ _) fun _ _ => ?_
  by_cases hnext : s + 1 < spec.shardCount
  · rw [Prog.when, if_pos hnext]
    refine Refines.modify fun w v h => ?_
    obtain ⟨hagree, hhidden⟩ := h.applyConnection hout
    exact ⟨hagree, fun _ _ => hhidden⟩
  · rw [Prog.when, if_neg hnext]
    exact Refines.pure fun w v h => ⟨h, fun h' => absurd h' hnext⟩

/-- The outputs of the last shard agree. -/
def LastAgrees (spec : LLMSpec) (w v : World τ ρ I) : Prop :=
  w.outs (spec.graphIndex .prefill (spec.shardCount - 1) w.activeClIdx) =
    v.outs (spec.graphIndex .prefill (spec.shardCount - 1) v.activeClIdx)

/-- Between two chunks. -/
def BetweenChunks (spec : LLMSpec) (w v : World τ ρ I) : Prop :=
  ∃ a < spec.numCl, Agree spec a (lmGraphs spec) w v

/-- A chunk, by what its shards keep. -/
theorem prefillChunk_refines {isFinal : Bool} {chunk : List τ} {Q : World τ ρ I → World τ ρ I → Prop}
    (hshards : ∀ (a : ℕ) (ctx : RunContext τ), a < spec.numCl →
      Refines (Agree spec a (lmGraphs spec))
        (Prog.forRange spec.shardCount (prefillShard spec env isFinal a ctx))
        (Prog.forRange spec.shardCount (prefillShard spec env true a ctx))
        fun _ _ w v => Agree spec a (lmGraphs spec) w v ∧ Q w v)
    (hQ : ∀ w v f f', Q w v →
      Q { w with tokenHistory := f, nPast := f' } { v with tokenHistory := f, nPast := f' }) :
    Refines (BetweenChunks spec) (prefillChunk spec env isFinal chunk)
      (prefillChunk spec env true chunk) fun _ _ w v => BetweenChunks spec w v ∧ Q w v := by
  refine Refines.get fun w₀ v₀ ⟨a, ha, h₀⟩ => ?_
  refine Refines.bind (R := fun _ _ => Agree spec a (lmGraphs spec))
    (Refines.modify fun w v h => ?_) fun _ _ => ?_
  · obtain ⟨rfl, rfl⟩ := h
    exact h₀.log _ _
  · rw [h₀.nPast]
    set a' := promoteTarget spec (v₀.nPast + chunk.length) spec.seqLenPrefill a with ha'
    have hlt : a' < spec.numCl := (promoteTarget_spec _ _ ha).2.1
    refine Refines.bind (R := fun _ _ => Agree spec a' (lmGraphs spec))
      (Refines.modify fun w v h => h.promoteCL ha _ _ _) fun _ _ => ?_
    refine Refines.get fun w₁ v₁ h₁ => ?_
    rw [h₁.active.1, h₁.active.2]
    refine Refines.bind ((hshards a' ⟨chunk, v₀.nPast, chunk.length, .prefill⟩ hlt).conseq
      (fun w v h => by rw [h.1, h.2]; exact h₁) fun _ _ w v h => h) fun _ _ => ?_
    refine Refines.modify fun w v h => ?_
    obtain ⟨h, hq⟩ := h
    rw [h.history, h.nPast]
    exact ⟨⟨a', hlt, ⟨rfl, h.active, rfl, h.kv, h.providers, h.pending, h.outs, h.hiddenIn⟩⟩,
      hQ w v _ _ hq⟩

theorem prefillChunk_skips (hdet : ∀ n m g x, env.exec n g x = env.exec m g x)
    (hsuffix : ∀ s, s + 1 < spec.shardCount → spec.lmHeadOnly s = true →
      spec.lmHeadOnly (s + 1) = true) (chunk : List τ) :
    Refines (BetweenChunks spec) (prefillChunk spec env false chunk) (prefillChunk spec env true chunk)
      fun _ _ => BetweenChunks spec :=
  (prefillChunk_refines (Q := fun _ _ => True) (fun a _ ha =>
    (Refines.forRange (J := fun _ => Agree spec a (lmGraphs spec)) fun s _ =>
      prefillShard_skips hdet hsuffix ha s).conseq (fun _ _ h => h) fun _ _ _ _ h => ⟨h, trivial⟩)
    fun _ _ _ _ _ => trivial).conseq (fun _ _ h => h) fun _ _ _ _ h => h.1

theorem prefillChunk_last (hdet : ∀ n m g x, env.exec n g x = env.exec m g x) (chunk : List τ) :
    Refines (BetweenChunks spec) (prefillChunk spec env true chunk) (prefillChunk spec env true chunk)
      fun _ _ w v => BetweenChunks spec w v ∧ LastAgrees spec w v := by
  refine prefillChunk_refines (fun a ctx ha => ?_) fun w v _ _ h => h
  refine (Refines.forRange (J := fun s w v => Agree spec a (notYet spec a s) w v ∧
      (s < spec.shardCount → HiddenAgrees spec a s w v)) fun s hs =>
    (prefillShard_last hdet s).conseq (fun w v h => ⟨h.1, h.2 hs⟩) fun _ _ w v h => h).conseq
    (fun w v h => ⟨h.mono fun g hg => ⟨hg, nofun⟩, fun _ h0 => absurd rfl h0⟩)
    fun _ _ w v h => ⟨h.1.mono fun g hg => hg.1, ?_⟩
  have hlast := executed_not_notYet spec a
    (show spec.shardCount - 1 < spec.shardCount by have := spec.shardCount_pos; omega)
  unfold LastAgrees
  rw [h.1.active.1, h.1.active.2]
  exact h.1.outs _ hlast

end Chunk

/-! ## All chunks -/

theorem prefillLoop_refines (hdet : ∀ n m g x, env.exec n g x = env.exec m g x)
    (hsuffix : ∀ s, s + 1 < spec.shardCount → spec.lmHeadOnly s = true →
      spec.lmHeadOnly (s + 1) = true) (fuel : ℕ) :
    ∀ (tokens : List τ) (last : ℕ), tokens.length ≤ fuel →
      Refines (fun w v => BetweenChunks spec w v ∧ (tokens = [] → LastAgrees spec w v))
        (prefillLoop spec env fuel tokens last) (fullPrefillLoop spec env fuel tokens last)
        fun n m w v => n = m ∧ BetweenChunks spec w v ∧ LastAgrees spec w v := by
  have hAR := spec.seqLen_pos .prefill
  induction fuel with
  | zero =>
    intro tokens last hlen
    have hnil : tokens = [] := List.eq_nil_of_length_eq_zero (Nat.le_zero.mp hlen)
    exact Refines.pure fun w v h => ⟨rfl, h.1, h.2 hnil⟩
  | succ fuel ih =>
    intro tokens last hlen
    unfold prefillLoop fullPrefillLoop
    by_cases hnil : tokens = []
    · rw [if_pos hnil, if_pos hnil]
      exact Refines.pure fun w v h => ⟨rfl, h.1, h.2 hnil⟩
    · have hpos := List.length_pos_iff.mpr hnil
      have hdrop : (tokens.drop spec.seqLenPrefill).length ≤ fuel := by
        have : 0 < spec.seqLenPrefill := hAR
        rw [List.length_drop]
        omega
      rw [if_neg hnil, if_neg hnil]
      refine Refines.bind ?_ fun _ _ => ih _ _ hdrop
      by_cases hfinal : tokens.length ≤ spec.seqLenPrefill
      · rw [decide_eq_true hfinal]
        exact (prefillChunk_last hdet _).conseq (fun w v h => h.1) fun _ _ w v h =>
          ⟨h.1, fun _ => h.2⟩
      · rw [decide_eq_false hfinal]
        refine (prefillChunk_skips hdet hsuffix _).conseq (fun w v h => h.1) fun _ _ w v h =>
          ⟨h, fun hrest => ?_⟩
        have := congrArg List.length hrest
        rw [List.length_drop, List.length_nil] at this
        omega

/-- **Skipping the LM head is transparent.** If execution is a function of a graph's inputs, the LM
head a suffix of the shards and no job queued, `prefillChunks` returns whenever the version that
skips nothing does, and leaves the same KV contents, position, history and context length, and the
same outputs of the last shard. -/
theorem prefillChunks_transparent (spec : LLMSpec) (env : Env τ ρ I)
    (hdet : ∀ n m g x, env.exec n g x = env.exec m g x)
    (hsuffix : ∀ s, s + 1 < spec.shardCount → spec.lmHeadOnly s = true →
      spec.lmHeadOnly (s + 1) = true) (tokens : List τ) {w w' : World τ ρ I} {last : ℕ}
    (hactive : w.activeClIdx < spec.numCl) (hidle : w.pending = [])
    (hfull : fullPrefillChunks spec env tokens w = (.ok last, w')) :
    ∃ v, prefillChunks spec env tokens w = (.ok last, v) ∧
      v.kv = w'.kv ∧ v.nPast = w'.nPast ∧ v.tokenHistory = w'.tokenHistory ∧
      v.activeClIdx = w'.activeClIdx ∧
      v.outs (spec.graphIndex .prefill (spec.shardCount - 1) v.activeClIdx) =
        w'.outs (spec.graphIndex .prefill (spec.shardCount - 1) w'.activeClIdx) := by
  have hstart : BetweenChunks spec w w :=
    ⟨_, hactive, rfl, ⟨rfl, rfl⟩, rfl, rfl, rfl, ⟨hidle, hidle⟩, fun _ _ => rfl, fun _ _ => rfl⟩
  obtain ⟨_, v, hrun, rfl, ⟨a, -, h⟩, hlast⟩ := prefillLoop_refines hdet hsuffix tokens.length tokens
    0 le_rfl w w ⟨hstart, fun _ => rfl⟩ last w' hfull
  exact ⟨v, hrun, h.kv, h.nPast, h.history, h.active.1.trans h.active.2.symm, hlast⟩

/-- One shard with a KV pair, and an LM head. -/
def headSpec : LLMSpec :=
  { twoContexts with
    shards := [⟨false, true, false, [⟨.uint8, .uint8⟩]⟩, ⟨true, false, false, []⟩]
    shards_ne := by decide
    lmHead_pairs := by decide }

/-- Graphs whose outputs tell the graph, and logits that are the hidden state. -/
def headEnv : Env Int32 Unit Unit :=
  { tinyEnv 0 0 with
    exec := fun _ g x => some ⟨fun _ _ => UInt8.ofNat (g + 1), fun _ => UInt8.ofNat (g + 1),
      fun i => ((x.hidden.getD fun _ => 0) i).toNat⟩ }

/-- Three tokens, in two chunks. -/
theorem prefillChunks_transparent_head :
    ∃ v, prefillChunks headSpec headEnv [0, 0, 0] (tinyWorld headSpec) = (.ok 1, v) ∧
      v.tokenHistory = [0, 0, 0] := by
  have hout : (fullPrefillChunks headSpec headEnv [0, 0, 0] (tinyWorld headSpec)).1 = .ok 1 := by
    decide +kernel
  obtain ⟨v, hrun, -, -, hhistory, -⟩ := prefillChunks_transparent headSpec headEnv
    (fun _ _ _ _ => rfl) (fun s hs h => by
      obtain rfl : s = 0 := Nat.lt_one_iff.mp (Nat.lt_of_succ_lt_succ hs)
      cases h) [0, 0, 0] (by decide) rfl (eq_of_result hout)
  exact ⟨v, hrun, hhistory.trans (by decide +kernel)⟩

end Geniex
