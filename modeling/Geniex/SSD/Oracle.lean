import Geniex.LLM.WriteBack
import Geniex.Lib.Logged
import Geniex.SSD.Instance
import Geniex.SSD.Rows

/-!
# Graphs that answer by what a row sees

* `IsPass`: the outputs that one forward pass leaves in the graphs of all shards.
* `Oracle`: the answer to a row of a pass depends on the (token, position) pairs that its mask makes
  visible, and on nothing else.
* `treePass_isPass`, `prefillShards_isPass`: the passes of this class are passes in that sense.
-/

namespace Geniex

open Prog FlatMem

variable {ρ I : Type}

/-! ## Passes -/

/-- A column of a shard's KV tensors. -/
abbrev Column : Type := KVTensor → ℕ → ℕ → UInt8

/-- Column `c` of shard `s` at a row width of `len` columns. -/
def columnOf (spec : LLMSpec) (len s c : ℕ) (kv : KVMem) : Column := fun t r b =>
  if t.shard = s ∧ spec.hasTensor t = true ∧ r < spec.rows t ∧ b < spec.tokenSize t then
    kv t (cell len (spec.tokenSize t) r c b)
  else 0

/-- A forward pass: its graphs, the tokens, and the inputs that the class computes itself. -/
structure PassInput where
  phase : Phase
  clIdx : ℕ
  ctx : RunContext Int32
  mask : ℕ → ℤ
  positions : List Int32

namespace PassInput

variable (p : PassInput)

/-- The token of row `i` and its position. -/
def pair (i : ℕ) : Int32 × Int32 := (p.ctx.tokenIds.getD i 0, p.positions.getD i 0)

/-- What shard `s` reads in a pass from the state `w` on, after the shards before it have left
their outputs. -/
def shardInput (spec : LLMSpec) (env : Env Int32 ρ I) (w : World Int32 ρ I) (outs : ℕ → GraphOut)
    (s : ℕ) : ExecIn I where
  inputs := env.write w.providers (spec.graphIndex p.phase s p.clIdx) p.ctx
  mask := if spec.hasAttentionMask s then some p.mask else none
  positions := some p.positions
  hidden := if s = 0 then none else some (outs (spec.graphIndex p.phase (s - 1) p.clIdx)).hidden
  kv := kvView spec p.phase s p.clIdx w.kv

/-- The first `n` shards have executed, each on what the one before it has handed over. -/
def IsPass (spec : LLMSpec) (env : Env Int32 ρ I) (w : World Int32 ρ I) (outs : ℕ → GraphOut)
    (n : ℕ) : Prop :=
  ∀ s < n, env.exec (w.tick + s) (spec.graphIndex p.phase s p.clIdx) (p.shardInput spec env w outs s) =
    some (outs (spec.graphIndex p.phase s p.clIdx))

/-- The past columns that row `i` sees. -/
def past (spec : LLMSpec) (i : ℕ) : List ℕ :=
  SSDConfig.visiblePast p.mask (spec.seqLen p.phase) (spec.kvLen p.phase p.clIdx) i

/-- The rows of the pass that row `i` sees. -/
def block (spec : LLMSpec) (i : ℕ) : List ℕ :=
  SSDConfig.visibleBlock p.mask (spec.seqLen p.phase) (spec.kvLen p.phase p.clIdx) i

end PassInput

/-- The greatest logit of a row, as the code reads the row. -/
def rowAnswer (spec : LLMSpec) (out : GraphOut) (row : ℕ) : Int32 :=
  Int32.ofNat (argmax ((List.range spec.vocabSize).map fun i =>
    out.logits ((row * spec.vocabSize) % 2 ^ 64 + i)))

/-- The graphs answer a row by what it sees: `next` of the pairs of the visible columns. `holds`
says what a KV column stands for; a pass leaves columns that stand for its own pairs. -/
structure Oracle (spec : LLMSpec) (env : Env Int32 ρ I)
    (next : List (Int32 × Int32) → Int32) (holds : ℕ → Column → Int32 × Int32 → Prop) : Prop where
  pass : ∀ (p : PassInput) (w : World Int32 ρ I) (outs : ℕ → GraphOut),
    p.clIdx < spec.numCl → p.IsPass spec env w outs spec.shardCount →
    p.ctx.tokenIds.length ≤ spec.seqLen p.phase → ∀ i < p.ctx.tokenIds.length, ∀ seen : ℕ → Int32 × Int32,
      (∀ s < spec.shardCount, ∀ c ∈ p.past spec i,
        holds s (columnOf spec (spec.kvLen p.phase p.clIdx) s c w.kv) (seen c)) →
      (∀ s < spec.shardCount,
        holds s (columnOf spec (spec.seqLen p.phase) s i
          (outs (spec.graphIndex p.phase s p.clIdx)).kvOut) (p.pair i)) ∧
        rowAnswer spec (outs (spec.graphIndex p.phase (spec.shardCount - 1) p.clIdx)) i =
          next ((p.past spec i).map seen ++ (p.block spec i).map p.pair)

/-! ## The shards of a pass -/

variable {spec : LLMSpec} {env : Env Int32 ρ I} {ssd : SSDConfig} {fits : List (Event Int32 I) → Prop}

/-- The first `n` shards of a pass from `w₀` on have executed and, if `back`, written back. -/
structure Passing (spec : LLMSpec) (env : Env Int32 ρ I) (p : PassInput) (back : Bool)
    (w₀ : World Int32 ρ I) (n : ℕ) (w : World Int32 ρ I) : Prop where
  pass : p.IsPass spec env w₀ w.outs n
  hidden : n ≠ 0 → n < spec.shardCount →
    w.hiddenIn (spec.graphIndex p.phase n p.clIdx) =
      (w.outs (spec.graphIndex p.phase (n - 1) p.clIdx)).hidden
  kv : ∀ t, w.kv t =
    if back = true ∧ t.shard < n ∧ spec.hasTensor t = true then
      copyKV spec t (w₀.kv t) ((w.outs (spec.graphIndex p.phase t.shard p.clIdx)).kvOut t)
        (spec.seqLen p.phase) 0 (spec.kvLen p.phase p.clIdx) p.ctx.nPast p.ctx.currLen
    else w₀.kv t
  tick : w.tick = w₀.tick + n
  providers : w.providers = w₀.providers
  active : w.activeClIdx = p.clIdx
  nPast : w.nPast = w₀.nPast
  sampler : w.sampler = w₀.sampler

/-- Shard `n` has executed and has not written back or handed over yet. -/
structure Executed (spec : LLMSpec) (env : Env Int32 ρ I) (p : PassInput) (back : Bool)
    (w₀ : World Int32 ρ I) (n : ℕ) (w : World Int32 ρ I) : Prop where
  pass : p.IsPass spec env w₀ w.outs (n + 1)
  kv : ∀ t, w.kv t =
    if back = true ∧ t.shard < n ∧ spec.hasTensor t = true then
      copyKV spec t (w₀.kv t) ((w.outs (spec.graphIndex p.phase t.shard p.clIdx)).kvOut t)
        (spec.seqLen p.phase) 0 (spec.kvLen p.phase p.clIdx) p.ctx.nPast p.ctx.currLen
    else w₀.kv t
  tick : w.tick = w₀.tick + (n + 1)
  providers : w.providers = w₀.providers
  active : w.activeClIdx = p.clIdx
  nPast : w.nPast = w₀.nPast
  sampler : w.sampler = w₀.sampler

theorem graphIndex_ne {phase : Phase} {s s' a : ℕ} (h : s ≠ s') :
    spec.graphIndex phase s a ≠ spec.graphIndex phase s' a := by
  intro heq
  unfold LLMSpec.graphIndex at heq
  exact h (Nat.eq_of_mul_eq_mul_right spec.numCl_pos (by omega))

section Shards

variable {p : PassInput} {back : Bool} {w₀ w w' : World Int32 ρ I} {n : ℕ}

theorem Passing.start (hactive : w₀.activeClIdx = p.clIdx) : Passing spec env p back w₀ 0 w₀ where
  pass := fun s hs => absurd hs (Nat.not_lt_zero s)
  hidden := fun h => absurd rfl h
  kv := fun t => by simp
  tick := rfl
  providers := rfl
  active := hactive
  nPast := rfl
  sampler := rfl

/-- A shard's outputs do not touch those of the shards before it. -/
theorem IsPass.store {outs : ℕ → GraphOut} {out : GraphOut} (h : p.IsPass spec env w₀ outs n)
    (hout : env.exec (w₀.tick + n) (spec.graphIndex p.phase n p.clIdx)
      (p.shardInput spec env w₀ outs n) = some out) :
    p.IsPass spec env w₀ (Function.update outs (spec.graphIndex p.phase n p.clIdx) out) (n + 1) := by
  have hinput : ∀ s ≤ n,
      p.shardInput spec env w₀ (Function.update outs (spec.graphIndex p.phase n p.clIdx) out) s =
        p.shardInput spec env w₀ outs s := by
    intro s hs
    unfold PassInput.shardInput
    by_cases h0 : s = 0
    · simp [h0]
    · have hne : spec.graphIndex p.phase (s - 1) p.clIdx ≠ spec.graphIndex p.phase n p.clIdx :=
        graphIndex_ne (by omega)
      simp only [if_neg h0, Function.update_of_ne hne]
  intro s hs
  rw [hinput s (by omega)]
  rcases Nat.lt_succ_iff_lt_or_eq.mp hs with hlt | rfl
  · rw [Function.update_of_ne (graphIndex_ne (by omega))]
    exact h s hlt
  · rw [Function.update_self]
    exact hout

/-- What the class prepares for a shard is the pass's input. -/
theorem Passing.execInput (h : Passing spec env p back w₀ n w) (hn : n < spec.shardCount) :
    SSDConfig.execInput spec env n p.phase p.clIdx p.ctx p.mask p.positions w =
      p.shardInput spec env w₀ w.outs n := by
  -- no shard writes another shard's KV tensors
  have hkv : kvView spec p.phase n p.clIdx w.kv = kvView spec p.phase n p.clIdx w₀.kv := by
    funext t i
    unfold kvView
    by_cases ht : t.shard = n
    · have hsame : w.kv t = w₀.kv t := (h.kv t).trans (if_neg (by omega))
      rw [hsame]
    · simp only [ht, false_and, if_false]
  unfold SSDConfig.execInput Geniex.execInput PassInput.shardInput
  rw [h.providers, hkv]
  by_cases h0 : n = 0
  · simp only [if_pos h0]
  · simp only [if_neg h0, h.hidden h0 hn]

/-- A shard of a pass executes. -/
theorem Passing.runShard (hfits : Hereditary fits) (hn : n < spec.shardCount) (msg : String) :
    Logged World.trace fits (Passing spec env p back w₀ n)
      (SSDConfig.runShard spec env p.phase p.clIdx p.ctx p.mask p.positions msg n)
      (fun _ => Executed spec env p back w₀ n) := by
  refine Logged.bind hfits (R := fun _ => Passing spec env p back w₀ n)
    (Logged.when (fun _ => Logged.throw _) fun _ _ h => h) fun _ => ?_
  intro w a w' hrun
  rw [get_bind] at hrun
  unfold execGraph at hrun
  dsimp only at hrun
  cases hexec : env.exec w.tick (spec.graphIndex p.phase n p.clIdx)
      (SSDConfig.execInput spec env n p.phase p.clIdx p.ctx p.mask p.positions w) with
  | none =>
    rw [hexec] at hrun
    cases hrun
  | some out =>
    rw [hexec] at hrun
    cases hrun
    refine ⟨[_], rfl, fun _ h => ?_⟩
    rw [h.execInput hn, h.tick] at hexec
    refine ⟨IsPass.store h.pass hexec, fun t => ?_, congrArg (· + 1) h.tick, h.providers, h.active,
      h.nPast, h.sampler⟩
    show w.kv t = _
    rw [h.kv t]
    by_cases ht : t.shard < n
    · dsimp only
      rw [Function.update_of_ne (graphIndex_ne (by omega))]
    · simp only [ht, false_and, and_false, if_false]

/-- The shard hands its hidden state over, after the write-back that the pass calls for. -/
theorem Executed.handOver (h : Executed spec env p back w₀ n w)
    (hkv : ∀ t, w'.kv t =
      if back = true ∧ t.shard < n + 1 ∧ spec.hasTensor t = true then
        copyKV spec t (w₀.kv t) ((w.outs (spec.graphIndex p.phase t.shard p.clIdx)).kvOut t)
          (spec.seqLen p.phase) 0 (spec.kvLen p.phase p.clIdx) p.ctx.nPast p.ctx.currLen
      else w₀.kv t)
    (hsame : w' = { w with kv := w'.kv, trace := w'.trace }) :
    Passing spec env p back w₀ (n + 1)
      (if n + 1 < spec.shardCount then applyConnection spec p.phase n p.clIdx w' else w') := by
  have houts : w'.outs = w.outs := by rw [hsame]
  have hfields : Passing spec env p back w₀ (n + 1) (applyConnection spec p.phase n p.clIdx w') := by
    refine ⟨?_, fun _ hn => ?_, fun t => ?_, ?_, ?_, ?_, ?_, ?_⟩
    · show p.IsPass spec env w₀ w'.outs (n + 1)
      rw [houts]
      exact h.pass
    · exact Function.update_self _ _ _
    · refine (hkv t).trans ?_
      rw [← houts]
      rfl
    all_goals
      unfold applyConnection
      rw [hsame]
    · exact h.tick
    · exact h.providers
    · exact h.active
    · exact h.nPast
    · exact h.sampler
  split_ifs with hn
  · exact hfields
  · exact ⟨hfields.pass, fun _ h => absurd h hn, hfields.kv, hfields.tick, hfields.providers,
      hfields.active, hfields.nPast, hfields.sampler⟩

theorem updateKV_suffix (s : ℕ) (phase : Phase) (off k : ℕ) (w : World Int32 ρ I) :
    w.trace <:+ (updateKV spec s phase off k w).trace := by
  obtain ⟨es, hes, -⟩ := updateKV_trace spec s phase off k w
  exact hes ▸ List.suffix_append es _

/-- A shard of a prefill chunk. -/
theorem Passing.prefillShard (hfits : Hereditary fits) (ctx : RunContext Int32) (mask : ℕ → ℤ)
    (positions : List Int32) (a : ℕ) (hn : n < spec.shardCount) :
    Logged World.trace fits (Passing spec env ⟨.prefill, a, ctx, mask, positions⟩ true w₀ n)
      (SSDConfig.prefillShard spec env a ctx mask positions n)
      (fun _ => Passing spec env ⟨.prefill, a, ctx, mask, positions⟩ true w₀ (n + 1)) := by
  set p : PassInput := ⟨.prefill, a, ctx, mask, positions⟩ with hp
  refine Logged.bind hfits (Passing.runShard (p := p) hfits hn _) fun _ => ?_
  refine Logged.bind (R := fun _ w => Passing spec env p true w₀ (n + 1)
      (if n + 1 < spec.shardCount then applyConnection spec p.phase n p.clIdx w else w)) hfits
    (Logged.modify (fun w => updateKV_suffix _ _ _ _ w) fun w h => ?_) fun _ => ?_
  · refine h.handOver (fun t => ?_) (updateKV_frame _ _ _ _ w)
    -- the shards before it have written back already
    have hkv : (updateKV spec n p.phase ctx.nPast ctx.currLen w).kv t = _ :=
      updateKV_kv _ _ _ _ _ _
    rw [h.active] at hkv
    refine hkv.trans ?_
    by_cases hs : t.shard = n ∧ spec.hasTensor t = true
    · have hold : w.kv t = w₀.kv t := (h.kv t).trans (if_neg (by omega))
      rw [if_pos hs, if_pos ⟨rfl, by omega, hs.2⟩, hs.1, hold]
    · rw [if_neg hs, h.kv t]
      by_cases ht : spec.hasTensor t = true
      · have hne : t.shard < n ↔ t.shard < n + 1 := by
          have : t.shard ≠ n := fun heq => hs ⟨heq, ht⟩
          omega
        simp only [hne]
      · simp only [ht, Bool.false_eq_true, and_false, if_false]
  · exact Logged.when (fun hc => Logged.modify (fun _ => List.suffix_rfl) fun w h => by
      rwa [if_pos hc] at h) fun hc w h => by rwa [if_neg hc] at h

/-- A shard of a tree pass. -/
theorem Passing.treeShard (hfits : Hereditary fits) (ctx : RunContext Int32) (mask : ℕ → ℤ)
    (positions : List Int32) (a : ℕ) (hn : n < spec.shardCount) :
    Logged World.trace fits (Passing spec env ⟨.decode, a, ctx, mask, positions⟩ false w₀ n)
      (SSDConfig.treeShard spec env a ctx mask positions n)
      (fun _ => Passing spec env ⟨.decode, a, ctx, mask, positions⟩ false w₀ (n + 1)) := by
  set p : PassInput := ⟨.decode, a, ctx, mask, positions⟩ with hp
  refine Logged.bind hfits (Passing.runShard (p := p) hfits hn _) fun _ => ?_
  have hnext : ∀ w, Executed spec env p false w₀ n w → Passing spec env p false w₀ (n + 1)
      (if n + 1 < spec.shardCount then applyConnection spec p.phase n p.clIdx w else w) := by
    intro w h
    refine h.handOver (fun t => (h.kv t).trans ?_) rfl
    simp
  exact Logged.when (fun hc => Logged.modify (fun _ => List.suffix_rfl) fun w h => by
    have := hnext w h
    rwa [if_pos hc] at this) fun hc w h => by
    have := hnext w h
    rwa [if_neg hc] at this

end Shards

/-! ## What a pass leaves -/

section Columns

variable {next : List (Int32 × Int32) → Int32} {holds : ℕ → Column → Int32 × Int32 → Prop}

/-- The KV columns from `first` on stand for the given pairs, in every shard. -/
def HoldsPairs (spec : LLMSpec) (holds : ℕ → Column → Int32 × Int32 → Prop) (len first : ℕ)
    (pairs : List (Int32 × Int32)) (kv : KVMem) : Prop :=
  ∀ s < spec.shardCount, ∀ j q, pairs[j]? = some q →
    holds s (columnOf spec len s (first + j) kv) q

/-- Two columns of the same bytes. -/
theorem columnOf_eq {len len' s c c' : ℕ} {kv kv' : KVMem}
    (h : ∀ t, t.shard = s → spec.hasTensor t = true → ∀ r < spec.rows t, ∀ b < spec.tokenSize t,
      kv t (cell len (spec.tokenSize t) r c b) = kv' t (cell len' (spec.tokenSize t) r c' b)) :
    columnOf spec len s c kv = columnOf spec len' s c' kv' := by
  funext t r b
  unfold columnOf
  split_ifs with ht
  · exact h t ht.1 ht.2.1 r ht.2.2.1 b ht.2.2.2
  · rfl

/-- A write-back replaces its own columns. -/
theorem columnOf_copyKV {len outLen n k s c : ℕ} {kv kv' : KVMem} {out : GraphOut}
    (hkv : ∀ t, t.shard = s → spec.hasTensor t = true →
      kv' t = copyKV spec t (kv t) (out.kvOut t) outLen 0 len n k)
    (hfit : n + k ≤ len) (hc : c < len) :
    columnOf spec len s c kv' =
      if n ≤ c ∧ c < n + k then columnOf spec outLen s (c - n) out.kvOut
      else columnOf spec len s c kv := by
  split_ifs with hin <;> refine columnOf_eq fun t hs ht r hr b hb => ?_ <;>
    rw [hkv t hs ht] <;> unfold copyKV <;> rw [copyRows_cell hfit hr hc hb]
  · rw [if_pos hin, Nat.zero_add]
  · rw [if_neg hin]

/-- What an oracle says of a row that sees the columns of `pairs`. -/
theorem Oracle.row (o : Oracle spec env next holds) {p : PassInput} {w : World Int32 ρ I}
    {outs : ℕ → GraphOut} (hcl : p.clIdx < spec.numCl) (hpass : p.IsPass spec env w outs spec.shardCount)
    (hlen : p.ctx.tokenIds.length ≤ spec.seqLen p.phase) {i first : ℕ}
    (hi : i < p.ctx.tokenIds.length) {pairs : List (Int32 × Int32)}
    (hpast : p.past spec i = List.range' first pairs.length)
    (hpairs : HoldsPairs spec holds (spec.kvLen p.phase p.clIdx) first pairs w.kv) :
    (∀ s < spec.shardCount, holds s (columnOf spec (spec.seqLen p.phase) s i
        (outs (spec.graphIndex p.phase s p.clIdx)).kvOut) (p.pair i)) ∧
      rowAnswer spec (outs (spec.graphIndex p.phase (spec.shardCount - 1) p.clIdx)) i =
        next (pairs ++ (p.block spec i).map p.pair) := by
  have hseen : (p.past spec i).map (fun c => pairs.getD (c - first) (0, 0)) = pairs := by
    rw [hpast, List.range'_eq_map_range, List.map_map]
    refine List.ext_getElem (by simp) fun j h1 h2 => ?_
    simp [h2]
  rw [← hseen]
  refine o.pass p w outs hcl hpass hlen i hi _ fun s hs c hc => ?_
  rw [hpast, List.mem_range'_1] at hc
  have hget : pairs[c - first]? = some (pairs.getD (c - first) (0, 0)) := by
    rw [List.getD_eq_getElem _ _ (by omega), List.getElem?_eq_getElem (by omega)]
  have := hpairs s hs _ _ hget
  rwa [Nat.add_sub_cancel' hc.1] at this

end Columns

end Geniex
