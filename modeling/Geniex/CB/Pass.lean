import Geniex.CB.Columns

/-!
# A pass over the rows of several sessions

* `CausalOracle`: graphs that answer a row by the (token, position) pairs that its mask makes
  visible. A column stands for its pair and the pairs that its own row saw.
* `batchShards_passing`: what the loop over the shards leaves, at both of its exits.
* `Passing.column_new`, `Passing.column_old`: the columns after the pass.
-/

namespace Geniex.CB

open FlatMem KVCacheManager Scheduler Prog

variable {I : Type}

/-- A token and its position. -/
abbrev Pair : Type := Int32 × Int32

/-- The token of row `i` of a step and its position. -/
def StepContext.pair (ctx : StepContext) (i : ℕ) : Pair :=
  (ctx.concatTokens.getD i 0, (getPositionIds ctx.kvSegs ctx.inSegs ctx.seqLen).1.getD i 0)

/-- The past columns that row `i` sees. -/
def StepContext.past (ctx : StepContext) (i : ℕ) : List ℕ :=
  SSDConfig.visiblePast ctx.mask ctx.seqLen ctx.kvLen i

/-- The rows of the pass that row `i` sees. -/
def StepContext.block (ctx : StepContext) (i : ℕ) : List ℕ :=
  SSDConfig.visibleBlock ctx.mask ctx.seqLen ctx.kvLen i

/-- The first `n` shards have executed from the buffer `kv` on, each on the hidden state of the one
before it. -/
def IsBatchPass (spec : LLMSpec) (env : BatchEnv I) (clIdx : ℕ) (ctx : StepContext) (kv : KVMem)
    (tick : ℕ) (outs : ℕ → GraphOut) (n : ℕ) : Prop :=
  ∀ s < n, env.exec (tick + s) (spec.graphIndex .prefill s clIdx)
    (batchInput spec env clIdx ctx s (outs (spec.graphIndex .prefill (s - 1) clIdx)).hidden kv) =
      some (outs (spec.graphIndex .prefill s clIdx))

/-- The graphs answer a row by what it sees, when the rows that it sees see the same before them:
`next` of the pairs. `holds` says what a KV column stands for. -/
structure CausalOracle (spec : LLMSpec) (env : BatchEnv I) (next : List Pair → Int32)
    (holds : ℕ → Column → List Pair → Prop) : Prop where
  pass : ∀ (clIdx : ℕ) (ctx : StepContext) (kv : KVMem) (tick : ℕ) (outs : ℕ → GraphOut),
    clIdx < spec.numCl → ctx.seqLen = spec.seqLenPrefill → ctx.kvLen = spec.kvLen .prefill clIdx →
    IsBatchPass spec env clIdx ctx kv tick outs spec.shardCount →
    ∀ row < spec.seqLenPrefill, (ctx.block row).getLast? = some row →
    (∀ j (hj : j < (ctx.block row).length),
      ctx.past (ctx.block row)[j] = ctx.past row ∧
        ctx.block (ctx.block row)[j] = (ctx.block row).take (j + 1)) →
    ∀ seen : List Pair, seen.length = (ctx.past row).length →
    (∀ k (hk : k < (ctx.past row).length), ∀ s < spec.shardCount,
      holds s (columnsAt spec (spec.kvLen .prefill clIdx) kv (ctx.past row)[k] s)
        (seen.take (k + 1))) →
      (∀ s < spec.shardCount,
        holds s (columnOf spec spec.seqLenPrefill s row
          (outs (spec.graphIndex .prefill s clIdx)).kvOut) (seen ++ (ctx.block row).map ctx.pair)) ∧
        rowAnswer spec (outs (spec.graphIndex .prefill (spec.shardCount - 1) clIdx)) row =
          next (seen ++ (ctx.block row).map ctx.pair)

variable {spec : LLMSpec} {env : BatchEnv I}

/-! ## The loop over the shards -/

/-- The first `n` shards of a pass from `σ₀` on have executed and copied their columns. -/
structure Passing (spec : LLMSpec) (env : BatchEnv I) (ctx : StepContext) (σ₀ : BatchState) (n : ℕ)
    (σ : BatchState) : Prop where
  pass : IsBatchPass spec env σ₀.activeClIdx ctx σ₀.kv σ₀.tick σ.outs n
  hidden : n ≠ 0 → n < spec.shardCount →
    σ.hiddenIn (spec.graphIndex .prefill n σ₀.activeClIdx) =
      (σ.outs (spec.graphIndex .prefill (n - 1) σ₀.activeClIdx)).hidden
  kv : ∀ t, σ.kv t =
    if t.shard < n then
      copyNewKV spec t.shard σ₀.activeClIdx ctx.parts
        (σ.outs (spec.graphIndex .prefill t.shard σ₀.activeClIdx)) σ₀.kv t
    else σ₀.kv t
  active : σ.activeClIdx = σ₀.activeClIdx
  sessions : σ.sessions = σ₀.sessions
  segs : σ.segs = σ₀.segs
  streamed : σ.streamed = σ₀.streamed
  tick : σ.tick = σ₀.tick + n

variable {ctx : StepContext} {σ₀ σ σ' : BatchState} {n : ℕ}

theorem Passing.start : Passing spec env ctx σ₀ 0 σ₀ where
  pass := fun _ hs => absurd hs (Nat.not_lt_zero _)
  hidden := fun h => absurd rfl h
  kv := fun _ => (if_neg (Nat.not_lt_zero _)).symm
  active := rfl
  sessions := rfl
  segs := rfl
  streamed := rfl
  tick := rfl

/-- A shard reads the buffer as it was before the pass: the earlier shards wrote their own
tensors. -/
theorem Passing.input (h : Passing spec env ctx σ₀ n σ) (hn : n < spec.shardCount) :
    batchInput spec env σ.activeClIdx ctx n
        (σ.hiddenIn (spec.graphIndex .prefill n σ.activeClIdx)) σ.kv =
      batchInput spec env σ₀.activeClIdx ctx n
        (σ.outs (spec.graphIndex .prefill (n - 1) σ₀.activeClIdx)).hidden σ₀.kv := by
  have hkv : kvView spec .prefill n σ₀.activeClIdx σ.kv =
      kvView spec .prefill n σ₀.activeClIdx σ₀.kv := by
    funext t i
    unfold kvView
    split_ifs with ht
    · rw [h.kv t, if_neg (by omega)]
    · rfl
  unfold batchInput
  rw [h.active, hkv]
  by_cases h0 : n = 0
  · simp [h0]
  · rw [h.hidden h0 hn]

theorem Passing.shard (h : Passing spec env ctx σ₀ n σ) (hn : n < spec.shardCount) {out : GraphOut}
    (hexec : env.exec σ.tick (spec.graphIndex .prefill n σ.activeClIdx)
      (batchInput spec env σ.activeClIdx ctx n
        (σ.hiddenIn (spec.graphIndex .prefill n σ.activeClIdx)) σ.kv) = some out) :
    Passing spec env ctx σ₀ (n + 1) { σ with
      tick := σ.tick + 1
      outs := Function.update σ.outs (spec.graphIndex .prefill n σ.activeClIdx) out
      kv := copyNewKV spec n σ.activeClIdx ctx.parts out σ.kv
      hiddenIn :=
        if n + 1 < spec.shardCount then
          Function.update σ.hiddenIn (spec.graphIndex .prefill (n + 1) σ.activeClIdx) out.hidden
        else σ.hiddenIn } := by
  have hkeep : ∀ s, s ≠ n →
      Function.update σ.outs (spec.graphIndex .prefill n σ₀.activeClIdx) out
        (spec.graphIndex .prefill s σ₀.activeClIdx) =
      σ.outs (spec.graphIndex .prefill s σ₀.activeClIdx) :=
    fun s hs => Function.update_of_ne (graphIndex_ne hs) _ _
  rw [h.input hn, h.active, h.tick] at hexec
  refine ⟨fun s hs => ?_, fun _ hlt => ?_, fun t => ?_, h.active, h.sessions, h.segs, h.streamed,
    congrArg (· + 1) h.tick⟩
  · dsimp only
    rw [h.active]
    rcases Nat.lt_succ_iff_lt_or_eq.mp hs with hlt | rfl
    · rw [hkeep s (by omega), hkeep (s - 1) (by omega)]
      exact h.pass s hlt
    · rw [Function.update_self]
      by_cases h0 : s = 0
      · subst h0
        exact hexec
      · rw [hkeep (s - 1) (by omega)]
        exact hexec
  · dsimp only
    rw [if_pos hlt, h.active, Function.update_self, Nat.add_sub_cancel, Function.update_self]
  · dsimp only
    rw [h.active]
    by_cases hs : t.shard = n
    · subst hs
      have hkv : σ.kv t = σ₀.kv t := by rw [h.kv t, if_neg (lt_irrefl _)]
      rw [if_pos (Nat.lt_succ_self _), Function.update_self]
      unfold copyNewKV
      rw [hkv]
    · have hother : copyNewKV spec n σ₀.activeClIdx ctx.parts out σ.kv t = σ.kv t :=
        if_neg fun hc => hs hc.1
      rw [hother, h.kv t, hkeep t.shard hs]
      exact if_congr (by omega) rfl rfl

/-- The loop over the shards, at its exits: all shards have executed, or those before the one that
failed. -/
theorem batchShards_passing :
    Triple (fun σ => σ = σ₀) (forRange spec.shardCount (batchShard spec env ctx))
      (fun _ σ => Passing spec env ctx σ₀ spec.shardCount σ)
      (fun _ σ => ∃ n σ', n < spec.shardCount ∧ Passing spec env ctx σ₀ n σ' ∧
        σ = { σ' with tick := σ'.tick + 1 }) := by
  apply Triple.pre (Triple.forRange (I := Passing spec env ctx σ₀) ?_)
  · rintro _ rfl
    exact Passing.start
  · intro n hn σ h
    unfold batchShard
    cases hexec : env.exec σ.tick (spec.graphIndex .prefill n σ.activeClIdx)
        (batchInput spec env σ.activeClIdx ctx n
          (σ.hiddenIn (spec.graphIndex .prefill n σ.activeClIdx)) σ.kv) with
    | none =>
      simp only [hexec]
      exact ⟨n, σ, hn, h, rfl⟩
    | some out =>
      simp only [hexec]
      exact h.shard hn hexec

/-! ## The columns after a pass -/

theorem Passing.column_new (h : Passing spec env ctx σ₀ n σ)
    (hrooms : Rooms (spec.kvLen .prefill σ₀.activeClIdx) ctx.parts) {p : Part} (hp : p ∈ ctx.parts)
    {j s : ℕ} (hj : j < p.2.2) (hs : s < n) :
    columnsAt spec (spec.kvLen .prefill σ₀.activeClIdx) σ.kv (p.1.fin + j) s =
      columnOf spec spec.seqLenPrefill s (p.2.1 + j)
        (σ.outs (spec.graphIndex .prefill s σ₀.activeClIdx)).kvOut := by
  rw [← copyNewKV_in s _ σ₀.kv hrooms hp hj]
  apply columnOf_eq
  rintro t rfl - r - b -
  rw [h.kv t, if_pos hs]

theorem Passing.column_old (h : Passing spec env ctx σ₀ n σ)
    (hrooms : Rooms (spec.kvLen .prefill σ₀.activeClIdx) ctx.parts) {c : ℕ}
    (hc : c < spec.kvLen .prefill σ₀.activeClIdx)
    (hout : ∀ p ∈ ctx.parts, c < p.1.fin ∨ p.1.fin + p.2.2 ≤ c) :
    columnsAt spec (spec.kvLen .prefill σ₀.activeClIdx) σ.kv c =
      columnsAt spec (spec.kvLen .prefill σ₀.activeClIdx) σ₀.kv c := by
  funext s
  by_cases hs : s < n
  · refine Eq.trans ?_ (copyNewKV_out s (σ.outs (spec.graphIndex .prefill s σ₀.activeClIdx)) σ₀.kv
      hrooms hc hout s)
    apply columnOf_eq
    rintro t rfl - r - b -
    rw [h.kv t, if_pos hs]
  · apply columnOf_eq
    rintro t rfl - r - b -
    rw [h.kv t, if_neg hs]

/-! ## A small instance -/

/-- The byte that a token leaves in its KV column. -/
def tokenByte (tok : Int32) : UInt8 := tok.toUInt32.toUInt8

/-- The key tensor of the small model. -/
def tinyKey : KVTensor := ⟨0, 0, true⟩

/-- What row `i` of the small model adds up: the bytes of the columns and of the rows it sees. -/
def seenBytes (x : ExecIn (List Int32)) (i : ℕ) : List ℕ :=
  (SSDConfig.visiblePast (x.mask.getD fun _ => 0) 4 12 i).map (fun c => (x.kv tinyKey c).toNat) ++
    (SSDConfig.visibleBlock (x.mask.getD fun _ => 0) 4 12 i).map
      fun j => (tokenByte (x.inputs.getD j 0)).toNat

/-- A graph whose columns hold the bytes of the tokens, and whose answer to a row is the sum of the
bytes that the row sees, modulo the vocabulary. -/
def sumEnv : BatchEnv (List Int32) where
  exec _ _ x := some
    ⟨fun _ i => tokenByte (x.inputs.getD (i % 4) 0), fun _ => 0,
      fun i => if i % 3 = (seenBytes x (i / 3)).sum % 3 then 1 else 0⟩
  write _ ctx := ctx.concatTokens

/-- The answer of the small model to a text. -/
def sumAnswer (pairs : List Pair) : Int32 :=
  Int32.ofNat ((pairs.map fun p => (tokenByte p.1).toNat).sum % 3)

/-- A column of the small model holds the byte of the last token of its history. -/
def holdsLast (_ : ℕ) (col : Column) (hist : List Pair) : Prop :=
  ∀ p, hist.getLast? = some p → col tinyKey 0 0 = tokenByte p.1

theorem rowAnswer_oneHot {out : GraphOut} {f : ℕ → ℕ} {i : ℕ} (hi : i < 4)
    (h : out.logits = fun i => if i % 3 = f (i / 3) % 3 then 1 else 0) :
    rowAnswer sixteenColumns out i = Int32.ofNat (f i % 3) := by
  have hlogits : ∀ v ∈ List.range 3, out.logits ((i * 3) % 2 ^ 64 + v) =
      if v = f i % 3 then 1 else 0 := by
    intro v hv
    have hv3 := List.mem_range.mp hv
    have hoff : (i * 3) % 2 ^ 64 = i * 3 := Nat.mod_eq_of_lt (by omega)
    rw [hoff, h]
    dsimp only
    rw [show (i * 3 + v) % 3 = v by omega, show (i * 3 + v) / 3 = i by omega]
  show Int32.ofNat (argmax ((List.range 3).map fun v => out.logits ((i * 3) % 2 ^ 64 + v))) = _
  rw [List.map_congr_left hlogits]
  have hmod := Nat.mod_lt (f i) (show 0 < 3 by decide)
  generalize f i % 3 = v at hmod ⊢
  interval_cases v <;> decide

theorem kvView_tinyKey (kv : KVMem) {c : ℕ} (hc : c < 12) :
    kvView (tinySpec [16] 4 4) .prefill 0 0 kv tinyKey c =
      columnsAt (tinySpec [16] 4 4) 12 kv c 0 tinyKey 0 0 := by
  unfold kvView columnsAt columnOf
  rw [if_pos ⟨rfl, rfl, show c < 24 by omega⟩,
    if_pos ⟨rfl, rfl, show 0 < 2 by decide, show 0 < 1 by decide⟩]
  show _ = kv tinyKey ((0 * 12 + c) * 1 + 0)
  rw [show (0 * 12 + c) * 1 + 0 = c by omega]

/-- The small model answers by what its rows see. -/
theorem sumEnv_oracle : CausalOracle (tinySpec [16] 4 4) sumEnv sumAnswer holdsLast := by
  refine ⟨fun clIdx ctx kv tick outs hcl hseq hkv hpass row hrow hlast _ seen hlen hholds => ?_⟩
  obtain rfl : clIdx = 0 := Nat.lt_one_iff.mp hcl
  have hrow' : row < 4 := hrow
  have hout := (Option.some.inj (hpass 0 Nat.zero_lt_one)).symm
  have hmask : ∀ hidden, ((batchInput (tinySpec [16] 4 4) sumEnv 0 ctx 0 hidden kv).mask.getD
      fun _ => 0) = ctx.mask := fun _ => rfl
  set x := batchInput (tinySpec [16] 4 4) sumEnv 0 ctx 0
    (outs ((tinySpec [16] 4 4).graphIndex .prefill (0 - 1) 0)).hidden kv with hx
  -- the columns that the row sees hold the bytes of `seen`
  have hpast : (ctx.past row).map (fun c => (x.kv tinyKey c).toNat) =
      seen.map fun p => (tokenByte p.1).toNat := by
    apply List.ext_getElem
    · rw [List.length_map, List.length_map, hlen]
    · intro k hk hk'
      rw [List.length_map] at hk hk'
      have hcol := hholds k hk 0 Nat.zero_lt_one seen[k] (by
        rw [List.take_add_one, List.getElem?_eq_getElem hk', List.getLast?_append]
        rfl)
      have hc : (ctx.past row)[k] < ctx.kvLen :=
        List.mem_range.mp (List.mem_filter.mp (List.getElem_mem hk)).1
      have hc12 : (ctx.past row)[k] < 12 := hc.trans_eq hkv
      rw [List.getElem_map, List.getElem_map, ← hcol]
      exact congrArg UInt8.toNat (kvView_tinyKey kv hc12)
  have hblock : (ctx.block row).map (fun j => (tokenByte (x.inputs.getD j 0)).toNat) =
      ((ctx.block row).map ctx.pair).map fun p => (tokenByte p.1).toNat := by
    rw [List.map_map]
    rfl
  have hseen : (seenBytes x row).sum % 3 =
      ((seen ++ (ctx.block row).map ctx.pair).map fun p => (tokenByte p.1).toNat).sum % 3 := by
    have hp : SSDConfig.visiblePast ctx.mask 4 12 row = ctx.past row := by
      unfold StepContext.past
      rw [hseq, hkv]
      rfl
    have hb : SSDConfig.visibleBlock ctx.mask 4 12 row = ctx.block row := by
      unfold StepContext.block
      rw [hseq, hkv]
      rfl
    unfold seenBytes
    rw [hmask, hp, hb, hpast, hblock, List.map_append]
  refine ⟨?_, ?_⟩
  · intro s hs p hp
    obtain rfl : s = 0 := Nat.lt_one_iff.mp hs
    rw [List.getLast?_append, List.getLast?_map, hlast] at hp
    obtain rfl : ctx.pair row = p := by simpa using hp
    rw [hout]
    show columnOf (tinySpec [16] 4 4) 4 0 row _ tinyKey 0 0 = _
    unfold columnOf
    rw [if_pos ⟨rfl, rfl, show 0 < 2 by decide, show 0 < 1 by decide⟩]
    show tokenByte (ctx.concatTokens.getD (((0 * 4 + row) * 1 + 0) % 4) 0) = _
    rw [show ((0 * 4 + row) * 1 + 0) % 4 = row by omega]
    rfl
  · unfold sumAnswer
    rw [← hseen]
    exact rowAnswer_oneHot (f := fun i => (seenBytes x i).sum) hrow' (congrArg GraphOut.logits hout)

/-- A new model and scheduler, over a buffer of zeros. -/
def tinyBatch : BatchState where
  sessions := []
  segs := []
  kv := fun _ _ => 0
  activeClIdx := 0
  outs := fun _ => ⟨fun _ _ => 0, fun _ => 0, fun _ => 0⟩
  hiddenIn := fun _ _ => 0
  tick := 0
  streamed := []

end Geniex.CB
