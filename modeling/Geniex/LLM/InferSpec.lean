import Geniex.Lib.WriteOnce
import Geniex.LLM.Initialize
import Geniex.LLM.KVPairs

/-!
# Inference of the specification

`inferSpecFromGraphs` reads the sizes of a model and the roles of its tensors off the sorted graphs,
one representative graph for each shard.

* `infer_ok_iff`: when the inference succeeds, and what it returns.
-/

namespace Geniex

open WriteOnce

/-! ## Tensors by role -/

/-- `TensorSpec`, as far as the inference reads it. -/
structure TensorSpec where
  name : List Char
  dtype : DataType
  shape : List ℕ
  deriving DecidableEq

/-- The tensors of a `Graph`. -/
structure GraphSpecs where
  name : List Char
  inputSpecs : List TensorSpec
  outputSpecs : List TensorSpec
  deriving DecidableEq

def GraphSpecs.names (g : GraphSpecs) : GraphNames where
  name := g.name
  inputs := g.inputSpecs.map TensorSpec.name
  outputs := g.outputSpecs.map TensorSpec.name

/-- `isIntegerDtype` -/
def isIntegerDtype : DataType → Bool
  | .int8 | .int16 | .int32 | .int64 | .uint8 | .uint16 | .uint32 | .uint64 | .bool8 => true
  | _ => false

/-- `isKVTensor` -/
def isKVTensor (s : List Char) : Bool :=
  let hasInoutSuffix := "_in".toList.isSuffixOf s || "_out".toList.isSuffixOf s
  hasInoutSuffix && (decide ("key".toList <:+: s) || decide ("value".toList <:+: s))

/-- `kNamed` -/
def namedSpecials : List (List Char) :=
  ["attention_mask".toList, "position_ids".toList, "position_ids_cos".toList,
    "position_ids_sin".toList]

/-- `isSpecialTensor` -/
def isSpecialTensor (name : List Char) : Bool := namedSpecials.contains name || isKVTensor name

/-- `"logits"` -/
def logitsName : List Char := "logits".toList

/-! ## Inference -/

/-- What the inference writes into `spec_`, but for the shards. -/
structure SpecSizes where
  hiddenSize : ℕ := 0
  numKvHeads : ℕ := 0
  headDim : ℕ := 0
  vocabSize : ℕ := 0
  deriving DecidableEq

/-- `ShardSpec`, and `shard_pairs` of the shard in each state block. -/
structure InferredShard where
  inStateName : List Char
  outStateName : List Char
  lmHeadOnly : Bool
  pairs : List (List KVPairNames)
  deriving DecidableEq

/-- `spec_` after the inference. -/
structure InferredSpec where
  sizes : SpecSizes
  shards : List InferredShard
  deriving DecidableEq

/-- What `inferSpecFromGraphs` and `createInputProviders` throw. -/
inductive InferError
  | runtime (message : List Char)
  | outOfRange
  | discovery (e : DiscoveryError)
  deriving DecidableEq

/-- `hiddenDimOf` -/
def hiddenDimOf (t : TensorSpec) : ℕ :=
  if t.name = logitsName ∨ t.shape.length < 2 then 0
  else if isIntegerDtype t.dtype then 0
  else t.shape.getLastD 0

/-- A shape `[num_kv_heads, 1, head_dim, kv_len]`, by the name of the tensor. -/
def isPastKey (t : TensorSpec) : Bool :=
  "past_key_".toList.isPrefixOf t.name && decide (3 ≤ t.shape.length)

/-- The body of the loop over the inputs: `in_name` and the sizes. -/
def inferInput (acc : List Char × SpecSizes) (t : TensorSpec) : List Char × SpecSizes :=
  (if acc.1 = [] ∧ isSpecialTensor t.name = false then t.name else acc.1,
    { acc.2 with
      hiddenSize :=
        if acc.2.hiddenSize = 0 ∧ isSpecialTensor t.name = false then hiddenDimOf t
        else acc.2.hiddenSize
      numKvHeads :=
        if isPastKey t ∧ acc.2.numKvHeads = 0 then t.shape.getD 0 0 else acc.2.numKvHeads
      headDim := if isPastKey t ∧ acc.2.headDim = 0 then t.shape.getD 2 0 else acc.2.headDim })

/-- The body of the loop over the outputs: `out_name` and the sizes. -/
def inferOutput (acc : List Char × SpecSizes) (t : TensorSpec) : List Char × SpecSizes :=
  (if acc.1 = [] ∧ isSpecialTensor t.name = false then t.name else acc.1,
    { acc.2 with
      hiddenSize :=
        if acc.2.hiddenSize = 0 ∧ isSpecialTensor t.name = false then hiddenDimOf t
        else acc.2.hiddenSize
      vocabSize :=
        if t.name = logitsName ∧ acc.2.vocabSize = 0 then t.shape.getLastD 0
        else acc.2.vocabSize })

/-- `throw` for a shard without a state tensor. -/
def noStateTensorMsg (s : ℕ) (g : GraphSpecs) : List Char :=
  "inferSpecFromGraphs: shard ".toList ++ Nat.toDigits 10 (s + 1) ++ " (graph '".toList ++ g.name ++
    "') has no non-special input/output tensor".toList

/-- `discoverKVPairs` for every state block. -/
def discoverBlocks (blocks : List StateBlockSpec) (g : GraphSpecs) :
    Except InferError (List (List KVPairNames)) :=
  match blocks.mapM (discoverKVPairs g.names) with
  | .error e => .error (.discovery e)
  | .ok pairs => .ok pairs

/-- The body of the loop over the shards, on the representative graph of the shard. -/
def inferShard (blocks : List StateBlockSpec) (spec : InferredSpec) (s : ℕ) (g : GraphSpecs) :
    Except InferError InferredSpec :=
  let ins := g.inputSpecs.foldl inferInput ([], spec.sizes)
  let outs := g.outputSpecs.foldl inferOutput ([], ins.2)
  let hasKvOut := g.outputSpecs.any fun t => isKVTensor t.name
  if ins.1 = [] ∨ outs.1 = [] then .error (.runtime (noStateTensorMsg s g))
  else
    match discoverBlocks blocks g with
    | .error e => .error e
    | .ok pairs =>
      .ok ⟨outs.2, spec.shards ++
        [⟨ins.1, outs.1, !hasKvOut && decide (outs.1 = logitsName) && decide (0 < s), pairs⟩]⟩

/-- The loop over the shards. The representative graph is the prefill graph of the shard with the
smallest context length. -/
def inferShards (grid : GraphGrid) (blocks : List StateBlockSpec) (graphs : List GraphSpecs)
    (sizes : SpecSizes) : ℕ → Except InferError InferredSpec
  | 0 => .ok ⟨sizes, []⟩
  | s + 1 =>
    match inferShards grid blocks graphs sizes s with
    | .error e => .error e
    | .ok spec =>
      match graphs[grid.graphIndex .prefill s 0]? with
      | none => .error .outOfRange
      | some g => inferShard blocks spec s g

/-- `spec_.state_blocks`, which are not empty. -/
def stateBlocks : List StateBlockSpec → List StateBlockSpec
  | [] => [{}]
  | block :: blocks => block :: blocks

/-- `inferSpecFromGraphs`, from the state blocks and sizes that the specification has before. -/
def inferSpecFromGraphs (grid : GraphGrid) (blocks : List StateBlockSpec) (sizes : SpecSizes)
    (graphs : List GraphSpecs) : Except InferError InferredSpec :=
  if grid.shardCount = 0 ∨ grid.numCl = 0 then
    .error (.runtime "inferSpecFromGraphs: shard_count and num_cl must be non-zero".toList)
  else
    match inferShards grid (stateBlocks blocks) graphs sizes grid.shardCount with
    | .error e => .error e
    | .ok spec =>
      if spec.sizes.hiddenSize = 0 ∨ spec.sizes.vocabSize = 0 then
        .error (.runtime
          "inferSpecFromGraphs: could not determine hidden_size / vocab_size from graphs".toList)
      else .ok spec

/-! ## What is inferred -/

/-- The name of a tensor that can carry the state between shards. -/
def stateName (t : TensorSpec) : List Char := if isSpecialTensor t.name then [] else t.name

def stateDim (t : TensorSpec) : ℕ := if isSpecialTensor t.name then 0 else hiddenDimOf t

def pastKeyDim (i : ℕ) (t : TensorSpec) : ℕ := if isPastKey t then t.shape.getD i 0 else 0

def logitsDim (t : TensorSpec) : ℕ := if t.name = logitsName then t.shape.getLastD 0 else 0

/-- The first tensor that can carry the state, by name. -/
def firstState (tensors : List TensorSpec) : List Char := firstSet [] (tensors.map stateName)

/-- What a representative graph says about its shard. -/
def shardOf (blocks : List StateBlockSpec) (s : ℕ) (g : GraphSpecs) : InferredShard where
  inStateName := firstState g.inputSpecs
  outStateName := firstState g.outputSpecs
  lmHeadOnly := decide ((∀ t ∈ g.outputSpecs, isKVTensor t.name = false) ∧
    firstState g.outputSpecs = logitsName ∧ 0 < s)
  pairs := blocks.map fun block =>
    ((keyDigits block g.names.outputs).map number).map (kvPair block)

/-- The sizes that representative graphs say: each from the first tensor that has it, unless it was
set before. -/
def sizesOf (sizes : SpecSizes) (reps : List GraphSpecs) : SpecSizes where
  hiddenSize := firstSet 0
    (sizes.hiddenSize :: (reps.flatMap fun g => g.inputSpecs ++ g.outputSpecs).map stateDim)
  numKvHeads := firstSet 0
    (sizes.numKvHeads :: (reps.flatMap GraphSpecs.inputSpecs).map (pastKeyDim 0))
  headDim := firstSet 0
    (sizes.headDim :: (reps.flatMap GraphSpecs.inputSpecs).map (pastKeyDim 2))
  vocabSize := firstSet 0
    (sizes.vocabSize :: (reps.flatMap GraphSpecs.outputSpecs).map logitsDim)

/-- The graph of a shard is readable: it has a state input and a state output, and the KV tensors
of every block resolve. -/
structure Readable (blocks : List StateBlockSpec) (g : GraphSpecs) : Prop where
  input : firstState g.inputSpecs ≠ []
  output : firstState g.outputSpecs ≠ []
  pairs : ∀ block ∈ blocks, ¬ KVRejected g.names block

/-- The representative graphs of the shards, one after the other. -/
def Represent (grid : GraphGrid) (graphs reps : List GraphSpecs) : Prop :=
  (List.range grid.shardCount).map (fun s => graphs[grid.graphIndex .prefill s 0]?) =
    reps.map some

/-! ## The loops -/

theorem inferInput_eq (acc : List Char × SpecSizes) (t : TensorSpec) :
    inferInput acc t = (assign [] acc.1 (stateName t),
      { acc.2 with
        hiddenSize := assign 0 acc.2.hiddenSize (stateDim t)
        numKvHeads := assign 0 acc.2.numKvHeads (pastKeyDim 0 t)
        headDim := assign 0 acc.2.headDim (pastKeyDim 2 t) }) := by
  unfold inferInput assign stateName stateDim pastKeyDim
  cases isSpecialTensor t.name <;> cases isPastKey t <;> simp +contextual

theorem inferOutput_eq (acc : List Char × SpecSizes) (t : TensorSpec) :
    inferOutput acc t = (assign [] acc.1 (stateName t),
      { acc.2 with
        hiddenSize := assign 0 acc.2.hiddenSize (stateDim t)
        vocabSize := assign 0 acc.2.vocabSize (logitsDim t) }) := by
  unfold inferOutput assign stateName stateDim logitsDim
  cases isSpecialTensor t.name <;> by_cases ht : t.name = logitsName <;> simp +contextual [ht]

/-- The inputs of a graph. -/
theorem foldl_inferInput (l : List TensorSpec) (acc : List Char × SpecSizes) :
    l.foldl inferInput acc = (assign [] acc.1 (firstState l),
      { acc.2 with
        hiddenSize := assign 0 acc.2.hiddenSize (firstSet 0 (l.map stateDim))
        numKvHeads := assign 0 acc.2.numKvHeads (firstSet 0 (l.map (pastKeyDim 0)))
        headDim := assign 0 acc.2.headDim (firstSet 0 (l.map (pastKeyDim 2))) }) := by
  unfold firstState
  induction l generalizing acc with
  | nil => simp
  | cons t l ih =>
    rw [List.foldl_cons, ih, inferInput_eq]
    simp only [List.map_cons, firstSet_cons, assign_assoc]

/-- The outputs of a graph. -/
theorem foldl_inferOutput (l : List TensorSpec) (acc : List Char × SpecSizes) :
    l.foldl inferOutput acc = (assign [] acc.1 (firstState l),
      { acc.2 with
        hiddenSize := assign 0 acc.2.hiddenSize (firstSet 0 (l.map stateDim))
        vocabSize := assign 0 acc.2.vocabSize (firstSet 0 (l.map logitsDim)) }) := by
  unfold firstState
  induction l generalizing acc with
  | nil => simp
  | cons t l ih =>
    rw [List.foldl_cons, ih, inferOutput_eq]
    simp only [List.map_cons, firstSet_cons, assign_assoc]

/-- One graph more. -/
theorem sizesOf_concat (sizes : SpecSizes) (reps : List GraphSpecs) (g : GraphSpecs) :
    (g.outputSpecs.foldl inferOutput
      ([], (g.inputSpecs.foldl inferInput ([], sizesOf sizes reps)).2)).2 =
      sizesOf sizes (reps ++ [g]) := by
  rw [foldl_inferOutput, foldl_inferInput]
  unfold sizesOf
  simp only [List.flatMap_append, List.flatMap_singleton, List.map_append, firstSet_cons,
    firstSet_append, assign_assoc]

theorem discoverBlocks_ok_iff {blocks : List StateBlockSpec} {g : GraphSpecs}
    {pairs : List (List KVPairNames)} : discoverBlocks blocks g = .ok pairs ↔
      (∀ block ∈ blocks, ¬ KVRejected g.names block) ∧ pairs = blocks.map fun block =>
        ((keyDigits block g.names.outputs).map number).map (kvPair block) := by
  rw [← mapM_ok_iff (discoverKVPairs_ok_iff g.names) blocks pairs]
  unfold discoverBlocks
  cases blocks.mapM (discoverKVPairs g.names) with
  | error e => exact ⟨fun h => (by cases h), fun h => (by cases h)⟩
  | ok r => rw [Except.ok.injEq, Except.ok.injEq]

/-- The graph of a shard is read exactly if it is readable. -/
theorem inferShard_ok_iff {blocks : List StateBlockSpec} {sizes : SpecSizes}
    {reps : List GraphSpecs} {shards : List InferredShard} {s : ℕ} {g : GraphSpecs}
    {r : InferredSpec} : inferShard blocks ⟨sizesOf sizes reps, shards⟩ s g = .ok r ↔
      Readable blocks g ∧
        r = ⟨sizesOf sizes (reps ++ [g]), shards ++ [shardOf blocks s g]⟩ := by
  have hin : (g.inputSpecs.foldl inferInput ([], sizesOf sizes reps)).1 =
      firstState g.inputSpecs := by
    rw [foldl_inferInput]
    rfl
  have hout : ∀ sz, (g.outputSpecs.foldl inferOutput ([], sz)).1 = firstState g.outputSpecs := by
    intro sz
    rw [foldl_inferOutput]
    rfl
  unfold inferShard
  simp only [sizesOf_concat, hin, hout]
  by_cases hnames : firstState g.inputSpecs = [] ∨ firstState g.outputSpecs = []
  · rw [if_pos hnames]
    refine ⟨fun h => (by cases h), fun h => ?_⟩
    exact absurd hnames (not_or.mpr ⟨h.1.input, h.1.output⟩)
  rw [if_neg hnames]
  obtain ⟨hi, ho⟩ := not_or.mp hnames
  have hhead : (!(g.outputSpecs.any fun t => isKVTensor t.name) &&
      decide (firstState g.outputSpecs = logitsName) && decide (0 < s)) =
      (shardOf blocks s g).lmHeadOnly := by
    unfold shardOf
    rw [Bool.eq_iff_iff]
    simp [and_assoc]
  rw [hhead]
  cases hd : discoverBlocks blocks g with
  | error e =>
    refine ⟨fun h => (by cases h), fun h => ?_⟩
    rw [discoverBlocks_ok_iff.mpr ⟨h.1.pairs, rfl⟩] at hd
    cases hd
  | ok pairs =>
    obtain ⟨hp, rfl⟩ := discoverBlocks_ok_iff.mp hd
    rw [Except.ok.injEq]
    exact ⟨fun h => ⟨⟨hi, ho, hp⟩, h.symm⟩, fun h => h.2.symm⟩

/-- The loop over the shards reads one representative graph for each. -/
theorem inferShards_ok_iff {grid : GraphGrid} {blocks : List StateBlockSpec}
    {graphs : List GraphSpecs} {sizes : SpecSizes} {n : ℕ} {r : InferredSpec} :
    inferShards grid blocks graphs sizes n = .ok r ↔ ∃ reps : List GraphSpecs,
      (List.range n).map (fun s => graphs[grid.graphIndex .prefill s 0]?) = reps.map some ∧
      (∀ g ∈ reps, Readable blocks g) ∧
      r = ⟨sizesOf sizes reps, reps.mapIdx (shardOf blocks)⟩ := by
  induction n generalizing r with
  | zero =>
    unfold inferShards
    rw [Except.ok.injEq]
    constructor
    · rintro rfl
      refine ⟨[], rfl, fun g hg => absurd hg List.not_mem_nil, ?_⟩
      simp [sizesOf]
    · rintro ⟨reps, hreps, -, rfl⟩
      rw [List.range_zero, List.map_nil, eq_comm, List.map_eq_nil_iff] at hreps
      simp [hreps, sizesOf]
  | succ n ih =>
    unfold inferShards
    rw [List.range_succ, List.map_append, List.map_singleton]
    constructor
    · intro h
      cases hn : inferShards grid blocks graphs sizes n with
      | error e => rw [hn] at h; cases h
      | ok spec =>
        obtain ⟨reps, hreps, hread, rfl⟩ := ih.mp hn
        rw [hn] at h
        dsimp only at h
        cases hg : graphs[grid.graphIndex .prefill n 0]? with
        | none => rw [hg] at h; cases h
        | some g =>
          rw [hg] at h
          obtain ⟨hgr, rfl⟩ := inferShard_ok_iff.mp h
          have hlen : reps.length = n := by simpa using (congrArg List.length hreps).symm
          refine ⟨reps ++ [g], by rw [hreps, List.map_append]; rfl, ?_, ?_⟩
          · intro g' hg'
            obtain hg' | hg' := List.mem_append.mp hg'
            · exact hread g' hg'
            · rwa [List.mem_singleton.mp hg']
          · rw [List.mapIdx_append]
            simp [hlen]
    · rintro ⟨reps', hreps, hread, rfl⟩
      obtain ⟨reps, g, rfl⟩ : ∃ reps g, reps' = reps ++ [g] := by
        refine List.eq_nil_or_concat' reps' |>.resolve_left fun h => ?_
        rw [h] at hreps
        simp at hreps
      rw [List.map_append, List.map_singleton] at hreps
      obtain ⟨hreps, hg⟩ := List.append_inj' hreps rfl
      have hlen : reps.length = n := by simpa using (congrArg List.length hreps).symm
      rw [ih.mpr ⟨reps, hreps, fun g' hg' => hread g' (List.mem_append_left _ hg'), rfl⟩]
      dsimp only
      rw [(List.cons.inj hg).1]
      refine inferShard_ok_iff.mpr ⟨hread g (List.mem_append_right _ List.mem_cons_self), ?_⟩
      rw [List.mapIdx_append]
      simp [hlen]

/-- The graphs describe a model: every shard has a readable representative graph, and together they
say the hidden size and the size of the vocabulary. -/
structure Describes (grid : GraphGrid) (blocks : List StateBlockSpec) (sizes : SpecSizes)
    (graphs reps : List GraphSpecs) : Prop where
  shards : 0 < grid.shardCount
  contextLengths : 0 < grid.numCl
  represent : Represent grid graphs reps
  readable : ∀ g ∈ reps, Readable (stateBlocks blocks) g
  hidden : (sizesOf sizes reps).hiddenSize ≠ 0
  vocab : (sizesOf sizes reps).vocabSize ≠ 0

theorem infer_describes {grid : GraphGrid} {blocks : List StateBlockSpec} {sizes : SpecSizes}
    {graphs : List GraphSpecs} {r : InferredSpec}
    (h : inferSpecFromGraphs grid blocks sizes graphs = .ok r) :
    ∃ reps, Describes grid blocks sizes graphs reps ∧
      r = ⟨sizesOf sizes reps, reps.mapIdx (shardOf (stateBlocks blocks))⟩ := by
  unfold inferSpecFromGraphs at h
  split_ifs at h with hz
  obtain ⟨hs, hc⟩ := not_or.mp hz
  cases hn : inferShards grid (stateBlocks blocks) graphs sizes grid.shardCount with
  | error e => rw [hn] at h; cases h
  | ok spec =>
    obtain ⟨reps, hreps, hread, rfl⟩ := inferShards_ok_iff.mp hn
    rw [hn] at h
    dsimp only at h
    split_ifs at h with hsize
    obtain ⟨hhid, hvoc⟩ := not_or.mp hsize
    exact ⟨reps, ⟨Nat.pos_of_ne_zero hs, Nat.pos_of_ne_zero hc, hreps, hread, hhid, hvoc⟩,
      (Except.ok.inj h).symm⟩

theorem Describes.infer {grid : GraphGrid} {blocks : List StateBlockSpec} {sizes : SpecSizes}
    {graphs reps : List GraphSpecs} (h : Describes grid blocks sizes graphs reps) :
    inferSpecFromGraphs grid blocks sizes graphs =
      .ok ⟨sizesOf sizes reps, reps.mapIdx (shardOf (stateBlocks blocks))⟩ := by
  unfold inferSpecFromGraphs
  rw [if_neg (not_or.mpr ⟨h.shards.ne', h.contextLengths.ne'⟩),
    inferShards_ok_iff.mpr ⟨reps, h.represent, h.readable, rfl⟩]
  exact if_neg (not_or.mpr ⟨h.hidden, h.vocab⟩)

/-- The inference succeeds exactly if the graphs describe a model, and returns what they say. -/
theorem infer_ok_iff (grid : GraphGrid) (blocks : List StateBlockSpec) (sizes : SpecSizes)
    (graphs : List GraphSpecs) (r : InferredSpec) :
    inferSpecFromGraphs grid blocks sizes graphs = .ok r ↔
      ∃ reps, Describes grid blocks sizes graphs reps ∧
        r = ⟨sizesOf sizes reps, reps.mapIdx (shardOf (stateBlocks blocks))⟩ := by
  constructor
  · exact infer_describes
  · rintro ⟨reps, h, rfl⟩
    exact h.infer

end Geniex
