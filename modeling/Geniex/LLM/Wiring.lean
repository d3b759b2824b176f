import Geniex.LLM.InferSpec

/-!
# Wiring of the shards

After `inferSpecFromGraphs`, `onInitialized` makes the input providers and the connections between
the shards. Together with the attention mask and the KV cache they write the inputs of a graph
before it is executed.

* `connections_join`: the connections hand the state from each shard to the next one.
* `single_writer_iff`: for which models every input of a graph has one writer.
* `inferred_llmSpec`: what is inferred is a specification of the model.
-/

namespace Geniex

open WriteOnce

/-! ## Providers and connections -/

/-- An input provider, by the inputs it is made for. -/
inductive ProviderSpec
  | tokenIds (tensor : List Char)
  | embeddings (tensor : List Char)
  | rope (headDim : ℕ)
  deriving DecidableEq

/-- `makeEmbeddingProvider` -/
def makeEmbeddingProvider (firstShardInput : List Char) : Except InferError ProviderSpec :=
  if firstShardInput = "input_ids".toList then .ok (.tokenIds "input_ids".toList)
  else if firstShardInput = "input_embeds".toList ∨ firstShardInput = "inputs_embeds".toList then
    .ok (.embeddings firstShardInput)
  else .error (.runtime ("llm_spec_loader: unrecognised first-shard input '".toList ++
    firstShardInput ++ "' — expected 'input_ids', 'input_embeds', or 'inputs_embeds'".toList))

/-- `2 * half_dim`, of a graph with an input `position_ids_cos`. -/
def ropeDim (g : GraphSpecs) : Option ℕ :=
  (g.inputSpecs.find? fun t => t.name = "position_ids_cos".toList).map fun t =>
    t.shape.getLastD 0 * 2

/-- `createInputProviders`, after those that the caller has registered. -/
def createInputProviders (grid : GraphGrid) (spec : InferredSpec) (graphs : List GraphSpecs)
    (registered : List ProviderSpec) : Except InferError (List ProviderSpec) :=
  if registered ≠ [] then .ok registered
  else
    match makeEmbeddingProvider ((spec.shards.head?.map InferredShard.inStateName).getD []) with
    | .error e => .error e
    | .ok p =>
      .ok (p :: (((List.range grid.shardCount).findSome? fun s =>
        (graphs[grid.graphIndex .prefill s 0]?).bind ropeDim).map .rope).toList)

/-- `Connection` -/
structure Connection where
  srcGraph : ℕ
  srcTensor : List Char
  dstGraph : ℕ
  dstTensor : List Char
  deriving DecidableEq

/-- `buildConnections`: `shard_hidden_state_` and `decode_shard_hidden_state_`. -/
def buildConnections (grid : GraphGrid) (spec : InferredSpec) (phase : Phase) :
    List (List Connection) :=
  (List.range grid.numCl).map fun cl =>
    (List.range (grid.shardCount - 1)).map fun s =>
      ⟨grid.graphIndex phase s cl, (spec.shards[s]?.map InferredShard.outStateName).getD [],
        grid.graphIndex phase (s + 1) cl,
        (spec.shards[s + 1]?.map InferredShard.inStateName).getD []⟩

/-- What `onInitialized` does between the sort and `initKVBuffers`, as far as it can throw by the
tensors of the graphs. -/
def initSetup (blocks : List StateBlockSpec) (sizes : SpecSizes) (registered : List ProviderSpec)
    (grid : GraphGrid) (graphs : List GraphSpecs) : Bool :=
  match inferSpecFromGraphs grid blocks sizes graphs with
  | .error _ => false
  | .ok spec =>
    match createInputProviders grid spec graphs registered with
    | .error _ => false
    | .ok _ => true

/-! ## State tensors -/

section State

variable {tensors : List TensorSpec} {grid : GraphGrid} {blocks : List StateBlockSpec}
  {sizes : SpecSizes} {graphs reps : List GraphSpecs} {r : InferredSpec} {s : ℕ} {g : GraphSpecs}

/-- The state tensor is one of the tensors, and not a special one. -/
theorem firstState_spec (h : firstState tensors ≠ []) :
    (∃ t ∈ tensors, t.name = firstState tensors) ∧
      isSpecialTensor (firstState tensors) = false := by
  obtain ⟨t, ht, hname⟩ := List.mem_map.mp (firstSet_mem h)
  change stateName t = firstState tensors at hname
  unfold stateName at hname
  cases hspec : isSpecialTensor t.name with
  | true =>
    rw [hspec, if_pos rfl] at hname
    exact absurd hname.symm h
  | false =>
    rw [hspec, if_neg Bool.false_ne_true] at hname
    exact ⟨⟨t, ht, hname⟩, hname ▸ hspec⟩

theorem Represent.length (h : Represent grid graphs reps) : reps.length = grid.shardCount := by
  simpa using (congrArg List.length h).symm

theorem Represent.getElem? (h : Represent grid graphs reps) (hs : s < grid.shardCount) :
    graphs[grid.graphIndex .prefill s 0]? = reps[s]? := by
  have hs' : s < reps.length := h.length.symm ▸ hs
  have hget := congrArg (fun l => l[s]?) h
  simpa [List.getElem?_map, List.getElem?_range hs, List.getElem?_eq_getElem hs'] using hget

/-- What an inferred shard says, its representative graph says. -/
theorem infer_shard (h : inferSpecFromGraphs grid blocks sizes graphs = .ok r)
    (hs : s < grid.shardCount) :
    ∃ g, graphs[grid.graphIndex .prefill s 0]? = some g ∧ Readable (stateBlocks blocks) g ∧
      r.shards[s]? = some (shardOf (stateBlocks blocks) s g) := by
  obtain ⟨reps, hdesc, rfl⟩ := infer_describes h
  have hs' : s < reps.length := hdesc.represent.length.symm ▸ hs
  refine ⟨reps[s], ?_, hdesc.readable _ (List.getElem_mem hs'), ?_⟩
  · rw [hdesc.represent.getElem? hs, List.getElem?_eq_getElem hs']
  · rw [List.getElem?_mapIdx, List.getElem?_eq_getElem hs', Option.map_some]

theorem infer_shards_length (h : inferSpecFromGraphs grid blocks sizes graphs = .ok r) :
    r.shards.length = grid.shardCount := by
  obtain ⟨reps, hdesc, rfl⟩ := infer_describes h
  rw [List.length_mapIdx, hdesc.represent.length]

/-- A successful setup has inferred a specification and made its providers. -/
theorem initSetup_iff {registered : List ProviderSpec} :
    initSetup blocks sizes registered grid graphs = true ↔ ∃ r providers,
      inferSpecFromGraphs grid blocks sizes graphs = .ok r ∧
        createInputProviders grid r graphs registered = .ok providers := by
  unfold initSetup
  cases inferSpecFromGraphs grid blocks sizes graphs with
  | error e => simp
  | ok r =>
    cases hp : createInputProviders grid r graphs registered with
    | error e => simp [hp]
    | ok providers => simp [hp]

end State

/-- Initialisation succeeds if it does so by the names, and the setup of the sorted graphs does. -/
theorem onInitialized_iff {γ : Type} {name : γ → List Char} {setup : GraphGrid → List γ → Bool}
    {graphs : List γ} {m : LoadedGraphs γ} : onInitialized name setup graphs = .ok m ↔
      onInitialized name (fun _ _ => true) graphs = .ok m ∧ setup m.grid m.graphs = true := by
  unfold onInitialized
  cases graphs.find? fun g => (parseGraphName (name g)).isNone with
  | some g => exact ⟨fun h => (by cases h), fun h => (by cases h.1)⟩
  | none =>
    dsimp only
    constructor
    · intro h
      split_ifs at h with hnil hzero hsetup hlen
      cases h
      refine ⟨?_, by simpa using hsetup⟩
      rw [if_neg hnil, if_neg hzero, if_neg Bool.false_ne_true.symm, if_neg hlen]
    · rintro ⟨h, hs⟩
      split_ifs at h with hnil hzero htrue hlen
      cases h
      rw [hs, if_neg hnil, if_neg hzero, if_neg Bool.false_ne_true.symm, if_neg hlen]

/-! ## A small instance -/

/-- A graph of the first of two shards: token ids in, a hidden state out, and a layer. -/
def tinyFirstShard (name : String) (ar : ℕ) : GraphSpecs where
  name := name.toList
  inputSpecs := [⟨"input_ids".toList, .int32, [1, ar]⟩,
    ⟨"attention_mask".toList, .uint16, [1, 1, ar, 4]⟩,
    ⟨"past_key_0_in".toList, .uint8, [2, 1, 1, 4 - ar]⟩,
    ⟨"past_value_0_in".toList, .uint8, [2, 1, 4 - ar, 1]⟩]
  outputSpecs := [⟨"add_7".toList, .ufixedPoint16, [1, ar, 8]⟩,
    ⟨"past_key_0_out".toList, .uint8, [2, 1, 1, ar]⟩,
    ⟨"past_value_0_out".toList, .uint8, [2, 1, ar, 1]⟩]

/-- A graph of the last of two shards: the hidden state in, the logits out. -/
def tinyLastShard (name : String) (ar : ℕ) : GraphSpecs where
  name := name.toList
  inputSpecs := [⟨"add_7".toList, .ufixedPoint16, [1, ar, 8]⟩]
  outputSpecs := [⟨"logits".toList, .ufixedPoint16, [1, ar, 3]⟩]

/-- The graphs of a model with two shards, out of order. -/
def tinyGraphs : List GraphSpecs :=
  [tinyLastShard "ar1_cl4_2_of_2" 1, tinyFirstShard "ar2_cl4_1_of_2" 2,
    tinyFirstShard "ar1_cl4_1_of_2" 1, tinyLastShard "ar2_cl4_2_of_2" 2]

def tinyLoaded : LoadedGraphs GraphSpecs where
  grid := ⟨[4], 2, 1, 2⟩
  graphs := [tinyFirstShard "ar2_cl4_1_of_2" 2, tinyLastShard "ar2_cl4_2_of_2" 2,
    tinyFirstShard "ar1_cl4_1_of_2" 1, tinyLastShard "ar1_cl4_2_of_2" 1]

theorem tinyLoaded_ok :
    onInitialized GraphSpecs.name (initSetup [] {} []) tinyGraphs = .ok tinyLoaded := by
  have hsorted : StableSort.sortBy
      (fun g => sortKey tinyLoaded.grid (parsedOf GraphSpecs.name g)) tinyGraphs =
        tinyLoaded.graphs := by decide +kernel
  refine onInitialized_iff.mpr ⟨?_, by decide +kernel⟩
  have hloaded : onInitialized GraphSpecs.name (fun _ _ => true) tinyGraphs =
      .ok ⟨tinyLoaded.grid, StableSort.sortBy
        (fun g => sortKey tinyLoaded.grid (parsedOf GraphSpecs.name g)) tinyGraphs⟩ :=
    onInitialized_eq (by decide +kernel) (by decide +kernel) (by decide) (by decide) (by decide)
      fun _ => rfl
  rw [hloaded, hsorted]

instance {γ : Type} (name : γ → List Char) (grid : GraphGrid) (phase : Phase) (s clIdx : ℕ)
    (g : γ) : Decidable (FitsSlot name grid phase s clIdx g) :=
  decidable_of_iff ((parsedOf name g).ar = grid.seqLen phase ∧ (parsedOf name g).shard = s + 1 ∧
    grid.contextLengths[clIdx]? = some (parsedOf name g).cl)
    ⟨fun h => ⟨h.1, h.2.1, h.2.2⟩, fun h => ⟨h.ar, h.shard, h.cl⟩⟩

theorem tinyLoaded_right : SlotsRight GraphSpecs.name tinyLoaded := by
  have hall : ∀ p ∈ [Phase.prefill, .decode], ∀ s < 2, ∀ c < 1,
      (tinyLoaded.graphs[tinyLoaded.grid.graphIndex p s c]?).any (fun g =>
        decide (FitsSlot GraphSpecs.name tinyLoaded.grid p s c g)) = true := by
    decide +kernel
  intro phase s clIdx hs hcl
  have hone := hall phase (by cases phase <;> simp) s hs clIdx hcl
  rw [Option.any_eq_true] at hone
  obtain ⟨g, hg, hfit⟩ := hone
  exact ⟨g, hg, of_decide_eq_true hfit⟩

/-! ## Connections -/

/-- A connection hands the state of a shard to the next one, in the graphs of one phase and context
length: from a state output to a state input of the representative graphs, neither of them
special. -/
structure Joins (m : LoadedGraphs GraphSpecs) (phase : Phase) (s clIdx : ℕ) (c : Connection) :
    Prop where
  source : ∃ g, m.graphs[c.srcGraph]? = some g ∧ FitsSlot GraphSpecs.name m.grid phase s clIdx g
  target : ∃ g, m.graphs[c.dstGraph]? = some g ∧
    FitsSlot GraphSpecs.name m.grid phase (s + 1) clIdx g
  output : ∃ g, m.graphs[m.grid.graphIndex .prefill s 0]? = some g ∧
    c.srcTensor ∈ g.names.outputs ∧ isSpecialTensor c.srcTensor = false
  input : ∃ g, m.graphs[m.grid.graphIndex .prefill (s + 1) 0]? = some g ∧
    c.dstTensor ∈ g.names.inputs ∧ isSpecialTensor c.dstTensor = false

section Connections

variable {grid : GraphGrid} {spec : InferredSpec} {phase : Phase} {s clIdx : ℕ} {c : Connection}

theorem buildConnections_get : ((buildConnections grid spec phase)[clIdx]?.bind (·[s]?)) = some c ↔
    clIdx < grid.numCl ∧ s + 1 < grid.shardCount ∧
      c = ⟨grid.graphIndex phase s clIdx,
        (spec.shards[s]?.map InferredShard.outStateName).getD [],
        grid.graphIndex phase (s + 1) clIdx,
        (spec.shards[s + 1]?.map InferredShard.inStateName).getD []⟩ := by
  unfold buildConnections
  by_cases hc : clIdx < grid.numCl
  · by_cases hs : s + 1 < grid.shardCount
    · have hs' : s < grid.shardCount - 1 := by omega
      simp [List.getElem?_map, List.getElem?_range hs', hc, hs, eq_comm]
    · have hs' : ¬ s < grid.shardCount - 1 := by omega
      simp [List.getElem?_map, List.getElem?_range hc, hs, hs']
  · simp [hc]

end Connections

/-- After initialisation, if the slots hold their graphs, every shard but the last has a connection
for each phase and context length, which joins it to the next one, and no other connection has the
same target. -/
theorem connections_join {blocks : List StateBlockSpec} {sizes : SpecSizes}
    {registered : List ProviderSpec} {graphs : List GraphSpecs} {m : LoadedGraphs GraphSpecs}
    (h : onInitialized GraphSpecs.name (initSetup blocks sizes registered) graphs = .ok m)
    (hright : SlotsRight GraphSpecs.name m) :
    ∃ spec, inferSpecFromGraphs m.grid blocks sizes m.graphs = .ok spec ∧
      (∀ phase s clIdx, s + 1 < m.grid.shardCount → clIdx < m.grid.numCl →
        ∃ c, (buildConnections m.grid spec phase)[clIdx]?.bind (·[s]?) = some c ∧
          Joins m phase s clIdx c) ∧
      ∀ phase s clIdx c, (buildConnections m.grid spec phase)[clIdx]?.bind (·[s]?) = some c →
        ∀ phase' s' clIdx', s' < m.grid.shardCount → clIdx' < m.grid.numCl →
          (c.dstGraph = m.grid.graphIndex phase' s' clIdx' ↔
            phase' = phase ∧ s' = s + 1 ∧ clIdx' = clIdx) := by
  obtain ⟨spec, providers, hspec, -⟩ := initSetup_iff.mp (onInitialized_iff.mp h).2
  refine ⟨spec, hspec, ?_, ?_⟩
  · intro phase s clIdx hs hcl
    refine ⟨_, buildConnections_get.mpr ⟨hcl, hs, rfl⟩, ?_⟩
    obtain ⟨g, hg, hread, hshard⟩ := infer_shard hspec (Nat.lt_of_succ_lt hs)
    obtain ⟨g', hg', hread', hshard'⟩ := infer_shard hspec hs
    obtain ⟨⟨t, ht, hname⟩, hns⟩ := firstState_spec hread.output
    obtain ⟨⟨t', ht', hname'⟩, hns'⟩ := firstState_spec hread'.input
    rw [hshard, hshard']
    exact ⟨hright phase s clIdx (Nat.lt_of_succ_lt hs) hcl, hright phase (s + 1) clIdx hs hcl,
      ⟨g, hg, List.mem_map.mpr ⟨t, ht, hname⟩, hns⟩,
      ⟨g', hg', List.mem_map.mpr ⟨t', ht', hname'⟩, hns'⟩⟩
  · intro phase s clIdx c hc phase' s' clIdx' hs' hcl'
    obtain ⟨hcl, hs, rfl⟩ := buildConnections_get.mp hc
    constructor
    · intro heq
      have hslot := congrArg (slotOf m.grid) heq
      rw [slotOf_graphIndex hs hcl, slotOf_graphIndex hs' hcl'] at hslot
      simpa [eq_comm] using hslot
    · rintro ⟨rfl, rfl, rfl⟩
      rfl

theorem connections_join_tiny :
    ∃ spec, inferSpecFromGraphs tinyLoaded.grid [] {} tinyLoaded.graphs = .ok spec ∧
      (∀ phase s clIdx, s + 1 < tinyLoaded.grid.shardCount → clIdx < tinyLoaded.grid.numCl →
        ∃ c, (buildConnections tinyLoaded.grid spec phase)[clIdx]?.bind (·[s]?) = some c ∧
          Joins tinyLoaded phase s clIdx c) ∧
      ∀ phase s clIdx c,
        (buildConnections tinyLoaded.grid spec phase)[clIdx]?.bind (·[s]?) = some c →
        ∀ phase' s' clIdx', s' < tinyLoaded.grid.shardCount → clIdx' < tinyLoaded.grid.numCl →
          (c.dstGraph = tinyLoaded.grid.graphIndex phase' s' clIdx' ↔
            phase' = phase ∧ s' = s + 1 ∧ clIdx' = clIdx) :=
  connections_join tinyLoaded_ok tinyLoaded_right

/-! ## Who writes the inputs -/

/-- The names that a block reads as key outputs are names of KV tensors. -/
def StateBlockSpec.ReadsKV (block : StateBlockSpec) : Prop :=
  ∀ name, (reads block.keyOutPattern name).isSome → isKVTensor name = true

/-- The names that the patterns of a block make are names of KV tensors. -/
structure StateBlockSpec.NamesKV (block : StateBlockSpec) : Prop where
  keyIn : ∀ n, isKVTensor (fmtPattern block.keyInPattern n) = true
  valueIn : ∀ n, isKVTensor (fmtPattern block.valueInPattern n) = true
  keyOut : block.ReadsKV

/-- A name that starts with a text about keys or values and ends as an input or output. -/
theorem isKVTensor_append (before after d : List Char)
    (hb : "key".toList <:+: before ∨ "value".toList <:+: before)
    (ha : "_in".toList <:+ after ∨ "_out".toList <:+ after) :
    isKVTensor (before ++ d ++ after) = true := by
  unfold isKVTensor
  simp only [Bool.and_eq_true, Bool.or_eq_true, List.isSuffixOf_iff_suffix, decide_eq_true_eq]
  have hleft : before <:+: before ++ d ++ after := by
    rw [List.append_assoc]
    exact (List.prefix_append _ _).isInfix
  exact ⟨ha.imp (·.trans (List.suffix_append _ _)) (·.trans (List.suffix_append _ _)),
    hb.imp (·.trans hleft) (·.trans hleft)⟩

/-- The patterns of `makeKVStateBlock`. -/
theorem namesKV_default : StateBlockSpec.NamesKV {} where
  keyIn n := isKVTensor_append "past_key_".toList "_in".toList (Nat.toDigits 10 n)
    (by decide +kernel) (by decide +kernel)
  valueIn n := isKVTensor_append "past_value_".toList "_in".toList (Nat.toDigits 10 n)
    (by decide +kernel) (by decide +kernel)
  keyOut name h := by
    obtain ⟨d, hd⟩ := Option.isSome_iff_exists.mp h
    have hpat : patternToRegex ({} : StateBlockSpec).keyOutPattern =
        .number "past_key_".toList "_out".toList := by
      rfl
    unfold reads at hd
    rw [hpat] at hd
    obtain ⟨rfl, -, -⟩ := (regexMatch_number_iff _ _ _ _).mp hd
    exact isKVTensor_append _ _ d (by decide +kernel) (by decide +kernel)

/-- The inputs that a provider writes. -/
def ProviderSpec.inputs : ProviderSpec → List (List Char)
  | .tokenIds tensor => [tensor]
  | .embeddings tensor => [tensor]
  | .rope _ => ["position_ids_cos".toList, "position_ids_sin".toList]

/-- The inputs that are written before the graph of a shard is executed: by `get_attention_mask`, by
each provider, by the connection to the shard, and by the KV cache of the first state block. -/
def inputWriters (spec : InferredSpec) (providers : List ProviderSpec) (s : ℕ) :
    List (List (List Char)) :=
  ["attention_mask".toList] :: providers.map ProviderSpec.inputs ++
    [if s = 0 then [] else (spec.shards[s]?.map InferredShard.inStateName).toList,
      ((spec.shards[s]?.map InferredShard.pairs).getD []).headD [] |>.flatMap fun p =>
        [p.keyIn, p.valueIn]]

/-- No input of the graph has two writers. -/
def SingleWriter (writers : List (List (List Char))) (g : GraphSpecs) : Prop :=
  ∀ t ∈ g.names.inputs, writers.countP (·.contains t) ≤ 1

theorem countP_contains_le_one {writers : List (List (List Char))}
    (h : writers.Pairwise List.Disjoint) (t : List Char) :
    writers.countP (·.contains t) ≤ 1 := by
  induction writers with
  | nil => exact Nat.zero_le _
  | cons a writers ih =>
    obtain ⟨ha, htail⟩ := List.pairwise_cons.mp h
    rw [List.countP_cons]
    split_ifs with hat
    · have hnone : writers.countP (·.contains t) = 0 := by
        rw [List.countP_eq_zero]
        intro b hb hbt
        exact ha b hb (List.contains_iff_mem.mp hat) (List.contains_iff_mem.mp hbt)
      omega
    · exact ih htail

theorem makeEmbeddingProvider_inputs {tensor : List Char} {p : ProviderSpec}
    (h : makeEmbeddingProvider tensor = .ok p) : p.inputs = [tensor] := by
  unfold makeEmbeddingProvider at h
  split_ifs at h with hid hemb
  · obtain rfl := Except.ok.inj h
    rw [hid]
    rfl
  · obtain rfl := Except.ok.inj h
    rfl

/-- The providers write the state input of the first shard and the positions. -/
theorem createInputProviders_ok {grid : GraphGrid} {spec : InferredSpec}
    {graphs : List GraphSpecs} {providers : List ProviderSpec}
    (h : createInputProviders grid spec graphs [] = .ok providers) :
    ∃ (p : ProviderSpec) (dim : Option ℕ), providers = p :: (dim.map .rope).toList ∧
      p.inputs = [(spec.shards.head?.map InferredShard.inStateName).getD []] := by
  unfold createInputProviders at h
  rw [if_neg (not_not_intro rfl)] at h
  cases hp : makeEmbeddingProvider
      ((spec.shards.head?.map InferredShard.inStateName).getD []) with
  | error e => rw [hp] at h; cases h
  | ok p =>
    rw [hp] at h
    exact ⟨p, _, (Except.ok.inj h).symm, makeEmbeddingProvider_inputs hp⟩

theorem isSpecialTensor_of_kv {t : List Char} (h : isKVTensor t = true) :
    isSpecialTensor t = true := by
  unfold isSpecialTensor
  rw [h, Bool.or_true]

/-- The cache writes KV tensors only. -/
theorem cache_kv {blocks : List StateBlockSpec} (hkv : ∀ block ∈ blocks, block.NamesKV) {s : ℕ}
    {g : GraphSpecs} {t : List Char}
    (ht : t ∈ ((shardOf blocks s g).pairs.headD []).flatMap fun p => [p.keyIn, p.valueIn]) :
    isKVTensor t = true := by
  obtain ⟨p, hp, ht⟩ := List.mem_flatMap.mp ht
  cases blocks with
  | nil => exact absurd hp List.not_mem_nil
  | cons block blocks =>
    obtain ⟨n, -, rfl⟩ := List.mem_map.mp (show p ∈ List.map (kvPair block) _ from hp)
    have hb := hkv block List.mem_cons_self
    rcases List.mem_cons.mp ht with rfl | ht
    · exact hb.keyIn n
    · rw [List.mem_singleton.mp ht]
      exact hb.valueIn n

section Writers

variable {grid : GraphGrid} {blocks : List StateBlockSpec} {sizes : SpecSizes}
  {graphs : List GraphSpecs} {spec : InferredSpec} {providers : List ProviderSpec}

/-- The writers have nothing in common, but perhaps the embedding provider and the connection. -/
theorem writers_disjoint {tensor : List Char} {dim : Option ℕ} {p : ProviderSpec}
    {connection cache : List (List Char)} (hp : p.inputs = [tensor])
    (htensor : isSpecialTensor tensor = false)
    (hconn : ∀ t ∈ connection, isSpecialTensor t = false ∧ t ≠ tensor)
    (hcache : ∀ t ∈ cache, isKVTensor t = true) :
    (["attention_mask".toList] ::
      (p :: (dim.map ProviderSpec.rope).toList).map ProviderSpec.inputs ++
        [connection, cache]).Pairwise List.Disjoint := by
  -- the named tensors are special, and not KV tensors
  have hnamed : ∀ t ∈ namedSpecials, isSpecialTensor t = true ∧ isKVTensor t = false := by
    decide +kernel
  have hconn_cache : List.Disjoint connection cache := by
    intro t ht ht'
    have hspec := isSpecialTensor_of_kv (hcache t ht')
    rw [(hconn t ht).1] at hspec
    cases hspec
  have htensor_cache : tensor ∉ cache := by
    intro ht
    have hspec := isSpecialTensor_of_kv (hcache _ ht)
    rw [htensor] at hspec
    cases hspec
  have hnamed_tensor : ∀ t ∈ namedSpecials, t ≠ tensor := by
    rintro t ht rfl
    rw [(hnamed t ht).1] at htensor
    cases htensor
  have hnamed_conn : ∀ t ∈ namedSpecials, t ∉ connection := by
    intro t ht hc
    have hspec := (hconn t hc).1
    rw [(hnamed t ht).1] at hspec
    cases hspec
  have hnamed_cache : ∀ t ∈ namedSpecials, t ∉ cache := by
    intro t ht hc
    have hkv := hcache t hc
    rw [(hnamed t ht).2] at hkv
    cases hkv
  have hmask : "attention_mask".toList ∈ namedSpecials := by decide +kernel
  obtain ⟨ropes, hropes⟩ : ∃ ropes, ((dim.map ProviderSpec.rope).toList).map ProviderSpec.inputs =
      ropes := ⟨_, rfl⟩
  have hrope : ∀ l ∈ ropes, ∀ t ∈ l, t ∈ namedSpecials ∧ t ≠ "attention_mask".toList := by
    subst hropes
    cases dim with
    | none => exact fun l hl => absurd hl List.not_mem_nil
    | some d =>
      intro l hl
      rw [List.mem_singleton.mp hl]
      change ∀ t ∈ ["position_ids_cos".toList, "position_ids_sin".toList], _
      decide +kernel
  have hrope_pairwise : ropes.Pairwise List.Disjoint := by
    subst hropes
    cases dim with
    | none => exact List.Pairwise.nil
    | some d => exact List.pairwise_singleton _ _
  rw [List.map_cons, hropes, hp, List.cons_append, List.cons_append]
  refine List.pairwise_cons.mpr ⟨?_, List.pairwise_cons.mpr ⟨?_, List.pairwise_append.mpr
    ⟨hrope_pairwise, List.pairwise_pair.mpr hconn_cache, ?_⟩⟩⟩
  · intro l hl t ht htl
    obtain rfl := List.mem_singleton.mp ht
    rcases List.mem_cons.mp hl with rfl | hl
    · exact hnamed_tensor _ hmask (List.mem_singleton.mp htl)
    rcases List.mem_append.mp hl with hl | hl
    · exact (hrope l hl _ htl).2 rfl
    rcases List.mem_pair.mp hl with rfl | rfl
    · exact hnamed_conn _ hmask htl
    · exact hnamed_cache _ hmask htl
  · intro l hl t ht htl
    obtain rfl := List.mem_singleton.mp ht
    rcases List.mem_append.mp hl with hl | hl
    · exact hnamed_tensor t (hrope l hl t htl).1 rfl
    rcases List.mem_pair.mp hl with rfl | rfl
    · exact (hconn t htl).2 rfl
    · exact htensor_cache htl
  · intro l hl l' hl' t ht ht'
    rcases List.mem_pair.mp hl' with rfl | rfl
    · exact hnamed_conn t (hrope l hl t ht).1 ht'
    · exact hnamed_cache t (hrope l hl t ht).1 ht'

/-- The name of the state input of a shard. -/
def InferredSpec.inState (spec : InferredSpec) (s : ℕ) : Option (List Char) :=
  spec.shards[s]?.map InferredShard.inStateName

/-- Every input of every representative graph has at most one writer exactly if no later shard calls
its state input by the name that the first shard's has: the embedding provider writes an input of
that name wherever there is one. -/
theorem single_writer_iff (h : inferSpecFromGraphs grid blocks sizes graphs = .ok spec)
    (hkv : ∀ block ∈ stateBlocks blocks, block.NamesKV)
    (hproviders : createInputProviders grid spec graphs [] = .ok providers) :
    (∀ s g, s < grid.shardCount → graphs[grid.graphIndex .prefill s 0]? = some g →
      SingleWriter (inputWriters spec providers s) g) ↔
    ∀ s, 0 < s → s < grid.shardCount → spec.inState s ≠ spec.inState 0 := by
  obtain ⟨p, dim, rfl, hp⟩ := createInputProviders_ok hproviders
  constructor
  · intro hone s hpos hs heq
    obtain ⟨g₀, -, hread₀, hshard₀⟩ := infer_shard h (hpos.trans hs)
    obtain ⟨g, hg, hread, hshard⟩ := infer_shard h hs
    unfold InferredSpec.inState at heq
    rw [hshard, hshard₀, Option.map_some, Option.map_some, Option.some.injEq] at heq
    rw [List.head?_eq_getElem?, hshard₀] at hp
    obtain ⟨⟨t, ht, hname⟩, -⟩ := firstState_spec hread.input
    -- the provider and the connection write the state input
    have hsub : [p.inputs, [firstState g.inputSpecs]].Sublist
        (inputWriters spec (p :: (dim.map .rope).toList) s) := by
      unfold inputWriters
      rw [hshard, if_neg hpos.ne']
      exact .cons _ (.cons_cons _
        (List.sublist_append_of_sublist_right (.cons_cons _ (.cons _ .slnil))))
    have hcount := hsub.countP_le (p := fun l => l.contains (firstState g.inputSpecs))
    have htwo : [p.inputs, [firstState g.inputSpecs]].countP
        (fun l => l.contains (firstState g.inputSpecs)) = 2 := by
      rw [hp, show firstState g.inputSpecs = firstState g₀.inputSpecs from heq]
      simp [shardOf]
    have hle := hone s g hs hg (firstState g.inputSpecs) (List.mem_map.mpr ⟨t, ht, hname⟩)
    omega
  · intro hne s g hs hg t ht
    obtain ⟨g₀, -, hread₀, hshard₀⟩ := infer_shard h (Nat.zero_lt_of_lt hs)
    obtain ⟨g', hg', hread, hshard⟩ := infer_shard h hs
    rw [List.head?_eq_getElem?, hshard₀] at hp
    apply countP_contains_le_one
    unfold inputWriters
    refine writers_disjoint hp (firstState_spec hread₀.input).2 ?_ ?_
    · intro t ht
      split_ifs at ht with hs0
      · exact absurd ht List.not_mem_nil
      rw [hshard, Option.map_some, Option.toList_some, List.mem_singleton] at ht
      rw [ht]
      refine ⟨(firstState_spec hread.input).2, fun heq => ?_⟩
      refine hne s (Nat.pos_of_ne_zero hs0) hs ?_
      unfold InferredSpec.inState
      rw [hshard, hshard₀, Option.map_some, Option.map_some, heq]
      rfl
    · intro t ht
      rw [hshard] at ht
      exact cache_kv hkv ht

end Writers

/-- What is inferred from the two shards. -/
def tinyInferred : InferredSpec where
  sizes := ⟨8, 2, 1, 3⟩
  shards := [⟨"input_ids".toList, "add_7".toList, false, [[kvPair {} 0]]⟩,
    ⟨"add_7".toList, "logits".toList, true, [[]]⟩]

theorem single_writer_iff_tiny :
    (∀ s g, s < tinyLoaded.grid.shardCount →
      tinyLoaded.graphs[tinyLoaded.grid.graphIndex .prefill s 0]? = some g →
      SingleWriter (inputWriters tinyInferred [.tokenIds "input_ids".toList] s) g) ↔
    ∀ s, 0 < s → s < tinyLoaded.grid.shardCount →
      tinyInferred.inState s ≠ tinyInferred.inState 0 := by
  have h : inferSpecFromGraphs tinyLoaded.grid [] {} tinyLoaded.graphs = .ok tinyInferred := by
    decide +kernel
  exact single_writer_iff h (fun _ hblock => List.mem_singleton.mp hblock ▸ namesKV_default)
    (by decide +kernel)

/-! ## The specification of the model -/

section LLMSpec

variable {grid : GraphGrid} {blocks : List StateBlockSpec} {sizes : SpecSizes}
  {graphs : List GraphSpecs} {r : InferredSpec}

/-- A graph without KV outputs has no pairs. -/
theorem lmHead_no_pairs (h : inferSpecFromGraphs grid blocks sizes graphs = .ok r)
    (hkv : ∀ block ∈ stateBlocks blocks, block.ReadsKV) {sh : InferredShard} (hsh : sh ∈ r.shards)
    (hhead : sh.lmHeadOnly = true) : ∀ pairs ∈ sh.pairs, pairs = [] := by
  obtain ⟨s, hs, rfl⟩ := List.getElem_of_mem hsh
  rw [infer_shards_length h] at hs
  obtain ⟨g, -, -, hshard⟩ := infer_shard h hs
  obtain ⟨_, hget⟩ := List.getElem?_eq_some_iff.mp hshard
  rw [hget] at hhead ⊢
  obtain ⟨hno, -, -⟩ := of_decide_eq_true hhead
  intro pairs hpairs
  obtain ⟨block, hblock, rfl⟩ := List.mem_map.mp hpairs
  rw [List.map_eq_nil_iff, List.map_eq_nil_iff]
  refine List.filterMap_eq_nil_iff.mpr fun name hname => ?_
  obtain ⟨t, ht, rfl⟩ := List.mem_map.mp hname
  cases hread : reads block.keyOutPattern t.name with
  | none => rfl
  | some d =>
    have hkvt := hkv block hblock t.name (by rw [hread]; rfl)
    rw [hno t ht] at hkvt
    cases hkvt

/-- The element types of a pair, as the inputs of a graph have them. -/
def pairTypes (g : GraphSpecs) (p : KVPairNames) : KVTensorPair where
  keyType := ((g.inputSpecs.find? fun t => t.name = p.keyIn).map TensorSpec.dtype).getD .undefined
  valueType :=
    ((g.inputSpecs.find? fun t => t.name = p.valueIn).map TensorSpec.dtype).getD .undefined

/-- A shard of the model, with the pairs of the first state block. -/
def shardSpec (g : GraphSpecs) (sh : InferredShard) : ShardSpec where
  lmHeadOnly := sh.lmHeadOnly
  hasAttentionMask := g.names.inputs.contains "attention_mask".toList
  hasCosSin := g.names.inputs.contains "position_ids_cos".toList ||
    g.names.inputs.contains "position_ids_sin".toList
  pairs := (sh.pairs.headD []).map (pairTypes g)

/-- The context lengths come out of their set in ascending order. -/
theorem contextLengths_ascending (parsed : List ParsedGraph) :
    (gridOf parsed).contextLengths.Pairwise (· < ·) := by
  apply Std.TreeSet.ordered_toList.imp
  intro a b hab
  exact Nat.compare_eq_lt.mp hab

/-- Lengths as the tensors of a graph can have them: a graph takes at least one token, and its KV
inputs have `CL - AR` columns. -/
structure LengthsFit (grid : GraphGrid) : Prop where
  decode : 0 < grid.seqLenDecode
  prefill : ∀ cl ∈ grid.contextLengths, grid.seqLenPrefill ≤ cl
  lt : ∀ cl ∈ grid.contextLengths, cl < 2 ^ 33

/-- What initialisation infers is a specification of the model, with the same slots: a shard whose
pass `prefillChunks` leaves out has no KV pairs, since only KV tensors are read as key outputs. -/
theorem inferred_llmSpec {registered : List ProviderSpec} {m : LoadedGraphs GraphSpecs}
    (h : onInitialized GraphSpecs.name (initSetup blocks sizes registered) graphs = .ok m)
    (hkv : ∀ block ∈ stateBlocks blocks, block.ReadsKV) (hfit : LengthsFit m.grid)
    (eosTokenIds : List Int32) :
    ∃ (inferred : InferredSpec) (spec : LLMSpec),
      inferSpecFromGraphs m.grid blocks sizes m.graphs = .ok inferred ∧
      (∀ s < m.grid.shardCount, ∃ g sh, m.graphs[m.grid.graphIndex .prefill s 0]? = some g ∧
        inferred.shards[s]? = some sh ∧ spec.shards[s]? = some (shardSpec g sh)) ∧
      spec.numKvHeads = inferred.sizes.numKvHeads ∧ spec.headDim = inferred.sizes.headDim ∧
      spec.vocabSize = inferred.sizes.vocabSize ∧ spec.eosTokenIds = eosTokenIds ∧
      spec.contextLengths = m.grid.contextLengths ∧
      (∀ phase, spec.seqLen phase = m.grid.seqLen phase) ∧
      ∀ phase s clIdx, spec.graphIndex phase s clIdx = m.grid.graphIndex phase s clIdx := by
  obtain ⟨r, providers, hr, -⟩ := initSetup_iff.mp (onInitialized_iff.mp h).2
  obtain ⟨hgrid, -, hS, hC, -⟩ := onInitialized_ok h
  obtain ⟨reps, hdesc, hreq⟩ := infer_describes hr
  have hlen : reps.length = m.grid.shardCount := hdesc.represent.length
  have hle : m.grid.seqLenDecode ≤ m.grid.seqLenPrefill := by
    rw [hgrid]
    obtain ⟨p, hp⟩ : ∃ p, p ∈ graphs.map (parsedOf GraphSpecs.name) := by
      refine List.exists_mem_of_ne_nil _ fun hnil => ?_
      rw [hgrid, hnil] at hS
      exact absurd hS (by decide)
    exact (ar_between hp).1.trans (ar_between hp).2
  refine ⟨r, { shards := reps.mapIdx fun s g => shardSpec g (shardOf (stateBlocks blocks) s g)
               numKvHeads := r.sizes.numKvHeads
               headDim := r.sizes.headDim
               vocabSize := r.sizes.vocabSize
               seqLenPrefill := m.grid.seqLenPrefill
               seqLenDecode := m.grid.seqLenDecode
               contextLengths := m.grid.contextLengths
               eosTokenIds := eosTokenIds
               shards_ne := ?_
               contextLengths_ne := List.ne_nil_of_length_pos hC
               ascending := hgrid ▸ contextLengths_ascending _
               contextLength_lt := hfit.lt
               decode_pos := hfit.decode
               decode_le_prefill := hle
               prefill_le := hfit.prefill
               lmHead_pairs := ?_ }, hr, ?_, rfl, rfl, rfl, rfl, rfl, ?_, ?_⟩
  · apply List.ne_nil_of_length_pos
    rw [List.length_mapIdx, hlen]
    exact hS
  · intro sh hsh hhead
    obtain ⟨s, hs, rfl⟩ := List.mem_mapIdx.mp hsh
    have hmem : shardOf (stateBlocks blocks) s reps[s] ∈ r.shards := by
      rw [hreq]
      exact List.mem_mapIdx.mpr ⟨s, hs, rfl⟩
    have hnone := lmHead_no_pairs hr hkv hmem hhead
    unfold shardSpec
    rw [List.map_eq_nil_iff]
    cases hp : (shardOf (stateBlocks blocks) s reps[s]).pairs with
    | nil => rfl
    | cons pairs rest => exact hnone pairs (hp ▸ List.mem_cons_self)
  · intro s hs
    have hs' : s < reps.length := hlen.symm ▸ hs
    refine ⟨reps[s], shardOf (stateBlocks blocks) s reps[s], ?_, ?_, ?_⟩
    · rw [hdesc.represent.getElem? hs, List.getElem?_eq_getElem hs']
    · rw [hreq, List.getElem?_mapIdx, List.getElem?_eq_getElem hs', Option.map_some]
    · rw [List.getElem?_mapIdx, List.getElem?_eq_getElem hs', Option.map_some]
  · intro phase
    cases phase <;> rfl
  · intro phase s clIdx
    unfold LLMSpec.graphIndex GraphGrid.graphIndex LLMSpec.shardCount LLMSpec.numCl
    dsimp only
    rw [List.length_mapIdx, hlen]
    rfl

end LLMSpec

theorem inferred_llmSpec_tiny :
    ∃ (inferred : InferredSpec) (spec : LLMSpec),
      inferSpecFromGraphs tinyLoaded.grid [] {} tinyLoaded.graphs = .ok inferred ∧
      (∀ s < tinyLoaded.grid.shardCount, ∃ g sh,
        tinyLoaded.graphs[tinyLoaded.grid.graphIndex .prefill s 0]? = some g ∧
        inferred.shards[s]? = some sh ∧ spec.shards[s]? = some (shardSpec g sh)) ∧
      spec.numKvHeads = inferred.sizes.numKvHeads ∧ spec.headDim = inferred.sizes.headDim ∧
      spec.vocabSize = inferred.sizes.vocabSize ∧ spec.eosTokenIds = [2] ∧
      spec.contextLengths = tinyLoaded.grid.contextLengths ∧
      (∀ phase, spec.seqLen phase = tinyLoaded.grid.seqLen phase) ∧
      ∀ phase s clIdx,
        spec.graphIndex phase s clIdx = tinyLoaded.grid.graphIndex phase s clIdx :=
  inferred_llmSpec tinyLoaded_ok
    (fun _ hblock => List.mem_singleton.mp hblock ▸ namesKV_default.keyOut)
    ⟨by decide, by decide, by decide⟩ [2]

end Geniex
