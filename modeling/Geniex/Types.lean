import Mathlib.Tactic
import Geniex.Lib.Mem

/-!
# Tensors, model specification and generation settings

The static data of a split-decoder language model.

* `DataType` and `fillEncodedZero`: the tensor element types and the pattern that stands for zero.
* `LLMSpec`: what initialisation infers from the graphs. Its fields carry what initialisation
  establishes: context lengths in ascending order, each at least as long as both sequence lengths.
* `GenerationConfig`, `RunContext`: the settings of one call and of one forward pass.

A token is an `int32_t` in the source. The model runs over any type with a `Token` instance, so
that a proof can let a token carry where it came from.
-/

namespace Geniex

/-! ## Element types -/

/-- `Qnn_DataType_t`. -/
inductive DataType
  | float16 | float32 | float64
  | int8 | int16 | int32 | int64
  | uint8 | uint16 | uint32 | uint64
  | sfixedPoint8 | sfixedPoint16 | sfixedPoint32
  | ufixedPoint8 | ufixedPoint16 | ufixedPoint32
  | bool8 | undefined
  deriving DecidableEq, Repr

/-- `TensorSpec::elementSize`. -/
def DataType.elementSize : DataType → ℕ
  | float32 | int32 | uint32 | sfixedPoint32 | ufixedPoint32 => 4
  | float16 | int16 | uint16 | sfixedPoint16 | ufixedPoint16 => 2
  | int8 | uint8 | sfixedPoint8 | ufixedPoint8 | bool8 => 1
  | int64 | uint64 | float64 => 8
  | undefined => 0

/-- The encoded zero of a type: one byte for `memset`, or a 16-bit value for `fill_n`. -/
inductive EncodedZero
  | byte (val : UInt8)
  | wide (val : UInt16)
  deriving DecidableEq, Repr

/-- `encodedZeroForDtype`; `none` is `supported == false`. -/
def encodedZeroForDtype : DataType → Option EncodedZero
  | .ufixedPoint8 | .uint8 => some (.byte 0x80)
  | .sfixedPoint8 | .int8 | .bool8 => some (.byte 0x00)
  | .ufixedPoint16 | .uint16 => some (.wide 0x8000)
  | .sfixedPoint16 | .int16 | .float16 => some (.wide 0x0000)
  | .float32 | .int32 | .uint32 | .sfixedPoint32 | .ufixedPoint32 => some (.byte 0x00)
  | _ => none

/-- Byte `i` of a little-endian array of the 16-bit value `v`. -/
def wideByte (v : UInt16) (i : ℕ) : UInt8 := if i % 2 = 0 then v.toUInt8 else (v >>> 8).toUInt8

/-- `fillEncodedZero(m + dst, n_bytes, dt)`: no write at all for an unsupported type. -/
def fillEncodedZero (dt : DataType) (m : ℕ → UInt8) (dst nBytes : ℕ) : ℕ → UInt8 :=
  match encodedZeroForDtype dt with
  | none => m
  | some (.wide v) => FlatMem.fill m dst (nBytes / 2 * 2) (wideByte v)
  | some (.byte v) => FlatMem.fill m dst nBytes fun _ => v

/-- The padding of a tensor of any type stays in the range it is given. -/
theorem fillEncodedZero_padsOnly (dt : DataType) : FlatMem.PadsOnly (fillEncodedZero dt) := by
  intro m dst n i h
  unfold fillEncodedZero
  cases encodedZeroForDtype dt with
  | none => rfl
  | some z =>
    cases z with
    | byte v => exact FlatMem.fill_out h
    | wide v => exact FlatMem.fill_out (by omega)

/-! ## Tokens -/

/-- A token type: its id in the vocabulary, and the token the model makes of a sampled id. -/
class Token (τ : Type) where
  /-- The vocabulary id. -/
  id : τ → Int32
  /-- The token of a sampled id. -/
  ofId : Int32 → τ

instance : Token Int32 := ⟨fun t => t, fun t => t⟩

/-! ## Specification -/

/-- Prefill (`phase == 0`) or decode (`phase == 1`). -/
inductive Phase
  | prefill
  | decode
  deriving DecidableEq, Repr

/-- The number the source uses for the phase. -/
def Phase.index : Phase → ℕ
  | prefill => 0
  | decode => 1

/-- `KVTensorPair`, by the element types of its key and value tensors. -/
structure KVTensorPair where
  keyType : DataType
  valueType : DataType
  deriving DecidableEq, Repr

/-- `ShardSpec`, with the tensors its graphs have. -/
structure ShardSpec where
  lmHeadOnly : Bool
  hasAttentionMask : Bool
  /-- Cos and sin inputs, with a row for each token. -/
  hasCosSin : Bool
  pairs : List KVTensorPair
  deriving DecidableEq, Repr

/-- `LLMSpec`, after `onInitialized`. -/
structure LLMSpec where
  shards : List ShardSpec
  numKvHeads : ℕ
  headDim : ℕ
  vocabSize : ℕ
  seqLenPrefill : ℕ
  seqLenDecode : ℕ
  contextLengths : List ℕ
  eosTokenIds : List Int32
  /-- At least one graph was loaded. -/
  shards_ne : shards ≠ []
  contextLengths_ne : contextLengths ≠ []
  /-- The context lengths come from a `std::set`. -/
  ascending : contextLengths.Pairwise (· < ·)
  /-- `CL - AR` and `AR` are dimensions of tensors, which are `uint32_t`. -/
  contextLength_lt : ∀ cl ∈ contextLengths, cl < 2 ^ 33
  decode_pos : 0 < seqLenDecode
  /-- The two are the least and the greatest AR of the graphs. -/
  decode_le_prefill : seqLenDecode ≤ seqLenPrefill
  /-- The KV input of a graph has `CL - AR` columns. -/
  prefill_le : ∀ cl ∈ contextLengths, seqLenPrefill ≤ cl
  /-- `lm_head_only` asks for a graph without KV outputs. -/
  lmHead_pairs : ∀ s ∈ shards, s.lmHeadOnly = true → s.pairs = []

/-- A KV input tensor: the shard, the pair within the shard, and key or value. -/
structure KVTensor where
  shard : ℕ
  pair : ℕ
  isKey : Bool
  deriving DecidableEq, Repr

namespace LLMSpec

variable (spec : LLMSpec)

/-- `shard_count_`. -/
def shardCount : ℕ := spec.shards.length

/-- `num_cl_`. -/
def numCl : ℕ := spec.contextLengths.length

/-- `spec_.context_lengths[cl_idx]`. -/
def cl (clIdx : ℕ) : ℕ := spec.contextLengths.getD clIdx 0

/-- `spec_.context_lengths.back()`. -/
def maxCl : ℕ := spec.cl (spec.numCl - 1)

/-- The AR of a phase. -/
def seqLen : Phase → ℕ
  | .prefill => spec.seqLenPrefill
  | .decode => spec.seqLenDecode

/-- The token dimension of the KV input of a graph. -/
def kvLen (phase : Phase) (clIdx : ℕ) : ℕ := spec.cl clIdx - spec.seqLen phase

/-- `phase * (shard_count_ * num_cl_) + shard * num_cl_ + cl_idx` -/
def graphIndex (phase : Phase) (shard clIdx : ℕ) : ℕ :=
  phase.index * (spec.shardCount * spec.numCl) + shard * spec.numCl + clIdx

/-- The KV pairs of a shard. -/
def pairs (shard : ℕ) : List KVTensorPair :=
  match spec.shards[shard]? with
  | some s => s.pairs
  | none => []

/-- `spec_.shards[s].lm_head_only` -/
def lmHeadOnly (shard : ℕ) : Bool :=
  match spec.shards[shard]? with
  | some s => s.lmHeadOnly
  | none => false

/-- Whether the graphs of a shard have the attention-mask input. -/
def hasAttentionMask (shard : ℕ) : Bool :=
  match spec.shards[shard]? with
  | some s => s.hasAttentionMask
  | none => false

/-- Whether the graphs of a shard have the cos and sin inputs. -/
def hasCosSin (shard : ℕ) : Bool :=
  match spec.shards[shard]? with
  | some s => s.hasCosSin
  | none => false

/-- The KV tensors of a shard that exist. -/
def hasTensor (t : KVTensor) : Bool := t.pair < (spec.pairs t.shard).length

/-- The element type of a KV tensor. -/
def dtype (t : KVTensor) : DataType :=
  match (spec.pairs t.shard)[t.pair]? with
  | some p => if t.isKey then p.keyType else p.valueType
  | none => .undefined

/-- Rows of a KV tensor: key `[H, 1, head_dim, kv_len]`, value `[H, 1, kv_len, head_dim]`. -/
def rows (t : KVTensor) : ℕ :=
  if t.isKey then spec.numKvHeads * spec.headDim else spec.numKvHeads

/-- Bytes of one column of one row of a KV tensor. -/
def tokenSize (t : KVTensor) : ℕ :=
  if t.isKey then (spec.dtype t).elementSize else spec.headDim * (spec.dtype t).elementSize

/-- `byteCount` of a KV tensor at a given number of columns. -/
def byteCount (t : KVTensor) (kvLen : ℕ) : ℕ := spec.rows t * (kvLen * spec.tokenSize t)

/-! ## Bounds that the fields give -/

theorem numCl_pos : 0 < spec.numCl := List.length_pos_of_ne_nil spec.contextLengths_ne

theorem shardCount_pos : 0 < spec.shardCount := List.length_pos_of_ne_nil spec.shards_ne

theorem cl_mem {i : ℕ} (h : i < spec.numCl) : spec.cl i ∈ spec.contextLengths := by
  unfold cl
  rw [← List.getElem_eq_getD (h := h) 0]
  exact List.getElem_mem h

theorem cl_lt {i j : ℕ} (hij : i < j) (hj : j < spec.numCl) : spec.cl i < spec.cl j := by
  unfold cl
  have hi : i < spec.contextLengths.length := lt_trans hij hj
  rw [← List.getElem_eq_getD (h := hi) 0, ← List.getElem_eq_getD (h := hj) 0]
  exact List.pairwise_iff_getElem.mp spec.ascending i j hi hj hij

theorem cl_le {i j : ℕ} (hij : i ≤ j) (hj : j < spec.numCl) : spec.cl i ≤ spec.cl j := by
  rcases Nat.lt_or_eq_of_le hij with h | h
  · exact (spec.cl_lt h hj).le
  · rw [h]

/-- No context length exceeds the last one. -/
theorem cl_le_maxCl {i : ℕ} (h : i < spec.numCl) : spec.cl i ≤ spec.maxCl :=
  spec.cl_le (by omega) (by have := spec.numCl_pos; omega)

theorem maxCl_lt : spec.maxCl < 2 ^ 33 :=
  spec.contextLength_lt _ (spec.cl_mem (by have := spec.numCl_pos; omega))

theorem numCl_le : spec.numCl ≤ spec.maxCl + 1 := by
  -- strictly ascending naturals: the i-th is at least i
  have h : ∀ i, i < spec.numCl → i ≤ spec.cl i := by
    intro i
    induction i with
    | zero => intro _; exact Nat.zero_le _
    | succ i ih =>
      intro hi
      have := ih (by omega)
      have : spec.cl i < spec.cl (i + 1) := spec.cl_lt (by omega) hi
      omega
  have hpos := spec.numCl_pos
  have := h (spec.numCl - 1) (by omega)
  unfold maxCl
  omega

theorem seqLen_le_prefill (p : Phase) : spec.seqLen p ≤ spec.seqLenPrefill := by
  cases p with
  | prefill => exact le_rfl
  | decode => exact spec.decode_le_prefill

theorem seqLen_pos (p : Phase) : 0 < spec.seqLen p := by
  have := spec.decode_pos
  have := spec.decode_le_prefill
  cases p <;> simp only [seqLen] <;> omega

/-- The first chunk of a prompt has a token. -/
theorem firstChunk_ne_nil {α : Type} {tokens : List α} (hne : tokens ≠ []) :
    tokens.take spec.seqLenPrefill ≠ [] := by
  have hpos : 0 < spec.seqLenPrefill := spec.seqLen_pos .prefill
  rw [ne_eq, List.take_eq_nil_iff, not_or]
  exact ⟨hpos.ne', hne⟩

/-- Every graph's AR fits in its context length. -/
theorem seqLen_le_cl (p : Phase) {i : ℕ} (h : i < spec.numCl) : spec.seqLen p ≤ spec.cl i :=
  (spec.seqLen_le_prefill p).trans (spec.prefill_le _ (spec.cl_mem h))

theorem seqLen_le_maxCl (p : Phase) : spec.seqLen p ≤ spec.maxCl :=
  spec.seqLen_le_cl p (by have := spec.numCl_pos; omega)

theorem kvLen_mono {p : Phase} {i j : ℕ} (hij : i ≤ j) (hj : j < spec.numCl) :
    spec.kvLen p i ≤ spec.kvLen p j :=
  Nat.sub_le_sub_right (spec.cl_le hij hj) _

theorem kvLen_prefill_le (i : ℕ) : spec.kvLen .prefill i ≤ spec.kvLen .decode i :=
  Nat.sub_le_sub_left spec.decode_le_prefill _

theorem kvLen_le_last {p : Phase} {i : ℕ} (h : i < spec.numCl) :
    spec.kvLen p i ≤ spec.maxCl - spec.seqLen p :=
  Nat.sub_le_sub_right (spec.cl_le_maxCl h) _

theorem kvLen_last {p : Phase} {i : ℕ} (h : i + 1 = spec.numCl) :
    spec.kvLen p i = spec.maxCl - spec.seqLen p := by
  unfold kvLen maxCl
  rw [← h, Nat.add_sub_cancel]

/-- A shard that is only an LM head has no KV tensors. -/
theorem pairs_of_lmHeadOnly {s : ℕ} (h : spec.lmHeadOnly s = true) : spec.pairs s = [] := by
  unfold lmHeadOnly at h
  unfold pairs
  split at h
  · rename_i sh hs
    exact spec.lmHead_pairs sh (List.mem_of_getElem? hs) h
  · cases h

end LLMSpec

/-! ## One forward pass and one call -/

/-- `LLMRunContext`. -/
structure RunContext (τ : Type) where
  tokenIds : List τ
  nPast : ℕ
  currLen : ℕ
  phase : Phase

/-- `GenerationConfig`: the fields `LLMModel::generate` reads. -/
structure GenerationConfig where
  maxTokens : Int32 := 512
  slidingWindow : Bool := false
  slidingWindowNKeep : Int32 := 4
  enableSampling : Bool := false
  temperature : Float32 := 1.0
  topP : Float32 := 1.0
  minP : Float32 := 0.0
  topK : Int32 := 0
  repetitionPenalty : Float32 := 1.0
  presencePenalty : Float32 := 0.0
  frequencyPenalty : Float32 := 0.0
  penaltyLastN : Int32 := 64
  seed : UInt32
  grammarStr : String := ""
  grammarRoot : String := "root"
  /-- Whether the pipeline injected a tokenizer, which a grammar needs. -/
  tokenizer : Bool := false

/-- `samplerCfgEqual`: agreement on every field that affects the sampler chain. -/
def samplerCfgEqual (a b : GenerationConfig) : Bool :=
  a.enableSampling == b.enableSampling && a.temperature == b.temperature && a.topP == b.topP &&
    a.minP == b.minP && a.topK == b.topK && a.repetitionPenalty == b.repetitionPenalty &&
    a.presencePenalty == b.presencePenalty && a.frequencyPenalty == b.frequencyPenalty &&
    a.penaltyLastN == b.penaltyLastN && a.seed == b.seed && a.grammarStr == b.grammarStr &&
    a.grammarRoot == b.grammarRoot

/-- What the token callback does with a token. A null callback continues always. -/
inductive CallbackAnswer
  | continue
  | stop
  | throw
  deriving DecidableEq, Repr

end Geniex
