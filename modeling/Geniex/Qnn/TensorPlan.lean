import Geniex.Lib.Layout

/-!
# The shared-memory plan

How `QnnApi` finds a place for every input and output tensor of every graph:

* `parseIOTensorsAndAccumulate` groups the names by the set of contexts that mention them and keeps
  the greatest size of each name; a KV input is folded into the slot of its output.
* `allocateBuffers` lays out one chunk for each set of contexts.
* `registerTensorsWithBackend` derives the offset of each tensor of a graph from the slots.

Sizes are those of `getAlignedSize`, as natural numbers. The update method is not `POINTER_SHIFT`.
-/

namespace Geniex

/-- A tensor name. `std::string` compares as the list of its characters does. -/
abbrev TensorName := List Char

/-- `CtxBitVector`. -/
abbrev CtxBitVector := Int32

/-- A graph of a context binary, with the names and sizes of its tensors. -/
structure GraphInfo where
  contextIdx : ℕ
  inputTensors : List (TensorName × ℕ)
  outputTensors : List (TensorName × ℕ)

/-- An entry of `m_graphtoIOMap`, by the sizes of the tensors. -/
abbrev IOMap := Std.TreeMap TensorName ℕ

/-- `m_graphtoIOMap[gIdx]`, filled from the inputs, then from the outputs. -/
def GraphInfo.io (g : GraphInfo) : IOMap :=
  (∅ : IOMap).insertMany (g.inputTensors ++ g.outputTensors)

/-! ## Names -/

/-- `tname.starts_with("past_")` -/
def isPast (tname : TensorName) : Bool := "past_".toList.isPrefixOf tname

/-- `tname.starts_with("past_") && tname.ends_with("_in")` -/
def isKVIn (tname : TensorName) : Bool := isPast tname && "_in".toList.isSuffixOf tname

/-- `tname.substr(0, tname.rfind('_'))`; all of a name without an underscore. -/
def stem (tname : TensorName) : TensorName :=
  match tname.reverse.dropWhile (· != '_') with
  | [] => tname
  | _ :: rest => rest.reverse

/-- The name of the KV input that goes with a KV output. -/
def inName (tname : TensorName) : TensorName := stem tname ++ "_in".toList

/-- The size of the KV input that shares the slot of a tensor, if there is one. -/
def kvInSize (io : IOMap) (tname : TensorName) : Option ℕ :=
  if isPast tname then io[inName tname]? else none

/-! ## Accumulation -/

/-- What `parseIOTensorsAndAccumulate` keeps. -/
structure AllocState where
  contextAllocMap : Std.TreeMap CtxBitVector IOMap := ∅
  tensorCtxMap : Std.TreeMap TensorName CtxBitVector := ∅
  ctxToHash : Std.TreeMap ℕ CtxBitVector := ∅
  loraWeightEnabled : Bool := false
  lmHeadWeightInput : Bool := false

namespace AllocState

/-- `m_contextAllocMap[ctx]` -/
def chunk (st : AllocState) (ctx : CtxBitVector) : IOMap := st.contextAllocMap.getD ctx ∅

/-- `m_contextAllocMap[ctx] = chunk` -/
def setChunk (st : AllocState) (ctx : CtxBitVector) (chunk : IOMap) : AllocState :=
  { st with contextAllocMap := st.contextAllocMap.insert ctx chunk }

/-- `m_contextAllocMap[ctx][tname] = size; tensor_ctx_map[tname] = ctx;` -/
def put (st : AllocState) (ctx : CtxBitVector) (tname : TensorName) (size : ℕ) : AllocState :=
  { st.setChunk ctx ((st.chunk ctx).insert tname size) with
    tensorCtxMap := st.tensorCtxMap.insert tname ctx }

/-- The two flags. -/
def note (st : AllocState) (tname : TensorName) : AllocState :=
  { st with
    loraWeightEnabled := st.loraWeightEnabled || decide ("lora".toList <:+: tname)
    lmHeadWeightInput := st.lmHeadWeightInput || tname == "weight".toList }

end AllocState

/-- The body of the loop over the tensors of a graph. -/
def accumulateTensor (io : IOMap) (tcontext : CtxBitVector) (st : AllocState)
    (tensor : TensorName × ℕ) : AllocState :=
  let st := st.note tensor.1
  if isKVIn tensor.1 then st
  else
    let size := tensor.2 + (kvInSize io tensor.1).getD 0
    match st.tensorCtxMap[tensor.1]? with
    | none => st.put tcontext tensor.1 size
    | some ctxs =>
      let size := max ((st.chunk ctxs).getD tensor.1 0) size
      let st := if ctxs &&& tcontext = 0 then st.setChunk ctxs ((st.chunk ctxs).erase tensor.1)
        else st
      st.put (tcontext ||| ctxs) tensor.1 size

/-- The bit of a context, a new one if it has none. The shift is that of a 32-bit register: its
amount is taken modulo 32. -/
def contextBit (st : AllocState) (contextIdx : ℕ) : CtxBitVector :=
  st.ctxToHash.getD contextIdx (1 <<< Int32.ofNat st.ctxToHash.size)

/-- The body of the loop over the graphs; chunks left empty are dropped at its end. -/
def accumulateGraph (st : AllocState) (g : GraphInfo) : AllocState :=
  let tcontext := contextBit st g.contextIdx
  let st := { st with ctxToHash := st.ctxToHash.insert g.contextIdx tcontext }
  let st := g.io.toList.foldl (accumulateTensor g.io tcontext) st
  { st with contextAllocMap := st.contextAllocMap.filter fun _ chunk => !chunk.isEmpty }

/-- `parseIOTensorsAndAccumulate`. -/
def parseIOTensorsAndAccumulate (graphs : List GraphInfo) : AllocState :=
  graphs.foldl accumulateGraph {}

/-! ## Allocation -/

/-- The sizes of `m_fusedBuffers`, and `m_tensorAllocInfo`: the chunk and offset of each name. -/
structure Buffers where
  fusedBuffers : List ℕ
  tensorAllocInfo : Std.TreeMap TensorName (ℕ × ℕ)

/-- The body of the loop of `allocateBuffers` over a chunk's tensors. -/
def placeTensor (chunkIdx : ℕ) (st : Std.TreeMap TensorName (ℕ × ℕ) × ℕ) (t : TensorName × ℕ) :
    Std.TreeMap TensorName (ℕ × ℕ) × ℕ :=
  (st.1.insert t.1 (chunkIdx, st.2), st.2 + t.2)

/-- The body of the loop of `allocateBuffers` over the chunks; `rpcAlloc` says whether the
allocation of a chunk of the given index and size succeeds. -/
def allocateChunk (rpcAlloc : ℕ → ℕ → Bool) (st : Buffers) (tensorSizes : IOMap) :
    Option Buffers :=
  let chunkIdx := st.fusedBuffers.length
  let placed := tensorSizes.toList.foldl (placeTensor chunkIdx) (st.tensorAllocInfo, 0)
  if placed.2 = 0 then none
  else if rpcAlloc chunkIdx placed.2 then some ⟨st.fusedBuffers ++ [placed.2], placed.1⟩
  else none

/-- `allocateBuffers`. -/
def allocateBuffers (rpcAlloc : ℕ → ℕ → Bool) (allocsPerChunk : Std.TreeMap CtxBitVector IOMap)
    (st : Buffers) : Option Buffers :=
  allocsPerChunk.toList.foldlM (fun st chunk => allocateChunk rpcAlloc st chunk.2) st

/-! ## Registration -/

/-- The place of a tensor: chunk, offset, size. -/
structure TensorAlloc where
  allocIdx : ℕ
  offset : ℕ
  size : ℕ
  deriving DecidableEq

/-- `graph_allocs`. -/
abbrev GraphAllocs := Std.TreeMap TensorName TensorAlloc

/-- The body of the loop of `registerTensorsWithBackend`; `none` is the exception of `at`. -/
def registerTensor (info : Std.TreeMap TensorName (ℕ × ℕ)) (io : IOMap) (allocs : GraphAllocs)
    (tensor : TensorName × ℕ) : Option GraphAllocs :=
  if isKVIn tensor.1 then some allocs
  else do
    let (allocIdx, offset) ← info[tensor.1]?
    match kvInSize io tensor.1 with
    | some kvSize =>
      some ((allocs.insert (inName tensor.1) ⟨allocIdx, offset, kvSize⟩).insert tensor.1
        ⟨allocIdx, offset + kvSize, tensor.2⟩)
    | none => some (allocs.insert tensor.1 ⟨allocIdx, offset, tensor.2⟩)

/-- `registerTensorsWithBackend`; `mapFused` says whether the backend accepts the allocations. -/
def registerTensorsWithBackend (mapFused : GraphAllocs → Bool)
    (info : Std.TreeMap TensorName (ℕ × ℕ)) (g : GraphInfo) : Option GraphAllocs := do
  let allocs ← g.io.toList.foldlM (registerTensor info g.io) ∅
  if mapFused allocs then some allocs else none

/-! ## The plan -/

/-- What the three functions leave. -/
structure TensorPlan where
  alloc : AllocState
  buffers : Buffers
  graphAllocs : List GraphAllocs

/-- The three functions, as `createFromBinaryHtp` calls them; `fused` are the chunks that the
allocator holds already. -/
def planTensors (rpcAlloc : ℕ → ℕ → Bool) (mapFused : GraphAllocs → Bool) (fused : List ℕ)
    (graphs : List GraphInfo) : Option TensorPlan := do
  let alloc := parseIOTensorsAndAccumulate graphs
  let buffers ← allocateBuffers rpcAlloc alloc.contextAllocMap ⟨fused, ∅⟩
  let graphAllocs ← graphs.mapM (registerTensorsWithBackend mapFused buffers.tensorAllocInfo)
  some ⟨alloc, buffers, graphAllocs⟩

end Geniex
