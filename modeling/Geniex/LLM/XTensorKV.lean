import Geniex.LLM.KVCache
import Geniex.LLM.KVPairs
import Geniex.Lib.RowMajor
import Mathlib.Data.List.GetD

/-!
# The KV cache of the tensor library

`XTensorLLMUtils` keeps the inputs of a graph as vectors of floats and moves the columns of its KV
tensors through views: `update_kv_cache` after every execution, `transfer_kv_cache` from the graph
of the prompt to the graph of one token. A turn of the example runs the prompt in chunks, transfers
the cache once and then decodes token by token.

* `ElementWise`: what the code relies on in an assignment between two views of the library.
* `updateKvCache_copyKV`: on floats it is the row copy of `copyKV`.
* `turn_cache`: after a turn every KV input of the one-token graph holds, column by column, what
  the graphs computed for the tokens of the turn, and zeros behind.

The library is a parameter: an assignment whose ranges lie within the tensors is made element by
element, and nothing is assumed of others.
-/

namespace Geniex

open FlatMem

/-! ## Views -/

namespace XTensor

/-- The elements that one step along an axis passes over. -/
def stride (shape : List ℕ) (axis : ℕ) : ℕ := (shape.drop (axis + 1)).prod

/-- The steps of an axis. -/
def extent (shape : List ℕ) (axis : ℕ) : ℕ := shape.getD axis 1

/-- `view(d, .., range(first, first + n), ..) = view(s, .., range(0, n), ..)` for the two vectors
adapted to the two shapes: the ranges are on one axis, every other axis is whole. From the axis, the
shapes, `first`, `n` and the two vectors the library makes the vector assigned to. -/
abbrev ViewAssign (α : Type) := ℕ → List ℕ → List ℕ → ℕ → ℕ → List α → List α → List α

/-- Two views of one shape: the tensors have the same rows, and the same elements in a column of a
row, and the ranges lie within them. -/
structure Views {α : Type} (rows axis : ℕ) (shape srcShape : List ℕ) (first n : ℕ)
    (dst src : List α) : Prop where
  dst_size : dst.length = rows * (extent shape axis * stride shape axis)
  src_size : src.length = rows * (extent srcShape axis * stride shape axis)
  stride_eq : stride srcShape axis = stride shape axis
  dst_range : first + n ≤ extent shape axis
  src_range : n ≤ extent srcShape axis

/-- What the code relies on in the library: an assignment between two views of one shape is made
element by element, and everything outside the view stays. -/
structure ElementWise {α : Type} (assign : ViewAssign α) : Prop where
  length : ∀ {rows axis : ℕ} {shape srcShape : List ℕ} {first n : ℕ} {dst src : List α},
    Views rows axis shape srcShape first n dst src →
      (assign axis shape srcShape first n dst src).length = dst.length
  cell : ∀ {rows axis : ℕ} {shape srcShape : List ℕ} {first n : ℕ} {dst src : List α} {r c b : ℕ},
    Views rows axis shape srcShape first n dst src → r < rows → c < extent shape axis →
      b < stride shape axis →
      (assign axis shape srcShape first n dst src)[
          FlatMem.cell (extent shape axis) (stride shape axis) r c b]? =
        if first ≤ c ∧ c < first + n then
          src[FlatMem.cell (extent srcShape axis) (stride shape axis) r (c - first) b]?
        else dst[FlatMem.cell (extent shape axis) (stride shape axis) r c b]?

end XTensor

open XTensor

/-! ## Utilities of a graph -/

/-- The vectors of a graph's inputs or outputs. -/
abbrev TensorData (α : Type) := List (List α)

/-- A KV tensor of a layer: key or value. -/
structure PastTensor where
  isKey : Bool
  layer : ℕ
  deriving DecidableEq, Repr

namespace PastTensor

variable (t : PastTensor)

/-- `"past_key_" + to_string(i)` or `"past_value_" + to_string(i)`. -/
def stem : List Char :=
  (if t.isKey then "past_key_".toList else "past_value_".toList) ++ Nat.toDigits 10 t.layer

/-- `key_in`, `val_in` -/
def nameIn : List Char := t.stem ++ "_in".toList

/-- `key_out`, `val_out` -/
def nameOut : List Char := t.stem ++ "_out".toList

/-- The axis of the tokens. -/
def axis : ℕ := if t.isKey then 3 else 2

end PastTensor

/-- `XTensorLLMUtils`, with the names that `initializeTensorMappings` reads off its graph. -/
structure XTensorLLMUtils where
  seqLen : ℕ
  kvLen : ℕ
  numKvHeads : ℕ
  headDim : ℕ
  startLayerIdx : ℕ
  endLayerIdx : ℕ
  inStatesName : List Char
  inputTensorNames : List (List Char)
  outputTensorNames : List (List Char)

/-- `tensor_order[name]`: the last index of a name, or the 0 that `operator[]` inserts. -/
def tensorOrder (names : List (List Char)) (name : List Char) : ℕ :=
  if name ∈ names then names.length - 1 - names.reverse.idxOf name else 0

namespace XTensorLLMUtils

variable {α : Type} (assign : ViewAssign α) (u : XTensorLLMUtils)

/-- The KV tensors of the layers, in the order of the loops. -/
def tensors : List PastTensor :=
  (List.range' u.startLayerIdx (u.endLayerIdx + 1 - u.startLayerIdx)).flatMap fun i =>
    [⟨true, i⟩, ⟨false, i⟩]

/-- `{num_kv_heads, 1, head_dim, len}` for keys, `{num_kv_heads, 1, len, head_dim}` for values. -/
def shape (t : PastTensor) (len : ℕ) : List ℕ :=
  if t.isKey then [u.numKvHeads, 1, u.headDim, len] else [u.numKvHeads, 1, len, u.headDim]

/-- `input_tensor_order[key_in]` -/
def inIdx (t : PastTensor) : ℕ := tensorOrder u.inputTensorNames t.nameIn

/-- `output_tensor_order[key_out]` -/
def outIdx (t : PastTensor) : ℕ := tensorOrder u.outputTensorNames t.nameOut

/-- `prepare_inputs`, in the order of the inputs: zeros for the KV tensors. -/
def prepareInputs [Zero α] (rest : List Char → List α) : TensorData α :=
  u.inputTensorNames.map fun name =>
    match u.tensors.find? fun t => t.nameIn = name with
    | some t => List.replicate (u.shape t u.kvLen).prod 0
    | none => rest name

/-- `update_kv_cache` -/
def updateKvCache (input output : TensorData α) (nPast currLen outSeqLen : ℕ) : TensorData α :=
  u.tensors.foldl (fun data t => data.modify (u.inIdx t) fun dst =>
    assign t.axis (u.shape t u.kvLen) (u.shape t outSeqLen) nPast currLen dst
      (output.getD (u.outIdx t) [])) input

/-- `transfer_kv_cache`: the row widths are read off the sizes of the vectors, and a tensor that
the graph does not have is left alone. -/
def transferKvCache (dst src : TensorData α) (nPast : ℕ) : TensorData α :=
  u.tensors.foldl (fun data t => data.modify (u.inIdx t) fun d =>
    if t.nameIn ∈ u.inputTensorNames then
      assign t.axis (u.shape t (d.length / (u.numKvHeads * u.headDim)))
        (u.shape t ((src.getD (u.inIdx t) []).length / (u.numKvHeads * u.headDim))) 0 nPast d
        (src.getD (u.inIdx t) [])
    else d) dst

end XTensorLLMUtils

/-! ## A turn of the example -/

/-- One execution: what the loop writes for it, and what `readOutputs` reads after it. -/
structure XTensorPass (α : Type) where
  states : List α
  cos : List α
  sin : List α
  mask : List α
  outputs : TensorData α

namespace XTensorLLMUtils

variable {α : Type} (assign : ViewAssign α) (u : XTensorLLMUtils)

/-- The inputs of an execution that are not KV tensors. -/
def stepInputs (x : XTensorPass α) : List (List Char × List α) :=
  [(u.inStatesName, x.states), ("position_ids_cos".toList, x.cos),
    ("position_ids_sin".toList, x.sin), ("attention_mask".toList, x.mask)]

/-- `input_data[input_tensor_order[name]] = value;` for each of them. -/
def setInputs (x : XTensorPass α) (data : TensorData α) : TensorData α :=
  (u.stepInputs x).foldl (fun d p => d.set (tensorOrder u.inputTensorNames p.1) p.2) data

/-- One iteration of either loop: set the inputs, execute, append the columns of the tokens. -/
def runPass (x : XTensorPass α) (nPast currLen : ℕ) (data : TensorData α) : TensorData α :=
  u.updateKvCache assign (u.setInputs x data) x.outputs nPast currLen u.seqLen

/-- `while (tokens_processed < curr_len)`: execution `k` runs chunk `k` of the prompt. Every
iteration takes a token, so `fuel` is the length of the prompt. -/
def prefillLoop (currLen : ℕ) (passes : ℕ → XTensorPass α) :
    ℕ → ℕ → ℕ → TensorData α → TensorData α
  | 0, _, _, data => data
  | fuel + 1, k, nPast, data =>
    if nPast < currLen then
      prefillLoop currLen passes fuel (k + 1) (nPast + min u.seqLen (currLen - nPast))
        (u.runPass assign (passes k) nPast (min u.seqLen (currLen - nPast)) data)
    else data

/-- The decode loop, one token an execution. -/
def decodeLoop : List (XTensorPass α) → ℕ → TensorData α → TensorData α
  | [], _, data => data
  | x :: xs, nPast, data => decodeLoop xs (nPast + 1) (u.runPass assign x nPast 1 data)

end XTensorLLMUtils

/-- The KV inputs of the one-token graph of a shard after a turn: `p` and `d` are the utilities of
the shard's graphs for the prompt and for one token. -/
def xtensorTurn {α : Type} [Zero α] (assign : ViewAssign α) (p d : XTensorLLMUtils)
    (rest rest' : List Char → List α) (currLen : ℕ) (prefill : ℕ → XTensorPass α)
    (decode : List (XTensorPass α)) : TensorData α :=
  d.decodeLoop assign decode currLen
    (d.transferKvCache assign (d.prepareInputs rest')
      (p.prefillLoop assign currLen prefill currLen 0 0 (p.prepareInputs rest)) currLen)

/-! ## Where the tensors are -/

/-- An index of a name holds the name. -/
theorem getElem?_tensorOrder {names : List (List Char)} {name : List Char} (h : name ∈ names) :
    names[tensorOrder names name]? = some name := by
  have hrev : name ∈ names.reverse := List.mem_reverse.mpr h
  have hlt : names.reverse.idxOf name < names.reverse.length := List.idxOf_lt_length_of_mem hrev
  have hat : names.reverse[names.reverse.idxOf name]? = some name := List.getElem?_idxOf hrev
  unfold tensorOrder
  rw [if_pos h]
  rw [List.length_reverse] at hlt
  rwa [List.getElem?_reverse hlt] at hat

theorem tensorOrder_inj {names : List (List Char)} {a b : List Char} (ha : a ∈ names)
    (hb : b ∈ names) (h : tensorOrder names a = tensorOrder names b) : a = b := by
  have hat := getElem?_tensorOrder ha
  rw [h, getElem?_tensorOrder hb] at hat
  exact (Option.some.inj hat).symm

/-- Two KV tensors have two names. -/
theorem PastTensor.stem_inj {t t' : PastTensor} (h : t.stem = t'.stem) : t = t' := by
  obtain ⟨k, i⟩ := t
  obtain ⟨k', i'⟩ := t'
  unfold PastTensor.stem at h
  have hkey : ∀ l : List Char, ("past_key_".toList ++ l)[5]? = some 'k' := fun _ => rfl
  have hvalue : ∀ l : List Char, ("past_value_".toList ++ l)[5]? = some 'v' := fun _ => rfl
  cases k <;> cases k'
  · have hdigits := List.append_cancel_left h
    rw [← number_toDigits i, hdigits, number_toDigits]
  · have hletter := (hvalue _).symm.trans ((congrArg (·[5]?) h).trans (hkey _))
    exact absurd hletter (by decide)
  · have hletter := (hkey _).symm.trans ((congrArg (·[5]?) h).trans (hvalue _))
    exact absurd hletter (by decide)
  · have hdigits := List.append_cancel_left h
    rw [← number_toDigits i, hdigits, number_toDigits]

theorem PastTensor.nameIn_inj {t t' : PastTensor} (h : t.nameIn = t'.nameIn) : t = t' :=
  stem_inj (List.append_cancel_right h)

/-- Changes of single elements at places apart: each element sees its own. -/
theorem foldl_modify_getElem? {κ β : Type} (idx : κ → ℕ) (f : κ → β → β) {l : List κ}
    (hl : (l.map idx).Nodup) (data : List β) (i : ℕ) :
    (l.foldl (fun d t => d.modify (idx t) (f t)) data)[i]? =
      match l.find? fun t => idx t = i with
      | some t => data[i]?.map (f t)
      | none => data[i]? := by
  induction l generalizing data with
  | nil => rfl
  | cons t l ih =>
    rw [List.map_cons, List.nodup_cons] at hl
    rw [List.foldl_cons, ih hl.2, List.find?_cons]
    by_cases hi : idx t = i
    · have hnone : l.find? (fun t => idx t = i) = none := by
        rw [List.find?_eq_none]
        intro t' ht' h
        exact hl.1 (List.mem_map.mpr ⟨t', ht', (of_decide_eq_true h).trans hi.symm⟩)
      simp [hnone, hi]
    · simp [hi]

theorem find?_eq_of_mem {κ : Type} {idx : κ → ℕ} {l : List κ} {t : κ} (ht : t ∈ l)
    (hinj : ∀ t' ∈ l, idx t' = idx t → t' = t) :
    l.find? (fun t' => idx t' = idx t) = some t := by
  cases hfind : l.find? (fun t' => idx t' = idx t) with
  | none => exact absurd (decide_eq_true rfl) (List.find?_eq_none.mp hfind t ht)
  | some t' =>
    have hsame : idx t' = idx t := by simpa using List.find?_some hfind
    rw [hinj t' (List.mem_of_find?_eq_some hfind) hsame]

namespace XTensorLLMUtils

variable {α : Type} {u : XTensorLLMUtils} {t : PastTensor}

/-- Every KV tensor occurs once in the loops. -/
theorem tensors_nodup : u.tensors.Nodup := by
  unfold tensors
  rw [List.nodup_flatMap]
  refine ⟨fun i _ => by simp, ?_⟩
  refine (List.nodup_range' (h := Nat.one_pos)).imp fun {i j} hij => ?_
  intro t hi hj
  have hlayer : ∀ k, t ∈ [(⟨true, k⟩ : PastTensor), ⟨false, k⟩] → t.layer = k := by
    intro k hk
    rcases List.mem_pair.mp hk with rfl | rfl <;> rfl
  exact hij ((hlayer i hi).symm.trans (hlayer j hj))

/-- The rows of a KV tensor. -/
def rows (u : XTensorLLMUtils) (t : PastTensor) : ℕ :=
  if t.isKey then u.numKvHeads * u.headDim else u.numKvHeads

/-- The elements of one column of one row. -/
def units (u : XTensorLLMUtils) (t : PastTensor) : ℕ := if t.isKey then 1 else u.headDim

@[simp] theorem stride_shape (len : ℕ) : stride (u.shape t len) t.axis = u.units t := by
  unfold stride shape units PastTensor.axis
  split_ifs <;> simp

@[simp] theorem extent_shape (len : ℕ) : extent (u.shape t len) t.axis = len := by
  unfold extent shape PastTensor.axis
  split_ifs <;> simp

theorem shape_prod (len : ℕ) : (u.shape t len).prod = u.rows t * (len * u.units t) := by
  unfold shape rows units
  split_ifs <;> simp [Nat.mul_assoc]

theorem rows_units : u.rows t * u.units t = u.numKvHeads * u.headDim := by
  unfold rows units
  split_ifs <;> simp

/-- The row width that `transfer_kv_cache` reads off a vector. -/
theorem row_width (hheads : 0 < u.numKvHeads) (hdim : 0 < u.headDim) (len : ℕ) :
    u.rows t * (len * u.units t) / (u.numKvHeads * u.headDim) = len := by
  rw [Nat.mul_left_comm, rows_units]
  exact Nat.mul_div_cancel _ (Nat.mul_pos hheads hdim)

/-- The graph has the tensors that the example writes, each under its own name. -/
structure Named (u : XTensorLLMUtils) : Prop where
  past : ∀ t ∈ u.tensors, t.nameIn ∈ u.inputTensorNames
  states : u.inStatesName ∈ u.inputTensorNames
  cos : "position_ids_cos".toList ∈ u.inputTensorNames
  sin : "position_ids_sin".toList ∈ u.inputTensorNames
  mask : "attention_mask".toList ∈ u.inputTensorNames
  /-- The hidden states are no KV tensor. -/
  states_ne : ∀ t ∈ u.tensors, u.inStatesName ≠ t.nameIn

theorem Named.inIdx_inj (h : u.Named) {t t' : PastTensor} (ht : t ∈ u.tensors)
    (ht' : t' ∈ u.tensors) (hidx : u.inIdx t = u.inIdx t') : t = t' :=
  PastTensor.nameIn_inj (tensorOrder_inj (h.past t ht) (h.past t' ht') hidx)

/-- A loop over the KV tensors changes each of them once. -/
theorem Named.foldl_modify (h : u.Named) (f : PastTensor → List α → List α)
    (data : TensorData α) (ht : t ∈ u.tensors) :
    (u.tensors.foldl (fun d t => d.modify (u.inIdx t) (f t)) data)[u.inIdx t]? =
      data[u.inIdx t]?.map (f t) := by
  have hnodup : (u.tensors.map u.inIdx).Nodup :=
    tensors_nodup.map_on fun a ha b hb => h.inIdx_inj ha hb
  rw [foldl_modify_getElem? u.inIdx f hnodup,
    find?_eq_of_mem ht fun t' ht' hidx => h.inIdx_inj ht' ht hidx]

/-- Setting the other inputs leaves the KV tensors. -/
theorem Named.setInputs (h : u.Named) (x : XTensorPass α) (data : TensorData α)
    (ht : t ∈ u.tensors) : (u.setInputs x data)[u.inIdx t]? = data[u.inIdx t]? := by
  have hne : ∀ {name : List Char}, name ∈ u.inputTensorNames → name ≠ t.nameIn →
      tensorOrder u.inputTensorNames name ≠ u.inIdx t := fun hin hne heq =>
    hne (tensorOrder_inj hin (h.past t ht) heq)
  have hletter : t.nameIn[1]? = some 'a' := by
    obtain ⟨k, i⟩ := t
    cases k <;> rfl
  have hcos : "position_ids_cos".toList ≠ t.nameIn := fun heq => by
    rw [← heq] at hletter
    exact absurd hletter (by decide)
  have hsin : "position_ids_sin".toList ≠ t.nameIn := fun heq => by
    rw [← heq] at hletter
    exact absurd hletter (by decide)
  have hmask : "attention_mask".toList ≠ t.nameIn := fun heq => by
    rw [← heq] at hletter
    exact absurd hletter (by decide)
  unfold XTensorLLMUtils.setInputs stepInputs
  simp only [List.foldl_cons, List.foldl_nil]
  rw [List.getElem?_set_ne (hne h.mask hmask), List.getElem?_set_ne (hne h.sin hsin),
    List.getElem?_set_ne (hne h.cos hcos), List.getElem?_set_ne (hne h.states (h.states_ne t ht))]

end XTensorLLMUtils

/-! ## Columns -/

/-- A vector of `rows × len × units` elements holds the first `n` of the columns `col`, and zeros
behind them. -/
structure HoldsColumns {α : Type} [Zero α] (rows units len n : ℕ)
    (col : ℕ → ℕ → ℕ → Option α) (v : List α) : Prop where
  length : v.length = rows * (len * units)
  cell : ∀ r < rows, ∀ c < len, ∀ b < units,
    v[cell len units r c b]? = if c < n then col c r b else some 0

namespace HoldsColumns

variable {α : Type} [Zero α] {rows units len n k : ℕ} {col : ℕ → ℕ → ℕ → Option α} {v : List α}
  {assign : ViewAssign α}

theorem zeros : HoldsColumns rows units len 0 col (List.replicate (rows * (len * units)) 0) := by
  refine ⟨List.length_replicate, fun r hr c hc b hb => ?_⟩
  rw [List.getElem?_replicate, if_pos (cell_lt hr hc hb), if_neg (Nat.not_lt_zero c)]

/-- An assignment behind the columns appends the next ones. -/
theorem assigned (helem : ElementWise assign) (h : HoldsColumns rows units len n col v)
    {axis srcLen : ℕ}
    {shape srcShape : List ℕ} {src : List α} (hlen : extent shape axis = len)
    (hunits : stride shape axis = units) (hsrcLen : extent srcShape axis = srcLen)
    (hsrcUnits : stride srcShape axis = units) (hsrc : src.length = rows * (srcLen * units))
    (hfit : n + k ≤ len) (hk : k ≤ srcLen)
    (hcol : ∀ r < rows, ∀ c, n ≤ c → c < n + k → ∀ b < units,
      src[FlatMem.cell srcLen units r (c - n) b]? = col c r b) :
    HoldsColumns rows units len (n + k) col (assign axis shape srcShape n k v src) := by
  subst hlen hunits hsrcLen
  have hviews : Views rows axis shape srcShape n k v src := ⟨h.length, hsrc, hsrcUnits, hfit, hk⟩
  refine ⟨(helem.length hviews).trans h.length, fun r hr c hc b hb => ?_⟩
  rw [helem.cell hviews hr hc hb]
  split_ifs with hnew hlt hlt
  · exact hcol r hr c hnew.1 hnew.2 b hb
  · exact absurd hnew.2 hlt
  · rw [h.cell r hr c hc b hb, if_pos (by omega)]
  · rw [h.cell r hr c hc b hb, if_neg (by omega)]

/-- An assignment from the front of one row width to another keeps the columns. -/
theorem transfer (helem : ElementWise assign) {len' : ℕ}
    (h : HoldsColumns rows units len n col v) {d : List α}
    (hd : HoldsColumns rows units len' 0 col d) {axis : ℕ} {shape srcShape : List ℕ}
    (hlen : extent shape axis = len') (hunits : stride shape axis = units)
    (hsrcLen : extent srcShape axis = len) (hsrcUnits : stride srcShape axis = units)
    (hfit : n ≤ len') (hn : n ≤ len) :
    HoldsColumns rows units len' n col (assign axis shape srcShape 0 n d v) := by
  have happend := hd.assigned helem hlen hunits hsrcLen hsrcUnits h.length (by omega) hn
    fun r hr c _ hc b hb => by
      rw [Nat.sub_zero, h.cell r hr c (by omega) b hb, if_pos (by omega)]
  rwa [Nat.zero_add] at happend

end HoldsColumns

/-! ## The loops -/

namespace XTensorLLMUtils

variable {α : Type} [Zero α] {u : XTensorLLMUtils}

/-- Every KV input holds the first `n` of its columns. -/
def Serves (u : XTensorLLMUtils) (n : ℕ) (col : PastTensor → ℕ → ℕ → ℕ → Option α)
    (data : TensorData α) : Prop :=
  ∀ t ∈ u.tensors, ∃ v, data[u.inIdx t]? = some v ∧
    HoldsColumns (u.rows t) (u.units t) u.kvLen n (col t) v

/-- The KV outputs that a pass reads have the sizes of the graph's tensors. -/
def Sized (u : XTensorLLMUtils) (x : XTensorPass α) : Prop :=
  ∀ t ∈ u.tensors,
    (x.outputs.getD (u.outIdx t) []).length = u.rows t * (u.seqLen * u.units t)

/-- A column of a KV output, as `readOutputs` left it. -/
def outColumn (u : XTensorLLMUtils) (x : XTensorPass α) (t : PastTensor) (c r b : ℕ) : Option α :=
  (x.outputs.getD (u.outIdx t) [])[cell u.seqLen (u.units t) r c b]?

variable {col : PastTensor → ℕ → ℕ → ℕ → Option α} {data : TensorData α} {n k : ℕ}
  {assign : ViewAssign α}

theorem Named.prepareInputs (h : u.Named) (rest : List Char → List α) :
    u.Serves 0 col (u.prepareInputs rest) := by
  intro t ht
  refine ⟨List.replicate (u.shape t u.kvLen).prod 0, ?_, ?_⟩
  · have hname : u.inputTensorNames[u.inIdx t]? = some t.nameIn :=
      getElem?_tensorOrder (h.past t ht)
    have hfind : u.tensors.find? (fun t' => t'.nameIn = t.nameIn) = some t := by
      cases hf : u.tensors.find? (fun t' => t'.nameIn = t.nameIn) with
      | none => exact absurd (decide_eq_true rfl) (List.find?_eq_none.mp hf t ht)
      | some t' =>
        have hsame : t'.nameIn = t.nameIn := by simpa using List.find?_some hf
        rw [PastTensor.nameIn_inj hsame]
    unfold XTensorLLMUtils.prepareInputs
    rw [List.getElem?_map, hname, Option.map_some, hfind]
  · rw [shape_prod]
    exact HoldsColumns.zeros

/-- A pass appends the columns of its tokens. -/
theorem Serves.runPass (helem : ElementWise assign) (h : u.Named)
    (hserves : u.Serves n col data) {x : XTensorPass α} (hx : u.Sized x) (hfit : n + k ≤ u.kvLen)
    (hk : k ≤ u.seqLen)
    (hcol : ∀ t ∈ u.tensors, ∀ c, n ≤ c → c < n + k → ∀ r b,
      u.outColumn x t (c - n) r b = col t c r b) :
    u.Serves (n + k) col (u.runPass assign x n k data) := by
  intro t ht
  obtain ⟨v, hv, hold⟩ := hserves t ht
  refine ⟨_, ?_, hold.assigned helem (extent_shape _) (stride_shape _) (extent_shape u.seqLen)
    (stride_shape _) (hx t ht) hfit hk fun r _ c hc hc' b _ => hcol t ht c hc hc' r b⟩
  unfold XTensorLLMUtils.runPass updateKvCache
  rw [h.foldl_modify (fun t dst => assign t.axis (u.shape t u.kvLen) (u.shape t u.seqLen) n k
    dst (x.outputs.getD (u.outIdx t) [])) _ ht, h.setInputs x data ht, hv, Option.map_some]

/-- The chunks of the prompt leave its columns: chunk `k` begins at column `k * seqLen`. -/
theorem Serves.prefillLoop (helem : ElementWise assign) (h : u.Named) {currLen : ℕ}
    (hseq : 0 < u.seqLen) (hprompt : currLen ≤ u.kvLen) {passes : ℕ → XTensorPass α}
    (hx : ∀ k, u.Sized (passes k)) (hcol : ∀ t ∈ u.tensors, ∀ c < currLen, ∀ r b,
      u.outColumn (passes (c / u.seqLen)) t (c % u.seqLen) r b = col t c r b) (fuel k : ℕ)
    (hfuel : currLen ≤ k + fuel) {data : TensorData α}
    (hserves : u.Serves (min (k * u.seqLen) currLen) col data) :
    u.Serves currLen col
      (u.prefillLoop assign currLen passes fuel k (min (k * u.seqLen) currLen) data) := by
  induction fuel generalizing k data with
  | zero =>
    have hall : currLen ≤ k * u.seqLen :=
      (by omega : currLen ≤ k).trans (Nat.le_mul_of_pos_right k hseq)
    rwa [min_eq_right hall] at hserves ⊢
  | succ fuel ih =>
    rw [XTensorLLMUtils.prefillLoop]
    split_ifs with hmore
    · have hstart : min (k * u.seqLen) currLen = k * u.seqLen := by omega
      have hnext : k * u.seqLen + min u.seqLen (currLen - k * u.seqLen) =
          min ((k + 1) * u.seqLen) currLen := by
        rw [Nat.succ_mul]
        omega
      rw [hstart] at hserves hmore ⊢
      have hpass := hserves.runPass helem h (hx k) (k := min u.seqLen (currLen - k * u.seqLen))
        (by omega) (min_le_left _ _) fun t ht c hc hc' r b => by
          -- the column lies in chunk `k`
          have hoff : c - k * u.seqLen < u.seqLen := by omega
          have hsplit : c = k * u.seqLen + (c - k * u.seqLen) := by omega
          have hdiv : c / u.seqLen = k := by
            rw [hsplit]
            exact RowMajor.cell_div k hoff
          have hmod : c % u.seqLen = c - k * u.seqLen := by
            conv_lhs => rw [hsplit]
            exact RowMajor.cell_mod k hoff
          rw [← hcol t ht c (by omega) r b, hdiv, hmod]
      rw [hnext] at hpass ⊢
      exact ih (k + 1) (by omega) hpass
    · rwa [min_eq_right (by omega)] at hserves

/-- The decode loop appends a column a token. -/
theorem Serves.decodeLoop (helem : ElementWise assign) (h : u.Named) (hone : u.seqLen = 1)
    {passes : List (XTensorPass α)} (hx : ∀ x ∈ passes, u.Sized x) {data : TensorData α} {n : ℕ}
    (hfit : n + passes.length ≤ u.kvLen) (hserves : u.Serves n col data)
    (hcol : ∀ t ∈ u.tensors, ∀ j (x : XTensorPass α), passes[j]? = some x → ∀ r b,
      u.outColumn x t 0 r b = col t (n + j) r b) :
    u.Serves (n + passes.length) col (u.decodeLoop assign passes n data) := by
  induction passes generalizing n data with
  | nil => exact hserves
  | cons x passes ih =>
    rw [List.length_cons] at hfit ⊢
    have hpass := hserves.runPass helem h (hx x List.mem_cons_self) (k := 1) (by omega) (by omega)
      fun t ht c hc hc' r b => by
        obtain rfl : c = n := by omega
        rw [Nat.sub_self]
        exact hcol t ht 0 x rfl r b
    have hrest := ih (fun y hy => hx y (List.mem_cons_of_mem _ hy)) (by omega) hpass
      fun t ht j y hy r b => by
        rw [hcol t ht (j + 1) y hy r b, Nat.add_assoc, Nat.add_comm 1 j]
    rwa [show n + (passes.length + 1) = n + 1 + passes.length by omega]

end XTensorLLMUtils

/-! ## A turn -/

/-- The utilities of the two graphs of one shard, as the example builds them: the same layers and
heads, the inputs in the same order, chunks of the prompt and single tokens. -/
structure PairedUtils (p d : XTensorLLMUtils) : Prop where
  prompt : p.Named
  token : d.Named
  heads : p.numKvHeads = d.numKvHeads
  dim : p.headDim = d.headDim
  start : p.startLayerIdx = d.startLayerIdx
  last : p.endLayerIdx = d.endLayerIdx
  names : p.inputTensorNames = d.inputTensorNames
  heads_pos : 0 < d.numKvHeads
  dim_pos : 0 < d.headDim
  chunk_pos : 0 < p.seqLen
  one : d.seqLen = 1

section Turn

variable {α : Type} [Zero α] {assign : ViewAssign α} {p d : XTensorLLMUtils} {t : PastTensor}

/-- Column `c` of a KV tensor, as the graphs computed it in a turn: column `c % seqLen` of chunk
`c / seqLen` for a token of the prompt, the only column of its execution for a later one. -/
def turnColumn (p d : XTensorLLMUtils) (currLen : ℕ) (prefill : ℕ → XTensorPass α)
    (decode : List (XTensorPass α)) (t : PastTensor) (c r b : ℕ) : Option α :=
  if c < currLen then p.outColumn (prefill (c / p.seqLen)) t (c % p.seqLen) r b
  else decode[c - currLen]?.bind fun x => d.outColumn x t 0 r b

namespace PairedUtils

theorem tensors_eq (h : PairedUtils p d) : p.tensors = d.tensors := by
  unfold XTensorLLMUtils.tensors
  rw [h.start, h.last]

theorem inIdx_eq (h : PairedUtils p d) (t : PastTensor) : p.inIdx t = d.inIdx t := by
  unfold XTensorLLMUtils.inIdx
  rw [h.names]

theorem rows_eq (h : PairedUtils p d) (t : PastTensor) : p.rows t = d.rows t := by
  unfold XTensorLLMUtils.rows
  rw [h.heads, h.dim]

theorem units_eq (h : PairedUtils p d) (t : PastTensor) : p.units t = d.units t := by
  unfold XTensorLLMUtils.units
  rw [h.dim]

/-- The transfer brings the columns from the row width of one graph to that of the other. -/
theorem transfer (helem : ElementWise assign) (h : PairedUtils p d) {n : ℕ}
    {col : PastTensor → ℕ → ℕ → ℕ → Option α} {src dst : TensorData α}
    (hsrc : p.Serves n col src) (hdst : d.Serves 0 col dst) (hp : n ≤ p.kvLen) (hd : n ≤ d.kvLen) :
    d.Serves n col (d.transferKvCache assign dst src n) := by
  intro t ht
  obtain ⟨v, hv, hold⟩ := hsrc t (by rwa [h.tensors_eq])
  obtain ⟨w, hw, hzero⟩ := hdst t ht
  rw [h.inIdx_eq] at hv
  rw [h.rows_eq, h.units_eq] at hold
  have hget : src.getD (d.inIdx t) [] = v := by
    rw [List.getD_eq_getElem?_getD, hv, Option.getD_some]
  have hvw : v.length / (d.numKvHeads * d.headDim) = p.kvLen := by
    rw [hold.length, XTensorLLMUtils.row_width h.heads_pos h.dim_pos]
  have hww : w.length / (d.numKvHeads * d.headDim) = d.kvLen := by
    rw [hzero.length, XTensorLLMUtils.row_width h.heads_pos h.dim_pos]
  refine ⟨_, ?_, hold.transfer helem hzero (XTensorLLMUtils.extent_shape _)
    (XTensorLLMUtils.stride_shape _) (XTensorLLMUtils.extent_shape p.kvLen)
    (XTensorLLMUtils.stride_shape _) hd hp⟩
  unfold XTensorLLMUtils.transferKvCache
  rw [h.token.foldl_modify (fun t e =>
    if t.nameIn ∈ d.inputTensorNames then
      assign t.axis (d.shape t (e.length / (d.numKvHeads * d.headDim)))
        (d.shape t ((src.getD (d.inIdx t) []).length / (d.numKvHeads * d.headDim))) 0 n e
        (src.getD (d.inIdx t) [])
    else e) dst ht, hw, Option.map_some, if_pos (h.token.past t ht), hget, hvw, hww]

end PairedUtils

/-- After a turn every KV input of the one-token graph holds, column by column, what the graphs
computed for the prompt and for the tokens after it, and zeros behind them. -/
theorem turn_cache (helem : ElementWise assign) (h : PairedUtils p d)
    (rest rest' : List Char → List α) {currLen : ℕ}
    {prefill : ℕ → XTensorPass α} {decode : List (XTensorPass α)}
    (hprefill : ∀ k, p.Sized (prefill k)) (hdecode : ∀ x ∈ decode, d.Sized x)
    (hprompt : currLen ≤ p.kvLen) (hfit : currLen + decode.length ≤ d.kvLen) (ht : t ∈ d.tensors) :
    ∃ v, (xtensorTurn assign p d rest rest' currLen prefill decode)[d.inIdx t]? = some v ∧
      HoldsColumns (d.rows t) (d.units t) d.kvLen (currLen + decode.length)
        (turnColumn p d currLen prefill decode t) v := by
  set col := turnColumn p d currLen prefill decode with hcol
  have hstart : p.Serves (min (0 * p.seqLen) currLen) col (p.prepareInputs rest) := by
    rw [Nat.zero_mul, Nat.zero_min]
    exact h.prompt.prepareInputs rest
  have hran := hstart.prefillLoop helem h.prompt h.chunk_pos hprompt hprefill
    (fun t _ c hc r b => by rw [hcol, turnColumn, if_pos hc]) currLen 0 (by omega)
  rw [Nat.zero_mul, Nat.zero_min] at hran
  have hmoved := h.transfer helem hran (h.token.prepareInputs rest') hprompt (by omega)
  refine hmoved.decodeLoop helem h.token h.one hdecode hfit (fun t _ j x hj r b => ?_) t ht
  rw [hcol, turnColumn, if_neg (by omega), Nat.add_sub_cancel_left, hj, Option.bind_some]

end Turn

/-! ## Beside the plain loops -/

section Bytes

variable {α : Type} (enc : α → ℕ → UInt8) {assign : ViewAssign α} {dst src : List α}

/-- The memory of a vector of 4-byte elements. -/
def vectorBytes (v : List α) (i : ℕ) : UInt8 :=
  match v[i / 4]? with
  | some x => enc x (i % 4)
  | none => 0

theorem vectorBytes_out {v : List α} {i : ℕ} (h : v.length * 4 ≤ i) : vectorBytes enc v i = 0 := by
  unfold vectorBytes
  rw [List.getElem?_eq_none ((Nat.le_div_iff_mul_le (by decide)).mpr h)]

/-- The byte of a cell belongs to the element of a cell. -/
theorem vectorBytes_cell (v : List α) (len units r c b : ℕ) :
    vectorBytes enc v (cell len (units * 4) r c b) =
      match v[cell len units r c (b / 4)]? with
      | some x => enc x (b % 4)
      | none => 0 := by
  have hsplit : cell len (units * 4) r c b = cell len units r c (b / 4) * 4 + b % 4 := by
    have hb := Nat.div_add_mod b 4
    unfold cell
    rw [← Nat.mul_assoc, Nat.add_mul]
    omega
  have hlt : b % 4 < 4 := Nat.mod_lt b (by decide)
  unfold vectorBytes
  rw [hsplit, RowMajor.cell_div _ hlt, RowMajor.cell_mod _ hlt]

/-- On memory, an assignment between two views is the loop over the rows. -/
theorem XTensor.ElementWise.copyRows (helem : ElementWise assign)
    {axis first n rows len srcLen units : ℕ} {shape srcShape : List ℕ}
    (hlen : extent shape axis = len) (hunits : stride shape axis = units)
    (hsrcLen : extent srcShape axis = srcLen) (hsrcUnits : stride srcShape axis = units)
    (hdst : dst.length = rows * (len * units)) (hsrc : src.length = rows * (srcLen * units))
    (hfit : first + n ≤ len) (hn : n ≤ srcLen) :
    vectorBytes enc (assign axis shape srcShape first n dst src) =
      FlatMem.copyRows (vectorBytes enc dst) (vectorBytes enc src) rows (units * 4) len first srcLen 0
        n := by
  subst hlen hunits hsrcLen
  have hviews : Views rows axis shape srcShape first n dst src := ⟨hdst, hsrc, hsrcUnits, hfit, hn⟩
  ext i
  have hbytes : rows * (extent shape axis * (stride shape axis * 4)) = dst.length * 4 := by
    rw [hdst]
    ring
  by_cases hi : i < rows * (extent shape axis * (stride shape axis * 4))
  · obtain ⟨r, hr, c, hc, b, hb, rfl⟩ := exists_cell hi
    have hunit : b / 4 < stride shape axis := Nat.div_lt_of_lt_mul (by rwa [Nat.mul_comm])
    rw [copyRows_cell hfit hr hc hb, vectorBytes_cell, vectorBytes_cell, vectorBytes_cell,
      helem.cell hviews hr hc hunit, Nat.zero_add]
    split_ifs <;> rfl
  · rw [copyRows_out hfit (not_lt.mp hi), vectorBytes_out, vectorBytes_out]
    · omega
    · rw [helem.length hviews]
      omega

end Bytes

section Agreement

variable {α : Type} {assign : ViewAssign α} {u : XTensorLLMUtils} {t : PastTensor}

/-- `update_kv_cache` on vectors of floats leaves in memory what `copyKV` of the plain loops makes
of the same bytes, for a KV tensor of 4-byte elements of the same heads and dimensions. -/
theorem updateKvCache_copyKV (helem : ElementWise assign) (h : u.Named) (enc : α → ℕ → UInt8)
    (spec : LLMSpec) {kt : KVTensor}
    (hkey : kt.isKey = t.isKey) (hheads : spec.numKvHeads = u.numKvHeads)
    (hdim : spec.headDim = u.headDim) (hsize : (spec.dtype kt).elementSize = 4)
    (ht : t ∈ u.tensors) {input output : TensorData α} {v : List α}
    {nPast currLen outSeqLen : ℕ} (hv : input[u.inIdx t]? = some v)
    (hlen : v.length = u.rows t * (u.kvLen * u.units t))
    (hout : (output.getD (u.outIdx t) []).length = u.rows t * (outSeqLen * u.units t))
    (hfit : nPast + currLen ≤ u.kvLen) (hcurr : currLen ≤ outSeqLen) :
    ∃ v', (u.updateKvCache assign input output nPast currLen outSeqLen)[u.inIdx t]? = some v' ∧
      vectorBytes enc v' = copyKV spec kt (vectorBytes enc v)
        (vectorBytes enc (output.getD (u.outIdx t) [])) outSeqLen 0 u.kvLen nPast currLen := by
  have hrows : spec.rows kt = u.rows t := by
    unfold LLMSpec.rows XTensorLLMUtils.rows
    rw [hkey, hheads, hdim]
  have hunits : spec.tokenSize kt = u.units t * 4 := by
    unfold LLMSpec.tokenSize XTensorLLMUtils.units
    rw [hkey, hdim, hsize]
    split_ifs <;> rfl
  refine ⟨assign t.axis (u.shape t u.kvLen) (u.shape t outSeqLen) nPast currLen v
    (output.getD (u.outIdx t) []), ?_, ?_⟩
  · unfold XTensorLLMUtils.updateKvCache
    rw [h.foldl_modify (fun t dst => assign t.axis (u.shape t u.kvLen) (u.shape t outSeqLen)
      nPast currLen dst (output.getD (u.outIdx t) [])) input ht, hv, Option.map_some]
  · unfold copyKV
    rw [hrows, hunits]
    exact helem.copyRows enc (XTensorLLMUtils.extent_shape _)
      (XTensorLLMUtils.stride_shape _) (XTensorLLMUtils.extent_shape _)
      (XTensorLLMUtils.stride_shape _) hlen hout hfit hcurr

end Agreement

/-! ## A small graph -/

section Range

variable {α : Type}

/-- An assignment between two views, element by element. -/
def rangeAssign : ViewAssign α := fun axis shape srcShape first n dst src =>
  dst.mapIdx fun k x =>
    if first ≤ k / stride shape axis % extent shape axis ∧
        k / stride shape axis % extent shape axis < first + n then
      src.getD (cell (extent srcShape axis) (stride srcShape axis)
        (k / stride shape axis / extent shape axis)
        (k / stride shape axis % extent shape axis - first) (k % stride shape axis)) x
    else x

/-- The parts of a cell's index. -/
theorem cell_parts {len ts r c b : ℕ} (hc : c < len) (hb : b < ts) :
    cell len ts r c b / ts % len = c ∧ cell len ts r c b / ts / len = r ∧
      cell len ts r c b % ts = b := by
  unfold cell
  have hdiv : ((r * len + c) * ts + b) / ts = r * len + c := RowMajor.cell_div _ hb
  rw [hdiv]
  exact ⟨RowMajor.cell_mod r hc, RowMajor.cell_div r hc, RowMajor.cell_mod _ hb⟩

theorem rangeAssign_elementWise : ElementWise (rangeAssign : ViewAssign α) where
  length := fun _ => List.length_mapIdx
  cell := by
    intro rows axis shape srcShape first n dst src r c b h hr hc hb
    have hin : cell (extent shape axis) (stride shape axis) r c b < dst.length := by
      rw [h.dst_size]
      exact cell_lt hr hc hb
    have hrange := h.src_range
    obtain ⟨hcol, hrow, hunit⟩ := cell_parts (r := r) hc hb
    unfold rangeAssign
    rw [List.getElem?_mapIdx, List.getElem?_eq_getElem hin, Option.map_some, hcol, hrow, hunit,
      h.stride_eq]
    split_ifs with hnew
    · have hat : cell (extent srcShape axis) (stride shape axis) r (c - first) b < src.length := by
        rw [h.src_size]
        exact cell_lt hr (by omega) hb
      rw [List.getD_eq_getElem _ _ hat, List.getElem?_eq_getElem hat]
    · rfl

end Range

/-- One layer, one head of two dimensions. -/
def tinyUtils (seqLen kvLen : ℕ) : XTensorLLMUtils where
  seqLen := seqLen
  kvLen := kvLen
  numKvHeads := 1
  headDim := 2
  startLayerIdx := 0
  endLayerIdx := 0
  inStatesName := "input_embeds".toList
  inputTensorNames :=
    ["input_embeds", "attention_mask", "past_key_0_in", "past_value_0_in", "position_ids_cos",
      "position_ids_sin"].map String.toList
  outputTensorNames := ["past_key_0_out", "past_value_0_out"].map String.toList

/-- An execution whose outputs are one number throughout. -/
def tinyPass (seqLen x : ℕ) : XTensorPass ℕ where
  states := []
  cos := []
  sin := []
  mask := []
  outputs := [List.replicate (2 * seqLen) x, List.replicate (2 * seqLen) x]

theorem tinyUtils_named (seqLen kvLen : ℕ) : (tinyUtils seqLen kvLen).Named :=
  have h : (tinyUtils 0 0).Named :=
    ⟨by decide, by decide, by decide, by decide, by decide, by decide⟩
  ⟨h.past, h.states, h.cos, h.sin, h.mask, h.states_ne⟩

theorem tinyPass_sized (seqLen kvLen x : ℕ) :
    (tinyUtils seqLen kvLen).Sized (tinyPass seqLen x) := by
  intro t ht
  have hcases : t = ⟨true, 0⟩ ∨ t = ⟨false, 0⟩ := List.mem_pair.mp ht
  rcases hcases with rfl | rfl
  · show (List.replicate (2 * seqLen) x).length = 1 * 2 * (seqLen * 1)
    rw [List.length_replicate, Nat.one_mul, Nat.mul_one]
  · show (List.replicate (2 * seqLen) x).length = 1 * (seqLen * 2)
    rw [List.length_replicate, Nat.one_mul, Nat.mul_comm]

theorem tinyUtils_paired : PairedUtils (tinyUtils 2 4) (tinyUtils 1 5) where
  prompt := tinyUtils_named 2 4
  token := tinyUtils_named 1 5
  heads := rfl
  dim := rfl
  start := rfl
  last := rfl
  names := rfl
  heads_pos := by decide
  dim_pos := by decide
  chunk_pos := by decide
  one := rfl

theorem turn_cache_tiny : ∃ v,
    (xtensorTurn rangeAssign (tinyUtils 2 4) (tinyUtils 1 5) (fun _ => []) (fun _ => []) 3
      (fun k => tinyPass 2 (k + 1)) [tinyPass 1 7])[2]? = some v ∧
      HoldsColumns 2 1 5 4 (turnColumn (tinyUtils 2 4) (tinyUtils 1 5) 3
        (fun k => tinyPass 2 (k + 1)) [tinyPass 1 7] ⟨true, 0⟩) v :=
  turn_cache rangeAssign_elementWise tinyUtils_paired (fun _ => []) (fun _ => [])
    (fun k => tinyPass_sized 2 4 (k + 1)) (fun x hx => by
      obtain rfl := List.mem_singleton.mp hx
      exact tinyPass_sized 1 5 7)
    (by decide) (by decide) (t := ⟨true, 0⟩) (by decide)

/-- The layer of `tinyUtils` as a model of its own, with keys and values of 4-byte elements. -/
def tinyFloatSpec : LLMSpec where
  shards := [⟨false, true, false, [⟨.float32, .float32⟩]⟩]
  numKvHeads := 1
  headDim := 2
  vocabSize := 4
  seqLenPrefill := 2
  seqLenDecode := 1
  contextLengths := [6]
  eosTokenIds := []
  shards_ne := List.cons_ne_nil _ _
  contextLengths_ne := List.cons_ne_nil _ _
  ascending := List.pairwise_singleton _ _
  contextLength_lt := fun cl hcl => by
    rw [List.mem_singleton.mp hcl]
    exact Nat.le_of_ble_eq_true rfl
  decode_pos := Nat.zero_lt_one
  decode_le_prefill := Nat.zero_lt_two
  prefill_le := fun cl hcl => by
    rw [List.mem_singleton.mp hcl]
    exact Nat.le_of_ble_eq_true rfl
  lmHead_pairs := fun s hs hhead => by
    rw [List.mem_singleton.mp hs] at hhead
    exact absurd hhead Bool.false_ne_true

theorem updateKvCache_copyKV_tiny : ∃ v',
    ((tinyUtils 2 4).updateKvCache rangeAssign [[], [], List.replicate 8 0, List.replicate 8 0]
      (tinyPass 2 7).outputs 1 2 2)[2]? = some v' ∧
      vectorBytes (fun x _ => UInt8.ofNat x) v' =
        copyKV tinyFloatSpec ⟨0, 0, true⟩
          (vectorBytes (fun x _ => UInt8.ofNat x) (List.replicate 8 0))
          (vectorBytes (fun x _ => UInt8.ofNat x) (List.replicate 4 7)) 2 0 4 1 2 :=
  updateKvCache_copyKV rangeAssign_elementWise (tinyUtils_named 2 4) (fun x _ => UInt8.ofNat x)
    tinyFloatSpec (t := ⟨true, 0⟩) rfl rfl rfl rfl (by decide) rfl rfl rfl (by decide) (by decide)

/-- Three tokens of the prompt in two chunks, one token behind them. -/
example : (xtensorTurn rangeAssign (tinyUtils 2 4) (tinyUtils 1 5) (fun _ => []) (fun _ => []) 3
    (fun k => tinyPass 2 (k + 1)) [tinyPass 1 7])[2]? = some [1, 1, 2, 7, 0, 1, 1, 2, 7, 0] := by
  decide

end Geniex
