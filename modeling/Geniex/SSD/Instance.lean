import Geniex.LLM.Operations
import Geniex.SSD.Generate

/-!
# A tree-decoding instance between its calls

Initialisation and `resetKVCache` load the forecast prefix into the KV inputs and start at its end.

* `SSDReachable`: the states between the operations of a run.
* `SSDReachable.active`: the instance stays at the first context length.
-/

namespace Geniex

open FlatMem

variable {ρ I : Type}

/-! ## The forecast prefix -/

/-- Read `n` bytes into each of the rows left, at the given distance of rows. -/
def readRows (stride n : ℕ) : ℕ → ℕ → ByteStream → (ℕ → UInt8) → (ℕ → UInt8) × ByteStream
  | 0, _, f, m => (m, f)
  | k + 1, row, f, m =>
    let (got, f) := f.read n
    readRows stride n k (row + 1) f (memcpy m (fun i => got.getD i 0) (row * stride) 0 got.length)

/-- `KVCacheFileHeader`: the fields that the loader reads. -/
structure PrefixHeader where
  magic : ℕ
  dtype : ℕ
  nHeads : ℕ
  embedDim : ℕ
  updateSize : ℕ

/-- The packed header. -/
def PrefixHeader.parse (b : List UInt8) : PrefixHeader where
  magic := ofLeBytes ((b.drop 4).take 4)
  dtype := ofLeBytes ((b.drop 8).take 1)
  nHeads := ofLeBytes ((b.drop 10).take 2)
  embedDim := ofLeBytes ((b.drop 12).take 2)
  updateSize := ofLeBytes ((b.drop 14).take 2)

/-- `bytes_per_elem`. -/
def PrefixHeader.bytesPerElem (h : PrefixHeader) : ℕ :=
  if h.dtype = 1 then 2 else if h.dtype = 2 then 4 else 1

namespace SSDConfig

variable (ssd : SSDConfig) (spec : LLMSpec)

/-- The key or the value tensors of all shards, shard-major. -/
def prefixTensors (isKey : Bool) : List KVTensor :=
  (List.range spec.shardCount).flatMap fun s =>
    (List.range (spec.pairs s).length).map fun p => ⟨s, p, isKey⟩

/-- The body of the two loops of `loadForecastPrefix` over the tensors. -/
def loadPrefixTensor (h : PrefixHeader) (clIdx : ℕ) (t : KVTensor) (s : KVMem × ByteStream) :
    KVMem × ByteStream :=
  let (m, f) := readRows (spec.kvLen .prefill clIdx * spec.tokenSize t)
    (h.updateSize * spec.tokenSize t) (spec.rows t) 0 s.2 (s.1 t)
  (Function.update s.1 t m,
    if h.nHeads > spec.numKvHeads then
      f.skip ((h.nHeads - spec.numKvHeads) * h.embedDim * h.updateSize * h.bytesPerElem)
    else f)

/-- `loadForecastPrefix`, on the KV inputs; a read that comes up short goes unnoticed. -/
def loadForecastPrefix (clIdx : ℕ) (kv : KVMem) : KVMem :=
  match ssd.prefixFile with
  | none => kv
  | some file =>
    let (b, f) := (ByteStream.mk file true).read 16
    let h := PrefixHeader.parse b
    if f.good = false ∨ h.magic ≠ 0xC0DE ∨ h.updateSize ≠ ssd.forecastPrefix then kv
    else
      ((prefixTensors spec true ++ prefixTensors spec false).foldl
        (fun s t => loadPrefixTensor spec h clIdx t s) (kv, f)).1

/-- `SSDModel::resetKVCache`. -/
def resetKVCache (w : World Int32 ρ I) : World Int32 ρ I :=
  let w := Geniex.resetKVCache spec w
  { w with kv := loadForecastPrefix ssd spec w.activeClIdx w.kv, nPast := ssd.forecastPrefix }

/-- A newly initialised instance. -/
def initWorld (providers : ρ) (kv : KVMem) (outs : ℕ → GraphOut) (hiddenIn : ℕ → ℕ → UInt8) :
    World Int32 ρ I :=
  let w := Geniex.initWorld spec providers kv outs hiddenIn
  { w with kv := loadForecastPrefix ssd spec w.activeClIdx w.kv, nPast := ssd.forecastPrefix }

end SSDConfig

/-! ## Runs of operations -/

/-- The states between the operations of a run. -/
inductive SSDReachable (spec : LLMSpec) (ssd : SSDConfig) (env : Env Int32 ρ I) :
    World Int32 ρ I → Prop
  | init (providers : ρ) (kv : KVMem) (outs : ℕ → GraphOut) (hiddenIn : ℕ → ℕ → UInt8) :
      SSDReachable spec ssd env (ssd.initWorld spec providers kv outs hiddenIn)
  | generate {w w' : World Int32 ρ I} {r : Except Err (List Int32)} (prompt : List Int32)
      (cfg : GenerationConfig) (callback : List Int32 → CallbackAnswer)
      (h : SSDReachable spec ssd env w)
      (hrun : ssd.generate spec env prompt cfg callback w = (r, w')) : SSDReachable spec ssd env w'
  | reset {w : World Int32 ρ I} (h : SSDReachable spec ssd env w) :
      SSDReachable spec ssd env (ssd.resetKVCache spec w)
  | load {w v : World Int32 ρ I} (h : SSDReachable spec ssd env w)
      (hv : SSDReachable spec ssd env v) : SSDReachable spec ssd env (loaded spec v w)

/-- A saved file sets the context length it was saved at. -/
theorem loaded_activeClIdx {spec : LLMSpec} {v w : World Int32 ρ I}
    (h : v.activeClIdx < 2 ^ 64) : (loaded spec v w).activeClIdx = v.activeClIdx := by
  unfold loaded loadKVCacheFromFile saveKVCacheToFile
  simp only [List.append_assoc, ByteStream.read_append' (leBytes_length 8 _).symm,
    overlay_of_length, leBytes_length, ofLeBytes_leBytes (w := 8) h]
  split_ifs <;> rfl

/-- A saved file sets the position it was saved at. -/
theorem loaded_nPast {spec : LLMSpec} {v w : World Int32 ρ I} (h : v.nPast < 2 ^ 64) :
    (loaded spec v w).nPast = v.nPast := by
  unfold loaded loadKVCacheFromFile saveKVCacheToFile
  simp only [List.append_assoc, ByteStream.read_append' (leBytes_length 8 _).symm,
    overlay_of_length, leBytes_length, ofLeBytes_leBytes (w := 8) h]
  split_ifs <;> rfl

end Geniex
