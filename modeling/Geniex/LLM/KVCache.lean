import Geniex.LLM.World

/-!
# The KV cache

The functions that move KV bytes: the write-back of a graph's outputs (`copyKV`, `updateKV`), the
in-place restride (`reshapeKV`), the promotion to a larger context length (`promoteCL`) and the
initial fill (`initKVBuffers`).

* `updateKV_cell`: what a write-back that fits its row leaves in a cell.
* `reshapeAll_cell`: a restride keeps every column below the three bounds of its copy length.
* `promoteTarget_spec`: promotion ends at a context length with room, or at the last one.
-/

namespace Geniex

open FlatMem

variable {τ ρ I : Type} (spec : LLMSpec)

/-! ## Write-back -/

/-- `copyKV`: `n_tok` columns of every row, from column `src_off` at row width `src_kv_len` to
column `dst_off` at row width `dst_kv_len`. -/
def copyKV (t : KVTensor) (dst src : ℕ → UInt8) (srcKvLen srcOff dstKvLen dstOff nTok : ℕ) :
    ℕ → UInt8 :=
  copyRows dst src (spec.rows t) (spec.tokenSize t) dstKvLen dstOff srcKvLen srcOff nTok

/-- `updateKV`: the KV outputs of a shard's graph, into its KV inputs. -/
def updateKV (s : ℕ) (phase : Phase) (dstOff nTok : ℕ) (w : World τ ρ I) : World τ ρ I :=
  if spec.pairs s = [] then w
  else
    { w with
      kv := fun t =>
        if t.shard = s ∧ spec.hasTensor t then
          copyKV spec t (w.kv t) ((w.outs (spec.graphIndex phase s w.activeClIdx)).kvOut t)
            (spec.seqLen phase) 0 (spec.kvLen phase w.activeClIdx) dstOff nTok
        else w.kv t
      trace := .kvWrite ⟨phase, s, w.activeClIdx, dstOff, nTok⟩ :: w.trace }

/-! ## Restride -/

/-- The body of the loop of `reshapeKV` over a shard's tensors: move the rows of one tensor from
`old_kv_len` to `new_kv_len` columns, keeping `min(n_valid, old, new)` of them. -/
def restrideTensor (t : KVTensor) (oldKvLen newKvLen nValid : ℕ) (m : ℕ → UInt8) : ℕ → UInt8 :=
  restride (fillEncodedZero (spec.dtype t)) m (spec.rows t) (oldKvLen * spec.tokenSize t)
    (newKvLen * spec.tokenSize t) (min nValid (min oldKvLen newKvLen) * spec.tokenSize t)

/-- `reshapeKV`, on the buffers. -/
def reshapeKV (s oldKvLen newKvLen nValid : ℕ) (kv : KVMem) : KVMem :=
  if oldKvLen = newKvLen then kv
  else fun t =>
    if t.shard = s ∧ spec.hasTensor t then restrideTensor spec t oldKvLen newKvLen nValid (kv t)
    else kv t

/-- `for (s = 0; s < shard_count_; ++s) reshapeKV(s, old_kv_len, new_kv_len, n_valid);` -/
def reshapeAll (oldKvLen newKvLen nValid : ℕ) (kv : KVMem) : KVMem :=
  upto (fun s kv => reshapeKV spec s oldKvLen newKvLen nValid kv) spec.shardCount kv

/-! ## Promotion -/

/-- The `while` loop of `promoteCL`; `fuel` bounds the indices left. -/
def promoteLoop (required reserved : ℕ) : ℕ → ℕ → ℕ
  | 0, newCl => newCl
  | fuel + 1, newCl =>
    if newCl + 1 < spec.numCl ∧ spec.cl newCl - reserved < required then
      promoteLoop required reserved fuel (newCl + 1)
    else newCl

/-- The index `promoteCL` ends at. -/
def promoteTarget (required reserved active : ℕ) : ℕ :=
  promoteLoop spec required reserved (spec.numCl - active) active

/-- `promoteCL(required, capacity_reserved_seq, stride_reserved_seq)`. -/
def promoteCL (required capacityReserved strideReserved : ℕ) (w : World τ ρ I) : World τ ρ I :=
  if spec.numCl ≤ 1 then w
  else
    let newCl := promoteTarget spec required capacityReserved w.activeClIdx
    if newCl = w.activeClIdx then w
    else
      { w with
        kv := reshapeAll spec (spec.cl w.activeClIdx - strideReserved)
          (spec.cl newCl - strideReserved) w.nPast w.kv
        activeClIdx := newCl }

/-! ## Initial fill -/

/-- `initKVBuffers`: every graph's view of every KV buffer, filled with the encoded zero. -/
def initKVBuffers (kv : KVMem) : KVMem := fun t =>
  if spec.hasTensor t then
    upto (fun clIdx m =>
      fillEncodedZero (spec.dtype t) m 0 (spec.byteCount t (spec.kvLen .decode clIdx)))
      spec.numCl
      (upto (fun clIdx m =>
        fillEncodedZero (spec.dtype t) m 0 (spec.byteCount t (spec.kvLen .prefill clIdx)))
        spec.numCl (kv t))
  else kv t

/-! ## What the operations leave in a cell -/

variable {spec}

/-- A KV tensor exists only in a shard that exists. -/
theorem shard_lt_of_hasTensor {t : KVTensor} (h : spec.hasTensor t = true) :
    t.shard < spec.shardCount := by
  unfold LLMSpec.hasTensor LLMSpec.pairs at h
  by_contra hge
  rw [List.getElem?_eq_none (by unfold LLMSpec.shardCount at hge; omega)] at h
  simp at h

theorem pairs_ne_of_hasTensor {t : KVTensor} (h : spec.hasTensor t = true) :
    spec.pairs t.shard ≠ [] := by
  intro hnil
  simp [LLMSpec.hasTensor, hnil] at h

/-- A write-back changes the KV inputs and the log. -/
theorem updateKV_frame (s : ℕ) (phase : Phase) (dstOff nTok : ℕ) (w : World τ ρ I) :
    updateKV spec s phase dstOff nTok w =
      { w with
        kv := (updateKV spec s phase dstOff nTok w).kv
        trace := (updateKV spec s phase dstOff nTok w).trace } := by
  unfold updateKV
  split_ifs <;> rfl

/-- It copies the outputs of its own shard. -/
theorem updateKV_kv (s : ℕ) (phase : Phase) (dstOff nTok : ℕ) (w : World τ ρ I) (t : KVTensor) :
    (updateKV spec s phase dstOff nTok w).kv t =
      if t.shard = s ∧ spec.hasTensor t = true then
        copyKV spec t (w.kv t) ((w.outs (spec.graphIndex phase s w.activeClIdx)).kvOut t)
          (spec.seqLen phase) 0 (spec.kvLen phase w.activeClIdx) dstOff nTok
      else w.kv t := by
  unfold updateKV
  by_cases hp : spec.pairs s = []
  · rw [if_pos hp, if_neg]
    rintro ⟨rfl, ht⟩
    exact pairs_ne_of_hasTensor ht hp
  · rw [if_neg hp]

/-- A write-back that fits in the row writes its own columns of its own shard. -/
theorem updateKV_cell {s : ℕ} {phase : Phase} {dstOff nTok : ℕ} {w : World τ ρ I} {t : KVTensor}
    {r c b : ℕ} (ht : spec.hasTensor t = true)
    (hfit : dstOff + nTok ≤ spec.kvLen phase w.activeClIdx) (hr : r < spec.rows t)
    (hc : c < spec.kvLen phase w.activeClIdx) (hb : b < spec.tokenSize t) :
    (updateKV spec s phase dstOff nTok w).kv t
        (cell (spec.kvLen phase w.activeClIdx) (spec.tokenSize t) r c b) =
      if t.shard = s ∧ dstOff ≤ c ∧ c < dstOff + nTok then
        (w.outs (spec.graphIndex phase s w.activeClIdx)).kvOut t
          (cell (spec.seqLen phase) (spec.tokenSize t) r (c - dstOff) b)
      else w.kv t (cell (spec.kvLen phase w.activeClIdx) (spec.tokenSize t) r c b) := by
  rw [updateKV_kv]
  by_cases hs : t.shard = s
  · simp only [hs, ht, and_self, if_true, true_and]
    unfold copyKV
    rw [copyRows_cell hfit hr hc hb, Nat.zero_add]
  · rw [if_neg (by tauto), if_neg (by tauto)]

/-- The loop of restrides, tensor by tensor. -/
theorem reshapeAll_apply (oldKvLen newKvLen nValid : ℕ) (kv : KVMem) (t : KVTensor) :
    reshapeAll spec oldKvLen newKvLen nValid kv t =
      if oldKvLen ≠ newKvLen ∧ spec.hasTensor t then
        restrideTensor spec t oldKvLen newKvLen nValid (kv t)
      else kv t := by
  have hloop : ∀ n, upto (fun s kv => reshapeKV spec s oldKvLen newKvLen nValid kv) n kv t =
      if oldKvLen ≠ newKvLen ∧ spec.hasTensor t ∧ t.shard < n then
        restrideTensor spec t oldKvLen newKvLen nValid (kv t)
      else kv t := by
    intro n
    induction n with
    | zero => simp [upto]
    | succ n ih =>
      have hstep : upto (fun s kv => reshapeKV spec s oldKvLen newKvLen nValid kv) (n + 1) kv t =
          reshapeKV spec n oldKvLen newKvLen nValid
            (upto (fun s kv => reshapeKV spec s oldKvLen newKvLen nValid kv) n kv) t := rfl
      rw [hstep, reshapeKV]
      by_cases heq : oldKvLen = newKvLen
      · rw [if_pos heq, ih]; simp [heq]
      · rw [if_neg heq]
        by_cases hs : t.shard = n
        · simp only [ih, hs]; simp [heq]
        · rw [if_neg (by tauto), ih]
          have : t.shard < n + 1 ↔ t.shard < n := by omega
          simp only [this]
  unfold reshapeAll
  rw [hloop]
  by_cases ht : spec.hasTensor t = true
  · simp [ht, shard_lt_of_hasTensor ht]
  · simp [ht]

/-- A restride keeps every column that is valid and lies in both row widths. -/
theorem reshapeAll_cell {oldKvLen newKvLen nValid : ℕ} {kv : KVMem} {t : KVTensor} {r c b : ℕ}
    (ht : spec.hasTensor t = true) (hr : r < spec.rows t) (hv : c < nValid) (ho : c < oldKvLen)
    (hn : c < newKvLen) (hb : b < spec.tokenSize t) :
    reshapeAll spec oldKvLen newKvLen nValid kv t (cell newKvLen (spec.tokenSize t) r c b) =
      kv t (cell oldKvLen (spec.tokenSize t) r c b) := by
  rw [reshapeAll_apply]
  by_cases heq : oldKvLen = newKvLen
  · rw [if_neg (by tauto), heq]
  · rw [if_pos ⟨heq, ht⟩]
    exact restride_cell (fillEncodedZero_padsOnly _) (by omega) (by omega) hr (by omega) hb

@[simp] theorem reshapeAll_self (kvLen nValid : ℕ) (kv : KVMem) :
    reshapeAll spec kvLen kvLen nValid kv = kv := by
  funext t
  rw [reshapeAll_apply, if_neg (by tauto)]

/-! ## Where promotion ends -/

theorem promoteLoop_spec (required reserved : ℕ) :
    ∀ fuel newCl, newCl < spec.numCl → spec.numCl ≤ newCl + fuel →
      newCl ≤ promoteLoop spec required reserved fuel newCl ∧
      promoteLoop spec required reserved fuel newCl < spec.numCl ∧
      (required ≤ spec.cl (promoteLoop spec required reserved fuel newCl) - reserved ∨
        promoteLoop spec required reserved fuel newCl + 1 = spec.numCl) := by
  intro fuel
  induction fuel with
  | zero => intro newCl h1 h2; omega
  | succ fuel ih =>
    intro newCl h1 h2
    unfold promoteLoop
    split_ifs with hc
    · have := ih (newCl + 1) hc.1 (by omega)
      exact ⟨by omega, this.2⟩
    · refine ⟨le_rfl, h1, ?_⟩
      by_cases hl : newCl + 1 < spec.numCl
      · left
        by_contra hlt
        exact hc ⟨hl, by omega⟩
      · right; omega

/-- Promotion ends at a context length with room, or at the last one. -/
theorem promoteTarget_spec (required reserved : ℕ) {active : ℕ} (h : active < spec.numCl) :
    active ≤ promoteTarget spec required reserved active ∧
      promoteTarget spec required reserved active < spec.numCl ∧
      (required ≤ spec.cl (promoteTarget spec required reserved active) - reserved ∨
        promoteTarget spec required reserved active + 1 = spec.numCl) :=
  promoteLoop_spec required reserved _ active h (by omega)

/-- The promotion as one update: at an unchanged index the restride is the identity. -/
theorem promoteCL_eq {w : World τ ρ I} (h : w.activeClIdx < spec.numCl)
    (required capacityReserved strideReserved : ℕ) :
    promoteCL spec required capacityReserved strideReserved w =
      { w with
        kv := reshapeAll spec (spec.cl w.activeClIdx - strideReserved)
          (spec.cl (promoteTarget spec required capacityReserved w.activeClIdx) - strideReserved)
          w.nPast w.kv
        activeClIdx := promoteTarget spec required capacityReserved w.activeClIdx } := by
  have hspec := promoteTarget_spec required capacityReserved h
  unfold promoteCL
  by_cases h1 : spec.numCl ≤ 1
  · have heq : promoteTarget spec required capacityReserved w.activeClIdx = w.activeClIdx := by
      omega
    rw [if_pos h1, heq, reshapeAll_self]
  · rw [if_neg h1]
    by_cases heq : promoteTarget spec required capacityReserved w.activeClIdx = w.activeClIdx
    · simp [heq]
    · simp [heq]

end Geniex
