import Geniex.CB.GenerateBatch

/-!
# The columns of the shared KV buffer

`columnsAt` reads the KV tensors of all shards as one memory of columns. On it

* `moveAll_columns`: the moves of the manager are moves of columns;
* `selectCL_columns`: a promotion keeps every column in use;
* `copyNewKV_in`, `copyNewKV_out`: a pass appends its rows behind each session's segment and changes
  nothing else.
-/

namespace Geniex.CB

open FlatMem KVCacheManager Scheduler

variable {spec : LLMSpec}

/-- Column `c` of the KV tensors of every shard, at a row width of `len` columns. -/
def columnsAt (spec : LLMSpec) (len : ℕ) (kv : KVMem) : ℕ → ℕ → Column :=
  fun c s => columnOf spec len s c kv

theorem columnsAt_eq {len len' c c' : ℕ} {kv kv' : KVMem}
    (h : ∀ t, spec.hasTensor t = true → ∀ r < spec.rows t, ∀ b < spec.tokenSize t,
      kv t (cell len (spec.tokenSize t) r c b) = kv' t (cell len' (spec.tokenSize t) r c' b)) :
    columnsAt spec len kv c = columnsAt spec len' kv' c' := by
  funext s
  exact columnOf_eq fun t _ ht r hr b hb => h t ht r hr b hb

/-! ## Moves -/

/-- A move of the buffer moves columns. -/
theorem moveKVBuffer_columns {clIdx : ℕ} {mv : Move} (hin : mv.Within (spec.kvLen .prefill clIdx))
    (kv : KVMem) {c : ℕ} (hc : c < spec.kvLen .prefill clIdx) :
    columnsAt spec (spec.kvLen .prefill clIdx) (moveKVBuffer spec clIdx mv kv) c =
      memmove (columnsAt spec (spec.kvLen .prefill clIdx) kv) mv.dst mv.src mv.len c := by
  by_cases hcol : mv.dst ≤ c ∧ c < mv.dst + mv.len
  · obtain ⟨k, rfl⟩ : ∃ k, c = mv.dst + k := ⟨c - mv.dst, by omega⟩
    rw [memmove_in (by omega)]
    unfold moveKVBuffer
    split_ifs with hnone
    · -- a move onto itself
      have hsrc : mv.src = mv.dst := by omega
      rw [hsrc]
    · apply columnsAt_eq
      intro t ht r hr b hb
      rw [if_pos ht, moveRows_cell hin hr hc hb, if_pos hcol, Nat.add_sub_cancel_left]
  · rw [memmove_out (by omega)]
    unfold moveKVBuffer
    split_ifs with hnone
    · rfl
    · apply columnsAt_eq
      intro t ht r hr b hb
      rw [if_pos ht, moveRows_cell hin hr hc hb, if_neg hcol]

/-- The moves of the buffer, in order. -/
theorem moveAll_columns {clIdx : ℕ} {moves : List Move}
    (hin : ∀ mv ∈ moves, mv.Within (spec.kvLen .prefill clIdx)) (kv : KVMem) :
    ∀ c < spec.kvLen .prefill clIdx,
      columnsAt spec (spec.kvLen .prefill clIdx) (moveAll spec clIdx moves kv) c =
        runMoves moves (columnsAt spec (spec.kvLen .prefill clIdx) kv) c := by
  induction moves generalizing kv with
  | nil => exact fun _ _ => rfl
  | cons mv moves ih =>
    intro c hc
    have hrest : ∀ mv' ∈ moves, mv'.Within (spec.kvLen .prefill clIdx) :=
      fun mv' hmv => hin mv' (List.mem_cons_of_mem _ hmv)
    have hhead := hin mv List.mem_cons_self
    show columnsAt spec _ (moveAll spec clIdx moves (moveKVBuffer spec clIdx mv kv)) c = _
    rw [ih hrest _ c hc, runMoves_cons]
    exact runMoves_agree hrest (fun i hi => moveKVBuffer_columns hhead kv hi) c hc

/-- Moves that relocate the segments of any memory relocate them in the buffer. -/
theorem moveAll_relocates {clIdx : ℕ} {moves : List Move} {segs segs' : KVCacheManager}
    (hin : ∀ mv ∈ moves, mv.Within (spec.kvLen .prefill clIdx))
    (hfin : ∀ seg ∈ segs', seg.fin ≤ spec.kvLen .prefill clIdx) (kv : KVMem)
    (h : ∀ m : ℕ → ℕ → Column, Relocates m (runMoves moves m) segs segs') :
    Relocates (columnsAt spec (spec.kvLen .prefill clIdx) kv)
      (columnsAt spec (spec.kvLen .prefill clIdx) (moveAll spec clIdx moves kv)) segs segs' := by
  apply (h _).target
  intro seg hseg k hk
  have hseg' := hfin seg hseg
  unfold KVCacheSegment.fin at hseg'
  exact moveAll_columns hin kv _ (by omega)

/-! ## Promotion -/

/-- The promotion as one update: at an unchanged index the restride is the identity. -/
theorem selectCL_eq (required nValid : ℕ) {σ : BatchState} (h : σ.activeClIdx < spec.numCl) :
    selectCL spec required nValid σ =
      { σ with
        kv := reshapeAll spec (spec.kvLen .prefill σ.activeClIdx)
          (spec.kvLen .prefill (promoteTarget spec required spec.seqLenPrefill σ.activeClIdx))
          nValid σ.kv
        activeClIdx := promoteTarget spec required spec.seqLenPrefill σ.activeClIdx } := by
  have htarget := promoteTarget_spec required spec.seqLenPrefill h
  by_cases hle : spec.numCl ≤ 1 ∨
      promoteTarget spec required spec.seqLenPrefill σ.activeClIdx ≤ σ.activeClIdx
  · have heq : promoteTarget spec required spec.seqLenPrefill σ.activeClIdx = σ.activeClIdx := by
      omega
    rw [heq, reshapeAll_self]
    unfold selectCL
    rcases hle with hone | hle
    · rw [if_pos hone]
    · simp only [hle, if_true, ite_self]
  · rw [not_or] at hle
    unfold selectCL
    rw [if_neg hle.1]
    exact if_neg hle.2

/-- A promotion keeps every column in use. -/
theorem selectCL_columns {required nValid : ℕ} {σ : BatchState} (h : σ.activeClIdx < spec.numCl)
    {c : ℕ} (hvalid : c < nValid) (hc : c < spec.kvLen .prefill σ.activeClIdx) :
    columnsAt spec (spec.kvLen .prefill (selectCL spec required nValid σ).activeClIdx)
        (selectCL spec required nValid σ).kv c =
      columnsAt spec (spec.kvLen .prefill σ.activeClIdx) σ.kv c := by
  have htarget := promoteTarget_spec required spec.seqLenPrefill h
  rw [selectCL_eq required nValid h]
  apply columnsAt_eq
  intro t ht r hr b hb
  have hmono := spec.kvLen_mono (p := .prefill) htarget.1 htarget.2.1
  exact reshapeAll_cell ht hr hvalid hc (by omega) hb

/-! ## Write-back -/

section WriteBack

variable {clIdx : ℕ} {parts : List Part} {p : Part}

/-- The rooms behind the segments of a pass: within the cache, and apart. -/
structure Rooms (kvLen : ℕ) (parts : List Part) : Prop where
  within : ∀ p ∈ parts, p.1.fin + p.2.2 ≤ kvLen
  apart : ∀ p ∈ parts, ∀ q ∈ parts, p ≠ q →
    p.1.fin + p.2.2 ≤ q.1.fin ∨ q.1.fin + q.2.2 ≤ p.1.fin

/-- A column of a session's room is the pass's row. -/
theorem copyNewKV_in (shard : ℕ) (out : GraphOut) (kv : KVMem)
    (h : Rooms (spec.kvLen .prefill clIdx) parts) (hp : p ∈ parts) {j : ℕ} (hj : j < p.2.2) :
    columnOf spec (spec.kvLen .prefill clIdx) shard (p.1.fin + j)
        (copyNewKV spec shard clIdx parts out kv) =
      columnOf spec spec.seqLenPrefill shard (p.2.1 + j) out.kvOut := by
  have hfit := h.within p hp
  apply columnOf_eq
  intro t hs ht r hr b hb
  unfold copyNewKV
  rw [if_pos ⟨hs, ht⟩]
  apply foldl_at (φ := fun _ => out.kvOut t
    (cell spec.seqLenPrefill (spec.tokenSize t) r (p.2.1 + j) b)) _ hp
  · exact fun _ => rfl
  · intro m
    unfold copyKV
    rw [copyRows_cell hfit hr (by omega) hb, if_pos (by omega), Nat.add_sub_cancel_left]
  · intro q hq hne m
    have hapart := h.apart p hp q hq (Ne.symm hne)
    unfold copyKV
    rw [copyRows_cell (h.within q hq) hr (by omega) hb, if_neg (by omega)]

/-- A column outside every room keeps its value. -/
theorem copyNewKV_out (shard : ℕ) (out : GraphOut) (kv : KVMem)
    (h : Rooms (spec.kvLen .prefill clIdx) parts) {c : ℕ} (hc : c < spec.kvLen .prefill clIdx)
    (hout : ∀ p ∈ parts, c < p.1.fin ∨ p.1.fin + p.2.2 ≤ c) (s : ℕ) :
    columnOf spec (spec.kvLen .prefill clIdx) s c (copyNewKV spec shard clIdx parts out kv) =
      columnOf spec (spec.kvLen .prefill clIdx) s c kv := by
  apply columnOf_eq
  intro t _ ht r hr b hb
  unfold copyNewKV
  split_ifs with hs
  · have hall : ∀ m : ℕ → UInt8, parts.foldl (fun m p => copyKV spec t m (out.kvOut t)
        spec.seqLenPrefill p.2.1 (spec.kvLen .prefill clIdx) p.1.fin p.2.2) m
          (cell (spec.kvLen .prefill clIdx) (spec.tokenSize t) r c b) =
        m (cell (spec.kvLen .prefill clIdx) (spec.tokenSize t) r c b) := by
      clear hs
      induction parts with
      | nil => exact fun _ => rfl
      | cons q parts ih =>
        intro m
        have hsub : Rooms (spec.kvLen .prefill clIdx) parts :=
          ⟨fun p hp => h.within p (List.mem_cons_of_mem _ hp), fun p hp q hq =>
            h.apart p (List.mem_cons_of_mem _ hp) q (List.mem_cons_of_mem _ hq)⟩
        have hq := hout q List.mem_cons_self
        rw [List.foldl_cons, ih hsub fun p hp => hout p (List.mem_cons_of_mem _ hp)]
        unfold copyKV
        rw [copyRows_cell (h.within q List.mem_cons_self) hr hc hb, if_neg (by omega)]
    exact hall _
  · rfl

end WriteBack

end Geniex.CB
