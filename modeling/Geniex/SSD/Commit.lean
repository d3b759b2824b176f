import Geniex.SSD.Bounds
import Geniex.SSD.Oracle

/-!
# The commit of an accepted path

`selectiveKVUpdate` groups the selected rows into runs and copies each run behind the last one.

* `copyRuns_rows`: the runs are the selected rows, in order.
* `selectiveKVUpdate_column`: the accepted rows become the columns after the past, in order.
* `selectiveKVUpdate_eq_commitEach`: the runs leave what copying the selected rows one at a time
  would leave.
-/

namespace Geniex

open FlatMem

variable {ρ I : Type} {spec : LLMSpec} {ssd : SSDConfig}

namespace SSDConfig

/-- The rows of a run. -/
def CopyRun.rows (r : CopyRun) : List ℕ := List.range' r.srcStart r.count

/-- A row joins the rows so far, in the last run or in a run of its own. -/
theorem extendRuns_rows (runs : List CopyRun) (pos : ℕ) :
    (extendRuns runs pos).flatMap CopyRun.rows = runs.flatMap CopyRun.rows ++ [pos] := by
  unfold extendRuns
  rcases List.eq_nil_or_concat runs with rfl | ⟨init, r, rfl⟩
  · rfl
  · simp only [List.concat_eq_append, List.getLast?_concat, List.dropLast_concat]
    split_ifs with hr
    · rw [List.flatMap_append, List.flatMap_append, List.append_assoc]
      congr 1
      simp only [List.flatMap_cons, List.flatMap_nil, List.append_nil, CopyRun.rows]
      rw [List.range'_concat, Nat.one_mul, hr]
    · rw [List.flatMap_append]
      rfl

/-- The runs are the selected rows, in order. -/
theorem copyRuns_rows (selected : List Bool) :
    (copyRuns selected).flatMap CopyRun.rows =
      (List.range selected.length).filter fun i => selected.getD i false := by
  unfold copyRuns
  generalize selected.length = n
  induction n with
  | zero => rfl
  | succ n ih =>
    rw [List.range_succ, List.foldl_append, List.foldl_cons, List.foldl_nil, List.filter_append,
      ← ih]
    rw [List.filter_singleton]
    cases hn : selected.getD n false with
    | false => rw [if_neg (by simp), cond_false, List.append_nil]
    | true => rw [if_pos rfl, extendRuns_rows, cond_true]

/-- The runs of an accepted path are its rows. -/
theorem copyRuns_selectedRows (spec : LLMSpec) {accepted : List Int32 × List ℕ}
    (h : Walk ssd.numDraftNodes accepted) :
    (copyRuns (selectedRows ssd spec accepted.2)).flatMap CopyRun.rows = accepted.2 := by
  rw [copyRuns_rows, ← filter_selected spec h]
  unfold selectedRows
  rw [List.length_map, List.length_range]
  refine List.filter_congr fun i hi => ?_
  have hlt := List.mem_range.mp hi
  simp [hlt]

/-- Each run goes to the columns after the last one. -/
theorem copyRunsTo_cell {t : KVTensor} {src : ℕ → UInt8} {srcLen dstLen r c b : ℕ}
    (hr : r < spec.rows t) (hc : c < dstLen) (hb : b < spec.tokenSize t) (runs : List CopyRun) :
    ∀ (dstCol : ℕ) (m : ℕ → UInt8),
      dstCol + (runs.flatMap CopyRun.rows).length ≤ dstLen →
      copyRunsTo spec t src srcLen dstLen runs dstCol m (cell dstLen (spec.tokenSize t) r c b) =
        if dstCol ≤ c ∧ c < dstCol + (runs.flatMap CopyRun.rows).length then
          src (cell srcLen (spec.tokenSize t) r
            ((runs.flatMap CopyRun.rows).getD (c - dstCol) 0) b)
        else m (cell dstLen (spec.tokenSize t) r c b) := by
  induction runs with
  | nil =>
    intro dstCol m _
    rw [if_neg (by simp)]
    rfl
  | cons run runs ih =>
    intro dstCol m hfit
    have hlen : ((run :: runs).flatMap CopyRun.rows).length =
        run.count + (runs.flatMap CopyRun.rows).length := by
      simp [CopyRun.rows]
    rw [hlen] at hfit ⊢
    rw [copyRunsTo, ih _ _ (by omega), List.flatMap_cons]
    unfold copyKV
    rw [copyRows_cell (by omega) hr hc hb]
    have hrun : run.rows.length = run.count := by simp [CopyRun.rows]
    by_cases h1 : dstCol + run.count ≤ c
    · -- a column of a later run
      rw [if_neg (by omega : ¬(dstCol ≤ c ∧ c < dstCol + run.count)),
        List.getD_append_right _ _ _ _ (by omega), hrun,
        show c - (dstCol + run.count) = c - dstCol - run.count by omega]
      have hiff : dstCol + run.count ≤ c ∧
          c < dstCol + run.count + (runs.flatMap CopyRun.rows).length ↔
          dstCol ≤ c ∧ c < dstCol + (run.count + (runs.flatMap CopyRun.rows).length) := by omega
      simp only [hiff]
    · rw [if_neg (by omega : ¬(dstCol + run.count ≤ c ∧ _))]
      by_cases h2 : dstCol ≤ c
      · rw [if_pos ⟨h2, by omega⟩, if_pos ⟨h2, by omega⟩,
          List.getD_append _ _ _ _ (by omega : c - dstCol < run.rows.length)]
        have hget : run.rows.getD (c - dstCol) 0 = run.srcStart + (c - dstCol) := by
          rw [List.getD_eq_getElem _ _ (by omega : c - dstCol < run.rows.length)]
          simp [CopyRun.rows]
        rw [hget]
      · rw [if_neg (by omega), if_neg (by omega)]

/-- The accepted rows become the columns after the past, in order. -/
theorem selectiveKVUpdate_column {accepted : List Int32 × List ℕ}
    (h : Walk ssd.numDraftNodes accepted) {w : World Int32 ρ I} {s c : ℕ}
    (hfit : w.nPast + accepted.1.length ≤ spec.kvLen .decode 0) (hc : c < spec.kvLen .decode 0) :
    columnOf spec (spec.kvLen .decode 0) s c
        (selectiveKVUpdate spec (selectedRows ssd spec accepted.2) w).kv =
      if w.nPast ≤ c ∧ c < w.nPast + accepted.1.length then
        columnOf spec (spec.seqLen .decode) s (accepted.2.getD (c - w.nPast) 0)
          (w.outs (spec.graphIndex .decode s 0)).kvOut
      else columnOf spec (spec.kvLen .decode 0) s c w.kv := by
  have hrows := copyRuns_selectedRows spec h
  have hlen := congrArg List.length hrows
  rw [← h.length] at hlen
  have hkv : ∀ t, spec.hasTensor t = true →
      (selectiveKVUpdate spec (selectedRows ssd spec accepted.2) w).kv t =
        copyRunsTo spec t ((w.outs (spec.graphIndex .decode t.shard 0)).kvOut t) spec.seqLenDecode
          (spec.kvLen .decode 0) (copyRuns (selectedRows ssd spec accepted.2)) w.nPast (w.kv t) :=
    fun t ht => if_pos ht
  split_ifs with hin <;> refine columnOf_eq fun t hs ht r hr b hb => ?_
  all_goals
    rw [hkv t ht, copyRunsTo_cell hr hc hb _ _ _ (by omega), hlen, hrows, hs]
  · rw [if_pos hin]
    rfl
  · rw [if_neg hin]

/-! ## One column at a time -/

/-- Columns copied one at a time, each behind the last one. -/
def copyEachTo (spec : LLMSpec) (t : KVTensor) (src : ℕ → UInt8) (srcLen dstLen : ℕ) :
    List ℕ → ℕ → (ℕ → UInt8) → ℕ → UInt8
  | [], _, m => m
  | i :: is, dstCol, m =>
    copyEachTo spec t src srcLen dstLen is (dstCol + 1)
      (copyKV spec t m src srcLen i dstLen dstCol 1)

/-- The selected rows, in ascending order. -/
def selectedIds (selected : List Bool) : List ℕ :=
  (List.range selected.length).filter fun i => selected.getD i false

/-- The commit as it is meant: the selected columns go behind the past one at a time. -/
def commitEach (spec : LLMSpec) (selected : List Bool) (w : World Int32 ρ I) : KVMem := fun t =>
  if spec.hasTensor t then
    copyEachTo spec t ((w.outs (spec.graphIndex .decode t.shard 0)).kvOut t) spec.seqLenDecode
      (spec.kvLen .decode 0) (selectedIds selected) w.nPast (w.kv t)
  else w.kv t

/-- Single columns are runs of one row. -/
theorem copyEachTo_eq (t : KVTensor) (src : ℕ → UInt8) (srcLen dstLen : ℕ) (is : List ℕ) :
    ∀ (dstCol : ℕ) (m : ℕ → UInt8), copyEachTo spec t src srcLen dstLen is dstCol m =
      copyRunsTo spec t src srcLen dstLen (is.map fun i => ⟨i, 1⟩) dstCol m := by
  induction is with
  | nil => exact fun _ _ => rfl
  | cons i is ih => exact fun dstCol m => ih (dstCol + 1) _

theorem flatMap_rows_single (is : List ℕ) :
    (is.map fun i => (⟨i, 1⟩ : CopyRun)).flatMap CopyRun.rows = is := by
  induction is with
  | nil => rfl
  | cons i is ih =>
    rw [List.map_cons, List.flatMap_cons, ih]
    rfl

/-- Runs that fit in the row miss what lies past the tensor. -/
theorem copyRunsTo_out {t : KVTensor} {src : ℕ → UInt8} {srcLen dstLen i : ℕ}
    (hi : spec.byteCount t dstLen ≤ i) (runs : List CopyRun) :
    ∀ (dstCol : ℕ) (m : ℕ → UInt8), dstCol + (runs.flatMap CopyRun.rows).length ≤ dstLen →
      copyRunsTo spec t src srcLen dstLen runs dstCol m i = m i := by
  induction runs with
  | nil => exact fun _ _ _ => rfl
  | cons run runs ih =>
    intro dstCol m hfit
    rw [List.flatMap_cons, List.length_append] at hfit
    have hrun : run.rows.length = run.count := by simp [CopyRun.rows]
    rw [copyRunsTo, ih _ _ (by omega)]
    exact copyRows_out (by omega) hi

/-- Runs of the same rows leave the same tensor. -/
theorem copyRunsTo_congr {t : KVTensor} {src : ℕ → UInt8} {srcLen dstLen dstCol : ℕ}
    {runs runs' : List CopyRun} (h : runs.flatMap CopyRun.rows = runs'.flatMap CopyRun.rows)
    (hfit : dstCol + (runs.flatMap CopyRun.rows).length ≤ dstLen) (m : ℕ → UInt8) :
    copyRunsTo spec t src srcLen dstLen runs dstCol m =
      copyRunsTo spec t src srcLen dstLen runs' dstCol m := by
  funext i
  by_cases hi : i < spec.byteCount t dstLen
  · obtain ⟨r, hr, c, hc, b, hb, rfl⟩ := exists_cell hi
    rw [copyRunsTo_cell hr hc hb _ _ _ hfit, copyRunsTo_cell hr hc hb _ _ _ (h ▸ hfit), h]
  · rw [copyRunsTo_out (Nat.le_of_not_lt hi) _ _ _ hfit,
      copyRunsTo_out (Nat.le_of_not_lt hi) _ _ _ (h ▸ hfit)]

/-- There are as many selected rows as bits set. -/
theorem selectedIds_length (selected : List Bool) :
    (selectedIds selected).length = selected.count true := by
  unfold selectedIds
  induction selected using List.reverseRecOn with
  | nil => rfl
  | append_singleton selected b ih =>
    rw [List.length_append, List.length_singleton, List.range_succ, List.filter_append,
      List.length_append, List.count_append, ← ih]
    congr 1
    · congr 1
      refine List.filter_congr fun i hi => ?_
      rw [List.getD_append _ _ _ _ (List.mem_range.mp hi)]
    · rw [List.filter_singleton, List.getD_append_right _ _ _ _ le_rfl, Nat.sub_self]
      cases b <;> rfl

/-- What a commit leaves in the row of a tensor. -/
theorem selectiveKVUpdate_cell (selected : List Bool) (w : World Int32 ρ I)
    (hfit : w.nPast + selected.count true ≤ spec.kvLen .decode 0) {t : KVTensor}
    (ht : spec.hasTensor t = true) {r c b : ℕ} (hr : r < spec.rows t)
    (hc : c < spec.kvLen .decode 0) (hb : b < spec.tokenSize t) :
    (selectiveKVUpdate spec selected w).kv t
        (cell (spec.kvLen .decode 0) (spec.tokenSize t) r c b) =
      if w.nPast ≤ c ∧ c < w.nPast + selected.count true then
        (w.outs (spec.graphIndex .decode t.shard 0)).kvOut t
          (cell spec.seqLenDecode (spec.tokenSize t) r
            ((selectedIds selected).getD (c - w.nPast) 0) b)
      else w.kv t (cell (spec.kvLen .decode 0) (spec.tokenSize t) r c b) := by
  have hkv : (selectiveKVUpdate spec selected w).kv t =
      copyRunsTo spec t ((w.outs (spec.graphIndex .decode t.shard 0)).kvOut t) spec.seqLenDecode
        (spec.kvLen .decode 0) (copyRuns selected) w.nPast (w.kv t) := if_pos ht
  have hrows : (copyRuns selected).flatMap CopyRun.rows = selectedIds selected :=
    copyRuns_rows selected
  rw [hkv, copyRunsTo_cell hr hc hb _ _ _ (by rw [hrows, selectedIds_length]; exact hfit), hrows,
    selectedIds_length]

/-- **The batched commit is the commit one column at a time.** Column `n_past + k` of every row is
the `k`-th selected column of the output, and every other column is as it was. -/
theorem selectiveKVUpdate_eq_commitEach (selected : List Bool) (w : World Int32 ρ I)
    (hfit : w.nPast + selected.count true ≤ spec.kvLen .decode 0) :
    (selectiveKVUpdate spec selected w).kv = commitEach spec selected w ∧
      ∀ t, spec.hasTensor t = true → ∀ r < spec.rows t, ∀ b < spec.tokenSize t,
        (∀ k (hk : k < (selectedIds selected).length),
          (selectiveKVUpdate spec selected w).kv t
              (cell (spec.kvLen .decode 0) (spec.tokenSize t) r (w.nPast + k) b) =
            (w.outs (spec.graphIndex .decode t.shard 0)).kvOut t
              (cell spec.seqLenDecode (spec.tokenSize t) r (selectedIds selected)[k] b)) ∧
        ∀ c < spec.kvLen .decode 0,
          c < w.nPast ∨ w.nPast + (selectedIds selected).length ≤ c →
          (selectiveKVUpdate spec selected w).kv t
              (cell (spec.kvLen .decode 0) (spec.tokenSize t) r c b) =
            w.kv t (cell (spec.kvLen .decode 0) (spec.tokenSize t) r c b) := by
  have hlen := selectedIds_length selected
  constructor
  · funext t
    unfold selectiveKVUpdate commitEach
    dsimp only
    split_ifs with ht
    · rw [copyEachTo_eq]
      have hrows := copyRuns_rows selected
      apply copyRunsTo_congr
      · rw [hrows, flatMap_rows_single]
        rfl
      · rw [hrows]
        exact (congrArg (w.nPast + ·) hlen).trans_le hfit
    · rfl
  · intro t ht r hr b hb
    refine ⟨fun k hk => ?_, fun c hc hout => ?_⟩
    · rw [selectiveKVUpdate_cell selected w hfit ht hr (by omega) hb,
        if_pos ⟨by omega, by omega⟩, Nat.add_sub_cancel_left, List.getD_eq_getElem _ _ hk]
    · rw [selectiveKVUpdate_cell selected w hfit ht hr hc hb, if_neg (by omega)]

/-- Rows 0, 2 and 3 of a pass whose output bytes are numbered, behind one column. -/
theorem selectiveKVUpdate_eq_commitEach_tiny :
    (selectiveKVUpdate (tinySpec [8] 4 4) [true, false, true, true]
        { tinySSDWorld (tinySpec [8] 4 4) with
          nPast := 1
          outs := fun _ => ⟨fun _ i => UInt8.ofNat (i + 1), fun _ => 0, fun _ => 0⟩ }).kv =
      commitEach (tinySpec [8] 4 4) [true, false, true, true]
        { tinySSDWorld (tinySpec [8] 4 4) with
          nPast := 1
          outs := fun _ => ⟨fun _ i => UInt8.ofNat (i + 1), fun _ => 0, fun _ => 0⟩ } ∧
      (commitEach (tinySpec [8] 4 4) [true, false, true, true]
        { tinySSDWorld (tinySpec [8] 4 4) with
          nPast := 1
          outs := fun _ => ⟨fun _ i => UInt8.ofNat (i + 1), fun _ => 0, fun _ => 0⟩ }
        ⟨0, 0, true⟩ (cell 4 1 1 2 0) = 7) :=
  ⟨(selectiveKVUpdate_eq_commitEach _ _ (by decide)).1, by decide +kernel⟩

end SSDConfig

end Geniex
