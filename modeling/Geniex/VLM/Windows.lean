import Geniex.LLM.Rope
import Geniex.Lib.Blocks
import Geniex.Lib.Mem
import Geniex.Lib.RowMajor

/-!
# Windows of the vision encoder

Four functions go through the windows of a frame on their own: the order of the merged cells, its
inverse, the lengths of the windows and the rotations of the patches in window order.

* `windowIndex_eq`: the order of the cells is that of the windows, one after another.
* `windowIndex_perm`: every cell stands in it once.
* `cuSeqlens_eq`: the lengths are those of the windows.
* `windows_agree`: the four functions agree.
-/

namespace Geniex

/-- An `int` expression, undefined where an `int` does not hold its value. -/
def intOf (n : ℕ) : Option ℕ := if n < 2 ^ 31 then some n else none

theorem intOf_eq {n : ℕ} (h : n < 2 ^ 31) : intOf n = some n := if_pos h

/-- `for (t < T) for (h < n) for (w < m)` -/
def frameLoop (T n m : ℕ) : List (ℕ × ℕ × ℕ) :=
  (List.range T).flatMap fun t => (List.range n).flatMap fun h => (List.range m).map fun w => (t, h, w)

/-- `for (ih < v) for (iw < v)` -/
def cellLoop (v : ℕ) : List (ℕ × ℕ) :=
  (List.range v).flatMap fun ih => (List.range v).map fun iw => (ih, iw)

/-- The merged cells of a frame, padded to whole windows of `vitWs` by `vitWs` cells. -/
structure WindowGrid where
  vitWs : ℕ
  llmH : ℕ
  llmW : ℕ
  deriving DecidableEq

namespace WindowGrid

variable (g : WindowGrid)

def padH : ℕ := (g.vitWs - g.llmH % g.vitWs) % g.vitWs
def padW : ℕ := (g.vitWs - g.llmW % g.vitWs) % g.vitWs
def pH : ℕ := g.llmH + g.padH
def pW : ℕ := g.llmW + g.padW
def nwH : ℕ := g.pH / g.vitWs
def nwW : ℕ := g.pW / g.vitWs

/-- `idx_pad`: the numbers of the cells, and -100 for the padding. -/
def idxPad (T : ℕ) : ℕ → ℤ :=
  FlatMem.assign ((frameLoop T g.llmH g.llmW).map fun (t, h, w) =>
    (t * g.pH * g.pW + h * g.pW + w, ((t * g.llmH * g.llmW + h * g.llmW + w : ℕ) : ℤ))) fun _ => -100

/-- What one round of the two inner loops pushes. -/
def pushCell (T : ℕ) (win : ℕ × ℕ × ℕ) (cell : ℕ × ℕ) : Option ℤ :=
  let h := win.2.1 * g.vitWs + cell.1
  let w := win.2.2 * g.vitWs + cell.2
  if g.pH ≤ h ∨ g.pW ≤ w then none
  else
    let v := g.idxPad T (win.1 * g.pH * g.pW + h * g.pW + w)
    if v ≠ -100 then some v else none

/-- `window_index` -/
def windowIndex (T : ℕ) : List ℤ :=
  (frameLoop T g.nwH g.nwW).flatMap fun win => (cellLoop g.vitWs).filterMap (g.pushCell T win)

/-- How many cells of a window are no padding. -/
def valid (win : ℕ × ℕ × ℕ) : ℕ :=
  (cellLoop g.vitWs).countP fun cell =>
    win.2.1 * g.vitWs + cell.1 < g.llmH ∧ win.2.2 * g.vitWs + cell.2 < g.llmW

/-- `cu`, with `smU` patches to a cell. An equal length is not pushed. -/
def cuSeqlens (T smU : ℕ) : List ℕ :=
  ((frameLoop T g.nwH g.nwW).map fun win => g.valid win * smU).foldl Blocks.pushSum [0]

end WindowGrid

/-- The grid of a frame of `H` by `W` patches. -/
def frameGrid (H W sm windowSize patch : ℕ) : WindowGrid :=
  ⟨windowSize / sm / patch, H / sm, W / sm⟩

/-- What both functions begin with. A division by zero is undefined. -/
def windowGrid (H W sm windowSize patch : ℕ) : Option WindowGrid :=
  if sm = 0 ∨ patch = 0 ∨ windowSize / sm / patch = 0 then none
  else do
    let _ ← intOf (frameGrid H W sm windowSize patch).pH
    let _ ← intOf (frameGrid H W sm windowSize patch).pW
    some (frameGrid H W sm windowSize patch)

/-- `computeWindowIndex(T, H, W, spatial_merge_size, window_size, patch_size)`. -/
def computeWindowIndex (T H W sm windowSize patch : ℕ) : Option (List ℤ) := do
  let g ← windowGrid H W sm windowSize patch
  let _ ← intOf (T * g.llmH)
  let _ ← intOf (T * g.llmH * g.llmW)
  let _ ← intOf (T * g.pH)
  let _ ← intOf (T * g.pH * g.pW)
  some (g.windowIndex T)

/-- `reverseWindowIndex(window_index)`. An index outside the vector is undefined. -/
def reverseWindowIndex (windowIndex : List ℤ) : Option (List ℤ) :=
  if ∀ v ∈ windowIndex, 0 ≤ v ∧ v < windowIndex.length then
    some ((List.range windowIndex.length).map
      (FlatMem.assign (windowIndex.zipIdx.map fun (v, i) => (v.toNat, (i : ℤ))) fun _ => 0))
  else none

/-- `computeCuWindowSeqlens(T, H, W, spatial_merge_size, window_size, patch_size)`. -/
def computeCuWindowSeqlens (T H W sm windowSize patch : ℕ) : Option (List ℕ) := do
  let smU ← intOf (sm * sm)
  let g ← windowGrid H W sm windowSize patch
  some (g.cuSeqlens T smU)

/-- The patches of a frame, cell by cell. -/
def patchLoop (llmH llmW sm : ℕ) : List (ℕ × ℕ) :=
  (List.range llmH).flatMap fun br => (List.range llmW).flatMap fun bc =>
    (cellLoop sm).map fun (ir, ic) => (br * sm + ir, bc * sm + ic)

section RoPE

variable {K : Type} [Field K] (F : MathFns K)

/-- One row of a table: a patch at row `y` and column `x`. -/
def ropeRow (g : K → K) (invFreq : List K) (y x : ℕ) : List K :=
  (invFreq.map fun f => g (y * f)) ++ invFreq.map fun f => g (x * f)

/-- One of the two tables of `computePatchRoPE`, row by row. -/
def patchTable (g : K → K) (T H W sm : ℕ) (invFreq : List K) : List K :=
  let ids := patchLoop (H / sm) (W / sm) sm
  (List.range T).flatMap fun _ => (List.range (H * W)).flatMap fun p =>
    ropeRow g invFreq (ids.getD p (0, 0)).1 (ids.getD p (0, 0)).2

/-- `computePatchRoPE(T, H, W, spatial_merge_size, inv_freq)`. -/
def computePatchRoPE (T H W sm : ℕ) (invFreq : List K) : Option (List K × List K) :=
  if sm = 0 then none
  else do
    let _ ← intOf (H * W)
    some (patchTable F.cos T H W sm invFreq, patchTable F.sin T H W sm invFreq)

/-- `windowReorder(hidden, n_groups, sm_unit, embed_dim, window_index)`. A copy from or to outside
the vectors is undefined. -/
def windowReorder (hidden : List K) (nGroups smUnit embedDim : ℕ) (windowIndex : List ℤ) :
    Option (List K) :=
  let rowStride := smUnit * embedDim
  if windowIndex.length ≤ nGroups ∧
      ∀ v ∈ windowIndex, 0 ≤ v ∧ (v.toNat + 1) * rowStride ≤ hidden.length then
    some ((List.range (nGroups * rowStride)).map
      (FlatMem.upto (fun i out => FlatMem.memcpy out (fun k => hidden.getD k 0) (i * rowStride)
        ((windowIndex.getD i 0).toNat * rowStride) rowStride) windowIndex.length fun _ => 0))
  else none

end RoPE

/-! ## Loops -/

section Loops

theorem mem_frameLoop {T n m t h w : ℕ} :
    (t, h, w) ∈ frameLoop T n m ↔ t < T ∧ h < n ∧ w < m := by
  simp [frameLoop]

theorem frameLoop_row (n m t : ℕ) :
    ((List.range n).flatMap fun h => (List.range m).map fun w => (t, h, w)).length = n * m :=
  Blocks.length_flatMap_range fun _ _ => by rw [List.length_map, List.length_range]

@[simp] theorem frameLoop_length (T n m : ℕ) : (frameLoop T n m).length = T * (n * m) :=
  Blocks.length_flatMap_range fun t _ => frameLoop_row n m t

/-- The number of a round of the three loops. -/
theorem frameLoop_getElem? {T n m t h w : ℕ} (ht : t < T) (hh : h < n) (hw : w < m) :
    (frameLoop T n m)[t * (n * m) + (h * m + w)]? = some (t, h, w) := by
  have hrow : ((List.range m).map fun w => (t, h, w))[w]? = some (t, h, w) := by
    rw [List.getElem?_map, List.getElem?_range hw, Option.map_some]
  unfold frameLoop
  rw [Blocks.getElem?_flatMap_range (fun t _ => frameLoop_row n m t) ht (FlatMem.row_lt hh hw),
    Blocks.getElem?_flatMap_range (fun _ _ => by rw [List.length_map, List.length_range]) hh hw]
  exact hrow

/-- Every round of the three loops has its number. -/
theorem frameLoop_cases {T n m k : ℕ} {win : ℕ × ℕ × ℕ} (hk : (frameLoop T n m)[k]? = some win) :
    k = win.1 * (n * m) + (win.2.1 * m + win.2.2) ∧ win.1 < T ∧ win.2.1 < n ∧ win.2.2 < m := by
  obtain ⟨hlt, hwin⟩ := List.getElem?_eq_some_iff.mp hk
  rw [frameLoop_length] at hlt
  have hnm : 0 < n * m := Nat.pos_of_ne_zero fun h => by
    rw [h, Nat.mul_zero] at hlt
    exact absurd hlt (Nat.not_lt_zero k)
  have hm : 0 < m := Nat.pos_of_ne_zero fun h => by simp [h] at hnm
  have ht : k / (n * m) < T := Nat.div_lt_of_lt_mul (by rwa [Nat.mul_comm])
  have hh : k % (n * m) / m < n :=
    Nat.div_lt_of_lt_mul (by rw [Nat.mul_comm m]; exact Nat.mod_lt k hnm)
  have hw : k % (n * m) % m < m := Nat.mod_lt _ hm
  have hform : k / (n * m) * (n * m) + (k % (n * m) / m * m + k % (n * m) % m) = k := by
    rw [Nat.div_add_mod', Nat.div_add_mod']
  have hget := frameLoop_getElem? ht hh hw
  rw [hform, hk] at hget
  obtain rfl := Option.some.inj hget
  exact ⟨hform.symm, ht, hh, hw⟩

theorem mem_cellLoop {v ih iw : ℕ} : (ih, iw) ∈ cellLoop v ↔ ih < v ∧ iw < v := by
  simp [cellLoop]

theorem cellLoop_length (v : ℕ) : (cellLoop v).length = v * v :=
  Blocks.length_flatMap_range fun _ _ => by rw [List.length_map, List.length_range]

theorem cellLoop_getElem? {v ih iw : ℕ} (hh : ih < v) (hw : iw < v) :
    (cellLoop v)[ih * v + iw]? = some (ih, iw) := by
  unfold cellLoop
  rw [Blocks.getElem?_flatMap_range (fun _ _ => by rw [List.length_map, List.length_range]) hh hw,
    List.getElem?_map, List.getElem?_range hw, Option.map_some]

end Loops

/-! ## The grid -/

/-- The padded length is a whole number of windows. -/
theorem dvd_padded {v : ℕ} (hv : 0 < v) (a : ℕ) : v ∣ a + (v - a % v) % v := by
  have hmod := Nat.mod_lt a hv
  have hform := Nat.div_add_mod a v
  rcases Nat.eq_zero_or_pos (a % v) with hzero | hpos
  · rw [hzero, Nat.sub_zero, Nat.mod_self, Nat.add_zero]
    exact Nat.dvd_of_mod_eq_zero hzero
  · rw [Nat.mod_eq_of_lt (by omega)]
    refine ⟨a / v + 1, ?_⟩
    rw [Nat.mul_succ]
    omega

/-- Every window begins before the padding. -/
theorem window_lt {v a k : ℕ} (hv : 0 < v) (hk : k < (a + (v - a % v) % v) / v) : k * v < a := by
  have hpad := Nat.mod_lt (v - a % v) hv
  have hend : (k + 1) * v ≤ a + (v - a % v) % v := by
    calc (k + 1) * v ≤ (a + (v - a % v) % v) / v * v := Nat.mul_le_mul_right v hk
      _ ≤ a + (v - a % v) % v := Nat.div_mul_le_self _ v
  rw [Nat.succ_mul] at hend
  omega

/-- A position of a frame has one form. -/
theorem position_unique {n m t h w t' h' w' : ℕ} (hh : h < n) (hw : w < m) (hh' : h' < n)
    (hw' : w' < m) (heq : t * n * m + h * m + w = t' * n * m + h' * m + w') :
    t = t' ∧ h = h' ∧ w = w' := by
  have hrows : (t * n + h) * m + w = (t' * n + h') * m + w' := by
    rw [Nat.add_mul, Nat.add_mul]
    exact heq
  obtain ⟨hrow, hcol⟩ := RowMajor.cell_unique hw hw' hrows
  obtain ⟨hframe, hrow⟩ := RowMajor.cell_unique hh hh' hrow
  exact ⟨hframe, hrow, hcol⟩

namespace WindowGrid

variable {g : WindowGrid} {T : ℕ}

theorem nwH_mul (hv : 0 < g.vitWs) : g.nwH * g.vitWs = g.pH :=
  Nat.div_mul_cancel (dvd_padded hv g.llmH)

theorem nwW_mul (hv : 0 < g.vitWs) : g.nwW * g.vitWs = g.pW :=
  Nat.div_mul_cancel (dvd_padded hv g.llmW)

theorem llmH_le (g : WindowGrid) : g.llmH ≤ g.pH := Nat.le_add_right _ _

theorem llmW_le (g : WindowGrid) : g.llmW ≤ g.pW := Nat.le_add_right _ _

/-- What the padded frame holds at a position. -/
theorem idxPad_apply {t h w : ℕ} (ht : t < T) (hh : h < g.pH) (hw : w < g.pW) :
    g.idxPad T (t * g.pH * g.pW + h * g.pW + w) =
      if h < g.llmH ∧ w < g.llmW then ((t * g.llmH * g.llmW + h * g.llmW + w : ℕ) : ℤ)
      else -100 := by
  have hform : ∀ t' h' w', (t', h', w') ∈ frameLoop T g.llmH g.llmW →
      t' * g.pH * g.pW + h' * g.pW + w' = t * g.pH * g.pW + h * g.pW + w →
      t' = t ∧ h' = h ∧ w' = w := by
    intro t' h' w' hmem heq
    obtain ⟨-, hh', hw'⟩ := mem_frameLoop.mp hmem
    exact position_unique (hh'.trans_le g.llmH_le) (hw'.trans_le g.llmW_le) hh hw heq
  unfold idxPad
  split_ifs with hin
  · apply FlatMem.assign_in (w := (t * g.pH * g.pW + h * g.pW + w,
      ((t * g.llmH * g.llmW + h * g.llmW + w : ℕ) : ℤ)))
    · exact List.mem_map.mpr ⟨(t, h, w), mem_frameLoop.mpr ⟨ht, hin.1, hin.2⟩, rfl⟩
    · intro u hu heq
      obtain ⟨⟨t', h', w'⟩, hmem, rfl⟩ := List.mem_map.mp hu
      obtain ⟨rfl, rfl, rfl⟩ := hform t' h' w' hmem heq
      rfl
  · apply FlatMem.assign_out
    intro u hu heq
    obtain ⟨⟨t', h', w'⟩, hmem, rfl⟩ := List.mem_map.mp hu
    obtain ⟨rfl, rfl, rfl⟩ := hform t' h' w' hmem heq
    exact hin (mem_frameLoop.mp hmem).2

/-! ## The order of the cells -/

/-- The number of a cell. -/
def cellAt (g : WindowGrid) (t h w : ℕ) : Option ℕ :=
  if h < g.llmH ∧ w < g.llmW then some (t * g.llmH * g.llmW + h * g.llmW + w) else none

/-- The cells of a window. -/
def windowCells (g : WindowGrid) (win : ℕ × ℕ × ℕ) : List ℕ :=
  (cellLoop g.vitWs).filterMap fun cell =>
    g.cellAt win.1 (win.2.1 * g.vitWs + cell.1) (win.2.2 * g.vitWs + cell.2)

/-- The windows of all frames. -/
def windows (g : WindowGrid) (T : ℕ) : List (List ℕ) := (frameLoop T g.nwH g.nwW).map g.windowCells

theorem pushCell_eq (hv : 0 < g.vitWs) {win : ℕ × ℕ × ℕ} {cell : ℕ × ℕ}
    (hwin : win ∈ frameLoop T g.nwH g.nwW) (hcell : cell ∈ cellLoop g.vitWs) :
    g.pushCell T win cell =
      (g.cellAt win.1 (win.2.1 * g.vitWs + cell.1) (win.2.2 * g.vitWs + cell.2)).map
        fun c : ℕ => (c : ℤ) := by
  obtain ⟨t, wh, ww⟩ := win
  obtain ⟨ih, iw⟩ := cell
  obtain ⟨ht, hwh, hww⟩ := mem_frameLoop.mp hwin
  obtain ⟨hih, hiw⟩ := mem_cellLoop.mp hcell
  have hh : wh * g.vitWs + ih < g.pH := by
    rw [← nwH_mul hv]
    exact FlatMem.row_lt hwh hih
  have hw : ww * g.vitWs + iw < g.pW := by
    rw [← nwW_mul hv]
    exact FlatMem.row_lt hww hiw
  unfold pushCell cellAt
  dsimp only
  rw [if_neg (by omega), idxPad_apply ht hh hw]
  split_ifs with hin hne
  · rfl
  · omega
  · omega
  · rfl

/-- The order of the cells is that of the windows, one after another. -/
theorem windowIndex_eq (hv : 0 < g.vitWs) (T : ℕ) :
    g.windowIndex T = (g.windows T).flatten.map fun c : ℕ => (c : ℤ) := by
  unfold windowIndex windows
  rw [← List.flatMap_def, List.map_flatMap]
  apply List.flatMap_congr
  intro win hwin
  unfold windowCells
  rw [List.map_filterMap]
  apply List.filterMap_congr
  intro cell hcell
  exact pushCell_eq hv hwin hcell

/-- Every cell stands in the order once. -/
theorem windows_perm (hv : 0 < g.vitWs) (T : ℕ) :
    (g.windows T).flatten.Perm (List.range (T * (g.llmH * g.llmW))) := by
  have hloops : (g.windows T).flatten = (List.range T).flatMap fun t =>
      (List.range g.nwH).flatMap fun wh => (List.range g.nwW).flatMap fun ww =>
        (List.range g.vitWs).flatMap fun ih => (List.range g.vitWs).flatMap fun iw =>
          (g.cellAt t (wh * g.vitWs + ih) (ww * g.vitWs + iw)).toList := by
    unfold windows windowCells frameLoop cellLoop
    simp only [← List.flatMap_def, List.filterMap_eq_flatMap_toList, List.flatMap_assoc,
      List.flatMap_map]
  -- the columns of a row of cells are spread over a row of windows
  have hframe : ∀ t, ((List.range g.nwH).flatMap fun wh => (List.range g.nwW).flatMap fun ww =>
        (List.range g.vitWs).flatMap fun ih => (List.range g.vitWs).flatMap fun iw =>
          (g.cellAt t (wh * g.vitWs + ih) (ww * g.vitWs + iw)).toList).Perm
      ((List.range g.pH).flatMap fun h => (List.range g.pW).flatMap fun w =>
        (g.cellAt t h w).toList) := by
    intro t
    rw [← nwH_mul hv, ← nwW_mul hv, RowMajor.flatMap_range_mul]
    simp only [RowMajor.flatMap_range_mul]
    apply List.Perm.flatMap_left
    intro wh _
    exact Blocks.flatMap_comm_perm _ _ _
  have hcut : ∀ t, ((List.range g.pH).flatMap fun h => (List.range g.pW).flatMap fun w =>
        (g.cellAt t h w).toList) =
      (List.range (g.llmH * g.llmW)).map fun c => t * (g.llmH * g.llmW) + c := by
    intro t
    have hrow : ∀ h, ((List.range g.pW).flatMap fun w => (g.cellAt t h w).toList) =
        if h < g.llmH then
          (List.range g.llmW).map fun w => t * (g.llmH * g.llmW) + (h * g.llmW + w)
        else [] := by
      intro h
      split_ifs with hh
      · rw [List.map_eq_flatMap, ← Blocks.flatMap_range_cut _ g.llmW_le]
        apply List.flatMap_congr
        intro w _
        unfold cellAt
        split_ifs with h1 h2 h2
        · rw [Option.toList_some, Nat.mul_assoc, Nat.add_assoc]
        · exact absurd h1.2 h2
        · exact absurd ⟨hh, h2⟩ h1
        · rfl
      · apply List.flatMap_eq_nil_iff.mpr
        intro w _
        unfold cellAt
        rw [if_neg fun hin => hh hin.1]
        rfl
    simp only [hrow]
    rw [Blocks.flatMap_range_cut _ g.llmH_le, RowMajor.map_range_mul]
  have hall : (List.range (T * (g.llmH * g.llmW))) = (List.range T).flatMap fun t =>
      (List.range (g.llmH * g.llmW)).map fun c => t * (g.llmH * g.llmW) + c := by
    rw [← RowMajor.map_range_mul (fun k => k), List.map_id']
  rw [hloops, hall]
  apply List.Perm.flatMap_left
  intro t _
  rw [← hcut t]
  exact hframe t

/-! ## Windows and their lengths -/

/-- The number of the window of a cell. -/
def windowOf (g : WindowGrid) (c : ℕ) : ℕ :=
  c / (g.llmH * g.llmW) * (g.nwH * g.nwW) +
    (c % (g.llmH * g.llmW) / g.llmW / g.vitWs * g.nwW + c % (g.llmH * g.llmW) % g.llmW / g.vitWs)

theorem windowOf_cellAt {t h w c : ℕ} (hc : g.cellAt t h w = some c) :
    h < g.llmH ∧ w < g.llmW ∧ c = t * (g.llmH * g.llmW) + (h * g.llmW + w) ∧
      g.windowOf c = t * (g.nwH * g.nwW) + (h / g.vitWs * g.nwW + w / g.vitWs) := by
  unfold cellAt at hc
  split_ifs at hc with hin
  obtain rfl := Option.some.inj hc
  have hform : t * g.llmH * g.llmW + h * g.llmW + w =
      t * (g.llmH * g.llmW) + (h * g.llmW + w) := by ring
  have hlt := FlatMem.row_lt hin.1 hin.2
  refine ⟨hin.1, hin.2, hform, ?_⟩
  unfold windowOf
  rw [hform, RowMajor.cell_div t hlt, RowMajor.cell_mod t hlt, RowMajor.cell_div h hin.2,
    RowMajor.cell_mod h hin.2]

/-- A cell of a window, with its place in the frame. -/
theorem mem_windowCells {win : ℕ × ℕ × ℕ} {c : ℕ} (hc : c ∈ g.windowCells win) :
    ∃ h < g.llmH, ∃ w < g.llmW, c = win.1 * (g.llmH * g.llmW) + (h * g.llmW + w) ∧
      h / g.vitWs = win.2.1 ∧ w / g.vitWs = win.2.2 ∧
      g.windowOf c = win.1 * (g.nwH * g.nwW) + (win.2.1 * g.nwW + win.2.2) := by
  obtain ⟨⟨ih, iw⟩, hcell, hat⟩ := List.mem_filterMap.mp hc
  obtain ⟨hih, hiw⟩ := mem_cellLoop.mp hcell
  obtain ⟨hh, hw, hform, hwindow⟩ := windowOf_cellAt hat
  rw [RowMajor.cell_div _ hih, RowMajor.cell_div _ hiw] at hwindow
  exact ⟨_, hh, _, hw, hform, RowMajor.cell_div _ hih, RowMajor.cell_div _ hiw, hwindow⟩

theorem windows_getElem? {k : ℕ} {W : List ℕ} (hW : (g.windows T)[k]? = some W) :
    ∃ win, (frameLoop T g.nwH g.nwW)[k]? = some win ∧ W = g.windowCells win := by
  unfold windows at hW
  rw [List.getElem?_map] at hW
  obtain ⟨win, hwin, rfl⟩ := Option.map_eq_some_iff.mp hW
  exact ⟨win, hwin, rfl⟩

/-- The windows stand in the order of their numbers. -/
theorem windows_keyed (g : WindowGrid) (T : ℕ) : Blocks.Keyed g.windowOf (g.windows T) := by
  intro k W hW c hc
  obtain ⟨win, hwin, rfl⟩ := windows_getElem? hW
  obtain ⟨-, -, -, -, -, -, -, hwindow⟩ := mem_windowCells hc
  exact hwindow.trans (frameLoop_cases hwin).1.symm

@[simp] theorem windows_length (g : WindowGrid) (T : ℕ) :
    (g.windows T).length = T * (g.nwH * g.nwW) := by
  unfold windows
  rw [List.length_map, frameLoop_length]

theorem valid_eq (g : WindowGrid) (win : ℕ × ℕ × ℕ) : g.valid win = (g.windowCells win).length := by
  unfold valid windowCells
  rw [List.length_filterMap_eq_countP]
  apply List.countP_congr
  intro cell _
  unfold cellAt
  split_ifs with hin <;> simpa using hin

/-- No window consists of padding. -/
theorem valid_ne_zero (hv : 0 < g.vitWs) {win : ℕ × ℕ × ℕ} (hwin : win ∈ frameLoop T g.nwH g.nwW) :
    g.valid win ≠ 0 := by
  obtain ⟨t, wh, ww⟩ := win
  obtain ⟨-, hwh, hww⟩ := mem_frameLoop.mp hwin
  have hh : wh * g.vitWs < g.llmH := window_lt hv hwh
  have hw : ww * g.vitWs < g.llmW := window_lt hv hww
  have hpos : 0 < g.valid (t, wh, ww) := by
    apply List.countP_pos_iff.mpr
    refine ⟨(0, 0), mem_cellLoop.mpr ⟨hv, hv⟩, ?_⟩
    simpa using ⟨hh, hw⟩
  exact hpos.ne'

/-- The lengths are those of the windows. -/
theorem cuSeqlens_eq (hv : 0 < g.vitWs) (T : ℕ) {smU : ℕ} (hsm : 0 < smU) :
    g.cuSeqlens T smU = (List.range (T * (g.nwH * g.nwW) + 1)).map fun k =>
      Blocks.start (g.windows T) k * smU := by
  have hne : ∀ n ∈ (frameLoop T g.nwH g.nwW).map (fun win => g.valid win * smU), n ≠ 0 := by
    intro n hn
    obtain ⟨win, hwin, rfl⟩ := List.mem_map.mp hn
    exact Nat.mul_ne_zero (valid_ne_zero hv hwin) hsm.ne'
  unfold cuSeqlens
  rw [Blocks.foldl_pushSum hne, List.length_map, frameLoop_length]
  apply List.map_congr_left
  intro k _
  unfold Blocks.start windows
  rw [List.length_flatten, ← List.map_take, ← List.map_take, List.map_map,
    ← List.sum_map_mul_right]
  simp only [Function.comp_apply, valid_eq]

theorem cuSeqlens_getD (hv : 0 < g.vitWs) {smU k : ℕ} (hsm : 0 < smU)
    (hk : k ≤ T * (g.nwH * g.nwW)) :
    (g.cuSeqlens T smU).getD k 0 = Blocks.start (g.windows T) k * smU := by
  rw [cuSeqlens_eq hv T hsm, List.getD_eq_getElem?_getD, List.getElem?_map,
    List.getElem?_range (by omega), Option.map_some, Option.getD_some]

end WindowGrid

/-! ## The inverse -/

/-- Two lists of positions that undo each other. -/
def TwoSidedInverse (fwd rev : List ℤ) : Prop :=
  (∀ i < fwd.length, ∃ c < rev.length, fwd[i]? = some (c : ℤ) ∧ rev[c]? = some (i : ℤ)) ∧
    ∀ c < rev.length, ∃ i < fwd.length, rev[c]? = some (i : ℤ) ∧ fwd[i]? = some (c : ℤ)

/-- The inverse of a permutation. -/
theorem reverseWindowIndex_perm {cells : List ℕ} {n : ℕ} (hperm : cells.Perm (List.range n)) :
    ∃ rev, reverseWindowIndex (cells.map fun c : ℕ => (c : ℤ)) = some rev ∧
      TwoSidedInverse (cells.map fun c : ℕ => (c : ℤ)) rev := by
  have hlen : cells.length = n := by rw [hperm.length_eq, List.length_range]
  have hnodup : cells.Nodup := hperm.nodup_iff.mpr List.nodup_range
  have hmem : ∀ c, c ∈ cells ↔ c < n := fun c => hperm.mem_iff.trans List.mem_range
  have hheld : ∀ v ∈ cells.map (fun c : ℕ => (c : ℤ)),
      0 ≤ v ∧ v < (cells.map fun c : ℕ => (c : ℤ)).length := by
    intro v hv
    obtain ⟨c, hc, rfl⟩ := List.mem_map.mp hv
    have := (hmem c).mp hc
    rw [List.length_map]
    omega
  have hentry : ∀ i c : ℕ, cells[i]? = some c →
      FlatMem.assign ((cells.map fun c : ℕ => (c : ℤ)).zipIdx.map fun (v, i) =>
        (v.toNat, (i : ℤ))) (fun _ => 0) c = i := by
    intro i c hi
    apply FlatMem.assign_in (w := (c, (i : ℤ)))
    · refine List.mem_map.mpr ⟨((c : ℤ), i), ?_, rfl⟩
      rw [List.mem_zipIdx_iff_getElem?, List.getElem?_map, hi, Option.map_some]
    · intro u hu heq
      obtain ⟨⟨v, j⟩, hj, rfl⟩ := List.mem_map.mp hu
      rw [List.mem_zipIdx_iff_getElem?, List.getElem?_map] at hj
      obtain ⟨d, hd, rfl⟩ := Option.map_eq_some_iff.mp hj
      obtain rfl : d = c := heq
      obtain ⟨hilt, hic⟩ := List.getElem?_eq_some_iff.mp hi
      obtain ⟨hjlt, hjc⟩ := List.getElem?_eq_some_iff.mp hd
      have hij : j = i := (List.Nodup.getElem_inj_iff hnodup).mp (hjc.trans hic.symm)
      rw [hij]
  refine ⟨_, if_pos hheld, ?_, ?_⟩
  · intro i hi
    rw [List.length_map] at hi
    have hget := List.getElem?_eq_getElem hi
    have hc := (hmem _).mp (List.mem_of_getElem? hget)
    refine ⟨cells[i], by simpa [hlen] using hc, ?_, ?_⟩
    · rw [List.getElem?_map, hget, Option.map_some]
    · rw [List.getElem?_map, List.getElem?_range (by simpa [hlen] using hc), Option.map_some,
        hentry i _ hget]
  · intro c hc
    have hcn : c < n := by simpa [hlen] using hc
    obtain ⟨i, hi, hget⟩ := List.mem_iff_getElem.mp ((hmem c).mpr hcn)
    have hget' : cells[i]? = some c := by rw [List.getElem?_eq_getElem hi, hget]
    refine ⟨i, by rwa [List.length_map], ?_, ?_⟩
    · rw [List.getElem?_map, List.getElem?_range (by simpa [hlen] using hcn), Option.map_some,
        hentry i c hget']
    · rw [List.getElem?_map, hget', Option.map_some]

/-! ## Rotations -/

section Rotations

variable {K : Type} [Field K]

@[simp] theorem ropeRow_length (g : K → K) (invFreq : List K) (y x : ℕ) :
    (ropeRow g invFreq y x).length = invFreq.length * 2 := by
  unfold ropeRow
  rw [List.length_append, List.length_map, List.length_map, Nat.mul_two]

/-- The patches of a cell follow one another. -/
theorem patchLoop_getElem? {a b sm h w ir ic : ℕ} (hh : h < a) (hw : w < b) (hir : ir < sm)
    (hic : ic < sm) :
    (patchLoop a b sm)[(h * b + w) * (sm * sm) + (ir * sm + ic)]? =
      some (h * sm + ir, w * sm + ic) := by
  have hcell : ∀ br bc : ℕ, ((cellLoop sm).map fun (ir, ic) => (br * sm + ir, bc * sm + ic)).length =
      sm * sm := fun br bc => by rw [List.length_map, cellLoop_length]
  have hindex : (h * b + w) * (sm * sm) + (ir * sm + ic) =
      h * (b * (sm * sm)) + (w * (sm * sm) + (ir * sm + ic)) := by ring
  have hq : ir * sm + ic < sm * sm := FlatMem.row_lt hir hic
  unfold patchLoop
  rw [hindex, Blocks.getElem?_flatMap_range
      (fun br _ => Blocks.length_flatMap_range fun bc _ => hcell br bc) hh (FlatMem.row_lt hw hq),
    Blocks.getElem?_flatMap_range (fun bc _ => hcell h bc) hw hq, List.getElem?_map,
    cellLoop_getElem? hir hic, Option.map_some]

variable {T H W sm : ℕ} {invFreq : List K}

theorem patchTable_length (g : K → K) (T H W sm : ℕ) (invFreq : List K) :
    (patchTable g T H W sm invFreq).length = T * (H * W * (invFreq.length * 2)) :=
  Blocks.length_flatMap_range fun _ _ => Blocks.length_flatMap_range fun _ _ => ropeRow_length _ _ _ _

/-- An entry of a table in the order of the cells. -/
theorem patchTable_getElem? (g : K → K) {t h w ir ic k : ℕ} (hH : sm ∣ H) (hW : sm ∣ W)
    (ht : t < T) (hh : h < H / sm) (hw : w < W / sm) (hir : ir < sm) (hic : ic < sm)
    (hk : k < invFreq.length * 2) :
    (patchTable g T H W sm invFreq)[((t * (H / sm * (W / sm)) + (h * (W / sm) + w)) * (sm * sm) +
        (ir * sm + ic)) * (invFreq.length * 2) + k]? =
      (ropeRow g invFreq (h * sm + ir) (w * sm + ic))[k]? := by
  obtain ⟨a, rfl⟩ := hH
  obtain ⟨b, rfl⟩ := hW
  have hsm : 0 < sm := by omega
  rw [Nat.mul_div_cancel_left a hsm] at hh ⊢
  rw [Nat.mul_div_cancel_left b hsm] at hw ⊢
  have hq : ir * sm + ic < sm * sm := FlatMem.row_lt hir hic
  have hp : (h * b + w) * (sm * sm) + (ir * sm + ic) < sm * a * (sm * b) := by
    calc (h * b + w) * (sm * sm) + (ir * sm + ic) < a * b * (sm * sm) :=
          FlatMem.row_lt (FlatMem.row_lt hh hw) hq
      _ = sm * a * (sm * b) := by ring
  have hindex : ((t * (a * b) + (h * b + w)) * (sm * sm) + (ir * sm + ic)) *
      (invFreq.length * 2) + k = t * (sm * a * (sm * b) * (invFreq.length * 2)) +
      (((h * b + w) * (sm * sm) + (ir * sm + ic)) * (invFreq.length * 2) + k) := by ring
  have hids : (patchLoop a b sm).getD ((h * b + w) * (sm * sm) + (ir * sm + ic)) (0, 0) =
      (h * sm + ir, w * sm + ic) := by
    rw [List.getD_eq_getElem?_getD, patchLoop_getElem? hh hw hir hic, Option.getD_some]
  unfold patchTable
  rw [Nat.mul_div_cancel_left a hsm, Nat.mul_div_cancel_left b hsm]
  dsimp only
  rw [hindex, Blocks.getElem?_flatMap_range
      (fun _ _ => Blocks.length_flatMap_range fun _ _ => ropeRow_length _ _ _ _) ht
      (FlatMem.row_lt hp hk),
    Blocks.getElem?_flatMap_range (fun _ _ => ropeRow_length _ _ _ _) hp hk, hids]

/-- The groups of a reordered table are those of the table, in the order of the index. -/
theorem windowReorder_getElem? {hidden : List K} {n U E : ℕ} {cells : List ℕ}
    (hlen : cells.length = n) (hmem : ∀ c ∈ cells, c < n) (hhidden : hidden.length = n * (U * E)) :
    ∃ out, windowReorder hidden n U E (cells.map fun c : ℕ => (c : ℤ)) = some out ∧
      ∀ i c : ℕ, cells[i]? = some c → ∀ k < U * E,
        out[i * (U * E) + k]? = hidden[c * (U * E) + k]? := by
  have hheld : (cells.map fun c : ℕ => (c : ℤ)).length ≤ n ∧
      ∀ v ∈ cells.map (fun c : ℕ => (c : ℤ)), 0 ≤ v ∧ (v.toNat + 1) * (U * E) ≤ hidden.length := by
    constructor
    · rw [List.length_map, hlen]
    · intro v hv
      obtain ⟨c, hc, rfl⟩ := List.mem_map.mp hv
      rw [hhidden]
      exact ⟨Int.natCast_nonneg c, Nat.mul_le_mul_right _ (hmem c hc)⟩
  refine ⟨_, if_pos hheld, ?_⟩
  intro i c hi k hk
  obtain ⟨hilt, -⟩ := List.getElem?_eq_some_iff.mp hi
  have hlt : i * (U * E) + k < n * (U * E) := FlatMem.row_lt (hlen ▸ hilt) hk
  have hsrc : c * (U * E) + k < hidden.length := by
    rw [hhidden]
    exact FlatMem.row_lt (hmem c (List.mem_of_getElem? hi)) hk
  have hindex : ((cells.map fun c : ℕ => (c : ℤ)).getD i 0).toNat = c := by
    rw [List.getD_eq_getElem?_getD, List.getElem?_map, hi, Option.map_some, Option.getD_some,
      Int.toNat_natCast]
  rw [List.getElem?_map, List.getElem?_range hlt, Option.map_some, List.getElem?_eq_getElem hsrc]
  congr 1
  apply FlatMem.upto_only (k := i)
  · rwa [List.length_map]
  · intro r _ hr m
    apply FlatMem.memcpy_out
    exact FlatMem.row_apart hr.symm hk
  · intro m
    rw [FlatMem.memcpy_in (by omega) (by omega), hindex, Nat.add_sub_cancel_left,
      List.getD_eq_getElem?_getD, List.getElem?_eq_getElem hsrc, Option.getD_some]

end Rotations

/-! ## The four functions together -/

/-- The frame has whole cells, a window has at least one, and an `int` holds what is computed. -/
structure WindowsFit (T H W sm windowSize patch : ℕ) : Prop where
  sm_pos : 0 < sm
  patch_pos : 0 < patch
  height : sm ∣ H
  width : sm ∣ W
  window : sm * patch ≤ windowSize
  unit : sm * sm < 2 ^ 31
  patches : H * W < 2 ^ 31
  pH : (frameGrid H W sm windowSize patch).pH < 2 ^ 31
  pW : (frameGrid H W sm windowSize patch).pW < 2 ^ 31
  rows : T * (frameGrid H W sm windowSize patch).pH < 2 ^ 31
  cells : T * (frameGrid H W sm windowSize patch).pH * (frameGrid H W sm windowSize patch).pW < 2 ^ 31

/-- Row `r` of the two tables is that of the patch at row `y` and column `x`. -/
def IsPatchRow {K : Type} [Field K] (F : MathFns K) (invFreq cos sin : List K) (r y x : ℕ) : Prop :=
  ∀ k < invFreq.length * 2,
    cos[r * (invFreq.length * 2) + k]? = (ropeRow F.cos invFreq y x)[k]? ∧
      sin[r * (invFreq.length * 2) + k]? = (ropeRow F.sin invFreq y x)[k]?

/-- What the four functions compute agrees. -/
structure WindowsAgree {K : Type} [Field K] (F : MathFns K) (T H W sm : ℕ) (g : WindowGrid)
    (invFreq : List K) (index reverse : List ℤ) (cu : List ℕ) (cos sin : List K) : Prop where
  perm : index.Perm ((List.range (T * (H / sm) * (W / sm))).map fun c : ℕ => (c : ℤ))
  inverse : TwoSidedInverse index reverse
  length : cu.length = T * (g.nwH * g.nwW) + 1
  first : cu.getD 0 0 = 0
  last : cu.getD (T * (g.nwH * g.nwW)) 0 = T * H * W
  segment : ∀ b < T * (g.nwH * g.nwW), cu.getD (b + 1) 0 =
    cu.getD b 0 + sm * sm * index.countP fun c => g.windowOf c.toNat = b
  order : ∀ (i : ℕ) (c : ℤ), index[i]? = some c → ∀ b < T * (g.nwH * g.nwW),
    (g.windowOf c.toNat = b ↔ cu.getD b 0 ≤ sm * sm * i ∧ sm * sm * i < cu.getD (b + 1) 0)
  rope : ∀ r < T * H * W, ∃ b < T * (g.nwH * g.nwW), (cu.getD b 0 ≤ r ∧ r < cu.getD (b + 1) 0) ∧
    ∃ t < T, ∃ y < H, ∃ x < W,
      t * (g.nwH * g.nwW) + (y / (sm * g.vitWs) * g.nwW + x / (sm * g.vitWs)) = b ∧
        IsPatchRow F invFreq cos sin r y x

section Agree

variable {T H W sm windowSize patch : ℕ}

theorem WindowsFit.vitWs_pos (h : WindowsFit T H W sm windowSize patch) :
    0 < (frameGrid H W sm windowSize patch).vitWs := by
  show 0 < windowSize / sm / patch
  rw [Nat.div_div_eq_div_mul]
  exact Nat.div_pos h.window (Nat.mul_pos h.sm_pos h.patch_pos)

theorem WindowsFit.windowGrid_eq (h : WindowsFit T H W sm windowSize patch) :
    windowGrid H W sm windowSize patch = some (frameGrid H W sm windowSize patch) := by
  have hv : windowSize / sm / patch ≠ 0 := h.vitWs_pos.ne'
  unfold windowGrid
  rw [if_neg (by simp [h.sm_pos.ne', h.patch_pos.ne', hv]), intOf_eq h.pH, intOf_eq h.pW]
  rfl

theorem WindowsFit.computeWindowIndex_eq (h : WindowsFit T H W sm windowSize patch) :
    computeWindowIndex T H W sm windowSize patch =
      some ((frameGrid H W sm windowSize patch).windowIndex T) := by
  have hrows := h.rows
  have hcells := h.cells
  unfold computeWindowIndex
  rw [h.windowGrid_eq]
  generalize frameGrid H W sm windowSize patch = g at hrows hcells ⊢
  have hrows' : T * g.llmH < 2 ^ 31 := (Nat.mul_le_mul_left T g.llmH_le).trans_lt hrows
  have hcells' : T * g.llmH * g.llmW < 2 ^ 31 :=
    (Nat.mul_le_mul (Nat.mul_le_mul_left T g.llmH_le) g.llmW_le).trans_lt hcells
  show (do
    let _ ← intOf (T * g.llmH)
    let _ ← intOf (T * g.llmH * g.llmW)
    let _ ← intOf (T * g.pH)
    let _ ← intOf (T * g.pH * g.pW)
    some (g.windowIndex T)) = _
  rw [intOf_eq hrows', intOf_eq hcells', intOf_eq hrows, intOf_eq hcells]
  rfl

theorem WindowsFit.computeCuWindowSeqlens_eq (h : WindowsFit T H W sm windowSize patch) :
    computeCuWindowSeqlens T H W sm windowSize patch =
      some ((frameGrid H W sm windowSize patch).cuSeqlens T (sm * sm)) := by
  unfold computeCuWindowSeqlens
  rw [h.windowGrid_eq, intOf_eq h.unit]
  rfl

theorem WindowsFit.computePatchRoPE_eq {K : Type} [Field K] (F : MathFns K)
    (h : WindowsFit T H W sm windowSize patch) (invFreq : List K) :
    computePatchRoPE F T H W sm invFreq =
      some (patchTable F.cos T H W sm invFreq, patchTable F.sin T H W sm invFreq) := by
  unfold computePatchRoPE
  rw [if_neg h.sm_pos.ne', intOf_eq h.patches]
  rfl

theorem WindowsFit.patches_eq (h : WindowsFit T H W sm windowSize patch) :
    H / sm * (W / sm) * (sm * sm) = H * W := by
  calc H / sm * (W / sm) * (sm * sm) = H / sm * sm * (W / sm * sm) := by ring
    _ = H * W := by rw [Nat.div_mul_cancel h.height, Nat.div_mul_cancel h.width]

/-- The patches of all cells. -/
theorem WindowsFit.cells_mul (h : WindowsFit T H W sm windowSize patch) :
    T * (H / sm) * (W / sm) * (sm * sm) = T * H * W := by
  rw [Nat.mul_assoc T, Nat.mul_assoc T, h.patches_eq, Nat.mul_assoc]

/-- A table has a row for every patch. -/
theorem WindowsFit.patchTable_length {K : Type} [Field K]
    (h : WindowsFit T H W sm windowSize patch) (g : K → K) (invFreq : List K) :
    (patchTable g T H W sm invFreq).length =
      T * (H / sm) * (W / sm) * (sm * sm * (invFreq.length * 2)) := by
  rw [Geniex.patchTable_length]
  calc T * (H * W * (invFreq.length * 2)) = T * H * W * (invFreq.length * 2) := by ring
    _ = T * (H / sm) * (W / sm) * (sm * sm) * (invFreq.length * 2) := by rw [h.cells_mul]
    _ = T * (H / sm) * (W / sm) * (sm * sm * (invFreq.length * 2)) := Nat.mul_assoc _ _ _

/-- A cell in the order of the windows, as a position of the frame. -/
theorem WindowGrid.windows_cell {g : WindowGrid} {i c : ℕ}
    (hi : (g.windows T).flatten[i]? = some c) :
    ∃ t < T, ∃ h < g.llmH, ∃ w < g.llmW, c = t * (g.llmH * g.llmW) + (h * g.llmW + w) ∧
      g.windowOf c < T * (g.nwH * g.nwW) ∧
      g.windowOf c = t * (g.nwH * g.nwW) + (h / g.vitWs * g.nwW + w / g.vitWs) := by
  obtain ⟨cells, hcells, hc⟩ := List.mem_flatten.mp (List.mem_of_getElem? hi)
  obtain ⟨k, hk⟩ := List.mem_iff_getElem?.mp hcells
  obtain ⟨win, hwin, rfl⟩ := WindowGrid.windows_getElem? hk
  obtain ⟨hnumber, ht, -, -⟩ := frameLoop_cases hwin
  obtain ⟨hlt, -⟩ := List.getElem?_eq_some_iff.mp hk
  obtain ⟨h, hh, w, hw, hform, hrow, hcol, hwindow⟩ := WindowGrid.mem_windowCells hc
  rw [WindowGrid.windows_length] at hlt
  refine ⟨_, ht, h, hh, w, hw, hform, ?_, ?_⟩
  · rw [hwindow, ← hnumber]
    exact hlt
  · rw [hwindow, hrow, hcol]

/-- A row of the reordered tables is that of a patch of its window. -/
theorem patchRow_of_cell {K : Type} [Field K] (F : MathFns K)
    (h : WindowsFit T H W sm windowSize patch) {invFreq cos sin : List K} {cells : List ℕ}
    (hcos : ∀ i c : ℕ, cells[i]? = some c → ∀ k < sm * sm * (invFreq.length * 2),
      cos[i * (sm * sm * (invFreq.length * 2)) + k]? =
        (patchTable F.cos T H W sm invFreq)[c * (sm * sm * (invFreq.length * 2)) + k]?)
    (hsin : ∀ i c : ℕ, cells[i]? = some c → ∀ k < sm * sm * (invFreq.length * 2),
      sin[i * (sm * sm * (invFreq.length * 2)) + k]? =
        (patchTable F.sin T H W sm invFreq)[c * (sm * sm * (invFreq.length * 2)) + k]?)
    {i j t y x : ℕ} (ht : t < T) (hy : y < H / sm) (hx : x < W / sm) (hj : j < sm * sm)
    (hi : cells[i]? = some (t * (H / sm * (W / sm)) + (y * (W / sm) + x))) :
    IsPatchRow F invFreq cos sin (i * (sm * sm) + j) (y * sm + j / sm) (x * sm + j % sm) := by
  have hir : j / sm < sm := Nat.div_lt_of_lt_mul hj
  have hic : j % sm < sm := Nat.mod_lt j h.sm_pos
  have hindex : ∀ i k : ℕ, (i * (sm * sm) + j) * (invFreq.length * 2) + k =
      i * (sm * sm * (invFreq.length * 2)) + (j * (invFreq.length * 2) + k) := by
    intro i k
    ring
  intro k hk
  have hlt : j * (invFreq.length * 2) + k < sm * sm * (invFreq.length * 2) := FlatMem.row_lt hj hk
  have hentry : ∀ g : K → K, (patchTable g T H W sm invFreq)[(t * (H / sm * (W / sm)) +
      (y * (W / sm) + x)) * (sm * sm * (invFreq.length * 2)) + (j * (invFreq.length * 2) + k)]? =
      (ropeRow g invFreq (y * sm + j / sm) (x * sm + j % sm))[k]? := by
    intro g
    have hrow := patchTable_getElem? g h.height h.width ht hy hx hir hic hk
    rwa [Nat.div_add_mod', hindex] at hrow
  rw [hindex, hcos i _ hi _ hlt, hsin i _ hi _ hlt, hentry, hentry]
  exact ⟨rfl, rfl⟩

/-- The four functions agree: the order of the cells is a permutation, its inverse undoes it, the
lengths are those of the windows in their order, and a row of the rotations is that of a patch of
the window that the row lies in. -/
theorem windows_agree {K : Type} [Field K] (F : MathFns K)
    (h : WindowsFit T H W sm windowSize patch) (invFreq : List K) :
    ∃ index reverse cu cosNat sinNat cos sin,
      computeWindowIndex T H W sm windowSize patch = some index ∧
      reverseWindowIndex index = some reverse ∧
      computeCuWindowSeqlens T H W sm windowSize patch = some cu ∧
      computePatchRoPE F T H W sm invFreq = some (cosNat, sinNat) ∧
      windowReorder cosNat (T * (H / sm) * (W / sm)) (sm * sm) (invFreq.length * 2) index =
        some cos ∧
      windowReorder sinNat (T * (H / sm) * (W / sm)) (sm * sm) (invFreq.length * 2) index =
        some sin ∧
      WindowsAgree F T H W sm (frameGrid H W sm windowSize patch) invFreq index reverse cu cos sin := by
  have hv := h.vitWs_pos
  have hU : 0 < sm * sm := Nat.mul_pos h.sm_pos h.sm_pos
  have hn := h.cells_mul
  have hperm : ((frameGrid H W sm windowSize patch).windows T).flatten.Perm
      (List.range (T * (H / sm) * (W / sm))) := by
    rw [Nat.mul_assoc]
    exact WindowGrid.windows_perm hv T
  have hlen := hperm.length_eq.trans List.length_range
  have hkeyed := WindowGrid.windows_keyed (frameGrid H W sm windowSize patch) T
  have hindex := h.computeWindowIndex_eq
  rw [WindowGrid.windowIndex_eq hv] at hindex
  have hstart : ∀ k ≤ T * ((frameGrid H W sm windowSize patch).nwH *
      (frameGrid H W sm windowSize patch).nwW), _ := fun k hk =>
    WindowGrid.cuSeqlens_getD (T := T) hv hU hk
  have hmem : ∀ c ∈ ((frameGrid H W sm windowSize patch).windows T).flatten,
      c < T * (H / sm) * (W / sm) := fun c hc => List.mem_range.mp (hperm.mem_iff.mp hc)
  obtain ⟨reverse, hreverse, hinverse⟩ := reverseWindowIndex_perm hperm
  obtain ⟨cos, hcos, hcosAt⟩ := windowReorder_getElem? hlen hmem
    (h.patchTable_length F.cos invFreq)
  obtain ⟨sin, hsin, hsinAt⟩ := windowReorder_getElem? hlen hmem
    (h.patchTable_length F.sin invFreq)
  refine ⟨_, reverse, _, _, _, cos, sin, hindex, hreverse, h.computeCuWindowSeqlens_eq,
    h.computePatchRoPE_eq F invFreq, hcos, hsin, ?_⟩
  have hvitWs : H / sm = (frameGrid H W sm windowSize patch).llmH ∧
      W / sm = (frameGrid H W sm windowSize patch).llmW := ⟨rfl, rfl⟩
  generalize frameGrid H W sm windowSize patch = g at *
  constructor
  · exact hperm.map _
  · exact hinverse
  · rw [WindowGrid.cuSeqlens_eq hv T hU, List.length_map, List.length_range]
  · rw [hstart 0 (Nat.zero_le _)]
    exact Nat.zero_mul _
  · rw [hstart _ le_rfl, ← WindowGrid.windows_length, Blocks.start_length, hlen, hn]
  · intro b hb
    have hlt : b < (g.windows T).length := by rwa [WindowGrid.windows_length]
    have hget := List.getElem?_eq_getElem hlt
    rw [hstart b hb.le, hstart (b + 1) hb, Blocks.start_succ hget, List.countP_map]
    have hcount := Blocks.countP_key hkeyed hget
    simp only [Function.comp_def, Int.toNat_natCast]
    rw [hcount, Nat.add_mul, Nat.mul_comm (sm * sm)]
  · intro i c hi b hb
    rw [List.getElem?_map] at hi
    obtain ⟨cell, hcell, rfl⟩ := Option.map_eq_some_iff.mp hi
    rw [hstart b hb.le, hstart (b + 1) hb, Int.toNat_natCast, Blocks.key_eq_iff hkeyed hcell,
      Nat.mul_comm _ (sm * sm), Nat.mul_comm _ (sm * sm), Nat.mul_le_mul_left_iff hU,
      Nat.mul_lt_mul_left hU]
  · intro r hr
    have hilt : r / (sm * sm) < (g.windows T).flatten.length := by
      rw [hlen]
      apply Nat.div_lt_of_lt_mul
      rwa [Nat.mul_comm, hn]
    have hcell := List.getElem?_eq_getElem hilt
    have hj : r % (sm * sm) < sm * sm := Nat.mod_lt r hU
    obtain ⟨t, ht, y, hy, x, hx, hform, hb, hwindow⟩ := WindowGrid.windows_cell hcell
    obtain ⟨hlo, hhi⟩ := (Blocks.key_eq_iff hkeyed hcell).mp rfl
    refine ⟨_, hb, ⟨?_, ?_⟩, t, ht, y * sm + r % (sm * sm) / sm, ?_,
      x * sm + r % (sm * sm) % sm, ?_, ?_, ?_⟩
    · rw [hstart _ hb.le]
      exact (Nat.le_div_iff_mul_le hU).mp hlo
    · rw [hstart _ hb]
      exact (Nat.div_lt_iff_lt_mul hU).mp hhi
    · have := FlatMem.row_lt (hvitWs.1 ▸ hy) (Nat.div_lt_of_lt_mul hj)
      rwa [Nat.div_mul_cancel h.height] at this
    · have := FlatMem.row_lt (hvitWs.2 ▸ hx) (Nat.mod_lt (r % (sm * sm)) h.sm_pos)
      rwa [Nat.div_mul_cancel h.width] at this
    · rw [hwindow, ← Nat.div_div_eq_div_mul, ← Nat.div_div_eq_div_mul,
        RowMajor.cell_div y (Nat.div_lt_of_lt_mul hj),
        RowMajor.cell_div x (Nat.mod_lt _ h.sm_pos)]
    · have hrow := patchRow_of_cell F h hcosAt hsinAt ht (hvitWs.1 ▸ hy) (hvitWs.2 ▸ hx) hj
        (i := r / (sm * sm)) (by rw [hcell, hform, hvitWs.1, hvitWs.2])
      rwa [Nat.div_add_mod'] at hrow

end Agree

/-- Two windows, the second of them padded on the right. -/
theorem windows_agree_two : WindowsFit 1 2 3 1 2 1 ∧ ∃ reverse cos sin,
    WindowsAgree (⟨id, id, fun _ x => x + 1, id, id⟩ : MathFns ℚ) 1 2 3 1 (frameGrid 2 3 1 2 1) [1]
      [0, 1, 3, 4, 2, 5] reverse [0, 4, 6] cos sin := by
  have hfit : WindowsFit 1 2 3 1 2 1 :=
    ⟨by decide, by decide, by decide, by decide, by decide, by decide, by decide, by decide,
      by decide, by decide, by decide⟩
  refine ⟨hfit, ?_⟩
  obtain ⟨index, reverse, cu, -, -, cos, sin, hindex, -, hcu, -, -, -, hagree⟩ :=
    windows_agree (⟨id, id, fun _ x => x + 1, id, id⟩ : MathFns ℚ) hfit [1]
  have hindex' : computeWindowIndex 1 2 3 1 2 1 = some [0, 1, 3, 4, 2, 5] := by decide +kernel
  have hcu' : computeCuWindowSeqlens 1 2 3 1 2 1 = some [0, 4, 6] := by decide +kernel
  obtain rfl := Option.some.inj (hindex'.symm.trans hindex)
  obtain rfl := Option.some.inj (hcu'.symm.trans hcu)
  exact ⟨reverse, cos, sin, hagree⟩

/-- One cell in a window of 46341 by 46341 cells: an `int` does not hold the size of the padded
frame. -/
theorem windowIndex_overflow : ¬∀ T H W sm windowSize patch : ℕ, 0 < sm → 0 < patch → sm ∣ H →
    sm ∣ W → sm * patch ≤ windowSize → ∃ index,
      computeWindowIndex T H W sm windowSize patch = some index ∧
        index.Perm ((List.range (T * (H / sm) * (W / sm))).map fun c : ℕ => (c : ℤ)) := by
  intro hall
  have hnone : computeWindowIndex 1 2 2 2 92682 1 = none := by decide +kernel
  obtain ⟨index, hindex, -⟩ :=
    hall 1 2 2 2 92682 1 (by decide) (by decide) (by decide) (by decide) (by decide)
  rw [hnone] at hindex
  cases hindex

end Geniex
