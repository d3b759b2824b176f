import Geniex.Lib.RowMajor
import Geniex.VLM.Scan
import Geniex.VLM.Model

/-!
# The position after a prompt

`deltas` is made so that the sequential positions go on where the prompt ends. It is computed from
the greatest temporal position, and an image may reach further in height or width than in time.

* `EndsLevel`: the prompt does not end inside an image that reaches further in height or width.
* `promptBelow_iff`: exactly then every later position stands above the positions of the prompt.
-/

namespace Geniex

open Diagonal

variable {τ R : Type}

/-! ## The end of a prompt -/

/-- The cells of a grid, by their index. -/
theorem gridCells_eq (t h w : ℕ) :
    gridCells t h w = (List.range (t * (h * w))).map
      fun k => ![k / (h * w), k / w % h, k % w] := by
  have hmap : List.range t ×ˢ (List.range (h * w)).map (fun k => (k / w, k % w)) =
      (List.range t ×ˢ List.range (h * w)).map fun c => (c.1, c.2 / w, c.2 % w) := by
    simp only [SProd.sprod, List.product, List.map_flatMap, List.map_map]
    rfl
  rw [gridCells, RowMajor.range_product h w, hmap, RowMajor.range_product t, List.map_map,
    List.map_map]
  refine List.map_congr_left fun k _ => ?_
  simp only [Function.comp_apply, Nat.mod_mul_left_div_self, Nat.mod_mul_left_mod]

/-- The segment that places the last token. -/
def lastPlaced (segments : List Segment) : Option Segment :=
  segments.reverse.find? fun s => s.block.cells ≠ []

/-- The first `n` cells of an `h × w` grid that repeats in time reach no further in height and in
width than in time. -/
def LevelGrid (h w n : ℕ) : Prop :=
  min h ((n - 1) / w + 1) ≤ (n - 1) / (h * w) + 1 ∧ min w n ≤ (n - 1) / (h * w) + 1

instance (h w n : ℕ) : Decidable (LevelGrid h w n) := by
  unfold LevelGrid
  infer_instance

/-- The prompt does not end inside an image that reaches further in height or width than in time. -/
def EndsLevel (cfg : MRoPESettings) (grids : List ImageGrid) (audio : List AudioSegmentInfo)
    (ids : List Int32) : Prop :=
  match lastPlaced (scan cfg ids.length 0 grids audio ids) with
  | some (.image _ _ h w n) => LevelGrid h w n
  | _ => True

instance (cfg : MRoPESettings) (grids : List ImageGrid) (audio : List AudioSegmentInfo)
    (ids : List Int32) : Decidable (EndsLevel cfg grids audio ids) := by
  unfold EndsLevel
  split <;> infer_instance

theorem lastPlaced_split {segments : List Segment} {s : Segment}
    (h : lastPlaced segments = some s) : ∃ pre post, segments = pre ++ s :: post ∧
      s.block.cells ≠ [] ∧ ∀ s' ∈ post, s'.block.cells = [] := by
  obtain ⟨hs, post, pre, hsplit, hpost⟩ := List.find?_eq_some_iff_append.mp h
  refine ⟨pre.reverse, post.reverse, ?_, by simpa using hs, fun s' hs' => ?_⟩
  · rw [← List.reverse_reverse segments, hsplit]
    simp
  · simpa using hpost s' (List.mem_reverse.mp hs')

/-- No image has more tokens than cells. -/
theorem scan_cells {cfg : MRoPESettings} (fuel : ℕ) : ∀ (imageIdx : ℕ) (grids : List ImageGrid)
    (audio : List AudioSegmentInfo) (tokens : List Int32), ∀ {k t h w n : ℕ},
    Segment.image k t h w n ∈ scan cfg fuel imageIdx grids audio tokens → n ≤ t * (h * w) := by
  induction fuel with
  | zero => exact fun _ _ _ _ _ _ _ _ _ hmem => nomatch hmem
  | succ fuel ih =>
    intro imageIdx grids audio tokens k t h w n hmem
    cases tokens with
    | nil => cases hmem
    | cons tok tokens =>
      rcases hv : (if tok = cfg.visionStartTokenId then grids.head? else none) with _ | thw
      · rcases ha : (if tok = cfg.audioStartTokenId then audio.head? else none) with _ | segment
        · simp only [scan, hv, ha, List.mem_cons, reduceCtorEq, false_or] at hmem
          exact ih _ _ _ _ hmem
        · simp only [scan, hv, ha, List.mem_cons, List.mem_append, List.mem_replicate, reduceCtorEq,
            and_false, false_or] at hmem
          exact ih _ _ _ _ hmem
      · simp only [scan, hv, List.mem_cons, reduceCtorEq, false_or] at hmem
        rcases hmem with heq | hmem
        · cases heq
          exact Nat.min_le_left _ _
        · exact ih _ _ _ _ hmem

/-- The temporal positions of an image lead if it reaches no further in height and width. -/
theorem led_image_iff {imageIdx t h w n : ℕ} (hn : n ≤ t * (h * w))
    (hne : (Segment.image imageIdx t h w n).block.cells ≠ []) :
    Led 0 (Segment.image imageIdx t h w n).block.cells ↔ LevelGrid h w n := by
  have hcells : (Segment.image imageIdx t h w n).block.cells =
      (List.range n).map fun k => ![k / (h * w), k / w % h, k % w] := by
    show (gridCells t h w).take n = _
    rw [gridCells_eq, ← List.map_take, List.take_range, Nat.min_eq_left hn]
  have hpos : 0 < n := by
    rcases Nat.eq_zero_or_pos n with rfl | hpos
    · exact absurd hcells hne
    · exact hpos
  have hhw : 0 < h * w := by
    rcases Nat.eq_zero_or_pos (h * w) with hz | hhw
    · rw [hz] at hn
      omega
    · exact hhw
  have hh : 0 < h := Nat.pos_of_mul_pos_right hhw
  have hw : 0 < w := Nat.pos_of_mul_pos_left hhw
  rw [hcells, LevelGrid, ← RowMajor.rows_le_iff hh hw hpos, ← RowMajor.columns_le_iff hw hpos]
  constructor
  · rintro ⟨x, hx, hall⟩
    obtain ⟨m, hm, rfl⟩ := List.mem_map.mp hx
    have hlead : m / (h * w) ≤ (n - 1) / (h * w) :=
      Nat.div_le_div_right (by have := List.mem_range.mp hm; omega)
    have hmem : ∀ k < n, ![k / (h * w), k / w % h, k % w] ∈
        (List.range n).map fun k => ![k / (h * w), k / w % h, k % w] := fun k hk =>
      List.mem_map_of_mem (List.mem_range.mpr hk)
    exact ⟨fun k hk => (hall _ (hmem k hk) 1).trans hlead,
      fun k hk => (hall _ (hmem k hk) 2).trans hlead⟩
  · rintro ⟨hrows, hcols⟩
    refine ⟨_, List.mem_map_of_mem (List.mem_range.mpr (Nat.sub_lt hpos one_pos)), fun y hy d => ?_⟩
    obtain ⟨k, hk, rfl⟩ := List.mem_map.mp hy
    have hk' := List.mem_range.mp hk
    fin_cases d
    · exact Nat.div_le_div_right (by omega)
    · exact hrows k hk'
    · exact hcols k hk'

section Ends

variable {cfg : MRoPESettings} {grids : List ImageGrid} {audio : List AudioSegmentInfo}
  {ids : List Int32}

/-- The points of a prompt, without the images that place them. -/
def idealPoints (cfg : MRoPESettings) (grids : List ImageGrid) (audio : List AudioSegmentInfo)
    (ids : List Int32) : List (Fin 3 → ℕ) :=
  (idealPositions cfg grids audio ids).map Prod.snd

theorem positionIds_eq (hin : ScanInputs cfg grids audio) :
    (computeMRoPEPositions ids grids audio cfg).positionIds =
      (idealPoints cfg grids audio ids).map Position.ofPoint := by
  have hfst : (placedPositions cfg grids audio ids).map Prod.fst =
      (computeMRoPEPositions ids grids audio cfg).positionIds := mropePlaced_positions ..
  rw [← hfst, placedPositions_eq hin, idealPoints, List.map_map, List.map_map]
  rfl

theorem idealPoints_ne_nil (hin : ScanInputs cfg grids audio) (hne : ids ≠ []) :
    idealPoints cfg grids audio ids ≠ [] := by
  intro hnil
  have hlength := computeMRoPEPositions_length ids grids audio cfg
  rw [positionIds_eq hin, hnil] at hlength
  exact hne (List.eq_nil_of_length_eq_zero hlength.symm)

/-- The temporal positions of a prompt lead if and only if it ends level. -/
theorem led_iff_endsLevel (hin : ScanInputs cfg grids audio) (hne : ids ≠ []) :
    Led 0 (idealPoints cfg grids audio ids) ↔ EndsLevel cfg grids audio ids := by
  have hsome : ∃ s, lastPlaced (scan cfg ids.length 0 grids audio ids) = some s := by
    by_contra hnone
    refine idealPoints_ne_nil hin hne (List.map_eq_nil_iff.mpr (lay_eq_nil (fun b hb => ?_) 0))
    obtain ⟨s, hs, rfl⟩ := List.mem_map.mp hb
    by_contra hcells
    refine hnone (Option.ne_none_iff_exists'.mp fun h => ?_)
    exact absurd hcells (by simpa using List.find?_eq_none.mp h s (List.mem_reverse.mpr hs))
  obtain ⟨s, hs⟩ := hsome
  obtain ⟨pre, post, hsplit, hcells, hpost⟩ := lastPlaced_split hs
  have hled : Led 0 (idealPoints cfg grids audio ids) ↔ Led 0 s.block.cells := by
    rw [idealPoints, idealPositions, hsplit, List.map_append, List.map_cons]
    refine led_lay_iff hcells (fun b hb => ?_) 0
    obtain ⟨s', hs', rfl⟩ := List.mem_map.mp hb
    exact hpost s' hs'
  rw [hled, EndsLevel, hs]
  cases s with
  | token =>
    refine iff_of_true ⟨_, List.mem_singleton.mpr rfl, fun y hy d => ?_⟩ trivial
    rw [List.mem_singleton.mp hy]
  | image imageIdx t h w n =>
    have hn : n ≤ t * (h * w) := scan_cells ids.length 0 grids audio ids
      (hsplit ▸ List.mem_append_right _ List.mem_cons_self)
    exact led_image_iff hn hcells
  | gap n => exact absurd rfl hcells

end Ends

/-! ## In `int32_t` -/

/-- A coordinate, without the limits of `int32_t`. -/
def Position.coord (p : Position) (d : Fin 3) : ℤ := ![p.temporal.toInt, p.height.toInt, p.width.toInt] d

/-- The sum of a point and an offset is in the range of `int32_t`. -/
def SumFits (base : Position) (x : Fin 3 → ℕ) : Prop := ∀ d, base.coord d + x d < 2 ^ 31

instance (base : Position) (x : Fin 3 → ℕ) : Decidable (SumFits base x) := by
  unfold SumFits
  infer_instance

theorem toInt_ofNat_add {n : ℕ} {b : Int32} (h : b.toInt + n < 2 ^ 31) :
    (Int32.ofNat n + b).toInt = b.toInt + n := by
  have hlow := b.le_toInt
  rw [Int32.toInt_add, Int32.toInt_ofNat', show ((2 : ℕ) ^ 32) = Int32.size from rfl,
    Int.bmod_add_bmod, Int.add_comm, show Int32.size = 4294967296 from rfl]
  exact Int.bmod_eq_of_le (by omega) (by omega)

/-- Two points with the same offset. -/
theorem below_add_iff {base : Position} {x y : Fin 3 → ℕ} (hx : SumFits base x) (hy : SumFits base y) :
    (Position.ofPoint x + base).Below (Position.ofPoint y + base) ↔ ∀ d, x d < y d := by
  have hlt : ∀ {m n : ℕ} {b : Int32}, b.toInt + m < 2 ^ 31 → b.toInt + n < 2 ^ 31 →
      (Int32.ofNat m + b < Int32.ofNat n + b ↔ m < n) := by
    intro m n b hm hn
    rw [Int32.lt_iff_toInt_lt, toInt_ofNat_add hm, toInt_ofNat_add hn]
    omega
  rw [Fin.forall_fin_succ, Fin.forall_fin_two]
  exact and_congr (hlt (hx 0) (hy 0)) (and_congr (hlt (hx 1) (hy 1)) (hlt (hx 2) (hy 2)))

theorem foldl_max_spec (ps : List Position) (m : Int32) :
    let r := ps.foldl (fun m q => if m < q.temporal then q.temporal else m) m
    (r = m ∨ ∃ q ∈ ps, r = q.temporal) ∧ m ≤ r ∧ ∀ q ∈ ps, q.temporal ≤ r := by
  induction ps generalizing m with
  | nil => exact ⟨Or.inl rfl, Int32.le_refl m, nofun⟩
  | cons p ps ih =>
    obtain ⟨hmem, hle, hall⟩ := ih (if m < p.temporal then p.temporal else m)
    rw [List.foldl_cons]
    have hstep : m ≤ (if m < p.temporal then p.temporal else m) ∧
        p.temporal ≤ if m < p.temporal then p.temporal else m := by
      split_ifs with h
      · exact ⟨Int32.le_of_lt h, Int32.le_refl _⟩
      · exact ⟨Int32.le_refl _, Int32.not_lt.mp h⟩
    refine ⟨?_, Int32.le_trans hstep.1 hle, fun q hq => ?_⟩
    · rcases hmem with heq | ⟨q, hq, heq⟩
      · rw [heq]
        split_ifs
        · exact Or.inr ⟨p, List.mem_cons_self, rfl⟩
        · exact Or.inl rfl
      · exact Or.inr ⟨q, List.mem_cons_of_mem _ hq, heq⟩
    · rcases List.mem_cons.mp hq with rfl | hq
      · exact Int32.le_trans hstep.2 hle
      · exact hall q hq

/-- `*std::max_element`. -/
theorem maxTemporal_spec {ps : List Position} (hne : ps ≠ []) :
    (∃ p ∈ ps, maxTemporal ps = p.temporal) ∧ ∀ p ∈ ps, p.temporal ≤ maxTemporal ps := by
  cases ps with
  | nil => exact absurd rfl hne
  | cons p ps =>
    obtain ⟨hmem, hle, hall⟩ := foldl_max_spec ps p.temporal
    refine ⟨?_, fun q hq => ?_⟩
    · rcases hmem with heq | ⟨q, hq, heq⟩
      · exact ⟨p, List.mem_cons_self, heq⟩
      · exact ⟨q, List.mem_cons_of_mem _ hq, heq⟩
    · rcases List.mem_cons.mp hq with rfl | hq
      · exact hle
      · exact hall q hq

/-- The greatest temporal position of points in range. -/
theorem maxTemporal_points {points : List (Fin 3 → ℕ)} (hne : points ≠ [])
    (hin : ∀ x ∈ points, InInt32 x) : ∃ x ∈ points,
      maxTemporal (points.map Position.ofPoint) = Int32.ofNat (x 0) ∧ ∀ y ∈ points, y 0 ≤ x 0 := by
  have hne' : points.map Position.ofPoint ≠ [] := mt List.map_eq_nil_iff.mp hne
  obtain ⟨⟨p, hp, hmax⟩, hall⟩ := maxTemporal_spec hne'
  obtain ⟨x, hx, rfl⟩ := List.mem_map.mp hp
  refine ⟨x, hx, hmax, fun y hy => ?_⟩
  have hle := hall _ (List.mem_map_of_mem hy)
  rw [hmax, Int32.le_iff_toInt_le] at hle
  have hle' : (Int32.ofNat (y 0)).toInt ≤ (Int32.ofNat (x 0)).toInt := hle
  rw [Int32.toInt_ofNat_of_lt (hin x hx 0), Int32.toInt_ofNat_of_lt (hin y hy 0)] at hle'
  exact_mod_cast hle'

/-! ## A prompt and what comes after it -/

namespace VLMState

variable (p : VLMState R)

/-- The part of `preparePositions` after `computeMRoPEPositions`. -/
def installMRoPE (mrope : MRoPEPositions) (nPast : ℕ) : VLMState R :=
  let offset := Position.diagonal (Int32.ofNat nPast) + p.mropeDeltas
  let deltas := p.mropeDeltas + mrope.deltas
  { p with
    mropeProvider := (p.mropeProvider.setPositionIds (mrope.positionIds.map (· + offset))
      nPast).setMropeDeltas deltas
    mropeDeltas := deltas }

/-- Both model classes install the positions of their prompts in this way. -/
theorem preparePositions_mrope (s : VLMSettings) (ids : List Int32) (input : VLMInput)
    (nPast : ℕ) :
    (preparePositions s ids input nPast p).mropeProvider = (installMRoPE p
        (computeMRoPEPositions ids input.pixelData.imageGridThw []
          ⟨s.spatialMergeSize, s.visionStartToken, s.imageTokenId, 0, 0⟩) nPast).mropeProvider ∧
      (preparePositions s ids input nPast p).mropeDeltas = (installMRoPE p
        (computeMRoPEPositions ids input.pixelData.imageGridThw []
          ⟨s.spatialMergeSize, s.visionStartToken, s.imageTokenId, 0, 0⟩) nPast).mropeDeltas := by
  unfold preparePositions
  cases s.cls <;> exact ⟨rfl, rfl⟩

end VLMState

section Boundary

local instance threeParts : NeZero 3 := ⟨by decide⟩

variable (cfg : MRoPESettings) (grids : List ImageGrid) (audio : List AudioSegmentInfo)
  (ids : List Int32) (nPast : ℕ) (p : VLMState R)

/-- The providers after a prompt at `n_past`. -/
def afterPrompt : VLMState R := p.installMRoPE (computeMRoPEPositions ids grids audio cfg) nPast

/-- The offset that the positions of a prompt get. -/
def promptBase : Position := .diagonal (Int32.ofNat nPast) + p.mropeDeltas

/-- No `int32_t` sum for the tokens of the prompt and for the token after it overflows. -/
def PromptInRange : Prop :=
  ∀ x ∈ idealPoints cfg grids audio ids, InInt32 x ∧ SumFits (promptBase nPast p) x ∧
    SumFits (promptBase nPast p) fun _ => x 0 + 1

instance : Decidable (PromptInRange cfg grids audio ids nPast p) := by
  unfold PromptInRange
  infer_instance

/-- The sums for a token of the next turn, at a point `y` of a prompt that `j` decoded tokens
precede, do not overflow either. -/
def LaterInRange (j : ℕ) (y : Fin 3 → ℕ) : Prop :=
  ∀ x ∈ idealPoints cfg grids audio ids, SumFits (promptBase nPast p) fun d => x 0 + 1 + j + y d

/-- The positions of the prompt are defined, and every position after it that is stands above them:
those of the decoded tokens, the first one included, and those of the next turn. -/
structure PromptBelow : Prop where
  inRange : PromptInRange cfg grids audio ids nPast p
  decoded : ∀ (tok : Int32) (j : ℕ), LaterInRange cfg grids audio ids nPast p j 0 →
    ∃ r, (afterPrompt cfg grids audio ids nPast p).mropeProvider.row
        ⟨[tok], nPast + ids.length + j, 1, .decode⟩ 0 = .rotation r ∧
      ∀ q ∈ (afterPrompt cfg grids audio ids nPast p).mropeProvider.table, q.Below r
  nextTurn : ∀ (grids' : List ImageGrid) (audio' : List AudioSegmentInfo) (ids' : List Int32) (j : ℕ),
    ScanInputs cfg grids' audio' →
    (∀ y ∈ idealPoints cfg grids' audio' ids', LaterInRange cfg grids audio ids nPast p j y) →
    ∀ q ∈ (afterPrompt cfg grids audio ids nPast p).mropeProvider.table,
      ∀ r ∈ (afterPrompt cfg grids' audio' ids' (nPast + ids.length + j)
        (afterPrompt cfg grids audio ids nPast p)).mropeProvider.table, q.Below r

variable {cfg grids audio ids}

theorem mem_table (hin : ScanInputs cfg grids audio) {q : Position} :
    q ∈ (afterPrompt cfg grids audio ids nPast p).mropeProvider.table ↔
      ∃ x ∈ idealPoints cfg grids audio ids, q = Position.ofPoint x + promptBase nPast p := by
  have htable : (afterPrompt cfg grids audio ids nPast p).mropeProvider.table =
      (computeMRoPEPositions ids grids audio cfg).positionIds.map (· + promptBase nPast p) := rfl
  rw [htable, positionIds_eq hin, List.map_map]
  simp only [List.mem_map, Function.comp_apply, eq_comm]

/-- The offset after the prompt and `j` more tokens, where `m` is the greatest temporal point. -/
theorem afterPrompt_base {m : ℕ} (hmax : maxTemporal
      (computeMRoPEPositions ids grids audio cfg).positionIds = Int32.ofNat m) (j : ℕ)
    (y : Fin 3 → ℕ) :
    Position.ofPoint y + promptBase (nPast + ids.length + j) (afterPrompt cfg grids audio ids nPast p) =
      Position.ofPoint (fun d => m + 1 + j + y d) + promptBase nPast p := by
  have hdelta : (computeMRoPEPositions ids grids audio cfg).deltas =
      .diagonal (Int32.ofNat m + 1 - Int32.ofNat ids.length) := by
    rw [← hmax]
    rfl
  have hsum : ∀ (y : ℕ) (d : Int32), Int32.ofNat y + (Int32.ofNat (nPast + ids.length + j) +
      (d + (Int32.ofNat m + 1 - Int32.ofNat ids.length))) =
      Int32.ofNat (m + 1 + j + y) + (Int32.ofNat nPast + d) := by
    intro y d
    simp only [Int32.ofNat_add, show Int32.ofNat 1 = 1 from rfl]
    grind
  have hbase : promptBase (nPast + ids.length + j) (afterPrompt cfg grids audio ids nPast p) =
      .diagonal (Int32.ofNat (nPast + ids.length + j)) + (p.mropeDeltas +
        .diagonal (Int32.ofNat m + 1 - Int32.ofNat ids.length)) := by
    rw [← hdelta]
    rfl
  rw [hbase]
  exact (Position.mk.injEq ..).mpr ⟨hsum (y 0) _, hsum (y 1) _, hsum (y 2) _⟩

/-- The position of a decoded token. -/
theorem decode_row {m : ℕ} (hmax : maxTemporal
      (computeMRoPEPositions ids grids audio cfg).positionIds = Int32.ofNat m) {tok : Int32} {j : ℕ} :
    (afterPrompt cfg grids audio ids nPast p).mropeProvider.row
        ⟨[tok], nPast + ids.length + j, 1, .decode⟩ 0 =
      .rotation (Position.ofPoint (fun d => m + 1 + j + (0 : Fin 3 → ℕ) d) + promptBase nPast p) := by
  have hrow : (afterPrompt cfg grids audio ids nPast p).mropeProvider.row
      ⟨[tok], nPast + ids.length + j, 1, .decode⟩ 0 = .rotation
        (.diagonal (Int32.ofNat (nPast + ids.length + j) + Int32.ofNat 0) +
          (afterPrompt cfg grids audio ids nPast p).mropeDeltas) := by
    unfold MRoPEInputProvider.row MRoPEInputProvider.rowRef
    rw [if_neg (by simp)]
    rfl
  have hzero : ∀ a d : Int32, a + Int32.ofNat 0 + d = Int32.ofNat 0 + (a + d) := by
    intro a d
    simp only [show Int32.ofNat 0 = 0 from rfl]
    grind
  rw [hrow, ← afterPrompt_base nPast p hmax]
  exact congrArg _ ((Position.mk.injEq ..).mpr ⟨hzero _ _, hzero _ _, hzero _ _⟩)

/-- **MRoPE positions across the prompt boundary.** All later positions stand above those of a
prompt if and only if its positions are in the range of `int32_t` and it does not end inside an image
that reaches further in height or width than in time. -/
theorem promptBelow_iff (hin : ScanInputs cfg grids audio) (hne : ids ≠ []) :
    PromptBelow cfg grids audio ids nPast p ↔
      PromptInRange cfg grids audio ids nPast p ∧ EndsLevel cfg grids audio ids := by
  rw [← led_iff_endsLevel hin hne]
  have hmax : PromptInRange cfg grids audio ids nPast p →
      ∃ x ∈ idealPoints cfg grids audio ids, maxTemporal (computeMRoPEPositions ids grids audio
        cfg).positionIds = Int32.ofNat (x 0) ∧ ∀ y ∈ idealPoints cfg grids audio ids, y 0 ≤ x 0 := by
    intro hrange
    rw [positionIds_eq hin]
    exact maxTemporal_points (idealPoints_ne_nil hin hne) fun x hx => (hrange x hx).1
  constructor
  · rintro ⟨hrange, hdecoded, -⟩
    refine ⟨hrange, ?_⟩
    obtain ⟨x, hx, hx0, hlead⟩ := hmax hrange
    have hfirst : LaterInRange cfg grids audio ids nPast p 0 0 := fun y hy => (hrange y hy).2.2
    obtain ⟨r, hr, hbelow⟩ := hdecoded 0 0 hfirst
    rw [decode_row nPast p hx0] at hr
    cases hr
    refine ⟨x, hx, fun y hy d => ?_⟩
    have hlt := (below_add_iff (hrange y hy).2.1 (hfirst x hx)).mp
      (hbelow _ ((mem_table nPast p hin).mpr ⟨y, hy, rfl⟩)) d
    simp only [Pi.zero_apply] at hlt
    omega
  · rintro ⟨hrange, z, hz, hled⟩
    obtain ⟨x, hx, hx0, hlead⟩ := hmax hrange
    have hall : ∀ y ∈ idealPoints cfg grids audio ids, ∀ d, y d ≤ x 0 := fun y hy d =>
      (hled y hy d).trans (hlead z hz)
    have hbelow : ∀ (j : ℕ) (y : Fin 3 → ℕ), LaterInRange cfg grids audio ids nPast p j y →
        ∀ q ∈ (afterPrompt cfg grids audio ids nPast p).mropeProvider.table, q.Below
          (Position.ofPoint (fun d => x 0 + 1 + j + y d) + promptBase nPast p) := by
      intro j y hlater q hq
      obtain ⟨x', hx', rfl⟩ := (mem_table nPast p hin).mp hq
      refine (below_add_iff (hrange x' hx').2.1 (hlater x hx)).mpr fun d => ?_
      have := hall x' hx' d
      omega
    refine ⟨hrange, fun tok j hlater => ⟨_, decode_row nPast p hx0, hbelow j 0 hlater⟩,
      fun grids' audio' ids' j hin' hlater q hq r hr => ?_⟩
    obtain ⟨y, hy, rfl⟩ := (mem_table _ _ hin').mp hr
    rw [afterPrompt_base nPast p hx0]
    exact hbelow j y (hlater y hy) q hq

end Boundary

/-- A model of the class with a new provider. -/
def tinyMRoPEState : VLMState Int32 := newProviders ⟨.qwen3VL, 101, 100, 1⟩ id none

/-- An instance of `promptBelow_iff`: a prompt with an image and a token after it. -/
theorem promptBelow_iff_image :
    PromptBelow tinyMRoPE [⟨1, 2, 2⟩] [] [100, 101, 101, 101, 101, 2] 0 tinyMRoPEState :=
  (promptBelow_iff 0 tinyMRoPEState ⟨by decide, by decide, by decide⟩ (by decide)).mpr
    ⟨by decide +kernel, by decide +kernel⟩

/-- The token after a prompt that ends with an image of two by two tokens is given the position
`(2, 2, 2)`, and the last token of the image has the height and the width 2. -/
theorem promptBelow_imageLast :
    (afterPrompt tinyMRoPE [⟨1, 2, 2⟩] [] [100, 101, 101, 101, 101] 0 tinyMRoPEState
        ).mropeProvider.table.getLast? = some ⟨1, 2, 2⟩ ∧
      (afterPrompt tinyMRoPE [⟨1, 2, 2⟩] [] [100, 101, 101, 101, 101] 0 tinyMRoPEState
        ).mropeProvider.row (⟨[7], 5, 1, .decode⟩ : RunContext Int32) 0 =
          .rotation ⟨2, 2, 2⟩ ∧
      ¬Position.Below ⟨1, 2, 2⟩ ⟨2, 2, 2⟩ := by
  decide +kernel

end Geniex
