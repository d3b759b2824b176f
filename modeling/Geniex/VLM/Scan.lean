import Geniex.VLM.Positions
import Geniex.Lib.Diagonal

/-!
# The scan of a prompt

`computeMRoPEPositions` walks over a prompt once. Its positions are those of blocks along the
diagonal: a block for each token outside the images, a block for each image, and room that a short
audio run leaves free.

* `scan`: the segments of a prompt.
* `mropePlaced_eq`: the positions are the points of the segments, in `int32_t`.
* `mropePositions_ordered`: they are distinct and ordered where they are in the range of `int32_t`.
-/

namespace Geniex

open Diagonal

/-! ## Which image places a token -/

/-- `mropeLoop`, with the number of the image whose grid places the token. -/
def mropePlaced (cfg : MRoPESettings) :
    ℕ → ℕ → Int32 → List ImageGrid → List AudioSegmentInfo → List Int32 →
      List (Position × Option ℕ)
  | 0, _, _, _, _, _ => []
  | _ + 1, _, _, _, _, [] => []
  | fuel + 1, imageIdx, st, grids, audio, tok :: tokens =>
    match (if tok = cfg.visionStartTokenId then grids.head? else none),
        (if tok = cfg.audioStartTokenId then audio.head? else none) with
    | some thw, _ =>
      let llmH := thw.h / cfg.spatialMergeSize
      let llmW := thw.w / cfg.spatialMergeSize
      let (image, rest) := placeImage cfg.imageTokenId (st + 1) (imageCells thw.t llmH llmW) tokens
      (Position.diagonal st, none) :: (image.map (·, some imageIdx) ++
        mropePlaced cfg fuel (imageIdx + 1) (st + 1 + max3 thw.t llmH llmW) grids.tail audio rest)
    | none, some segment =>
      let (spoken, rest) :=
        placeAudio cfg.audioTokenId segment.numLlmTokens.toInt.toNat (st + 1) tokens
      (Position.diagonal st, none) :: (spoken.map (·, none) ++
        mropePlaced cfg fuel imageIdx (st + 1 + segment.numLlmTokens) grids audio.tail rest)
    | none, none =>
      (Position.diagonal st, none) :: mropePlaced cfg fuel imageIdx (st + 1) grids audio tokens

theorem mropePlaced_positions (cfg : MRoPESettings) (fuel imageIdx : ℕ) (st : Int32)
    (grids : List ImageGrid) (audio : List AudioSegmentInfo) (tokens : List Int32) :
    (mropePlaced cfg fuel imageIdx st grids audio tokens).map Prod.fst =
      mropeLoop cfg fuel st grids audio tokens := by
  induction fuel generalizing imageIdx st grids audio tokens with
  | zero => rfl
  | succ fuel ih =>
    cases tokens with
    | nil => rfl
    | cons tok tokens =>
      have hfst : ∀ (ps : List Position) (k : Option ℕ), (ps.map (·, k)).map Prod.fst = ps :=
        fun ps k => by rw [List.map_map]; exact List.map_id _
      rcases hv : (if tok = cfg.visionStartTokenId then grids.head? else none) with _ | thw
      · rcases ha : (if tok = cfg.audioStartTokenId then audio.head? else none) with _ | segment
        · simp only [mropePlaced, mropeLoop, hv, ha, List.map_cons, ih]
        · simp only [mropePlaced, mropeLoop, hv, ha, List.map_cons, List.map_append, hfst, ih]
      · simp only [mropePlaced, mropeLoop, hv, List.map_cons, List.map_append, hfst, ih]

/-! ## Segments -/

/-- How many tokens in a row are `tok`. -/
def runLength (tok : Int32) (tokens : List Int32) : ℕ := (tokens.takeWhile (· = tok)).length

theorem runLength_cons {tok t : Int32} (h : t = tok) (tokens : List Int32) :
    runLength tok (t :: tokens) = runLength tok tokens + 1 := by
  simp [runLength, h]

/-- A part of a prompt, as the scan places it. -/
inductive Segment
  /-- One token at the counter. -/
  | token
  /-- The first `n` cells of the grid of an image. -/
  | image (imageIdx t h w n : ℕ)
  /-- The end of an audio segment that has more tokens than the prompt. -/
  | gap (n : ℕ)
  deriving DecidableEq, Repr

/-- The cells of a grid, in the order of the three loops. -/
def gridCells (t h w : ℕ) : List (Fin 3 → ℕ) :=
  (List.range t ×ˢ (List.range h ×ˢ List.range w)).map fun c => ![c.1, c.2.1, c.2.2]

theorem gridCells_nodup (t h w : ℕ) : (gridCells t h w).Nodup := by
  refine List.Nodup.map (fun c c' heq => ?_)
    (List.Nodup.product List.nodup_range (List.nodup_range.product List.nodup_range))
  have h0 := congrFun heq 0
  have h1 := congrFun heq 1
  have h2 := congrFun heq 2
  exact Prod.ext h0 (Prod.ext h1 h2)

theorem gridCells_lt {t h w : ℕ} {c : Fin 3 → ℕ} (hc : c ∈ gridCells t h w) (d : Fin 3) :
    c d < max t (max h w) := by
  obtain ⟨⟨i, j, k⟩, hmem, rfl⟩ := List.mem_map.mp hc
  obtain ⟨hi, hjk⟩ := List.mem_product.mp hmem
  obtain ⟨hj, hk⟩ := List.mem_product.mp hjk
  rw [List.mem_range] at hi hj hk
  fin_cases d
  · exact lt_max_of_lt_left hi
  · exact lt_max_of_lt_right (lt_max_of_lt_left hj)
  · exact lt_max_of_lt_right (lt_max_of_lt_right hk)

/-- The points of a segment. -/
def Segment.block : Segment → Block (Fin 3) (Option ℕ)
  | token => ⟨none, 1, [fun _ => 0], by simp⟩
  | image imageIdx t h w n =>
    ⟨some imageIdx, max t (max h w), (gridCells t h w).take n,
      fun _ hc d => gridCells_lt (List.mem_of_mem_take hc) d⟩
  | gap n => ⟨none, n, [], by simp⟩

/-- The segments of a prompt. -/
def scan (cfg : MRoPESettings) :
    ℕ → ℕ → List ImageGrid → List AudioSegmentInfo → List Int32 → List Segment
  | 0, _, _, _, _ => []
  | _ + 1, _, _, _, [] => []
  | fuel + 1, imageIdx, grids, audio, tok :: tokens =>
    match (if tok = cfg.visionStartTokenId then grids.head? else none),
        (if tok = cfg.audioStartTokenId then audio.head? else none) with
    | some thw, _ =>
      let t := thw.t.toInt.toNat
      let h := (thw.h / cfg.spatialMergeSize).toInt.toNat
      let w := (thw.w / cfg.spatialMergeSize).toInt.toNat
      let n := min (t * (h * w)) (runLength cfg.imageTokenId tokens)
      .token :: .image imageIdx t h w n ::
        scan cfg fuel (imageIdx + 1) grids.tail audio (tokens.drop n)
    | none, some segment =>
      let len := segment.numLlmTokens.toInt.toNat
      let n := min len (runLength cfg.audioTokenId tokens)
      .token :: (List.replicate n .token ++
        .gap (len - n) :: scan cfg fuel imageIdx grids audio.tail (tokens.drop n))
    | none, none => .token :: scan cfg fuel imageIdx grids audio tokens

/-- The positions of a prompt without the limits of `int32_t`, with the images that place them. -/
def idealPositions (cfg : MRoPESettings) (grids : List ImageGrid)
    (audio : List AudioSegmentInfo) (ids : List Int32) : List (Option ℕ × (Fin 3 → ℕ)) :=
  lay 0 ((scan cfg ids.length 0 grids audio ids).map Segment.block)

/-! ## The points are the positions -/

/-- A point, in `int32_t`. -/
def Position.ofPoint (p : Fin 3 → ℕ) : Position :=
  ⟨Int32.ofNat (p 0), Int32.ofNat (p 1), Int32.ofNat (p 2)⟩

theorem ofNat_toInt_toNat {x : Int32} (hx : 0 ≤ x) : Int32.ofNat x.toInt.toNat = x :=
  Int32.ofNat_toNatClampNeg x hx

/-- The quotient of a side by the merge size. -/
theorem int32_div_nonneg {a b : Int32} (ha : 0 ≤ a) (hb : 0 < b) : 0 ≤ a / b := by
  rw [Int32.le_iff_toInt_le] at ha ⊢
  rw [Int32.lt_iff_toInt_lt] at hb
  have hne : b ≠ -1 := fun h => by
    rw [h] at hb
    exact absurd hb (by decide)
  rw [Int32.toInt_div_of_ne_right a b hne]
  exact Int.tdiv_nonneg ha hb.le

theorem max_eq_ofNat {a b : Int32} (ha : 0 ≤ a) (hb : 0 ≤ b) :
    (if a < b then b else a) = Int32.ofNat (max a.toInt.toNat b.toInt.toNat) := by
  have ha' := Int32.le_iff_toInt_le.mp ha
  have hb' := Int32.le_iff_toInt_le.mp hb
  split_ifs with h
  · have hlt := Int32.lt_iff_toInt_lt.mp h
    rw [max_eq_right (by omega), ofNat_toInt_toNat hb]
  · have hge : ¬a.toInt < b.toInt := fun hlt => h (Int32.lt_iff_toInt_lt.mpr hlt)
    rw [max_eq_left (by omega), ofNat_toInt_toNat ha]

/-- `std::max({T, llm_h, llm_w})` of sides. -/
theorem max3_eq {a b c : Int32} (ha : 0 ≤ a) (hb : 0 ≤ b) (hc : 0 ≤ c) :
    max3 a b c = Int32.ofNat (max a.toInt.toNat (max b.toInt.toNat c.toInt.toNat)) := by
  have hm : 0 ≤ if a < b then b else a := by
    split_ifs
    · exact hb
    · exact ha
  have htoNat : (if a < b then b else a).toInt.toNat = max a.toInt.toNat b.toInt.toNat := by
    have hlt := a.toInt_lt
    have hlt' := b.toInt_lt
    rw [max_eq_ofNat ha hb, Int32.toInt_ofNat_of_lt (by omega), Int.toNat_natCast]
  unfold max3
  rw [max_eq_ofNat hm hc, htoNat, max_assoc]

/-- The image tokens that are placed, and the tokens left. -/
theorem placeImage_eq (imageToken imgStart : Int32) (cells : List (ℕ × ℕ × ℕ))
    (tokens : List Int32) :
    placeImage imageToken imgStart cells tokens =
      ((cells.take (min cells.length (runLength imageToken tokens))).map fun c =>
          ⟨imgStart + Int32.ofNat c.1, imgStart + Int32.ofNat c.2.1, imgStart + Int32.ofNat c.2.2⟩,
        tokens.drop (min cells.length (runLength imageToken tokens))) := by
  fun_induction placeImage imageToken imgStart cells tokens with
  | case1 tokens => simp
  | case2 => simp [runLength]
  | case3 t h w cells tok tokens hne => simp [runLength, hne]
  | case4 t h w cells tok tokens heq positions rest hrec ih =>
    have htok : tok = imageToken := not_not.mp heq
    rw [hrec] at ih
    obtain ⟨rfl, rfl⟩ := Prod.mk.inj ih
    rw [runLength_cons htok, List.length_cons, Nat.succ_min_succ]
    rfl

theorem placeAudio_eq (audioToken : Int32) (n : ℕ) (pos : Int32) (tokens : List Int32) :
    placeAudio audioToken n pos tokens =
      ((List.range (min n (runLength audioToken tokens))).map fun i =>
          Position.diagonal (pos + Int32.ofNat i),
        tokens.drop (min n (runLength audioToken tokens))) := by
  fun_induction placeAudio audioToken n pos tokens with
  | case1 pos tokens => simp
  | case2 => simp [runLength]
  | case3 n pos tok tokens hne => simp [runLength, hne]
  | case4 n pos tok tokens heq positions rest hrec ih =>
    have htok : tok = audioToken := not_not.mp heq
    rw [hrec] at ih
    obtain ⟨rfl, rfl⟩ := Prod.mk.inj ih
    rw [runLength_cons htok, Nat.succ_min_succ, List.range_succ_eq_map, List.map_cons, List.map_map]
    refine Prod.ext (congrArg₂ _ ?_ (List.map_congr_left fun i _ => ?_)) rfl
    · simp
    · simp only [Function.comp_apply, Nat.succ_eq_add_one, Int32.ofNat_add]
      rw [Int32.add_assoc, Int32.add_comm 1]
      rfl

theorem ofPoint_diagonal (n : ℕ) : Position.ofPoint (fun _ => n) = .diagonal (Int32.ofNat n) := rfl

/-- The loops over an image. -/
theorem imageCells_eq (T llmH llmW : Int32) :
    imageCells T llmH llmW = List.range T.toInt.toNat ×ˢ
      (List.range llmH.toInt.toNat ×ˢ List.range llmW.toInt.toNat) := by
  simp only [imageCells, SProd.sprod, List.product, List.map_flatMap, List.map_map]
  rfl

theorem imageCells_length (T llmH llmW : Int32) :
    (imageCells T llmH llmW).length =
      T.toInt.toNat * (llmH.toInt.toNat * llmW.toInt.toNat) := by
  rw [imageCells_eq, List.length_product, List.length_product]
  simp only [List.length_range]

/-- A run of tokens on the diagonal. -/
theorem lay_tokens (start n : ℕ) (segments : List Segment) :
    lay start ((List.replicate n Segment.token ++ segments).map Segment.block) =
      ((List.range n).map fun i => (none, fun _ => start + i)) ++
        lay (start + n) (segments.map Segment.block) := by
  induction n generalizing start with
  | zero => rfl
  | succ n ih =>
    have hshift : (List.range n).map ((fun i => ((none : Option ℕ), fun _ : Fin 3 => start + i)) ∘
        Nat.succ) = (List.range n).map fun i => (none, fun _ => start + 1 + i) :=
      List.map_congr_left fun i _ => by
        simp only [Function.comp_apply, Nat.succ_eq_add_one]
        rw [Nat.add_assoc start 1 i, Nat.add_comm 1 i]
    rw [List.replicate_succ, List.cons_append, List.map_cons, lay, List.range_succ_eq_map,
      List.map_cons, List.map_map, hshift, Nat.add_comm n 1, ← Nat.add_assoc]
    exact congrArg _ (ih (start + 1))

/-- The grid of an image. -/
theorem lay_image (start imageIdx n : ℕ) (T llmH llmW : Int32) :
    ((Segment.image imageIdx T.toInt.toNat llmH.toInt.toNat llmW.toInt.toNat n).block.at start).map
        (fun x => (Position.ofPoint x.2, x.1)) =
      (((imageCells T llmH llmW).take n).map fun c => (⟨Int32.ofNat start + Int32.ofNat c.1,
        Int32.ofNat start + Int32.ofNat c.2.1, Int32.ofNat start + Int32.ofNat c.2.2⟩ : Position)).map
        (·, some imageIdx) := by
  rw [imageCells_eq]
  simp only [Segment.block, Block.at, gridCells, List.map_take, List.map_map]
  congr 1
  refine List.map_congr_left fun c _ => ?_
  simp only [Function.comp_apply, Position.ofPoint, Int32.ofNat_add]
  rfl

/-- What the scan reads is in range: no side and no length is negative. -/
structure ScanInputs (cfg : MRoPESettings) (grids : List ImageGrid)
    (audio : List AudioSegmentInfo) : Prop where
  merge : 0 < cfg.spatialMergeSize
  grid : ∀ g ∈ grids, 0 ≤ g.t ∧ 0 ≤ g.h ∧ 0 ≤ g.w
  audio : ∀ a ∈ audio, 0 ≤ a.numLlmTokens

namespace ScanInputs

variable {cfg : MRoPESettings} {grids : List ImageGrid} {audio : List AudioSegmentInfo}

theorem gridTail (h : ScanInputs cfg grids audio) : ScanInputs cfg grids.tail audio :=
  ⟨h.merge, fun g hg => h.grid g (List.mem_of_mem_tail hg), h.audio⟩

theorem audioTail (h : ScanInputs cfg grids audio) : ScanInputs cfg grids audio.tail :=
  ⟨h.merge, h.grid, fun a ha => h.audio a (List.mem_of_mem_tail ha)⟩

end ScanInputs

/-- What a start token takes up is the head of its list. -/
theorem mem_of_head {α : Type} {c : Prop} [Decidable c] {l : List α} {a : α}
    (h : (if c then l.head? else none) = some a) : a ∈ l := by
  split_ifs at h
  exact List.mem_of_mem_head? h

/-- The positions of a scan are the points of its segments. -/
theorem mropePlaced_eq {cfg : MRoPESettings} (fuel : ℕ) : ∀ {grids : List ImageGrid}
    {audio : List AudioSegmentInfo} (imageIdx st : ℕ) (tokens : List Int32),
    ScanInputs cfg grids audio →
      mropePlaced cfg fuel imageIdx (Int32.ofNat st) grids audio tokens =
        (lay st ((scan cfg fuel imageIdx grids audio tokens).map Segment.block)).map
          fun x => (Position.ofPoint x.2, x.1) := by
  induction fuel with
  | zero => exact fun _ _ _ _ => rfl
  | succ fuel ih =>
    intro grids audio imageIdx st tokens hin
    cases tokens with
    | nil => rfl
    | cons tok tokens =>
      have hone : ∀ n : ℕ, Int32.ofNat n + 1 = Int32.ofNat (n + 1) := fun n =>
        (Int32.ofNat_add n 1).symm
      have htoken : ∀ segments : List Segment,
          (lay st ((Segment.token :: segments).map Segment.block)).map
              (fun x => (Position.ofPoint x.2, x.1)) =
            (Position.diagonal (Int32.ofNat st), none) ::
              (lay (st + 1) (segments.map Segment.block)).map
                fun x => (Position.ofPoint x.2, x.1) := fun _ => rfl
      rcases hv : (if tok = cfg.visionStartTokenId then grids.head? else none) with _ | thw
      · rcases ha : (if tok = cfg.audioStartTokenId then audio.head? else none) with _ | segment
        · simp only [mropePlaced, scan, hv, ha]
          rw [htoken, hone, ih _ _ _ hin]
        · simp only [mropePlaced, scan, hv, ha]
          have hlen := hin.audio segment (mem_of_head ha)
          set len := segment.numLlmTokens.toInt.toNat with hlen'
          set n := min len (runLength cfg.audioTokenId tokens) with hn
          have hnext : Int32.ofNat (st + 1) + segment.numLlmTokens = Int32.ofNat (st + 1 + len) := by
            rw [Int32.ofNat_add _ len, hlen', ofNat_toInt_toNat hlen]
          have hstop : st + 1 + n + (len - n) = st + 1 + len := by omega
          rw [htoken, hone, placeAudio_eq, hnext, ih _ _ _ hin.audioTail, lay_tokens, List.map_append,
            List.map_map, List.map_map]
          refine congrArg _ (congrArg₂ _ (List.map_congr_left fun i _ => ?_) ?_)
          · rw [Function.comp_apply, Function.comp_apply, ← Int32.ofNat_add, ofPoint_diagonal]
          · rw [← hstop]
            rfl
      · simp only [mropePlaced, scan, hv]
        obtain ⟨ht, hh, hw⟩ := hin.grid thw (mem_of_head hv)
        have hh' := int32_div_nonneg hh hin.merge
        have hw' := int32_div_nonneg hw hin.merge
        rw [htoken, hone, placeImage_eq, imageCells_length, max3_eq ht hh' hw', ← Int32.ofNat_add,
          ih _ _ _ hin.gridTail, List.map_cons, lay, List.map_append, lay_image]
        rfl

/-! ## Distinct and ordered -/

/-- Less in all three dimensions. -/
def Position.Below (p q : Position) : Prop :=
  p.temporal < q.temporal ∧ p.height < q.height ∧ p.width < q.width

instance (p q : Position) : Decidable (p.Below q) := by
  unfold Position.Below
  infer_instance

/-- A point in the range of `int32_t`. -/
def InInt32 (p : Fin 3 → ℕ) : Prop := ∀ d, p d < 2 ^ 31

instance (p : Fin 3 → ℕ) : Decidable (InInt32 p) := by
  unfold InInt32
  infer_instance

theorem ofNat_lt_ofNat {a b : ℕ} (h : a < b) (hb : b < 2 ^ 31) : Int32.ofNat a < Int32.ofNat b := by
  rw [Int32.lt_iff_toInt_lt, Int32.toInt_ofNat_of_lt hb, Int32.toInt_ofNat_of_lt (h.trans hb)]
  exact_mod_cast h

theorem ofPoint_below {p q : Fin 3 → ℕ} (h : ∀ d, p d < q d) (hq : InInt32 q) :
    (Position.ofPoint p).Below (Position.ofPoint q) :=
  ⟨ofNat_lt_ofNat (h 0) (hq 0), ofNat_lt_ofNat (h 1) (hq 1), ofNat_lt_ofNat (h 2) (hq 2)⟩

theorem ofPoint_inj {p q : Fin 3 → ℕ} (hp : InInt32 p) (hq : InInt32 q)
    (h : Position.ofPoint p = Position.ofPoint q) : p = q := by
  have hnat : ∀ {a b : ℕ}, a < 2 ^ 31 → b < 2 ^ 31 → Int32.ofNat a = Int32.ofNat b → a = b := by
    intro a b ha hb heq
    have := congrArg Int32.toInt heq
    rw [Int32.toInt_ofNat_of_lt ha, Int32.toInt_ofNat_of_lt hb] at this
    exact_mod_cast this
  obtain ⟨h0, h1, h2⟩ := Position.mk.inj h
  funext d
  fin_cases d
  · exact hnat (hp 0) (hq 0) h0
  · exact hnat (hp 1) (hq 1) h1
  · exact hnat (hp 2) (hq 2) h2

theorem Segment.nodup (s : Segment) : s.block.cells.Nodup := by
  cases s with
  | token => exact List.nodup_singleton _
  | image imageIdx t h w n => exact (gridCells_nodup t h w).sublist (List.take_sublist _ _)
  | gap n => exact List.nodup_nil

/-- Within a segment only the tokens of one image share their order. -/
theorem Segment.ordered (s : Segment) (start : ℕ) :
    (s.block.at start).Pairwise fun x y => y.1 = none ∨ x.1 ≠ y.1 → ∀ d, x.2 d < y.2 d := by
  cases s with
  | token => exact List.pairwise_singleton _ _
  | image imageIdx t h w n =>
    refine List.pairwise_map.mpr (List.pairwise_of_forall fun _ _ hor => ?_)
    rcases hor with hnone | hne
    · cases hnone
    · exact absurd rfl hne
  | gap n => exact List.Pairwise.nil

/-- Outside the images a point is on the diagonal. -/
theorem Segment.diagonal {s : Segment} {start : ℕ} {x : Option ℕ × (Fin 3 → ℕ)}
    (hx : x ∈ s.block.at start) (hnone : x.1 = none) : ∃ n, x.2 = fun _ => n := by
  obtain ⟨c, hc, rfl⟩ := mem_at.mp hx
  cases s with
  | token =>
    rw [List.mem_singleton.mp hc]
    exact ⟨start, rfl⟩
  | image imageIdx t h w n => cases hnone
  | gap n => cases hc

/-- The positions of a prompt, with the images that place them. -/
def placedPositions (cfg : MRoPESettings) (grids : List ImageGrid)
    (audio : List AudioSegmentInfo) (ids : List Int32) : List (Position × Option ℕ) :=
  mropePlaced cfg ids.length 0 0 grids audio ids

section Ordered

variable {cfg : MRoPESettings} {grids : List ImageGrid} {audio : List AudioSegmentInfo}
  {ids : List Int32}

theorem placedPositions_eq (hin : ScanInputs cfg grids audio) :
    placedPositions cfg grids audio ids =
      (idealPositions cfg grids audio ids).map fun x => (Position.ofPoint x.2, x.1) :=
  mropePlaced_eq ids.length 0 0 ids hin

theorem mem_idealPositions {x : Option ℕ × (Fin 3 → ℕ)} (hx : x ∈ idealPositions cfg grids audio ids)
    (hnone : x.1 = none) : ∃ n, x.2 = fun _ => n := by
  unfold idealPositions at hx
  generalize scan cfg ids.length 0 grids audio ids = segments at hx
  generalize 0 = start at hx
  induction segments generalizing start with
  | nil => cases hx
  | cons s segments ih =>
    rcases List.mem_append.mp hx with hx | hx
    · exact s.diagonal hx hnone
    · exact ih _ hx

/-- **Positions inside a prompt are distinct and ordered**, as long as none of them, counted without
limit, leaves the range of `int32_t`. Every token gets one position; no two get the same; a token
that no image places has equal coordinates and stands above all tokens before it, and a token that
an image places above all tokens before that image. -/
theorem mropePositions_ordered (hin : ScanInputs cfg grids audio)
    (hfit : ∀ x ∈ idealPositions cfg grids audio ids, InInt32 x.2) :
    (placedPositions cfg grids audio ids).map Prod.fst =
        (computeMRoPEPositions ids grids audio cfg).positionIds ∧
      (computeMRoPEPositions ids grids audio cfg).positionIds.length = ids.length ∧
      (computeMRoPEPositions ids grids audio cfg).positionIds.Nodup ∧
      (∀ x ∈ placedPositions cfg grids audio ids, x.2 = none → ∃ c, x.1 = .diagonal c) ∧
      (placedPositions cfg grids audio ids).Pairwise
        fun x y => y.2 = none ∨ x.2 ≠ y.2 → x.1.Below y.1 := by
  have hfst : (placedPositions cfg grids audio ids).map Prod.fst =
      (computeMRoPEPositions ids grids audio cfg).positionIds := mropePlaced_positions ..
  refine ⟨hfst, computeMRoPEPositions_length .., ?_, fun x hx hnone => ?_, ?_⟩
  · rw [← hfst, placedPositions_eq hin, List.map_map]
    have hne : (idealPositions cfg grids audio ids).Pairwise fun x y => x.2 ≠ y.2 := by
      refine pairwise_ne_lay (fun b hb => ?_) 0
      obtain ⟨s, -, rfl⟩ := List.mem_map.mp hb
      exact s.nodup
    refine List.pairwise_map.mpr (hne.imp_of_mem fun hx hy hxy heq => hxy ?_)
    exact ofPoint_inj (hfit _ hx) (hfit _ hy) heq
  · rw [placedPositions_eq hin] at hx
    obtain ⟨y, hy, rfl⟩ := List.mem_map.mp hx
    obtain ⟨n, hn⟩ := mem_idealPositions hy hnone
    exact ⟨Int32.ofNat n, by rw [hn, ofPoint_diagonal]⟩
  · rw [placedPositions_eq hin]
    have hlt : (idealPositions cfg grids audio ids).Pairwise
        fun x y => y.1 = none ∨ x.1 ≠ y.1 → ∀ d, x.2 d < y.2 d := by
      refine pairwise_lay (R := fun x y => y.1 = none ∨ x.1 ≠ y.1 → ∀ d, x.2 d < y.2 d)
        (fun x y hlt _ => hlt) (fun b hb start => ?_) 0
      obtain ⟨s, -, rfl⟩ := List.mem_map.mp hb
      exact s.ordered start
    exact List.pairwise_map.mpr (hlt.imp_of_mem fun _ hy hxy hor =>
      ofPoint_below (hxy hor) (hfit _ hy))

end Ordered

/-- The token ids of the examples. -/
def tinyMRoPE : MRoPESettings := ⟨1, 100, 101, 102, 103⟩

/-- An instance of `mropePositions_ordered`: an image of two by two tokens between two others. -/
theorem mropePositions_ordered_image :
    (placedPositions tinyMRoPE [⟨1, 2, 2⟩] [] [100, 101, 101, 101, 101, 2]).Pairwise
      fun x y => y.2 = none ∨ x.2 ≠ y.2 → x.1.Below y.1 :=
  (mropePositions_ordered ⟨by decide, by decide, by decide⟩ (by decide +kernel)).2.2.2.2

/-- The counter passes the end of `int32_t` after an audio segment of `2^31 - 1` tokens. -/
theorem mropePositions_overflow :
    ScanInputs tinyMRoPE [] [⟨2147483647⟩] ∧
      (computeMRoPEPositions [102, 5] [] [⟨2147483647⟩] tinyMRoPE).positionIds =
        [.diagonal 0, .diagonal (-2147483648)] ∧
      ¬Position.Below (.diagonal 0) (.diagonal (-2147483648)) :=
  ⟨⟨by decide, by decide, by decide⟩, by decide +kernel, by decide⟩

end Geniex
