import Mathlib.Tactic

/-!
# MRoPE positions

`computeMRoPEPositions`: the three-dimensional positions of the tokens of a prompt with images and
audio segments, and the offset that the prompt adds to the positions after it.
-/

namespace Geniex

/-- A position in the three dimensions of MRoPE. -/
structure Position where
  temporal : Int32
  height : Int32
  width : Int32
  deriving DecidableEq, Repr

namespace Position

instance : Zero Position := ⟨⟨0, 0, 0⟩⟩

instance : Add Position :=
  ⟨fun p q => ⟨p.temporal + q.temporal, p.height + q.height, p.width + q.width⟩⟩

/-- The same position in the three dimensions. -/
def diagonal (x : Int32) : Position := ⟨x, x, x⟩

end Position

/-- `ImageGrid`: the patch grid of an image, before the spatial merge. -/
structure ImageGrid where
  t : Int32
  h : Int32
  w : Int32
  deriving DecidableEq, Repr

/-- `AudioSegmentInfo`. -/
structure AudioSegmentInfo where
  numLlmTokens : Int32
  deriving DecidableEq, Repr

/-- The token ids and the merge size that `computeMRoPEPositions` is given. -/
structure MRoPESettings where
  spatialMergeSize : Int32
  visionStartTokenId : Int32
  imageTokenId : Int32
  audioStartTokenId : Int32
  audioTokenId : Int32

/-- `MRoPEPositions`, with the three dimensions of a token side by side. -/
structure MRoPEPositions where
  positionIds : List Position
  deltas : Position

/-- The cells of the three nested loops over an image, in order. -/
def imageCells (T llmH llmW : Int32) : List (ℕ × ℕ × ℕ) :=
  (List.range T.toInt.toNat).flatMap fun t =>
    (List.range llmH.toInt.toNat).flatMap fun h =>
      (List.range llmW.toInt.toNat).map fun w => (t, h, w)

/-- Place image tokens on the cells from `imgStart` on, until the cells or the image tokens end. The
second part is the tokens left. -/
def placeImage (imageToken imgStart : Int32) :
    List (ℕ × ℕ × ℕ) → List Int32 → List Position × List Int32
  | [], tokens => ([], tokens)
  | _ :: _, [] => ([], [])
  | (t, h, w) :: cells, tok :: tokens =>
    if tok ≠ imageToken then ([], tok :: tokens)
    else
      let (positions, rest) := placeImage imageToken imgStart cells tokens
      (⟨imgStart + Int32.ofNat t, imgStart + Int32.ofNat h, imgStart + Int32.ofNat w⟩ :: positions,
        rest)

/-- Place at most `n` audio tokens from a position on. The second part is the tokens left. -/
def placeAudio (audioToken : Int32) : ℕ → Int32 → List Int32 → List Position × List Int32
  | 0, _, tokens => ([], tokens)
  | _ + 1, _, [] => ([], [])
  | n + 1, pos, tok :: tokens =>
    if tok ≠ audioToken then ([], tok :: tokens)
    else
      let (positions, rest) := placeAudio audioToken n (pos + 1) tokens
      (Position.diagonal pos :: positions, rest)

/-- `std::max({a, b, c})`. -/
def max3 (a b c : Int32) : Int32 :=
  let m := if a < b then b else a
  if m < c then c else m

/-- The loop over the tokens left, with the sequential counter and the images and segments left. -/
def mropeLoop (cfg : MRoPESettings) :
    ℕ → Int32 → List ImageGrid → List AudioSegmentInfo → List Int32 → List Position
  | 0, _, _, _, _ => []
  | _ + 1, _, _, _, [] => []
  | fuel + 1, st, grids, audio, tok :: tokens =>
    match (if tok = cfg.visionStartTokenId then grids.head? else none),
        (if tok = cfg.audioStartTokenId then audio.head? else none) with
    | some thw, _ =>
      let llmH := thw.h / cfg.spatialMergeSize
      let llmW := thw.w / cfg.spatialMergeSize
      let (image, rest) := placeImage cfg.imageTokenId (st + 1) (imageCells thw.t llmH llmW) tokens
      Position.diagonal st :: (image ++
        mropeLoop cfg fuel (st + 1 + max3 thw.t llmH llmW) grids.tail audio rest)
    | none, some segment =>
      let (spoken, rest) :=
        placeAudio cfg.audioTokenId segment.numLlmTokens.toInt.toNat (st + 1) tokens
      Position.diagonal st :: (spoken ++
        mropeLoop cfg fuel (st + 1 + segment.numLlmTokens) grids audio.tail rest)
    | none, none => Position.diagonal st :: mropeLoop cfg fuel (st + 1) grids audio tokens

/-- `*std::max_element` of the temporal positions, 0 when there are none. -/
def maxTemporal : List Position → Int32
  | [] => 0
  | p :: ps => ps.foldl (fun m q => if m < q.temporal then q.temporal else m) p.temporal

/-- `computeMRoPEPositions`. -/
def computeMRoPEPositions (inputIds : List Int32) (imageGrids : List ImageGrid)
    (audioSegments : List AudioSegmentInfo) (cfg : MRoPESettings) : MRoPEPositions :=
  let positions := mropeLoop cfg inputIds.length 0 imageGrids audioSegments inputIds
  ⟨positions, .diagonal (maxTemporal positions + 1 - Int32.ofNat inputIds.length)⟩

/-! ## One position for each token -/

theorem placeImage_length (imageToken imgStart : Int32) (cells : List (ℕ × ℕ × ℕ))
    (tokens : List Int32) :
    (placeImage imageToken imgStart cells tokens).1.length +
      (placeImage imageToken imgStart cells tokens).2.length = tokens.length := by
  fun_induction placeImage imageToken imgStart cells tokens with
  | case1 tokens => simp
  | case2 => rfl
  | case3 t h w cells tok tokens hne => simp
  | case4 t h w cells tok tokens heq positions rest hrec ih =>
    simp only [hrec] at ih
    simp only [List.length_cons]
    omega

theorem placeAudio_length (audioToken : Int32) (n : ℕ) (pos : Int32) (tokens : List Int32) :
    (placeAudio audioToken n pos tokens).1.length +
      (placeAudio audioToken n pos tokens).2.length = tokens.length := by
  fun_induction placeAudio audioToken n pos tokens with
  | case1 pos tokens => simp
  | case2 => rfl
  | case3 n pos tok tokens hne => simp
  | case4 n pos tok tokens heq positions rest hrec ih =>
    simp only [hrec] at ih
    simp only [List.length_cons]
    omega

theorem mropeLoop_length (cfg : MRoPESettings) (fuel : ℕ) (st : Int32) (grids : List ImageGrid)
    (audio : List AudioSegmentInfo) (tokens : List Int32) (hfuel : tokens.length ≤ fuel) :
    (mropeLoop cfg fuel st grids audio tokens).length = tokens.length := by
  induction fuel generalizing st grids audio tokens with
  | zero =>
    rw [List.eq_nil_of_length_eq_zero (Nat.le_zero.mp hfuel)]
    rfl
  | succ fuel ih =>
    cases tokens with
    | nil => rfl
    | cons tok tokens =>
      rw [List.length_cons] at hfuel
      unfold mropeLoop
      split
      · rename_i thw _
        have := placeImage_length cfg.imageTokenId (st + 1)
          (imageCells thw.t (thw.h / cfg.spatialMergeSize) (thw.w / cfg.spatialMergeSize)) tokens
        simp only [List.length_cons, List.length_append]
        rw [ih _ _ _ _ (by omega)]
        omega
      · rename_i segment _ _
        have := placeAudio_length cfg.audioTokenId segment.numLlmTokens.toInt.toNat (st + 1) tokens
        simp only [List.length_cons, List.length_append]
        rw [ih _ _ _ _ (by omega)]
        omega
      · rw [List.length_cons, List.length_cons, ih _ _ _ _ (by omega)]

/-- Every token of a prompt gets a position. -/
theorem computeMRoPEPositions_length (inputIds : List Int32) (imageGrids : List ImageGrid)
    (audioSegments : List AudioSegmentInfo) (cfg : MRoPESettings) :
    (computeMRoPEPositions inputIds imageGrids audioSegments cfg).positionIds.length =
      inputIds.length :=
  mropeLoop_length cfg _ _ _ _ _ le_rfl

end Geniex
