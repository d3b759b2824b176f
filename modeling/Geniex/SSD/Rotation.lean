import Geniex.LLM.Rope
import Geniex.SSD.Tree

/-!
# The rotation of a draft tree

`SSDModel` overwrites the cos/sin inputs by rows of its own table, a `RotaryEmbedding` over the head
dimension and the base of the bundle. The provider that it overrides has the table that
`makeRoPEProvider` chooses by the scaling of the bundle, over the last dimension of the cos input.

* `RopeScaling.Neutral`: the scaling divides the powers of the base by nothing.
* `sameRotation_iff`: when the two tables agree.
-/

namespace Geniex

open Extended

/-! ## Entries of a table -/

namespace RotaryTable

variable {K : Type} [Field K] [LinearOrder K]

theorem forward_singleton (F : MathFns K) (r : RotaryTable K) (pos : Int32) :
    r.forward F [pos] = (r.cosRow F pos, r.sinRow F pos) := by
  simp [forward]

/-- What equal rows of cosines say of the entries. -/
theorem entry_of_cosRow {F : MathFns K} {n m : ℕ} {f g : ℕ → Extended K} {c d : Extended K}
    {pos : Int32} (h : (⟨(List.range n).map f, c⟩ : RotaryTable K).cosRow F pos =
      (⟨(List.range m).map g, d⟩ : RotaryTable K).cosRow F pos) :
    n = m ∧ ∀ i < n, (.fin (pos.toInt : K) * f i).apply F.cos * c =
      (.fin (pos.toInt : K) * g i).apply F.cos * d := by
  obtain rfl : n = m := by simpa [cosRow] using congrArg List.length h
  refine ⟨rfl, fun i hi => ?_⟩
  simp only [cosRow, List.map_map] at h
  exact List.map_inj_left.mp h i (List.mem_range.mpr hi)

/-- Tables whose entries have the same cosines and sines write the same rows. -/
theorem forward_congr {F : MathFns K} {n : ℕ} {f g : ℕ → Extended K} {c d : Extended K}
    (h : ∀ i < n, ∀ (u : K → K) (pos : Int32), (.fin (pos.toInt : K) * f i).apply u * c =
      (.fin (pos.toInt : K) * g i).apply u * d) (positions : List Int32) :
    (⟨(List.range n).map f, c⟩ : RotaryTable K).forward F positions =
      (⟨(List.range n).map g, d⟩ : RotaryTable K).forward F positions := by
  have hcos : ∀ pos, (⟨(List.range n).map f, c⟩ : RotaryTable K).cosRow F pos =
      (⟨(List.range n).map g, d⟩ : RotaryTable K).cosRow F pos := by
    intro pos
    simp only [cosRow, List.map_map]
    exact List.map_congr_left fun i hi => h i (List.mem_range.mp hi) F.cos pos
  have hsin : ∀ pos, (⟨(List.range n).map f, c⟩ : RotaryTable K).sinRow F pos =
      (⟨(List.range n).map g, d⟩ : RotaryTable K).sinRow F pos := by
    intro pos
    simp only [sinRow, List.map_map]
    exact List.map_congr_left fun i hi => h i (List.mem_range.mp hi) F.sin pos
  simp only [forward, funext hcos, funext hsin]

end RotaryTable

/-! ## The frequencies of each class -/

theorem kPi_pos : (0 : ℝ) < kPi := by
  norm_num [kPi]

/-- The wavelength of a power. -/
theorem wavelen_eq {c : ℝ} (hc : c ≠ 0) :
    fin (2 * kPi : ℝ) / (fin 1 / fin c) = fin (2 * kPi * c) := by
  rw [fin_div_fin hc, fin_div_fin (one_div_ne_zero hc), div_div_eq_mul_div, div_one]

/-- `llama3Freq` of a power other than zero. -/
theorem llama3Freq_of_ne (factor low high ctx : ℝ) {c : ℝ} (hc : c ≠ 0) :
    llama3Freq factor low high ctx c =
      if fin (2 * kPi * c) < fin ctx / fin high then fin (1 / c)
      else if fin ctx / fin low < fin (2 * kPi * c) then fin 1 / fin (factor * c)
      else (fin 1 - (fin (ctx / (2 * kPi * c)) - fin low) / fin (high - low)) * fin (1 / c) /
          fin factor + (fin (ctx / (2 * kPi * c)) - fin low) / fin (high - low) * fin (1 / c) := by
  have hwave : 2 * kPi * c ≠ 0 := mul_ne_zero (mul_ne_zero two_ne_zero kPi_pos.ne') hc
  unfold llama3Freq
  dsimp only
  rw [wavelen_eq hc, fin_div_fin hc, fin_div_fin hwave]

/-- The frequency of the power zero is no number, whatever the parameters. -/
theorem llama3Freq_zero (factor low high ctx : ℝ) :
    ¬(llama3Freq factor low high ctx 0).IsFinite := by
  have hinf : (fin 1 / fin 0 : Extended ℝ) = inf false := fin_div_zero_of_pos one_pos
  unfold llama3Freq
  dsimp only
  rw [mul_zero, hinf]
  split_ifs
  · exact not_isFinite_inf _
  · exact not_isFinite_inf _
  · exact fun h => not_isFinite_inf _ h.of_add.2.of_mul.2

/-- The parameters of `llama3` leave every frequency as it is: no wavelength is above the band of
high frequencies, or the low ones are divided by one and there is a band between the two. -/
def Llama3Neutral (factor low high ctx : ℝ) : Prop :=
  high = 0 ∧ 0 < ctx ∨ factor = 1 ∧ (high ≠ low ∨ (ctx = 0 ↔ high ≠ 0))

section Llama3

variable {factor low high ctx w c : ℝ}

/-- A wavelength between the bands is in a band of some width. -/
theorem bands_ne (h : high ≠ low ∨ (ctx = 0 ↔ high ≠ 0)) (hw : w ≠ 0)
    (hhigh : ¬fin w < fin ctx / fin high) (hlow : ¬fin ctx / fin low < fin w) : high ≠ low := by
  rintro rfl
  have hiff := h.resolve_left fun hne => hne rfl
  rcases eq_or_ne high 0 with rfl | hne
  · rcases lt_or_gt_of_ne fun h0 => hiff.mp h0 rfl with hneg | hpos
    · rw [fin_div_zero_of_neg hneg] at hlow
      exact hlow inf_lt_fin
    · rw [fin_div_zero_of_pos hpos] at hhigh
      exact hhigh fin_lt_inf
  · obtain rfl : ctx = 0 := hiff.mpr hne
    rw [fin_div_fin hne, zero_div, fin_lt_fin] at hhigh hlow
    exact hw (le_antisymm (not_lt.mp hlow) (not_lt.mp hhigh))

theorem llama3Freq_neutral (h : Llama3Neutral factor low high ctx) (hc : c ≠ 0) :
    llama3Freq factor low high ctx c = fin (1 / c) := by
  rw [llama3Freq_of_ne _ _ _ _ hc]
  rcases h with ⟨rfl, hctx⟩ | ⟨rfl, hbands⟩
  · rw [fin_div_zero_of_pos hctx, if_pos fin_lt_inf]
  · split_ifs with hhigh hlow
    · rfl
    · rw [one_mul, fin_div_fin hc]
    · have hwave : 2 * kPi * c ≠ 0 := mul_ne_zero (mul_ne_zero two_ne_zero kPi_pos.ne') hc
      have hsub := sub_ne_zero.mpr (bands_ne hbands hwave hhigh hlow)
      simp only [fin_sub_fin, fin_div_fin hsub, fin_mul_fin, fin_div_fin one_ne_zero, fin_add_fin]
      congr 1
      ring

/-- An interpolated frequency is a number only if the band has a width and the factor is not zero. -/
theorem band_finite {a b : ℝ}
    (h : ((fin 1 - fin a / fin (high - low)) * fin b / fin factor +
      fin a / fin (high - low) * fin b).IsFinite) : high - low ≠ 0 ∧ factor ≠ 0 :=
  ⟨h.of_add.2.of_mul.1.of_div_fin.2, h.of_add.1.of_div_fin.2⟩

/-- A wavelength above both bands. -/
theorem exists_above (hstay : ¬(high = 0 ∧ 0 < ctx)) :
    ∃ c : ℝ, 0 < c ∧ (¬fin (2 * kPi * c) < fin ctx / fin high) ∧ 2 * kPi * c ≠ ctx / high ∧
      (low ≠ 0 → ctx / low < 2 * kPi * c) := by
  have hpi : (1 : ℝ) ≤ 2 * kPi := by norm_num [kPi]
  set c : ℝ := |ctx / low| + |ctx / high| + 1 with hc
  have habslow := abs_nonneg (ctx / low)
  have habshigh := abs_nonneg (ctx / high)
  have hleast : c ≤ 2 * kPi * c := le_mul_of_one_le_left (by linarith) hpi
  have hlow := le_abs_self (ctx / low)
  have hhigh := le_abs_self (ctx / high)
  refine ⟨c, by linarith, ?_, by linarith, fun _ => by linarith⟩
  rcases eq_or_ne high 0 with rfl | hne
  · rcases eq_or_lt_of_le (not_lt.mp fun hpos => hstay ⟨rfl, hpos⟩) with rfl | hneg
    · rw [zero_div_zero]
      exact not_lt_nan
    · rw [fin_div_zero_of_neg hneg]
      exact not_fin_lt_inf
  · rw [fin_div_fin hne, fin_lt_fin]
    linarith

/-- The factor shows at a wavelength above both bands. -/
theorem llama3_factor (h : ∀ c : ℝ, c ≠ 0 → llama3Freq factor low high ctx c = fin (1 / c))
    (hstay : ¬(high = 0 ∧ 0 < ctx)) : factor = 1 := by
  obtain ⟨c, hc, hhigh, hne, habove⟩ := @exists_above low high ctx hstay
  have hfreq := h c hc.ne'
  rw [llama3Freq_of_ne _ _ _ _ hc.ne', if_neg hhigh] at hfreq
  split_ifs at hfreq with hlow
  · -- the frequency is divided by the factor
    have hfin : (fin 1 / fin (factor * c)).IsFinite := ⟨_, hfreq⟩
    rw [fin_div_fin hfin.of_div_fin.2, Extended.fin.injEq, one_div, one_div, inv_inj] at hfreq
    exact mul_right_cancel₀ hc.ne' (hfreq.trans (one_mul c).symm)
  · -- no low band: the frequency is interpolated
    have hzero : low = 0 := by
      by_contra hlow0
      rw [fin_div_fin hlow0, fin_lt_fin] at hlow
      exact hlow (habove hlow0)
    subst hzero
    rw [fin_sub_fin, sub_zero] at hfreq
    obtain ⟨hsub, hfactor⟩ := band_finite ⟨_, hfreq⟩
    rw [sub_zero] at hsub hfreq
    rw [fin_div_fin hsub, fin_sub_fin, fin_mul_fin, fin_div_fin hfactor, fin_mul_fin, fin_add_fin,
      Extended.fin.injEq] at hfreq
    set s := ctx / (2 * kPi * c) / high with hs
    have hs1 : 1 - s ≠ 0 := by
      intro h1
      have hone : ctx / (2 * kPi * c) / high = 1 := by linarith
      rw [div_div, mul_comm, ← div_div, div_eq_one_iff_eq
        (mul_pos (mul_pos two_pos kPi_pos) hc).ne'] at hone
      exact hne hone.symm
    have hzero : (1 - s) * (1 / factor - 1) = 0 := by
      have hmul : ((1 - s) * (1 / c) / factor + s * (1 / c)) * c = 1 / c * c := by rw [hfreq]
      rw [one_div_mul_cancel hc.ne'] at hmul
      field_simp at hmul ⊢
      linarith
    have hinv := sub_eq_zero.mp ((mul_eq_zero.mp hzero).resolve_left hs1)
    exact (div_eq_one_iff_eq hfactor).mp hinv |>.symm

/-- The frequencies stay as they are only for neutral parameters. -/
theorem llama3Neutral_of_freq
    (h : ∀ c : ℝ, c ≠ 0 → llama3Freq factor low high ctx c = fin (1 / c)) :
    Llama3Neutral factor low high ctx := by
  by_cases hstay : high = 0 ∧ 0 < ctx
  · exact Or.inl hstay
  refine Or.inr ⟨llama3_factor h hstay, ?_⟩
  by_contra hbands
  rw [not_or, not_not] at hbands
  obtain ⟨rfl, hiff⟩ := hbands
  -- a wavelength between two bands that leave no room
  suffices hmid : ∃ c : ℝ, c ≠ 0 ∧ (¬fin (2 * kPi * c) < fin ctx / fin high) ∧
      ¬fin ctx / fin high < fin (2 * kPi * c) by
    obtain ⟨c, hc, hhigh, hlow⟩ := hmid
    have hfreq := h c hc
    rw [llama3Freq_of_ne _ _ _ _ hc, if_neg hhigh, if_neg hlow, fin_sub_fin] at hfreq
    exact (band_finite ⟨_, hfreq⟩).1 (sub_self high)
  rcases eq_or_ne high 0 with rfl | hne
  · obtain rfl : ctx = 0 := by
      by_contra hctx
      exact hiff (iff_of_false hctx fun h => h rfl)
    refine ⟨1, one_ne_zero, ?_, ?_⟩ <;> rw [zero_div_zero]
    · exact not_lt_nan
    · exact not_nan_lt
  · have hctx : ctx ≠ 0 := fun hctx => hiff (iff_of_true hctx hne)
    have hpi : (2 * kPi : ℝ) ≠ 0 := mul_ne_zero two_ne_zero kPi_pos.ne'
    refine ⟨ctx / high / (2 * kPi), div_ne_zero (div_ne_zero hctx hne) hpi, ?_, ?_⟩ <;>
      rw [mul_div_cancel₀ _ hpi, fin_div_fin hne, fin_lt_fin] <;> exact lt_irrefl _

end Llama3

/-- The factor of a long-context table is one if no function can change it. -/
theorem longRoPEScale_one_iff (orig : Int32) :
    (∀ F : MathFns ℝ, longRoPEScale F 131072 orig = fin 1) ↔
      orig.toInt < 0 ∨ 131072 ≤ orig.toInt := by
  have hmax : ((131072 : Int32).toInt : ℝ) = 131072 := by
    rw [show (131072 : Int32).toInt = 131072 from by decide]
    norm_num
  have hratio : (fin ((131072 : Int32).toInt : ℝ) / fin (orig.toInt : ℝ) : Extended ℝ) ≤ fin 1 ↔
      orig.toInt < 0 ∨ 131072 ≤ orig.toInt := by
    rw [hmax]
    rcases lt_trichotomy orig.toInt 0 with hneg | hzero | hpos
    · have hcast : (orig.toInt : ℝ) < 0 := by exact_mod_cast hneg
      rw [fin_div_fin hcast.ne, fin_le_fin]
      exact iff_of_true ((div_nonpos_of_nonneg_of_nonpos (by norm_num) hcast.le).trans zero_le_one)
        (Or.inl hneg)
    · rw [hzero, Int.cast_zero, fin_div_zero_of_pos (by norm_num)]
      exact iff_of_false not_inf_le_fin (by omega)
    · have hcast : (0 : ℝ) < orig.toInt := by exact_mod_cast hpos
      rw [fin_div_fin hcast.ne', fin_le_fin, div_le_one hcast, or_iff_right (not_lt.mpr hpos.le)]
      norm_cast
  rw [← hratio]
  constructor
  · intro h
    by_contra hgt
    have htwo := h ⟨id, id, fun _ _ => 0, id, fun _ => fin 2⟩
    rw [longRoPEScale] at htwo
    dsimp only at htwo
    rw [if_neg hgt, Extended.fin.injEq] at htwo
    norm_num at htwo
  · intro hle F
    exact if_pos hle

/-! ## The scaling of a table -/

namespace RopeScaling

/-- The dimensions of the provider's table, for a cos input of `halfDim` columns. -/
def dim (halfDim : ℕ) : RopeScaling → ℕ
  | .partialRope fraction _ => ⌊((halfDim * 2 : ℕ) : ℚ) * fraction⌋₊
  | _ => halfDim * 2

/-- `original_max_position_embeddings` as the class gets it. -/
def origOf (orig : ℕ) : Int32 := Int32.ofNat (if orig ≠ 0 then orig else 4096)

/-- The frequency that the provider makes of the power of column `i`. -/
noncomputable def freq (i : ℕ) (power : ℝ) : RopeScaling → Extended ℝ
  | .llama3 factor low high orig =>
    llama3Freq (factor : ℝ) (low : ℝ) (high : ℝ) ((Int32.ofNat orig).toInt : ℝ) power
  | .longRope longFactor _ => fin 1 / fin ((longFactor.getD i 1 : ℝ) * power)
  | _ => fin 1 / fin power

/-- The factor of the provider's rows. -/
noncomputable def scaleOf (F : MathFns ℝ) : RopeScaling → Extended ℝ
  | .longRope _ orig => longRoPEScale F 131072 (origOf orig)
  | .partialRope _ scale => fin (scale : ℝ)
  | _ => fin 1

/-- The parameters of the scaling change no frequency of the first `n` columns, and no row. -/
def Neutral (n : ℕ) : RopeScaling → Prop
  | .standard => True
  | .mrope => True
  | .llama3 factor low high orig =>
    high = 0 ∧ 0 < (Int32.ofNat orig).toInt ∨
      factor = 1 ∧ (high ≠ low ∨ ((Int32.ofNat orig).toInt = 0 ↔ high ≠ 0))
  | .longRope longFactor orig =>
    ((origOf orig).toInt < 0 ∨ 131072 ≤ (origOf orig).toInt) ∧ ∀ i < n, longFactor.getD i 1 = 1
  | .partialRope _ scale => scale = 1

instance (n : ℕ) (s : RopeScaling) : Decidable (s.Neutral n) := by
  cases s <;> unfold Neutral <;> infer_instance

/-- The provider's table is the one that an `SSDModel` makes over `headDim` dimensions: as many
columns, over the same dimensions unless there is one column only, and with a neutral scaling. -/
def KeepsRotation (headDim halfDim : ℕ) (s : RopeScaling) : Prop :=
  s.dim halfDim / 2 = headDim / 2 ∧
    (headDim / 2 = 0 ∨ (s.dim halfDim = headDim ∨ headDim / 2 = 1) ∧ s.Neutral (headDim / 2))

instance (headDim halfDim : ℕ) (s : RopeScaling) : Decidable (s.KeepsRotation headDim halfDim) := by
  unfold KeepsRotation
  infer_instance

theorem neutral_llama3 {n : ℕ} {factor low high : ℚ} {orig : ℕ} :
    (RopeScaling.llama3 factor low high orig).Neutral n ↔
      Llama3Neutral (factor : ℝ) (low : ℝ) (high : ℝ) ((Int32.ofNat orig).toInt : ℝ) := by
  unfold Neutral Llama3Neutral
  norm_cast

/-- The power zero has no frequency. -/
theorem freq_zero (s : RopeScaling) (i : ℕ) : ¬(s.freq i 0).IsFinite := by
  cases s with
  | llama3 => exact llama3Freq_zero _ _ _ _
  | longRope =>
    show ¬(fin 1 / fin (_ * 0) : Extended ℝ).IsFinite
    rw [mul_zero]
    exact fun h => h.of_div_fin.2 rfl
  | standard | mrope | partialRope => exact fun h => h.of_div_fin.2 rfl

theorem Neutral.freq {s : RopeScaling} {n i : ℕ} (h : s.Neutral n) (hi : i < n) {c : ℝ}
    (hc : c ≠ 0) : s.freq i c = fin (1 / c) := by
  cases s with
  | llama3 => exact llama3Freq_neutral (neutral_llama3.mp h) hc
  | longRope =>
    show fin 1 / fin (((_ : ℚ) : ℝ) * c) = _
    rw [h.2 i hi, Rat.cast_one, one_mul, fin_div_fin hc]
  | standard | mrope | partialRope => exact fin_div_fin hc

theorem Neutral.scaleOf {s : RopeScaling} {n : ℕ} (h : s.Neutral n) (F : MathFns ℝ) :
    s.scaleOf F = fin 1 := by
  cases s with
  | longRope => exact (longRoPEScale_one_iff _).mpr h.1 F
  | partialRope =>
    show fin ((_ : ℚ) : ℝ) = _
    rw [show _ = (1 : ℚ) from h, Rat.cast_one]
  | standard | mrope | llama3 => rfl

/-- A scaling that changes nothing has neutral parameters. -/
theorem neutral_of {s : RopeScaling} {n : ℕ} (hn : 0 < n)
    (hscale : ∀ F : MathFns ℝ, s.scaleOf F = fin 1)
    (hfreq : ∀ i < n, ∀ c : ℝ, c ≠ 0 → s.freq i c = fin (1 / c)) : s.Neutral n := by
  cases s with
  | standard => trivial
  | mrope => trivial
  | llama3 => exact neutral_llama3.mpr (llama3Neutral_of_freq (hfreq 0 hn))
  | longRope longFactor orig =>
    refine ⟨(longRoPEScale_one_iff _).mp hscale, fun i hi => ?_⟩
    have hone := hfreq i hi 1 one_ne_zero
    change fin 1 / fin (((longFactor.getD i 1 : ℚ) : ℝ) * 1) = fin (1 / 1) at hone
    have hne := IsFinite.of_div_fin ⟨_, hone⟩
    rw [fin_div_fin hne.2, Extended.fin.injEq, mul_one, one_div, div_one, inv_eq_one] at hone
    exact_mod_cast hone
  | partialRope fraction scale =>
    have hone : fin ((scale : ℚ) : ℝ) = fin 1 := hscale ⟨id, id, fun _ _ => 0, id, id⟩
    rw [Extended.fin.injEq] at hone
    show scale = 1
    exact_mod_cast hone

end RopeScaling

/-! ## The two models of a bundle -/

/-- The power that column `i` of a table over `dim` dimensions divides by. -/
noncomputable def columnPower (F : MathFns ℝ) (dim : ℕ) (theta : ℚ) (i : ℕ) : ℝ :=
  F.pow (theta : ℝ) (((i * 2 : ℕ) : ℝ) * (1 / (dim : ℝ)))

/-- `rope_` of an `SSDModel`, over `spec_.head_dim` and the base that `makeSSDConfig` takes from the
bundle. -/
def ssdRope {K : Type} [Field K] [LinearOrder K] (F : MathFns K) (headDim : ℕ)
    (gc : ParsedGenieConfig) : RotaryTable K :=
  RotaryEmbedding F headDim gc.ropeTheta

/-- Whatever the functions are, both overrides of an `SSDModel` write the rows that the provider of
the bundle computes for the same positions. The cos input has `halfDim` columns. -/
structure SameRotation (headDim halfDim : ℕ) (gc : ParsedGenieConfig) : Prop where
  prefill : ∀ (F : MathFns ℝ) (ssd : SSDConfig) (nPast chunkSize : ℕ),
    (ssdRope F headDim gc).forward F (ssd.prefillPositions nPast chunkSize) =
      (makeRoPEProvider F (halfDim * 2) gc).forward F (ssd.prefillPositions nPast chunkSize)
  tree : ∀ (F : MathFns ℝ) (ssd : SSDConfig) (nPast numTokens : ℕ),
    (ssdRope F headDim gc).forward F (ssd.computeTreePositionIds nPast numTokens) =
      (makeRoPEProvider F (halfDim * 2) gc).forward F (ssd.computeTreePositionIds nPast numTokens)

section Tables

variable {headDim halfDim : ℕ} {gc : ParsedGenieConfig}

theorem ssdRope_eq (F : MathFns ℝ) (headDim : ℕ) (gc : ParsedGenieConfig) : ssdRope F headDim gc =
    ⟨(List.range (headDim / 2)).map fun i => fin 1 / fin (columnPower F headDim gc.ropeTheta i),
      fin 1⟩ := rfl

/-- The table of every provider, by the powers of its columns. -/
theorem makeRoPEProvider_eq (F : MathFns ℝ) (halfDim : ℕ) (gc : ParsedGenieConfig) :
    makeRoPEProvider F (halfDim * 2) gc =
      ⟨(List.range (gc.ropeScaling.dim halfDim / 2)).map fun i =>
        gc.ropeScaling.freq i (columnPower F (gc.ropeScaling.dim halfDim) gc.ropeTheta i),
        gc.ropeScaling.scaleOf F⟩ := by
  rw [makeRoPEProvider]
  cases gc.ropeScaling with
  | standard => rfl
  | mrope => rfl
  | partialRope => rfl
  | llama3 factor low high orig =>
    dsimp only
    rw [Llama3RoPEEmbedding]
    congr 1
    refine List.map_congr_left fun j hj => ?_
    have hne : (halfDim : ℝ) ≠ 0 := by
      rintro h0
      obtain rfl : halfDim = 0 := by exact_mod_cast h0
      simp at hj
    have hexp : (j : ℝ) * (1 / ((halfDim * 2 / 2 : ℕ) : ℝ)) =
        ((j * 2 : ℕ) : ℝ) * (1 / ((halfDim * 2 : ℕ) : ℝ)) := by
      rw [Nat.mul_div_cancel _ two_pos]
      push_cast
      field_simp
    show llama3Freq _ _ _ _ _ = llama3Freq _ _ _ _ (F.pow _ _)
    rw [hexp]
    rfl
  | longRope longFactor orig =>
    dsimp only
    rw [LongRoPEEmbedding]
    congr 1
    refine List.map_congr_left fun i _ => ?_
    show _ = fin 1 / fin (_ * F.pow _ _)
    rw [mul_one_div]
    rfl

/-- The rows at position one. -/
theorem SameRotation.cosRow_one (h : SameRotation headDim halfDim gc) (F : MathFns ℝ) :
    (ssdRope F headDim gc).cosRow F 1 = (makeRoPEProvider F (halfDim * 2) gc).cosRow F 1 := by
  have hone : (SSDConfig.mk [] 0 none).prefillPositions 1 1 = [1] := by decide
  have hrows := h.prefill F ⟨[], 0, none⟩ 1 1
  rw [hone, RotaryTable.forward_singleton, RotaryTable.forward_singleton] at hrows
  exact (Prod.mk.inj hrows).1

theorem toInt_one : ((1 : Int32).toInt : ℝ) = 1 := by
  rw [show (1 : Int32).toInt = 1 from by decide]
  norm_num

/-- As many columns, and the entries of each at position one. -/
theorem SameRotation.entry (h : SameRotation headDim halfDim gc) (F : MathFns ℝ) :
    headDim / 2 = gc.ropeScaling.dim halfDim / 2 ∧ ∀ i < headDim / 2,
      (fin 1 * (fin 1 / fin (columnPower F headDim gc.ropeTheta i))).apply F.cos * fin 1 =
        (fin 1 * gc.ropeScaling.freq i
            (columnPower F (gc.ropeScaling.dim halfDim) gc.ropeTheta i)).apply F.cos *
          gc.ropeScaling.scaleOf F := by
  have hrow := h.cosRow_one F
  rw [ssdRope_eq, makeRoPEProvider_eq] at hrow
  have hentry := RotaryTable.entry_of_cosRow hrow
  rwa [toInt_one] at hentry

/-- Two models that rotate alike have a neutral scaling. -/
theorem SameRotation.neutral (h : SameRotation headDim halfDim gc) (hpos : 0 < headDim / 2) :
    gc.ropeScaling.Neutral (headDim / 2) := by
  -- a constant power other than zero, under any cosine
  have hentry : ∀ (u : ℝ → ℝ) (log sqrt : Extended ℝ → Extended ℝ) (i : ℕ), i < headDim / 2 →
      ∀ c : ℝ, c ≠ 0 → ∃ x d, gc.ropeScaling.freq i c = fin x ∧
        gc.ropeScaling.scaleOf ⟨u, id, fun _ _ => c, log, sqrt⟩ = fin d ∧ u (1 / c) = u x * d := by
    intro u log sqrt i hi c hc
    have heq := (h.entry ⟨u, id, fun _ _ => c, log, sqrt⟩).2 i hi
    change (fin 1 * (fin 1 / fin c)).apply u * fin 1 =
      (fin 1 * gc.ropeScaling.freq i c).apply u * _ at heq
    rw [fin_div_fin hc, fin_mul_fin, one_mul, apply_fin, fin_mul_fin, mul_one] at heq
    have hfin := IsFinite.of_mul ⟨_, heq.symm⟩
    obtain ⟨x, hx⟩ := hfin.1.of_apply.of_mul.2
    obtain ⟨d, hd⟩ := hfin.2
    refine ⟨x, d, hx, hd, ?_⟩
    rwa [hx, hd, fin_mul_fin, one_mul, apply_fin, fin_mul_fin, Extended.fin.injEq] at heq
  have hscale : ∀ F : MathFns ℝ, gc.ropeScaling.scaleOf F = fin 1 := by
    intro F
    obtain ⟨x, d, -, hd, h1⟩ := hentry (fun _ => 1) F.log F.sqrt 0 hpos 1 one_ne_zero
    rw [one_mul] at h1
    rw [h1, ← hd]
    cases gc.ropeScaling <;> rfl
  refine RopeScaling.neutral_of hpos hscale fun i hi c hc => ?_
  obtain ⟨x, d, hx, hd, h1⟩ := hentry id id id i hi c hc
  rw [hscale, Extended.fin.injEq] at hd
  rw [hx, ← hd, mul_one] at *
  exact congrArg fin h1.symm

/-- Two models that rotate more than one column alike have tables over the same dimensions. -/
theorem SameRotation.dim_eq (h : SameRotation headDim halfDim gc) (hcols : 1 < headDim / 2) :
    gc.ropeScaling.dim halfDim = headDim := by
  have hneutral := h.neutral (by omega)
  set dim := gc.ropeScaling.dim halfDim with hdim
  by_contra hne
  -- a power that tells the exponents of the second column apart
  have hexp : ((1 * 2 : ℕ) : ℝ) * (1 / (headDim : ℝ)) ≠ ((1 * 2 : ℕ) : ℝ) * (1 / (dim : ℝ)) := by
    intro heq
    have hinv := mul_left_cancel₀ (by norm_num) heq
    rw [one_div, one_div, inv_inj] at hinv
    exact hne (by exact_mod_cast hinv.symm)
  set F : MathFns ℝ := ⟨id, id, fun _ y =>
    if y = ((1 * 2 : ℕ) : ℝ) * (1 / (dim : ℝ)) then 1 else 2, id, id⟩ with hF
  have hentry := (h.entry F).2 1 hcols
  have hssd : columnPower F headDim gc.ropeTheta 1 = 2 := if_neg hexp
  have hprovider : columnPower F dim gc.ropeTheta 1 = 1 := if_pos rfl
  rw [hssd, ← hdim, hprovider, hneutral.freq hcols one_ne_zero, hneutral.scaleOf,
    fin_div_fin two_ne_zero, fin_mul_fin, fin_mul_fin, apply_fin, apply_fin, fin_mul_fin,
    fin_mul_fin, Extended.fin.injEq] at hentry
  norm_num [hF] at hentry

/-- With a neutral scaling the rows of both models are the same. -/
theorem sameRotation_of_keeps (h : gc.ropeScaling.KeepsRotation headDim halfDim) :
    SameRotation headDim halfDim gc := by
  obtain ⟨hcols, hrest⟩ := h
  have hforward : ∀ (F : MathFns ℝ) (positions : List Int32),
      (ssdRope F headDim gc).forward F positions =
        (makeRoPEProvider F (halfDim * 2) gc).forward F positions := by
    intro F positions
    rw [ssdRope_eq, makeRoPEProvider_eq, hcols]
    refine RotaryTable.forward_congr (fun i hi u pos => ?_) positions
    obtain ⟨hdim, hneutral⟩ := hrest.resolve_left (by omega)
    have hpower : columnPower F (gc.ropeScaling.dim halfDim) gc.ropeTheta i =
        columnPower F headDim gc.ropeTheta i := by
      rcases hdim with hdim | hone
      · rw [hdim]
      · obtain rfl : i = 0 := by omega
        simp [columnPower]
    rw [hpower, hneutral.scaleOf]
    rcases eq_or_ne (columnPower F headDim gc.ropeTheta i) 0 with hzero | hne
    · -- neither row has a number there
      rw [hzero, apply_of_not_isFinite _ fun h => h.of_mul.2.of_div_fin.2 rfl,
        apply_of_not_isFinite _ fun h => gc.ropeScaling.freq_zero i h.of_mul.2]
    · rw [hneutral.freq hi hne, fin_div_fin hne]
  exact ⟨fun F _ _ _ => hforward F _, fun F _ _ _ => hforward F _⟩

end Tables

end Geniex
