import Geniex.Lib.Rounding
import Mathlib.Data.Nat.Bitwise
import Mathlib.Order.WithBot

/-!
# Half precision

`floatToHalf` and `halfToFloat`, on bit patterns. The magnitude of a pattern is that of its bits
without the sign; a half counts in units of `2 ^ -24`, a float in units of `2 ^ -149`.
-/

namespace Geniex

open Rounding

/-! ## The conversions -/

/-- `floatToHalf`, on the bits of the float. -/
def floatToHalf (x : UInt32) : UInt16 :=
  let sign : UInt32 := (x >>> 16) &&& 0x8000
  let exp : ℤ := ((x >>> 23) &&& 0xFF).toNat - 127 + 15
  let mant : UInt32 := x &&& 0x7FFFFF
  if 31 ≤ exp then (sign ||| 0x7C00).toUInt16
  else if exp ≤ 0 then
    if exp < -10 then sign.toUInt16
    else
      let m := mant ||| 0x800000
      let shift : UInt32 := UInt32.ofNat (14 - exp).toNat
      let half : UInt32 := 1 <<< (shift - 1)
      let q := m >>> shift
      let q := if m &&& half ≠ 0 ∧ (m &&& (half - 1) ≠ 0 ∨ q &&& 1 ≠ 0) then q + 1 else q
      (sign ||| q).toUInt16
  else
    let q := (UInt32.ofNat exp.toNat <<< 10) ||| (mant >>> 13)
    let q := q ||| sign
    let q := if mant &&& 0x1000 ≠ 0 ∧ (mant &&& 0x0FFF ≠ 0 ∨ q &&& 1 ≠ 0) then q + 1 else q
    q.toUInt16

/-- The loop of `halfToFloat` that normalizes a subnormal mantissa; it runs at most ten times. -/
def normalizeHalf : ℕ → UInt32 → ℤ → UInt32 × ℤ
  | 0, mant, e => (mant, e)
  | fuel + 1, mant, e =>
    let mant := mant <<< 1
    let e := e + 1
    if mant &&& 0x400 = 0 then normalizeHalf fuel mant e else (mant, e)

/-- `halfToFloat`, as the bits of the float. -/
def halfToFloat (h : UInt16) : UInt32 :=
  let sign : UInt32 := (h &&& 0x8000).toUInt32 <<< 16
  let exp : UInt32 := ((h >>> 10) &&& 0x1F).toUInt32
  let mant : UInt32 := (h &&& 0x3FF).toUInt32
  if exp = 0 then
    if mant = 0 then sign
    else
      let (mant, e) := normalizeHalf 10 mant (-1)
      let mant := mant &&& 0x3FF
      sign ||| (UInt32.ofNat (127 - 15 - e).toNat <<< 23) ||| (mant <<< 13)
  else if exp = 31 then sign ||| (0x7F800000 : UInt32) ||| (mant <<< 13)
  else sign ||| ((exp - 15 + 127) <<< 23) ||| (mant <<< 13)

/-! ## Bits as numbers -/

theorem or_eq_add {k a b : ℕ} (hb : b < 2 ^ k) : 2 ^ k * a ||| b = 2 ^ k * a + b :=
  (Nat.two_pow_add_eq_or_of_lt hb a).symm

/-- The bit below what is kept, and the bits below it, say whether to round up. -/
theorem roundsUp_iff (n k q : ℕ) :
    (n &&& 2 ^ k ≠ 0 ∧ (n &&& (2 ^ k - 1) ≠ 0 ∨ q &&& 1 ≠ 0)) ↔ RoundsUp n (k + 1) q := by
  have hpos : 0 < 2 ^ k := Nat.two_pow_pos k
  have hbit : n &&& 2 ^ k = n / 2 ^ k % 2 * 2 ^ k := by
    rw [Nat.and_two_pow, Nat.toNat_testBit]
  have hmod : n % 2 ^ (k + 1) = n % 2 ^ k + 2 ^ k * (n / 2 ^ k % 2) := by
    rw [pow_succ, Nat.mod_mul]
  have hlt : n % 2 ^ k < 2 ^ k := Nat.mod_lt _ hpos
  unfold RoundsUp
  rw [hbit, Nat.and_two_pow_sub_one_eq_mod, Nat.and_one_is_mod, hmod, Nat.add_sub_cancel,
    Nat.even_iff]
  obtain h | h : n / 2 ^ k % 2 = 0 ∨ n / 2 ^ k % 2 = 1 := by omega
  · rw [h]
    omega
  · rw [h]
    omega

/-- The number that rounding keeps of a number whose last `s` bits are dropped. -/
def roundShift (n s : ℕ) : ℕ := if RoundsUp n s (n / 2 ^ s) then n / 2 ^ s + 1 else n / 2 ^ s

/-- The magnitude of the half that a float of magnitude `w` becomes. -/
def roundMag (w : ℕ) : ℕ :=
  let e := w / 2 ^ 23
  if 143 ≤ e then 0x7C00
  else if e < 102 then 0
  else if e ≤ 112 then roundShift (2 ^ 23 + w % 2 ^ 23) (126 - e)
  else roundShift (w - 112 * 2 ^ 23) 13

section Float

variable (x : UInt32)

theorem sign32_toNat : ((x >>> 16) &&& 0x8000).toNat = 2 ^ 15 * (x.toNat / 2 ^ 31) := by
  have hlt := x.toNat_lt
  rw [UInt32.toNat_and, UInt32.toNat_shiftRight]
  show (x.toNat >>> 16) &&& 2 ^ 15 = _
  rw [Nat.and_two_pow, Nat.toNat_testBit, Nat.shiftRight_eq_div_pow]
  omega

theorem exp32_toNat : ((x >>> 23) &&& 0xFF).toNat = x.toNat % 2 ^ 31 / 2 ^ 23 := by
  rw [UInt32.toNat_and, UInt32.toNat_shiftRight]
  show (x.toNat >>> 23) &&& (2 ^ 8 - 1) = _
  rw [Nat.and_two_pow_sub_one_eq_mod, Nat.shiftRight_eq_div_pow]
  omega

theorem mant32_toNat : (x &&& 0x7FFFFF).toNat = x.toNat % 2 ^ 31 % 2 ^ 23 := by
  rw [UInt32.toNat_and]
  show x.toNat &&& (2 ^ 23 - 1) = _
  rw [Nat.and_two_pow_sub_one_eq_mod]
  omega

end Float

theorem ne_zero_iff_toNat (x : UInt32) : x ≠ 0 ↔ x.toNat ≠ 0 := by
  rw [ne_eq, ← UInt32.toNat_inj, UInt32.toNat_zero]

/-- The guard and sticky test, on `uint32_t`. -/
theorem roundsUp32_iff {n half q : UInt32} {k : ℕ} (hhalf : half.toNat = 2 ^ k) :
    (n &&& half ≠ 0 ∧ (n &&& (half - 1) ≠ 0 ∨ q &&& 1 ≠ 0)) ↔
      RoundsUp n.toNat (k + 1) q.toNat := by
  have hle : (1 : UInt32) ≤ half := by
    rw [UInt32.le_iff_toNat_le, hhalf]
    exact Nat.one_le_two_pow
  rw [ne_zero_iff_toNat, ne_zero_iff_toNat, ne_zero_iff_toNat, UInt32.toNat_and,
    UInt32.toNat_and, UInt32.toNat_and, UInt32.toNat_sub_of_le _ _ hle, hhalf]
  exact roundsUp_iff n.toNat k q.toNat

theorem toNat_ite_succ {c : Prop} [Decidable c] {q : UInt32} (hq : q.toNat < 2 ^ 31) :
    (if c then q + 1 else q).toNat = if c then q.toNat + 1 else q.toNat := by
  split_ifs
  · rw [UInt32.toNat_add]
    exact Nat.mod_eq_of_lt (by show q.toNat + 1 < _; omega)
  · rfl

/-- Rounding up depends on the dropped bits and on the parity of what is kept. -/
theorem RoundsUp.congr {n n' s q q' : ℕ} (hn : n % 2 ^ s = n' % 2 ^ s) (hq : q % 2 = q' % 2) :
    RoundsUp n s q ↔ RoundsUp n' s q' := by
  unfold RoundsUp
  rw [hn, Nat.even_iff, Nat.even_iff, hq]

theorem roundShift_le (n s : ℕ) : roundShift n s ≤ n / 2 ^ s + 1 := by
  unfold roundShift
  split_ifs <;> omega

/-- A sign bit above fifteen bits. -/
theorem toUInt16_sign {x : UInt32} {s q : ℕ} (hx : x.toNat = 2 ^ 15 * s + q) (hs : s < 2)
    (hq : q < 2 ^ 15) : x.toUInt16.toNat = 2 ^ 15 * s + q := by
  rw [UInt32.toNat_toUInt16, hx]
  exact Nat.mod_eq_of_lt (by omega)

theorem toNat_shiftRight32 (x : UInt32) {k : ℕ} (hk : k < 32) :
    (x >>> UInt32.ofNat k).toNat = x.toNat / 2 ^ k := by
  rw [UInt32.toNat_shiftRight, UInt32.toNat_ofNat', Nat.mod_eq_of_lt (show k < 2 ^ 32 by omega),
    Nat.mod_eq_of_lt hk, Nat.shiftRight_eq_div_pow]

theorem toNat_one_shiftLeft32 {k : ℕ} (hk : k < 31) :
    ((1 : UInt32) <<< (UInt32.ofNat (k + 1) - 1)).toNat = 2 ^ k := by
  have hsub : (UInt32.ofNat (k + 1) - 1).toNat = k := by
    have hle : (1 : UInt32) ≤ UInt32.ofNat (k + 1) := by
      rw [UInt32.le_iff_toNat_le, UInt32.toNat_ofNat', Nat.mod_eq_of_lt (by omega)]
      exact Nat.le_add_left 1 k
    rw [UInt32.toNat_sub_of_le _ _ hle, UInt32.toNat_ofNat', Nat.mod_eq_of_lt (by omega)]
    rfl
  rw [UInt32.toNat_shiftLeft, hsub, Nat.mod_eq_of_lt (show k < 32 by omega), UInt32.toNat_one,
    Nat.one_shiftLeft]
  exact Nat.mod_eq_of_lt (Nat.pow_lt_pow_right Nat.one_lt_two (by omega))

/-- A sign and a magnitude. -/
theorem toNat_or_sign {sign y : UInt32} {s : ℕ} (hsign : sign.toNat = 2 ^ 15 * s)
    (hy : y.toNat < 2 ^ 15) : (sign ||| y).toNat = 2 ^ 15 * s + y.toNat := by
  rw [UInt32.toNat_or, hsign, or_eq_add hy]

/-- A half without an implicit bit: the mantissa is shifted by `k + 1` and rounded. -/
theorem subnormal_toNat {sign m : UInt32} {s k : ℕ} (hsign : sign.toNat = 2 ^ 15 * s) (hs : s < 2)
    (hm : m.toNat < 2 ^ 24) (hk : 13 ≤ k ∧ k < 24) :
    (sign ||| if m &&& 1 <<< (UInt32.ofNat (k + 1) - 1) ≠ 0 ∧
          (m &&& (1 <<< (UInt32.ofNat (k + 1) - 1) - 1) ≠ 0 ∨ m >>> UInt32.ofNat (k + 1) &&& 1 ≠ 0)
        then m >>> UInt32.ofNat (k + 1) + 1 else m >>> UInt32.ofNat (k + 1)).toUInt16.toNat =
      2 ^ 15 * s + roundShift m.toNat (k + 1) := by
  have hround := roundShift_le m.toNat (k + 1)
  have hqlt : m.toNat / 2 ^ (k + 1) < 2 ^ 10 := by
    rw [Nat.div_lt_iff_lt_mul (Nat.two_pow_pos _)]
    have hpow : 2 ^ 14 ≤ 2 ^ (k + 1) := Nat.pow_le_pow_right (by decide) (by omega)
    omega
  have hq := toNat_shiftRight32 m (k := k + 1) (by omega)
  have hcond := roundsUp32_iff (n := m) (q := m >>> UInt32.ofNat (k + 1))
    (toNat_one_shiftLeft32 (k := k) (by omega))
  rw [hq] at hcond
  generalize m >>> UInt32.ofNat (k + 1) = q at hq hcond ⊢
  have hval := toNat_ite_succ (c := RoundsUp m.toNat (k + 1) (m.toNat / 2 ^ (k + 1)))
    (q := q) (by omega)
  rw [hq] at hval
  simp only [hcond]
  have hres := toNat_or_sign hsign (hval.trans_lt (hround.trans_lt (by omega)))
  rw [hval] at hres
  exact toUInt16_sign hres hs (hround.trans_lt (by omega))

/-- A half with an implicit bit: its exponent `e` and its mantissa, rounded together. A carry out of
the mantissa raises the exponent. -/
theorem normal_toNat {sign mant : UInt32} {s e r : ℕ} (hsign : sign.toNat = 2 ^ 15 * s)
    (hs : s < 2) (hmant : mant.toNat = r) (hr : r < 2 ^ 23) (he : 1 ≤ e ∧ e < 31) :
    (if mant &&& 0x1000 ≠ 0 ∧ (mant &&& 0x0FFF ≠ 0 ∨
          (UInt32.ofNat e <<< 10 ||| mant >>> 13 ||| sign) &&& 1 ≠ 0)
        then (UInt32.ofNat e <<< 10 ||| mant >>> 13 ||| sign) + 1
        else UInt32.ofNat e <<< 10 ||| mant >>> 13 ||| sign).toUInt16.toNat =
      2 ^ 15 * s + roundShift (e * 2 ^ 23 + r) 13 := by
  have hq : (UInt32.ofNat e <<< 10 ||| mant >>> 13 ||| sign).toNat =
      2 ^ 15 * s + (e * 2 ^ 10 + r / 2 ^ 13) := by
    rw [UInt32.toNat_or, UInt32.toNat_or, UInt32.toNat_shiftLeft, UInt32.toNat_shiftRight,
      UInt32.toNat_ofNat', hmant, hsign]
    show (e % 2 ^ 32) <<< 10 % 2 ^ 32 ||| r >>> 13 ||| _ = _
    rw [Nat.mod_eq_of_lt (by omega), Nat.shiftLeft_eq, Nat.mod_eq_of_lt (by omega),
      Nat.shiftRight_eq_div_pow, Nat.mul_comm e, or_eq_add (by omega), Nat.or_comm,
      or_eq_add (by omega)]
  have hdiv : (e * 2 ^ 23 + r) / 2 ^ 13 = e * 2 ^ 10 + r / 2 ^ 13 := by omega
  have hround := roundShift_le (e * 2 ^ 23 + r) 13
  have hlow : mant.toNat % 2 ^ (12 + 1) = (e * 2 ^ 23 + r) % 2 ^ (12 + 1) := by
    rw [hmant]
    omega
  have hodd : (UInt32.ofNat e <<< 10 ||| mant >>> 13 ||| sign).toNat % 2 =
      (e * 2 ^ 23 + r) / 2 ^ 13 % 2 := by
    rw [hq]
    omega
  have hcond := (roundsUp32_iff (n := mant) (q := UInt32.ofNat e <<< 10 ||| mant >>> 13 ||| sign)
    (show (0x1000 : UInt32).toNat = 2 ^ 12 from rfl)).trans (RoundsUp.congr hlow hodd)
  generalize UInt32.ofNat e <<< 10 ||| mant >>> 13 ||| sign = q at hq hcond ⊢
  have hval := toNat_ite_succ (c := RoundsUp (e * 2 ^ 23 + r) 13 ((e * 2 ^ 23 + r) / 2 ^ 13))
    (q := q) (by omega)
  simp only [show (0x0FFF : UInt32) = 0x1000 - 1 from rfl, hcond]
  refine toUInt16_sign (hval.trans ?_) hs (by omega)
  unfold roundShift
  split_ifs <;> omega

/-- `floatToHalf` keeps the sign and rounds the magnitude. -/
theorem floatToHalf_toNat (x : UInt32) : (floatToHalf x).toNat =
    2 ^ 15 * (x.toNat / 2 ^ 31) + roundMag (x.toNat % 2 ^ 31) := by
  have hsign := sign32_toNat x
  have hexp := exp32_toNat x
  have hmant := mant32_toNat x
  have hs : x.toNat / 2 ^ 31 < 2 := by
    have hlt := x.toNat_lt
    omega
  have hw : x.toNat % 2 ^ 31 < 2 ^ 31 := Nat.mod_lt _ (by decide)
  unfold floatToHalf
  generalize (x >>> 16) &&& 0x8000 = sign at hsign ⊢
  generalize (x >>> 23) &&& 0xFF = exp at hexp ⊢
  generalize x &&& 0x7FFFFF = mant at hmant ⊢
  generalize x.toNat / 2 ^ 31 = s at hsign hs ⊢
  generalize x.toNat % 2 ^ 31 = w at hexp hmant hw ⊢
  have hm : w % 2 ^ 23 < 2 ^ 23 := Nat.mod_lt _ (by decide)
  unfold roundMag
  rw [hexp]
  simp only
  by_cases hbig : 143 ≤ w / 2 ^ 23
  · rw [if_pos (by omega), if_pos hbig]
    exact toUInt16_sign (toNat_or_sign hsign (by decide)) hs (by decide)
  rw [if_neg (by omega), if_neg hbig]
  by_cases hsmall : w / 2 ^ 23 ≤ 112
  · rw [if_pos (by omega)]
    by_cases htiny : w / 2 ^ 23 < 102
    · rw [if_pos (by omega), if_pos htiny]
      exact toUInt16_sign hsign hs (by decide)
    · rw [if_neg (by omega), if_neg htiny, if_pos hsmall]
      have hshift : (14 - ((w / 2 ^ 23 : ℕ) - 127 + 15 : ℤ)).toNat = 125 - w / 2 ^ 23 + 1 := by
        omega
      have hm' : (mant ||| 0x800000).toNat = 2 ^ 23 + w % 2 ^ 23 := by
        rw [UInt32.toNat_or, hmant, Nat.or_comm]
        exact or_eq_add (a := 1) hm
      rw [hshift, show 126 - w / 2 ^ 23 = 125 - w / 2 ^ 23 + 1 by omega, ← hm']
      exact subnormal_toNat hsign hs (by omega) (by omega)
  · rw [if_neg (by omega), if_neg (show ¬ w / 2 ^ 23 < 102 by omega), if_neg hsmall]
    have hexp' : ((w / 2 ^ 23 : ℕ) - 127 + 15 : ℤ).toNat = w / 2 ^ 23 - 112 := by omega
    have hparts : w - 112 * 2 ^ 23 = (w / 2 ^ 23 - 112) * 2 ^ 23 + w % 2 ^ 23 := by omega
    rw [hexp', hparts]
    exact normal_toNat hsign hs hmant hm (by omega)

theorem sign16_toNat (h : UInt16) :
    ((h &&& 0x8000).toUInt32 <<< 16).toNat = 2 ^ 31 * (h.toNat / 2 ^ 15) := by
  have hlt := h.toNat_lt
  rw [UInt32.toNat_shiftLeft, UInt16.toNat_toUInt32, UInt16.toNat_and]
  show (h.toNat &&& 2 ^ 15) <<< 16 % 2 ^ 32 = _
  rw [Nat.and_two_pow, Nat.toNat_testBit, Nat.shiftLeft_eq]
  omega

theorem exp16_toNat (h : UInt16) :
    ((h >>> 10) &&& 0x1F).toUInt32.toNat = h.toNat % 2 ^ 15 / 2 ^ 10 := by
  rw [UInt16.toNat_toUInt32, UInt16.toNat_and, UInt16.toNat_shiftRight]
  show (h.toNat >>> 10) &&& (2 ^ 5 - 1) = _
  rw [Nat.and_two_pow_sub_one_eq_mod, Nat.shiftRight_eq_div_pow]
  omega

theorem mant16_toNat (h : UInt16) :
    (h &&& 0x3FF).toUInt32.toNat = h.toNat % 2 ^ 15 % 2 ^ 10 := by
  rw [UInt16.toNat_toUInt32, UInt16.toNat_and]
  show h.toNat &&& (2 ^ 10 - 1) = _
  rw [Nat.and_two_pow_sub_one_eq_mod]
  omega

/-- The loop stops at the shift that puts the leading one on the implicit bit. -/
theorem normalizeHalf_spec (fuel : ℕ) (mant : UInt32) (e : ℤ) (hlt : mant.toNat < 2 ^ 10)
    (hfuel : 2 ^ 10 ≤ mant.toNat * 2 ^ fuel) :
    ∃ k, 1 ≤ k ∧ k ≤ fuel ∧ (normalizeHalf fuel mant e).2 = e + k ∧
      (normalizeHalf fuel mant e).1.toNat = mant.toNat * 2 ^ k ∧
      2 ^ 10 ≤ mant.toNat * 2 ^ k ∧ mant.toNat * 2 ^ k < 2 ^ 11 := by
  induction fuel generalizing mant e with
  | zero =>
    rw [pow_zero, Nat.mul_one] at hfuel
    omega
  | succ fuel ih =>
    have hshift : (mant <<< 1).toNat = mant.toNat * 2 := by
      rw [UInt32.toNat_shiftLeft]
      show mant.toNat <<< 1 % 2 ^ 32 = _
      rw [Nat.shiftLeft_eq]
      omega
    have hbit : mant <<< 1 &&& 0x400 = 0 ↔ mant.toNat * 2 < 2 ^ 10 := by
      rw [← UInt32.toNat_inj, UInt32.toNat_and, hshift]
      show mant.toNat * 2 &&& 2 ^ 10 = 0 ↔ _
      rw [Nat.and_two_pow, Nat.toNat_testBit]
      omega
    unfold normalizeHalf
    simp only
    split_ifs with h
    · have hlt' := hbit.mp h
      obtain ⟨k, hk, hkf, he, hm, hlow, hup⟩ := ih (mant <<< 1) (e + 1) (by omega)
        (by rw [hshift, Nat.mul_assoc, ← pow_succ']; exact hfuel)
      rw [hshift, Nat.mul_assoc, ← pow_succ'] at hm hlow hup
      exact ⟨k + 1, by omega, by omega, by rw [he]; push_cast; ring, hm, hlow, hup⟩
    · refine ⟨1, le_rfl, by omega, rfl, hshift, ?_, ?_⟩
      · have hge := hbit.not.mp h
        omega
      · omega

/-- The three fields of a float. -/
theorem fields_toNat {sign mant : UInt32} {s e r : ℕ} (hsign : sign.toNat = 2 ^ 31 * s)
    (exp : UInt32) (hexp : exp.toNat = e) (he : e < 2 ^ 8) (hmant : mant.toNat = r)
    (hr : r < 2 ^ 10) :
    (sign ||| exp <<< 23 ||| mant <<< 13).toNat = 2 ^ 31 * s + (e * 2 ^ 23 + r * 2 ^ 13) := by
  rw [UInt32.toNat_or, UInt32.toNat_or, UInt32.toNat_shiftLeft, UInt32.toNat_shiftLeft, hsign,
    hexp, hmant]
  show 2 ^ 31 * s ||| e <<< 23 % 2 ^ 32 ||| r <<< 13 % 2 ^ 32 = _
  rw [Nat.shiftLeft_eq, Nat.shiftLeft_eq, Nat.mod_eq_of_lt (by omega), Nat.mod_eq_of_lt (by omega),
    or_eq_add (by omega), show 2 ^ 31 * s + e * 2 ^ 23 = 2 ^ 23 * (2 ^ 8 * s + e) by ring,
    or_eq_add (by omega)]
  ring

/-- `halfToFloat` keeps the sign and the magnitude of a finite half. -/
theorem halfToFloat_finite (h : UInt16) (hfin : h.toNat % 2 ^ 15 < 31 * 2 ^ 10) :
    ∃ w < 255 * 2 ^ 23, (halfToFloat h).toNat = 2 ^ 31 * (h.toNat / 2 ^ 15) + w ∧
      floatMag 23 w = floatMag 10 (h.toNat % 2 ^ 15) * 2 ^ 125 := by
  have hsign := sign16_toNat h
  have hexp := exp16_toNat h
  have hmant := mant16_toNat h
  have hs : h.toNat / 2 ^ 15 < 2 := by
    have hlt := h.toNat_lt
    omega
  unfold halfToFloat
  generalize (h &&& 0x8000).toUInt32 <<< 16 = sign at hsign ⊢
  generalize ((h >>> 10) &&& 0x1F).toUInt32 = exp at hexp ⊢
  generalize (h &&& 0x3FF).toUInt32 = mant at hmant ⊢
  generalize h.toNat / 2 ^ 15 = s at hsign hs ⊢
  generalize h.toNat % 2 ^ 15 = p at hexp hmant hfin ⊢
  have hparts : p = p / 2 ^ 10 * 2 ^ 10 + p % 2 ^ 10 := (Nat.div_add_mod' p (2 ^ 10)).symm
  have hr : p % 2 ^ 10 < 2 ^ 10 := Nat.mod_lt _ (by decide)
  have hexp0 : exp = 0 ↔ p / 2 ^ 10 = 0 := by rw [← UInt32.toNat_inj, hexp, UInt32.toNat_zero]
  have hmant0 : mant = 0 ↔ p % 2 ^ 10 = 0 := by rw [← UInt32.toNat_inj, hmant, UInt32.toNat_zero]
  have hexp31 : exp ≠ 31 := by
    rw [ne_eq, ← UInt32.toNat_inj, hexp]
    show ¬ _ = 31
    omega
  simp only [hexp0, hmant0]
  split_ifs with he hm
  · refine ⟨0, by decide, hsign, ?_⟩
    rw [hparts, he, hm]
    decide
  · -- a subnormal half
    have hp : mant.toNat = p := by omega
    obtain ⟨k, hk1, hk10, hek, hmk, hlow, hup⟩ := normalizeHalf_spec 10 mant (-1) (by omega)
      (Nat.le_mul_of_pos_left _ (by omega))
    rw [hp] at hmk hlow hup
    have hmask : ((normalizeHalf 10 mant (-1)).1 &&& 0x3FF).toNat = p * 2 ^ k - 2 ^ 10 := by
      rw [UInt32.toNat_and, hmk]
      show _ &&& (2 ^ 10 - 1) = _
      rw [Nat.and_two_pow_sub_one_eq_mod]
      omega
    have hexp' : (UInt32.ofNat (127 - 15 - (normalizeHalf 10 mant (-1)).2).toNat).toNat =
        113 - k := by
      rw [hek, UInt32.toNat_ofNat', Nat.mod_eq_of_lt (by omega)]
      omega
    refine ⟨_, ?_, fields_toNat hsign _ hexp' (by omega) hmask (by omega), ?_⟩
    · omega
    · rw [floatMag_normal (by omega) (by omega), floatMag_subnormal (by omega)]
      have hsum : 2 ^ 23 + (p * 2 ^ k - 2 ^ 10) * 2 ^ 13 = p * 2 ^ k * 2 ^ 13 := by omega
      have hpow : 2 ^ k * (2 ^ 13 * 2 ^ (113 - k - 1)) = 2 ^ 125 := by
        have hexps : k + (13 + (113 - k - 1)) = 125 := by omega
        rw [← pow_add, ← pow_add, hexps]
      rw [hsum, Nat.mul_assoc (p * 2 ^ k), Nat.mul_assoc p, hpow]
  · -- a normal half
    have hle : (15 : UInt32).toNat = 15 := rfl
    have hexp' : (exp - 15 + 127).toNat = p / 2 ^ 10 + 112 := by
      rw [UInt32.toNat_add, UInt32.toNat_sub, hexp]
      show ((2 ^ 32 - 15 + _) % 2 ^ 32 + 127) % 2 ^ 32 = _
      omega
    refine ⟨_, ?_, fields_toNat hsign _ hexp' (by omega) hmant hr, ?_⟩
    · omega
    · have hmag : floatMag 10 p = (2 ^ 10 + p % 2 ^ 10) * 2 ^ (p / 2 ^ 10 - 1) := by
        rw [← floatMag_normal (by omega) hr, ← hparts]
      obtain ⟨k, hk⟩ := Nat.exists_eq_succ_of_ne_zero he
      rw [floatMag_normal (by omega) (by omega), hmag, hk]
      show _ * 2 ^ (k + 112) = _ * 2 ^ k * _
      ring

/-- `halfToFloat` maps infinities to infinities. -/
theorem halfToFloat_infinite (h : UInt16) (hinf : h.toNat % 2 ^ 15 = 31 * 2 ^ 10) :
    (halfToFloat h).toNat = 2 ^ 31 * (h.toNat / 2 ^ 15) + 255 * 2 ^ 23 := by
  have hsign := sign16_toNat h
  have hexp := exp16_toNat h
  have hmant := mant16_toNat h
  unfold halfToFloat
  generalize (h &&& 0x8000).toUInt32 <<< 16 = sign at hsign ⊢
  generalize ((h >>> 10) &&& 0x1F).toUInt32 = exp at hexp ⊢
  generalize (h &&& 0x3FF).toUInt32 = mant at hmant ⊢
  rw [hinf] at hexp hmant
  obtain rfl : exp = 31 := UInt32.toNat_inj.mp hexp
  obtain rfl : mant = 0 := UInt32.toNat_inj.mp hmant
  show (sign ||| (0x7F800000 : UInt32) ||| (0 : UInt32) <<< 13).toNat = _
  rw [UInt32.toNat_or, UInt32.toNat_or, hsign]
  show _ ||| 255 * 2 ^ 23 ||| 0 = _
  rw [Nat.or_zero, or_eq_add (by decide)]

/-! ## Rounding of magnitudes -/

/-- The magnitudes of the halves; from `0x7C00` on, those of an unbounded exponent. -/
def halfGrid (p : ℕ) : ℚ := floatMag 10 p / 2 ^ 24

/-- The magnitudes of the floats. -/
def floatGrid (w : ℕ) : ℚ := floatMag 23 w / 2 ^ 149

theorem halfGrid_strictMono : StrictMono halfGrid := by
  intro p p' h
  have hlt := floatMag_strictMono 10 h
  unfold halfGrid
  gcongr

theorem floatGrid_strictMono : StrictMono floatGrid := by
  intro w w' h
  have hlt := floatMag_strictMono 23 h
  unfold floatGrid
  gcongr

/-- A float in the cell of two halves rounds by the bits that are dropped. -/
theorem nearestEven_cell {w n s q j : ℕ} (hs : 0 < s)
    (hw : floatMag 23 w = floatMag 10 q * 2 ^ 125 + n % 2 ^ s * 2 ^ j)
    (hcell : floatMag 10 (q + 1) * 2 ^ 125 = floatMag 10 q * 2 ^ 125 + 2 ^ s * 2 ^ j) :
    NearestEven halfGrid (floatGrid w) (if RoundsUp n s q then q + 1 else q) := by
  have hwQ : (floatMag 23 w : ℚ) = floatMag 10 q * 2 ^ 125 + (n % 2 ^ s : ℕ) * 2 ^ j := by
    exact_mod_cast hw
  have hcellQ : (floatMag 10 (q + 1) : ℚ) * 2 ^ 125 = floatMag 10 q * 2 ^ 125 + 2 ^ s * 2 ^ j := by
    exact_mod_cast hcell
  apply nearestEven_roundsUp halfGrid_strictMono n hs (c := 2 ^ j / 2 ^ 149) (by positivity)
  · unfold floatGrid halfGrid
    rw [hwQ]
    ring
  · unfold halfGrid
    have hsplit : (floatMag 10 (q + 1) : ℚ) / 2 ^ 24 = floatMag 10 (q + 1) * 2 ^ 125 / 2 ^ 149 := by
      ring
    rw [hsplit, hcellQ]
    ring

/-- Below `2 ^ 16` the conversion rounds to nearest, ties to even. -/
theorem roundMag_nearest {w : ℕ} (hw : w < 143 * 2 ^ 23) :
    NearestEven halfGrid (floatGrid w) (roundMag w) := by
  have hparts : w = w / 2 ^ 23 * 2 ^ 23 + w % 2 ^ 23 := (Nat.div_add_mod' w (2 ^ 23)).symm
  have hr : w % 2 ^ 23 < 2 ^ 23 := Nat.mod_lt _ (by decide)
  have hE : w / 2 ^ 23 < 143 := by omega
  have hnormal : 0 < w / 2 ^ 23 →
      floatMag 23 w = (2 ^ 23 + w % 2 ^ 23) * 2 ^ (w / 2 ^ 23 - 1) := by
    intro hpos
    rw [← floatMag_normal hpos hr, ← hparts]
  unfold roundMag
  simp only
  rw [if_neg (by omega)]
  split_ifs with htiny hsub
  · -- below half of the least half
    have hlt : floatMag 23 w < 2 ^ 124 := by
      have hmono := floatMag_strictMono 23 (show w < 102 * 2 ^ 23 + 0 by omega)
      rwa [floatMag_normal (by decide) (by decide)] at hmono
    have hmod : floatMag 23 w % 2 ^ 125 = floatMag 23 w := Nat.mod_eq_of_lt (by omega)
    have hcell := nearestEven_cell (w := w) (n := floatMag 23 w) (s := 125) (q := 0) (j := 0)
      (by decide) (by rw [hmod, floatMag_subnormal (Nat.zero_le _)]; ring)
      (by rw [floatMag_subnormal (by decide), floatMag_subnormal (by decide)]; ring)
    rwa [if_neg] at hcell
    unfold RoundsUp
    rw [hmod]
    omega
  · -- a subnormal half
    have hpow : 2 ^ (126 - w / 2 ^ 23) * 2 ^ (w / 2 ^ 23 - 1) = 2 ^ 125 := by
      have hexps : 126 - w / 2 ^ 23 + (w / 2 ^ 23 - 1) = 125 := by omega
      rw [← pow_add, hexps]
    have hqlt : (2 ^ 23 + w % 2 ^ 23) / 2 ^ (126 - w / 2 ^ 23) < 2 ^ 10 := by
      rw [Nat.div_lt_iff_lt_mul (Nat.two_pow_pos _)]
      have hle : 2 ^ 14 ≤ 2 ^ (126 - w / 2 ^ 23) := Nat.pow_le_pow_right (by decide) (by omega)
      omega
    have hdm := Nat.div_add_mod' (2 ^ 23 + w % 2 ^ 23) (2 ^ (126 - w / 2 ^ 23))
    apply nearestEven_cell (by omega) (j := w / 2 ^ 23 - 1)
    · rw [hnormal (by omega), floatMag_subnormal hqlt.le, ← hpow, ← Nat.mul_assoc, ← Nat.add_mul,
        hdm]
    · rw [floatMag_subnormal (show _ + 1 ≤ 2 ^ 10 from hqlt), floatMag_subnormal hqlt.le, hpow]
      ring
  · -- a normal half
    obtain ⟨k, hk⟩ : ∃ k, w / 2 ^ 23 = k + 113 := ⟨w / 2 ^ 23 - 113, by omega⟩
    have hdm := Nat.div_add_mod' (w % 2 ^ 23) (2 ^ 13)
    have hq : (w - 112 * 2 ^ 23) / 2 ^ 13 = (k + 1) * 2 ^ 10 + w % 2 ^ 23 / 2 ^ 13 := by omega
    have hmod : (w - 112 * 2 ^ 23) % 2 ^ 13 = w % 2 ^ 23 % 2 ^ 13 := by omega
    have hlt : w % 2 ^ 23 / 2 ^ 13 < 2 ^ 10 := by omega
    have hw' := hnormal (by omega)
    unfold roundShift
    rw [hk, show k + 113 - 1 = k + 112 from rfl] at hw'
    apply nearestEven_cell (by decide) (j := k + 112)
    · rw [hw', hq, hmod, floatMag_normal (Nat.succ_pos k) hlt]
      show _ = _ * 2 ^ k * _ + _
      generalize w % 2 ^ 23 % 2 ^ 13 = b at hdm
      generalize w % 2 ^ 23 / 2 ^ 13 = a at hdm
      rw [← hdm]
      ring
    · have hqdiv : ((k + 1) * 2 ^ 10 + w % 2 ^ 23 / 2 ^ 13) / 2 ^ 10 - 1 = k := by omega
      rw [floatMag_succ, hq, hqdiv]
      ring

theorem halfGrid_infinity : halfGrid (31 * 2 ^ 10) = 2 ^ 16 := by
  unfold halfGrid
  rw [floatMag_binade (by decide)]
  norm_num

theorem floatGrid_infinity : floatGrid (143 * 2 ^ 23) = 2 ^ 16 := by
  unfold floatGrid
  rw [floatMag_binade (by decide)]
  norm_num

/-- The conversion never goes beyond infinity. -/
theorem roundMag_le (w : ℕ) : roundMag w ≤ 31 * 2 ^ 10 := by
  by_cases hw : w < 143 * 2 ^ 23
  · apply (roundMag_nearest hw).le halfGrid_strictMono
      (nearestEven_grid halfGrid_strictMono (31 * 2 ^ 10))
    rw [halfGrid_infinity, ← floatGrid_infinity]
    exact (floatGrid_strictMono hw).le
  · unfold roundMag
    exact (if_pos (by omega)).le

/-- The conversion of magnitudes is monotone. -/
theorem roundMag_mono : Monotone roundMag := by
  intro w w' h
  by_cases hw : w' < 143 * 2 ^ 23
  · exact (roundMag_nearest (h.trans_lt hw)).le halfGrid_strictMono (roundMag_nearest hw)
      (floatGrid_strictMono.monotone h)
  · apply (roundMag_le w).trans
    unfold roundMag
    exact (if_pos (by omega)).ge

/-- The conversion overflows from `65520` on. -/
theorem roundMag_overflow_iff (w : ℕ) : roundMag w = 31 * 2 ^ 10 ↔ 65520 ≤ floatGrid w := by
  have hle := roundMag_le w
  by_cases hw : w < 143 * 2 ^ 23
  · have hodd := (roundMag_nearest hw).odd_lt_iff halfGrid_strictMono
      (q := 30 * 2 ^ 10 + 1023) (by decide)
    have hlast : halfGrid (30 * 2 ^ 10 + 1023) = 65504 := by
      unfold halfGrid
      rw [floatMag_normal (by decide) (by decide)]
      norm_num
    have hnext : halfGrid (30 * 2 ^ 10 + 1023 + 1) = 2 ^ 16 := halfGrid_infinity
    rw [hlast, hnext] at hodd
    constructor
    · intro h
      have hmid := hodd.mp (by omega)
      linarith
    · intro h
      have hlt := hodd.mpr (by linarith)
      omega
  · constructor
    · intro _
      have hmono := floatGrid_strictMono.monotone (not_lt.mp hw)
      rw [floatGrid_infinity] at hmono
      linarith
    · intro _
      unfold roundMag
      exact if_pos (by omega)

/-- A finite half of a magnitude is what its own float rounds to. -/
theorem roundMag_widened {w p : ℕ} (hp : p < 31 * 2 ^ 10)
    (hw : floatMag 23 w = floatMag 10 p * 2 ^ 125) : roundMag w = p := by
  have hgrid : floatGrid w = halfGrid p := by
    unfold floatGrid halfGrid
    rw [hw]
    push_cast
    ring
  have hlt : w < 143 * 2 ^ 23 := by
    apply (floatMag_strictMono 23).lt_iff_lt.mp
    have hmono := floatMag_strictMono 10 hp
    rw [floatMag_binade (by decide)] at hmono ⊢
    rw [hw]
    calc floatMag 10 p * 2 ^ 125 < 2 ^ 10 * 2 ^ (31 - 1) * 2 ^ 125 :=
          Nat.mul_lt_mul_of_pos_right hmono (Nat.two_pow_pos _)
      _ = 2 ^ 23 * 2 ^ (143 - 1) := by norm_num
  exact (roundMag_nearest hlt).unique halfGrid_strictMono
    (hgrid ▸ nearestEven_grid halfGrid_strictMono p)

/-! ## Signed values -/

/-- The factor of a sign bit. -/
def signFactor (s : ℕ) : ℚ := if s = 0 then 1 else -1

def FiniteHalf (h : UInt16) : Prop := h.toNat % 2 ^ 15 < 31 * 2 ^ 10

def InfiniteHalf (h : UInt16) : Prop := h.toNat % 2 ^ 15 = 31 * 2 ^ 10

def FiniteFloat (x : UInt32) : Prop := x.toNat % 2 ^ 31 < 255 * 2 ^ 23

def InfiniteFloat (x : UInt32) : Prop := x.toNat % 2 ^ 31 = 255 * 2 ^ 23

/-- The rational value of a finite half. -/
def halfValue (h : UInt16) : ℚ := signFactor (h.toNat / 2 ^ 15) * halfGrid (h.toNat % 2 ^ 15)

/-- The rational value of a finite float. -/
def floatValue (x : UInt32) : ℚ := signFactor (x.toNat / 2 ^ 31) * floatGrid (x.toNat % 2 ^ 31)

/-- The value of a magnitude and its sign, with an infinity from `top` on. -/
def extended (grid : ℕ → ℚ) (top s p : ℕ) : WithBot (WithTop ℚ) :=
  if p < top then ((signFactor s * grid p : ℚ) : WithTop ℚ) else if s = 0 then ⊤ else ⊥

/-- The value of a half that is not a NaN. -/
def halfExtended (h : UInt16) : WithBot (WithTop ℚ) :=
  extended halfGrid (31 * 2 ^ 10) (h.toNat / 2 ^ 15) (h.toNat % 2 ^ 15)

/-- The value of a float that is not a NaN. -/
def floatExtended (x : UInt32) : WithBot (WithTop ℚ) :=
  extended floatGrid (255 * 2 ^ 23) (x.toNat / 2 ^ 31) (x.toNat % 2 ^ 31)

theorem abs_signFactor (s : ℕ) : |signFactor s| = 1 := by
  unfold signFactor
  split_ifs <;> simp

@[simp] theorem halfGrid_zero : halfGrid 0 = 0 := by simp [halfGrid, floatMag]

@[simp] theorem floatGrid_zero : floatGrid 0 = 0 := by simp [floatGrid, floatMag]

theorem halfGrid_nonneg (p : ℕ) : 0 ≤ halfGrid p := by
  unfold halfGrid
  positivity

theorem floatGrid_nonneg (w : ℕ) : 0 ≤ floatGrid w := by
  unfold floatGrid
  positivity

/-- A bit pattern as an integer in the order of the values. -/
def signedBits (s p : ℕ) : ℤ := if s = 0 then p else -p

section Extended

variable {grid : ℕ → ℚ} (hgrid : StrictMono grid) (hzero : grid 0 = 0) {top s s' p p' : ℕ}

include hgrid hzero

/-- Signed magnitudes are ordered as their bits are. -/
theorem signed_le_iff : signFactor s * grid p ≤ signFactor s' * grid p' ↔
    signedBits s p ≤ signedBits s' p' := by
  have hnonneg : ∀ q, 0 ≤ grid q := fun q => hzero ▸ hgrid.monotone (Nat.zero_le q)
  have hpos : ∀ q, grid q ≤ 0 ↔ q = 0 := fun q => by
    rw [← hzero, hgrid.le_iff_le, Nat.le_zero]
  have hp := hnonneg p
  have hp' := hnonneg p'
  unfold signFactor signedBits
  split_ifs
  · rw [one_mul, one_mul, hgrid.le_iff_le, Nat.cast_le]
  · have h := hpos p
    have h' := hpos p'
    constructor
    · intro hle
      have h0 := h.mp (by linarith)
      have h0' := h'.mp (by linarith)
      omega
    · intro hle
      have h0 := h.mpr (by omega)
      have h0' := h'.mpr (by omega)
      linarith
  · constructor
    · intro _
      omega
    · intro _
      linarith
  · rw [neg_one_mul, neg_one_mul, neg_le_neg_iff, hgrid.le_iff_le, neg_le_neg_iff, Nat.cast_le]

/-- So are the values with the infinities. -/
theorem extended_le_iff (hp : p ≤ top) (hp' : p' ≤ top) (htop : 0 < top) :
    extended grid top s p ≤ extended grid top s' p' ↔ signedBits s p ≤ signedBits s' p' := by
  unfold extended
  obtain hlt | rfl := hp.lt_or_eq
  · rw [if_pos hlt]
    obtain hlt' | rfl := hp'.lt_or_eq
    · rw [if_pos hlt', WithBot.coe_le_coe, WithTop.coe_le_coe]
      exact signed_le_iff hgrid hzero
    · rw [if_neg (lt_irrefl _)]
      unfold signedBits
      split_ifs
      · exact iff_of_true le_top (by omega)
      · exact iff_of_true le_top (by omega)
      · exact iff_of_false (fun h => WithBot.coe_ne_bot (le_bot_iff.mp h)) (by omega)
      · exact iff_of_false (fun h => WithBot.coe_ne_bot (le_bot_iff.mp h)) (by omega)
  · rw [if_neg (lt_irrefl _)]
    obtain hlt' | rfl := hp'.lt_or_eq
    · rw [if_pos hlt']
      unfold signedBits
      split_ifs
      · exact iff_of_false (not_le_of_gt (WithBot.coe_lt_coe.mpr (WithTop.coe_lt_top _))) (by omega)
      · exact iff_of_false (not_le_of_gt (WithBot.coe_lt_coe.mpr (WithTop.coe_lt_top _))) (by omega)
      · exact iff_of_true bot_le (by omega)
      · exact iff_of_true bot_le (by omega)
    · rw [if_neg (lt_irrefl _)]
      unfold signedBits
      split_ifs
      · exact iff_of_true le_rfl le_rfl
      · exact iff_of_false (by simp) (by omega)
      · exact iff_of_true bot_le (by omega)
      · exact iff_of_true le_rfl le_rfl

end Extended

/-- A monotone function of magnitudes that keeps zero is monotone on signed ones. -/
theorem signedBits_mono {f : ℕ → ℕ} (hf : Monotone f) (h0 : f 0 = 0) {s s' w w' : ℕ}
    (h : signedBits s w ≤ signedBits s' w') : signedBits s (f w) ≤ signedBits s' (f w') := by
  unfold signedBits at h ⊢
  split_ifs at h ⊢
  · have hle := hf (show w ≤ w' by omega)
    omega
  · have hw : w = 0 := by omega
    have hw' : w' = 0 := by omega
    rw [hw, hw', h0]
    rfl
  · omega
  · have hle := hf (show w' ≤ w by omega)
    omega

/-- The nearest magnitude, with the sign of the value, is the nearest of all signed ones. -/
theorem signed_nearest {a : ℚ} (ha : 0 ≤ a) {p : ℕ} (hp : NearestEven halfGrid a p) (s s' p' : ℕ) :
    |signFactor s * a - signFactor s * halfGrid p| ≤
        |signFactor s * a - signFactor s' * halfGrid p'| ∧
      (signFactor s' * halfGrid p' ≠ signFactor s * halfGrid p →
        |signFactor s * a - signFactor s' * halfGrid p'| =
          |signFactor s * a - signFactor s * halfGrid p| → Even p) := by
  have hown : |signFactor s * a - signFactor s * halfGrid p| = |a - halfGrid p| := by
    rw [← mul_sub, abs_mul, abs_signFactor, one_mul]
  have hother : |a - halfGrid p'| ≤ |signFactor s * a - signFactor s' * halfGrid p'| := by
    have habs := abs_abs_sub_abs_le (signFactor s * a) (signFactor s' * halfGrid p')
    rwa [abs_mul, abs_mul, abs_signFactor, abs_signFactor, one_mul, one_mul, abs_of_nonneg ha,
      abs_of_nonneg (halfGrid_nonneg p')] at habs
  rw [hown]
  refine ⟨(hp.nearest p').trans hother, fun hne htie => ?_⟩
  rw [htie] at hother
  have heq := le_antisymm hother (hp.nearest p')
  by_cases hpp : p' = p
  swap
  · exact hp.even p' hpp heq
  · -- the same magnitude with the other sign is as near for zero only
    subst hpp
    have hg := halfGrid_nonneg p'
    have hz := hp.nearest 0
    rw [halfGrid_zero, sub_zero, abs_of_nonneg ha] at hz
    unfold signFactor at hne htie
    split_ifs at hne htie
    · exact absurd rfl hne
    · rw [show (-1 : ℚ) * a - 1 * halfGrid p' = -(a + halfGrid p') by ring, abs_neg,
        abs_of_nonneg (by linarith)] at htie
      rw [← htie] at hz
      have h0 : halfGrid p' = 0 := by linarith
      rw [h0] at hne
      simp at hne
    · rw [show (1 : ℚ) * a - -1 * halfGrid p' = a + halfGrid p' by ring,
        abs_of_nonneg (by linarith)] at htie
      rw [← htie] at hz
      have h0 : halfGrid p' = 0 := by linarith
      rw [h0] at hne
      simp at hne
    · exact absurd rfl hne

/-! ## The conversions are correctly rounded -/

theorem floatToHalf_sign (x : UInt32) : (floatToHalf x).toNat / 2 ^ 15 = x.toNat / 2 ^ 31 := by
  have hle := roundMag_le (x.toNat % 2 ^ 31)
  rw [floatToHalf_toNat]
  omega

theorem floatToHalf_mag (x : UInt32) :
    (floatToHalf x).toNat % 2 ^ 15 = roundMag (x.toNat % 2 ^ 31) := by
  have hle := roundMag_le (x.toNat % 2 ^ 31)
  rw [floatToHalf_toNat]
  omega

theorem abs_floatValue (x : UInt32) : |floatValue x| = floatGrid (x.toNat % 2 ^ 31) := by
  unfold floatValue
  rw [abs_mul, abs_signFactor, one_mul, abs_of_nonneg (floatGrid_nonneg _)]

/-- `floatToHalf` overflows from 65520 on. -/
theorem floatToHalf_overflow (x : UInt32) :
    InfiniteHalf (floatToHalf x) ↔ 65520 ≤ |floatValue x| := by
  unfold InfiniteHalf
  rw [abs_floatValue, floatToHalf_mag]
  exact roundMag_overflow_iff _

/-- Below 65520, `floatToHalf` takes the nearest finite half, and an even one on a tie. -/
theorem floatToHalf_nearest {x : UInt32} (hlt : |floatValue x| < 65520) :
    FiniteHalf (floatToHalf x) ∧ ∀ h, FiniteHalf h →
      |floatValue x - halfValue (floatToHalf x)| ≤ |floatValue x - halfValue h| ∧
      (halfValue h ≠ halfValue (floatToHalf x) →
        |floatValue x - halfValue h| = |floatValue x - halfValue (floatToHalf x)| →
        Even (floatToHalf x).toNat) := by
  have hinf := mt (floatToHalf_overflow x).mp (not_le.mpr hlt)
  have hle := roundMag_le (x.toNat % 2 ^ 31)
  refine ⟨?_, fun h _ => ?_⟩
  · unfold FiniteHalf
    unfold InfiniteHalf at hinf
    rw [floatToHalf_mag] at hinf ⊢
    exact lt_of_le_of_ne hle hinf
  · rw [abs_floatValue] at hlt
    have hw : x.toNat % 2 ^ 31 < 143 * 2 ^ 23 := by
      apply floatGrid_strictMono.lt_iff_lt.mp
      rw [floatGrid_infinity]
      linarith
    have hnear := signed_nearest (floatGrid_nonneg _) (roundMag_nearest hw) (x.toNat / 2 ^ 31)
      (h.toNat / 2 ^ 15) (h.toNat % 2 ^ 15)
    unfold floatValue halfValue
    rw [floatToHalf_sign, floatToHalf_mag]
    refine ⟨hnear.1, fun hne htie => ?_⟩
    have hev := hnear.2 hne htie
    rw [floatToHalf_toNat]
    exact Nat.even_add.mpr (iff_of_true (Nat.even_mul.mpr (Or.inl (by decide))) hev)

/-- `halfToFloat` keeps the value of a finite half. -/
theorem halfToFloat_exact {h : UInt16} (hh : FiniteHalf h) : FiniteFloat (halfToFloat h) ∧
    (halfToFloat h).toNat / 2 ^ 31 = h.toNat / 2 ^ 15 ∧
    floatValue (halfToFloat h) = halfValue h := by
  obtain ⟨w, hw, hbits, hmag⟩ := halfToFloat_finite h hh
  have hs : (halfToFloat h).toNat / 2 ^ 31 = h.toNat / 2 ^ 15 := by omega
  have hm : (halfToFloat h).toNat % 2 ^ 31 = w := by omega
  refine ⟨?_, hs, ?_⟩
  · unfold FiniteFloat
    rwa [hm]
  · unfold floatValue halfValue floatGrid halfGrid
    rw [hs, hm, hmag]
    push_cast
    ring

/-- A half comes back from a float. -/
theorem floatToHalf_halfToFloat {h : UInt16} (hh : FiniteHalf h ∨ InfiniteHalf h) :
    floatToHalf (halfToFloat h) = h := by
  apply UInt16.toNat_inj.mp
  rw [floatToHalf_toNat]
  have hlt := h.toNat_lt
  obtain hfin | hinf := hh
  · obtain ⟨w, hw, hbits, hmag⟩ := halfToFloat_finite h hfin
    have hround := roundMag_widened hfin hmag
    rw [show (halfToFloat h).toNat / 2 ^ 31 = h.toNat / 2 ^ 15 by omega,
      show (halfToFloat h).toNat % 2 ^ 31 = w by omega, hround]
    omega
  · have hbits := halfToFloat_infinite h hinf
    have hround : roundMag (255 * 2 ^ 23) = 31 * 2 ^ 10 := by decide
    rw [show (halfToFloat h).toNat / 2 ^ 31 = h.toNat / 2 ^ 15 by omega,
      show (halfToFloat h).toNat % 2 ^ 31 = 255 * 2 ^ 23 by omega, hround, ← hinf]
    omega

/-- `floatToHalf` keeps the order. -/
theorem floatToHalf_mono {x y : UInt32} (hx : FiniteFloat x ∨ InfiniteFloat x)
    (hy : FiniteFloat y ∨ InfiniteFloat y) (hle : floatExtended x ≤ floatExtended y) :
    halfExtended (floatToHalf x) ≤ halfExtended (floatToHalf y) := by
  unfold halfExtended
  unfold floatExtended at hle
  rw [extended_le_iff floatGrid_strictMono floatGrid_zero (hx.elim le_of_lt le_of_eq)
    (hy.elim le_of_lt le_of_eq) (by decide)] at hle
  rw [floatToHalf_sign, floatToHalf_sign, floatToHalf_mag, floatToHalf_mag,
    extended_le_iff halfGrid_strictMono halfGrid_zero (roundMag_le _) (roundMag_le _) (by decide)]
  exact signedBits_mono roundMag_mono (by decide) hle

/-- Conversion to half precision rounds to nearest, ties to even, with signed zeros and infinities;
conversion from it is exact; the two invert each other on halves; and the first is monotone. -/
theorem half_conversion :
    (∀ x, FiniteFloat x → (floatToHalf x).toNat / 2 ^ 15 = x.toNat / 2 ^ 31 ∧
      (65520 ≤ |floatValue x| → InfiniteHalf (floatToHalf x)) ∧
      (|floatValue x| < 65520 → FiniteHalf (floatToHalf x) ∧ ∀ h, FiniteHalf h →
        |floatValue x - halfValue (floatToHalf x)| ≤ |floatValue x - halfValue h| ∧
        (halfValue h ≠ halfValue (floatToHalf x) →
          |floatValue x - halfValue h| = |floatValue x - halfValue (floatToHalf x)| →
          Even (floatToHalf x).toNat))) ∧
    (∀ x, InfiniteFloat x → InfiniteHalf (floatToHalf x) ∧
      (floatToHalf x).toNat / 2 ^ 15 = x.toNat / 2 ^ 31) ∧
    (∀ h, FiniteHalf h → FiniteFloat (halfToFloat h) ∧
      (halfToFloat h).toNat / 2 ^ 31 = h.toNat / 2 ^ 15 ∧
      floatValue (halfToFloat h) = halfValue h) ∧
    (∀ h, FiniteHalf h ∨ InfiniteHalf h → floatToHalf (halfToFloat h) = h) ∧
    ∀ x y, FiniteFloat x ∨ InfiniteFloat x → FiniteFloat y ∨ InfiniteFloat y →
      floatExtended x ≤ floatExtended y →
      halfExtended (floatToHalf x) ≤ halfExtended (floatToHalf y) := by
  refine ⟨fun x _ => ⟨floatToHalf_sign x, (floatToHalf_overflow x).mpr, floatToHalf_nearest⟩,
    fun x hx => ⟨?_, floatToHalf_sign x⟩, fun _ => halfToFloat_exact,
    fun _ => floatToHalf_halfToFloat, fun _ _ => floatToHalf_mono⟩
  unfold InfiniteHalf
  rw [floatToHalf_mag, hx]
  decide

end Geniex
