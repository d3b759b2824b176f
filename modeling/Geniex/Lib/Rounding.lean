import Mathlib.Algebra.Order.Field.Basic
import Mathlib.Tactic

/-!
# Rounding to nearest, ties to even

A grid is a strictly increasing sequence of values; a value rounds to the index of the nearest
point, and to an even index from the middle of two points. `floatMag m` is the grid of the
magnitudes of a binary format with `m` mantissa bits, by bit pattern, in units of its least
positive one.
-/

namespace Rounding

variable {K : Type*} [Field K] [LinearOrder K] [IsStrictOrderedRing K]

/-- `p` is the index of the grid point nearest to `v`, the even one of two that are as near. -/
structure NearestEven (grid : ℕ → K) (v : K) (p : ℕ) : Prop where
  nearest : ∀ q, |v - grid p| ≤ |v - grid q|
  even : ∀ q, q ≠ p → |v - grid q| = |v - grid p| → Even p

variable {grid : ℕ → K} (hgrid : StrictMono grid) {v v' c : K} {p p' q s rem : ℕ}

include hgrid

/-- Two grid points on the same side of a value: the one farther away is farther. -/
theorem abs_sub_lt_of_le (hv : v ≤ grid p) (hq : p < q) : |v - grid p| < |v - grid q| := by
  have h := hgrid hq
  rw [abs_of_nonpos (by linarith), abs_of_nonpos (by linarith)]
  linarith

theorem abs_sub_lt_of_ge (hv : grid p ≤ v) (hq : q < p) : |v - grid p| < |v - grid q| := by
  have h := hgrid hq
  rw [abs_of_nonneg (by linarith), abs_of_nonneg (by linarith)]
  linarith

/-- A grid point rounds to itself. -/
theorem nearestEven_grid (p : ℕ) : NearestEven grid (grid p) p := by
  constructor
  · intro q
    rw [sub_self, abs_zero]
    exact abs_nonneg _
  · intro q hq h
    rw [sub_self, abs_zero, abs_eq_zero, sub_eq_zero] at h
    exact absurd (hgrid.injective h).symm hq

/-- The lower of two neighbours is nearest from below the middle, and from the middle if it is
even. -/
theorem nearestEven_low (hlow : grid q ≤ v) (hup : 2 * v ≤ grid q + grid (q + 1))
    (htie : 2 * v = grid q + grid (q + 1) → Even q) : NearestEven grid v q := by
  have hq := hgrid (Nat.lt_succ_self q)
  have hnear : |v - grid q| ≤ |v - grid (q + 1)| := by
    rw [abs_of_nonneg (by linarith), abs_of_nonpos (by linarith)]
    linarith
  have hfar : ∀ r, q + 1 < r → |v - grid (q + 1)| < |v - grid r| := fun r hr =>
    abs_sub_lt_of_le hgrid (by linarith) hr
  have hbelow : ∀ r, r < q → |v - grid q| < |v - grid r| := fun r hr =>
    abs_sub_lt_of_ge hgrid hlow hr
  constructor
  · intro r
    obtain hr | rfl | hr := lt_trichotomy r q
    · exact (hbelow r hr).le
    · exact le_rfl
    · obtain rfl | hr := (Nat.succ_le_of_lt hr).eq_or_lt
      · exact hnear
      · exact hnear.trans (hfar r hr).le
  · intro r hne h
    obtain hr | hr := lt_or_gt_of_ne hne
    · exact absurd h (hbelow r hr).ne'
    · obtain rfl | hr := (Nat.succ_le_of_lt hr).eq_or_lt
      · rw [abs_of_nonpos (by linarith), abs_of_nonneg (by linarith)] at h
        exact htie (by linarith)
      · exact absurd h (hnear.trans_lt (hfar r hr)).ne'

/-- The upper of two neighbours is nearest from above the middle, and from the middle if the lower
is odd. -/
theorem nearestEven_up (hup : v ≤ grid (q + 1)) (hlow : grid q + grid (q + 1) ≤ 2 * v)
    (htie : grid q + grid (q + 1) = 2 * v → ¬ Even q) : NearestEven grid v (q + 1) := by
  have hq := hgrid (Nat.lt_succ_self q)
  have hnear : |v - grid (q + 1)| ≤ |v - grid q| := by
    rw [abs_of_nonpos (by linarith), abs_of_nonneg (by linarith)]
    linarith
  have hfar : ∀ r, r < q → |v - grid q| < |v - grid r| := fun r hr =>
    abs_sub_lt_of_ge hgrid (by linarith) hr
  have habove : ∀ r, q + 1 < r → |v - grid (q + 1)| < |v - grid r| := fun r hr =>
    abs_sub_lt_of_le hgrid hup hr
  constructor
  · intro r
    obtain hr | rfl | hr := lt_trichotomy r (q + 1)
    · obtain rfl | hr := (Nat.le_of_lt_succ hr).eq_or_lt
      · exact hnear
      · exact hnear.trans (hfar r hr).le
    · exact le_rfl
    · exact (habove r hr).le
  · intro r hne h
    obtain hr | hr := lt_or_gt_of_ne hne
    · obtain rfl | hr := (Nat.le_of_lt_succ hr).eq_or_lt
      · rw [abs_of_nonneg (by linarith), abs_of_nonpos (by linarith)] at h
        exact Nat.even_add_one.mpr (htie (by linarith))
      · exact absurd h (hnear.trans_lt (hfar r hr)).ne'
    · exact absurd h (habove r hr).ne'

/-- Whether a number whose last `s` bits are dropped is rounded up, given what is left of it. -/
def RoundsUp (n s q : ℕ) : Prop :=
  2 ^ (s - 1) < n % 2 ^ s ∨ n % 2 ^ s = 2 ^ (s - 1) ∧ ¬ Even q

instance (n s q : ℕ) : Decidable (RoundsUp n s q) := inferInstanceAs (Decidable (_ ∨ _ ∧ _))

/-- Dropping the last bits of a number rounds to nearest, in a cell of the grid that those bits
divide evenly. -/
theorem nearestEven_roundsUp (n : ℕ) (hs : 0 < s) (hc : 0 < c)
    (hv : v = grid q + (n % 2 ^ s : ℕ) * c) (hcell : grid (q + 1) = grid q + 2 ^ s * c) :
    NearestEven grid v (if RoundsUp n s q then q + 1 else q) := by
  obtain ⟨k, rfl⟩ := Nat.exists_eq_succ_of_ne_zero hs.ne'
  set r := n % 2 ^ (k + 1) with hr
  have hlt : r < 2 ^ (k + 1) := Nat.mod_lt _ (Nat.two_pow_pos _)
  have hhalf : (2 : K) ^ (k + 1) = 2 * 2 ^ k := pow_succ' 2 k
  have hcast : (r : K) < 2 ^ (k + 1) := by exact_mod_cast hlt
  have hr0 : (0 : K) ≤ r := Nat.cast_nonneg r
  rw [hhalf] at hcell hcast
  have hmul : (r : K) * c ≤ 2 * 2 ^ k * c := mul_le_mul_of_nonneg_right hcast.le hc.le
  have hrc : 0 ≤ (r : K) * c := mul_nonneg hr0 hc.le
  have hmid : ∀ {t : K}, (r : K) * c ≤ t * c ↔ (r : K) ≤ t := fun {t} =>
    mul_le_mul_iff_left₀ hc
  split_ifs with hup <;> unfold RoundsUp at hup <;> rw [Nat.succ_sub_one] at hup
  · apply nearestEven_up hgrid
    · rw [hv, hcell]
      linarith
    · have hge : (2 : K) ^ k ≤ r := by
        have hnat : 2 ^ k ≤ r := hup.elim le_of_lt fun h => h.1.ge
        exact_mod_cast hnat
      have hmul' := mul_le_mul_of_nonneg_right hge hc.le
      rw [hv, hcell]
      linarith
    · intro htie
      obtain h | h := hup
      · have hgt : (2 : K) ^ k < r := by exact_mod_cast h
        have hmul' := mul_lt_mul_of_pos_right hgt hc
        rw [hv, hcell] at htie
        linarith
      · exact h.2
  · push Not at hup
    have hle : (r : K) ≤ 2 ^ k := by exact_mod_cast hup.1
    have hmul' := hmid.mpr hle
    apply nearestEven_low hgrid
    · rw [hv]
      linarith
    · rw [hv, hcell]
      linarith
    · intro htie
      apply hup.2
      have heq : (r : K) * c = 2 ^ k * c := by
        rw [hv, hcell] at htie
        linarith
      exact_mod_cast mul_right_cancel₀ hc.ne' heq

/-- Rounding is monotone. -/
theorem NearestEven.le (h : NearestEven grid v p) (h' : NearestEven grid v' p') (hle : v ≤ v') :
    p ≤ p' := by
  by_contra hlt
  rw [not_le] at hlt
  have hg := hgrid hlt
  have h1 := h.nearest p'
  have h2 := h'.nearest p
  -- `v` is above the middle of the two points and `v'` below it, so both are the middle
  have hlow : grid p + grid p' ≤ 2 * v := by
    rw [← sq_le_sq] at h1
    nlinarith
  have hup : 2 * v' ≤ grid p + grid p' := by
    rw [← sq_le_sq] at h2
    nlinarith
  have heq : |v - grid p'| = |v - grid p| := by
    rw [abs_of_nonneg (by linarith), abs_of_nonpos (by linarith)]
    linarith
  have heq' : |v' - grid p| = |v' - grid p'| := by
    rw [abs_of_nonpos (by linarith), abs_of_nonneg (by linarith)]
    linarith
  have hev := h.even p' hlt.ne heq
  have hev' := h'.even p hlt.ne' heq'
  -- a point between them would be nearer
  obtain hnext | hnext := (Nat.succ_le_of_lt hlt).eq_or_lt
  · rw [← hnext] at hev
    exact (Nat.even_add_one.mp hev) hev'
  · have hg1 := hgrid (Nat.lt_succ_self p')
    have hg2 := hgrid hnext
    have hmid := h.nearest (p' + 1)
    rw [← sq_le_sq] at hmid
    nlinarith

/-- A value rounds to one index only. -/
theorem NearestEven.unique (h : NearestEven grid v p) (h' : NearestEven grid v p') : p = p' :=
  le_antisymm (h.le hgrid h' le_rfl) (h'.le hgrid h le_rfl)

/-- What rounds above an odd index is at least the middle of the cell above it. -/
theorem NearestEven.odd_lt_iff (h : NearestEven grid v p) (hq : ¬ Even q) :
    q < p ↔ grid q + grid (q + 1) ≤ 2 * v := by
  have hq1 := hgrid (Nat.lt_succ_self q)
  constructor
  · intro hlt
    have hg := hgrid hlt
    have hle := hgrid.monotone (Nat.succ_le_of_lt hlt)
    have h1 := h.nearest q
    rw [← sq_le_sq] at h1
    have hmid : grid p + grid q ≤ 2 * v := by nlinarith
    exact (by simpa [add_comm] using add_le_add_left hle (grid q) : _ ≤ grid p + grid q).trans hmid
  · intro hmid
    by_contra hnot
    rw [not_lt] at hnot
    have hge : grid p ≤ grid q := hgrid.monotone hnot
    have h1 := h.nearest (q + 1)
    rw [← sq_le_sq] at h1
    have hup : 2 * v ≤ grid p + grid (q + 1) := by nlinarith
    have hpq : grid p = grid q := le_antisymm hge (by linarith)
    obtain rfl := hgrid.injective hpq
    apply hq
    apply h.even (p + 1) (Nat.succ_ne_self p)
    rw [abs_of_nonpos (by linarith), abs_of_nonneg (by linarith)]
    linarith

end Rounding

/-! ## The magnitudes of a binary format -/

/-- The magnitude of a bit pattern without its sign: subnormal below `2 ^ m`. -/
def floatMag (m p : ℕ) : ℕ :=
  if p / 2 ^ m = 0 then p % 2 ^ m else (2 ^ m + p % 2 ^ m) * 2 ^ (p / 2 ^ m - 1)

/-- The magnitude of an exponent and a mantissa. -/
theorem floatMag_parts {m r : ℕ} (e : ℕ) (hr : r < 2 ^ m) :
    floatMag m (e * 2 ^ m + r) = if e = 0 then r else (2 ^ m + r) * 2 ^ (e - 1) := by
  have hpos : 0 < 2 ^ m := Nat.two_pow_pos m
  unfold floatMag
  rw [Nat.add_comm, Nat.add_mul_div_right _ _ hpos, Nat.div_eq_of_lt hr, Nat.zero_add,
    Nat.add_mul_mod_self_right, Nat.mod_eq_of_lt hr]

theorem floatMag_normal {m e r : ℕ} (he : 0 < e) (hr : r < 2 ^ m) :
    floatMag m (e * 2 ^ m + r) = (2 ^ m + r) * 2 ^ (e - 1) := by
  rw [floatMag_parts e hr, if_neg he.ne']

/-- The first magnitude of a binade. -/
theorem floatMag_binade {m e : ℕ} (he : 0 < e) : floatMag m (e * 2 ^ m) = 2 ^ m * 2 ^ (e - 1) :=
  floatMag_normal he (Nat.two_pow_pos m)

/-- The distance to the next magnitude depends on the exponent only. -/
theorem floatMag_succ (m p : ℕ) : floatMag m (p + 1) = floatMag m p + 2 ^ (p / 2 ^ m - 1) := by
  have hpos : 0 < 2 ^ m := Nat.two_pow_pos m
  have hr : p % 2 ^ m < 2 ^ m := Nat.mod_lt p hpos
  rw [show floatMag m p = floatMag m (p / 2 ^ m * 2 ^ m + p % 2 ^ m) by
    rw [Nat.div_add_mod' p (2 ^ m)], floatMag_parts _ hr]
  rw [show floatMag m (p + 1) = floatMag m (p / 2 ^ m * 2 ^ m + (p % 2 ^ m + 1)) by
    rw [← Nat.add_assoc, Nat.div_add_mod' p (2 ^ m)]]
  generalize p / 2 ^ m = e
  generalize p % 2 ^ m = r at hr
  obtain hlast | hlt : r + 1 = 2 ^ m ∨ r + 1 < 2 ^ m := by omega
  · -- the last mantissa carries into the exponent
    rw [show e * 2 ^ m + (r + 1) = (e + 1) * 2 ^ m + 0 by rw [← hlast]; ring,
      floatMag_normal (Nat.succ_pos e) hpos, Nat.add_zero]
    show 2 ^ m * 2 ^ e = _
    split_ifs with he
    · rw [he, pow_zero, Nat.mul_one]
      exact hlast.symm
    · obtain ⟨k, rfl⟩ := Nat.exists_eq_succ_of_ne_zero he
      rw [Nat.succ_sub_one, Nat.succ_eq_add_one, pow_succ, ← Nat.succ_mul, Nat.succ_eq_add_one,
        Nat.add_assoc, hlast]
      ring
  · rw [floatMag_parts e hlt]
    split_ifs with he
    · rw [he, Nat.zero_sub, pow_zero]
    · ring

theorem floatMag_strictMono (m : ℕ) : StrictMono (floatMag m) := by
  apply strictMono_nat_of_lt_succ
  intro p
  rw [floatMag_succ]
  exact Nat.lt_add_of_pos_right (Nat.two_pow_pos _)

/-- Below the first binade a pattern is its own magnitude. -/
theorem floatMag_subnormal {m p : ℕ} (hp : p ≤ 2 ^ m) : floatMag m p = p := by
  obtain rfl | hlt := hp.eq_or_lt
  · have h := floatMag_normal (m := m) (e := 1) Nat.one_pos (Nat.two_pow_pos m)
    simpa using h
  · unfold floatMag
    rw [Nat.div_eq_of_lt hlt, if_pos rfl, Nat.mod_eq_of_lt hlt]
