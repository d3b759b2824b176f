import Mathlib.Tactic

/-!
# Numbers with infinities and NaN

`Extended K` adds two infinities and a NaN to the numbers of an ordered field. Arithmetic is exact
on the numbers; where an operand is none, or a divisor is zero, it follows IEEE 754. There is one
zero, and it counts as positive.

* `fin_add_fin` and its kin: the operations on numbers.
* `IsFinite.of_mul` and its kin: only numbers make numbers.
-/

/-- A number, an infinity of either sign, or NaN. -/
inductive Extended (K : Type*)
  | fin (x : K)
  | inf (neg : Bool)
  | nan
  deriving DecidableEq

namespace Extended

variable {K : Type*}

/-- A real function, which has no value but at numbers. -/
def apply (f : K → K) : Extended K → Extended K
  | fin x => fin (f x)
  | _ => nan

/-- A number. -/
def IsFinite (a : Extended K) : Prop := ∃ x, a = fin x

instance [Nonempty K] : Nontrivial (Extended K) := ⟨⟨nan, inf false, nofun⟩⟩

section Numbers

variable {a : Extended K} {x : K}

theorem not_isFinite_inf (s : Bool) : ¬(inf s : Extended K).IsFinite := nofun

@[simp] theorem apply_fin (f : K → K) : (fin x).apply f = fin (f x) := rfl

theorem IsFinite.of_apply {f : K → K} (h : (a.apply f).IsFinite) : a.IsFinite := by
  obtain ⟨z, hz⟩ := h
  cases a with
  | fin x => exact ⟨x, rfl⟩
  | inf s => cases hz
  | nan => cases hz

theorem apply_of_not_isFinite (f : K → K) (h : ¬a.IsFinite) : a.apply f = nan := by
  cases a with
  | fin x => exact absurd ⟨x, rfl⟩ h
  | inf s => rfl
  | nan => rfl

end Numbers

/-! ## Order -/

section Order

variable [LinearOrder K] {x y : K} {a : Extended K}

protected def lt : Extended K → Extended K → Bool
  | fin x, fin y => decide (x < y)
  | fin _, inf s => !s
  | inf s, fin _ => s
  | inf s, inf t => s && !t
  | _, _ => false

protected def le : Extended K → Extended K → Bool
  | fin x, fin y => decide (x ≤ y)
  | fin _, inf s => !s
  | inf s, fin _ => s
  | inf s, inf t => s || !t
  | _, _ => false

/-- Nothing is less than NaN, and NaN is less than nothing. -/
instance : LT (Extended K) := ⟨fun a b => a.lt b = true⟩

instance : LE (Extended K) := ⟨fun a b => a.le b = true⟩

instance : DecidableLT (Extended K) := fun a b => inferInstanceAs (Decidable (a.lt b = true))

instance : DecidableLE (Extended K) := fun a b => inferInstanceAs (Decidable (a.le b = true))

@[simp] theorem fin_lt_fin : fin x < fin y ↔ x < y := decide_eq_true_iff

@[simp] theorem fin_le_fin : fin x ≤ fin y ↔ x ≤ y := decide_eq_true_iff

@[simp] theorem fin_lt_inf : fin x < inf false := rfl

@[simp] theorem inf_lt_fin : inf true < fin x := rfl

@[simp] theorem not_fin_lt_inf : ¬fin x < inf true := Bool.false_ne_true

@[simp] theorem not_inf_lt_fin : ¬inf false < fin x := Bool.false_ne_true

@[simp] theorem not_inf_le_fin : ¬inf false ≤ fin x := Bool.false_ne_true

@[simp] theorem not_lt_nan : ¬a < nan := by
  cases a <;> exact Bool.false_ne_true

@[simp] theorem not_nan_lt : ¬nan < a := by
  cases a <;> exact Bool.false_ne_true

end Order

/-! ## Arithmetic -/

section Arithmetic

variable [Field K] {x y : K} {a b : Extended K}

protected def neg : Extended K → Extended K
  | fin x => fin (-x)
  | inf s => inf !s
  | nan => nan

protected def add : Extended K → Extended K → Extended K
  | fin x, fin y => fin (x + y)
  | fin _, inf s => inf s
  | inf s, fin _ => inf s
  | inf s, inf t => if s = t then inf s else nan
  | _, _ => nan

instance : Add (Extended K) := ⟨Extended.add⟩

instance : Sub (Extended K) := ⟨fun a b => a.add b.neg⟩

@[simp] theorem fin_add_fin : fin x + fin y = fin (x + y) := rfl

@[simp] theorem fin_sub_fin : fin x - fin y = fin (x - y) := congrArg fin (sub_eq_add_neg x y).symm

theorem IsFinite.of_add (h : (a + b).IsFinite) : a.IsFinite ∧ b.IsFinite := by
  obtain ⟨z, hz⟩ := h
  change Extended.add a b = fin z at hz
  cases a <;> cases b <;> simp only [Extended.add, reduceCtorEq] at hz <;>
    first | exact ⟨⟨_, rfl⟩, ⟨_, rfl⟩⟩ | (split_ifs at hz)

variable [LinearOrder K]

protected def mul : Extended K → Extended K → Extended K
  | fin x, fin y => fin (x * y)
  | fin x, inf s => if x = 0 then nan else inf (s ^^ decide (x < 0))
  | inf s, fin x => if x = 0 then nan else inf (s ^^ decide (x < 0))
  | inf s, inf t => inf (s ^^ t)
  | _, _ => nan

protected def div : Extended K → Extended K → Extended K
  | fin x, fin y => if y ≠ 0 then fin (x / y) else if x = 0 then nan else inf (decide (x < 0))
  | fin _, inf _ => fin 0
  | inf s, fin y => inf (s ^^ decide (y < 0))
  | _, _ => nan

instance : Mul (Extended K) := ⟨Extended.mul⟩

instance : Div (Extended K) := ⟨Extended.div⟩

@[simp] theorem fin_mul_fin : fin x * fin y = fin (x * y) := rfl

theorem apply_mul_one (f : K → K) (a : Extended K) : a.apply f * fin 1 = a.apply f := by
  cases a with
  | fin x => exact congrArg fin (mul_one (f x))
  | inf s => rfl
  | nan => rfl

theorem fin_div_fin (hy : y ≠ 0) : fin x / fin y = fin (x / y) := if_pos hy

theorem fin_div_zero_of_pos (hx : 0 < x) : fin x / fin 0 = inf false := by
  show Extended.div (fin x) (fin 0) = _
  rw [Extended.div, if_neg (by simp), if_neg hx.ne', decide_eq_false (not_lt.mpr hx.le)]

theorem fin_div_zero_of_neg (hx : x < 0) : fin x / fin 0 = inf true := by
  show Extended.div (fin x) (fin 0) = _
  rw [Extended.div, if_neg (by simp), if_neg hx.ne, decide_eq_true hx]

theorem zero_div_zero : fin (0 : K) / fin 0 = nan := by
  show Extended.div (fin 0) (fin 0) = _
  rw [Extended.div, if_neg (by simp), if_pos rfl]

theorem IsFinite.of_mul (h : (a * b).IsFinite) : a.IsFinite ∧ b.IsFinite := by
  obtain ⟨z, hz⟩ := h
  change Extended.mul a b = fin z at hz
  cases a <;> cases b <;> simp only [Extended.mul, reduceCtorEq] at hz <;>
    first | exact ⟨⟨_, rfl⟩, ⟨_, rfl⟩⟩ | (split_ifs at hz)

/-- Only a number divided by a number other than zero is one. -/
theorem IsFinite.of_div_fin (h : (a / fin y).IsFinite) : a.IsFinite ∧ y ≠ 0 := by
  obtain ⟨z, hz⟩ := h
  change Extended.div a (fin y) = fin z at hz
  cases a with
  | fin x =>
    rw [Extended.div] at hz
    split_ifs at hz with hy
    exact ⟨⟨x, rfl⟩, hy⟩
  | inf s => cases hz
  | nan => cases hz

end Arithmetic

end Extended
