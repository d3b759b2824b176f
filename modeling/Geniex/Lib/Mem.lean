import Mathlib.Tactic

/-!
# Flat memory and strided rows

A memory is a function `ℕ → β`. `memcpy`, `memmove` and `fill` write one range; `copyRows` and
`restride` are the two loops over the rows of a row-major tensor:

* `copyRows` copies `n` columns of every row from one tensor to another (`copyRows_cell`);
* `restride` moves every row in place from one row width to another. Widening goes through the
  rows backward and narrowing forward, so that no row is overwritten before it is read
  (`restride_copied`, `restride_padded`, `restride_out`, `restride_congr`).

`assign` is a loop of single assignments.

Unit `b` of column `c` of row `r`, at `ts` units a column and `len` columns a row, is at `cell`.
-/

namespace FlatMem

variable {β τ : Type}

/-- `memcpy(d + dst, s + src, n)`. -/
def memcpy (d s : ℕ → β) (dst src n : ℕ) : ℕ → β :=
  fun i => if dst ≤ i ∧ i < dst + n then s (src + (i - dst)) else d i

/-- `memmove(m + dst, m + src, n)`: the source is read before anything is written. -/
def memmove (m : ℕ → β) (dst src n : ℕ) : ℕ → β := memcpy m m dst src n

/-- Fill `n` units from `dst` on with the pattern `pat`. -/
def fill (m : ℕ → β) (dst n : ℕ) (pat : ℕ → β) : ℕ → β := memcpy m pat dst 0 n

theorem memcpy_in {d s : ℕ → β} {dst src n i : ℕ} (h₁ : dst ≤ i) (h₂ : i < dst + n) :
    memcpy d s dst src n i = s (src + (i - dst)) := if_pos ⟨h₁, h₂⟩

theorem memcpy_out {d s : ℕ → β} {dst src n i : ℕ} (h : i < dst ∨ dst + n ≤ i) :
    memcpy d s dst src n i = d i := if_neg (by omega)

theorem memmove_in {m : ℕ → β} {dst src n i : ℕ} (h : i < n) :
    memmove m dst src n (dst + i) = m (src + i) := by
  unfold memmove
  rw [memcpy_in (by omega) (by omega), Nat.add_sub_cancel_left]

theorem memmove_out {m : ℕ → β} {dst src n i : ℕ} (h : i < dst ∨ dst + n ≤ i) :
    memmove m dst src n i = m i := memcpy_out h

theorem fill_in {m : ℕ → β} {dst n i : ℕ} {pat : ℕ → β} (h₁ : dst ≤ i) (h₂ : i < dst + n) :
    fill m dst n pat i = pat (i - dst) := by
  unfold fill
  rw [memcpy_in h₁ h₂, Nat.zero_add]

theorem fill_out {m : ℕ → β} {dst n i : ℕ} {pat : ℕ → β} (h : i < dst ∨ dst + n ≤ i) :
    fill m dst n pat i = m i := memcpy_out h

/-! ## Loops over the rows -/

/-- `for (row = 0; row < n; ++row) s = f row s`. -/
def upto (f : ℕ → τ → τ) : ℕ → τ → τ
  | 0, s => s
  | n + 1, s => f n (upto f n s)

/-- `for (row = n - 1; row >= 0; --row) s = f row s`. -/
def downto (f : ℕ → τ → τ) : ℕ → τ → τ
  | 0, s => s
  | n + 1, s => downto f n (f n s)

/-- The start of a row lies past everything in the rows before it. -/
theorem row_lt {r k w i : ℕ} (hr : r < k) (hi : i < w) : r * w + i < k * w := by
  have h := Nat.mul_le_mul_right w (Nat.succ_le_of_lt hr)
  rw [Nat.succ_mul] at h
  omega

theorem row_le {r k w : ℕ} (hr : r ≤ k) : r * w ≤ k * w := Nat.mul_le_mul_right w hr

/-- A position in one row lies outside every other row. -/
theorem row_apart {r k w i : ℕ} (hne : r ≠ k) (hi : i < w) :
    r * w + i < k * w ∨ k * w + w ≤ r * w + i := by
  rcases Nat.lt_or_gt_of_ne hne with h | h
  · exact Or.inl (row_lt h hi)
  · right
    have hle := row_le (w := w) (Nat.succ_le_of_lt h)
    rw [Nat.succ_mul] at hle
    omega

/-- A position outside the range every step writes is unchanged by the forward loop. -/
theorem upto_out {f : ℕ → (ℕ → β) → ℕ → β} {i : ℕ} :
    ∀ (n : ℕ) (m : ℕ → β), (∀ r < n, ∀ m, f r m i = m i) → upto f n m i = m i := by
  intro n
  induction n with
  | zero => intro m _; rfl
  | succ n ih =>
    intro m h
    show f n (upto f n m) i = m i
    rw [h n (by omega), ih m fun r hr => h r (by omega)]

/-- A position outside the range every step writes is unchanged by the backward loop. -/
theorem downto_out {f : ℕ → (ℕ → β) → ℕ → β} {i : ℕ} :
    ∀ (n : ℕ) (m : ℕ → β), (∀ r < n, ∀ m, f r m i = m i) → downto f n m i = m i := by
  intro n
  induction n with
  | zero => intro m _; rfl
  | succ n ih =>
    intro m h
    show downto f n (f n m) i = m i
    rw [ih (f n m) fun r hr => h r (by omega), h n (by omega)]

/-- A position that some step writes, or that starts equal, ends equal. -/
theorem upto_agree {f : ℕ → (ℕ → β) → ℕ → β} {i : ℕ}
    (hlocal : ∀ r m m', m i = m' i → f r m i = f r m' i) (n : ℕ) (m m' : ℕ → β)
    (h : m i = m' i ∨ ∃ r < n, ∀ m m' : ℕ → β, f r m i = f r m' i) :
    upto f n m i = upto f n m' i := by
  induction n with
  | zero =>
    rcases h with h | ⟨r, hr, -⟩
    · exact h
    · exact absurd hr (Nat.not_lt_zero r)
  | succ n ih =>
    show f n (upto f n m) i = f n (upto f n m') i
    rcases h with h | ⟨r, hr, hwrite⟩
    · exact hlocal n _ _ (ih (Or.inl h))
    · rcases Nat.lt_succ_iff_lt_or_eq.mp hr with hlt | rfl
      · exact hlocal n _ _ (ih (Or.inr ⟨r, hlt, hwrite⟩))
      · exact hwrite _ _

/-- A loop over rows, each of which is written by its own step only. -/
theorem upto_rows {f : ℕ → (ℕ → β) → ℕ → β} {m : ℕ → β} {w n r c : ℕ}
    (hout : ∀ k < n, ∀ m i, i < k * w ∨ k * w + w ≤ i → f k m i = m i)
    (hlocal : ∀ k m m' i, m i = m' i → f k m i = f k m' i) (hc : c < w) :
    upto f n m (r * w + c) = if r < n then f r m (r * w + c) else m (r * w + c) := by
  induction n with
  | zero => rw [if_neg (Nat.not_lt_zero r)]; rfl
  | succ n ih =>
    have hih := ih fun k hk => hout k (by omega)
    show f n (upto f n m) _ = _
    by_cases hr : r = n
    · subst hr
      rw [if_neg (lt_irrefl r)] at hih
      rw [if_pos (Nat.lt_succ_self r)]
      exact hlocal _ _ _ _ hih
    · rw [hout n (Nat.lt_succ_self n) _ _ (row_apart hr hc), hih]
      exact if_congr (by omega) rfl rfl

/-- A loop that assigns the units from `base` on. -/
theorem upto_update (f : ℕ → β) (base len : ℕ) (m : ℕ → β) (i : ℕ) :
    upto (fun k m => Function.update m (base + k) (f k)) len m i =
      if base ≤ i ∧ i < base + len then f (i - base) else m i := by
  induction len with
  | zero => rw [if_neg (by omega)]; rfl
  | succ len ih =>
    show Function.update (upto _ len m) (base + len) (f len) i = _
    rw [Function.update_apply, ih]
    by_cases hi : i = base + len
    · rw [if_pos hi, if_pos (by omega), hi, Nat.add_sub_cancel_left]
    · rw [if_neg hi]
      exact if_congr (by omega) rfl rfl

/-- A position that one step alone writes. -/
theorem upto_only {f : ℕ → (ℕ → β) → ℕ → β} {n k i : ℕ} {v : β} (m : ℕ → β) (hk : k < n)
    (hout : ∀ r < n, r ≠ k → ∀ m, f r m i = m i) (hin : ∀ m, f k m i = v) : upto f n m i = v := by
  induction n with
  | zero => exact absurd hk (Nat.not_lt_zero k)
  | succ n ih =>
    show f n (upto f n m) i = v
    by_cases hkn : k = n
    · rw [← hkn]
      exact hin _
    · rw [hout n (Nat.lt_succ_self n) (Ne.symm hkn)]
      exact ih (by omega) fun r hr => hout r (by omega)

/-! ## Assignments -/

/-- A loop of assignments. -/
def assign (ws : List (ℕ × β)) (m : ℕ → β) : ℕ → β :=
  ws.foldl (fun m w => Function.update m w.1 w.2) m

theorem assign_concat (ws : List (ℕ × β)) (w : ℕ × β) (m : ℕ → β) :
    assign (ws ++ [w]) m = Function.update (assign ws m) w.1 w.2 := by
  unfold assign
  rw [List.foldl_append]
  rfl

theorem assign_out {ws : List (ℕ × β)} {i : ℕ} (m : ℕ → β) (h : ∀ w ∈ ws, w.1 ≠ i) :
    assign ws m i = m i := by
  induction ws using List.reverseRecOn with
  | nil => rfl
  | append_singleton ws w ih =>
    have hne : i ≠ w.1 := (h w (by simp)).symm
    rw [assign_concat, Function.update_of_ne hne]
    exact ih fun u hu => h u (List.mem_append_left _ hu)

/-- A position that is assigned one value holds it. -/
theorem assign_in {ws : List (ℕ × β)} {w : ℕ × β} (m : ℕ → β) (hw : w ∈ ws)
    (honly : ∀ u ∈ ws, u.1 = w.1 → u.2 = w.2) : assign ws m w.1 = w.2 := by
  induction ws using List.reverseRecOn with
  | nil => simp at hw
  | append_singleton ws u ih =>
    rw [assign_concat]
    by_cases hu : u.1 = w.1
    · rw [hu, Function.update_self]
      exact honly u (by simp) hu
    · have hmem : w ∈ ws := by
        rcases List.mem_append.mp hw with hin | hin
        · exact hin
        · obtain rfl := List.mem_singleton.mp hin
          exact absurd rfl hu
      rw [Function.update_of_ne (Ne.symm hu)]
      exact ih hmem fun v hv => honly v (List.mem_append_left _ hv)

/-! ## Cells of a strided tensor -/

/-- Unit `b` of column `c` of row `r`. -/
def cell (len ts r c b : ℕ) : ℕ := (r * len + c) * ts + b

/-- A cell as an offset into its row. -/
theorem cell_eq (len ts r c b : ℕ) : cell len ts r c b = r * (len * ts) + (c * ts + b) := by
  unfold cell; ring

/-- A unit of one of the first `n` columns lies in the first `n * ts` units of the row. -/
theorem col_lt {c n ts b : ℕ} (hc : c < n) (hb : b < ts) : c * ts + b < n * ts := row_lt hc hb

theorem cell_lt {len ts r c b rows : ℕ} (hr : r < rows) (hc : c < len) (hb : b < ts) :
    cell len ts r c b < rows * (len * ts) := by
  rw [cell_eq]; exact row_lt hr (col_lt hc hb)

/-- Every unit of a tensor is a cell. -/
theorem exists_cell {len ts rows i : ℕ} (h : i < rows * (len * ts)) :
    ∃ r < rows, ∃ c < len, ∃ b < ts, i = cell len ts r c b := by
  have hrow : 0 < len * ts := Nat.pos_of_ne_zero fun h0 => by rw [h0, Nat.mul_zero] at h; omega
  have hts : 0 < ts := Nat.pos_of_ne_zero fun h0 => by rw [h0, Nat.mul_zero] at hrow; omega
  have hin : i % (len * ts) < len * ts := Nat.mod_lt i hrow
  refine ⟨i / (len * ts), Nat.div_lt_of_lt_mul (by rwa [Nat.mul_comm]), i % (len * ts) / ts,
    Nat.div_lt_of_lt_mul (by rw [Nat.mul_comm ts]; exact hin), i % (len * ts) % ts, Nat.mod_lt _ hts, ?_⟩
  rw [cell_eq, Nat.div_add_mod', Nat.div_add_mod']

/-- Copy `n` columns of each of `rows` rows, from column `srcOff` at row width `srcLen` to column
`dstOff` at row width `dstLen`. -/
def copyRows (dst src : ℕ → β) (rows ts dstLen dstOff srcLen srcOff n : ℕ) : ℕ → β :=
  upto (fun row d => memcpy d src ((row * dstLen + dstOff) * ts) ((row * srcLen + srcOff) * ts)
    (n * ts)) rows dst

/-- A row's copy misses the cells of every other row. -/
theorem memcpy_row_out {d s : ℕ → β} {ts dstLen dstOff src n k r c b : ℕ}
    (hfit : dstOff + n ≤ dstLen) (hkr : k ≠ r) (hc : c < dstLen) (hb : b < ts) :
    memcpy d s ((k * dstLen + dstOff) * ts) src (n * ts) (cell dstLen ts r c b) =
      d (cell dstLen ts r c b) := by
  apply memcpy_out
  have hstart : (k * dstLen + dstOff) * ts = k * (dstLen * ts) + dstOff * ts := by ring
  have hcols : dstOff * ts + n * ts ≤ dstLen * ts := by
    rw [← Nat.add_mul]
    exact Nat.mul_le_mul_right ts hfit
  rw [cell_eq, hstart]
  rcases row_apart hkr.symm (col_lt hc hb) with h | h
  · left
    omega
  · right
    omega

/-- A row's copy, on its own row: the copied columns are the source's, the others unchanged. -/
theorem memcpy_row_in {d s : ℕ → β} {ts dstLen dstOff srcLen srcOff n r c b : ℕ} (hb : b < ts) :
    memcpy d s ((r * dstLen + dstOff) * ts) ((r * srcLen + srcOff) * ts) (n * ts)
        (cell dstLen ts r c b) =
      if dstOff ≤ c ∧ c < dstOff + n then s (cell srcLen ts r (srcOff + (c - dstOff)) b)
      else d (cell dstLen ts r c b) := by
  split_ifs with h
  · obtain ⟨k, rfl⟩ : ∃ k, c = dstOff + k := ⟨c - dstOff, by omega⟩
    have hk : k * ts + b < n * ts := col_lt (by omega) hb
    have hcell : cell dstLen ts r (dstOff + k) b =
        (r * dstLen + dstOff) * ts + (k * ts + b) := by unfold cell; ring
    rw [hcell, memcpy_in (by omega) (by omega), Nat.add_sub_cancel_left, Nat.add_sub_cancel_left]
    congr 1
    unfold cell; ring
  · apply memcpy_out
    rcases Nat.lt_or_ge c dstOff with hc | hc
    · left
      unfold cell
      calc (r * dstLen + c) * ts + b < (r * dstLen + c + 1) * ts := by rw [Nat.succ_mul]; omega
        _ ≤ (r * dstLen + dstOff) * ts := Nat.mul_le_mul_right ts (by omega)
    · right
      unfold cell
      calc (r * dstLen + dstOff) * ts + n * ts = (r * dstLen + dstOff + n) * ts := by ring
        _ ≤ (r * dstLen + c) * ts := Nat.mul_le_mul_right ts (by omega)
        _ ≤ _ := by omega

/-- A row copy of columns that fit in the row misses what lies past the last row. -/
theorem copyRows_out {dst src : ℕ → β} {rows ts dstLen dstOff srcLen srcOff n i : ℕ}
    (hfit : dstOff + n ≤ dstLen) (h : rows * (dstLen * ts) ≤ i) :
    copyRows dst src rows ts dstLen dstOff srcLen srcOff n i = dst i := by
  apply upto_out
  intro r hr m
  apply memcpy_out
  right
  have hrow : (r + 1) * (dstLen * ts) ≤ rows * (dstLen * ts) := row_le hr
  have hcols : (dstOff + n) * ts ≤ dstLen * ts := Nat.mul_le_mul_right ts hfit
  calc (r * dstLen + dstOff) * ts + n * ts = r * (dstLen * ts) + (dstOff + n) * ts := by ring
    _ ≤ (r + 1) * (dstLen * ts) := by rw [Nat.succ_mul]; omega
    _ ≤ i := hrow.trans h

/-- What a row copy leaves in a cell, when the copied columns fit in the row. -/
theorem copyRows_cell {dst src : ℕ → β} {rows ts dstLen dstOff srcLen srcOff n r c b : ℕ}
    (hfit : dstOff + n ≤ dstLen) (hr : r < rows) (hc : c < dstLen) (hb : b < ts) :
    copyRows dst src rows ts dstLen dstOff srcLen srcOff n (cell dstLen ts r c b) =
      if dstOff ≤ c ∧ c < dstOff + n then src (cell srcLen ts r (srcOff + (c - dstOff)) b)
      else dst (cell dstLen ts r c b) := by
  unfold copyRows
  induction rows with
  | zero => omega
  | succ rows ih =>
    show memcpy (upto _ rows dst) src _ _ _ _ = _
    by_cases hrr : r = rows
    · subst hrr
      rw [memcpy_row_in hb]
      -- the earlier steps wrote other rows only
      rw [upto_out r dst fun k hk m => memcpy_row_out hfit (by omega) hc hb]
    · rw [memcpy_row_out hfit (Ne.symm hrr) hc hb]
      exact ih (by omega)

/-! ## Restriding in place -/

/-- Writing `n` units from `dst` on with `pad` touches nothing else. -/
def PadsOnly (pad : (ℕ → β) → ℕ → ℕ → ℕ → β) : Prop :=
  ∀ m dst n i, i < dst ∨ dst + n ≤ i → pad m dst n i = m i

/-- One step of the widening loop: move the row, then pad its tail. -/
def widenRow (pad : (ℕ → β) → ℕ → ℕ → ℕ → β) (old new copy row : ℕ) (m : ℕ → β) : ℕ → β :=
  if copy < new then pad (memmove m (row * new) (row * old) copy) (row * new + copy) (new - copy)
  else memmove m (row * new) (row * old) copy

/-- Move each row from width `old` to width `new`, keeping its first `copy` units. -/
def restride (pad : (ℕ → β) → ℕ → ℕ → ℕ → β) (m : ℕ → β) (rows old new copy : ℕ) : ℕ → β :=
  if old < new then downto (widenRow pad old new copy) rows m
  else upto (fun row m => memmove m (row * new) (row * old) copy) rows m

section Restride

variable {pad : (ℕ → β) → ℕ → ℕ → ℕ → β}

/-- One step of the widening loop on the copied part of its own row. -/
theorem widenRow_copied (hpad : PadsOnly pad) {m : ℕ → β} {r old new copy i : ℕ} (hi : i < copy) :
    widenRow pad old new copy r m (r * new + i) = m (r * old + i) := by
  unfold widenRow
  split_ifs
  · rw [hpad _ _ _ _ (by omega), memmove_in hi]
  · exact memmove_in hi

/-- One step of the widening loop misses what lies before and after its row. -/
theorem widenRow_out (hpad : PadsOnly pad) {m : ℕ → β} {r old new copy i : ℕ} (hcopy : copy ≤ new)
    (h : i < r * new ∨ r * new + new ≤ i) : widenRow pad old new copy r m i = m i := by
  unfold widenRow
  split_ifs
  · rw [hpad _ _ _ _ (by omega), memmove_out (by omega)]
  · exact memmove_out (by omega)

/-- The widening loop: row `r` ends up at the new width. -/
theorem restride_widen (hpad : PadsOnly pad) {m : ℕ → β} {rows old new copy r i : ℕ}
    (hlt : old < new) (hold : copy ≤ old) (hr : r < rows) (hi : i < copy) :
    restride pad m rows old new copy (r * new + i) = m (r * old + i) := by
  unfold restride
  rw [if_pos hlt]
  induction rows generalizing m with
  | zero => omega
  | succ rows ih =>
    rw [downto]
    by_cases hrr : r = rows
    · subst hrr
      -- the later steps write the rows before this one
      rw [downto_out, widenRow_copied hpad hi]
      intro k hk m'
      have hrow := row_lt (r := k) (k := r) (w := new) (i := new - 1) hk (by omega)
      exact widenRow_out hpad (by omega) (Or.inr (by omega))
    · rw [ih (by omega)]
      -- row `r` was read from below everything the step for the last row writes
      apply widenRow_out hpad (by omega)
      left
      have h1 := row_lt (r := r) (k := rows) (w := old) (i := i) (by omega) (by omega)
      have h2 : rows * old ≤ rows * new := Nat.mul_le_mul_left rows hlt.le
      omega

/-- The narrowing loop: row `r` ends up at the new width. -/
theorem restride_narrow {m : ℕ → β} {rows old new copy r i : ℕ} (hle : new ≤ old)
    (hcopy : copy ≤ new) (hr : r < rows) (hi : i < copy) :
    restride pad m rows old new copy (r * new + i) = m (r * old + i) := by
  unfold restride
  rw [if_neg (by omega)]
  induction rows with
  | zero => omega
  | succ rows ih =>
    show memmove (upto _ rows m) (rows * new) (rows * old) copy (r * new + i) = _
    by_cases hrr : r = rows
    · subst hrr
      rw [memmove_in hi]
      -- the earlier steps wrote below the row they had reached
      apply upto_out
      intro k hk m'
      apply memmove_out
      right
      have h1 := row_lt (r := k) (k := r) (w := new) (i := i) hk (by omega)
      have h2 : r * new ≤ r * old := Nat.mul_le_mul_left r hle
      have h3 : k * new + new ≤ r * new := by
        have := row_le (w := new) (show k + 1 ≤ r from hk)
        rwa [Nat.succ_mul] at this
      omega
    · rw [memmove_out]
      · exact ih (by omega)
      · left
        exact row_lt (by omega) (by omega)

/-- **Restriding keeps the copied units of every row.** -/
theorem restride_copied (hpad : PadsOnly pad) {m : ℕ → β} {rows old new copy r i : ℕ}
    (hold : copy ≤ old) (hnew : copy ≤ new) (hr : r < rows) (hi : i < copy) :
    restride pad m rows old new copy (r * new + i) = m (r * old + i) := by
  rcases Nat.lt_or_ge old new with h | h
  · exact restride_widen hpad h hold hr hi
  · exact restride_narrow h hnew hr hi

/-- Restriding by columns: a copied column of a row is the same column at the new width. -/
theorem restride_cell (hpad : PadsOnly pad) {m : ℕ → β} {rows old new n ts r c b : ℕ}
    (hold : n ≤ old) (hnew : n ≤ new) (hr : r < rows) (hc : c < n) (hb : b < ts) :
    restride pad m rows (old * ts) (new * ts) (n * ts) (cell new ts r c b) =
      m (cell old ts r c b) := by
  rw [cell_eq, cell_eq, restride_copied hpad (Nat.mul_le_mul_right ts hold)
    (Nat.mul_le_mul_right ts hnew) hr (col_lt hc hb)]

/-- Widening pads what lies behind the copied units of every row. -/
theorem restride_padded (hpad : PadsOnly pad) {m : ℕ → β} {rows old new copy r i : ℕ} {v : β}
    (hlt : old < new) (hold : copy ≤ old) (hr : r < rows) (hin : i < new)
    (hv : ∀ m, pad m (r * new + copy) (new - copy) (r * new + i) = v) :
    restride pad m rows old new copy (r * new + i) = v := by
  unfold restride
  rw [if_pos hlt]
  induction rows generalizing m with
  | zero => omega
  | succ rows ih =>
    rw [downto]
    by_cases hrr : r = rows
    · subst hrr
      rw [downto_out]
      · unfold widenRow
        rw [if_pos (by omega), hv]
      · -- the later steps write the rows before this one
        intro k hk m'
        have hrow := row_lt (r := k) (k := r) (w := new) (i := new - 1) hk (by omega)
        exact widenRow_out hpad (by omega) (Or.inr (by omega))
    · exact ih (by omega)

/-- Restriding writes inside the rows of the wider width. -/
theorem restride_out (hpad : PadsOnly pad) {m : ℕ → β} {rows old new copy i : ℕ}
    (hnew : copy ≤ new) (hi : rows * max old new ≤ i) :
    restride pad m rows old new copy i = m i := by
  have hrows : rows * new ≤ i := (Nat.mul_le_mul_left rows (le_max_right _ _)).trans hi
  have hrow : ∀ k < rows, k * new + new ≤ i := by
    intro k hk
    have := row_le (w := new) (show k + 1 ≤ rows from hk)
    rw [Nat.succ_mul] at this
    omega
  unfold restride
  split_ifs
  · exact downto_out _ _ fun k hk m' => widenRow_out hpad hnew (Or.inr (hrow k hk))
  · refine upto_out _ _ fun k hk m' => memmove_out (Or.inr ?_)
    have := hrow k hk
    omega

/-- Restriding changes nothing where every move and every padding changes nothing. -/
theorem restride_fixed {m : ℕ → β} {rows old new copy : ℕ}
    (hmove : ∀ r < rows, ∀ i < copy, m (r * new + i) = m (r * old + i))
    (hpad : copy < new → ∀ r < rows, pad m (r * new + copy) (new - copy) = m) :
    restride pad m rows old new copy = m := by
  have hmem : ∀ r < rows, memmove m (r * new) (r * old) copy = m := by
    intro r hr
    funext i
    by_cases hin : r * new ≤ i ∧ i < r * new + copy
    · obtain ⟨k, rfl⟩ := Nat.exists_eq_add_of_le hin.1
      rw [memmove_in (by omega), hmove r hr k (by omega)]
    · exact memmove_out (by omega)
  unfold restride
  split_ifs
  · have hloop : ∀ n ≤ rows, downto (widenRow pad old new copy) n m = m := by
      intro n
      induction n with
      | zero => exact fun _ => rfl
      | succ n ih =>
        intro hn
        have hrow : widenRow pad old new copy n m = m := by
          unfold widenRow
          rw [hmem n hn]
          split_ifs with hlt
          · exact hpad hlt n hn
          · rfl
        rw [downto, hrow, ih (by omega)]
    exact hloop rows le_rfl
  · have hloop : ∀ n ≤ rows, upto (fun row m => memmove m (row * new) (row * old) copy) n m = m := by
      intro n
      induction n with
      | zero => exact fun _ => rfl
      | succ n ih =>
        intro hn
        rw [upto, ih (by omega), hmem n hn]
    exact hloop rows le_rfl

/-- Restriding reads inside the rows of the wider width. -/
theorem restride_congr {m m' : ℕ → β} {rows old new copy : ℕ}
    (hlocal : ∀ m m' : ℕ → β, ∀ dst n i, m i = m' i → pad m dst n i = pad m' dst n i)
    (hold : copy ≤ old) (h : ∀ i < rows * max old new, m i = m' i) :
    ∀ i < rows * max old new,
      restride pad m rows old new copy i = restride pad m' rows old new copy i := by
  -- a move reads a row at the old width
  have hmove : ∀ k < rows, ∀ m m' : ℕ → β, (∀ i < rows * max old new, m i = m' i) →
      ∀ i < rows * max old new,
        memmove m (k * new) (k * old) copy i = memmove m' (k * new) (k * old) copy i := by
    intro k hk m m' h i hi
    unfold memmove memcpy
    split_ifs with hin
    · refine h _ (lt_of_lt_of_le ?_ (Nat.mul_le_mul_left rows (le_max_left old new)))
      exact row_lt hk (by omega)
    · exact h i hi
  unfold restride
  split_ifs
  · have hloop : ∀ n ≤ rows, ∀ m m' : ℕ → β, (∀ i < rows * max old new, m i = m' i) →
        ∀ i < rows * max old new, downto (widenRow pad old new copy) n m i =
          downto (widenRow pad old new copy) n m' i := by
      intro n
      induction n with
      | zero => exact fun _ m m' h => h
      | succ n ih =>
        intro hn m m' h
        refine ih (by omega) _ _ fun i hi => ?_
        unfold widenRow
        split_ifs
        · exact hlocal _ _ _ _ _ (hmove n hn m m' h i hi)
        · exact hmove n hn m m' h i hi
    exact hloop rows le_rfl m m' h
  · have hloop : ∀ n ≤ rows, ∀ i < rows * max old new,
        upto (fun row m => memmove m (row * new) (row * old) copy) n m i =
          upto (fun row m => memmove m (row * new) (row * old) copy) n m' i := by
      intro n
      induction n with
      | zero => exact fun _ => h
      | succ n ih => exact fun hn i hi => hmove n hn _ _ (ih (by omega)) i hi
    exact hloop rows le_rfl

end Restride

end FlatMem
