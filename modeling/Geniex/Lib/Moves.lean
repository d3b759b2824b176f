import Geniex.Lib.Mem

/-!
# Moves of ranges in one memory

A list of moves, applied in order with `memmove`.

* `runMoves_out`: a position that no move writes keeps its value.
* `runMoves_agree`: the memory below a bound depends on the memory below the bound, when the moves
  stay below it.

`moveRows` is a move of columns in every row of a tensor (`moveRows_cell`).

`upto_at` and `foldl_at` are about a loop one of whose steps alone writes a position.
-/

namespace FlatMem

variable {β : Type}

/-- `memmove(m + dst, m + src, len)`. -/
structure Move where
  src : ℕ
  dst : ℕ
  len : ℕ
  deriving DecidableEq, Repr

namespace Move

/-- The move does not write position `i`. -/
def Misses (mv : Move) (i : ℕ) : Prop := i < mv.dst ∨ mv.dst + mv.len ≤ i

/-- The move reads and writes positions below `n` only. -/
def Within (mv : Move) (n : ℕ) : Prop := mv.src + mv.len ≤ n ∧ mv.dst + mv.len ≤ n

theorem Within.mono {mv : Move} {n n' : ℕ} (h : mv.Within n) (hle : n ≤ n') : mv.Within n' :=
  ⟨h.1.trans hle, h.2.trans hle⟩

end Move

/-- The moves, in order. -/
def runMoves (moves : List Move) (m : ℕ → β) : ℕ → β :=
  moves.foldl (fun m mv => memmove m mv.dst mv.src mv.len) m

@[simp] theorem runMoves_nil (m : ℕ → β) : runMoves [] m = m := rfl

@[simp] theorem runMoves_cons (mv : Move) (moves : List Move) (m : ℕ → β) :
    runMoves (mv :: moves) m = runMoves moves (memmove m mv.dst mv.src mv.len) := rfl

theorem runMoves_append (before after : List Move) (m : ℕ → β) :
    runMoves (before ++ after) m = runMoves after (runMoves before m) := List.foldl_append

theorem runMoves_out {moves : List Move} {i : ℕ} (m : ℕ → β) (h : ∀ mv ∈ moves, mv.Misses i) :
    runMoves moves m i = m i := by
  induction moves generalizing m with
  | nil => rfl
  | cons mv moves ih =>
    rw [runMoves_cons, ih _ fun mv' hmv => h mv' (List.mem_cons_of_mem _ hmv)]
    exact memmove_out (h mv List.mem_cons_self)

theorem memmove_agree {m m' : ℕ → β} {n : ℕ} {mv : Move} (hin : mv.Within n)
    (h : ∀ i < n, m i = m' i) :
    ∀ i < n, memmove m mv.dst mv.src mv.len i = memmove m' mv.dst mv.src mv.len i := by
  intro i hi
  by_cases hout : mv.Misses i
  · rw [memmove_out hout, memmove_out hout, h i hi]
  · unfold Move.Misses at hout
    obtain ⟨k, rfl⟩ : ∃ k, i = mv.dst + k := ⟨i - mv.dst, by omega⟩
    have hsrc : mv.src + k < n := by
      have := hin.1
      omega
    rw [memmove_in (by omega), memmove_in (by omega), h _ hsrc]

/-- Moves that stay below a bound depend on the memory below it. -/
theorem runMoves_agree {moves : List Move} {n : ℕ} (hin : ∀ mv ∈ moves, mv.Within n)
    {m m' : ℕ → β} (h : ∀ i < n, m i = m' i) :
    ∀ i < n, runMoves moves m i = runMoves moves m' i := by
  induction moves generalizing m m' with
  | nil => exact h
  | cons mv moves ih =>
    rw [runMoves_cons, runMoves_cons]
    apply ih fun mv' hmv => hin mv' (List.mem_cons_of_mem _ hmv)
    exact memmove_agree (hin mv List.mem_cons_self) h

/-! ## Columns of a strided tensor -/

/-- Move columns within each of `rows` rows of `len` columns. -/
def moveRows (rows ts len : ℕ) (mv : Move) (m : ℕ → β) : ℕ → β :=
  upto (fun r m => memmove m ((r * len + mv.dst) * ts) ((r * len + mv.src) * ts) (mv.len * ts))
    rows m

/-- What a move of columns leaves in a cell, when it stays within the row. -/
theorem moveRows_cell {rows ts len r c b : ℕ} {mv : Move} (hin : mv.Within len) (hr : r < rows)
    (hc : c < len) (hb : b < ts) (m : ℕ → β) :
    moveRows rows ts len mv m (cell len ts r c b) =
      if mv.dst ≤ c ∧ c < mv.dst + mv.len then m (cell len ts r (mv.src + (c - mv.dst)) b)
      else m (cell len ts r c b) := by
  -- a step leaves the cells of the other rows alone
  have hother : ∀ k, k ≠ r → ∀ c < len, ∀ m : ℕ → β,
      memmove m ((k * len + mv.dst) * ts) ((k * len + mv.src) * ts) (mv.len * ts)
        (cell len ts r c b) = m (cell len ts r c b) :=
    fun k hk c hc m => memcpy_row_out hin.2 hk hc hb
  unfold moveRows
  induction rows with
  | zero => exact absurd hr (Nat.not_lt_zero r)
  | succ rows ih =>
    show memmove (upto _ rows m) _ _ _ _ = _
    by_cases hrr : r = rows
    · subst hrr
      have hbefore : ∀ c < len, upto (fun r m => memmove m ((r * len + mv.dst) * ts)
          ((r * len + mv.src) * ts) (mv.len * ts)) r m (cell len ts r c b) =
          m (cell len ts r c b) :=
        fun c hc => upto_out r m fun k hk m => hother k (by omega) c hc m
      unfold memmove at hbefore ⊢
      rw [memcpy_row_in hb, hbefore c hc]
      split_ifs with hcol
      · have hsrc := hin.1
        rw [hbefore _ (by omega)]
      · rfl
    · rw [hother rows (Ne.symm hrr) c hc]
      exact ih (by omega)

/-! ## One writer -/

/-- A position that step `k` alone writes. -/
theorem upto_at {f : ℕ → (ℕ → β) → ℕ → β} {φ : β → β} {n k i : ℕ} (m : ℕ → β) (hk : k < n)
    (hin : ∀ m, f k m i = φ (m i)) (hout : ∀ r < n, r ≠ k → ∀ m, f r m i = m i) :
    upto f n m i = φ (m i) := by
  induction n with
  | zero => exact absurd hk (Nat.not_lt_zero k)
  | succ n ih =>
    show f n (upto f n m) i = _
    by_cases hkn : k = n
    · subst hkn
      rw [hin, upto_out k m fun r hr => hout r (by omega) (by omega)]
    · rw [hout n (Nat.lt_succ_self n) (Ne.symm hkn)]
      exact ih (by omega) fun r hr => hout r (by omega)

/-- A position that one element of a list alone writes. -/
theorem foldl_at {γ : Type} {g : γ → (ℕ → β) → ℕ → β} {φ : β → β} {i : ℕ} {x : γ} {l : List γ}
    (m : ℕ → β) (hx : x ∈ l) (hφ : ∀ v, φ (φ v) = φ v) (hin : ∀ m, g x m i = φ (m i))
    (hout : ∀ y ∈ l, y ≠ x → ∀ m, g y m i = m i) :
    l.foldl (fun m y => g y m) m i = φ (m i) := by
  have hkeep : ∀ (l : List γ) (m : ℕ → β), (∀ y ∈ l, y ≠ x → ∀ m, g y m i = m i) →
      φ (m i) = m i → l.foldl (fun m y => g y m) m i = m i := by
    intro l
    induction l with
    | nil => exact fun m _ _ => rfl
    | cons y l ih =>
      intro m hout hm
      have hy : g y m i = m i := by
        by_cases hyx : y = x
        · rw [hyx, hin, hm]
        · exact hout y List.mem_cons_self hyx m
      rw [List.foldl_cons, ih _ (fun z hz => hout z (List.mem_cons_of_mem _ hz)) (by rw [hy, hm]),
        hy]
  induction l generalizing m with
  | nil => cases hx
  | cons y l ih =>
    have hout' : ∀ z ∈ l, z ≠ x → ∀ m, g z m i = m i :=
      fun z hz => hout z (List.mem_cons_of_mem _ hz)
    rw [List.foldl_cons]
    by_cases hyx : y = x
    · subst hyx
      rw [hkeep l _ hout' (by rw [hin, hφ]), hin]
    · have hxl : x ∈ l := (List.mem_cons.mp hx).resolve_left (Ne.symm hyx)
      rw [ih _ hxl hout', hout y List.mem_cons_self hyx]

end FlatMem
