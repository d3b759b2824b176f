import Mathlib.Tactic

/-!
# Reading a list past one value

A list without duplicates is read entry by entry, leaving out the entries equal to `p`.

* `skip_next`: the next entry that is read, one past `p` if `p` stands there.
* `skip_take`: the first `n` entries are read from the first `n + 1` of the list.
* `flatMap_block`: the blocks of a list of blocks of one length.
-/

namespace List

variable {α : Type*} [DecidableEq α] {l out : List α} {p : α} {i j n b : ℕ}

/-- The position of the next entry, from position `i` on. -/
def skip (l : List α) (p : α) (i : ℕ) : ℕ := if l[i]? = some p then i + 1 else i

/-- At most one entry is left out. -/
theorem length_le_filter_ne (h : l.Nodup) (p : α) : l.length ≤ (l.filter (· ≠ p)).length + 1 := by
  have hsplit := length_eq_length_filter_add (l := l) fun a => decide (a ≠ p)
  have hcount : (l.filter fun a => !decide (a ≠ p)).length ≤ 1 := by
    have hsame : (l.filter fun a => !decide (a ≠ p)) = l.filter fun a => a == p := by
      refine filter_congr fun a _ => ?_
      by_cases ha : a = p <;> simp [ha]
    rw [hsame, ← count_eq_length_filter]
    exact nodup_iff_count_le_one.mp h p
  omega

theorem filter_ne_eq_self (h : p ∉ l) : l.filter (· ≠ p) = l := by
  refine filter_eq_self.mpr fun a ha => decide_eq_true ?_
  rintro rfl
  exact h ha

/-- The next entry is read without running past the end, as long as there are entries left. -/
theorem skip_next (h : l.Nodup) (hread : (l.take i).filter (· ≠ p) = out)
    (hlen : out.length + 1 < l.length) :
    i < l.length ∧ ∃ a, l[l.skip p i]? = some a ∧
      (l.take (l.skip p i + 1)).filter (· ≠ p) = out ++ [a] := by
  have hcount := length_le_filter_ne (h.sublist (take_sublist i l)) p
  rw [hread, length_take] at hcount
  have hi : i < l.length := by omega
  refine ⟨hi, ?_⟩
  unfold skip
  rw [getElem?_eq_getElem hi]
  split_ifs with heq
  · -- the value stands here, so it is not before
    obtain rfl : l[i] = p := Option.some.inj heq
    have hbefore : l[i] ∉ l.take i := by
      rw [mem_take_iff_getElem]
      rintro ⟨k, hk, hki⟩
      have := h.getElem_inj_iff.mp hki
      omega
    rw [filter_ne_eq_self hbefore] at hread
    have hi' : i + 1 < l.length := by
      rw [← hread, length_take] at hlen
      omega
    have hne : l[i + 1] ≠ l[i] := by
      intro hsame
      have := h.getElem_inj_iff.mp hsame
      omega
    refine ⟨l[i + 1], getElem?_eq_getElem hi', ?_⟩
    rw [take_succ_eq_append_getElem hi', take_succ_eq_append_getElem hi, filter_append,
      filter_append, filter_ne_eq_self hbefore, hread]
    simp [hne]
  · have hne : l[i] ≠ p := fun hsame => heq (congrArg some hsame)
    refine ⟨l[i], getElem?_eq_getElem hi, ?_⟩
    rw [take_succ_eq_append_getElem hi, filter_append, hread]
    simp [hne]

omit [DecidableEq α] in
/-- What has been read so far is the start of all that can be read. -/
theorem filter_take_eq (l : List α) (q : α → Bool) (i : ℕ) :
    (l.take i).filter q = (l.filter q).take ((l.take i).filter q).length := by
  conv_rhs => rw [← take_append_drop i l, filter_append]
  rw [take_append_drop, take_left]

/-- The first `n` entries are read from the first `n + 1` of the list. -/
theorem skip_take (h : l.Nodup) (hn : n < l.length) :
    ((l.take (n + 1)).filter (· ≠ p)).take n = (l.filter (· ≠ p)).take n := by
  have hcount := length_le_filter_ne (h.sublist (take_sublist (n + 1) l)) p
  rw [length_take] at hcount
  rw [filter_take_eq, take_take]
  congr 1
  omega

/-- The blocks of a list of blocks of one length. -/
theorem flatMap_block {β : Type*} {f : ℕ → List β} (hf : ∀ k < n, (f k).length = b) (hj : j < n) :
    (((range n).flatMap f).drop (j * b)).take b = f j := by
  induction n with
  | zero => exact absurd hj (Nat.not_lt_zero j)
  | succ n ih =>
    have hlen : ((range n).flatMap f).length = n * b := by
      rw [length_flatMap, map_congr_left (g := fun _ => b) fun k hk =>
        hf k (Nat.lt_succ_of_lt (mem_range.mp hk))]
      simp
    have hih := ih fun k hk => hf k (Nat.lt_succ_of_lt hk)
    rw [range_succ, flatMap_append, flatMap_singleton]
    rcases Nat.lt_succ_iff_lt_or_eq.mp hj with hlt | rfl
    · have hle : j * b + b ≤ n * b := by
        rw [← Nat.succ_mul]
        exact Nat.mul_le_mul_right b hlt
      rw [drop_append_of_le_length (by omega), take_append_of_le_length (by rw [length_drop]; omega)]
      exact hih hlt
    · rw [← hlen, drop_left]
      exact take_of_length_le (hf j (Nat.lt_succ_self j)).le

end List
