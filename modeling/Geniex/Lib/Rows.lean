import Mathlib.Tactic

/-!
# The rows of a buffer

* `overwrite`: a buffer after rows are written from its first row on. `afterWrite` is a write that
  may fail or not happen; `determined_iff` says when the buffer depends on the new rows only.
* `exists_count_take`: the `k`-th element of a kind.
* `scatter`: the rows of a source, one after the other, at the marked positions. A window of a
  scatter is the scatter of the window, from the row that the marks before it lead to
  (`scatter_window`).
-/

namespace Rows

variable {α : Type*}

/-! ## Writing -/

/-- The buffer after `new` is written from the first row on. -/
def overwrite (old new : List α) : List α := new ++ old.drop new.length

theorem overwrite_length {old new : List α} (h : new.length ≤ old.length) :
    (overwrite old new).length = old.length := by
  rw [overwrite, List.length_append, List.length_drop]
  omega

theorem overwrite_full {old new : List α} (h : old.length ≤ new.length) :
    overwrite old new = new := by
  rw [overwrite, List.drop_eq_nil_of_le h, List.append_nil]

/-- A write that fails if the rows do not fit. -/
def tryWrite (new old : List α) : Option (List α) :=
  if new.length ≤ old.length then some (overwrite old new) else none

theorem tryWrite_full {new old : List α} (h : old.length ≤ new.length) :
    tryWrite new old = if new.length = old.length then some new else none := by
  rw [tryWrite, overwrite_full h]
  exact if_congr ⟨fun hle => hle.antisymm h, fun heq => heq.le⟩ rfl rfl

/-- A write that may not happen at all. -/
def afterWrite (new : Option (List α)) (old : List α) : Option (List α) :=
  match new with
  | none => some old
  | some rows => tryWrite rows old

/-- Rows that are read from a table. A row outside of it holds whatever is there. -/
def fill (outside : ℕ → α) (rows : List (Option α)) : List α :=
  rows.mapIdx fun i r => r.getD (outside i)

@[simp] theorem fill_length (outside : ℕ → α) (rows : List (Option α)) :
    (fill outside rows).length = rows.length := List.length_mapIdx

theorem fill_congr {rows : List (Option α)} (h : ∀ r ∈ rows, r.isSome = true)
    (outside outside' : ℕ → α) : fill outside rows = fill outside' rows := by
  refine List.ext_getElem (by simp) fun i hi _ => ?_
  rw [fill_length] at hi
  obtain ⟨x, hx⟩ := Option.isSome_iff_exists.mp (h _ (List.getElem_mem hi))
  simp [fill, hx]

/-- What a buffer of `n` rows holds after a write depends neither on what it held before nor on
what stands outside the tables. -/
def Determined (n : ℕ) (new : Option (List (Option α))) : Prop :=
  ∀ (outside outside' : ℕ → α) (old old' : List α), old.length = n → old'.length = n →
    afterWrite (new.map (fill outside)) old = afterWrite (new.map (fill outside')) old'

theorem Determined.zero (new : Option (List (Option α))) : Determined 0 new := by
  intro outside outside' old old' hold hold'
  obtain rfl := List.eq_nil_of_length_eq_zero hold
  obtain rfl := List.eq_nil_of_length_eq_zero hold'
  cases new with
  | none => rfl
  | some rows =>
    show tryWrite _ _ = tryWrite _ _
    rw [tryWrite_full (Nat.zero_le _), tryWrite_full (Nat.zero_le _)]
    cases rows with
    | nil => rfl
    | cons r rows => simp [fill]

/-- The new rows reach the end, and none of them is read outside its table, unless the write
fails. -/
theorem determined_of_covers {n : ℕ} {rows : List (Option α)} (hlen : n ≤ rows.length)
    (hinside : rows.length = n → ∀ r ∈ rows, r.isSome = true) : Determined n (some rows) := by
  intro outside outside' old old' hold hold'
  show tryWrite _ _ = tryWrite _ _
  rw [tryWrite_full (by rw [fill_length]; omega), tryWrite_full (by rw [fill_length]; omega),
    fill_length, fill_length, hold, hold']
  by_cases heq : rows.length = n
  · rw [if_pos heq, if_pos heq, fill_congr (hinside heq) outside outside']
  · rw [if_neg heq, if_neg heq]

section Nontrivial

variable [Nontrivial α] {n : ℕ} {rows : List (Option α)}

theorem not_determined_none (hn : n ≠ 0) : ¬Determined n (none : Option (List (Option α))) := by
  intro h
  obtain ⟨a, b, hab⟩ := exists_pair_ne α
  have heq := h (fun _ => a) (fun _ => a) (List.replicate n a) (List.replicate n b)
    List.length_replicate List.length_replicate
  exact hab ((List.replicate_right_inj hn).mp (Option.some.inj heq))

theorem Determined.length_le (h : Determined n (some rows)) : n ≤ rows.length := by
  obtain ⟨a, b, hab⟩ := exists_pair_ne α
  by_contra hlt
  have heq := h (fun _ => a) (fun _ => a) (List.replicate n a) (List.replicate n b)
    List.length_replicate List.length_replicate
  have hfits : ∀ x : α, (fill (fun _ => a) rows).length ≤ (List.replicate n x).length := by
    intro x
    rw [fill_length, List.length_replicate]
    omega
  change tryWrite _ _ = tryWrite _ _ at heq
  rw [tryWrite, tryWrite, if_pos (hfits a), if_pos (hfits b)] at heq
  have hrest := List.append_cancel_left (Option.some.inj heq)
  rw [List.drop_replicate, List.drop_replicate, fill_length] at hrest
  exact hab ((List.replicate_right_inj (by omega)).mp hrest)

theorem Determined.inside (h : Determined n (some rows)) (hlen : rows.length = n) :
    ∀ r ∈ rows, r.isSome = true := by
  obtain ⟨a, b, hab⟩ := exists_pair_ne α
  intro r hr
  obtain ⟨i, hi, rfl⟩ := List.mem_iff_getElem.mp hr
  by_contra hnone
  rw [Option.not_isSome_iff_eq_none] at hnone
  have hold : (List.replicate n a).length = n := List.length_replicate
  have heq := h (fun _ => a) (fun _ => b) _ _ hold hold
  change tryWrite _ _ = tryWrite _ _ at heq
  rw [tryWrite_full (by rw [fill_length, hold, hlen]),
    tryWrite_full (by rw [fill_length, hold, hlen]), fill_length, fill_length, hold, if_pos hlen,
    if_pos hlen] at heq
  have hentry := congrArg (fun l : List α => l[i]?) (Option.some.inj heq)
  simp only [fill, List.getElem?_mapIdx, List.getElem?_eq_getElem hi, Option.map_some, hnone,
    Option.getD_none, Option.some.injEq] at hentry
  exact hab hentry

/-- **When a write determines a buffer**: there are no rows in it, or the new ones reach the end and
are all read inside their tables. A write that fails determines it, too. -/
theorem determined_iff {new : Option (List (Option α))} :
    Determined n new ↔ n = 0 ∨ ∃ rows, new = some rows ∧ n ≤ rows.length ∧
      (rows.length = n → ∀ r ∈ rows, r.isSome = true) := by
  rcases eq_or_ne n 0 with rfl | hn
  · exact iff_of_true (Determined.zero new) (Or.inl rfl)
  · cases new with
    | none =>
      refine iff_of_false (not_determined_none hn) ?_
      rintro (h | ⟨rows, h, -⟩)
      · exact hn h
      · cases h
    | some rows =>
      constructor
      · exact fun h => Or.inr ⟨rows, rfl, h.length_le, h.inside⟩
      · rintro (h | ⟨_, heq, hlen, hinside⟩)
        · exact absurd h hn
        · obtain rfl := Option.some.inj heq
          exact determined_of_covers hlen hinside

/-- Rows that are all read inside their tables. -/
theorem determined_map_some_iff {values : List α} :
    Determined n (some (values.map some)) ↔ n ≤ values.length := by
  constructor
  · exact fun h => h.length_le.trans_eq (List.length_map _)
  · intro hlen
    apply determined_of_covers (hlen.trans_eq (List.length_map _).symm)
    intro _ r hr
    obtain ⟨x, -, rfl⟩ := List.mem_map.mp hr
    rfl

/-- Rows padded up to the `n`-th, if there is a padding row. -/
def padTo {β : Type*} (n : ℕ) (pad : Option β) (rows : List (Option β)) : List (Option β) :=
  match pad with
  | some x => rows ++ List.replicate (n - rows.length) (some x)
  | none => rows

theorem determined_padTo_iff {pad : Option α} :
    Determined n (some (padTo n pad rows)) ↔ n = 0 ∨ (n ≤ rows.length ∨ pad.isSome = true) ∧
      (rows.length ≤ n → ∀ r ∈ rows, r.isSome = true) := by
  rw [determined_iff]
  refine or_congr_right ?_
  cases pad with
  | none =>
    simp only [padTo, Option.some.injEq, exists_eq_left', Option.isSome_none, Bool.false_eq_true,
      or_false]
    exact and_congr_right fun hlen => ⟨fun h hle => h (hle.antisymm hlen), fun h heq => h heq.le⟩
  | some x =>
    simp only [padTo, Option.some.injEq, exists_eq_left', Option.isSome_some, or_true, true_and,
      List.forall_mem_append, List.length_append, List.length_replicate]
    constructor
    · exact fun h hle => (h.2 (by omega)).1
    · intro h
      refine ⟨by omega, fun heq => ⟨h (by omega), fun r hr => ?_⟩⟩
      rw [List.eq_of_mem_replicate hr]
      rfl

end Nontrivial

/-! ## Counting -/

section Count

variable [DecidableEq α] {a : α}

/-- Before an element there are fewer of its kind than in the whole list. -/
theorem count_take_lt {l : List α} {i : ℕ} (hi : l[i]? = some a) :
    (l.take i).count a < l.count a := by
  have hle : (l.take (i + 1)).count a ≤ l.count a := (List.take_sublist _ _).count_le _
  rw [List.take_add_one, hi, Option.toList_some, List.count_append, List.count_singleton_self] at hle
  omega

/-- The `k`-th element of a kind. -/
theorem exists_count_take {l : List α} {k : ℕ} (hk : k < l.count a) :
    ∃ i : ℕ, l[i]? = some a ∧ (l.take i).count a = k := by
  induction l generalizing k with
  | nil => cases hk
  | cons b l ih =>
    by_cases hb : b = a
    · subst hb
      rw [List.count_cons_self] at hk
      cases k with
      | zero => exact ⟨0, rfl, rfl⟩
      | succ k =>
        obtain ⟨i, hi, hcount⟩ := ih (Nat.lt_of_succ_lt_succ hk)
        exact ⟨i + 1, hi, by rw [List.take_succ_cons, List.count_cons_self, hcount]⟩
    · rw [List.count_cons_of_ne hb] at hk
      obtain ⟨i, hi, hcount⟩ := ih hk
      exact ⟨i + 1, hi, by rw [List.take_succ_cons, List.count_cons_of_ne hb, hcount]⟩

end Count

/-! ## Scattering -/

/-- The rows of a source at the marked positions. A position that is not marked gets none, and so
does one that the source has no row left for. -/
def scatter : List Bool → List α → List (Option α)
  | [], _ => []
  | true :: marks, rows => rows.head? :: scatter marks rows.tail
  | false :: marks, rows => none :: scatter marks rows

@[simp] theorem scatter_length (marks : List Bool) (rows : List α) :
    (scatter marks rows).length = marks.length := by
  induction marks generalizing rows with
  | nil => rfl
  | cons b marks ih => cases b <;> simp [scatter, ih]

theorem scatter_append (marks marks' : List Bool) (rows : List α) :
    scatter (marks ++ marks') rows =
      scatter marks rows ++ scatter marks' (rows.drop (marks.count true)) := by
  induction marks generalizing rows with
  | nil => rfl
  | cons b marks ih => cases b <;> simp [scatter, ih]

/-- A marked position gets the row that the marks before it lead to. -/
theorem scatter_getElem? {marks : List Bool} {i : ℕ} (h : marks[i]? = some true) (rows : List α) :
    (scatter marks rows)[i]? = some rows[(marks.take i).count true]? := by
  induction marks generalizing i rows with
  | nil => cases h
  | cons b marks ih =>
    cases i with
    | zero =>
      obtain rfl : b = true := Option.some.inj h
      simp [scatter, List.head?_eq_getElem?]
    | succ i => cases b <;> simp [scatter, ih (i := i) h]

theorem scatter_take (marks : List Bool) (rows : List α) (n : ℕ) :
    (scatter marks rows).take n = scatter (marks.take n) rows := by
  conv_lhs => rw [← List.take_append_drop n marks]
  rw [scatter_append, List.take_append, List.take_of_length_le (by simp)]
  rcases le_total n marks.length with h | h
  · simp [h]
  · simp [List.drop_eq_nil_of_le h, scatter]

/-- Only as many rows are read as positions are marked. -/
theorem scatter_congr {marks : List Bool} {rows rows' : List α}
    (h : rows.take (marks.count true) = rows'.take (marks.count true)) :
    scatter marks rows = scatter marks rows' := by
  induction marks generalizing rows rows' with
  | nil => rfl
  | cons b marks ih =>
    cases b with
    | false => exact congrArg (none :: ·) (ih (by simpa using h))
    | true =>
      rw [List.count_cons_self] at h
      have hhead : rows.head? = rows'.head? := by
        simpa [List.head?_take] using congrArg List.head? h
      have htail : rows.tail.take (marks.count true) = rows'.tail.take (marks.count true) := by
        simpa [← List.drop_one, List.drop_take] using congrArg List.tail h
      exact congrArg₂ List.cons hhead (ih htail)

/-- A window of a scatter. -/
theorem scatter_window (marks : List Bool) (rows : List α) (i n : ℕ) :
    ((scatter marks rows).drop i).take n =
      scatter ((marks.drop i).take n) (rows.drop ((marks.take i).count true)) := by
  rw [← scatter_take]
  congr 1
  conv_lhs => rw [← List.take_append_drop i marks]
  rw [scatter_append, List.drop_append, List.drop_eq_nil_of_le (by simp), List.nil_append]
  rcases le_total i marks.length with h | h
  · simp [h]
  · simp [List.drop_eq_nil_of_le h, scatter]

end Rows
