import Mathlib.Data.List.GetD
import Geniex.SSD.Tree

/-!
# What a row sees

* `parent_lt`, `ancestors_child`: a parent precedes its children, so the loop to the root has enough
  steps.
* `prefillMask_apply`, `treeMask_apply`: the columns that a mask clears.
* `RootPath.visible`: a node of an ascending path sees the past and the path up to itself.
* `RootPath.placed`: the positions along a path are consecutive.
-/

namespace Geniex

open FlatMem

namespace SSDConfig

variable {ssd : SSDConfig}

/-! ## Parents -/

/-- Every link of a tree leads backward. -/
def Backward (tree : List (Option ℕ)) : Prop :=
  ∀ i p : ℕ, tree[i]? = some (some p) → p < i

theorem Backward.append {tree more : List (Option ℕ)} (h : Backward tree)
    (hmore : ∀ i p, more[i]? = some (some p) → p < tree.length + i) : Backward (tree ++ more) := by
  intro i p hi
  rcases Nat.lt_or_ge i tree.length with hlt | hge
  · rw [List.getElem?_append_left hlt] at hi
    exact h i p hi
  · rw [List.getElem?_append_right hge] at hi
    have := hmore _ _ hi
    omega

theorem genLevels_backward (branches : List ℕ) (start : ℕ) (tree : List (Option ℕ))
    (nodes : List ℕ) (h : Backward tree) (hstart : start ≤ tree.length) :
    Backward (genLevels branches start tree nodes).1 := by
  induction branches generalizing start tree nodes with
  | nil => exact h
  | cons b bs ih =>
    apply ih
    · apply h.append
      intro i p hi
      -- the parents of a level are the nodes of the level before
      obtain ⟨node, hnode, hp⟩ := List.mem_flatMap.mp (List.mem_of_getElem? hi)
      obtain rfl : p = node := by simpa using List.eq_of_mem_replicate hp
      have := List.mem_range'_1.mp hnode
      omega
    · rw [List.length_append]
      omega

theorem forecastChain_backward {node first : ℕ} (h : node < first) (i p : ℕ)
    (hi : (ssd.forecastChain node first)[i]? = some (some p)) : p < first + i := by
  unfold forecastChain at hi
  cases i with
  | zero =>
    obtain rfl : node = p := by simpa using hi
    omega
  | succ i =>
    rw [List.getElem?_cons_succ, List.getElem?_map] at hi
    obtain ⟨d, hd, hp⟩ := Option.map_eq_some_iff.mp hi
    obtain rfl : first + d = p := by simpa using hp
    obtain rfl : d = i := by
      have := List.getElem?_eq_some_iff.mp hd
      obtain ⟨_, hd⟩ := this
      rw [List.getElem_range] at hd
      exact hd.symm
    omega

/-- A parent precedes its children. -/
theorem attentionMap_backward (ssd : SSDConfig) : Backward ssd.attentionMap := by
  have hloop : ∀ n ≤ ssd.numDraftNodes,
      Backward ((List.range n).foldl
        (fun tree node => tree ++ ssd.forecastChain node tree.length) ssd.levels.1) ∧
      ssd.numDraftNodes ≤ ((List.range n).foldl
        (fun tree node => tree ++ ssd.forecastChain node tree.length) ssd.levels.1).length := by
    intro n
    induction n with
    | zero =>
      refine fun _ => ⟨genLevels_backward _ _ _ _ ?_ (Nat.zero_le _), le_rfl⟩
      intro i p hi
      rcases i with _ | i <;> simp at hi
    | succ n ih =>
      intro hn
      obtain ⟨hback, hlen⟩ := ih (by omega)
      rw [List.range_succ, List.foldl_append, List.foldl_cons, List.foldl_nil]
      refine ⟨hback.append fun i p hi => forecastChain_backward (by omega) i p hi, ?_⟩
      rw [List.length_append]
      omega
  exact (hloop _ le_rfl).1

theorem parent_lt {i p : ℕ} (h : ssd.parent i = some p) : p < i := by
  unfold parent at h
  rw [List.getD_eq_getElem?_getD] at h
  cases hi : ssd.attentionMap[i]? with
  | none => simp [hi] at h
  | some q =>
    rw [hi, Option.getD_some] at h
    exact ssd.attentionMap_backward i p (hi.trans (congrArg some h))

/-- Any number of steps past the node's index is enough. -/
theorem ancestorsFrom_congr (fuel : ℕ) : ∀ fuel' i, i < fuel → i < fuel' →
    ssd.ancestorsFrom fuel i = ssd.ancestorsFrom fuel' i := by
  induction fuel with
  | zero => exact fun fuel' i h => absurd h (Nat.not_lt_zero i)
  | succ fuel ih =>
    intro fuel' i hi hi'
    obtain ⟨k, rfl⟩ : ∃ k, fuel' = k + 1 := ⟨fuel' - 1, by omega⟩
    unfold ancestorsFrom
    cases hp : ssd.parent i with
    | none => rfl
    | some p =>
      have hlt := parent_lt hp
      exact congrArg (p :: ·) (ih k p (by omega) (by omega))

theorem ancestors_root {i : ℕ} (h : ssd.parent i = none) : ssd.ancestors i = [] := by
  unfold ancestors ancestorsFrom
  rw [h]

theorem ancestors_child {i p : ℕ} (h : ssd.parent i = some p) :
    ssd.ancestors i = p :: ssd.ancestors p := by
  have hlt := parent_lt h
  unfold ancestors
  rw [ancestorsFrom, h]
  exact congrArg (p :: ·) (ancestorsFrom_congr _ _ _ (by omega) (by omega))

theorem ancestors_lt {i j : ℕ} (h : j ∈ ssd.ancestors i) : j < i := by
  induction i using Nat.strong_induction_on generalizing j with
  | _ i ih =>
    cases hp : ssd.parent i with
    | none => simp [ancestors_root hp] at h
    | some p =>
      have hlt := parent_lt hp
      rw [ancestors_child hp] at h
      rcases List.mem_cons.mp h with rfl | h
      · exact hlt
      · exact (ih p hlt h).trans hlt

/-! ## The masks -/

theorem foldl_update_apply (l : List ℕ) (first i : ℕ) (m : ℕ → ℤ) :
    l.foldl (fun m j => Function.update m (first + j) 0) m i =
      if ∃ j ∈ l, i = first + j then 0 else m i := by
  induction l generalizing m with
  | nil => simp
  | cons a l ih =>
    rw [List.foldl_cons, ih, Function.update_apply]
    by_cases h : ∃ j ∈ l, i = first + j
    · rw [if_pos h, if_pos]
      obtain ⟨j, hj, hi⟩ := h
      exact ⟨j, List.mem_cons_of_mem _ hj, hi⟩
    · rw [if_neg h]
      simp only [List.mem_cons, exists_eq_or_imp, h, or_false]

variable {nPast n seqLen kvLen offset row col : ℕ}

theorem treeMaskRow_apply (ssd : SSDConfig) (m : ℕ → ℤ) (row i : ℕ) :
    ssd.treeMaskRow nPast seqLen kvLen offset row m i =
      if (∃ j ∈ row :: ssd.ancestors row, i = row * (kvLen + seqLen) + (kvLen + j)) ∨
        row * (kvLen + seqLen) + ssd.firstPast offset row ≤ i ∧
          i < row * (kvLen + seqLen) + ssd.firstPast offset row + (nPast - ssd.firstPast offset row)
      then 0 else m i := by
  have hassoc : ∀ j, row * (kvLen + seqLen) + (kvLen + j) = row * (kvLen + seqLen) + kvLen + j :=
    fun j => by omega
  unfold treeMaskRow
  simp only [hassoc]
  rw [foldl_update_apply, clearRun_apply]
  by_cases hanc : ∃ j ∈ row :: ssd.ancestors row, i = row * (kvLen + seqLen) + kvLen + j
  · rw [if_pos hanc, if_pos (Or.inl hanc)]
  · rw [if_neg hanc]
    simp only [hanc, false_or]

/-- Row `i` of a tree mask sees the past from its first column on, itself and its ancestors. -/
theorem treeMask_apply (hn : n ≤ seqLen) (hpast : nPast ≤ kvLen) (hrow : row < n)
    (hcol : col < kvLen + seqLen) :
    ssd.buildTreeAttentionMask nPast n seqLen kvLen offset (row * (kvLen + seqLen) + col) = 0 ↔
      (ssd.firstPast offset row ≤ col ∧ col < nPast) ∨
        ∃ j ∈ row :: ssd.ancestors row, col = kvLen + j := by
  have hin : ∀ k < n, ∀ j ∈ k :: ssd.ancestors k, j < seqLen := by
    intro k hk j hj
    rcases List.mem_cons.mp hj with rfl | hj
    · omega
    · have := ancestors_lt hj
      omega
  unfold buildTreeAttentionMask
  rw [upto_rows ?_ ?_ hcol, if_pos hrow, treeMaskRow_apply]
  · constructor
    · intro h
      split_ifs at h with hc
      · rcases hc with ⟨j, hj, hcj⟩ | hc
        · exact Or.inr ⟨j, hj, by omega⟩
        · exact Or.inl ⟨by omega, by omega⟩
      · cases h
    · rintro (⟨h1, h2⟩ | ⟨j, hj, hc⟩)
      · rw [if_pos (Or.inr ⟨by omega, by omega⟩)]
      · rw [if_pos (Or.inl ⟨j, hj, by omega⟩)]
  · intro k hk m i hi
    rw [treeMaskRow_apply, if_neg]
    rintro (⟨j, hj, hij⟩ | h)
    · have := hin k hk j hj
      omega
    · omega
  · intro k m m' i hm
    rw [treeMaskRow_apply, treeMaskRow_apply, hm]

/-- Row `i` of a prefill mask sees the past from the end of the forecast prefix on, and the
chunk's columns up to its own. -/
theorem prefillMask_apply (hn : n ≤ seqLen) (hpast : nPast ≤ kvLen) (hrow : row < n)
    (hcol : col < kvLen + seqLen) :
    ssd.prefillMask nPast n seqLen kvLen (row * (kvLen + seqLen) + col) = 0 ↔
      (ssd.forecastPrefix ≤ col ∧ col < nPast) ∨ kvLen ≤ col ∧ col ≤ kvLen + row := by
  have happly : ∀ k m i, ssd.prefillMaskRow nPast seqLen kvLen k m i =
      if (k * (kvLen + seqLen) + kvLen ≤ i ∧ i < k * (kvLen + seqLen) + kvLen + (k + 1)) ∨
        (k * (kvLen + seqLen) + ssd.forecastPrefix ≤ i ∧
          i < k * (kvLen + seqLen) + ssd.forecastPrefix + (nPast - ssd.forecastPrefix))
      then 0 else m i := by
    intro k m i
    unfold prefillMaskRow
    rw [clearRun_apply, clearRun_apply]
    split_ifs <;> first | rfl | tauto
  unfold prefillMask
  rw [upto_rows ?_ ?_ hcol, if_pos hrow, happly]
  · constructor
    · intro h
      split_ifs at h with hc
      · omega
      · cases h
    · intro h
      rw [if_pos (by omega)]
  · intro k hk m i hi
    rw [happly, if_neg (by omega)]
  · intro k m m' i hm
    rw [happly, happly, hm]

/-! ## The visible columns -/

/-- The past columns that a row sees. -/
def visiblePast (mask : ℕ → ℤ) (seqLen kvLen row : ℕ) : List ℕ :=
  (List.range kvLen).filter fun c => mask (row * (kvLen + seqLen) + c) = 0

/-- The columns of the current block that a row sees. -/
def visibleBlock (mask : ℕ → ℤ) (seqLen kvLen row : ℕ) : List ℕ :=
  (List.range seqLen).filter fun j => mask (row * (kvLen + seqLen) + (kvLen + j)) = 0

theorem visiblePast_eq {mask : ℕ → ℤ} {first : ℕ} (hpast : nPast ≤ kvLen)
    (h : ∀ c < kvLen, mask (row * (kvLen + seqLen) + c) = 0 ↔ first ≤ c ∧ c < nPast) :
    visiblePast mask seqLen kvLen row = List.range' first (nPast - first) := by
  apply List.Pairwise.eq_of_mem_iff (List.pairwise_lt_range.filter _) List.pairwise_lt_range'
  intro c
  simp only [List.mem_filter, List.mem_range, decide_eq_true_eq, List.mem_range'_1]
  constructor
  · rintro ⟨hc, hm⟩
    have := (h c hc).mp hm
    omega
  · intro hc
    exact ⟨by omega, (h c (by omega)).mpr (by omega)⟩

theorem visibleBlock_eq {mask : ℕ → ℤ} {cols : List ℕ} (hasc : cols.Pairwise (· < ·))
    (hin : ∀ j ∈ cols, j < seqLen)
    (h : ∀ j < seqLen, mask (row * (kvLen + seqLen) + (kvLen + j)) = 0 ↔ j ∈ cols) :
    visibleBlock mask seqLen kvLen row = cols := by
  apply List.Pairwise.eq_of_mem_iff (List.pairwise_lt_range.filter _) hasc
  intro j
  simp only [List.mem_filter, List.mem_range, decide_eq_true_eq]
  exact ⟨fun hj => (h j hj.1).mp hj.2, fun hj => ⟨hin j hj, (h j (hin j hj)).mpr hj⟩⟩

/-- A chunk's row sees the past without the forecast prefix, and the chunk up to itself. -/
theorem visible_prefill (ssd : SSDConfig) (hn : n ≤ seqLen) (hpast : nPast ≤ kvLen) (hrow : row < n) :
    visiblePast (ssd.prefillMask nPast n seqLen kvLen) seqLen kvLen row =
        List.range' ssd.forecastPrefix (nPast - ssd.forecastPrefix) ∧
      visibleBlock (ssd.prefillMask nPast n seqLen kvLen) seqLen kvLen row =
        List.range (row + 1) := by
  constructor
  · refine visiblePast_eq hpast fun c hc => ?_
    rw [prefillMask_apply hn hpast hrow (by omega)]
    omega
  · refine visibleBlock_eq List.pairwise_lt_range (fun j hj => ?_) fun j hj => ?_
    · have := List.mem_range.mp hj
      omega
    · rw [prefillMask_apply hn hpast hrow (by omega), List.mem_range]
      omega

/-! ## Paths -/

/-- A path down from the root. -/
inductive RootPath (ssd : SSDConfig) : List ℕ → Prop
  | root : RootPath ssd [0]
  | child {ids : List ℕ} {i : ℕ} (h : RootPath ssd ids) (hi : ssd.parent i = ids.getLast?) :
      RootPath ssd (ids ++ [i])

theorem parent_root (ssd : SSDConfig) : ssd.parent 0 = none := by
  cases h : ssd.parent 0 with
  | none => rfl
  | some p => exact absurd (parent_lt h) (Nat.not_lt_zero p)

theorem RootPath.exists_last {ids : List ℕ} (h : RootPath ssd ids) :
    ∃ i, ids.getLast? = some i := by
  cases h with
  | root => exact ⟨0, rfl⟩
  | child h hi => exact ⟨_, List.getLast?_concat⟩

/-- The last node of a path and its ancestors are the path. -/
theorem RootPath.mem_ancestors {ids : List ℕ} (h : RootPath ssd ids) {i : ℕ}
    (hi : ids.getLast? = some i) (j : ℕ) : j ∈ i :: ssd.ancestors i ↔ j ∈ ids := by
  induction h generalizing i with
  | root =>
    obtain rfl : 0 = i := by simpa using hi
    rw [ancestors_root ssd.parent_root]
  | child h hparent ih =>
    rename_i ids k
    obtain rfl : k = i := by simpa using hi
    obtain ⟨p, hp⟩ := h.exists_last
    rw [ancestors_child (hparent.trans hp), List.mem_cons, ih hp, List.mem_append,
      List.mem_singleton, or_comm]

/-- The node at the end of an ascending path sees the past without the forecast prefix, and the
path. -/
theorem RootPath.visible {ids : List ℕ} {i : ℕ} (h : RootPath ssd ids)
    (hasc : ids.Pairwise (· < ·)) (hi : ids.getLast? = some i) (hn : n ≤ seqLen)
    (hpast : nPast ≤ kvLen) (hrow : i < n) (hoffset : i < offset) :
    visiblePast (ssd.buildTreeAttentionMask nPast n seqLen kvLen offset) seqLen kvLen i =
        List.range' ssd.forecastPrefix (nPast - ssd.forecastPrefix) ∧
      visibleBlock (ssd.buildTreeAttentionMask nPast n seqLen kvLen offset) seqLen kvLen i =
        ids := by
  have hfirst : ssd.firstPast offset i = ssd.forecastPrefix := if_pos hoffset
  have hle : ∀ j ∈ i :: ssd.ancestors i, j ≤ i := by
    intro j hj
    rcases List.mem_cons.mp hj with rfl | hj
    · exact le_rfl
    · exact (ancestors_lt hj).le
  constructor
  · refine visiblePast_eq hpast fun c hc => ?_
    rw [treeMask_apply hn hpast hrow (by omega), hfirst]
    refine or_iff_left ?_
    rintro ⟨j, -, hj⟩
    omega
  · refine visibleBlock_eq hasc (fun j hj => ?_) fun j hj => ?_
    · have := hle j ((h.mem_ancestors hi j).mpr hj)
      omega
    · rw [treeMask_apply hn hpast hrow (by omega), ← h.mem_ancestors hi j]
      constructor
      · rintro (hlt | ⟨k, hk, hjk⟩)
        · omega
        · obtain rfl : j = k := by omega
          exact hk
      · exact fun hj => Or.inr ⟨j, hj, rfl⟩

/-! ## Positions -/

theorem treePositions_length (nPast n : ℕ) : (ssd.treePositions nPast n).length = n := by
  induction n with
  | zero => rfl
  | succ n ih =>
    unfold treePositions
    cases ssd.parent n <;> simp [ih]

/-- The position of a token is the root's, or one past its parent's. -/
theorem treePositions_getD {i : ℕ} (hi : i < n) :
    (ssd.treePositions nPast n).getD i 0 =
      match ssd.parent i with
      | none => Int32.ofInt ((nPast : ℤ) - ssd.forecastPrefix)
      | some p => (ssd.treePositions nPast n).getD p 0 + 1 := by
  induction n with
  | zero => exact absurd hi (Nat.not_lt_zero i)
  | succ n ih =>
    have hlen := ssd.treePositions_length nPast n
    -- earlier positions stay
    have hold : ∀ j < n, (ssd.treePositions nPast (n + 1)).getD j 0 =
        (ssd.treePositions nPast n).getD j 0 := by
      intro j hj
      rw [treePositions]
      cases ssd.parent n <;> exact List.getD_append _ _ _ _ (by omega)
    rcases Nat.lt_succ_iff_lt_or_eq.mp hi with hlt | rfl
    · rw [hold i hlt, ih hlt]
      cases hp : ssd.parent i with
      | none => rfl
      | some p =>
        have := parent_lt hp
        exact congrArg (· + 1) (hold p (by omega)).symm
    · cases hp : ssd.parent i with
      | none =>
        rw [treePositions, hp, List.getD_append_right _ _ _ _ (by omega), hlen, Nat.sub_self]
        rfl
      | some p =>
        have hlt := parent_lt hp
        show _ = (ssd.treePositions nPast (i + 1)).getD p 0 + 1
        rw [hold p hlt, treePositions, hp, List.getD_append_right _ _ _ _ (by omega), hlen,
          Nat.sub_self]
        rfl

/-- Tokens with their positions, from position `k` on. -/
def placedFrom : ℕ → List Int32 → List (Int32 × Int32)
  | _, [] => []
  | k, t :: ts => (t, Int32.ofNat k) :: placedFrom (k + 1) ts

@[simp] theorem placedFrom_length (k : ℕ) (ts : List Int32) :
    (placedFrom k ts).length = ts.length := by
  induction ts generalizing k with
  | nil => rfl
  | cons t ts ih => simp [placedFrom, ih]

theorem placedFrom_append (k : ℕ) (a b : List Int32) :
    placedFrom k (a ++ b) = placedFrom k a ++ placedFrom (k + a.length) b := by
  induction a generalizing k with
  | nil => rfl
  | cons t a ih =>
    rw [List.cons_append, placedFrom, placedFrom, ih, List.length_cons, List.cons_append,
      show k + 1 + a.length = k + (a.length + 1) by omega]

/-- The positions along a path from the root are consecutive, from the end of the past on. -/
theorem RootPath.placed {ids : List ℕ} {k : ℕ} (h : RootPath ssd ids) (tokens : List Int32)
    (hin : ∀ i ∈ ids, i < n) (hpast : nPast = ssd.forecastPrefix + k) :
    ids.map (fun i => (tokens.getD i 0, (ssd.computeTreePositionIds nPast n).getD i 0)) =
      placedFrom k (ids.map fun i => tokens.getD i 0) := by
  unfold computeTreePositionIds
  have hbase : (nPast : ℤ) - ssd.forecastPrefix = (k : ℤ) := by omega
  -- with the position of the last node, for the next one
  suffices hall : ids.map (fun i => (tokens.getD i 0, (ssd.treePositions nPast n).getD i 0)) =
      placedFrom k (ids.map fun i => tokens.getD i 0) ∧
      ∀ i, ids.getLast? = some i →
        (ssd.treePositions nPast n).getD i 0 + 1 = Int32.ofNat (k + ids.length) from hall.1
  induction h with
  | root =>
    have hroot : (ssd.treePositions nPast n).getD 0 0 = Int32.ofNat k := by
      rw [treePositions_getD (hin 0 (by simp)), ssd.parent_root]
      dsimp only
      rw [hbase, Int32.ofInt_eq_ofNat]
    refine ⟨by simp only [List.map_cons, List.map_nil, placedFrom, hroot], fun i hi => ?_⟩
    obtain rfl : 0 = i := by simpa using hi
    rw [hroot, List.length_singleton, Int32.ofNat_add]
    rfl
  | child h hparent ih =>
    rename_i ids i
    obtain ⟨hmap, hlast⟩ := ih fun j hj => hin j (List.mem_append_left _ hj)
    obtain ⟨p, hp⟩ := h.exists_last
    have hpos : (ssd.treePositions nPast n).getD i 0 = Int32.ofNat (k + ids.length) := by
      rw [treePositions_getD (hin i (by simp)), hparent.trans hp]
      exact hlast p hp
    refine ⟨?_, fun j hj => ?_⟩
    · rw [List.map_append, List.map_append, placedFrom_append, hmap, List.length_map]
      simp only [List.map_cons, List.map_nil, placedFrom, hpos]
    · obtain rfl : i = j := by simpa using hj
      rw [hpos, List.length_append, List.length_singleton, ← Nat.add_assoc,
        Int32.ofNat_add (k + ids.length) 1]
      rfl

end SSDConfig

end Geniex
