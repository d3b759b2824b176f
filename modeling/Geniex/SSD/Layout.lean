import Geniex.Lib.LevelTree
import Geniex.SSD.Generate
import Geniex.SSD.Rows

/-!
# The layout of a draft tree

* `levels_eq`: the draft nodes stand level by level.
* `parent_forecast`: the chain of forecast tokens of a node, after all draft nodes.
* `treeMask_visible`, `treePositions_depth`: what a row of a tree pass sees, and where it stands.
* `attentionMap_layout`: the layout as a whole.
-/

namespace Geniex

open FlatMem LevelTree

namespace SSDConfig

variable {ssd : SSDConfig}

/-! ## The draft nodes -/

theorem children_eq (bs : List ℕ) (d : ℕ) :
    children (bs.getD d 0) (first bs d) (first bs (d + 1)) = levelParents bs d := by
  unfold children levelParents
  rw [first_succ, Nat.add_sub_cancel_left, flatMap_replicate]

theorem levelParents_length {bs : List ℕ} {d : ℕ} (h : d < bs.length) :
    (levelParents bs d).length = width bs (d + 1) := by
  rw [levelParents, List.length_map, List.length_range, width_succ h]

theorem genLevels_eq (bs : List ℕ) (n : ℕ) : ∀ (d : ℕ) (nodes : List ℕ), d + n = bs.length →
    genLevels (bs.drop d) (first bs d) (parents bs d) nodes =
      (parents bs bs.length, nodes ++ (List.range' d n).map fun e => width bs (e + 1)) := by
  induction n with
  | zero =>
    intro d nodes hd
    obtain rfl : d = bs.length := hd
    simp [genLevels]
  | succ n ih =>
    intro d nodes hd
    have hlt : d < bs.length := by omega
    have hlevel : children bs[d] (first bs d) (parents bs d).length = levelParents bs d := by
      rw [parents_length hlt.le, ← children_eq, List.getD_eq_getElem _ _ hlt]
    rw [List.drop_eq_getElem_cons hlt, genLevels, hlevel, parents_length hlt.le,
      levelParents_length hlt, show parents bs d ++ levelParents bs d = parents bs (d + 1) from rfl,
      ih (d + 1) _ (by omega), List.range'_succ, List.map_cons, List.append_assoc,
      List.singleton_append]

/-- The draft nodes stand level by level. -/
theorem levels_eq (ssd : SSDConfig) :
    ssd.levels = (parents ssd.branches ssd.draftLevels,
      (List.range ssd.draftLevels).map fun e => width ssd.branches (e + 1)) := by
  have := genLevels_eq ssd.branches ssd.branches.length 0 [] (Nat.zero_add _)
  rw [List.drop_zero, List.nil_append, ← List.range_eq_range'] at this
  exact this

/-- The number of draft nodes: the sum of the widths of the levels. -/
theorem numDraftNodes_eq (ssd : SSDConfig) :
    ssd.numDraftNodes = first ssd.branches (ssd.draftLevels + 1) := by
  unfold numDraftNodes
  rw [levels_eq]
  exact parents_length le_rfl

/-! ## The forecast chains -/

theorem forecastChain_length (h : 0 < ssd.draftLevels) (node start : ℕ) :
    (ssd.forecastChain node start).length = ssd.draftLevels := by
  unfold forecastChain
  rw [List.length_cons, List.length_map, List.length_range]
  omega

/-- The tree after the chains of the first `n` nodes. -/
def chains (ssd : SSDConfig) (n : ℕ) : List (Option ℕ) :=
  (List.range n).foldl (fun tree node => tree ++ ssd.forecastChain node tree.length) ssd.levels.1

theorem chains_succ (ssd : SSDConfig) (n : ℕ) :
    ssd.chains (n + 1) = ssd.chains n ++ ssd.forecastChain n (ssd.chains n).length := by
  unfold chains
  rw [List.range_succ, List.foldl_append, List.foldl_cons, List.foldl_nil]

theorem attentionMap_eq (ssd : SSDConfig) : ssd.attentionMap = ssd.chains ssd.numDraftNodes := rfl

theorem chains_length (h : 0 < ssd.draftLevels) (n : ℕ) :
    (ssd.chains n).length = ssd.numDraftNodes + n * ssd.draftLevels := by
  induction n with
  | zero => exact (Nat.add_zero _).symm.trans (congrArg _ (Nat.zero_mul _).symm)
  | succ n ih =>
    rw [chains_succ, List.length_append, ih, forecastChain_length h, Nat.succ_mul, Nat.add_assoc]

theorem chains_draft {n i : ℕ} (hi : i < ssd.numDraftNodes) :
    (ssd.chains n)[i]? = ssd.levels.1[i]? := by
  induction n with
  | zero => rfl
  | succ n ih =>
    have hlen : i < (ssd.chains n).length := by
      rw [List.getElem?_eq_getElem (show i < ssd.levels.1.length from hi)] at ih
      exact (List.getElem?_eq_some_iff.mp ih).1
    rw [chains_succ, List.getElem?_append_left hlen, ih]

theorem chains_forecast (h : 0 < ssd.draftLevels) {n i k : ℕ} (hi : i < n)
    (hk : k < ssd.draftLevels) :
    (ssd.chains n)[ssd.numDraftNodes + i * ssd.draftLevels + k]? =
      some (some (if k = 0 then i else ssd.numDraftNodes + i * ssd.draftLevels + k - 1)) := by
  induction n with
  | zero => exact absurd hi (Nat.not_lt_zero i)
  | succ n ih =>
    have hlen := ssd.chains_length h n
    rw [chains_succ]
    rcases Nat.lt_succ_iff_lt_or_eq.mp hi with hlt | rfl
    · have := FlatMem.row_le (w := ssd.draftLevels) (show i + 1 ≤ n from hlt)
      rw [Nat.succ_mul] at this
      rw [List.getElem?_append_left (by omega)]
      exact ih hlt
    · rw [List.getElem?_append_right (by omega), hlen, Nat.add_sub_cancel_left, forecastChain]
      cases k with
      | zero => rfl
      | succ k =>
        rw [List.getElem?_cons_succ, List.getElem?_map, List.getElem?_range (by omega)]
        exact congrArg (fun p => some (some p)) (by simp)

/-! ## Parents -/

theorem parent_of_getElem? {i : ℕ} {p : Option ℕ} (h : ssd.attentionMap[i]? = some p) :
    ssd.parent i = p := by
  unfold parent
  rw [List.getD_eq_getElem?_getD, h, Option.getD_some]

/-- An entry of the map for each draft node and each of its forecast tokens. -/
theorem attentionMap_length (h : 0 < ssd.draftLevels) :
    ssd.attentionMap.length = ssd.numDraftNodes + ssd.numDraftNodes * ssd.draftLevels :=
  ssd.chains_length h _

/-- The parent of draft node `m` of a level is node `m / b` of the level before. -/
theorem attentionMap_draft {d m : ℕ} (hd : d < ssd.draftLevels)
    (hm : m < width ssd.branches (d + 1)) :
    ssd.attentionMap[first ssd.branches (d + 1) + m]? =
      some (some (first ssd.branches d + m / ssd.branches.getD d 0)) := by
  have hlt : first ssd.branches (d + 1) + m < ssd.numDraftNodes := by
    have := first_mono ssd.branches (show d + 2 ≤ ssd.draftLevels + 1 by omega)
    rw [first_succ _ (d + 1)] at this
    rw [numDraftNodes_eq]
    omega
  rw [attentionMap_eq, chains_draft hlt, levels_eq]
  exact parents_at hd le_rfl hm

theorem attentionMap_root (ssd : SSDConfig) : ssd.attentionMap[0]? = some none := by
  have hpos : 0 < ssd.numDraftNodes := by
    rw [numDraftNodes_eq]
    exact Nat.lt_of_lt_of_le Nat.one_pos
      ((first_one ssd.branches).symm.le.trans (first_mono _ (by omega)))
  rw [attentionMap_eq, chains_draft hpos, levels_eq]
  exact parents_root _

theorem parent_draft {d m : ℕ} (hd : d < ssd.draftLevels) (hm : m < width ssd.branches (d + 1)) :
    ssd.parent (first ssd.branches (d + 1) + m) =
      some (first ssd.branches d + m / ssd.branches.getD d 0) :=
  parent_of_getElem? (attentionMap_draft hd hm)

/-! ## The length of a path -/

/-- A path of the draft tree: its last row stands as deep as the path is long. -/
def ReachesDepth (ssd : SSDConfig) (accepted : List Int32 × List ℕ) : Prop :=
  accepted.1.length = accepted.2.length ∧ ∃ d ≤ ssd.draftLevels, ∃ m < width ssd.branches d,
    accepted.2.length = d + 1 ∧ accepted.2.getLast? = some (first ssd.branches d + m)

/-- A child of the last row of a path is one level deeper. -/
theorem ReachesDepth.extend {tokens : List Int32} {ids : List ℕ} {i : ℕ}
    (h : ssd.ReachesDepth (tokens, ids)) (hi : i < ssd.numDraftNodes)
    (hparent : ssd.parent i = ids.getLast?) (t : Int32) :
    ssd.ReachesDepth (tokens ++ [t], ids ++ [i]) := by
  obtain ⟨hlen, d, -, m, hm, hdepth, hlast⟩ := h
  dsimp only at hlen hdepth hlast
  rw [numDraftNodes_eq] at hi
  obtain ⟨e, he, k, hk, rfl⟩ := exists_level _ i hi
  rw [hlast] at hparent
  cases e with
  | zero =>
    obtain rfl : k = 0 := Nat.lt_one_iff.mp hk
    rw [show first ssd.branches 0 + 0 = 0 from rfl, parent_of_getElem? (attentionMap_root ssd)]
      at hparent
    cases hparent
  | succ e =>
    have hlt : e < ssd.draftLevels := by omega
    rw [parent_draft hlt hk] at hparent
    rw [width_succ hlt] at hk
    obtain ⟨rfl, -⟩ := level_unique (Nat.div_lt_of_lt_mul (by rwa [Nat.mul_comm])) hm
      (Option.some.inj hparent)
    refine ⟨by simp [hlen], e + 1, hlt, k, by rwa [width_succ hlt], by simp [hdepth], by simp⟩

theorem verifyFrom_reachesDepth {eos : Int32 → Bool} {answer : ℕ → Int32} {tree : List Int32}
    (rest : List ℕ) (tokens : List Int32) (ids : List ℕ) (hrest : ∀ i ∈ rest, i < ssd.numDraftNodes)
    (h : ssd.ReachesDepth (tokens, ids)) :
    ssd.ReachesDepth (ssd.verifyFrom eos answer tree rest tokens ids) := by
  induction rest generalizing tokens ids with
  | nil => exact h
  | cons i rest ih =>
    have hi := hrest i List.mem_cons_self
    have hmore : ∀ j ∈ rest, j < ssd.numDraftNodes := fun j hj => hrest j (List.mem_cons_of_mem _ hj)
    unfold verifyFrom
    split_ifs with hnext heos
    · exact h.extend hi hnext.1 _
    · exact ih _ _ hmore (h.extend hi hnext.1 _)
    · exact ih _ _ hmore h

/-- An accepted path has a token for the root and at most one for each level. -/
theorem verifyDraftTree_length_le (eos : Int32 → Bool) (answer : ℕ → Int32) (tree : List Int32) :
    (ssd.verifyDraftTree eos answer tree).1.length ≤ ssd.draftLevels + 1 := by
  have hroot : ssd.ReachesDepth ([answer 0], [0]) :=
    ⟨rfl, 0, Nat.zero_le _, 0, Nat.one_pos, rfl, rfl⟩
  have hpath : ssd.ReachesDepth (ssd.verifyDraftTree eos answer tree) := by
    unfold verifyDraftTree
    split_ifs
    · exact hroot
    · refine verifyFrom_reachesDepth _ _ _ (fun i hi => ?_) hroot
      have := List.mem_range'_1.mp hi
      omega
  obtain ⟨hlen, d, hd, m, -, hdepth, -⟩ := hpath
  omega

/-- Forecast token `k` of node `i`. -/
def forecastAt (ssd : SSDConfig) (i k : ℕ) : ℕ := ssd.numDraftNodes + i * ssd.draftLevels + k

/-- The parent of a forecast token is the forecast token before it, or the node itself. -/
theorem attentionMap_forecast {i k : ℕ} (hi : i < ssd.numDraftNodes) (hk : k < ssd.draftLevels) :
    ssd.attentionMap[ssd.forecastAt i k]? =
      some (some (if k = 0 then i else ssd.forecastAt i (k - 1))) := by
  rw [attentionMap_eq, forecastAt, chains_forecast (by omega) hi hk]
  unfold forecastAt
  split_ifs with h0
  · rfl
  · exact congrArg (fun p => some (some p)) (by omega)

/-- The chain of a forecast token: its earlier forecasts, then its node. -/
theorem ancestors_forecast {i k : ℕ} (hi : i < ssd.numDraftNodes) (hk : k < ssd.draftLevels) :
    ssd.ancestors (ssd.forecastAt i k) =
      (List.range k).reverse.map (ssd.forecastAt i) ++ i :: ssd.ancestors i := by
  induction k with
  | zero =>
    have := parent_of_getElem? (attentionMap_forecast hi hk)
    rw [if_pos rfl] at this
    rw [ancestors_child this]
    rfl
  | succ k ih =>
    have := parent_of_getElem? (attentionMap_forecast hi hk)
    rw [if_neg (Nat.succ_ne_zero k), Nat.add_sub_cancel] at this
    rw [ancestors_child this, ih (by omega), List.range_succ, List.reverse_append]
    rfl

/-- Every entry is a draft node or a forecast token of one. -/
theorem entry_cases (h : 0 < ssd.draftLevels) {i : ℕ} (hi : i < ssd.attentionMap.length) :
    i < ssd.numDraftNodes ∨
      ∃ x < ssd.numDraftNodes, ∃ k < ssd.draftLevels, i = ssd.forecastAt x k := by
  rw [attentionMap_length h] at hi
  rcases Nat.lt_or_ge i ssd.numDraftNodes with hlt | hge
  · exact Or.inl hlt
  · right
    obtain ⟨x, hx⟩ := Nat.exists_eq_add_of_le hge
    have hdiv := Nat.div_add_mod x ssd.draftLevels
    refine ⟨x / ssd.draftLevels, Nat.div_lt_of_lt_mul (by rw [Nat.mul_comm]; omega),
      x % ssd.draftLevels, Nat.mod_lt _ h, ?_⟩
    rw [forecastAt, Nat.mul_comm (x / ssd.draftLevels)]
    omega

/-- The root is the only entry without a parent. -/
theorem exists_parent (h : 0 < ssd.draftLevels) {i : ℕ} (hi : i < ssd.attentionMap.length)
    (h0 : i ≠ 0) : ∃ p, ssd.parent i = some p := by
  rcases entry_cases h hi with hlt | ⟨x, hx, k, hk, rfl⟩
  · rw [numDraftNodes_eq] at hlt
    obtain ⟨d, hd, m, hm, rfl⟩ := exists_level _ _ hlt
    cases d with
    | zero =>
      rw [width_zero] at hm
      rw [first_zero] at h0
      omega
    | succ d => exact ⟨_, parent_draft (by omega) hm⟩
  · exact ⟨_, parent_of_getElem? (attentionMap_forecast hx hk)⟩

/-- Every walk up ends at the root. -/
theorem ancestors_end (h : 0 < ssd.draftLevels) {i : ℕ} (hi : i < ssd.attentionMap.length) :
    (i :: ssd.ancestors i).getLast? = some 0 := by
  induction i using Nat.strong_induction_on with
  | _ i ih =>
    by_cases h0 : i = 0
    · subst h0
      rw [ancestors_root ssd.parent_root]
      rfl
    · obtain ⟨p, hp⟩ := exists_parent h hi h0
      have hlt := parent_lt hp
      rw [ancestors_child hp, List.getLast?_cons_cons]
      exact ih p hlt (by omega)

/-! ## Mask and positions -/

section Rows

variable {nPast n seqLen kvLen offset row : ℕ}

/-- Within the block a row sees itself and its ancestors. -/
theorem mem_visibleBlock (hn : n ≤ seqLen) (hpast : nPast ≤ kvLen) (hrow : row < n) {j : ℕ}
    (hj : j < seqLen) :
    j ∈ visibleBlock (ssd.buildTreeAttentionMask nPast n seqLen kvLen offset) seqLen kvLen row ↔
      j = row ∨ j ∈ ssd.ancestors row := by
  unfold visibleBlock
  rw [List.mem_filter, List.mem_range, decide_eq_true_eq,
    treeMask_apply hn hpast hrow (by omega), ← List.mem_cons]
  constructor
  · rintro ⟨-, hlt | ⟨k, hk, heq⟩⟩
    · omega
    · obtain rfl : j = k := by omega
      exact hk
  · exact fun hmem => ⟨hj, Or.inr ⟨j, hmem, rfl⟩⟩

/-- Of the past a row sees the columns from its first one on. -/
theorem mem_visiblePast (hn : n ≤ seqLen) (hpast : nPast ≤ kvLen) (hrow : row < n) {c : ℕ} :
    c ∈ visiblePast (ssd.buildTreeAttentionMask nPast n seqLen kvLen offset) seqLen kvLen row ↔
      ssd.firstPast offset row ≤ c ∧ c < nPast := by
  unfold visiblePast
  rw [List.mem_filter, List.mem_range, decide_eq_true_eq]
  constructor
  · rintro ⟨hc, hzero⟩
    rw [treeMask_apply hn hpast hrow (by omega)] at hzero
    refine hzero.resolve_right ?_
    rintro ⟨j, -, hj⟩
    omega
  · rintro ⟨hfirst, hc⟩
    refine ⟨by omega, ?_⟩
    rw [treeMask_apply hn hpast hrow (by omega)]
    exact Or.inl ⟨hfirst, hc⟩

/-- The position of a row is the root's, plus the depth of the row. -/
theorem treePositions_depth (hrow : row < n) :
    (ssd.computeTreePositionIds nPast n).getD row 0 =
      Int32.ofInt ((nPast : ℤ) - ssd.forecastPrefix + (ssd.ancestors row).length) := by
  induction row using Nat.strong_induction_on with
  | _ row ih =>
    refine (treePositions_getD hrow).trans ?_
    cases hp : ssd.parent row with
    | none =>
      rw [ancestors_root hp]
      simp
    | some p =>
      have hlt := parent_lt hp
      have hpos := ih p hlt (by omega)
      rw [computeTreePositionIds] at hpos
      dsimp only
      rw [hpos, ancestors_child hp, List.length_cons, Nat.cast_succ, ← add_assoc,
        Int32.ofInt_add _ 1]
      rfl

end Rows

/-- **The layout of the draft tree**, for any shape. -/
theorem attentionMap_layout (ssd : SSDConfig) (h : ssd.branches ≠ []) :
    ssd.numDraftNodes = ((List.range (ssd.draftLevels + 1)).map (width ssd.branches)).sum ∧
    ssd.attentionMap.length = ssd.numDraftNodes + ssd.numDraftNodes * ssd.draftLevels ∧
    (∀ i p, ssd.parent i = some p → p < i) ∧
    (∀ i < ssd.attentionMap.length, (i :: ssd.ancestors i).getLast? = some 0) ∧
    (∀ i < ssd.numDraftNodes, ∀ k < ssd.draftLevels,
      ssd.ancestors (ssd.numDraftNodes + i * ssd.draftLevels + k) =
        (List.range k).reverse.map (fun k' => ssd.numDraftNodes + i * ssd.draftLevels + k') ++
          i :: ssd.ancestors i) ∧
    ∀ nPast seqLen kvLen, ssd.attentionMap.length ≤ seqLen → nPast ≤ kvLen →
      ∀ row < ssd.attentionMap.length,
        let mask := ssd.buildTreeAttentionMask nPast ssd.attentionMap.length seqLen kvLen
          ssd.numDraftNodes
        (∀ j < seqLen, j ∈ visibleBlock mask seqLen kvLen row ↔ j = row ∨ j ∈ ssd.ancestors row) ∧
        (∀ c < nPast, c < ssd.forecastPrefix →
          (c ∈ visiblePast mask seqLen kvLen row ↔ ssd.numDraftNodes ≤ row)) ∧
        (∀ c < nPast, ssd.forecastPrefix ≤ c → c ∈ visiblePast mask seqLen kvLen row) ∧
        (ssd.computeTreePositionIds nPast ssd.attentionMap.length).getD row 0 =
          Int32.ofInt ((nPast : ℤ) - ssd.forecastPrefix + (ssd.ancestors row).length) := by
  have hlevels : 0 < ssd.draftLevels := List.length_pos_iff.mpr h
  refine ⟨?_, attentionMap_length hlevels, fun i p hp => parent_lt hp,
    fun i hi => ancestors_end hlevels hi, fun i hi k hk => ancestors_forecast hi hk, ?_⟩
  · rw [numDraftNodes_eq, first_eq_sum]
  · intro nPast seqLen kvLen hrows hpast row hrow mask
    refine ⟨fun j hj => mem_visibleBlock hrows hpast hrow hj, fun c hc hfp => ?_,
      fun c hc hfp => ?_, treePositions_depth hrow⟩
    · rw [mem_visiblePast hrows hpast hrow]
      unfold firstPast
      split_ifs <;> omega
    · rw [mem_visiblePast hrows hpast hrow]
      unfold firstPast
      split_ifs <;> omega

/-- The tree of three nodes with two children each, below a root. -/
def readmeTree : SSDConfig := ⟨[3, 2], 16, none⟩

theorem attentionMap_layout_readme :
    10 = ((List.range 3).map (width [3, 2])).sum ∧
    readmeTree.attentionMap.length = 10 + 10 * 2 ∧
    (∀ i p, readmeTree.parent i = some p → p < i) ∧
    (∀ i < 30, (i :: readmeTree.ancestors i).getLast? = some 0) ∧
    (∀ i < 10, ∀ k < 2, readmeTree.ancestors (10 + i * 2 + k) =
      (List.range k).reverse.map (fun k' => 10 + i * 2 + k') ++ i :: readmeTree.ancestors i) ∧
    ∀ row < 30,
      let mask := readmeTree.buildTreeAttentionMask 20 30 32 480 10
      (∀ j < 32, j ∈ visibleBlock mask 32 480 row ↔ j = row ∨ j ∈ readmeTree.ancestors row) ∧
      (∀ c < 20, c < 16 → (c ∈ visiblePast mask 32 480 row ↔ 10 ≤ row)) ∧
      (∀ c < 20, 16 ≤ c → c ∈ visiblePast mask 32 480 row) ∧
      (readmeTree.computeTreePositionIds 20 30).getD row 0 =
        Int32.ofInt ((20 : ℕ) - (16 : ℕ) + (readmeTree.ancestors row).length) := by
  have hnodes : readmeTree.numDraftNodes = 10 := by decide
  have hlevels : readmeTree.draftLevels = 2 := rfl
  obtain ⟨hwidths, hlength, hparent, hroot, hforecast, hmask⟩ :=
    attentionMap_layout readmeTree (by decide)
  rw [hnodes, hlevels] at hwidths hlength hforecast
  rw [hlength] at hroot hmask
  rw [hnodes] at hmask
  exact ⟨hwidths, hlength, hparent, hroot, hforecast, hmask 20 32 480 (by decide) (by decide)⟩

end SSDConfig

end Geniex
