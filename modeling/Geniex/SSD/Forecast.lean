import Geniex.SSD.Bounds
import Geniex.SSD.Layout
import Geniex.SSD.Text

/-!
# The forecast rows

A pass has one forecast row for each draft level behind a token; the next draft tree is read from
these rows. The initial pass has the forecast rows of one token only, in the rows that the draft
nodes have later, and is given the same parents.

* `forecasts_tree`: in a tree step the forecast rows of a node follow it.
* `forecasts_follow_iff`: in both kinds of step they do if and only if no level but the last
  branches.
-/

namespace Geniex

open LevelTree

variable {ρ I : Type} {spec : LLMSpec} {ssd : SSDConfig}

/-- The forecast rows of token `x` from row `start` on, where the next draft tree is read: each sees,
within its block, the token, the ancestors of the token and the forecast rows up to itself, and has
the position that is as far behind the token. -/
def ForecastsFollow (spec : LLMSpec) (ssd : SSDConfig) (p : PassInput) (x start : ℕ) : Prop :=
  ∀ k < ssd.draftLevels,
    (∀ j < spec.seqLen p.phase, j ∈ p.block spec (start + k) ↔
      j = x ∨ j ∈ ssd.ancestors x ∨ ∃ k' ≤ k, j = start + k') ∧
    p.positions.getD (start + k) 0 = p.positions.getD x 0 + Int32.ofNat (k + 1)

/-- The tokens of the initial pass. -/
def initialTokens (spec : LLMSpec) (ssd : SSDConfig) (first : Int32) : List Int32 :=
  first :: ssd.forecastRow spec.vocabSize

/-- The tokens of a tree step. -/
def stepTokens (spec : LLMSpec) (ssd : SSDConfig) (tree : List Int32) : List Int32 :=
  tree ++ ssd.forecastTokens spec

theorem initialTokens_length (first : Int32) :
    (initialTokens spec ssd first).length = ssd.draftLevels + 1 := by
  simp [initialTokens, SSDConfig.forecastRow]

theorem stepTokens_length {tree : List Int32} (htree : tree.length = ssd.numDraftNodes) :
    (stepTokens spec ssd tree).length =
      ssd.numDraftNodes + ssd.numDraftNodes * ssd.draftLevels := by
  simp [stepTokens, SSDConfig.forecastTokens, SSDConfig.genForecastTokens, SSDConfig.forecastRow,
    htree]

/-! ## A pass by its parents -/

section Pass

variable {tokens : List Int32} {offset x start : ℕ} {w : World Int32 ρ I}

/-- The forecast rows follow their token if the parents say so. -/
theorem forecastsFollow_of_ancestors (hrows : tokens.length ≤ spec.seqLenDecode)
    (hpast : w.nPast ≤ spec.kvLen .decode w.activeClIdx) (hx : x < tokens.length)
    (hin : ∀ k < ssd.draftLevels, start + k < tokens.length)
    (hanc : ∀ k < ssd.draftLevels, ssd.ancestors (start + k) =
      (List.range k).reverse.map (start + ·) ++ x :: ssd.ancestors x) :
    ForecastsFollow spec ssd (treePass spec ssd tokens offset w) x start := by
  intro k hk
  constructor
  · intro j hj
    refine (SSDConfig.mem_visibleBlock hrows hpast (hin k hk) hj).trans ?_
    rw [hanc k hk, List.mem_append, List.mem_cons, List.mem_map]
    simp only [List.mem_reverse, List.mem_range]
    constructor
    · rintro (rfl | ⟨k', hk', rfl⟩ | rfl | hup)
      · exact Or.inr (Or.inr ⟨k, le_rfl, rfl⟩)
      · exact Or.inr (Or.inr ⟨k', hk'.le, rfl⟩)
      · exact Or.inl rfl
      · exact Or.inr (Or.inl hup)
    · rintro (rfl | hup | ⟨k', hk', rfl⟩)
      · exact Or.inr (Or.inr (Or.inl rfl))
      · exact Or.inr (Or.inr (Or.inr hup))
      · rcases Nat.eq_or_lt_of_le hk' with rfl | hlt
        · exact Or.inl rfl
        · exact Or.inr (Or.inl ⟨k', hlt, rfl⟩)
  · show (ssd.computeTreePositionIds w.nPast tokens.length).getD (start + k) 0 =
      (ssd.computeTreePositionIds w.nPast tokens.length).getD x 0 + _
    rw [SSDConfig.treePositions_depth (hin k hk), SSDConfig.treePositions_depth hx, hanc k hk,
      ← Int32.ofInt_eq_ofNat, ← Int32.ofInt_add]
    refine congrArg Int32.ofInt ?_
    simp only [List.length_append, List.length_map, List.length_reverse, List.length_range,
      List.length_cons, Nat.cast_add, Nat.cast_one]
    omega

end Pass

/-! ## Tree steps -/

/-- In a tree step the forecast rows of every node follow it. -/
theorem forecasts_tree {tree : List Int32} {w : World Int32 ρ I}
    (htree : tree.length = ssd.numDraftNodes)
    (hrows : ssd.numDraftNodes + ssd.numDraftNodes * ssd.draftLevels ≤ spec.seqLenDecode)
    (hpast : w.nPast ≤ spec.kvLen .decode w.activeClIdx) {x : ℕ} (hx : x < ssd.numDraftNodes) :
    ForecastsFollow spec ssd (treePass spec ssd (stepTokens spec ssd tree) ssd.numDraftNodes w) x
      (ssd.numDraftNodes + x * ssd.draftLevels) := by
  have hlen : (stepTokens spec ssd tree).length = _ := stepTokens_length htree
  refine forecastsFollow_of_ancestors (by omega) hpast (by omega) (fun k hk => ?_) fun k hk => ?_
  · have := FlatMem.row_lt (w := ssd.draftLevels) hx hk
    omega
  · exact SSDConfig.ancestors_forecast hx hk

/-! ## The initial pass -/

section Initial

variable {d : ℕ}

/-- Up to a level that branches, every level is one node. -/
theorem unary_levels (hone : ∀ e < d, ssd.branches.getD e 0 = 1) (hd : d ≤ ssd.draftLevels) :
    width ssd.branches d = 1 ∧ first ssd.branches d = d := by
  induction d with
  | zero => exact ⟨rfl, rfl⟩
  | succ d ih =>
    obtain ⟨hwidth, hfirst⟩ := ih (fun e he => hone e (by omega)) (by omega)
    refine ⟨?_, by rw [first_succ, hwidth, hfirst]⟩
    rw [width_succ hd, hwidth, hone d (Nat.lt_succ_self d)]

/-- The first node of the level behind them is a child of the last of them. -/
theorem unary_parent (hone : ∀ e < d, ssd.branches.getD e 0 = 1) (hd : d < ssd.draftLevels) {c : ℕ}
    (hc : c < ssd.branches.getD d 0) : ssd.parent (d + 1 + c) = some d := by
  obtain ⟨hwidth, hfirst⟩ := unary_levels hone hd.le
  have hnext : first ssd.branches (d + 1) = d + 1 := by rw [first_succ, hwidth, hfirst]
  have hparent := SSDConfig.parent_draft (m := c) hd (by rw [width_succ hd, hwidth]; omega)
  rw [hnext, hfirst, Nat.div_eq_of_lt hc] at hparent
  exact hparent

/-- If no level but the last branches, the forecast rows of the first token follow it. -/
theorem forecasts_initial (hpos : ∀ b ∈ ssd.branches, 0 < b)
    (hone : ∀ d, d + 1 < ssd.draftLevels → ssd.branches.getD d 0 = 1)
    {w : World Int32 ρ I} (hrows : ssd.draftLevels + 1 ≤ spec.seqLenDecode)
    (hpast : w.nPast ≤ spec.kvLen .decode w.activeClIdx) (first : Int32) :
    ForecastsFollow spec ssd (treePass spec ssd (initialTokens spec ssd first) 1 w) 0 1 := by
  have hlen : (initialTokens spec ssd first).length = _ := initialTokens_length first
  refine forecastsFollow_of_ancestors (by omega) hpast (by omega) (fun k hk => by omega) ?_
  intro k
  induction k with
  | zero =>
    intro hk
    have hb : 0 < ssd.branches.getD 0 0 := by
      rw [List.getD_eq_getElem _ _ hk]
      exact hpos _ (List.getElem_mem hk)
    rw [SSDConfig.ancestors_child (unary_parent (d := 0) nofun hk hb)]
    rfl
  | succ k ih =>
    intro hk
    have hb : 0 < ssd.branches.getD (k + 1) 0 := by
      rw [List.getD_eq_getElem _ _ hk]
      exact hpos _ (List.getElem_mem hk)
    have hparent := unary_parent (fun e he => hone e (by omega)) hk hb
    rw [show 1 + (k + 1) = k + 1 + 1 + 0 by omega, SSDConfig.ancestors_child hparent,
      Nat.add_comm k 1, ih (by omega), Nat.add_comm 1 k, List.range_succ, List.reverse_append,
      List.map_append]
    simp [Nat.add_comm]

/-- If they follow it, no level but the last branches. -/
theorem unary_of_forecasts (hpos : ∀ b ∈ ssd.branches, 0 < b) {w : World Int32 ρ I}
    (hrows : ssd.draftLevels + 1 ≤ spec.seqLenDecode)
    (hpast : w.nPast ≤ spec.kvLen .decode w.activeClIdx) {first : Int32}
    (h : ForecastsFollow spec ssd (treePass spec ssd (initialTokens spec ssd first) 1 w) 0 1)
    (d : ℕ) (hd : d + 1 < ssd.draftLevels) : ssd.branches.getD d 0 = 1 := by
  induction d using Nat.strong_induction_on with
  | _ d ih =>
    have hlen : (initialTokens spec ssd first).length = _ := initialTokens_length first
    have hlt : d < ssd.branches.length := Nat.lt_of_succ_lt hd
    have hb : 0 < ssd.branches.getD d 0 := by
      rw [List.getD_eq_getElem _ _ hlt]
      exact hpos _ (List.getElem_mem hlt)
    by_contra hne
    -- then row `d + 2` is the second child of node `d`, and does not see row `d + 1`
    have hparent : ssd.parent (1 + (d + 1)) = some d := by
      rw [Nat.add_comm]
      exact unary_parent (fun e he => ih e he (by omega)) (by omega) (c := 1) (by omega)
    have hrow : 1 + (d + 1) < (initialTokens spec ssd first).length := by omega
    have hsees := ((h (d + 1) hd).1 (1 + d) (by show _ < spec.seqLenDecode; omega)).mpr
      (Or.inr (Or.inr ⟨d, by omega, rfl⟩))
    have hvisible := (SSDConfig.mem_visibleBlock (by omega) hpast hrow
      (by show _ < spec.seqLenDecode; omega)).mp hsees
    rcases hvisible with heq | hup
    · omega
    · rw [SSDConfig.ancestors_child hparent, List.mem_cons] at hup
      rcases hup with heq | hup
      · omega
      · have := SSDConfig.ancestors_lt hup
        omega

end Initial

/-- **The forecast rows follow their tokens in both kinds of step if and only if no level but the
last branches.** -/
theorem forecasts_follow_iff (spec : LLMSpec) (ssd : SSDConfig)
    (hpos : ∀ b ∈ ssd.branches, 0 < b)
    (hrows : ssd.numDraftNodes + ssd.numDraftNodes * ssd.draftLevels ≤ spec.seqLenDecode)
    (w w' : World Int32 ρ I) (hpast : w.nPast ≤ spec.kvLen .decode w.activeClIdx)
    (hpast' : w'.nPast ≤ spec.kvLen .decode w'.activeClIdx) (first : Int32) (tree : List Int32)
    (htree : tree.length = ssd.numDraftNodes) :
    (ForecastsFollow spec ssd (treePass spec ssd (initialTokens spec ssd first) 1 w) 0 1 ∧
      ∀ x < ssd.numDraftNodes,
        ForecastsFollow spec ssd
          (treePass spec ssd (stepTokens spec ssd tree) ssd.numDraftNodes w') x
          (ssd.numDraftNodes + x * ssd.draftLevels)) ↔
      ∀ d, d + 1 < ssd.branches.length → ssd.branches.getD d 0 = 1 := by
  have hnodes := ssd.numDraftNodes_pos
  have hinit : ssd.draftLevels + 1 ≤ spec.seqLenDecode := by
    have := Nat.le_mul_of_pos_left ssd.draftLevels hnodes
    omega
  constructor
  · exact fun h => unary_of_forecasts hpos hinit hpast h.1
  · exact fun h => ⟨forecasts_initial hpos h hinit hpast first,
      fun x hx => forecasts_tree htree hrows hpast' hx⟩

/-- A level of one node, then one of two, at a context length of 32. -/
theorem forecasts_follow_iff_narrow :
    ForecastsFollow (tinySpec [32] 16 16) ⟨[1, 2], 0, none⟩
      (treePass (tinySpec [32] 16 16) ⟨[1, 2], 0, none⟩
        (initialTokens (tinySpec [32] 16 16) ⟨[1, 2], 0, none⟩ 0) 1
        (tinySSDWorld (tinySpec [32] 16 16))) 0 1 :=
  ((forecasts_follow_iff (tinySpec [32] 16 16) ⟨[1, 2], 0, none⟩ (by decide) (by decide)
    (tinySSDWorld (tinySpec [32] 16 16)) (tinySSDWorld (tinySpec [32] 16 16)) (by decide)
    (by decide) 0 [0, 0, 0, 0] (by decide)).mpr fun d hd => by
      obtain rfl : d = 0 := Nat.lt_one_iff.mp (Nat.lt_of_succ_lt_succ hd)
      rfl).1

/-- With three nodes of two children each, the second forecast row of the initial pass does not see
the first, and has the position of the first. -/
theorem forecasts_initial_siblings :
    ¬ForecastsFollow (tinySpec [64] 32 32) ⟨[3, 2], 0, none⟩
      (treePass (tinySpec [64] 32 32) ⟨[3, 2], 0, none⟩
        (initialTokens (tinySpec [64] 32 32) ⟨[3, 2], 0, none⟩ 0) 1
        (tinySSDWorld (tinySpec [64] 32 32))) 0 1 ∧
    (treePass (tinySpec [64] 32 32) ⟨[3, 2], 0, none⟩
        (initialTokens (tinySpec [64] 32 32) ⟨[3, 2], 0, none⟩ 0) 1
        (tinySSDWorld (tinySpec [64] 32 32))).positions = [0, 1, 1] := by
  refine ⟨fun h => ?_, by decide +kernel⟩
  have hsees := ((h 1 (by decide)).1 1 (by decide)).mpr (Or.inr (Or.inr ⟨0, by decide, rfl⟩))
  revert hsees
  decide +kernel

end Geniex
