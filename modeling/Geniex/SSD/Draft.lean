import Geniex.Lib.Skip
import Geniex.SSD.Layout

/-!
# The tokens of a draft tree

* `buildSampleTree?`: `buildSampleTree` with every read checked, for any `topKLogits`.
* `sampleBlock`: the children of a node get the highest-ranked candidates other than its own token.
* `sampleLevel_fills`, `sampleLevels_fills`: a level, and all levels.
* `buildSampleTree_distinct`: the draft tree as a whole.
-/

namespace Geniex

open LevelTree

namespace SSDConfig

variable (ssd : SSDConfig)

/-! ## Checked reads -/

/-- `sampleNode`, with no result if a read is past the end of its list. -/
def sampleNode? (samples : List Int32) (i : ℕ) (s : List Int32 × ℕ) :
    Option (List Int32 × ℕ) := do
  let link ← ssd.attentionMap[i]?
  let before ← ssd.attentionMap[i - 1]?
  let start := if link ≠ before then 0 else s.2
  let parentIdx ← link
  let parentToken ← s.1[parentIdx]?
  let sample ← samples[start]?
  let next := if sample = parentToken then start + 1 else start
  let token ← samples[next]?
  some (s.1 ++ [token], next + 1)

/-- `sampleLevel`, with checked reads. -/
def sampleLevel? (samples : List Int32) : ℕ → ℕ → List Int32 × ℕ → Option (List Int32 × ℕ)
  | 0, _, s => some s
  | n + 1, i, s => (ssd.sampleNode? samples i s).bind (sampleLevel? samples n (i + 1))

/-- `sampleLevels`, with checked reads. -/
def sampleLevels? (topK : List ℚ → ℕ → List Int32) (logitsAt : ℕ → List ℚ) (startOffset : ℕ) :
    List ℕ → ℕ → List Int32 × ℕ → Option (List Int32 × ℕ)
  | [], _, s => some s
  | nodes :: rest, d, s =>
    (ssd.sampleLevel? (topK (logitsAt (startOffset + d)) (ssd.samplesPerDraftLevel d))
      (max nodes 1) s.1.length s).bind (sampleLevels? topK logitsAt startOffset rest (d + 1))

/-- `buildSampleTree`, with checked reads. -/
def buildSampleTree? (topK : List ℚ → ℕ → List Int32) (logitsAt : ℕ → List ℚ) (lastToken : Int32)
    (startOffset : ℕ) : Option (List Int32) :=
  (ssd.sampleLevels? topK logitsAt startOffset ssd.levels.2 0 ([lastToken], 0)).map Prod.fst

variable {ssd} {samples : List Int32} {s s' : List Int32 × ℕ}

/-- The checks change nothing. -/
theorem sampleNode?_eq {i : ℕ} (h : ssd.sampleNode? samples i s = some s') :
    ssd.sampleNode samples i s = s' := by
  unfold sampleNode? at h
  simp only [Option.bind_eq_bind, Option.bind_eq_some_iff] at h
  obtain ⟨link, hlink, before, hbefore, p, hp, t, ht, a, ha, b, hb, hs⟩ := h
  subst hp
  have hparent := parent_of_getElem? hlink
  have hprev := parent_of_getElem? hbefore
  unfold sampleNode
  simp only [hparent, hprev, List.getD_eq_getElem?_getD, Option.getD_some, ht, ha, hb]
  exact Option.some.inj hs

theorem sampleLevel?_eq (n : ℕ) : ∀ (i : ℕ) (s : List Int32 × ℕ),
    ssd.sampleLevel? samples n i s = some s' → ssd.sampleLevel samples n i s = s' := by
  induction n with
  | zero => exact fun i s h => Option.some.inj h
  | succ n ih =>
    intro i s h
    obtain ⟨t, ht, hrest⟩ := Option.bind_eq_some_iff.mp h
    rw [sampleLevel, sampleNode?_eq ht]
    exact ih _ _ hrest

theorem sampleLevels?_eq {logitsAt : ℕ → List ℚ} {off : ℕ} (levels : List ℕ) :
    ∀ (d : ℕ) (s : List Int32 × ℕ),
      ssd.sampleLevels? topKLogits logitsAt off levels d s = some s' →
      ssd.sampleLevels logitsAt off levels d s = s' := by
  induction levels with
  | nil => exact fun d s h => Option.some.inj h
  | cons n levels ih =>
    intro d s h
    obtain ⟨t, ht, hrest⟩ := Option.bind_eq_some_iff.mp h
    rw [sampleLevels, sampleLevel?_eq _ _ _ ht]
    exact ih _ _ hrest

theorem buildSampleTree?_eq {logitsAt : ℕ → List ℚ} {last : Int32} {off : ℕ} {tree : List Int32}
    (h : ssd.buildSampleTree? topKLogits logitsAt last off = some tree) :
    ssd.buildSampleTree logitsAt last off = tree := by
  obtain ⟨s, hs, rfl⟩ := Option.map_eq_some_iff.mp h
  unfold buildSampleTree
  rw [sampleLevels?_eq _ _ _ hs]

/-! ## One node -/

section Node

variable {i p start : ℕ} {t : Int32} {out : List Int32} {q : Option ℕ}

/-- A node gets the next candidate other than its parent's token. -/
theorem sampleNode?_pick (hlink : ssd.attentionMap[i]? = some (some p))
    (hbefore : ssd.attentionMap[i - 1]? = some q) (ht : s.1[p]? = some t) (hnd : samples.Nodup)
    (hread : (samples.take (if some p ≠ q then 0 else s.2)).filter (· ≠ t) = out)
    (hlen : out.length + 1 < samples.length) :
    ∃ a idx, ssd.sampleNode? samples i s = some (s.1 ++ [a], idx) ∧
      (samples.take idx).filter (· ≠ t) = out ++ [a] := by
  obtain ⟨hlt, a, ha, hmore⟩ := List.skip_next hnd hread hlen
  refine ⟨a, samples.skip t (if some p ≠ q then 0 else s.2) + 1, ?_, hmore⟩
  unfold List.skip at ha ⊢
  rw [List.getElem?_eq_getElem hlt] at ha ⊢
  simp only [Option.some.injEq] at ha ⊢
  unfold sampleNode?
  simp only [Option.bind_eq_bind, hlink, hbefore, Option.bind_some, ht, List.getElem?_eq_getElem hlt,
    ha]

end Node

theorem sampleLevel?_add (n m : ℕ) : ∀ (i : ℕ) (s : List Int32 × ℕ),
    ssd.sampleLevel? samples (n + m) i s =
      (ssd.sampleLevel? samples n i s).bind (ssd.sampleLevel? samples m (i + n)) := by
  induction n with
  | zero =>
    intro i s
    rw [Nat.zero_add]
    rfl
  | succ n ih =>
    intro i s
    rw [Nat.succ_add, sampleLevel?, sampleLevel?, Option.bind_assoc]
    refine congrArg _ (funext fun s => ?_)
    rw [ih, show i + 1 + n = i + (n + 1) by omega]

/-! ## The children of a node -/

/-- The candidates for the children of a node with token `t`. -/
def picks (samples : List Int32) (b : ℕ) (t : Int32) : List Int32 :=
  (samples.filter (· ≠ t)).take b

theorem picks_length {b : ℕ} {t : Int32} (hnd : samples.Nodup) (hb : b < samples.length) :
    (picks samples b t).length = b := by
  have := List.length_le_filter_ne hnd t
  unfold picks
  rw [List.length_take]
  omega

/-- The children of a node get the highest-ranked candidates other than its own token. -/
theorem sampleBlock {b i p : ℕ} {t : Int32} {q : Option ℕ} (hnd : samples.Nodup)
    (hb : b < samples.length) (hlinks : ∀ c < b, ssd.attentionMap[i + c]? = some (some p))
    (hbefore : ssd.attentionMap[i - 1]? = some q) (hq : q ≠ some p) (hi : 0 < i)
    (ht : s.1[p]? = some t) :
    ∃ idx, ssd.sampleLevel? samples b i s = some (s.1 ++ picks samples b t, idx) := by
  -- after `c` children
  have hchildren : ∀ c ≤ b, ∃ out idx,
      ssd.sampleLevel? samples c i s = some (s.1 ++ out, idx) ∧ out.length = c ∧
        (samples.take (if c = 0 then 0 else idx)).filter (· ≠ t) = out := by
    intro c
    induction c with
    | zero => exact fun _ => ⟨[], s.2, by rw [List.append_nil]; rfl, rfl, rfl⟩
    | succ c ih =>
      intro hc
      obtain ⟨out, idx, hrun, hlen, hread⟩ := ih (by omega)
      have ht' : (s.1 ++ out)[p]? = some t := by
        rw [List.getElem?_append_left (List.getElem?_eq_some_iff.mp ht).1, ht]
      have hprev : ssd.attentionMap[i + c - 1]? = some (if c = 0 then q else some p) := by
        split_ifs with h0
        · rw [h0]
          exact hbefore
        · rw [show i + c - 1 = i + (c - 1) by omega]
          exact hlinks _ (by omega)
      have hstart : (if some p ≠ (if c = 0 then q else some p) then 0 else idx) =
          if c = 0 then 0 else idx := by
        split_ifs with h0 <;> simp_all
      obtain ⟨a, idx', hnode, hmore⟩ := sampleNode?_pick (s := (s.1 ++ out, idx))
        (hlinks c (by omega)) hprev ht' hnd ((congrArg (fun k => (samples.take k).filter (· ≠ t))
          hstart).trans hread) (by omega)
      refine ⟨out ++ [a], idx', ?_, by rw [List.length_append, hlen]; rfl, hmore⟩
      rw [sampleLevel?_add, hrun, Option.bind_some, sampleLevel?, hnode, Option.bind_some,
        sampleLevel?, List.append_assoc]
  obtain ⟨out, idx, hrun, hlen, hread⟩ := hchildren b le_rfl
  refine ⟨idx, ?_⟩
  have hout : out = picks samples b t := by
    unfold picks
    rw [← hread, List.filter_take_eq, hread, hlen]
  rw [hrun, hout]

/-! ## A level -/

section Level

variable {d n b : ℕ}

/-- The node before the first child of a node is no child of it. -/
theorem node_before (hd : d < ssd.draftLevels) (hpos : 0 < ssd.branches.getD d 0)
    (hn : n < width ssd.branches d) :
    ∃ q, ssd.attentionMap[first ssd.branches (d + 1) + n * ssd.branches.getD d 0 - 1]? = some q ∧
      q ≠ some (first ssd.branches d + n) := by
  set b := ssd.branches.getD d 0 with hb
  cases n with
  | succ n =>
    -- a child of the node before
    have hwidth : width ssd.branches (d + 1) = width ssd.branches d * b := width_succ hd
    have hle := Nat.mul_le_mul_right b (show n + 1 ≤ width ssd.branches d by omega)
    rw [Nat.succ_mul] at hle ⊢
    have hlink := attentionMap_draft hd (m := n * b + (b - 1)) (by omega)
    have hdiv : (n * b + (b - 1)) / b = n := by
      rw [Nat.mul_comm, Nat.mul_add_div hpos, Nat.div_eq_of_lt (by omega), Nat.add_zero]
    rw [← hb, hdiv] at hlink
    refine ⟨_, (congrArg (ssd.attentionMap[·]?) (by omega)).trans hlink, ?_⟩
    simp
  | zero =>
    rw [Nat.zero_mul, Nat.add_zero, Nat.add_zero]
    cases d with
    | zero => exact ⟨none, ssd.attentionMap_root, nofun⟩
    | succ e =>
      -- the last node of the level, whose parent is in the level before
      have hlink : ssd.attentionMap[first ssd.branches (e + 1) +
          (width ssd.branches (e + 1) - 1)]? = _ := attentionMap_draft (by omega) (by omega)
      refine ⟨_, (congrArg (ssd.attentionMap[·]?) ?_).trans hlink, fun heq => ?_⟩
      · rw [first_succ _ (e + 1)]
        omega
      · rw [width_succ (show e < ssd.branches.length by exact Nat.lt_of_succ_lt hd)] at hn heq
        have hdiv : (width ssd.branches e * ssd.branches.getD e 0 - 1) / ssd.branches.getD e 0 <
            width ssd.branches e := by
          refine Nat.div_lt_of_lt_mul ?_
          rw [Nat.mul_comm (ssd.branches.getD e 0)]
          omega
        have := Option.some.inj heq
        rw [first_succ] at this
        omega

/-- A level gets, for each node of the level before, its candidates. -/
theorem sampleLevel_fills (hd : d < ssd.draftLevels) (hpos : 0 < ssd.branches.getD d 0)
    (hnd : samples.Nodup) (hlen : ssd.branches.getD d 0 < samples.length)
    (hs : s.1.length = first ssd.branches (d + 1)) :
    ∃ idx, ssd.sampleLevel? samples (width ssd.branches (d + 1)) s.1.length s =
      some (s.1 ++ (List.range (width ssd.branches d)).flatMap (fun j =>
        picks samples (ssd.branches.getD d 0) (s.1.getD (first ssd.branches d + j) 0)), idx) := by
  set b := ssd.branches.getD d 0 with hb
  rw [show width ssd.branches (d + 1) = width ssd.branches d * b from width_succ hd]
  -- after the children of `n` nodes
  suffices hnodes : ∀ n ≤ width ssd.branches d, ∃ idx,
      ssd.sampleLevel? samples (n * b) s.1.length s =
        some (s.1 ++ (List.range n).flatMap (fun j =>
          picks samples b (s.1.getD (first ssd.branches d + j) 0)), idx) from hnodes _ le_rfl
  intro n
  induction n with
  | zero =>
    refine fun _ => ⟨s.2, ?_⟩
    rw [Nat.zero_mul, List.range_zero, List.flatMap_nil, List.append_nil]
    rfl
  | succ n ih =>
    intro hn
    obtain ⟨idx, hrun⟩ := ih (by omega)
    obtain ⟨q, hbefore, hq⟩ := node_before hd hpos (show n < width ssd.branches d from hn)
    have hwidth : n * b + b ≤ width ssd.branches (d + 1) := by
      rw [width_succ hd, ← hb, ← Nat.succ_mul]
      exact Nat.mul_le_mul_right b hn
    have hlinks : ∀ c < b, ssd.attentionMap[s.1.length + n * b + c]? =
        some (some (first ssd.branches d + n)) := by
      intro c hc
      have hlink := attentionMap_draft hd (m := n * b + c) (by omega)
      have hdiv : (n * b + c) / b = n := by
        rw [Nat.mul_comm, Nat.mul_add_div hpos, Nat.div_eq_of_lt hc, Nat.add_zero]
      rw [← hb, hdiv, ← Nat.add_assoc, ← hs] at hlink
      exact hlink
    have htoken : s.1[first ssd.branches d + n]? =
        some (s.1.getD (first ssd.branches d + n) 0) := by
      have hlt : first ssd.branches d + n < s.1.length := by
        rw [hs, first_succ]
        omega
      rw [List.getD_eq_getElem _ _ hlt, List.getElem?_eq_getElem hlt]
    obtain ⟨idx', hblock⟩ := sampleBlock (i := s.1.length + n * b) hnd hlen hlinks
      (hs ▸ hbefore) hq (by rw [hs, first_succ]; have := Nat.zero_lt_of_lt hn; omega)
      ((List.getElem?_append_left (List.getElem?_eq_some_iff.mp htoken).1).trans htoken)
      (s := (s.1 ++ (List.range n).flatMap (fun j =>
          picks samples b (s.1.getD (first ssd.branches d + j) 0)), idx))
    refine ⟨idx', ?_⟩
    rw [Nat.succ_mul, sampleLevel?_add, hrun, Option.bind_some, hblock, List.range_succ,
      List.flatMap_append, List.flatMap_singleton, List.append_assoc]

end Level

/-! ## All levels -/

section Levels

variable {topK : List ℚ → ℕ → List Int32} {logitsAt : ℕ → List ℚ} {off : ℕ}

/-- The candidates of level `d`. -/
def levelSamples (ssd : SSDConfig) (topK : List ℚ → ℕ → List Int32) (logitsAt : ℕ → List ℚ)
    (off d : ℕ) : List Int32 :=
  topK (logitsAt (off + d)) (ssd.samplesPerDraftLevel d)

/-- The first `n` levels below the root are filled: the children of each node get the candidates of
their level. -/
def Filled (ssd : SSDConfig) (topK : List ℚ → ℕ → List Int32) (logitsAt : ℕ → List ℚ) (off n : ℕ)
    (tree : List Int32) : Prop :=
  ∀ d < n, ∀ j < width ssd.branches d,
    (tree.drop (first ssd.branches (d + 1) + j * ssd.branches.getD d 0)).take
        (ssd.branches.getD d 0) =
      picks (levelSamples ssd topK logitsAt off d) (ssd.branches.getD d 0)
        (tree.getD (first ssd.branches d + j) 0)

/-- Later levels leave the filled ones alone. -/
theorem Filled.append {n : ℕ} {tree : List Int32} (h : Filled ssd topK logitsAt off n tree)
    (hn : n ≤ ssd.draftLevels) (hlen : tree.length = first ssd.branches (n + 1))
    (more : List Int32) : Filled ssd topK logitsAt off n (tree ++ more) := by
  intro d hd j hj
  have hle : j * ssd.branches.getD d 0 + ssd.branches.getD d 0 ≤ width ssd.branches (d + 1) := by
    rw [width_succ (show d < ssd.branches.length from hd.trans_le hn), ← Nat.succ_mul]
    exact Nat.mul_le_mul_right _ hj
  have hnext := first_mono ssd.branches (show d + 2 ≤ n + 1 by omega)
  rw [first_succ _ (d + 1)] at hnext
  have hparent : first ssd.branches d + j < tree.length := by
    have := first_succ ssd.branches d
    omega
  rw [List.drop_append_of_le_length (by omega),
    List.take_append_of_le_length (by rw [List.length_drop]; omega), h d hd j hj,
    List.getD_append _ _ _ _ hparent]

theorem sampleLevels_fills (hpos : ∀ d < ssd.draftLevels, 0 < ssd.branches.getD d 0)
    (hnd : ∀ d < ssd.draftLevels, (levelSamples ssd topK logitsAt off d).Nodup)
    (hlen : ∀ d < ssd.draftLevels,
      ssd.branches.getD d 0 < (levelSamples ssd topK logitsAt off d).length) (n : ℕ) :
    ∀ (d : ℕ) (s : List Int32 × ℕ), d + n = ssd.draftLevels →
      s.1.length = first ssd.branches (d + 1) → Filled ssd topK logitsAt off d s.1 →
      ∃ tree idx, ssd.sampleLevels? topK logitsAt off
          ((List.range' d n).map fun e => width ssd.branches (e + 1)) d s = some (tree, idx) ∧
        tree.length = first ssd.branches (ssd.draftLevels + 1) ∧ s.1 <+: tree ∧
        Filled ssd topK logitsAt off ssd.draftLevels tree := by
  induction n with
  | zero =>
    rintro d s rfl hs hfilled
    exact ⟨s.1, s.2, rfl, hs, List.prefix_rfl, hfilled⟩
  | succ n ih =>
    intro d s hdn hs hfilled
    have hd : d < ssd.draftLevels := by omega
    obtain ⟨idx, hlevel⟩ := sampleLevel_fills hd (hpos d hd) (hnd d hd) (hlen d hd) hs
    set blocks := (List.range (width ssd.branches d)).flatMap (fun j =>
      picks (levelSamples ssd topK logitsAt off d) (ssd.branches.getD d 0)
        (s.1.getD (first ssd.branches d + j) 0)) with hblocks
    have hblock : ∀ j < width ssd.branches d, (picks (levelSamples ssd topK logitsAt off d)
        (ssd.branches.getD d 0) (s.1.getD (first ssd.branches d + j) 0)).length =
          ssd.branches.getD d 0 := fun j _ => picks_length (hnd d hd) (hlen d hd)
    have hmore : blocks.length = width ssd.branches (d + 1) := by
      rw [hblocks, List.length_flatMap, List.map_congr_left (g := fun _ => ssd.branches.getD d 0)
        fun j hj => hblock j (List.mem_range.mp hj), width_succ hd]
      simp
    have hgrown : (s.1 ++ blocks).length = first ssd.branches (d + 2) := by
      rw [List.length_append, hs, hmore, first_succ _ (d + 1)]
    have hmax : max (width ssd.branches (d + 1)) 1 = width ssd.branches (d + 1) := by
      refine max_eq_left (width_pos (fun b hb => ?_) _)
      obtain ⟨e, he, rfl⟩ := List.getElem_of_mem hb
      have := hpos e he
      rwa [List.getD_eq_getElem _ _ he] at this
    have hfilled' : Filled ssd topK logitsAt off (d + 1) (s.1 ++ blocks) := by
      intro e he j hj
      rcases Nat.lt_succ_iff_lt_or_eq.mp he with hlt | rfl
      · exact hfilled.append hd.le hs blocks e hlt j hj
      · have hparent : first ssd.branches e + j < s.1.length := by
          rw [hs, first_succ]
          omega
        rw [← hs, List.drop_append, List.drop_of_length_le (by omega), List.nil_append,
          Nat.add_sub_cancel_left, List.getD_append _ _ _ _ hparent]
        exact List.flatMap_block hblock hj
    obtain ⟨tree, idx', hrun, htree, hmore', hall⟩ := ih (d + 1) (s.1 ++ blocks, idx) (by omega)
      hgrown hfilled'
    refine ⟨tree, idx', ?_, htree, (List.prefix_append _ _).trans hmore', hall⟩
    rw [List.range'_succ, List.map_cons, sampleLevels?, hmax, hs]
    rw [hs] at hlevel
    exact (congrArg (Option.bind · _) hlevel).trans hrun

end Levels

/-! ## Places in the tree -/

section Places

variable {d j m : ℕ}

/-- The children of a draft node. -/
def childrenOf (ssd : SSDConfig) (p : ℕ) : List ℕ :=
  (List.range ssd.numDraftNodes).filter fun c => ssd.parent c = some p

theorem node_lt (hd : d ≤ ssd.draftLevels) (hm : m < width ssd.branches d) :
    first ssd.branches d + m < ssd.numDraftNodes := by
  have := first_mono ssd.branches (show d + 1 ≤ ssd.draftLevels + 1 by omega)
  rw [first_succ] at this
  rw [numDraftNodes_eq]
  omega

/-- A node of level `d` has `d` ancestors. -/
theorem ancestors_length (hd : d ≤ ssd.draftLevels) (hm : m < width ssd.branches d) :
    (ssd.ancestors (first ssd.branches d + m)).length = d := by
  induction d generalizing m with
  | zero =>
    rw [width_zero] at hm
    obtain rfl : m = 0 := by omega
    rw [first_zero, ancestors_root ssd.parent_root]
    rfl
  | succ d ih =>
    have hdiv : m / ssd.branches.getD d 0 < width ssd.branches d := by
      rw [width_succ (show d < ssd.branches.length from hd)] at hm
      refine Nat.div_lt_of_lt_mul ?_
      rwa [Nat.mul_comm]
    rw [ancestors_child (parent_draft hd hm), List.length_cons, ih (by omega) hdiv]

/-- The children of node `j` of a level stand together. -/
theorem childrenOf_eq (hd : d < ssd.draftLevels) (hj : j < width ssd.branches d) :
    ssd.childrenOf (first ssd.branches d + j) =
      List.range' (first ssd.branches (d + 1) + j * ssd.branches.getD d 0)
        (ssd.branches.getD d 0) := by
  apply List.Pairwise.eq_of_mem_iff (List.pairwise_lt_range.filter _) List.pairwise_lt_range'
  intro c
  rw [List.mem_filter, List.mem_range, decide_eq_true_eq, List.mem_range'_1]
  constructor
  · rintro ⟨hc, hparent⟩
    rw [numDraftNodes_eq] at hc
    obtain ⟨e, he, m, hm, rfl⟩ := exists_level _ _ hc
    cases e with
    | zero =>
      rw [width_zero] at hm
      obtain rfl : m = 0 := by omega
      rw [first_zero, ssd.parent_root] at hparent
      cases hparent
    | succ e =>
      rw [parent_draft (by omega) hm] at hparent
      have hwidth : width ssd.branches (e + 1) = _ := width_succ (show e < ssd.draftLevels by omega)
      have hdiv : m / ssd.branches.getD e 0 < width ssd.branches e := by
        refine Nat.div_lt_of_lt_mul ?_
        rw [Nat.mul_comm]
        omega
      obtain ⟨rfl, rfl⟩ := level_unique hdiv hj (Option.some.inj hparent)
      have hpos : 0 < ssd.branches.getD e 0 := by
        by_contra h0
        rw [show ssd.branches.getD e 0 = 0 by omega, Nat.mul_zero] at hwidth
        omega
      have hmod := Nat.div_add_mod m (ssd.branches.getD e 0)
      have hlt := Nat.mod_lt m hpos
      rw [Nat.mul_comm] at hmod
      omega
  · rintro ⟨hle, hlt⟩
    obtain ⟨k, rfl⟩ := Nat.exists_eq_add_of_le hle
    have hk : k < ssd.branches.getD d 0 := by omega
    have hwidth : j * ssd.branches.getD d 0 + k < width ssd.branches (d + 1) := by
      rw [width_succ (show d < ssd.branches.length from hd)]
      have := Nat.mul_le_mul_right (ssd.branches.getD d 0) (show j + 1 ≤ width ssd.branches d from hj)
      rw [Nat.succ_mul] at this
      omega
    have hdiv : (j * ssd.branches.getD d 0 + k) / ssd.branches.getD d 0 = j := by
      rw [Nat.mul_comm, Nat.mul_add_div (by omega), Nat.div_eq_of_lt hk, Nat.add_zero]
    rw [Nat.add_assoc]
    refine ⟨node_lt hd hwidth, ?_⟩
    rw [parent_draft hd hwidth, hdiv]

/-- The nodes of the last level have no children. -/
theorem childrenOf_leaf (hj : j < width ssd.branches ssd.draftLevels) :
    ssd.childrenOf (first ssd.branches ssd.draftLevels + j) = [] := by
  refine List.filter_eq_nil_iff.mpr fun c hc => ?_
  rw [List.mem_range, numDraftNodes_eq] at hc
  rw [decide_eq_true_eq]
  intro hparent
  obtain ⟨e, he, m, hm, rfl⟩ := exists_level _ _ hc
  have hdepth := ancestors_length (show e ≤ ssd.draftLevels by omega) hm
  rw [ancestors_child hparent, List.length_cons, ancestors_length le_rfl hj] at hdepth
  omega

theorem map_getD_range' (tree : List Int32) (k n : ℕ) (h : k + n ≤ tree.length) :
    (List.range' k n).map (fun i => tree.getD i 0) = (tree.drop k).take n := by
  refine List.ext_getElem (by simp; omega) fun i hi _ => ?_
  rw [List.length_map, List.length_range'] at hi
  rw [List.getElem_map, List.getElem_range', List.getElem_take, List.getElem_drop, Nat.one_mul,
    List.getD_eq_getElem _ _ (by omega)]

end Places

/-! ## Rankings -/

/-- The ids of a row, each once, the greatest logits first. -/
structure Ranking (logits : List ℚ) (order : List ℕ) : Prop where
  perm : order.Perm (List.range logits.length)
  sorted : order.Pairwise fun a b => logits.getD b 0 ≤ logits.getD a 0

/-- The first `k` ids of a ranking, whatever it does with equal logits. -/
def IsTopK (logits : List ℚ) (k : ℕ) (samples : List Int32) : Prop :=
  ∃ order, Ranking logits order ∧ samples = (order.take k).map Int32.ofNat

theorem topKLogits_isTopK (logits : List ℚ) (k : ℕ) : IsTopK logits k (topKLogits logits k) := by
  refine ⟨_, ⟨StableSort.perm_sortBy _, ?_⟩, rfl⟩
  exact (StableSort.sorted_sortBy (fun i => -logits.getD i 0) _).imp fun h => neg_le_neg_iff.mp h

/-- The ids of a vocabulary of at most `2 ^ 32` tokens are distinct as `int32_t`. -/
theorem Ranking.nodup {logits : List ℚ} {order : List ℕ} (h : Ranking logits order)
    (hvocab : logits.length ≤ 2 ^ 32) : (order.map Int32.ofNat).Nodup := by
  refine List.Nodup.map_on (fun a ha b hb heq => ?_) (h.perm.nodup_iff.mpr List.nodup_range)
  have ha' := List.mem_range.mp (h.perm.mem_iff.mp ha)
  have hb' := List.mem_range.mp (h.perm.mem_iff.mp hb)
  have hmod : a % 2 ^ 32 = b % 2 ^ 32 := by
    simpa using congrArg (fun x : Int32 => x.toUInt32.toNat) heq
  rwa [Nat.mod_eq_of_lt (by omega), Nat.mod_eq_of_lt (by omega)] at hmod

/-! ## The draft tree -/

/-- A draft tree over given rows: the children of a node of level `d` are, in order, the
highest-ranked ids of row `d` other than the node's own token. -/
structure Drafts (ssd : SSDConfig) (topK : List ℚ → ℕ → List Int32) (logitsAt : ℕ → List ℚ)
    (last : Int32) (off : ℕ) (tree : List Int32) : Prop where
  length : tree.length = ssd.numDraftNodes
  root : tree.head? = some last
  levels : ∀ p < ssd.numDraftNodes, (ssd.ancestors p).length ≤ ssd.draftLevels
  children : ∀ d < ssd.draftLevels, ∃ order, Ranking (logitsAt (off + d)) order ∧
    topK (logitsAt (off + d)) (ssd.branches.getD d 0 + 1) =
      (order.take (ssd.branches.getD d 0 + 1)).map Int32.ofNat ∧
    ∀ p < ssd.numDraftNodes, (ssd.ancestors p).length = d →
      (ssd.childrenOf p).length = ssd.branches.getD d 0 ∧
      ((ssd.childrenOf p).map fun c => tree.getD c 0) =
        ((order.map Int32.ofNat).filter (· ≠ tree.getD p 0)).take (ssd.branches.getD d 0) ∧
      ((ssd.childrenOf p).map fun c => tree.getD c 0).Nodup ∧
      ∀ c ∈ ssd.childrenOf p, tree.getD c 0 ≠ tree.getD p 0
  leaves : ∀ p < ssd.numDraftNodes, (ssd.ancestors p).length = ssd.draftLevels →
    ssd.childrenOf p = []

/-- Every draft node has a place in one of the levels. -/
theorem exists_place {p : ℕ} (hp : p < ssd.numDraftNodes) :
    ∃ d ≤ ssd.draftLevels, ∃ j < width ssd.branches d, p = first ssd.branches d + j ∧
      (ssd.ancestors p).length = d := by
  rw [numDraftNodes_eq] at hp
  obtain ⟨d, hd, j, hj, rfl⟩ := exists_level _ _ hp
  exact ⟨d, by omega, j, hj, rfl, ancestors_length (by omega) hj⟩

/-- A filled tree has the children that the rankings say. -/
theorem Filled.drafts {topK : List ℚ → ℕ → List Int32} {logitsAt : ℕ → List ℚ} {off : ℕ}
    {last : Int32} {tree : List Int32} (h : Filled ssd topK logitsAt off ssd.draftLevels tree)
    (hlen : tree.length = ssd.numDraftNodes) (hroot : tree.head? = some last)
    (hvocab : ∀ d < ssd.draftLevels, ssd.branches.getD d 0 < (logitsAt (off + d)).length ∧
      (logitsAt (off + d)).length ≤ 2 ^ 32)
    (htopK : ∀ logits k, IsTopK logits k (topK logits k)) :
    Drafts ssd topK logitsAt last off tree where
  length := hlen
  root := hroot
  levels := by
    intro p hp
    obtain ⟨d, hd, j, hj, -, hdepth⟩ := exists_place hp
    omega
  children := by
    intro d hd
    obtain ⟨order, hrank, heq⟩ := htopK (logitsAt (off + d)) (ssd.branches.getD d 0 + 1)
    refine ⟨order, hrank, heq, fun p hp hdepth => ?_⟩
    obtain ⟨e, he, j, hj, rfl, hdepth'⟩ := exists_place hp
    obtain rfl : e = d := hdepth'.symm.trans hdepth
    obtain ⟨hb, h32⟩ := hvocab e hd
    have hnd := hrank.nodup h32
    have hlong : ssd.branches.getD e 0 < (order.map Int32.ofNat).length := by
      rw [List.length_map, hrank.perm.length_eq, List.length_range]
      exact hb
    have hend : first ssd.branches (e + 1) + j * ssd.branches.getD e 0 + ssd.branches.getD e 0 ≤
        tree.length := by
      have hle := Nat.mul_le_mul_right (ssd.branches.getD e 0)
        (show j + 1 ≤ width ssd.branches e from hj)
      rw [Nat.succ_mul, ← width_succ (show e < ssd.branches.length from hd)] at hle
      have hmono := first_mono ssd.branches (show e + 2 ≤ ssd.draftLevels + 1 by omega)
      rw [first_succ _ (e + 1)] at hmono
      rw [hlen, numDraftNodes_eq]
      omega
    have hchildren : ((ssd.childrenOf (first ssd.branches e + j)).map fun c => tree.getD c 0) =
        ((order.map Int32.ofNat).filter (· ≠ tree.getD (first ssd.branches e + j) 0)).take
          (ssd.branches.getD e 0) := by
      rw [childrenOf_eq hd hj, map_getD_range' _ _ _ hend, h e hd j hj, picks, levelSamples,
        samplesPerDraftLevel, heq, List.map_take]
      exact List.skip_take hnd hlong
    refine ⟨by rw [childrenOf_eq hd hj, List.length_range'], hchildren, ?_, fun c hc => ?_⟩
    · rw [hchildren]
      exact (hnd.filter _).sublist (List.take_sublist _ _)
    · have hmem : tree.getD c 0 ∈
          (ssd.childrenOf (first ssd.branches e + j)).map fun c => tree.getD c 0 :=
        List.mem_map.mpr ⟨c, hc, rfl⟩
      rw [hchildren] at hmem
      exact of_decide_eq_true (List.mem_filter.mp (List.mem_of_mem_take hmem)).2
  leaves := by
    intro p hp hdepth
    obtain ⟨e, he, j, hj, rfl, hdepth'⟩ := exists_place hp
    obtain rfl : e = ssd.draftLevels := hdepth'.symm.trans hdepth
    exact childrenOf_leaf hj

theorem buildSampleTree?_drafts (hpos : ∀ b ∈ ssd.branches, 0 < b)
    {topK : List ℚ → ℕ → List Int32} {logitsAt : ℕ → List ℚ} (last : Int32) {off : ℕ}
    (hvocab : ∀ d < ssd.draftLevels, ssd.branches.getD d 0 < (logitsAt (off + d)).length ∧
      (logitsAt (off + d)).length ≤ 2 ^ 32)
    (htopK : ∀ logits k, IsTopK logits k (topK logits k)) :
    ∃ tree, ssd.buildSampleTree? topK logitsAt last off = some tree ∧
      Drafts ssd topK logitsAt last off tree := by
  have hpos' : ∀ d < ssd.draftLevels, 0 < ssd.branches.getD d 0 := by
    intro d hd
    rw [List.getD_eq_getElem _ _ hd]
    exact hpos _ (List.getElem_mem hd)
  have hsamples : ∀ d < ssd.draftLevels, (levelSamples ssd topK logitsAt off d).Nodup ∧
      ssd.branches.getD d 0 < (levelSamples ssd topK logitsAt off d).length := by
    intro d hd
    obtain ⟨hb, h32⟩ := hvocab d hd
    obtain ⟨order, hrank, heq⟩ := htopK (logitsAt (off + d)) (ssd.samplesPerDraftLevel d)
    rw [levelSamples, heq]
    constructor
    · rw [List.map_take]
      exact (hrank.nodup h32).sublist (List.take_sublist _ _)
    · rw [List.length_map, List.length_take, hrank.perm.length_eq, List.length_range,
        samplesPerDraftLevel]
      omega
  obtain ⟨tree, idx, hrun, hlen, ⟨more, hmore⟩, hfilled⟩ := sampleLevels_fills hpos'
    (fun d hd => (hsamples d hd).1) (fun d hd => (hsamples d hd).2) ssd.draftLevels 0 ([last], 0)
    (Nat.zero_add _) rfl nofun
  refine ⟨tree, ?_, hfilled.drafts (hlen.trans ssd.numDraftNodes_eq.symm) ?_ hvocab htopK⟩
  · unfold buildSampleTree?
    rw [levels_eq, List.range_eq_range', hrun]
    rfl
  · rw [← hmore]
    rfl

/-- **Draft sampling fills the tree with distinct candidates**, however equal logits are ranked,
and reads nothing past the end of a list. -/
theorem buildSampleTree_distinct (ssd : SSDConfig) (hpos : ∀ b ∈ ssd.branches, 0 < b)
    (logitsAt : ℕ → List ℚ) (last : Int32) (off : ℕ)
    (hvocab : ∀ d < ssd.draftLevels, ssd.branches.getD d 0 < (logitsAt (off + d)).length ∧
      (logitsAt (off + d)).length ≤ 2 ^ 32) :
    (∀ topK : List ℚ → ℕ → List Int32, (∀ logits k, IsTopK logits k (topK logits k)) →
      ∃ tree, ssd.buildSampleTree? topK logitsAt last off = some tree ∧
        Drafts ssd topK logitsAt last off tree) ∧
    ssd.buildSampleTree? topKLogits logitsAt last off =
      some (ssd.buildSampleTree logitsAt last off) ∧
    Drafts ssd topKLogits logitsAt last off (ssd.buildSampleTree logitsAt last off) := by
  obtain ⟨tree, hrun, hdrafts⟩ := buildSampleTree?_drafts hpos last hvocab topKLogits_isTopK
  rw [buildSampleTree?_eq hrun]
  exact ⟨fun topK htopK => buildSampleTree?_drafts hpos last hvocab htopK, hrun, hdrafts⟩

/-- A tree of two nodes with one child each; the root's token is ranked first. -/
theorem buildSampleTree_distinct_pair :
    (SSDConfig.mk [2, 1] 0 none).buildSampleTree? topKLogits (fun _ => [3, 1, 2]) 0 1 =
        some [0, 2, 1, 0, 0] ∧
      [(2 : Int32), 1].Nodup := by
  have h := buildSampleTree_distinct ⟨[2, 1], 0, none⟩ (by decide) (fun _ => [3, 1, 2]) 0 1
    fun d hd => by
      have hd' : d < 2 := hd
      interval_cases d <;> decide
  have htree : (SSDConfig.mk [2, 1] 0 none).buildSampleTree (fun _ => [3, 1, 2]) 0 1 =
      [0, 2, 1, 0, 0] := by decide +kernel
  rw [htree] at h
  obtain ⟨order, -, -, hchildren⟩ := h.2.2.children 0 (by decide)
  have hnd := (hchildren 0 (by decide) (by decide)).2.2.1
  exact ⟨h.2.1, hnd⟩

end SSDConfig

end Geniex
