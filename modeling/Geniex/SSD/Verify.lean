import Geniex.Lib.Greedy
import Geniex.SSD.Commit

/-!
# What verification accepts

* `buildSampleTree_length`, `buildSampleTree_root`: a draft tree has a token for each node, and its
  root is the last token.
* `verifyDraftTree_accepts`: if every row answers the text that ends at it, the accepted tokens are
  a greedy continuation, and the accepted rows are the path that spells it.
-/

namespace Geniex

open Greedy

namespace SSDConfig

variable {ssd : SSDConfig}

/-! ## The draft tree -/

theorem sampleLevel_grows (samples : List Int32) (n : ℕ) : ∀ (i : ℕ) (s : List Int32 × ℕ),
    s.1 <+: (ssd.sampleLevel samples n i s).1 ∧
      (ssd.sampleLevel samples n i s).1.length = s.1.length + n := by
  induction n with
  | zero => exact fun i s => ⟨List.prefix_rfl, rfl⟩
  | succ n ih =>
    intro i s
    obtain ⟨hmore, hlen⟩ := ih (i + 1) (ssd.sampleNode samples i s)
    refine ⟨(List.prefix_append _ _).trans hmore, hlen.trans ?_⟩
    rw [sampleNode, List.length_append, List.length_singleton, Nat.add_right_comm, Nat.add_assoc]

theorem sampleLevels_grows (logitsAt : ℕ → List ℚ) (off : ℕ) (levels : List ℕ) :
    ∀ (d : ℕ) (s : List Int32 × ℕ),
      s.1 <+: (ssd.sampleLevels logitsAt off levels d s).1 ∧
        (ssd.sampleLevels logitsAt off levels d s).1.length =
          s.1.length + (levels.map fun n => max n 1).sum := by
  induction levels with
  | nil => exact fun d s => ⟨List.prefix_rfl, rfl⟩
  | cons n levels ih =>
    intro d s
    obtain ⟨hfirst, hlen⟩ := ssd.sampleLevel_grows
      (topKLogits (logitsAt (off + d)) (ssd.samplesPerDraftLevel d)) (max n 1) s.1.length s
    obtain ⟨hrest, hlen'⟩ := ih (d + 1) (ssd.sampleLevel
      (topKLogits (logitsAt (off + d)) (ssd.samplesPerDraftLevel d)) (max n 1) s.1.length s)
    refine ⟨hfirst.trans hrest, hlen'.trans ?_⟩
    rw [hlen, List.map_cons, List.sum_cons, Nat.add_assoc]

theorem children_length (b start stop : ℕ) : (children b start stop).length = (stop - start) * b := by
  unfold children
  rw [List.length_flatMap]
  simp

/-- With positive branch counts every level has nodes, and the levels are all of the tree. -/
theorem genLevels_nodes (branches : List ℕ) (hpos : ∀ b ∈ branches, 0 < b) :
    ∀ (start : ℕ) (tree : List (Option ℕ)) (nodes : List ℕ), start < tree.length →
      ∃ more, (genLevels branches start tree nodes).2 = nodes ++ more ∧ (∀ n ∈ more, 0 < n) ∧
        (genLevels branches start tree nodes).1.length = tree.length + more.sum := by
  induction branches with
  | nil => exact fun start tree nodes _ => ⟨[], by simp [genLevels]⟩
  | cons b bs ih =>
    intro start tree nodes hstart
    have hlen : 0 < (children b start tree.length).length := by
      rw [children_length]
      exact Nat.mul_pos (by omega) (hpos b List.mem_cons_self)
    obtain ⟨more, hmore, hall, hsum⟩ := ih (fun b hb => hpos b (List.mem_cons_of_mem _ hb))
      tree.length (tree ++ children b start tree.length)
      (nodes ++ [(children b start tree.length).length]) (by rw [List.length_append]; omega)
    refine ⟨(children b start tree.length).length :: more, ?_, ?_, ?_⟩
    · rw [genLevels, hmore, List.append_assoc, List.singleton_append]
    · intro n hn
      rcases List.mem_cons.mp hn with rfl | hn
      · exact hlen
      · exact hall n hn
    · rw [genLevels, hsum, List.length_append, List.sum_cons, Nat.add_assoc]

/-- A draft tree has a token for each node. -/
theorem buildSampleTree_length (hpos : ∀ b ∈ ssd.branches, 0 < b) (logitsAt : ℕ → List ℚ)
    (last : Int32) (off : ℕ) :
    (ssd.buildSampleTree logitsAt last off).length = ssd.numDraftNodes := by
  have hlen := (ssd.sampleLevels_grows logitsAt off ssd.levels.2 0 ([last], 0)).2
  obtain ⟨nodes, hnodes, hall, hsum⟩ := genLevels_nodes ssd.branches hpos 0 [none] []
    (Nat.lt_succ_self 0)
  have hmax : (ssd.levels.2.map fun n => max n 1) = ssd.levels.2 := by
    rw [List.map_congr_left (g := id), List.map_id]
    intro n hn
    unfold levels at hn
    rw [hnodes, List.nil_append] at hn
    exact max_eq_left (hall n hn)
  unfold buildSampleTree numDraftNodes
  rw [hlen, hmax]
  unfold levels
  rw [hnodes, hsum]
  rfl

/-- The root of a draft tree is the last token. -/
theorem buildSampleTree_root (logitsAt : ℕ → List ℚ) (last : Int32) (off : ℕ) :
    (ssd.buildSampleTree logitsAt last off).getD 0 0 = last := by
  obtain ⟨more, hmore⟩ := (ssd.sampleLevels_grows logitsAt off ssd.levels.2 0 ([last], 0)).1
  unfold buildSampleTree
  rw [← hmore]
  rfl

/-! ## Verification -/

variable {eos : Int32 → Bool} {answer : ℕ → Int32} {tree ctx : List Int32}
  {answerTo : List Int32 → Int32}

/-- The accepted tokens continue the text that ends at the root; the accepted rows are a path that
spells all of them but the last. -/
structure Accepts (ssd : SSDConfig) (answerTo : List Int32 → Int32) (ctx tree : List Int32)
    (accepted : List Int32 × List ℕ) : Prop where
  path : RootPath ssd accepted.2
  spells : accepted.2.map (fun i => tree.getD i 0) = tree.getD 0 0 :: accepted.1.dropLast
  continues : Continues answerTo (ctx ++ [tree.getD 0 0]) accepted.1

/-- Every row answers the text that ends at it, along any path to it. -/
def RowsAnswer (ssd : SSDConfig) (answer : ℕ → Int32) (answerTo : List Int32 → Int32)
    (ctx tree : List Int32) : Prop :=
  ∀ ids i, RootPath ssd ids → ids.Pairwise (· < ·) → ids.getLast? = some i →
    i < ssd.numDraftNodes → answer i = answerTo (ctx ++ ids.map fun i => tree.getD i 0)

theorem accepts_root (hrows : RowsAnswer ssd answer answerTo ctx tree) :
    Accepts ssd answerTo ctx tree ([answer 0], [0]) :=
  ⟨RootPath.root, rfl,
    hrows [0] 0 RootPath.root (List.pairwise_singleton _ _) rfl ssd.numDraftNodes_pos, trivial⟩

/-- A child of the last accepted row that has the token it predicts. -/
theorem Accepts.extend {tokens : List Int32} {ids : List ℕ} {i : ℕ}
    (h : Accepts ssd answerTo ctx tree (tokens, ids)) (hwalk : Walk i (tokens, ids))
    (hrows : RowsAnswer ssd answer answerTo ctx tree) (hi : i < ssd.numDraftNodes)
    (hparent : ssd.parent i = ids.getLast?) (htoken : tree.getD i 0 = tokens.getLastD 0) :
    Accepts ssd answerTo ctx tree (tokens ++ [answer i], ids ++ [i]) := by
  have hne : tokens ≠ [] := by
    rintro rfl
    exact hwalk.ne (List.eq_nil_of_length_eq_zero hwalk.length.symm)
  have hpath : RootPath ssd (ids ++ [i]) := h.path.child hparent
  have hspells : (ids ++ [i]).map (fun i => tree.getD i 0) = tree.getD 0 0 :: tokens := by
    have hlast : tokens.getLastD 0 = tokens.getLast hne := by
      rw [List.getLastD_eq_getLast?, List.getLast?_eq_some_getLast hne, Option.getD_some]
    rw [List.map_append, h.spells, List.map_singleton, htoken, hlast, List.cons_append]
    exact congrArg (_ :: ·) (List.dropLast_append_getLast hne)
  refine ⟨hpath, ?_, continues_concat.mpr ⟨h.continues, ?_⟩⟩
  · rw [hspells, List.dropLast_concat]
  · rw [hrows _ i hpath (hwalk.extend 0).ascending List.getLast?_concat hi, hspells,
      List.append_assoc, List.singleton_append]

theorem verifyFrom_accepts (hrows : RowsAnswer ssd answer answerTo ctx tree) (n : ℕ) :
    ∀ (i : ℕ) (tokens : List Int32) (ids : List ℕ), Walk i (tokens, ids) →
      Accepts ssd answerTo ctx tree (tokens, ids) → i + n ≤ ssd.numDraftNodes →
      Accepts ssd answerTo ctx tree
        (ssd.verifyFrom eos answer tree (List.range' i n) tokens ids) := by
  induction n with
  | zero => exact fun i tokens ids _ h _ => h
  | succ n ih =>
    intro i tokens ids hwalk h hin
    rw [List.range'_succ, verifyFrom]
    split_ifs with hnext heos
    · exact h.extend hwalk hrows (by omega) hnext.1 hnext.2
    · exact ih _ _ _ (hwalk.extend _) (h.extend hwalk hrows (by omega) hnext.1 hnext.2) (by omega)
    · exact ih _ _ _ (hwalk.mono (by omega)) h (by omega)

/-- **Verification accepts a greedy continuation.** -/
theorem verifyDraftTree_accepts (hrows : RowsAnswer ssd answer answerTo ctx tree) :
    Accepts ssd answerTo ctx tree (ssd.verifyDraftTree eos answer tree) := by
  have hpos := ssd.numDraftNodes_pos
  unfold verifyDraftTree
  split_ifs
  · exact accepts_root hrows
  · exact verifyFrom_accepts hrows _ 1 _ _ (walk_root _) (accepts_root hrows) (by omega)

end SSDConfig

end Geniex
