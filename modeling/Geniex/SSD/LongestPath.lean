import Geniex.SSD.Verify

/-!
# Verification returns the longest greedy path

* `GreedyPath`: a path down from the root along which every token is the one that the row before it
  answers.
* `Stuck`: no child of the last node has the token that its row answers.
* `verifyFrom_path`: what the loop keeps, node by node.
-/

namespace Geniex

namespace SSDConfig

variable {ssd : SSDConfig} {eos : Int32 → Bool} {answer : ℕ → Int32} {tree : List Int32}
  {tokens : List Int32} {ids : List ℕ} {i : ℕ}

/-- A path of draft nodes from the root on, with the token that each row answers; every node but the
root has the token that the row before it answers, and none of these ends the text. -/
structure GreedyPath (ssd : SSDConfig) (eos : Int32 → Bool) (answer : ℕ → Int32) (tree : List Int32)
    (accepted : List Int32 × List ℕ) : Prop where
  length : accepted.2.length = accepted.1.length
  root : accepted.2.head? = some 0
  draft : ∀ i ∈ accepted.2, i < ssd.numDraftNodes
  children : accepted.2.IsChain fun i j => ssd.parent j = some i
  answers : accepted.1 = accepted.2.map answer
  drafted : (accepted.2.tail.map fun i => tree.getD i 0) = accepted.1.dropLast
  goesOn : ∀ t ∈ accepted.1.dropLast, eos t = false

/-- No child of the last node among the nodes below `i` has the last token. -/
def Stuck (ssd : SSDConfig) (tree : List Int32) (i : ℕ) (accepted : List Int32 × List ℕ) : Prop :=
  ∀ c < i, ssd.parent c = accepted.2.getLast? → tree.getD c 0 ≠ accepted.1.getLastD 0

theorem greedyPath_root (ssd : SSDConfig) (eos : Int32 → Bool) (answer : ℕ → Int32)
    (tree : List Int32) : GreedyPath ssd eos answer tree ([answer 0], [0]) where
  length := rfl
  root := rfl
  draft := by
    intro i hi
    rw [List.mem_singleton.mp hi]
    exact ssd.numDraftNodes_pos
  children := List.isChain_singleton _
  answers := rfl
  drafted := rfl
  goesOn := nofun

/-- A child of the last node that has the last token. -/
theorem GreedyPath.extend (h : GreedyPath ssd eos answer tree (tokens, ids))
    (hwalk : Walk i (tokens, ids)) (hi : i < ssd.numDraftNodes)
    (hparent : ssd.parent i = ids.getLast?) (htoken : tree.getD i 0 = tokens.getLastD 0)
    (heos : ∀ t ∈ tokens, eos t = false) :
    GreedyPath ssd eos answer tree (tokens ++ [answer i], ids ++ [i]) := by
  have hids : ids ≠ [] := hwalk.ne
  have htokens : tokens ≠ [] := by
    rintro rfl
    exact hids (List.eq_nil_of_length_eq_zero hwalk.length.symm)
  have hlast : tokens.getLastD 0 = tokens.getLast htokens := by
    rw [List.getLastD_eq_getLast?, List.getLast?_eq_some_getLast htokens, Option.getD_some]
  refine ⟨?_, ?_, List.forall_mem_append.mpr ⟨h.draft, List.forall_mem_singleton.mpr hi⟩, ?_, ?_,
    ?_, ?_⟩
  · show (ids ++ [i]).length = (tokens ++ [answer i]).length
    rw [List.length_append, List.length_append]
    exact congrArg (· + 1) h.length
  · exact (List.head?_append_of_ne_nil _ hids).trans h.root
  · refine h.children.append (List.isChain_singleton _) fun x hx y hy => ?_
    obtain rfl : i = y := by simpa using hy
    exact hparent.trans hx
  · show tokens ++ [answer i] = (ids ++ [i]).map answer
    rw [List.map_append, ← h.answers, List.map_singleton]
  · show ((ids ++ [i]).tail.map fun i => tree.getD i 0) = (tokens ++ [answer i]).dropLast
    rw [List.tail_append_of_ne_nil hids, List.map_append, h.drafted, List.map_singleton, htoken,
      hlast, List.dropLast_concat]
    exact List.dropLast_append_getLast htokens
  · show ∀ t ∈ (tokens ++ [answer i]).dropLast, eos t = false
    rw [List.dropLast_concat]
    exact heos

/-! ## The loop -/

/-- The loop keeps a path, and looks at every node. -/
theorem verifyFrom_path (n : ℕ) : ∀ (i : ℕ) (tokens : List Int32) (ids : List ℕ),
    Walk i (tokens, ids) → GreedyPath ssd eos answer tree (tokens, ids) →
    (∀ t ∈ tokens, eos t = false) → Stuck ssd tree i (tokens, ids) →
    i + n = ssd.numDraftNodes →
    GreedyPath ssd eos answer tree
        (ssd.verifyFrom eos answer tree (List.range' i n) tokens ids) ∧
      (eos ((ssd.verifyFrom eos answer tree (List.range' i n) tokens ids).1.getLastD 0) = true ∨
        Stuck ssd tree ssd.numDraftNodes
          (ssd.verifyFrom eos answer tree (List.range' i n) tokens ids)) := by
  induction n with
  | zero =>
    rintro i tokens ids - h - hstuck rfl
    exact ⟨h, Or.inr hstuck⟩
  | succ n ih =>
    intro i tokens ids hwalk h heos hstuck hin
    rw [List.range'_succ, verifyFrom]
    split_ifs with hnext hend
    · refine ⟨h.extend hwalk (by omega) hnext.1 hnext.2 heos, Or.inl ?_⟩
      rwa [List.getLastD_concat]
    · refine ih _ _ _ (hwalk.extend _) (h.extend hwalk (by omega) hnext.1 hnext.2 heos) ?_ ?_
        (by omega)
      · intro t ht
        rcases List.mem_append.mp ht with ht | ht
        · exact heos t ht
        · rw [List.mem_singleton.mp ht]
          exact Bool.eq_false_iff.mpr hend
      · -- the children of the new node stand behind it
        intro c hc hparent
        have := parent_lt (hparent.trans List.getLast?_concat)
        omega
    · refine ih _ _ _ (hwalk.mono (by omega)) h heos (fun c hc hparent htoken => ?_) (by omega)
      rcases Nat.lt_succ_iff_lt_or_eq.mp hc with hlt | rfl
      · exact hstuck c hlt hparent htoken
      · exact hnext ⟨hparent, htoken⟩

/-- **Verification returns the longest greedy path.** For any tree shape, draft tokens, logits and
end-of-text tokens. -/
theorem verifyDraftTree_longest (ssd : SSDConfig) (eos : Int32 → Bool) (logits : ℕ → List ℚ)
    (tree : List Int32) :
    let answer := fun i => Int32.ofNat (argmax (logits i))
    let accepted := ssd.verifyDraftTree eos answer tree
    GreedyPath ssd eos answer tree accepted ∧
      (eos (accepted.1.getLastD 0) = true ∨ ∀ c < ssd.numDraftNodes,
        ssd.parent c = accepted.2.getLast? → tree.getD c 0 ≠ accepted.1.getLastD 0) := by
  intro answer accepted
  have hpos := ssd.numDraftNodes_pos
  have hroot := greedyPath_root ssd eos answer tree
  show GreedyPath ssd eos answer tree (ssd.verifyDraftTree eos answer tree) ∧ (_ ∨ Stuck _ _ _ _)
  unfold accepted verifyDraftTree
  split_ifs with hend
  · exact ⟨hroot, Or.inl hend⟩
  · refine verifyFrom_path _ 1 _ _ (walk_root _) hroot (fun t ht => ?_) (fun c hc hparent => ?_)
      (by omega)
    · rw [List.mem_singleton.mp ht]
      exact Bool.eq_false_iff.mpr hend
    · -- the root is no child
      obtain rfl : c = 0 := by omega
      rw [ssd.parent_root] at hparent
      cases hparent

end SSDConfig

end Geniex
