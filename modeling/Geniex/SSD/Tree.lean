import Geniex.Lib.StableSort
import Geniex.LLM.Generate

/-!
# The draft tree

What self-speculative decoding computes from the branch counts, from a row of logits and from a
draft tree, before and after a forward pass.

* `SSDConfig.shape`: the static tree, as parent indices. A parent index of `none` is `-1`.
* `buildSampleTree`, `verifyDraftTree`: the tokens of a tree, and the path that is accepted.
* `buildTreeAttentionMask`, `computeTreePositionIds`: what the pass is given for a tree.
-/

namespace Geniex

open FlatMem

/-- `SSDConfig`; the file is the content at `forecast_prefix_path`, if it can be opened. -/
structure SSDConfig where
  branches : List ℕ
  forecastPrefix : ℕ
  prefixFile : Option (List UInt8)

namespace SSDConfig

variable (ssd : SSDConfig)

/-! ## The static tree -/

/-- `draft_levels_`. -/
def draftLevels : ℕ := ssd.branches.length

/-- The children that one level adds: `branch_count` for each node of `[start, stop)`. -/
def children (branchCount start stop : ℕ) : List (Option ℕ) :=
  (List.range' start (stop - start)).flatMap fun node => List.replicate branchCount (some node)

/-- The loop of `genAttentionMap` over the levels, with the node count of each level. -/
def genLevels : List ℕ → ℕ → List (Option ℕ) → List ℕ → List (Option ℕ) × List ℕ
  | [], _, tree, nodes => (tree, nodes)
  | b :: bs, start, tree, nodes =>
    genLevels bs tree.length (tree ++ children b start tree.length)
      (nodes ++ [(children b start tree.length).length])

/-- The nodes of the draft tree, by their parents, and `nodes_per_draft_level_`. -/
def levels : List (Option ℕ) × List ℕ := genLevels ssd.branches 0 [none] []

/-- `num_draft_nodes_`. -/
def numDraftNodes : ℕ := ssd.levels.1.length

/-- `samples_per_draft_level_[d]`. -/
def samplesPerDraftLevel (d : ℕ) : ℕ := ssd.branches.getD d 0 + 1

/-- The chain of forecast tokens of a node, whose first index is `first`. -/
def forecastChain (node first : ℕ) : List (Option ℕ) :=
  some node :: (List.range (ssd.draftLevels - 1)).map fun d => some (first + d)

/-- `genAttentionMap`: the draft tree, then the chain of forecast tokens of each node. -/
def attentionMap : List (Option ℕ) :=
  (List.range ssd.numDraftNodes).foldl
    (fun tree node => tree ++ ssd.forecastChain node tree.length) ssd.levels.1

/-- `attention_map_[i]` -/
def parent (i : ℕ) : Option ℕ := ssd.attentionMap.getD i none

/-- The loop from a node to the root; a parent precedes its children, so `i` steps are enough. -/
def ancestorsFrom : ℕ → ℕ → List ℕ
  | 0, _ => []
  | fuel + 1, i =>
    match ssd.parent i with
    | none => []
    | some p => p :: ancestorsFrom fuel p

/-- The ancestors of a node, nearest first. -/
def ancestors (i : ℕ) : List ℕ := ssd.ancestorsFrom (i + 1) i

/-! ## Positions and mask -/

/-- The loop of `computeTreePositionIds`. The root's position is cast from a `size_t`. -/
def treePositions (nPast : ℕ) : ℕ → List Int32
  | 0 => []
  | n + 1 =>
    let ids := treePositions nPast n
    match ssd.parent n with
    | none => ids ++ [Int32.ofInt ((nPast : ℤ) - ssd.forecastPrefix)]
    | some p => ids ++ [ids.getD p 0 + 1]

/-- `computeTreePositionIds(n_past, num_tokens)`. -/
def computeTreePositionIds (nPast numTokens : ℕ) : List Int32 := ssd.treePositions nPast numTokens

/-- The first past column that row `i` sees: rows below the offset skip the forecast prefix. -/
def firstPast (kvPrefixOffset i : ℕ) : ℕ := if i < kvPrefixOffset then ssd.forecastPrefix else 0

/-- The row of token `i` in `buildTreeAttentionMask`. -/
def treeMaskRow (nPast seqLen kvLen kvPrefixOffset i : ℕ) (m : ℕ → ℤ) : ℕ → ℤ :=
  let row := i * (kvLen + seqLen)
  let first := ssd.firstPast kvPrefixOffset i
  (i :: ssd.ancestors i).foldl (fun m j => Function.update m (row + (kvLen + j)) 0)
    (clearRun m (row + first) (nPast - first))

/-- `buildTreeAttentionMask(n_past, num_tokens, seq_len, kv_len, kv_prefix_offset)`. -/
def buildTreeAttentionMask (nPast numTokens seqLen kvLen kvPrefixOffset : ℕ) : ℕ → ℤ :=
  upto (ssd.treeMaskRow nPast seqLen kvLen kvPrefixOffset) numTokens fun _ => maskedValue

/-- The row of a prefill chunk's mask. -/
def prefillMaskRow (nPast seqLen kvLen row : ℕ) (m : ℕ → ℤ) : ℕ → ℤ :=
  clearRun (clearRun m (row * (kvLen + seqLen) + ssd.forecastPrefix) (nPast - ssd.forecastPrefix))
    (row * (kvLen + seqLen) + kvLen) (row + 1)

/-- The mask of a prefill chunk: causal, skipping the forecast prefix. -/
def prefillMask (nPast chunkSize seqLen kvLen : ℕ) : ℕ → ℤ :=
  upto (ssd.prefillMaskRow nPast seqLen kvLen) chunkSize fun _ => maskedValue

/-- The position ids of a prefill chunk. -/
def prefillPositions (nPast chunkSize : ℕ) : List Int32 :=
  (List.range chunkSize).map fun i : ℕ => Int32.ofInt ((nPast : ℤ) - ssd.forecastPrefix + i)

/-! ## Tokens -/

/-- The forecast tokens: the ids past the vocabulary, one for each draft level. -/
def forecastRow (vocabSize : ℕ) : List Int32 :=
  (List.range ssd.draftLevels).map fun i => Int32.ofNat (vocabSize + i)

/-- `genForecastTokens(repeat)`. -/
def genForecastTokens (vocabSize times : ℕ) : List Int32 :=
  (List.replicate times (ssd.forecastRow vocabSize)).flatten

/-- `topKLogits(logits_row, k)`: the indices of the `k` greatest logits, greatest first; equal
logits in the order of their indices, as one outcome of `std::partial_sort`. -/
def topKLogits (logits : List ℚ) (k : ℕ) : List Int32 :=
  ((StableSort.sortBy (fun i => -logits.getD i 0) (List.range logits.length)).take k).map Int32.ofNat

/-- One turn of the loop of `buildSampleTree`: the token of node `i`, given its level's samples. -/
def sampleNode (samples : List Int32) (i : ℕ) (s : List Int32 × ℕ) : List Int32 × ℕ :=
  let start := if ssd.parent i ≠ ssd.parent (i - 1) then 0 else s.2
  let parentToken := s.1.getD ((ssd.parent i).getD 0) 0
  let next := if samples.getD start 0 = parentToken then start + 1 else start
  (s.1 ++ [samples.getD next 0], next + 1)

/-- The turns of one level, from node `i` on. -/
def sampleLevel (samples : List Int32) : ℕ → ℕ → List Int32 × ℕ → List Int32 × ℕ
  | 0, _, s => s
  | n + 1, i, s => sampleLevel samples n (i + 1) (ssd.sampleNode samples i s)

/-- The levels of `buildSampleTree` from level `d` on. A level takes a turn even if it has no
nodes, since its nodes are counted after the turn. -/
def sampleLevels (logitsAt : ℕ → List ℚ) (startOffset : ℕ) :
    List ℕ → ℕ → List Int32 × ℕ → List Int32 × ℕ
  | [], _, s => s
  | nodes :: rest, d, s =>
    sampleLevels logitsAt startOffset rest (d + 1)
      (ssd.sampleLevel (topKLogits (logitsAt (startOffset + d)) (ssd.samplesPerDraftLevel d))
        (max nodes 1) s.1.length s)

/-- `buildSampleTree(last_token, phase, start_offset)`, with the logits of each row. -/
def buildSampleTree (logitsAt : ℕ → List ℚ) (lastToken : Int32) (startOffset : ℕ) : List Int32 :=
  (ssd.sampleLevels logitsAt startOffset ssd.levels.2 0 ([lastToken], 0)).1

/-- The loop of `verifyDraftTree` over the nodes; `answer` is the argmax of a row of logits. -/
def verifyFrom (eos : Int32 → Bool) (answer : ℕ → Int32) (tree : List Int32) :
    List ℕ → List Int32 → List ℕ → List Int32 × List ℕ
  | [], tokens, ids => (tokens, ids)
  | i :: rest, tokens, ids =>
    if ssd.parent i = ids.getLast? ∧ tree.getD i 0 = tokens.getLastD 0 then
      if eos (answer i) = true then (tokens ++ [answer i], ids ++ [i])
      else verifyFrom eos answer tree rest (tokens ++ [answer i]) (ids ++ [i])
    else verifyFrom eos answer tree rest tokens ids

/-- `verifyDraftTree(draft_tree, phase)`: the accepted tokens and the rows they were read from. -/
def verifyDraftTree (eos : Int32 → Bool) (answer : ℕ → Int32) (tree : List Int32) :
    List Int32 × List ℕ :=
  if eos (answer 0) = true then ([answer 0], [0])
  else ssd.verifyFrom eos answer tree (List.range' 1 (ssd.numDraftNodes - 1)) [answer 0] [0]

end SSDConfig

end Geniex
