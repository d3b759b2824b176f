import Geniex.Lib.StableSort
import Geniex.Types

/-!
# Initialisation: the slots of the graphs

`onInitialized` reads context lengths, sequence lengths and shard numbers off the names of the
loaded graphs, sorts the graphs by phase, shard and context length, and addresses them by
`graphIndex` from then on.

* `slotsRight_iff`: for which graph lists every slot holds the graph that `graphIndex` means.
-/

namespace Geniex

open StableSort

/-! ## Names -/

/-- `ParsedGraph`, of a name that matches. -/
structure ParsedGraph where
  ar : ℕ
  cl : ℕ
  shard : ℕ
  total : ℕ
  deriving DecidableEq

/-- The number that a string of digits stands for. -/
def numberOf (digits : List Char) : ℕ :=
  digits.foldl (fun n c => 10 * n + (c.toNat - '0'.toNat)) 0

/-- `(\d+)` and `std::stoul` of it, which throws from `2 ^ 64` on. -/
def takeNumber (text : List Char) : Option (ℕ × List Char) :=
  let digits := text.takeWhile Char.isDigit
  if digits = [] ∨ 2 ^ 64 ≤ numberOf digits then none
  else some (numberOf digits, text.dropWhile Char.isDigit)

/-- A literal part of the pattern. -/
def takeLiteral (literal : String) (text : List Char) : Option (List Char) :=
  if literal.toList.isPrefixOf text then some (text.drop literal.toList.length) else none

/-- `ar(\d+)_cl(\d+)_(\d+)_of_(\d+)` -/
def parseVariant (text : List Char) : Option ParsedGraph := do
  let text ← takeLiteral "ar" text
  let (ar, text) ← takeNumber text
  let text ← takeLiteral "_cl" text
  let (cl, text) ← takeNumber text
  let text ← takeLiteral "_" text
  let (shard, text) ← takeNumber text
  let text ← takeLiteral "_of_" text
  let (total, text) ← takeNumber text
  if text = [] then some ⟨ar, cl, shard, total⟩ else none

/-- `(?:[A-Za-z]+_)`, and the text after it. -/
def takePrefix (text : List Char) : Option (List Char) :=
  if text.takeWhile Char.isAlpha = [] then none else takeLiteral "_" (text.dropWhile Char.isAlpha)

/-- `parseGraphName`. -/
def parseGraphName (name : List Char) : Option ParsedGraph :=
  ((takePrefix name).bind parseVariant).or (parseVariant name)

/-! ## The grid -/

/-- What the names say: the fields of `spec_`, and `shard_count_`. -/
structure GraphGrid where
  contextLengths : List ℕ
  seqLenPrefill : ℕ
  seqLenDecode : ℕ
  shardCount : ℕ
  deriving DecidableEq

namespace GraphGrid

/-- `num_cl_` -/
def numCl (grid : GraphGrid) : ℕ := grid.contextLengths.length

def seqLen (grid : GraphGrid) : Phase → ℕ
  | .prefill => grid.seqLenPrefill
  | .decode => grid.seqLenDecode

/-- `graphIndex(phase, shard, cl_idx)` -/
def graphIndex (grid : GraphGrid) (phase : Phase) (shard clIdx : ℕ) : ℕ :=
  phase.index * (grid.shardCount * grid.numCl) + shard * grid.numCl + clIdx

/-- `2 * shard_count_ * num_cl_` -/
def totalGraphs (grid : GraphGrid) : ℕ := 2 * (grid.shardCount * grid.numCl)

end GraphGrid

/-- The sets of context and sequence lengths and the greatest shard total. -/
def gridOf (parsed : List ParsedGraph) : GraphGrid where
  contextLengths := (Std.TreeSet.ofList (parsed.map ParsedGraph.cl)).toList
  seqLenPrefill := (Std.TreeSet.ofList (parsed.map ParsedGraph.ar)).toList.getLastD 0
  seqLenDecode := (Std.TreeSet.ofList (parsed.map ParsedGraph.ar)).toList.headD 0
  shardCount := (parsed.map ParsedGraph.total).foldl max 0

/-- `std::tuple<int, int, int>` -/
abbrev SortKey := ℕ ×ₗ ℤ ×ₗ ℕ

/-- `sortKey`: phase, shard index and context-length index. -/
def sortKey (grid : GraphGrid) (p : ParsedGraph) : SortKey :=
  toLex (if p.ar = grid.seqLenPrefill then 0 else 1,
    toLex (if 0 < p.shard then (p.shard : ℤ).bmod (2 ^ 32) - 1 else 0,
      (grid.contextLengths.idxOf? p.cl).getD 0))

/-- Why `onInitialized` fails: it returns false for the first two, and throws for the others. -/
inductive InitError
  | badName (name : List Char)
  | noGraphs
  | zeroCount
  | setupFailed
  | outOfRange
  deriving DecidableEq

/-- The grid, and the graphs in the order of their slots. -/
structure LoadedGraphs (γ : Type) where
  grid : GraphGrid
  graphs : List γ

section Initialize

variable {γ : Type} (name : γ → List Char)

/-- The name of a graph, read. -/
def parsedOf (g : γ) : ParsedGraph := (parseGraphName (name g)).getD ⟨0, 0, 0, 0⟩

/-- `onInitialized`, as far as it depends on the names. The steps between the sort and
`initKVBuffers` read the tensors of the sorted graphs and leave their order alone; `setup` says
whether they succeed. -/
def onInitialized (setup : GraphGrid → List γ → Bool) (graphs : List γ) :
    Except InitError (LoadedGraphs γ) :=
  match graphs.find? fun g => (parseGraphName (name g)).isNone with
  | some g => .error (.badName (name g))
  | none =>
    if graphs = [] then .error .noGraphs
    else
      let grid := gridOf (graphs.map (parsedOf name))
      let sorted := sortBy (fun g => sortKey grid (parsedOf name g)) graphs
      if grid.shardCount = 0 ∨ grid.numCl = 0 then .error .zeroCount
      else if setup grid sorted = false then .error .setupFailed
      -- `initKVBuffers` asks for every slot
      else if sorted.length < grid.totalGraphs then .error .outOfRange
      else .ok ⟨grid, sorted⟩

/-! ## What is asked for -/

/-- The graph is the variant that a slot is for. -/
structure FitsSlot (grid : GraphGrid) (phase : Phase) (s clIdx : ℕ) (g : γ) : Prop where
  ar : (parsedOf name g).ar = grid.seqLen phase
  shard : (parsedOf name g).shard = s + 1
  cl : grid.contextLengths[clIdx]? = some (parsedOf name g).cl

/-- Every slot holds its graph. -/
def SlotsRight (m : LoadedGraphs γ) : Prop :=
  ∀ phase s clIdx, s < m.grid.shardCount → clIdx < m.grid.numCl →
    ∃ g, m.graphs[m.grid.graphIndex phase s clIdx]? = some g ∧ FitsSlot name m.grid phase s clIdx g

/-- The key that a slot's graph should have. -/
def slotKey (phase : Phase) (s clIdx : ℕ) : SortKey :=
  toLex (phase.index, toLex ((s : ℤ), clIdx))

/-- The graphs that sort under a key, in the order in which they were loaded. -/
def sortedUnder (grid : GraphGrid) (graphs : List γ) (k : SortKey) : List γ :=
  graphs.filter fun g => sortKey grid (parsedOf name g) = k

/-- The grid is full and, but for its last slot, free of duplicates: one graph sorts under the key
of each slot before the last, the first loaded of those that sort under the last key goes to the
last slot, each is the variant its slot is for, and no other graph sorts before the last slot. -/
structure GridFull (grid : GraphGrid) (graphs : List γ) : Prop where
  one : ∀ phase s clIdx, s < grid.shardCount → clIdx < grid.numCl →
    slotKey phase s clIdx ≠ slotKey .decode (grid.shardCount - 1) (grid.numCl - 1) →
    ∃ g, sortedUnder name grid graphs (slotKey phase s clIdx) = [g] ∧
      FitsSlot name grid phase s clIdx g
  last : ∃ g, (sortedUnder name grid graphs
      (slotKey .decode (grid.shardCount - 1) (grid.numCl - 1))).head? = some g ∧
    FitsSlot name grid .decode (grid.shardCount - 1) (grid.numCl - 1) g
  inside : ∀ g ∈ graphs, sortKey grid (parsedOf name g) <
      slotKey .decode (grid.shardCount - 1) (grid.numCl - 1) →
    ∃ phase s clIdx, s < grid.shardCount ∧ clIdx < grid.numCl ∧
      sortKey grid (parsedOf name g) = slotKey phase s clIdx

/-- All graphs have one sequence length, context length and shard, and the first two loaded serve
both phases. -/
def OneVariantTwice (grid : GraphGrid) (graphs : List γ) : Prop :=
  grid.seqLenPrefill = grid.seqLenDecode ∧ grid.shardCount = 1 ∧ grid.numCl = 1 ∧
    (∀ g ∈ graphs, slotKey .prefill 0 0 ≤ sortKey grid (parsedOf name g)) ∧
    ∃ g g' rest, sortedUnder name grid graphs (slotKey .prefill 0 0) = g :: g' :: rest ∧
      (parsedOf name g).shard = 1 ∧ (parsedOf name g').shard = 1

variable {name}

/-! ## Keys and slots -/

/-- A shard number is its own image in 32 bits below `2 ^ 31`, and only there. -/
theorem bmod_shard {s : ℕ} : ((s + 1 : ℕ) : ℤ).bmod (2 ^ 32) - 1 = s ↔ s + 1 < 2 ^ 31 := by
  rw [Int.bmod_def]
  split_ifs <;> omega

theorem nodup_contextLengths (parsed : List ParsedGraph) :
    (gridOf parsed).contextLengths.Nodup := by
  have h := Std.TreeSet.ordered_toList (t := Std.TreeSet.ofList (parsed.map ParsedGraph.cl))
  apply h.imp
  rintro a b hab rfl
  rw [Std.compare_self] at hab
  cases hab

theorem idxOf?_contextLengths {grid : GraphGrid} (h : grid.contextLengths.Nodup) {i cl : ℕ}
    (hi : grid.contextLengths[i]? = some cl) : grid.contextLengths.idxOf? cl = some i := by
  obtain ⟨hlt, rfl⟩ := List.getElem?_eq_some_iff.mp hi
  rw [List.idxOf?_eq_some_iff]
  refine ⟨hlt, by simp, fun j hj => ?_⟩
  have hne : (⟨j, hj.trans hlt⟩ : Fin grid.contextLengths.length) ≠ ⟨i, hlt⟩ := by
    simpa using hj.ne
  simpa using (List.nodup_iff_injective_getElem.mp h).ne hne

section Keys

variable {grid : GraphGrid} {phase : Phase} {s clIdx : ℕ} {g : γ}

/-- The key of a graph that fits a slot, up to the width of an `int`. -/
theorem FitsSlot.sortKey (hcl : grid.contextLengths.Nodup)
    (h : FitsSlot name grid phase s clIdx g) : sortKey grid (parsedOf name g) = toLex
      (if grid.seqLen phase = grid.seqLenPrefill then 0 else 1,
        toLex (((s + 1 : ℕ) : ℤ).bmod (2 ^ 32) - 1, clIdx)) := by
  unfold Geniex.sortKey
  rw [h.ar, h.shard, idxOf?_contextLengths hcl h.cl, if_pos (Nat.succ_pos s)]
  rfl

theorem FitsSlot.sortKey_eq_slotKey (hcl : grid.contextLengths.Nodup)
    (hne : grid.seqLenDecode ≠ grid.seqLenPrefill) (hs : s + 1 < 2 ^ 31)
    (h : FitsSlot name grid phase s clIdx g) :
    Geniex.sortKey grid (parsedOf name g) = slotKey phase s clIdx := by
  rw [h.sortKey hcl, bmod_shard.mpr hs]
  unfold slotKey
  cases phase with
  | prefill => rw [if_pos (show grid.seqLen .prefill = grid.seqLenPrefill from rfl)]; rfl
  | decode => rw [if_neg (show grid.seqLen .decode ≠ grid.seqLenPrefill from hne)]; rfl

end Keys

section Slots

variable {grid : GraphGrid} {p p' : Phase} {s s' c c' : ℕ}

theorem graphIndex_lt (hs : s < grid.shardCount) (hc : c < grid.numCl) :
    grid.graphIndex p s c < grid.totalGraphs := by
  have hrow := FlatMem.row_lt hs hc
  unfold GraphGrid.graphIndex GraphGrid.totalGraphs
  cases p <;> simp only [Phase.index] <;> omega

theorem graphIndex_last (hs : 0 < grid.shardCount) (hc : 0 < grid.numCl) :
    grid.graphIndex .decode (grid.shardCount - 1) (grid.numCl - 1) = grid.totalGraphs - 1 := by
  unfold GraphGrid.graphIndex GraphGrid.totalGraphs
  obtain ⟨n, hn⟩ : ∃ n, grid.shardCount = n + 1 := ⟨grid.shardCount - 1, by omega⟩
  simp only [Phase.index, hn, Nat.add_sub_cancel, Nat.succ_mul]
  omega

/-- The slot of an index: phase, shard and context-length index. -/
def slotOf (grid : GraphGrid) (i : ℕ) : Phase × ℕ × ℕ :=
  let row := grid.shardCount * grid.numCl
  (if i < row then .prefill else .decode, i % row / grid.numCl, i % row % grid.numCl)

theorem slotOf_graphIndex (hs : s < grid.shardCount) (hc : c < grid.numCl) :
    slotOf grid (grid.graphIndex p s c) = (p, s, c) := by
  have hrow := FlatMem.row_lt hs hc
  have hmod : grid.graphIndex p s c % (grid.shardCount * grid.numCl) = s * grid.numCl + c := by
    unfold GraphGrid.graphIndex
    rw [Nat.add_assoc, Nat.mul_add_mod', Nat.mod_eq_of_lt hrow]
  have hdiv : (s * grid.numCl + c) / grid.numCl = s := by
    rw [Nat.mul_comm, Nat.mul_add_div (by omega), Nat.div_eq_of_lt hc, Nat.add_zero]
  unfold slotOf
  simp only [hmod, hdiv, Nat.mul_add_mod', Nat.mod_eq_of_lt hc, Prod.mk.injEq, and_true]
  unfold GraphGrid.graphIndex
  cases p with
  | prefill => rw [if_pos (by simp only [Phase.index]; omega)]
  | decode => rw [if_neg (by simp only [Phase.index]; omega)]

/-- Every index is that of a slot. -/
theorem exists_slot {i : ℕ} (hi : i < grid.totalGraphs) :
    ∃ p s c, s < grid.shardCount ∧ c < grid.numCl ∧ grid.graphIndex p s c = i := by
  unfold GraphGrid.totalGraphs at hi
  unfold GraphGrid.graphIndex
  have hcl : 0 < grid.numCl := by
    apply Nat.pos_of_ne_zero
    intro h
    simp [h] at hi
  by_cases hlt : i < grid.shardCount * grid.numCl
  · refine ⟨.prefill, i / grid.numCl, i % grid.numCl, Nat.div_lt_of_lt_mul (by linarith),
      Nat.mod_lt _ hcl, ?_⟩
    have hdiv := Nat.div_add_mod' i grid.numCl
    simp only [Phase.index]
    omega
  · refine ⟨.decode, (i - grid.shardCount * grid.numCl) / grid.numCl,
      (i - grid.shardCount * grid.numCl) % grid.numCl, Nat.div_lt_of_lt_mul ?_,
      Nat.mod_lt _ hcl, ?_⟩
    · rw [Nat.mul_comm grid.numCl]
      omega
    · have hdiv := Nat.div_add_mod' (i - grid.shardCount * grid.numCl) grid.numCl
      simp only [Phase.index]
      omega

theorem graphIndex_lt_of_slotKey_lt (hs : s < grid.shardCount) (hc : c < grid.numCl)
    (h : slotKey p s c < slotKey p' s' c') : grid.graphIndex p s c < grid.graphIndex p' s' c' := by
  have hrow := FlatMem.row_lt hs hc
  unfold slotKey at h
  rw [Prod.Lex.toLex_lt_toLex] at h
  unfold GraphGrid.graphIndex
  rcases h with h | ⟨hp, h⟩
  · have hp' : p.index = 0 ∧ p'.index = 1 := by
      cases p <;> cases p' <;> simp_all [Phase.index]
    rw [hp'.1, hp'.2]
    omega
  · rw [Prod.Lex.toLex_lt_toLex] at h
    simp only at hp
    rw [hp]
    rcases h with h | ⟨hss, h⟩
    · have hlt : s < s' := by simpa using h
      have hrow' := FlatMem.row_lt hlt hc
      omega
    · simp only [Nat.cast_inj] at hss
      simp only at h
      rw [hss]
      omega

/-- The slots are in the order of their keys. -/
theorem slotKey_lt_iff (hs : s < grid.shardCount) (hc : c < grid.numCl)
    (hs' : s' < grid.shardCount) (hc' : c' < grid.numCl) :
    slotKey p s c < slotKey p' s' c' ↔ grid.graphIndex p s c < grid.graphIndex p' s' c' := by
  constructor
  · exact graphIndex_lt_of_slotKey_lt hs hc
  · intro h
    rcases lt_trichotomy (slotKey p s c) (slotKey p' s' c') with hlt | heq | hgt
    · exact hlt
    · have hp : p = p' ∧ s = s' ∧ c = c' := by
        unfold slotKey at heq
        simp only [EmbeddingLike.apply_eq_iff_eq, Prod.mk.injEq, Nat.cast_inj] at heq
        refine ⟨?_, heq.2⟩
        cases p <;> cases p' <;> simp_all [Phase.index]
      obtain ⟨rfl, rfl, rfl⟩ := hp
      exact absurd h (lt_irrefl _)
    · exact absurd (graphIndex_lt_of_slotKey_lt hs' hc' hgt) (not_lt.mpr h.le)

end Slots

/-! ## When the slots are right -/

section Right

variable {setup : GraphGrid → List γ → Bool} {graphs : List γ} {m : LoadedGraphs γ}

/-- What holds when `onInitialized` returns true. -/
theorem onInitialized_ok (h : onInitialized name setup graphs = .ok m) :
    m.grid = gridOf (graphs.map (parsedOf name)) ∧
      m.graphs = sortBy (fun g => sortKey m.grid (parsedOf name g)) graphs ∧
      0 < m.grid.shardCount ∧ 0 < m.grid.numCl ∧ m.grid.totalGraphs ≤ m.graphs.length := by
  unfold onInitialized at h
  split at h
  · cases h
  · simp only at h
    split_ifs at h with hnil hzero hsetup hlen
    cases h
    rw [not_or] at hzero
    exact ⟨rfl, rfl, Nat.pos_of_ne_zero hzero.1, Nat.pos_of_ne_zero hzero.2, not_lt.mp hlen⟩

theorem onInitialized_eq {grid : GraphGrid}
    (hnames : ∀ g ∈ graphs, (parseGraphName (name g)).isSome)
    (hgrid : gridOf (graphs.map (parsedOf name)) = grid) (hS : 0 < grid.shardCount)
    (hC : 0 < grid.numCl) (hlen : grid.totalGraphs ≤ graphs.length)
    (hsetup : ∀ sorted, setup grid sorted = true) :
    onInitialized name setup graphs =
      .ok ⟨grid, sortBy (fun g => sortKey grid (parsedOf name g)) graphs⟩ := by
  have hfind : (graphs.find? fun g => (parseGraphName (name g)).isNone) = none := by
    rw [List.find?_eq_none]
    intro g hg
    have := hnames g hg
    simpa using Option.isSome_iff_ne_none.mp this
  have hnil : graphs ≠ [] := by
    rintro rfl
    have := Nat.mul_pos hS hC
    unfold GraphGrid.totalGraphs at hlen
    simp only [List.length_nil] at hlen
    omega
  unfold onInitialized
  rw [hfind]
  simp only [hnil, if_false, hgrid]
  rw [if_neg (by omega), if_neg (by simp [hsetup]),
    if_neg (by rw [(perm_sortBy graphs).length_eq]; omega)]

/-- No slot is for a shard number from `2 ^ 31` on, whose keys sort first. -/
theorem SlotsRight.shard_lt (hcl : m.grid.contextLengths.Nodup)
    (hsort : m.graphs = sortBy (fun g => sortKey m.grid (parsedOf name g)) graphs)
    (h : SlotsRight name m) {s : ℕ} (hs : s < m.grid.shardCount) (hpos : 0 < m.grid.numCl) :
    s + 1 < 2 ^ 31 := by
  by_contra hge
  have hsmall : 2 ^ 31 - 1 < m.grid.shardCount := by omega
  obtain ⟨g, hg, hfit⟩ := h .prefill 0 0 (by omega) hpos
  obtain ⟨g', hg', hfit'⟩ := h .prefill (2 ^ 31 - 1) 0 hsmall hpos
  obtain ⟨hlt, rfl⟩ := List.getElem?_eq_some_iff.mp hg
  obtain ⟨hlt', rfl⟩ := List.getElem?_eq_some_iff.mp hg'
  have hsorted := sorted_sortBy (fun g => sortKey m.grid (parsedOf name g)) graphs
  rw [← hsort, List.pairwise_iff_getElem] at hsorted
  have hle := hsorted _ _ hlt hlt' (by
    unfold GraphGrid.graphIndex
    have := Nat.mul_pos (show 0 < 2 ^ 31 - 1 by norm_num) hpos
    omega)
  rw [hfit.sortKey hcl, hfit'.sortKey hcl, Prod.Lex.toLex_le_toLex] at hle
  simp only [lt_self_iff_false, true_and, false_or, Prod.Lex.toLex_le_toLex] at hle
  revert hle
  decide

theorem GridFull.shard_lt {grid : GraphGrid} (hcl : grid.contextLengths.Nodup)
    (h : GridFull name grid graphs) {s : ℕ} (hs : s < grid.shardCount) (hpos : 0 < grid.numCl) :
    s + 1 < 2 ^ 31 := by
  obtain ⟨g, hg, hfit⟩ := h.one .prefill s 0 hs hpos (by simp [slotKey, Phase.index])
  have hmem : g ∈ sortedUnder name grid graphs (slotKey .prefill s 0) := by rw [hg]; simp
  have hkey : sortKey grid (parsedOf name g) = slotKey .prefill s 0 := by
    simpa using (List.mem_filter.mp hmem).2
  rw [hfit.sortKey hcl, slotKey] at hkey
  simp only [EmbeddingLike.apply_eq_iff_eq, Prod.mk.injEq, and_true] at hkey
  exact bmod_shard.mp hkey.2

/-- With two sequence lengths the slots are right exactly if the grid is full. -/
theorem slotsRight_iff_gridFull (hcl : m.grid.contextLengths.Nodup)
    (hsort : m.graphs = sortBy (fun g => sortKey m.grid (parsedOf name g)) graphs)
    (hS : 0 < m.grid.shardCount) (hC : 0 < m.grid.numCl)
    (hne : m.grid.seqLenDecode ≠ m.grid.seqLenPrefill)
    (hsmall : ∀ s < m.grid.shardCount, s + 1 < 2 ^ 31) :
    SlotsRight name m ↔ GridFull name m.grid graphs := by
  have hlast := graphIndex_last hS hC
  have htotal : 0 < m.grid.totalGraphs := by
    have := Nat.mul_pos hS hC
    unfold GraphGrid.totalGraphs
    omega
  -- the slots by index
  have hplaces := places_sortBy_iff (fun g => sortKey m.grid (parsedOf name g)) graphs
    (n := m.grid.totalGraphs - 1)
    (fun i => slotKey (slotOf m.grid i).1 (slotOf m.grid i).2.1 (slotOf m.grid i).2.2)
    (fun i g => FitsSlot name m.grid (slotOf m.grid i).1 (slotOf m.grid i).2.1
      (slotOf m.grid i).2.2 g)
    (by
      intro i j hij hj
      obtain ⟨p, s, c, hs, hc, rfl⟩ := exists_slot (show i < m.grid.totalGraphs by omega)
      obtain ⟨p', s', c', hs', hc', rfl⟩ := exists_slot (show j < m.grid.totalGraphs by omega)
      simp only [slotOf_graphIndex hs hc, slotOf_graphIndex hs' hc']
      exact (slotKey_lt_iff hs hc hs' hc').mpr hij)
    (by
      intro i hi g hg
      obtain ⟨p, s, c, hs, hc, rfl⟩ := exists_slot (show i < m.grid.totalGraphs by omega)
      simp only [slotOf_graphIndex hs hc] at hg ⊢
      exact hg.sortKey_eq_slotKey hcl hne (hsmall s hs))
  have hfirst : SlotsRight name m ↔ ∀ i ≤ m.grid.totalGraphs - 1, ∃ g,
      (sortBy (fun g => sortKey m.grid (parsedOf name g)) graphs)[i]? = some g ∧
        FitsSlot name m.grid (slotOf m.grid i).1 (slotOf m.grid i).2.1 (slotOf m.grid i).2.2 g := by
    rw [← hsort]
    constructor
    · intro h i hi
      obtain ⟨p, s, c, hs, hc, rfl⟩ := exists_slot (show i < m.grid.totalGraphs by omega)
      rw [slotOf_graphIndex hs hc]
      exact h p s c hs hc
    · intro h p s c hs hc
      have hlt := graphIndex_lt (p := p) hs hc
      have hi := h (m.grid.graphIndex p s c) (by omega)
      rwa [slotOf_graphIndex hs hc] at hi
  have hlastSlot : slotOf m.grid (m.grid.graphIndex .decode (m.grid.shardCount - 1)
      (m.grid.numCl - 1)) = (.decode, m.grid.shardCount - 1, m.grid.numCl - 1) :=
    slotOf_graphIndex (by omega) (by omega)
  rw [hlast] at hlastSlot
  rw [hfirst, hplaces]
  simp only [hlastSlot]
  -- a slot other than the last has a smaller index
  have hbefore : ∀ p s c, s < m.grid.shardCount → c < m.grid.numCl →
      (slotKey p s c ≠ slotKey .decode (m.grid.shardCount - 1) (m.grid.numCl - 1) ↔
        m.grid.graphIndex p s c < m.grid.totalGraphs - 1) := by
    intro p s c hs hc
    rw [← hlast, ← slotKey_lt_iff hs hc (by omega) (by omega)]
    refine ⟨fun h => ?_, ne_of_lt⟩
    apply lt_of_le_of_ne _ h
    apply not_lt.mp
    intro hgt
    rw [slotKey_lt_iff (by omega) (by omega) hs hc, hlast] at hgt
    have hlt := graphIndex_lt (p := p) hs hc
    omega
  constructor
  · rintro ⟨hone, hlast', hinside⟩
    refine ⟨fun p s c hs hc hne' => ?_, hlast', fun g hg hlt => ?_⟩
    · have hi := hone (m.grid.graphIndex p s c) ((hbefore p s c hs hc).mp hne')
      rwa [slotOf_graphIndex hs hc] at hi
    · obtain ⟨i, hi, hkey⟩ := hinside g hg hlt
      obtain ⟨p, s, c, hs, hc, rfl⟩ := exists_slot (show i < m.grid.totalGraphs by omega)
      rw [slotOf_graphIndex hs hc] at hkey
      exact ⟨p, s, c, hs, hc, hkey⟩
  · rintro ⟨hone, hlast', hinside⟩
    refine ⟨fun i hi => ?_, hlast', fun g hg hlt => ?_⟩
    · obtain ⟨p, s, c, hs, hc, rfl⟩ := exists_slot (show i < m.grid.totalGraphs by omega)
      rw [slotOf_graphIndex hs hc]
      exact hone p s c hs hc ((hbefore p s c hs hc).mpr hi)
    · obtain ⟨p, s, c, hs, hc, hkey⟩ := hinside g hg hlt
      refine ⟨m.grid.graphIndex p s c, ?_, ?_⟩
      · rw [hkey] at hlt
        exact (hbefore p s c hs hc).mp hlt.ne
      · rw [slotOf_graphIndex hs hc]
        exact hkey

/-- With one sequence length no graph sorts into a decode slot. -/
theorem not_gridFull {grid : GraphGrid} (heq : grid.seqLenDecode = grid.seqLenPrefill) :
    ¬GridFull name grid graphs := by
  intro h
  obtain ⟨g, hg, hfit⟩ := h.last
  have hkey : sortKey grid (parsedOf name g) =
      slotKey .decode (grid.shardCount - 1) (grid.numCl - 1) := by
    simpa using (List.mem_filter.mp (List.mem_of_mem_head? hg)).2
  have har : (parsedOf name g).ar = grid.seqLenPrefill := hfit.ar.trans heq
  unfold sortKey slotKey at hkey
  rw [if_pos har] at hkey
  simp [Phase.index] at hkey

/-- Every sequence length lies between the decode and the prefill one. -/
theorem ar_between {parsed : List ParsedGraph} {p : ParsedGraph} (hp : p ∈ parsed) :
    (gridOf parsed).seqLenDecode ≤ p.ar ∧ p.ar ≤ (gridOf parsed).seqLenPrefill := by
  have hmem : p.ar ∈ (Std.TreeSet.ofList (parsed.map ParsedGraph.ar)).toList := by
    rw [Std.TreeSet.mem_toList, Std.TreeSet.mem_ofList]
    simpa using ⟨p, hp, rfl⟩
  have hsorted : (Std.TreeSet.ofList (parsed.map ParsedGraph.ar)).toList.Pairwise (· < ·) := by
    apply Std.TreeSet.ordered_toList.imp
    intro a b hab
    exact Nat.compare_eq_lt.mp hab
  simp only [gridOf]
  generalize (Std.TreeSet.ofList (parsed.map ParsedGraph.ar)).toList = l at hmem hsorted
  constructor
  · cases l with
    | nil => cases hmem
    | cons a l =>
      rcases List.mem_cons.mp hmem with h | h
      · exact h.symm.le
      · exact ((List.pairwise_cons.mp hsorted).1 _ h).le
  · rcases List.eq_nil_or_concat l with rfl | ⟨init, a, rfl⟩
    · cases hmem
    · rw [List.concat_eq_append] at hmem hsorted ⊢
      rw [List.getLastD_concat]
      rcases List.mem_append.mp hmem with h | h
      · exact ((List.pairwise_append.mp hsorted).2.2 _ h a (by simp)).le
      · exact (List.mem_singleton.mp h).le

theorem mem_contextLengths {parsed : List ParsedGraph} {p : ParsedGraph} (hp : p ∈ parsed) :
    p.cl ∈ (gridOf parsed).contextLengths := by
  simp only [gridOf]
  rw [Std.TreeSet.mem_toList, Std.TreeSet.mem_ofList]
  simpa using ⟨p, hp, rfl⟩

/-- With one sequence length, both phases have it. -/
theorem GraphGrid.seqLen_one {grid : GraphGrid} (heq : grid.seqLenDecode = grid.seqLenPrefill)
    (p : Phase) : grid.seqLen p = grid.seqLenPrefill := by
  cases p with
  | prefill => rfl
  | decode => exact heq

section OneSeqLen

variable (hcl : m.grid.contextLengths.Nodup)
  (hsort : m.graphs = sortBy (fun g => sortKey m.grid (parsedOf name g)) graphs)
  (hC : 0 < m.grid.numCl) (heq : m.grid.seqLenDecode = m.grid.seqLenPrefill)

include hcl hsort hC heq

/-- With one sequence length a graph sorts as in prefill. -/
theorem SlotsRight.sortKey_one (h : SlotsRight name m) {p : Phase} {s c : ℕ} {g : γ}
    (hs : s < m.grid.shardCount) (hg : FitsSlot name m.grid p s c g) :
    sortKey m.grid (parsedOf name g) = slotKey .prefill s c := by
  have hsmall := h.shard_lt hcl hsort hs hC
  rw [hg.sortKey hcl, GraphGrid.seqLen_one heq, if_pos rfl, bmod_shard.mpr hsmall]
  rfl

/-- With one sequence length the last prefill slot and the first decode slot have keys in order, so
that there is one of each. -/
theorem SlotsRight.one_slot (h : SlotsRight name m) (hS : 0 < m.grid.shardCount) :
    m.grid.shardCount = 1 ∧ m.grid.numCl = 1 := by
  have hsorted := sorted_sortBy (fun g => sortKey m.grid (parsedOf name g)) graphs
  rw [← hsort] at hsorted
  obtain ⟨g, hg, hfit⟩ := h .prefill (m.grid.shardCount - 1) (m.grid.numCl - 1) (by omega)
    (by omega)
  obtain ⟨g', hg', hfit'⟩ := h .decode 0 0 hS hC
  obtain ⟨hlt, rfl⟩ := List.getElem?_eq_some_iff.mp hg
  obtain ⟨hlt', rfl⟩ := List.getElem?_eq_some_iff.mp hg'
  have hrow := FlatMem.row_lt (r := m.grid.shardCount - 1) (k := m.grid.shardCount)
    (i := m.grid.numCl - 1) (w := m.grid.numCl) (by omega) (by omega)
  have hle := List.pairwise_iff_getElem.mp hsorted _ _ hlt hlt' (by
    unfold GraphGrid.graphIndex
    simp only [Phase.index]
    omega)
  rw [h.sortKey_one hcl hsort hC heq (by omega) hfit, h.sortKey_one hcl hsort hC heq hS hfit']
    at hle
  unfold slotKey at hle
  simp only [Prod.Lex.toLex_le_toLex, lt_self_iff_false, true_and, false_or] at hle
  omega

end OneSeqLen

/-- With one sequence length the slots are right exactly if one variant serves both phases. -/
theorem slotsRight_iff_oneVariant (hgrid : m.grid = gridOf (graphs.map (parsedOf name)))
    (hsort : m.graphs = sortBy (fun g => sortKey m.grid (parsedOf name g)) graphs)
    (hS : 0 < m.grid.shardCount) (hC : 0 < m.grid.numCl)
    (heq : m.grid.seqLenDecode = m.grid.seqLenPrefill) :
    SlotsRight name m ↔ OneVariantTwice name m.grid graphs := by
  have hcl : m.grid.contextLengths.Nodup := hgrid ▸ nodup_contextLengths _
  constructor
  · intro h
    have hkey : ∀ {p s c g}, s < m.grid.shardCount → FitsSlot name m.grid p s c g →
        sortKey m.grid (parsedOf name g) = slotKey .prefill s c :=
      fun hs hg => h.sortKey_one hcl hsort hC heq hs hg
    have hsorted := sorted_sortBy (fun g => sortKey m.grid (parsedOf name g)) graphs
    rw [← hsort] at hsorted
    obtain ⟨hone, hone'⟩ := h.one_slot hcl hsort hC heq hS
    obtain ⟨g, hg, hfit⟩ := h .prefill 0 0 hS hC
    obtain ⟨g', hg', hfit'⟩ := h .decode 0 0 hS hC
    have hidx : m.grid.graphIndex .prefill 0 0 = 0 ∧ m.grid.graphIndex .decode 0 0 = 1 := by
      simp [GraphGrid.graphIndex, Phase.index, hone, hone']
    rw [hidx.1] at hg
    rw [hidx.2] at hg'
    obtain ⟨rest, hrest⟩ : ∃ rest, m.graphs = g :: g' :: rest := by
      cases hm : m.graphs with
      | nil => rw [hm] at hg; cases hg
      | cons a l =>
        cases l with
        | nil => rw [hm] at hg'; cases hg'
        | cons b l =>
          rw [hm] at hg hg'
          exact ⟨l, by rw [Option.some.inj hg, Option.some.inj hg']⟩
    have hunder : sortedUnder name m.grid graphs (slotKey .prefill 0 0) =
        g :: g' ::
          rest.filter fun a => sortKey m.grid (parsedOf name a) = slotKey .prefill 0 0 := by
      unfold sortedUnder
      rw [← filter_sortBy, ← hsort, hrest,
        List.filter_cons_of_pos (by simpa using hkey hS hfit),
        List.filter_cons_of_pos (by simpa using hkey hS hfit')]
    refine ⟨heq.symm, hone, hone', fun a ha => ?_, g, g', _, hunder, hfit.shard, hfit'.shard⟩
    rw [← hkey hS hfit]
    have hmem : a ∈ m.graphs := by
      rw [hsort]
      exact (perm_sortBy graphs).mem_iff.mpr ha
    rw [hrest] at hmem hsorted
    rcases List.mem_cons.mp hmem with rfl | hmem
    · exact le_rfl
    · exact (List.pairwise_cons.mp hsorted).1 a hmem
  · rintro ⟨-, hone, hone', hleast, g, g', rest, hunder, hg, hg'⟩ p s c hs hc
    obtain rfl : s = 0 := by omega
    obtain rfl : c = 0 := by omega
    obtain ⟨tail, htail⟩ := filter_prefix_sortBy hleast
    have hunder' := hunder
    unfold sortedUnder at hunder'
    rw [← hsort, hunder'] at htail
    -- all graphs have the one sequence length and the one context length
    have hfits : ∀ a ∈ graphs, (parsedOf name a).shard = 1 → FitsSlot name m.grid p 0 0 a := by
      intro a ha hshard
      have hparsed : parsedOf name a ∈ graphs.map (parsedOf name) := List.mem_map_of_mem ha
      have har := ar_between hparsed
      have hmem := mem_contextLengths hparsed
      rw [← hgrid] at har hmem
      refine ⟨?_, hshard, ?_⟩
      · rw [GraphGrid.seqLen_one heq]
        omega
      · obtain ⟨cl, hlist⟩ := List.length_eq_one_iff.mp hone'
        rw [hlist] at hmem ⊢
        rw [List.mem_singleton.mp hmem]
        rfl
    have hmem : ∀ a ∈ g :: g' :: rest, a ∈ graphs := by
      intro a ha
      rw [← hunder] at ha
      exact List.mem_of_mem_filter ha
    rw [← htail]
    cases p with
    | prefill =>
      exact ⟨g, by simp [GraphGrid.graphIndex, Phase.index], hfits g (hmem g (by simp)) hg⟩
    | decode =>
      exact ⟨g', by simp [GraphGrid.graphIndex, Phase.index, hone, hone'],
        hfits g' (hmem g' (by simp)) hg'⟩

/-- After a successful initialisation every slot holds its graph exactly when the names fill the
grid without a duplicate before the last slot, or all name one variant, loaded at least twice. -/
theorem slotsRight_iff (h : onInitialized name setup graphs = .ok m) :
    SlotsRight name m ↔ GridFull name (gridOf (graphs.map (parsedOf name))) graphs ∨
      OneVariantTwice name (gridOf (graphs.map (parsedOf name))) graphs := by
  obtain ⟨hgrid, hsort, hS, hC, -⟩ := onInitialized_ok h
  rw [← hgrid]
  have hcl : m.grid.contextLengths.Nodup := hgrid ▸ nodup_contextLengths _
  by_cases heq : m.grid.seqLenDecode = m.grid.seqLenPrefill
  · rw [slotsRight_iff_oneVariant hgrid hsort hS hC heq, or_iff_right (not_gridFull heq)]
  · rw [or_iff_left fun hone => heq hone.1.symm]
    constructor
    · intro hright
      exact (slotsRight_iff_gridFull hcl hsort hS hC heq
        fun s hs => hright.shard_lt hcl hsort hs hC).mp hright
    · intro hfull
      exact (slotsRight_iff_gridFull hcl hsort hS hC heq
        fun s hs => hfull.shard_lt hcl hs hC).mpr hfull

end Right

/-- The names of a model with three sequence lengths. -/
def threeLengths : List (List Char) :=
  ["ar16_cl512_1_of_1".toList, "ar1_cl512_1_of_1".toList, "ar128_cl512_1_of_1".toList]

/-- The names of a model with two sequence lengths, out of order. -/
def twoLengths : List (List Char) :=
  ["token_ar1_cl512_1_of_1".toList, "prompt_ar128_cl512_1_of_1".toList]

theorem gridOf_threeLengths :
    gridOf (threeLengths.map (parsedOf id)) = ⟨[512], 128, 1, 1⟩ := by decide +kernel

theorem gridOf_twoLengths :
    gridOf (twoLengths.map (parsedOf id)) = ⟨[512], 128, 1, 1⟩ := by decide +kernel

/-- Initialised from three sequence lengths, the decode slot holds the graph of the middle one. -/
theorem slots_threeLengths : ∃ m, onInitialized id (fun _ _ => true) threeLengths = .ok m ∧
    m.grid.seqLenDecode = 1 ∧
    m.graphs[m.grid.graphIndex .decode 0 0]? = some "ar16_cl512_1_of_1".toList ∧
    ¬SlotsRight id m := by
  have hslot : (sortBy (fun g => sortKey ⟨[512], 128, 1, 1⟩ (parsedOf id g)) threeLengths)[1]? =
      some "ar16_cl512_1_of_1".toList := by decide +kernel
  refine ⟨_, onInitialized_eq (by decide +kernel) gridOf_threeLengths (by decide) (by decide)
    (by decide) (fun _ => rfl), rfl, hslot, fun h => ?_⟩
  obtain ⟨g, hg, hfit⟩ := h .decode 0 0 (by decide) (by decide)
  obtain rfl := Option.some.inj (hslot.symm.trans hg)
  exact absurd hfit.ar (by decide +kernel)

/-- Initialised from a full grid of names, every slot holds its graph. -/
theorem slots_twoLengths : ∃ m, onInitialized id (fun _ _ => true) twoLengths = .ok m ∧
    SlotsRight id m := by
  have h : onInitialized id (fun _ _ => true) twoLengths = .ok ⟨⟨[512], 128, 1, 1⟩,
      sortBy (fun g => sortKey ⟨[512], 128, 1, 1⟩ (parsedOf id g)) twoLengths⟩ :=
    onInitialized_eq (by decide +kernel) gridOf_twoLengths (by decide) (by decide) (by decide)
      (fun _ => rfl)
  refine ⟨_, h, (slotsRight_iff h).mpr (Or.inl ?_)⟩
  rw [gridOf_twoLengths]
  refine ⟨fun p s c hs hc hne => ?_, ⟨"token_ar1_cl512_1_of_1".toList, by decide +kernel, ?_⟩,
    fun g hg hlt => ?_⟩
  · obtain rfl : s = 0 := Nat.lt_one_iff.mp hs
    obtain rfl : c = 0 := Nat.lt_one_iff.mp hc
    cases p with
    | prefill =>
      exact ⟨"prompt_ar128_cl512_1_of_1".toList, by decide +kernel,
        by decide +kernel, by decide +kernel, by decide +kernel⟩
    | decode => exact absurd rfl hne
  · exact ⟨by decide +kernel, by decide +kernel, by decide +kernel⟩
  · refine ⟨.prefill, 0, 0, by decide, by decide, ?_⟩
    revert g
    decide +kernel

end Initialize

end Geniex
