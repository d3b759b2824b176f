import Geniex.LLM.XTensorMask

/-!
# Block-diagonal attention masks

`buildBlockAttentionMask` lets every position of an image attend to the positions of its block.
Accesses to vectors are checked here: one outside is an error, which the code does not notice.

`blockMaskRight_iff`: for which boundaries the mask is right.
-/

namespace Geniex

/-- Why no mask is built. `outOfRange` is an access outside a vector. -/
inductive MaskError
  | badBoundaries
  | lengthError
  | outOfRange
  deriving DecidableEq

section Build

variable {α β : Type}

/-- `xs[i] = v` -/
def assignAt (xs : List β) (i : ℤ) (v : β) : Except MaskError (List β) :=
  if 0 ≤ i ∧ i < xs.length then .ok (xs.set i.toNat v) else .error .outOfRange

/-- `for (i = lo; i < hi; ++i) xs[i] = v;` -/
def assignRun (xs : List β) (lo hi : ℤ) (v : β) : Except MaskError (List β) :=
  (List.range (hi - lo).toNat).foldlM (fun xs (k : ℕ) => assignAt xs (lo + k) v) xs

/-- The pairs of consecutive boundaries. -/
def blocks (boundaries : List ℤ) : List (ℤ × ℤ) := boundaries.zip boundaries.tail

/-- The block of every row, by the loop over the blocks. -/
def buildRowBlock (N : ℕ) (boundaries : List ℤ) : Except MaskError (List ℤ) :=
  (blocks boundaries).zipIdx.foldlM
    (fun rowBlock block => assignRun rowBlock block.1.1 block.1.2 (intOfSize block.2))
    (List.replicate N 0)

/-- `boundaries[b]` for an `int`. -/
def boundaryAt (boundaries : List ℤ) (b : ℤ) : Except MaskError ℤ :=
  if 0 ≤ b then
    match boundaries[b.toNat]? with
    | some x => .ok x
    | none => .error .outOfRange
  else .error .outOfRange

/-- One row of the mask. -/
def allowRow (N : ℕ) (boundaries rowBlock : List ℤ) (allowed : α) (mask : List α) (i : ℕ) :
    Except MaskError (List α) := do
  let b := rowBlock.getD i 0
  let lo ← boundaryAt boundaries b
  let hi ← boundaryAt boundaries ((b + 1).bmod (2 ^ 32))
  let row : ℕ := i * N % 2 ^ 64
  assignRun mask (row + lo) (row + hi) allowed

/-- `buildBlockAttentionMask(N, boundaries, allowed, blocked)`. -/
def buildBlockAttentionMask (N : ℕ) (boundaries : List Int64) (allowed blocked : α) :
    Except MaskError (List α) := do
  let bounds := boundaries.map Int64.toInt
  if bounds = [] ∨ bounds.head? ≠ some 0 ∨ bounds.getLast?.map (· % 2 ^ 64) ≠ some (N : ℤ) then
    .error .badBoundaries
  else if vectorMax < N then .error .lengthError
  else
    let rowBlock ← buildRowBlock N bounds
    if vectorMax < N * N % 2 ^ 64 then .error .lengthError
    else
      let mask := List.replicate (N * N % 2 ^ 64) blocked
      (List.range N).foldlM (allowRow N bounds rowBlock allowed) mask

end Build

/-! ## What is asked for -/

/-- The position lies in the block. -/
def Covers (block : ℤ × ℤ) (i : ℕ) : Prop := block.1 ≤ i ∧ i < block.2

instance (block : ℤ × ℤ) (i : ℕ) : Decidable (Covers block i) := by
  unfold Covers; infer_instance

/-- Two positions lie between the same two consecutive boundaries. -/
def SameBlock (boundaries : List ℤ) (i j : ℕ) : Prop :=
  ∃ block ∈ blocks boundaries, Covers block i ∧ Covers block j

instance (boundaries : List ℤ) (i j : ℕ) : Decidable (SameBlock boundaries i j) := by
  unfold SameBlock; infer_instance

/-- The builder throws, or makes every access in range and allows the pairs of one block. -/
def BlockMaskRight (N : ℕ) (boundaries : List Int64) : Prop :=
  ∀ (α : Type) (allowed blocked : α),
    match buildBlockAttentionMask N boundaries allowed blocked with
    | .error e => e ≠ .outOfRange
    | .ok mask => ∀ i < N, ∀ j < N, mask[i * N + j]? =
        some (if SameBlock (boundaries.map Int64.toInt) i j then allowed else blocked)

/-- The block `b` covers the position, and none after it does. -/
def LastCovers (bs : List (ℤ × ℤ)) (i b : ℕ) : Prop :=
  (∃ block, bs[b]? = some block ∧ Covers block i) ∧
    ∀ c block, b < c → bs[c]? = some block → ¬Covers block i

/-- The boundaries lead to a mask, and to the right one: the mask has fewer elements than `size_t`
counts, every block lies in `[0, N)`, and the last block that covers a position contains every other
that covers it. The number of that block passes through an `int`. -/
structure BlocksNest (N : ℕ) (boundaries : List ℤ) : Prop where
  small : N * N < 2 ^ 64
  inside : ∀ block ∈ blocks boundaries, block.1 < block.2 → 0 ≤ block.1 ∧ block.2 ≤ N
  last : ∀ i < N, ∀ b, LastCovers (blocks boundaries) i b →
    0 ≤ intOfSize b ∧ intOfSize b < 2 ^ 31 - 1 ∧
      ∀ block ∈ blocks boundaries, Covers block i →
        ∀ last, (blocks boundaries)[(intOfSize b).toNat]? = some last →
          last.1 ≤ block.1 ∧ block.2 ≤ last.2

/-- The builder throws before any access. -/
def Refused (N : ℕ) (boundaries : List ℤ) : Prop :=
  boundaries = [] ∨ boundaries.head? ≠ some 0 ∨
    boundaries.getLast?.map (· % 2 ^ 64) ≠ some (N : ℤ) ∨ vectorMax < N

/-- The second vector is refused after the accesses to the first. -/
def RefusedLate (N : ℕ) (boundaries : List ℤ) : Prop :=
  vectorMax < N * N % 2 ^ 64 ∧
    ∀ block ∈ blocks boundaries, block.1 < block.2 → 0 ≤ block.1 ∧ block.2 ≤ N

/-! ## Runs of assignments -/

section Runs

variable {α β : Type} {xs : List β} {lo hi : ℤ} {v : β}

theorem assignAt_ok {i : ℤ} (h0 : 0 ≤ i) (hlt : i < xs.length) :
    assignAt xs i v = .ok (xs.set i.toNat v) := if_pos ⟨h0, hlt⟩

theorem assignAt_error {i : ℤ} (h : ¬(0 ≤ i ∧ i < xs.length)) :
    assignAt xs i v = .error .outOfRange := if_neg h

/-- The first `n` assignments of a run that stays inside. -/
theorem assignRun_prefix (xs : List β) (v : β) (h0 : 0 ≤ lo) (n : ℕ) (hn : lo + n ≤ xs.length) :
    ∃ ys, (List.range n).foldlM (fun xs (k : ℕ) => assignAt xs (lo + k) v) xs = .ok ys ∧
      ys.length = xs.length ∧
      ∀ j : ℕ, ys[j]? = if lo ≤ j ∧ j < lo + n then some v else xs[j]? := by
  induction n with
  | zero => exact ⟨xs, rfl, rfl, fun j => by rw [if_neg (by omega)]⟩
  | succ n ih =>
    obtain ⟨ys, hys, hlen, hget⟩ := ih (by omega)
    refine ⟨ys.set (lo + n).toNat v, ?_, by rw [List.length_set, hlen], fun j => ?_⟩
    · rw [List.range_succ, List.foldlM_append, hys]
      show (assignAt ys (lo + n) v >>= fun ys => pure ys) = _
      rw [assignAt_ok (by omega) (by omega)]
      rfl
    · rw [List.getElem?_set, hget]
      by_cases hj : (lo + n).toNat = j
      · rw [if_pos hj, if_pos (by omega), if_pos (by omega)]
      · rw [if_neg hj]
        refine if_congr ?_ rfl rfl
        omega

/-- A run that stays inside leaves its value there, and nothing else. -/
theorem assignRun_ok (xs : List β) (lo hi : ℤ) (v : β)
    (h : lo < hi → 0 ≤ lo ∧ hi ≤ xs.length) :
    ∃ ys, assignRun xs lo hi v = .ok ys ∧ ys.length = xs.length ∧
      ∀ j : ℕ, ys[j]? = if lo ≤ j ∧ j < hi then some v else xs[j]? := by
  by_cases hlt : lo < hi
  · obtain ⟨h0, hhi⟩ := h hlt
    obtain ⟨ys, hys, hlen, hget⟩ := assignRun_prefix xs v h0 (hi - lo).toNat (by omega)
    refine ⟨ys, hys, hlen, fun j => (hget j).trans (if_congr ?_ rfl rfl)⟩
    omega
  · have hzero : (hi - lo).toNat = 0 := by omega
    refine ⟨xs, by rw [assignRun, hzero]; rfl, rfl, fun j => ?_⟩
    rw [if_neg (by omega)]

/-- A run that leaves the vector makes an access outside. -/
theorem assignRun_error (hlt : lo < hi) (h : ¬(0 ≤ lo ∧ hi ≤ xs.length)) :
    assignRun xs lo hi v = .error .outOfRange := by
  have hsteps : ∀ (ns : List ℕ) (xs : List β), (∃ n ∈ ns, ¬(0 ≤ lo + n ∧ lo + n < xs.length)) →
      ns.foldlM (fun xs (k : ℕ) => assignAt xs (lo + k) v) xs = .error .outOfRange := by
    intro ns
    induction ns with
    | nil => rintro xs ⟨n, hn, -⟩; cases hn
    | cons m ns ih =>
      rintro xs ⟨n, hn, hout⟩
      rw [List.foldlM_cons]
      by_cases hm : 0 ≤ lo + m ∧ lo + m < xs.length
      · rw [assignAt_ok hm.1 hm.2]
        refine ih _ ⟨n, (List.mem_cons.mp hn).resolve_left ?_, by rwa [List.length_set]⟩
        rintro rfl
        exact hout hm
      · rw [assignAt_error hm]
        rfl
  refine hsteps _ xs ?_
  by_cases h0 : 0 ≤ lo
  · refine ⟨(hi - lo).toNat - 1, List.mem_range.mpr (by omega), fun hin => h ⟨h0, ?_⟩⟩
    omega
  · exact ⟨0, List.mem_range.mpr (by omega), fun hin => h0 (by omega)⟩

end Runs

/-! ## The loop over the blocks -/

section RowBlock

variable {bs : List (ℤ × ℤ)} {N : ℕ}

/-- Every block that is not empty lies in `[0, N)`. -/
def Inside (N : ℕ) (bs : List (ℤ × ℤ)) : Prop :=
  ∀ block ∈ bs, block.1 < block.2 → 0 ≤ block.1 ∧ block.2 ≤ N

/-- The step of the loop. -/
def assignBlock (rowBlock : List ℤ) (block : (ℤ × ℤ) × ℕ) : Except MaskError (List ℤ) :=
  assignRun rowBlock block.1.1 block.1.2 (intOfSize block.2)

theorem LastCovers.concat {block : ℤ × ℤ} {i b : ℕ} (h : LastCovers (bs ++ [block]) i b) :
    (Covers block i ∧ b = bs.length) ∨ (¬Covers block i ∧ LastCovers bs i b) := by
  obtain ⟨⟨last, hget, hcover⟩, hafter⟩ := h
  have hlt : b < bs.length + 1 := by
    have := (List.getElem?_eq_some_iff.mp hget).1
    simpa using this
  rcases Nat.lt_succ_iff_lt_or_eq.mp hlt with hlt | rfl
  · right
    have hblock : ¬Covers block i := hafter bs.length block hlt (by simp)
    refine ⟨hblock, ⟨last, by rwa [List.getElem?_append_left hlt] at hget, hcover⟩, ?_⟩
    intro c other hc hother
    have hclt : c < bs.length := (List.getElem?_eq_some_iff.mp hother).1
    exact hafter c other hc (by rwa [List.getElem?_append_left hclt])
  · left
    rw [List.getElem?_concat_length] at hget
    exact ⟨Option.some.inj hget ▸ hcover, rfl⟩

/-- With every block inside, each row has the number of the last block that covers it. -/
theorem assignBlocks_ok (bs : List (ℤ × ℤ)) (h : Inside N bs) :
    ∃ rowBlock, bs.zipIdx.foldlM assignBlock (List.replicate N 0) = .ok rowBlock ∧
      rowBlock.length = N ∧
      ∀ i < N, ∀ b, LastCovers bs i b → rowBlock[i]? = some (intOfSize b) := by
  induction bs using List.reverseRecOn with
  | nil =>
    refine ⟨_, rfl, List.length_replicate, ?_⟩
    rintro i - b ⟨⟨block, hget, -⟩, -⟩
    simp at hget
  | append_singleton bs block ih =>
    obtain ⟨rowBlock, hrun, hlen, hlast⟩ := ih fun c hc => h c (List.mem_append_left _ hc)
    obtain ⟨next, hnext, hlen', hget⟩ := assignRun_ok rowBlock block.1 block.2
      (intOfSize bs.length) fun hlt => by
        rw [hlen]
        exact h block (by simp) hlt
    refine ⟨next, ?_, hlen'.trans hlen, fun i hi b hb => ?_⟩
    · rw [List.zipIdx_append, List.foldlM_append, hrun]
      show (assignBlock rowBlock (block, 0 + bs.length) >>= pure) = _
      rw [Nat.zero_add, assignBlock, hnext]
      rfl
    · rw [hget]
      rcases hb.concat with ⟨hcover, rfl⟩ | ⟨hnot, hb⟩
      · exact if_pos hcover
      · exact (if_neg hnot).trans (hlast i hi b hb)

/-- A block that leaves `[0, N)` makes an access outside. -/
theorem assignBlocks_error (bs : List (ℤ × ℤ)) (h : ¬Inside N bs) :
    bs.zipIdx.foldlM assignBlock (List.replicate N 0) = .error .outOfRange := by
  induction bs using List.reverseRecOn with
  | nil => exact absurd (fun block hblock => absurd hblock List.not_mem_nil) h
  | append_singleton bs block ih =>
    rw [List.zipIdx_append, List.foldlM_append]
    by_cases hbs : Inside N bs
    · obtain ⟨rowBlock, hrun, hlen, -⟩ := assignBlocks_ok bs hbs
      have hbad : block.1 < block.2 ∧ ¬(0 ≤ block.1 ∧ block.2 ≤ N) := by
        by_contra hgood
        push Not at hgood
        refine h fun c hc hlt => ?_
        rcases List.mem_append.mp hc with hc | hc
        · exact hbs c hc hlt
        · rw [List.mem_singleton.mp hc] at hlt ⊢
          exact hgood hlt
      rw [hrun]
      show (assignBlock rowBlock (block, 0 + bs.length) >>= pure) = _
      rw [assignBlock, assignRun_error hbad.1 (by rw [hlen]; exact hbad.2)]
      rfl
    · rw [ih hbs]
      rfl

end RowBlock

/-! ## Coverage -/

section Coverage

variable {boundaries : List ℤ} {i : ℕ}

/-- Two consecutive boundaries. -/
theorem getElem?_blocks {b : ℕ} {lo hi : ℤ} : (blocks boundaries)[b]? = some (lo, hi) ↔
    boundaries[b]? = some lo ∧ boundaries[b + 1]? = some hi := by
  unfold blocks
  rw [List.getElem?_zip_eq_some, List.getElem?_tail]

/-- Boundaries that begin at a position or before it and end after it have a block around it. -/
theorem exists_cover (x : ℤ) (xs : List ℤ) (hx : x ≤ i)
    (hlast : (i : ℤ) < (x :: xs).getLast (List.cons_ne_nil _ _)) :
    ∃ block ∈ blocks (x :: xs), Covers block i := by
  induction xs generalizing x with
  | nil => exact absurd hlast (by simpa using hx)
  | cons y ys ih =>
    rcases lt_or_ge (i : ℤ) y with hlt | hge
    · exact ⟨(x, y), List.mem_cons_self, hx, hlt⟩
    · obtain ⟨block, hblock, hcover⟩ := ih y hge (by rwa [List.getLast_cons_cons] at hlast)
      exact ⟨block, List.mem_cons_of_mem _ hblock, hcover⟩

/-- Of the blocks that cover a position there is a last one. -/
theorem exists_lastCovers {bs : List (ℤ × ℤ)} (h : ∃ block ∈ bs, Covers block i) :
    ∃ b, LastCovers bs i b := by
  induction bs using List.reverseRecOn with
  | nil => obtain ⟨block, hblock, -⟩ := h; cases hblock
  | append_singleton bs last ih =>
    by_cases hlast : Covers last i
    · refine ⟨bs.length, ⟨last, by simp, hlast⟩, fun c block hc hget => ?_⟩
      have hlt := (List.getElem?_eq_some_iff.mp hget).1
      rw [List.length_append, List.length_singleton] at hlt
      omega
    · obtain ⟨block, hblock, hcover⟩ := h
      have hmem : block ∈ bs := by
        rcases List.mem_append.mp hblock with hmem | hmem
        · exact hmem
        · exact absurd (List.mem_singleton.mp hmem ▸ hcover) hlast
      obtain ⟨b, ⟨first, hget, hfirst⟩, hafter⟩ := ih ⟨block, hmem, hcover⟩
      have hlt : b < bs.length := (List.getElem?_eq_some_iff.mp hget).1
      refine ⟨b, ⟨first, by rwa [List.getElem?_append_left hlt], hfirst⟩, fun c other hc hother => ?_⟩
      rcases lt_or_ge c bs.length with hclt | hcge
      · exact hafter c other hc (by rwa [List.getElem?_append_left hclt] at hother)
      · rw [List.getElem?_append_right hcge, List.getElem?_singleton] at hother
        split_ifs at hother
        exact Option.some.inj hother ▸ hlast

end Coverage

/-! ## The loop over the rows -/

section Rows

variable {α : Type} {N : ℕ} {boundaries rowBlock : List ℤ} {allowed blocked : α}

/-- The number of a block that an `int` holds, so that the next one is no overflow. -/
def NumberHeld (boundaries : List ℤ) (b : ℤ) : Prop :=
  0 ≤ b ∧ b < 2 ^ 31 - 1 ∧ b.toNat < (blocks boundaries).length

theorem boundaryAt_ok {b : ℤ} {x : ℤ} (h0 : 0 ≤ b) (hget : boundaries[b.toNat]? = some x) :
    boundaryAt boundaries b = .ok x := by
  rw [boundaryAt, if_pos h0, hget]

theorem boundaryAt_cases (boundaries : List ℤ) (b : ℤ) : (∃ x, boundaryAt boundaries b = .ok x) ∨
    boundaryAt boundaries b = .error .outOfRange := by
  unfold boundaryAt
  split_ifs
  · cases boundaries[b.toNat]? with
    | none => exact Or.inr rfl
    | some x => exact Or.inl ⟨x, rfl⟩
  · exact Or.inr rfl

/-- A row whose block has a number that is held. -/
theorem allowRow_held (N : ℕ) (allowed : α) (mask : List α) {i : ℕ}
    (h : NumberHeld boundaries (rowBlock.getD i 0)) :
    ∃ block, (blocks boundaries)[(rowBlock.getD i 0).toNat]? = some block ∧
      allowRow N boundaries rowBlock allowed mask i = assignRun mask
        (((i * N % 2 ^ 64 : ℕ) : ℤ) + block.1) (((i * N % 2 ^ 64 : ℕ) : ℤ) + block.2) allowed := by
  obtain ⟨h0, hmax, hlt⟩ := h
  obtain ⟨⟨lo, hi⟩, hget⟩ : ∃ block, (blocks boundaries)[(rowBlock.getD i 0).toNat]? = some block :=
    ⟨_, List.getElem?_eq_getElem hlt⟩
  obtain ⟨hlo, hhi⟩ := getElem?_blocks.mp hget
  refine ⟨(lo, hi), hget, ?_⟩
  have hnext : (rowBlock.getD i 0 + 1).bmod (2 ^ 32) = rowBlock.getD i 0 + 1 := by
    rw [Int.bmod_def]
    split_ifs <;> omega
  have hsucc : (rowBlock.getD i 0 + 1).toNat = (rowBlock.getD i 0).toNat + 1 := by omega
  unfold allowRow
  dsimp only
  rw [boundaryAt_ok h0 hlo, hnext, boundaryAt_ok (by omega) (by rw [hsucc]; exact hhi)]
  rfl

/-- A number that is not held ends in an access outside. -/
theorem allowRow_error {i : ℕ} {mask : List α} (h0 : rowBlock.getD i 0 < 0 ∨
      2 ^ 31 - 1 ≤ rowBlock.getD i 0 ∧ rowBlock.getD i 0 < 2 ^ 31) :
    allowRow N boundaries rowBlock allowed mask i = .error .outOfRange := by
  unfold allowRow
  dsimp only
  rcases h0 with h0 | h0
  · rw [boundaryAt, if_neg (by omega)]
    rfl
  · have hnext : (rowBlock.getD i 0 + 1).bmod (2 ^ 32) = -2 ^ 31 := by
      rw [Int.bmod_def]
      split_ifs <;> omega
    rw [hnext]
    rcases boundaryAt_cases boundaries (rowBlock.getD i 0) with ⟨x, hx⟩ | hx
    · rw [hx]
      rfl
    · rw [hx]
      rfl

/-- A row keeps the length of the mask, or makes an access outside. -/
theorem allowRow_cases (N : ℕ) (boundaries rowBlock : List ℤ) (allowed : α) (mask : List α) (i : ℕ) :
    (∃ next, allowRow N boundaries rowBlock allowed mask i = .ok next ∧
      next.length = mask.length) ∨
      allowRow N boundaries rowBlock allowed mask i = .error .outOfRange := by
  unfold allowRow
  dsimp only
  rcases boundaryAt_cases boundaries (rowBlock.getD i 0) with ⟨lo, hlo⟩ | hlo
  · rw [hlo]
    rcases boundaryAt_cases boundaries ((rowBlock.getD i 0 + 1).bmod (2 ^ 32)) with
      ⟨hi, hhi⟩ | hhi
    · rw [hhi]
      show (∃ next, assignRun mask _ _ allowed = .ok next ∧ _) ∨ assignRun mask _ _ allowed = _
      by_cases hin : (((i * N % 2 ^ 64 : ℕ) : ℤ) + lo < ((i * N % 2 ^ 64 : ℕ) : ℤ) + hi →
          0 ≤ ((i * N % 2 ^ 64 : ℕ) : ℤ) + lo ∧ ((i * N % 2 ^ 64 : ℕ) : ℤ) + hi ≤ mask.length)
      · obtain ⟨next, hnext, hlen, -⟩ := assignRun_ok mask _ _ allowed hin
        exact Or.inl ⟨next, hnext, hlen⟩
      · rw [Classical.not_imp] at hin
        exact Or.inr (assignRun_error hin.1 hin.2)
    · rw [hhi]
      exact Or.inr rfl
  · rw [hlo]
    exact Or.inr rfl

/-- The first `n` rows. -/
theorem allowRows_cases (N : ℕ) (boundaries rowBlock : List ℤ) (allowed : α) (mask : List α) (n : ℕ) :
    (∃ next, (List.range n).foldlM (allowRow N boundaries rowBlock allowed) mask = .ok next ∧
      next.length = mask.length) ∨
      (List.range n).foldlM (allowRow N boundaries rowBlock allowed) mask = .error .outOfRange := by
  induction n with
  | zero => exact Or.inl ⟨mask, rfl, rfl⟩
  | succ n ih =>
    rw [List.range_succ, List.foldlM_append]
    rcases ih with ⟨next, hrun, hlen⟩ | hrun
    · rw [hrun]
      show (∃ last, (allowRow N boundaries rowBlock allowed next n >>= pure) = .ok last ∧ _) ∨
        (allowRow N boundaries rowBlock allowed next n >>= pure) = _
      rcases allowRow_cases N boundaries rowBlock allowed next n with ⟨last, hrow, hlast⟩ | hrow
      · exact Or.inl ⟨last, by rw [hrow]; rfl, hlast.trans hlen⟩
      · exact Or.inr (by rw [hrow]; rfl)
    · rw [hrun]
      exact Or.inr rfl

/-- One row that makes an access outside is enough. -/
theorem allowRows_error (mask : List α) {n i : ℕ} (hi : i < n)
    (hrow : ∀ mask, allowRow N boundaries rowBlock allowed mask i = .error .outOfRange) :
    (List.range n).foldlM (allowRow N boundaries rowBlock allowed) mask = .error .outOfRange := by
  induction n with
  | zero => exact absurd hi (Nat.not_lt_zero i)
  | succ n ih =>
    rw [List.range_succ, List.foldlM_append]
    rcases Nat.lt_succ_iff_lt_or_eq.mp hi with hlt | rfl
    · rw [ih hlt]
      rfl
    · rcases allowRows_cases N boundaries rowBlock allowed mask i with ⟨next, hrun, -⟩ | hrun
      · rw [hrun]
        show (allowRow N boundaries rowBlock allowed next i >>= pure) = _
        rw [hrow]
        rfl
      · rw [hrun]
        rfl

/-- With every number held and every block inside, row `i` allows the block of its number. -/
theorem allowRows_ok (allowed blocked : α) (hsmall : N * N < 2 ^ 64) (hin : Inside N (blocks boundaries))
    (hheld : ∀ i < N, NumberHeld boundaries (rowBlock.getD i 0)) (n : ℕ) (hn : n ≤ N) :
    ∃ mask, (List.range n).foldlM (allowRow N boundaries rowBlock allowed)
        (List.replicate (N * N) blocked) = .ok mask ∧ mask.length = N * N ∧
      ∀ i < N, ∀ block, (blocks boundaries)[(rowBlock.getD i 0).toNat]? = some block →
        ∀ j < N, mask[i * N + j]? =
          some (if i < n ∧ Covers block j then allowed else blocked) := by
  induction n with
  | zero =>
    refine ⟨_, rfl, List.length_replicate, fun i hi block _ j hj => ?_⟩
    rw [List.getElem?_replicate, if_pos (FlatMem.row_lt hi hj), if_neg (by omega)]
  | succ n ih =>
    obtain ⟨mask, hrun, hlen, hget⟩ := ih (by omega)
    obtain ⟨block, hblock, hrow⟩ := allowRow_held N allowed mask (hheld n (by omega))
    have hbase : n * N % 2 ^ 64 = n * N :=
      Nat.mod_eq_of_lt (lt_of_le_of_lt (Nat.mul_le_mul_right N (by omega)) hsmall)
    rw [hbase] at hrow
    have hrowIn := FlatMem.row_le (w := N) (show n + 1 ≤ N by omega)
    rw [Nat.succ_mul] at hrowIn
    have hmem := hin block (List.mem_of_getElem? hblock)
    obtain ⟨next, hnext, hlen', hget'⟩ := assignRun_ok mask (((n * N : ℕ) : ℤ) + block.1)
      (((n * N : ℕ) : ℤ) + block.2) allowed fun hlt => by
        have := hmem (by omega)
        rw [hlen]
        omega
    refine ⟨next, ?_, hlen'.trans hlen, fun i hi other hother j hj => ?_⟩
    · rw [List.range_succ, List.foldlM_append, hrun]
      show (allowRow N boundaries rowBlock allowed mask n >>= pure) = _
      rw [hrow, hnext]
      rfl
    · rw [hget', hget i hi other hother j hj]
      by_cases hin' : i = n
      · subst hin'
        obtain rfl : block = other := Option.some.inj (hblock.symm.trans hother)
        unfold Covers
        split_ifs <;> first | rfl | omega
      · -- the run lies in row `n`
        have hout := FlatMem.row_apart hin' hj
        rw [if_neg fun h => by have := hmem (by omega); omega]
        refine congrArg some (if_congr ?_ rfl rfl)
        exact and_congr_left fun _ => by omega

end Rows

/-! ## When the mask is right -/

section Right

variable {N : ℕ} {boundaries : List Int64}

/-- The code where nothing is refused. -/
theorem build_eq {α : Type} (allowed blocked : α)
    (h : ¬Refused N (boundaries.map Int64.toInt)) :
    buildBlockAttentionMask N boundaries allowed blocked =
      (blocks (boundaries.map Int64.toInt)).zipIdx.foldlM assignBlock (List.replicate N 0) >>=
        fun rowBlock =>
          if vectorMax < N * N % 2 ^ 64 then .error .lengthError
          else (List.range N).foldlM
            (allowRow N (boundaries.map Int64.toInt) rowBlock allowed)
            (List.replicate (N * N % 2 ^ 64) blocked) := by
  unfold Refused at h
  push Not at h
  obtain ⟨hne, hhead, hlast, hmax⟩ := h
  unfold buildBlockAttentionMask
  rw [if_neg (by simp only [hne, hhead, hlast, ne_eq, not_true, or_self, not_false_iff]),
    if_neg (by omega)]
  rfl

/-- What is refused before any access is thrown. -/
theorem build_refused {α : Type} (allowed blocked : α) (h : Refused N (boundaries.map Int64.toInt)) :
    ∃ e, buildBlockAttentionMask N boundaries allowed blocked = .error e ∧ e ≠ .outOfRange := by
  unfold buildBlockAttentionMask
  by_cases hbad : boundaries.map Int64.toInt = [] ∨ (boundaries.map Int64.toInt).head? ≠ some 0 ∨
      (boundaries.map Int64.toInt).getLast?.map (· % 2 ^ 64) ≠ some (N : ℤ)
  · exact ⟨.badBoundaries, if_pos hbad, by decide⟩
  · have hmax : vectorMax < N := by
      unfold Refused at h
      tauto
    refine ⟨.lengthError, ?_, by decide⟩
    rw [if_neg hbad, if_pos hmax]

/-- Boundaries that are not refused end at `N`, so that a block covers every position. -/
theorem covered (h : ¬Refused N (boundaries.map Int64.toInt)) {i : ℕ} (hi : i < N) :
    ∃ b, LastCovers (blocks (boundaries.map Int64.toInt)) i b := by
  unfold Refused at h
  push Not at h
  obtain ⟨hne, hhead, hlast, hmax⟩ := h
  apply exists_lastCovers
  cases boundaries with
  | nil => exact absurd rfl hne
  | cons x xs =>
    rw [List.map_cons] at hhead hlast hne ⊢
    rw [List.head?_cons] at hhead
    refine exists_cover _ _ (by rw [Option.some.inj hhead]; omega) ?_
    rw [List.getLast?_eq_some_getLast hne, Option.map_some] at hlast
    have hmod := Option.some.inj hlast
    have hmem : (x.toInt :: xs.map Int64.toInt).getLast hne ∈ (x :: xs).map Int64.toInt :=
      List.getLast_mem hne
    obtain ⟨y, -, hy⟩ := List.mem_map.mp hmem
    rw [← hy] at hmod ⊢
    have hlow := y.le_toInt
    have hhigh := y.toInt_lt
    unfold vectorMax at hmax
    omega

/-- The number of a block is held by an `int` or not, but is never past the blocks. -/
theorem numberHeld_iff {bs : List ℤ} {i b : ℕ} (h : LastCovers (blocks bs) i b) :
    NumberHeld bs (intOfSize b) ↔ 0 ≤ intOfSize b ∧ intOfSize b < 2 ^ 31 - 1 := by
  obtain ⟨⟨block, hget, -⟩, -⟩ := h
  have hlt := (List.getElem?_eq_some_iff.mp hget).1
  have hle : intOfSize b ≤ b := by
    unfold intOfSize
    rw [Int.bmod_def]
    split_ifs <;> omega
  exact ⟨fun h => ⟨h.1, h.2.1⟩, fun h => ⟨h.1, h.2, by omega⟩⟩

/-- The numbers in `rowBlock`, for blocks that all lie inside. -/
theorem rowBlock_held {rowBlock bs : List ℤ}
    (hnest : ∀ i < N, ∀ b, LastCovers (blocks bs) i b → 0 ≤ intOfSize b ∧ intOfSize b < 2 ^ 31 - 1)
    (hcovered : ∀ i < N, ∃ b, LastCovers (blocks bs) i b)
    (hlast : ∀ i < N, ∀ b, LastCovers (blocks bs) i b → rowBlock[i]? = some (intOfSize b)) :
    ∀ i < N, NumberHeld bs (rowBlock.getD i 0) := by
  intro i hi
  obtain ⟨b, hb⟩ := hcovered i hi
  rw [List.getD_eq_getElem?_getD, hlast i hi b hb, Option.getD_some]
  exact (numberHeld_iff hb).mpr (hnest i hi b hb)

/-- A mask from nesting blocks allows the pairs of one block. -/
theorem sameBlock_iff {bs : List ℤ} {i j b : ℕ} {last : ℤ × ℤ} (hb : LastCovers (blocks bs) i b)
    (hget : (blocks bs)[(intOfSize b).toNat]? = some last)
    (hnest : ∀ block ∈ blocks bs, Covers block i → last.1 ≤ block.1 ∧ block.2 ≤ last.2) :
    SameBlock bs i j ↔ Covers last j := by
  have hself : Covers last i := by
    obtain ⟨⟨block, hblock, hcover⟩, -⟩ := hb
    have := hnest block (List.mem_of_getElem? hblock) hcover
    exact ⟨this.1.trans hcover.1, lt_of_lt_of_le hcover.2 this.2⟩
  constructor
  · rintro ⟨block, hmem, hi, hj⟩
    have := hnest block hmem hi
    exact ⟨this.1.trans hj.1, lt_of_lt_of_le hj.2 this.2⟩
  · exact fun hj => ⟨last, List.mem_of_getElem? hget, hself, hj⟩

theorem BlocksNest.right (hrefused : ¬Refused N (boundaries.map Int64.toInt))
    (h : BlocksNest N (boundaries.map Int64.toInt)) : BlockMaskRight N boundaries := by
  intro α allowed blocked
  obtain ⟨rowBlock, hrun, hlen, hlast⟩ := assignBlocks_ok _ h.inside
  have hcovered := fun i (hi : i < N) => covered hrefused hi
  have hheld := rowBlock_held (fun i hi b hb => ⟨(h.last i hi b hb).1, (h.last i hi b hb).2.1⟩)
    hcovered hlast
  rw [build_eq allowed blocked hrefused, hrun]
  dsimp only [bind, Except.bind]
  rw [Nat.mod_eq_of_lt h.small]
  by_cases hmax : vectorMax < N * N
  · rw [if_pos hmax]
    exact MaskError.noConfusion
  rw [if_neg hmax]
  obtain ⟨mask, hmask, -, hget⟩ := allowRows_ok allowed blocked h.small h.inside hheld N
    le_rfl
  rw [hmask]
  intro i hi j hj
  obtain ⟨b, hb⟩ := hcovered i hi
  have hnumber : rowBlock.getD i 0 = intOfSize b := by
    rw [List.getD_eq_getElem?_getD, hlast i hi b hb, Option.getD_some]
  obtain ⟨block, hblock⟩ : ∃ block,
      (blocks (boundaries.map Int64.toInt))[(intOfSize b).toNat]? = some block :=
    ⟨_, List.getElem?_eq_getElem ((hnumber ▸ hheld i hi).2.2)⟩
  rw [hget i hi block (by rwa [hnumber]) j hj]
  refine congrArg some (if_congr ?_ rfl rfl)
  rw [sameBlock_iff hb hblock fun other hmem hcover => (h.last i hi b hb).2.2 other hmem hcover _ hblock]
  exact and_iff_right hi

/-- The number of a block that is no `int` below the greatest one. -/
theorem intOfSize_lt (b : ℕ) : intOfSize b < 2 ^ 31 := by
  unfold intOfSize
  rw [Int.bmod_def]
  split_ifs <;> omega

theorem BlocksNest.of_right (hrefused : ¬Refused N (boundaries.map Int64.toInt))
    (hlate : ¬RefusedLate N (boundaries.map Int64.toInt)) (h : BlockMaskRight N boundaries) :
    BlocksNest N (boundaries.map Int64.toInt) := by
  have hin : Inside N (blocks (boundaries.map Int64.toInt)) := by
    by_contra hout
    have hright := h Bool true false
    rw [build_eq _ _ hrefused, assignBlocks_error _ hout] at hright
    exact hright rfl
  have hmax : ¬vectorMax < N * N % 2 ^ 64 := fun hmax => hlate ⟨hmax, hin⟩
  obtain ⟨rowBlock, hrun, hlen, hlast⟩ := assignBlocks_ok _ hin
  have hcovered := fun i (hi : i < N) => covered hrefused hi
  have hright := h Bool true false
  rw [build_eq _ _ hrefused, hrun] at hright
  dsimp only [bind, Except.bind] at hright
  rw [if_neg hmax] at hright
  have hnumber : ∀ i < N, ∀ b, LastCovers (blocks (boundaries.map Int64.toInt)) i b →
      rowBlock.getD i 0 = intOfSize b := fun i hi b hb => by
    rw [List.getD_eq_getElem?_getD, hlast i hi b hb, Option.getD_some]
  have hsmall : N * N < 2 ^ 64 := by
    by_contra hlarge
    -- the last entry of the diagonal is not there
    have hN : 0 < N := Nat.pos_of_ne_zero fun h0 => by rw [h0] at hlarge; omega
    rcases allowRows_cases N (boundaries.map Int64.toInt) rowBlock true
      (List.replicate (N * N % 2 ^ 64) false) N with
      ⟨mask, hmask, hmaskLen⟩ | hmask
    · rw [hmask] at hright
      have hentry := hright (N - 1) (by omega) (N - 1) (by omega)
      have hlt := (List.getElem?_eq_some_iff.mp hentry).1
      rw [hmaskLen, List.length_replicate] at hlt
      have hmul : (N - 1) * N + (N - 1) + 1 = N * N := by
        obtain ⟨k, rfl⟩ : ∃ k, N = k + 1 := ⟨N - 1, by omega⟩
        rw [Nat.add_sub_cancel]
        ring
      have hmod := Nat.mod_lt (N * N) (show 0 < 2 ^ 64 by decide)
      omega
    · rw [hmask] at hright
      exact hright rfl
  have hint : ∀ i < N, ∀ b, LastCovers (blocks (boundaries.map Int64.toInt)) i b →
      0 ≤ intOfSize b ∧ intOfSize b < 2 ^ 31 - 1 := by
    intro i hi b hb
    by_contra hbad
    have hlt := intOfSize_lt b
    rw [allowRows_error _ hi fun mask => allowRow_error (by rw [hnumber i hi b hb]; omega)] at hright
    exact hright rfl
  have hheld := rowBlock_held hint hcovered hlast
  obtain ⟨mask, hmask, -, hget⟩ := allowRows_ok true false hsmall hin hheld N le_rfl
  rw [Nat.mod_eq_of_lt hsmall, hmask] at hright
  refine ⟨hsmall, hin, fun i hi b hb => ⟨(hint i hi b hb).1, (hint i hi b hb).2, ?_⟩⟩
  intro block hmem hcover last hblock
  have hentry : ∀ j < N, SameBlock (boundaries.map Int64.toInt) i j → Covers last j := by
    intro j hj hsame
    have heq := (hright i hi j hj).symm.trans (hget i hi last (by rwa [hnumber i hi b hb]) j hj)
    rw [if_pos hsame] at heq
    by_contra hnot
    rw [if_neg fun hcov => hnot hcov.2] at heq
    cases heq
  have hbounds := hin block hmem (lt_of_le_of_lt hcover.1 hcover.2)
  have hcover' := hcover
  obtain ⟨hlo, hhi⟩ := hcover'
  have hfirst := hentry block.1.toNat (by omega) ⟨block, hmem, hcover, by unfold Covers; omega⟩
  have hend := hentry (block.2 - 1).toNat (by omega) ⟨block, hmem, hcover, by unfold Covers; omega⟩
  obtain ⟨hfirst, -⟩ := hfirst
  obtain ⟨-, hend⟩ := hend
  omega

/-- The builder throws, or is right, exactly if the boundaries are refused or nest. -/
theorem blockMaskRight_iff (N : ℕ) (boundaries : List Int64) : BlockMaskRight N boundaries ↔
    Refused N (boundaries.map Int64.toInt) ∨ RefusedLate N (boundaries.map Int64.toInt) ∨
      BlocksNest N (boundaries.map Int64.toInt) := by
  by_cases hrefused : Refused N (boundaries.map Int64.toInt)
  · refine iff_of_true (fun α allowed blocked => ?_) (Or.inl hrefused)
    obtain ⟨e, he, hne⟩ := build_refused allowed blocked hrefused
    rw [he]
    exact hne
  rw [or_iff_right hrefused]
  constructor
  · exact fun h => or_iff_not_imp_left.mpr fun hlate => BlocksNest.of_right hrefused hlate h
  · rintro (⟨hmax, hin⟩ | hnest)
    · intro α allowed blocked
      obtain ⟨rowBlock, hrun, -, -⟩ := assignBlocks_ok _ hin
      rw [build_eq allowed blocked hrefused, hrun]
      dsimp only [bind, Except.bind]
      rw [if_pos hmax]
      exact MaskError.noConfusion
    · exact hnest.right hrefused

/-- Boundaries that go past the end and come back write behind the vector. -/
theorem blockMask_past_end : ¬BlockMaskRight 3 [0, 5, 3] ∧
    buildBlockAttentionMask 3 [0, 5, 3] true false = .error .outOfRange := by
  have herror : buildBlockAttentionMask 3 [0, 5, 3] true false = .error .outOfRange := by
    decide +kernel
  refine ⟨fun h => ?_, herror⟩
  have hright := h Bool true false
  rw [herror] at hright
  exact hright rfl

end Right

end Geniex
