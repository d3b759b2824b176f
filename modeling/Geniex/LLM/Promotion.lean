import Geniex.LLM.Operations

/-!
# Promotion of the context length

* `promoteCL_index`: the index a promotion ends at, by minimality.
* `promotions_selected`: any sequence of promotions from the first context length on ends at the
  one that the largest need so far selects.
-/

namespace Geniex

open FlatMem

variable {τ ρ I : Type} {spec : LLMSpec} {w : World τ ρ I}

/-- The value `promoteCL` returns. -/
def promoteCLResult (spec : LLMSpec) (required capacityReserved : ℕ) (w : World τ ρ I) : Bool :=
  if spec.numCl ≤ 1 then false
  else if promoteTarget spec required capacityReserved w.activeClIdx = w.activeClIdx then false
  else true

/-- A context length that is large enough for `need` columns, or the last one. -/
def selectCL (spec : LLMSpec) (need : ℕ) : ℕ :=
  min (spec.contextLengths.findIdx fun cl => need ≤ cl) (spec.numCl - 1)

/-- A reserved length that no context length falls short of. -/
def Reserves (spec : LLMSpec) (reserved : ℕ) : Prop := ∀ cl ∈ spec.contextLengths, reserved ≤ cl

section Index

variable {required reserved active i : ℕ}

/-- Every index that the loop of `promoteCL` passes is too small. -/
theorem promoteLoop_passes (fuel : ℕ) : ∀ newCl, newCl ≤ i →
    i < promoteLoop spec required reserved fuel newCl → spec.cl i - reserved < required := by
  induction fuel with
  | zero => exact fun newCl h h' => absurd h' (not_lt.mpr h)
  | succ fuel ih =>
    intro newCl h h'
    unfold promoteLoop at h'
    split_ifs at h' with hc
    · rcases Nat.eq_or_lt_of_le h with rfl | hlt
      · exact hc.2
      · exact ih (newCl + 1) hlt h'
    · exact absurd h' (not_lt.mpr h)

theorem promoteTarget_passes (h : active ≤ i)
    (hi : i < promoteTarget spec required reserved active) : spec.cl i - reserved < required :=
  promoteLoop_passes _ _ h hi

/-- With a reserve within the context lengths, a promotion selects the context length for its need,
unless it is past that already. -/
theorem promoteTarget_eq (hres : Reserves spec reserved) (h : active < spec.numCl) :
    promoteTarget spec required reserved active =
      max active (selectCL spec (required + reserved)) := by
  obtain ⟨hle, hlt, hroom⟩ := promoteTarget_spec required reserved h
  set target := promoteTarget spec required reserved active with htarget
  set first := spec.contextLengths.findIdx (fun cl => required + reserved ≤ cl) with hfirst
  have hsel : selectCL spec (required + reserved) = min first (spec.numCl - 1) := rfl
  have hcl : ∀ j < spec.numCl, reserved ≤ spec.cl j := fun j hj => hres _ (spec.cl_mem hj)
  -- below the first large enough context length there is none
  have hbelow : ∀ j < first, j < spec.numCl → spec.cl j < required + reserved := by
    intro j hj hjn
    have := List.not_of_lt_findIdx hj
    unfold LLMSpec.cl
    rw [List.getD_eq_getElem _ _ hjn]
    exact not_le.mp (of_decide_eq_false this)
  have habove : first < spec.numCl → required + reserved ≤ spec.cl first := by
    intro hf
    have := List.findIdx_getElem (w := hf)
    unfold LLMSpec.cl
    rw [List.getD_eq_getElem _ _ hf]
    simpa using this
  apply le_antisymm
  · by_contra hgt
    rw [not_le, max_lt_iff] at hgt
    -- the promotion has passed an index that is large enough
    have hf : first < spec.numCl := by omega
    have hpass : spec.cl (max active first) - reserved < required :=
      promoteTarget_passes (le_max_left _ _) (by omega)
    have hmono := spec.cl_le (le_max_right active first) (by omega)
    have := habove hf
    omega
  · rw [max_le_iff]
    refine ⟨hle, ?_⟩
    by_contra hgt
    rw [not_le] at hgt
    have hsmall := hbelow target (by omega) hlt
    have := hcl target hlt
    omega

end Index

/-! ## Sequences of promotions -/

theorem selectCL_mono {a b : ℕ} (h : a ≤ b) : selectCL spec a ≤ selectCL spec b := by
  refine min_le_min_right _ ?_
  by_contra hlt
  rw [not_le] at hlt
  have hb : (spec.contextLengths.findIdx fun cl => decide (b ≤ cl)) < spec.contextLengths.length :=
    hlt.trans_le List.findIdx_le_length
  have hlarge := List.findIdx_getElem (w := hb)
  have hsmall := List.not_of_lt_findIdx hlt
  exact of_decide_eq_false hsmall (h.trans (of_decide_eq_true hlarge))

theorem selectCL_zero : selectCL spec 0 = 0 := by
  have hzero : (spec.contextLengths.findIdx fun cl => decide (0 ≤ cl)) = 0 := by
    cases h : spec.contextLengths with
    | nil => rfl
    | cons cl cls => simp [List.findIdx_cons]
  unfold selectCL
  rw [hzero, Nat.zero_min]

/-- The arguments of a call of `promoteCL`. -/
structure PromoteCall where
  required : ℕ
  capacityReserved : ℕ
  strideReserved : ℕ

/-- Calls of `promoteCL`, newest first, between which the active context length stays. -/
inductive PromotedBy (spec : LLMSpec) : List PromoteCall → World τ ρ I → World τ ρ I → Prop
  | nil {w w' : World τ ρ I} (hsame : w'.activeClIdx = w.activeClIdx) : PromotedBy spec [] w w'
  | call {w v w' : World τ ρ I} {calls : List PromoteCall} (c : PromoteCall)
      (h : PromotedBy spec calls w v)
      (hsame : w'.activeClIdx =
        (promoteCL spec c.required c.capacityReserved c.strideReserved v).activeClIdx) :
      PromotedBy spec (c :: calls) w w'

/-- The largest need of the calls. -/
def largestNeed (calls : List PromoteCall) : ℕ :=
  (calls.map fun c => c.required + c.capacityReserved).foldr max 0

theorem promoteCL_index (h : w.activeClIdx < spec.numCl) (required capacityReserved
    strideReserved : ℕ) :
    (promoteCL spec required capacityReserved strideReserved w).activeClIdx =
      promoteTarget spec required capacityReserved w.activeClIdx := by
  rw [promoteCL_eq h]

/-- Promotions from the first context length on end at the one for the largest need so far. -/
theorem promotions_selected {w₀ w' : World τ ρ I} {calls : List PromoteCall}
    (h₀ : w₀.activeClIdx = 0) (hres : ∀ c ∈ calls, Reserves spec c.capacityReserved)
    (h : PromotedBy spec calls w₀ w') :
    w'.activeClIdx = selectCL spec (largestNeed calls) := by
  induction h with
  | nil hsame => rw [hsame, h₀, largestNeed, List.map_nil, List.foldr_nil, selectCL_zero]
  | call c h hsame ih =>
    rename_i w v w' calls
    have hv := ih h₀ fun c hc => hres c (List.mem_cons_of_mem _ hc)
    have hlt : v.activeClIdx < spec.numCl := by
      rw [hv]
      have := spec.numCl_pos
      exact lt_of_le_of_lt (min_le_right _ _) (by omega)
    have hmono : Monotone (selectCL spec) := fun a b hab => selectCL_mono hab
    rw [hsame, promoteCL_index hlt, promoteTarget_eq (hres c List.mem_cons_self) hlt, hv,
      ← hmono.map_max, max_comm]
    rfl

/-- **Promotion is minimal, monotone and lossless**, and composes: the active context length is the
one that the largest need so far selects. -/
theorem promoteCL_promotes (spec : LLMSpec) (w : World τ ρ I)
    (required capacityReserved strideReserved : ℕ) (hactive : w.activeClIdx < spec.numCl) :
    let w' := promoteCL spec required capacityReserved strideReserved w
    (w.activeClIdx ≤ w'.activeClIdx ∧ w'.activeClIdx < spec.numCl ∧
      (∀ i, w.activeClIdx ≤ i → i < w'.activeClIdx → spec.cl i - capacityReserved < required) ∧
      (required ≤ spec.cl w'.activeClIdx - capacityReserved ∨
        w'.activeClIdx + 1 = spec.numCl)) ∧
    (promoteCLResult spec required capacityReserved w = true ↔
      w'.activeClIdx ≠ w.activeClIdx) ∧
    (∀ t, spec.hasTensor t = true → ∀ r < spec.rows t,
      ∀ c < min w.nPast (spec.cl w.activeClIdx - strideReserved), ∀ b < spec.tokenSize t,
        w'.kv t (cell (spec.cl w'.activeClIdx - strideReserved) (spec.tokenSize t) r c b) =
          w.kv t (cell (spec.cl w.activeClIdx - strideReserved) (spec.tokenSize t) r c b)) ∧
    ∀ (w₀ v : World τ ρ I) (calls : List PromoteCall), w₀.activeClIdx = 0 →
      (∀ c ∈ calls, Reserves spec c.capacityReserved) → PromotedBy spec calls w₀ v →
        v.activeClIdx = selectCL spec (largestNeed calls) := by
  intro w'
  obtain ⟨hle, hlt, hroom⟩ := promoteTarget_spec required capacityReserved hactive
  have hindex : w'.activeClIdx = _ := promoteCL_index hactive _ _ _
  rw [hindex]
  refine ⟨⟨hle, hlt, fun i hi hi' => promoteTarget_passes hi hi', hroom⟩, ?_, ?_,
    fun w₀ v calls h₀ hres h => promotions_selected h₀ hres h⟩
  · unfold promoteCLResult
    split_ifs with hone hsame
    · -- with one context length there is nowhere to go
      simp only [false_iff, ne_eq, not_not]
      omega
    · simp [hsame]
    · simp [hsame]
  · intro t ht r hr c hc b hb
    have hmono := spec.cl_le hle hlt
    show (promoteCL spec required capacityReserved strideReserved w).kv t _ = _
    rw [promoteCL_eq hactive]
    exact reshapeAll_cell ht hr (by omega) (by omega) (by omega) hb

/-- A promotion of a new instance with context lengths 4 and 8. -/
theorem promoteCL_promotes_tiny :
    (promoteCLResult (tinySpec [4, 8] 2 1) 3 2 (tinyWorld (tinySpec [4, 8] 2 1)) = true ↔
      (promoteCL (tinySpec [4, 8] 2 1) 3 2 2 (tinyWorld (tinySpec [4, 8] 2 1))).activeClIdx ≠
        (tinyWorld (tinySpec [4, 8] 2 1)).activeClIdx) ∧
    (promoteCL (tinySpec [4, 8] 2 1) 3 2 2 (tinyWorld (tinySpec [4, 8] 2 1))).activeClIdx =
      selectCL (tinySpec [4, 8] 2 1) (largestNeed [⟨3, 2, 2⟩]) :=
  have h := promoteCL_promotes (tinySpec [4, 8] 2 1) (tinyWorld (tinySpec [4, 8] 2 1)) 3 2 2
    (by decide)
  ⟨h.2.1, h.2.2.2 _ _ _ rfl (by unfold Reserves; decide +kernel) (.call ⟨3, 2, 2⟩ (.nil rfl) rfl)⟩

end Geniex
