import Mathlib.Data.List.Infix
import Mathlib.Tactic.SplitIfs

/-!
# The model dispatchers

`makeLLMPipeline` and `makeVLMPipeline` choose a factory by the beginning and the end of a
`model_id`, each in a chain of its own. `dispatchRules` is the table at the head of `dispatch.h`.

`dispatchesWell_iff`: for which ids the two chains choose as the table says.
-/

namespace Geniex

/-- The factories that a dispatcher may call. -/
inductive Factory
  | qwen25VL
  | qwen3VL
  | qwen3
  | qwen25
  | falcon3
  | llama32SSD
  | llama3
  | phi35
  deriving DecidableEq, Repr

def startsWith (s first : List Char) : Bool := first.isPrefixOf s

def endsWith (s last : List Char) : Bool := last.isSuffixOf s

/-! ## The chains -/

/-- The factory that `makeLLMPipeline` calls for a `model_id`. -/
def makeLLMPipeline (modelId : List Char) : Option Factory :=
  if modelId = [] then none
  else if endsWith modelId "_ssd".toList then some .llama32SSD
  else if startsWith modelId "qwen3_".toList && !startsWith modelId "qwen3_vl_".toList then
    some .qwen3
  else if startsWith modelId "qwen2_5_".toList then some .qwen25
  else if startsWith modelId "falcon_v3_".toList then some .falcon3
  else if startsWith modelId "llama_v3_".toList then some .llama3
  else if startsWith modelId "phi_3_5_".toList then some .phi35
  else none

/-- The factory that `makeVLMPipeline` calls for a `model_id`. -/
def makeVLMPipeline (modelId : List Char) : Option Factory :=
  if modelId = [] then none
  else if startsWith modelId "qwen2_5_vl_".toList then some .qwen25VL
  else if startsWith modelId "qwen3_vl_".toList then some .qwen3VL
  else none

/-! ## The table -/

/-- A line of the table: `family*ending`. -/
structure DispatchRule where
  family : List Char
  ending : List Char := []
  factory : Factory

/-- The id is `family`, anything, `ending`. -/
def DispatchRule.accepts (rule : DispatchRule) (modelId : List Char) : Bool :=
  startsWith modelId rule.family && endsWith (modelId.drop rule.family.length) rule.ending

/-- "Dispatch rules (in priority order)". -/
def dispatchRules : List DispatchRule :=
  [{ family := "qwen2_5_vl_".toList, factory := .qwen25VL },
    { family := "qwen3_vl_".toList, factory := .qwen3VL },
    { family := "qwen3_".toList, factory := .qwen3 },
    { family := "qwen2_5_".toList, factory := .qwen25 },
    { family := "falcon_v3_".toList, factory := .falcon3 },
    { family := "llama_v3_".toList, ending := "_ssd".toList, factory := .llama32SSD },
    { family := "llama_v3_".toList, factory := .llama3 },
    { family := "phi_3_5_".toList, factory := .phi35 }]

/-- The factory of the first line that accepts the id. -/
def documentedFactory (modelId : List Char) : Option Factory :=
  (dispatchRules.find? (·.accepts modelId)).map (·.factory)

/-- The beginnings of ids that the table and the chains know. -/
def families : List (List Char) :=
  ["qwen2_5_vl_".toList, "qwen3_vl_".toList, "qwen3_".toList, "qwen2_5_".toList,
    "falcon_v3_".toList, "llama_v3_".toList, "phi_3_5_".toList]

/-- How many of the prefixes and suffixes match. -/
def numMatching (modelId : List Char) : ℕ :=
  families.countP (startsWith modelId) + if endsWith modelId "_ssd".toList then 1 else 0

/-- One dispatcher at most selects a factory, the LLM one none for an id of the other, and where
several prefixes or suffixes match, the factory is the one of the table. -/
structure DispatchesWell (modelId : List Char) : Prop where
  disjoint : ¬((makeLLMPipeline modelId).isSome ∧ (makeVLMPipeline modelId).isSome)
  vlm : (makeVLMPipeline modelId).isSome → makeLLMPipeline modelId = none
  priority : 2 ≤ numMatching modelId → ∀ f,
    makeLLMPipeline modelId = some f ∨ makeVLMPipeline modelId = some f ↔
      documentedFactory modelId = some f

/-! ## Families -/

section Families

variable {modelId p q : List Char}

/-- Of two prefixes neither of which begins the other, one at most matches. -/
theorem startsWith_false (hpq : p.isPrefixOf q = false) (hqp : q.isPrefixOf p = false)
    (h : startsWith modelId p = true) : startsWith modelId q = false := by
  by_contra hq
  have hp' : p <+: modelId := List.isPrefixOf_iff_prefix.mp h
  have hq' : q <+: modelId := List.isPrefixOf_iff_prefix.mp ((Bool.not_eq_false _).mp hq)
  rcases List.prefix_or_prefix_of_prefix hp' hq' with hle | hle
  · rw [List.isPrefixOf_iff_prefix.mpr hle] at hpq
    cases hpq
  · rw [List.isPrefixOf_iff_prefix.mpr hle] at hqp
    cases hqp

/-- A longer prefix that matches. -/
theorem startsWith_of (hpq : p.isPrefixOf q = true) (h : startsWith modelId q = true) :
    startsWith modelId p = true :=
  List.isPrefixOf_iff_prefix.mpr
    ((List.isPrefixOf_iff_prefix.mp hpq).trans (List.isPrefixOf_iff_prefix.mp h))

/-- A line without an ending tests the beginning. -/
theorem accepts_family (family : List Char) (factory : Factory) :
    DispatchRule.accepts { family := family, factory := factory } modelId =
      startsWith modelId family := by
  simp [DispatchRule.accepts, endsWith]

/-- The line of the SSD models accepts ids of the family that end in `_ssd`. -/
theorem of_accepts_ssd (h : DispatchRule.accepts
      { family := "llama_v3_".toList, ending := "_ssd".toList, factory := .llama32SSD } modelId) :
    startsWith modelId "llama_v3_".toList = true ∧ endsWith modelId "_ssd".toList = true := by
  obtain ⟨hfamily, hending⟩ := Bool.and_eq_true_iff.mp h
  refine ⟨hfamily, List.isSuffixOf_iff_suffix.mpr ?_⟩
  exact (List.isSuffixOf_iff_suffix.mp hending).trans (List.drop_suffix _ _)

end Families

/-- `llama_v3_*_ssd` -/
def ssdRule : DispatchRule :=
  { family := "llama_v3_".toList, ending := "_ssd".toList, factory := .llama32SSD }

/-- Which families match: none, one of the plain ones, or one of the VL families with the family
that begins its name. -/
theorem families_match (modelId : List Char) : families.map (startsWith modelId) ∈
    [[true, false, false, true, false, false, false],
      [false, true, true, false, false, false, false],
      [false, false, true, false, false, false, false],
      [false, false, false, true, false, false, false],
      [false, false, false, false, true, false, false],
      [false, false, false, false, false, true, false],
      [false, false, false, false, false, false, true],
      [false, false, false, false, false, false, false]] := by
  simp only [families, List.map_cons, List.map_nil]
  have hne {p q : List Char} (hpq : p.isPrefixOf q = false) (hqp : q.isPrefixOf p = false)
      (h : startsWith modelId p = true) := startsWith_false hpq hqp h
  by_cases h25vl : startsWith modelId "qwen2_5_vl_".toList = true
  · rw [h25vl, hne (by decide) (by decide) h25vl (q := "qwen3_vl_".toList),
      hne (by decide) (by decide) h25vl (q := "qwen3_".toList),
      startsWith_of (by decide) h25vl (p := "qwen2_5_".toList),
      hne (by decide) (by decide) h25vl (q := "falcon_v3_".toList),
      hne (by decide) (by decide) h25vl (q := "llama_v3_".toList),
      hne (by decide) (by decide) h25vl (q := "phi_3_5_".toList)]
    decide
  rw [Bool.not_eq_true] at h25vl
  by_cases h3vl : startsWith modelId "qwen3_vl_".toList = true
  · rw [h25vl, h3vl, startsWith_of (by decide) h3vl (p := "qwen3_".toList),
      hne (by decide) (by decide) h3vl (q := "qwen2_5_".toList),
      hne (by decide) (by decide) h3vl (q := "falcon_v3_".toList),
      hne (by decide) (by decide) h3vl (q := "llama_v3_".toList),
      hne (by decide) (by decide) h3vl (q := "phi_3_5_".toList)]
    decide
  rw [Bool.not_eq_true] at h3vl
  rw [h25vl, h3vl]
  by_cases h3 : startsWith modelId "qwen3_".toList = true
  · rw [h3, hne (by decide) (by decide) h3 (q := "qwen2_5_".toList),
      hne (by decide) (by decide) h3 (q := "falcon_v3_".toList),
      hne (by decide) (by decide) h3 (q := "llama_v3_".toList),
      hne (by decide) (by decide) h3 (q := "phi_3_5_".toList)]
    decide
  rw [Bool.not_eq_true] at h3
  by_cases h25 : startsWith modelId "qwen2_5_".toList = true
  · rw [h3, h25, hne (by decide) (by decide) h25 (q := "falcon_v3_".toList),
      hne (by decide) (by decide) h25 (q := "llama_v3_".toList),
      hne (by decide) (by decide) h25 (q := "phi_3_5_".toList)]
    decide
  rw [Bool.not_eq_true] at h25
  by_cases hfalcon : startsWith modelId "falcon_v3_".toList = true
  · rw [h3, h25, hfalcon, hne (by decide) (by decide) hfalcon (q := "llama_v3_".toList),
      hne (by decide) (by decide) hfalcon (q := "phi_3_5_".toList)]
    decide
  rw [Bool.not_eq_true] at hfalcon
  by_cases hllama : startsWith modelId "llama_v3_".toList = true
  · rw [h3, h25, hfalcon, hllama, hne (by decide) (by decide) hllama (q := "phi_3_5_".toList)]
    decide
  rw [Bool.not_eq_true] at hllama
  rw [h3, h25, hfalcon, hllama]
  cases startsWith modelId "phi_3_5_".toList <;> decide

/-- The table as a chain of tests. -/
theorem documentedFactory_eq (modelId : List Char) : documentedFactory modelId =
    if startsWith modelId "qwen2_5_vl_".toList then some .qwen25VL
    else if startsWith modelId "qwen3_vl_".toList then some .qwen3VL
    else if startsWith modelId "qwen3_".toList then some .qwen3
    else if startsWith modelId "qwen2_5_".toList then some .qwen25
    else if startsWith modelId "falcon_v3_".toList then some .falcon3
    else if ssdRule.accepts modelId then some .llama32SSD
    else if startsWith modelId "llama_v3_".toList then some .llama3
    else if startsWith modelId "phi_3_5_".toList then some .phi35
    else none := by
  unfold documentedFactory dispatchRules ssdRule
  simp only [List.find?_cons, List.find?_nil, accepts_family]
  split_ifs <;> simp_all

/-- The empty id fails every test anyway. -/
theorem makeLLMPipeline_eq (modelId : List Char) : makeLLMPipeline modelId =
    if endsWith modelId "_ssd".toList then some .llama32SSD
    else if startsWith modelId "qwen3_".toList && !startsWith modelId "qwen3_vl_".toList then
      some .qwen3
    else if startsWith modelId "qwen2_5_".toList then some .qwen25
    else if startsWith modelId "falcon_v3_".toList then some .falcon3
    else if startsWith modelId "llama_v3_".toList then some .llama3
    else if startsWith modelId "phi_3_5_".toList then some .phi35
    else none := by
  rcases eq_or_ne modelId [] with rfl | hne
  · decide
  · rw [makeLLMPipeline, if_neg hne]

theorem makeVLMPipeline_eq (modelId : List Char) : makeVLMPipeline modelId =
    if startsWith modelId "qwen2_5_vl_".toList then some .qwen25VL
    else if startsWith modelId "qwen3_vl_".toList then some .qwen3VL
    else none := by
  rcases eq_or_ne modelId [] with rfl | hne
  · decide
  · rw [makeVLMPipeline, if_neg hne]

/-! ## Where the chains follow the table -/

/-- The chains choose as the table says exactly for the ids that do not begin with `qwen2_5_vl_`
and, if they end in `_ssd`, belong to no family or have the form `llama_v3_*_ssd`. -/
theorem dispatchesWell_iff (modelId : List Char) : DispatchesWell modelId ↔
    startsWith modelId "qwen2_5_vl_".toList = false ∧
      (endsWith modelId "_ssd".toList = true →
        (∀ family ∈ families, startsWith modelId family = false) ∨
          ssdRule.accepts modelId = true) := by
  have hdef : DispatchesWell modelId ↔
      ¬((makeLLMPipeline modelId).isSome ∧ (makeVLMPipeline modelId).isSome) ∧
      ((makeVLMPipeline modelId).isSome → makeLLMPipeline modelId = none) ∧
      (2 ≤ numMatching modelId → ∀ f,
        makeLLMPipeline modelId = some f ∨ makeVLMPipeline modelId = some f ↔
          documentedFactory modelId = some f) :=
    ⟨fun h => ⟨h.disjoint, h.vlm, h.priority⟩, fun h => ⟨h.1, h.2.1, h.2.2⟩⟩
  have hssd : ssdRule.accepts modelId = true →
      startsWith modelId "llama_v3_".toList = true ∧ endsWith modelId "_ssd".toList = true :=
    of_accepts_ssd
  have hcases := families_match modelId
  rw [hdef, documentedFactory_eq, makeLLMPipeline_eq, makeVLMPipeline_eq, numMatching]
  clear hdef
  simp only [families, List.map_cons, List.map_nil, List.mem_cons, List.cons.injEq, List.not_mem_nil,
    and_true, or_false, List.countP_cons, List.countP_nil] at hcases ⊢
  -- the tests decide both sides: which family matches, the ending, and the line of the SSD models
  cases hend : endsWith modelId "_ssd".toList <;> cases haccepts : ssdRule.accepts modelId <;>
    rcases hcases with h | h | h | h | h | h | h | h <;>
    obtain ⟨h25vl, h3vl, h3, h25, hfalcon, hllama, hphi⟩ := h <;>
    simp_all

/-- The LLM dispatcher takes a Qwen2.5-VL bundle, and so does the VLM one. -/
theorem dispatch_qwen25VL :
    makeLLMPipeline "qwen2_5_vl_7b_instruct".toList = some .qwen25 ∧
      makeVLMPipeline "qwen2_5_vl_7b_instruct".toList = some .qwen25VL ∧
      ¬DispatchesWell "qwen2_5_vl_7b_instruct".toList := by
  refine ⟨by decide, by decide, fun h => h.disjoint ⟨?_, ?_⟩⟩ <;> decide

end Geniex
