import Mathlib.Data.Finset.Card
import Mathlib.Data.Finset.Dedup
import Mathlib.Data.List.Nodup
import Mathlib.Tactic

/-!
# Discovery of the KV tensors

`LLMModel::discoverKVPairs` reads the layer numbers off the names of the key outputs of a graph and
rebuilds all four names of a layer from its number. A `std::string` is the list of its characters;
`unsigned long` has 64 bits.
-/

namespace Geniex

/-! ## Patterns -/

/-- What stands before and after the first placeholder. -/
def findPlaceholder : List Char → Option (List Char × List Char)
  | '\x7b' :: '\x7d' :: rest => some ([], rest)
  | c :: rest => (findPlaceholder rest).map fun s => (c :: s.1, s.2)
  | [] => none

/-- What `patternToRegex` compiles a pattern to: literal text around one run of digits. -/
inductive NameRegex
  | literal (text : List Char)
  | number (before after : List Char)

/-- `patternToRegex` -/
def patternToRegex (pattern : List Char) : NameRegex :=
  match findPlaceholder pattern with
  | none => .literal pattern
  | some (before, after) => .number before after

/-- `std::regex_match`, with the text of the first group; a pattern without a group gives an empty
one. The text is what the literal parts leave of the name. -/
def regexMatch : NameRegex → List Char → Option (List Char)
  | .literal text, name => if name = text then some [] else none
  | .number before after, name =>
    let digits := (name.drop before.length).take (name.length - before.length - after.length)
    if name = before ++ digits ++ after ∧ digits ≠ [] ∧ digits.all Char.isDigit then some digits
    else none

/-- `LLMModel::fmtPattern` -/
def fmtPattern (pattern : List Char) (layer : ℕ) : List Char :=
  match findPlaceholder pattern with
  | none => pattern
  | some (before, after) => before ++ Nat.toDigits 10 layer ++ after

/-! ## Discovery -/

/-- The names of the tensors of a graph. -/
structure GraphNames where
  name : List Char
  inputs : List (List Char)
  outputs : List (List Char)

/-- The four patterns of a `StateBlockSpec`. -/
structure StateBlockSpec where
  keyInPattern : List Char := "past_key_\x7b\x7d_in".toList
  valueInPattern : List Char := "past_value_\x7b\x7d_in".toList
  keyOutPattern : List Char := "past_key_\x7b\x7d_out".toList
  valueOutPattern : List Char := "past_value_\x7b\x7d_out".toList

/-- `KVTensorPair`, by the names of its tensors. -/
structure KVPairNames where
  keyIn : List Char
  keyOut : List Char
  valueIn : List Char
  valueOut : List Char
  deriving DecidableEq

/-- What `discoverKVPairs` throws: what `std::stoul` does, or that a tensor is missing. -/
inductive DiscoveryError
  | invalidArgument
  | outOfRange
  | missing (message : List Char)
  deriving DecidableEq

/-- `std::stoul` of a run of digits. -/
def stoul (digits : List Char) : Except DiscoveryError ℕ :=
  if digits = [] then .error .invalidArgument
  else if Nat.ofDigitChars 10 digits 0 < 2 ^ 64 then .ok (Nat.ofDigitChars 10 digits 0)
  else .error .outOfRange

/-- The four names of a layer. -/
def kvPair (block : StateBlockSpec) (layer : ℕ) : KVPairNames where
  keyIn := fmtPattern block.keyInPattern layer
  keyOut := fmtPattern block.keyOutPattern layer
  valueIn := fmtPattern block.valueInPattern layer
  valueOut := fmtPattern block.valueOutPattern layer

/-- `hasInput(key_in) && hasInput(value_in) && hasOutput(value_out)` -/
def GraphNames.hasPartners (g : GraphNames) (p : KVPairNames) : Bool :=
  g.inputs.contains p.keyIn && g.inputs.contains p.valueIn && g.outputs.contains p.valueOut

/-- The body of the loop of `discoverKVPairs` over the outputs. -/
def discoverStep (g : GraphNames) (block : StateBlockSpec) (pairs : List KVPairNames)
    (t : List Char) : Except DiscoveryError (List KVPairNames) :=
  match regexMatch (patternToRegex block.keyOutPattern) t with
  | none => .ok pairs
  | some digits =>
    match stoul digits with
    | .error e => .error e
    | .ok layer =>
      if g.hasPartners (kvPair block layer) then .ok (pairs ++ [kvPair block layer])
      else .error (.missing ("inferSpecFromGraphs: graph '".toList ++ g.name ++
        "' has key_out '".toList ++ (kvPair block layer).keyOut ++
        "' but is missing a matching in/value KV tensor".toList))

/-- `LLMModel::discoverKVPairs` -/
def discoverKVPairs (g : GraphNames) (block : StateBlockSpec) :
    Except DiscoveryError (List KVPairNames) :=
  g.outputs.foldlM (discoverStep g block) []

/-! ## What a pattern reads off a name -/

/-- The digits that a pattern reads off a name. -/
def reads (pattern name : List Char) : Option (List Char) :=
  regexMatch (patternToRegex pattern) name

/-- The number that a run of digits stands for. -/
def number (digits : List Char) : ℕ := Nat.ofDigitChars 10 digits 0

/-- Digits as `std::to_string` writes them: without leading zeros. -/
def Canonical (digits : List Char) : Prop := Nat.toDigits 10 (number digits) = digits

instance (digits : List Char) : Decidable (Canonical digits) := inferInstanceAs (Decidable (_ = _))

@[simp] theorem number_toDigits (n : ℕ) : number (Nat.toDigits 10 n) = n :=
  Nat.ofDigitChars_ten_toDigits

theorem canonical_toDigits (n : ℕ) : Canonical (Nat.toDigits 10 n) := by
  unfold Canonical
  rw [number_toDigits]

theorem Canonical.ext {d d' : List Char} (h : Canonical d) (h' : Canonical d')
    (hn : number d = number d') : d = d' := by
  rw [← h, ← h', hn]

/-- A match says how the name is put together. -/
theorem regexMatch_number_iff (before after name d : List Char) :
    regexMatch (.number before after) name = some d ↔
      name = before ++ d ++ after ∧ d ≠ [] ∧ d.all Char.isDigit := by
  unfold regexMatch
  constructor
  · intro h
    simp only [Option.ite_none_right_eq_some, Option.some.injEq] at h
    obtain ⟨h, rfl⟩ := h
    exact h
  · rintro ⟨rfl, hne, hall⟩
    have hmid : ((before ++ d ++ after).drop before.length).take
        ((before ++ d ++ after).length - before.length - after.length) = d := by
      rw [List.append_assoc, List.drop_left, List.length_append, List.length_append,
        Nat.add_sub_cancel_left, Nat.add_sub_cancel, List.take_left]
    simp only [hmid]
    rw [if_pos ⟨trivial, hne, hall⟩]

section Placeholder

variable {pattern : List Char} (h : (findPlaceholder pattern).isSome)

include h

/-- The name of a layer reads back as its number. -/
theorem reads_fmtPattern (n : ℕ) : reads pattern (fmtPattern pattern n) =
    some (Nat.toDigits 10 n) := by
  obtain ⟨⟨before, after⟩, hp⟩ := Option.isSome_iff_exists.mp h
  unfold reads fmtPattern patternToRegex
  simp only [hp]
  rw [regexMatch_number_iff]
  refine ⟨rfl, Nat.toDigits_ne_nil, ?_⟩
  rw [List.all_eq_true]
  intro c hc
  exact Nat.isDigit_of_mem_toDigits (by decide) (by decide) hc

/-- A name is rebuilt from the number it reads as exactly if that is written without leading
zeros. -/
theorem fmtPattern_number_iff {name d : List Char} (hd : reads pattern name = some d) :
    fmtPattern pattern (number d) = name ↔ Canonical d := by
  obtain ⟨⟨before, after⟩, hp⟩ := Option.isSome_iff_exists.mp h
  unfold reads patternToRegex at hd
  unfold fmtPattern
  simp only [hp] at hd ⊢
  obtain ⟨rfl, -, -⟩ := (regexMatch_number_iff _ _ _ _).mp hd
  rw [List.append_left_inj, List.append_right_inj]
  rfl

theorem fmtPattern_injective : Function.Injective (fmtPattern pattern) := by
  intro n n' hn
  have hr := (reads_fmtPattern h n).symm.trans ((congrArg _ hn).trans (reads_fmtPattern h n'))
  rw [← number_toDigits n, Option.some.inj hr, number_toDigits]

end Placeholder

/-! ## What discovery returns -/

/-- The digits read off the key outputs, in the order of the outputs. -/
def keyDigits (block : StateBlockSpec) (outputs : List (List Char)) : List (List Char) :=
  outputs.filterMap (reads block.keyOutPattern)

/-- A key output is accepted: its number fits and the other three tensors of its layer exist. -/
def Resolves (g : GraphNames) (block : StateBlockSpec) (digits : List Char) : Prop :=
  digits ≠ [] ∧ number digits < 2 ^ 64 ∧ g.hasPartners (kvPair block (number digits))

theorem mem_keyDigits {block : StateBlockSpec} {outputs : List (List Char)} {d : List Char} :
    d ∈ keyDigits block outputs ↔ ∃ t ∈ outputs, reads block.keyOutPattern t = some d :=
  List.mem_filterMap

theorem discoverStep_none {g : GraphNames} {block : StateBlockSpec} {t : List Char}
    (h : reads block.keyOutPattern t = none) (pairs : List KVPairNames) :
    discoverStep g block pairs t = .ok pairs := by
  unfold reads at h
  unfold discoverStep
  rw [h]

/-- One key output adds the pair of its layer, or ends the discovery. -/
theorem discoverStep_some {g : GraphNames} {block : StateBlockSpec} {t d : List Char}
    (h : reads block.keyOutPattern t = some d) (pairs : List KVPairNames) :
    (Resolves g block d ∧
      discoverStep g block pairs t = .ok (pairs ++ [kvPair block (number d)])) ∨
    (¬ Resolves g block d ∧ ∃ e, discoverStep g block pairs t = .error e) := by
  unfold reads at h
  unfold discoverStep Resolves stoul
  rw [h]
  dsimp only
  by_cases hne : d = []
  · right
    exact ⟨fun hr => hr.1 hne, _, by rw [if_pos hne]⟩
  by_cases hlt : Nat.ofDigitChars 10 d 0 < 2 ^ 64
  swap
  · right
    exact ⟨fun hr => hlt hr.2.1, _, by rw [if_neg hne, if_neg hlt]⟩
  by_cases hp : g.hasPartners (kvPair block (number d))
  · left
    refine ⟨⟨hne, hlt, hp⟩, ?_⟩
    rw [if_neg hne, if_pos hlt]
    exact if_pos hp
  · right
    refine ⟨fun hr => hp hr.2.2, ?_⟩
    rw [if_neg hne, if_pos hlt]
    exact ⟨_, if_neg hp⟩

/-- A run over the outputs succeeds if every key output is accepted, with one pair each. -/
theorem foldlM_discover (g : GraphNames) (block : StateBlockSpec) (outputs : List (List Char))
    (pairs : List KVPairNames) :
    ((∀ d ∈ keyDigits block outputs, Resolves g block d) ∧
      outputs.foldlM (discoverStep g block) pairs =
        .ok (pairs ++ (keyDigits block outputs).map fun d => kvPair block (number d))) ∨
    ((∃ d ∈ keyDigits block outputs, ¬ Resolves g block d) ∧
      ∃ e, outputs.foldlM (discoverStep g block) pairs = .error e) := by
  induction outputs generalizing pairs with
  | nil =>
    left
    refine ⟨fun d hd => absurd hd List.not_mem_nil, ?_⟩
    rw [show keyDigits block [] = [] from rfl, List.map_nil, List.append_nil]
    rfl
  | cons t outputs ih =>
    rw [List.foldlM_cons]
    cases ht : reads block.keyOutPattern t with
    | none =>
      rw [discoverStep_none ht, show keyDigits block (t :: outputs) = keyDigits block outputs from
        List.filterMap_cons_none ht]
      exact ih pairs
    | some d =>
      rw [show keyDigits block (t :: outputs) = d :: keyDigits block outputs from
        List.filterMap_cons_some ht]
      obtain ⟨hres, hstep⟩ | ⟨hres, e, hstep⟩ := discoverStep_some (g := g) ht pairs
      · rw [hstep]
        obtain ⟨hall, hrun⟩ | ⟨⟨d', hd', hbad⟩, e, hrun⟩ :=
          ih (pairs ++ [kvPair block (number d)])
        · left
          refine ⟨List.forall_mem_cons.mpr ⟨hres, hall⟩, ?_⟩
          rw [List.map_cons]
          conv_rhs => rw [List.append_cons]
          exact hrun
        · right
          exact ⟨⟨d', List.mem_cons_of_mem _ hd', hbad⟩, e, hrun⟩
      · right
        refine ⟨⟨d, List.mem_cons_self, hres⟩, e, ?_⟩
        rw [hstep]
        rfl

/-- Some key output is not accepted. -/
def KVRejected (g : GraphNames) (block : StateBlockSpec) : Prop :=
  ∃ d ∈ keyDigits block g.outputs, ¬ Resolves g block d

/-- Discovery throws exactly if some key output is not accepted, and returns one pair for each key
output otherwise. -/
theorem discoverKVPairs_ok_iff (g : GraphNames) (block : StateBlockSpec)
    (pairs : List KVPairNames) :
    discoverKVPairs g block = .ok pairs ↔ ¬ KVRejected g block ∧
      pairs = ((keyDigits block g.outputs).map number).map (kvPair block) := by
  unfold discoverKVPairs KVRejected
  rw [List.map_map]
  obtain ⟨hall, hrun⟩ | ⟨hbad, e, hrun⟩ := foldlM_discover g block g.outputs []
  · rw [hrun, List.nil_append]
    constructor
    · intro h
      exact ⟨fun ⟨d, hd, hr⟩ => hr (hall d hd), (Except.ok.inj h).symm⟩
    · rintro ⟨-, rfl⟩
      rfl
  · rw [hrun]
    constructor
    · intro h
      cases h
    · rintro ⟨hno, -⟩
      exact absurd hbad hno

/-! ## Completeness -/

def StateBlockSpec.patterns (block : StateBlockSpec) : List (List Char) :=
  [block.keyInPattern, block.keyOutPattern, block.valueInPattern, block.valueOutPattern]

def KVPairNames.names (p : KVPairNames) : List (List Char) :=
  [p.keyIn, p.keyOut, p.valueIn, p.valueOut]

def GraphNames.tensors (g : GraphNames) : List (List Char) := g.inputs ++ g.outputs

/-- The layer numbers that the patterns read off the tensors of a graph. -/
def kvNumbers (g : GraphNames) (block : StateBlockSpec) : Finset ℕ :=
  (g.tensors.flatMap fun t => (block.patterns.filterMap (reads · t)).map number).toFinset

/-- The pairs account for every tensor that one of the patterns matches. -/
structure KVComplete (g : GraphNames) (block : StateBlockSpec) (pairs : List KVPairNames) :
    Prop where
  occurs : ∀ t ∈ g.tensors, (∃ p ∈ block.patterns, (reads p t).isSome) →
    pairs.countP (fun pair => pair.names.contains t) = 1
  exist : ∀ pair ∈ pairs, (pair.keyIn ∈ g.inputs ∧ pair.keyOut ∈ g.outputs ∧
    pair.valueIn ∈ g.inputs ∧ pair.valueOut ∈ g.outputs) ∧ ∃ layer, pair = kvPair block layer
  layers : pairs.length = (kvNumbers g block).card
  rebuilt : ∀ t ∈ g.outputs, ∀ d, reads block.keyOutPattern t = some d →
    fmtPattern block.keyOutPattern (number d) = t

/-- When discovery is complete: the key outputs are distinct and without leading zeros, every number
on a tensor is that of a key output, and off each tensor the patterns read one number without
leading zeros. -/
structure KVNamesFit (g : GraphNames) (block : StateBlockSpec) : Prop where
  distinct : (g.outputs.filter fun t => (reads block.keyOutPattern t).isSome).Nodup
  keys : ∀ d ∈ keyDigits block g.outputs, Canonical d
  numbers : ∀ n ∈ kvNumbers g block, ∃ d ∈ keyDigits block g.outputs, number d = n
  one : ∀ t ∈ g.tensors, (∃ p ∈ block.patterns, (reads p t).isSome) →
    ∃! d, Canonical d ∧ ∃ p ∈ block.patterns, reads p t = some d

theorem names_kvPair (block : StateBlockSpec) (n : ℕ) :
    (kvPair block n).names = block.patterns.map (fmtPattern · n) := rfl

theorem mem_kvNumbers {g : GraphNames} {block : StateBlockSpec} {n : ℕ} :
    n ∈ kvNumbers g block ↔
      ∃ t ∈ g.tensors, ∃ p ∈ block.patterns, ∃ d, reads p t = some d ∧ number d = n := by
  unfold kvNumbers
  rw [List.mem_toFinset, List.mem_flatMap]
  constructor
  · rintro ⟨t, ht, hn⟩
    obtain ⟨d, hd, rfl⟩ := List.mem_map.mp hn
    obtain ⟨p, hp, hr⟩ := List.mem_filterMap.mp hd
    exact ⟨t, ht, p, hp, d, hr, rfl⟩
  · rintro ⟨t, ht, p, hp, d, hr, rfl⟩
    exact ⟨t, ht, List.mem_map_of_mem (List.mem_filterMap.mpr ⟨p, hp, hr⟩)⟩

/-- A name that stands for a layer counts in the pair of that layer. -/
theorem names_contains_iff {block : StateBlockSpec} {t : List Char} {n : ℕ} :
    (kvPair block n).names.contains t ↔ ∃ p ∈ block.patterns, fmtPattern p n = t := by
  rw [List.contains_iff_mem, names_kvPair, List.mem_map]

/-- One of a kind: two members of a list that counts one of them are the same. -/
theorem countP_one_eq {α : Type*} {p : α → Bool} {l : List α} (h : l.countP p = 1) {a b : α}
    (ha : a ∈ l) (hb : b ∈ l) (hpa : p a) (hpb : p b) : a = b := by
  rw [List.countP_eq_length_filter, List.length_eq_one_iff] at h
  obtain ⟨c, hc⟩ := h
  have ha' := List.mem_filter.mpr ⟨ha, hpa⟩
  have hb' := List.mem_filter.mpr ⟨hb, hpb⟩
  rw [hc, List.mem_singleton] at ha' hb'
  rw [ha', hb']

section Discovery

variable {g : GraphNames} {block : StateBlockSpec}
  (hone : ∀ p ∈ block.patterns, (findPlaceholder p).isSome)

theorem keyOut_mem : block.keyOutPattern ∈ block.patterns := by simp [StateBlockSpec.patterns]

include hone

/-- The names of the key outputs, rebuilt from their numbers. -/
theorem filter_keyOut (outputs : List (List Char))
    (hkeys : ∀ d ∈ keyDigits block outputs, Canonical d) :
    outputs.filter (fun t => (reads block.keyOutPattern t).isSome) =
      ((keyDigits block outputs).map number).map (fmtPattern block.keyOutPattern) := by
  induction outputs with
  | nil => rfl
  | cons t outputs ih =>
    cases ht : reads block.keyOutPattern t with
    | none =>
      rw [show keyDigits block (t :: outputs) = keyDigits block outputs from
        List.filterMap_cons_none ht] at hkeys ⊢
      rw [List.filter_cons_of_neg (by simp [ht]), ih hkeys]
    | some d =>
      rw [show keyDigits block (t :: outputs) = d :: keyDigits block outputs from
        List.filterMap_cons_some ht] at hkeys ⊢
      have hd := hkeys d List.mem_cons_self
      rw [List.filter_cons_of_pos (by simp [ht]), List.map_cons, List.map_cons,
        (fmtPattern_number_iff (hone _ keyOut_mem) ht).mpr hd,
        ih fun d' hd' => hkeys d' (List.mem_cons_of_mem _ hd')]

/-- Key outputs with canonical numbers are distinct exactly if their numbers are. -/
theorem keyOut_nodup_iff (hkeys : ∀ d ∈ keyDigits block g.outputs, Canonical d) :
    (g.outputs.filter fun t => (reads block.keyOutPattern t).isSome).Nodup ↔
      ((keyDigits block g.outputs).map number).Nodup := by
  rw [filter_keyOut hone _ hkeys]
  exact List.nodup_map_iff (fmtPattern_injective (hone _ keyOut_mem))

/-- Where the pairs are complete, the names fit. -/
theorem KVComplete.fits
    (h : KVComplete g block (((keyDigits block g.outputs).map number).map (kvPair block))) :
    KVNamesFit g block := by
  set ns := (keyDigits block g.outputs).map number with hns
  have hkeys : ∀ d ∈ keyDigits block g.outputs, Canonical d := by
    intro d hd
    obtain ⟨t, ht, hr⟩ := mem_keyDigits.mp hd
    exact (fmtPattern_number_iff (hone _ keyOut_mem) hr).mp (h.rebuilt t ht d hr)
  -- a name that stands for a layer is a tensor, so it counts once among the layers
  have hcount : ∀ n ∈ ns, ∀ p ∈ block.patterns, fmtPattern p n ∈ g.tensors →
      ns.countP (fun n' => (kvPair block n').names.contains (fmtPattern p n)) = 1 := by
    intro n hn p hp hmem
    have hocc := h.occurs _ hmem ⟨p, hp, by rw [reads_fmtPattern (hone p hp)]; rfl⟩
    rwa [List.countP_map] at hocc
  have hnodup : ns.Nodup := by
    rw [List.nodup_iff_count_le_one]
    intro n
    by_cases hn : n ∈ ns
    swap
    · rw [List.count_eq_zero_of_not_mem hn]
      exact Nat.zero_le _
    · have hex := (h.exist _ (List.mem_map_of_mem hn)).1.2.1
      rw [← hcount n hn _ keyOut_mem (List.mem_append_right _ hex)]
      apply List.countP_mono_left
      intro n' _ hn'
      rw [beq_iff_eq] at hn'
      rw [hn', names_contains_iff]
      exact ⟨_, keyOut_mem, rfl⟩
  have hsub : ns.toFinset ⊆ kvNumbers g block := by
    intro n hn
    obtain ⟨d, hd, rfl⟩ := List.mem_map.mp (List.mem_toFinset.mp hn)
    obtain ⟨t, ht, hr⟩ := mem_keyDigits.mp hd
    exact mem_kvNumbers.mpr ⟨t, List.mem_append_right _ ht, _, keyOut_mem, d, hr, rfl⟩
  have heq : ns.toFinset = kvNumbers g block := by
    apply Finset.eq_of_subset_of_card_le hsub
    rw [List.toFinset_card_of_nodup hnodup, ← h.layers, List.length_map]
  have hnum : ∀ n ∈ kvNumbers g block, n ∈ ns := by
    intro n hn
    rwa [← heq, List.mem_toFinset] at hn
  refine ⟨(keyOut_nodup_iff hone hkeys).mpr hnodup, hkeys, fun n hn => ?_, fun t ht hp => ?_⟩
  · exact List.mem_map.mp (hnum n hn)
  · have hocc := h.occurs t ht hp
    rw [List.countP_map] at hocc
    obtain ⟨n, hn, hc⟩ := List.countP_pos_iff.mp (hocc ▸ Nat.one_pos)
    obtain ⟨p, hpmem, rfl⟩ := names_contains_iff.mp hc
    refine ⟨Nat.toDigits 10 n, ⟨canonical_toDigits n, p, hpmem, reads_fmtPattern (hone p hpmem) n⟩,
      ?_⟩
    rintro d ⟨hd, p', hp', hr⟩
    have hname := (fmtPattern_number_iff (hone p' hp') hr).mpr hd
    have hmem := hnum _ (mem_kvNumbers.mpr ⟨_, ht, p', hp', d, hr, rfl⟩)
    have hsame := countP_one_eq hocc hmem hn (names_contains_iff.mpr ⟨p', hp', hname⟩) hc
    rw [← hsame]
    exact hd.symm

/-- Where the names fit, the pairs are complete. -/
theorem KVNamesFit.complete (hok : ¬ KVRejected g block) (h : KVNamesFit g block) :
    KVComplete g block (((keyDigits block g.outputs).map number).map (kvPair block)) := by
  set ns := (keyDigits block g.outputs).map number with hns
  have hnodup : ns.Nodup := (keyOut_nodup_iff hone h.keys).mp h.distinct
  have hnum : ∀ n, n ∈ kvNumbers g block ↔ n ∈ ns := by
    intro n
    constructor
    · intro hn
      exact List.mem_map.mpr (h.numbers n hn)
    · intro hn
      obtain ⟨d, hd, rfl⟩ := List.mem_map.mp hn
      obtain ⟨t, ht, hr⟩ := mem_keyDigits.mp hd
      exact mem_kvNumbers.mpr ⟨t, List.mem_append_right _ ht, _, keyOut_mem, d, hr, rfl⟩
  refine ⟨fun t ht hp => ?_, fun pair hpair => ?_, ?_, fun t ht d hr => ?_⟩
  · obtain ⟨d, ⟨hd, p, hpmem, hr⟩, huniq⟩ := h.one t ht hp
    have hmem := (hnum _).mp (mem_kvNumbers.mpr ⟨t, ht, p, hpmem, d, hr, rfl⟩)
    rw [List.countP_map, ← List.count_eq_one_of_mem hnodup hmem]
    apply List.countP_congr
    intro n hn
    show (kvPair block n).names.contains t ↔ (n == number d) = true
    rw [names_contains_iff, beq_iff_eq]
    constructor
    · rintro ⟨p', hp', rfl⟩
      have hd' := huniq _ ⟨canonical_toDigits n, p', hp', reads_fmtPattern (hone p' hp') n⟩
      rw [← hd', number_toDigits]
    · rintro rfl
      exact ⟨p, hpmem, (fmtPattern_number_iff (hone p hpmem) hr).mpr hd⟩
  · obtain ⟨n, hn, rfl⟩ := List.mem_map.mp hpair
    obtain ⟨d, hd, rfl⟩ := List.mem_map.mp hn
    obtain ⟨t, ht, hr⟩ := mem_keyDigits.mp hd
    have hres : Resolves g block d := by
      by_contra hno
      exact hok ⟨d, hd, hno⟩
    have hpartners := hres.2.2
    unfold GraphNames.hasPartners at hpartners
    rw [Bool.and_eq_true, Bool.and_eq_true, List.contains_iff_mem, List.contains_iff_mem,
      List.contains_iff_mem] at hpartners
    have hkey := (fmtPattern_number_iff (hone _ keyOut_mem) hr).mpr (h.keys d hd)
    rw [← hkey] at ht
    exact ⟨⟨hpartners.1.1, ht, hpartners.1.2, hpartners.2⟩, _, rfl⟩
  · rw [List.length_map, ← List.toFinset_card_of_nodup hnodup]
    congr 1
    ext n
    rw [List.mem_toFinset, hnum]
  · exact (fmtPattern_number_iff (hone _ keyOut_mem) hr).mpr
      (h.keys d (mem_keyDigits.mpr ⟨t, ht, hr⟩))

/-- Discovery throws or returns pairs that are complete, exactly if it rejects a key output or the
names fit. -/
theorem discover_complete_iff :
    (∀ pairs, discoverKVPairs g block = .ok pairs → KVComplete g block pairs) ↔
      KVRejected g block ∨ KVNamesFit g block := by
  constructor
  · intro h
    by_cases hrej : KVRejected g block
    · exact Or.inl hrej
    · have hok := (discoverKVPairs_ok_iff g block _).mpr ⟨hrej, rfl⟩
      exact Or.inr ((h _ hok).fits hone)
  · intro h pairs hpairs
    obtain ⟨hok, rfl⟩ := (discoverKVPairs_ok_iff g block pairs).mp hpairs
    obtain hrej | hfit := h
    · exact absurd hrej hok
    · exact hfit.complete hone hok

end Discovery

/-- A layer whose key output is missing is dropped. -/
theorem discover_valueOnly : ¬ ∀ (g : GraphNames) (block : StateBlockSpec),
    (∀ p ∈ block.patterns, (findPlaceholder p).isSome) →
      ∀ pairs, discoverKVPairs g block = .ok pairs → KVComplete g block pairs := by
  intro h
  have hc := h ⟨"g".toList, ["past_key_3_in".toList, "past_value_3_in".toList],
    ["past_value_3_out".toList]⟩ {} (by decide +kernel) [] (by decide +kernel)
  have hlayers := hc.layers
  exact absurd hlayers (by decide +kernel)

/-- One layer, complete. -/
theorem discover_complete_one : (discoverKVPairs ⟨"g".toList,
      ["past_key_3_in".toList, "past_value_3_in".toList],
      ["past_key_3_out".toList, "past_value_3_out".toList]⟩ {} = .ok [kvPair {} 3]) ∧
    KVComplete ⟨"g".toList, ["past_key_3_in".toList, "past_value_3_in".toList],
      ["past_key_3_out".toList, "past_value_3_out".toList]⟩ {} [kvPair {} 3] := by
  have hrun : discoverKVPairs ⟨"g".toList, ["past_key_3_in".toList, "past_value_3_in".toList],
      ["past_key_3_out".toList, "past_value_3_out".toList]⟩ {} = .ok [kvPair {} 3] := by
    decide +kernel
  refine ⟨hrun, (discover_complete_iff (by decide +kernel)).mpr (Or.inr ?_) _ hrun⟩
  refine ⟨by decide +kernel, by decide +kernel, by decide +kernel, fun t ht _ => ?_⟩
  have hread : Canonical ['3'] ∧ (∃ p ∈ ({} : StateBlockSpec).patterns, reads p t = some ['3']) ∧
      ∀ p ∈ ({} : StateBlockSpec).patterns, reads p t = none ∨ reads p t = some ['3'] := by
    revert t
    decide +kernel
  refine ⟨['3'], ⟨hread.1, hread.2.1⟩, ?_⟩
  rintro d ⟨-, p, hp, hr⟩
  obtain hnone | hsome := hread.2.2 p hp
  · rw [hnone] at hr
    cases hr
  · exact Option.some.inj (hr.symm.trans hsome)

end Geniex
