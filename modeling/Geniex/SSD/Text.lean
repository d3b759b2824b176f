import Geniex.SSD.Verify

/-!
# The text in the cache

`TextAt phase text w`: from the end of the forecast prefix on, the KV columns of `w`, at the stride
of a phase, stand for `text`. Each part of a call extends the text, as long as its steps fit.
-/

namespace Geniex

open Prog FlatMem Greedy

variable {ρ I : Type} {spec : LLMSpec} {env : Env Int32 ρ I} {ssd : SSDConfig}
  {next : List (Int32 × Int32) → Int32} {holds : ℕ → Column → Int32 × Int32 → Prop}

/-- The answer to a text, each of whose tokens is at its own position. -/
def answerTo (next : List (Int32 × Int32) → Int32) (text : List Int32) : Int32 :=
  next (SSDConfig.placedFrom 0 text)

/-- The cache holds a text, at the stride of a phase. -/
structure TextAt (spec : LLMSpec) (ssd : SSDConfig) (holds : ℕ → Column → Int32 × Int32 → Prop)
    (phase : Phase) (text : List Int32) (w : World Int32 ρ I) : Prop where
  active : w.activeClIdx = 0
  nPast : w.nPast = ssd.forecastPrefix + text.length
  room : w.nPast ≤ spec.kvLen .prefill 0
  sampler : w.sampler = none
  pairs : HoldsPairs spec holds (spec.kvLen phase 0) ssd.forecastPrefix
    (SSDConfig.placedFrom 0 text) w.kv

/-- The greatest logit of a row of the last pass of a phase. -/
def lastAnswer (spec : LLMSpec) (phase : Phase) (w : World Int32 ρ I) (row : ℕ) : Int32 :=
  rowAnswer spec (w.outs (spec.graphIndex phase (spec.shardCount - 1) 0)) row

theorem stepsFit_hereditary (spec : LLMSpec) (n₀ : ℕ) :
    Hereditary (StepsFit spec n₀ : List (Event Int32 I) → Prop) := by
  intro a b h
  exact ⟨⟨h.entry, fun phase n c he => h.step _ _ _ (List.mem_append_left _ he),
      fun n path he => h.accepted _ _ (List.mem_append_left _ he)⟩,
    ⟨h.entry, fun phase n c he => h.step _ _ _ (List.mem_append_right _ he),
      fun n path he => h.accepted _ _ (List.mem_append_right _ he)⟩⟩

namespace TextAt

variable {phase : Phase} {text more : List Int32} {w w' : World Int32 ρ I}

/-- What does not touch the cache keeps its text. -/
theorem of_eq (h : TextAt spec ssd holds phase text w) (ha : w'.activeClIdx = w.activeClIdx)
    (hn : w'.nPast = w.nPast) (hs : w'.sampler = w.sampler) (hkv : w'.kv = w.kv) :
    TextAt spec ssd holds phase text w' :=
  ⟨ha.trans h.active, hn.trans h.nPast, hn ▸ h.room, hs.trans h.sampler, hkv ▸ h.pairs⟩

theorem past_le (h : TextAt spec ssd holds phase text w) : w.nPast ≤ spec.kvLen phase 0 := by
  have := h.room
  cases phase with
  | prefill => exact this
  | decode => exact this.trans (spec.kvLen_prefill_le 0)

/-- New columns behind the old ones extend the text. -/
theorem extend (h : TextAt spec ssd holds phase text w) (ha : w'.activeClIdx = w.activeClIdx)
    (hn : w'.nPast = w.nPast + more.length) (hs : w'.sampler = w.sampler)
    (hroom : w.nPast + more.length ≤ spec.kvLen .prefill 0)
    (hold : ∀ s < spec.shardCount, ∀ c < w.nPast,
      columnOf spec (spec.kvLen phase 0) s c w'.kv = columnOf spec (spec.kvLen phase 0) s c w.kv)
    (hnew : ∀ s < spec.shardCount, ∀ j q,
      (SSDConfig.placedFrom text.length more)[j]? = some q →
        holds s (columnOf spec (spec.kvLen phase 0) s (w.nPast + j) w'.kv) q) :
    TextAt spec ssd holds phase (text ++ more) w' := by
  have hpast := h.nPast
  refine ⟨ha.trans h.active, ?_, hn ▸ hroom, hs.trans h.sampler, fun s hs' j q hq => ?_⟩
  · rw [hn, hpast, List.length_append, Nat.add_assoc]
  · rw [SSDConfig.placedFrom_append, Nat.zero_add] at hq
    rcases Nat.lt_or_ge j text.length with hj | hj
    · rw [List.getElem?_append_left (by simpa using hj)] at hq
      rw [hold s hs' _ (by omega)]
      exact h.pairs s hs' j q hq
    · rw [List.getElem?_append_right (by simpa using hj), SSDConfig.placedFrom_length] at hq
      have := hnew s hs' _ q hq
      rwa [show w.nPast + (j - text.length) = ssd.forecastPrefix + j by omega] at this

end TextAt

/-! ## Prefill -/

namespace SSDConfig

variable {nPast n k : ℕ}

theorem placedFrom_getElem? (k : ℕ) (ts : List Int32) (j : ℕ) :
    (placedFrom k ts)[j]? = ts[j]?.map fun t => (t, Int32.ofNat (k + j)) := by
  induction ts generalizing k j with
  | nil => rfl
  | cons t ts ih =>
    cases j with
    | zero => rfl
    | succ j =>
      rw [placedFrom, List.getElem?_cons_succ, List.getElem?_cons_succ, ih]
      congr 2
      funext t
      rw [Nat.add_right_comm, Nat.add_assoc]

/-- The pairs of a chunk's rows are its tokens, placed behind the past. -/
theorem prefill_pairs (ssd : SSDConfig) (chunk : List Int32) (hpast : nPast = ssd.forecastPrefix + k) {m : ℕ}
    (hm : m ≤ chunk.length) :
    (List.range m).map (fun i =>
        (chunk.getD i 0, (ssd.prefillPositions nPast chunk.length).getD i 0)) =
      placedFrom k (chunk.take m) := by
  apply List.ext_getElem?
  intro j
  rw [placedFrom_getElem?, List.getElem?_map]
  rcases Nat.lt_or_ge j m with hj | hj
  · have hjc : j < chunk.length := by omega
    rw [List.getElem?_range hj, List.getElem?_take_of_lt hj, List.getElem?_eq_getElem hjc]
    have hpos : (ssd.prefillPositions nPast chunk.length).getD j 0 = Int32.ofNat (k + j) := by
      unfold prefillPositions
      rw [List.getD_eq_getElem _ _ (by simpa using hjc), List.getElem_map, List.getElem_range,
        ← Int32.ofInt_eq_ofNat]
      congr 1
      omega
    simp only [Option.map_some, hpos, List.getD_eq_getElem _ _ hjc]
  · rw [List.getElem?_eq_none (by simpa using hj), List.getElem?_eq_none (by simp; omega)]
    rfl

end SSDConfig

section Stages

variable {w w' w₁ : World Int32 ρ I} {text : List Int32} {n₀ : ℕ}

/-- The pass of a prefill chunk. -/
def chunkPass (spec : LLMSpec) (ssd : SSDConfig) (chunk : List Int32) (w : World Int32 ρ I) :
    PassInput where
  phase := .prefill
  clIdx := w.activeClIdx
  ctx := ⟨chunk, w.nPast, chunk.length, .prefill⟩
  mask := ssd.prefillMask w.nPast chunk.length spec.seqLenPrefill (spec.kvLen .prefill w.activeClIdx)
  positions := ssd.prefillPositions w.nPast chunk.length

/-- A row of a chunk sees the text before the chunk, and the chunk up to itself. -/
theorem TextAt.chunkRow (h : TextAt spec ssd holds .prefill text w₁)
    (o : Oracle spec env next holds) {chunk : List Int32}
    (hpass : Passing spec env (chunkPass spec ssd chunk w₁) true w₁ spec.shardCount w)
    (hlen : chunk.length ≤ spec.seqLenPrefill) {i : ℕ} (hi : i < chunk.length) :
    (∀ s < spec.shardCount, ∀ q, (SSDConfig.placedFrom text.length chunk)[i]? = some q →
        holds s (columnOf spec spec.seqLenPrefill s i
          (w.outs (spec.graphIndex .prefill s 0)).kvOut) q) ∧
      lastAnswer spec .prefill w i = answerTo next (text ++ chunk.take (i + 1)) := by
  set p := chunkPass spec ssd chunk w₁ with hp
  have hcl : p.clIdx = 0 := h.active
  have hpast : w₁.nPast ≤ spec.kvLen p.phase p.clIdx := by
    rw [hcl]
    exact h.past_le
  obtain ⟨hvisible, hblock⟩ := SSDConfig.visible_prefill ssd hlen hpast hi
  have hrange : p.past spec i =
      List.range' ssd.forecastPrefix (SSDConfig.placedFrom 0 text).length := by
    rw [SSDConfig.placedFrom_length, ← Nat.add_sub_cancel_left (n := ssd.forecastPrefix)
      (m := text.length), ← h.nPast]
    exact hvisible
  have hpairs : (p.block spec i).map p.pair =
      SSDConfig.placedFrom text.length (chunk.take (i + 1)) := by
    rw [← SSDConfig.prefill_pairs ssd chunk h.nPast (by omega)]
    exact congrArg (List.map p.pair) hblock
  obtain ⟨hcols, hans⟩ := o.row (by rw [hcl]; exact spec.numCl_pos) hpass.pass hlen hi hrange
    (by rw [hcl]; exact h.pairs)
  constructor
  · intro s hs q hq
    have hcol := hcols s hs
    rw [hcl] at hcol
    -- the pair of row `i` is the one at its place
    have hpair : some (p.pair i) = some q := by
      rw [← hq, ← List.take_length (l := chunk),
        ← SSDConfig.prefill_pairs ssd chunk h.nPast le_rfl, List.getElem?_map,
        List.getElem?_range hi]
      rfl
    rw [← Option.some.inj hpair]
    exact hcol
  · rw [hpairs, hcl] at hans
    refine hans.trans ?_
    unfold answerTo
    rw [SSDConfig.placedFrom_append, Nat.zero_add]

/-- A chunk joins the text. -/
theorem TextAt.chunk (h : TextAt spec ssd holds .prefill text w₁)
    (o : Oracle spec env next holds) {chunk : List Int32}
    (hpass : Passing spec env (chunkPass spec ssd chunk w₁) true w₁ spec.shardCount w)
    (hlen : chunk.length ≤ spec.seqLenPrefill)
    (hroom : w₁.nPast + chunk.length ≤ spec.kvLen .prefill 0) :
    TextAt spec ssd holds .prefill (text ++ chunk)
      { w with nPast := w.nPast + chunk.length } := by
  have hcl : (chunkPass spec ssd chunk w₁).clIdx = 0 := h.active
  have hkv : ∀ s, ∀ t, t.shard = s → spec.hasTensor t = true → w.kv t =
      copyKV spec t (w₁.kv t) ((w.outs (spec.graphIndex .prefill s 0)).kvOut t)
        spec.seqLenPrefill 0 (spec.kvLen .prefill 0) w₁.nPast chunk.length := by
    rintro s t rfl ht
    have := hpass.kv t
    rw [if_pos ⟨rfl, shard_lt_of_hasTensor ht, ht⟩, hcl] at this
    exact this
  have hcolumn : ∀ s, ∀ c < spec.kvLen .prefill 0, _ := fun s c hc =>
    columnOf_copyKV (hkv s) hroom hc
  refine h.extend (hpass.active.trans rfl) (congrArg (· + chunk.length) hpass.nPast)
    hpass.sampler hroom (fun s hs c hc => ?_) fun s hs j q hq => ?_
  · refine (hcolumn s c (by omega)).trans (if_neg (by omega))
  · have hj : j < chunk.length := by
      have := (List.getElem?_eq_some_iff.mp hq).1
      simpa using this
    rw [show columnOf spec (spec.kvLen .prefill 0) s (w₁.nPast + j) w.kv = _ from
      hcolumn s _ (by omega), if_pos (by omega), Nat.add_sub_cancel_left]
    exact (h.chunkRow o hpass hlen hj).1 s hs q hq

/-- The last row of the prefill answers the text so far. -/
def Answered (spec : LLMSpec) (next : List (Int32 × Int32) → Int32) (last : ℕ) (text : List Int32)
    (w : World Int32 ρ I) : Prop :=
  0 < last ∧ last ≤ spec.seqLenPrefill ∧
    lastAnswer spec .prefill w (last - 1) = answerTo next text

theorem prefillChunk_text (o : Oracle spec env next holds) (chunk : List Int32) :
    Logged World.trace (StepsFit spec n₀) (TextAt spec ssd holds .prefill text)
      (ssd.prefillChunk spec env chunk) fun _ w =>
        TextAt spec ssd holds .prefill (text ++ chunk) w ∧
          (chunk ≠ [] → Answered spec next chunk.length (text ++ chunk) w) := by
  have hfits := stepsFit_hereditary (I := I) spec n₀
  refine Logged.get fun w₁ => ?_
  set e : Event Int32 I := .step .prefill w₁.nPast chunk.length with he
  refine Logged.bind hfits (R := fun _ w =>
      Passing spec env (chunkPass spec ssd chunk w₁) true (w₁.log e) 0 w ∧
        TextAt spec ssd holds .prefill text w₁ ∧ chunk.length ≤ spec.seqLenPrefill ∧
        w₁.nPast + chunk.length ≤ spec.kvLen .prefill 0)
    (Logged.modifyLog (fun _ => [e]) (fun _ => rfl) fun w hfit hP => ?_) fun _ =>
    Logged.bind hfits (Logged.frame (Logged.forRange hfits fun n hn =>
      Passing.prefillShard hfits _ _ _ _ hn)) fun _ =>
    Logged.modify (fun _ => List.suffix_rfl) fun w hP => ?_
  · obtain ⟨rfl, htext⟩ := hP
    have hstep := hfit.step _ _ _ (List.mem_singleton_self _)
    exact ⟨Passing.start rfl, htext, hstep⟩
  · obtain ⟨hpass, htext, hlen, hroom⟩ := hP
    have htext' : TextAt spec ssd holds .prefill text (w₁.log e) := htext.of_eq rfl rfl rfl rfl
    refine ⟨htext'.chunk o hpass hlen hroom, fun hne => ?_⟩
    have hpos := List.length_pos_of_ne_nil hne
    refine ⟨hpos, hlen, ?_⟩
    have hans := (htext'.chunkRow o hpass hlen (i := chunk.length - 1) (by omega)).2
    rw [Nat.sub_add_cancel hpos, List.take_length] at hans
    exact hans

theorem prefillLoop_text (o : Oracle spec env next holds) (fuel : ℕ) :
    ∀ (tokens text : List Int32) (last : ℕ), tokens.length ≤ fuel →
      Logged World.trace (StepsFit spec n₀)
        (fun w => TextAt spec ssd holds .prefill text w ∧
          (tokens = [] → Answered spec next last text w))
        (ssd.prefillLoop spec env fuel tokens last) fun last' w =>
          TextAt spec ssd holds .prefill (text ++ tokens) w ∧
            Answered spec next last' (text ++ tokens) w := by
  have hfits := stepsFit_hereditary (I := I) spec n₀
  induction fuel with
  | zero =>
    intro tokens text last hfuel
    obtain rfl : tokens = [] := List.eq_nil_of_length_eq_zero (Nat.le_zero.mp hfuel)
    rw [List.append_nil]
    exact Logged.pure fun w h => ⟨h.1, h.2 rfl⟩
  | succ fuel ih =>
    intro tokens text last hfuel
    refine Logged.ite (fun hnil => ?_) fun hne => ?_
    · rw [hnil, List.append_nil]
      exact Logged.pure fun w h => ⟨h.1, h.2 rfl⟩
    · have hpos := spec.seqLen_pos .prefill
      have hrest := ih (tokens.drop spec.seqLenPrefill) (text ++ tokens.take spec.seqLenPrefill)
        (tokens.take spec.seqLenPrefill).length (by
          rw [List.length_drop]
          have : 0 < spec.seqLenPrefill := hpos
          omega)
      rw [List.append_assoc, List.take_append_drop] at hrest
      exact Logged.bind hfits ((prefillChunk_text o _).pre fun w h => h.1) fun _ =>
        hrest.pre fun w h => ⟨h.1, fun _ => h.2 (spec.firstChunk_ne_nil hne)⟩

/-- The layout switch keeps the text. -/
theorem TextAt.restride (h : TextAt spec ssd holds .prefill text w) :
    TextAt spec ssd holds .decode text (restrideActive spec .prefill .decode w.nPast w) := by
  refine ⟨h.active, h.nPast, h.room, h.sampler, fun s hs j q hq => ?_⟩
  have hj : j < text.length := by
    have := (List.getElem?_eq_some_iff.mp hq).1
    simpa using this
  have hpast := h.nPast
  have hroom := h.room
  have hle := spec.kvLen_prefill_le 0
  have hcol : columnOf spec (spec.kvLen .decode 0) s (ssd.forecastPrefix + j)
      (restrideActive spec .prefill .decode w.nPast w).kv =
      columnOf spec (spec.kvLen .prefill 0) s (ssd.forecastPrefix + j) w.kv := by
    refine columnOf_eq fun t _ ht r hr b hb => ?_
    show reshapeAll spec (spec.kvLen .prefill w.activeClIdx) (spec.kvLen .decode w.activeClIdx)
      w.nPast w.kv t _ = _
    rw [h.active]
    exact reshapeAll_cell ht hr (by omega) (by omega) (by omega) hb
  rw [hcol]
  exact h.pairs s hs j q hq

/-- Without a sampler the next token is the greatest logit's. -/
theorem sampleNextToken_greedy {P : World Int32 ρ I → Prop} {phase : Phase} {off : ℕ}
    (hP : ∀ w, P w → w.sampler = none) (hlog : ∀ w e, P w → P (w.log e)) :
    Logged World.trace (StepsFit spec n₀) P (sampleNextToken spec env phase off) fun tok w =>
      P w ∧ tok = Int32.ofNat (argmax (readLastLogits spec phase off w)) := by
  have hfits := stepsFit_hereditary (I := I) spec n₀
  refine Logged.get fun w₁ => ?_
  dsimp only
  cases hs : w₁.sampler with
  | none =>
    refine Logged.bind hfits (R := fun _ w => P w ∧
        readLastLogits spec phase off w = readLastLogits spec phase off w₁)
      (Logged.modify (fun _ => List.suffix_cons _ _) fun w h => ?_) fun _ =>
      Logged.pure fun w h => ⟨h.1, by rw [h.2]; rfl⟩
    obtain ⟨rfl, h⟩ := h
    exact ⟨hlog _ _ h, rfl⟩
  | some s =>
    have hno : ∀ w, w = w₁ ∧ P w → False := by
      rintro w ⟨rfl, h⟩
      cases (hP w h).symm.trans hs
    exact Logged.bind hfits (R := fun _ _ => False)
      (Logged.modify (fun _ => List.suffix_append _ _) hno) fun _ =>
      Logged.bind hfits (R := fun _ _ => False)
        (Logged.modify (fun _ => List.suffix_cons _ _) fun _ h => h) fun _ =>
        Logged.pure fun _ h => h.elim

/-- After the prefill the first token is the greedy one. -/
theorem prefillStage_text (n₀ : ℕ) (text : List Int32) (o : Oracle spec env next holds) {prompt : List Int32}
    (hprompt : prompt ≠ []) :
    Logged World.trace (StepsFit spec n₀) (TextAt spec ssd holds .prefill text)
      (ssd.prefillStage spec env prompt) fun first w =>
        TextAt spec ssd holds .decode (text ++ prompt) w ∧ first = answerTo next (text ++ prompt) := by
  have hfits := stepsFit_hereditary (I := I) spec n₀
  refine Logged.get fun w₁ => Logged.bind hfits
    (R := fun _ => TextAt spec ssd holds .prefill text)
    (Logged.modify (fun _ => List.suffix_cons _ _) fun w h => h.2.of_eq rfl rfl rfl rfl) fun _ =>
    Logged.bind hfits ((prefillLoop_text o _ prompt text 0 le_rfl).pre fun w h =>
      ⟨h, fun hnil => absurd hnil hprompt⟩) fun last =>
    Logged.bind hfits (R := fun _ w => TextAt spec ssd holds .decode (text ++ prompt) w ∧
      Answered spec next last (text ++ prompt) w)
    (Logged.modify (fun _ => List.suffix_rfl) fun w h => ⟨h.1.restride, h.2⟩) fun _ => ?_
  refine (sampleNextToken_greedy (fun w h => h.1.sampler)
    fun w e h => ⟨h.1.of_eq rfl rfl rfl rfl, h.2⟩).post fun first w h => ⟨h.1.1, ?_⟩
  obtain ⟨⟨htext, hpos, hlast, hans⟩, hfirst⟩ := h
  have hcl := spec.seqLen_le_maxCl .prefill
  have hmax := spec.maxCl_lt
  have hoff : (last + (2 ^ 64 - 1)) % 2 ^ 64 = last - 1 := by
    have : last ≤ spec.seqLen .prefill := hlast
    omega
  rw [hfirst, ← hans, hoff]
  unfold lastAnswer rowAnswer readLastLogits
  rw [htext.active]

/-! ## A tree pass -/

/-- A tree pass. -/
def treePass (spec : LLMSpec) (ssd : SSDConfig) (tokens : List Int32) (offset : ℕ)
    (w : World Int32 ρ I) : PassInput where
  phase := .decode
  clIdx := w.activeClIdx
  ctx := ⟨tokens, w.nPast, tokens.length, .decode⟩
  mask := ssd.buildTreeAttentionMask w.nPast tokens.length spec.seqLenDecode
    (spec.kvLen .decode w.activeClIdx) offset
  positions := ssd.computeTreePositionIds w.nPast tokens.length

/-- The rows below the offset stand for their tokens, and answer the text that ends at them. -/
def TreeAnswers (spec : LLMSpec) (ssd : SSDConfig) (next : List (Int32 × Int32) → Int32)
    (holds : ℕ → Column → Int32 × Int32 → Prop) (text tokens : List Int32) (offset : ℕ)
    (w : World Int32 ρ I) : Prop :=
  ∀ ids i, SSDConfig.RootPath ssd ids → ids.Pairwise (· < ·) → ids.getLast? = some i →
    i < tokens.length → i < offset →
    (∀ s < spec.shardCount, holds s
      (columnOf spec spec.seqLenDecode s i (w.outs (spec.graphIndex .decode s 0)).kvOut)
      (tokens.getD i 0, (ssd.computeTreePositionIds w.nPast tokens.length).getD i 0)) ∧
    lastAnswer spec .decode w i = answerTo next (text ++ ids.map fun i => tokens.getD i 0)

theorem TextAt.treeRow (h : TextAt spec ssd holds .decode text w₁)
    (o : Oracle spec env next holds) {tokens : List Int32} {offset : ℕ}
    (hpass : Passing spec env (treePass spec ssd tokens offset w₁) false w₁ spec.shardCount w)
    (hlen : tokens.length ≤ spec.seqLenDecode) :
    TreeAnswers spec ssd next holds text tokens offset w := by
  intro ids i hids hasc hlast hi hoff
  set p := treePass spec ssd tokens offset w₁ with hp
  have hcl : p.clIdx = 0 := h.active
  have hpast : w₁.nPast ≤ spec.kvLen p.phase p.clIdx := by
    rw [hcl]
    exact h.past_le
  obtain ⟨hvisible, hblock⟩ := hids.visible hasc hlast hlen hpast hi hoff
  have hrange : p.past spec i =
      List.range' ssd.forecastPrefix (SSDConfig.placedFrom 0 text).length := by
    rw [SSDConfig.placedFrom_length, ← Nat.add_sub_cancel_left (n := ssd.forecastPrefix)
      (m := text.length), ← h.nPast]
    exact hvisible
  have hin : ∀ j ∈ ids, j < tokens.length := by
    intro j hj
    have hle := (hids.mem_ancestors hlast j).mpr hj
    rcases List.mem_cons.mp hle with rfl | hj
    · exact hi
    · exact (SSDConfig.ancestors_lt hj).trans hi
  have hpairs : (p.block spec i).map p.pair =
      SSDConfig.placedFrom text.length (ids.map fun i => tokens.getD i 0) := by
    rw [← hids.placed tokens hin h.nPast]
    exact congrArg (List.map p.pair) hblock
  obtain ⟨hcols, hans⟩ := o.row (by rw [hcl]; exact spec.numCl_pos) hpass.pass hlen hi hrange
    (by rw [hcl]; exact h.pairs)
  rw [hcl] at hcols
  constructor
  · intro s hs
    rw [hpass.nPast]
    exact hcols s hs
  · rw [hpairs, hcl] at hans
    refine hans.trans ?_
    unfold answerTo
    rw [SSDConfig.placedFrom_append, Nat.zero_add]

/-- A tree pass leaves the text as it is. -/
theorem treePass_text (o : Oracle spec env next holds) (tokens : List Int32) (offset : ℕ) :
    Logged World.trace (StepsFit spec n₀) (TextAt spec ssd holds .decode text)
      (ssd.runShardsWithTreeMask spec env tokens offset) fun _ w =>
        TextAt spec ssd holds .decode text w ∧ w.nPast + 1 ≤ spec.kvLen .prefill 0 ∧
          TreeAnswers spec ssd next holds text tokens offset w := by
  have hfits := stepsFit_hereditary (I := I) spec n₀
  refine Logged.get fun w₁ => ?_
  set e : Event Int32 I := .step .decode w₁.nPast tokens.length with he
  refine Logged.bind hfits (R := fun _ w =>
      Passing spec env (treePass spec ssd tokens offset w₁) false (w₁.log e) 0 w ∧
        TextAt spec ssd holds .decode text w₁ ∧ tokens.length ≤ spec.seqLenDecode ∧
        w₁.nPast + 1 ≤ spec.kvLen .prefill 0)
    (Logged.modifyLog (fun _ => [e]) (fun _ => rfl) fun w hfit hP => ?_) fun _ =>
    (Logged.frame (Logged.forRange hfits
      (I := Passing spec env (treePass spec ssd tokens offset w₁) false (w₁.log e)) fun n hn =>
        Passing.treeShard hfits _ _ _ _ hn)).post fun _ w hP => ?_
  · obtain ⟨rfl, htext⟩ := hP
    have hstep := hfit.step _ _ _ (List.mem_singleton_self _)
    exact ⟨Passing.start rfl, htext, hstep⟩
  · obtain ⟨hpass, htext, hlen, hroom⟩ := hP
    have htext' : TextAt spec ssd holds .decode text (w₁.log e) := htext.of_eq rfl rfl rfl rfl
    have hkv : w.kv = w₁.kv := by
      funext t
      refine (hpass.kv t).trans (if_neg ?_)
      simp
    refine ⟨htext.of_eq (hpass.active.trans rfl) hpass.nPast hpass.sampler hkv, ?_,
      htext'.treeRow o hpass hlen⟩
    rw [hpass.nPast]
    exact hroom

end Stages

end Geniex
