import Geniex.LLM.LogitsRows
import Geniex.SSD.Forecast
import Geniex.SSD.Greedy
import Geniex.VLM.Rows

/-!
# The rows of the logits in the other decoders

A vision-language call reads what the call of the underlying model reads. A tree-decoding call reads
rows of the draft tree and of its forecast tokens.

* `SSDLogitsRead`: the rows that a tree-decoding call reads.
* `logits_rows_computed`: when every row that a call of a decoder reads is computed.
-/

namespace Geniex

open Prog

variable {ρ I : Type} {spec : LLMSpec} {env : Env Int32 ρ I} {ssd : SSDConfig}
  {w₀ w w' : World Int32 ρ I}

/-! ## The rows that the trees need -/

namespace SSDConfig

/-- The level nodes are all of the tree but its root. -/
theorem genLevels_sum (branches : List ℕ) (start : ℕ) (tree : List (Option ℕ)) (nodes : List ℕ) :
    (genLevels branches start tree nodes).1.length + nodes.sum =
      tree.length + (genLevels branches start tree nodes).2.sum := by
  induction branches generalizing start tree nodes with
  | nil => rfl
  | cons b bs ih =>
    have h := ih tree.length (tree ++ children b start tree.length)
      (nodes ++ [(children b start tree.length).length])
    rw [List.length_append, List.sum_append, List.sum_singleton] at h
    rw [genLevels]
    omega

/-- A draft tree has a token for each node at least. -/
theorem numDraftNodes_le_buildSampleTree (logitsAt : ℕ → List ℚ) (lastToken : Int32) (off : ℕ) :
    ssd.numDraftNodes ≤ (ssd.buildSampleTree logitsAt lastToken off).length := by
  have hsum := genLevels_sum ssd.branches 0 [none] []
  have hle : ∀ levels : List ℕ, levels.sum ≤ (levels.map fun n => max n 1).sum := by
    intro levels
    induction levels with
    | nil => exact le_rfl
    | cons n levels ih =>
      rw [List.sum_cons, List.map_cons, List.sum_cons]
      exact Nat.add_le_add (le_max_left n 1) ih
  have hlevels := hle ssd.levels.2
  unfold buildSampleTree
  rw [(sampleLevels_grows logitsAt off ssd.levels.2 0 ([lastToken], 0)).2]
  unfold numDraftNodes levels at *
  simp only [List.length_singleton, List.sum_nil] at hsum ⊢
  omega

/-- A draft tree is built from the rows of its levels. -/
theorem sampleLevels_congr {logitsAt logitsAt' : ℕ → List ℚ} (off : ℕ) (levels : List ℕ) (d : ℕ)
    (s : List Int32 × ℕ) (h : ∀ i, d ≤ i → i < d + levels.length →
      logitsAt (off + i) = logitsAt' (off + i)) :
    ssd.sampleLevels logitsAt off levels d s = ssd.sampleLevels logitsAt' off levels d s := by
  induction levels generalizing d s with
  | nil => rfl
  | cons n levels ih =>
    unfold sampleLevels
    rw [h d le_rfl (by simp)]
    exact ih _ _ fun i hi hlt => h i (by omega) (by simp only [List.length_cons]; omega)

/-- The rows accepted so far stay accepted. -/
theorem mem_verifyFrom {eos : Int32 → Bool} {answer : ℕ → Int32} {tree : List Int32}
    (rest : List ℕ) (tokens : List Int32) (ids : List ℕ) {i : ℕ} (hi : i ∈ ids) :
    i ∈ (ssd.verifyFrom eos answer tree rest tokens ids).2 := by
  induction rest generalizing tokens ids with
  | nil => exact hi
  | cons j rest ih =>
    unfold verifyFrom
    split_ifs
    · exact List.mem_append_left _ hi
    · exact ih _ _ (List.mem_append_left _ hi)
    · exact ih _ _ hi

/-- A path is verified from the rows that it accepts. -/
theorem verifyFrom_congr {eos : Int32 → Bool} {answer answer' : ℕ → Int32} {tree : List Int32}
    (rest : List ℕ) (tokens : List Int32) (ids : List ℕ)
    (h : ∀ i ∈ (ssd.verifyFrom eos answer tree rest tokens ids).2, answer i = answer' i) :
    ssd.verifyFrom eos answer' tree rest tokens ids =
      ssd.verifyFrom eos answer tree rest tokens ids := by
  induction rest generalizing tokens ids with
  | nil => rfl
  | cons i rest ih =>
    by_cases hnext : ssd.parent i = ids.getLast? ∧ tree.getD i 0 = tokens.getLastD 0
    · have hi : answer i = answer' i := by
        refine h i ?_
        unfold verifyFrom
        rw [if_pos hnext]
        split_ifs
        · simp
        · exact mem_verifyFrom _ _ _ (by simp)
      unfold verifyFrom at h ⊢
      rw [if_pos hnext] at h
      rw [if_pos hnext, if_pos hnext, ← hi]
      split_ifs at h ⊢ with heos
      · rfl
      · exact ih _ _ h
    · unfold verifyFrom at h ⊢
      rw [if_neg hnext] at h
      rw [if_neg hnext, if_neg hnext]
      exact ih _ _ h

/-- The rows that `buildSampleTree` reads. -/
theorem buildSampleTree_congr {logitsAt logitsAt' : ℕ → List ℚ} (lastToken : Int32) (off : ℕ)
    (h : ∀ d < ssd.draftLevels, logitsAt (off + d) = logitsAt' (off + d)) :
    ssd.buildSampleTree logitsAt lastToken off = ssd.buildSampleTree logitsAt' lastToken off := by
  have hlen : ssd.levels.2.length = ssd.draftLevels := by
    rw [levels_eq]
    simp [draftLevels]
  unfold buildSampleTree
  rw [sampleLevels_congr off ssd.levels.2 0 _ fun i _ hi => h i (by omega)]

/-- The rows that `verifyDraftTree` reads. -/
theorem verifyDraftTree_congr {eos : Int32 → Bool} {answer answer' : ℕ → Int32}
    {tree : List Int32} (h : ∀ i ∈ (ssd.verifyDraftTree eos answer tree).2, answer i = answer' i) :
    ssd.verifyDraftTree eos answer' tree = ssd.verifyDraftTree eos answer tree := by
  have h0 : answer 0 = answer' 0 := by
    refine h 0 ?_
    unfold verifyDraftTree
    split_ifs
    · exact List.mem_singleton_self 0
    · exact mem_verifyFrom _ _ _ (List.mem_singleton_self 0)
  unfold verifyDraftTree at h ⊢
  rw [← h0]
  split_ifs at h ⊢ with heos
  · rfl
  · exact verifyFrom_congr _ _ _ h

end SSDConfig

/-! ## The passes of a tree-decoding call -/

theorem LastPass.still {phase : Phase} {tokens : List Int32} (h : LastPass spec w₀ phase tokens w)
    (ha : w'.activeClIdx = w.activeClIdx)
    (ht : ∃ es, (∀ x, Event.exec x ∉ es) ∧ w'.trace = es ++ w.trace) :
    LastPass spec w₀ phase tokens w' :=
  h.imp fun _ hn => hn.still ha ht

theorem LastPass.log {phase : Phase} {tokens : List Int32} (h : LastPass spec w₀ phase tokens w)
    {e : Event Int32 I} (he : ∀ x, e ≠ .exec x) : LastPass spec w₀ phase tokens (w.log e) :=
  h.imp fun _ hn => hn.log he

namespace SSDConfig

variable (spec env) in
theorem runShard_newest (a : ℕ) (ctx : RunContext Int32) (mask : ℕ → ℤ) (positions : List Int32)
    (msg : String) (s : ℕ) :
    Triple (After w₀ a) (runShard spec env ctx.phase a ctx mask positions msg s)
      (fun _ w => Newest w₀ ctx s w ∧ w.activeClIdx = a) (fun _ _ => True) :=
  Triple.bind (writeCosSin_keeps fun _ _ => trivial) fun _ =>
    Triple.get fun _ hw₁ => (After.execGraph s _ _).pre fun _ hw => hw ▸ hw₁

/-- A prefill chunk ends with the last shard. -/
theorem prefillChunk_lastPass (chunk : List Int32) :
    Triple (fun w => w₀.trace <:+ w.trace) (ssd.prefillChunk spec env chunk)
      (fun _ => LastPass spec w₀ .prefill chunk) (fun _ _ => True) := by
  refine Triple.get fun w₁ hw₁ => Triple.bind (R := fun _ => After w₀ w₁.activeClIdx)
    (Triple.modify fun w hw => ?_) fun _ => ?_
  · subst hw
    exact ⟨hw₁.trans (List.suffix_cons _ _), rfl⟩
  set ctx : RunContext Int32 := ⟨chunk, w₁.nPast, chunk.length, .prefill⟩ with hctx
  refine Triple.bind (After.shards fun s =>
    Triple.bind (runShard_newest spec env _ ctx _ _ _ s) fun _ =>
    Triple.bind (R := fun _ w => Newest w₀ ctx s w ∧ w.activeClIdx = w₁.activeClIdx)
      (Triple.modify fun w hw => ⟨hw.1.updateKV _ _ _ _, by simp [hw.2]⟩) fun _ =>
    Triple.when (fun _ => Triple.modify fun w hw => ⟨hw.1.plain rfl rfl, hw.2⟩) fun _ _ hw => hw)
    fun _ => Triple.modify fun w hw => ⟨w₁.nPast, hw.1.plain rfl rfl⟩

/-- A prefill of a prompt that is not empty ends with the last shard on its last chunk. -/
theorem prefillLoop_lastPass (fuel : ℕ) (tokens : List Int32) (last : ℕ) (hne : tokens ≠ [])
    (hfuel : tokens.length ≤ fuel) :
    Triple (fun w => w₀.trace <:+ w.trace) (ssd.prefillLoop spec env fuel tokens last)
      (fun n w => ∃ chunk, LastPass spec w₀ .prefill chunk w ∧ n = chunk.length ∧ chunk ≠ [] ∧
        chunk.length ≤ spec.seqLenPrefill) (fun _ _ => True) := by
  have hpos : 0 < spec.seqLenPrefill := spec.seqLen_pos .prefill
  induction fuel generalizing tokens last with
  | zero => exact absurd (List.length_eq_zero_iff.mp (Nat.le_zero.mp hfuel)) hne
  | succ fuel ih =>
    have hlen : 0 < tokens.length := List.length_pos_of_ne_nil hne
    refine Triple.ite (fun h => absurd h hne) fun _ => Triple.bind (prefillChunk_lastPass _) fun _ => ?_
    by_cases hfinal : tokens.length ≤ spec.seqLenPrefill
    · rw [List.drop_of_length_le hfinal, List.take_of_length_le hfinal]
      have hrest : ssd.prefillLoop spec env fuel [] tokens.length = pure tokens.length := by
        cases fuel <;> rfl
      rw [hrest]
      exact Triple.pure fun w hw => ⟨tokens, hw, rfl, hne, hfinal⟩
    · refine (ih _ _ (List.ne_nil_of_length_pos ?_) ?_).pre fun w ⟨n, hn⟩ => hn.after <;>
        rw [List.length_drop] <;> omega

/-- A shard with cos/sin inputs runs if the rows of the pass fit them. -/
theorem runShard_fits {c : Prop} {phase : Phase} (a : ℕ) (ctx : RunContext Int32) (mask : ℕ → ℤ)
    (positions : List Int32) (msg : String) (s : ℕ) :
    Triple (fun _ => c) (runShard spec env phase a ctx mask positions msg s)
      (fun _ _ => c ∧ (spec.hasCosSin s = true → ctx.currLen ≤ spec.seqLen phase))
      (fun _ _ => True) := by
  refine Triple.bind
    (R := fun _ _ => c ∧ (spec.hasCosSin s = true → ctx.currLen ≤ spec.seqLen phase))
    (Triple.when (fun _ => Triple.throw fun _ _ => trivial) fun h _ hc => ⟨hc, fun hcos => ?_⟩)
    fun _ => Triple.get fun _ hw₁ => Triple.fact.pre fun _ _ => hw₁
  exact not_lt.mp fun hlt => h ⟨hcos, hlt⟩

/-- A tree pass that completes has fitted the cos/sin inputs of every shard. -/
theorem treePass_fits {tokens : List Int32} {kvPrefixOffset : ℕ}
    (hrun : ssd.runShardsWithTreeMask spec env tokens kvPrefixOffset w = (.ok (), w')) {s : ℕ}
    (hs : s < spec.shardCount) (hcos : spec.hasCosSin s = true) :
    tokens.length ≤ spec.seqLenDecode := by
  have hpass : Triple (fun _ => True) (ssd.runShardsWithTreeMask spec env tokens kvPrefixOffset)
      (fun _ _ => ∀ s < spec.shardCount, spec.hasCosSin s = true →
        tokens.length ≤ spec.seqLen .decode) (fun _ _ => True) := by
    refine Triple.get fun w₁ _ => Triple.bind
      (R := fun _ _ => ∀ s < 0, spec.hasCosSin s = true → tokens.length ≤ spec.seqLen .decode)
      (Triple.modify fun _ _ s hs => absurd hs (Nat.not_lt_zero s)) fun _ =>
      Triple.forRange (I := fun k _ => ∀ s < k, spec.hasCosSin s = true →
        tokens.length ≤ spec.seqLen .decode) fun j _ => ?_
    refine Triple.bind (runShard_fits _ _ _ _ _ j) fun _ =>
      Triple.fact.post fun _ _ h s hs hcos => ?_
    rcases Nat.lt_succ_iff_lt_or_eq.mp hs with hlt | rfl
    · exact h.1 s hlt hcos
    · exact h.2 hcos
  exact hpass.ok trivial hrun s hs hcos

/-- A tree pass ends with the last shard. -/
theorem treePass_lastPass (tokens : List Int32) (kvPrefixOffset : ℕ) :
    Triple (fun w => w₀.trace <:+ w.trace)
      (ssd.runShardsWithTreeMask spec env tokens kvPrefixOffset)
      (fun _ => LastPass spec w₀ .decode tokens) (fun _ _ => True) := by
  refine Triple.get fun w₁ hw₁ => Triple.bind (R := fun _ => After w₀ w₁.activeClIdx)
    (Triple.modify fun w hw => ?_) fun _ => ?_
  · subst hw
    exact ⟨hw₁.trans (List.suffix_cons _ _), rfl⟩
  set ctx : RunContext Int32 := ⟨tokens, w₁.nPast, tokens.length, .decode⟩ with hctx
  have hshard : ∀ mask positions s, Triple (After w₀ w₁.activeClIdx)
      (treeShard spec env w₁.activeClIdx ctx mask positions s)
      (fun _ w => Newest w₀ ctx s w ∧ w.activeClIdx = w₁.activeClIdx) (fun _ _ => True) :=
    fun mask positions s => Triple.bind (runShard_newest spec env _ ctx _ _ _ s) fun _ =>
      Triple.when (fun _ => Triple.modify fun w hw => ⟨hw.1.plain rfl rfl, hw.2⟩) fun _ _ hw => hw
  exact (After.shards fun s => hshard _ _ s).post fun _ w hw => ⟨w₁.nPast, hw.1⟩

theorem initialStep_lastPass (first : Int32) :
    Triple (fun w => w₀.trace <:+ w.trace) (ssd.initialStep spec env first)
      (fun _ => LastPass spec w₀ .decode (initialTokens spec ssd first)) (fun _ _ => True) := by
  refine Triple.bind (treePass_lastPass _ 1) fun _ => Triple.bind
    (R := fun _ => LastPass spec w₀ .decode (initialTokens spec ssd first))
    (Triple.modify fun w hw => ?_) fun _ => Triple.modify fun w hw => hw.still rfl ⟨[], by simp, rfl⟩
  induction spec.shardCount with
  | zero => exact hw
  | succ n ih =>
    obtain ⟨m, hm⟩ := ih
    exact ⟨m, hm.updateKV n .decode _ 1⟩

theorem selectiveKVUpdate_lastPass {phase : Phase} {tokens : List Int32} (selected : List Bool)
    (h : LastPass spec w₀ phase tokens w) :
    LastPass spec w₀ phase tokens (selectiveKVUpdate spec selected w) :=
  h.still rfl ⟨_, by simp, rfl⟩

theorem treeStep_lastPass (tree : List Int32) :
    Triple (fun w => w₀.trace <:+ w.trace) (ssd.treeStep spec env tree)
      (fun accepted w => Walk ssd.numDraftNodes accepted ∧
        LastPass spec w₀ .decode (stepTokens spec ssd tree) w) (fun _ _ => True) := by
  refine Triple.bind (treePass_lastPass _ _) fun _ => Triple.get fun w₁ hw₁ => ?_
  refine Triple.bind (R := fun _ => LastPass spec w₀ .decode (stepTokens spec ssd tree))
    (Triple.modify fun w hw => ?_) fun _ =>
    Triple.bind (R := fun _ => LastPass spec w₀ .decode (stepTokens spec ssd tree))
      (Triple.modify fun w hw => selectiveKVUpdate_lastPass _ hw) fun _ =>
    Triple.bind (R := fun _ => LastPass spec w₀ .decode (stepTokens spec ssd tree))
      (Triple.modify fun w hw => hw.still rfl ⟨[], by simp, rfl⟩) fun _ =>
    Triple.pure fun w hw => ⟨verifyDraftTree_walk, hw⟩
  subst hw
  exact hw₁.log (by simp)

theorem speak_lastPass {phase : Phase} {tokens : List Int32}
    (callback : List Int32 → CallbackAnswer) (path out : List Int32) :
    Stable (LastPass spec w₀ phase tokens : World Int32 ρ I → Prop)
      (speak spec callback path out) :=
  speak_kept (fun _ _ hw => hw.log (by simp)) (fun _ _ hw => hw.log (by simp)) (fun _ hw => hw)
    callback path out

end SSDConfig

/-! ## The past above the forecast prefix -/

/-- `n_past` is no less than `k`, now and at every pass since `w₀`. -/
structure AbovePrefix (k : ℕ) (w₀ w : World Int32 ρ I) : Prop where
  nPast : k ≤ w.nPast
  passes : Since w₀ (fun es => ∀ x, Event.exec x ∈ es → k ≤ x.ctx.nPast) w

namespace AbovePrefix

variable {k : ℕ}

theorem still (h : AbovePrefix k w₀ w) (hn : w.nPast ≤ w'.nPast)
    (ht : ∃ es, (∀ x, Event.exec x ∉ es) ∧ w'.trace = es ++ w.trace) : AbovePrefix k w₀ w' := by
  obtain ⟨es, hno, ht⟩ := ht
  obtain ⟨es₀, ht₀, hes₀⟩ := h.passes
  refine ⟨h.nPast.trans hn, es ++ es₀, by rw [ht, ht₀, List.append_assoc], fun x hx => ?_⟩
  exact hes₀ x ((List.mem_append.mp hx).resolve_left (hno x))

theorem log (h : AbovePrefix k w₀ w) {e : Event Int32 I} (he : ∀ x, e ≠ .exec x) :
    AbovePrefix k w₀ (w.log e) :=
  h.still le_rfl ⟨[e], fun x hx => he x (List.mem_singleton.mp hx).symm, rfl⟩

theorem plain (h : AbovePrefix k w₀ w) (hn : w.nPast ≤ w'.nPast) (ht : w'.trace = w.trace) :
    AbovePrefix k w₀ w' :=
  h.still hn ⟨[], by simp, ht⟩

theorem updateKV (h : AbovePrefix k w₀ w) (s : ℕ) (phase : Phase) (off n : ℕ) :
    AbovePrefix k w₀ (updateKV spec s phase off n w) := by
  obtain ⟨es, ht, hes⟩ := updateKV_trace spec s phase off n w
  refine h.still (by simp) ⟨es, fun x hx => ?_, ht⟩
  cases hes _ hx

theorem runShard (phase : Phase) (clIdx : ℕ) {ctx : RunContext Int32} (mask : ℕ → ℤ)
    (positions : List Int32) (msg : String) (s : ℕ) (hctx : k ≤ ctx.nPast) :
    Stable (AbovePrefix k w₀) (SSDConfig.runShard spec env phase clIdx ctx mask positions msg s) := by
  refine Stable.bind (SSDConfig.writeCosSin_keeps fun _ h => h) fun _ => Stable.get fun w₁ w h => ?_
  have hlog : ∀ input produced, AbovePrefix k w₀
      (w.log (.exec ⟨phase, s, clIdx, ctx, input, produced⟩)) := by
    refine fun input produced => ⟨h.nPast, h.passes.log fun es hes x hx => ?_⟩
    rcases List.mem_cons.mp hx with heq | hx
    · cases heq
      exact hctx
    · exact hes x hx
  unfold execGraph
  dsimp only
  cases env.exec w.tick _ _ with
  | none => exact (hlog _ _).plain le_rfl rfl
  | some out => exact (hlog _ _).plain le_rfl rfl

theorem prefillShard (clIdx : ℕ) {ctx : RunContext Int32} (mask : ℕ → ℤ) (positions : List Int32)
    (s : ℕ) (hctx : k ≤ ctx.nPast) :
    Stable (AbovePrefix k w₀) (SSDConfig.prefillShard spec env clIdx ctx mask positions s) :=
  Stable.bind (runShard _ _ _ _ _ s hctx) fun _ =>
    Stable.bind (Stable.modify fun _ hw => hw.updateKV _ _ _ _) fun _ =>
    Stable.when fun _ => Stable.modify fun _ hw => hw.plain le_rfl rfl

theorem prefillLoop (fuel : ℕ) (tokens : List Int32) (last : ℕ) :
    Stable (AbovePrefix k w₀) (ssd.prefillLoop spec env fuel tokens last) := by
  induction fuel generalizing tokens last with
  | zero => exact Stable.pure _
  | succ fuel ih =>
    refine Stable.ite (fun _ => Stable.pure _) fun _ => Stable.bind ?_ fun _ => ih _ _
    refine Triple.get fun w₁ hw₁ => Triple.pre ?_ fun w hw => (hw ▸ hw₁ : AbovePrefix k w₀ w)
    exact Stable.bind (Stable.modify fun w hw => hw.log (by simp)) fun _ =>
      Stable.bind (Stable.forRange (fun s => prefillShard _ _ _ s hw₁.nPast) _) fun _ =>
      Stable.modify fun w hw => hw.plain (Nat.le_add_right _ _) rfl

theorem treeShard (clIdx : ℕ) {ctx : RunContext Int32} (mask : ℕ → ℤ) (positions : List Int32)
    (s : ℕ) (hctx : k ≤ ctx.nPast) :
    Stable (AbovePrefix k w₀) (SSDConfig.treeShard spec env clIdx ctx mask positions s) :=
  Stable.bind (runShard _ _ _ _ _ s hctx) fun _ =>
    Stable.when fun _ => Stable.modify fun _ hw => hw.plain le_rfl rfl

theorem treePass (tokens : List Int32) (kvPrefixOffset : ℕ) :
    Stable (AbovePrefix k w₀) (ssd.runShardsWithTreeMask spec env tokens kvPrefixOffset) := by
  refine Triple.get fun w₁ hw₁ => Triple.pre ?_ fun w hw => (hw ▸ hw₁ : AbovePrefix k w₀ w)
  exact Stable.bind (Stable.modify fun w hw => hw.log (by simp)) fun _ =>
    Stable.forRange (fun s => treeShard _ _ _ s hw₁.nPast) _

theorem sampleNextToken (phase : Phase) (off : ℕ) :
    Stable (AbovePrefix k w₀ : World Int32 ρ I → Prop) (sampleNextToken spec env phase off) := by
  refine Stable.get fun w₁ => ?_
  cases w₁.sampler with
  | none =>
    exact Stable.bind (Stable.modify fun w hw => hw.log (by simp)) fun _ => Stable.pure _
  | some s =>
    exact Stable.bind (Stable.modify fun w hw => hw.still le_rfl ⟨_, by simp, rfl⟩) fun _ =>
      Stable.bind (Stable.modify fun w hw => hw.log (by simp)) fun _ => Stable.pure _

theorem initialStep (first : Int32) : Stable (AbovePrefix k w₀) (ssd.initialStep spec env first) := by
  refine Stable.bind (treePass _ _) fun _ => Stable.bind (Stable.modify fun w hw => ?_) fun _ =>
    Stable.modify fun w hw => hw.plain (Nat.le_succ _) rfl
  induction spec.shardCount with
  | zero => exact hw
  | succ n ih => exact ih.updateKV _ _ _ _

theorem speak (callback : List Int32 → CallbackAnswer) (path out : List Int32) :
    Stable (AbovePrefix k w₀ : World Int32 ρ I → Prop)
      (SSDConfig.speak spec callback path out) :=
  SSDConfig.speak_kept (fun _ _ hw => hw.log (by simp)) (fun _ _ hw => hw.log (by simp))
    (fun _ hw => hw) callback path out

theorem treeStep (tree : List Int32) :
    Stable (AbovePrefix k w₀) (ssd.treeStep spec env tree) :=
  Stable.bind (treePass _ _) fun _ => Stable.get fun w₁ =>
    Stable.bind (Stable.modify fun w hw => hw.log (by simp)) fun _ =>
    Stable.bind (Stable.modify fun w hw => hw.still le_rfl ⟨_, by simp, rfl⟩) fun _ =>
    Stable.bind (Stable.modify fun w hw => hw.plain (Nat.le_add_right _ _) rfl) fun _ =>
    Stable.pure _

theorem decodeLoop (maxTokens : Int32) (callback : List Int32 → CallbackAnswer) (n : ℕ)
    (tree out : List Int32) :
    Stable (AbovePrefix k w₀) (ssd.decodeLoop spec env maxTokens callback n tree out) := by
  induction n generalizing tree out with
  | zero => exact Stable.pure _
  | succ n ih =>
    exact Stable.get fun w₁ => Stable.ite (fun _ => Stable.pure _) fun _ =>
      Stable.bind (treeStep tree) fun accepted => Stable.bind (speak _ accepted.1 out) fun said =>
      Stable.ite (fun _ => Stable.pure _) fun _ => Stable.get fun w₂ => ih _ _

theorem prefillStage (prompt : List Int32) :
    Stable (AbovePrefix k w₀) (ssd.prefillStage spec env prompt) :=
  Stable.get fun _ => Stable.bind (Stable.modify fun w hw => hw.log (by simp)) fun _ =>
    Stable.bind (prefillLoop _ _ _) fun _ =>
    Stable.bind (Stable.modify fun w hw => hw.plain le_rfl rfl) fun _ => sampleNextToken _ _

/-- A call that starts above `k` stays there. -/
theorem generate (prompt : List Int32) (cfg : GenerationConfig)
    (callback : List Int32 → CallbackAnswer) :
    Stable (AbovePrefix k w₀) (ssd.generate spec env prompt cfg callback) := by
  refine Stable.bind (Stable.bind (prefillStage prompt) fun first => Stable.ite
    (fun _ => Stable.pure _) fun _ => Stable.bind (Stable.modify fun w hw => hw.log (by simp))
    fun _ => ?_) fun _ => Stable.bind (Stable.modify fun w hw => hw.plain le_rfl rfl) fun _ =>
    Stable.pure _
  cases callback [first] with
  | stop => exact Stable.pure _
  | throw => exact Stable.throw _
  | «continue» =>
    exact Stable.bind (initialStep first) fun _ => Stable.get fun _ => decodeLoop _ _ _ _ _

end AbovePrefix

/-- The past of an instance is above the prefix, unless a counter of the run has passed a `size_t`:
only a loaded file could then set it lower. -/
theorem SSDReachable.prefix_le (h : SSDReachable spec ssd env w) :
    ssd.forecastPrefix ≤ w.nPast ∨ ∃ v, SSDReachable spec ssd env v ∧ 2 ^ 64 ≤ v.nPast := by
  induction h with
  | init => exact Or.inl le_rfl
  | @generate w w' r prompt cfg callback h hrun ih =>
    refine ih.imp (fun hle => ?_) id
    have hend : AbovePrefix ssd.forecastPrefix w (ssd.generate spec env prompt cfg callback w).2 :=
      (AbovePrefix.generate prompt cfg callback).snd ⟨hle, Since.start (by simp)⟩
    rw [hrun] at hend
    exact hend.nPast
  | reset => exact Or.inl le_rfl
  | @load w v h hv ih ihv =>
    by_cases hlt : v.nPast < 2 ^ 64
    · exact ihv.imp (fun hle => by rwa [loaded_nPast hlt]) id
    · exact Or.inr ⟨v, hv, not_lt.mp hlt⟩

/-! ## The rows that a call reads -/

variable (spec env ssd) in
/-- `SSDConfig.prefillStage` up to its sampling, with the size of the last chunk. -/
def SSDConfig.prefillPrompt (prompt : List Int32) : Run Int32 ρ I ℕ := do
  let w ← Prog.get
  Prog.modify (World.log (.enter w.nPast prompt.length))
  let last ← ssd.prefillLoop spec env prompt.length prompt 0
  Prog.modify fun w => restrideActive spec .prefill .decode w.nPast w
  pure last

theorem SSDConfig.prefillStage_eq (prompt : List Int32) :
    ssd.prefillStage spec env prompt = ssd.prefillPrompt spec env prompt >>= fun last =>
      sampleNextToken spec env .prefill (lastRow last) := by
  unfold SSDConfig.prefillPrompt
  simp only [Prog.bind_assoc', Prog.pure_bind']
  rfl

/-- A tree-decoding call that starts in `w₀` reads row `row` of the logits of a phase in `w`: the
last row of the prompt, the forecast rows of the first token, the rows of an accepted path, and the
forecast rows of its last node. -/
inductive SSDLogitsRead (spec : LLMSpec) (env : Env Int32 ρ I) (ssd : SSDConfig)
    (prompt : List Int32) (cfg : GenerationConfig) (callback : List Int32 → CallbackAnswer)
    (w₀ : World Int32 ρ I) : World Int32 ρ I → Phase → ℕ → Prop
  | prefill {last : ℕ} {w : World Int32 ρ I}
      (h : ssd.prefillPrompt spec env prompt w₀ = (.ok last, w)) :
      SSDLogitsRead spec env ssd prompt cfg callback w₀ w .prefill (lastRow last)
  | initial {w₁ w₂ : World Int32 ρ I} {first : Int32} {d : ℕ}
      (hprefill : ssd.prefillStage spec env prompt w₀ = (.ok first, w₁))
      (heos : isEos spec first = false) (hanswer : callback [first] = .continue)
      (hinit : ssd.initialStep spec env first (w₁.log (.emitted first)) = (.ok (), w₂))
      (hd : d < ssd.draftLevels) :
      SSDLogitsRead spec env ssd prompt cfg callback w₀ w₂ .decode (1 + d)
  | verify {w w₁ : World Int32 ρ I} {tree said : List Int32} {n i : ℕ}
      (h : LoopHead spec env ssd prompt cfg callback w₀ w tree said (n + 1))
      (hroom : w.nPast + SSDConfig.totalSsdTokens ssd spec ≤ spec.cl w.activeClIdx)
      (hpass : ssd.runShardsWithTreeMask spec env (stepTokens spec ssd tree) ssd.numDraftNodes w =
        (.ok (), w₁))
      (hi : i ∈ (ssd.verifyDraftTree (isEos spec) (SSDConfig.answerAt spec w₁) tree).2) :
      SSDLogitsRead spec env ssd prompt cfg callback w₀ w₁ .decode i
  | next {w w₁ w₂ : World Int32 ρ I} {tree said said' : List Int32} {n d : ℕ}
      {accepted : List Int32 × List ℕ}
      (h : LoopHead spec env ssd prompt cfg callback w₀ w tree said (n + 1))
      (hroom : w.nPast + SSDConfig.totalSsdTokens ssd spec ≤ spec.cl w.activeClIdx)
      (hstep : ssd.treeStep spec env tree w = (.ok accepted, w₁))
      (hspeak : SSDConfig.speak spec callback accepted.1 said w₁ = (.ok (said', false), w₂))
      (hlimit : ¬cfg.maxTokens ≤ Int32.ofNat said'.length) (hd : d < ssd.draftLevels) :
      SSDLogitsRead spec env ssd prompt cfg callback w₀ w₂ .decode
        (ssd.numDraftNodes + accepted.2.getLastD 0 * ssd.draftLevels + d)

section Complete

variable {prompt : List Int32} {cfg : GenerationConfig} {callback : List Int32 → CallbackAnswer}
  {w₁ w₂ : World Int32 ρ I} {logitsAt : ℕ → List ℚ}

/-- The first draft tree is built from the rows read after the initial pass. -/
theorem SSDLogitsRead.firstTree {first : Int32}
    (hprefill : ssd.prefillStage spec env prompt w₀ = (.ok first, w₁))
    (heos : isEos spec first = false) (hanswer : callback [first] = .continue)
    (hinit : ssd.initialStep spec env first (w₁.log (.emitted first)) = (.ok (), w₂))
    (h : ∀ row, SSDLogitsRead spec env ssd prompt cfg callback w₀ w₂ .decode row →
      logitsAt row = SSDConfig.readLogitsAt spec w₂ row) :
    ssd.buildSampleTree logitsAt first 1 =
      ssd.buildSampleTree (SSDConfig.readLogitsAt spec w₂) first 1 :=
  SSDConfig.buildSampleTree_congr _ _ fun _ hd => h _ (.initial hprefill heos hanswer hinit hd)

/-- A path is accepted from the rows read after a tree pass. -/
theorem SSDLogitsRead.accepted {tree said : List Int32} {n : ℕ}
    (hhead : LoopHead spec env ssd prompt cfg callback w₀ w tree said (n + 1))
    (hroom : w.nPast + SSDConfig.totalSsdTokens ssd spec ≤ spec.cl w.activeClIdx)
    (hpass : ssd.runShardsWithTreeMask spec env (stepTokens spec ssd tree) ssd.numDraftNodes w =
      (.ok (), w₁))
    (h : ∀ row, SSDLogitsRead spec env ssd prompt cfg callback w₀ w₁ .decode row →
      logitsAt row = SSDConfig.readLogitsAt spec w₁ row) :
    ssd.verifyDraftTree (isEos spec) (fun i => Int32.ofNat (argmax (logitsAt i))) tree =
      ssd.verifyDraftTree (isEos spec) (SSDConfig.answerAt spec w₁) tree := by
  refine SSDConfig.verifyDraftTree_congr fun i hi => ?_
  rw [h i (.verify hhead hroom hpass hi), SSDConfig.answerAt]

/-- The next draft tree is built from the rows read for the last accepted node. -/
theorem SSDLogitsRead.nextTree {tree said said' : List Int32} {n : ℕ}
    {accepted : List Int32 × List ℕ}
    (hhead : LoopHead spec env ssd prompt cfg callback w₀ w tree said (n + 1))
    (hroom : w.nPast + SSDConfig.totalSsdTokens ssd spec ≤ spec.cl w.activeClIdx)
    (hstep : ssd.treeStep spec env tree w = (.ok accepted, w₁))
    (hspeak : SSDConfig.speak spec callback accepted.1 said w₁ = (.ok (said', false), w₂))
    (hlimit : ¬cfg.maxTokens ≤ Int32.ofNat said'.length)
    (h : ∀ row, SSDLogitsRead spec env ssd prompt cfg callback w₀ w₂ .decode row →
      logitsAt row = SSDConfig.readLogitsAt spec w₂ row) :
    ssd.buildSampleTree logitsAt (accepted.1.getLastD 0)
        (ssd.numDraftNodes + accepted.2.getLastD 0 * ssd.draftLevels) =
      SSDConfig.nextTree ssd spec accepted w₂ :=
  SSDConfig.buildSampleTree_congr _ _ fun _ hd =>
    h _ (.next hhead hroom hstep hspeak hlimit hd)

end Complete

/-- A decode pass that a tree-decoding call begins in `w`, with its tokens: of the first token and
its forecast tokens, or of a draft tree and its own. -/
inductive DecodePass (spec : LLMSpec) (env : Env Int32 ρ I) (ssd : SSDConfig)
    (prompt : List Int32) (cfg : GenerationConfig) (callback : List Int32 → CallbackAnswer)
    (w₀ : World Int32 ρ I) : World Int32 ρ I → List Int32 → Prop
  | initial {w₁ : World Int32 ρ I} {first : Int32}
      (hprefill : ssd.prefillStage spec env prompt w₀ = (.ok first, w₁))
      (heos : isEos spec first = false) (hanswer : callback [first] = .continue) :
      DecodePass spec env ssd prompt cfg callback w₀ (w₁.log (.emitted first))
        (initialTokens spec ssd first)
  | tree {w : World Int32 ρ I} {tree said : List Int32} {n : ℕ}
      (h : LoopHead spec env ssd prompt cfg callback w₀ w tree said (n + 1))
      (hroom : w.nPast + SSDConfig.totalSsdTokens ssd spec ≤ spec.cl w.activeClIdx) :
      DecodePass spec env ssd prompt cfg callback w₀ w (stepTokens spec ssd tree)

/-- The decode graph has a row for each token of a pass; or it has cos/sin inputs, whose write
throws if it has none. -/
def PassFits (spec : LLMSpec) (tokens : List Int32) : Prop :=
  tokens.length ≤ spec.seqLenDecode ∨ ∃ s < spec.shardCount, spec.hasCosSin s = true

/-- Every row of the logits that a tree-decoding call reads is computed, and its positions, relative
to the forecast prefix, are no less than zero. -/
structure SSDReadsComputed (spec : LLMSpec) (env : Env Int32 ρ I) (ssd : SSDConfig)
    (prompt : List Int32) (cfg : GenerationConfig) (callback : List Int32 → CallbackAnswer)
    (w₀ : World Int32 ρ I) : Prop where
  rows : ∀ w phase row, SSDLogitsRead spec env ssd prompt cfg callback w₀ w phase row →
    RowComputed spec w₀ w phase row
  past : AbovePrefix ssd.forecastPrefix w₀ (ssd.generate spec env prompt cfg callback w₀).2

/-- A call of `VLMModel::generate` divides by no zero, and every row of the logits that it reads is
computed. -/
structure VLMReadsComputed {τ R : Type} [Token τ] (spec : LLMSpec) (s : VLMSettings)
    (env : VLMEnv τ R) (prompt : List τ) (input : VLMInput) (cfg : GenerationConfig)
    (callback : List Int32 → CallbackAnswer) (w₀ : World τ (VLMState R) (VLMInputs R)) :
    Prop where
  division : (vlmGenerate spec s env prompt input cfg callback w₀).1 ≠ .error .divisionByZero
  reads : ∀ w, prepareInputs s env prompt input w₀ = (.ok (), w) →
    ReadsComputed spec env.toEnv prompt cfg callback w

section Calls

variable {prompt : List Int32} {cfg : GenerationConfig} {callback : List Int32 → CallbackAnswer}

/-- After the prefill of a prompt that is not empty the last row of its last chunk is computed. -/
theorem SSDConfig.prefillPrompt_row (hne : prompt ≠ []) {last : ℕ}
    (hrun : ssd.prefillPrompt spec env prompt w₀ = (.ok last, w)) :
    RowComputed spec w₀ w .prefill (lastRow last) := by
  have hpass : Triple (fun w => w = w₀) (ssd.prefillPrompt spec env prompt)
      (fun last w => ∃ chunk, LastPass spec w₀ .prefill chunk w ∧ last = chunk.length ∧
        chunk ≠ [] ∧ chunk.length ≤ spec.seqLenPrefill) (fun _ _ => True) := by
    refine Triple.get fun w₁ hw₁ => Triple.bind (R := fun _ w => w₀.trace <:+ w.trace)
      (Triple.modify fun w hw => ?_) fun _ => ?_
    · subst hw hw₁
      exact List.suffix_cons _ _
    refine Triple.bind (SSDConfig.prefillLoop_lastPass _ prompt 0 hne le_rfl) fun last => ?_
    refine Triple.bind (R := fun _ w => ∃ chunk, LastPass spec w₀ .prefill chunk w ∧
      last = chunk.length ∧ chunk ≠ [] ∧ chunk.length ≤ spec.seqLenPrefill)
      (Triple.modify fun w hw => ?_) fun _ => Triple.pure fun _ hw => hw
    obtain ⟨chunk, hlast, hrest⟩ := hw
    exact ⟨chunk, hlast.still rfl ⟨[], by simp, rfl⟩, hrest⟩
  obtain ⟨chunk, hlast, rfl, hchunk, hle⟩ := hpass.ok rfl hrun
  have hlt := seqLen_lt spec .prefill
  have hpos := List.length_pos_of_ne_nil hchunk
  rw [lastRow_of_pos hpos (hle.trans_lt hlt)]
  exact ⟨lt_of_lt_of_le (by omega) hle, chunk, hlast, by omega⟩

/-- Every head of the loop has a draft tree with a token for each node at least. -/
theorem LoopHead.tree_length {tree said : List Int32} {n : ℕ}
    (h : LoopHead spec env ssd prompt cfg callback w₀ w tree said n) :
    ssd.numDraftNodes ≤ tree.length := by
  cases h with
  | first => exact SSDConfig.numDraftNodes_le_buildSampleTree _ _ _
  | next => exact SSDConfig.numDraftNodes_le_buildSampleTree _ _ _

theorem LoopHead.tree_length_eq {tree said : List Int32} {n : ℕ}
    (h : LoopHead spec env ssd prompt cfg callback w₀ w tree said n)
    (hpos : ∀ b ∈ ssd.branches, 0 < b) : tree.length = ssd.numDraftNodes := by
  cases h with
  | first => exact SSDConfig.buildSampleTree_length hpos _ _ _
  | next => exact SSDConfig.buildSampleTree_length hpos _ _ _

/-- The log has grown at every head of the loop. -/
theorem LoopHead.above {tree said : List Int32} {n : ℕ}
    (h : LoopHead spec env ssd prompt cfg callback w₀ w tree said n) : AbovePrefix 0 w₀ w := by
  have hstart : AbovePrefix 0 w₀ w₀ := ⟨Nat.zero_le _, Since.start (by simp)⟩
  induction h with
  | first hprefill heos hanswer hinit =>
    have h₁ := Triple.ok (AbovePrefix.prefillStage prompt) hstart hprefill
    exact Triple.ok (AbovePrefix.initialStep _) (h₁.log (by simp)) hinit
  | next h hroom hstep hspeak hlimit ih =>
    exact Triple.ok (AbovePrefix.speak _ _ _) (Triple.ok (AbovePrefix.treeStep _) ih hstep) hspeak

theorem AbovePrefix.grows {k : ℕ} (h : AbovePrefix k w₀ w) : w₀.trace <:+ w.trace := by
  obtain ⟨es, ht, -⟩ := h.passes
  exact ⟨es, ht.symm⟩

/-- A pass that fits and completes has a row for each token. -/
theorem PassFits.length_le {tokens : List Int32} {kvPrefixOffset : ℕ} (h : PassFits spec tokens)
    (hrun : ssd.runShardsWithTreeMask spec env tokens kvPrefixOffset w = (.ok (), w')) :
    tokens.length ≤ spec.seqLenDecode := by
  rcases h with h | ⟨s, hs, hcos⟩
  · exact h
  · exact SSDConfig.treePass_fits hrun hs hcos

/-- The tokens of the trees: a forecast token for each level follows each node. -/
theorem SSDConfig.totalSsdTokens_eq :
    SSDConfig.totalSsdTokens ssd spec = ssd.numDraftNodes + ssd.numDraftNodes * ssd.draftLevels := by
  simp [SSDConfig.totalSsdTokens, SSDConfig.forecastTokens, SSDConfig.genForecastTokens,
    SSDConfig.forecastRow]

theorem LoopHead.totalSsdTokens_le {tree said : List Int32} {n : ℕ}
    (h : LoopHead spec env ssd prompt cfg callback w₀ w tree said n) :
    SSDConfig.totalSsdTokens ssd spec ≤ (stepTokens spec ssd tree).length := by
  rw [stepTokens, List.length_append, SSDConfig.totalSsdTokens]
  exact Nat.add_le_add_right h.tree_length _

/-- If no level is empty, the passes of a call fit a decode graph that holds the trees. -/
theorem DecodePass.fits {tokens : List Int32}
    (h : DecodePass spec env ssd prompt cfg callback w₀ w tokens)
    (hpos : ∀ b ∈ ssd.branches, 0 < b)
    (hfit : SSDConfig.totalSsdTokens ssd spec ≤ spec.seqLenDecode) : PassFits spec tokens := by
  refine Or.inl (le_trans ?_ hfit)
  cases h with
  | @initial _ first hprefill heos hanswer =>
    have hnodes := ssd.numDraftNodes_pos
    have hone : ssd.draftLevels ≤ ssd.numDraftNodes * ssd.draftLevels :=
      Nat.le_mul_of_pos_left _ hnodes
    rw [initialTokens_length, SSDConfig.totalSsdTokens_eq]
    omega
  | @tree _ tree _ _ hhead hroom =>
    rw [stepTokens, List.length_append, hhead.tree_length_eq hpos, SSDConfig.totalSsdTokens]

/-- If the passes that a call begins fit the decode graph, it reads computed rows only. -/
theorem ssdLogitsRead_row (hne : prompt ≠ [])
    (hfits : ∀ v tokens, DecodePass spec env ssd prompt cfg callback w₀ v tokens →
      PassFits spec tokens) {phase : Phase} {row : ℕ}
    (h : SSDLogitsRead spec env ssd prompt cfg callback w₀ w phase row) :
    RowComputed spec w₀ w phase row := by
  have htotal : SSDConfig.totalSsdTokens ssd spec = _ := SSDConfig.totalSsdTokens_eq
  cases h with
  | prefill hrun => exact SSDConfig.prefillPrompt_row hne hrun
  | @initial w₁ _ first d hprefill heos hanswer hinit hd =>
    have hstart : AbovePrefix 0 w₀ w₀ := ⟨Nat.zero_le _, Since.start (by simp)⟩
    have h₁ := Triple.ok (AbovePrefix.prefillStage prompt) hstart hprefill
    have hpass := Triple.ok (SSDConfig.initialStep_lastPass first)
      (h₁.grows.trans (List.suffix_cons _ _)) hinit
    obtain ⟨_, _, hrun, -⟩ := bind_eq_ok hinit
    have hlen : (initialTokens spec ssd first).length = _ := initialTokens_length first
    have hfit := (hfits _ _ (.initial hprefill heos hanswer)).length_le hrun
    refine ⟨?_, _, hpass, by omega⟩
    show 1 + d < spec.seqLenDecode
    omega
  | @verify w _ tree said n _ hhead hroom hrun hi =>
    have hpass := Triple.ok (SSDConfig.treePass_lastPass _ _) hhead.above.grows hrun
    have hlt := SSDConfig.verifyDraftTree_walk.bounded _ hi
    have hlen := hhead.totalSsdTokens_le
    have hfit := (hfits _ _ (.tree hhead hroom)).length_le hrun
    refine ⟨?_, _, hpass, by omega⟩
    show row < spec.seqLenDecode
    omega
  | @next w w₁ _ tree said said' n d accepted hhead hroom hrun hspeak hlimit hd =>
    obtain ⟨hwalk, hpass⟩ := Triple.ok (SSDConfig.treeStep_lastPass tree) hhead.above.grows hrun
    have hpass₂ := Triple.ok (SSDConfig.speak_lastPass callback accepted.1 said) hpass hspeak
    have hlt : accepted.2.getLastD 0 < ssd.numDraftNodes := by
      rw [List.getLastD_eq_getLast?, List.getLast?_eq_some_getLast hwalk.ne]
      exact hwalk.bounded _ (List.getLast_mem hwalk.ne)
    have hrow := FlatMem.row_lt (w := ssd.draftLevels) hlt hd
    have hlen := hhead.totalSsdTokens_le
    obtain ⟨_, _, hpassed, -⟩ := bind_eq_ok hrun
    have hfit := (hfits _ _ (.tree hhead hroom)).length_le hpassed
    refine ⟨?_, _, hpass₂, by omega⟩
    show ssd.numDraftNodes + accepted.2.getLastD 0 * ssd.draftLevels + d < spec.seqLenDecode
    omega

/-- No graph has the row before the first. -/
theorem not_computed_lastRow_zero : ¬RowComputed spec w₀ w .prefill (lastRow 0) := by
  rintro ⟨hlt, -⟩
  have := seqLen_lt spec .prefill
  unfold lastRow at hlt
  omega

end Calls

section VLM

variable {τ R : Type} [Token τ] {s : VLMSettings} {env : VLMEnv τ R} {prompt : List τ}
  {input : VLMInput} {cfg : GenerationConfig} {callback : List Int32 → CallbackAnswer}
  {w₀ : World τ (VLMState R) (VLMInputs R)}

/-- With a prompt that is not empty nothing is divided by zero. -/
theorem vlmGenerate_throws (hne : prompt ≠ []) :
    Throws (· ≠ Err.divisionByZero) (vlmGenerate spec s env prompt input cfg callback) := by
  have hembed : ∀ ids, Throws (· ≠ Err.divisionByZero)
      (embedPrompt s env ids input : VLMRun τ R (List (Option R))) := by
    refine fun ids => Throws.get fun _ => Throws.ite (fun _ => Throws.pure _) fun _ =>
      Throws.bind ?_ fun _ => Throws.pure _
    unfold encodeVision
    cases env.encode input.pixelData with
    | error msg => exact Throws.throw nofun
    | ok out => exact Throws.bind (Throws.modify _) fun _ => Throws.pure _
  have hprep : Throws (· ≠ Err.divisionByZero) (prepareInputs s env prompt input) :=
    Throws.bind (Throws.when fun h => absurd h hne) fun _ => Throws.bind (hembed _) fun _ =>
      Throws.get fun _ => Throws.bind (Throws.modify _) fun _ => Throws.modify _
  have hcall : CallThrows (· ≠ Err.divisionByZero) :=
    ⟨fun _ => nofun, fun _ => nofun, nofun, nofun⟩
  exact Throws.bind hprep fun _ => Throws.bind (hcall.generate prompt cfg callback) fun _ =>
    Throws.bind (Throws.modify _) fun _ => Throws.bind (Throws.modify _) fun _ => Throws.pure _

/-- A vision-language call divides by no zero and reads computed rows only, if and only if its
prompt is not empty. -/
theorem vlmReadsComputed_iff (hc : Counted spec w₀) :
    VLMReadsComputed spec s env prompt input cfg callback w₀ ↔ prompt ≠ [] := by
  constructor
  · rintro ⟨hdiv, -⟩ rfl
    exact hdiv rfl
  · intro hne
    refine ⟨fun hzero => ?_, fun w hprep => ?_⟩
    · exact (vlmGenerate_throws hne).error (Prog.eq_of_result hzero) rfl
    · obtain ⟨-, p, rfl, -, -⟩ := (prepareInputs_installed prompt input w₀).ok rfl hprep
      have hc' : Counted spec { w₀ with providers := p } :=
        ⟨hc.size, hc.le, hc.active, hc.fits, hc.entries⟩
      exact (readsComputed_iff hc').mpr hne

end VLM

/-- **The rows of the logits.** A call of the three decoders, from any reachable state, reads computed
rows only if its prompt is not empty, and fails to if it is. A tree-decoding call also needs its
past to start above the forecast prefix and each decode pass that it begins to fit the decode graph:
a first pass that completes and does not fit is read outside the graph. -/
theorem logits_rows_computed (spec : LLMSpec) :
    (∀ {τ ρ I : Type} [Token τ] (env : Env τ ρ I) (w₀ : World τ ρ I) (prompt : List τ)
      (cfg : GenerationConfig) (callback : List Int32 → CallbackAnswer), Reachable spec env w₀ →
        (ReadsComputed spec env prompt cfg callback w₀ ↔ prompt ≠ [])) ∧
    (∀ {τ R : Type} [Token τ] (s : VLMSettings) (env : VLMEnv τ R)
      (w₀ : World τ (VLMState R) (VLMInputs R)) (prompt : List τ) (input : VLMInput)
      (cfg : GenerationConfig) (callback : List Int32 → CallbackAnswer),
      VLMReachable spec s env w₀ →
        (VLMReadsComputed spec s env prompt input cfg callback w₀ ↔ prompt ≠ [])) ∧
    ∀ {ρ I : Type} (ssd : SSDConfig) (env : Env Int32 ρ I) (w₀ : World Int32 ρ I)
      (prompt : List Int32) (cfg : GenerationConfig) (callback : List Int32 → CallbackAnswer),
      SSDReachable spec ssd env w₀ →
        (prompt = [] → ¬SSDReadsComputed spec env ssd prompt cfg callback w₀) ∧
        (∀ first w₁ w₂, ssd.prefillStage spec env prompt w₀ = (.ok first, w₁) →
          isEos spec first = false → callback [first] = .continue →
          ssd.initialStep spec env first (w₁.log (.emitted first)) = (.ok (), w₂) →
          spec.seqLenDecode < (initialTokens spec ssd first).length →
            ¬SSDReadsComputed spec env ssd prompt cfg callback w₀) ∧
        (prompt ≠ [] → ssd.forecastPrefix ≤ w₀.nPast →
          (∀ w tokens, DecodePass spec env ssd prompt cfg callback w₀ w tokens →
            PassFits spec tokens) →
          SSDReadsComputed spec env ssd prompt cfg callback w₀) := by
  refine ⟨fun env w₀ prompt cfg callback h => readsComputed_iff h.counted,
    fun s env w₀ prompt input cfg callback h => vlmReadsComputed_iff h.reachable.counted,
    fun ssd env w₀ prompt cfg callback _ => ⟨?_, ?_, fun hne hpast hfits =>
      ⟨fun w phase row hread => ssdLogitsRead_row hne hfits hread, ?_⟩⟩⟩
  · rintro rfl ⟨hrows, -⟩
    have hrun : ssd.prefillPrompt spec env [] w₀ = (.ok 0, _) := rfl
    exact not_computed_lastRow_zero (hrows _ .prefill _ (SSDLogitsRead.prefill hrun))
  · rintro first w₁ w₂ hprefill heos hanswer hinit hlong ⟨hrows, -⟩
    rw [initialTokens_length] at hlong
    have hpos : 0 < spec.seqLenDecode := spec.seqLen_pos .decode
    -- the last forecast row
    obtain ⟨hlt, -⟩ := hrows _ _ _ (SSDLogitsRead.initial hprefill heos hanswer hinit
      (show ssd.draftLevels - 1 < ssd.draftLevels by omega))
    change 1 + (ssd.draftLevels - 1) < spec.seqLenDecode at hlt
    omega
  · exact (AbovePrefix.generate prompt cfg callback).snd ⟨hpast, Since.start (by simp)⟩

/-- A prompt of two tokens, decoded by a language model and by a tree decoder. -/
theorem logits_rows_computed_tiny :
    ReadsComputed (tinySpec [16] 4 4) (tinyEnv 0 0) [0, 0] (tinyCfg 4) (fun _ => .continue)
        (tinyWorld (tinySpec [16] 4 4)) ∧
      SSDReadsComputed (tinySpec [16] 4 4) (tinyEnv 0 0) tinySSD [0, 0] (tinyCfg 4)
        (fun _ => .continue) (tinySSDWorld (tinySpec [16] 4 4)) := by
  obtain ⟨hllm, -, hssd⟩ := logits_rows_computed (tinySpec [16] 4 4)
  refine ⟨(hllm _ _ _ _ _ (tinyWorld_reachable _ _)).mpr (by decide), ?_⟩
  exact (hssd tinySSD (tinyEnv 0 0) _ [0, 0] _ _ (SSDReachable.init _ _ _ _)).2.2 (by decide)
    (by decide) fun _ _ hpass => hpass.fits (by decide) (by decide)

/-- With an empty prompt a language model reads row `2 ^ 64 - 1` of a graph of two rows, a
vision-language model divides by zero, and a tree decoder reads row `2 ^ 64 - 1` of a graph of
four. -/
theorem empty_prompt_reads_no_row :
    (∃ w, LogitsRead (tinySpec [4] 2 1) (tinyEnv 0 0) [] (tinyCfg 1) (fun _ => .continue)
        (tinyWorld (tinySpec [4] 2 1)) w .prefill (2 ^ 64 - 1)) ∧
      (tinySpec [4] 2 1).seqLen .prefill = 2 ∧
      (∃ w, SSDLogitsRead (tinySpec [16] 4 4) (tinyEnv 0 0) tinySSD [] (tinyCfg 1)
        (fun _ => .continue) (tinySSDWorld (tinySpec [16] 4 4)) w .prefill (2 ^ 64 - 1)) ∧
      (tinySpec [16] 4 4).seqLen .prefill = 4 ∧
      (vlmGenerate (tinySpec [4] 2 1) (tinySettings .qwen25VL) (tinyVLMEnv Int32) [] ⟨⟨[], []⟩⟩
        (tinyCfg 1) (fun _ => .continue) (tinyVLM Int32 (tinySpec [4] 2 1) .qwen25VL)).1 =
          .error .divisionByZero := by
  have hlast : lastRow 0 = 2 ^ 64 - 1 := rfl
  rw [← hlast]
  exact ⟨⟨_, LogitsRead.prefill rfl⟩, rfl, ⟨_, SSDLogitsRead.prefill rfl⟩, rfl, rfl⟩

end Geniex
