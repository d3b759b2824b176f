import Geniex.SSD.Text

/-!
# What self-speculative decoding emits

The initial pass commits the first token behind the prompt. The loop then drafts from the first
token once more: its root is the last emitted token, one position further than the text in the
cache accounts for.

* `treeStep_text`: a step of the loop commits the root and all accepted tokens but the last, and
  what it accepts is a greedy continuation of the cached text with the root.
* `emits_doubled`: a call emits the first greedy token, and after it a greedy continuation of the
  prompt followed by that token twice.
* `emitsGreedy_iff`: a call emits the greedy text, with the cache as it should be at the head of
  the loop, if and only if it does not reach the loop.
-/

namespace Geniex

open Prog FlatMem Greedy

variable {ρ I : Type} {spec : LLMSpec} {env : Env Int32 ρ I} {ssd : SSDConfig}
  {next : List (Int32 × Int32) → Int32} {holds : ℕ → Column → Int32 × Int32 → Prop}

section Steps

variable {w w' w₁ : World Int32 ρ I} {text : List Int32} {n₀ : ℕ}

/-! ## The initial step -/

theorem frame_trans {u v w : World Int32 ρ I} (hu : u = { v with kv := u.kv, trace := u.trace })
    (hv : v = { w with kv := v.kv, trace := v.trace }) :
    u = { w with kv := u.kv, trace := u.trace } := by
  rw [hu, hv]

/-- The write-backs of one column, shard by shard. -/
theorem writeBackAll (spec : LLMSpec) (k : ℕ) (w : World Int32 ρ I) :
    let v := upto (fun s w => updateKV spec s .decode w.nPast 1 w) k w
    v = { w with kv := v.kv, trace := v.trace } ∧ w.trace <:+ v.trace ∧
      ∀ t, v.kv t =
        if t.shard < k ∧ spec.hasTensor t = true then
          copyKV spec t (w.kv t) ((w.outs (spec.graphIndex .decode t.shard w.activeClIdx)).kvOut t)
            (spec.seqLen .decode) 0 (spec.kvLen .decode w.activeClIdx) w.nPast 1
        else w.kv t := by
  induction k with
  | zero => exact ⟨rfl, List.suffix_rfl, fun t => by simp [upto]⟩
  | succ k ih =>
    obtain ⟨hsame, hgrows, hkv⟩ := ih
    set v := upto (fun s w => updateKV spec s .decode w.nPast 1 w) k w with hv
    show _ ∧ _ ∧ ∀ t, (updateKV spec k .decode v.nPast 1 v).kv t = _
    have houts : v.outs = w.outs := by rw [hsame]
    have hactive : v.activeClIdx = w.activeClIdx := by rw [hsame]
    have hpast : v.nPast = w.nPast := by rw [hsame]
    refine ⟨frame_trans (updateKV_frame k .decode v.nPast 1 v) hsame,
      hgrows.trans (updateKV_suffix _ _ _ _ v), fun t => ?_⟩
    · rw [updateKV_kv, houts, hactive, hpast, hkv t]
      by_cases hs : t.shard = k
      · subst hs
        simp
      · have : t.shard < k + 1 ↔ t.shard < k := by omega
        simp only [hs, false_and, if_false, this]

/-- The initial step commits the first token behind the text. -/
theorem initialStep_text (n₀ : ℕ) (text : List Int32) (o : Oracle spec env next holds) (first : Int32) :
    Logged World.trace (StepsFit spec n₀) (TextAt spec ssd holds .decode text)
      (ssd.initialStep spec env first) fun _ w =>
        TextAt spec ssd holds .decode (text ++ [first]) w := by
  have hfits := stepsFit_hereditary (I := I) spec n₀
  refine Logged.bind hfits (treePass_text o _ 1) fun _ =>
    Logged.bind hfits (R := fun _ w => TextAt spec ssd holds .decode (text ++ [first])
      { w with nPast := w.nPast + 1 })
      (Logged.modify (fun w => (writeBackAll spec spec.shardCount w).2.1) fun w h => ?_) fun _ =>
    Logged.modify (fun _ => List.suffix_rfl) fun w h => h
  obtain ⟨htext, hroom, hrows⟩ := h
  obtain ⟨hsame, -, hkv⟩ := writeBackAll spec spec.shardCount w
  set v := upto (fun s w => updateKV spec s .decode w.nPast 1 w) spec.shardCount w with hv
  have hfit : w.nPast + 1 ≤ spec.kvLen .decode 0 := hroom.trans (spec.kvLen_prefill_le 0)
  have hcolumn : ∀ s, ∀ c < spec.kvLen .decode 0,
      columnOf spec (spec.kvLen .decode 0) s c v.kv =
        if w.nPast ≤ c ∧ c < w.nPast + 1 then
          columnOf spec (spec.seqLen .decode) s (c - w.nPast)
            (w.outs (spec.graphIndex .decode s 0)).kvOut
        else columnOf spec (spec.kvLen .decode 0) s c w.kv :=
    fun s c hc => columnOf_copyKV (fun t hs ht => by
      rw [hkv t, if_pos ⟨shard_lt_of_hasTensor ht, ht⟩, htext.active, hs]) hfit hc
  refine htext.extend (by rw [hsame]) (by rw [hsame]; rfl) (by rw [hsame]) hroom
    (fun s hs c hc => (hcolumn s c (by omega)).trans (if_neg (by omega))) fun s hs j q hq => ?_
  -- the one new column comes from the root's row
  have hj : j = 0 := by
    have := (List.getElem?_eq_some_iff.mp hq).1
    simpa using this
  subst hj
  rw [show columnOf spec (spec.kvLen .decode 0) s (w.nPast + 0) v.kv = _ from
    hcolumn s _ (by omega), if_pos (by omega), Nat.add_sub_cancel_left]
  have hroot := (hrows [0] 0 SSDConfig.RootPath.root (List.pairwise_singleton _ _) rfl (by simp)
    Nat.zero_lt_one).1 s hs
  have hplaced := (SSDConfig.RootPath.root : SSDConfig.RootPath ssd [0]).placed
    (first :: ssd.forecastRow spec.vocabSize) (n := (first :: ssd.forecastRow spec.vocabSize).length)
    (by simp) htext.nPast
  rw [List.map_singleton, List.map_singleton] at hplaced
  have hq' : some _ = some q := (congrArg (·[0]?) hplaced).trans hq
  rw [← Option.some.inj hq']
  exact hroot

/-! ## A step of the loop -/

/-- A node of a path is at the end of a path. -/
theorem rootPath_take {ids : List ℕ} (h : SSDConfig.RootPath ssd ids) {j i : ℕ}
    (hi : ids[j]? = some i) :
    SSDConfig.RootPath ssd (ids.take (j + 1)) ∧ (ids.take (j + 1)).getLast? = some i := by
  induction h with
  | root =>
    obtain rfl : j = 0 := by
      have := (List.getElem?_eq_some_iff.mp hi).1
      simpa using this
    exact ⟨SSDConfig.RootPath.root, hi⟩
  | child h hparent ih =>
    rename_i ids k
    rcases Nat.lt_or_ge j ids.length with hj | hj
    · rw [List.getElem?_append_left hj] at hi
      rw [List.take_append_of_le_length (by omega)]
      exact ih hi
    · have hlen := (List.getElem?_eq_some_iff.mp hi).1
      rw [List.length_append, List.length_singleton] at hlen
      obtain rfl : j = ids.length := by omega
      rw [List.getElem?_concat_length] at hi
      rw [List.take_of_length_le (by simp)]
      exact ⟨h.child hparent, by rw [List.getLast?_concat, hi]⟩

/-- The commit of an accepted path extends the text by the path's tokens. -/
theorem TextAt.commit (h : TextAt spec ssd holds .decode text w) {tokens : List Int32}
    {accepted : List Int32 × List ℕ} (hlen : ssd.numDraftNodes ≤ tokens.length)
    (hrows : TreeAnswers spec ssd next holds text tokens ssd.numDraftNodes w)
    (hwalk : SSDConfig.Walk ssd.numDraftNodes accepted)
    (hpath : SSDConfig.RootPath ssd accepted.2)
    (hroom : w.nPast + accepted.1.length ≤ spec.kvLen .prefill 0) :
    TextAt spec ssd holds .decode (text ++ accepted.2.map fun i => tokens.getD i 0)
      { SSDConfig.selectiveKVUpdate spec (SSDConfig.selectedRows ssd spec accepted.2) w with
        nPast := w.nPast + accepted.1.length } := by
  have hfit : w.nPast + accepted.1.length ≤ spec.kvLen .decode 0 :=
    hroom.trans (spec.kvLen_prefill_le 0)
  have hcount : (accepted.2.map fun i => tokens.getD i 0).length = accepted.1.length := by
    rw [List.length_map, hwalk.length]
  have hcolumn : ∀ s, ∀ c < spec.kvLen .decode 0, _ := fun s c hc =>
    SSDConfig.selectiveKVUpdate_column (s := s) hwalk hfit hc
  refine h.extend rfl (congrArg (w.nPast + ·) hcount.symm) rfl (hcount ▸ hroom)
    (fun s hs c hc => (hcolumn s c (by omega)).trans (if_neg (by omega))) fun s hs j q hq => ?_
  -- the new columns come from the rows of the path
  rw [← hpath.placed tokens (fun i hi => (hwalk.bounded i hi).trans_le hlen) h.nPast,
    List.getElem?_map] at hq
  obtain ⟨i, hi, rfl⟩ := Option.map_eq_some_iff.mp hq
  have hj : j < accepted.1.length := by
    rw [hwalk.length]
    exact (List.getElem?_eq_some_iff.mp hi).1
  have hmem := hwalk.bounded i (List.mem_of_getElem? hi)
  obtain ⟨htake, hlast⟩ := rootPath_take hpath hi
  rw [show columnOf spec (spec.kvLen .decode 0) s (w.nPast + j) _ = _ from
    hcolumn s _ (by omega), if_pos (by omega), Nat.add_sub_cancel_left,
    List.getD_eq_getElem?_getD, hi, Option.getD_some]
  exact (hrows _ i htake (hwalk.ascending.sublist (List.take_sublist _ _)) hlast (by omega)
    hmem).1 s hs

/-- A step commits the root and what it accepts but the last token, and it accepts a greedy
continuation. -/
theorem treeStep_text (o : Oracle spec env next holds) {tree : List Int32}
    (htree : tree.length = ssd.numDraftNodes) :
    Logged World.trace (StepsFit spec n₀) (TextAt spec ssd holds .decode text)
      (ssd.treeStep spec env tree) fun accepted w =>
        TextAt spec ssd holds .decode (text ++ tree.getD 0 0 :: accepted.1.dropLast) w ∧
          Continues (answerTo next) (text ++ [tree.getD 0 0]) accepted.1 ∧ accepted.1 ≠ [] := by
  have hfits := stepsFit_hereditary (I := I) spec n₀
  refine Logged.bind hfits (treePass_text o _ ssd.numDraftNodes) fun _ => Logged.get fun w₁ => ?_
  set tokens := tree ++ SSDConfig.forecastTokens ssd spec with htokens
  set accepted := ssd.verifyDraftTree (isEos spec) (SSDConfig.answerAt spec w₁) tree
  have hwalk : SSDConfig.Walk ssd.numDraftNodes accepted := SSDConfig.verifyDraftTree_walk
  have hlen : ssd.numDraftNodes ≤ tokens.length := by
    rw [List.length_append]
    omega
  have htoken : ∀ i < ssd.numDraftNodes, tokens.getD i 0 = tree.getD i 0 :=
    fun i hi => List.getD_append _ _ _ _ (by omega)
  set e : Event Int32 I := .accepted w₁.nPast accepted.1 with he
  refine Logged.bind hfits (R := fun _ w => w = w₁.log e ∧
      w₁.nPast + accepted.1.length ≤ spec.kvLen .prefill 0 ∧
      TextAt spec ssd holds .decode text w₁ ∧
      TreeAnswers spec ssd next holds text tokens ssd.numDraftNodes w₁)
    (Logged.modifyLog (fun _ => [e]) (fun _ => rfl) fun w hfit hP => ?_) fun _ =>
    Logged.bind hfits (R := fun _ w => TextAt spec ssd holds .decode
        (text ++ tree.getD 0 0 :: accepted.1.dropLast)
        { w with nPast := w.nPast + accepted.1.length } ∧
      Continues (answerTo next) (text ++ [tree.getD 0 0]) accepted.1)
      (Logged.modify (fun _ => List.suffix_append _ _) fun w hP => ?_) fun _ =>
    Logged.bind hfits (R := fun _ w => TextAt spec ssd holds .decode
        (text ++ tree.getD 0 0 :: accepted.1.dropLast) w ∧
      Continues (answerTo next) (text ++ [tree.getD 0 0]) accepted.1)
      (Logged.modify (fun _ => List.suffix_rfl) fun w hP => hP) fun _ =>
    Logged.pure fun w hP => ⟨hP.1, hP.2, fun hnil => hwalk.ne ?_⟩
  · obtain ⟨rfl, htext, -, hrows⟩ := hP
    exact ⟨rfl, hfit.accepted _ _ (List.mem_singleton_self _), htext, hrows⟩
  · obtain ⟨rfl, hroom, htext, hrows⟩ := hP
    have hanswers : SSDConfig.RowsAnswer ssd (SSDConfig.answerAt spec w₁) (answerTo next) text
        tree := by
      intro ids i hids hasc hlast hi
      have hans := (hrows ids i hids hasc hlast (by omega) hi).2
      have hin : ∀ j ∈ ids, j < ssd.numDraftNodes := by
        intro j hj
        rcases List.mem_cons.mp ((hids.mem_ancestors hlast j).mpr hj) with rfl | hj
        · exact hi
        · exact (SSDConfig.ancestors_lt hj).trans hi
      rw [List.map_congr_left fun j hj => htoken j (hin j hj)] at hans
      rw [← hans]
      unfold SSDConfig.answerAt SSDConfig.readLogitsAt readLastLogits lastAnswer rowAnswer
      rw [htext.active]
    have haccepts : SSDConfig.Accepts ssd (answerTo next) text tree accepted :=
      SSDConfig.verifyDraftTree_accepts hanswers
    have htext' : TextAt spec ssd holds .decode text (w₁.log e) := htext.of_eq rfl rfl rfl rfl
    have hcommit := htext'.commit hlen hrows hwalk haccepts.path hroom
    rw [List.map_congr_left fun j hj => htoken j (hwalk.bounded j hj), haccepts.spells] at hcommit
    exact ⟨hcommit, haccepts.continues⟩
  · exact List.eq_nil_of_length_eq_zero (by rw [← hwalk.length, hnil]; rfl)

/-- A step accepts at least one token. -/
theorem treeStep_result {tree : List Int32} {accepted : List Int32 × List ℕ}
    (hrun : ssd.treeStep spec env tree w = (.ok accepted, w')) : accepted.1 ≠ [] := by
  obtain ⟨_, w₁, -, hrest⟩ := bind_eq_ok hrun
  cases hrest
  have hwalk : SSDConfig.Walk ssd.numDraftNodes
      (ssd.verifyDraftTree (isEos spec) (SSDConfig.answerAt spec w₁) tree) :=
    SSDConfig.verifyDraftTree_walk
  exact fun hnil => hwalk.ne (List.eq_nil_of_length_eq_zero (by rw [← hwalk.length, hnil]; rfl))

/-- What is emitted of an accepted path: a prefix of it, all of it unless the loop is left. -/
theorem speak_result (callback : List Int32 → CallbackAnswer) (path said : List Int32) :
    Triple (fun _ => True)
      (SSDConfig.speak spec callback path said : Run Int32 ρ I (List Int32 × Bool))
      (fun r _ => ∃ more, r.1 = said ++ more ∧ more <+: path ∧ (r.2 = false → more = path))
      fun _ _ => True := by
  induction path generalizing said with
  | nil => exact Triple.pure fun _ _ => ⟨[], by simp⟩
  | cons t rest ih =>
    refine Triple.bind (R := fun _ _ => True) (Triple.modify fun _ h => h) fun _ =>
      Triple.ite (fun _ => Triple.pure fun _ _ => ⟨[], by simp⟩) fun _ =>
      Triple.bind (R := fun _ _ => True) (Triple.modify fun _ h => h) fun _ => ?_
    cases callback (said ++ [t]) with
    | stop => exact Triple.pure fun _ _ => ⟨[t], rfl, by simp, nofun⟩
    | throw => exact Triple.throw fun _ h => h
    | «continue» =>
      refine (ih (said ++ [t])).post fun r _ h => ?_
      obtain ⟨more, hr, hmore, hall⟩ := h
      refine ⟨t :: more, ?_, (List.prefix_cons_inj t).mpr hmore, fun hr2 => ?_⟩
      · rw [hr, List.append_assoc, List.singleton_append]
      · rw [hall hr2]

/-- Emission only logs. -/
theorem speak_text {P : World Int32 ρ I → Prop} (hlog : ∀ w e, P w → P (w.log e))
    (callback : List Int32 → CallbackAnswer) (path said : List Int32) :
    Logged World.trace (StepsFit spec n₀) P (SSDConfig.speak spec callback path said)
      fun _ => P := by
  have hfits := stepsFit_hereditary (I := I) spec n₀
  induction path generalizing said with
  | nil => exact Logged.pure fun w h => h
  | cons t rest ih =>
    refine Logged.bind hfits (R := fun _ => P)
      (Logged.modify (fun _ => List.suffix_cons _ _) fun w h => hlog _ _ h) fun _ =>
      Logged.ite (fun _ => Logged.pure fun w h => h) fun _ =>
      Logged.bind hfits (R := fun _ => P)
        (Logged.modify (fun _ => List.suffix_cons _ _) fun w h => hlog _ _ h) fun _ => ?_
    cases callback (said ++ [t]) with
    | stop => exact Logged.pure fun w h => h
    | throw => exact Logged.throw _
    | «continue» => exact ih _

/-- The loop, from a head at which the cache holds `ctx` and what has been said but its last
token, the root of the draft tree. -/
theorem decodeLoop_text (n₀ : ℕ) (ctx : List Int32) (o : Oracle spec env next holds)
    (hbranches : ∀ b ∈ ssd.branches, 0 < b) (maxTokens : Int32) (callback : List Int32 → CallbackAnswer) (k : ℕ) :
    ∀ (tree said : List Int32), tree.length = ssd.numDraftNodes →
      said.getLast? = some (tree.getD 0 0) →
      Logged World.trace (StepsFit spec n₀)
        (TextAt spec ssd holds .decode (ctx ++ said.dropLast))
        (ssd.decodeLoop spec env maxTokens callback k tree said) fun out _ =>
          ∃ more, out = said ++ more ∧ Continues (answerTo next) (ctx ++ said) more := by
  have hfits := stepsFit_hereditary (I := I) spec n₀
  induction k with
  | zero => exact fun tree said _ _ => Logged.pure fun _ _ => ⟨[], by simp⟩
  | succ k ih =>
    intro tree said htree hroot
    have hsaid : said.dropLast ++ [tree.getD 0 0] = said := List.dropLast_append_getLast? _ hroot
    refine Logged.get fun w₁ => Logged.ite (fun _ => Logged.pure fun _ _ => ⟨[], by simp⟩)
      fun _ => Logged.bindResult hfits ((treeStep_text o htree).pre fun w h => h.2)
        (fun _ _ _ => treeStep_result) fun accepted hne => ?_
    -- after the step the cache holds all that will have been said but the last token
    set P : World Int32 ρ I → Prop := fun w =>
      TextAt spec ssd holds .decode (ctx ++ (said ++ accepted.1).dropLast) w ∧
        Continues (answerTo next) (ctx ++ said) accepted.1 with hP
    have htext : ctx ++ (said ++ accepted.1).dropLast =
        ctx ++ said.dropLast ++ tree.getD 0 0 :: accepted.1.dropLast := by
      rw [List.dropLast_append_of_ne_nil hne]
      conv_lhs => rw [← hsaid]
      simp only [List.append_assoc, List.singleton_append]
    have hctx : ctx ++ said.dropLast ++ [tree.getD 0 0] = ctx ++ said := by
      rw [List.append_assoc, hsaid]
    rw [← htext, hctx]
    refine Logged.bindResult hfits ((speak_text (P := P)
      (fun w e h => ⟨h.1.of_eq rfl rfl rfl rfl, h.2⟩) callback accepted.1 said).pre
        fun w h => ⟨h.1, h.2.1⟩)
      (fun s r s' hrun => (speak_result callback accepted.1 said).ok trivial hrun) fun r hr => ?_
    obtain ⟨more, hr1, ⟨rest, hrest⟩, hall⟩ := hr
    refine Logged.ite (fun _ => Logged.pure fun w h => ⟨more, hr1, ?_⟩) fun hgo =>
      Logged.get fun w₂ => ?_
    · have hcont := h.2
      rw [← hrest] at hcont
      exact (continues_append.mp hcont).1
    · obtain rfl : more = accepted.1 := hall (by simpa using fun h => hgo (Or.inl h))
      rw [hr1]
      have hlast : (said ++ accepted.1).getLast? =
          some ((SSDConfig.nextTree ssd spec accepted w₂).getD 0 0) := by
        unfold SSDConfig.nextTree
        rw [SSDConfig.buildSampleTree_root, List.getLast?_append_of_ne_nil _ hne,
          List.getLast?_eq_some_getLast hne, List.getLastD_eq_getLast?,
          List.getLast?_eq_some_getLast hne, Option.getD_some]
      have hloop := ih (SSDConfig.nextTree ssd spec accepted w₂) (said ++ accepted.1)
        (SSDConfig.buildSampleTree_length hbranches _ _ _) hlast
      refine (Logged.frame (C := Continues (answerTo next) (ctx ++ said) accepted.1) hloop).conseq
        (fun w h => h.2) fun out w h => ?_
      obtain ⟨⟨more, hout, hmore⟩, hcont⟩ := h
      refine ⟨accepted.1 ++ more, by rw [hout, List.append_assoc], continues_append.mpr ⟨hcont, ?_⟩⟩
      rwa [List.append_assoc]

/-! ## A call -/

/-- From the initial step on, a call emits a greedy continuation of the text with the first token
twice. -/
theorem decodeStage_text (o : Oracle spec env next holds) (hbranches : ∀ b ∈ ssd.branches, 0 < b)
    (cfg : GenerationConfig) (callback : List Int32 → CallbackAnswer) (first : Int32) :
    Logged World.trace (StepsFit spec n₀) (TextAt spec ssd holds .decode text)
      (ssd.decodeStage spec env cfg callback first) fun out _ =>
        ∃ more, out = first :: more ∧
          Continues (answerTo next) (text ++ [first, first]) more := by
  have hfits := stepsFit_hereditary (I := I) spec n₀
  refine Logged.bind hfits (initialStep_text n₀ text o first) fun _ => Logged.get fun w₁ => ?_
  have hloop := decodeLoop_text n₀ (text ++ [first]) o hbranches cfg.maxTokens callback
    cfg.maxTokens.toInt.toNat
    (ssd.buildSampleTree (SSDConfig.readLogitsAt spec w₁) first 1) [first]
    (SSDConfig.buildSampleTree_length hbranches _ _ _)
    (by rw [SSDConfig.buildSampleTree_root]; rfl)
  refine hloop.conseq (fun w h => ?_) fun out w h => ?_
  · rw [List.dropLast_singleton, List.append_nil]
    exact h.2
  · obtain ⟨more, hout, hmore⟩ := h
    refine ⟨more, hout, ?_⟩
    rwa [List.append_assoc] at hmore

end Steps

/-! ## A call on a reset instance -/

section Calls

variable {v w w₀ : World Int32 ρ I} {prompt out : List Int32} {cfg : GenerationConfig}
  {callback : List Int32 → CallbackAnswer} {es : List (Event Int32 I)}

/-- Greedy decoding, one token at a time. -/
def plainGreedy (spec : LLMSpec) (next : List (Int32 × Int32) → Int32) (prompt : List Int32)
    (cfg : GenerationConfig) (callback : List Int32 → CallbackAnswer) : List Int32 :=
  greedyText (answerTo next) (isEos spec) (fun said => callback said = .continue)
    cfg.maxTokens.toInt.toNat prompt []

/-- The states at the head of the decode loop, where its condition is evaluated, with the draft
tree and what has been emitted. -/
inductive LoopHead (spec : LLMSpec) (env : Env Int32 ρ I) (ssd : SSDConfig) (prompt : List Int32)
    (cfg : GenerationConfig) (callback : List Int32 → CallbackAnswer) (w₀ : World Int32 ρ I) :
    World Int32 ρ I → List Int32 → List Int32 → ℕ → Prop
  | first {w₁ w₂ : World Int32 ρ I} {first : Int32}
      (hprefill : ssd.prefillStage spec env prompt w₀ = (.ok first, w₁))
      (heos : isEos spec first = false) (hanswer : callback [first] = .continue)
      (hinit : ssd.initialStep spec env first (w₁.log (.emitted first)) = (.ok (), w₂)) :
      LoopHead spec env ssd prompt cfg callback w₀ w₂
        (ssd.buildSampleTree (SSDConfig.readLogitsAt spec w₂) first 1) [first]
        cfg.maxTokens.toInt.toNat
  | next {w w₁ w₂ : World Int32 ρ I} {tree said said' : List Int32} {n : ℕ}
      {accepted : List Int32 × List ℕ}
      (h : LoopHead spec env ssd prompt cfg callback w₀ w tree said (n + 1))
      (hroom : w.nPast + SSDConfig.totalSsdTokens ssd spec ≤ spec.cl w.activeClIdx)
      (hstep : ssd.treeStep spec env tree w = (.ok accepted, w₁))
      (hspeak : SSDConfig.speak spec callback accepted.1 said w₁ = (.ok (said', false), w₂))
      (hlimit : ¬cfg.maxTokens ≤ Int32.ofNat said'.length) :
      LoopHead spec env ssd prompt cfg callback w₀ w₂ (SSDConfig.nextTree ssd spec accepted w₂)
        said' n

/-- A head of the loop as it should be: the cache holds the prompt and everything emitted but the
last token, which is the root of the draft tree, at the position after the cache. -/
structure HeadRight (spec : LLMSpec) (ssd : SSDConfig)
    (holds : ℕ → Column → Int32 × Int32 → Prop) (prompt : List Int32) (w : World Int32 ρ I)
    (tree said : List Int32) : Prop where
  nPast : w.nPast = ssd.forecastPrefix + (prompt ++ said.dropLast).length
  pairs : HoldsPairs spec holds (spec.kvLen .decode 0) ssd.forecastPrefix
    (SSDConfig.placedFrom 0 (prompt ++ said.dropLast)) w.kv
  root : said.getLast? = tree.head?
  position : (ssd.computeTreePositionIds w.nPast tree.length)[0]? =
    some (Int32.ofNat (prompt ++ said.dropLast).length)

/-- A call that emits `out` emits the greedy text, up to where the shorter one stops, and every
head of its loop is as it should be. -/
def EmitsGreedy (spec : LLMSpec) (env : Env Int32 ρ I) (ssd : SSDConfig)
    (next : List (Int32 × Int32) → Int32) (holds : ℕ → Column → Int32 × Int32 → Prop)
    (prompt : List Int32) (cfg : GenerationConfig) (callback : List Int32 → CallbackAnswer)
    (w₀ : World Int32 ρ I) (out : List Int32) : Prop :=
  (out <+: plainGreedy spec next prompt cfg callback ∨
      plainGreedy spec next prompt cfg callback <+: out) ∧
    ∀ w tree said n, LoopHead spec env ssd prompt cfg callback w₀ w tree said n →
      HeadRight spec ssd holds prompt w tree said

/-- A head of the loop comes after a prefill whose token does not end the call. -/
theorem LoopHead.entered {tree said : List Int32} {n : ℕ}
    (h : LoopHead spec env ssd prompt cfg callback w₀ w tree said n) :
    ∃ first w₁, ssd.prefillStage spec env prompt w₀ = (.ok first, w₁) ∧
      isEos spec first = false ∧ callback [first] = .continue := by
  induction h with
  | first hprefill heos hanswer hinit => exact ⟨_, _, hprefill, heos, hanswer⟩
  | next h hroom hstep hspeak hlimit ih => exact ih

/-- After a reset the cache holds the empty text. -/
theorem textAt_reset (v : World Int32 ρ I)
    (hroom : (ssd.resetKVCache spec v).nPast ≤ spec.kvLen .prefill 0) :
    TextAt spec ssd holds .prefill [] (ssd.resetKVCache spec v) where
  active := rfl
  nPast := rfl
  room := hroom
  sampler := rfl
  pairs := fun s _ j q hq => by cases hq

/-- The parts of a call that returns, with what each of them logs. -/
theorem generateBody_parts (hrun : ssd.generateBody spec env prompt cfg callback w₀ = (.ok out, w)) :
    ∃ first w₁, ssd.prefillStage spec env prompt w₀ = (.ok first, w₁) ∧
      ((isEos spec first = true ∧ out = [] ∧ w = w₁) ∨
        isEos spec first = false ∧
          ((callback [first] = .stop ∧ out = [first] ∧ w = w₁.log (.emitted first)) ∨
            callback [first] = .continue ∧
              ssd.decodeStage spec env cfg callback first (w₁.log (.emitted first)) =
                (.ok out, w))) := by
  obtain ⟨first, w₁, hprefill, hrest⟩ := bind_eq_ok hrun
  refine ⟨first, w₁, hprefill, ?_⟩
  split_ifs at hrest with heos
  · cases hrest
    exact Or.inl ⟨heos, rfl, rfl⟩
  · refine Or.inr ⟨by simpa using heos, ?_⟩
    rw [modify_bind] at hrest
    cases hc : callback [first] with
    | stop =>
      rw [hc] at hrest
      cases hrest
      exact Or.inl ⟨rfl, rfl, rfl⟩
    | throw =>
      rw [hc] at hrest
      cases hrest
    | «continue» =>
      rw [hc] at hrest
      exact Or.inr ⟨rfl, hrest⟩

/-- A call extends the text by the first greedy token, and by a greedy continuation of the text
with that token twice. -/
theorem generateBody_text (n₀ : ℕ) (text : List Int32) (o : Oracle spec env next holds)
    (hbranches : ∀ b ∈ ssd.branches, 0 < b) (hprompt : prompt ≠ []) :
    Logged World.trace (StepsFit spec n₀) (TextAt spec ssd holds .prefill text)
      (ssd.generateBody spec env prompt cfg callback) fun out _ =>
        out = [] ∨ ∃ more, out = answerTo next (text ++ prompt) :: more ∧
          Continues (answerTo next) (text ++ prompt ++
            [answerTo next (text ++ prompt), answerTo next (text ++ prompt)]) more := by
  have hfits := stepsFit_hereditary (I := I) spec n₀
  refine Logged.bind hfits (prefillStage_text n₀ text o hprompt) fun first =>
    Logged.ite (fun _ => Logged.pure fun w h => Or.inl rfl) fun _ =>
    Logged.bind hfits (R := fun _ w => TextAt spec ssd holds .decode (text ++ prompt) w ∧
      first = answerTo next (text ++ prompt))
      (Logged.modify (fun _ => List.suffix_cons _ _) fun w h =>
        ⟨h.1.of_eq rfl rfl rfl rfl, h.2⟩) fun _ => ?_
  cases callback [first] with
  | stop => exact Logged.pure fun w h => Or.inr ⟨[], by rw [h.2], trivial⟩
  | throw => exact Logged.throw _
  | «continue» =>
    refine (Logged.frame (decodeStage_text o hbranches cfg callback first)).post fun out w h => ?_
    obtain ⟨⟨more, hout, hmore⟩, hfirst⟩ := h
    rw [hfirst] at hout hmore
    exact Or.inr ⟨more, hout, hmore⟩

/-- **What a call emits.** On a reset instance within capacity, a call emits nothing, or the first
greedy token followed by a greedy continuation of the prompt and that token twice. -/
theorem emits_doubled (o : Oracle spec env next holds) (hbranches : ∀ b ∈ ssd.branches, 0 < b)
    (hprompt : prompt ≠ [])
    (hrun : ssd.generateBody spec env prompt cfg callback (ssd.resetKVCache spec v) = (.ok out, w))
    (htrace : w.trace = es ++ (ssd.resetKVCache spec v).trace)
    (hfit : StepsFit spec (ssd.resetKVCache spec v).nPast es) :
    out = [] ∨ ∃ more, out = answerTo next prompt :: more ∧
      Continues (answerTo next) (prompt ++ [answerTo next prompt, answerTo next prompt]) more := by
  obtain ⟨new, hnew, h⟩ :=
    generateBody_text (ssd.resetKVCache spec v).nPast [] o hbranches hprompt _ _ _ hrun
  obtain rfl : es = new := List.append_cancel_right (htrace.symm.trans hnew)
  exact h hfit (textAt_reset v hfit.entry)

/-- A call that reaches the loop has committed the first token already. -/
theorem firstHead (n₀ : ℕ) (text : List Int32) (o : Oracle spec env next holds)
    (hbranches : ∀ b ∈ ssd.branches, 0 < b) {first : Int32} {w₁ : World Int32 ρ I}
    (hrun : ssd.decodeStage spec env cfg callback first w₁ = (.ok out, w)) :
    ∃ new, w.trace = new ++ w₁.trace ∧ ∃ w₂,
      ssd.initialStep spec env first w₁ = (.ok (), w₂) ∧
        (StepsFit spec n₀ new → TextAt spec ssd holds .decode text w₁ →
          TextAt spec ssd holds .decode (text ++ [first]) w₂) := by
  obtain ⟨⟨⟩, w₂, hinit, hloop⟩ := bind_eq_ok hrun
  obtain ⟨new₂, hnew₂, h₂⟩ := initialStep_text n₀ text o first _ _ _ hinit
  rw [get_bind] at hloop
  obtain ⟨new₃, hnew₃, -⟩ := decodeLoop_text n₀ [] o hbranches cfg.maxTokens
    callback cfg.maxTokens.toInt.toNat _ [first] (SSDConfig.buildSampleTree_length hbranches _ _ _)
    (by rw [SSDConfig.buildSampleTree_root]; rfl) _ _ _ hloop
  refine ⟨new₃ ++ new₂, by rw [hnew₃, hnew₂, List.append_assoc], w₂, hinit, fun hfit htext => ?_⟩
  exact h₂ (stepsFit_hereditary _ _ _ _ hfit).2 htext

/-- **When the greedy text is emitted.** On a reset instance within capacity, a call emits the
greedy text with its loop as it should be if and only if the first greedy token ends the call: it
ends the text, or the callback does not continue after it. -/
theorem emitsGreedy_iff (o : Oracle spec env next holds) (hbranches : ∀ b ∈ ssd.branches, 0 < b)
    (hprompt : prompt ≠ [])
    (hrun : ssd.generateBody spec env prompt cfg callback (ssd.resetKVCache spec v) = (.ok out, w))
    (htrace : w.trace = es ++ (ssd.resetKVCache spec v).trace)
    (hfit : StepsFit spec (ssd.resetKVCache spec v).nPast es) :
    EmitsGreedy spec env ssd next holds prompt cfg callback (ssd.resetKVCache spec v) out ↔
      isEos spec (answerTo next prompt) = true ∨
        callback [answerTo next prompt] ≠ .continue := by
  set w₀ := ssd.resetKVCache spec v with hw₀
  have hreset : TextAt spec ssd holds .prefill [] w₀ := textAt_reset v hfit.entry
  obtain ⟨first, w₁, hprefill, hparts⟩ := generateBody_parts hrun
  obtain ⟨new₁, hnew₁, htext⟩ :=
    prefillStage_text w₀.nPast [] o hprompt _ _ _ hprefill
  -- whatever comes after the prefill only adds to the log
  have hfirst : (∃ new, w.trace = new ++ w₁.trace) →
      TextAt spec ssd holds .decode prompt w₁ ∧ first = answerTo next prompt := by
    rintro ⟨new, hnew⟩
    rw [hnew, hnew₁, ← List.append_assoc] at htrace
    have hes := List.append_cancel_right htrace
    rw [← hes] at hfit
    exact htext (stepsFit_hereditary _ _ _ _ hfit).2 hreset
  have hnoHead : isEos spec first = true ∨ callback [first] ≠ .continue →
      ∀ w tree said n, LoopHead spec env ssd prompt cfg callback w₀ w tree said n →
        HeadRight spec ssd holds prompt w tree said := by
    intro hend w tree said n hhead
    obtain ⟨first', w₁', hprefill', heos, hanswer⟩ := hhead.entered
    rw [hprefill] at hprefill'
    cases hprefill'
    rcases hend with h | h
    · rw [heos] at h
      cases h
    · exact absurd hanswer h
  rcases hparts with ⟨heos, rfl, rfl⟩ | ⟨heos, ⟨hstop, rfl, rfl⟩ | ⟨hgo, hdecode⟩⟩
  · obtain ⟨-, rfl⟩ := hfirst ⟨[], rfl⟩
    exact iff_of_true ⟨Or.inl List.nil_prefix, hnoHead (Or.inl heos)⟩ (Or.inl heos)
  · obtain ⟨-, rfl⟩ := hfirst ⟨[_], rfl⟩
    have hend : callback [answerTo next prompt] ≠ .continue := by
      rw [hstop]
      exact nofun
    refine iff_of_true ⟨?_, hnoHead (Or.inr hend)⟩ (Or.inr hend)
    unfold plainGreedy
    cases cfg.maxTokens.toInt.toNat with
    | zero => exact Or.inr List.nil_prefix
    | succ n =>
      left
      rw [greedyText, if_neg (by rw [heos]; simp), if_neg (by simpa using hend)]
      exact List.prefix_rfl
  · obtain ⟨new, hnew, w₂, hinit, hhead⟩ :=
      firstHead w₀.nPast prompt o hbranches hdecode
    obtain ⟨htext₁, rfl⟩ := hfirst ⟨new ++ [_], by
      rw [hnew, List.append_assoc]
      rfl⟩
    refine iff_of_false (fun h => ?_) (by rw [heos, hgo]; simp)
    have hright := (h.2 _ _ _ _ (LoopHead.first hprefill heos hgo hinit)).nPast
    -- the first token is in the cache already
    have htext₂ : TextAt spec ssd holds .decode (prompt ++ [answerTo next prompt]) w₂ := by
      refine hhead ?_ (htext₁.of_eq rfl rfl rfl rfl)
      rw [hnew, World.log_trace, hnew₁, ← List.cons_append, ← List.append_assoc] at htrace
      have hes := List.append_cancel_right htrace
      rw [← hes] at hfit
      exact (stepsFit_hereditary _ _ _ _ hfit).1
    have hpast := htext₂.nPast
    rw [List.dropLast_singleton, List.append_nil] at hright
    rw [List.length_append, List.length_singleton] at hpast
    omega

end Calls

/-! ## A small instance -/

/-- What row `i` of a mask of 16 columns sees. -/
def seenColumns (mask : ℕ → ℤ) (i : ℕ) : List ℕ :=
  (List.range 16).filter fun c => mask (i * 16 + c) = 0

/-- A graph that answers a row by the parity of the number of columns it sees. -/
def parityEnv : Env Int32 Unit Unit :=
  { tinyEnv 0 0 with
    exec := fun tick _ x => some
      ⟨fun _ _ => UInt8.ofNat (tick + 1), fun _ => 0, fun i =>
        if i % 3 = (seenColumns (x.mask.getD fun _ => 0) (i / 3)).length % 2 then 1 else 0⟩ }

/-- The parity of the length of a text. -/
def parity (pairs : List (Int32 × Int32)) : Int32 := Int32.ofNat (pairs.length % 2)

theorem seenColumns_length (mask : ℕ → ℤ) (i : ℕ) :
    (SSDConfig.visiblePast mask 4 12 i).length + (SSDConfig.visibleBlock mask 4 12 i).length =
      (seenColumns mask i).length := by
  have hsplit : List.range 16 = List.range 12 ++ (List.range 4).map (12 + ·) := by decide
  unfold seenColumns SSDConfig.visiblePast SSDConfig.visibleBlock
  rw [hsplit, List.filter_append, List.length_append, List.filter_map, List.length_map]
  rfl

theorem parityEnv_oracle : Oracle (tinySpec [16] 4 4) parityEnv parity fun _ _ _ => True := by
  refine ⟨fun p w outs hcl hpass hlen i hi seen _ => ⟨fun _ _ => trivial, ?_⟩⟩
  obtain ⟨phase, clIdx, ctx, mask, positions⟩ := p
  obtain rfl : clIdx = 0 := Nat.lt_one_iff.mp hcl
  have hrow : i < 4 := by
    cases phase <;> exact hi.trans_le hlen
  have hout := (Option.some.inj (hpass 0 Nat.zero_lt_one)).symm
  have hcount : ((PassInput.past ⟨phase, 0, ctx, mask, positions⟩ (tinySpec [16] 4 4) i).map seen ++
      (PassInput.block ⟨phase, 0, ctx, mask, positions⟩ (tinySpec [16] 4 4) i).map
        (PassInput.pair ⟨phase, 0, ctx, mask, positions⟩)).length = (seenColumns mask i).length := by
    rw [List.length_append, List.length_map, List.length_map, ← seenColumns_length]
    cases phase <;> rfl
  unfold parity
  rw [hcount]
  show rowAnswer _ (outs ((tinySpec [16] 4 4).graphIndex phase 0 0)) i = _
  dsimp only at hout
  rw [hout]
  show Int32.ofNat (argmax ((List.range 3).map fun v =>
    if ((i * 3) % 2 ^ 64 + v) % 3 = (seenColumns mask (((i * 3) % 2 ^ 64 + v) / 3)).length % 2
      then (1 : ℚ) else 0)) = _
  have hlogits : ∀ v ∈ List.range 3,
      (if ((i * 3) % 2 ^ 64 + v) % 3 = (seenColumns mask (((i * 3) % 2 ^ 64 + v) / 3)).length % 2
        then (1 : ℚ) else 0) = if v = (seenColumns mask i).length % 2 then 1 else 0 := by
    intro v hv
    have hv3 := List.mem_range.mp hv
    have hoff : (i * 3) % 2 ^ 64 = i * 3 := Nat.mod_eq_of_lt (by omega)
    rw [hoff, show (i * 3 + v) % 3 = v by omega, show (i * 3 + v) / 3 = i by omega]
  rw [List.map_congr_left hlogits]
  rcases Nat.mod_two_eq_zero_or_one (seenColumns mask i).length with h | h <;> rw [h] <;> decide

/-- A call on a reset instance, with a callback that never stops it. -/
def parityBody (prompt : List Int32) (n : Int32) :
    Except Err (List Int32) × World Int32 Unit Unit :=
  tinySSD.generateBody sixteenColumns parityEnv prompt (tinyCfg n) (fun _ => .continue)
    (tinySSD.resetKVCache sixteenColumns (tinySSDWorld sixteenColumns))

/-- Whether the steps of a log fit. -/
def stepsFit (spec : LLMSpec) (n₀ : ℕ) (es : List (Event Int32 Unit)) : Bool :=
  n₀ ≤ spec.kvLen .prefill 0 && es.all fun
    | .step phase n c => c ≤ spec.seqLen phase && n + committed phase c ≤ spec.kvLen .prefill 0
    | .accepted n path => n + path.length ≤ spec.kvLen .prefill 0
    | _ => true

theorem stepsFit_of_eq {n₀ : ℕ} {es : List (Event Int32 Unit)} (h : stepsFit spec n₀ es = true) :
    StepsFit spec n₀ es := by
  unfold stepsFit at h
  rw [Bool.and_eq_true, List.all_eq_true] at h
  refine ⟨by simpa using h.1, fun phase n c he => ?_, fun n path he => ?_⟩
  · simpa using h.2 _ he
  · simpa using h.2 _ he

/-- With a prompt of two tokens and a callback that continues, the greedy text is not emitted. -/
theorem emitsGreedy_iff_parity :
    ¬EmitsGreedy (tinySpec [16] 4 4) parityEnv tinySSD parity (fun _ _ _ => True) [0, 0] (tinyCfg 3)
      (fun _ => .continue)
      (tinySSD.resetKVCache (tinySpec [16] 4 4) (tinySSDWorld (tinySpec [16] 4 4)))
      [0, 0, 1, 0] := by
  have hout : (parityBody [0, 0] 3).1 = .ok [0, 0, 1, 0] := by decide +kernel
  have hrun : tinySSD.generateBody (tinySpec [16] 4 4) parityEnv [0, 0] (tinyCfg 3)
      (fun _ => .continue)
      (tinySSD.resetKVCache (tinySpec [16] 4 4) (tinySSDWorld (tinySpec [16] 4 4))) =
      (.ok [0, 0, 1, 0], (parityBody [0, 0] 3).2) := eq_of_result hout
  have hfit : stepsFit (tinySpec [16] 4 4) 0 (parityBody [0, 0] 3).2.trace = true := by
    decide +kernel
  rw [emitsGreedy_iff parityEnv_oracle (by decide) (by decide) hrun (List.append_nil _).symm
    (stepsFit_of_eq hfit)]
  decide

/-- The greedy text is 0, 1, 0; the call emits 0, 0, 1, 0, within capacity. -/
theorem ssd_not_greedy :
    Oracle (tinySpec [16] 4 4) parityEnv parity (fun _ _ _ => True) ∧
      (parityBody [0, 0] 3).1 = .ok [0, 0, 1, 0] ∧
      StepsFit (tinySpec [16] 4 4) 0 (parityBody [0, 0] 3).2.trace ∧
      plainGreedy (tinySpec [16] 4 4) parity [0, 0] (tinyCfg 3) (fun _ => .continue) = [0, 1, 0] ∧
      ¬([(0 : Int32), 0, 1, 0] <+: [0, 1, 0] ∨ [(0 : Int32), 1, 0] <+: [0, 0, 1, 0]) := by
  have hfit : stepsFit (tinySpec [16] 4 4) 0 (parityBody [0, 0] 3).2.trace = true := by
    decide +kernel
  exact ⟨parityEnv_oracle, by decide +kernel, stepsFit_of_eq hfit, by decide +kernel, by decide⟩

end Geniex
