import Geniex.CB.Serving

/-!
# One pass for several sessions

`Stepping` is the state of a round once room is made. From it

* `Stepping.parts`, `Stepping.rooms`: the rows and the rooms of the sessions lie apart;
* `Stepping.pair`: a row of a session carries the session's next token at its place;
* `Stepping.answer`: every row of a session is answered by the session's own tokens.
-/

namespace Geniex.CB

open FlatMem KVCacheManager Scheduler Prog

/-! ## Rows one behind the other -/

theorem length_inSegments (off : ℕ) (lens : List ℕ) :
    (inSegments off lens).length = lens.length := by
  induction lens generalizing off with
  | nil => rfl
  | cons n lens ih => exact congrArg (· + 1) (ih _)

theorem inSegments_bounds {off : ℕ} {lens : List ℕ} :
    ∀ p ∈ inSegments off lens, off ≤ p.1 ∧ p.1 + p.2 ≤ off + lens.sum := by
  induction lens generalizing off with
  | nil => exact fun _ hp => by cases hp
  | cons n lens ih =>
    intro p hp
    rw [List.sum_cons]
    rcases List.mem_cons.mp hp with rfl | hin
    · show off ≤ off ∧ off + n ≤ _
      omega
    · have := ih p hin
      omega

theorem inSegments_apart (off : ℕ) (lens : List ℕ) :
    (inSegments off lens).Pairwise fun p q => p.1 + p.2 ≤ q.1 := by
  induction lens generalizing off with
  | nil => exact .nil
  | cons n lens ih => exact List.pairwise_cons.mpr ⟨fun q hq => (inSegments_bounds q hq).1, ih _⟩

theorem mem_zip_lens {α : Type} {xs : List α} {lens : List ℕ} {off : ℕ} {x : α} {p : InSegment}
    (hp : (x, p) ∈ xs.zip (inSegments off lens)) : (x, p.2) ∈ xs.zip lens := by
  induction xs generalizing lens off with
  | nil => cases hp
  | cons y xs ih =>
    cases lens with
    | nil => cases hp
    | cons n lens =>
      rw [inSegments, List.zip_cons_cons] at hp
      rw [List.zip_cons_cons]
      rcases List.mem_cons.mp hp with heq | hin
      · obtain ⟨rfl, rfl⟩ := Prod.mk.inj heq
        exact List.mem_cons_self
      · exact List.mem_cons_of_mem _ (ih hin)

/-- The rows of a session carry its tokens. -/
theorem flatMap_inSegments {α β : Type} {f : α × ℕ → List β} {xs : List α} {lens : List ℕ}
    {off : ℕ} (before : List β) (hbefore : before.length = off)
    (hlen : ∀ q ∈ xs.zip lens, (f q).length = q.2) {x : α} {p : InSegment}
    (hp : (x, p) ∈ xs.zip (inSegments off lens)) {j : ℕ} (hj : j < p.2) :
    (before ++ (xs.zip lens).flatMap f)[p.1 + j]? = (f (x, p.2))[j]? := by
  induction xs generalizing lens off before with
  | nil => cases hp
  | cons y xs ih =>
    cases lens with
    | nil => cases hp
    | cons n lens =>
      rw [inSegments, List.zip_cons_cons] at hp
      rw [List.zip_cons_cons] at hlen ⊢
      have hn : (f (y, n)).length = n := hlen _ List.mem_cons_self
      rw [List.flatMap_cons]
      rcases List.mem_cons.mp hp with heq | hin
      · obtain ⟨rfl, rfl⟩ := Prod.mk.inj heq
        show _[off + j]? = _
        rw [List.getElem?_append_right (by omega), hbefore, Nat.add_sub_cancel_left,
          List.getElem?_append_left]
        rw [hn]
        exact hj
      · have hlong : (before ++ f (y, n)).length = off + n := by
          rw [List.length_append, hbefore, hn]
        rw [← List.append_assoc]
        exact ih _ hlong (fun q hq => hlen q (List.mem_cons_of_mem _ hq)) hin

/-- An element of a list without repetition has one partner. -/
theorem zip_unique {α β : Type} {xs : List α} {ys : List β} (hxs : xs.Nodup) {x : α} {a b : β}
    (ha : (x, a) ∈ xs.zip ys) (hb : (x, b) ∈ xs.zip ys) : a = b := by
  induction xs generalizing ys with
  | nil => cases ha
  | cons y xs ih =>
    cases ys with
    | nil => cases ha
    | cons z ys =>
      rw [List.nodup_cons] at hxs
      rw [List.zip_cons_cons] at ha hb
      rcases List.mem_cons.mp ha with heq | ha'
      · obtain ⟨rfl, rfl⟩ := Prod.mk.inj heq
        rcases List.mem_cons.mp hb with heq | hb'
        · exact (Prod.mk.inj heq).2.symm
        · exact absurd (List.of_mem_zip hb').1 hxs.1
      · rcases List.mem_cons.mp hb with heq | hb'
        · obtain ⟨rfl, rfl⟩ := Prod.mk.inj heq
          exact absurd (List.of_mem_zip ha').1 hxs.1
        · exact ih hxs.2 ha' hb'

/-! ## The state of a step -/

variable {I : Type}

/-- A round once room is made: the sessions of the batch and their rows. -/
structure Stepping (spec : LLMSpec) (next : List Pair → Int32)
    (holds : ℕ → Column → List Pair → Prop) (batch : List Session) (lens : List ℕ)
    (σ : BatchState) : Prop where
  serving : Serving spec next holds σ
  roomy : Roomy spec batch (growthList batch lens) σ
  members : batch.Sublist σ.sessions
  status : ∀ s ∈ batch, s.status ≠ .completed
  length : lens.length = batch.length
  granted : ∀ q ∈ batch.zip lens, Granted q.1 q.2
  sum : lens.sum ≤ spec.seqLenPrefill

variable {spec : LLMSpec} {next : List Pair → Int32} {holds : ℕ → Column → List Pair → Prop}
  {batch : List Session} {lens : List ℕ} {σ : BatchState}

/-- The preparation of a round leads to a step. -/
theorem Serving.stepping (h : Serving spec next holds σ) (hfits : Fits spec σ) :
    Stepping spec next holds (pickedBatch spec σ) (pickedLens spec σ) (CB.prepare spec σ) := by
  obtain ⟨hserving, hroomy, hsessions⟩ := h.prepare hfits
  obtain ⟨hlen, hpos, hsum⟩ := pickedLens_spec spec σ
  refine ⟨hserving, hroomy, ?_, (pickedBatch_spec σ).2, hlen, segLengths_granted hpos, hsum⟩
  rw [hsessions]
  exact (pickedBatch_spec σ).1

namespace Stepping

theorem ids (h : Stepping spec next holds batch lens σ) : (batch.map (·.id)).Nodup :=
  h.serving.ids.sublist (h.members.map _)

theorem nodup (h : Stepping spec next holds batch lens σ) : batch.Nodup :=
  List.Nodup.of_map _ h.ids

/-- The segment of a session of the batch. -/
theorem segment (h : Stepping spec next holds batch lens σ) {s : Session} (hs : s ∈ batch) :
    ∃ seg ∈ σ.segs, getSegment σ.segs s.id = some seg ∧
      Owned spec holds (columnsAt spec (spec.kvLen .prefill σ.activeClIdx) σ.kv) seg s := by
  have hsome := (getSegment_isSome σ.segs s.id).mpr (h.roomy.served s hs)
  obtain ⟨seg, hget⟩ := Option.isSome_iff_exists.mp hsome
  obtain ⟨hseg, hid⟩ := mem_of_getSegment hget
  obtain ⟨t, ht, howned⟩ := h.serving.owned seg hseg
  have hts : t = s :=
    h.serving.eq_of_id ht (h.members.subset hs) (howned.id.trans hid)
  exact ⟨seg, hseg, hget, hts ▸ howned⟩

/-- The context of the step. -/
abbrev context (spec : LLMSpec) (batch : List Session) (lens : List ℕ) (σ : BatchState) :
    StepContext := stepContext spec σ.activeClIdx batch lens σ.segs

theorem kvSegs_eq (hserved : ∀ s ∈ batch, s.id ∈ σ.segs.map (·.sessionId)) :
    (context spec batch lens σ).kvSegs =
      batch.map fun s => (getSegment σ.segs s.id).getD ⟨s.id, 0, 0⟩ := by
  have hgen : ∀ l : List Session, (∀ s ∈ l, (getSegment σ.segs s.id).isSome) →
      (l.filterMap fun s => getSegment σ.segs s.id) =
        l.map fun s => (getSegment σ.segs s.id).getD ⟨s.id, 0, 0⟩ := by
    intro l
    induction l with
    | nil => exact fun _ => rfl
    | cons s l ih =>
      intro hl
      obtain ⟨seg, hseg⟩ := Option.isSome_iff_exists.mp (hl s List.mem_cons_self)
      rw [List.filterMap_cons, hseg, List.map_cons, hseg,
        ih fun t ht => hl t (List.mem_cons_of_mem _ ht)]
      rfl
  exact hgen batch fun s hs => (getSegment_isSome σ.segs s.id).mpr (hserved s hs)

/-- A session's part of the pass. -/
theorem mem_parts (hserved : ∀ s ∈ batch, s.id ∈ σ.segs.map (·.sessionId)) {p : Part} :
    p ∈ (context spec batch lens σ).parts ↔
      ∃ s, (s, p.2) ∈ batch.zip (inSegments 0 lens) ∧ getSegment σ.segs s.id = some p.1 := by
  have hparts : (context spec batch lens σ).parts =
      (batch.zip (inSegments 0 lens)).map
        (Prod.map (fun s => (getSegment σ.segs s.id).getD ⟨s.id, 0, 0⟩) id) := by
    show List.zip _ _ = _
    rw [kvSegs_eq hserved, List.zip_map_left]
    rfl
  rw [hparts, List.mem_map]
  constructor
  · rintro ⟨⟨s, o⟩, hin, rfl⟩
    obtain ⟨seg, hget⟩ := Option.isSome_iff_exists.mp
      ((getSegment_isSome σ.segs s.id).mpr (hserved s (List.of_mem_zip hin).1))
    refine ⟨s, hin, ?_⟩
    rw [hget]
    simp [hget]
  · rintro ⟨s, hin, hget⟩
    refine ⟨(s, p.2), hin, ?_⟩
    simp [hget]

/-- The rows of the sessions are apart in the pass. -/
theorem parts_apart (hserved : ∀ s ∈ batch, s.id ∈ σ.segs.map (·.sessionId))
    (hlen : lens.length = batch.length) :
    (context spec batch lens σ).parts.Pairwise fun p q => p.2.1 + p.2.2 ≤ q.2.1 := by
  have hsnd : (context spec batch lens σ).parts.map Prod.snd = inSegments 0 lens := by
    apply List.map_snd_zip
    rw [kvSegs_eq hserved, List.length_map, ← hlen]
    exact (length_inSegments 0 lens).le
  have hpair := inSegments_apart 0 lens
  rwa [← hsnd, List.pairwise_map] at hpair

/-- What a part of the pass is about: the session, its segment and its growth. -/
theorem part (h : Stepping spec next holds batch lens σ) {p : Part}
    (hp : p ∈ (context spec batch lens σ).parts) :
    ∃ s ∈ batch, (s, p.2) ∈ batch.zip (inSegments 0 lens) ∧ p.1 ∈ σ.segs ∧ Granted s p.2.2 ∧
      growthOf (growthList batch lens) p.1.sessionId = p.2.2 ∧
      Owned spec holds (columnsAt spec (spec.kvLen .prefill σ.activeClIdx) σ.kv) p.1 s := by
  obtain ⟨s, hin, hget⟩ := (mem_parts h.roomy.served).mp hp
  have hs := (List.of_mem_zip hin).1
  obtain ⟨seg, hseg, hget', howned⟩ := h.segment hs
  obtain rfl : p.1 = seg := Option.some.inj (hget.symm.trans hget')
  have hlens := mem_zip_lens hin
  refine ⟨s, hs, hin, hseg, h.granted _ hlens, ?_, howned⟩
  have hids : ((growthList batch lens).map Prod.fst).Nodup := by
    have hfst : (growthList batch lens).map Prod.fst = batch.map (·.id) := by
      apply List.map_fst_zip
      rw [List.length_map, h.length]
    rw [hfst]
    exact h.ids
  have hmem : (s.id, p.2.2) ∈ growthList batch lens := by
    unfold growthList
    rw [List.zip_map_left]
    exact List.mem_map.mpr ⟨_, hlens, rfl⟩
  rw [← howned.id]
  exact growthOf_of_mem hids hmem

/-- The rows of the sessions lie apart in the pass. -/
theorem parts (h : Stepping spec next holds batch lens σ) :
    Parts spec.seqLenPrefill (spec.kvLen .prefill σ.activeClIdx)
      (context spec batch lens σ).parts where
  apart := parts_apart h.roomy.served h.length
  rows := by
    intro p hp
    obtain ⟨s, -, hin, -⟩ := h.part hp
    have := inSegments_bounds _ (List.of_mem_zip hin).2
    have := h.sum
    omega
  columns := by
    intro p hp
    obtain ⟨s, -, -, hseg, -⟩ := h.part hp
    exact h.serving.within _ hseg

/-- The rooms of the sessions lie apart in the cache. -/
theorem rooms (h : Stepping spec next holds batch lens σ) :
    Rooms (spec.kvLen .prefill σ.activeClIdx) (context spec batch lens σ).parts where
  within := by
    intro p hp
    obtain ⟨s, -, -, hseg, -, hgrowth, -⟩ := h.part hp
    rw [← hgrowth]
    exact h.roomy.room _ hseg
  apart := by
    intro p hp q hq hne
    obtain ⟨s, hs, hin, hseg, -, hgrowth, howned⟩ := h.part hp
    obtain ⟨s', hs', hin', hseg', -, hgrowth', howned'⟩ := h.part hq
    by_cases hid : p.1.sessionId = q.1.sessionId
    · -- one session has one part
      have hss : s = s' := h.serving.eq_of_id (h.members.subset hs) (h.members.subset hs')
        (howned.id.trans (hid.trans howned'.id.symm))
      subst hss
      have hrow : p.2 = q.2 := zip_unique h.nodup hin hin'
      have hpq : p.1 = q.1 := List.inj_on_of_nodup_map h.serving.segIds hseg hseg' hid
      exact absurd (Prod.ext hpq hrow) hne
    · have hapart := h.roomy.spaced.apart h.serving.segIds hseg hseg' hid
      rw [hgrowth, hgrowth'] at hapart
      unfold KVCacheSegment.fin at hapart ⊢
      omega

/-- A session's column outside its own room lies outside every room. -/
theorem outside (h : Stepping spec next holds batch lens σ) {seg : KVCacheSegment}
    (hseg : seg ∈ σ.segs) {k : ℕ} (hk : k < seg.length) :
    ∀ p ∈ (context spec batch lens σ).parts,
      seg.startPos + k < p.1.fin ∨ p.1.fin + p.2.2 ≤ seg.startPos + k := by
  intro p hp
  obtain ⟨s, -, -, hpseg, -, hgrowth, -⟩ := h.part hp
  by_cases hid : seg.sessionId = p.1.sessionId
  · have hsame : seg = p.1 := List.inj_on_of_nodup_map h.serving.segIds hseg hpseg hid
    unfold KVCacheSegment.fin
    rw [← hsame]
    omega
  · have hapart := h.roomy.spaced.apart h.serving.segIds hseg hpseg hid
    rw [hgrowth] at hapart
    unfold KVCacheSegment.fin at hapart ⊢
    omega

/-! ## Rows and answers -/

theorem getD_resized {l : List Int32} {n i : ℕ} (hi : i < n) :
    (resized l n).getD i 0 = l.getD i 0 := by
  unfold resized
  rw [List.getD_eq_getElem?_getD, List.getD_eq_getElem?_getD]
  rcases Nat.lt_or_ge i l.length with hl | hl
  · rw [List.getElem?_append_left (by rw [List.length_take]; omega), List.getElem?_take, if_pos hi]
  · rw [List.getElem?_append_right (by rw [List.length_take]; omega), List.getElem?_replicate,
      List.getElem?_eq_none hl]
    split_ifs <;> rfl

/-- A row of a session carries the session's next token, at its place in the session. -/
theorem pair (h : Stepping spec next holds batch lens σ) {p : Part} {s : Session}
    (hp : p ∈ (context spec batch lens σ).parts)
    (hin : (s, p.2) ∈ batch.zip (inSegments 0 lens))
    (howned : Owned spec holds (columnsAt spec (spec.kvLen .prefill σ.activeClIdx) σ.kv) p.1 s)
    {j : ℕ} (hj : j < p.2.2) :
    (pairsOf s.stream)[s.processedLength + j]? =
      some ((context spec batch lens σ).pair (p.2.1 + j)) := by
  have hrow : p.2.1 + j < spec.seqLenPrefill := by
    have := h.parts.rows p hp
    omega
  have htokens : ∀ q ∈ batch.zip lens, stepTokens q.1 q.2 =
      (q.1.stream.drop q.1.processedLength).take q.2 ∧
        q.1.processedLength + q.2 ≤ q.1.stream.length := by
    intro q hq
    have hq1 := (List.of_mem_zip hq).1
    exact stepTokens_eq (h.serving.sound _ (h.members.subset hq1)).toTracked (h.status _ hq1)
      (h.granted q hq)
  have hlen : ∀ q ∈ batch.zip lens, (stepTokens q.1 q.2).length = q.2 := by
    intro q hq
    obtain ⟨heq, hle⟩ := htokens q hq
    rw [heq, List.length_take, List.length_drop]
    omega
  obtain ⟨heq, hle⟩ := htokens _ (mem_zip_lens hin)
  have hflat := flatMap_inSegments [] rfl hlen hin hj
  rw [List.nil_append, heq, List.getElem?_take, if_pos hj, List.getElem?_drop] at hflat
  have hlt : s.processedLength + j < s.stream.length := by
    have hle' : s.processedLength + p.2.2 ≤ s.stream.length := hle
    omega
  have htoken : (context spec batch lens σ).concatTokens.getD (p.2.1 + j) 0 =
      s.stream[s.processedLength + j] := by
    show (resized _ _).getD _ _ = _
    rw [getD_resized hrow, List.getD_eq_getElem?_getD, hflat, List.getElem?_eq_getElem hlt]
    rfl
  have hpos : (getPositionIds (context spec batch lens σ).kvSegs
      (context spec batch lens σ).inSegs spec.seqLenPrefill).1.getD (p.2.1 + j) 0 =
      Int32.ofNat (s.processedLength + j) := by
    rw [howned.length]
    exact getPositionIds_row h.parts hp hj
  rw [getElem?_pairsOf, List.getElem?_eq_getElem hlt]
  unfold StepContext.pair
  rw [htoken]
  exact congrArg some (congrArg (Prod.mk _) hpos.symm)

/-- After the pass, a row's column stands for the session's tokens up to the row, and the row is
answered by them. -/
theorem answer (h : Stepping spec next holds batch lens σ) {env : BatchEnv I}
    (o : CausalOracle spec env next holds) {σ' : BatchState}
    (hpass : Passing spec env (context spec batch lens σ) σ spec.shardCount σ') {p : Part}
    {s : Session} (hp : p ∈ (context spec batch lens σ).parts)
    (hin : (s, p.2) ∈ batch.zip (inSegments 0 lens))
    (howned : Owned spec holds (columnsAt spec (spec.kvLen .prefill σ.activeClIdx) σ.kv) p.1 s)
    {r : ℕ} (hr : r < p.2.2) :
    (∀ sh < spec.shardCount,
      holds sh (columnOf spec spec.seqLenPrefill sh (p.2.1 + r)
        (σ'.outs (spec.graphIndex .prefill sh σ.activeClIdx)).kvOut)
        ((pairsOf s.stream).take (s.processedLength + (r + 1)))) ∧
      rowAnswer spec (σ'.outs (spec.graphIndex .prefill (spec.shardCount - 1) σ.activeClIdx))
        (p.2.1 + r) = next ((pairsOf s.stream).take (s.processedLength + (r + 1))) := by
  have hpast : ∀ r < p.2.2, (context spec batch lens σ).past (p.2.1 + r) =
      List.range' p.1.startPos p.1.length := fun r hr => (visible_batch h.parts hp hr).1
  have hblock : ∀ r < p.2.2, (context spec batch lens σ).block (p.2.1 + r) =
      List.range' p.2.1 (r + 1) := fun r hr => (visible_batch h.parts hp hr).2
  have hrow : p.2.1 + r < spec.seqLenPrefill := by
    have := h.parts.rows p hp
    omega
  -- the session has as many tokens as it has columns, and one for each row
  have hlong : s.processedLength + r < (pairsOf s.stream).length := by
    have := h.pair hp hin howned hr
    exact (List.getElem?_eq_some_iff.mp this).1
  have hseen : ((pairsOf s.stream).take s.processedLength).length = p.1.length := by
    rw [List.length_take, ← howned.length]
    omega
  have hrows : ((context spec batch lens σ).block (p.2.1 + r)).map
      (context spec batch lens σ).pair =
      ((pairsOf s.stream).drop s.processedLength).take (r + 1) := by
    rw [hblock r hr]
    apply List.ext_getElem?
    intro j
    rw [List.getElem?_map, List.getElem?_take, List.getElem?_drop]
    rcases Nat.lt_or_ge j (r + 1) with hj | hj
    · rw [List.getElem?_range' hj, if_pos hj, h.pair hp hin howned (by omega), Nat.one_mul]
      rfl
    · rw [if_neg (by omega), List.getElem?_eq_none (by rw [List.length_range']; omega)]
      rfl
  have htake : (pairsOf s.stream).take s.processedLength ++
      ((context spec batch lens σ).block (p.2.1 + r)).map (context spec batch lens σ).pair =
      (pairsOf s.stream).take (s.processedLength + (r + 1)) := by
    rw [hrows, ← List.take_add]
  rw [← htake]
  apply o.pass σ.activeClIdx _ σ.kv σ.tick σ'.outs h.serving.active rfl rfl hpass.pass _ hrow
  · rw [hblock r hr, List.getLast?_range']
    simp
  · intro j hj
    have hj' : j < r + 1 := by
      rw [hblock r hr, List.length_range'] at hj
      exact hj
    have hget : ((context spec batch lens σ).block (p.2.1 + r))[j] = p.2.1 + j := by
      simp only [hblock r hr, List.getElem_range', Nat.one_mul]
    rw [hget, hpast j (by omega), hpast r hr, hblock j (by omega), hblock r hr,
      List.take_range'_of_length_ge hj']
    exact ⟨rfl, rfl⟩
  · rw [hseen, hpast r hr, List.length_range']
  · intro k hk sh hsh
    have hk' : k < p.1.length := by
      rw [hpast r hr, List.length_range'] at hk
      exact hk
    have hget : ((context spec batch lens σ).past (p.2.1 + r))[k] = p.1.startPos + k := by
      simp only [hpast r hr, List.getElem_range', Nat.one_mul]
    have hlen := howned.length
    rw [hget, List.take_take, min_eq_left (by omega)]
    exact howned.recalls k hk' sh hsh

end Stepping

end Geniex.CB
