import Geniex.CB.Budget

/-!
# The columns that a round writes and reads

The code does not check that the columns of a round exist: when the largest context length is too
small, a round goes on at it.

* `Packed`: segments without a gap but for the room of their growth.
* `shiftFrom_reach`: the last of them ends with all the columns that the round needs.
* `round_within_iff`: so a round moves and copies within the rows of the KV tensors exactly when
  the largest context length has room for it.
* `round_isolated`: then no column is visible to the rows of two sessions.
* `relocations_keep_columns`: on the bytes of the buffer, making room and closing the gaps.
-/

namespace Geniex.CB

open FlatMem KVCacheManager Scheduler

variable {I : Type} {spec : LLMSpec} {next : List Pair → Int32}
  {holds : ℕ → Column → List Pair → Prop} {σ : BatchState}

namespace KVCacheManager

/-- The segments lie in order from column `next` on, each with just the room of its growth behind
it. -/
def Packed (growth : String → ℕ) : ℕ → KVCacheManager → Prop
  | _, [] => True
  | next, seg :: rest =>
    seg.startPos = next ∧ Packed growth (seg.fin + growth seg.sessionId) rest

variable {growth : String → ℕ} {next shift : ℕ} {segs : KVCacheManager}

theorem shiftFrom_packed (h : Tight next segs) :
    Packed growth (next + shift) (shiftFrom growth shift segs).2 := by
  induction segs generalizing next shift with
  | nil => trivial
  | cons seg rest ih =>
    obtain ⟨rfl, hrest⟩ := h
    refine ⟨rfl, ?_⟩
    have hfin : seg.startPos + shift + seg.length + growth seg.sessionId =
        seg.fin + (shift + growth seg.sessionId) := by
      unfold KVCacheSegment.fin
      omega
    show Packed growth (seg.startPos + shift + seg.length + growth seg.sessionId) _
    rw [hfin]
    exact ih hrest

/-- Empty segments that are packed are where they are seated. -/
theorem reseat_packed (h : Packed growth next segs) : reseat growth next segs = segs := by
  induction segs generalizing next with
  | nil => rfl
  | cons seg rest ih =>
    obtain ⟨rfl, hrest⟩ := h
    unfold reseat
    rw [ite_self]
    exact congrArg (seg :: ·) (ih hrest)

theorem shiftForGrowth_tight (h : Tight 0 segs) (growthList : List (String × ℕ)) :
    (shiftForGrowth segs growthList).2 = (shiftFrom (growthOf growthList) 0 segs).2 := by
  have hpacked : Packed (growthOf growthList) (0 + 0) (shiftFrom (growthOf growthList) 0 segs).2 :=
    shiftFrom_packed h
  exact reseat_packed hpacked

/-- When all that the shifted segments hold and can grow by stays below `n`, so does all that they
need together. -/
theorem shiftFrom_reach {n : ℕ} (h : Tight next segs)
    (hmoves : ∀ mv ∈ (shiftFrom growth shift segs).1, mv.dst + mv.len ≤ n)
    (hrooms : ∀ seg ∈ (shiftFrom growth shift segs).2, 0 < growth seg.sessionId →
      seg.fin + growth seg.sessionId ≤ n)
    (hfilled : ∀ seg ∈ segs, 0 < seg.length ∨ 0 < growth seg.sessionId) (hne : segs ≠ [])
    (hshift : 0 < shift + totalGrowth growth segs) :
    next + (segs.map (·.length)).sum + (shift + totalGrowth growth segs) ≤ n := by
  induction segs generalizing next shift with
  | nil => exact absurd rfl hne
  | cons seg rest ih =>
    obtain ⟨rfl, hrest⟩ := h
    have hgrow : totalGrowth growth (seg :: rest) =
        growth seg.sessionId + totalGrowth growth rest := rfl
    have hmoves' : ∀ mv ∈ (shiftFrom growth (shift + growth seg.sessionId) rest).1,
        mv.dst + mv.len ≤ n := fun mv hmv => hmoves mv (List.mem_append_left _ hmv)
    have hrooms' : ∀ seg' ∈ (shiftFrom growth (shift + growth seg.sessionId) rest).2,
        0 < growth seg'.sessionId → seg'.fin + growth seg'.sessionId ≤ n :=
      fun seg' hseg' => hrooms seg' (List.mem_cons_of_mem _ hseg')
    rw [List.map_cons, List.sum_cons]
    cases rest with
    | nil =>
      -- the last segment grows, or has been moved by the growth of the others
      have hzero : totalGrowth growth [] = 0 := rfl
      rw [List.map_nil, List.sum_nil]
      by_cases hpos : 0 < growth seg.sessionId
      · have hroom : seg.startPos + shift + seg.length + growth seg.sessionId ≤ n :=
          hrooms _ List.mem_cons_self hpos
        omega
      · have hlen := (hfilled seg List.mem_cons_self).resolve_right hpos
        have hmove : (⟨seg.startPos, seg.startPos + shift, seg.length⟩ : Move) ∈
            (shiftFrom growth shift [seg]).1 := by
          refine List.mem_append_right _ ?_
          rw [if_pos ⟨by omega, hlen⟩]
          exact List.mem_singleton_self _
        have hin : seg.startPos + shift + seg.length ≤ n := hmoves _ hmove
        omega
    | cons seg' rest =>
      have hall := ih hrest hmoves' hrooms'
        (fun s hs => hfilled s (List.mem_cons_of_mem _ hs)) (List.cons_ne_nil _ _) (by omega)
      unfold KVCacheSegment.fin at hall
      omega

/-- Segments without a gap use as many columns as they hold. -/
theorem totalUsed_eq (h : Tight next segs) (hne : segs ≠ []) :
    totalUsed segs = next + (segs.map (·.length)).sum := by
  apply le_antisymm
  · exact totalUsed_le (totalUsed_tight h)
  · have hlast : ∃ seg ∈ segs, next + (segs.map (·.length)).sum = seg.fin := by
      induction segs generalizing next with
      | nil => exact absurd rfl hne
      | cons seg rest ih =>
        obtain ⟨rfl, hrest⟩ := h
        cases rest with
        | nil => exact ⟨seg, List.mem_cons_self, rfl⟩
        | cons seg' rest =>
          obtain ⟨last, hin, heq⟩ := ih hrest (List.cons_ne_nil _ _)
          refine ⟨last, List.mem_cons_of_mem _ hin, ?_⟩
          rw [← heq, List.map_cons, List.sum_cons, ← Nat.add_assoc]
          rfl
    obtain ⟨seg, hin, heq⟩ := hlast
    rw [heq]
    exact fin_le_totalUsed hin

end KVCacheManager

/-! ## A round -/

/-- A scheduler, its segments and its model between two rounds: no gaps, and no empty segment. -/
structure Compacted (spec : LLMSpec) (σ : BatchState) : Prop where
  active : σ.activeClIdx < spec.numCl
  ids : (σ.sessions.map (·.id)).Nodup
  segIds : (σ.segs.map (·.sessionId)).Nodup
  tight : Tight 0 σ.segs
  filled : ∀ seg ∈ σ.segs, 0 < seg.length
  within : ∀ seg ∈ σ.segs, seg.fin ≤ spec.kvLen .prefill σ.activeClIdx

/-- The moves that make room for the next batch. -/
def roundMoves (spec : LLMSpec) (σ : BatchState) : List Move :=
  (shiftForGrowth (allocateAll (pickedBatch spec σ) σ.segs) (pickedGrowth spec σ)).1

/-- The next round moves and copies columns of the KV rows only. -/
def StaysWithin (spec : LLMSpec) (σ : BatchState) : Prop :=
  (∀ mv ∈ roundMoves spec σ, mv.Within (spec.kvLen .prefill (prepare spec σ).activeClIdx)) ∧
    ∀ p ∈ (pickedContext spec σ).parts,
      p.1.fin + p.2.2 ≤ spec.kvLen .prefill (prepare spec σ).activeClIdx

theorem nodup_allocateAll {batch : List Session} {segs : KVCacheManager}
    (h : (segs.map (·.sessionId)).Nodup) :
    ((allocateAll batch segs).map (·.sessionId)).Nodup := by
  induction batch generalizing segs with
  | nil => exact h
  | cons s batch ih =>
    apply ih
    rw [ids_ensureSegment]
    split_ifs with hin
    · exact h
    · rw [List.nodup_append]
      refine ⟨h, List.nodup_singleton _, fun i hi j hj heq => hin ?_⟩
      rw [List.mem_singleton] at hj
      exact hj ▸ heq ▸ hi

theorem prepare_segs (σ : BatchState) : (prepare spec σ).segs =
    (shiftForGrowth (allocateAll (pickedBatch spec σ) σ.segs) (pickedGrowth spec σ)).2 := by
  show (shiftForGrowth (selectCL _ _ _ _).segs _).2 = _
  rw [selectCL_frame]

theorem prepare_active (h : σ.activeClIdx < spec.numCl) : (prepare spec σ).activeClIdx =
    promoteTarget spec (requiredKv spec σ) spec.seqLenPrefill σ.activeClIdx := by
  have hpicked : (picked spec σ).activeClIdx < spec.numCl := h
  show (selectCL spec _ _ (picked spec σ)).activeClIdx = _
  rw [selectCL_eq _ _ hpicked]
  rfl

namespace Compacted

/-- The segments of the next batch, before they are shifted. -/
abbrev segs (spec : LLMSpec) (σ : BatchState) : KVCacheManager :=
  allocateAll (pickedBatch spec σ) σ.segs

theorem segs_tight (h : Compacted spec σ) : Tight 0 (segs spec σ) := allocateAll_tight h.tight _

theorem segs_ids (h : Compacted spec σ) :
    (prepare spec σ).segs.map (·.sessionId) = (segs spec σ).map (·.sessionId) := by
  rw [prepare_segs]
  exact (shiftForGrowth_relocates h.segs_tight.laid (pickedGrowth spec σ) fun _ => ()).ids

/-- Every session of the batch takes part in the pass, with its segment and its rows. -/
theorem mem_parts (h : Compacted spec σ) {p : Part} : p ∈ (pickedContext spec σ).parts ↔
    ∃ s, (s, p.2) ∈ (pickedBatch spec σ).zip (inSegments 0 (pickedLens spec σ)) ∧
      getSegment (prepare spec σ).segs s.id = some p.1 := by
  refine Stepping.mem_parts fun s hs => ?_
  rw [h.segs_ids]
  exact mem_ids_allocateAll.mpr (Or.inr (List.mem_map_of_mem hs))

/-- A segment that grows is one of the pass. -/
theorem grows (h : Compacted spec σ) {seg : KVCacheSegment} (hseg : seg ∈ (prepare spec σ).segs)
    (hpos : 0 < growthOf (pickedGrowth spec σ) seg.sessionId) :
    ∃ p ∈ (pickedContext spec σ).parts, p.1 = seg ∧
      p.2.2 = growthOf (pickedGrowth spec σ) seg.sessionId := by
  have hpicked := picked_getNextBatch spec h.ids
  have hin : seg.sessionId ∈ (pickedBatch spec σ).map (·.id) := by
    by_contra hout
    rw [← map_fst_pickedGrowth] at hout
    rw [growthOf_out hout] at hpos
    exact absurd hpos (Nat.lt_irrefl 0)
  obtain ⟨s, hs, hid⟩ := List.mem_map.mp hin
  obtain ⟨p, hp⟩ := hpicked.row hs
  refine ⟨(seg, p), h.mem_parts.mpr ⟨s, hp, ?_⟩, rfl, ?_⟩
  · -- the ids are distinct, so the first segment with the id is the one
    have hmem : s.id ∈ (prepare spec σ).segs.map (·.sessionId) := by
      rw [hid]
      exact List.mem_map_of_mem hseg
    obtain ⟨seg', hget⟩ := Option.isSome_iff_exists.mp ((getSegment_isSome _ _).mpr hmem)
    obtain ⟨hseg', hid'⟩ := mem_of_getSegment hget
    have hnodup : ((prepare spec σ).segs.map (·.sessionId)).Nodup := by
      rw [h.segs_ids]
      exact nodup_allocateAll h.segIds
    rw [hget, List.inj_on_of_nodup_map hnodup hseg' hseg (hid'.trans hid)]
  · rw [← hid]
    exact (hpicked.growth_ran hp).symm

/-- The segments grow by all the rows of the batch. -/
theorem sum_lens (h : Compacted spec σ) :
    (pickedLens spec σ).sum ≤ totalGrowth (growthOf (pickedGrowth spec σ)) (segs spec σ) := by
  have hpicked := picked_getNextBatch spec h.ids
  rw [← map_snd_pickedGrowth]
  refine sum_le_sum_of_keys Prod.fst (·.sessionId) hpicked.growth_ids fun g hg => ?_
  have hin : g.1 ∈ (segs spec σ).map (·.sessionId) := by
    refine mem_ids_allocateAll.mpr (Or.inr ?_)
    rw [← map_fst_pickedGrowth]
    exact List.mem_map_of_mem hg
  obtain ⟨seg, hseg, hid⟩ := List.mem_map.mp hin
  exact ⟨seg, hseg, hid, by rw [hid, growthOf_of_mem hpicked.growth_ids hg]⟩

/-- Without rows, the round needs the columns in use only. -/
theorem idle (h : Compacted spec σ) (hzero : (pickedLens spec σ).sum = 0) :
    requiredKv spec σ ≤ spec.kvLen .prefill σ.activeClIdx := by
  have hpicked := picked_getNextBatch spec h.ids
  have hnone : pickedBatch spec σ = [] := by
    apply List.eq_nil_of_length_eq_zero
    rw [← hpicked.length]
    by_contra hne
    obtain ⟨n, hn⟩ := List.exists_mem_of_length_pos (Nat.pos_of_ne_zero hne)
    have hpos := (pickedLens_spec spec σ).2.1 n hn
    have hle := List.single_le_sum (fun _ _ => Nat.zero_le _) _ hn
    omega
  unfold requiredKv kvUsed
  rw [hzero, hnone]
  exact totalUsed_le h.within

/-- Promotion finds room exactly when the largest context length has it. -/
theorem fits_iff (h : Compacted spec σ) :
    Fits spec σ ↔ requiredKv spec σ ≤ spec.maxCl - spec.seqLenPrefill := by
  have htarget := promoteTarget_spec (requiredKv spec σ) spec.seqLenPrefill h.active
  refine ⟨fun hfits => hfits.trans ?_, fits_of_maxCl h.active⟩
  have hlast : spec.numCl - 1 < spec.numCl := Nat.sub_lt spec.numCl_pos Nat.one_pos
  exact (spec.kvLen_mono (Nat.le_sub_one_of_lt htarget.2.1) hlast).trans_eq
    (spec.kvLen_last (p := .prefill) (Nat.sub_add_cancel spec.numCl_pos))

/-- A round that fits stays within the rows. -/
theorem staysWithin (h : Compacted spec σ) (hfits : Fits spec σ) : StaysWithin spec σ := by
  have hpicked := picked_getNextBatch spec h.ids
  have hgrowth : totalGrowth (growthOf (pickedGrowth spec σ)) (segs spec σ) ≤
      (pickedLens spec σ).sum := by
    rw [← map_snd_pickedGrowth]
    exact totalGrowth_le (nodup_allocateAll h.segIds) _
  have hroom : totalUsed (segs spec σ) +
      totalGrowth (growthOf (pickedGrowth spec σ)) (segs spec σ) ≤
        spec.kvLen .prefill (prepare spec σ).activeClIdx := by
    rw [prepare_active h.active]
    exact (Nat.add_le_add_left hgrowth _).trans hfits
  refine ⟨fun mv hmv => (shiftForGrowth_within h.segs_tight.laid _ mv hmv).mono hroom, ?_⟩
  intro p hp
  obtain ⟨s, hin, hget⟩ := h.mem_parts.mp hp
  obtain ⟨hseg, hid⟩ := mem_of_getSegment hget
  rw [prepare_segs] at hseg
  have hfin := shiftForGrowth_fin h.segs_tight.laid _ p.1 hseg
  rw [hid, hpicked.growth_ran hin] at hfin
  exact hfin.trans hroom

/-- A round that stays within the rows fits. -/
theorem fits (h : Compacted spec σ) (hwithin : StaysWithin spec σ) : Fits spec σ := by
  have htarget := promoteTarget_spec (requiredKv spec σ) spec.seqLenPrefill h.active
  have hpicked := picked_getNextBatch spec h.ids
  obtain ⟨hmoves, hrooms⟩ := hwithin
  rw [prepare_active h.active] at hmoves hrooms
  unfold Fits
  rcases Nat.eq_zero_or_pos (pickedLens spec σ).sum with hzero | hpos
  · exact (h.idle hzero).trans (spec.kvLen_mono htarget.1 htarget.2.1)
  · have hsum := h.sum_lens
    have hne : segs spec σ ≠ [] := by
      intro hnil
      rw [hnil] at hsum
      exact absurd (hpos.trans_le hsum) (Nat.lt_irrefl 0)
    have hsegs : (prepare spec σ).segs =
        (shiftFrom (growthOf (pickedGrowth spec σ)) 0 (segs spec σ)).2 :=
      (prepare_segs σ).trans (shiftForGrowth_tight h.segs_tight _)
    have hreach := shiftFrom_reach h.segs_tight (fun mv hmv => (hmoves mv hmv).2)
      (fun seg hseg hgrows => ?_) (fun seg hseg => ?_) hne (by omega)
    · have hused : kvUsed spec σ = 0 + ((segs spec σ).map (·.length)).sum :=
        totalUsed_eq h.segs_tight hne
      have hrequired : requiredKv spec σ = kvUsed spec σ + (pickedLens spec σ).sum := rfl
      omega
    · obtain ⟨p, hp, rfl, hrow⟩ := h.grows (hsegs ▸ hseg) hgrows
      rw [← hrow]
      exact hrooms p hp
    · rcases mem_allocateAll hseg with hin | hin
      · exact Or.inl (h.filled seg hin)
      · obtain ⟨s, hs, hid⟩ := List.mem_map.mp hin
        obtain ⟨p, hp⟩ := hpicked.row hs
        rw [← hid, hpicked.growth_ran hp]
        exact Or.inr (hpicked.granted _ (mem_zip_lens hp)).pos

end Compacted

/-- The next round stays within the rows of the KV tensors if and only if the largest context
length has a column for all that is in use and all that the round adds. -/
theorem round_within_iff (h : Compacted spec σ) :
    StaysWithin spec σ ↔ requiredKv spec σ ≤ spec.maxCl - spec.seqLenPrefill :=
  ⟨fun hwithin => h.fits_iff.mp (h.fits hwithin),
    fun hroom => h.staysWithin (h.fits_iff.mpr hroom)⟩

/-- A scheduler whose first session holds all the columns but one, and whose second one has a prompt
of two tokens. -/
def tinyFull (n : ℕ) : BatchState where
  sessions := [{ newSession "a" [1, 1] 20 with
      processedLength := n, status := .running, generatedTokens := List.replicate (n - 1) 0,
      generatedLen := n - 1 }, newSession "b" [1, 1] 3]
  segs := [⟨"a", 0, n⟩]
  kv := fun _ _ => 0
  activeClIdx := 0
  outs := fun _ => ⟨fun _ _ => 0, fun _ => 0, fun _ => 0⟩
  hiddenIn := fun _ _ => 0
  tick := 0
  streamed := []

theorem tinyFull_compacted {n : ℕ} (hpos : 0 < n) (hn : n ≤ 12) :
    Compacted sixteenColumns (tinyFull n) where
  active := show 0 < sixteenColumns.numCl by decide
  ids := show ["a", "b"].Nodup by decide
  segIds := List.nodup_singleton _
  tight := ⟨rfl, trivial⟩
  filled := fun seg hseg => by
    rw [List.mem_singleton.mp hseg]
    exact hpos
  within := fun seg hseg => by
    rw [List.mem_singleton.mp hseg]
    show 0 + n ≤ 12
    omega

/-- With eleven columns in use, a round of three rows writes past the twelfth. -/
theorem round_within_iff_tiny : ¬StaysWithin sixteenColumns (tinyFull 11) := by
  rw [round_within_iff (tinyFull_compacted (by decide) (by decide))]
  decide

/-! ## What the rows of a round see -/

namespace Compacted

/-- The parts of the next pass, when the round stays within the buffer. -/
theorem parts (h : Compacted spec σ) (hwithin : StaysWithin spec σ) :
    Parts spec.seqLenPrefill (spec.kvLen .prefill (prepare spec σ).activeClIdx)
      (pickedContext spec σ).parts where
  apart := by
    refine Stepping.parts_apart (fun s hs => ?_) (pickedLens_spec spec σ).1
    rw [h.segs_ids]
    exact mem_ids_allocateAll.mpr (Or.inr (List.mem_map_of_mem hs))
  rows := by
    intro p hp
    obtain ⟨s, hin, -⟩ := h.mem_parts.mp hp
    have hbound := inSegments_bounds _ (List.of_mem_zip hin).2
    have hsum := (picked_getNextBatch spec h.ids).sum
    omega
  columns := fun p hp => (Nat.le_add_right _ _).trans (hwithin.2 p hp)

/-- The segments of two parts lie apart. -/
theorem apart (h : Compacted spec σ) {p q : Part} (hp : p ∈ (pickedContext spec σ).parts)
    (hq : q ∈ (pickedContext spec σ).parts) (hne : p ≠ q) :
    p.1.fin ≤ q.1.startPos ∨ q.1.fin ≤ p.1.startPos := by
  have hpicked := picked_getNextBatch spec h.ids
  obtain ⟨s, hs, hgets⟩ := h.mem_parts.mp hp
  obtain ⟨t, ht, hgett⟩ := h.mem_parts.mp hq
  obtain ⟨hsegs, hids⟩ := mem_of_getSegment hgets
  obtain ⟨hsegt, hidt⟩ := mem_of_getSegment hgett
  have hnodup : ((prepare spec σ).segs.map (·.sessionId)).Nodup := by
    rw [h.segs_ids]
    exact nodup_allocateAll h.segIds
  have hspaced : Spaced (growthOf (pickedGrowth spec σ)) 0 (prepare spec σ).segs := by
    rw [prepare_segs]
    exact shiftForGrowth_spaced h.segs_tight.laid _
  have hdiff : p.1.sessionId ≠ q.1.sessionId := by
    intro heq
    have hst : s = t := List.inj_on_of_nodup_map
      (hpicked.ids.sublist (hpicked.sublist.map _)) (List.of_mem_zip hs).1 (List.of_mem_zip ht).1
      (hids.symm.trans (heq.trans hidt))
    subst hst
    have hrows := zip_unique (List.Nodup.of_map _ (hpicked.ids.sublist (hpicked.sublist.map _)))
      hs ht
    exact hne (Prod.ext (Option.some.inj (hgets.symm.trans hgett)) hrows)
  have hapart := hspaced.apart hnodup hsegs hsegt hdiff
  omega

end Compacted

/-- In a round that has room, a row sees the columns of its own session and the rows
of its session up to itself, no column is seen by the rows of two sessions, and the rows behind the
batch see nothing. -/
theorem round_isolated (h : Compacted spec σ)
    (hroom : requiredKv spec σ ≤ spec.maxCl - spec.seqLenPrefill) :
    let ctx := pickedContext spec σ
    (∀ p ∈ ctx.parts, ∀ r < p.2.2, ctx.past (p.2.1 + r) = List.range' p.1.startPos p.1.length ∧
      ctx.block (p.2.1 + r) = List.range' p.2.1 (r + 1)) ∧
    (∀ p ∈ ctx.parts, ∀ q ∈ ctx.parts, p ≠ q → ∀ r < p.2.2, ∀ r' < q.2.2,
      (ctx.past (p.2.1 + r)).Disjoint (ctx.past (q.2.1 + r')) ∧
        (ctx.block (p.2.1 + r)).Disjoint (ctx.block (q.2.1 + r'))) ∧
    ∀ k, (pickedLens spec σ).sum ≤ k → ∀ c < ctx.kvLen + ctx.seqLen,
      ctx.mask (k * (ctx.kvLen + ctx.seqLen) + c) = maskedValue := by
  intro ctx
  have hparts := h.parts (h.staysWithin (h.fits_iff.mpr hroom))
  have hsees : ∀ p ∈ ctx.parts, ∀ r < p.2.2,
      ctx.past (p.2.1 + r) = List.range' p.1.startPos p.1.length ∧
        ctx.block (p.2.1 + r) = List.range' p.2.1 (r + 1) :=
    fun p hp r hr => visible_batch hparts hp hr
  refine ⟨hsees, fun p hp q hq hne r hr r' hr' => ?_, fun k hk c hc => ?_⟩
  · rw [(hsees p hp r hr).1, (hsees q hq r' hr').1, (hsees p hp r hr).2, (hsees q hq r' hr').2]
    have hcolumns := h.apart hp hq hne
    have hrows : p.2.1 + p.2.2 ≤ q.2.1 ∨ q.2.1 + q.2.2 ≤ p.2.1 := by
      by_contra hno
      rw [not_or, not_le, not_le] at hno
      have hlt : p.2.1 < q.2.1 + q.2.2 ∧ q.2.1 < p.2.1 + p.2.2 := ⟨hno.2, hno.1⟩
      rcases Nat.le_total p.2.1 q.2.1 with hle | hle
      · have hsame := hparts.eq_of_row hp hq (show q.2.1 - p.2.1 < p.2.2 by omega) (by omega)
          (by omega)
        exact hne hsame.symm
      · have hsame := hparts.eq_of_row hq hp (show p.2.1 - q.2.1 < q.2.2 by omega) (by omega)
          (by omega)
        exact hne hsame
    unfold KVCacheSegment.fin at hcolumns
    constructor
    · intro c hc hc'
      rw [List.mem_range'_1] at hc hc'
      omega
    · intro j hj hj'
      rw [List.mem_range'_1] at hj hj'
      omega
  · refine getAttentionMask_padding hparts (fun p hp => Or.inr ?_) hc
    obtain ⟨s, hin, -⟩ := h.mem_parts.mp hp
    have hbound := inSegments_bounds _ (List.of_mem_zip hin).2
    omega

theorem round_isolated_tiny : requiredKv sixteenColumns (tinyFull 5) ≤ 12 ∧
    ∀ p ∈ (pickedContext sixteenColumns (tinyFull 5)).parts,
      ∀ q ∈ (pickedContext sixteenColumns (tinyFull 5)).parts, p ≠ q →
      ∀ r < p.2.2, ∀ r' < q.2.2,
        ((pickedContext sixteenColumns (tinyFull 5)).past (p.2.1 + r)).Disjoint
            ((pickedContext sixteenColumns (tinyFull 5)).past (q.2.1 + r')) ∧
          ((pickedContext sixteenColumns (tinyFull 5)).block (p.2.1 + r)).Disjoint
            ((pickedContext sixteenColumns (tinyFull 5)).block (q.2.1 + r')) :=
  ⟨by decide, (round_isolated (tinyFull_compacted (by decide) (by decide)) (by decide)).2.1⟩

/-! ## The bytes of the buffer -/

/-- Making room and closing the gaps keep the bytes of every session's columns, in every tensor. -/
theorem relocations_keep_columns {segs : KVCacheManager} (h : Laid 0 segs)
    (hids : (segs.map (·.sessionId)).Nodup) (growthList : List (String × ℕ)) {clIdx : ℕ}
    (hroom : totalUsed segs + (growthList.map Prod.snd).sum ≤ spec.kvLen .prefill clIdx)
    (kv : KVMem) :
    let up := shiftForGrowth segs growthList
    let kvUp := moveAll spec clIdx up.1 kv
    let down := compact up.2
    let kvDown := moveAll spec clIdx down.1 kvUp
    let columns := columnsAt spec (spec.kvLen .prefill clIdx)
    Relocates (columns kv) (columns kvUp) segs up.2 ∧ Spaced (growthOf growthList) 0 up.2 ∧
      Relocates (columns kv) (columns kvDown) segs down.2 ∧
      ((∀ seg ∈ segs, 0 < seg.length) → Tight 0 down.2) := by
  intro up kvUp down kvDown columns
  have htotal := (Nat.add_le_add_left (totalGrowth_le hids growthList) _).trans hroom
  have hspaced : Spaced (growthOf growthList) 0 up.2 := shiftForGrowth_spaced h growthList
  have hfin : ∀ seg ∈ up.2, seg.fin ≤ spec.kvLen .prefill clIdx := fun seg hseg =>
    (Nat.le_add_right _ _).trans ((shiftForGrowth_fin h growthList seg hseg).trans htotal)
  have hup : Relocates (columns kv) (columns kvUp) segs up.2 :=
    moveAll_relocates (fun mv hmv => (shiftForGrowth_within h growthList mv hmv).mono htotal) hfin
      kv (shiftForGrowth_relocates h growthList)
  have hused : totalUsed up.2 ≤ spec.kvLen .prefill clIdx := totalUsed_le hfin
  have hdown : Relocates (columns kvUp) (columns kvDown) up.2 down.2 :=
    moveAll_relocates (fun mv hmv => (compact_within hspaced.laid mv hmv).mono hused)
      (fun seg hseg => (compact_fin hspaced.laid seg hseg).trans hused) kvUp
      (compact_relocates hspaced.laid)
  refine ⟨hup, hspaced, hup.trans hdown, fun hpos => compact_tight fun seg hseg => ?_⟩
  -- the lengths are those of before
  have hmem : seg.length ∈ segs.map (·.length) := by
    rw [← hup.lengths]
    exact List.mem_map_of_mem hseg
  obtain ⟨seg', hseg', hlen⟩ := List.mem_map.mp hmem
  rw [← hlen]
  exact hpos seg' hseg'

/-- Two sessions in a row of twelve columns, each of whose bytes is its index. -/
theorem relocations_keep_columns_tiny :
    let segs : KVCacheManager := [⟨"a", 0, 3⟩, ⟨"b", 4, 2⟩]
    let growthList := [("a", 2), ("b", 1)]
    let kv : KVMem := fun _ i => UInt8.ofNat i
    let up := shiftForGrowth segs growthList
    let kvUp := moveAll sixteenColumns 0 up.1 kv
    let kvDown := moveAll sixteenColumns 0 (compact up.2).1 kvUp
    (up.2 = [⟨"a", 0, 3⟩, ⟨"b", 6, 2⟩] ∧ (compact up.2).2 = [⟨"a", 0, 3⟩, ⟨"b", 3, 2⟩]) ∧
      Relocates (columnsAt sixteenColumns 12 kv) (columnsAt sixteenColumns 12 kvUp) segs up.2 ∧
      Spaced (growthOf growthList) 0 up.2 ∧
      Relocates (columnsAt sixteenColumns 12 kv) (columnsAt sixteenColumns 12 kvDown) segs
        (compact up.2).2 ∧
      Tight 0 (compact up.2).2 := by
  intro segs growthList kv up kvUp kvDown
  obtain ⟨hup, hspaced, hdown, htight⟩ := @relocations_keep_columns sixteenColumns segs
    ⟨by decide, by decide, trivial⟩ (by decide) growthList 0 (by decide) kv
  exact ⟨⟨by decide, by decide⟩, hup, hspaced, hdown, htight (by decide)⟩

end Geniex.CB
