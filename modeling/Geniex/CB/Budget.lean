import Geniex.CB.Progress

/-!
# The columns that a batch needs

* `fits_of_demand`: without gaps, a round fits when the largest context length has a column for
  every token that the sessions left can still feed (`totalDemand`).
* `fitting_of_demand`: such a run fits in every round.
-/

namespace Geniex.CB

open FlatMem KVCacheManager Scheduler Prog

variable {I : Type} {spec : LLMSpec} {env : BatchEnv I} {next : List Pair → Int32}
  {holds : ℕ → Column → List Pair → Prop} {batch : List Session} {lens : List ℕ}
  {σ σ' : BatchState}

/-! ## Sums over keyed lists -/

/-- Each entry of one list is charged to an entry of another with the same key. -/
theorem sum_le_sum_of_keys {α β κ : Type} {xs : List α} {ys : List β} {f : α → ℕ} {g : β → ℕ}
    (kx : α → κ) (ky : β → κ) (hx : (xs.map kx).Nodup)
    (h : ∀ x ∈ xs, ∃ y ∈ ys, ky y = kx x ∧ f x ≤ g y) : (xs.map f).sum ≤ (ys.map g).sum := by
  induction xs generalizing ys with
  | nil => exact Nat.zero_le _
  | cons x xs ih =>
    rw [List.map_cons, List.nodup_cons] at hx
    obtain ⟨y, hy, hkey, hle⟩ := h x List.mem_cons_self
    obtain ⟨before, after, rfl⟩ := List.append_of_mem hy
    have hrest : (xs.map f).sum ≤ ((before ++ after).map g).sum := by
      apply ih hx.2
      intro x' hx'
      obtain ⟨y', hy', hkey', hle'⟩ := h x' (List.mem_cons_of_mem _ hx')
      refine ⟨y', ?_, hkey', hle'⟩
      rcases List.mem_append.mp hy' with hin | hin
      · exact List.mem_append_left _ hin
      · rcases List.mem_cons.mp hin with rfl | hin'
        · exact absurd (hkey.symm.trans hkey' ▸ List.mem_map_of_mem hx') hx.1
        · exact List.mem_append_right _ hin'
    simp only [List.map_append, List.sum_append, List.map_cons, List.sum_cons] at hrest ⊢
    omega

/-! ## Demand -/

/-- The columns that a session which is left can come to hold. -/
def Session.demand (s : Session) : ℕ :=
  if s.status = .completed then 0 else s.opening.length + s.limit

/-- The columns that the sessions can come to hold. -/
def totalDemand (ss : Scheduler) : ℕ := (ss.map Session.demand).sum

theorem demand_wake (s : Session) : (wake s).demand = s.demand := by
  have hstatus := wake_completed s
  unfold Session.demand
  rw [wake_eq] at hstatus ⊢
  exact if_congr hstatus rfl rfl

theorem Outcome.demand_le {s s' : Session} (h : Outcome spec batch lens σ s s') :
    s'.demand ≤ s.demand := by
  cases h with
  | idle _ => exact le_rfl
  | @ran p _ =>
    have hsame : (s.advance p.2).demand = s.demand := rfl
    unfold sampleSession
    split_ifs
    · have hzero : ∀ t : Session, t.status = .completed → t.demand = 0 := fun t ht => if_pos ht
      rw [hzero _ rfl]
      exact Nat.zero_le _
    · exact hsame.le
    · exact hsame.le

theorem totalDemand_woken {ss ss' : Scheduler}
    (h : List.Forall₂ (fun s s' => s' = s ∨ s' = wake s) ss ss') :
    totalDemand ss' = totalDemand ss := by
  unfold totalDemand
  induction h with
  | nil => rfl
  | cons hs _ ih =>
    rw [List.map_cons, List.map_cons, List.sum_cons, List.sum_cons, ih]
    rcases hs with rfl | rfl
    · rfl
    · rw [demand_wake]

theorem totalDemand_outcome {ss ss' : Scheduler}
    (h : List.Forall₂ (Outcome spec batch lens σ) ss ss') : totalDemand ss' ≤ totalDemand ss := by
  unfold totalDemand
  induction h with
  | nil => exact le_rfl
  | cons hs _ ih =>
    rw [List.map_cons, List.map_cons, List.sum_cons, List.sum_cons]
    exact Nat.add_le_add hs.demand_le ih

/-! ## A round without gaps -/

/-- Segments without a gap take as many columns as they hold. -/
theorem totalUsed_tight {next : ℕ} {segs : KVCacheManager} (h : Tight next segs) :
    ∀ seg ∈ segs, seg.fin ≤ next + (segs.map (·.length)).sum := by
  induction segs generalizing next with
  | nil => exact fun _ hs => by cases hs
  | cons head rest ih =>
    obtain ⟨hstart, hrest⟩ := h
    have hhead : head.fin = next + head.length := congrArg (· + head.length) hstart
    intro seg hseg
    rw [List.map_cons, List.sum_cons]
    rcases List.mem_cons.mp hseg with rfl | hin
    · omega
    · have := ih hrest seg hin
      omega

theorem allocate_tight {next : ℕ} {segs : KVCacheManager} (h : Tight next segs)
    (hne : segs = [] → next = 0) (id : String) (n : ℕ) : Tight next (allocate segs id n) := by
  unfold allocate
  induction segs generalizing next with
  | nil =>
    rw [hne rfl]
    exact ⟨rfl, trivial⟩
  | cons seg rest ih =>
    refine ⟨h.1, ?_⟩
    cases rest with
    | nil => exact ⟨rfl, trivial⟩
    | cons seg' rest =>
      rw [List.getLast?_cons_cons]
      exact ih h.2 fun hnil => by cases hnil

theorem allocateAll_tight {segs : KVCacheManager} (h : Tight 0 segs) (batch : List Session) :
    Tight 0 (allocateAll batch segs) := by
  induction batch generalizing segs with
  | nil => exact h
  | cons s batch ih =>
    apply ih
    unfold ensureSegment
    split_ifs
    · exact h
    · exact allocate_tight h (fun _ => rfl) s.id 0

/-- A segment that is new belongs to the batch. -/
theorem mem_allocateAll {segs : KVCacheManager} {seg : KVCacheSegment}
    (h : seg ∈ allocateAll batch segs) : seg ∈ segs ∨ seg.sessionId ∈ batch.map (·.id) := by
  induction batch generalizing segs with
  | nil => exact Or.inl h
  | cons s batch ih =>
    rw [List.map_cons, List.mem_cons]
    rcases ih h with hin | hin
    · unfold ensureSegment at hin
      split_ifs at hin
      · exact Or.inl hin
      · rcases List.mem_append.mp hin with hin' | hin'
        · exact Or.inl hin'
        · obtain rfl := List.mem_singleton.mp hin'
          exact Or.inr (Or.inl rfl)
    · exact Or.inr (Or.inr hin)

/-- Without gaps, a round needs no more columns than the sessions that are left can come to
hold. -/
theorem requiredKv_le (h : Serving spec next holds σ) (htight : Tight 0 σ.segs) :
    requiredKv spec σ ≤ totalDemand σ.sessions := by
  have hpicked := h.picked
  have hbatch := picked_getNextBatch spec h.ids
  have hdemand : totalDemand (getNextBatch σ.sessions spec.seqLenPrefill).1 =
      totalDemand σ.sessions := totalDemand_woken batchFrom_sessions
  -- what the segments hold, charged to their sessions
  have hused : kvUsed spec σ ≤ ((getNextBatch σ.sessions spec.seqLenPrefill).1.map fun s =>
      if s.status = .completed then 0 else s.processedLength).sum := by
    have hsum := totalUsed_tight (allocateAll_tight htight (pickedBatch spec σ))
    rw [Nat.zero_add] at hsum
    refine (totalUsed_le hsum).trans (sum_le_sum_of_keys (·.sessionId) (·.id)
      hpicked.segIds fun seg hseg => ?_)
    obtain ⟨s, hs, howned⟩ := hpicked.owned seg hseg
    refine ⟨s, hs, howned.id, ?_⟩
    rw [if_neg howned.status, howned.length]
  -- what the batch adds, charged to its sessions
  have hadded : (pickedLens spec σ).sum ≤ ((getNextBatch σ.sessions spec.seqLenPrefill).1.map
      fun s => growthOf (pickedGrowth spec σ) s.id).sum := by
    rw [← map_snd_pickedGrowth]
    refine sum_le_sum_of_keys Prod.fst (·.id) hbatch.growth_ids fun g hg => ?_
    have hfst : g.1 ∈ (pickedBatch spec σ).map (·.id) := by
      rw [← map_fst_pickedGrowth]
      exact List.mem_map_of_mem hg
    obtain ⟨s, hs, hid⟩ := List.mem_map.mp hfst
    refine ⟨s, hbatch.sublist.subset hs, hid, ?_⟩
    rw [hid, growthOf_of_mem hbatch.growth_ids hg]
  refine (Nat.add_le_add hused hadded).trans ?_
  rw [← List.sum_map_add, ← hdemand]
  apply List.sum_le_sum
  intro s hs
  by_cases hstatus : s.status = .completed
  · have hnot : s ∉ pickedBatch spec σ := fun hin => hbatch.status s hin hstatus
    rw [if_pos hstatus, hbatch.growth_idle hs hnot]
    exact Nat.zero_le _
  · have htracked := (hpicked.sound s hs).toTracked
    have hstream : s.stream.length ≤ s.opening.length + s.limit := by
      unfold Session.stream
      rw [List.length_append]
      exact Nat.add_le_add_left (htracked.active hstatus).short _
    unfold Session.demand
    rw [if_neg hstatus, if_neg hstatus]
    by_cases hin : s ∈ pickedBatch spec σ
    · obtain ⟨p, hzip⟩ := hbatch.row hin
      rw [hbatch.growth_ran hzip]
      exact (stepTokens_eq htracked hstatus
        (hbatch.granted _ (mem_zip_lens hzip))).2.trans hstream
    · rw [hbatch.growth_idle hs hin]
      exact (htracked.room hstatus).le

/-- Without gaps, a round fits when the largest context length has room for all that is left. -/
theorem fits_of_demand (h : Serving spec next holds σ) (htight : Tight 0 σ.segs)
    (hdemand : totalDemand σ.sessions ≤ spec.maxCl - spec.seqLenPrefill) : Fits spec σ :=
  fits_of_maxCl h.active ((requiredKv_le h htight).trans hdemand)

/-! ## Runs without gaps -/

/-- The state between two rounds that have returned: no gaps, and no empty segment. -/
structure Settled (spec : LLMSpec) (next : List Pair → Int32)
    (holds : ℕ → Column → List Pair → Prop) (σ : BatchState) : Prop where
  serving : Serving spec next holds σ
  tight : Tight 0 σ.segs
  filled : ∀ seg ∈ σ.segs, 0 < seg.length

/-- The new segments of a round belong to its batch. -/
theorem prepare_filled (hfilled : ∀ seg ∈ σ.segs, 0 < seg.length) (hlaid : Laid 0 (allocateAll
    (pickedBatch spec σ) σ.segs)) : ∀ seg ∈ (prepare spec σ).segs,
      0 < seg.length ∨ seg.sessionId ∈ (pickedBatch spec σ).map (·.id) := by
  have hsegs : (prepare spec σ).segs = (shiftForGrowth (allocateAll (pickedBatch spec σ) σ.segs)
      (pickedGrowth spec σ)).2 := by
    show (shiftForGrowth (selectCL _ _ _ _).segs _).2 = _
    rw [selectCL_frame]
  have hrelocates := shiftForGrowth_relocates hlaid (pickedGrowth spec σ) fun _ => ()
  rw [← hsegs] at hrelocates
  intro seg' hseg'
  obtain ⟨i, hi, rfl⟩ := List.mem_iff_getElem.mp hseg'
  have hi' : i < (allocateAll (pickedBatch spec σ) σ.segs).length := by
    rw [hrelocates.length_eq]
    exact hi
  have hcarried := hrelocates.get hi' hi
  have hlength : (prepare spec σ).segs[i].length =
      (allocateAll (pickedBatch spec σ) σ.segs)[i].length := hcarried.length
  have hid : (prepare spec σ).segs[i].sessionId =
      (allocateAll (pickedBatch spec σ) σ.segs)[i].sessionId := hcarried.sessionId
  rw [hlength, hid]
  exact (mem_allocateAll (List.getElem_mem hi')).imp_left (hfilled _)

/-- A round that fits and returns leaves no gaps. -/
theorem Settled.round (h : Settled spec next holds σ) (o : CausalOracle spec env next holds)
    (hfits : Fits spec σ) (hrun : batchStep spec env σ = (.ok true, σ')) :
    Settled spec next holds σ' := by
  have hserving := (batchStep_serving o).ok ⟨h.serving, fun _ => hfits⟩ hrun
  rcases batchStep_ok hrun with ⟨hfalse, -⟩ | ⟨-, -, -, τ, hpass, rfl⟩
  · cases hfalse
  · have hstep := h.serving.stepping hfits
    have hpicked : Picked spec.seqLenPrefill τ.sessions
        (getNextBatch σ.sessions spec.seqLenPrefill).2 (pickedBatch spec σ)
        (pickedLens spec σ) := by
      rw [hpass.sessions, prepare_sessions]
      exact picked_getNextBatch spec h.serving.ids
    have hfilled := prepare_filled h.filled h.serving.picked.laid
    -- every segment holds something once the batch has run
    have hgrown : ∀ seg ∈ (prepare spec σ).segs,
        0 < (grow (growthOf (pickedGrowth spec σ)) seg).length := by
      intro seg hseg
      show 0 < seg.length + growthOf (pickedGrowth spec σ) seg.sessionId
      rcases hfilled seg hseg with hpos | hin
      · omega
      · have hin' : seg.sessionId ∈ (pickedGrowth spec σ).map Prod.fst := by
          rw [map_fst_pickedGrowth]
          exact hin
        obtain ⟨g, hg, hid⟩ := List.mem_map.mp hin'
        have hlen : g.2 ∈ pickedLens spec σ := by
          rw [← map_snd_pickedGrowth]
          exact List.mem_map_of_mem hg
        rw [← hid, growthOf_of_mem hpicked.growth_ids hg]
        exact Nat.lt_add_left _ ((pickedLens_spec spec σ).2.1 _ hlen)
    have hsegs := hstep.advanced_segs hpicked hpass (inSegments 0 (pickedLens spec σ))
    have hreleased : ∀ seg ∈ releaseCompleted
        (sampleAll spec (getNextBatch σ.sessions spec.seqLenPrefill).2
          (inSegments 0 (pickedLens spec σ)) (advanceAll (pickedGrowth spec σ) τ)).sessions
        (sampleAll spec (getNextBatch σ.sessions spec.seqLenPrefill).2
          (inSegments 0 (pickedLens spec σ)) (advanceAll (pickedGrowth spec σ) τ)).segs,
        0 < seg.length := by
      intro seg' hseg'
      have hin := (releaseCompleted_sublist _ _).subset hseg'
      rw [hsegs] at hin
      obtain ⟨seg, hseg, rfl⟩ := List.mem_map.mp hin
      exact hgrown seg hseg
    exact ⟨hserving, compact_tight hreleased, fun seg hseg => compact_filled hreleased seg hseg⟩

/-- Every round of a run without gaps fits, if what is left fits at all. -/
theorem fitting_of_demand (o : CausalOracle spec env next holds) (fuel : ℕ) :
    ∀ σ, Settled spec next holds σ →
      totalDemand σ.sessions ≤ spec.maxCl - spec.seqLenPrefill → Fitting spec env fuel σ := by
  induction fuel with
  | zero => exact fun _ _ _ => trivial
  | succ fuel ih =>
    intro σ h hdemand
    have hfits := fits_of_demand h.serving h.tight hdemand
    refine ⟨fun _ => hfits, fun σ' hrun => ih σ' (h.round o hfits hrun) ?_⟩
    obtain ⟨τ, -, -, hout⟩ := round_outcome h.serving.ids hrun
    refine (totalDemand_outcome hout).trans (le_of_eq_of_le ?_ hdemand)
    exact totalDemand_woken batchFrom_sessions

end Geniex.CB
