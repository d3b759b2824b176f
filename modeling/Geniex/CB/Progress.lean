import Geniex.CB.Runs

/-!
# Progress of the batch loop

Whatever the graphs answer,

* `getNextBatch_ne_nil`: a pass has a session as long as one is left;
* `round_work`: every round takes work off (`work`, the rows a session can still run);
* `generateBatch_ends`: the loop ends within the work of its sessions, unless a graph fails;
* `generateBatch_idle`: when it returns, no session is left.
-/

namespace Geniex.CB

open FlatMem KVCacheManager Scheduler Prog

variable {I : Type} {spec : LLMSpec} {env : BatchEnv I} {batch : List Session} {lens : List ℕ}
  {σ σ' : BatchState}

/-! ## A round, on the sessions -/

/-- A session that is left is picked, if the pass has a row at all. -/
theorem getNextBatch_ne_nil {ss : Scheduler} {maxTokens : ℕ} (hpos : 0 < maxTokens)
    (h : hasActiveSessions ss = true) : (getNextBatch ss maxTokens).2 ≠ [] := by
  have hgen : ∀ (ss : Scheduler) (i : ℕ), hasActiveSessions ss = true →
      (batchFrom maxTokens 0 i ss).2 ≠ [] := by
    intro ss
    induction ss with
    | nil => exact fun _ h => absurd h (by decide)
    | cons s ss ih =>
      intro i h
      by_cases hs : s.status = .completed
      · rw [batchFrom_completed hs]
        apply ih
        simpa [hasActiveSessions, hs] using h
      · cases hn : need maxTokens 0 s with
        | none =>
          have := need_none hn
          omega
        | some n =>
          rw [batchFrom_some hs hn]
          exact List.cons_ne_nil _ _
  exact hgen ss 0 h

theorem selectCL_frame (required nValid : ℕ) (σ : BatchState) :
    selectCL spec required nValid σ = { σ with
      kv := (selectCL spec required nValid σ).kv
      activeClIdx := (selectCL spec required nValid σ).activeClIdx } := by
  unfold selectCL
  by_cases hone : spec.numCl ≤ 1
  · rw [if_pos hone]
  · rw [if_neg hone]
    dsimp only
    split_ifs <;> rfl

theorem prepare_sessions (σ : BatchState) :
    (prepare spec σ).sessions = (getNextBatch σ.sessions spec.seqLenPrefill).1 := by
  unfold prepare
  dsimp only
  rw [selectCL_frame]

theorem prepare_streamed (σ : BatchState) : (prepare spec σ).streamed = σ.streamed := by
  unfold prepare
  dsimp only
  rw [selectCL_frame]

/-- The context of the next pass. -/
abbrev pickedContext (spec : LLMSpec) (σ : BatchState) : StepContext :=
  Stepping.context spec (pickedBatch spec σ) (pickedLens spec σ) (prepare spec σ)

/-- What a round that returns has done. -/
theorem batchStep_ok {again : Bool} (h : batchStep spec env σ = (.ok again, σ')) :
    (again = false ∧ σ' = σ ∧ hasActiveSessions σ.sessions = false) ∨
      (again = true ∧ hasActiveSessions σ.sessions = true ∧
        (getNextBatch σ.sessions spec.seqLenPrefill).2 ≠ [] ∧
        ∃ τ, Passing spec env (pickedContext spec σ) (prepare spec σ) spec.shardCount τ ∧
          σ' = finish spec (getNextBatch σ.sessions spec.seqLenPrefill).2 (pickedContext spec σ)
            (pickedGrowth spec σ) τ) := by
  unfold batchStep at h
  rw [get_bind] at h
  by_cases hactive : hasActiveSessions σ.sessions = false
  · rw [if_pos hactive] at h
    have hr := congrArg Prod.fst h
    have hs := congrArg Prod.snd h
    exact Or.inl ⟨(Except.ok.inj hr).symm, hs.symm, hactive⟩
  · rw [if_neg hactive] at h
    rw [Bool.not_eq_false] at hactive
    have hpos : 0 < spec.seqLenPrefill := spec.seqLen_pos .prefill
    have hne := getNextBatch_ne_nil hpos hactive
    rw [if_neg hne, modify_bind, get_bind] at h
    obtain ⟨_, τ, hpass, h⟩ := bind_eq_ok h
    rw [modify_bind] at h
    have hr := congrArg Prod.fst h
    have hs := congrArg Prod.snd h
    refine Or.inr ⟨(Except.ok.inj hr).symm, hactive, hne, τ, ?_, hs.symm⟩
    exact batchShards_passing.ok rfl hpass

/-- A round that throws has picked a batch. -/
theorem batchStep_error {e : String} (h : batchStep spec env σ = (.error e, σ')) :
    σ'.sessions = (getNextBatch σ.sessions spec.seqLenPrefill).1 := by
  unfold batchStep at h
  rw [get_bind] at h
  by_cases hactive : hasActiveSessions σ.sessions = false
  · rw [if_pos hactive] at h
    cases congrArg Prod.fst h
  · rw [if_neg hactive] at h
    dsimp only at h
    by_cases hne : (getNextBatch σ.sessions spec.seqLenPrefill).2 = []
    · rw [if_pos hne, modify_bind] at h
      cases congrArg Prod.fst h
    · rw [if_neg hne, modify_bind, get_bind, bind_apply] at h
      rcases hpass : forRange spec.shardCount (batchShard spec env (pickedContext spec σ))
        (prepare spec σ) with ⟨r, τ⟩
      rw [hpass] at h
      cases r with
      | ok a => cases congrArg Prod.fst h
      | error e' =>
        obtain ⟨n, τ', -, hp, rfl⟩ := batchShards_passing.error rfl hpass
        have hs : σ' = { τ' with tick := τ'.tick + 1 } := (congrArg Prod.snd h).symm
        rw [hs]
        exact hp.sessions.trans (prepare_sessions σ)

/-- The batch of a round, and what the round makes of every session. -/
theorem round_outcome (hids : (σ.sessions.map (·.id)).Nodup)
    (h : batchStep spec env σ = (.ok true, σ')) :
    ∃ τ, Picked spec.seqLenPrefill (getNextBatch σ.sessions spec.seqLenPrefill).1
        (getNextBatch σ.sessions spec.seqLenPrefill).2 (pickedBatch spec σ) (pickedLens spec σ) ∧
      (getNextBatch σ.sessions spec.seqLenPrefill).2 ≠ [] ∧
      List.Forall₂ (Outcome spec (pickedBatch spec σ) (pickedLens spec σ) τ)
        (getNextBatch σ.sessions spec.seqLenPrefill).1 σ'.sessions := by
  rcases batchStep_ok h with ⟨hfalse, -⟩ | ⟨-, -, hne, τ, hpass, rfl⟩
  · cases hfalse
  · have hpicked := picked_getNextBatch spec hids
    have hsessions : τ.sessions = (getNextBatch σ.sessions spec.seqLenPrefill).1 :=
      hpass.sessions.trans (prepare_sessions σ)
    refine ⟨τ, hpicked, hne, ?_⟩
    rw [← hsessions] at hpicked ⊢
    exact hpicked.outcome spec

/-! ## Work -/

/-- The rows that a session can still run. -/
def Session.work (s : Session) : ℕ :=
  if s.status = .completed then 0 else s.opening.length + s.limit - s.processedLength

/-- The rows that all sessions can still run. -/
def totalWork (ss : Scheduler) : ℕ := (ss.map Session.work).sum

/-- A session that is not completed can run a row. -/
theorem Tracked.room {s : Session} (h : Tracked s) (hs : s.status ≠ .completed) :
    s.processedLength < s.opening.length + s.limit := by
  obtain ⟨-, hreply, hshort⟩ := h.active hs
  have hopen := h.opening_length
  by_cases hread : s.processedLength < s.queryLen
  · omega
  · obtain ⟨-, hlen⟩ := hreply (by omega)
    unfold Session.stream at hlen
    rw [List.length_append] at hlen
    omega

theorem work_wake (s : Session) : (wake s).work = s.work := by
  have hstatus := wake_completed s
  unfold Session.work
  rw [wake_eq] at hstatus ⊢
  exact if_congr hstatus rfl rfl

/-- A session of the batch has less work after the round. -/
theorem work_sampled {s : Session} {n : ℕ} (tok : Int32) (h : Tracked s)
    (hs : s.status ≠ .completed) (hn : 0 < n) :
    (sampleSession spec tok (s.advance n)).work < s.work := by
  have hroom := h.room hs
  have hwork : s.work = s.opening.length + s.limit - s.processedLength := if_neg hs
  have hadvance : (s.advance n).work < s.work := by
    have hw : (s.advance n).work = s.opening.length + s.limit - (s.processedLength + n) := if_neg hs
    omega
  unfold sampleSession
  split_ifs
  · have hzero : ∀ t : Session, t.status = .completed → t.work = 0 := fun t ht => if_pos ht
    rw [hzero _ rfl]
    omega
  · exact hadvance
  · exact hadvance

/-- The sessions keep their bookkeeping, and every session of the batch takes work off. -/
theorem outcome_work {τ : BatchState} {ss ss' : Scheduler} {picks : List ℕ} {all : Scheduler}
    (hp : Picked spec.seqLenPrefill all picks batch lens) (htracked : ∀ s ∈ ss, Tracked s)
    (h : List.Forall₂ (Outcome spec batch lens τ) ss ss') :
    (∀ s' ∈ ss', Tracked s') ∧
      totalWork ss' + ss.countP (fun s => decide (s ∈ batch)) ≤ totalWork ss := by
  unfold totalWork
  induction h with
  | nil => exact ⟨fun _ hs => (by cases hs), le_rfl⟩
  | @cons s s' ss ss' hs _ ih =>
    rw [List.forall_mem_cons] at htracked
    obtain ⟨hkept, hsum⟩ := ih htracked.2
    rw [List.forall_mem_cons, List.map_cons, List.map_cons, List.sum_cons, List.sum_cons,
      List.countP_cons]
    cases hs with
    | idle hnot =>
      refine ⟨⟨htracked.1, hkept⟩, ?_⟩
      rw [if_neg (by simpa using hnot)]
      omega
    | @ran p hin =>
      have hmem := (List.of_mem_zip hin).1
      have hn := hp.granted _ (mem_zip_lens hin)
      have hless : (sampleSession spec (nextToken spec (p.1 + p.2 - 1) τ) (s.advance p.2)).work <
          s.work := work_sampled _ htracked.1 (hp.status s hmem) hn.pos
      refine ⟨⟨htracked.1.sampled spec _ (hp.status s hmem) hn, hkept⟩, ?_⟩
      rw [if_pos (by simpa using hmem)]
      omega

/-- What the loop relies on: distinct ids, and bookkeeping that fits. -/
structure Orderly (ss : Scheduler) : Prop where
  ids : (ss.map (·.id)).Nodup
  tracked : ∀ s ∈ ss, Tracked s

theorem Orderly.woken {ss ss' : Scheduler} (h : Orderly ss)
    (hss : List.Forall₂ (fun s s' => s' = s ∨ s' = wake s) ss ss') :
    Orderly ss' ∧ totalWork ss' = totalWork ss := by
  have hids := woken_ids hss
  refine ⟨⟨by rw [hids]; exact h.ids, ?_⟩, ?_⟩
  · intro s' hs'
    obtain ⟨i, hi, rfl⟩ := List.mem_iff_getElem.mp hs'
    have hi' : i < ss.length := by rw [hss.length_eq]; exact hi
    have hof : ss'[i] = ss[i] ∨ ss'[i] = wake ss[i] := hss.get hi' hi
    rcases hof with heq | heq <;> rw [heq]
    · exact h.tracked _ (List.getElem_mem hi')
    · exact (h.tracked _ (List.getElem_mem hi')).wake
  · clear h hids
    unfold totalWork
    induction hss with
    | nil => rfl
    | cons hs _ ih =>
      rw [List.map_cons, List.map_cons, List.sum_cons, List.sum_cons, ih]
      rcases hs with rfl | rfl
      · rfl
      · rw [work_wake]

/-- Every round takes work off. -/
theorem round_work (horder : Orderly σ.sessions) (h : batchStep spec env σ = (.ok true, σ')) :
    Orderly σ'.sessions ∧ totalWork σ'.sessions < totalWork σ.sessions := by
  obtain ⟨τ, hpicked, hne, hout⟩ := round_outcome horder.ids h
  obtain ⟨hwoken, hwork⟩ : Orderly (getNextBatch σ.sessions spec.seqLenPrefill).1 ∧
      totalWork (getNextBatch σ.sessions spec.seqLenPrefill).1 = totalWork σ.sessions :=
    horder.woken batchFrom_sessions
  obtain ⟨htracked, hless⟩ := outcome_work hpicked hwoken.tracked hout
  have hids := outcome_ids hout
  refine ⟨⟨by rw [hids]; exact hpicked.ids, htracked⟩, ?_⟩
  -- the first session of the batch has run
  obtain ⟨k, hk⟩ := List.exists_mem_of_ne_nil _ hne
  have hlt := hpicked.bounds k hk
  have hmem : (getNextBatch σ.sessions spec.seqLenPrefill).1[k] ∈ pickedBatch spec σ := by
    rw [hpicked.batch_eq]
    exact (Picked.zip_index hpicked.bounds [] (List.getElem?_eq_getElem hlt)).2 hk
  have hcount : 0 < (getNextBatch σ.sessions spec.seqLenPrefill).1.countP
      (fun s => decide (s ∈ pickedBatch spec σ)) :=
    List.countP_pos_iff.mpr ⟨_, List.getElem_mem hlt, decide_eq_true hmem⟩
  omega

/-! ## The loop -/

/-- What every round keeps, at both of its exits, every run keeps. -/
theorem generateBatch_stable {P : BatchState → Prop} (h : Stable P (batchStep spec env))
    (fuel : ℕ) : Stable P (generateBatch spec env fuel) := by
  induction fuel with
  | zero => exact Stable.pure _
  | succ fuel ih => exact Stable.bind h fun _ => Stable.ite (fun _ => ih) fun _ => Stable.pure _

/-- A round keeps the bookkeeping. -/
theorem batchStep_orderly : Stable (fun σ => Orderly σ.sessions) (batchStep spec env) := by
  intro σ h
  rcases hrun : batchStep spec env σ with ⟨r, σ'⟩
  cases r with
  | error e =>
    show Orderly σ'.sessions
    rw [batchStep_error hrun]
    exact (h.woken batchFrom_sessions).1
  | ok again =>
    rcases batchStep_ok hrun with ⟨-, rfl, -⟩ | ⟨rfl, -⟩
    · exact h
    · exact (round_work h hrun).1

/-- The loop ends within the work of its sessions, by a return or by a failed graph. -/
theorem generateBatch_ends {fuel : ℕ} (horder : Orderly σ.sessions)
    (hfuel : totalWork σ.sessions < fuel) : (generateBatch spec env fuel σ).1 ≠ .ok false := by
  induction fuel generalizing σ with
  | zero => exact absurd hfuel (Nat.not_lt_zero _)
  | succ fuel ih =>
    unfold generateBatch
    rw [bind_apply]
    rcases hrun : batchStep spec env σ with ⟨r, σ'⟩
    cases r with
    | error e => exact fun hc => by cases hc
    | ok again =>
      cases again with
      | false => exact fun hc => absurd (Except.ok.inj hc) (by decide)
      | true =>
        obtain ⟨horder', hless⟩ := round_work horder hrun
        exact ih horder' (by omega)

/-- When the loop returns, no session is left. -/
theorem generateBatch_idle {fuel : ℕ} (h : generateBatch spec env fuel σ = (.ok true, σ')) :
    hasActiveSessions σ'.sessions = false := by
  induction fuel generalizing σ with
  | zero => cases congrArg Prod.fst h
  | succ fuel ih =>
    unfold generateBatch at h
    obtain ⟨again, τ, hrun, h⟩ := bind_eq_ok h
    rcases batchStep_ok hrun with ⟨rfl, hstay, hidle⟩ | ⟨rfl, -⟩
    · have hs : τ = σ' := congrArg Prod.snd h
      rw [← hs, hstay]
      exact hidle
    · exact ih h

end Geniex.CB
