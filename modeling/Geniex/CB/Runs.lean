import Geniex.CB.Finish

/-!
# Runs of the batch loop

* `batchStep_serving`: a round keeps the service at both of its exits.
* `Fitting`: every round of a run fits.
* `generateBatch_serving`: so does a run, whether it returns, throws or goes on.
* `Operated`: what a caller can do under distinct ids; `Reachable`: what keeps the service.
* `sessions_answered`: what the sessions of such a caller have got by then.
-/

namespace Geniex.CB

open FlatMem KVCacheManager Scheduler Prog

variable {I : Type} {spec : LLMSpec} {env : BatchEnv I} {next : List Pair → Int32}
  {holds : ℕ → Column → List Pair → Prop} {batch : List Session} {lens : List ℕ} {σ : BatchState}

/-- The service is about the sessions, the segments and the buffer. -/
theorem Serving.congr {σ' : BatchState} (h : Serving spec next holds σ)
    (hsessions : σ'.sessions = σ.sessions) (hsegs : σ'.segs = σ.segs) (hkv : σ'.kv = σ.kv)
    (hcl : σ'.activeClIdx = σ.activeClIdx) : Serving spec next holds σ' := by
  refine ⟨?_, ?_, ?_, ?_, ?_, ?_, ?_, ?_⟩
  · rw [hcl]; exact h.active
  · rw [hsessions]; exact h.ids
  · rw [hsegs]; exact h.segIds
  · rw [hsegs]; exact h.laid
  · rw [hsegs, hcl]; exact h.within
  · rw [hsessions]; exact h.sound
  · rw [hsegs, hsessions, hkv, hcl]; exact h.owned
  · rw [hsessions, hsegs]; exact h.kept

/-- A pass that stops half-way has written nothing that a session holds. -/
theorem Stepping.interrupted (h : Stepping spec next holds batch lens σ) {σ' : BatchState} {n : ℕ}
    (hpass : Passing spec env (Stepping.context spec batch lens σ) σ n σ') :
    Serving spec next holds σ' := by
  have hcols : Relocates (columnsAt spec (spec.kvLen .prefill σ.activeClIdx) σ.kv)
      (columnsAt spec (spec.kvLen .prefill σ.activeClIdx) σ'.kv) σ.segs σ.segs := by
    refine List.forall₂_same.mpr fun seg hseg => ⟨rfl, rfl, fun k hk => ?_⟩
    have hfin := h.serving.within seg hseg
    unfold KVCacheSegment.fin at hfin
    exact hpass.column_old h.rooms (by omega) (h.outside hseg hk)
  exact (h.serving.carry h.serving.active hcols h.serving.laid h.serving.within).congr
    hpass.sessions hpass.segs rfl hpass.active

/-- Closing the gaps keeps the service. -/
theorem Serving.compact (h : Serving spec next holds σ) :
    Serving spec next holds { σ with
      segs := (KVCacheManager.compact σ.segs).2
      kv := moveAll spec σ.activeClIdx (KVCacheManager.compact σ.segs).1 σ.kv } := by
  have hbound : totalUsed σ.segs ≤ spec.kvLen .prefill σ.activeClIdx := h.totalUsed_le
  have hmoves := fun mv hmv => (compact_within h.laid mv hmv).mono hbound
  have hwithin : ∀ seg ∈ (KVCacheManager.compact σ.segs).2,
      seg.fin ≤ spec.kvLen .prefill σ.activeClIdx :=
    fun seg hseg => (compact_fin h.laid seg hseg).trans hbound
  exact h.carry h.active (moveAll_relocates hmoves hwithin σ.kv (compact_relocates h.laid))
    (compact_laid h.laid) hwithin

/-- Every segment grows by its session's rows. -/
theorem Stepping.advanced_segs (h : Stepping spec next holds batch lens σ) {picks : List ℕ}
    {σ' : BatchState} (hpicked : Picked spec.seqLenPrefill σ'.sessions picks batch lens)
    (hpass : Passing spec env (Stepping.context spec batch lens σ) σ spec.shardCount σ')
    (rows : List InSegment) :
    (sampleAll spec picks rows (advanceAll (growthList batch lens) σ')).segs =
      σ.segs.map (grow (growthOf (growthList batch lens))) := by
  rw [sampleAll_frame, ← hpass.segs]
  refine extendAll_eq ?_ hpicked.growth_ids
  rw [hpass.segs]
  exact h.serving.segIds

/-- Steps 6 to 8 of a round keep the service. -/
theorem Stepping.finish (h : Stepping spec next holds batch lens σ) {picks : List ℕ}
    (hpicked : Picked spec.seqLenPrefill σ.sessions picks batch lens)
    (o : CausalOracle spec env next holds) {σ' : BatchState}
    (hpass : Passing spec env (Stepping.context spec batch lens σ) σ spec.shardCount σ') :
    Serving spec next holds (CB.finish spec picks (Stepping.context spec batch lens σ)
      (growthList batch lens) σ') := by
  rw [← hpass.sessions] at hpicked
  have hout := hpicked.outcome spec
  set τ := sampleAll spec picks (inSegments 0 lens) (advanceAll (growthList batch lens) σ') with hτ
  have hframe := sampleAll_frame spec picks (inSegments 0 lens)
    (advanceAll (growthList batch lens) σ')
  rw [← hτ] at hframe
  have hkv : τ.kv = σ'.kv := by rw [hframe]; rfl
  have hcl : τ.activeClIdx = σ.activeClIdx := by rw [hframe]; exact hpass.active
  have hsegs : τ.segs = σ.segs.map (grow (growthOf (growthList batch lens))) :=
    h.advanced_segs hpicked hpass _
  have hsegIds : (τ.segs.map (·.sessionId)).Nodup := by
    rw [hsegs, List.map_map]
    exact h.serving.segIds
  have hids : (τ.sessions.map (·.id)).Nodup := by
    rw [outcome_ids hout, hpass.sessions]
    exact h.serving.ids
  have hback : ∀ s' ∈ τ.sessions, ∃ s ∈ σ.sessions, Outcome spec batch lens σ' s s' := by
    intro s' hs'
    obtain ⟨i, hi, rfl⟩ := List.mem_iff_getElem.mp hs'
    have hi' : i < σ'.sessions.length := by rw [hout.length_eq]; exact hi
    rw [← hpass.sessions]
    exact ⟨_, List.getElem_mem hi', hout.get hi' hi⟩
  have hforth : ∀ s ∈ σ.sessions, ∃ s' ∈ τ.sessions, Outcome spec batch lens σ' s s' := by
    intro s hs
    rw [← hpass.sessions] at hs
    obtain ⟨i, hi, rfl⟩ := List.mem_iff_getElem.mp hs
    have hi' : i < τ.sessions.length := by rw [← hout.length_eq]; exact hi
    exact ⟨_, List.getElem_mem hi', hout.get hi hi'⟩
  have hreleased : Serving spec next holds
      { τ with segs := releaseCompleted τ.sessions τ.segs } := by
    refine ⟨?_, hids, hsegIds.sublist ((releaseCompleted_sublist _ _).map _), ?_, ?_, ?_, ?_, ?_⟩
    · show τ.activeClIdx < _
      rw [hcl]
      exact h.serving.active
    · show Laid 0 (releaseCompleted τ.sessions τ.segs)
      refine Spaced.sublist (releaseCompleted_sublist _ _) ?_
      rw [hsegs]
      exact h.roomy.spaced.grown
    · intro seg' hseg'
      show seg'.fin ≤ spec.kvLen .prefill τ.activeClIdx
      have hin := (releaseCompleted_sublist _ _).subset hseg'
      rw [hsegs] at hin
      obtain ⟨seg, hseg, rfl⟩ := List.mem_map.mp hin
      have hroom := h.roomy.room seg hseg
      rw [hcl]
      exact (Nat.add_assoc _ _ _).symm.trans_le hroom
    · intro s' hs'
      obtain ⟨s, hs, hso⟩ := hback s' hs'
      exact h.sound_after o hpass hs hso
    · intro seg' hseg'
      obtain ⟨hin, hall⟩ := (mem_releaseCompleted hsegIds).mp hseg'
      rw [hsegs] at hin
      obtain ⟨seg, hseg, rfl⟩ := List.mem_map.mp hin
      obtain ⟨s, hs, howned⟩ := h.serving.owned seg hseg
      obtain ⟨s', hs', hso⟩ := hforth s hs
      have hstatus : s'.status ≠ .completed := fun hc =>
        hall s' hs' hc (hso.id.trans howned.id)
      refine ⟨s', hs', ?_⟩
      show Owned spec holds (columnsAt spec (spec.kvLen .prefill τ.activeClIdx) τ.kv) _ s'
      rw [hcl, hkv]
      exact h.recalls_after o hpass hseg howned hso hstatus fun hnot =>
        hpicked.growth_idle (by rw [hpass.sessions]; exact hs) hnot
    · intro s' hs' hstatus hpos
      obtain ⟨s, hs, hso⟩ := hback s' hs'
      have hhas : s.id ∈ σ.segs.map (·.sessionId) := by
        cases hso with
        | idle _ => exact h.serving.kept _ hs hstatus hpos
        | ran hin => exact h.roomy.served s (List.of_mem_zip hin).1
      obtain ⟨seg, hseg, hid⟩ := List.mem_map.mp hhas
      rw [hso.id, ← hid]
      refine List.mem_map_of_mem (f := (·.sessionId))
        (a := grow (growthOf (growthList batch lens)) seg) ?_
      refine (mem_releaseCompleted hsegIds).mpr ⟨?_, fun t ht htc hti => hstatus ?_⟩
      · rw [hsegs]
        exact List.mem_map_of_mem hseg
      · -- a completed session with the id would be the session itself
        have hts : t.id = s'.id := hti.trans (hid.trans hso.id.symm)
        rw [← List.inj_on_of_nodup_map hids ht hs' hts]
        exact htc
  exact hreleased.compact

/-! ## Rounds -/

/-- A round that fits keeps the service, whether it returns or throws. -/
theorem batchStep_serving (o : CausalOracle spec env next holds) :
    Triple
      (fun σ => Serving spec next holds σ ∧ (hasActiveSessions σ.sessions = true → Fits spec σ))
      (batchStep spec env) (fun _ => Serving spec next holds)
      (fun _ => Serving spec next holds) := by
  apply Triple.get
  rintro σ ⟨h, hfits⟩
  apply Triple.ite
  · intro _
    exact Triple.pure fun _ hs => hs ▸ h
  · intro hactive
    rw [Bool.not_eq_false] at hactive
    apply Triple.ite
    · intro _
      refine Triple.bind (R := fun _ => Serving spec next holds) (Triple.modify ?_) fun _ =>
        Triple.pure fun _ hs => hs
      rintro _ rfl
      exact h.woken batchFrom_sessions
    · intro _
      have hstep := h.stepping (hfits hactive)
      have hpicked : Picked spec.seqLenPrefill (prepare spec σ).sessions
          (getNextBatch σ.sessions spec.seqLenPrefill).2 (pickedBatch spec σ)
          (pickedLens spec σ) := by
        rw [(h.prepare (hfits hactive)).2.2]
        exact picked_getNextBatch spec h.ids
      refine Triple.bind (R := fun _ τ => τ = prepare spec σ)
        (Triple.modify fun τ hτ => congrArg _ hτ) fun _ => ?_
      apply Triple.get
      rintro _ rfl
      refine Triple.bind (batchShards_passing.conseq (fun _ hs => hs) (fun _ _ hs => hs) ?_)
        fun _ => ?_
      · rintro _ _ ⟨n, σ', -, hpass, rfl⟩
        exact (hstep.interrupted hpass).congr rfl rfl rfl rfl
      · refine Triple.bind (R := fun _ => Serving spec next holds) (Triple.modify ?_) fun _ =>
          Triple.pure fun _ hs => hs
        intro σ' hpass
        exact hstep.finish hpicked o hpass

/-- Every round of a run of at most `fuel` rounds fits. -/
def Fitting (spec : LLMSpec) (env : BatchEnv I) : ℕ → BatchState → Prop
  | 0, _ => True
  | fuel + 1, σ =>
    (hasActiveSessions σ.sessions = true → Fits spec σ) ∧
      ∀ σ', batchStep spec env σ = (.ok true, σ') → Fitting spec env fuel σ'

/-- A run whose rounds fit keeps the service, whether it returns, throws or goes on. -/
theorem generateBatch_serving (o : CausalOracle spec env next holds) (fuel : ℕ) :
    ∀ σ, Serving spec next holds σ → Fitting spec env fuel σ →
      Serving spec next holds (generateBatch spec env fuel σ).2 := by
  induction fuel with
  | zero => exact fun σ h _ => h
  | succ fuel ih =>
    intro σ h hfits
    have hround := batchStep_serving o σ ⟨h, hfits.1⟩
    unfold generateBatch
    rw [bind_apply]
    rcases hrun : batchStep spec env σ with ⟨r, σ'⟩
    rw [hrun] at hround
    cases r with
    | error e => exact hround
    | ok again =>
      cases again with
      | false => exact hround
      | true => exact ih σ' hround (hfits.2 σ' hrun)

/-! ## Calls -/

/-- What a caller can do under distinct ids: add sessions, remove any of them, and call
`generateBatch` as often as it likes, whether its rounds fit or not and also after a call that
threw. -/
inductive Operated (spec : LLMSpec) (env : BatchEnv I) : BatchState → Prop
  | fresh {σ : BatchState} (hsessions : σ.sessions = []) : Operated spec env σ
  | add {σ : BatchState} (h : Operated spec env σ) {id : String}
      (hid : id ∉ σ.sessions.map (·.id)) (query : List Int32) (maxTokens : ℤ) :
      Operated spec env { σ with sessions := addSession σ.sessions id query maxTokens }
  | remove {σ : BatchState} (h : Operated spec env σ) (id : String) :
      Operated spec env { σ with sessions := removeSession σ.sessions id }
  | call {σ : BatchState} (h : Operated spec env σ) (fuel : ℕ) :
      Operated spec env (generateBatch spec env fuel σ).2

/-- What a caller does that keeps to the rules of the service: it removes only sessions that are
completed, as the segment of another one would stay behind, and its rounds fit. -/
inductive Reachable (spec : LLMSpec) (env : BatchEnv I) : BatchState → Prop
  | fresh {σ : BatchState} (hsessions : σ.sessions = []) (hsegs : σ.segs = [])
      (hcl : σ.activeClIdx < spec.numCl) : Reachable spec env σ
  | add {σ : BatchState} (h : Reachable spec env σ) {id : String}
      (hid : id ∉ σ.sessions.map (·.id)) (query : List Int32) (maxTokens : ℤ) :
      Reachable spec env { σ with sessions := addSession σ.sessions id query maxTokens }
  | remove {σ : BatchState} (h : Reachable spec env σ) {id : String}
      (hdone : ∀ s ∈ σ.sessions, s.id = id → s.status = .completed) :
      Reachable spec env { σ with sessions := removeSession σ.sessions id }
  | call {σ : BatchState} (h : Reachable spec env σ) {fuel : ℕ}
      (hfits : Fitting spec env fuel σ) : Reachable spec env (generateBatch spec env fuel σ).2

theorem Reachable.operated (h : Reachable spec env σ) : Operated spec env σ := by
  induction h with
  | fresh hsessions _ _ => exact .fresh hsessions
  | add _ hid query maxTokens ih => exact ih.add hid query maxTokens
  | remove _ _ ih => exact ih.remove _
  | call _ _ ih => exact ih.call _

theorem Serving.add (h : Serving spec next holds σ) {id : String}
    (hid : id ∉ σ.sessions.map (·.id)) (query : List Int32) (maxTokens : ℤ) :
    Serving spec next holds { σ with sessions := addSession σ.sessions id query maxTokens } where
  active := h.active
  ids := by
    show ((σ.sessions ++ [_]).map _).Nodup
    rw [List.map_append, List.nodup_append]
    refine ⟨h.ids, List.nodup_singleton _, fun i hi j hj heq => hid ?_⟩
    obtain rfl : j = id := List.mem_singleton.mp hj
    exact heq ▸ hi
  segIds := h.segIds
  laid := h.laid
  within := h.within
  sound := by
    intro s hs
    rcases List.mem_append.mp hs with hin | hin
    · exact h.sound s hin
    · obtain rfl := List.mem_singleton.mp hin
      exact sound_new id query maxTokens
  owned := by
    intro seg hseg
    obtain ⟨s, hs, howned⟩ := h.owned seg hseg
    exact ⟨s, List.mem_append_left _ hs, howned⟩
  kept := by
    intro s hs hstatus hpos
    rcases List.mem_append.mp hs with hin | hin
    · exact h.kept s hin hstatus hpos
    · obtain rfl := List.mem_singleton.mp hin
      exact absurd hpos (Nat.lt_irrefl 0)

theorem Serving.remove (h : Serving spec next holds σ) {id : String}
    (hdone : ∀ s ∈ σ.sessions, s.id = id → s.status = .completed) :
    Serving spec next holds { σ with sessions := removeSession σ.sessions id } where
  active := h.active
  ids := h.ids.sublist (List.filter_sublist.map _)
  segIds := h.segIds
  laid := h.laid
  within := h.within
  sound := fun s hs => h.sound s (List.mem_of_mem_filter hs)
  owned := by
    intro seg hseg
    obtain ⟨s, hs, howned⟩ := h.owned seg hseg
    refine ⟨s, List.mem_filter.mpr ⟨hs, ?_⟩, howned⟩
    rw [decide_eq_true_eq]
    exact fun hid => howned.status (hdone s hs hid)
  kept := fun s hs => h.kept s (List.mem_of_mem_filter hs)

/-- The service holds in every state that a caller can reach. -/
theorem Reachable.serving (o : CausalOracle spec env next holds) (h : Reachable spec env σ) :
    Serving spec next holds σ := by
  induction h with
  | fresh hsessions hsegs hcl =>
    refine ⟨hcl, ?_, ?_, ?_, ?_, ?_, ?_, ?_⟩ <;> simp [hsessions, hsegs]
    trivial
  | add _ hid query maxTokens ih => exact ih.add hid query maxTokens
  | remove _ hdone ih => exact ih.remove hdone
  | call _ hfits ih => exact generateBatch_serving o _ _ ih hfits

/-! ## Requests -/

/-- The arguments of `addSession`. -/
structure Request where
  id : String
  query : List Int32
  maxTokens : ℤ

namespace Request

/-- The session that a request adds. -/
def session (r : Request) : Session := newSession r.id r.query r.maxTokens

/-- The tokens that a request is owed. -/
def owed (spec : LLMSpec) (next : List Pair → Int32) (r : Request) : List Int32 :=
  answers spec next r.session.limit r.session.opening

end Request

/-- Fresh requests, to a scheduler and a manager that hold nothing yet. -/
def enqueue (rs : List Request) (σ : BatchState) : BatchState :=
  { σ with sessions := rs.map Request.session, segs := [] }

/-- A caller can put up any requests with distinct ids. -/
theorem Reachable.enqueue {rs : List Request} (hids : (rs.map (·.id)).Nodup)
    (hcl : σ.activeClIdx < spec.numCl) : Reachable spec env (enqueue rs σ) := by
  induction rs using List.reverseRecOn with
  | nil => exact .fresh rfl rfl hcl
  | append_singleton rs r ih =>
    rw [List.map_append, List.nodup_append] at hids
    have hnew : r.id ∉ (CB.enqueue rs σ).sessions.map (·.id) := by
      intro hin
      obtain ⟨s, hs, hid⟩ := List.mem_map.mp hin
      obtain ⟨r', hr', rfl⟩ := List.mem_map.mp hs
      exact hids.2.2 r'.id (List.mem_map_of_mem hr') r.id (List.mem_singleton_self _) hid
    have hadd := Reachable.add (ih hids.1) hnew r.query r.maxTokens
    have heq : CB.enqueue (rs ++ [r]) σ = { CB.enqueue rs σ with
        sessions := addSession (CB.enqueue rs σ).sessions r.id r.query r.maxTokens } := by
      unfold CB.enqueue
      rw [List.map_append]
      rfl
    rw [heq]
    exact hadd

/-! ## A small instance -/

/-- A request that ends at its limit, and one that ends by an end-of-sequence token. -/
def tinyRequests : List Request := [⟨"a", [1, 0, 1, 1, 0], 2⟩, ⟨"b", [1], 3⟩]

instance (spec : LLMSpec) (σ : BatchState) : Decidable (Fits spec σ) :=
  inferInstanceAs (Decidable (_ ≤ _))

/-- A run fits when the states after its rounds do. -/
theorem fitting_of_fits {n : ℕ}
    (h : ∀ k < n, Fits spec ((fun τ => (batchStep spec env τ).2)^[k] σ)) :
    Fitting spec env n σ := by
  induction n generalizing σ with
  | zero => trivial
  | succ n ih =>
    refine ⟨fun _ => h 0 (Nat.succ_pos n), fun σ' hrun => ih fun k hk => ?_⟩
    have hnext := h (k + 1) (Nat.succ_lt_succ hk)
    rwa [Function.iterate_succ_apply, hrun] at hnext

/-- The small model after a call of at most `n` rounds. -/
def tinyCall (n : ℕ) : BatchState :=
  (generateBatch sixteenColumns sumEnv n (enqueue tinyRequests tinyBatch)).2

theorem tinyCall_reachable {n : ℕ} (hn : n ≤ 6) : Reachable sixteenColumns sumEnv (tinyCall n) := by
  refine .call (Reachable.enqueue (by decide) (by decide)) (fitting_of_fits fun k hk => ?_)
  have hall : ∀ k < 6, Fits sixteenColumns
      ((fun τ => (batchStep sixteenColumns sumEnv τ).2)^[k] (enqueue tinyRequests tinyBatch)) := by
    decide +kernel
  exact hall k (by omega)

/-! ## Answers -/

example : (tinyCall 5).sessions.map (·.generatedTokens) = [[0, 0], [1]] := by decide +kernel

end Geniex.CB
