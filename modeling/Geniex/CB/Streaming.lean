import Geniex.CB.Progress

/-!
# What the token callback hears

`generateBatch` reports every token it gives a session. From any state whose sessions have distinct
ids, and at both exits,

* the sessions stay what the caller asked for, in the same order (`Session.request`);
* a session gets exactly the tokens that are reported under its id, in that order
  (`generateBatch_streams`).
-/

namespace Geniex.CB

open KVCacheManager Scheduler Prog

variable {I : Type} {spec : LLMSpec} {env : BatchEnv I} {σ σ' σ'' : BatchState}

/-- What the caller asked for. -/
def Session.request (s : Session) : String × List Int32 × ℤ := (s.id, s.queryTokens, s.maxTokens)

/-- The tokens that are reported under an id. -/
def streamOf (id : String) (calls : List (String × Int32)) : List Int32 :=
  calls.filterMap fun c => if c.1 = id then some c.2 else none

theorem streamOf_append (id : String) (calls calls' : List (String × Int32)) :
    streamOf id (calls ++ calls') = streamOf id calls ++ streamOf id calls' :=
  List.filterMap_append

/-- A session with the tokens that have been reported since. -/
structure Hears (calls : List (String × Int32)) (s s' : Session) : Prop where
  request : s'.request = s.request
  tokens : s'.generatedTokens = s.generatedTokens ++ streamOf s.id calls

theorem Hears.id {calls : List (String × Int32)} {s s' : Session} (h : Hears calls s s') :
    s'.id = s.id := congrArg Prod.fst h.request

/-- A session that is left alone. -/
theorem Hears.of_eq {s s' : Session} (hrequest : s'.request = s.request)
    (htokens : s'.generatedTokens = s.generatedTokens) : Hears [] s s' :=
  ⟨hrequest, by rw [htokens]; exact (List.append_nil _).symm⟩

/-- `σ'` comes after `σ`, with every token reported to its own session. -/
def Streams (σ σ' : BatchState) : Prop :=
  ∃ calls, σ'.streamed = σ.streamed ++ calls ∧
    List.Forall₂ (Hears calls) σ.sessions σ'.sessions

theorem Streams.of_quiet (hstreamed : σ'.streamed = σ.streamed)
    (hsessions : List.Forall₂ (Hears []) σ.sessions σ'.sessions) : Streams σ σ' :=
  ⟨[], by rw [hstreamed, List.append_nil], hsessions⟩

theorem Streams.of_eq (hstreamed : σ'.streamed = σ.streamed)
    (hsessions : σ'.sessions = σ.sessions) : Streams σ σ' := by
  apply Streams.of_quiet hstreamed
  rw [hsessions]
  exact List.forall₂_same.mpr fun _ _ => Hears.of_eq rfl rfl

theorem hears_trans {calls calls' : List (String × Int32)} {ss ss' ss'' : Scheduler}
    (h : List.Forall₂ (Hears calls) ss ss') (h' : List.Forall₂ (Hears calls') ss' ss'') :
    List.Forall₂ (Hears (calls ++ calls')) ss ss'' := by
  induction h generalizing ss'' with
  | nil => cases h'; exact .nil
  | cons hs _ ih =>
    cases h' with
    | cons hs' hrest =>
      refine .cons ⟨hs'.request.trans hs.request, ?_⟩ (ih hrest)
      rw [hs'.tokens, hs.tokens, hs.id, streamOf_append, List.append_assoc]

theorem Streams.trans (h : Streams σ σ') (h' : Streams σ' σ'') : Streams σ σ'' := by
  obtain ⟨calls, hcalls, hss⟩ := h
  obtain ⟨calls', hcalls', hss'⟩ := h'
  refine ⟨calls ++ calls', ?_, hears_trans hss hss'⟩
  rw [hcalls', hcalls, List.append_assoc]

theorem hears_ids {calls : List (String × Int32)} {ss ss' : Scheduler}
    (h : List.Forall₂ (Hears calls) ss ss') : ss'.map (·.id) = ss.map (·.id) := by
  induction h with
  | nil => rfl
  | cons hs _ ih => rw [List.map_cons, List.map_cons, ih, hs.id]

theorem Streams.ids (h : Streams σ σ') : σ'.sessions.map (·.id) = σ.sessions.map (·.id) := by
  obtain ⟨_, -, hss⟩ := h
  exact hears_ids hss

/-! ## A round -/

/-- Picking a batch reports nothing. -/
theorem hears_woken {ss ss' : Scheduler}
    (h : List.Forall₂ (fun s s' => s' = s ∨ s' = wake s) ss ss') :
    List.Forall₂ (Hears []) ss ss' := by
  refine h.imp fun s s' hs => ?_
  rcases hs with rfl | rfl
  · exact Hears.of_eq rfl rfl
  · rw [wake_eq]
    exact Hears.of_eq rfl rfl

/-- The session at an index hears its tokens, and no other one does. -/
theorem hears_modify {ss : Scheduler} (hids : (ss.map (·.id)).Nodup) {k : ℕ} {s : Session}
    (hk : ss[k]? = some s) {f : Session → Session} (toks : List Int32)
    (hrequest : (f s).request = s.request)
    (htokens : (f s).generatedTokens = s.generatedTokens ++ toks) :
    List.Forall₂ (Hears (toks.map fun tok => (s.id, tok))) ss (ss.modify k f) := by
  have hmine : streamOf s.id (toks.map fun tok => (s.id, tok)) = toks := by
    unfold streamOf
    simp [List.filterMap_map]
  have hother : ∀ id, s.id ≠ id → streamOf id (toks.map fun tok => (s.id, tok)) = [] := by
    intro id hne
    unfold streamOf
    simp [List.filterMap_map, hne]
  have hlen : ss.length = (ss.modify k f).length := by simp
  apply List.forall₂_of_length_eq_of_get hlen
  intro j hj hj'
  obtain ⟨hlt, rfl⟩ := List.getElem?_eq_some_iff.mp hk
  simp only [List.get_eq_getElem, List.getElem_modify]
  split_ifs with hkj
  · subst hkj
    exact ⟨hrequest, by rw [htokens, hmine]⟩
  · refine ⟨rfl, ?_⟩
    rw [hother, List.append_nil]
    intro hid
    have heq := List.inj_on_of_nodup_map hids (List.getElem_mem hlt) (List.getElem_mem hj) hid
    exact hkj ((List.Nodup.of_map _ hids).getElem_inj_iff.mp heq)

theorem sampleOne_streams (k row : ℕ) (hids : (σ.sessions.map (·.id)).Nodup) :
    Streams σ (sampleOne spec k row σ) := by
  unfold sampleOne
  cases hk : σ.sessions[k]? with
  | none => exact Streams.of_eq rfl rfl
  | some s =>
    dsimp only
    split_ifs with hq hend
    · refine ⟨[], (List.append_nil _).symm, ?_⟩
      show List.Forall₂ _ _ (updateFirst s.id _ σ.sessions)
      rw [updateFirst_eq hids hk]
      exact hears_modify hids hk [] rfl (List.append_nil _).symm
    · exact ⟨_, rfl, hears_modify hids hk [_] rfl rfl⟩
    · exact Streams.of_eq rfl rfl

theorem sampleAll_streams (picks : List ℕ) (rows : List InSegment)
    (hids : (σ.sessions.map (·.id)).Nodup) : Streams σ (sampleAll spec picks rows σ) := by
  unfold sampleAll
  induction picks.zip rows generalizing σ with
  | nil => exact Streams.of_eq rfl rfl
  | cons q l ih =>
    have hone : Streams σ (sampleOne spec q.1 (q.2.1 + q.2.2 - 1) σ) :=
      sampleOne_streams q.1 (q.2.1 + q.2.2 - 1) hids
    rw [List.foldl_cons]
    exact hone.trans (ih (by rw [hone.ids]; exact hids))

theorem advanceAll_streams (growth : List (String × ℕ)) (σ : BatchState) :
    Streams σ (advanceAll growth σ) := by
  have hone : ∀ (ss : Scheduler) (g : String × ℕ),
      List.Forall₂ (Hears []) ss (updateSession ss g.1 g.2) := by
    intro ss g
    induction ss with
    | nil => exact .nil
    | cons s ss ih =>
      rw [updateSession_cons]
      split_ifs
      · exact .cons (Hears.of_eq rfl rfl) (List.forall₂_same.mpr fun _ _ => Hears.of_eq rfl rfl)
      · exact .cons (Hears.of_eq rfl rfl) ih
  refine Streams.of_quiet rfl ?_
  show List.Forall₂ _ σ.sessions (growth.foldl _ σ.sessions)
  generalize σ.sessions = ss
  induction growth generalizing ss with
  | nil => exact List.forall₂_same.mpr fun _ _ => Hears.of_eq rfl rfl
  | cons g growth ih => exact hears_trans (hone ss g) (ih _)

/-- A round reports the tokens that it gives, whether it returns or throws. -/
theorem batchStep_streams (hids : (σ.sessions.map (·.id)).Nodup) :
    Triple (fun τ => τ = σ) (batchStep spec env) (fun _ => Streams σ) (fun _ => Streams σ) := by
  have hpicked : ∀ τ : BatchState, τ.streamed = σ.streamed →
      τ.sessions = (getNextBatch σ.sessions spec.seqLenPrefill).1 → Streams σ τ :=
    fun τ hstreamed hsessions => Streams.of_quiet hstreamed (by
      rw [hsessions]
      exact hears_woken batchFrom_sessions)
  apply Triple.get
  intro τ hτ
  obtain rfl : σ = τ := hτ.symm
  apply Triple.ite
  · intro _
    exact Triple.pure fun _ hs => Streams.of_eq (by rw [hs]) (by rw [hs])
  · intro _
    apply Triple.ite
    · intro _
      refine Triple.bind (R := fun _ => Streams σ) (Triple.modify ?_) fun _ =>
        Triple.pure fun _ hs => hs
      intro τ hτ
      rw [hτ]
      exact hpicked _ rfl rfl
    · intro _
      refine Triple.bind (R := fun _ τ => τ = prepare spec σ)
        (Triple.modify fun τ hτ => congrArg _ hτ) fun _ => ?_
      apply Triple.get
      rintro _ rfl
      have hprepared := hpicked (prepare spec σ) (prepare_streamed σ) (prepare_sessions σ)
      have hpass : ∀ n τ, Passing spec env (pickedContext spec σ) (prepare spec σ) n τ →
          Streams σ τ := fun n τ hp => hprepared.trans (Streams.of_eq hp.streamed hp.sessions)
      refine Triple.bind (batchShards_passing.conseq (fun _ hs => hs) (fun _ _ hs => hs) ?_)
        fun _ => ?_
      · rintro _ _ ⟨n, τ, -, hp, rfl⟩
        exact (hpass n τ hp).trans (Streams.of_eq rfl rfl)
      · refine Triple.bind (R := fun _ => Streams σ) (Triple.modify ?_) fun _ =>
          Triple.pure fun _ hs => hs
        intro τ hp
        have hadvanced := (hpass _ τ hp).trans (advanceAll_streams (pickedGrowth spec σ) τ)
        refine (hadvanced.trans (sampleAll_streams _ _ ?_)).trans (Streams.of_eq rfl rfl)
        rw [hadvanced.ids]
        exact hids

/-- A call reports exactly the tokens that it gives, each of them once and to its own session. -/
theorem generateBatch_streams (fuel : ℕ) (hids : (σ.sessions.map (·.id)).Nodup) :
    Streams σ (generateBatch spec env fuel σ).2 := by
  refine (generateBatch_stable (P := Streams σ) ?_ fuel).snd (Streams.of_eq rfl rfl)
  refine Triple.of_eq fun τ hτ => ?_
  have hids' : (τ.sessions.map (·.id)).Nodup := by
    rw [hτ.ids]
    exact hids
  exact (batchStep_streams hids').conseq (fun _ hs => hs) (fun _ _ hs => hτ.trans hs)
    fun _ _ hs => hτ.trans hs

/-- The ids of the sessions that a caller has added stay distinct. -/
theorem Operated.ids (h : Operated spec env σ) : (σ.sessions.map (·.id)).Nodup := by
  induction h with
  | fresh hsessions =>
    rw [hsessions]
    exact List.nodup_nil
  | @add σ _ id hid query maxTokens ih =>
    show ((σ.sessions ++ [newSession id query maxTokens]).map _).Nodup
    rw [List.map_append, List.nodup_append]
    refine ⟨ih, List.nodup_singleton _, fun i hi j hj heq => hid ?_⟩
    obtain rfl : j = id := List.mem_singleton.mp hj
    exact heq ▸ hi
  | remove _ _ ih => exact ih.sublist (List.filter_sublist.map _)
  | call _ _ ih =>
    rw [(generateBatch_streams _ ih).ids]
    exact ih

/-- The last tokens that were reported under a session's id. -/
def Heard (σ : BatchState) : Prop :=
  ∀ s ∈ σ.sessions, s.generatedTokens <:+ streamOf s.id σ.streamed

theorem Streams.heard (h : Streams σ σ') (hσ : Heard σ) : Heard σ' := by
  obtain ⟨calls, hcalls, hss⟩ := h
  intro s' hs'
  obtain ⟨i, hi, rfl⟩ := List.mem_iff_getElem.mp hs'
  have hi' : i < σ.sessions.length := by rw [hss.length_eq]; exact hi
  have hone : Hears calls σ.sessions[i] σ'.sessions[i] := hss.get hi' hi
  rw [hcalls, streamOf_append, hone.tokens, hone.id]
  exact (List.suffix_append_self_iff).mpr (hσ _ (List.getElem_mem hi'))

/-- Whatever a caller did under distinct ids, the tokens of a session are the last ones that have
been reported under its id: none is lost, repeated, reordered or reported to another session. -/
theorem tokens_heard_once (h : Operated spec env σ) : Heard σ := by
  induction h with
  | fresh hsessions =>
    intro s hs
    rw [hsessions] at hs
    cases hs
  | add _ _ _ _ ih =>
    intro s hs
    rcases List.mem_append.mp hs with hin | hin
    · exact ih s hin
    · obtain rfl := List.mem_singleton.mp hin
      exact List.nil_suffix
  | remove _ _ ih => exact fun s hs => ih s (List.mem_of_mem_filter hs)
  | call h _ ih => exact (generateBatch_streams _ h.ids).heard ih

theorem tokens_heard_once_tiny : Heard (tinyCall 5) :=
  tokens_heard_once (tinyCall_reachable (by decide)).operated

end Geniex.CB
