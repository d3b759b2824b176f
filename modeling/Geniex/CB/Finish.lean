import Geniex.CB.Round

/-!
# What a round leaves

The sessions of the batch advance, take up their next token or are completed, and the segments of
the completed sessions are released. `Stepping.finish` is the whole: a round that fits keeps the
service, whether it returns or throws (`batchStep_serving`).
-/

namespace Geniex.CB

open FlatMem KVCacheManager Scheduler Prog

variable {I : Type} {spec : LLMSpec} {next : List Pair → Int32}
  {holds : ℕ → Column → List Pair → Prop} {batch : List Session} {lens : List ℕ} {σ : BatchState}

/-! ## A session's part of a round -/

/-- The session after its rows have run. -/
def Session.advance (n : ℕ) (s : Session) : Session :=
  { s with processedLength := s.processedLength + n }

/-- The session after the sampling loop, if its last row is answered by `tok`. -/
def sampleSession (spec : LLMSpec) (tok : Int32) (s : Session) : Session :=
  if s.queryLen ≤ s.processedLength then
    if isEos spec tok = true ∨ s.maxTokens ≤ s.generatedLen then { s with status := .completed }
    else s.push tok
  else s

theorem sampleSession_id (tok : Int32) (s : Session) : (sampleSession spec tok s).id = s.id := by
  unfold sampleSession
  split_ifs <;> rfl

theorem sampleSession_processedLength (tok : Int32) (s : Session) :
    (sampleSession spec tok s).processedLength = s.processedLength := by
  unfold sampleSession
  split_ifs <;> rfl

/-- A session's stream only grows. -/
theorem sampleSession_stream (tok : Int32) (s : Session) :
    s.stream <+: (sampleSession spec tok s).stream := by
  unfold sampleSession
  split_ifs
  · exact List.prefix_rfl
  · show s.opening ++ s.generatedTokens <+: s.opening ++ (s.generatedTokens ++ [tok])
    rw [← List.append_assoc]
    exact List.prefix_append _ _
  · exact List.prefix_rfl

/-- A session whose rows reach the end of its prompt has run all of its tokens. -/
theorem Tracked.reached {s : Session} {n : ℕ} (h : Tracked s) (hs : s.status ≠ .completed)
    (hn : Granted s n) (hq : s.queryLen ≤ s.processedLength + n) :
    s.processedLength + n = s.stream.length := by
  by_cases hread : s.processedLength < s.queryLen
  · have hle := hn.reading hread
    have hlen : s.stream.length = s.queryLen := by
      unfold Session.stream
      rw [(h.active hs).reading hread, List.append_nil, h.opening_length]
      omega
    omega
  · obtain ⟨-, hlen⟩ := (h.active hs).reply (by omega)
    have hone := hn.reply (by omega)
    omega

/-- The bookkeeping of a session of the batch, whatever its last row is answered by. -/
theorem Tracked.sampled (spec : LLMSpec) {s : Session} {n : ℕ} (tok : Int32) (h : Tracked s)
    (hs : s.status ≠ .completed) (hn : Granted s n) :
    Tracked (sampleSession spec tok (s.advance n)) := by
  unfold sampleSession
  split_ifs with hq hend
  · exact ⟨h.queryLen, h.generatedLen, fun hc => absurd rfl hc⟩
  · rw [not_or] at hend
    have hall := h.reached hs hn hq
    have hstream : ((s.advance n).push tok).stream = s.stream ++ [tok] :=
      (List.append_assoc _ _ _).symm
    have hprocessed : ((s.advance n).push tok).processedLength = s.stream.length := hall
    refine ⟨h.queryLen, ?_, fun _ => ⟨fun hread => absurd hread (not_lt.mpr hq), fun _ => ?_, ?_⟩⟩
    · show s.generatedLen + 1 = (s.generatedTokens ++ [tok]).length
      rw [List.length_append, h.generatedLen]
      rfl
    · rw [hstream, hprocessed, List.take_left, List.length_append]
      exact ⟨rfl, rfl⟩
    · show (s.generatedTokens ++ [tok]).length ≤ s.maxTokens.toNat
      have hlt : ¬s.maxTokens ≤ s.generatedLen := hend.2
      rw [h.generatedLen] at hlt
      rw [List.length_append, List.length_singleton]
      omega
  · refine ⟨h.queryLen, h.generatedLen, fun _ => ⟨fun hread => ?_, fun hle => absurd hle hq, ?_⟩⟩
    · have hlt : s.processedLength + n < s.queryLen := hread
      exact (h.active hs).reading (by omega)
    · exact (h.active hs).short

/-- A session whose answer comes to nothing, by an end-of-sequence token or for want of tokens to
generate, has got all of its answers. -/
theorem Sound.ended {s : Session} (h : Sound spec next s) (hs : s.status ≠ .completed)
    (hend : isEos spec (next (pairsOf s.stream)) = true ∨ s.limit ≤ s.generatedTokens.length) :
    s.generatedTokens = answers spec next s.limit s.opening := by
  have hnil : answers spec next (s.limit - s.generatedTokens.length) s.stream = [] := by
    rcases hend with heos | hlimit
    · cases s.limit - s.generatedTokens.length with
      | zero => rfl
      | succ n =>
        unfold answers
        rw [if_pos heos]
    · rw [show s.limit - s.generatedTokens.length = 0 by omega]
      rfl
  rw [h.ahead hs, hnil, List.append_nil]

/-- A session that takes up its answer has the others ahead. -/
theorem Sound.ahead_push {s : Session} (h : Sound spec next s) (hs : s.status ≠ .completed)
    (heos : ¬isEos spec (next (pairsOf s.stream)) = true)
    (hlimit : s.generatedTokens.length < s.limit) :
    answers spec next s.limit s.opening = (s.generatedTokens ++ [next (pairsOf s.stream)]) ++
      answers spec next (s.limit - (s.generatedTokens ++ [next (pairsOf s.stream)]).length)
        (s.stream ++ [next (pairsOf s.stream)]) := by
  obtain ⟨k, hk⟩ : ∃ k, s.limit - s.generatedTokens.length = k + 1 :=
    ⟨s.limit - s.generatedTokens.length - 1, by omega⟩
  have hk' : s.limit - (s.generatedTokens ++ [next (pairsOf s.stream)]).length = k := by
    rw [List.length_append, List.length_singleton]
    omega
  rw [h.ahead hs, hk, hk', answers, if_neg heos, List.append_assoc]
  rfl

/-- A session of the batch stays sound when its last row is answered by its own tokens. -/
theorem Sound.sampled {s : Session} {n : ℕ} {tok : Int32} (h : Sound spec next s)
    (hs : s.status ≠ .completed) (hn : Granted s n)
    (htok : tok = next ((pairsOf s.stream).take (s.processedLength + n))) :
    Sound spec next (sampleSession spec tok (s.advance n)) := by
  have htracked := h.toTracked.sampled spec tok hs hn
  unfold sampleSession at htracked ⊢
  split_ifs at htracked ⊢ with hq hend
  all_goals refine ⟨htracked, ?_, ?_⟩
  · exact fun hc => absurd rfl hc
  · -- the last row has seen all of the tokens
    intro _
    have htake : (pairsOf s.stream).take (s.processedLength + n) = pairsOf s.stream := by
      rw [h.toTracked.reached hs hn hq, ← length_pairsOf, List.take_length]
    rw [htake] at htok
    subst htok
    exact h.ended hs (hend.imp_right fun hle => by
      rw [← Int.toNat_le] at hle
      exact hle.trans_eq h.generatedLen)
  · intro _
    rw [not_or] at hend
    have htake : (pairsOf s.stream).take (s.processedLength + n) = pairsOf s.stream := by
      rw [h.toTracked.reached hs hn hq, ← length_pairsOf, List.take_length]
    rw [htake] at htok
    subst htok
    have hstream : ((s.advance n).push (next (pairsOf s.stream))).stream =
        s.stream ++ [next (pairsOf s.stream)] := (List.append_assoc _ _ _).symm
    have hlt : s.generatedTokens.length < s.limit := by
      have hnot : ¬s.maxTokens ≤ s.generatedLen := hend.2
      rw [h.generatedLen] at hnot
      unfold Session.limit
      omega
    rw [hstream]
    exact h.ahead_push hs hend.1 hlt
  · exact fun hc => absurd hc hs
  · exact fun _ => h.ahead hs
  · exact fun hc => absurd hc hs

/-! ## The scheduler after a round -/

/-- With distinct ids, the first session with an id is the one at its index. -/
theorem updateFirst_eq {ss : Scheduler} (hids : (ss.map (·.id)).Nodup) {k : ℕ} {s : Session}
    (hk : ss[k]? = some s) (f : Session → Session) : updateFirst s.id f ss = ss.modify k f := by
  induction ss generalizing k with
  | nil => cases hk
  | cons t ss ih =>
    rw [List.map_cons, List.nodup_cons] at hids
    unfold updateFirst
    cases k with
    | zero =>
      obtain rfl : t = s := Option.some.inj hk
      rw [if_pos rfl]
      rfl
    | succ k =>
      rw [List.getElem?_cons_succ] at hk
      have hne : t.id ≠ s.id := fun heq =>
        hids.1 (heq ▸ List.mem_map_of_mem (List.mem_of_getElem? hk))
      rw [if_neg hne, ih hids.2 hk]
      rfl

theorem getElem?_modify_self {ss : Scheduler} {k : ℕ} {s : Session} (h : ss[k]? = some s)
    (f : Session → Session) : (ss.modify k f)[k]? = some (f s) := by
  simp [h]

theorem getElem?_modify_other (ss : Scheduler) {k j : ℕ} (h : k ≠ j) (f : Session → Session) :
    (ss.modify k f)[j]? = ss[j]? := by
  simp [h]

/-- What a modification does at other sessions does not matter. -/
theorem modify_congr {ss : Scheduler} {k : ℕ} {f g : Session → Session}
    (h : ∀ s, ss[k]? = some s → f s = g s) : ss.modify k f = ss.modify k g := by
  apply List.ext_getElem?
  intro j
  by_cases hkj : k = j
  · subst hkj
    cases hk : ss[k]? with
    | none => simp [hk]
    | some s => rw [getElem?_modify_self hk, getElem?_modify_self hk, h s hk]
  · rw [getElem?_modify_other ss hkj, getElem?_modify_other ss hkj]

theorem ids_modify (ss : Scheduler) (k : ℕ) {f : Session → Session} (hf : ∀ s, (f s).id = s.id) :
    (ss.modify k f).map (·.id) = ss.map (·.id) := by
  apply List.ext_getElem?
  intro j
  rw [List.getElem?_map, List.getElem?_map]
  by_cases hkj : k = j
  · subst hkj
    cases hk : ss[k]? with
    | none => simp [hk]
    | some s =>
      rw [getElem?_modify_self hk]
      exact congrArg some (hf s)
  · rw [getElem?_modify_other ss hkj]

theorem updateSession_cons (s : Session) (ss : Scheduler) (id : String) (n : ℕ) :
    updateSession (s :: ss) id n =
      if s.id = id then s.advance n :: ss else s :: updateSession ss id n := rfl

theorem updateSession_eq {ss : Scheduler} (hids : (ss.map (·.id)).Nodup) (id : String) (n : ℕ) :
    updateSession ss id n =
      ss.map fun s => s.advance (Function.update (fun _ => 0 : String → ℕ) id n s.id) := by
  induction ss with
  | nil => rfl
  | cons s ss ih =>
    rw [List.map_cons, List.nodup_cons] at hids
    rw [updateSession_cons, List.map_cons]
    split_ifs with hid
    · -- no later session has the id
      have hsame : ∀ t ∈ ss,
          t.advance (Function.update (fun _ => 0 : String → ℕ) id n t.id) = t := by
        intro t ht
        have hne : t.id ≠ id := fun heq =>
          hids.1 (hid.trans heq.symm ▸ List.mem_map_of_mem ht)
        rw [Function.update_of_ne hne]
        rfl
      rw [List.map_congr_left hsame, List.map_id', hid, Function.update_self]
    · rw [ih hids.2, Function.update_of_ne hid]
      rfl

/-- `updateSession` of every session of a batch. -/
theorem updateAll_eq {ss : Scheduler} (hids : (ss.map (·.id)).Nodup) {l : List (String × ℕ)}
    (hl : (l.map Prod.fst).Nodup) :
    l.foldl (fun ss g => updateSession ss g.1 g.2) ss =
      ss.map fun s => s.advance (growthOf l s.id) := by
  induction l using List.reverseRecOn with
  | nil => exact (List.map_id' ss).symm
  | append_singleton l g ih =>
    rw [List.map_append, List.nodup_append] at hl
    have hnew : growthOf l g.1 = 0 :=
      growthOf_out fun h => hl.2.2 g.1 h g.1 (List.mem_singleton_self _) rfl
    have hids' : ((ss.map fun s => s.advance (growthOf l s.id)).map (·.id)).Nodup := by
      rwa [List.map_map]
    rw [List.foldl_append, ih hl.1, List.foldl_cons, List.foldl_nil, updateSession_eq hids',
      List.map_map, growthOf_concat]
    apply List.map_congr_left
    intro s _
    by_cases hid : s.id = g.1
    · simp [Session.advance, hid, hnew]
    · simp [Session.advance, Function.update_of_ne hid]

/-- What a step of the sampling loop changes. -/
theorem sampleOne_frame (spec : LLMSpec) (k row : ℕ) (σ : BatchState) :
    sampleOne spec k row σ = { σ with
      sessions := (sampleOne spec k row σ).sessions
      streamed := (sampleOne spec k row σ).streamed } := by
  unfold sampleOne
  cases σ.sessions[k]? with
  | none => rfl
  | some s =>
    dsimp only
    split_ifs <;> rfl

/-- The sampling loop changes the scheduler and the log of the callbacks. -/
theorem sampleAll_frame (spec : LLMSpec) (picks : List ℕ) (rows : List InSegment) (σ : BatchState) :
    sampleAll spec picks rows σ = { σ with
      sessions := (sampleAll spec picks rows σ).sessions
      streamed := (sampleAll spec picks rows σ).streamed } := by
  unfold sampleAll
  induction picks.zip rows generalizing σ with
  | nil => rfl
  | cons q l ih =>
    rw [List.foldl_cons, ih, sampleOne_frame]

theorem sampleOne_sessions (spec : LLMSpec) (k row : ℕ) (hids : (σ.sessions.map (·.id)).Nodup) :
    (sampleOne spec k row σ).sessions =
      σ.sessions.modify k (sampleSession spec (nextToken spec row σ)) := by
  unfold sampleOne
  cases hk : σ.sessions[k]? with
  | none =>
    apply List.ext_getElem?
    intro j
    by_cases hkj : k = j
    · subst hkj
      simp [hk]
    · rw [getElem?_modify_other _ hkj]
  | some s =>
    have hmodify : ∀ f : Session → Session, f s = sampleSession spec (nextToken spec row σ) s →
        σ.sessions.modify k f = σ.sessions.modify k (sampleSession spec (nextToken spec row σ)) :=
      fun f hf => modify_congr fun t ht => by
        obtain rfl : s = t := Option.some.inj (hk.symm.trans ht)
        exact hf
    dsimp only
    split_ifs with hq hend
    · show updateFirst s.id _ σ.sessions = _
      rw [updateFirst_eq hids hk]
      apply hmodify
      unfold sampleSession
      rw [if_pos hq]
      exact (if_pos hend).symm
    · apply hmodify
      unfold sampleSession
      rw [if_pos hq]
      exact (if_neg hend).symm
    · rw [← hmodify id (by unfold sampleSession; rw [if_neg hq]; rfl)]
      exact (List.modify_id k σ.sessions).symm

theorem sampleAll_ids (spec : LLMSpec) (picks : List ℕ) (rows : List InSegment) {σ : BatchState}
    (hids : (σ.sessions.map (·.id)).Nodup) :
    (sampleAll spec picks rows σ).sessions.map (·.id) = σ.sessions.map (·.id) := by
  unfold sampleAll
  induction picks.zip rows generalizing σ with
  | nil => rfl
  | cons q l ih =>
    have hstep : (sampleOne spec q.1 (q.2.1 + q.2.2 - 1) σ).sessions.map (·.id) =
        σ.sessions.map (·.id) := by
      rw [sampleOne_sessions spec _ _ hids, ids_modify _ _ (sampleSession_id _)]
    rw [List.foldl_cons, ih (by rw [hstep]; exact hids), hstep]

/-- The sampling loop, session by session. -/
theorem sampleAll_sessions (spec : LLMSpec) {picks : List ℕ} (rows : List InSegment)
    {σ : BatchState} (hids : (σ.sessions.map (·.id)).Nodup) (hpicks : picks.Nodup) {j : ℕ} {s : Session}
    (hj : σ.sessions[j]? = some s) :
    (∀ p, (j, p) ∈ picks.zip rows → (sampleAll spec picks rows σ).sessions[j]? =
      some (sampleSession spec (nextToken spec (p.1 + p.2 - 1) σ) s)) ∧
    (j ∉ picks → (sampleAll spec picks rows σ).sessions[j]? = some s) := by
  induction picks generalizing rows σ s with
  | nil => exact ⟨fun _ hp => (by cases hp), fun _ => hj⟩
  | cons k picks ih =>
    cases rows with
    | nil => exact ⟨fun _ hp => (by cases hp), fun _ => hj⟩
    | cons q rows =>
      rw [List.nodup_cons] at hpicks
      have hstep := sampleOne_sessions spec k (q.1 + q.2 - 1) hids
      have hframe := sampleOne_frame spec k (q.1 + q.2 - 1) σ
      have hids' : ((sampleOne spec k (q.1 + q.2 - 1) σ).sessions.map (·.id)).Nodup := by
        rw [hstep, ids_modify _ _ (sampleSession_id _)]
        exact hids
      have htoken : ∀ row, nextToken spec row (sampleOne spec k (q.1 + q.2 - 1) σ) =
          nextToken spec row σ := by
        intro row
        rw [hframe]
        rfl
      have hall : sampleAll spec (k :: picks) (q :: rows) σ =
          sampleAll spec picks rows (sampleOne spec k (q.1 + q.2 - 1) σ) := rfl
      rw [hall]
      by_cases hkj : k = j
      · subst hkj
        have hself := getElem?_modify_self hj
          (sampleSession spec (nextToken spec (q.1 + q.2 - 1) σ))
        rw [← hstep] at hself
        obtain ⟨-, hout⟩ := ih rows hids' hpicks.2 hself
        refine ⟨fun p hp => ?_, fun hnot => absurd List.mem_cons_self hnot⟩
        rw [List.zip_cons_cons] at hp
        rcases List.mem_cons.mp hp with heq | hin
        · obtain ⟨-, rfl⟩ := Prod.mk.inj heq
          exact hout hpicks.1
        · exact absurd (List.of_mem_zip hin).1 hpicks.1
      · have hother := getElem?_modify_other σ.sessions hkj
          (sampleSession spec (nextToken spec (q.1 + q.2 - 1) σ))
        rw [← hstep, hj] at hother
        obtain ⟨hin, hout⟩ := ih rows hids' hpicks.2 hother
        refine ⟨fun p hp => ?_, fun hnot => hout fun hmem => hnot (List.mem_cons_of_mem _ hmem)⟩
        rw [List.zip_cons_cons] at hp
        rcases List.mem_cons.mp hp with heq | hmem
        · exact absurd (Prod.mk.inj heq).1.symm hkj
        · rw [hin p hmem, htoken]

/-! ## The outcome of a round -/

/-- The batch of a round: its sessions, by their indices, and their rows. -/
structure Picked (seqLen : ℕ) (ss : Scheduler) (picks : List ℕ) (batch : List Session)
    (lens : List ℕ) : Prop where
  ids : (ss.map (·.id)).Nodup
  increasing : picks.Pairwise (· < ·)
  bounds : ∀ k ∈ picks, k < ss.length
  batch_eq : batch = sessionsAt 0 ss picks
  status : ∀ s ∈ batch, s.status ≠ .completed
  length : lens.length = batch.length
  granted : ∀ q ∈ batch.zip lens, Granted q.1 q.2
  sum : lens.sum ≤ seqLen

/-- What a round makes of a session, from the outputs of its pass. -/
inductive Outcome (spec : LLMSpec) (batch : List Session) (lens : List ℕ) (σ' : BatchState) :
    Session → Session → Prop
  | idle {s : Session} (h : s ∉ batch) : Outcome spec batch lens σ' s s
  | ran {s : Session} {p : InSegment} (h : (s, p) ∈ batch.zip (inSegments 0 lens)) :
      Outcome spec batch lens σ' s
        (sampleSession spec (nextToken spec (p.1 + p.2 - 1) σ') (s.advance p.2))

/-- The first steps of a round pick a batch. -/
theorem picked_getNextBatch (spec : LLMSpec) {σ : BatchState}
    (hids : (σ.sessions.map (·.id)).Nodup) :
    Picked spec.seqLenPrefill (getNextBatch σ.sessions spec.seqLenPrefill).1
      (getNextBatch σ.sessions spec.seqLenPrefill).2 (pickedBatch spec σ) (pickedLens spec σ) := by
  have hbatch := batchFrom_isBatch spec.seqLenPrefill 0 0 σ.sessions
  obtain ⟨hlen, hpos, hsum⟩ := pickedLens_spec spec σ
  refine ⟨?_, hbatch.increasing, fun k hk => ?_, rfl, (pickedBatch_spec σ).2, hlen,
    segLengths_granted hpos, hsum⟩
  · show ((batchFrom _ _ _ _).1.map _).Nodup
    rw [woken_ids batchFrom_sessions]
    exact hids
  · have := (hbatch.bounds k hk).2
    rwa [Nat.zero_add] at this

namespace Picked

variable {seqLen : ℕ} {ss : Scheduler} {picks : List ℕ}

theorem sublist (h : Picked seqLen ss picks batch lens) : batch.Sublist ss := by
  rw [h.batch_eq]
  exact sessionsAt_sublist h.increasing fun k _ => Nat.zero_le k

theorem growth_ids (h : Picked seqLen ss picks batch lens) :
    ((growthList batch lens).map Prod.fst).Nodup := by
  have hfst : (growthList batch lens).map Prod.fst = batch.map (·.id) := by
    apply List.map_fst_zip
    rw [List.length_map, h.length]
  rw [hfst]
  exact h.ids.sublist (h.sublist.map _)

theorem growth_ran (h : Picked seqLen ss picks batch lens) {s : Session} {p : InSegment}
    (hp : (s, p) ∈ batch.zip (inSegments 0 lens)) :
    growthOf (growthList batch lens) s.id = p.2 := by
  refine growthOf_of_mem h.growth_ids (g := (s.id, p.2)) ?_
  unfold growthList
  rw [List.zip_map_left]
  exact List.mem_map.mpr ⟨_, mem_zip_lens hp, rfl⟩

theorem growth_idle (h : Picked seqLen ss picks batch lens) {s : Session} (hs : s ∈ ss)
    (hnot : s ∉ batch) : growthOf (growthList batch lens) s.id = 0 := by
  apply growthOf_out
  intro hin
  have hfst : s.id ∈ batch.map (·.id) := by
    obtain ⟨q, hq, hqs⟩ := List.mem_map.mp hin
    rw [← hqs]
    exact (List.of_mem_zip hq).1
  obtain ⟨t, ht, hid⟩ := List.mem_map.mp hfst
  obtain rfl := List.inj_on_of_nodup_map h.ids (h.sublist.subset ht) hs hid
  exact hnot ht

/-- Every session of the batch has rows. -/
theorem row (h : Picked seqLen ss picks batch lens) {s : Session} (hs : s ∈ batch) :
    ∃ p, (s, p) ∈ batch.zip (inSegments 0 lens) := by
  obtain ⟨i, hi, rfl⟩ := List.mem_iff_getElem.mp hs
  have hi' : i < (inSegments 0 lens).length := by
    rw [length_inSegments, h.length]
    exact hi
  refine ⟨(inSegments 0 lens)[i], ?_⟩
  rw [← List.getElem_zip (h := by rw [List.length_zip]; omega)]
  exact List.getElem_mem _

/-- The rows of a picked index are the rows of its session. -/
theorem zip_index {ss : Scheduler} {picks : List ℕ} (hb : ∀ k ∈ picks, k < ss.length)
    (rows : List InSegment) {j : ℕ} {s : Session} (hj : ss[j]? = some s) :
    (∀ p, (j, p) ∈ picks.zip rows → (s, p) ∈ (sessionsAt 0 ss picks).zip rows) ∧
      (j ∈ picks → s ∈ sessionsAt 0 ss picks) := by
  induction picks generalizing rows with
  | nil => exact ⟨fun _ hp => (by cases hp), fun hin => (by cases hin)⟩
  | cons k picks ih =>
    have hk := hb k List.mem_cons_self
    have hat : sessionsAt 0 ss (k :: picks) = ss[k] :: sessionsAt 0 ss picks := by
      unfold sessionsAt
      rw [List.filterMap_cons, Nat.sub_zero, List.getElem?_eq_getElem hk]
    have hself : j = k → s = ss[k] := by
      rintro rfl
      rw [List.getElem?_eq_getElem hk] at hj
      exact (Option.some.inj hj).symm
    rw [hat]
    constructor
    · intro p hp
      cases rows with
      | nil => cases hp
      | cons q rows =>
        rw [List.zip_cons_cons] at hp ⊢
        rcases List.mem_cons.mp hp with heq | hin
        · obtain ⟨hjk, rfl⟩ := Prod.mk.inj heq
          rw [hself hjk]
          exact List.mem_cons_self
        · exact List.mem_cons_of_mem _
            ((ih (fun i hi => hb i (List.mem_cons_of_mem _ hi)) rows).1 p hin)
    · intro hin
      rcases List.mem_cons.mp hin with hjk | hin'
      · rw [hself hjk]
        exact List.mem_cons_self
      · exact List.mem_cons_of_mem _
          ((ih (fun i hi => hb i (List.mem_cons_of_mem _ hi)) []).2 hin')

/-- The sessions after a round, one by one. -/
theorem outcome (spec : LLMSpec) {σ' : BatchState}
    (h : Picked seqLen σ'.sessions picks batch lens) :
    List.Forall₂ (Outcome spec batch lens σ') σ'.sessions
      (sampleAll spec picks (inSegments 0 lens)
        (advanceAll (growthList batch lens) σ')).sessions := by
  have hadvance : (advanceAll (growthList batch lens) σ').sessions =
      σ'.sessions.map fun s => s.advance (growthOf (growthList batch lens) s.id) :=
    updateAll_eq h.ids h.growth_ids
  have hids : ((advanceAll (growthList batch lens) σ').sessions.map (·.id)).Nodup := by
    rw [hadvance, List.map_map]
    exact h.ids
  have hnodup : picks.Nodup := h.increasing.imp fun hlt => hlt.ne
  have hlenrows : picks.length ≤ (inSegments 0 lens).length := by
    have hall : ∀ l : List ℕ, (∀ k ∈ l, k < σ'.sessions.length) →
        (sessionsAt 0 σ'.sessions l).length = l.length := by
      intro l hl
      induction l with
      | nil => rfl
      | cons k l ih =>
        unfold sessionsAt at ih ⊢
        rw [List.filterMap_cons, Nat.sub_zero, List.getElem?_eq_getElem (hl k List.mem_cons_self)]
        exact congrArg (· + 1) (ih fun i hi => hl i (List.mem_cons_of_mem _ hi))
    rw [length_inSegments, h.length, h.batch_eq, hall picks h.bounds]
  -- one session at a time
  have hone : ∀ (j : ℕ) (s : Session), σ'.sessions[j]? = some s → ∃ s',
      (sampleAll spec picks (inSegments 0 lens)
        (advanceAll (growthList batch lens) σ')).sessions[j]? = some s' ∧
        Outcome spec batch lens σ' s s' := by
    intro j s hj
    have hmem : s ∈ σ'.sessions := List.mem_of_getElem? hj
    have hj' : (advanceAll (growthList batch lens) σ').sessions[j]? =
        some (s.advance (growthOf (growthList batch lens) s.id)) := by
      rw [hadvance, List.getElem?_map, hj]
      rfl
    obtain ⟨hin, hout⟩ := sampleAll_sessions spec (inSegments 0 lens) hids hnodup hj'
    obtain ⟨hrow, hpick⟩ := zip_index h.bounds (inSegments 0 lens) hj
    rw [← h.batch_eq] at hrow hpick
    by_cases hjp : j ∈ picks
    · obtain ⟨p, hp⟩ : ∃ p, (j, p) ∈ picks.zip (inSegments 0 lens) := by
        obtain ⟨i, hi, rfl⟩ := List.mem_iff_getElem.mp hjp
        have hi' : i < (inSegments 0 lens).length := by omega
        refine ⟨(inSegments 0 lens)[i], ?_⟩
        rw [← List.getElem_zip (h := by rw [List.length_zip]; omega)]
        exact List.getElem_mem _
      refine ⟨_, hin p hp, ?_⟩
      rw [h.growth_ran (hrow p hp)]
      exact Outcome.ran (hrow p hp)
    · have hnot : s ∉ batch := by
        intro hs
        rw [h.batch_eq] at hs
        obtain ⟨k, hk, hat⟩ := List.mem_filterMap.mp hs
        rw [Nat.sub_zero] at hat
        have hkj : k = j := by
          have hnod := List.Nodup.of_map _ h.ids
          exact (List.getElem?_inj (h.bounds k hk) hnod).mp (hat.trans hj.symm)
        exact hjp (hkj ▸ hk)
      refine ⟨_, hout hjp, ?_⟩
      rw [h.growth_idle hmem hnot]
      exact Outcome.idle hnot
  apply List.forall₂_iff_get.mpr
  have hlen : σ'.sessions.length = (sampleAll spec picks (inSegments 0 lens)
      (advanceAll (growthList batch lens) σ')).sessions.length := by
    have hsame := congrArg List.length
      (sampleAll_ids spec picks (inSegments 0 lens) hids)
    rw [List.length_map, List.length_map, hadvance, List.length_map] at hsame
    exact hsame.symm
  refine ⟨hlen, fun j h₁ h₂ => ?_⟩
  obtain ⟨s', hs', hout⟩ := hone j _ (List.getElem?_eq_getElem h₁)
  rw [List.getElem?_eq_getElem h₂] at hs'
  obtain rfl := Option.some.inj hs'
  exact hout

end Picked

/-! ## Releasing the completed sessions -/

theorem mem_release {segs : KVCacheManager} (hids : (segs.map (·.sessionId)).Nodup) {id : String}
    {seg : KVCacheSegment} : seg ∈ release segs id ↔ seg ∈ segs ∧ seg.sessionId ≠ id := by
  unfold release
  induction segs with
  | nil => simp
  | cons head segs ih =>
    rw [List.map_cons, List.nodup_cons] at hids
    rw [List.eraseP_cons]
    by_cases hid : head.sessionId = id
    · rw [beq_iff_eq.mpr hid, cond_true, List.mem_cons]
      constructor
      · intro hin
        refine ⟨Or.inr hin, fun heq => hids.1 ?_⟩
        rw [hid, ← heq]
        exact List.mem_map_of_mem hin
      · rintro ⟨rfl | hin, hne⟩
        · exact absurd hid hne
        · exact hin
    · rw [beq_eq_false_iff_ne.mpr hid, cond_false, List.mem_cons, List.mem_cons, ih hids.2]
      constructor
      · rintro (rfl | ⟨hin, hne⟩)
        · exact ⟨Or.inl rfl, hid⟩
        · exact ⟨Or.inr hin, hne⟩
      · rintro ⟨rfl | hin, hne⟩
        · exact Or.inl rfl
        · exact Or.inr ⟨hin, hne⟩

theorem releaseCompleted_cons (s : Session) (ss : Scheduler) (segs : KVCacheManager) :
    releaseCompleted (s :: ss) segs = releaseCompleted ss
      (if s.status = .completed ∧ (getSegment segs s.id).isSome then release segs s.id
        else segs) := rfl

/-- Some segments are released, and the others stay in order. -/
theorem releaseCompleted_sublist (ss : Scheduler) (segs : KVCacheManager) :
    (releaseCompleted ss segs).Sublist segs := by
  induction ss generalizing segs with
  | nil => exact List.Sublist.refl _
  | cons s ss ih =>
    rw [releaseCompleted_cons]
    split_ifs
    · exact (ih _).trans List.eraseP_sublist
    · exact ih _

/-- The segments of the completed sessions are released. -/
theorem mem_releaseCompleted {ss : Scheduler} {segs : KVCacheManager}
    (hids : (segs.map (·.sessionId)).Nodup) {seg : KVCacheSegment} :
    seg ∈ releaseCompleted ss segs ↔
      seg ∈ segs ∧ ∀ s ∈ ss, s.status = .completed → s.id ≠ seg.sessionId := by
  induction ss generalizing segs with
  | nil => simp [releaseCompleted]
  | cons s ss ih =>
    rw [releaseCompleted_cons, List.forall_mem_cons]
    split_ifs with hc
    · have hids' : ((release segs s.id).map (·.sessionId)).Nodup :=
        hids.sublist (List.eraseP_sublist.map _)
      rw [ih hids', mem_release hids]
      constructor
      · rintro ⟨⟨hin, hne⟩, hall⟩
        exact ⟨hin, fun _ => Ne.symm hne, hall⟩
      · rintro ⟨hin, hne, hall⟩
        exact ⟨⟨hin, Ne.symm (hne hc.1)⟩, hall⟩
    · rw [ih hids]
      constructor
      · rintro ⟨hin, hall⟩
        refine ⟨hin, fun hstatus heq => hc ⟨hstatus, ?_⟩, hall⟩
        rw [getSegment_isSome, heq]
        exact List.mem_map_of_mem hin
      · rintro ⟨hin, -, hall⟩
        exact ⟨hin, hall⟩

/-! ## A round keeps the service -/

/-- A longer stream has the same beginning. -/
theorem take_pairsOf_of_le {l l' : List Int32} (h : l <+: l') {n : ℕ} (hn : n ≤ l.length) :
    (pairsOf l').take n = (pairsOf l).take n := by
  obtain ⟨t, rfl⟩ := h
  rw [take_pairsOf, take_pairsOf, List.take_append_of_le_length hn]

theorem Outcome.id {s s' : Session} {σ' : BatchState} (h : Outcome spec batch lens σ' s s') :
    s'.id = s.id := by
  cases h with
  | idle _ => rfl
  | ran _ => exact sampleSession_id _ _

theorem outcome_ids {ss ss' : Scheduler} {σ' : BatchState}
    (h : List.Forall₂ (Outcome spec batch lens σ') ss ss') :
    ss'.map (·.id) = ss.map (·.id) := by
  induction h with
  | nil => rfl
  | cons hs _ ih => rw [List.map_cons, List.map_cons, ih, hs.id]

theorem Outcome.stream {s s' : Session} {σ' : BatchState} (h : Outcome spec batch lens σ' s s') :
    s.stream <+: s'.stream := by
  cases h with
  | idle _ => exact List.prefix_rfl
  | @ran p _ => exact sampleSession_stream _ (s.advance p.2)

namespace Stepping

/-- The token that ends a session's rows is the answer to the session's own tokens. -/
theorem token (h : Stepping spec next holds batch lens σ) {env : BatchEnv I}
    (o : CausalOracle spec env next holds) {σ' : BatchState}
    (hpass : Passing spec env (context spec batch lens σ) σ spec.shardCount σ') {s : Session}
    {p : InSegment} (hin : (s, p) ∈ batch.zip (inSegments 0 lens)) :
    nextToken spec (p.1 + p.2 - 1) σ' =
      next ((pairsOf s.stream).take (s.processedLength + p.2)) := by
  have hpos : 0 < p.2 := (h.granted _ (mem_zip_lens hin)).pos
  obtain ⟨seg, -, hget, howned⟩ := h.segment (List.of_mem_zip hin).1
  have hpart : (seg, p) ∈ (context spec batch lens σ).parts :=
    (mem_parts h.roomy.served).mpr ⟨s, hin, hget⟩
  have hanswer := (h.answer o hpass hpart hin howned (r := p.2 - 1)
    (show p.2 - 1 < p.2 by omega)).2
  unfold nextToken
  rw [hpass.active, show p.1 + p.2 - 1 = p.1 + (p.2 - 1) by omega, hanswer]
  congr 2
  omega

/-- Every session is sound after the round. -/
theorem sound_after (h : Stepping spec next holds batch lens σ) {env : BatchEnv I}
    (o : CausalOracle spec env next holds) {σ' : BatchState}
    (hpass : Passing spec env (context spec batch lens σ) σ spec.shardCount σ') {s s' : Session}
    (hs : s ∈ σ.sessions) (hout : Outcome spec batch lens σ' s s') : Sound spec next s' := by
  cases hout with
  | idle _ => exact h.serving.sound _ hs
  | ran hin =>
    have hmem := (List.of_mem_zip hin).1
    exact (h.serving.sound s hs).sampled (h.status s hmem) (h.granted _ (mem_zip_lens hin))
      (h.token o hpass hin)

/-- A segment with its new columns holds the tokens that its session has processed. -/
theorem recalls_after (h : Stepping spec next holds batch lens σ) {env : BatchEnv I}
    (o : CausalOracle spec env next holds) {σ' : BatchState}
    (hpass : Passing spec env (context spec batch lens σ) σ spec.shardCount σ')
    {seg : KVCacheSegment} {s s' : Session} (hseg : seg ∈ σ.segs)
    (howned : Owned spec holds (columnsAt spec (spec.kvLen .prefill σ.activeClIdx) σ.kv) seg s)
    (hout : Outcome spec batch lens σ' s s') (hstatus : s'.status ≠ .completed)
    (hidle : s ∉ batch → growthOf (growthList batch lens) s.id = 0) :
    Owned spec holds (columnsAt spec (spec.kvLen .prefill σ.activeClIdx) σ'.kv)
      (grow (growthOf (growthList batch lens)) seg) s' := by
  -- the columns from before the round
  have hold : ∀ k < seg.length, ∀ sh < spec.shardCount,
      holds sh (columnsAt spec (spec.kvLen .prefill σ.activeClIdx) σ'.kv (seg.startPos + k) sh)
        ((pairsOf s.stream).take (k + 1)) := by
    intro k hk sh hsh
    have hfin := h.serving.within seg hseg
    unfold KVCacheSegment.fin at hfin
    rw [hpass.column_old h.rooms (by omega) (h.outside hseg hk)]
    exact howned.recalls k hk sh hsh
  cases hout with
  | idle hnot =>
    have hzero : growthOf (growthList batch lens) seg.sessionId = 0 := by
      rw [← howned.id]
      exact hidle hnot
    have hgrow : grow (growthOf (growthList batch lens)) seg = seg := by
      unfold grow
      rw [hzero]
      rfl
    rw [hgrow]
    exact ⟨howned.id, hstatus, howned.length, hold⟩
  | @ran p hin =>
    have hmem := (List.of_mem_zip hin).1
    obtain ⟨seg', hseg', hget, howned'⟩ := h.segment hmem
    obtain rfl : seg = seg' := List.inj_on_of_nodup_map h.serving.segIds hseg hseg'
      (howned.id.symm.trans howned'.id)
    have hpart : (seg, p) ∈ (context spec batch lens σ).parts :=
      (mem_parts h.roomy.served).mpr ⟨s, hin, hget⟩
    obtain ⟨t, -, htin, -, -, hgrowth, htowned⟩ := h.part hpart
    have hlong := (stepTokens_eq (h.serving.sound s (h.members.subset hmem)).toTracked
      (h.status s hmem) (h.granted _ (mem_zip_lens hin))).2
    have hlen := howned.length
    refine ⟨(sampleSession_id _ _).trans howned.id, hstatus, ?_, ?_⟩
    · rw [sampleSession_processedLength]
      show s.processedLength + p.2 = seg.length + growthOf _ seg.sessionId
      rw [hgrowth, hlen]
    · intro k hk sh hsh
      have hk' : k < seg.length + p.2 := by
        show k < seg.length + (seg, p).2.2
        rw [← hgrowth]
        exact hk
      rw [take_pairsOf_of_le (sampleSession_stream _ (s.advance p.2))
        (show k + 1 ≤ s.stream.length by omega)]
      rcases Nat.lt_or_ge k seg.length with hlt | hge
      · exact hold k hlt sh hsh
      · obtain ⟨j, rfl⟩ : ∃ j, k = seg.length + j := ⟨k - seg.length, by omega⟩
        have hj : j < p.2 := by omega
        have hcol := hpass.column_new h.rooms hpart (s := sh) hj hsh
        have hanswer := (h.answer o hpass hpart hin howned hj).1 sh hsh
        show holds sh (columnsAt spec _ σ'.kv (seg.startPos + (seg.length + j)) sh) _
        rw [← Nat.add_assoc]
        have hfin : seg.startPos + seg.length = (seg, p).1.fin := rfl
        rw [hfin, hcol]
        show holds sh _ ((pairsOf s.stream).take (seg.length + j + 1))
        rw [← hlen]
        exact hanswer

end Stepping

end Geniex.CB
