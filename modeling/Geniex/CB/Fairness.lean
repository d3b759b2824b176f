import Geniex.CB.Streaming

/-!
# Nobody is put off

`getNextBatch` serves the sessions in insertion order and stops at the first one without a row.

* `batchFrom_initial`: a batch passes nobody over.
* `Steady`: what the rounds make of the sessions: those that have been started come first, all of
  them but the last have read their prompts, and there is a row for each.
* `Steady.round`: a round keeps it.
* `never_preempted`: so a session that has been started is in every batch until it is completed.
-/

namespace Geniex.CB

open KVCacheManager Scheduler Prog

variable {I : Type} {spec : LLMSpec} {env : BatchEnv I} {batch : List Session} {lens : List ℕ}
  {σ σ' : BatchState}

/-! ## The order of a batch -/

/-- A batch passes nobody over. -/
theorem batchFrom_initial {maxTokens total i : ℕ} {ss : Scheduler} :
    ∀ k ∈ (batchFrom maxTokens total i ss).2, ∀ j, i ≤ j → j < k → ∀ s,
      (batchFrom maxTokens total i ss).1[j - i]? = some s → s.status ≠ .completed →
      j ∈ (batchFrom maxTokens total i ss).2 := by
  induction ss generalizing total i with
  | nil => exact fun _ hk => by cases hk
  | cons s rest ih =>
    have hnext : ∀ {j t : ℕ} {x : Session} {l : Scheduler} {u : Session}, i < j →
        (x :: l)[j - i]? = some u → l[j - (i + 1)]? = some u := by
      intro j t x l u hij h
      rwa [show j - i = (j - (i + 1)) + 1 by omega, List.getElem?_cons_succ] at h
    by_cases hs : s.status = .completed
    · rw [batchFrom_completed hs]
      intro k hk j hij hjk t ht hleft
      rcases Nat.eq_or_lt_of_le hij with rfl | hlt
      · rw [Nat.sub_self, List.getElem?_cons_zero, Option.some.injEq] at ht
        exact absurd (ht ▸ hs) hleft
      · exact ih k hk j hlt hjk t (hnext (t := 0) hlt ht) hleft
    · cases hn : need maxTokens total s with
      | none =>
        rw [batchFrom_none hs hn]
        exact fun _ hk => by cases hk
      | some n =>
        rw [batchFrom_some hs hn]
        intro k hk j hij hjk t ht hleft
        rcases Nat.eq_or_lt_of_le hij with rfl | hlt
        · exact List.mem_cons_self
        · rcases List.mem_cons.mp hk with rfl | hin
          · omega
          · exact List.mem_cons_of_mem _ (ih k hin j hlt hjk t (hnext (t := 0) hlt ht) hleft)

/-- Every session of a batch but the last one has read its prompt after the pass. -/
theorem segLengths_full {seqLen used : ℕ} {batch : List Session}
    (hpos : ∀ n ∈ segLengths seqLen used batch, 0 < n)
    (hsum : used + (segLengths seqLen used batch).sum ≤ seqLen) :
    (batch.zip (segLengths seqLen used batch)).Pairwise fun a _ =>
      a.1.queryLen ≤ a.1.processedLength + a.2 := by
  induction batch generalizing used with
  | nil => exact List.Pairwise.nil
  | cons s rest ih =>
    rw [segLengths] at hpos hsum ⊢
    rw [List.zip_cons_cons, List.pairwise_cons]
    rw [List.sum_cons] at hsum
    refine ⟨fun b hb => ?_, ih (fun n hn => hpos n (List.mem_cons_of_mem _ hn)) (by omega)⟩
    have hmem := (List.of_mem_zip hb).2
    have hb := hpos _ (List.mem_cons_of_mem _ hmem)
    have hle := List.single_le_sum (fun _ _ => Nat.zero_le _) _ hmem
    split_ifs at hle hsum ⊢ with hread
    · dsimp only
      omega
    · dsimp only
      omega

/-! ## Started sessions -/

/-- A session that is left. -/
def Session.left (s : Session) : Bool := s.status ≠ .completed

/-- A session that is left and has been given a row. -/
def Session.started (s : Session) : Bool := s.left && decide (0 < s.processedLength)

theorem left_iff (s : Session) : s.left = true ↔ s.status ≠ .completed := decide_eq_true_iff

theorem started_iff (s : Session) :
    s.started = true ↔ s.status ≠ .completed ∧ 0 < s.processedLength := by
  simp [Session.started, Session.left]

/-- A started session comes after sessions that have been started and have read their prompts, and
every started session can have a row. -/
structure Steady (budget : ℕ) (ss : Scheduler) : Prop where
  order : ss.Pairwise fun s t => s.left = true → t.started = true →
    s.started = true ∧ s.queryLen ≤ s.processedLength
  count : ss.countP Session.started ≤ budget

/-- Started sessions are picked. -/
theorem batchFrom_started {budget total i : ℕ} {ss : Scheduler}
    (horder : ss.Pairwise fun s t => s.left = true → t.started = true →
      s.started = true ∧ s.queryLen ≤ s.processedLength)
    (hcount : total + ss.countP Session.started ≤ budget) :
    ∀ j, i ≤ j → ∀ s, ss[j - i]? = some s → s.started = true →
      j ∈ (batchFrom budget total i ss).2 := by
  induction ss generalizing total i with
  | nil => exact fun _ _ _ h => by cases h
  | cons s rest ih =>
    rw [List.pairwise_cons] at horder
    rw [List.countP_cons] at hcount
    intro j hij t ht hstarted
    have hnext : i < j → rest[j - (i + 1)]? = some t := by
      intro hlt
      rwa [show j - i = (j - (i + 1)) + 1 by omega, List.getElem?_cons_succ] at ht
    have hself : i = j → s = t := by
      rintro rfl
      rw [Nat.sub_self, List.getElem?_cons_zero] at ht
      exact Option.some.inj ht
    by_cases hs : s.status = .completed
    · rw [batchFrom_completed hs]
      rcases Nat.eq_or_lt_of_le hij with heq | hlt
      · rw [← hself heq, started_iff] at hstarted
        exact absurd hs hstarted.1
      · exact ih horder.2 (by omega) j hlt t (hnext hlt) hstarted
    · have hleft := (left_iff s).mpr hs
      -- the session itself has been started, as one after it has
      have hfirst : s.started = true := by
        rcases Nat.eq_or_lt_of_le hij with heq | hlt
        · rw [hself heq]
          exact hstarted
        · exact (horder.1 t (List.mem_of_getElem? (hnext hlt)) hleft hstarted).1
      rw [if_pos hfirst] at hcount
      cases hn : need budget total s with
      | none =>
        have := need_none hn
        omega
      | some n =>
        obtain ⟨-, hroom, hval⟩ := need_some (by omega) hn
        rw [batchFrom_some hs hn]
        rcases Nat.eq_or_lt_of_le hij with rfl | hlt
        · exact List.mem_cons_self
        · refine List.mem_cons_of_mem _ (ih horder.2 ?_ j hlt t (hnext hlt) hstarted)
          by_cases hread : s.processedLength < s.queryLen
          · -- no session after one that is reading has been started
            have hnone : rest.countP Session.started = 0 := by
              rw [List.countP_eq_zero]
              intro u hu hc
              have := (horder.1 u hu hleft hc).2
              omega
            omega
          · rw [if_neg hread] at hval
            omega

/-- What the scheduler looks at. -/
def Session.progress (s : Session) : Bool × ℕ × ℕ := (s.left, s.processedLength, s.queryLen)

theorem Steady.congr {budget : ℕ} {ss ss' : Scheduler} (h : Steady budget ss)
    (heq : ss'.map Session.progress = ss.map Session.progress) : Steady budget ss' := by
  have hstarted : ∀ l : Scheduler, l.countP Session.started =
      (l.map Session.progress).countP fun p => p.1 && decide (0 < p.2.1) := by
    intro l
    rw [List.countP_map]
    rfl
  have horder : ∀ l : Scheduler, (l.Pairwise fun s t => s.left = true → t.started = true →
      s.started = true ∧ s.queryLen ≤ s.processedLength) ↔
      (l.map Session.progress).Pairwise fun p q => p.1 = true →
        (q.1 && decide (0 < q.2.1)) = true →
        (p.1 && decide (0 < p.2.1)) = true ∧ p.2.2 ≤ p.2.1 := by
    intro l
    rw [List.pairwise_map]
    rfl
  refine ⟨(horder ss').mpr ?_, ?_⟩
  · rw [heq]
    exact (horder ss).mp h.order
  · rw [hstarted, heq, ← hstarted]
    exact h.count

/-- Picking a batch starts nobody. -/
theorem Steady.woken {budget : ℕ} {ss ss' : Scheduler} (h : Steady budget ss)
    (hss : List.Forall₂ (fun s s' => s' = s ∨ s' = wake s) ss ss') : Steady budget ss' := by
  apply h.congr
  clear h
  induction hss with
  | nil => rfl
  | @cons s s' _ _ hs _ ih =>
    have hone : s'.progress = s.progress := by
      rcases hs with rfl | rfl
      · rfl
      · unfold Session.progress Session.left
        simp [wake_completed]
    rw [List.map_cons, List.map_cons, ih, hone]

/-! ## A round -/

/-- The sessions of a batch, by their places in it. -/
theorem getElem?_sessionsAt {ss : Scheduler} {picks : List ℕ} (hb : ∀ k ∈ picks, k < ss.length)
    (a : ℕ) : (sessionsAt 0 ss picks)[a]? = picks[a]?.bind fun k => ss[k]? := by
  induction picks generalizing a with
  | nil => rfl
  | cons k picks ih =>
    have hat : sessionsAt 0 ss (k :: picks) =
        ss.get ⟨k, hb k List.mem_cons_self⟩ :: sessionsAt 0 ss picks := by
      unfold sessionsAt
      rw [List.filterMap_cons, Nat.sub_zero, List.getElem?_eq_getElem (hb k List.mem_cons_self)]
      rfl
    rw [hat]
    cases a with
    | zero => simp [hb k List.mem_cons_self]
    | succ a =>
      rw [List.getElem?_cons_succ, List.getElem?_cons_succ]
      exact ih (fun i hi => hb i (List.mem_cons_of_mem _ hi)) a

namespace Picked

variable {seqLen : ℕ} {ss : Scheduler} {picks : List ℕ}

/-- Every session of a batch has a row. -/
theorem lens_pos (h : Picked seqLen ss picks batch lens) : ∀ n ∈ lens, 0 < n := by
  intro n hn
  obtain ⟨a, ha, rfl⟩ := List.mem_iff_getElem.mp hn
  have ha' : a < batch.length := by rw [← h.length]; exact ha
  have hin : (batch[a], lens[a]) ∈ batch.zip lens := by
    rw [← List.getElem_zip (h := by rw [List.length_zip]; omega)]
    exact List.getElem_mem _
  exact (h.granted _ hin).pos

/-- A session that another one follows in its batch has read its prompt after the pass. -/
theorem full (h : Picked seqLen ss picks batch lens) (hlens : lens = segLengths seqLen 0 batch)
    {j k : ℕ} (hj : j < ss.length) (hk : k < ss.length) (hjk : j < k) {p q : InSegment}
    (hp : (ss[j], p) ∈ batch.zip (inSegments 0 lens))
    (hq : (ss[k], q) ∈ batch.zip (inSegments 0 lens)) :
    ss[j].queryLen ≤ ss[j].processedLength + p.2 := by
  have hsum : 0 + (segLengths seqLen 0 batch).sum ≤ seqLen := by
    rw [← hlens, Nat.zero_add]
    exact h.sum
  have hfull := segLengths_full (by rw [← hlens]; exact h.lens_pos) hsum
  rw [← hlens] at hfull
  -- the places of the two in the batch
  have hplace : ∀ {i : ℕ} {r : InSegment} (hi : i < ss.length),
      (ss[i], r) ∈ batch.zip (inSegments 0 lens) →
      ∃ a : ℕ, (batch.zip lens)[a]? = some (ss[i], r.2) ∧ picks[a]? = some i := by
    intro i r hi hin
    obtain ⟨a, ha⟩ := List.mem_iff_getElem?.mp (mem_zip_lens hin)
    refine ⟨a, ha, ?_⟩
    have hat := (List.getElem?_zip_eq_some.mp ha).1
    rw [h.batch_eq, getElem?_sessionsAt h.bounds] at hat
    obtain ⟨i', hi', hsame⟩ := Option.bind_eq_some_iff.mp hat
    have hmem := List.mem_of_getElem? hi'
    have heq : ss[i']? = ss[i]? := by rw [hsame, List.getElem?_eq_getElem hi]
    rw [hi', (List.getElem?_inj (h.bounds i' hmem) (List.Nodup.of_map _ h.ids)).mp heq]
  obtain ⟨a, ha, haj⟩ := hplace hj hp
  obtain ⟨b, hb, hbk⟩ := hplace hk hq
  obtain ⟨halt, haj'⟩ := List.getElem?_eq_some_iff.mp haj
  obtain ⟨hblt, hbk'⟩ := List.getElem?_eq_some_iff.mp hbk
  have hab : a < b := by
    by_contra hba
    rcases Nat.eq_or_lt_of_le (not_lt.mp hba) with rfl | hlt
    · omega
    · have := List.pairwise_iff_getElem.mp h.increasing b a hblt halt hlt
      omega
  obtain ⟨ha1, ha2⟩ := List.getElem?_eq_some_iff.mp ha
  obtain ⟨hb1, hb2⟩ := List.getElem?_eq_some_iff.mp hb
  have hfull' := List.pairwise_iff_getElem.mp hfull a b ha1 hb1 hab
  rw [ha2] at hfull'
  exact hfull'

/-- A batch has no more sessions than rows. -/
theorem batch_length (h : Picked seqLen ss picks batch lens) : batch.length ≤ seqLen := by
  refine le_trans ?_ h.sum
  rw [← h.length]
  have hall : ∀ l : List ℕ, (∀ n ∈ l, 0 < n) → l.length ≤ l.sum := by
    intro l hl
    induction l with
    | nil => exact le_rfl
    | cons n l ih =>
      rw [List.forall_mem_cons] at hl
      have := ih hl.2
      rw [List.length_cons, List.sum_cons]
      omega
  exact hall _ h.lens_pos

end Picked

/-- What a round leaves of a session that is left. -/
theorem Outcome.started {τ : BatchState} {s s' : Session} (h : Outcome spec batch lens τ s s')
    (hs' : s'.status ≠ .completed) :
    (s' = s ∧ s ∉ batch) ∨ ∃ p, (s, p) ∈ batch.zip (inSegments 0 lens) ∧
      s'.processedLength = s.processedLength + p.2 ∧ s'.queryLen = s.queryLen := by
  cases h with
  | idle hnot => exact Or.inl ⟨rfl, hnot⟩
  | @ran p hin =>
    refine Or.inr ⟨p, hin, sampleSession_processedLength _ _, ?_⟩
    unfold sampleSession
    split_ifs <;> rfl

/-- A round keeps the order of the sessions, and every started session has had its row. -/
theorem steady_outcome {τ : BatchState} {ws ss' : Scheduler} {picks : List ℕ}
    (hp : Picked spec.seqLenPrefill ws picks batch lens)
    (hlens : lens = segLengths spec.seqLenPrefill 0 batch)
    (hstarted : ∀ j s, ws[j]? = some s → s.started = true → j ∈ picks)
    (hinitial : ∀ k ∈ picks, ∀ j < k, ∀ s, ws[j]? = some s → s.status ≠ .completed → j ∈ picks)
    (hout : List.Forall₂ (Outcome spec batch lens τ) ws ss') : Steady spec.seqLenPrefill ss' := by
  have hmem : ∀ {j : ℕ} (hj : j < ws.length), j ∈ picks → ws[j] ∈ batch := by
    intro j hj hjp
    rw [hp.batch_eq]
    exact (Picked.zip_index hp.bounds [] (List.getElem?_eq_getElem hj)).2 hjp
  have hindex : ∀ {j : ℕ} (hj : j < ws.length), ws[j] ∈ batch → j ∈ picks := by
    intro j hj hin
    rw [hp.batch_eq] at hin
    obtain ⟨k, hk, hat⟩ := List.mem_filterMap.mp hin
    rw [Nat.sub_zero] at hat
    have heq : ws[k]? = ws[j]? := by rw [hat, List.getElem?_eq_getElem hj]
    exact (List.getElem?_inj (hp.bounds k hk) (List.Nodup.of_map _ hp.ids)).mp heq ▸ hk
  have hleft : ∀ {s s' : Session}, Outcome spec batch lens τ s s' → s'.status ≠ .completed →
      s.status ≠ .completed := by
    intro s s' hs hs'
    rcases hs.started hs' with ⟨rfl, -⟩ | ⟨p, hin, -⟩
    · exact hs'
    · exact hp.status s (List.of_mem_zip hin).1
  constructor
  · rw [List.pairwise_iff_getElem]
    intro j k hj hk hjk hlj hsk
    have hj' : j < ws.length := by rw [hout.length_eq]; exact hj
    have hk' : k < ws.length := by rw [hout.length_eq]; exact hk
    have hoj : Outcome spec batch lens τ ws[j] ss'[j] := hout.get hj' hj
    have hok : Outcome spec batch lens τ ws[k] ss'[k] := hout.get hk' hk
    rw [left_iff] at hlj
    have hsk' := (started_iff _).mp hsk
    -- the later session is in the batch, so the earlier one is
    obtain ⟨q, hq⟩ : ∃ q, (ws[k], q) ∈ batch.zip (inSegments 0 lens) := by
      rcases hok.started hsk'.1 with ⟨heq, hnot⟩ | ⟨q, hq, -⟩
      · rw [heq] at hsk
        exact absurd (hmem hk' (hstarted k _ (List.getElem?_eq_getElem hk') hsk)) hnot
      · exact ⟨q, hq⟩
    have hkp := hindex hk' (List.of_mem_zip hq).1
    have hjp := hinitial k hkp j hjk _ (List.getElem?_eq_getElem hj') (hleft hoj hlj)
    rcases hoj.started hlj with ⟨-, hnot⟩ | ⟨p, hpin, hlen, hquery⟩
    · exact absurd (hmem hj' hjp) hnot
    · have hpos := (hp.granted _ (mem_zip_lens hpin)).pos
      rw [started_iff, hlen, hquery]
      exact ⟨⟨hlj, Nat.add_pos_right _ hpos⟩, hp.full hlens hj' hk' hjk hpin hq⟩
  · -- a started session of the next round is one of the batch
    have hcount : ss'.countP Session.started ≤ ws.countP fun s => decide (s ∈ batch) := by
      have hall : ∀ {j : ℕ} (hj : j < ws.length) (hj' : j < ss'.length),
          ss'[j].started = true → ws[j] ∈ batch := by
        intro j hj hj' hs
        have ho : Outcome spec batch lens τ ws[j] ss'[j] := hout.get hj hj'
        rcases ho.started ((started_iff _).mp hs).1 with ⟨heq, -⟩ | ⟨p, hin, -⟩
        · rw [heq] at hs
          exact hmem hj (hstarted j _ (List.getElem?_eq_getElem hj) hs)
        · exact (List.of_mem_zip hin).1
      have hkeep : List.Forall₂ (fun s s' => s'.started = true → s ∈ batch) ws ss' :=
        List.forall₂_iff_get.mpr ⟨hout.length_eq, fun j hj hj' => hall hj hj'⟩
      clear * - hkeep
      induction hkeep with
      | nil => exact le_rfl
      | @cons s s' _ _ hs _ ih =>
        rw [List.countP_cons, List.countP_cons]
        split_ifs with h₁ h₂
        · omega
        · exact absurd (by simpa using hs h₁) h₂
        · omega
        · omega
    refine hcount.trans (le_trans ?_ hp.batch_length)
    rw [List.countP_eq_length_filter]
    refine (List.subperm_of_subset ((List.Nodup.of_map _ hp.ids).filter _) ?_).length_le
    intro s hs
    simpa using (List.mem_filter.mp hs).2

/-- A round keeps the order of the sessions. -/
theorem Steady.round (h : Steady spec.seqLenPrefill σ.sessions)
    (hids : (σ.sessions.map (·.id)).Nodup) (hrun : batchStep spec env σ = (.ok true, σ')) :
    Steady spec.seqLenPrefill σ'.sessions := by
  obtain ⟨τ, hpicked, -, hout⟩ := round_outcome hids hrun
  refine steady_outcome hpicked rfl ?_ (fun k hk j hjk s hs hleft => ?_) hout
  · intro j s hs hstarted
    obtain ⟨hj, rfl⟩ := List.getElem?_eq_some_iff.mp hs
    have hss : List.Forall₂ (fun s s' => s' = s ∨ s' = wake s) σ.sessions
        (getNextBatch σ.sessions spec.seqLenPrefill).1 := batchFrom_sessions
    have hj' : j < σ.sessions.length := by rw [hss.length_eq]; exact hj
    have hone : (getNextBatch σ.sessions spec.seqLenPrefill).1[j] = σ.sessions[j] ∨
        (getNextBatch σ.sessions spec.seqLenPrefill).1[j] = wake σ.sessions[j] := hss.get hj' hj
    -- the session was started before it was picked
    have hold : σ.sessions[j].started = true := by
      rw [started_iff] at hstarted ⊢
      rcases hone with heq | heq <;> rw [heq] at hstarted
      · exact hstarted
      · rwa [ne_eq, wake_completed, wake_processedLength] at hstarted
    exact batchFrom_started h.order (by rw [Nat.zero_add]; exact h.count) j (Nat.zero_le j) _
      (by rw [Nat.sub_zero]; exact List.getElem?_eq_getElem hj') hold
  · refine batchFrom_initial k hk j (Nat.zero_le j) hjk s ?_ hleft
    rw [Nat.sub_zero]
    exact hs

/-! ## Runs -/

/-- A round keeps the order of the sessions, at both of its exits. -/
theorem batchStep_steady : Stable (fun σ => (σ.sessions.map (·.id)).Nodup ∧
    Steady spec.seqLenPrefill σ.sessions) (batchStep spec env) := by
  rintro σ ⟨hids, h⟩
  have hstreams : Streams σ (batchStep spec env σ).2 :=
    Triple.snd (batchStep_streams hids) (fun _ _ h => h) (fun _ _ h => h) rfl
  rcases hrun : batchStep spec env σ with ⟨r, σ'⟩
  rw [hrun] at hstreams
  have hids' : (σ'.sessions.map (·.id)).Nodup := hstreams.ids ▸ hids
  cases r with
  | error e =>
    refine ⟨hids', ?_⟩
    rw [batchStep_error hrun]
    exact h.woken batchFrom_sessions
  | ok again =>
    rcases batchStep_ok hrun with ⟨-, rfl, -⟩ | ⟨rfl, -⟩
    · exact ⟨hids, h⟩
    · exact ⟨hids', h.round hids hrun⟩

theorem Operated.steady (h : Operated spec env σ) : Steady spec.seqLenPrefill σ.sessions := by
  induction h with
  | fresh hsessions =>
    rw [hsessions]
    exact ⟨List.Pairwise.nil, Nat.zero_le _⟩
  | @add σ _ id hid query maxTokens ih =>
    have hnew : (newSession id query maxTokens).started = false := rfl
    constructor
    · show (σ.sessions ++ [newSession id query maxTokens]).Pairwise _
      rw [List.pairwise_append]
      refine ⟨ih.order, List.pairwise_singleton _ _, fun s _ t ht _ hc => ?_⟩
      rw [List.mem_singleton.mp ht, hnew] at hc
      cases hc
    · show (σ.sessions ++ [newSession id query maxTokens]).countP _ ≤ _
      rw [List.countP_append, List.countP_singleton, hnew]
      exact ih.count
  | remove _ _ ih =>
    exact ⟨ih.order.sublist List.filter_sublist,
      (List.filter_sublist.countP_le).trans ih.count⟩
  | call h _ ih =>
    exact ((generateBatch_stable batchStep_steady _).snd ⟨h.ids, ih⟩).2

/-- A session that has been given a row is in every batch until it is completed, whatever else is
added, removed or fails. -/
theorem never_preempted (h : Operated spec env σ) {j : ℕ} {s : Session}
    (hj : σ.sessions[j]? = some s) (hleft : s.status ≠ .completed)
    (hstarted : 0 < s.processedLength) :
    j ∈ (getNextBatch σ.sessions spec.seqLenPrefill).2 :=
  batchFrom_started h.steady.order (by rw [Nat.zero_add]; exact h.steady.count) j (Nat.zero_le j) s
    (by rw [Nat.sub_zero]; exact hj) ((started_iff s).mpr ⟨hleft, hstarted⟩)

/-- After the first round, the prompt of the first request has been read in part. -/
theorem never_preempted_tiny : 0 ∈ (getNextBatch (tinyCall 1).sessions 4).2 :=
  never_preempted (tinyCall_reachable (by decide)).operated
    (s := { newSession "a" [1, 0, 1, 1, 0] 2 with processedLength := 4, status := .running })
    (by decide +kernel) (by decide) (by decide)

end Geniex.CB
