import Mathlib.Tactic

/-!
# The scheduler of a batch

`Scheduler` picks the sessions of the next forward pass in insertion order, until the row budget is
used up. `GenerateBatch` works out the rows of each session again (`segLengths`).

* `batchFrom_isBatch`: the batch, as increasing indices of sessions that are not complete.
* `batchFrom_segLengths`: every session of the batch gets a row, and all of them stay within the
  budget.
-/

namespace Geniex.CB

/-- `SessionStatus`. -/
inductive SessionStatus
  | waiting
  | running
  | completed
  deriving DecidableEq, Repr

/-- `Session`. -/
structure Session where
  id : String
  queryTokens : List Int32
  queryLen : ℕ := 0
  processedLength : ℕ := 0
  status : SessionStatus := .waiting
  generatedTokens : List Int32 := []
  generatedLen : ℕ := 0
  maxTokens : ℤ := 512
  /-- The last sampled token, which the next decode step feeds back. -/
  pendingToken : Int32 := 0
  deriving DecidableEq, Repr

/-- `Scheduler`: its `sessions_`. -/
abbrev Scheduler : Type := List Session

namespace Scheduler

/-- A session as `addSession` builds it. -/
def newSession (id : String) (query : List Int32) (maxTokens : ℤ) : Session where
  id := id
  queryTokens := query
  queryLen := query.length
  maxTokens := maxTokens

/-- `addSession(session_id, query_tokens, max_tokens)`. -/
def addSession (ss : Scheduler) (id : String) (query : List Int32) (maxTokens : ℤ) : Scheduler :=
  ss ++ [newSession id query maxTokens]

/-- The rows a session asks for when `total` rows of `maxTokens` are taken; `none` is `break`. -/
def need (maxTokens total : ℕ) (s : Session) : Option ℕ :=
  if s.processedLength < s.queryLen then
    if min (s.queryLen - s.processedLength) (maxTokens - total) = 0 then none
    else some (min (s.queryLen - s.processedLength) (maxTokens - total))
  else if maxTokens < total + 1 then none
  else some 1

/-- `if (s.status == SessionStatus::WAITING) s.status = SessionStatus::RUNNING;` -/
def wake (s : Session) : Session :=
  if s.status = .waiting then { s with status := .running } else s

/-- The loop of `getNextBatch` from session `i` on. A `Session*` is the session's index. -/
def batchFrom (maxTokens : ℕ) : ℕ → ℕ → Scheduler → Scheduler × List ℕ
  | _, _, [] => ([], [])
  | total, i, s :: rest =>
    if s.status = .completed then
      let r := batchFrom maxTokens total (i + 1) rest
      (s :: r.1, r.2)
    else
      match need maxTokens total s with
      | none => (s :: rest, [])
      | some n =>
        let r := batchFrom maxTokens (total + n) (i + 1) rest
        (wake s :: r.1, i :: r.2)

/-- `getNextBatch(out, max_tokens_in_batch)`: the sessions after it and the batch. -/
def getNextBatch (ss : Scheduler) (maxTokens : ℕ) : Scheduler × List ℕ := batchFrom maxTokens 0 0 ss

/-- The first session with an id. -/
def updateFirst (id : String) (f : Session → Session) : Scheduler → Scheduler
  | [] => []
  | s :: rest => if s.id = id then f s :: rest else s :: updateFirst id f rest

/-- `updateSession(session_id, new_tokens)`. -/
def updateSession (ss : Scheduler) (id : String) (newTokens : ℕ) : Scheduler :=
  updateFirst id (fun s => { s with processedLength := s.processedLength + newTokens }) ss

/-- `completeSession(session_id)`. -/
def completeSession (ss : Scheduler) (id : String) : Scheduler :=
  updateFirst id (fun s => { s with status := .completed }) ss

/-- `removeSession(session_id)`. -/
def removeSession (ss : Scheduler) (id : String) : Scheduler := ss.filter fun s => s.id ≠ id

/-- `hasActiveSessions()`. -/
def hasActiveSessions (ss : Scheduler) : Bool := ss.any fun s => s.status ≠ .completed

/-- `getSession(id)`. -/
def getSession (ss : Scheduler) (id : String) : Option Session := ss.find? fun s => s.id = id

/-- The rows that `generateBatch` gives the sessions of a batch when `used` rows are taken. -/
def segLengths (seqLen : ℕ) : ℕ → List Session → List ℕ
  | _, [] => []
  | used, s :: rest =>
    let n := if s.processedLength < s.queryLen then
        min (s.queryLen - s.processedLength) (seqLen - used)
      else 1
    n :: segLengths seqLen (used + n) rest

/-! ## What a batch is -/

@[simp] theorem wake_id (s : Session) : (wake s).id = s.id := by unfold wake; split_ifs <;> rfl

@[simp] theorem wake_queryLen (s : Session) : (wake s).queryLen = s.queryLen := by
  unfold wake; split_ifs <;> rfl

@[simp] theorem wake_processedLength (s : Session) :
    (wake s).processedLength = s.processedLength := by unfold wake; split_ifs <;> rfl

/-- Waking changes the status only. -/
theorem wake_eq (s : Session) : wake s = { s with status := (wake s).status } := by
  unfold wake; split_ifs <;> rfl

theorem wake_completed (s : Session) : (wake s).status = .completed ↔ s.status = .completed := by
  unfold wake
  split_ifs with h
  · simp [h]
  · rfl

/-- A session that gets a row gets no more than what is left. -/
theorem need_some {maxTokens total n : ℕ} {s : Session} (hle : total ≤ maxTokens)
    (h : need maxTokens total s = some n) :
    0 < n ∧ total + n ≤ maxTokens ∧ n = if s.processedLength < s.queryLen then
      min (s.queryLen - s.processedLength) (maxTokens - total) else 1 := by
  unfold need at h
  split_ifs at h ⊢ <;> simp only [Option.some.injEq] at h <;> omega

/-- A session gets no row only when none is left. -/
theorem need_none {maxTokens total : ℕ} {s : Session} (h : need maxTokens total s = none) :
    maxTokens ≤ total := by
  unfold need at h
  split_ifs at h <;> omega

variable {maxTokens total i : ℕ} {ss : Scheduler}

theorem batchFrom_completed {s : Session} (h : s.status = .completed) :
    batchFrom maxTokens total i (s :: ss) =
      (s :: (batchFrom maxTokens total (i + 1) ss).1,
        (batchFrom maxTokens total (i + 1) ss).2) := by
  rw [batchFrom, if_pos h]

theorem batchFrom_none {s : Session} (h : s.status ≠ .completed)
    (hn : need maxTokens total s = none) :
    batchFrom maxTokens total i (s :: ss) = (s :: ss, []) := by
  rw [batchFrom, if_neg h, hn]

theorem batchFrom_some {s : Session} {n : ℕ} (h : s.status ≠ .completed)
    (hn : need maxTokens total s = some n) :
    batchFrom maxTokens total i (s :: ss) =
      (wake s :: (batchFrom maxTokens (total + n) (i + 1) ss).1,
        i :: (batchFrom maxTokens (total + n) (i + 1) ss).2) := by
  rw [batchFrom, if_neg h, hn]

/-- The sessions after a pick: some of them woken. -/
theorem batchFrom_sessions :
    List.Forall₂ (fun s s' => s' = s ∨ s' = wake s) ss (batchFrom maxTokens total i ss).1 := by
  induction ss generalizing total i with
  | nil => exact .nil
  | cons s rest ih =>
    unfold batchFrom
    split_ifs with hs
    · exact .cons (Or.inl rfl) ih
    · cases need maxTokens total s with
      | none => exact .cons (Or.inl rfl) (List.forall₂_same.mpr fun _ _ => Or.inl rfl)
      | some n => exact .cons (Or.inr rfl) ih

/-- A batch, as indices into the sessions that it leaves. -/
structure IsBatch (i : ℕ) (ss : Scheduler) (batch : List ℕ) : Prop where
  increasing : batch.Pairwise (· < ·)
  bounds : ∀ k ∈ batch, i ≤ k ∧ k < i + ss.length
  active : ∀ k ∈ batch, ∀ s, ss[k - i]? = some s → s.status ≠ .completed

theorem batchFrom_isBatch (maxTokens total i : ℕ) (ss : Scheduler) :
    IsBatch i (batchFrom maxTokens total i ss).1 (batchFrom maxTokens total i ss).2 := by
  induction ss generalizing total i with
  | nil => exact ⟨List.Pairwise.nil, fun _ h => (by cases h), fun _ h => (by cases h)⟩
  | cons s rest ih =>
    -- what holds of the rest holds one index further on
    have hshift : ∀ total' s', IsBatch i
        (s' :: (batchFrom maxTokens total' (i + 1) rest).1)
        (batchFrom maxTokens total' (i + 1) rest).2 := by
      intro total' s'
      obtain ⟨hinc, hb, ha⟩ := ih total' (i + 1)
      refine ⟨hinc, fun k hk => ?_, fun k hk t ht => ?_⟩
      · have := hb k hk
        rw [List.length_cons]
        omega
      · have hk' := hb k hk
        rw [show k - i = (k - (i + 1)) + 1 by omega, List.getElem?_cons_succ] at ht
        exact ha k hk t ht
    unfold batchFrom
    split_ifs with hs
    · exact hshift total s
    · cases hn : need maxTokens total s with
      | none => exact ⟨List.Pairwise.nil, fun _ h => (by cases h), fun _ h => (by cases h)⟩
      | some n =>
        obtain ⟨hinc, hb, ha⟩ := hshift (total + n) (wake s)
        have hfirst := (ih (total + n) (i + 1)).bounds
        refine ⟨List.pairwise_cons.mpr ⟨fun k hk => (hfirst k hk).1, hinc⟩, fun k hk => ?_,
          fun k hk t ht => ?_⟩
        · rcases List.mem_cons.mp hk with rfl | hin
          · rw [List.length_cons]
            omega
          · exact hb k hin
        · rcases List.mem_cons.mp hk with rfl | hin
          · rw [Nat.sub_self, List.getElem?_cons_zero, Option.some.injEq] at ht
            rw [← ht, ne_eq, wake_completed]
            exact hs
          · exact ha k hin t ht

/-! ## The rows of a batch -/

/-- The sessions at the given indices, which count from `i`. -/
def sessionsAt (i : ℕ) (ss : Scheduler) (batch : List ℕ) : List Session :=
  batch.filterMap fun k => ss[k - i]?

theorem sessionsAt_cons {s : Session} {batch : List ℕ} (h : ∀ k ∈ batch, i + 1 ≤ k) :
    sessionsAt i (s :: ss) batch = sessionsAt (i + 1) ss batch := by
  apply List.filterMap_congr
  intro k hk
  have hk' := h k hk
  rw [show k - i = (k - (i + 1)) + 1 by omega, List.getElem?_cons_succ]

theorem sessionsAt_first {s : Session} {batch : List ℕ} (h : ∀ k ∈ batch, i + 1 ≤ k) :
    sessionsAt i (s :: ss) (i :: batch) = s :: sessionsAt (i + 1) ss batch := by
  rw [← sessionsAt_cons (s := s) h]
  unfold sessionsAt
  rw [List.filterMap_cons, Nat.sub_self, List.getElem?_cons_zero]

/-- The sessions at increasing indices, in their order. -/
theorem sessionsAt_sublist {batch : List ℕ} (hinc : batch.Pairwise (· < ·))
    (hle : ∀ k ∈ batch, i ≤ k) : (sessionsAt i ss batch).Sublist ss := by
  induction ss generalizing i batch with
  | nil =>
    have hnil : sessionsAt i [] batch = [] := List.filterMap_eq_nil_iff.mpr fun k _ => rfl
    rw [hnil]
  | cons s rest ih =>
    cases batch with
    | nil => exact List.nil_sublist _
    | cons k batch =>
      rw [List.pairwise_cons] at hinc
      rcases Nat.lt_or_eq_of_le (hle k List.mem_cons_self) with hlt | rfl
      · have hmore : ∀ j ∈ k :: batch, i + 1 ≤ j := by
          intro j hj
          rcases List.mem_cons.mp hj with rfl | hin
          · exact hlt
          · have := hinc.1 j hin
            omega
        rw [sessionsAt_cons hmore]
        exact (ih (List.pairwise_cons.mpr hinc) hmore).cons s
      · rw [sessionsAt_first hinc.1]
        exact (ih hinc.2 hinc.1).cons_cons s

/-- Every session of a batch gets a row, and all of them stay within the budget. -/
theorem batchFrom_segLengths (i : ℕ) (ss : Scheduler) (hle : total ≤ maxTokens) :
    let r := batchFrom maxTokens total i ss
    let lens := segLengths maxTokens total (sessionsAt i r.1 r.2)
    lens.length = r.2.length ∧ (∀ n ∈ lens, 0 < n) ∧ total + lens.sum ≤ maxTokens := by
  induction ss generalizing total i with
  | nil => exact ⟨rfl, fun _ h => (by cases h), hle⟩
  | cons s rest ih =>
    have hbounds := fun total' =>
      (batchFrom_isBatch maxTokens total' (i + 1) rest).bounds
    intro r lens
    by_cases hs : s.status = .completed
    · have hr : r = (s :: (batchFrom maxTokens total (i + 1) rest).1,
          (batchFrom maxTokens total (i + 1) rest).2) := batchFrom_completed hs
      have hlens : lens = segLengths maxTokens total (sessionsAt (i + 1)
          (batchFrom maxTokens total (i + 1) rest).1
          (batchFrom maxTokens total (i + 1) rest).2) := by
        show segLengths _ _ (sessionsAt i r.1 r.2) = _
        rw [hr, sessionsAt_cons fun k hk => (hbounds total k hk).1]
      rw [hlens, hr]
      exact ih (i + 1) hle
    · cases hn : need maxTokens total s with
      | none =>
        have hr : r = (s :: rest, []) := batchFrom_none hs hn
        have hlens : lens = [] := by
          show segLengths _ _ (sessionsAt i r.1 r.2) = _
          rw [hr]
          rfl
        rw [hlens, hr]
        exact ⟨rfl, fun _ h => (by cases h), hle⟩
      | some n =>
        obtain ⟨hpos, hle', hval⟩ := need_some hle hn
        have hr : r = (wake s :: (batchFrom maxTokens (total + n) (i + 1) rest).1,
            i :: (batchFrom maxTokens (total + n) (i + 1) rest).2) := batchFrom_some hs hn
        have hat : sessionsAt i r.1 r.2 = wake s :: sessionsAt (i + 1)
            (batchFrom maxTokens (total + n) (i + 1) rest).1
            (batchFrom maxTokens (total + n) (i + 1) rest).2 := by
          rw [hr, sessionsAt_first fun k hk => (hbounds (total + n) k hk).1]
        have hlens : lens = n :: segLengths maxTokens (total + n) (sessionsAt (i + 1)
            (batchFrom maxTokens (total + n) (i + 1) rest).1
            (batchFrom maxTokens (total + n) (i + 1) rest).2) := by
          show segLengths _ _ (sessionsAt i r.1 r.2) = _
          rw [hat, segLengths, wake_queryLen, wake_processedLength, ← hval]
        obtain ⟨hlen, hall, hsum⟩ := ih (i + 1) hle'
        rw [hlens, hr]
        refine ⟨congrArg (· + 1) hlen, fun m hm => ?_, ?_⟩
        · rcases List.mem_cons.mp hm with rfl | hin
          · exact hpos
          · exact hall m hin
        · rw [List.sum_cons]
          omega

end Scheduler

end Geniex.CB
