import Geniex.CB.Pass

/-!
# What the sessions of a batch are owed

* `answers`: the tokens that a session alone gets, one after the other, from graphs that answer by
  the (token, position) pairs.
* `Sound`: a session has got the first of its answers, and its bookkeeping fits them.
* `Serving`: every segment holds the columns of its own session, in order and apart from the others.
* `Serving.prepare`: picking a batch, promoting and making room keep it.
-/

namespace Geniex.CB

open FlatMem KVCacheManager Scheduler

/-! ## Sessions -/

/-- The tokens with their positions. -/
def pairsOf (l : List Int32) : List Pair := l.zipIdx.map fun p => (p.1, Int32.ofNat p.2)

@[simp] theorem length_pairsOf (l : List Int32) : (pairsOf l).length = l.length := by
  simp [pairsOf]

theorem getElem?_pairsOf (l : List Int32) (k : ℕ) :
    (pairsOf l)[k]? = l[k]?.map fun t => (t, Int32.ofNat k) := by
  unfold pairsOf
  rw [List.getElem?_map, List.getElem?_zipIdx, Option.map_map, Nat.zero_add]
  rfl

theorem take_pairsOf (l : List Int32) (k : ℕ) : (pairsOf l).take k = pairsOf (l.take k) := by
  apply List.ext_getElem?
  intro i
  rw [List.getElem?_take, getElem?_pairsOf, getElem?_pairsOf, List.getElem?_take]
  split_ifs <;> rfl

variable (spec : LLMSpec) (next : List Pair → Int32)

/-- The tokens generated after `tokens`, up to an end-of-sequence token and at most `n`. -/
def answers : ℕ → List Int32 → List Int32
  | 0, _ => []
  | n + 1, tokens =>
    if isEos spec (next (pairsOf tokens)) = true then []
    else next (pairsOf tokens) :: answers n (tokens ++ [next (pairsOf tokens)])

namespace Session

/-- What a session feeds first: its prompt, or for an empty prompt the initial pending token. -/
def opening (s : Session) : List Int32 := if s.queryTokens = [] then [0] else s.queryTokens

/-- All the tokens that a session feeds, so far as they are known. -/
def stream (s : Session) : List Int32 := s.opening ++ s.generatedTokens

/-- The most tokens that a session generates. -/
def limit (s : Session) : ℕ := s.maxTokens.toNat

end Session

/-- A session that is not completed, before its next pass: its prompt has been read in part, or all
of its tokens but the last. -/
structure Active (s : Session) : Prop where
  reading : s.processedLength < s.queryLen → s.generatedTokens = []
  reply : s.queryLen ≤ s.processedLength →
    s.stream = s.stream.take s.processedLength ++ [s.pendingToken] ∧
      s.processedLength + 1 = s.stream.length
  short : s.generatedTokens.length ≤ s.limit

/-- The bookkeeping of a session fits its tokens. -/
structure Tracked (s : Session) : Prop where
  queryLen : s.queryLen = s.queryTokens.length
  generatedLen : s.generatedLen = s.generatedTokens.length
  active : s.status ≠ .completed → Active s

/-- A session has got the first of its answers; all of them, once it is completed. -/
structure Sound (s : Session) : Prop extends Tracked s where
  ahead : s.status ≠ .completed → answers spec next s.limit s.opening =
    s.generatedTokens ++ answers spec next (s.limit - s.generatedTokens.length) s.stream
  done : s.status = .completed → s.generatedTokens = answers spec next s.limit s.opening

variable {spec next}

theorem tracked_new (id : String) (query : List Int32) (maxTokens : ℤ) :
    Tracked (newSession id query maxTokens) where
  queryLen := rfl
  generatedLen := rfl
  active := by
    refine fun _ => ⟨fun _ => rfl, fun hle => ?_, Nat.zero_le _⟩
    obtain rfl : query = [] := List.eq_nil_of_length_eq_zero (Nat.le_zero.mp hle)
    exact ⟨rfl, rfl⟩

/-- A new session is sound: all of its answers are ahead. -/
theorem sound_new (id : String) (query : List Int32) (maxTokens : ℤ) :
    Sound spec next (newSession id query maxTokens) where
  toTracked := tracked_new id query maxTokens
  ahead := by
    intro _
    have hstream : (newSession id query maxTokens).stream =
        (newSession id query maxTokens).opening := List.append_nil _
    rw [hstream]
    rfl
  done := fun h => by cases h

/-- What a session has generated is the beginning of its answers. -/
theorem Sound.generated {s : Session} (h : Sound spec next s) :
    s.generatedTokens <+: answers spec next s.limit s.opening := by
  by_cases hs : s.status = .completed
  · rw [h.done hs]
  · rw [h.ahead hs]
    exact List.prefix_append _ _

theorem Tracked.wake {s : Session} (h : Tracked s) : Tracked (Scheduler.wake s) := by
  have hstatus := wake_completed s
  rw [wake_eq] at hstatus ⊢
  refine ⟨h.queryLen, h.generatedLen, fun hs => ?_⟩
  obtain ⟨hreading, hreply, hshort⟩ := h.active fun hc => hs (hstatus.mpr hc)
  exact ⟨hreading, hreply, hshort⟩

/-- Waking a session keeps it sound. -/
theorem Sound.wake {s : Session} (h : Sound spec next s) : Sound spec next (Scheduler.wake s) := by
  have htracked := h.toTracked.wake
  have hstatus := wake_completed s
  rw [wake_eq] at hstatus htracked ⊢
  exact ⟨htracked, fun hs => h.ahead fun hc => hs (hstatus.mpr hc),
    fun hs => h.done (hstatus.mp hs)⟩

/-! ## Rows of a session -/

/-- The rows of a step that a session can take. -/
structure Granted (s : Session) (n : ℕ) : Prop where
  pos : 0 < n
  reading : s.processedLength < s.queryLen → n ≤ s.queryLen - s.processedLength
  reply : s.queryLen ≤ s.processedLength → n = 1

/-- A session with a prompt feeds the prompt first. -/
theorem Tracked.opening_length {s : Session} (h : Tracked s) :
    s.opening.length = max 1 s.queryLen := by
  unfold Session.opening
  rw [h.queryLen]
  split_ifs with hq
  · simp [hq]
  · have := List.length_pos_of_ne_nil hq
    omega

/-- The tokens of a step are the next ones of the session's stream. -/
theorem stepTokens_eq {s : Session} {n : ℕ} (h : Tracked s) (hs : s.status ≠ .completed)
    (hn : Granted s n) :
    stepTokens s n = (s.stream.drop s.processedLength).take n ∧
      s.processedLength + n ≤ s.stream.length := by
  unfold stepTokens
  split_ifs with hread
  · have hne : s.queryTokens ≠ [] := by
      intro hnil
      rw [h.queryLen, hnil] at hread
      exact Nat.not_lt_zero _ hread
    have hstream : s.stream = s.queryTokens := by
      unfold Session.stream Session.opening
      rw [if_neg hne, (h.active hs).reading hread, List.append_nil]
    have hle := hn.reading hread
    rw [h.queryLen] at hle hread
    rw [hstream]
    exact ⟨rfl, by omega⟩
  · obtain ⟨hsplit, hlen⟩ := (h.active hs).reply (by omega)
    have hone := hn.reply (by omega)
    subst hone
    refine ⟨?_, by omega⟩
    have hdrop : s.stream.drop s.processedLength = [s.pendingToken] := by
      have htake : (s.stream.take s.processedLength).length = s.processedLength := by
        rw [List.length_take]
        omega
      rw [hsplit, List.drop_append, htake, Nat.sub_self, List.drop_eq_nil_of_le (by omega)]
      rfl
    rw [hdrop]
    rfl

/-- The rows that the batch is given are rows that its sessions can take. -/
theorem segLengths_granted {seqLen used : ℕ} {batch : List Session}
    (hpos : ∀ n ∈ segLengths seqLen used batch, 0 < n) :
    ∀ q ∈ batch.zip (segLengths seqLen used batch), Granted q.1 q.2 := by
  induction batch generalizing used with
  | nil => exact fun _ hq => by cases hq
  | cons s rest ih =>
    intro q hq
    rw [segLengths, List.zip_cons_cons] at hq
    rw [segLengths] at hpos
    rcases List.mem_cons.mp hq with rfl | hin
    · refine ⟨hpos _ List.mem_cons_self, fun hread => ?_, fun hread => ?_⟩
      · show (if _ then _ else _) ≤ _
        rw [if_pos hread]
        exact min_le_left _ _
      · exact if_neg (not_lt.mpr hread)
    · exact ih (fun n hn => hpos n (List.mem_cons_of_mem _ hn)) q hin

/-! ## Segments -/

variable (spec) (holds : ℕ → Column → List Pair → Prop)

/-- The columns of a segment stand for the beginning of a history, in every shard. -/
def Recalls (m : ℕ → ℕ → Column) (seg : KVCacheSegment) (hist : List Pair) : Prop :=
  ∀ k < seg.length, ∀ sh < spec.shardCount, holds sh (m (seg.startPos + k) sh) (hist.take (k + 1))

/-- A segment belongs to a session that is not completed: it holds the columns of the tokens that
the session has processed. -/
structure Owned (m : ℕ → ℕ → Column) (seg : KVCacheSegment) (s : Session) : Prop where
  id : s.id = seg.sessionId
  status : s.status ≠ .completed
  length : s.processedLength = seg.length
  recalls : Recalls spec holds m seg (pairsOf s.stream)

variable (next)

/-- The state between two rounds, and between the parts of a round. -/
structure Serving (σ : BatchState) : Prop where
  active : σ.activeClIdx < spec.numCl
  ids : (σ.sessions.map (·.id)).Nodup
  segIds : (σ.segs.map (·.sessionId)).Nodup
  laid : Laid 0 σ.segs
  within : ∀ seg ∈ σ.segs, seg.fin ≤ spec.kvLen .prefill σ.activeClIdx
  sound : ∀ s ∈ σ.sessions, Sound spec next s
  owned : ∀ seg ∈ σ.segs, ∃ s ∈ σ.sessions,
    Owned spec holds (columnsAt spec (spec.kvLen .prefill σ.activeClIdx) σ.kv) seg s
  kept : ∀ s ∈ σ.sessions, s.status ≠ .completed → 0 < s.processedLength →
    s.id ∈ σ.segs.map (·.sessionId)

variable {holds} {σ : BatchState}

/-- A session that keeps its columns at another place, in another memory. -/
theorem Owned.carried {spec : LLMSpec} {m m' : ℕ → ℕ → Column} {seg seg' : KVCacheSegment}
    {s : Session} (h : Owned spec holds m seg s) (hc : Relocated m m' seg seg') :
    Owned spec holds m' seg' s where
  id := h.id.trans hc.sessionId.symm
  status := h.status
  length := h.length.trans hc.length.symm
  recalls := by
    intro k hk sh hsh
    rw [hc.length] at hk
    rw [hc.column k hk]
    exact h.recalls k hk sh hsh

variable {spec next}

/-- Sessions with one id are one session. -/
theorem Serving.eq_of_id (h : Serving spec next holds σ) {s t : Session} (hs : s ∈ σ.sessions)
    (ht : t ∈ σ.sessions) (hid : s.id = t.id) : s = t :=
  List.inj_on_of_nodup_map h.ids hs ht hid

/-- A segment's room stays in the cache when the whole step fits. -/
theorem Serving.totalUsed_le (h : Serving spec next holds σ) :
    totalUsed σ.segs ≤ spec.kvLen .prefill σ.activeClIdx :=
  KVCacheManager.totalUsed_le h.within

/-- A change of the buffer that carries every segment. -/
theorem Serving.carry (h : Serving spec next holds σ) {segs' : KVCacheManager} {kv' : KVMem}
    {clIdx : ℕ} (hcl : clIdx < spec.numCl)
    (hc : Relocates (columnsAt spec (spec.kvLen .prefill σ.activeClIdx) σ.kv)
      (columnsAt spec (spec.kvLen .prefill clIdx) kv') σ.segs segs')
    (hlaid : Laid 0 segs') (hwithin : ∀ seg ∈ segs', seg.fin ≤ spec.kvLen .prefill clIdx) :
    Serving spec next holds { σ with segs := segs', kv := kv', activeClIdx := clIdx } where
  active := hcl
  ids := h.ids
  segIds := by
    show (segs'.map _).Nodup
    rw [hc.ids]
    exact h.segIds
  laid := hlaid
  within := hwithin
  sound := h.sound
  owned := by
    intro seg' hseg'
    obtain ⟨i, hi, rfl⟩ := List.mem_iff_getElem.mp hseg'
    have hi' : i < σ.segs.length := by rw [hc.length_eq]; exact hi
    obtain ⟨s, hs, howned⟩ := h.owned _ (List.getElem_mem hi')
    exact ⟨s, hs, howned.carried (hc.get hi' hi)⟩
  kept := by
    intro s hs hstatus hpos
    show s.id ∈ segs'.map _
    rw [hc.ids]
    exact h.kept s hs hstatus hpos

/-! ## Picking a batch -/

theorem woken_ids {ss ss' : Scheduler}
    (hss : List.Forall₂ (fun s s' => s' = s ∨ s' = wake s) ss ss') :
    ss'.map (·.id) = ss.map (·.id) := by
  induction hss with
  | nil => rfl
  | cons hs _ ih =>
    rw [List.map_cons, List.map_cons, ih]
    rcases hs with rfl | rfl
    · rfl
    · rw [wake_id]

/-- Waking sessions keeps the service. -/
theorem Serving.woken (h : Serving spec next holds σ) {ss : Scheduler}
    (hss : List.Forall₂ (fun s s' => s' = s ∨ s' = wake s) σ.sessions ss) :
    Serving spec next holds { σ with sessions := ss } := by
  have hback : ∀ s' ∈ ss, ∃ s ∈ σ.sessions, s' = s ∨ s' = wake s := by
    intro s' hs'
    obtain ⟨i, hi, rfl⟩ := List.mem_iff_getElem.mp hs'
    have hi' : i < σ.sessions.length := by rw [hss.length_eq]; exact hi
    exact ⟨_, List.getElem_mem hi', hss.get hi' hi⟩
  have hforth : ∀ s ∈ σ.sessions, ∃ s' ∈ ss, s' = s ∨ s' = wake s := by
    intro s hs
    obtain ⟨i, hi, rfl⟩ := List.mem_iff_getElem.mp hs
    have hi' : i < ss.length := by rw [← hss.length_eq]; exact hi
    exact ⟨_, List.getElem_mem hi', hss.get hi hi'⟩
  refine ⟨h.active, ?_, h.segIds, h.laid, h.within, ?_, ?_, ?_⟩
  · show (ss.map _).Nodup
    rw [woken_ids hss]
    exact h.ids
  · intro s' hs'
    obtain ⟨s, hs, rfl | rfl⟩ := hback s' hs'
    · exact h.sound _ hs
    · exact (h.sound s hs).wake
  · intro seg hseg
    obtain ⟨s, hs, howned⟩ := h.owned seg hseg
    obtain ⟨s', hs', rfl | rfl⟩ := hforth s hs
    · exact ⟨_, hs', howned⟩
    · refine ⟨_, hs', ?_⟩
      have hstatus := wake_completed s
      rw [wake_eq] at hstatus ⊢
      exact ⟨howned.id, fun hc => howned.status (hstatus.mp hc), howned.length, howned.recalls⟩
  · intro s' hs'
    obtain ⟨s, hs, rfl | rfl⟩ := hback s' hs'
    · exact h.kept _ hs
    · rw [wake_id, wake_processedLength, ne_eq, wake_completed]
      exact h.kept s hs

theorem getSegment_isSome (segs : KVCacheManager) (id : String) :
    (getSegment segs id).isSome = true ↔ id ∈ segs.map (·.sessionId) := by
  unfold getSegment
  rw [List.find?_isSome]
  simp [List.mem_map]

theorem mem_of_getSegment {segs : KVCacheManager} {id : String} {seg : KVCacheSegment}
    (h : getSegment segs id = some seg) : seg ∈ segs ∧ seg.sessionId = id :=
  ⟨List.mem_of_find?_eq_some h, by simpa using List.find?_some h⟩

theorem getLast_fin_le {segs : KVCacheManager} {n : ℕ} (h : ∀ seg ∈ segs, seg.fin ≤ n) :
    (segs.getLast?.map KVCacheSegment.fin).getD 0 ≤ n := by
  cases hlast : segs.getLast? with
  | none => exact Nat.zero_le n
  | some seg => exact h seg (List.mem_of_getLast? hlast)

/-- A session without a segment gets an empty one. -/
theorem Serving.allocate (h : Serving spec next holds σ) {s : Session} (hs : s ∈ σ.sessions)
    (hstatus : s.status ≠ .completed) (hnew : s.id ∉ σ.segs.map (·.sessionId)) :
    Serving spec next holds { σ with segs := KVCacheManager.allocate σ.segs s.id 0 } where
  active := h.active
  ids := h.ids
  segIds := by
    show ((σ.segs ++ [_]).map _).Nodup
    rw [List.map_append, List.nodup_append]
    refine ⟨h.segIds, List.nodup_singleton _, fun id hid id' hid' heq => ?_⟩
    obtain rfl : id' = s.id := List.mem_singleton.mp hid'
    exact hnew (heq ▸ hid)
  laid := allocate_laid h.laid (fun _ => rfl) s.id 0
  within := by
    intro seg hseg
    rcases List.mem_append.mp hseg with hin | hin
    · exact h.within seg hin
    · obtain rfl := List.mem_singleton.mp hin
      exact getLast_fin_le h.within
  sound := h.sound
  owned := by
    intro seg hseg
    rcases List.mem_append.mp hseg with hin | hin
    · exact h.owned seg hin
    · obtain rfl := List.mem_singleton.mp hin
      -- it has processed nothing, or it would have a segment
      have hzero : s.processedLength = 0 := by
        by_contra hne
        exact hnew (h.kept s hs hstatus (Nat.pos_of_ne_zero hne))
      exact ⟨s, hs, rfl, hstatus, hzero, fun k hk => absurd hk (Nat.not_lt_zero k)⟩
  kept := by
    intro t ht htstatus hpos
    show t.id ∈ (σ.segs ++ [_]).map _
    rw [List.map_append]
    exact List.mem_append_left _ (h.kept t ht htstatus hpos)

theorem ids_ensureSegment (segs : KVCacheManager) (s : Session) :
    (ensureSegment segs s).map (·.sessionId) =
      if s.id ∈ segs.map (·.sessionId) then segs.map (·.sessionId)
      else segs.map (·.sessionId) ++ [s.id] := by
  unfold ensureSegment
  simp only [getSegment_isSome]
  split_ifs
  · rfl
  · exact List.map_append

/-- A session of the batch has a segment, from then on. -/
theorem mem_ids_allocateAll {batch : List Session} {segs : KVCacheManager} {id : String} :
    id ∈ (CB.allocateAll batch segs).map (·.sessionId) ↔
      id ∈ segs.map (·.sessionId) ∨ id ∈ batch.map (·.id) := by
  induction batch generalizing segs with
  | nil => simp [CB.allocateAll]
  | cons s batch ih =>
    show id ∈ (CB.allocateAll batch (ensureSegment segs s)).map _ ↔ _
    rw [ih, ids_ensureSegment, List.map_cons, List.mem_cons]
    split_ifs with hin
    · constructor
      · rintro (hid | hid)
        · exact Or.inl hid
        · exact Or.inr (Or.inr hid)
      · rintro (hid | rfl | hid)
        · exact Or.inl hid
        · exact Or.inl hin
        · exact Or.inr hid
    · rw [List.mem_append, List.mem_singleton, or_assoc]

/-- Giving the sessions of the batch their segments keeps the service. -/
theorem Serving.allocateAll (h : Serving spec next holds σ) {batch : List Session}
    (hin : ∀ s ∈ batch, s ∈ σ.sessions) (hactive : ∀ s ∈ batch, s.status ≠ .completed) :
    Serving spec next holds { σ with segs := CB.allocateAll batch σ.segs } := by
  induction batch generalizing σ with
  | nil => exact h
  | cons s batch ih =>
    have hnew : Serving spec next holds { σ with segs := ensureSegment σ.segs s } := by
      unfold ensureSegment
      split_ifs with hsome
      · exact h
      · rw [getSegment_isSome] at hsome
        exact h.allocate (hin s List.mem_cons_self) (hactive s List.mem_cons_self) hsome
    exact ih hnew (fun t ht => hin t (List.mem_cons_of_mem _ ht)) fun t ht =>
      hactive t (List.mem_cons_of_mem _ ht)

/-! ## Making room -/

/-- The step fits: its context length has a column for all that is in use and all that it adds. -/
def Fits (spec : LLMSpec) (σ : BatchState) : Prop :=
  requiredKv spec σ ≤ spec.kvLen .prefill
    (promoteTarget spec (requiredKv spec σ) spec.seqLenPrefill σ.activeClIdx)

/-- Promotion ends with room whenever the largest context length has it. -/
theorem fits_of_maxCl (h : σ.activeClIdx < spec.numCl)
    (hmax : requiredKv spec σ ≤ spec.maxCl - spec.seqLenPrefill) : Fits spec σ := by
  have htarget := promoteTarget_spec (requiredKv spec σ) spec.seqLenPrefill h
  unfold Fits
  rcases htarget.2.2 with hroom | hlast
  · exact hroom
  · rw [spec.kvLen_last (p := .prefill) hlast]
    exact hmax

/-- The picked sessions are sessions of the scheduler, each once, and not completed. -/
theorem pickedBatch_spec (σ : BatchState) :
    (pickedBatch spec σ).Sublist (getNextBatch σ.sessions spec.seqLenPrefill).1 ∧
      ∀ s ∈ pickedBatch spec σ, s.status ≠ .completed := by
  have hbatch := batchFrom_isBatch spec.seqLenPrefill 0 0 σ.sessions
  refine ⟨sessionsAt_sublist hbatch.increasing fun k _ => Nat.zero_le k, fun s hs => ?_⟩
  obtain ⟨k, hk, hat⟩ := List.mem_filterMap.mp hs
  exact hbatch.active k hk s hat

/-- The rows of the batch: one list with the sessions, none empty, within the pass. -/
theorem pickedLens_spec (spec : LLMSpec) (σ : BatchState) :
    (pickedLens spec σ).length = (pickedBatch spec σ).length ∧
      (∀ n ∈ pickedLens spec σ, 0 < n) ∧ (pickedLens spec σ).sum ≤ spec.seqLenPrefill := by
  obtain ⟨-, hpos, hsum⟩ := batchFrom_segLengths 0 σ.sessions
    (Nat.zero_le spec.seqLenPrefill)
  rw [Nat.zero_add] at hsum
  refine ⟨?_, hpos, hsum⟩
  unfold pickedLens
  have hlen : ∀ (batch : List Session) (used : ℕ),
      (segLengths spec.seqLenPrefill used batch).length = batch.length := by
    intro batch
    induction batch with
    | nil => exact fun _ => rfl
    | cons s batch ih => exact fun used => congrArg (· + 1) (ih _)
  exact hlen _ _

/-- The growth of the sessions of the next batch. -/
abbrev pickedGrowth (spec : LLMSpec) (σ : BatchState) : List (String × ℕ) :=
  growthList (pickedBatch spec σ) (pickedLens spec σ)

theorem map_fst_pickedGrowth (σ : BatchState) :
    (pickedGrowth spec σ).map Prod.fst = (pickedBatch spec σ).map (·.id) := by
  apply List.map_fst_zip
  rw [List.length_map, (pickedLens_spec spec σ).1]

theorem map_snd_pickedGrowth (σ : BatchState) :
    (pickedGrowth spec σ).map Prod.snd = pickedLens spec σ := by
  apply List.map_snd_zip
  rw [List.length_map, (pickedLens_spec spec σ).1]

/-- The state of a round after its batch is picked, before room is made. -/
def picked (spec : LLMSpec) (σ : BatchState) : BatchState :=
  { σ with
    sessions := (getNextBatch σ.sessions spec.seqLenPrefill).1
    segs := allocateAll (pickedBatch spec σ) σ.segs }

theorem Serving.picked (h : Serving spec next holds σ) :
    Serving spec next holds (CB.picked spec σ) :=
  (h.woken batchFrom_sessions).allocateAll (fun _ hs => (pickedBatch_spec σ).1.subset hs)
    (pickedBatch_spec σ).2

/-- A promotion keeps the service. -/
theorem Serving.selectCL (h : Serving spec next holds σ) (required : ℕ) :
    Serving spec next holds (CB.selectCL spec required (totalUsed σ.segs) σ) ∧
      (CB.selectCL spec required (totalUsed σ.segs) σ).segs = σ.segs := by
  have htarget := promoteTarget_spec required spec.seqLenPrefill h.active
  have hmono := spec.kvLen_mono (p := .prefill) htarget.1 htarget.2.1
  have hcols : ∀ seg ∈ σ.segs, ∀ k < seg.length,
      columnsAt spec (spec.kvLen .prefill
          (CB.selectCL spec required (totalUsed σ.segs) σ).activeClIdx)
          (CB.selectCL spec required (totalUsed σ.segs) σ).kv (seg.startPos + k) =
        columnsAt spec (spec.kvLen .prefill σ.activeClIdx) σ.kv (seg.startPos + k) := by
    intro seg hseg k hk
    have hfin := fin_le_totalUsed hseg
    have hin := h.within seg hseg
    unfold KVCacheSegment.fin at hfin hin
    exact selectCL_columns h.active (by omega) (by omega)
  have hrelocates : Relocates (columnsAt spec (spec.kvLen .prefill σ.activeClIdx) σ.kv)
      (columnsAt spec (spec.kvLen .prefill
        (CB.selectCL spec required (totalUsed σ.segs) σ).activeClIdx)
        (CB.selectCL spec required (totalUsed σ.segs) σ).kv) σ.segs σ.segs :=
    List.forall₂_same.mpr fun seg hseg => ⟨rfl, rfl, hcols seg hseg⟩
  rw [selectCL_eq required _ h.active] at hrelocates ⊢
  refine ⟨h.carry htarget.2.1 hrelocates h.laid fun seg hseg => ?_, rfl⟩
  exact (h.within seg hseg).trans hmono

/-- What making room leaves for a step. -/
structure Roomy (spec : LLMSpec) (batch : List Session) (growth : List (String × ℕ))
    (σ : BatchState) : Prop where
  spaced : Spaced (growthOf growth) 0 σ.segs
  room : ∀ seg ∈ σ.segs,
    seg.fin + growthOf growth seg.sessionId ≤ spec.kvLen .prefill σ.activeClIdx
  served : ∀ s ∈ batch, s.id ∈ σ.segs.map (·.sessionId)

/-- Making room for a growth that fits keeps the service. -/
theorem Serving.shift (h : Serving spec next holds σ) (batch : List Session)
    (growth : List (String × ℕ)) (hserved : ∀ s ∈ batch, s.id ∈ σ.segs.map (·.sessionId))
    (hfits : totalUsed σ.segs + (growth.map Prod.snd).sum ≤ spec.kvLen .prefill σ.activeClIdx) :
    let σ' : BatchState := { σ with
      segs := (shiftForGrowth σ.segs growth).2
      kv := moveAll spec σ.activeClIdx (shiftForGrowth σ.segs growth).1 σ.kv }
    Serving spec next holds σ' ∧ Roomy spec batch growth σ' := by
  intro σ'
  have htotal : totalUsed σ.segs + totalGrowth (growthOf growth) σ.segs ≤
      spec.kvLen .prefill σ.activeClIdx :=
    (Nat.add_le_add_left (totalGrowth_le h.segIds growth) _).trans hfits
  have hspaced := shiftForGrowth_spaced h.laid growth
  have hroom := fun seg hseg => (shiftForGrowth_fin h.laid growth seg hseg).trans htotal
  have hwithin := fun mv hmv => (shiftForGrowth_within h.laid growth mv hmv).mono htotal
  have hrelocates : Relocates (columnsAt spec (spec.kvLen .prefill σ.activeClIdx) σ.kv)
      (columnsAt spec (spec.kvLen .prefill σ.activeClIdx) σ'.kv) σ.segs σ'.segs :=
    moveAll_relocates hwithin (fun seg hseg => (Nat.le_add_right _ _).trans (hroom seg hseg)) σ.kv
      (shiftForGrowth_relocates h.laid growth)
  refine ⟨h.carry h.active hrelocates hspaced.laid fun seg hseg => ?_, hspaced, hroom, ?_⟩
  · exact (Nat.le_add_right _ _).trans (hroom seg hseg)
  · intro s hs
    show s.id ∈ σ'.segs.map _
    rw [hrelocates.ids]
    exact hserved s hs

/-- Steps 1 and 2 of a round keep the service, and every session of the batch has room. -/
theorem Serving.prepare (h : Serving spec next holds σ) (hfits : Fits spec σ) :
    Serving spec next holds (CB.prepare spec σ) ∧
      Roomy spec (pickedBatch spec σ) (pickedGrowth spec σ) (CB.prepare spec σ) ∧
      (CB.prepare spec σ).sessions = (getNextBatch σ.sessions spec.seqLenPrefill).1 := by
  have hpicked := h.picked
  obtain ⟨hselect, hsegs⟩ := hpicked.selectCL (requiredKv spec σ)
  have hactive : (CB.selectCL spec (requiredKv spec σ) (kvUsed spec σ)
      (CB.picked spec σ)).activeClIdx =
      promoteTarget spec (requiredKv spec σ) spec.seqLenPrefill σ.activeClIdx := by
    rw [selectCL_eq _ _ hpicked.active]
    rfl
  have hsessions : (CB.selectCL spec (requiredKv spec σ) (kvUsed spec σ)
      (CB.picked spec σ)).sessions = (getNextBatch σ.sessions spec.seqLenPrefill).1 := by
    rw [selectCL_eq _ _ hpicked.active]
    rfl
  obtain ⟨hserving, hroomy⟩ := hselect.shift (pickedBatch spec σ) (pickedGrowth spec σ)
    (fun s hs => by
      rw [hsegs]
      exact mem_ids_allocateAll.mpr (Or.inr (List.mem_map_of_mem hs)))
    (by
      rw [hsegs, map_snd_pickedGrowth]
      show requiredKv spec σ ≤ _
      refine hfits.trans_eq ?_
      exact congrArg _ hactive.symm)
  exact ⟨hserving, hroomy, hsessions⟩

end Geniex.CB
