import Geniex.PoolClient

/-!
# Stopping and restarting the pool

`ThreadPool` for a client that makes any sequence of `start`, `enqueue`, `wait` and `stop` calls.
The workers, `enqueue` and `wait` are those of `PoolClient`. The threads of one `start` appear
together: one that is created later is one that has not moved yet.

* `LifeSafe`: after `stop` the pool is clean, and after `start` it deals with new jobs only.
* `CleanStep`: what the client must do for that.
-/

namespace Geniex

/-! ## Calls -/

/-- Where the client is in `stop`. -/
inductive StopPhase
  | outside
  /-- `terminate_` is set; before `job_cv_.notify_all`. -/
  | terminating
  | joining
  /-- After `threads_.clear()`. -/
  | resetting
  deriving DecidableEq

/-- The client, the pool, and two marks the pool does not read: the log at the last `start`, and
whether the last call was a `stop` that has returned. -/
structure LifeState where
  phase : StopPhase
  st : ClientState
  mark : List JobEvent
  stopped : Bool

/-- `job_cv_.notify_all`. -/
def JobWorker.notified : JobWorker → JobWorker
  | .asleep => .ready
  | w => w

/-- `start` on a pool without threads. -/
def JobPool.restart (p : JobPool) (nThreads : ℕ) (poll : Bool) : JobPool :=
  { p with workers := List.replicate nThreads .ready, terminate := false, poll := poll }

/-- A new pool. -/
def LifeState.init : LifeState := ⟨.outside, ⟨.idle, JobPool.start 0 false, []⟩, [], false⟩

/-- A step of the client. -/
inductive LifeMove : LifeState → LifeState → Prop
  | call {st st' mark b} (h : ClientMove st st') :
      LifeMove ⟨.outside, st, mark, b⟩ ⟨.outside, st', mark, false⟩
  | start {p log mark b} (nThreads : ℕ) (poll : Bool) (hw : p.workers = []) (hn : 0 < nThreads) :
      LifeMove ⟨.outside, ⟨.idle, p, log⟩, mark, b⟩
        ⟨.outside, ⟨.idle, p.restart nThreads poll, log⟩, log, false⟩
  | startNoop {p log mark b} (nThreads : ℕ) (h : p.workers ≠ [] ∨ nThreads = 0) :
      LifeMove ⟨.outside, ⟨.idle, p, log⟩, mark, b⟩ ⟨.outside, ⟨.idle, p, log⟩, mark, false⟩
  /-- `if (threads_.empty()) return;` -/
  | stopNoop {p log mark b} (hw : p.workers = []) :
      LifeMove ⟨.outside, ⟨.idle, p, log⟩, mark, b⟩ ⟨.outside, ⟨.idle, p, log⟩, mark, true⟩
  | stop {p log mark b} (hw : p.workers ≠ []) :
      LifeMove ⟨.outside, ⟨.idle, p, log⟩, mark, b⟩
        ⟨.terminating, ⟨.idle, { p with terminate := true }, log⟩, mark, false⟩
  | notifyAll {c p log mark b} :
      LifeMove ⟨.terminating, ⟨c, p, log⟩, mark, b⟩
        ⟨.joining, ⟨c, { p with workers := p.workers.map JobWorker.notified }, log⟩, mark, b⟩
  | join {c p log mark b} (h : ∀ w ∈ p.workers, w = .exited) :
      LifeMove ⟨.joining, ⟨c, p, log⟩, mark, b⟩
        ⟨.resetting, ⟨c, { p with workers := [] }, log⟩, mark, b⟩
  | reset {c p log mark b} :
      LifeMove ⟨.resetting, ⟨c, p, log⟩, mark, b⟩
        ⟨.outside, ⟨c, { p with jobs := [], outstanding := 0, terminate := false }, log⟩, mark,
          true⟩

/-- A step of the client or of a worker. -/
inductive LifeStep : LifeState → LifeState → Prop
  | client {s s'} (h : LifeMove s s') : LifeStep s s'
  | worker {phase st st' mark b} (i : ℕ) (h : WorkerMove i st st') :
      LifeStep ⟨phase, st, mark, b⟩ ⟨phase, st', mark, b⟩

/-- The states that some sequence of calls and some interleaving reach. -/
def LifeReachable : LifeState → Prop := Relation.ReflTransGen LifeStep LifeState.init

/-! ## What is asked for -/

/-- The job that an event is about. -/
def JobEvent.job? : JobEvent → Option ℕ
  | .enqueued job | .started job | .returned job | .threw job | .recorded job | .finished job
  | .waitRethrew job => some job
  | .waitReturned => none

/-- After `stop` there are no workers, jobs or exceptions. Since the last `start`, only jobs
enqueued after it are executed or reported on, and `wait` waits for such jobs only. -/
structure LifeSafe (s : LifeState) : Prop where
  stopped : s.stopped = true → s.st.pool.workers = [] ∧ s.st.pool.jobs = [] ∧
    s.st.pool.outstanding = 0 ∧ s.st.pool.firstError = none
  since : ∃ new, s.st.log = new ++ s.mark ∧
    ∀ e ∈ new, ∀ job, e.job? = some job → numEnqueued s.mark ≤ job
  waits : s.st.pool.outstanding = s.st.pool.jobs.length + s.st.pool.inFlight.length ∧
    ∀ job, job ∈ s.st.pool.jobs ∨ job ∈ s.st.pool.inFlight → numEnqueued s.mark ≤ job

/-- A step that keeps the pool clean: jobs are enqueued while it has workers, `stop` is called when
no exception is recorded or about to be, and no job throws during `stop`. -/
structure CleanStep (s s' : LifeState) : Prop where
  enqueue : numEnqueued s'.st.log ≠ numEnqueued s.st.log → s.st.pool.workers ≠ []
  stop : s.phase = .outside → s'.phase ≠ .outside → s.st.pool.firstError = none ∧
    ∀ w ∈ s.st.pool.workers, w.threw? = none
  throws : s.phase ≠ .outside → ∀ job, s'.st.log ≠ .threw job :: s.st.log

/-- The states that runs of such steps reach. -/
def CleanReachable : LifeState → Prop :=
  Relation.ReflTransGen (fun s s' => LifeStep s s' ∧ CleanStep s s') LifeState.init

/-! ## What a step can do -/

/-- The pool has the job: queued, being executed, or as its recorded exception. -/
def JobPool.Holds (p : JobPool) (job : ℕ) : Prop :=
  job ∈ p.jobs ∨ job ∈ p.inFlight ∨ p.firstError = some job

/-- The number of workers that have a job is what `outstanding_` counts beside the queue. -/
def JobPool.Counted (p : JobPool) : Prop :=
  p.outstanding = p.jobs.length + p.workers.countP fun w => w.job?.isSome

theorem JobPool.counted_iff (p : JobPool) :
    p.Counted ↔ p.outstanding = p.jobs.length + p.inFlight.length := by
  unfold Counted inFlight
  rw [List.length_filterMap_eq_countP]

theorem mem_inFlight_set {p : JobPool} {i job : ℕ} {w : JobWorker}
    (h : job ∈ (p.setWorker i w).inFlight) : w.job? = some job ∨ job ∈ p.inFlight := by
  obtain ⟨w', hw', hjob⟩ := List.mem_filterMap.mp h
  obtain hmem | rfl := List.mem_or_eq_of_mem_set hw'
  · exact Or.inr (List.mem_filterMap.mpr ⟨w', hmem, hjob⟩)
  · exact Or.inl hjob

theorem mem_inFlight {p : JobPool} {i job : ℕ} {w : JobWorker} (hw : p.workers[i]? = some w)
    (hjob : w.job? = some job) : job ∈ p.inFlight :=
  List.mem_filterMap.mpr ⟨w, List.mem_of_getElem? hw, hjob⟩

/-- A worker that moves on has the job it had, or none. -/
theorem mem_inFlight_move {p : JobPool} {i job : ℕ} {w : JobWorker} (w' : JobWorker)
    (hw : p.workers[i]? = some w) (hkeep : w'.job? = none ∨ w'.job? = w.job?)
    (hmem : job ∈ (p.setWorker i w').inFlight) : job ∈ p.inFlight := by
  obtain hnew | hold := mem_inFlight_set hmem
  · obtain hnone | hsame := hkeep
    · rw [hnone] at hnew
      cases hnew
    · exact mem_inFlight hw (hsame ▸ hnew)
  · exact hold

/-- A worker's move gives the pool no new job. -/
theorem WorkerMove.holds {i job : ℕ} {st st' : ClientState} (h : WorkerMove i st st')
    (hj : st'.pool.Holds job) : st.pool.Holds job := by
  cases h with
  | take hw hjobs =>
    obtain hq | hf | he := hj
    · exact Or.inl (hjobs ▸ List.mem_cons_of_mem _ hq)
    · obtain hnew | hold := mem_inFlight_set hf
      · exact Or.inl (hjobs ▸ Option.some.inj hnew ▸ List.mem_cons_self)
      · exact Or.inr (Or.inl hold)
    · exact Or.inr (Or.inr he)
  | spin => exact hj
  | sleep hw =>
    exact Or.imp_right (Or.imp_left (mem_inFlight_move .asleep hw (Or.inl rfl))) hj
  | exit hw =>
    exact Or.imp_right (Or.imp_left (mem_inFlight_move .exited hw (Or.inl rfl))) hj
  | wake hw =>
    exact Or.imp_right (Or.imp_left (mem_inFlight_move .ready hw (Or.inl rfl))) hj
  | @complete c p log job' hw =>
    exact Or.imp_right (Or.imp_left (mem_inFlight_move (.done job') hw (Or.inr rfl))) hj
  | @fail c p log job' hw =>
    exact Or.imp_right (Or.imp_left (mem_inFlight_move (.threw job') hw (Or.inr rfl))) hj
  | @store c p log job' hw =>
    obtain hq | hf | he := hj
    · exact Or.inl hq
    · exact Or.inr (Or.inl (mem_inFlight_move (.done job') hw (Or.inr rfl) hf))
    · have he : p.firstError.or (some job') = some job := he
      cases hfirst : p.firstError with
      | none =>
        rw [hfirst, Option.none_or] at he
        exact Or.inr (Or.inl (mem_inFlight hw he))
      | some first =>
        rw [hfirst, Option.some_or] at he
        exact Or.inr (Or.inr (hfirst.trans he))
  | finish hw =>
    exact Or.imp_right (Or.imp_left (mem_inFlight_move .ready hw (Or.inl rfl))) hj

/-- A worker's move is logged under a job that the pool has. -/
theorem WorkerMove.logged {i : ℕ} {st st' : ClientState} (h : WorkerMove i st st') :
    ∃ es, st'.log = es ++ st.log ∧ ∀ e ∈ es, ∀ job, e.job? = some job → st.pool.Holds job := by
  cases h with
  | @take c p log job rest hw hjobs =>
    refine ⟨[.started job], rfl, List.forall_mem_singleton.mpr fun j hj => Or.inl ?_⟩
    rw [hjobs, ← Option.some.inj hj]
    exact List.mem_cons_self
  | spin | sleep | exit | wake => exact ⟨[], rfl, fun _ he => absurd he List.not_mem_nil⟩
  | @complete c p log job hw =>
    exact ⟨[.returned job], rfl, List.forall_mem_singleton.mpr fun j hj =>
      Or.inr (Or.inl (mem_inFlight hw hj))⟩
  | @fail c p log job hw =>
    exact ⟨[.threw job], rfl, List.forall_mem_singleton.mpr fun j hj =>
      Or.inr (Or.inl (mem_inFlight hw hj))⟩
  | @store c p log job hw =>
    exact ⟨[.recorded job], rfl, List.forall_mem_singleton.mpr fun j hj =>
      Or.inr (Or.inl (mem_inFlight hw hj))⟩
  | @finish c p log job hw =>
    exact ⟨[.finished job], rfl, List.forall_mem_singleton.mpr fun j hj =>
      Or.inr (Or.inl (mem_inFlight hw hj))⟩

/-- The count after worker `i` has moved on. -/
theorem JobPool.Counted.move {p : JobPool} {i : ℕ} {w : JobWorker} (w' : JobWorker)
    (h : p.Counted) (hw : p.workers[i]? = some w) {jobs : List ℕ} {outstanding : ℕ}
    {firstError : Option ℕ} (hcount : outstanding + p.jobs.length + w.job?.isSome.toNat =
      p.outstanding + jobs.length + w'.job?.isSome.toNat) :
    JobPool.Counted { p.setWorker i w' with
      jobs := jobs, outstanding := outstanding, firstError := firstError } := by
  have hset := countP_set_add (fun w : JobWorker => w.job?.isSome) w' hw
  unfold Counted at h ⊢
  show outstanding = jobs.length + (p.workers.set i w').countP _
  omega

/-- The count is kept by the workers. -/
theorem WorkerMove.counted {i : ℕ} {st st' : ClientState} (h : WorkerMove i st st')
    (hc : st.pool.Counted) : st'.pool.Counted := by
  cases h with
  | @take c p log job rest hw hjobs =>
    refine hc.move (.running job) hw ?_
    simp only [hjobs, List.length_cons, JobWorker.job?, Option.isSome_none, Option.isSome_some,
      Bool.toNat_false, Bool.toNat_true]
    show p.outstanding + _ + 0 = _
    omega
  | spin => exact hc
  | sleep hw => exact hc.move .asleep hw rfl
  | exit hw => exact hc.move .exited hw rfl
  | wake hw => exact hc.move .ready hw rfl
  | @complete c p log job hw => exact hc.move (.done job) hw rfl
  | @fail c p log job hw => exact hc.move (.threw job) hw rfl
  | @store c p log job hw => exact hc.move (.done job) hw rfl
  | @finish c p log job hw =>
    refine hc.move .ready hw ?_
    have hpos : 0 < p.workers.countP fun w => w.job?.isSome :=
      List.countP_pos_iff.mpr ⟨_, List.mem_of_getElem? hw, rfl⟩
    change p.outstanding = p.jobs.length + p.workers.countP _ at hc
    simp only [JobWorker.job?, Option.isSome_none, Option.isSome_some, Bool.toNat_false,
      Bool.toNat_true]
    show p.outstanding - 1 + p.jobs.length + 1 = p.outstanding + p.jobs.length + 0
    omega

/-- Worker `i` has moved, to somewhere else or nowhere. -/
theorem WorkerMove.workers {i : ℕ} {st st' : ClientState} (h : WorkerMove i st st') :
    ∃ w w', st.pool.workers[i]? = some w ∧ st'.pool.workers = st.pool.workers.set i w' ∧
      (w' = .exited → w = .exited ∨ st.pool.jobs = [] ∧ st.pool.terminate = true) ∧
      (∀ job, w' = .threw job → w = .threw job ∨ st'.log = .threw job :: st.log) := by
  cases h with
  | spin hw hj ht hp =>
    obtain ⟨hi, hget⟩ := List.getElem?_eq_some_iff.mp hw
    refine ⟨_, .ready, hw, ?_, nofun, nofun⟩
    exact (hget ▸ List.set_getElem_self hi).symm
  | exit hw hj ht => exact ⟨_, _, hw, rfl, fun _ => Or.inr ⟨hj, ht⟩, nofun⟩
  | fail hw => exact ⟨_, _, hw, rfl, nofun, fun _ heq => Or.inr (by cases heq; rfl)⟩
  | take hw | sleep hw | wake hw | complete hw | store hw | finish hw =>
    exact ⟨_, _, hw, rfl, nofun, nofun⟩

/-- What a worker's move leaves. -/
theorem WorkerMove.frame {i : ℕ} {st st' : ClientState} (h : WorkerMove i st st') :
    st'.pool.terminate = st.pool.terminate ∧
      (st.client = .idle → st'.client = .idle) ∧
      (st.pool.jobs = [] → st'.pool.jobs = []) ∧
      (st.pool.firstError = none → (∀ w ∈ st.pool.workers, w.threw? = none) →
        st'.pool.firstError = none) := by
  cases h with
  | take hw hjobs =>
    refine ⟨rfl, id, fun hnil => ?_, fun hn _ => hn⟩
    exact absurd (hjobs.symm.trans hnil) (List.cons_ne_nil _ _)
  | store hw =>
    refine ⟨rfl, id, id, fun _ hthrew => ?_⟩
    cases hthrew _ (List.mem_of_getElem? hw)
  | @finish c p log job hw =>
    refine ⟨rfl, fun hidle => ?_, id, fun hn _ => hn⟩
    obtain rfl : c = .idle := hidle
    show (if p.outstanding - 1 = 0 then Client.wake .idle else .idle) = Client.idle
    split_ifs <;> rfl
  | _ => exact ⟨rfl, id, id, fun hn _ => hn⟩

/-- A call of `enqueue` or `wait` gives the pool at most the job that it enqueues. -/
theorem ClientMove.holds {job : ℕ} {st st' : ClientState} (h : ClientMove st st')
    (hj : st'.pool.Holds job) : st.pool.Holds job ∨
      job = numEnqueued st.log ∧ numEnqueued st'.log ≠ numEnqueued st.log := by
  cases h with
  | @enqueue p log =>
    obtain hq | hrest := hj
    · obtain hq | rfl := List.mem_append.mp hq |>.imp_right List.mem_singleton.mp
      · exact Or.inl (Or.inl hq)
      · exact Or.inr ⟨rfl, Nat.succ_ne_self _⟩
    · exact Or.inl (Or.inr hrest)
  | notifyOne i hw =>
    exact Or.inl (Or.imp_right (Or.imp_left (mem_inFlight_move .ready hw (Or.inl rfl))) hj)
  | rethrow hzero he =>
    obtain hq | hf | hnone := hj
    · exact Or.inl (Or.inl hq)
    · exact Or.inl (Or.inr (Or.inl hf))
    · cases hnone
  | _ => exact Or.inl hj

/-- What such a call leaves, and what it logs. -/
theorem ClientMove.frame {st st' : ClientState} (h : ClientMove st st') :
    (st.pool.Counted → st'.pool.Counted) ∧ st'.pool.terminate = st.pool.terminate ∧
      (st'.pool.workers = [] → st.pool.workers = []) ∧
      (.exited ∈ st'.pool.workers → .exited ∈ st.pool.workers) ∧
      ∃ es, st'.log = es ++ st.log ∧ ∀ e ∈ es, ∀ job, e.job? = some job →
        st.pool.Holds job ∨ job = numEnqueued st.log := by
  cases h with
  | @enqueue p log =>
    refine ⟨fun hc => ?_, rfl, id, id, [.enqueued (numEnqueued log)], rfl,
      List.forall_mem_singleton.mpr fun j hj => Or.inr (Option.some.inj hj).symm⟩
    unfold JobPool.Counted at hc ⊢
    show p.outstanding + 1 = (p.jobs ++ [_]).length + p.workers.countP _
    change p.outstanding = p.jobs.length + p.workers.countP _ at hc
    rw [List.length_append, hc]
    simp only [List.length_singleton]
    omega
  | @notifyOne p log i hw =>
    refine ⟨fun hc => hc.move .ready hw rfl, rfl, fun hnil => ?_, fun hex => ?_, [], rfl,
      fun _ he => absurd he List.not_mem_nil⟩
    · exact (List.set_eq_nil_iff _ _).mp hnil
    · exact (List.mem_or_eq_of_mem_set hex).resolve_right nofun
  | @rethrow p log job hzero he =>
    exact ⟨id, rfl, id, id, [.waitRethrew job], rfl,
      List.forall_mem_singleton.mpr fun j hj => Or.inl (Or.inr (Or.inr (he.trans hj)))⟩
  | waited hzero he =>
    exact ⟨id, rfl, id, id, [.waitReturned], rfl, List.forall_mem_singleton.mpr nofun⟩
  | _ => exact ⟨id, rfl, id, id, [], rfl, fun _ he => absurd he List.not_mem_nil⟩

/-! ## Clean runs -/

/-- What holds along a run of clean steps. -/
structure LifeInv (s : LifeState) : Prop where
  counted : s.st.pool.Counted
  fresh : ∀ job, s.st.pool.Holds job → numEnqueued s.mark ≤ job
  since : ∃ new, s.st.log = new ++ s.mark ∧
    ∀ e ∈ new, ∀ job, e.job? = some job → numEnqueued s.mark ≤ job
  gone : s.st.pool.workers = [] → s.st.pool.jobs = [] ∧ s.st.pool.firstError = none
  stopping : s.phase ≠ .outside → s.st.pool.firstError = none ∧
    (∀ w ∈ s.st.pool.workers, w.threw? = none) ∧ s.st.client = .idle
  running : s.phase = .outside → s.st.pool.terminate = false
  /-- A worker leaves an empty queue, and nothing is enqueued during `stop`. -/
  exited : .exited ∈ s.st.pool.workers → s.st.pool.jobs = [] ∧ s.phase ≠ .outside
  resetting : s.phase = .resetting → s.st.pool.workers = []
  stopped : s.stopped = true → s.st.pool.workers = [] ∧ s.phase = .outside

theorem JobPool.inFlight_of_nil {p : JobPool} (hw : p.workers = []) : p.inFlight = [] := by
  unfold inFlight
  rw [hw]
  rfl

/-- New workers have no jobs. -/
theorem JobPool.inFlight_restart (p : JobPool) (nThreads : ℕ) (poll : Bool) :
    (p.restart nThreads poll).inFlight = [] := by
  apply List.filterMap_eq_nil_iff.mpr
  intro w hw
  rw [List.eq_of_mem_replicate hw]
  rfl

/-- Waking the workers leaves them their jobs. -/
theorem JobPool.inFlight_notified (p : JobPool) :
    JobPool.inFlight { p with workers := p.workers.map JobWorker.notified } = p.inFlight := by
  unfold inFlight
  rw [List.filterMap_map]
  apply List.filterMap_congr
  intro w _
  cases w <;> rfl

/-- A pool without jobs and exceptions has no job. -/
theorem JobPool.not_holds (p : JobPool) (hf : p.inFlight = []) (hj : p.jobs = [])
    (he : p.firstError = none) (job : ℕ) : ¬ p.Holds job := by
  rintro (hq | hflight | herr)
  · rw [hj] at hq
    exact List.not_mem_nil hq
  · rw [hf] at hflight
    exact List.not_mem_nil hflight
  · rw [he] at herr
    cases herr

theorem LifeInv.init : LifeInv LifeState.init := by
  have hnone : ∀ job, ¬ (JobPool.start 0 false).Holds job :=
    JobPool.not_holds _ rfl rfl rfl
  refine ⟨rfl, fun job h => absurd h (hnone job), ⟨[], rfl, fun _ he => absurd he List.not_mem_nil⟩,
    fun _ => ⟨rfl, rfl⟩, fun h => absurd rfl h, fun _ => rfl, ?_, nofun, nofun⟩
  exact fun h => absurd h List.not_mem_nil

theorem LifeInv.numEnqueued_mark_le {s : LifeState} (h : LifeInv s) :
    numEnqueued s.mark ≤ numEnqueued s.st.log := by
  obtain ⟨new, hnew, -⟩ := h.since
  unfold numEnqueued
  rw [hnew, List.filterMap_append, List.length_append]
  exact Nat.le_add_left _ _

/-- What is logged about jobs that the pool has, or about the next one, is about new jobs. -/
theorem LifeInv.extend {s : LifeState} (h : LifeInv s) {log : List JobEvent}
    (hlog : ∃ es, log = es ++ s.st.log ∧ ∀ e ∈ es, ∀ job, e.job? = some job →
      s.st.pool.Holds job ∨ job = numEnqueued s.st.log) :
    ∃ new, log = new ++ s.mark ∧
      ∀ e ∈ new, ∀ job, e.job? = some job → numEnqueued s.mark ≤ job := by
  obtain ⟨new, hnew, hall⟩ := h.since
  obtain ⟨es, rfl, hes⟩ := hlog
  refine ⟨es ++ new, by rw [hnew, List.append_assoc], List.forall_mem_append.mpr ⟨?_, hall⟩⟩
  intro e he job hjob
  obtain hheld | rfl := hes e he job hjob
  · exact h.fresh job hheld
  · exact h.numEnqueued_mark_le

/-- A worker takes a step. -/
theorem LifeInv.worker {phase : StopPhase} {st st' : ClientState} {mark : List JobEvent} {b : Bool}
    {i : ℕ} (h : LifeInv ⟨phase, st, mark, b⟩) (hs : WorkerMove i st st')
    (hclean : CleanStep ⟨phase, st, mark, b⟩ ⟨phase, st', mark, b⟩) :
    LifeInv ⟨phase, st', mark, b⟩ := by
  obtain ⟨w, w', hw, hset, hexit, hthrow⟩ := hs.workers
  obtain ⟨hterm, hidle, hjobs, herr⟩ := hs.frame
  have hne : st.pool.workers ≠ [] := List.ne_nil_of_mem (List.mem_of_getElem? hw)
  refine ⟨hs.counted h.counted, fun job hj => h.fresh job (hs.holds hj), h.extend ?_, fun hnil => ?_,
    fun hphase => ?_, fun hphase => hterm.trans (h.running hphase), fun hex => ?_,
    fun hphase => absurd (h.resetting hphase) hne, fun hstop => absurd (h.stopped hstop).1 hne⟩
  · obtain ⟨es, hlog, hes⟩ := hs.logged
    exact ⟨es, hlog, fun e he job hjob => Or.inl (hes e he job hjob)⟩
  · have hnil : st'.pool.workers = [] := hnil
    rw [hset, List.set_eq_nil_iff] at hnil
    exact absurd hnil hne
  · obtain ⟨hnone, hthrew, hcl⟩ := h.stopping hphase
    refine ⟨herr hnone hthrew, fun v hv => ?_, hidle hcl⟩
    have hv : v ∈ st'.pool.workers := hv
    rw [hset] at hv
    obtain hold | rfl := List.mem_or_eq_of_mem_set hv
    · exact hthrew v hold
    · cases v with
      | threw job =>
        obtain rfl | hlog := hthrow job rfl
        · exact hthrew _ (List.mem_of_getElem? hw)
        · exact absurd hlog (hclean.throws hphase job)
      | _ => rfl
  · have hex : .exited ∈ st'.pool.workers := hex
    rw [hset] at hex
    obtain hold | heq := List.mem_or_eq_of_mem_set hex
    · exact ⟨hjobs (h.exited hold).1, (h.exited hold).2⟩
    · obtain rfl | ⟨hnil, hterm'⟩ := hexit heq.symm
      · have hold := h.exited (List.mem_of_getElem? hw)
        exact ⟨hjobs hold.1, hold.2⟩
      · refine ⟨hjobs hnil, fun hphase => ?_⟩
        exact absurd ((h.running hphase).symm.trans hterm') Bool.false_ne_true

/-- The client makes a call of `enqueue` or `wait`. -/
theorem LifeInv.call {st st' : ClientState} {mark : List JobEvent} {b : Bool}
    (h : LifeInv ⟨.outside, st, mark, b⟩) (hs : ClientMove st st')
    (hclean : CleanStep ⟨.outside, st, mark, b⟩ ⟨.outside, st', mark, false⟩) :
    LifeInv ⟨.outside, st', mark, false⟩ := by
  obtain ⟨hcount, hterm, hnil, hexit, hlog⟩ := hs.frame
  refine ⟨hcount h.counted, fun job hj => ?_, h.extend hlog, fun hw => ?_, fun hp => absurd rfl hp,
    fun _ => hterm.trans (h.running rfl), fun hex => absurd rfl (h.exited (hexit hex)).2, nofun,
    nofun⟩
  · obtain hheld | ⟨rfl, -⟩ := hs.holds hj
    · exact h.fresh job hheld
    · exact h.numEnqueued_mark_le
  · -- nothing is enqueued on a pool without workers
    have hnone : ∀ job, ¬ st'.pool.Holds job := by
      intro job hj
      have hw' := hnil hw
      obtain hheld | ⟨-, hnew⟩ := hs.holds hj
      · exact JobPool.not_holds _ (JobPool.inFlight_of_nil hw') (h.gone hw').1 (h.gone hw').2 job hheld
      · exact hclean.enqueue hnew hw'
    refine ⟨List.eq_nil_iff_forall_not_mem.mpr fun job hj => hnone job (Or.inl hj), ?_⟩
    exact Option.eq_none_iff_forall_ne_some.mpr fun job hj => hnone job (Or.inr (Or.inr hj))

/-- The client takes a step. -/
theorem LifeInv.client {s s' : LifeState} (h : LifeInv s) (hs : LifeMove s s')
    (hclean : CleanStep s s') : LifeInv s' := by
  cases hs with
  | call hm => exact h.call hm hclean
  | @start p log mark b n poll hw hn =>
    obtain ⟨hj, he⟩ := h.gone hw
    have hready : ∀ w ∈ (p.restart n poll).workers, w = .ready := fun w =>
      List.eq_of_mem_replicate
    have hnone := JobPool.not_holds (p.restart n poll) (p.inFlight_restart n poll) hj he
    refine ⟨?_, fun job hjob => absurd hjob (hnone job),
      ⟨[], rfl, fun _ hmem => absurd hmem List.not_mem_nil⟩, fun _ => ⟨hj, he⟩,
      fun hp => absurd rfl hp, fun _ => rfl, fun hex => absurd (hready _ hex) nofun, nofun, nofun⟩
    have hcount : p.outstanding = p.jobs.length + p.workers.countP _ := h.counted
    rw [hw, List.countP_nil] at hcount
    unfold JobPool.Counted
    rw [List.countP_eq_zero.mpr fun w hmem => by rw [hready w hmem]; exact Bool.false_ne_true]
    exact hcount
  | startNoop n hne =>
    exact ⟨h.counted, h.fresh, h.since, h.gone, h.stopping, h.running, h.exited, nofun, nofun⟩
  | stopNoop hw =>
    exact ⟨h.counted, h.fresh, h.since, h.gone, h.stopping, h.running, h.exited, nofun,
      fun _ => ⟨hw, rfl⟩⟩
  | stop hw =>
    obtain ⟨he, hthrew⟩ := hclean.stop rfl nofun
    refine ⟨h.counted, h.fresh, h.since, h.gone, fun _ => ⟨he, hthrew, rfl⟩, nofun, fun hex => ?_,
      nofun, nofun⟩
    exact absurd rfl (h.exited hex).2
  | @notifyAll c p log mark b =>
    have hflight := p.inFlight_notified
    obtain ⟨he, hthrew, hidle⟩ := h.stopping nofun
    refine ⟨?_, fun job hj => h.fresh job ?_, h.since, fun hnil => h.gone (List.map_eq_nil_iff.mp hnil),
      fun _ => ⟨he, fun w hw => ?_, hidle⟩, nofun, fun hex => ?_, nofun, fun hstop => ?_⟩
    · rw [JobPool.counted_iff, hflight]
      exact (JobPool.counted_iff p).mp h.counted
    · unfold JobPool.Holds at hj
      rwa [hflight] at hj
    · obtain ⟨v, hv, rfl⟩ := List.mem_map.mp hw
      have hv' := hthrew v hv
      cases v <;> first | rfl | cases hv'
    · obtain ⟨v, hv, heq⟩ := List.mem_map.mp hex
      obtain rfl : v = .exited := by cases v <;> first | rfl | cases heq
      exact ⟨(h.exited hv).1, nofun⟩
    · exact absurd (h.stopped hstop).2 nofun
  | @join c p log mark b hall =>
    have hzero : p.inFlight = [] := by
      apply List.filterMap_eq_nil_iff.mpr
      intro w hw
      rw [hall w hw]
      rfl
    -- the last worker to leave found the queue empty
    have hjobs : p.jobs = [] := by
      cases hw : p.workers with
      | nil => exact (h.gone hw).1
      | cons w ws =>
        have hmem : w ∈ p.workers := hw ▸ List.mem_cons_self
        exact (h.exited (hall w hmem ▸ hmem)).1
    obtain ⟨he, -, hidle⟩ := h.stopping nofun
    have hnone := JobPool.not_holds { p with workers := [] } rfl hjobs he
    refine ⟨?_, fun job hj => absurd hj (hnone job), h.since,
      fun _ => ⟨hjobs, he⟩, fun _ => ⟨he, fun _ hw => absurd hw List.not_mem_nil, hidle⟩, nofun,
      fun hex => absurd hex List.not_mem_nil, fun _ => rfl, fun hstop => ?_⟩
    · have hcount := (JobPool.counted_iff p).mp h.counted
      rw [hzero] at hcount
      exact hcount
    · exact absurd (h.stopped hstop).2 nofun
  | @reset c p log mark b =>
    have hw : p.workers = [] := h.resetting rfl
    obtain ⟨he, -, hidle⟩ := h.stopping nofun
    have hnone := JobPool.not_holds
      { p with jobs := [], outstanding := 0, terminate := false } (JobPool.inFlight_of_nil hw) rfl he
    refine ⟨?_, fun job hj => absurd hj (hnone job), h.since,
      fun _ => ⟨rfl, he⟩, fun hp => absurd rfl hp, fun _ => rfl, fun hex => ?_, nofun,
      fun _ => ⟨hw, rfl⟩⟩
    · unfold JobPool.Counted
      show 0 = 0 + p.workers.countP _
      rw [hw]
      rfl
    · exact absurd (hw ▸ hex) List.not_mem_nil

theorem CleanReachable.inv {s : LifeState} (h : CleanReachable s) : LifeInv s := by
  induction h with
  | refl => exact LifeInv.init
  | tail _ hstep ih =>
    obtain ⟨hs, hclean⟩ := hstep
    cases hs with
    | client hm => exact ih.client hm hclean
    | worker i hm => exact ih.worker hm hclean

/-- A pool is as new after every `stop`, in every run in which jobs are enqueued while it has
workers and `stop` meets no exception. -/
theorem CleanReachable.lifeSafe {s : LifeState} (h : CleanReachable s) : LifeSafe s := by
  have hinv := h.inv
  have hcount := (JobPool.counted_iff _).mp hinv.counted
  refine ⟨fun hstop => ?_, hinv.since, hcount, fun job hj => ?_⟩
  · have hw := (hinv.stopped hstop).1
    obtain ⟨hjobs, he⟩ := hinv.gone hw
    have hflight : s.st.pool.inFlight = [] := by
      unfold JobPool.inFlight
      rw [hw]
      rfl
    rw [hjobs, hflight] at hcount
    exact ⟨hw, hjobs, hcount, he⟩
  · exact hinv.fresh job (hj.imp_right Or.inl)

/-- A step that enqueues nothing, does not begin a `stop`, and logs nothing during one. -/
theorem CleanStep.quiet {s s' : LifeState}
    (hn : numEnqueued s'.st.log = numEnqueued s.st.log)
    (hp : s.phase = .outside → s'.phase = .outside)
    (hl : s.phase = .outside ∨ s'.st.log = s.st.log) : CleanStep s s' := by
  refine ⟨fun hne => absurd hn hne, fun h h' => absurd (hp h) h', fun h job heq => ?_⟩
  rw [hl.resolve_left h] at heq
  exact List.cons_ne_self _ _ heq.symm

/-- One worker and one job, which has finished when the pool is stopped. -/
theorem lifeSafe_after_stop : ∃ s, CleanReachable s ∧ s.stopped = true ∧ s.st.log =
    [.finished 0, .returned 0, .started 0, .enqueued 0] ∧ LifeSafe s := by
  have h : CleanReachable LifeState.init := .refl
  have h := h.tail ⟨.client (.start 1 false rfl Nat.one_pos), .quiet rfl id (Or.inl rfl)⟩
  have h := h.tail ⟨.client (.call .enqueue),
    ⟨fun _ => List.cons_ne_nil _ _, fun _ hp => absurd rfl hp, fun hp => absurd rfl hp⟩⟩
  have h := h.tail ⟨.client (.call (.notifyNone (by decide))), .quiet rfl id (Or.inl rfl)⟩
  have h := h.tail ⟨.worker 0 (.take rfl rfl), .quiet rfl id (Or.inl rfl)⟩
  have h := h.tail ⟨.worker 0 (.complete rfl), .quiet rfl id (Or.inl rfl)⟩
  have h := h.tail ⟨.worker 0 (.finish rfl), .quiet rfl id (Or.inl rfl)⟩
  have h := h.tail ⟨.client (.stop (by decide)),
    ⟨fun hne => absurd rfl hne, fun _ _ => ⟨rfl, by decide⟩, fun hp => absurd rfl hp⟩⟩
  have h := h.tail ⟨.client .notifyAll, .quiet rfl nofun (Or.inr rfl)⟩
  have h := h.tail ⟨.worker 0 (.exit rfl rfl rfl), .quiet rfl nofun (Or.inr rfl)⟩
  have h := h.tail ⟨.client (.join (by decide)), .quiet rfl nofun (Or.inr rfl)⟩
  have h := h.tail ⟨.client .reset, .quiet rfl nofun (Or.inr rfl)⟩
  exact ⟨_, h, rfl, rfl, CleanReachable.lifeSafe h⟩

/-- The exception of a job that was running when the pool was stopped is rethrown by a `wait` after
the next `start`. -/
theorem stale_exception : ¬ ∀ s, LifeReachable s → LifeSafe s := by
  intro hall
  have h : LifeReachable LifeState.init := .refl
  have h := h.tail (.client (.start 1 false rfl Nat.one_pos))
  have h := h.tail (.client (.call .enqueue))
  have h := h.tail (.client (.call (.notifyNone (by decide))))
  have h := h.tail (.worker 0 (.take rfl rfl))
  have h := h.tail (.client (.stop (by decide)))
  have h := h.tail (.client .notifyAll)
  have h := h.tail (.worker 0 (.fail rfl))
  have h := h.tail (.worker 0 (.store rfl))
  have h := h.tail (.worker 0 (.finish rfl))
  have h := h.tail (.worker 0 (.exit rfl rfl rfl))
  have h := h.tail (.client (.join (by decide)))
  have h := h.tail (.client .reset)
  have h := h.tail (.client (.start 1 false rfl Nat.one_pos))
  have h := h.tail (.client (.call .wait))
  have h := h.tail (.client (.call (.rethrow rfl rfl)))
  obtain ⟨new, hnew, hfresh⟩ := (hall _ h).since
  have hone : new = [.waitRethrew 0] := (List.append_cancel_right hnew).symm
  have hlt := hfresh (.waitRethrew 0) (hone ▸ List.mem_cons_self) 0 rfl
  exact absurd hlt (by decide)

end Geniex
