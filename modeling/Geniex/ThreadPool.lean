import Geniex.LLM.Generate

/-!
# The decode pool

`ThreadPool` and the decode loop of `generate` as a transition system. Between two steps a thread
is at a point where it takes or has released the mutex, so that every step is one critical section
or one piece of work outside; any enabled thread may move next.

* `Live`: a generating thread that waits for jobs is served.
* `WritesInline`: the generating thread writes each shard back itself, before the next one runs.
* `pool_live_iff`: for which configurations every reachable state is live.
-/

namespace Geniex

/-! ## Threads -/

/-- Where a worker is in `ThreadPool::loop`. -/
inductive Worker
  /-- Before the check of the queue. -/
  | ready
  /-- Blocked in `job_cv_.wait`. -/
  | asleep
  | running (job : KVJob)
  /-- The job threw; before the exception is stored. -/
  | threw
  /-- Before `--outstanding_`. -/
  | done
  | exited
  deriving DecidableEq

/-- The worker has a job that still counts as outstanding. -/
def Worker.busy : Worker → Bool
  | .running _ | .threw | .done => true
  | _ => false

/-- The worker will check the queue again. -/
def Worker.awake : Worker → Bool
  | .asleep | .exited => false
  | _ => true

/-- Where the generating thread is. `more` says whether the loop goes on after a wait; `off` is the
position of the decode step, `s` the shard. -/
inductive MainThread
  | outside
  /-- At the head of the decode loop, with the next token known. -/
  | head
  /-- In `wait`, before the check. -/
  | waiting (more : Bool)
  /-- Blocked in `done_cv_.wait`. -/
  | blocked (more : Bool)
  /-- After the wait of a step: capacity check, eviction, promotion. -/
  | room
  | shard (off s : ℕ)
  /-- The shard has run; before its write-back. -/
  | executed (off s : ℕ)
  /-- The job is queued; before `job_cv_.notify_one`. -/
  | notify (off s : ℕ)
  deriving DecidableEq

/-- `done_cv_.notify_all`. -/
def MainThread.wake : MainThread → MainThread
  | .blocked more => .waiting more
  | m => m

/-- The thread is inside `ThreadPool::wait`. -/
def MainThread.inWait : MainThread → Prop
  | .waiting _ | .blocked _ => True
  | _ => False

/-- `ThreadPool`; `firstError` is whether `first_error_` is set. -/
structure Pool where
  workers : List Worker
  jobs : List KVJob
  outstanding : ℕ
  terminate : Bool
  poll : Bool
  firstError : Bool

/-- What the threads have done: a shard has run, or has been written back by the generating thread
or by a worker. -/
inductive PoolEvent
  | ran (s : ℕ)
  | wrote (worker : Option ℕ) (s : ℕ)
  deriving DecidableEq

/-- The threads and the pool, if there is one; the log is newest first. -/
structure PoolState where
  main : MainThread
  pool : Option Pool
  log : List PoolEvent

namespace Pool

/-- `start` on a new pool: no threads if none are asked for. -/
def start (nThreads : ℕ) (poll : Bool) : Pool where
  workers := List.replicate nThreads .ready
  jobs := []
  outstanding := 0
  terminate := false
  poll := if nThreads = 0 then false else poll
  firstError := false

/-- The locked part of `enqueue`. -/
def push (p : Pool) (job : KVJob) : Pool :=
  { p with jobs := p.jobs ++ [job], outstanding := p.outstanding + 1 }

def setWorker (p : Pool) (i : ℕ) (w : Worker) : Pool := { p with workers := p.workers.set i w }

@[simp] theorem setWorker_jobs (p : Pool) (i : ℕ) (w : Worker) :
    (p.setWorker i w).jobs = p.jobs := rfl

@[simp] theorem setWorker_outstanding (p : Pool) (i : ℕ) (w : Worker) :
    (p.setWorker i w).outstanding = p.outstanding := rfl

end Pool

/-- The pool after `onInitialized`: it hosts the workers and the clock keeper. -/
def initPool (nWorkers clockKeeperThreads : ℕ) (poll : Bool) : Option Pool :=
  if 0 < nWorkers ∨ 0 < clockKeeperThreads then some (Pool.start nWorkers poll) else none

def initState (nWorkers clockKeeperThreads : ℕ) (poll : Bool) : PoolState :=
  ⟨.outside, initPool nWorkers clockKeeperThreads poll, []⟩

/-! ## Steps -/

/-- A step of worker `i` in `loop`. -/
inductive WorkerStep (i : ℕ) : PoolState → PoolState → Prop
  | take {main p log job rest} (hw : p.workers[i]? = some .ready) (hj : p.jobs = job :: rest) :
      WorkerStep i ⟨main, some p, log⟩
        ⟨main, some { p.setWorker i (.running job) with jobs := rest }, log⟩
  | spin {main p log} (hw : p.workers[i]? = some .ready) (hj : p.jobs = [])
      (ht : p.terminate = false) (hp : p.poll = true) :
      WorkerStep i ⟨main, some p, log⟩ ⟨main, some p, log⟩
  | sleep {main p log} (hw : p.workers[i]? = some .ready) (hj : p.jobs = [])
      (ht : p.terminate = false) (hp : p.poll = false) :
      WorkerStep i ⟨main, some p, log⟩ ⟨main, some (p.setWorker i .asleep), log⟩
  | exit {main p log} (hw : p.workers[i]? = some .ready) (hj : p.jobs = [])
      (ht : p.terminate = true) :
      WorkerStep i ⟨main, some p, log⟩ ⟨main, some (p.setWorker i .exited), log⟩
  /-- A spurious wake-up. -/
  | wake {main p log} (hw : p.workers[i]? = some .asleep) :
      WorkerStep i ⟨main, some p, log⟩ ⟨main, some (p.setWorker i .ready), log⟩
  | complete {main p log job} (hw : p.workers[i]? = some (.running job)) :
      WorkerStep i ⟨main, some p, log⟩
        ⟨main, some (p.setWorker i .done), .wrote (some i) job.shard :: log⟩
  | fail {main p log job} (hw : p.workers[i]? = some (.running job)) :
      WorkerStep i ⟨main, some p, log⟩ ⟨main, some (p.setWorker i .threw), log⟩
  | store {main p log} (hw : p.workers[i]? = some .threw) :
      WorkerStep i ⟨main, some p, log⟩
        ⟨main, some { p.setWorker i .done with firstError := true }, log⟩
  /-- `if (--outstanding_ == 0) done_cv_.notify_all();` -/
  | finish {main p log} (hw : p.workers[i]? = some .done) :
      WorkerStep i ⟨main, some p, log⟩
        ⟨if p.outstanding - 1 = 0 then main.wake else main,
          some { p.setWorker i .ready with outstanding := p.outstanding - 1 }, log⟩

/-- Where the generating thread goes after the write-back of shard `s`. -/
def afterShard (shards off s : ℕ) : MainThread :=
  if s + 1 < shards then .shard off (s + 1) else .head

/-- Where it goes after a wait. -/
def afterWait (more : Bool) : MainThread := if more then .room else .outside

/-- A step of the generating thread. -/
inductive MainStep (shards : ℕ) : PoolState → PoolState → Prop
  | enter {pool log} : MainStep shards ⟨.outside, pool, log⟩ ⟨.head, pool, log⟩
  | callbackThrows {pool log} : MainStep shards ⟨.head, pool, log⟩ ⟨.outside, pool, log⟩
  /-- `if (decode_pool_) decode_pool_->wait();` at the top of a step or after the loop. -/
  | wait {p log} (more : Bool) : MainStep shards ⟨.head, some p, log⟩ ⟨.waiting more, some p, log⟩
  | noWait {log} (more : Bool) : MainStep shards ⟨.head, none, log⟩ ⟨afterWait more, none, log⟩
  | block {p log more} (h : p.outstanding ≠ 0) :
      MainStep shards ⟨.waiting more, some p, log⟩ ⟨.blocked more, some p, log⟩
  | wake {p log more} : MainStep shards ⟨.blocked more, some p, log⟩ ⟨.waiting more, some p, log⟩
  | rethrow {p log more} (h : p.outstanding = 0) (he : p.firstError = true) :
      MainStep shards ⟨.waiting more, some p, log⟩
        ⟨.outside, some { p with firstError := false }, log⟩
  | waited {p log more} (h : p.outstanding = 0) (he : p.firstError = false) :
      MainStep shards ⟨.waiting more, some p, log⟩ ⟨afterWait more, some p, log⟩
  | noRoom {pool log} : MainStep shards ⟨.room, pool, log⟩ ⟨.outside, pool, log⟩
  | begin {pool log} (off : ℕ) : MainStep shards ⟨.room, pool, log⟩ ⟨.shard off 0, pool, log⟩
  | executeFails {pool log off s} :
      MainStep shards ⟨.shard off s, pool, log⟩ ⟨.outside, pool, log⟩
  | execute {pool log off s} :
      MainStep shards ⟨.shard off s, pool, log⟩ ⟨.executed off s, pool, .ran s :: log⟩
  | writeInline {log off s} : MainStep shards ⟨.executed off s, none, log⟩
      ⟨afterShard shards off s, none, .wrote none s :: log⟩
  | enqueue {p log off s} : MainStep shards ⟨.executed off s, some p, log⟩
      ⟨.notify off s, some (p.push ⟨s, off⟩), log⟩
  | notifyOne {p log off s} (i : ℕ) (hw : p.workers[i]? = some .asleep) :
      MainStep shards ⟨.notify off s, some p, log⟩
        ⟨afterShard shards off s, some (p.setWorker i .ready), log⟩
  | notifyNone {p log off s} (hw : .asleep ∉ p.workers) :
      MainStep shards ⟨.notify off s, some p, log⟩ ⟨afterShard shards off s, some p, log⟩

/-- A step of some worker. -/
def SomeWorkerStep (st st' : PoolState) : Prop := ∃ i, WorkerStep i st st'

/-- A step of some thread. -/
def PoolStep (shards : ℕ) (st st' : PoolState) : Prop := MainStep shards st st' ∨ SomeWorkerStep st st'

/-- The states that some interleaving reaches. -/
def PoolReachable (nWorkers clockKeeperThreads : ℕ) (poll : Bool) (shards : ℕ) : PoolState → Prop :=
  Relation.ReflTransGen (PoolStep shards) (initState nWorkers clockKeeperThreads poll)

/-! ## What is asked for -/

def PoolState.outstanding (st : PoolState) : ℕ :=
  match st.pool with
  | some p => p.outstanding
  | none => 0

/-- Worker `i` runs a job or can take one. -/
def Serves (st : PoolState) (i : ℕ) : Prop :=
  ∃ p w, st.pool = some p ∧ p.workers[i]? = some w ∧ (w.busy = true ∨ w = .ready ∧ p.jobs ≠ [])

/-- A wait with jobs outstanding has a worker that runs a job or can take one, and workers' steps
alone bring the number of jobs down. -/
def Live (st : PoolState) : Prop :=
  st.main.inWait → 0 < st.outstanding →
    (∃ i, Serves st i) ∧
      ∃ st', Relation.ReflTransGen SomeWorkerStep st st' ∧ st'.outstanding < st.outstanding

/-- Every shard that ran has been written back by the generating thread. -/
inductive WrittenInline : List PoolEvent → Prop
  | nil : WrittenInline []
  | cons {log s} (h : WrittenInline log) : WrittenInline (.wrote none s :: .ran s :: log)

/-- Each shard is written back by the generating thread before the next one runs; the last shard
may still be to be written. -/
def WritesInline (log : List PoolEvent) : Prop :=
  WrittenInline log ∨ ∃ s old, log = .ran s :: old ∧ WrittenInline old

/-! ## A worker that serves brings the count down -/

section Progress

variable {main : MainThread} {p : Pool} {log : List PoolEvent} {i : ℕ}

theorem lt_of_worker {w : Worker} (h : p.workers[i]? = some w) : i < p.workers.length := by
  by_contra hlt
  rw [List.getElem?_eq_none (by omega)] at h
  cases h

@[simp] theorem setWorker_get {w w' : Worker} (h : p.workers[i]? = some w) :
    (p.setWorker i w').workers[i]? = some w' := by
  simp [Pool.setWorker, lt_of_worker h]

/-- Workers alone bring the count of outstanding jobs down. -/
def Decreases (st : PoolState) : Prop :=
  ∃ st', Relation.ReflTransGen SomeWorkerStep st st' ∧ st'.outstanding < st.outstanding

/-- A step that leaves the count alone, before a decrease. -/
theorem Decreases.step {st st' : PoolState} (h : Decreases st') (hs : WorkerStep i st st')
    (heq : st'.outstanding = st.outstanding) : Decreases st := by
  obtain ⟨st'', hrun, hlt⟩ := h
  exact ⟨st'', Relation.ReflTransGen.head ⟨i, hs⟩ hrun, heq ▸ hlt⟩

theorem decreases_done (hw : p.workers[i]? = some .done) (hpos : 0 < p.outstanding) :
    Decreases ⟨main, some p, log⟩ :=
  ⟨_, Relation.ReflTransGen.single ⟨i, .finish hw⟩, Nat.sub_lt hpos Nat.one_pos⟩

theorem decreases_running {job : KVJob} (hw : p.workers[i]? = some (.running job))
    (hpos : 0 < p.outstanding) : Decreases ⟨main, some p, log⟩ :=
  (decreases_done (setWorker_get hw) hpos).step (.complete hw) rfl

theorem decreases_threw (hw : p.workers[i]? = some .threw) (hpos : 0 < p.outstanding) :
    Decreases ⟨main, some p, log⟩ := by
  have hdone : Decreases ⟨main, some { p.setWorker i .done with firstError := true }, log⟩ :=
    decreases_done (setWorker_get hw) hpos
  exact hdone.step (.store hw) rfl

theorem decreases_ready (hw : p.workers[i]? = some .ready) (hj : p.jobs ≠ [])
    (hpos : 0 < p.outstanding) : Decreases ⟨main, some p, log⟩ := by
  obtain ⟨job, rest, hjobs⟩ := List.exists_cons_of_ne_nil hj
  have hrun : Decreases ⟨main, some { p.setWorker i (.running job) with jobs := rest }, log⟩ :=
    decreases_running (setWorker_get hw) hpos
  exact hrun.step (.take hw hjobs) rfl

/-- A worker that serves will finish a job. -/
theorem Serves.decreases {st : PoolState} (h : Serves st i) (hpos : 0 < st.outstanding) :
    Decreases st := by
  obtain ⟨p, w, hp, hw, hserve⟩ := h
  obtain ⟨main, pool, log⟩ := st
  obtain rfl : pool = some p := hp
  change 0 < p.outstanding at hpos
  rcases hserve with hbusy | ⟨rfl, hj⟩
  · cases w with
    | running job => exact decreases_running hw hpos
    | threw => exact decreases_threw hw hpos
    | done => exact decreases_done hw hpos
    | ready => cases hbusy
    | asleep => cases hbusy
    | exited => cases hbusy
  · exact decreases_ready hw hj hpos

end Progress

/-! ## The invariant of a pool with workers -/

/-- What holds of the pool in every reachable state. -/
structure PoolInv (nWorkers : ℕ) (main : MainThread) (p : Pool) : Prop where
  size : p.workers.length = nWorkers
  running : p.terminate = false
  alive : .exited ∉ p.workers
  count : p.outstanding = p.jobs.length + p.workers.countP Worker.busy
  /-- Queued jobs have an awake worker, or the notification of one is still to come. -/
  awake : p.jobs ≠ [] → (∃ off s, main = .notify off s) ∨
    ∃ (i : ℕ) (w : Worker), p.workers[i]? = some w ∧ w.awake = true

/-- How many members of a list are of a kind after one of them has changed. -/
theorem countP_set_add {α : Type} (q : α → Bool) {l : List α} {i : ℕ} {a : α} (b : α)
    (h : l[i]? = some a) : (l.set i b).countP q + (q a).toNat = l.countP q + (q b).toNat := by
  obtain ⟨hi, hget⟩ := List.getElem?_eq_some_iff.mp h
  have hpos : (q a).toNat ≤ l.countP q := by
    cases hq : q a with
    | true => exact List.countP_pos_iff.mpr ⟨a, hget ▸ List.getElem_mem hi, hq⟩
    | false => exact Nat.zero_le _
  have hset : (l.set i b).countP q = l.countP q - (q a).toNat + (q b).toNat := by
    rw [List.countP_set hi, hget]
    cases q a <;> cases q b <;> rfl
  omega

/-- The number of busy workers after one of them has moved. -/
theorem countP_setWorker {p : Pool} {i : ℕ} {w : Worker} (w' : Worker) (hw : p.workers[i]? = some w) :
    (p.setWorker i w').workers.countP Worker.busy + w.busy.toNat =
      p.workers.countP Worker.busy + w'.busy.toNat :=
  countP_set_add Worker.busy w' hw

/-- Worker `i` moves on to a point where it is not blocked. -/
theorem PoolInv.move {nWorkers i : ℕ} {main main' : MainThread} {p : Pool} {w w' : Worker}
    (h : PoolInv nWorkers main p) (hw : p.workers[i]? = some w) (hawake : w'.awake = true)
    {jobs : List KVJob} {outstanding : ℕ} {firstError : Bool}
    (hcount : outstanding + p.jobs.length + w.busy.toNat =
      p.outstanding + jobs.length + w'.busy.toNat) :
    PoolInv nWorkers main' { p.setWorker i w' with
      jobs := jobs, outstanding := outstanding, firstError := firstError } := by
  refine ⟨List.length_set.trans h.size, h.running, fun hm => ?_, ?_,
    fun _ => Or.inr ⟨i, w', setWorker_get hw, hawake⟩⟩
  · rcases List.mem_or_eq_of_mem_set hm with hm | heq
    · exact h.alive hm
    · rw [← heq] at hawake
      cases hawake
  · have := h.count
    have := countP_setWorker w' hw
    show outstanding = jobs.length + (p.setWorker i w').workers.countP Worker.busy
    omega

/-- A worker takes a step. -/
theorem PoolInv.worker {nWorkers i : ℕ} {main main' : MainThread} {p p' : Pool}
    {log log' : List PoolEvent} (h : PoolInv nWorkers main p)
    (hs : WorkerStep i ⟨main, some p, log⟩ ⟨main', some p', log'⟩) : PoolInv nWorkers main' p' := by
  cases hs with
  | take hw hj =>
    refine h.move hw rfl ?_
    simp only [hj, Pool.setWorker_outstanding, List.length_cons, Worker.busy, Bool.toNat_true,
      Bool.toNat_false]
    omega
  | spin hw hj ht hp => exact h
  | sleep hw hj ht hp =>
    refine ⟨List.length_set.trans h.size, h.running, fun hm => ?_, ?_, fun hne => absurd hj hne⟩
    · rcases List.mem_or_eq_of_mem_set hm with hm | heq
      · exact h.alive hm
      · cases heq
    · have := h.count
      have := countP_setWorker .asleep hw
      simp only [Worker.busy, Bool.toNat_false, Nat.add_zero] at this
      show p.outstanding = p.jobs.length + (p.setWorker i .asleep).workers.countP Worker.busy
      omega
  | exit hw hj ht =>
    rw [h.running] at ht
    cases ht
  | wake hw => exact h.move hw rfl rfl
  | complete hw => exact h.move hw rfl rfl
  | fail hw => exact h.move hw rfl rfl
  | store hw => exact h.move hw rfl rfl
  | finish hw =>
    have hpos : 0 < p.outstanding := by
      have hmem := List.mem_of_getElem? hw
      have := h.count
      have := List.countP_pos_iff.mpr ⟨_, hmem, (rfl : Worker.busy .done = true)⟩
      omega
    refine h.move hw rfl ?_
    simp only [Pool.setWorker_jobs, Worker.busy, Bool.toNat_true, Bool.toNat_false]
    omega

/-- Outside `notify` a queued job has an awake worker, wherever the generating thread is. -/
theorem PoolInv.elsewhere {nWorkers : ℕ} {main : MainThread} {p : Pool}
    (h : PoolInv nWorkers main p) (hne : ∀ off s, main ≠ .notify off s) (m : MainThread) :
    PoolInv nWorkers m p :=
  ⟨h.size, h.running, h.alive, h.count, fun hj =>
    Or.inr ((h.awake hj).resolve_left fun ⟨off, s, heq⟩ => hne off s heq)⟩

/-- The generating thread takes a step. -/
theorem PoolInv.mainStep {nWorkers shards : ℕ} {main main' : MainThread} {p p' : Pool}
    {log log' : List PoolEvent} (hn : 0 < nWorkers) (h : PoolInv nWorkers main p)
    (hs : MainStep shards ⟨main, some p, log⟩ ⟨main', some p', log'⟩) :
    PoolInv nWorkers main' p' := by
  have hplain := h.elsewhere
  cases hs with
  | enter => exact hplain (by simp) _
  | callbackThrows => exact hplain (by simp) _
  | wait more => exact hplain (by simp) _
  | block => exact hplain (by simp) _
  | wake => exact hplain (by simp) _
  | rethrow =>
    have := hplain (by simp) .outside
    exact ⟨this.size, this.running, this.alive, this.count, this.awake⟩
  | waited => exact hplain (by simp) _
  | noRoom => exact hplain (by simp) _
  | begin off => exact hplain (by simp) _
  | executeFails => exact hplain (by simp) _
  | execute => exact hplain (by simp) _
  | enqueue =>
    refine ⟨h.size, h.running, h.alive, ?_, fun _ => Or.inl ⟨_, _, rfl⟩⟩
    have := h.count
    simp only [Pool.push, List.length_append, List.length_singleton]
    omega
  | notifyOne i hw => exact h.move hw rfl rfl
  | notifyNone hw =>
    -- no worker sleeps and none has left, so any of them is awake
    refine ⟨h.size, h.running, h.alive, h.count, fun _ => Or.inr ?_⟩
    have hlt : 0 < p.workers.length := h.size ▸ hn
    refine ⟨0, p.workers[0], List.getElem?_eq_getElem hlt, ?_⟩
    have hmem := List.getElem_mem hlt
    cases hw0 : p.workers[0] with
    | asleep => exact absurd (hw0 ▸ hmem) hw
    | exited => exact absurd (hw0 ▸ hmem) h.alive
    | ready => rfl
    | running job => rfl
    | threw => rfl
    | done => rfl

/-- Outside `notify`, outstanding jobs are served. -/
theorem PoolInv.serves {nWorkers : ℕ} {main : MainThread} {p : Pool} (h : PoolInv nWorkers main p)
    (hne : ∀ off s, main ≠ .notify off s) (hpos : 0 < p.outstanding) (log : List PoolEvent) :
    ∃ i, Serves ⟨main, some p, log⟩ i := by
  by_cases hj : p.jobs = []
  · have hbusy : 0 < p.workers.countP Worker.busy := by
      have := h.count
      rw [hj, List.length_nil] at this
      omega
    obtain ⟨w, hw, hb⟩ := List.countP_pos_iff.mp hbusy
    obtain ⟨i, hi⟩ := List.getElem?_of_mem hw
    exact ⟨i, p, w, rfl, hi, Or.inl hb⟩
  · obtain ⟨i, w, hi, hawake⟩ := (h.awake hj).resolve_left fun ⟨off, s, heq⟩ => hne off s heq
    refine ⟨i, p, w, rfl, hi, ?_⟩
    cases w with
    | ready => exact Or.inr ⟨rfl, hj⟩
    | running job => exact Or.inl rfl
    | threw => exact Or.inl rfl
    | done => exact Or.inl rfl
    | asleep => cases hawake
    | exited => cases hawake

/-- A waiting thread is served. -/
theorem PoolInv.live {nWorkers : ℕ} {main : MainThread} {p : Pool} {log : List PoolEvent}
    (h : PoolInv nWorkers main p) : Live ⟨main, some p, log⟩ := by
  intro hwait hpos
  have hne : ∀ off s, main ≠ .notify off s := by
    rintro off s rfl
    exact hwait
  have hserve := h.serves hne hpos log
  exact ⟨hserve, hserve.elim fun i hi => hi.decreases hpos⟩

/-! ## Runs -/

variable {nWorkers clockKeeperThreads shards : ℕ} {poll : Bool}

theorem PoolReachable.inv (hn : 0 < nWorkers) {st : PoolState}
    (h : PoolReachable nWorkers clockKeeperThreads poll shards st) :
    ∃ p, st.pool = some p ∧ PoolInv nWorkers st.main p := by
  induction h with
  | refl =>
    refine ⟨Pool.start nWorkers poll, if_pos (Or.inl hn), List.length_replicate, rfl, ?_, ?_,
      fun hj => absurd rfl hj⟩
    · simp [Pool.start]
    · simp [Pool.start, List.countP_replicate, Worker.busy]
  | @tail st st' _ hstep ih =>
    obtain ⟨p, hp, hinv⟩ := ih
    obtain ⟨main, pool, log⟩ := st
    obtain ⟨main', pool', log'⟩ := st'
    obtain rfl : pool = some p := hp
    -- the pool stays
    obtain ⟨p', rfl⟩ : ∃ p', pool' = some p' := by
      rcases hstep with hs | ⟨i, hs⟩ <;> cases hs <;> exact ⟨_, rfl⟩
    refine ⟨p', rfl, ?_⟩
    rcases hstep with hs | ⟨i, hs⟩
    · exact hinv.mainStep hn hs
    · exact hinv.worker hs

/-- Without a pool the generating thread alone acts. -/
structure Alone (st : PoolState) : Prop where
  pool : st.pool = none
  executed : ∀ off s, st.main = .executed off s → ∃ old, st.log = .ran s :: old ∧ WrittenInline old
  log : (∀ off s, st.main ≠ .executed off s) → WrittenInline st.log

theorem PoolReachable.alone {st : PoolState} (h : PoolReachable 0 0 poll shards st) : Alone st := by
  induction h with
  | refl => exact ⟨rfl, fun _ _ heq => (nomatch heq), fun _ => WrittenInline.nil⟩
  | @tail st st' _ hstep ih =>
    obtain ⟨hpool, hexec, hlog⟩ := ih
    obtain ⟨main, pool, log⟩ := st
    obtain rfl : pool = none := hpool
    rcases hstep with hs | ⟨i, hs⟩
    · cases hs with
      | enter => exact ⟨rfl, by simp, fun _ => hlog (by simp)⟩
      | callbackThrows => exact ⟨rfl, by simp, fun _ => hlog (by simp)⟩
      | noWait more => exact ⟨rfl, by cases more <;> simp [afterWait], fun _ => hlog (by simp)⟩
      | noRoom => exact ⟨rfl, by simp, fun _ => hlog (by simp)⟩
      | begin off => exact ⟨rfl, by simp, fun _ => hlog (by simp)⟩
      | executeFails => exact ⟨rfl, by simp, fun _ => hlog (by simp)⟩
      | execute =>
        refine ⟨rfl, fun off s heq => ?_, fun hne => absurd rfl (hne _ _)⟩
        cases heq
        exact ⟨_, rfl, hlog (by simp)⟩
      | @writeInline _ off s =>
        obtain ⟨old, rfl, hold⟩ := hexec off s rfl
        refine ⟨rfl, fun off' s' heq => ?_, fun _ => .cons hold⟩
        unfold afterShard at heq
        split_ifs at heq
    · cases hs

theorem Alone.writesInline {st : PoolState} (h : Alone st) : WritesInline st.log := by
  by_cases hex : ∃ off s, st.main = .executed off s
  · obtain ⟨off, s, heq⟩ := hex
    obtain ⟨old, hlog, hold⟩ := h.executed off s heq
    exact Or.inr ⟨s, old, hlog, hold⟩
  · exact Or.inl (h.log fun off s heq => hex ⟨off, s, heq⟩)

/-! ## A pool without workers -/

/-- With no workers, but with a pool, the loop queues a job for every shard. -/
theorem reach_shard (poll : Bool) {nCk shards : ℕ} (hck : 0 < nCk) (s : ℕ) (hs : s < shards) :
    ∃ p log, PoolReachable 0 nCk poll shards ⟨.shard 0 s, some p, log⟩ ∧ p.workers = [] ∧
      p.outstanding = s := by
  have hpool : initPool 0 nCk poll = some (Pool.start 0 poll) := if_pos (Or.inr hck)
  induction s with
  | zero =>
    refine ⟨Pool.start 0 poll, [], ?_, rfl, rfl⟩
    unfold PoolReachable initState
    rw [hpool]
    refine .tail (.tail (.tail (.tail .refl (Or.inl .enter)) (Or.inl (.wait true)))
      (Or.inl (.waited rfl rfl))) (Or.inl (.begin 0))
  | succ s ih =>
    obtain ⟨p, log, hreach, hw, hout⟩ := ih (by omega)
    have hnext : afterShard shards 0 s = .shard 0 (s + 1) := if_pos hs
    have hstep := Relation.ReflTransGen.tail (Relation.ReflTransGen.tail (Relation.ReflTransGen.tail
      hreach (Or.inl .execute)) (Or.inl .enqueue)) (Or.inl (.notifyNone (by simp [Pool.push, hw])))
    rw [hnext] at hstep
    exact ⟨_, _, hstep, hw, by simp [Pool.push, hout]⟩

/-- Then the generating thread waits, and nobody serves it. -/
theorem reach_stuck (poll : Bool) {nCk shards : ℕ} (hck : 0 < nCk) (hs : 0 < shards) :
    ∃ p log, PoolReachable 0 nCk poll shards ⟨.waiting true, some p, log⟩ ∧ p.workers = [] ∧
      p.outstanding = shards := by
  obtain ⟨p, log, hreach, hw, hout⟩ := reach_shard poll hck (shards - 1) (Nat.sub_lt hs Nat.one_pos)
  have hnext : afterShard shards 0 (shards - 1) = .head := if_neg (by omega)
  have hstep := Relation.ReflTransGen.tail (Relation.ReflTransGen.tail (Relation.ReflTransGen.tail
    hreach (Or.inl .execute)) (Or.inl .enqueue)) (Or.inl (.notifyNone (by simp [Pool.push, hw])))
  rw [hnext] at hstep
  refine ⟨_, _, hstep.tail (Or.inl (.wait true)), hw, ?_⟩
  simp only [Pool.push, hout]
  omega

theorem not_live_of_no_workers {p : Pool} {log : List PoolEvent} (hw : p.workers = [])
    (hout : 0 < p.outstanding) : ¬Live ⟨.waiting true, some p, log⟩ := by
  intro h
  obtain ⟨⟨i, p', w, hp, hi, -⟩, -⟩ := h trivial hout
  obtain rfl := Option.some.inj hp
  rw [hw] at hi
  cases hi

/-- **Which configurations never block forever.** For every number of shards of a model: every
state that some interleaving reaches is live, and without workers every write-back is done by the
generating thread before the next shard runs, if and only if there are workers or there is no
clock keeper. -/
theorem pool_live_iff (spec : LLMSpec) (nWorkers clockKeeperThreads : ℕ) (poll : Bool) :
    (∀ st, PoolReachable nWorkers clockKeeperThreads poll spec.shardCount st →
        Live st ∧ (nWorkers = 0 → WritesInline st.log)) ↔
      (0 < nWorkers ∨ clockKeeperThreads = 0) := by
  constructor
  · intro h
    by_contra hne
    obtain ⟨hn, hck⟩ := not_or.mp hne
    obtain rfl : nWorkers = 0 := by omega
    obtain ⟨p, log, hreach, hw, hout⟩ :=
      reach_stuck poll (Nat.pos_of_ne_zero hck) spec.shardCount_pos
    exact not_live_of_no_workers hw (hout ▸ spec.shardCount_pos) (h _ hreach).1
  · intro hcond st hst
    by_cases hn : 0 < nWorkers
    · obtain ⟨p, hp, hinv⟩ := hst.inv hn
      obtain ⟨main, pool, log⟩ := st
      obtain rfl : pool = some p := hp
      exact ⟨hinv.live, fun h => absurd h hn.ne'⟩
    · obtain rfl : nWorkers = 0 := by omega
      obtain rfl : clockKeeperThreads = 0 := hcond.resolve_left hn
      have halone := hst.alone
      refine ⟨fun _ hpos => ?_, fun _ => halone.writesInline⟩
      unfold PoolState.outstanding at hpos
      rw [halone.pool] at hpos
      exact absurd hpos (lt_irrefl 0)

/-- A clock keeper without workers: with one shard, the second wait is never served. -/
theorem pool_stuck : ∃ st, PoolReachable 0 1 false 1 st ∧ ¬Live st := by
  obtain ⟨p, log, hreach, hw, hout⟩ := reach_stuck false Nat.one_pos Nat.one_pos
  exact ⟨_, hreach, not_live_of_no_workers hw (hout ▸ Nat.one_pos)⟩

/-- The wait of the sequential model returns in the configurations of `pool_live_iff`. -/
theorem waitPool_returns {τ ρ I : Type} {spec : LLMSpec} {env : Env τ ρ I}
    (h : 0 < env.nWorkers ∨ env.clockKeeperThreads = 0) (w : World τ ρ I) :
    (waitPool spec env w).1 = .ok () := by
  unfold waitPool
  simp only [Prog.get_bind]
  by_cases hn : env.nWorkers = 0
  · have hck : env.clockKeeperThreads = 0 := h.resolve_left (by omega)
    have hpool : env.decodePool = false := by simp [Env.decodePool, hn, hck]
    rw [if_pos (Or.inr hpool)]
    rfl
  · split_ifs <;> rfl

end Geniex
