import Geniex.ThreadPool

/-!
# What the pool guarantees its client

`ThreadPool` for a thread that makes any sequence of `enqueue` and `wait` calls. Here the jobs are
told apart, by their number in the order of `enqueue`, and the error slot holds the job whose
exception it is.

* `WorkerMove.forget`, `WorkerMove.lift`: with the numbers forgotten, the workers are those of the
  decode pool, step by step, so that `PoolInv` and the progress of a worker that serves carry over.
* `ClientReachable.poolSafe`: what holds in every state that some interleaving reaches.
-/

namespace Geniex

/-! ## Threads -/

/-- A worker in `ThreadPool::loop`, with the job it has. -/
inductive JobWorker
  | ready
  | asleep
  | running (job : ℕ)
  | threw (job : ℕ)
  | done (job : ℕ)
  | exited
  deriving DecidableEq

/-- Where the client is: `notify` lies between the two halves of `enqueue`. -/
inductive Client
  | idle
  | notify
  /-- In `wait`, before the check. -/
  | waiting
  /-- Blocked in `done_cv_.wait`. -/
  | blocked
  deriving DecidableEq

/-- `done_cv_.notify_all`. -/
def Client.wake : Client → Client
  | .blocked => .waiting
  | c => c

/-- `ThreadPool`. -/
structure JobPool where
  workers : List JobWorker
  jobs : List ℕ
  outstanding : ℕ
  terminate : Bool
  poll : Bool
  firstError : Option ℕ

/-- What has happened. A job has run when it has returned or thrown. -/
inductive JobEvent
  | enqueued (job : ℕ)
  | started (job : ℕ)
  | returned (job : ℕ)
  | threw (job : ℕ)
  /-- The handler of the exception has held the lock. -/
  | recorded (job : ℕ)
  | finished (job : ℕ)
  | waitReturned
  | waitRethrew (job : ℕ)
  deriving DecidableEq

/-- The client and the pool; the log is newest first. -/
structure ClientState where
  client : Client
  pool : JobPool
  log : List JobEvent

namespace JobEvent

def enqueued? : JobEvent → Option ℕ
  | .enqueued job => some job
  | _ => none

def started? : JobEvent → Option ℕ
  | .started job => some job
  | _ => none

/-- The job that has run to its end. -/
def ran? : JobEvent → Option ℕ
  | .returned job | .threw job => some job
  | _ => none

def threw? : JobEvent → Option ℕ
  | .threw job => some job
  | _ => none

def recorded? : JobEvent → Option ℕ
  | .recorded job => some job
  | _ => none

def finished? : JobEvent → Option ℕ
  | .finished job => some job
  | _ => none

def endsWait : JobEvent → Bool
  | .waitReturned | .waitRethrew _ => true
  | _ => false

end JobEvent

/-- The number of jobs enqueued. -/
def numEnqueued (log : List JobEvent) : ℕ := (log.filterMap JobEvent.enqueued?).length

/-- The part of a log after the last `wait` that ended. -/
def sinceWait (log : List JobEvent) : List JobEvent := log.takeWhile fun e => !e.endsWait

/-- The first exception recorded since the last `wait` that ended. -/
def firstRecorded (log : List JobEvent) : Option ℕ :=
  ((sinceWait log).filterMap JobEvent.recorded?).getLast?

namespace JobWorker

/-- The job a worker has taken and not counted off yet. -/
def job? : JobWorker → Option ℕ
  | .running job | .threw job | .done job => some job
  | _ => none

/-- The job a worker has run to its end. -/
def ran? : JobWorker → Option ℕ
  | .threw job | .done job => some job
  | _ => none

def threw? : JobWorker → Option ℕ
  | .threw job => some job
  | _ => none

end JobWorker

namespace JobPool

/-- `start` on a new pool. -/
def start (nThreads : ℕ) (poll : Bool) : JobPool where
  workers := List.replicate nThreads .ready
  jobs := []
  outstanding := 0
  terminate := false
  poll := if nThreads = 0 then false else poll
  firstError := none

/-- The locked part of `enqueue`. -/
def push (p : JobPool) (job : ℕ) : JobPool :=
  { p with jobs := p.jobs ++ [job], outstanding := p.outstanding + 1 }

def setWorker (p : JobPool) (i : ℕ) (w : JobWorker) : JobPool :=
  { p with workers := p.workers.set i w }

/-- The jobs being executed. -/
def inFlight (p : JobPool) : List ℕ := p.workers.filterMap JobWorker.job?

end JobPool

/-! ## Steps -/

/-- A step of worker `i` in `loop`. -/
inductive WorkerMove (i : ℕ) : ClientState → ClientState → Prop
  | take {c p log job rest} (hw : p.workers[i]? = some .ready) (hj : p.jobs = job :: rest) :
      WorkerMove i ⟨c, p, log⟩
        ⟨c, { p.setWorker i (.running job) with jobs := rest }, .started job :: log⟩
  | spin {c p log} (hw : p.workers[i]? = some .ready) (hj : p.jobs = [])
      (ht : p.terminate = false) (hp : p.poll = true) : WorkerMove i ⟨c, p, log⟩ ⟨c, p, log⟩
  | sleep {c p log} (hw : p.workers[i]? = some .ready) (hj : p.jobs = [])
      (ht : p.terminate = false) (hp : p.poll = false) :
      WorkerMove i ⟨c, p, log⟩ ⟨c, p.setWorker i .asleep, log⟩
  | exit {c p log} (hw : p.workers[i]? = some .ready) (hj : p.jobs = [])
      (ht : p.terminate = true) : WorkerMove i ⟨c, p, log⟩ ⟨c, p.setWorker i .exited, log⟩
  /-- A spurious wake-up. -/
  | wake {c p log} (hw : p.workers[i]? = some .asleep) :
      WorkerMove i ⟨c, p, log⟩ ⟨c, p.setWorker i .ready, log⟩
  | complete {c p log job} (hw : p.workers[i]? = some (.running job)) :
      WorkerMove i ⟨c, p, log⟩ ⟨c, p.setWorker i (.done job), .returned job :: log⟩
  | fail {c p log job} (hw : p.workers[i]? = some (.running job)) :
      WorkerMove i ⟨c, p, log⟩ ⟨c, p.setWorker i (.threw job), .threw job :: log⟩
  /-- `if (!first_error_) first_error_ = std::current_exception();` -/
  | store {c p log job} (hw : p.workers[i]? = some (.threw job)) :
      WorkerMove i ⟨c, p, log⟩
        ⟨c, { p.setWorker i (.done job) with firstError := p.firstError.or (some job) },
          .recorded job :: log⟩
  /-- `if (--outstanding_ == 0) done_cv_.notify_all();` -/
  | finish {c p log job} (hw : p.workers[i]? = some (.done job)) :
      WorkerMove i ⟨c, p, log⟩
        ⟨if p.outstanding - 1 = 0 then c.wake else c,
          { p.setWorker i .ready with outstanding := p.outstanding - 1 }, .finished job :: log⟩

/-- A step of the client. -/
inductive ClientMove : ClientState → ClientState → Prop
  | enqueue {p log} : ClientMove ⟨.idle, p, log⟩
      ⟨.notify, p.push (numEnqueued log), .enqueued (numEnqueued log) :: log⟩
  | notifyOne {p log} (i : ℕ) (hw : p.workers[i]? = some .asleep) :
      ClientMove ⟨.notify, p, log⟩ ⟨.idle, p.setWorker i .ready, log⟩
  | notifyNone {p log} (hw : .asleep ∉ p.workers) :
      ClientMove ⟨.notify, p, log⟩ ⟨.idle, p, log⟩
  | wait {p log} : ClientMove ⟨.idle, p, log⟩ ⟨.waiting, p, log⟩
  | block {p log} (h : p.outstanding ≠ 0) : ClientMove ⟨.waiting, p, log⟩ ⟨.blocked, p, log⟩
  | wake {p log} : ClientMove ⟨.blocked, p, log⟩ ⟨.waiting, p, log⟩
  | rethrow {p log job} (h : p.outstanding = 0) (he : p.firstError = some job) :
      ClientMove ⟨.waiting, p, log⟩ ⟨.idle, { p with firstError := none }, .waitRethrew job :: log⟩
  | waited {p log} (h : p.outstanding = 0) (he : p.firstError = none) :
      ClientMove ⟨.waiting, p, log⟩ ⟨.idle, p, .waitReturned :: log⟩

/-- A step of some worker. -/
def SomeWorkerMove (st st' : ClientState) : Prop := ∃ i, WorkerMove i st st'

/-- The states that some interleaving reaches. -/
def ClientReachable (nWorkers : ℕ) (poll : Bool) : ClientState → Prop :=
  Relation.ReflTransGen (fun st st' => ClientMove st st' ∨ SomeWorkerMove st st')
    ⟨.idle, JobPool.start nWorkers poll, []⟩

/-! ## What is asked for -/

/-- Every job enqueued in the log is finished. -/
def AllFinished (log : List JobEvent) : Prop :=
  ∀ job, job < numEnqueued log → JobEvent.finished job ∈ log

/-- Every `wait` ended with all earlier jobs finished. It rethrew the first exception recorded
since the `wait` before it, and returned only if no job has thrown since. -/
def WaitsRight : List JobEvent → Prop
  | [] => True
  | .waitReturned :: log =>
    (AllFinished log ∧ (sinceWait log).filterMap JobEvent.threw? = []) ∧ WaitsRight log
  | .waitRethrew job :: log =>
    (AllFinished log ∧ job ∈ (sinceWait log).filterMap JobEvent.threw? ∧
      firstRecorded log = some job) ∧ WaitsRight log
  | _ :: log => WaitsRight log

/-- What the pool guarantees. -/
structure PoolSafe (st : ClientState) : Prop where
  /-- A job enqueued is at one place: in the queue, with one worker, or finished. -/
  place : ∀ job, st.pool.jobs.count job + st.pool.inFlight.count job +
    (st.log.filterMap JobEvent.finished?).count job = if job < numEnqueued st.log then 1 else 0
  /-- The jobs that have been started are, in order, those that have left the queue. -/
  order : (st.log.filterMap JobEvent.started?).reverse ++ st.pool.jobs =
    List.range (numEnqueued st.log)
  /-- No job runs twice, and one that is finished has run. -/
  once : ∀ job, (st.log.filterMap JobEvent.ran?).count job ≤ 1 ∧
    (JobEvent.finished job ∈ st.log → job ∈ st.log.filterMap JobEvent.ran?)
  outstanding : st.pool.outstanding = st.pool.jobs.length + st.pool.inFlight.length
  waits : WaitsRight st.log
  /-- No exception is rethrown twice. -/
  rethrown : ∀ job, st.log.count (.waitRethrew job) ≤ 1
  /-- Unless the client is about to notify, the workers alone can run every job. -/
  drains : st.client ≠ .notify →
    ∃ st', Relation.ReflTransGen SomeWorkerMove st st' ∧ AllFinished st'.log ∧
      numEnqueued st'.log = numEnqueued st.log

/-! ## The workers of the decode pool -/

/-- The worker with the number of its job forgotten. -/
def JobWorker.forget : JobWorker → Worker
  | .ready => .ready
  | .asleep => .asleep
  | .running _ => .running ⟨0, 0⟩
  | .threw _ => .threw
  | .done _ => .done
  | .exited => .exited

/-- The pool with the numbers of the jobs forgotten. -/
def JobPool.forget (p : JobPool) : Pool where
  workers := p.workers.map JobWorker.forget
  jobs := p.jobs.map fun _ => ⟨0, 0⟩
  outstanding := p.outstanding
  terminate := p.terminate
  poll := p.poll
  firstError := p.firstError.isSome

/-- The client as a generating thread. -/
def Client.asMain : Client → MainThread
  | .idle => .head
  | .notify => .notify 0 0
  | .waiting => .waiting false
  | .blocked => .blocked false

@[simp] theorem Client.asMain_wake (c : Client) : c.wake.asMain = c.asMain.wake := by
  cases c <;> rfl

def ClientState.forget (st : ClientState) : PoolState := ⟨st.client.asMain, some st.pool.forget, []⟩

section Forget

variable {p : JobPool} {i : ℕ}

theorem forget_get {w : JobWorker} (h : p.workers[i]? = some w) :
    p.forget.workers[i]? = some w.forget := by
  simp [JobPool.forget, h]

theorem get_of_forget {w : Worker} (h : p.forget.workers[i]? = some w) :
    ∃ w', p.workers[i]? = some w' ∧ w'.forget = w := by
  simpa [JobPool.forget] using h

/-- Forgetting commutes with a worker's move. -/
theorem forget_move (p : JobPool) (i : ℕ) (w : JobWorker) (jobs : List ℕ) (outstanding : ℕ)
    (firstError : Option ℕ) :
    JobPool.forget { p.setWorker i w with
      jobs := jobs, outstanding := outstanding, firstError := firstError } =
    { p.forget.setWorker i w.forget with
      jobs := jobs.map fun _ => ⟨0, 0⟩, outstanding := outstanding
      firstError := firstError.isSome } := by
  simp [JobPool.forget, JobPool.setWorker, Pool.setWorker, List.map_set]

/-- The same threads and pool; the logs may differ. -/
def SamePool (st st' : PoolState) : Prop := st.main = st'.main ∧ st.pool = st'.pool

/-- A worker's move is a step of the decode pool's worker. -/
theorem WorkerMove.forget {st st' : ClientState} (h : WorkerMove i st st') :
    ∃ t, WorkerStep i st.forget t ∧ SamePool t st'.forget := by
  have hmove := fun p w jobs outstanding firstError =>
    congrArg some (forget_move p i w jobs outstanding firstError).symm
  cases h with
  | @take c p log job rest hw hj =>
    have hjobs : p.forget.jobs = ⟨0, 0⟩ :: rest.map fun _ => ⟨0, 0⟩ := by
      simp [JobPool.forget, hj]
    exact ⟨_, .take (forget_get hw) hjobs, rfl, hmove p (.running job) rest _ _⟩
  | spin hw hj ht hp =>
    exact ⟨_, .spin (forget_get hw) (by simp [JobPool.forget, hj]) ht hp, rfl, rfl⟩
  | @sleep c p log hw hj ht hp =>
    exact ⟨_, .sleep (forget_get hw) (by simp [JobPool.forget, hj]) ht hp, rfl,
      hmove p .asleep _ _ _⟩
  | @exit c p log hw hj ht =>
    exact ⟨_, .exit (forget_get hw) (by simp [JobPool.forget, hj]) ht, rfl, hmove p .exited _ _ _⟩
  | @wake c p log hw => exact ⟨_, .wake (forget_get hw), rfl, hmove p .ready _ _ _⟩
  | @complete c p log job hw =>
    exact ⟨_, .complete (forget_get hw), rfl, hmove p (.done job) _ _ _⟩
  | @fail c p log job hw => exact ⟨_, .fail (forget_get hw), rfl, hmove p (.threw job) _ _ _⟩
  | @store c p log job hw =>
    refine ⟨_, .store (forget_get hw), rfl, ?_⟩
    have herr : (p.firstError.or (some job)).isSome = true := by simp
    have h := hmove p (.done job) p.jobs p.outstanding (p.firstError.or (some job))
    rw [herr] at h
    exact h
  | @finish c p log job hw =>
    refine ⟨_, .finish (forget_get hw), ?_, hmove p .ready _ _ _⟩
    exact (apply_ite Client.asMain _ _ _ |>.trans (by rw [Client.asMain_wake]; rfl)).symm

/-- A step of the decode pool's worker is a worker's move. -/
theorem WorkerStep.lift {st : ClientState} {t t' : PoolState} (hsame : SamePool t st.forget)
    (h : WorkerStep i t t') : ∃ st', WorkerMove i st st' ∧ SamePool t' st'.forget := by
  have hmove := fun p w jobs outstanding firstError =>
    congrArg some (forget_move p i w jobs outstanding firstError).symm
  obtain ⟨c, p, log⟩ := st
  obtain ⟨main, pool, old⟩ := t
  obtain ⟨rfl, rfl⟩ := hsame
  have hnil : p.forget.jobs = [] → p.jobs = [] := by simp [JobPool.forget]
  cases h with
  | @take _ _ _ job rest hw hj =>
    obtain ⟨w, hw, hf⟩ := get_of_forget hw
    cases w <;> cases hf
    obtain ⟨j, js, hjobs, rfl, rfl⟩ := List.map_eq_cons_iff.mp hj
    exact ⟨_, .take hw hjobs, rfl, hmove p (.running j) js _ _⟩
  | spin hw hj ht hp =>
    obtain ⟨w, hw, hf⟩ := get_of_forget hw
    cases w <;> cases hf
    exact ⟨_, .spin hw (hnil hj) ht hp, rfl, rfl⟩
  | sleep hw hj ht hp =>
    obtain ⟨w, hw, hf⟩ := get_of_forget hw
    cases w <;> cases hf
    exact ⟨_, .sleep hw (hnil hj) ht hp, rfl, hmove p .asleep _ _ _⟩
  | exit hw hj ht =>
    obtain ⟨w, hw, hf⟩ := get_of_forget hw
    cases w <;> cases hf
    exact ⟨_, .exit hw (hnil hj) ht, rfl, hmove p .exited _ _ _⟩
  | wake hw =>
    obtain ⟨w, hw, hf⟩ := get_of_forget hw
    cases w <;> cases hf
    exact ⟨_, .wake hw, rfl, hmove p .ready _ _ _⟩
  | complete hw =>
    obtain ⟨w, hw, hf⟩ := get_of_forget hw
    cases w with
    | running job => exact ⟨_, .complete hw, rfl, hmove p (.done job) _ _ _⟩
    | _ => cases hf
  | fail hw =>
    obtain ⟨w, hw, hf⟩ := get_of_forget hw
    cases w with
    | running job => exact ⟨_, .fail hw, rfl, hmove p (.threw job) _ _ _⟩
    | _ => cases hf
  | store hw =>
    obtain ⟨w, hw, hf⟩ := get_of_forget hw
    cases w with
    | threw job =>
      refine ⟨_, .store hw, rfl, ?_⟩
      have herr : (p.firstError.or (some job)).isSome = true := by simp
      have h := hmove p (.done job) p.jobs p.outstanding (p.firstError.or (some job))
      rw [herr] at h
      exact h
    | _ => cases hf
  | finish hw =>
    obtain ⟨w, hw, hf⟩ := get_of_forget hw
    cases w with
    | done job =>
      refine ⟨_, .finish hw, ?_, hmove p .ready _ _ _⟩
      exact (apply_ite Client.asMain _ _ _ |>.trans (by rw [Client.asMain_wake]; rfl)).symm
    | _ => cases hf

end Forget

/-! ## What the log and the pool agree on -/

theorem sinceWait_cons {e : JobEvent} {log : List JobEvent} (h : e.endsWait = false) :
    sinceWait (e :: log) = e :: sinceWait log := by
  simp [sinceWait, h]

theorem sinceWait_endsWait {e : JobEvent} {log : List JobEvent} (h : e.endsWait = true) :
    sinceWait (e :: log) = [] := by
  simp [sinceWait, h]

/-- One if `o` is the job, else zero. -/
def hit (o : Option ℕ) (job : ℕ) : ℕ := if o = some job then 1 else 0

theorem count_filterMap_cons {α : Type} (f : α → Option ℕ) (a : α) (l : List α) (job : ℕ) :
    ((a :: l).filterMap f).count job = (l.filterMap f).count job + hit (f a) job := by
  unfold hit
  rw [List.filterMap_cons]
  cases f a with
  | none => simp
  | some j => simp [List.count_cons]

/-- How many entries have a job in the sense of `f`, after one of them has been replaced. -/
theorem count_filterMap_set {α : Type} (f : α → Option ℕ) {a : α} (b : α) (job : ℕ) :
    ∀ (l : List α) (i : ℕ), l[i]? = some a →
      ((l.set i b).filterMap f).count job + hit (f a) job =
        (l.filterMap f).count job + hit (f b) job := by
  intro l
  induction l with
  | nil => intro i h; cases h
  | cons v l ih =>
    intro i h
    cases i with
    | zero =>
      obtain rfl : v = a := by simpa using h
      rw [List.set_cons_zero, count_filterMap_cons, count_filterMap_cons]
      omega
    | succ i =>
      have := ih i (by simpa using h)
      rw [List.set_cons_succ, count_filterMap_cons, count_filterMap_cons]
      omega

/-- What the log says of the jobs. -/
structure Booked (p : JobPool) (log : List JobEvent) : Prop where
  place : ∀ job, p.jobs.count job + p.inFlight.count job +
    (log.filterMap JobEvent.finished?).count job = if job < numEnqueued log then 1 else 0
  order : (log.filterMap JobEvent.started?).reverse ++ p.jobs = List.range (numEnqueued log)
  ran : ∀ job, (log.filterMap JobEvent.ran?).count job =
    (p.workers.filterMap JobWorker.ran?).count job + (log.filterMap JobEvent.finished?).count job
  threw : ∀ job, ((sinceWait log).filterMap JobEvent.threw?).count job =
    (p.workers.filterMap JobWorker.threw?).count job +
      ((sinceWait log).filterMap JobEvent.recorded?).count job
  recorded : ∀ job, (log.filterMap JobEvent.recorded?).count job +
    (p.workers.filterMap JobWorker.threw?).count job ≤ (log.filterMap JobEvent.ran?).count job
  rethrown : ∀ job, log.count (.waitRethrew job) +
    ((sinceWait log).filterMap JobEvent.recorded?).count job ≤
      (log.filterMap JobEvent.recorded?).count job
  first : p.firstError = firstRecorded log
  waits : WaitsRight log

section Booked

variable {p : JobPool} {log : List JobEvent}

/-- The first recorded exception, after an event that ends no wait. -/
theorem firstRecorded_cons {e : JobEvent} (h : e.endsWait = false) :
    firstRecorded (e :: log) = (firstRecorded log).or e.recorded? := by
  unfold firstRecorded
  rw [sinceWait_cons h, List.filterMap_cons]
  cases e.recorded? with
  | none => simp
  | some j =>
    cases hl : (sinceWait log).filterMap JobEvent.recorded? with
    | nil => rfl
    | cons k l => simp [List.getLast?_cons]

/-- Worker `i` moves on, and the event says so. -/
theorem Booked.move {i : ℕ} {w w' : JobWorker} {jobs : List ℕ} {outstanding : ℕ}
    {firstError : Option ℕ} (h : Booked p log) (hw : p.workers[i]? = some w) (e : JobEvent)
    (henq : e.enqueued? = none) (hwait : e.endsWait = false)
    (hplace : ∀ job, jobs.count job + hit w'.job? job + hit e.finished? job =
      p.jobs.count job + hit w.job? job)
    (horder : e.started?.toList ++ jobs = p.jobs)
    (hran : ∀ job, hit e.ran? job + hit w.ran? job = hit w'.ran? job + hit e.finished? job)
    (hthrew : ∀ job, hit e.threw? job + hit w.threw? job = hit w'.threw? job + hit e.recorded? job)
    (hrec : ∀ job, hit e.recorded? job + hit w'.threw? job ≤ hit w.threw? job + hit e.ran? job)
    (hfirst : firstError = p.firstError.or e.recorded?) (hok : WaitsRight (e :: log)) :
    Booked { p.setWorker i w' with
      jobs := jobs, outstanding := outstanding, firstError := firstError } (e :: log) := by
  have hset := fun f job => count_filterMap_set f w' job p.workers i hw
  have hn : numEnqueued (e :: log) = numEnqueued log := by
    unfold numEnqueued
    rw [List.filterMap_cons, henq]
  refine ⟨fun job => ?_, ?_, fun job => ?_, fun job => ?_, fun job => ?_, fun job => ?_, ?_, hok⟩
  · have := h.place job
    have := hset JobWorker.job? job
    have := hplace job
    rw [hn, count_filterMap_cons]
    show jobs.count job + ((p.workers.set i w').filterMap JobWorker.job?).count job + _ = _
    unfold JobPool.inFlight at *
    omega
  · rw [hn, ← h.order, ← horder, List.filterMap_cons]
    cases e.started? <;> simp
  · have := h.ran job
    have := hset JobWorker.ran? job
    have := hran job
    rw [count_filterMap_cons, count_filterMap_cons]
    show _ = ((p.workers.set i w').filterMap JobWorker.ran?).count job + _
    omega
  · have := h.threw job
    have := hset JobWorker.threw? job
    have := hthrew job
    rw [sinceWait_cons hwait, count_filterMap_cons, count_filterMap_cons]
    show _ = ((p.workers.set i w').filterMap JobWorker.threw?).count job + _
    omega
  · have := h.recorded job
    have := hset JobWorker.threw? job
    have := hrec job
    rw [count_filterMap_cons, count_filterMap_cons]
    show _ + ((p.workers.set i w').filterMap JobWorker.threw?).count job ≤ _
    omega
  · have := h.rethrown job
    have hne : e ≠ .waitRethrew job := by
      rintro rfl
      cases hwait
    rw [sinceWait_cons hwait, count_filterMap_cons, count_filterMap_cons, List.count_cons_of_ne hne]
    omega
  · rw [firstRecorded_cons hwait, ← h.first]
    exact hfirst

/-- Worker `i` moves between two points where it has no job. -/
theorem Booked.quiet {i : ℕ} {w w' : JobWorker} (h : Booked p log) (hw : p.workers[i]? = some w)
    (hf : ∀ f ∈ [JobWorker.job?, JobWorker.ran?, JobWorker.threw?], f w = f w') :
    Booked (p.setWorker i w') log := by
  have hset : ∀ f ∈ [JobWorker.job?, JobWorker.ran?, JobWorker.threw?], ∀ job,
      ((p.setWorker i w').workers.filterMap f).count job = (p.workers.filterMap f).count job := by
    intro f hmem job
    have := count_filterMap_set f w' job p.workers i hw
    rw [hf f hmem] at this
    exact Nat.add_right_cancel this
  refine ⟨fun job => ?_, h.order, fun job => ?_, fun job => ?_, fun job => ?_, h.rethrown, h.first,
    h.waits⟩
  · rw [← h.place job]
    unfold JobPool.inFlight
    rw [hset _ (by simp)]
    rfl
  · rw [hset _ (by simp), h.ran]
  · rw [hset _ (by simp), h.threw]
  · rw [hset _ (by simp)]
    exact h.recorded job

/-- A worker's move keeps the books. -/
theorem Booked.worker {i : ℕ} {c c' : Client} {p' : JobPool} {log' : List JobEvent}
    (h : Booked p log) (hs : WorkerMove i ⟨c, p, log⟩ ⟨c', p', log'⟩) : Booked p' log' := by
  cases hs with
  | take hw hj =>
    refine h.move hw _ rfl rfl (fun job => ?_) (by rw [hj]; rfl) (fun _ => rfl) (fun _ => rfl)
      (fun _ => le_rfl) (by simp [JobEvent.recorded?, JobPool.setWorker]) h.waits
    rw [hj, List.count_cons]
    simp [hit, JobWorker.job?, JobEvent.finished?]
  | spin => exact h
  | sleep hw => exact h.quiet hw (by simp [JobWorker.job?, JobWorker.ran?, JobWorker.threw?])
  | exit hw => exact h.quiet hw (by simp [JobWorker.job?, JobWorker.ran?, JobWorker.threw?])
  | wake hw => exact h.quiet hw (by simp [JobWorker.job?, JobWorker.ran?, JobWorker.threw?])
  | @complete _ _ _ job hw =>
    exact h.move hw (.returned job) rfl rfl (fun _ => rfl) rfl (fun _ => rfl) (fun _ => rfl)
      (fun _ => Nat.zero_le _) (by simp [JobEvent.recorded?]) h.waits
  | @fail _ _ _ job hw =>
    exact h.move hw (.threw job) rfl rfl (fun _ => rfl) rfl (fun _ => rfl) (fun _ => rfl)
      (fun _ => by simp [hit, JobEvent.recorded?, JobWorker.threw?, JobEvent.ran?])
      (by simp [JobEvent.recorded?]) h.waits
  | @store _ _ _ job hw =>
    exact h.move hw (.recorded job) rfl rfl (fun _ => rfl) rfl (fun _ => Nat.add_comm _ _)
      (fun _ => rfl) (fun _ => le_rfl) rfl h.waits
  | @finish _ _ _ job hw =>
    exact h.move hw (.finished job) rfl rfl
      (fun _ => by simp [hit, JobPool.setWorker, JobWorker.job?, JobEvent.finished?]) rfl
      (fun _ => by simp [hit, JobWorker.ran?, JobEvent.ran?, JobEvent.finished?])
      (fun _ => rfl) (fun _ => Nat.zero_le _)
      (by simp [JobEvent.recorded?, JobPool.setWorker]) h.waits

/-- With nothing outstanding, no worker has a job. -/
theorem no_jobs (hcount : p.outstanding = p.jobs.length + p.forget.workers.countP Worker.busy)
    (hzero : p.outstanding = 0) : p.jobs = [] ∧ ∀ f ∈ [JobWorker.job?, JobWorker.ran?,
      JobWorker.threw?], p.workers.filterMap f = [] := by
  have hidle : ∀ w ∈ p.workers, w.forget.busy = false := by
    intro w hw
    have hmem : w.forget ∈ p.forget.workers := List.mem_map_of_mem hw
    have hnone : p.forget.workers.countP Worker.busy = 0 := by omega
    simpa using List.countP_eq_zero.mp hnone _ hmem
  refine ⟨List.length_eq_zero_iff.mp (by omega), fun f hf => ?_⟩
  apply List.filterMap_eq_nil_iff.mpr
  intro w hw
  have hw := hidle w hw
  have hf : f = JobWorker.job? ∨ f = JobWorker.ran? ∨ f = JobWorker.threw? := by simpa using hf
  rcases hf with rfl | rfl | rfl <;> cases w <;> first | rfl | cases hw

theorem inFlight_length (p : JobPool) :
    p.inFlight.length = p.forget.workers.countP Worker.busy := by
  unfold JobPool.inFlight JobPool.forget
  rw [List.length_filterMap_eq_countP, List.countP_map]
  congr 1
  funext w
  cases w <;> rfl

/-- With nothing outstanding, every job is finished. -/
theorem Booked.allFinished (h : Booked p log)
    (hcount : p.outstanding = p.jobs.length + p.forget.workers.countP Worker.busy)
    (hzero : p.outstanding = 0) : AllFinished log := by
  intro job hjob
  obtain ⟨hjobs, hnone⟩ := no_jobs hcount hzero
  have hplace := h.place job
  unfold JobPool.inFlight at hplace
  rw [hjobs, hnone _ (by simp), if_pos hjob] at hplace
  have hmem : job ∈ log.filterMap JobEvent.finished? :=
    List.count_pos_iff.mp (by simp only [List.count_nil] at hplace; omega)
  obtain ⟨e, he, hfin⟩ := List.mem_filterMap.mp hmem
  cases e <;> cases hfin
  exact he

/-- A job is put into the queue. -/
theorem Booked.enqueue (h : Booked p log) :
    Booked (p.push (numEnqueued log)) (.enqueued (numEnqueued log) :: log) := by
  have hn : numEnqueued (.enqueued (numEnqueued log) :: log) = numEnqueued log + 1 := rfl
  refine ⟨fun job => ?_, ?_, h.ran, fun job => ?_, h.recorded, fun job => ?_, ?_, h.waits⟩
  · have := h.place job
    rw [hn, count_filterMap_cons]
    show (p.jobs ++ [numEnqueued log]).count job + p.inFlight.count job + _ = _
    have hlast : ([numEnqueued log] : List ℕ).count job =
        if numEnqueued log = job then 1 else 0 := by
      rw [List.count_singleton]
      simp only [beq_iff_eq]
    have hhit : hit (JobEvent.enqueued (numEnqueued log)).finished? job = 0 := rfl
    rw [List.count_append, hlast, hhit]
    split_ifs at this ⊢ <;> omega
  · rw [hn, List.range_succ, ← h.order]
    exact (List.append_assoc ..).symm
  · rw [sinceWait_cons rfl]
    exact h.threw job
  · rw [sinceWait_cons rfl, List.count_cons_of_ne (by simp)]
    exact h.rethrown job
  · rw [firstRecorded_cons rfl, ← h.first]
    show p.firstError = p.firstError.or none
    simp

section Wait

variable (h : Booked p log)
  (hcount : p.outstanding = p.jobs.length + p.forget.workers.countP Worker.busy)
  (hzero : p.outstanding = 0)

include h hcount hzero

/-- At the end of a wait the exceptions recorded since the last one are those thrown. -/
theorem Booked.mem_threw_iff (job : ℕ) : job ∈ (sinceWait log).filterMap JobEvent.threw? ↔
    job ∈ (sinceWait log).filterMap JobEvent.recorded? := by
  have hthrew := h.threw job
  rw [(no_jobs hcount hzero).2 _ (by simp), List.count_nil, Nat.zero_add] at hthrew
  rw [← List.count_pos_iff, ← List.count_pos_iff, hthrew]

/-- A wait ends by an exception. -/
theorem Booked.rethrow {job : ℕ} (he : p.firstError = some job) :
    Booked { p with firstError := none } (.waitRethrew job :: log) := by
  have hfirst : firstRecorded log = some job := h.first ▸ he
  have hmem : job ∈ (sinceWait log).filterMap JobEvent.recorded? := List.mem_of_getLast? hfirst
  have hsince : sinceWait (.waitRethrew job :: log) = [] := sinceWait_endsWait rfl
  refine ⟨h.place, h.order, h.ran, fun j => ?_, h.recorded, fun j => ?_, ?_,
    ⟨⟨h.allFinished hcount hzero, (h.mem_threw_iff hcount hzero job).mpr hmem, hfirst⟩, h.waits⟩⟩
  · rw [hsince, (no_jobs hcount hzero).2 _ (by simp)]
    rfl
  · have hle := h.rethrown j
    have hpos := List.count_pos_iff.mpr hmem
    rw [hsince, List.count_cons]
    by_cases hj : j = job
    · subst hj
      simp only [List.filterMap_nil, List.count_nil, beq_self_eq_true, if_true]
      show _ ≤ (log.filterMap JobEvent.recorded?).count j
      omega
    · have hne : (JobEvent.waitRethrew job == JobEvent.waitRethrew j) = false := by
        simpa using fun heq : job = j => hj heq.symm
      rw [hne]
      show log.count (.waitRethrew j) + 0 + 0 ≤ (log.filterMap JobEvent.recorded?).count j
      omega
  · unfold firstRecorded
    rw [hsince]
    rfl

/-- A wait returns. -/
theorem Booked.waited (he : p.firstError = none) : Booked p (.waitReturned :: log) := by
  have hfirst : firstRecorded log = none := h.first ▸ he
  have hrec : (sinceWait log).filterMap JobEvent.recorded? = [] :=
    List.getLast?_eq_none_iff.mp hfirst
  have hsince : sinceWait (.waitReturned :: log) = [] := sinceWait_endsWait rfl
  have hnone : (sinceWait log).filterMap JobEvent.threw? = [] := by
    apply List.eq_nil_iff_forall_not_mem.mpr
    intro job hjob
    rw [h.mem_threw_iff hcount hzero, hrec] at hjob
    cases hjob
  refine ⟨h.place, h.order, h.ran, fun j => ?_, h.recorded, fun j => ?_, ?_,
    ⟨⟨h.allFinished hcount hzero, hnone⟩, h.waits⟩⟩
  · rw [hsince, (no_jobs hcount hzero).2 _ (by simp)]
    rfl
  · have hle := h.rethrown j
    rw [hsince, List.count_cons_of_ne (by simp)]
    show log.count (.waitRethrew j) + 0 ≤ (log.filterMap JobEvent.recorded?).count j
    omega
  · unfold firstRecorded
    rw [hsince]
    exact he

end Wait

/-- The client's move keeps the books. -/
theorem Booked.client {c c' : Client} {p' : JobPool} {log' : List JobEvent} (h : Booked p log)
    (hcount : p.outstanding = p.jobs.length + p.forget.workers.countP Worker.busy)
    (hs : ClientMove ⟨c, p, log⟩ ⟨c', p', log'⟩) : Booked p' log' := by
  cases hs with
  | enqueue => exact h.enqueue
  | notifyOne i hw => exact h.quiet hw (by simp [JobWorker.job?, JobWorker.ran?, JobWorker.threw?])
  | notifyNone hw => exact h
  | wait => exact h
  | block hne => exact h
  | wake => exact h
  | rethrow hzero he => exact h.rethrow hcount hzero he
  | waited hzero he => exact h.waited hcount hzero he

end Booked

/-! ## Runs -/

/-- What holds in every reachable state. -/
structure ClientInv (nWorkers : ℕ) (st : ClientState) : Prop where
  pool : PoolInv nWorkers st.client.asMain st.pool.forget
  booked : Booked st.pool st.log

theorem Client.asMain_notify {c : Client} (h : c ≠ .notify) (off s : ℕ) :
    c.asMain ≠ .notify off s := by
  cases c <;> simp_all [Client.asMain]

theorem ClientInv.count {nWorkers : ℕ} {st : ClientState} (h : ClientInv nWorkers st) :
    st.pool.outstanding = st.pool.jobs.length + st.pool.forget.workers.countP Worker.busy := by
  have hcount := h.pool.count
  rwa [show st.pool.forget.jobs.length = st.pool.jobs.length from List.length_map ..] at hcount

theorem ClientInv.worker {nWorkers i : ℕ} {st st' : ClientState} (h : ClientInv nWorkers st)
    (hs : WorkerMove i st st') : ClientInv nWorkers st' := by
  obtain ⟨⟨main, pool, log⟩, hstep, hmain, hpool⟩ := hs.forget
  obtain rfl : main = _ := hmain
  obtain rfl : pool = _ := hpool
  exact ⟨h.pool.worker hstep, h.booked.worker hs⟩

theorem ClientInv.client {nWorkers : ℕ} (hn : 0 < nWorkers) {st st' : ClientState}
    (h : ClientInv nWorkers st) (hs : ClientMove st st') : ClientInv nWorkers st' := by
  refine ⟨?_, h.booked.client h.count hs⟩
  have hpool := h.pool
  cases hs with
  | @enqueue p log =>
    have hpush : (p.push (numEnqueued log)).forget = p.forget.push ⟨0, 0⟩ := by
      simp [JobPool.forget, JobPool.push, Pool.push]
    show PoolInv nWorkers (.notify 0 0) (p.push (numEnqueued log)).forget
    rw [hpush]
    have hexec := hpool.elsewhere (by simp [Client.asMain]) (.executed 0 0)
    have hstep : MainStep 1 ⟨.executed 0 0, some p.forget, []⟩
        ⟨.notify 0 0, some (p.forget.push ⟨0, 0⟩), []⟩ := .enqueue
    exact hexec.mainStep hn hstep
  | @notifyOne p log i hw =>
    show PoolInv nWorkers .head (p.setWorker i .ready).forget
    rw [show (p.setWorker i .ready).forget = p.forget.setWorker i .ready from
      forget_move p i .ready _ _ _]
    have hstep : MainStep 1 ⟨.notify 0 0, some p.forget, []⟩
        ⟨.head, some (p.forget.setWorker i .ready), []⟩ := .notifyOne i (forget_get hw)
    exact hpool.mainStep hn hstep
  | @notifyNone p log hw =>
    have hnone : Worker.asleep ∉ p.forget.workers := by
      intro hmem
      obtain ⟨w, hw', hf⟩ := List.mem_map.mp hmem
      cases w <;> cases hf
      exact hw hw'
    have hstep : MainStep 1 ⟨.notify 0 0, some p.forget, []⟩ ⟨.head, some p.forget, []⟩ :=
      .notifyNone hnone
    exact hpool.mainStep hn hstep
  | wait => exact hpool.elsewhere (by simp [Client.asMain]) _
  | block hne => exact hpool.elsewhere (by simp [Client.asMain]) _
  | wake => exact hpool.elsewhere (by simp [Client.asMain]) _
  | @rethrow p log job hzero he =>
    have := hpool.elsewhere (by simp [Client.asMain]) .head
    exact ⟨this.size, this.running, this.alive, this.count, this.awake⟩
  | waited hzero he => exact hpool.elsewhere (by simp [Client.asMain]) _

theorem ClientReachable.inv {nWorkers : ℕ} {poll : Bool} (hn : 0 < nWorkers) {st : ClientState}
    (h : ClientReachable nWorkers poll st) : ClientInv nWorkers st := by
  induction h with
  | refl =>
    have hnone : ∀ f : JobWorker → Option ℕ, f .ready = none →
        (JobPool.start nWorkers poll).workers.filterMap f = [] := by
      intro f hf
      apply List.filterMap_eq_nil_iff.mpr
      intro w hw
      rw [List.eq_of_mem_replicate hw, hf]
    refine ⟨⟨?_, rfl, ?_, ?_, fun hj => absurd rfl hj⟩, fun job => ?_, rfl, fun job => ?_,
      fun job => ?_, fun job => ?_, fun _ => le_rfl, rfl, trivial⟩
    · simp [JobPool.forget, JobPool.start]
    · simp [JobPool.forget, JobPool.start, JobWorker.forget]
    · simp [JobPool.forget, JobPool.start, JobWorker.forget, List.countP_replicate, Worker.busy]
    · unfold JobPool.inFlight
      rw [hnone _ rfl]
      rfl
    · rw [hnone _ rfl]
      rfl
    · rw [hnone _ rfl]
      rfl
    · rw [hnone _ rfl]
      exact le_rfl
  | tail _ hstep ih =>
    rcases hstep with hs | ⟨i, hs⟩
    · exact ih.client hn hs
    · exact ih.worker hs

/-! ## The workers run every job -/

/-- What a worker's move leaves of the client's side. -/
theorem WorkerMove.kept {i : ℕ} {st st' : ClientState} (h : WorkerMove i st st') :
    numEnqueued st'.log = numEnqueued st.log ∧ (st.client ≠ .notify → st'.client ≠ .notify) := by
  cases h with
  | @finish c p log job hw =>
    refine ⟨rfl, fun hne => ?_⟩
    show (if p.outstanding - 1 = 0 then c.wake else c) ≠ .notify
    split_ifs
    · cases c <;> simp_all [Client.wake]
    · exact hne
  | _ => exact ⟨rfl, id⟩

/-- A run of the decode pool's workers is one of ours. -/
theorem lift_run {st : ClientState} {t t' : PoolState} (hsame : SamePool t st.forget)
    (h : Relation.ReflTransGen SomeWorkerStep t t') :
    ∃ st', Relation.ReflTransGen SomeWorkerMove st st' ∧ SamePool t' st'.forget := by
  induction h with
  | refl => exact ⟨st, .refl, hsame⟩
  | tail _ hstep ih =>
    obtain ⟨st', hrun, hsame'⟩ := ih
    obtain ⟨i, hi⟩ := hstep
    obtain ⟨st'', hmove, hsame''⟩ := hi.lift hsame'
    exact ⟨st'', hrun.tail ⟨i, hmove⟩, hsame''⟩

theorem outstanding_of_same {st : ClientState} {t : PoolState} (h : SamePool t st.forget) :
    t.outstanding = st.pool.outstanding := by
  unfold PoolState.outstanding
  rw [h.2]
  rfl

/-- The invariant and the client's side, over a run of the workers. -/
theorem workers_kept {nWorkers : ℕ} {st st' : ClientState} (hinv : ClientInv nWorkers st)
    (hne : st.client ≠ .notify) (h : Relation.ReflTransGen SomeWorkerMove st st') :
    ClientInv nWorkers st' ∧ st'.client ≠ .notify ∧ numEnqueued st'.log = numEnqueued st.log := by
  induction h with
  | refl => exact ⟨hinv, hne, rfl⟩
  | tail _ hstep ih =>
    obtain ⟨hinv', hne', hn'⟩ := ih
    obtain ⟨i, hi⟩ := hstep
    exact ⟨hinv'.worker hi, hi.kept.2 hne', hi.kept.1.trans hn'⟩

/-- The workers alone can finish every job. -/
theorem ClientInv.drains {nWorkers : ℕ} : ∀ (k : ℕ) {st : ClientState}, st.pool.outstanding = k →
    ClientInv nWorkers st → st.client ≠ .notify →
      ∃ st', Relation.ReflTransGen SomeWorkerMove st st' ∧ st'.pool.outstanding = 0 := by
  intro k
  induction k using Nat.strong_induction_on with
  | h k ih =>
    intro st hk hinv hne
    by_cases hzero : st.pool.outstanding = 0
    · exact ⟨st, .refl, hzero⟩
    · have hpos : 0 < st.pool.forget.outstanding := Nat.pos_of_ne_zero hzero
      obtain ⟨i, hi⟩ := hinv.pool.serves (Client.asMain_notify hne) hpos []
      obtain ⟨t, hrun, hlt⟩ := hi.decreases hpos
      obtain ⟨st', hrun', hsame⟩ := lift_run ⟨rfl, rfl⟩ hrun
      obtain ⟨hinv', hne', -⟩ := workers_kept hinv hne hrun'
      rw [outstanding_of_same hsame] at hlt
      have hlt : st'.pool.outstanding < k := hk ▸ hlt
      obtain ⟨st'', hrun'', hzero''⟩ := ih _ hlt rfl hinv' hne'
      exact ⟨st'', hrun'.trans hrun'', hzero''⟩

theorem mem_finished {log : List JobEvent} {job : ℕ} (h : JobEvent.finished job ∈ log) :
    job ∈ log.filterMap JobEvent.finished? :=
  List.mem_filterMap.mpr ⟨_, h, rfl⟩

/-- No job has been counted off or run twice. -/
theorem ClientInv.ran_le {nWorkers : ℕ} {st : ClientState} (h : ClientInv nWorkers st) (job : ℕ) :
    (st.log.filterMap JobEvent.ran?).count job ≤ 1 := by
  have hplace := h.booked.place job
  have hran := h.booked.ran job
  -- a worker that has run a job still has it
  have hle : (st.pool.workers.filterMap JobWorker.ran?).count job ≤
      st.pool.inFlight.count job := by
    unfold JobPool.inFlight
    generalize st.pool.workers = l
    induction l with
    | nil => exact le_rfl
    | cons w l ih =>
      rw [count_filterMap_cons, count_filterMap_cons]
      have : hit w.ran? job ≤ hit w.job? job := by
        cases w <;> first | exact le_rfl | exact Nat.zero_le _
      omega
  split_ifs at hplace <;> omega

/-- **What the pool guarantees its client.** For any number of workers from one on, in either
wake-up mode, whatever the client enqueues and however the threads interleave: every job runs once,
`outstanding_` counts the jobs queued or being executed, a `wait` ends only when every earlier job
has finished, and it rethrows exactly the first exception recorded since the last one. -/
theorem ClientReachable.poolSafe {nWorkers : ℕ} {poll : Bool} (hn : 0 < nWorkers) {st : ClientState}
    (h : ClientReachable nWorkers poll st) : PoolSafe st := by
  have hinv := h.inv hn
  have hbooked := hinv.booked
  refine ⟨hbooked.place, hbooked.order, fun job => ⟨hinv.ran_le job, fun hfin => ?_⟩, ?_,
    hbooked.waits, fun job => ?_, fun hne => ?_⟩
  · have hpos := List.count_pos_iff.mpr (mem_finished hfin)
    have := hbooked.ran job
    exact List.count_pos_iff.mp (by omega)
  · rw [hinv.count, inFlight_length]
  · have := hbooked.rethrown job
    have := hbooked.recorded job
    have := hinv.ran_le job
    omega
  · obtain ⟨st', hrun, hzero⟩ := ClientInv.drains _ rfl hinv hne
    obtain ⟨hinv', -, hsame⟩ := workers_kept hinv hne hrun
    exact ⟨st', hrun, hinv'.booked.allFinished hinv'.count hzero, hsame⟩

/-- One worker in polling mode, and one job, which throws. -/
theorem safe_after_rethrow : ∃ st, ClientReachable 1 true st ∧ st.log = [.waitRethrew 0,
    .finished 0, .recorded 0, .threw 0, .started 0, .enqueued 0] ∧ PoolSafe st := by
  have h : ClientReachable 1 true ⟨.notify, (JobPool.start 1 true).push 0, [.enqueued 0]⟩ :=
    .single (Or.inl .enqueue)
  have h := h.tail (Or.inl (.notifyNone (by decide)))
  have h := h.tail (Or.inr ⟨0, .take rfl rfl⟩)
  have h := h.tail (Or.inr ⟨0, .fail rfl⟩)
  have h := h.tail (Or.inr ⟨0, .store rfl⟩)
  have h := h.tail (Or.inr ⟨0, .finish rfl⟩)
  have h := (h.tail (Or.inl .wait)).tail (Or.inl (.rethrow rfl rfl))
  exact ⟨_, h, rfl, ClientReachable.poolSafe Nat.one_pos h⟩

end Geniex
