import InterProcess.Library.Run
import InterProcess.Library.Table
import InterProcess.Runner.Operations
import InterProcess.Runner.Ticket
import Mathlib.Tactic.Simps.Basic

/-!
# The thread pool of `AlgoRunnerIpml`

The state shared by the workers and by the threads that call `run`, `get` and
`deinit`, together with the program point of each thread. A step is one atomic
access of `running`, one operation on `qMtx` or `qCv`, or one critical section
of `jobsMtx` or of a job's own mutex `m`: whatever those two protect is touched
under them only, so such a section is a single step, and the wait on `cv` is the
end of one.

Every choice that the program does not make itself is in the label: which thread
moves, the reading of the steady clock, which waiters a signal unblocks, and how
a timed wait returns. A step of a thread blocked in a wait is a spurious wakeup
or, for a timed wait, the timeout.

The log is not part of the program. It records what happened, for statements
about whole runs.
-/

namespace InterProcess

open Transition

/-- A `std::shared_ptr<Job>`: the position of the job in the order of
allocation. -/
abbrev JobRef := ℕ

structure Job where
  id : UInt64 := 0
  req : SubmitRequest := {}
  status : Status := .stNotFinished
  result : Result := {}
  done : Bool := false
  deriving DecidableEq, Repr

/-- Where a worker is in `workerLoop`. -/
inductive WorkerPc where
  /-- at `while (running.load())` -/
  | loopTest
  /-- at `pthread_mutex_lock(&qMtx)` -/
  | lock
  /-- at `while (running.load() && jobQueue.empty())` -/
  | waitTest
  /-- about to call `pthread_cond_wait`, the predicate having been true -/
  | enterWait
  /-- blocked on `qCv`, with `qMtx` released -/
  | blocked
  /-- woken, and waiting to own `qMtx` again -/
  | woken
  /-- at `if (running.load() == false && jobQueue.empty())` -/
  | exitTest
  /-- computing the job it took -/
  | evaluate (job : JobRef)
  /-- about to publish under `job->m` -/
  | publish (job : JobRef) (status : Status) (result : Result)
  /-- at `pthread_cond_broadcast(&job->cv)` -/
  | notify (job : JobRef)
  | exited
  deriving DecidableEq, Repr

/-- Where a thread is that may call `run`, `get` and `deinit`. -/
inductive CallerPc where
  | idle
  /-- entering `run` -/
  | run (request : SubmitRequest)
  /-- in `enqueue`, at `jobs[id] = job` -/
  | insert (request : SubmitRequest) (id : UInt64) (job : JobRef)
  /-- in `enqueue`, at `pthread_mutex_lock(&qMtx)` -/
  | lockQueue (request : SubmitRequest) (id : UInt64) (job : JobRef)
  /-- in `enqueue`, at `jobQueue.emplace_back` -/
  | push (request : SubmitRequest) (id : UInt64) (job : JobRef)
  /-- in `enqueue`, at `pthread_cond_signal(&qCv)` -/
  | signal (request : SubmitRequest) (id : UInt64) (job : JobRef)
  /-- `run` returns -/
  | ran (request : SubmitRequest) (response : SubmitResponse)
  /-- entering `get`, at `findJobById` -/
  | find (request : GetRequest)
  /-- in the `NO_WAIT` branch, at `pthread_mutex_lock(&job->m)` -/
  | noWait (request : GetRequest) (job : JobRef)
  /-- in the `WAIT_UP_TO` branch, about to test `job->done` under `job->m` -/
  | waitUpTo (request : GetRequest) (job : JobRef) (timeout : Bool)
  /-- blocked on `job->cv`, not notified -/
  | cvBlocked (request : GetRequest) (job : JobRef)
  /-- notified, not yet returned from `pthread_cond_timedwait` -/
  | cvNotified (request : GetRequest) (job : JobRef)
  /-- at `jobs.erase(id)` -/
  | erase (request : GetRequest) (response : GetResponse)
  /-- `get` returns -/
  | got (request : GetRequest) (response : GetResponse)
  /-- entering `deinit`, at `running.load() == false` -/
  | stopTest
  /-- at `running.store(false)` -/
  | stopStore
  /-- at `pthread_cond_broadcast(&qCv)` -/
  | stopBroadcast
  /-- at `pthread_join` of the given worker -/
  | join (worker : ℕ)
  /-- `deinit` returns -/
  | stopped
  deriving DecidableEq, Repr

/-- The thread that owns a mutex. -/
inductive Owner where
  | worker (i : ℕ)
  | caller (c : ℕ)
  deriving DecidableEq, Repr

/-- What the log records. -/
inductive Event where
  /-- `enqueue` made the next job with this reading of the steady clock -/
  | enqueued (reading : UInt64)
  | pushed (job : JobRef)
  | taken (worker : ℕ) (job : JobRef)
  | evaluated (worker : ℕ) (job : JobRef)
  | published (job : JobRef)
  | ran (caller : ℕ) (request : SubmitRequest) (response : SubmitResponse)
  | got (caller : ℕ) (request : GetRequest) (response : GetResponse)
  deriving DecidableEq, Repr

/-- The state of `AlgoRunnerIpml` and of its threads. -/
structure Pool where
  running : Bool := false
  qMtx : Option Owner := none
  jobQueue : List JobRef := []
  /-- every job allocated so far -/
  heap : List Job := []
  jobs : Table UInt64 JobRef := Table.empty
  seq : UInt64 := 0
  workers : List WorkerPc := []
  callers : ℕ → CallerPc := fun _ => .idle
  /-- an undefined division raised a signal: the process is gone -/
  trapped : Bool := false
  log : List Event := []

/-- What the environment decides in a step of a calling thread. -/
structure Choice where
  /-- what `steady_clock::now` returns, in nanoseconds -/
  reading : UInt64 := 0
  /-- the waiters `pthread_cond_signal` unblocks -/
  wake : List ℕ := []
  /-- whether `pthread_cond_timedwait` returns with a timeout -/
  timedOut : Bool := false
  deriving DecidableEq, Repr

inductive Label where
  | run (c : ℕ) (request : SubmitRequest)
  | get (c : ℕ) (request : GetRequest)
  | deinit (c : ℕ)
  | caller (c : ℕ) (choice : Choice)
  | worker (i : ℕ)
  deriving DecidableEq, Repr

/-- A waiter on `qCv` that is woken; any other thread is not affected. -/
def WorkerPc.wake : WorkerPc → WorkerPc
  | .blocked => .woken
  | pc => pc

/-- A waiter on the `cv` of `job` that is woken. -/
def CallerPc.notified (job : JobRef) : CallerPc → CallerPc
  | .cvBlocked request j => if j = job then .cvNotified request j else .cvBlocked request j
  | pc => pc

namespace Pool

/-- The pool after `init` started `n` workers. A worker that was created but has
not moved is at its loop test. -/
def start (n : ℕ) : Pool := { running := true, workers := List.replicate n .loopTest }

/-- Worker `i` exists and is at the program point `pc`. -/
abbrev WorkerAt (p : Pool) (i : ℕ) (pc : WorkerPc) : Prop := p.workers[i]? = some pc

@[simps] def setWorker (p : Pool) (i : ℕ) (pc : WorkerPc) : Pool :=
  { p with workers := p.workers.set i pc }

@[simps] def setCaller (p : Pool) (c : ℕ) (pc : CallerPc) : Pool :=
  { p with callers := Function.update p.callers c pc }

@[simps] def emit (p : Pool) (e : Event) : Pool := { p with log := p.log ++ [e] }

/-- `pthread_cond_signal` unblocks the waiters in `ws`. -/
@[simps] def signalled (p : Pool) (ws : List ℕ) : Pool :=
  { p with workers := p.workers.mapIdx fun i pc => if i ∈ ws then pc.wake else pc }

/-- A signal unblocks only blocked waiters, and at least one if there is one. -/
def SignalOk (p : Pool) (ws : List ℕ) : Prop :=
  (∀ i ∈ ws, p.workers[i]? = some .blocked) ∧ (.blocked ∈ p.workers → ws ≠ [])

instance (p : Pool) (ws : List ℕ) : Decidable (p.SignalOk ws) :=
  inferInstanceAs (Decidable (_ ∧ _))

/-- `make_shared<Job>`, after the counter was taken. -/
@[simps] def allocate (p : Pool) (request : SubmitRequest) (id : UInt64) : Pool :=
  { p with heap := p.heap ++ [{ id := id, req := request }], seq := p.seq + 1 }

@[simps] def publish (p : Pool) (job : JobRef) (status : Status) (result : Result) : Pool :=
  { p with heap := p.heap.modify job fun j =>
      { j with status := status, result := result, done := true } }

/-- The swap of the result of a done job into a response. -/
@[simps] def swapOut (p : Pool) (job : JobRef) : Pool :=
  { p with heap := p.heap.modify job fun j => { j with result := {} } }

/-- One step of worker `i` in `AlgoRunnerIpml::workerLoop`. -/
def workerStep (p : Pool) (i : ℕ) : Option Pool :=
  match p.workers[i]? with
  | none => none
  | some .loopTest => some (p.setWorker i (if p.running then .lock else .exited))
  | some .lock | some .woken =>
      if p.qMtx = none then
        some (setWorker { p with qMtx := some (.worker i) } i .waitTest)
      else none
  | some .waitTest =>
      some (p.setWorker i (if p.running && p.jobQueue.isEmpty then .enterWait else .exitTest))
  | some .enterWait => some (setWorker { p with qMtx := none } i .blocked)
  | some .blocked => some (p.setWorker i .woken)
  | some .exitTest =>
      if p.running = false ∧ p.jobQueue = [] then
        some (setWorker { p with qMtx := none } i .exited)
      else
        -- `front` and `pop_front` of an empty deque would be undefined
        match p.jobQueue with
        | [] => none
        | job :: rest =>
            some ((setWorker { p with qMtx := none, jobQueue := rest } i (.evaluate job)).emit
              (.taken i job))
  | some (.evaluate job) =>
      match p.heap[job]? with
      | none => none
      | some j =>
          match InterProcess.evaluate j.req with
          | none => some { p with trapped := true }
          | some (status, result) =>
              some ((p.setWorker i (.publish job status result)).emit (.evaluated i job))
  | some (.publish job status result) =>
      some (((p.publish job status result).setWorker i (.notify job)).emit (.published job))
  | some (.notify job) =>
      some (setWorker { p with callers := fun c => (p.callers c).notified job } i .loopTest)
  | some .exited => none

/-- `get` found the job done: it answers the published status, swaps the result
into its response and goes on to erase the ticket. -/
def consume (p : Pool) (c : ℕ) (request : GetRequest) (job : JobRef) (j : Job) : Pool :=
  (p.swapOut job).setCaller c (.erase request { status := j.status, result := some j.result })

/-- One step of thread `c` inside `AlgoRunnerIpml::run`, `enqueue`, `get` or
`deinit`. -/
def callerStep (p : Pool) (c : ℕ) (choice : Choice) : Option Pool :=
  match p.callers c with
  | .idle => none
  | .run request =>
      match request.mode with
      | .blocking =>
          match runBlocking request with
          | none => some { p with trapped := true }
          | some response => some (p.setCaller c (.ran request response))
      | .nonblocking =>
          match request.payload with
          | none => some (p.setCaller c (.ran request { status := .stErrorInvalidInput }))
          | some _ =>
              let id := ticketId choice.reading p.seq
              some (((p.allocate request id).setCaller c (.insert request id p.heap.length)).emit
                (.enqueued choice.reading))
      | .unrecognized _ _ =>
          some (p.setCaller c (.ran request { status := .stErrorInvalidInput }))
  | .insert request id job =>
      some (setCaller { p with jobs := p.jobs.insert id job } c (.lockQueue request id job))
  | .lockQueue request id job =>
      if p.qMtx = none then
        some (setCaller { p with qMtx := some (.caller c) } c (.push request id job))
      else none
  | .push request id job =>
      some ((setCaller { p with qMtx := none, jobQueue := p.jobQueue ++ [job] } c
        (.signal request id job)).emit (.pushed job))
  | .signal request id _ =>
      if p.SignalOk choice.wake then
        some ((p.signalled choice.wake).setCaller c
          (.ran request { status := .stNotFinished, ticket := some { reqId := id } }))
      else none
  | .ran request response => some ((p.setCaller c .idle).emit (.ran c request response))
  | .find request =>
      match p.jobs request.reqId with
      | none => some (p.setCaller c (.got request { status := .stErrorInvalidInput }))
      | some job =>
          match request.waitMode with
          | .noWait => some (p.setCaller c (.noWait request job))
          | .waitUpTo => some (p.setCaller c (.waitUpTo request job false))
          | .unrecognized _ _ =>
              some (p.setCaller c (.got request { status := .stErrorInvalidInput }))
  | .noWait request job =>
      match p.heap[job]? with
      | none => none
      | some j =>
          if j.done = false then
            some (p.setCaller c (.got request { status := .stNotFinished }))
          else some (p.consume c request job j)
  | .waitUpTo request job timeout =>
      match p.heap[job]? with
      | none => none
      | some j =>
          if j.done = false then
            if timeout = false then some (p.setCaller c (.cvBlocked request job))
            else some (p.setCaller c (.got request { status := .stNotFinished }))
          else some (p.consume c request job j)
  | .cvBlocked request job | .cvNotified request job =>
      some (p.setCaller c (.waitUpTo request job choice.timedOut))
  | .erase request response =>
      some (setCaller { p with jobs := p.jobs.erase request.reqId } c (.got request response))
  | .got request response => some ((p.setCaller c .idle).emit (.got c request response))
  | .stopTest => some (p.setCaller c (if p.running then .stopStore else .stopped))
  | .stopStore => some (setCaller { p with running := false } c .stopBroadcast)
  | .stopBroadcast =>
      some (setCaller { p with workers := p.workers.map WorkerPc.wake } c (.join 0))
  | .join i =>
      match p.workers[i]? with
      | some .exited => some (p.setCaller c (.join (i + 1)))
      | some _ => none
      | none => some (p.setCaller c .stopped)
  | .stopped => some (p.setCaller c .idle)

def enter (p : Pool) (c : ℕ) (pc : CallerPc) : Option Pool :=
  if p.callers c = .idle then some (p.setCaller c pc) else none

/-- One step of the pool. Nothing moves after a trap. -/
def step (p : Pool) (l : Label) : Option Pool :=
  if p.trapped then none
  else
    match l with
    | .run c request => p.enter c (.run request)
    | .get c request => p.enter c (.find request)
    | .deinit c => p.enter c .stopTest
    | .caller c choice => p.callerStep c choice
    | .worker i => p.workerStep i

end Pool

end InterProcess
