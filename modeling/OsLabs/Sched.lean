import OsLabs.CInt
import OsLabs.Machine
import Mathlib.Logic.Function.Basic

/-!
# The scheduler of `scheduler.c` and `sched_impl.c`

Three kinds of threads share the scheduler queue, the running list and their
semaphores. A step of a thread is one atomic action: an operation on a list
under the list's semaphore, an operation on a semaphore, a read or a write of
`num_workers_remaining`. A thread that is blocked has no step, and neither has
a worker whose lists and semaphores have been destroyed.
-/

namespace OsLabs.Sched

inductive Policy
  | fifo | rr
  deriving DecidableEq

structure Config where
  policy : Policy
  queueSize : Nat
  threadCount : Nat
  iterations : Nat

/-- A list element, with an identity that is never used again: an element that
has been removed keeps its datum, and its `next` is null. -/
structure Cell where
  id : Nat
  datum : Nat
  deriving DecidableEq

inductive MainPc
  | startScheduler
  | setNum
  | initThread (i : Nat)
  | createThread (i : Nat)
  | join
  | cleanUp
  | exit
  deriving DecidableEq

inductive SchedPc
  | notCreated
  | waitForQueue
  | loop
  | peekHead
  | inRunning (elt : Cell)
  | eltNext (elt : Cell)
  | insertRunning (info : Nat)
  | postWorker (info : Nat)
  | waitForWorker (info : Nat)
  | done
  deriving DecidableEq

/-- `i` is the loop counter of `worker_proc`, equal to `iterations` on the exit path. -/
inductive WorkerPc
  | notCreated
  | enterQueue
  | waitForCpu (i : Nat)
  | leaveQueue
  | readNum
  | writeNum (num : Int)
  | removeRunning (i : Nat)
  | removeQueue (i : Nat)
  | insertQueue (i : Nat)
  | postQueue (i : Nat)
  | finished
  deriving DecidableEq

structure State where
  main : MainPc
  sched : SchedPc
  worker : Nat → WorkerPc
  numWorkersRemaining : Int
  queue : List Cell
  running : List Cell
  fresh : Nat
  infoSem : Nat → Nat
  queueSem : Nat
  doneThing : Bool

inductive Thread
  | main | sched | worker (w : Nat)
  deriving DecidableEq

/-- A turn is a return from `wait_for_cpu`, in the loop or on the exit path. -/
inductive Turn
  | loop | exit
  deriving DecidableEq

inductive Event
  | inserted (w : Nat)
  | woken (w : Nat)
  | turn (w : Nat) (t : Turn)
  | finished (w : Nat)
  deriving DecidableEq

/-! ## Lists and semaphores -/

def data (lst : List Cell) : List Nat := lst.map (·.datum)

def eltInList (lst : List Cell) (datum : Nat) : Bool := lst.any (·.datum == datum)

def removeItem (datum : Nat) (lst : List Cell) : List Cell := lst.eraseP (·.datum == datum)

/-- `elt->next`, null for an element that is not in the list any more. `remove_item` has freed such an element, so
that the source reads freed memory there; it is read as `list_remove_elem` has left it. -/
def nextElt (elt : Cell) : List Cell → Option Cell
  | [] => none
  | x :: rest => if x = elt then rest.head? else nextElt elt rest

/-- `sem_init` fails for a value out of range and leaves the zero-filled semaphore. -/
def semInit (value : Int) : Nat := if 0 ≤ value ∧ value ≤ intMax then value.toNat else 0

def State.setWorker (s : State) (w : Nat) (pc : WorkerPc) : State :=
  { s with worker := Function.update s.worker w pc }

def State.insertQueueTail (s : State) (datum : Nat) : State :=
  { s with queue := s.queue ++ [⟨s.fresh, datum⟩], fresh := s.fresh + 1 }

def State.insertRunningTail (s : State) (datum : Nat) : State :=
  { s with running := s.running ++ [⟨s.fresh, datum⟩], fresh := s.fresh + 1 }

def State.postInfo (s : State) (w : Nat) : State :=
  { s with infoSem := Function.update s.infoSem w (s.infoSem w + 1) }

/-- `sem_wait`, on the semaphore of a worker; none while it blocks. -/
def State.waitInfo (s : State) (w : Nat) : Option State :=
  match s.infoSem w with
  | 0 => none
  | n + 1 => some { s with infoSem := Function.update s.infoSem w n }

def State.waitQueueSem (s : State) : Option State :=
  match s.queueSem with
  | 0 => none
  | n + 1 => some { s with queueSem := n }

/-! ## The threads -/

/-- After `init_sched_queue`, before the first thread is started. -/
def initSchedQueue (cfg : Config) : State where
  main := .startScheduler
  sched := .notCreated
  worker _ := .notCreated
  numWorkersRemaining := 0
  queue := []
  running := []
  fresh := 0
  infoSem _ := 0
  queueSem := semInit ((cfg.queueSize : Int) - 1)
  doneThing := false

def mainStep (cfg : Config) (s : State) : Option (State × Option Event) :=
  match s.main with
  | .startScheduler => some ({ s with main := .setNum, sched := .waitForQueue }, none)
  | .setNum => some ({ s with main := .initThread 0, numWorkersRemaining := cfg.threadCount }, none)
  | .initThread i =>
    if i < cfg.threadCount then
      some ({ s with main := .createThread i, infoSem := Function.update s.infoSem i (semInit (-1)) }, none)
    else some ({ s with main := .join }, none)
  | .createThread i => some ({ s.setWorker i .enterQueue with main := .initThread (i + 1) }, none)
  | .join => if s.sched = .done then some ({ s with main := .cleanUp }, none) else none
  | .cleanUp => some ({ s with main := .exit }, none)
  | .exit => none

/-- `wait_for_queue`: it polls until the queue is not empty, but only the first time. -/
def waitForQueue (s : State) : State :=
  if s.doneThing then { s with sched := .loop }
  else if s.queue = [] then s
  else { s with sched := .loop, doneThing := true }

/-- The rest of `next_worker` after the element `elt` has been read. -/
def walkTo (s : State) : Option Cell → State
  | none => { s with sched := .waitForQueue }
  | some elt => { s with sched := .inRunning elt }

def schedStep (s : State) : Option (State × Option Event) :=
  match s.sched with
  | .notCreated => none
  | .waitForQueue => some (waitForQueue s, none)
  | .loop => some ({ s with sched := if 0 < s.numWorkersRemaining then .peekHead else .done }, none)
  | .peekHead => some (walkTo s s.queue.head?, none)
  | .inRunning elt =>
    some ({ s with sched := if eltInList s.running elt.datum then .eltNext elt else .insertRunning elt.datum }, none)
  | .eltNext elt => some (walkTo s (nextElt elt s.queue), none)
  | .insertRunning w => some ({ s.insertRunningTail w with sched := .postWorker w }, some (.woken w))
  | .postWorker w => some ({ s.postInfo w with sched := .waitForWorker w }, none)
  | .waitForWorker _ => s.waitQueueSem.map fun s' => ({ s' with sched := .loop }, none)
  | .done => none

/-- Where a worker goes on after it has got the CPU. -/
def gotCpu (cfg : Config) (w i : Nat) (s : State) : State × Option Event :=
  if i < cfg.iterations then (s.setWorker w (.removeRunning i), some (.turn w .loop))
  else (s.setWorker w .leaveQueue, some (.turn w .exit))

def workerStep (cfg : Config) (s : State) (w : Nat) : Option (State × Option Event) :=
  match s.worker w with
  | .notCreated => none
  | .enterQueue => some ((s.insertQueueTail w).setWorker w (.waitForCpu 0), some (.inserted w))
  | .waitForCpu i => (s.waitInfo w).map (gotCpu cfg w i)
  | .leaveQueue => some ({ s.setWorker w .readNum with queue := removeItem w s.queue }, none)
  | .readNum => some (s.setWorker w (.writeNum s.numWorkersRemaining), none)
  | .writeNum num =>
    some ({ s.setWorker w (.removeRunning cfg.iterations) with numWorkersRemaining := num - 1 }, none)
  | .removeRunning i =>
    let next := match cfg.policy with
      | .fifo => WorkerPc.postQueue i
      | .rr => WorkerPc.removeQueue i
    some ({ s.setWorker w next with running := removeItem w s.running }, none)
  | .removeQueue i => some ({ s.setWorker w (.insertQueue i) with queue := removeItem w s.queue }, none)
  | .insertQueue i => some ((s.insertQueueTail w).setWorker w (.postQueue i), none)
  | .postQueue i =>
    let s' := { s with queueSem := s.queueSem + 1 }
    if i < cfg.iterations then some (s'.setWorker w (.waitForCpu (i + 1)), none)
    else some (s'.setWorker w .finished, some (.finished w))
  | .finished => none

def step (cfg : Config) : StepFn State Thread (Option Event)
  | s, .main => mainStep cfg s
  | s, .sched => schedStep s
  | s, .worker w => if s.main = .exit then none else workerStep cfg s w

/-! ## Histories -/

def events (tr : List (Thread × Option Event)) : List Event := tr.filterMap (·.2)

def inserted (es : List Event) : List Nat :=
  es.filterMap fun | .inserted w => some w | _ => none

def turns (es : List Event) : List (Nat × Turn) :=
  es.filterMap fun | .turn w t => some (w, t) | _ => none

end OsLabs.Sched
