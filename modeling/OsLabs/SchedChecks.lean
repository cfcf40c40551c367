import OsLabs.SchedLog

/-!
# The checks of `lab4_tests.c`

The tests of the scheduler read the lines that the program has printed. Every
check goes through the file with `fgets`, and sees the last line twice.
-/

namespace OsLabs.Sched

open Stdio

/-! ## The formats -/

/-- The numbers are in the range of `int`. -/
def Line.InRange : Line → Prop
  | .running workers queueSize iterations => workers ≤ intMax ∧ queueSize ≤ intMax ∧ iterations ≤ intMax
  | .loop _ i => i ≤ intMax
  | .detaching _ | .waiting | .inQueue _ | .exiting _ | .done => True

def headerFormat : String := "Main: running %d workers on %d queue_size for %d iterations\n"

def inQueueFormat : String := "Thread %lu: in scheduler queue%c"

def loopFormat : String := "Thread %lu: loop %i%c"

def exitingFormat : String := "Thread %lu: exiting%c"

theorem stops_colon (cs : List Char) : Stops (':' :: cs) := ⟨by decide, by decide, by decide⟩

theorem stops_blank (cs : List Char) : Stops (' ' :: cs) := ⟨by decide, by decide, by decide⟩

theorem stops_newline (cs : List Char) : Stops ('\n' :: cs) := ⟨by decide, by decide, by decide⟩

section
variable {ids : Ids} {l : Line} (h : l.InRange)
include h

theorem sscanf_header : sscanf (l.text ids) headerFormat =
    match l with
    | .running workers queueSize iterations => [(workers : Int), queueSize, iterations]
    | _ => [] := by
  cases l with
  | running workers queueSize iterations =>
    obtain ⟨hw, hq, hi⟩ := h
    simp [sscanf, headerFormat, Line.text, runningText, directives, isSpace, scan_decimal hw, scan_decimal hq,
      scan_decimal hi, stops_blank]
  | detaching | waiting =>
    simp [sscanf, headerFormat, Line.text, detachingText, waitingText, directives, isSpace]
  | inQueue | loop | exiting | done =>
    simp [sscanf, headerFormat, Line.text, inQueueText, loopText, exitingText, doneText, directives, isSpace]

theorem sscanf_inQueue : sscanf (l.text ids) inQueueFormat =
    match l with
    | .inQueue w => [(ids.worker w : Int), 10]
    | .loop w _ => [(ids.worker w : Int)]
    | .exiting w => [(ids.worker w : Int)]
    | _ => [] := by
  cases l with
  | inQueue w => simp [sscanf, inQueueFormat, Line.text, inQueueText, directives, isSpace, scan_ulong (ids.worker_lt w), stops_colon]
  | loop w i => simp [sscanf, inQueueFormat, Line.text, loopText, directives, isSpace, scan_ulong (ids.worker_lt w), stops_colon]
  | exiting w => simp [sscanf, inQueueFormat, Line.text, exitingText, directives, isSpace, scan_ulong (ids.worker_lt w), stops_colon]
  | running | detaching | waiting | done =>
    simp [sscanf, inQueueFormat, Line.text, runningText, detachingText, waitingText, doneText, directives,
      isSpace]

theorem sscanf_loop : sscanf (l.text ids) loopFormat =
    match l with
    | .inQueue w => [(ids.worker w : Int)]
    | .loop w i => [(ids.worker w : Int), i, 10]
    | .exiting w => [(ids.worker w : Int)]
    | _ => [] := by
  cases l with
  | inQueue w => simp [sscanf, loopFormat, Line.text, inQueueText, directives, isSpace, scan_ulong (ids.worker_lt w), stops_colon]
  | loop w i =>
    simp [sscanf, loopFormat, Line.text, loopText, directives, isSpace, scan_ulong (ids.worker_lt w), scan_integer h, stops_colon,
      stops_newline]
  | exiting w => simp [sscanf, loopFormat, Line.text, exitingText, directives, isSpace, scan_ulong (ids.worker_lt w), stops_colon]
  | running | detaching | waiting | done =>
    simp [sscanf, loopFormat, Line.text, runningText, detachingText, waitingText, doneText, directives,
      isSpace]

theorem sscanf_exiting : sscanf (l.text ids) exitingFormat =
    match l with
    | .inQueue w => [(ids.worker w : Int)]
    | .loop w _ => [(ids.worker w : Int)]
    | .exiting w => [(ids.worker w : Int), 10]
    | _ => [] := by
  cases l with
  | inQueue w => simp [sscanf, exitingFormat, Line.text, inQueueText, directives, isSpace, scan_ulong (ids.worker_lt w), stops_colon]
  | loop w i => simp [sscanf, exitingFormat, Line.text, loopText, directives, isSpace, scan_ulong (ids.worker_lt w), stops_colon]
  | exiting w => simp [sscanf, exitingFormat, Line.text, exitingText, directives, isSpace, scan_ulong (ids.worker_lt w), stops_colon]
  | running | detaching | waiting | done =>
    simp [sscanf, exitingFormat, Line.text, runningText, detachingText, waitingText, doneText, directives,
      isSpace]

/-- Every line is read by one `fgets`. -/
theorem isLine_text : IsLine 1024 (l.text ids) := by
  have hnl := newline_not_mem_decimal
  have hint : ∀ {n : Nat}, n ≤ intMax → (decimal n).length ≤ 10 := fun {n} hn =>
    length_decimal (by decide) (Nat.lt_of_le_of_lt hn (by decide))
  have hlong : ∀ {n : Nat}, n < 2 ^ 64 → (decimal n).length ≤ 20 := fun {n} hn =>
    length_decimal (by decide) (Nat.lt_trans hn (by decide))
  cases l with
  | running workers queueSize iterations =>
    have h1 := hint h.1
    have h2 := hint h.2.1
    have h3 := hint h.2.2
    refine ⟨⟨"Main: running ".toList ++ (decimal workers ++ (" workers on ".toList ++ (decimal queueSize ++
      (" queue_size for ".toList ++ (decimal iterations ++ " iterations".toList))))), ?_, ?_⟩, ?_⟩
    · simp [Line.text, runningText]
    · simp [hnl]
    · simp [Line.text, runningText]
      omega
  | detaching w =>
    have h1 := hlong (ids.worker_lt w)
    refine ⟨⟨"Main: detaching worker thread ".toList ++ decimal (ids.worker w), ?_, ?_⟩, ?_⟩
    · simp [Line.text, detachingText]
    · simp [hnl]
    · simp [Line.text, detachingText]
      omega
  | waiting =>
    have h1 := hlong ids.sched_lt
    refine ⟨⟨"Main: waiting for scheduler ".toList ++ decimal ids.sched, ?_, ?_⟩, ?_⟩
    · simp [Line.text, waitingText]
    · simp [hnl]
    · simp [Line.text, waitingText]
      omega
  | inQueue w =>
    have h1 := hlong (ids.worker_lt w)
    refine ⟨⟨"Thread ".toList ++ (decimal (ids.worker w) ++ ": in scheduler queue".toList), ?_, ?_⟩, ?_⟩
    · simp [Line.text, inQueueText]
    · simp [hnl]
    · simp [Line.text, inQueueText]
      omega
  | loop w i =>
    have h1 := hlong (ids.worker_lt w)
    have h2 := hint h
    refine ⟨⟨"Thread ".toList ++ (decimal (ids.worker w) ++ (": loop ".toList ++ decimal i)), ?_, ?_⟩, ?_⟩
    · simp [Line.text, loopText]
    · simp [hnl]
    · simp [Line.text, loopText]
      omega
  | exiting w =>
    have h1 := hlong (ids.worker_lt w)
    refine ⟨⟨"Thread ".toList ++ (decimal (ids.worker w) ++ ": exiting".toList), ?_, ?_⟩, ?_⟩
    · simp [Line.text, exitingText]
    · simp [hnl]
    · simp [Line.text, exitingText]
      omega
  | done =>
    refine ⟨⟨"Scheduler: done!".toList, ?_, ?_⟩, ?_⟩
    · simp [Line.text, doneText]
    · simp
    · simp [Line.text, doneText]

omit h in
theorem text_eq_done : l.text ids = doneText ↔ l = .done := by
  cases l with
  | done => simp [Line.text]
  | running | detaching | waiting | inQueue | loop | exiting =>
    simp [Line.text, runningText, detachingText, waitingText, inQueueText, loopText, exitingText, doneText]

end

/-! ## The checks -/

def headerLine (header : Int × Int × Int) (buf : List Char) : Int × Int × Int :=
  match sscanf buf headerFormat with
  | [workers, queueSize, iterations] => (workers, queueSize, iterations)
  | _ => header

def readHeader (file : List Char) : Option (Int × Int × Int) :=
  (eachRound (fun header buf => some (headerLine header buf)) (roundsOf 1024 file) (0, 0, 0)).join

/-- It looks at the buffer only before the end has been met. -/
def checkForDone (file : List Char) : Bool :=
  (roundsOf 1024 file).foldl (fun done round => if round.2 then done else round.1 == some doneText) false

structure Counts where
  finalThreads : Int
  threadsMax : Int
  threadsMin : Int
  admittedThreads : Int
  deriving DecidableEq

def Counts.enter (c : Counts) : Counts :=
  { finalThreads := c.finalThreads + 1
    threadsMax := if c.threadsMax < c.finalThreads + 1 then c.finalThreads + 1 else c.threadsMax
    threadsMin := c.threadsMin
    admittedThreads := c.admittedThreads + 1 }

def Counts.exit (c : Counts) : Counts :=
  { finalThreads := c.finalThreads - 1
    threadsMax := c.threadsMax
    threadsMin := if c.finalThreads - 1 < c.threadsMin then c.finalThreads - 1 else c.threadsMin
    admittedThreads := c.admittedThreads }

def countLine (c : Counts) (buf : List Char) : Counts :=
  match sscanf buf inQueueFormat with
  | [_, _] => c.enter
  | _ =>
    match sscanf buf exitingFormat with
    | [_, _] => c.exit
    | _ => c

def computeQueueSize (file : List Char) : Option Counts :=
  (eachRound (fun c buf => some (countLine c buf)) (roundsOf 1024 file) ⟨0, 0, 0, 0⟩).join

/-- The used buckets, each with its id and its value, an `unsigned long`, and how many there is room for. -/
structure Buckets where
  cells : List (Int × Nat)
  size : Nat

/-- The bucket of `id`, with the buckets, where a new one may be; none for `NULL`. -/
def lookupBucket (b : Buckets) (id : Int) : Option (Buckets × Nat) :=
  match b.cells.findIdx? (·.1 == id) with
  | some i => some (b, i)
  | none =>
    if b.cells.length < b.size then some ({ b with cells := b.cells ++ [(id, 0)] }, b.cells.length)
    else none

def Buckets.value (b : Buckets) (i : Nat) : Nat := (b.cells[i]?.map (·.2)).getD 0

def Buckets.set (b : Buckets) (i value : Nat) : Buckets :=
  { b with cells := b.cells.modify i fun cell => (cell.1, value) }

def bucketExists (b : Buckets) (value : Nat) : Bool := b.cells.any (·.2 == value)

/-- The parameter `id` of `lookup_bucket` is an `int`. -/
def executedLine (iterations : Nat) (b : Buckets) (buf : List Char) : Option Buckets :=
  match sscanf buf inQueueFormat with
  | [threadId, _] =>
    match lookupBucket b (toInt threadId) with
    | none => none
    | some (b, i) => some (b.set i 0)
  | _ =>
    match sscanf buf loopFormat with
    | [threadId, iter, _] =>
      match lookupBucket b (toInt threadId) with
      | none => none
      | some (b, i) => if b.value i ≠ toSize iter then none else some (b.set i (toSize (b.value i + 1)))
    | _ =>
      match sscanf buf exitingFormat with
      | [threadId, _] =>
        match lookupBucket b (toInt threadId) with
        | none => none
        | some (b, i) => if b.value i ≠ iterations then none else some b
      | _ => some b

/-- What a check returns: 0 when a round has returned, else the value of `last`. -/
def verdict {β : Type*} (last : β → Bool) : Option (Option β) → Option Bool
  | none => none
  | some none => some false
  | some (some s) => some (last s)

def checkExecuted (file : List Char) (threads iterations : Nat) : Option Bool :=
  verdict (fun b => b.cells.length == b.size)
    (eachRound (executedLine iterations) (roundsOf 1024 file) ⟨[], threads⟩)

/-- `counter` is an `int` and never leaves its range here: it goes up with the
loops of one worker. -/
structure FifoCheck where
  prevThread : Int
  counter : Int
  deriving DecidableEq

def fifoLine (iterations : Nat) (s : FifoCheck) (buf : List Char) : Option FifoCheck :=
  match sscanf buf loopFormat with
  | [threadId, _, _] =>
    if s.prevThread = 0 then some ⟨threadId, s.counter + 1⟩
    else if s.prevThread ≠ threadId then none
    else some { s with counter := s.counter + 1 }
  | _ =>
    match sscanf buf exitingFormat with
    | [_, _] => if s.counter ≠ iterations then none else some ⟨0, 0⟩
    | _ => some s

def checkExecutedFifo (file : List Char) (iterations : Nat) : Option Bool :=
  verdict (fun _ => true) (eachRound (fifoLine iterations) (roundsOf 1024 file) ⟨0, 0⟩)

/-- `stepnum` is an `int`. With queue size 1 it goes up once a round, and stays
in range with the value `stepnum + 1` of a bucket while the iterations are below
`INT_MAX`. -/
structure RrCheck where
  buckets : Buckets
  stepnum : Nat
  rrq : List Int

/-- `rrq` has the datums of its elements; `malloc` gives an element. -/
def rrLine (s : RrCheck) (buf : List Char) : Option RrCheck :=
  match sscanf buf inQueueFormat with
  | [threadId, _] =>
    match lookupBucket s.buckets (toInt threadId) with
    | none => none
    | some (b, i) => some { s with buckets := b.set i s.stepnum }
  | _ =>
    match sscanf buf loopFormat with
    | [threadId, iter, _] =>
      match lookupBucket s.buckets (toInt threadId) with
      | none => none
      | some (b, i) =>
        if s.stepnum < b.value i ∧ bucketExists b s.stepnum = true then none
        else
          let stepnum := if s.stepnum < b.value i then s.stepnum + 1 else s.stepnum
          let b := b.set i (stepnum + 1)
          if iter = 0 then some ⟨b, stepnum, s.rrq ++ [threadId]⟩
          else
            match s.rrq with
            | [] => none
            | elt :: rrq => if elt ≠ threadId then none else some ⟨b, stepnum, rrq ++ [elt]⟩
    | _ =>
      match sscanf buf exitingFormat with
      | [threadId, _] =>
        match lookupBucket s.buckets (toInt threadId) with
        | none => none
        | some (b, i) =>
          match s.rrq with
          | [] => none
          | elt :: rrq => if elt ≠ threadId then none else some { s with buckets := b.set i 0, rrq := rrq }
      | _ => some s

def checkExecutedRr (file : List Char) (threads : Nat) : Option Bool :=
  verdict (fun _ => true) (eachRound rrLine (roundsOf 1024 file) ⟨⟨[], threads⟩, 1, []⟩)

def checkRudimentary (file : List Char) (workers queueSize iterations : Nat) : Option Bool :=
  match readHeader file with
  | none => none
  | some header =>
    if header ≠ ((workers : Int), (queueSize : Int), (iterations : Int)) then some false
    else if checkForDone file = false then some false
    else
      match computeQueueSize file with
      | none => none
      | some c =>
        if c.threadsMin = 0 ∧ c.threadsMax ≤ queueSize ∧ c.finalThreads = 0 ∧ c.admittedThreads = workers then
          checkExecuted file workers iterations
        else some false

def checkFifo (file : List Char) (queueSize workers iterations : Nat) : Option Bool :=
  match checkRudimentary file workers queueSize iterations with
  | some true => checkExecutedFifo file iterations
  | r => r

def checkRr (file : List Char) (queueSize workers iterations : Nat) : Option Bool :=
  match checkRudimentary file workers queueSize iterations with
  | some true => checkExecutedRr file workers
  | r => r

end OsLabs.Sched
