import OsLabs.SchedFair
import OsLabs.Stdio
import OsLabs.Talk

/-!
# The log of the scheduler program

What `scheduler.c` prints to its standard output, by threads that print after
the step that the line is about. A worker prints its lines in the order of its
own steps, whatever the other threads do.
-/

namespace OsLabs.Sched

open Stdio

/-! ## The lines -/

/-- What `scheduler.c` prints; workers are given by their number. -/
inductive Line
  | running (workers queueSize iterations : Nat)
  | detaching (w : Nat)
  | waiting
  | inQueue (w : Nat)
  | loop (w i : Nat)
  | exiting (w : Nat)
  | done
  deriving DecidableEq

/-- The `pthread_t` of the threads, as `unsigned long`. -/
structure Ids where
  worker : Nat → Nat
  sched : Nat
  worker_lt : ∀ w, worker w < 2 ^ 64
  sched_lt : sched < 2 ^ 64

@[irreducible] def runningText (workers queueSize iterations : Nat) : List Char :=
  "Main: running ".toList ++ (decimal workers ++ (" workers on ".toList ++ (decimal queueSize ++
    (" queue_size for ".toList ++ (decimal iterations ++ " iterations\n".toList)))))

@[irreducible] def detachingText (id : Nat) : List Char :=
  "Main: detaching worker thread ".toList ++ (decimal id ++ "\n".toList)

@[irreducible] def waitingText (id : Nat) : List Char :=
  "Main: waiting for scheduler ".toList ++ (decimal id ++ "\n".toList)

@[irreducible] def inQueueText (id : Nat) : List Char :=
  "Thread ".toList ++ (decimal id ++ ": in scheduler queue\n".toList)

@[irreducible] def loopText (id i : Nat) : List Char :=
  "Thread ".toList ++ (decimal id ++ (": loop ".toList ++ (decimal i ++ "\n".toList)))

@[irreducible] def exitingText (id : Nat) : List Char := "Thread ".toList ++ (decimal id ++ ": exiting\n".toList)

@[irreducible] def doneText : List Char := "Scheduler: done!\n".toList

def Line.text (ids : Ids) : Line → List Char
  | .running workers queueSize iterations => runningText workers queueSize iterations
  | .detaching w => detachingText (ids.worker w)
  | .waiting => waitingText ids.sched
  | .inQueue w => inQueueText (ids.worker w)
  | .loop w i => loopText (ids.worker w) i
  | .exiting w => exitingText (ids.worker w)
  | .done => doneText

def logText (ids : Ids) (log : List Line) : List Char := (log.map (Line.text ids)).flatten

/-! ## Printing -/

def Line.speaker : Line → Thread
  | .running .. | .detaching _ | .waiting => .main
  | .inQueue w | .loop w _ | .exiting w => .worker w
  | .done => .sched

/-- The line that a thread prints after its step in the state `s`. -/
def tells (cfg : Config) (s : State) : Thread → Option Line
  | .main =>
    match s.main with
    | .createThread i => some (.detaching i)
    | .initThread i => if i < cfg.threadCount then none else some .waiting
    | _ => none
  | .sched =>
    match s.sched with
    | .loop => if 0 < s.numWorkersRemaining then none else some .done
    | _ => none
  | .worker w =>
    match s.worker w with
    | .enterQueue => some (.inQueue w)
    | .waitForCpu i => if i < cfg.iterations then some (.loop w i) else some (.exiting w)
    | _ => none

/-- `pthread_join` waits for the last line of the scheduler, and a worker whose
arguments have been freed prints nothing. -/
def mayGo (m : Talk State Thread Line) : Thread → Bool
  | .main => !(m.state.main == .join && (m.unsaid .main).isNone && (m.unsaid .sched).isSome)
  | .sched => true
  | .worker _ => m.state.main != .exit

def logStep (cfg : Config) : StepFn (Talk State Thread Line) Thread (Option Event ⊕ Line) :=
  talk (step cfg) (tells cfg) mayGo

def logStart (cfg : Config) : Talk State Thread Line := ⟨initSchedQueue cfg, fun _ => none⟩

/-- The log begins with the line that `smp4_main` prints before there are threads. -/
def logOf (cfg : Config) (tr : List (Thread × (Option Event ⊕ Line))) : List Line :=
  .running cfg.threadCount cfg.queueSize cfg.iterations :: said tr

/-- The program is over: all have come to their ends and printed their lines. -/
structure Complete (cfg : Config) (m : Talk State Thread Line) : Prop where
  main : m.state.main = .exit
  finished : ∀ w, w < cfg.threadCount → m.state.worker w = .finished
  unsaid : ∀ t, cfg.Has t → m.unsaid t = none

theorem complete_iff {cfg : Config} {m : Talk State Thread Line} : Complete cfg m ↔
    m.state.main = .exit ∧ (∀ w < cfg.threadCount, m.state.worker w = .finished) ∧
      m.unsaid .main = none ∧ m.unsaid .sched = none ∧ ∀ w < cfg.threadCount, m.unsaid (.worker w) = none := by
  constructor
  · intro h
    exact ⟨h.main, h.finished, h.unsaid .main trivial, h.unsaid .sched trivial, fun w hw => h.unsaid (.worker w) hw⟩
  · rintro ⟨hmain, hfinished, hun, hun', hworkers⟩
    refine ⟨hmain, hfinished, fun t ht => ?_⟩
    cases t with
    | main => exact hun
    | sched => exact hun'
    | worker w => exact hworkers w ht

instance (cfg : Config) (m : Talk State Thread Line) : Decidable (Complete cfg m) := decidable_of_iff _ complete_iff.symm

/-- A schedule that has been run to the end of the program. -/
theorem complete_run {cfg : Config} {es : List Thread} {log : List Line}
    (h : (run (logStep cfg) (logStart cfg) es).map (fun r => (said r.2, decide (Complete cfg r.1))) = some (log, true)) :
    ∃ m tr, run (logStep cfg) (logStart cfg) es = some (m, tr) ∧ said tr = log ∧ Complete cfg m := by
  obtain ⟨⟨m, tr⟩, hr, heq⟩ := Option.map_eq_some_iff.mp h
  obtain ⟨hsaid, hm⟩ := Prod.mk.inj heq
  exact ⟨m, tr, hr, hsaid, of_decide_eq_true hm⟩

/-! ## What a worker prints -/

def script (cfg : Config) (w : Nat) : List Line :=
  .inQueue w :: ((List.range cfg.iterations).map (.loop w) ++ [.exiting w])

/-- How many lines of its script a worker has come past. -/
def WorkerPc.told (cfg : Config) : WorkerPc → Nat
  | .notCreated | .enterQueue => 0
  | .waitForCpu i => i + 1
  | .removeRunning i | .removeQueue i | .insertQueue i | .postQueue i => if i < cfg.iterations then i + 2 else cfg.iterations + 2
  | .leaveQueue | .readNum | .writeNum _ | .finished => cfg.iterations + 2

def linesOf (w : Nat) (log : List Line) : List Line := log.filter fun l => l.speaker == .worker w

@[simp] theorem linesOf_append (w : Nat) (log log' : List Line) : linesOf w (log ++ log') = linesOf w log ++ linesOf w log' :=
  List.filter_append ..

theorem linesOf_self {w : Nat} {l : Line} (h : l.speaker = .worker w) : linesOf w [l] = [l] := by
  simp [linesOf, h]

theorem linesOf_other {w : Nat} {l : Line} (h : l.speaker ≠ .worker w) : linesOf w [l] = [] := by
  simp [linesOf, h]

theorem length_script (cfg : Config) (w : Nat) : (script cfg w).length = cfg.iterations + 2 := by
  simp [script]

theorem script_loop {cfg : Config} {w i : Nat} (h : i < cfg.iterations) : (script cfg w)[i + 1]? = some (.loop w i) := by
  rw [script, List.getElem?_cons_succ, List.getElem?_append_left (by simpa using h)]
  simp [h]

theorem script_exiting (cfg : Config) (w : Nat) : (script cfg w)[cfg.iterations + 1]? = some (.exiting w) := by
  rw [script, List.getElem?_cons_succ, List.getElem?_append_right (by simp)]
  simp

theorem take_script_succ {cfg : Config} {w n : Nat} {l : Line} (h : (script cfg w)[n]? = some l) :
    (script cfg w).take (n + 1) = (script cfg w).take n ++ [l] := by
  rw [List.take_add_one, h]
  rfl

section
variable {cfg : Config} {s s' : State}

theorem tells_speaker {t : Thread} {l : Line} (h : tells cfg s t = some l) : l.speaker = t := by
  cases t with
  | main =>
    simp only [tells] at h
    split at h
    · cases h
      rfl
    · split at h
      · cases h
      · cases h
        rfl
    · cases h
  | sched =>
    simp only [tells] at h
    split at h
    · split at h
      · cases h
      · cases h
        rfl
    · cases h
  | worker w =>
    simp only [tells] at h
    split at h
    · cases h
      rfl
    · split at h
      · cases h
        rfl
      · cases h
        rfl
    · cases h

theorem tells_not_running {t : Thread} {l : Line} (h : tells cfg s t = some l) (a b c : Nat) : l ≠ .running a b c := by
  rintro rfl
  cases t with
  | main =>
    simp only [tells] at h
    split at h
    · cases h
    · split at h <;> cases h
    · cases h
  | sched | worker =>
    have := tells_speaker h
    cases this

/-- No loop counter goes past the number of iterations. -/
def Counting (cfg : Config) (s : State) : Prop := ∀ w i, s.worker w = .waitForCpu i → i ≤ cfg.iterations

theorem Counting.move {w : Nat} {pc : WorkerPc} (h : Counting cfg s) (hw : s'.worker = (s.setWorker w pc).worker)
    (hpc : ∀ i, pc = .waitForCpu i → i ≤ cfg.iterations) : Counting cfg s' := by
  intro u i hu
  rw [hw, State.setWorker_worker] at hu
  split at hu
  · exact hpc i hu
  · exact h u i hu

theorem counting_step {t : Thread} {e : Option Event} (h : Counting cfg s) (hm : Moves cfg s t s' e) : Counting cfg s' := by
  cases hm with
  | startScheduler | setNum | initThread | initDone | join | cleanUp | poll | queueReady | loop | loopDone | peekHead
    | peekNull | isRunning | selected | eltNext | eltNull | insertRunning | postWorker | waitForWorker => exact h
  | enterQueue w hw =>
    refine h.move rfl fun i hi => ?_
    cases hi
    exact Nat.zero_le _
  | postLoop w i hw hi =>
    refine h.move rfl fun j hj => ?_
    cases hj
    exact hi
  | createThread | loopTurn | exitTurn | leaveQueue | readNum | writeNum | fifoRemoveRunning | rrRemoveRunning
    | removeQueue | insertQueue | postExit => exact h.move rfl nofun

theorem told_move {w : Nat} {pc : WorkerPc} {ls : List Line} (hw : s'.worker = Function.update s.worker w pc)
    (hpc : (script cfg w).take (pc.told cfg) = (script cfg w).take ((s.worker w).told cfg) ++ ls) (u : Nat) :
    (script cfg u).take ((s'.worker u).told cfg) =
      (script cfg u).take ((s.worker u).told cfg) ++ if Thread.worker w = .worker u then ls else [] := by
  rw [hw, Function.update_apply]
  by_cases hu : u = w
  · rw [if_pos hu, hu, if_pos rfl, hpc]
  · rw [if_neg hu, if_neg (by simpa using Ne.symm hu), List.append_nil]

/-- A step takes a worker past the line that it leaves it to print, and past no other. -/
theorem told_step {t : Thread} {e : Option Event} (hc : Created cfg s) (hi : Counting cfg s) (hm : Moves cfg s t s' e)
    (u : Nat) : (script cfg u).take ((s'.worker u).told cfg) =
      (script cfg u).take ((s.worker u).told cfg) ++ if t = .worker u then (tells cfg s t).toList else [] := by
  cases hm with
  | startScheduler | setNum | initThread | initDone | join | cleanUp | poll | queueReady | loop | loopDone | peekHead
    | peekNull | isRunning | selected | eltNext | eltNull | insertRunning | postWorker | waitForWorker =>
    exact (List.append_nil _).symm
  | createThread i hm =>
    have hnew := hc.later i (by rw [hm]; rfl) i (Nat.le_refl i)
    have htold : (script cfg i).take (WorkerPc.enterQueue.told cfg) = (script cfg i).take ((s.worker i).told cfg) ++ [] := by
      rw [hnew]
      rfl
    have h := told_move (rfl : (s.setWorker i .enterQueue).worker = _) htold u
    simpa using h
  | enterQueue w hw => exact told_move rfl (by rw [tells, hw]; rfl) u
  | loopTurn w i n hw hn hlt =>
    refine told_move rfl ?_ u
    rw [tells, hw]
    simp only [if_pos hlt, WorkerPc.told, Option.toList_some]
    exact take_script_succ (script_loop hlt)
  | exitTurn w i n hw hn hle =>
    obtain rfl : i = cfg.iterations := Nat.le_antisymm (hi w i hw) hle
    refine told_move rfl ?_ u
    rw [tells, hw]
    simp only [if_neg (Nat.lt_irrefl _), WorkerPc.told, Option.toList_some]
    exact take_script_succ (script_exiting cfg w)
  | postLoop w i hw hlt => exact told_move rfl (by rw [tells, hw]; simp [WorkerPc.told, hlt]) u
  | postExit w i hw hle => exact told_move rfl (by rw [tells, hw]; simp [WorkerPc.told, Nat.not_lt.mpr hle]) u
  | leaveQueue w hw | readNum w hw | writeNum w num hw | fifoRemoveRunning w i hp hw | rrRemoveRunning w i hp hw
    | removeQueue w i hw | insertQueue w i hw =>
    exact told_move rfl (by rw [tells, hw]; simp [WorkerPc.told]) u

end

/-- What the workers have printed and are about to print is what they have come past. -/
structure Spoken (cfg : Config) (m : Talk State Thread Line) (log : List Line) : Prop where
  created : Created cfg m.state
  counting : Counting cfg m.state
  own : ∀ t l, m.unsaid t = some l → l.speaker = t
  told : ∀ w, linesOf w log ++ (m.unsaid (.worker w)).toList = (script cfg w).take ((m.state.worker w).told cfg)

section
variable {cfg : Config} {m : Talk State Thread Line} {log : List Line}

theorem spoken_start (cfg : Config) : Spoken cfg (logStart cfg) [] :=
  ⟨created_init cfg, nofun, nofun, fun _ => rfl⟩

theorem Spoken.act (h : Spoken cfg m log) {t : Thread} {s' : State} {e : Option Event} (hun : m.unsaid t = none)
    (hs : step cfg m.state t = some (s', e)) :
    Spoken cfg ⟨s', Function.update m.unsaid t (tells cfg m.state t)⟩ log := by
  have hm := step_moves hs
  refine ⟨created_step h.created hm, counting_step h.counting hm, fun t' l hl => ?_, fun w => ?_⟩
  · by_cases ht : t' = t
    · subst ht
      exact tells_speaker (by simpa using hl)
    · exact h.own t' l (by simpa [ht] using hl)
  · have htold := h.told w
    rw [told_step h.created h.counting hm w, ← htold, List.append_assoc]
    by_cases ht : t = .worker w
    · subst ht
      simp [hun]
    · simp [Ne.symm ht, ht]

theorem Spoken.say (h : Spoken cfg m log) {t : Thread} {l : Line} (hun : m.unsaid t = some l) :
    Spoken cfg ⟨m.state, Function.update m.unsaid t none⟩ (log ++ [l]) := by
  have hl := h.own t l hun
  refine ⟨h.created, h.counting, fun t' l' hl' => ?_, fun w => ?_⟩
  · by_cases ht : t' = t
    · subst ht
      simp at hl'
    · exact h.own t' l' (by simpa [ht] using hl')
  · rw [linesOf_append, ← h.told w]
    by_cases ht : t = .worker w
    · subst ht
      simp [linesOf_self hl, hun]
    · rw [linesOf_other (hl ▸ ht)]
      simp [Ne.symm ht]

theorem spoken_run {es : List Thread} {tr : List (Thread × (Option Event ⊕ Line))}
    (hr : run (logStep cfg) (logStart cfg) es = some (m, tr)) : Spoken cfg m (said tr) :=
  talk_hist (P := fun m _ log => Spoken cfg m log) (fun _ _ _ _ _ _ h hun hs _ => h.act hun hs)
    (fun _ _ _ _ _ h hun => h.say hun) (spoken_start cfg) hr

end

/-! ## Logs -/

/-- Each worker goes by its script, and there is no second header. -/
structure Follows (cfg : Config) (log : List Line) : Prop where
  lines : ∀ w, linesOf w log <+: script cfg w
  known : ∀ w, cfg.threadCount ≤ w → linesOf w log = []
  header : ∀ l ∈ log, ∀ a b c, l ≠ .running a b c

def progress (w : Nat) (log : List Line) : Nat := (linesOf w log).length

section
variable {cfg : Config} {log : List Line} {w : Nat} {l : Line}

theorem follows_run {es : List Thread} {m : Talk State Thread Line} {tr : List (Thread × (Option Event ⊕ Line))}
    (hr : run (logStep cfg) (logStart cfg) es = some (m, tr)) : Follows cfg (said tr) := by
  have h := spoken_run hr
  refine ⟨fun w => ?_, fun w hw => ?_, ?_⟩
  · exact (List.prefix_append _ _).trans (h.told w ▸ List.take_prefix ..)
  · have hnew : m.state.worker w = .notCreated := by
      by_contra hne
      exact absurd (h.created.worker w hne) (Nat.not_lt.mpr hw)
    have htold := h.told w
    rw [hnew] at htold
    exact (List.append_eq_nil_iff.mp htold).1
  · exact (said_of_tells (fun _ _ _ hl => tells_not_running hl) nofun hr).1

/-- Nobody else has anything to say. -/
theorem Spoken.quiet {m : Talk State Thread Line} (h : Spoken cfg m log) (hm : Complete cfg m) (t : Thread) :
    m.unsaid t = none := by
  cases t with
  | main => exact hm.unsaid .main trivial
  | sched => exact hm.unsaid .sched trivial
  | worker w =>
    rcases Nat.lt_or_ge w cfg.threadCount with hw | hw
    · exact hm.unsaid (.worker w) hw
    · have hnew : m.state.worker w = .notCreated := by
        by_contra hne
        exact absurd (h.created.worker w hne) (Nat.not_lt.mpr hw)
      have htold := h.told w
      rw [hnew] at htold
      exact Option.toList_eq_nil_iff.mp (List.append_eq_nil_iff.mp htold).2

/-- Of a complete run each worker has printed its whole script. -/
theorem whole_run {es : List Thread} {m : Talk State Thread Line} {tr : List (Thread × (Option Event ⊕ Line))}
    (hr : run (logStep cfg) (logStart cfg) es = some (m, tr)) (hm : Complete cfg m) (hw : w < cfg.threadCount) :
    linesOf w (said tr) = script cfg w := by
  have htold := (spoken_run hr).told w
  rw [hm.unsaid (.worker w) hw, hm.finished w hw, Option.toList_none, List.append_nil] at htold
  rw [htold, List.take_of_length_le]
  rw [length_script]
  exact Nat.le_refl _

theorem progress_append (w : Nat) (log : List Line) (l : Line) :
    progress w (log ++ [l]) = progress w log + if l.speaker = .worker w then 1 else 0 := by
  rw [progress, linesOf_append, List.length_append]
  by_cases h : l.speaker = .worker w
  · rw [linesOf_self h, if_pos h]
    rfl
  · rw [linesOf_other h, if_neg h]
    rfl

theorem Follows.init (h : Follows cfg (log ++ [l])) : Follows cfg log := by
  refine ⟨fun w => ?_, fun w hw => ?_, fun l' hl' => h.header l' (List.mem_append_left _ hl')⟩
  · have hp := h.lines w
    rw [linesOf_append] at hp
    exact (List.prefix_append _ _).trans hp
  · have hk := h.known w hw
    rw [linesOf_append] at hk
    exact (List.append_eq_nil_iff.mp hk).1

/-- The next line of a worker is the next one of its script. -/
theorem Follows.last (h : Follows cfg (log ++ [l])) (hl : l.speaker = .worker w) :
    w < cfg.threadCount ∧ (script cfg w)[progress w log]? = some l := by
  refine ⟨?_, ?_⟩
  · by_contra hw
    have hk := h.known w (Nat.not_lt.mp hw)
    rw [linesOf_append, linesOf_self hl] at hk
    simp at hk
  · obtain ⟨rest, hrest⟩ := h.lines w
    rw [linesOf_append, linesOf_self hl] at hrest
    rw [← hrest, List.append_assoc, progress, List.getElem?_append_right (Nat.le_refl _)]
    simp

theorem script_get {n : Nat} (h : (script cfg w)[n]? = some l) :
    n = 0 ∧ l = .inQueue w ∨ (∃ i, i < cfg.iterations ∧ n = i + 1 ∧ l = .loop w i) ∨
      n = cfg.iterations + 1 ∧ l = .exiting w := by
  cases n with
  | zero =>
    cases h
    exact Or.inl ⟨rfl, rfl⟩
  | succ n =>
    rcases Nat.lt_trichotomy n cfg.iterations with hn | rfl | hn
    · rw [script_loop hn] at h
      cases h
      exact Or.inr (Or.inl ⟨n, hn, rfl, rfl⟩)
    · rw [script_exiting] at h
      cases h
      exact Or.inr (Or.inr ⟨rfl, rfl⟩)
    · rw [List.getElem?_eq_none (by rw [length_script]; omega)] at h
      cases h

theorem Follows.inQueue (h : Follows cfg (log ++ [.inQueue w])) : w < cfg.threadCount ∧ progress w log = 0 := by
  obtain ⟨hw, hget⟩ := h.last rfl
  rcases script_get hget with ⟨hn, -⟩ | ⟨i, -, -, heq⟩ | ⟨-, heq⟩
  · exact ⟨hw, hn⟩
  · cases heq
  · cases heq

theorem Follows.loop {i : Nat} (h : Follows cfg (log ++ [.loop w i])) :
    w < cfg.threadCount ∧ i < cfg.iterations ∧ progress w log = i + 1 := by
  obtain ⟨hw, hget⟩ := h.last rfl
  rcases script_get hget with ⟨-, heq⟩ | ⟨j, hj, hn, heq⟩ | ⟨-, heq⟩
  · cases heq
  · cases heq
    exact ⟨hw, hj, hn⟩
  · cases heq

theorem Follows.exiting (h : Follows cfg (log ++ [.exiting w])) :
    w < cfg.threadCount ∧ progress w log = cfg.iterations + 1 := by
  obtain ⟨hw, hget⟩ := h.last rfl
  rcases script_get hget with ⟨-, heq⟩ | ⟨i, -, -, heq⟩ | ⟨hn, -⟩
  · cases heq
  · cases heq
  · exact ⟨hw, hn⟩

end

end OsLabs.Sched
