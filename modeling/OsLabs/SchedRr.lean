import OsLabs.SchedReach

/-!
# Round robin puts a finished worker back in the queue

On the exit path a worker leaves the queue and then calls `rr_release_cpu`,
which puts it back at the tail. Nobody else removes it, so that a worker which
has finished stays on the queue and is woken like the others.
-/

namespace OsLabs.Sched

/-! ## A finished worker stays on the queue -/

/-- A worker that has been put back is on the queue when its post comes. -/
def Lingers (s : State) : Prop :=
  ∀ w, (s.worker w = .finished ∨ ∃ i, s.worker w = .postQueue i) → w ∈ data s.queue

theorem Lingers.move {s s' : State} (h : Lingers s) {w : Nat} {pc : WorkerPc}
    (hw : s'.worker = (s.setWorker w pc).worker) (hq : ∀ u, u ≠ w → u ∈ data s.queue → u ∈ data s'.queue)
    (hpc : (pc = .finished ∨ ∃ i, pc = .postQueue i) → w ∈ data s'.queue) : Lingers s' := by
  intro u hu
  rw [hw, State.setWorker_worker] at hu
  by_cases hne : u = w
  · subst hne
    simp only [ite_true] at hu
    exact hpc hu
  · simp only [hne, ite_false] at hu
    exact hq u hne (h u hu)

theorem lingers_step {cfg : Config} (hp : cfg.policy = .rr) {s s' : State} {t : Thread} {e : Option Event}
    (h : Lingers s) (hm : Moves cfg s t s' e) : Lingers s' := by
  cases hm with
  | createThread i hi => exact h.move rfl (fun _ _ hu => hu) (by simp)
  | enterQueue w hw => exact h.move rfl (fun u _ hu => by simp [State.insertQueueTail, State.setWorker, hu]) (by simp)
  | loopTurn w i n hw hn hi => exact h.move rfl (fun _ _ hu => hu) (by simp)
  | exitTurn w i n hw hn hi => exact h.move rfl (fun _ _ hu => hu) (by simp)
  | leaveQueue w hw => exact h.move rfl (fun u hne hu => mem_removeItem hu hne) (by simp)
  | readNum w hw => exact h.move rfl (fun _ _ hu => hu) (by simp)
  | writeNum w num hw => exact h.move rfl (fun _ _ hu => hu) (by simp)
  | fifoRemoveRunning w i hf hw =>
    rw [hp] at hf
    cases hf
  | rrRemoveRunning w i hf hw => exact h.move rfl (fun _ _ hu => hu) (by simp)
  | removeQueue w i hw => exact h.move rfl (fun u hne hu => mem_removeItem hu hne) (by simp)
  | insertQueue w i hw =>
    refine h.move rfl (fun u _ hu => ?_) fun _ => ?_ <;> simp [State.insertQueueTail, State.setWorker]
    exact Or.inl hu
  | postLoop w i hw hi => exact h.move rfl (fun _ _ hu => hu) (by simp)
  | postExit w i hw hi => exact h.move rfl (fun _ _ hu => hu) fun _ => h w (Or.inr ⟨i, hw⟩)
  | startScheduler | setNum | initThread | initDone | join | cleanUp | poll | queueReady | loop | loopDone
    | peekHead | peekNull | isRunning | selected | eltNext | eltNull | insertRunning | postWorker | waitForWorker =>
    exact h

theorem lingers_run {cfg : Config} (hp : cfg.policy = .rr) {es : List Thread} {s : State}
    {tr : List (Thread × Option Event)} (hr : run (step cfg) (initSchedQueue cfg) es = some (s, tr)) :
    Lingers s := by
  have h0 : Lingers (initSchedQueue cfg) := by
    intro w hw
    simp [initSchedQueue] at hw
  exact run_inv (fun _ _ _ _ h _ hs => lingers_step hp h (step_moves hs)) h0 (guarded_true _ es) hr

/-- What is expected of a worker that has finished, in a state and its history. -/
structure Retired (s : State) (es : List Event) (w : Nat) : Prop where
  queue : w ∉ data s.queue
  waking : s.sched ≠ .insertRunning w ∧ s.sched ≠ .postWorker w
  blocked : ¬ (s.sched = .waitForWorker w ∧ s.queueSem = 0)
  woken : ∀ before after, es = before ++ .finished w :: after → .woken w ∉ after

/-! ## A worker that runs alone -/

/-- The scheduler is at the head of its loop, and worker 0 waits for iteration `i`. -/
structure Alone (cfg : Config) (i : Nat) (s : State) : Prop where
  main : s.main = .initThread 1
  sched : s.sched = .loop
  worker : s.worker 0 = .waitForCpu i
  num : s.numWorkersRemaining = cfg.threadCount
  queue : data s.queue = [0]
  running : s.running = []

section
variable {cfg : Config} (hp : cfg.policy = .rr) (h0 : 0 < cfg.threadCount)
include h0

theorem alone_woken {P : State → Prop} {i : Nat} {s : State} (h : Alone cfg i s)
    (ht : Can (step cfg) P (s.woken 0)) : Can (step cfg) P s := by
  have hx : s.main ≠ .exit := by rw [h.main]; simp
  have hlen : s.queue.length = 1 := by
    have := congrArg List.length h.queue
    simpa [data] using this
  obtain ⟨elt, hq⟩ := List.length_eq_one_iff.mp hlen
  have he : elt.datum = 0 := by simpa [hq] using h.queue
  have hn : 0 < s.numWorkersRemaining := by rw [h.num]; omega
  rw [← he] at ht
  exact can_wake elt h.sched hx hn (by simp [hq]) (by simp [h.running]) ht

include hp

theorem alone_round {i : Nat} {s : State} (h : Alone cfg i s) (hi : i < cfg.iterations) :
    Can (step cfg) (Alone cfg (i + 1)) s := by
  have hx : s.main ≠ .exit := by rw [h.main]; simp
  apply alone_woken h0 h
  refine can_move (.loopTurn 0 i (s.infoSem 0) h.worker rfl hi) hx ?_
  refine can_move (.rrRemoveRunning 0 i hp rfl) hx ?_
  refine can_move (.removeQueue 0 i rfl) hx ?_
  refine can_move (.insertQueue 0 i rfl) hx ?_
  refine can_move (.postLoop 0 i rfl hi) hx ?_
  refine can_move (.waitForWorker 0 s.queueSem rfl rfl) hx ?_
  refine .here ⟨h.main, rfl, by simp [State.setWorker], h.num, ?_, ?_⟩
  · simp [State.setWorker, State.insertQueueTail, data_removeItem, h.queue]
  · simp [State.setWorker, State.insertQueueTail, removeItem, h.running]

theorem alone_rounds (k : Nat) {i : Nat} {s : State} (h : Alone cfg i s) (hk : i + k = cfg.iterations) :
    Can (step cfg) (Alone cfg cfg.iterations) s := by
  induction k generalizing i s with
  | zero =>
    obtain rfl : i = cfg.iterations := hk
    exact .here h
  | succ k ih => exact (alone_round hp h0 h (by omega)).trans fun t ht => ih ht (by omega)

theorem alone_exit {s : State} (h : Alone cfg cfg.iterations s) :
    Can (step cfg) (fun t => t.worker 0 = .finished) s := by
  have hx : s.main ≠ .exit := by rw [h.main]; simp
  have hle := Nat.le_refl cfg.iterations
  apply alone_woken h0 h
  refine can_move (.exitTurn 0 _ (s.infoSem 0) h.worker rfl hle) hx ?_
  refine can_move (.leaveQueue 0 rfl) hx ?_
  refine can_move (.readNum 0 rfl) hx ?_
  refine can_move (.writeNum 0 _ rfl) hx ?_
  refine can_move (.rrRemoveRunning 0 _ hp rfl) hx ?_
  refine can_move (.removeQueue 0 _ rfl) hx ?_
  refine can_move (.insertQueue 0 _ rfl) hx ?_
  refine can_move (.postExit 0 _ rfl hle) hx ?_
  exact .here (by simp)

theorem can_finish : Can (step cfg) (fun t => t.worker 0 = .finished) (initSchedQueue cfg) := by
  have h : Can (step cfg) (Alone cfg 0) (initSchedQueue cfg) := by
    refine can_move (.startScheduler rfl) nofun ?_
    refine can_move (.setNum rfl) nofun ?_
    refine can_move (.initThread 0 rfl h0) nofun ?_
    refine can_move (.createThread 0 rfl) nofun ?_
    refine can_move (.enterQueue 0 rfl) nofun ?_
    refine can_move (.queueReady rfl (Or.inr nofun)) nofun ?_
    exact .here ⟨rfl, rfl, by simp [State.setWorker], rfl, rfl, rfl⟩
  exact h.trans fun t ht =>
    (alone_rounds hp h0 cfg.iterations ht (by omega)).trans fun u hu => alone_exit hp h0 hu

end

/-! ## No worker retires -/

/-- A state meets what is expected of finished workers only as long as there
are none, and with at least one worker some run finishes one. -/
theorem rr_retires (cfg : Config) (hp : cfg.policy = .rr) :
    (∀ es s tr, run (step cfg) (initSchedQueue cfg) es = some (s, tr) →
      ((∀ w, s.worker w = .finished → Retired s (events tr) w) ↔ ∀ w, s.worker w ≠ .finished)) ∧
    ((∀ es s tr, run (step cfg) (initSchedQueue cfg) es = some (s, tr) →
      ∀ w, s.worker w = .finished → Retired s (events tr) w) ↔ cfg.threadCount = 0) := by
  have hnever : ∀ es s tr, run (step cfg) (initSchedQueue cfg) es = some (s, tr) →
      ∀ w, s.worker w = .finished → ¬ Retired s (events tr) w := fun es s tr hr w hw hret =>
    hret.queue (lingers_run hp hr w (Or.inl hw))
  refine ⟨fun es s tr hr => ⟨fun h w hw => hnever es s tr hr w hw (h w hw), fun h w hw => absurd hw (h w)⟩, ?_⟩
  constructor
  · intro h
    by_contra h0
    obtain ⟨es, s, tr, hr, hw⟩ := can_finish hp (Nat.pos_of_ne_zero h0)
    exact hnever es s tr hr 0 hw (h es s tr hr 0 hw)
  · intro h0 es s tr hr w hw
    have hlt := (created_run hr).worker w (by rw [hw]; simp)
    omega

theorem rr_retires_two :
    (∀ es s tr, run (step ⟨.rr, 1, 2, 0⟩) (initSchedQueue ⟨.rr, 1, 2, 0⟩) es = some (s, tr) →
      ((∀ w, s.worker w = .finished → Retired s (events tr) w) ↔ ∀ w, s.worker w ≠ .finished)) ∧
    ¬ ∀ es s tr, run (step ⟨.rr, 1, 2, 0⟩) (initSchedQueue ⟨.rr, 1, 2, 0⟩) es = some (s, tr) →
      ∀ w, s.worker w = .finished → Retired s (events tr) w := by
  obtain ⟨hfinished, hall⟩ := rr_retires ⟨.rr, 1, 2, 0⟩ rfl
  exact ⟨hfinished, hall.not.mpr (by decide)⟩

/-- Worker 0 arrives and finishes, the scheduler wakes it again, and worker 1 arrives. -/
def hangSchedule : List Thread :=
  List.replicate 7 .main ++ [.worker 0] ++ List.replicate 6 .sched ++ List.replicate 8 (.worker 0) ++
    List.replicate 6 .sched ++ [.worker 1]

theorem rr_hangs :
    ∃ s tr, run (step ⟨.rr, 1, 2, 0⟩) (initSchedQueue ⟨.rr, 1, 2, 0⟩) hangSchedule = some (s, tr) ∧
      s.worker 0 = .finished ∧ s.sched = .waitForWorker 0 ∧ s.queueSem = 0 ∧ 0 ∈ data s.queue ∧
      ¬ Retired s (events tr) 0 ∧ ∀ t, step ⟨.rr, 1, 2, 0⟩ s t = none := by
  refine ⟨_, _, rfl, rfl, rfl, rfl, by decide, fun h => h.blocked ⟨rfl, rfl⟩, ?_⟩
  intro t
  match t with
  | .main => rfl
  | .sched => rfl
  | .worker 0 => rfl
  | .worker 1 => rfl
  | .worker (w + 2) => rfl

end OsLabs.Sched
