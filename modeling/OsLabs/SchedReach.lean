import OsLabs.SchedSound

/-!
# Runs that exist

The turns of a worker as straight pieces of a run. From them come the runs in
which one worker at a time has the CPU, those in which two workers have it
together, and those in which the workers only arrive.
-/

namespace OsLabs.Sched

section
variable {cfg : Config} {P : State → Prop} {s s' : State} {t : Thread} {e : Option Event}

theorem can_move (hm : Moves cfg s t s' e) (hx : s.main ≠ .exit) (h : Can (step cfg) P s') :
    Can (step cfg) P s :=
  h.head (step_iff.mpr ⟨hm, fun _ _ => hx⟩)

/-! ## Pieces of a run -/

def State.woken (s : State) (w : Nat) : State := { s.insertRunningTail w with sched := .waitForWorker w }.postInfo w

@[simp] theorem State.woken_main (w : Nat) : (s.woken w).main = s.main := rfl

@[simp] theorem State.woken_sched (w : Nat) : (s.woken w).sched = .waitForWorker w := rfl

@[simp] theorem State.woken_worker (w : Nat) : (s.woken w).worker = s.worker := rfl

@[simp] theorem State.woken_num (w : Nat) : (s.woken w).numWorkersRemaining = s.numWorkersRemaining := rfl

@[simp] theorem State.woken_queue (w : Nat) : (s.woken w).queue = s.queue := rfl

@[simp] theorem State.woken_running (w : Nat) : (s.woken w).running = s.running ++ [⟨s.fresh, w⟩] := rfl

@[simp] theorem State.woken_queueSem (w : Nat) : (s.woken w).queueSem = s.queueSem := rfl

@[simp] theorem State.woken_infoSem (w : Nat) :
    (s.woken w).infoSem = Function.update s.infoSem w (s.infoSem w + 1) := rfl

/-- Worker `w` has got the CPU by its semaphore, which goes down to `n`, and has released it. -/
def State.released (s : State) (w n : Nat) (pc : WorkerPc) : State :=
  { s.setWorker w pc with
    running := removeItem w s.running, infoSem := Function.update s.infoSem w n, queueSem := s.queueSem + 1 }

section
variable (w n : Nat) (pc : WorkerPc)

@[simp] theorem State.released_main : (s.released w n pc).main = s.main := rfl

@[simp] theorem State.released_sched : (s.released w n pc).sched = s.sched := rfl

@[simp] theorem State.released_worker : (s.released w n pc).worker = Function.update s.worker w pc := rfl

@[simp] theorem State.released_num : (s.released w n pc).numWorkersRemaining = s.numWorkersRemaining := rfl

@[simp] theorem State.released_queue : (s.released w n pc).queue = s.queue := rfl

@[simp] theorem State.released_running : (s.released w n pc).running = removeItem w s.running := rfl

@[simp] theorem State.released_infoSem : (s.released w n pc).infoSem = Function.update s.infoSem w n := rfl

@[simp] theorem State.released_queueSem : (s.released w n pc).queueSem = s.queueSem + 1 := rfl

end

/-- The scheduler has got a slot, and `n` are left. -/
def State.resumed (s : State) (n : Nat) : State := { s with queueSem := n, sched := .loop }

section
variable (n : Nat)

@[simp] theorem State.resumed_main : (s.resumed n).main = s.main := rfl

@[simp] theorem State.resumed_sched : (s.resumed n).sched = .loop := rfl

@[simp] theorem State.resumed_worker : (s.resumed n).worker = s.worker := rfl

@[simp] theorem State.resumed_num : (s.resumed n).numWorkersRemaining = s.numWorkersRemaining := rfl

@[simp] theorem State.resumed_queue : (s.resumed n).queue = s.queue := rfl

@[simp] theorem State.resumed_running : (s.resumed n).running = s.running := rfl

@[simp] theorem State.resumed_infoSem : (s.resumed n).infoSem = s.infoSem := rfl

@[simp] theorem State.resumed_queueSem : (s.resumed n).queueSem = n := rfl

end

/-- Main has created worker `w`, and it has entered the queue. -/
def State.entered (s : State) (w : Nat) : State :=
  { s.insertQueueTail w with
    main := .initThread (w + 1), worker := Function.update s.worker w (.waitForCpu 0),
    infoSem := Function.update s.infoSem w 0 }

section
variable (w : Nat)

@[simp] theorem State.entered_main : (s.entered w).main = .initThread (w + 1) := rfl

@[simp] theorem State.entered_sched : (s.entered w).sched = s.sched := rfl

@[simp] theorem State.entered_worker : (s.entered w).worker = Function.update s.worker w (.waitForCpu 0) := rfl

@[simp] theorem State.entered_num : (s.entered w).numWorkersRemaining = s.numWorkersRemaining := rfl

@[simp] theorem State.entered_queue : data (s.entered w).queue = data s.queue ++ [w] := data_append ..

@[simp] theorem State.entered_running : (s.entered w).running = s.running := rfl

@[simp] theorem State.entered_infoSem : (s.entered w).infoSem = Function.update s.infoSem w 0 := rfl

@[simp] theorem State.entered_queueSem : (s.entered w).queueSem = s.queueSem := rfl

end

/-- Worker `w` has got the CPU for its exit, has left the queue and decremented the counter. -/
def State.decremented (s : State) (cfg : Config) (w n : Nat) : State :=
  { s.setWorker w (.removeRunning cfg.iterations) with
    queue := removeItem w s.queue, infoSem := Function.update s.infoSem w n,
    numWorkersRemaining := s.numWorkersRemaining - 1 }

@[simp] theorem State.decremented_main (w n : Nat) : (s.decremented cfg w n).main = s.main := rfl

@[simp] theorem State.decremented_sched (w n : Nat) : (s.decremented cfg w n).sched = s.sched := rfl

@[simp] theorem State.decremented_worker (w n : Nat) :
    (s.decremented cfg w n).worker w = .removeRunning cfg.iterations :=
  State.setWorker_self ..

@[simp] theorem State.decremented_num (w n : Nat) :
    (s.decremented cfg w n).numWorkersRemaining = s.numWorkersRemaining - 1 := rfl

@[simp] theorem State.decremented_queue (w n : Nat) : (s.decremented cfg w n).queue = removeItem w s.queue := rfl

@[simp] theorem State.decremented_running (w n : Nat) : (s.decremented cfg w n).running = s.running := rfl

/-- Worker `w` has released the CPU for the last time. -/
def State.departed (s : State) (w n : Nat) : State :=
  { s.released w n .finished with
    queue := removeItem w s.queue, numWorkersRemaining := s.numWorkersRemaining - 1 }

section
variable (w n : Nat)

@[simp] theorem State.departed_main : (s.departed w n).main = s.main := rfl

@[simp] theorem State.departed_sched : (s.departed w n).sched = s.sched := rfl

@[simp] theorem State.departed_worker : (s.departed w n).worker = Function.update s.worker w .finished := rfl

@[simp] theorem State.departed_num : (s.departed w n).numWorkersRemaining = s.numWorkersRemaining - 1 := rfl

@[simp] theorem State.departed_queue : (s.departed w n).queue = removeItem w s.queue := rfl

@[simp] theorem State.departed_running : (s.departed w n).running = removeItem w s.running := rfl

@[simp] theorem State.departed_infoSem : (s.departed w n).infoSem = Function.update s.infoSem w n := rfl

@[simp] theorem State.departed_queueSem : (s.departed w n).queueSem = s.queueSem + 1 := rfl

end

theorem can_wake (elt : Cell) (hs : s.sched = .loop) (hx : s.main ≠ .exit) (hn : 0 < s.numWorkersRemaining)
    (hq : s.queue.head? = some elt) (hr : elt.datum ∉ data s.running)
    (h : Can (step cfg) P (s.woken elt.datum)) : Can (step cfg) P s := by
  refine can_move (.loop hs hn) hx ?_
  refine can_move (.peekHead elt rfl hq) hx ?_
  refine can_move (.selected elt rfl hr) hx ?_
  refine can_move (.insertRunning elt.datum rfl) hx ?_
  refine can_move (.postWorker elt.datum rfl) hx ?_
  exact h

/-- The walk of `next_worker` goes past a head that is running. -/
theorem can_wake_next {a b : Cell} {rest : List Cell} (hs : s.sched = .loop) (hx : s.main ≠ .exit)
    (hn : 0 < s.numWorkersRemaining) (hq : s.queue = a :: b :: rest) (ha : a.datum ∈ data s.running)
    (hb : b.datum ∉ data s.running) (h : Can (step cfg) P (s.woken b.datum)) : Can (step cfg) P s := by
  have hnext : nextElt a s.queue = some b := by rw [hq]; simp [nextElt]
  refine can_move (.loop hs hn) hx ?_
  refine can_move (.peekHead a rfl (by rw [hq]; rfl)) hx ?_
  refine can_move (.isRunning a rfl ha) hx ?_
  refine can_move (.eltNext a b rfl hnext) hx ?_
  refine can_move (.selected b rfl hb) hx ?_
  refine can_move (.insertRunning b.datum rfl) hx ?_
  refine can_move (.postWorker b.datum rfl) hx ?_
  exact h

theorem can_wait {w n : Nat} (hs : s.sched = .waitForWorker w) (hx : s.main ≠ .exit) (hn : s.queueSem = n + 1)
    (h : Can (step cfg) P (s.resumed n)) : Can (step cfg) P s :=
  can_move (.waitForWorker w n hs hn) hx h

theorem can_enter {w : Nat} (hm : s.main = .initThread w) (hw : w < cfg.threadCount)
    (h : Can (step cfg) P (s.entered w)) : Can (step cfg) P s := by
  have hx : s.main ≠ .exit := by rw [hm]; nofun
  refine can_move (.initThread w hm hw) hx ?_
  refine can_move (.createThread w rfl) nofun ?_
  refine can_move (.enterQueue w (State.setWorker_self ..)) nofun ?_
  simpa [State.entered, State.insertQueueTail, State.setWorker] using h

theorem can_loop_turn (hp : cfg.policy = .fifo) {w i n : Nat} (hw : s.worker w = .waitForCpu i)
    (hx : s.main ≠ .exit) (hn : s.infoSem w = n + 1) (hi : i < cfg.iterations)
    (h : Can (step cfg) P (s.released w n (.waitForCpu (i + 1)))) : Can (step cfg) P s := by
  refine can_move (.loopTurn w i n hw hn hi) hx ?_
  refine can_move (.fifoRemoveRunning w i hp (State.setWorker_self ..)) hx ?_
  refine can_move (.postLoop w i (State.setWorker_self _ w (.postQueue i)) hi) hx ?_
  simpa [State.released, State.setWorker] using h

theorem can_decrement {w n : Nat} (hw : s.worker w = .waitForCpu cfg.iterations) (hx : s.main ≠ .exit)
    (hn : s.infoSem w = n + 1) (h : Can (step cfg) P (s.decremented cfg w n)) : Can (step cfg) P s := by
  refine can_move (.exitTurn w _ n hw hn (Nat.le_refl cfg.iterations)) hx ?_
  refine can_move (.leaveQueue w (State.setWorker_self ..)) hx ?_
  refine can_move (.readNum w (State.setWorker_self _ w .readNum)) hx ?_
  refine can_move (.writeNum w _ (State.setWorker_self ..)) hx ?_
  simpa [State.decremented, State.setWorker] using h

theorem can_exit_turn (hp : cfg.policy = .fifo) {w n : Nat} (hw : s.worker w = .waitForCpu cfg.iterations)
    (hx : s.main ≠ .exit) (hn : s.infoSem w = n + 1) (h : Can (step cfg) P (s.departed w n)) :
    Can (step cfg) P s := by
  apply can_decrement hw hx hn
  refine can_move (.fifoRemoveRunning w _ hp (State.decremented_worker w n)) hx ?_
  refine can_move (.postExit w _ (State.setWorker_self _ w (.postQueue cfg.iterations)) (Nat.le_refl cfg.iterations)) hx ?_
  simpa [State.departed, State.released, State.decremented, State.setWorker] using h

end

/-! ## Arrivals -/

/-- Main has created the first `k` workers, and they have entered the queue in their order. -/
structure Arrived (cfg : Config) (k : Nat) (s : State) : Prop where
  main : s.main = .initThread k
  sched : s.sched = .waitForQueue
  worker : ∀ w, s.worker w = if w < k then .waitForCpu 0 else .notCreated
  num : s.numWorkersRemaining = cfg.threadCount
  queue : data s.queue = List.range k
  running : s.running = []
  infoSem : ∀ w, s.infoSem w = 0
  queueSem : s.queueSem = semInit ((cfg.queueSize : Int) - 1)

theorem arrived_next {cfg : Config} {k : Nat} {s : State} (h : Arrived cfg k s) (hk : k < cfg.threadCount) :
    Can (step cfg) (Arrived cfg (k + 1)) s := by
  apply can_enter h.main hk
  refine .here ⟨rfl, h.sched, ?_, h.num, ?_, h.running, ?_, h.queueSem⟩
  · intro w
    rw [State.entered_worker, Function.update_apply, h.worker]
    by_cases hw : w = k
    · simp [hw]
    · have hiff : w < k + 1 ↔ w < k := by omega
      simp [hw, hiff]
  · simp [h.queue, List.range_succ]
  · intro w
    simp [Function.update_apply, h.infoSem]

theorem can_arrive {cfg : Config} {k : Nat} (hk : k ≤ cfg.threadCount) :
    Can (step cfg) (Arrived cfg k) (initSchedQueue cfg) := by
  have h0 : Can (step cfg) (Arrived cfg 0) (initSchedQueue cfg) := by
    refine can_move (.startScheduler rfl) nofun ?_
    refine can_move (.setNum rfl) nofun ?_
    exact .here ⟨rfl, rfl, fun _ => rfl, rfl, rfl, rfl, fun _ => rfl, rfl⟩
  apply h0.trans
  intro s hs
  apply Can.iterate (I := Arrived cfg) ?_ hs
  intro i hi t ht
  exact arrived_next ht (by omega)

theorem semInit_eq {n : Nat} (h : 1 ≤ n) (hmax : n ≤ intMax) : semInit ((n : Int) - 1) = n - 1 := by
  unfold semInit
  rw [if_pos (by omega)]
  omega

theorem data_eq_singleton {lst : List Cell} {w : Nat} (h : data lst = [w]) :
    ∃ elt, lst = [elt] ∧ elt.datum = w := by
  simpa [data] using h

theorem data_eq_pair {lst : List Cell} {u w : Nat} (h : data lst = [u, w]) :
    ∃ a b, lst = [a, b] ∧ a.datum = u ∧ b.datum = w := by
  unfold data at h
  obtain ⟨a, rest, rfl, ha, hrest⟩ := List.map_eq_cons_iff.mp h
  obtain ⟨b, rfl, hb⟩ := data_eq_singleton hrest
  exact ⟨a, b, rfl, ha, hb⟩

/-! ## Turns one worker at a time -/

/-- Worker `w` waits for iteration `i`, those before it have finished, and the
scheduler is at the head of its loop. -/
structure Solo (cfg : Config) (w i : Nat) (s : State) : Prop where
  main : s.main = .initThread (w + 1)
  sched : s.sched = .loop
  worker : ∀ u, s.worker u = if u < w then .finished else if u = w then .waitForCpu i else .notCreated
  num : s.numWorkersRemaining = cfg.threadCount - w
  queue : data s.queue = [w]
  running : data s.running = []
  infoSem : ∀ u, s.infoSem u = 0
  queueSem : s.queueSem = cfg.queueSize - 1

/-- The same after the scheduler has woken `w`. -/
structure SoloWoken (cfg : Config) (w i : Nat) (s : State) : Prop where
  main : s.main = .initThread (w + 1)
  sched : s.sched = .waitForWorker w
  worker : ∀ u, s.worker u = if u < w then .finished else if u = w then .waitForCpu i else .notCreated
  num : s.numWorkersRemaining = cfg.threadCount - w
  queue : data s.queue = [w]
  running : data s.running = [w]
  infoSem : ∀ u, s.infoSem u = if u = w then 1 else 0
  queueSem : s.queueSem = cfg.queueSize - 1

section
variable {cfg : Config} (hp : cfg.policy = .fifo)

theorem solo_wakes {w i : Nat} {s : State} (h : Solo cfg w i s) (hw : w < cfg.threadCount) :
    Can (step cfg) (SoloWoken cfg w i) s := by
  obtain ⟨elt, hq, rfl⟩ := data_eq_singleton h.queue
  have hx : s.main ≠ .exit := by rw [h.main]; nofun
  have hn : 0 < s.numWorkersRemaining := by rw [h.num]; omega
  apply can_wake elt h.sched hx hn (by simp [hq]) (by simp [h.running])
  refine .here ⟨h.main, rfl, h.worker, h.num, h.queue, ?_, ?_, h.queueSem⟩
  · simp [h.running]
  · intro u
    simp [Function.update_apply, h.infoSem]

include hp

theorem solo_round {w i : Nat} {s : State} (h : Solo cfg w i s) (hw : w < cfg.threadCount)
    (hi : i < cfg.iterations) : Can (step cfg) (Solo cfg w (i + 1)) s := by
  apply (solo_wakes h hw).trans
  intro t ht
  have hx : t.main ≠ .exit := by rw [ht.main]; nofun
  apply can_loop_turn hp (w := w) (i := i) (n := 0) (by simp [ht.worker]) hx (by simp [ht.infoSem]) hi
  apply can_wait (s := t.released w 0 (.waitForCpu (i + 1)))
    (n := cfg.queueSize - 1) ht.sched hx (by simp [ht.queueSem])
  refine .here ⟨ht.main, rfl, ?_, ht.num, ht.queue, ?_, ?_, rfl⟩
  · intro u
    by_cases hu : u = w
    · simp [hu]
    · simp [hu, ht.worker]
  · simp [data_removeItem, ht.running]
  · intro u
    simp [Function.update_apply, ht.infoSem]

theorem solo_rounds {w : Nat} {s : State} (h : Solo cfg w 0 s) (hw : w < cfg.threadCount) :
    Can (step cfg) (Solo cfg w cfg.iterations) s := by
  apply Can.iterate (I := Solo cfg w) ?_ h
  intro i hi t ht
  exact solo_round hp ht hw hi

theorem solo_next {w : Nat} {s : State} (h : Solo cfg w cfg.iterations s) (hw : w + 1 < cfg.threadCount) :
    Can (step cfg) (Solo cfg (w + 1) 0) s := by
  apply (solo_wakes h (by omega)).trans
  intro t ht
  have hx : t.main ≠ .exit := by rw [ht.main]; nofun
  apply can_exit_turn hp (w := w) (n := 0) (by simp [ht.worker]) hx (by simp [ht.infoSem])
  apply can_wait (s := t.departed w 0) (n := cfg.queueSize - 1) ht.sched hx (by simp [ht.queueSem])
  apply can_enter (s := (t.departed w 0).resumed (cfg.queueSize - 1)) ht.main hw
  refine .here ⟨rfl, rfl, ?_, ?_, ?_, ?_, ?_, rfl⟩
  · intro u
    simp only [State.entered_worker, State.resumed_worker, State.departed_worker, Function.update_apply, ht.worker]
    by_cases hu : u = w + 1
    · simp [hu]
    · by_cases huw : u = w
      · simp [huw]
      · have hiff : u < w + 1 ↔ u < w := by omega
        simp [hu, huw, hiff]
  · simp [ht.num]
    omega
  · simp [data_removeItem, ht.queue]
  · simp [data_removeItem, ht.running]
  · intro u
    simp [Function.update_apply, ht.infoSem]

/-- The workers can have their turns one after the other, up to the exit turn of `w`. -/
theorem can_solo (h1 : 1 ≤ cfg.queueSize) (hmax : cfg.queueSize ≤ intMax) {w : Nat} (hw : w < cfg.threadCount) :
    Can (step cfg) (Solo cfg w cfg.iterations) (initSchedQueue cfg) := by
  have h0 : Can (step cfg) (Solo cfg 0 0) (initSchedQueue cfg) := by
    apply (can_arrive (k := 1) (by omega)).trans
    intro s h
    have hx : s.main ≠ .exit := by rw [h.main]; nofun
    have hne : s.queue ≠ [] := by
      intro hq
      have := h.queue
      rw [hq] at this
      cases this
    apply can_move (.queueReady h.sched (Or.inr hne)) hx
    refine .here ⟨h.main, rfl, ?_, by simp [h.num], h.queue, by simp [h.running], h.infoSem, ?_⟩
    · intro u
      simp [h.worker]
    · rw [← semInit_eq h1 hmax]
      exact h.queueSem
  apply h0.trans
  intro s hs
  apply (Can.iterate (I := fun w => Solo cfg w 0) (n := w) ?_ hs).trans
  · intro t ht
    exact solo_rounds hp ht hw
  · intro v hv t ht
    apply (solo_rounds hp ht (by omega)).trans
    intro u hu
    exact solo_next hp hu (by omega)

end

/-! ## Two workers at a time -/

/-- Workers 0 and 1 wait for iteration `i`, and the scheduler is at the head of its loop. -/
structure Pair (cfg : Config) (i : Nat) (s : State) : Prop where
  main : s.main = .initThread 2
  sched : s.sched = .loop
  worker : ∀ u, s.worker u = if u < 2 then .waitForCpu i else .notCreated
  num : s.numWorkersRemaining = cfg.threadCount
  queue : data s.queue = [0, 1]
  running : data s.running = []
  infoSem : ∀ u, s.infoSem u = 0
  queueSem : s.queueSem = cfg.queueSize - 1

/-- The same after the scheduler has woken both. -/
structure PairWoken (cfg : Config) (i : Nat) (s : State) : Prop where
  main : s.main = .initThread 2
  sched : s.sched = .waitForWorker 1
  worker : ∀ u, s.worker u = if u < 2 then .waitForCpu i else .notCreated
  num : s.numWorkersRemaining = cfg.threadCount
  queue : data s.queue = [0, 1]
  running : data s.running = [0, 1]
  infoSem : ∀ u, s.infoSem u = if u < 2 then 1 else 0
  queueSem : s.queueSem = cfg.queueSize - 2

theorem update_pair {α : Type*} {f : Nat → α} {x y z : α} (h : ∀ u, f u = if u < 2 then x else y) (u : Nat) :
    Function.update (Function.update f 0 z) 1 z u = if u < 2 then z else y := by
  rw [Function.update_apply, Function.update_apply, h]
  by_cases h0 : u = 0
  · simp [h0]
  · by_cases h1 : u = 1
    · simp [h1]
    · have hlt : ¬ u < 2 := by omega
      simp [h0, h1, hlt]

section
variable {cfg : Config} (hp : cfg.policy = .fifo) (h2 : 2 ≤ cfg.queueSize) (hN : 2 ≤ cfg.threadCount)
include h2 hN

theorem pair_wakes {i : Nat} {s : State} (h : Pair cfg i s) : Can (step cfg) (PairWoken cfg i) s := by
  obtain ⟨a, b, hq, ha, hb⟩ := data_eq_pair h.queue
  have hx : s.main ≠ .exit := by rw [h.main]; nofun
  have hn : 0 < s.numWorkersRemaining := by rw [h.num]; omega
  apply can_wake a h.sched hx hn (by simp [hq]) (by simp [h.running])
  rw [ha]
  apply can_wait (s := s.woken 0) (n := cfg.queueSize - 2) rfl hx (by simp [h.queueSem]; omega)
  apply can_wake_next (s := (s.woken 0).resumed (cfg.queueSize - 2)) rfl hx hn hq (by simp [ha])
    (by simp [hb, h.running])
  rw [hb]
  refine .here ⟨h.main, rfl, h.worker, h.num, h.queue, ?_, ?_, rfl⟩
  · simp [h.running]
  · intro u
    simpa [h.infoSem] using update_pair (x := 0) (y := 0) (z := 1) (by simp [h.infoSem]) u

include hp

theorem pair_round {i : Nat} {s : State} (h : Pair cfg i s) (hi : i < cfg.iterations) :
    Can (step cfg) (Pair cfg (i + 1)) s := by
  apply (pair_wakes h2 hN h).trans
  intro t ht
  have hx : t.main ≠ .exit := by rw [ht.main]; nofun
  apply can_loop_turn hp (w := 0) (i := i) (n := 0) (by simp [ht.worker]) hx (by simp [ht.infoSem]) hi
  apply can_loop_turn hp (s := t.released 0 0 (.waitForCpu (i + 1))) (w := 1) (i := i) (n := 0)
    (by simp [ht.worker]) hx
    (by simp [ht.infoSem]) hi
  apply can_wait (s := (t.released 0 0 (.waitForCpu (i + 1))).released 1 0 (.waitForCpu (i + 1)))
    (n := cfg.queueSize - 1) ht.sched hx (by simp [ht.queueSem]; omega)
  refine .here ⟨ht.main, rfl, ?_, ht.num, ht.queue, ?_, ?_, rfl⟩
  · exact update_pair ht.worker
  · simp [data_removeItem, ht.running]
  · intro u
    simpa using update_pair (z := 0) ht.infoSem u

/-- Two workers can have their iterations together, and be woken together for the next one. -/
theorem can_pair (hmax : cfg.queueSize ≤ intMax) {i : Nat} (hi : i ≤ cfg.iterations) :
    Can (step cfg) (PairWoken cfg i) (initSchedQueue cfg) := by
  have h0 : Can (step cfg) (Pair cfg 0) (initSchedQueue cfg) := by
    apply (can_arrive hN).trans
    intro s h
    have hx : s.main ≠ .exit := by rw [h.main]; nofun
    have hne : s.queue ≠ [] := by
      intro hq
      have := h.queue
      rw [hq] at this
      cases this
    apply can_move (.queueReady h.sched (Or.inr hne)) hx
    refine .here ⟨h.main, rfl, h.worker, h.num, h.queue, by simp [h.running], h.infoSem, ?_⟩
    rw [← semInit_eq (by omega) hmax]
    exact h.queueSem
  apply h0.trans
  intro s hs
  apply (Can.iterate (I := Pair cfg) ?_ hs).trans fun t ht => pair_wakes h2 hN ht
  intro j hj t ht
  exact pair_round hp h2 hN ht (by omega)

end

end OsLabs.Sched
