import OsLabs.SchedCount

/-!
# The end of the scheduler and the clean-up

The scheduler leaves its loop when the count is used up. Every worker has then
decremented the count, but the last ones may still be in `release_cpu`, after
which main destroys what they work on.
-/

namespace OsLabs.Sched

/-- The worker is between its decrement of the counter and the end of its last `release_cpu`. -/
def WorkerPc.departing (cfg : Config) : WorkerPc → Bool
  | .removeRunning i | .removeQueue i | .insertQueue i | .postQueue i => decide (cfg.iterations ≤ i)
  | .notCreated | .enterQueue | .waitForCpu _ | .leaveQueue | .readNum | .writeNum _ | .finished => false

theorem departing_iff {cfg : Config} {pc : WorkerPc} (h : pc.counted cfg = true) :
    pc.departing cfg = false ↔ pc = .finished := by
  cases pc <;> simp_all [WorkerPc.counted, WorkerPc.departing]

/-- From the end of the scheduler on, all workers have completed their last `release_cpu`. -/
def Released (cfg : Config) (s : State) : Prop :=
  s.sched = .done ∨ s.main = .cleanUp ∨ s.main = .exit → ∀ w, w < cfg.threadCount → s.worker w = .finished

/-- The scheduler does not leave its loop while a worker is departing. -/
def Drained (cfg : Config) (s : State) : Thread → Prop
  | .sched => s.sched = .loop → s.numWorkersRemaining ≤ 0 → ∀ w, w < cfg.threadCount → (s.worker w).departing cfg = false
  | .main | .worker _ => True

/-- The scheduler starts to look for workers when the counter is set, and main cleans up when it is done. -/
structure Started (s : State) : Prop where
  unset : s.main.counterSet = false → s.doneThing = false ∧ (s.sched = .notCreated ∨ s.sched = .waitForQueue)
  joined : s.main = .cleanUp ∨ s.main = .exit → s.sched = .done

theorem started_init (cfg : Config) : Started (initSchedQueue cfg) :=
  ⟨fun _ => ⟨rfl, Or.inl rfl⟩, fun h => h.elim nofun nofun⟩

section
variable {cfg : Config} {s s' : State}

theorem Started.sched_move (h : Started s) (hm : s'.main = s.main)
    (hs : s.sched ≠ .notCreated ∧ s.sched ≠ .waitForQueue) (hd : s.sched ≠ .done) : Started s' := by
  refine ⟨?_, ?_⟩
  · intro hu
    exact ((h.unset (hm ▸ hu)).2.elim hs.1 hs.2).elim
  · intro hj
    exact absurd (h.joined (hm ▸ hj)) hd

theorem started_step {t : Thread} {e : Option Event} (h : Started s) (hc : Created cfg s)
    (hm : Moves cfg s t s' e) : Started s' := by
  cases hm with
  | startScheduler hm => exact ⟨fun _ => ⟨(h.unset (by rw [hm]; rfl)).1, Or.inr rfl⟩, fun h => h.elim nofun nofun⟩
  | setNum | initThread | initDone | createThread => exact ⟨nofun, fun h => h.elim nofun nofun⟩
  | join hm hs => exact ⟨nofun, fun _ => hs⟩
  | cleanUp hm => exact ⟨nofun, fun _ => h.joined (Or.inl hm)⟩
  | poll => exact h
  | queueReady hs hq =>
    refine ⟨?_, ?_⟩
    · intro hu
      rcases hq with hd | hq
      · rw [(h.unset hu).1] at hd
        cases hd
      -- a worker on the queue has been created, so that the counter is set
      obtain ⟨elt, hmem⟩ := List.exists_mem_of_ne_nil s.queue hq
      rw [show s.main.counterSet = true from hc.counterSet (hc.queue elt.datum (List.mem_map_of_mem hmem))] at hu
      cases hu
    · intro hj
      rw [h.joined hj] at hs
      cases hs
  | loop hs | loopDone hs | peekHead elt hs | peekNull hs | isRunning elt hs | selected elt hs | eltNext elt next hs
    | eltNull elt hs | insertRunning w hs | postWorker w hs | waitForWorker w n hs =>
    exact h.sched_move rfl (by rw [hs]; exact ⟨nofun, nofun⟩) (by rw [hs]; nofun)
  | enterQueue | loopTurn | exitTurn | leaveQueue | readNum | writeNum | fifoRemoveRunning | rrRemoveRunning | removeQueue
    | insertQueue | postLoop | postExit =>
    exact ⟨h.unset, h.joined⟩

theorem started_run {es : List Thread} {tr : List (Thread × Option Event)}
    (hr : run (step cfg) (initSchedQueue cfg) es = some (s, tr)) : Created cfg s ∧ Started s :=
  run_inv (I := fun s => Created cfg s ∧ Started s)
    (fun _ _ _ _ h _ hs => ⟨created_step h.1 (step_moves hs), started_step h.2 h.1 (step_moves hs)⟩)
    ⟨created_init cfg, started_init cfg⟩ (guarded_true _ es) hr

theorem Released.keep (h : Released cfg s) (hst : Started s')
    (hd : s'.sched = .done → s.sched = .done) (hw : ∀ u, s.worker u = .finished → s'.worker u = .finished) :
    Released cfg s' := by
  intro hend w hlt
  have hdone : s'.sched = .done := hend.elim id hst.joined
  exact hw w (h (Or.inl (hd hdone)) w hlt)

theorem Released.worker_keep (h : Released cfg s) (hst : Started s') {w : Nat} {pc : WorkerPc}
    (hw : s'.worker = (s.setWorker w pc).worker) (hold : s.worker w ≠ .finished) (hs : s'.sched = s.sched) :
    Released cfg s' := by
  apply h.keep hst (fun hd => hs ▸ hd)
  intro u hu
  rw [hw, State.setWorker_ne, hu]
  rintro rfl
  exact hold hu

/-- All workers have decremented a counter that is used up. -/
theorem counted_of_used_up (hr : Reachable (step cfg) (initSchedQueue cfg) s) (hs : s.sched = .loop)
    (hn : s.numWorkersRemaining ≤ 0) {w : Nat} (hw : w < cfg.threadCount) :
    (s.worker w).counted cfg = true := by
  obtain ⟨es, tr, hr⟩ := hr
  have hset : s.main.counterSet = true := by
    by_contra hu
    rcases ((started_run hr).2.unset (by simpa using hu)).2 with h | h <;> rw [h] at hs <;> cases hs
  have hge := num_ge hr hset
  have hfull : exited cfg s = Finset.range cfg.threadCount :=
    Finset.eq_of_subset_of_card_le (Finset.filter_subset _ _) (by rw [Finset.card_range]; omega)
  have hmem : w ∈ exited cfg s := by rw [hfull]; exact Finset.mem_range.mpr hw
  exact (Finset.mem_filter.mp hmem).2

theorem released_step {t : Thread} {e : Option Event} (hr : Reachable (step cfg) (initSchedQueue cfg) s)
    (h : Released cfg s) (hst : step cfg s t = some (s', e)) : Drained cfg s t ↔ Released cfg s' := by
  have hstart : Started s' := by
    obtain ⟨es, tr, hr'⟩ := hr.next hst
    exact (started_run hr').2
  cases step_moves hst with
  | startScheduler | setNum | initThread | initDone | join | cleanUp =>
    exact iff_of_true trivial (h.keep hstart (by first | exact id | nofun) fun _ => id)
  | createThread i hm =>
    obtain ⟨es, tr, hr'⟩ := hr
    have hnew := (created_run hr').later i (by rw [hm]; rfl) i (Nat.le_refl i)
    exact iff_of_true trivial (h.worker_keep hstart rfl (by rw [hnew]; nofun) rfl)
  | poll hs => exact iff_of_true (fun hl => by rw [hs] at hl; cases hl) h
  | loop hs hn =>
    refine iff_of_true (fun _ hn' => absurd hn (Int.not_lt.mpr hn')) (h.keep hstart nofun fun _ => id)
  | loopDone hs hn =>
    have hcount := fun w hw => counted_of_used_up (w := w) hr hs hn hw
    constructor
    · intro hd _ w hw
      exact (departing_iff (hcount w hw)).mp (hd hs hn w hw)
    · intro hrel _ _ w hw
      exact (departing_iff (hcount w hw)).mpr (hrel (Or.inl rfl) w hw)
  | queueReady hs | peekHead elt hs | peekNull hs | isRunning elt hs | selected elt hs | eltNext elt next hs
    | eltNull elt hs | insertRunning w hs | postWorker w hs | waitForWorker w n hs =>
    exact iff_of_true (fun hl => by rw [hs] at hl; cases hl) (h.keep hstart nofun fun _ => id)
  | enterQueue w hw | loopTurn w i n hw | exitTurn w i n hw | leaveQueue w hw | readNum w hw | writeNum w num hw
    | fifoRemoveRunning w i hp hw | rrRemoveRunning w i hp hw | removeQueue w i hw | insertQueue w i hw
    | postLoop w i hw | postExit w i hw =>
    exact iff_of_true trivial (h.worker_keep hstart rfl (by rw [hw]; nofun) rfl)

/-- The scheduler can be done while the last worker has still to release the CPU. -/
theorem can_overtake (hp : cfg.policy = .fifo) (h2 : 2 ≤ cfg.queueSize) (hmax : cfg.queueSize ≤ intMax)
    (hN : 1 ≤ cfg.threadCount) : Can (step cfg)
      (fun s => s.sched = .done ∧ s.worker (cfg.threadCount - 1) = .removeRunning cfg.iterations) (initSchedQueue cfg) := by
  have hlast : cfg.threadCount - 1 < cfg.threadCount := by omega
  apply (can_solo hp (by omega) hmax hlast).trans
  intro s hs
  apply (solo_wakes hs hlast).trans
  intro t h
  have hx : t.main ≠ .exit := by rw [h.main]; nofun
  have hn : t.numWorkersRemaining = 1 := by rw [h.num]; omega
  apply can_wait (n := cfg.queueSize - 2) h.sched hx (by rw [h.queueSem]; omega)
  apply can_decrement (s := t.resumed (cfg.queueSize - 2)) (w := cfg.threadCount - 1) (n := 0)
    (by simp [h.worker]) hx
    (by simp [h.infoSem])
  refine can_move (.loopDone rfl (by simp [hn])) hx ?_
  exact .here ⟨rfl, State.decremented_worker _ 0⟩

end

/-- All states of a run keep clear of a release that is still going on exactly
if the scheduler does not leave its loop while a worker is departing. With
workers at all, some run fails. -/
theorem clean_up_released (cfg : Config) (hp : cfg.policy = .fifo) (h2 : 2 ≤ cfg.queueSize)
    (hmax : cfg.queueSize ≤ intMax) :
    (∀ es s tr, run (step cfg) (initSchedQueue cfg) es = some (s, tr) →
      (Guarded (step cfg) (Drained cfg) (initSchedQueue cfg) es ↔
        Throughout (step cfg) (Released cfg) (initSchedQueue cfg) es)) ∧
    ((∀ es s tr, run (step cfg) (initSchedQueue cfg) es = some (s, tr) → Released cfg s) ↔ cfg.threadCount = 0) := by
  constructor
  · intro es s tr hr
    refine guarded_iff_throughout (I := Reachable (step cfg) (initSchedQueue cfg))
      (fun _ _ _ _ h hs => h.next hs)
      (fun _ _ _ _ hr h hs => released_step hr h hs) Reachable.start ?_ hr
    intro hend
    exact (hend.elim nofun fun h => h.elim nofun nofun)
  · constructor
    · intro h
      by_contra h0
      have hN : 1 ≤ cfg.threadCount := by omega
      obtain ⟨es, s, tr, hr, hd, hw⟩ := can_overtake hp h2 hmax hN
      have hfin := h es s tr hr (Or.inl hd) (cfg.threadCount - 1) (by omega)
      rw [hw] at hfin
      cases hfin
    · intro h0 es s tr hr _ w hw
      omega

theorem clean_up_released_one :
    (∀ es s tr, run (step ⟨.fifo, 2, 1, 0⟩) (initSchedQueue ⟨.fifo, 2, 1, 0⟩) es = some (s, tr) →
      (Guarded (step ⟨.fifo, 2, 1, 0⟩) (Drained ⟨.fifo, 2, 1, 0⟩) (initSchedQueue ⟨.fifo, 2, 1, 0⟩) es ↔
        Throughout (step ⟨.fifo, 2, 1, 0⟩) (Released ⟨.fifo, 2, 1, 0⟩) (initSchedQueue ⟨.fifo, 2, 1, 0⟩) es)) ∧
    ¬ ∀ es s tr, run (step ⟨.fifo, 2, 1, 0⟩) (initSchedQueue ⟨.fifo, 2, 1, 0⟩) es = some (s, tr) →
      Released ⟨.fifo, 2, 1, 0⟩ s := by
  obtain ⟨hdrained, hall⟩ := clean_up_released ⟨.fifo, 2, 1, 0⟩ rfl (by decide) (by decide)
  exact ⟨hdrained, hall.not.mpr (by decide)⟩

/-- The worker decrements the counter, the scheduler is done, and main destroys
the lists that the worker has still to work on. -/
def overtakeSchedule : List Thread :=
  List.replicate 4 .main ++ [.worker 0] ++ List.replicate 7 .sched ++ List.replicate 4 (.worker 0) ++ [.sched] ++
    List.replicate 3 .main

theorem clean_up_overtakes :
    ∃ s tr, run (step ⟨.fifo, 2, 1, 0⟩) (initSchedQueue ⟨.fifo, 2, 1, 0⟩) overtakeSchedule = some (s, tr) ∧
      s.main = .exit ∧ s.worker 0 = .removeRunning 0 ∧ ¬ Released ⟨.fifo, 2, 1, 0⟩ s := by
  refine ⟨_, _, rfl, rfl, rfl, ?_⟩
  intro h
  cases h (Or.inl rfl) 0 (by decide)

end OsLabs.Sched
