import Mathlib.Data.Finset.Card
import OsLabs.SchedReach

/-!
# The workers on the queue

Whether a worker is on the scheduler queue can be read off its program counter,
and it is never there twice. Nothing waits before the insertion in
`enter_sched_queue`, so that all workers can be on the queue together.
-/

namespace OsLabs.Sched

section
variable (cfg : Config)

/-- Under round robin a worker that has left the queue is put back by its release. -/
def WorkerPc.linked : WorkerPc → Bool
  | .waitForCpu _ | .leaveQueue => true
  | .removeRunning i | .removeQueue i => decide (i < cfg.iterations)
  | .postQueue i => decide (i < cfg.iterations ∨ cfg.policy = .rr)
  | .finished => decide (cfg.policy = .rr)
  | .notCreated | .enterQueue | .readNum | .writeNum _ | .insertQueue _ => false

/-- The worker has returned from `enter_sched_queue` and has not executed `leave_sched_queue`. -/
def WorkerPc.inside : WorkerPc → Bool
  | .waitForCpu _ | .leaveQueue => true
  | .removeRunning i | .removeQueue i | .insertQueue i | .postQueue i => decide (i < cfg.iterations)
  | .notCreated | .enterQueue | .readNum | .writeNum _ | .finished => false

def inside (s : State) : Finset Nat := (Finset.range cfg.threadCount).filter fun w => (s.worker w).inside cfg = true

structure Queued (s : State) : Prop where
  count : ∀ w, (data s.queue).count w = ((s.worker w).linked cfg).toNat
  releases : ∀ w i, s.worker w = .removeQueue i ∨ s.worker w = .insertQueue i → cfg.policy = .rr

theorem queued_init : Queued cfg (initSchedQueue cfg) := ⟨fun _ => rfl, fun _ _ h => h.elim nofun nofun⟩

end

section
variable {cfg : Config} {s s' : State} (h : Queued cfg s)
include h

theorem Queued.mem_iff {w : Nat} : w ∈ data s.queue ↔ (s.worker w).linked cfg = true := by
  rw [← List.count_pos_iff, h.count]
  cases (s.worker w).linked cfg <;> simp

theorem Queued.no_reinsert (hp : cfg.policy = .fifo) (w i : Nat) :
    ¬ (s.worker w = .removeQueue i ∨ s.worker w = .insertQueue i) := by
  intro hw
  have hrr := h.releases w i hw
  rw [hp] at hrr
  cases hrr

theorem Queued.nodup : (data s.queue).Nodup := by
  apply List.nodup_iff_count_le_one.mpr
  intro w
  rw [h.count]
  exact Bool.toNat_le _

theorem Queued.move {w : Nat} {pc : WorkerPc} (hw : s'.worker = (s.setWorker w pc).worker)
    (hq : ∀ u, (data s'.queue).count u = if u = w then (pc.linked cfg).toNat else (data s.queue).count u)
    (hrr : ∀ i, pc = .removeQueue i ∨ pc = .insertQueue i → cfg.policy = .rr) : Queued cfg s' := by
  refine ⟨?_, ?_⟩
  · intro u
    rw [hq, hw, State.setWorker_worker]
    by_cases hu : u = w
    · simp [hu]
    · simp [hu, h.count]
  · intro u i hu
    rw [hw, State.setWorker_worker] at hu
    by_cases heq : u = w
    · simp only [heq, ite_true] at hu
      exact hrr i hu
    · simp only [heq, ite_false] at hu
      exact h.releases u i hu

theorem Queued.stays {w : Nat} {pc : WorkerPc} (hw : s'.worker = (s.setWorker w pc).worker)
    (hq : s'.queue = s.queue) (hl : pc.linked cfg = (s.worker w).linked cfg)
    (hrr : ∀ i, pc = .removeQueue i ∨ pc = .insertQueue i → cfg.policy = .rr) : Queued cfg s' := by
  apply h.move hw ?_ hrr
  intro u
  by_cases hu : u = w
  · simp [hq, hl, hu, h.count]
  · simp [hq, hu]

theorem Queued.inserted {w : Nat} {pc : WorkerPc} (hw : s'.worker = (s.setWorker w pc).worker)
    (hq : data s'.queue = data s.queue ++ [w]) (hold : (s.worker w).linked cfg = false)
    (hnew : pc.linked cfg = true) (hrr : ∀ i, pc = .removeQueue i ∨ pc = .insertQueue i → cfg.policy = .rr) :
    Queued cfg s' := by
  apply h.move hw ?_ hrr
  intro u
  rw [hq, List.count_append, List.count_singleton]
  by_cases hu : u = w
  · simp [hu, hold, hnew, h.count]
  · simp [hu, Ne.symm hu]

theorem Queued.removed {w : Nat} {pc : WorkerPc} (hw : s'.worker = (s.setWorker w pc).worker)
    (hq : data s'.queue = (data s.queue).erase w) (hnew : pc.linked cfg = false)
    (hrr : ∀ i, pc = .removeQueue i ∨ pc = .insertQueue i → cfg.policy = .rr) : Queued cfg s' := by
  apply h.move hw ?_ hrr
  intro u
  rw [hq, List.count_erase]
  by_cases hu : u = w
  · have hle := Bool.toNat_le ((s.worker w).linked cfg)
    simp [hu, hnew, h.count]
    omega
  · simp [hu, Ne.symm hu]

theorem queued_step {t : Thread} {e : Option Event} (hc : Created cfg s) (hm : Moves cfg s t s' e) :
    Queued cfg s' := by
  cases hm with
  | startScheduler | setNum | initThread | initDone | join | cleanUp | poll | queueReady | loop | loopDone
    | peekHead | peekNull | isRunning | selected | eltNext | eltNull | insertRunning | postWorker | waitForWorker =>
    exact ⟨h.count, h.releases⟩
  | createThread i hm =>
    have hnew := hc.later i (by rw [hm]; rfl) i (Nat.le_refl i)
    exact h.stays rfl rfl (by rw [hnew]; rfl) (by simp)
  | enterQueue w hw => exact h.inserted rfl (data_append ..) (by rw [hw]; rfl) rfl (by simp)
  | loopTurn w i n hw hn hi => exact h.stays rfl rfl (by simp [hw, WorkerPc.linked, hi]) (by simp)
  | exitTurn w i n hw => exact h.stays rfl rfl (by simp [hw, WorkerPc.linked]) (by simp)
  | leaveQueue w hw => exact h.removed rfl (data_removeItem w s.queue) rfl (by simp)
  | readNum w hw => exact h.stays rfl rfl (by simp [hw, WorkerPc.linked]) (by simp)
  | writeNum w num hw => exact h.stays rfl rfl (by simp [hw, WorkerPc.linked]) (by simp)
  | fifoRemoveRunning w i hp hw => exact h.stays rfl rfl (by simp [hw, WorkerPc.linked, hp]) (by simp)
  | rrRemoveRunning w i hp hw => exact h.stays rfl rfl (by simp [hw, WorkerPc.linked]) fun _ _ => hp
  | removeQueue w i hw =>
    have hp := h.releases w i (Or.inl hw)
    exact h.removed rfl (data_removeItem w s.queue) rfl fun _ _ => hp
  | insertQueue w i hw =>
    have hp := h.releases w i (Or.inr hw)
    exact h.inserted rfl (data_append ..) (by rw [hw]; rfl) (by simp [WorkerPc.linked, hp]) (by simp)
  | postLoop w i hw hi => exact h.stays rfl rfl (by simp [hw, WorkerPc.linked, hi]) (by simp)
  | postExit w i hw hi => exact h.stays rfl rfl (by simp [hw, WorkerPc.linked, Nat.not_lt.mpr hi]) (by simp)

end

theorem queued_run {cfg : Config} {es : List Thread} {s : State} {tr : List (Thread × Option Event)}
    (hr : run (step cfg) (initSchedQueue cfg) es = some (s, tr)) : Created cfg s ∧ Queued cfg s :=
  run_inv (I := fun s => Created cfg s ∧ Queued cfg s)
    (fun _ _ _ _ h _ hs => ⟨created_step h.1 (step_moves hs), queued_step h.2 h.1 (step_moves hs)⟩)
    ⟨created_init cfg, queued_init cfg⟩ (guarded_true _ es) hr

/-! ## The capacity of the queue -/

theorem Queued.length_le {cfg : Config} {s : State} (h : Queued cfg s) (hc : Created cfg s) :
    s.queue.length ≤ cfg.threadCount := by
  have hsub : (data s.queue).toFinset ⊆ Finset.range cfg.threadCount := by
    intro w hw
    exact Finset.mem_range.mpr (hc.worker w (hc.queue w (List.mem_toFinset.mp hw)))
  have hcard := Finset.card_le_card hsub
  rw [List.toFinset_card_of_nodup h.nodup, Finset.card_range] at hcard
  simpa [data] using hcard

theorem Arrived.inside_eq {cfg : Config} {s : State} (h : Arrived cfg cfg.threadCount s) :
    inside cfg s = Finset.range cfg.threadCount := by
  apply Finset.filter_true_of_mem
  intro w hw
  rw [h.worker, if_pos (Finset.mem_range.mp hw)]
  rfl

/-- The queue keeps its capacity in every run only when there are not more workers than places. -/
theorem queue_capacity (cfg : Config) :
    (∀ es s tr, run (step cfg) (initSchedQueue cfg) es = some (s, tr) →
      (inside cfg s).card ≤ cfg.queueSize ∧ s.queue.length ≤ cfg.queueSize) ↔
    cfg.threadCount ≤ cfg.queueSize := by
  constructor
  · intro h
    obtain ⟨es, s, tr, hr, hs⟩ := can_arrive (Nat.le_refl cfg.threadCount)
    have hcard := (h es s tr hr).1
    rwa [hs.inside_eq, Finset.card_range] at hcard
  · intro hle es s tr hr
    obtain ⟨hc, hq⟩ := queued_run hr
    have hcard : (inside cfg s).card ≤ cfg.threadCount :=
      (Finset.card_filter_le ..).trans (Finset.card_range _).le
    exact ⟨hcard.trans hle, (hq.length_le hc).trans hle⟩

/-- Main creates two workers, and both enter a queue with one place. -/
theorem queue_overfull :
    ∃ s tr, run (step ⟨.fifo, 1, 2, 1⟩) (initSchedQueue ⟨.fifo, 1, 2, 1⟩)
        (List.replicate 6 .main ++ [.worker 0, .worker 1]) = some (s, tr) ∧
      (inside ⟨.fifo, 1, 2, 1⟩ s).card = 2 ∧ data s.queue = [0, 1] :=
  ⟨_, _, rfl, by decide, rfl⟩

end OsLabs.Sched
