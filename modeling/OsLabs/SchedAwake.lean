import OsLabs.SchedCleanUp
import OsLabs.SchedSlots

/-!
# First in, first out with queue size 1 does not hang

While the scheduler is blocked, the one worker whose post it waits for can go
on. While it polls in vain with workers left, one of them has still to arrive.
-/

namespace OsLabs.Sched

/-- The worker is on the running list, or it is off the list and has not posted yet. -/
def Pending (s : State) (w : Nat) : Prop := w ∈ data s.running ∨ (s.worker w).releasing = true

/-- The scheduler is where it finds no worker to run. -/
def FindsNone (s : State) : Prop :=
  (s.sched = .waitForQueue ∨ s.sched = .peekHead) ∧ s.queue = [] ∨
    ∃ elt, s.sched = .eltNext elt ∧ nextElt elt s.queue = none

theorem releasing_or_onRunning {pc : WorkerPc} (h : pc.atRest = false) :
    pc.onRunning = true ∨ pc.releasing = true := by
  cases pc with
  | notCreated | enterQueue | waitForCpu | finished => cases h
  | leaveQueue | readNum | writeNum | removeRunning => exact Or.inl rfl
  | removeQueue | insertQueue | postQueue => exact Or.inr rfl

theorem releasing_atRest {pc : WorkerPc} (h : pc.releasing = true) : pc.atRest = false := by
  cases pc with
  | removeQueue | insertQueue | postQueue => rfl
  | notCreated | enterQueue | waitForCpu | finished | leaveQueue | readNum | writeNum | removeRunning => cases h

section
variable {cfg : Config} {s : State} {p : Phase}

theorem worker_awake {w i n : Nat} (hw : s.worker w = .waitForCpu i) (hx : s.main ≠ .exit)
    (hn : s.infoSem w = n + 1) : ∃ s' e, step cfg s (.worker w) = some (s', e) := by
  by_cases hi : i < cfg.iterations
  · exact ⟨_, _, step_iff.mpr ⟨.loopTurn w i n hw hn hi, fun _ _ => hx⟩⟩
  · exact ⟨_, _, step_iff.mpr ⟨.exitTurn w i n hw hn (Nat.le_of_not_lt hi), fun _ _ => hx⟩⟩

/-- A worker that has got the CPU has a step until it has posted. -/
theorem worker_goes_on {w : Nat} (hw : (s.worker w).atRest = false) (hx : s.main ≠ .exit) :
    ∃ s' e, step cfg s (.worker w) = some (s', e) := by
  have hmove : ∀ {s' e}, Moves cfg s (.worker w) s' e → ∃ s' e, step cfg s (.worker w) = some (s', e) :=
    fun hm => ⟨_, _, step_iff.mpr ⟨hm, fun _ _ => hx⟩⟩
  cases hpc : s.worker w with
  | notCreated | enterQueue | waitForCpu | finished =>
    rw [hpc] at hw
    cases hw
  | leaveQueue => exact hmove (.leaveQueue w hpc)
  | readNum => exact hmove (.readNum w hpc)
  | writeNum num => exact hmove (.writeNum w num hpc)
  | removeRunning i =>
    cases hp : cfg.policy with
    | fifo => exact hmove (.fifoRemoveRunning w i hp hpc)
    | rr => exact hmove (.rrRemoveRunning w i hp hpc)
  | removeQueue i => exact hmove (.removeQueue w i hpc)
  | insertQueue i => exact hmove (.insertQueue w i hpc)
  | postQueue i =>
    by_cases hi : i < cfg.iterations
    · exact hmove (.postLoop w i hpc hi)
    · exact hmove (.postExit w i hpc (Nat.le_of_not_lt hi))

theorem Single.pending (h : Single s p) {w : Nat} (hp : p = .woken w ∨ p = .working w) (u : Nat) :
    Pending s u ↔ u = w := by
  have hrel : (s.worker u).releasing = true → p = .working u := fun hu => h.working (releasing_atRest hu)
  unfold Pending
  rw [h.running]
  rcases hp with rfl | rfl
  · constructor
    · intro hu
      rcases hu with hu | hu
      · exact List.mem_singleton.mp hu
      · cases hrel hu
    · rintro rfl
      exact Or.inl (List.mem_singleton.mpr rfl)
  · have hrest : (s.worker w).atRest = false := by simp [h.rest]
    constructor
    · intro hu
      rcases hu with hu | hu
      · simp only [Phase.running] at hu
        split at hu
        · exact List.mem_singleton.mp hu
        · cases hu
      · cases hrel hu
        rfl
    · rintro rfl
      rcases releasing_or_onRunning hrest with hon | hre
      · exact Or.inl (by simp [Phase.running, hon])
      · exact Or.inr hre

/-- The worker whose post a blocked scheduler waits for has been posted or has the CPU. -/
theorem Single.awaited (h : Single s p) {v : Nat} (hs : s.sched = .waitForWorker v) (hq : s.queueSem = 0) :
    p = .woken v ∨ p = .working v := by
  have hf := h.fits
  have hsem := h.queueSem
  rw [hs] at hf
  rw [hq] at hsem
  cases p with
  | picking => exact absurd rfl (hf.2 v)
  | waking w => cases hf
  | woken w =>
    cases hf
    exact Or.inl rfl
  | working w =>
    cases hf
    exact Or.inr rfl
  | released w => cases hsem

theorem Fifo.woken_waits {es : List Event} {gone : List Nat} (h : Fifo cfg s es gone) (hs : Single s p)
    (hch : Chosen s) {w : Nat} (hi : s.infoSem w ≠ 0) : ∃ i, s.worker w = .waitForCpu i := by
  obtain rfl := hs.woken hi
  obtain ⟨t, ht⟩ := hch.picked w (Or.inr (Or.inr hi))
  have hqueued := h.queued w (by simp [ht])
  have hrest := hs.rest w
  cases hw : s.worker w with
  | waitForCpu i => exact ⟨i, rfl⟩
  | notCreated | enterQueue | readNum | writeNum | finished | removeQueue | insertQueue =>
    rw [hw] at hqueued
    cases hqueued
  | leaveQueue | removeRunning | postQueue =>
    rw [hw] at hrest
    cases hrest

theorem Fifo.not_inserted {es : List Event} {gone : List Nat} (h : Fifo cfg s es gone) {w : Nat}
    (hw : s.worker w = .notCreated) : w ∉ inserted es := by
  rw [h.order]
  intro hm
  rcases List.mem_append.mp hm with hm | hm
  · have hgone := h.gone w hm
    rw [hw] at hgone
    cases hgone
  · have hqueued := h.queued w hm
    rw [hw] at hqueued
    cases hqueued

theorem Single.picking_rest (h : Single s .picking) (w : Nat) : (s.worker w).atRest = true := by
  rw [h.rest]
  rfl

/-- With an empty queue and nobody on the CPU, a worker that has arrived has decremented the counter. -/
theorem Fifo.arrived_counted {es : List Event} {gone : List Nat} (h : Fifo cfg s es gone)
    (hs : Single s .picking) (hq : s.queue = []) {w : Nat} (hw : w ∈ inserted es) :
    (s.worker w).counted cfg = true := by
  have hgone : (s.worker w).gone cfg = true := by
    rw [h.order, hq] at hw
    exact h.gone w (by simpa using hw)
  have hrest := hs.picking_rest w
  cases hpc : s.worker w with
  | finished => rfl
  | notCreated | enterQueue | waitForCpu | leaveQueue | removeQueue | insertQueue =>
    rw [hpc] at hgone
    cases hgone
  | readNum | writeNum | removeRunning | postQueue =>
    rw [hpc] at hrest
    cases hrest

theorem FindsNone.idle (h : FindsNone s) (hch : Chosen s) (hs : Single s p) :
    s.queue = [] ∧ p = .picking := by
  rcases h with ⟨hwait, hq⟩ | ⟨elt, hwalk, -⟩
  · refine ⟨hq, ?_⟩
    rcases hwait with hwait | hwait
    · exact hs.picking (by rw [hwait]; nofun) (by rw [hwait]; nofun)
    · exact hs.picking (by rw [hwait]; nofun) (by rw [hwait]; nofun)
  · exact absurd hwalk (hch.walk elt)

theorem Counted.someone_missing {es : List Event} {gone : List Nat} (h : Counted cfg s) (hc : Created cfg s)
    (hf : Fifo cfg s es gone) (hs : Single s .picking) (hq : s.queue = []) (hN : 1 ≤ cfg.threadCount)
    (hn : 0 < s.numWorkersRemaining) : ∃ w, w < cfg.threadCount ∧ w ∉ inserted es := by
  by_cases hu : s.main = .startScheduler ∨ s.main = .setNum
  · exact ⟨0, hN, hf.not_inserted (hc.unset_notCreated hu 0)⟩
  · obtain ⟨h1, h2⟩ := not_or.mp hu
    have hcard := h.num h1 h2
    have hsub : ¬ Finset.range cfg.threadCount ⊆ exited cfg s := by
      intro hsub
      have hle := Finset.card_le_card hsub
      rw [Finset.card_range] at hle
      omega
    obtain ⟨w, hw, hnot⟩ := Finset.not_subset.mp hsub
    refine ⟨w, Finset.mem_range.mp hw, ?_⟩
    intro hin
    exact hnot (Finset.mem_filter.mpr ⟨hw, hf.arrived_counted hs hq hin⟩)

end

/-- While the scheduler is blocked, exactly one worker has still to post. It has
not exited, it has the CPU or is about to get it, and it has a step. While the
scheduler finds no worker to run with some remaining, one has still to arrive. -/
theorem fifo_awake (cfg : Config) (hp : cfg.policy = .fifo) (hq : cfg.queueSize = 1) (hN : 1 ≤ cfg.threadCount)
    (es : List Thread) (s : State) (tr : List (Thread × Option Event))
    (hr : run (step cfg) (initSchedQueue cfg) es = some (s, tr)) :
    (∀ v, s.sched = .waitForWorker v → s.queueSem = 0 → ∃ w, (∀ u, Pending s u ↔ u = w) ∧ s.worker w ≠ .finished ∧
      ((∃ i, s.worker w = .waitForCpu i ∧ 0 < s.infoSem w) ∨ (s.worker w).atRest = false) ∧
      ∃ s' e, step cfg s (.worker w) = some (s', e)) ∧
    (FindsNone s → 0 < s.numWorkersRemaining → ∃ w, w < cfg.threadCount ∧ w ∉ inserted (events tr)) := by
  obtain ⟨hc, ⟨p, hs⟩, hch, hn, gone, hf⟩ := fifo_run hp hq hr
  constructor
  · intro v hv hsem
    have hx : s.main ≠ .exit := by
      intro hx
      have hdone := (started_run hr).2.joined (Or.inr hx)
      rw [hv] at hdone
      cases hdone
    have hp := hs.awaited hv hsem
    refine ⟨v, hs.pending hp, ?_⟩
    rcases hp with rfl | rfl
    · have hone : s.infoSem v = 1 := (hs.infoSem v).trans (if_pos rfl)
      obtain ⟨i, hi⟩ := hf.woken_waits hs hch (w := v) (by omega)
      exact ⟨by rw [hi]; nofun, Or.inl ⟨i, hi, by omega⟩, worker_awake hi hx hone⟩
    · have hrest : (s.worker v).atRest = false := by simp [hs.rest]
      refine ⟨?_, Or.inr hrest, worker_goes_on hrest hx⟩
      intro hfin
      rw [hfin] at hrest
      cases hrest
  · intro hnone hpos
    obtain ⟨hempty, rfl⟩ := hnone.idle hch hs
    exact hn.someone_missing hc hf hs hempty hN hpos

/-- The scheduler wakes worker 1, which has its loop turn and does not post yet. -/
def awakeSchedule : List Thread :=
  List.replicate 7 .main ++ [.worker 1] ++ List.replicate 6 .sched ++ List.replicate 2 (.worker 1)

theorem fifo_awake_two :
    ∃ s tr, run (step ⟨.fifo, 1, 2, 1⟩) (initSchedQueue ⟨.fifo, 1, 2, 1⟩) awakeSchedule = some (s, tr) ∧
      s.sched = .waitForWorker 1 ∧ s.queueSem = 0 ∧ s.running = [] ∧
      (∀ v, s.sched = .waitForWorker v → s.queueSem = 0 → ∃ w, (∀ u, Pending s u ↔ u = w) ∧ s.worker w ≠ .finished ∧
        ((∃ i, s.worker w = .waitForCpu i ∧ 0 < s.infoSem w) ∨ (s.worker w).atRest = false) ∧
        ∃ s' e, step ⟨.fifo, 1, 2, 1⟩ s (.worker w) = some (s', e)) ∧
      (FindsNone s → 0 < s.numWorkersRemaining → ∃ w, w < 2 ∧ w ∉ inserted (events tr)) :=
  ⟨_, _, rfl, rfl, rfl, rfl, fifo_awake ⟨.fifo, 1, 2, 1⟩ rfl rfl (by decide) awakeSchedule _ _ rfl⟩

end OsLabs.Sched
