import OsLabs.SchedFifo
import OsLabs.SchedLinked
import OsLabs.SchedSlots

/-!
# The walk of `next_worker` against a worker that leaves

`next_worker` tests a worker's membership in the running list, which the worker
leaves after it has left the queue. A worker that does both while the scheduler
is about to make the test is taken for one that waits, and is woken.
-/

namespace OsLabs.Sched

/-- The worker that `next_worker` returns is on the queue, and none that has left is woken. -/
structure WakesLinked (cfg : Config) (s : State) : Prop where
  returned : ∀ elt, s.sched = .inRunning elt → elt.datum ∉ data s.running → elt ∈ s.queue
  woken : ∀ w, s.sched = .insertRunning w ∨ s.sched = .postWorker w →
    w ∈ data s.queue ∧ (s.worker w).gone cfg = false

/-- No worker takes itself off the running list on its way out while the
scheduler is about to look for it there. -/
def LeavesUnseen (cfg : Config) (s : State) : Thread → Prop
  | .worker w => ∀ i elt, s.worker w = .removeRunning i → cfg.iterations ≤ i → s.sched = .inRunning elt → elt.datum ≠ w
  | .main | .sched => True

/-- A worker has one cell on the queue, and is on the running list at most once. -/
structure Once (s : State) : Prop where
  nodup : (data s.running).Nodup
  fresh : ∀ w, s.sched = .insertRunning w → w ∉ data s.running
  walk : ∀ elt, s.sched = .inRunning elt ∨ s.sched = .eltNext elt →
    (s.worker elt.datum).isNew = false ∧ (elt.datum ∈ data s.queue → elt ∈ s.queue)

theorem once_init (cfg : Config) : Once (initSchedQueue cfg) := ⟨List.nodup_nil, nofun, fun _ h => h.elim nofun nofun⟩

theorem linked_not_new {cfg : Config} {pc : WorkerPc} (h : pc.linked cfg = true) : pc.isNew = false := by
  cases pc with
  | notCreated | enterQueue => cases h
  | waitForCpu | leaveQueue | readNum | writeNum | removeRunning | removeQueue | insertQueue | postQueue | finished => rfl

theorem linked_not_gone {cfg : Config} (hp : cfg.policy = .fifo) {pc : WorkerPc} (h : pc.linked cfg = true) :
    pc.gone cfg = false := by
  cases pc with
  | removeRunning i | postQueue i => simpa [WorkerPc.linked, WorkerPc.gone, hp] using h
  | finished => simp [WorkerPc.linked, hp] at h
  | readNum | writeNum => cases h
  | notCreated | enterQueue | waitForCpu | leaveQueue | removeQueue | insertQueue => rfl

section
variable {cfg : Config} {s s' : State} (h : Once s)
include h

theorem Once.sched_move (hr : s'.running = s.running) (hi : ∀ w, s'.sched = .insertRunning w → w ∉ data s.running)
    (hw : ∀ elt, s'.sched = .inRunning elt ∨ s'.sched = .eltNext elt →
      (s'.worker elt.datum).isNew = false ∧ (elt.datum ∈ data s'.queue → elt ∈ s'.queue)) : Once s' :=
  ⟨by rw [hr]; exact h.nodup, by rw [hr]; exact hi, hw⟩

theorem Once.worker_move {w : Nat} {pc : WorkerPc} (hw : s'.worker = (s.setWorker w pc).worker) (hnew : pc.isNew = false)
    (hs : s'.sched = s.sched) (hr : data s'.running = data s.running ∨ data s'.running = (data s.running).erase w)
    (hq : ∀ elt, (s.worker elt.datum).isNew = false → (elt.datum ∈ data s.queue → elt ∈ s.queue) →
      elt.datum ∈ data s'.queue → elt ∈ s'.queue) : Once s' := by
  refine ⟨?_, ?_, ?_⟩
  · rcases hr with hr | hr
    · rw [hr]
      exact h.nodup
    · rw [hr]
      exact h.nodup.erase w
  · intro u hu hm
    apply h.fresh u (hs ▸ hu)
    rcases hr with hr | hr
    · rwa [hr] at hm
    · rw [hr] at hm
      exact List.mem_of_mem_erase hm
  · intro elt he
    obtain ⟨hold, hmem⟩ := h.walk elt (hs ▸ he)
    refine ⟨?_, hq elt hold hmem⟩
    rw [hw, State.setWorker_worker]
    by_cases hu : elt.datum = w
    · simp [hu, hnew]
    · simp [hu, hold]

theorem once_step (hp : cfg.policy = .fifo) (hc : Created cfg s) (hl : Queued cfg s) {t : Thread}
    {e : Option Event} (hm : Moves cfg s t s' e) : Once s' := by
  have hmem : ∀ elt ∈ s.queue, (s.worker elt.datum).isNew = false ∧
      (elt.datum ∈ data s.queue → elt ∈ s.queue) := by
    intro elt he
    exact ⟨linked_not_new (hl.mem_iff.mp (List.mem_map_of_mem he)), fun _ => he⟩
  cases hm with
  | startScheduler hm => exact h.sched_move rfl nofun fun _ he => he.elim nofun nofun
  | setNum | initThread | initDone | join | cleanUp | poll => exact ⟨h.nodup, h.fresh, h.walk⟩
  | createThread i hm =>
    refine ⟨h.nodup, h.fresh, ?_⟩
    intro elt he
    obtain ⟨hold, hq⟩ := h.walk elt he
    refine ⟨?_, hq⟩
    have hnew := hc.later i (by rw [hm]; rfl) i (Nat.le_refl i)
    rw [show _ = s.worker elt.datum from State.setWorker_ne s ?_ .enterQueue]
    · exact hold
    · rintro rfl
      rw [hnew] at hold
      cases hold
  | queueReady | loop | loopDone | peekNull | eltNull | postWorker | waitForWorker =>
    exact h.sched_move rfl nofun fun _ he => he.elim nofun nofun
  | peekHead elt hs hq =>
    refine h.sched_move rfl nofun ?_
    intro elt' he
    obtain rfl : elt = elt' := by simpa using he
    exact hmem elt (List.mem_of_mem_head? hq)
  | isRunning elt hs =>
    refine h.sched_move rfl nofun ?_
    intro elt' he
    obtain rfl : elt = elt' := by simpa using he
    exact h.walk elt (Or.inl hs)
  | eltNext elt next hs hq =>
    refine h.sched_move rfl nofun ?_
    intro elt' he
    obtain rfl : next = elt' := by simpa using he
    exact hmem next (mem_of_nextElt hq)
  | selected elt hs hr =>
    refine h.sched_move rfl ?_ fun _ he => he.elim nofun nofun
    intro w hw
    cases hw
    exact hr
  | insertRunning w hs =>
    refine ⟨?_, nofun, fun _ he => he.elim nofun nofun⟩
    rw [show data _ = data s.running ++ [w] from data_append ..]
    exact List.nodup_append'.mpr ⟨h.nodup, List.nodup_singleton w, by simpa using h.fresh w hs⟩
  | enterQueue w hw =>
    refine h.worker_move rfl rfl rfl (Or.inl rfl) ?_
    intro elt hold hq hm
    have hne : elt.datum ≠ w := by
      intro heq
      rw [heq, hw] at hold
      cases hold
    rw [State.setWorker_queue, State.insertQueueTail_queue] at hm
    have hin : elt.datum ∈ data s.queue := by simpa [hne] using hm
    exact List.mem_append_left _ (hq hin)
  | leaveQueue w hw =>
    refine h.worker_move rfl rfl rfl (Or.inl rfl) ?_
    intro elt hold hq hm
    rw [show data _ = (data s.queue).erase w from data_removeItem w s.queue] at hm
    have hne : elt.datum ≠ w := by
      rintro rfl
      exact hl.nodup.not_mem_erase hm
    exact (List.mem_eraseP_of_neg (by simp [hne])).mpr (hq (List.mem_of_mem_erase hm))
  | removeQueue w i hw => exact absurd (Or.inl hw) (hl.no_reinsert hp w i)
  | insertQueue w i hw => exact absurd (Or.inr hw) (hl.no_reinsert hp w i)
  | loopTurn w i n hw | exitTurn w i n hw | readNum w hw | writeNum w num hw | postLoop w i hw | postExit w i hw =>
    exact h.worker_move rfl rfl rfl (Or.inl rfl) fun _ _ hq => hq
  | fifoRemoveRunning w i hp hw | rrRemoveRunning w i hp hw =>
    exact h.worker_move rfl rfl rfl (Or.inr (data_removeItem w s.running)) fun _ _ hq => hq

end

/-! ## One step -/

section
variable {cfg : Config} {s s' : State}

/-- A worker that the scheduler is about to wake has no turn to come. -/
theorem Once.picked_waits (h : Once s) (hl : Slots cfg s) {w : Nat}
    (hw : s.sched = .insertRunning w ∨ s.sched = .postWorker w) :
    s.infoSem w = 0 ∧ (s.worker w).onRunning = false := by
  have hcount := hl.count w
  have htoNat : (s.worker w).onRunning.toNat = 0 → (s.worker w).onRunning = false := Bool.toNat_eq_zero.mp
  rcases hw with hw | hw
  · rw [List.count_eq_zero_of_not_mem (h.fresh w hw)] at hcount
    exact ⟨by omega, htoNat (by omega)⟩
  · have hle := List.nodup_iff_count_le_one.mp h.nodup w
    rw [hw] at hcount
    simp only [SchedPc.posting, ite_true] at hcount
    exact ⟨by omega, htoNat (by omega)⟩

theorem WakesLinked.keep (h : WakesLinked cfg s) (hs : s'.sched = s.sched)
    (hr : ∀ u ∈ data s.running, u ∈ data s'.running)
    (hq : ∀ c ∈ s.queue, c ∈ s'.queue)
    (hw : ∀ w, s.sched = .insertRunning w ∨ s.sched = .postWorker w →
      (s.worker w).gone cfg = false → (s'.worker w).gone cfg = false) : WakesLinked cfg s' := by
  refine ⟨?_, ?_⟩
  · intro elt he hn
    exact hq elt (h.returned elt (hs ▸ he) fun hm => hn (hr _ hm))
  · intro w hu
    rw [hs] at hu
    obtain ⟨hin, hg⟩ := h.woken w hu
    obtain ⟨c, hc, rfl⟩ := List.mem_map.mp hin
    exact ⟨List.mem_map_of_mem (hq c hc), hw _ hu hg⟩

/-- A step of a worker that takes nothing off a list: only one with the CPU can be gone after it. -/
theorem WakesLinked.worker_keep (h : WakesLinked cfg s) (ho : Once s) (hl : Slots cfg s) {w : Nat}
    {pc : WorkerPc} (hw : s'.worker = (s.setWorker w pc).worker) (hs : s'.sched = s.sched)
    (hr : s'.running = s.running) (hq : ∀ c ∈ s.queue, c ∈ s'.queue)
    (hg : pc.gone cfg = true → (s.worker w).gone cfg = true ∨ (s.worker w).onRunning = true) :
    WakesLinked cfg s' := by
  apply h.keep hs (fun u hu => hr ▸ hu) hq
  intro u hu hnot
  rw [hw, State.setWorker_worker]
  by_cases heq : u = w
  · subst heq
    have hwaits := (ho.picked_waits hl hu).2
    simp only [ite_true]
    by_contra hgone
    rcases hg (by simpa using hgone) with hold | hon
    · rw [hnot] at hold
      cases hold
    · rw [hwaits] at hon
      cases hon
  · simpa [heq] using hnot

/-- What the scheduler has between the choice of a worker and the post for it does not change by its own steps. -/
theorem wakesLinked_idle (hs : ∀ elt, s.sched ≠ .inRunning elt)
    (hw : ∀ w, s.sched ≠ .insertRunning w ∧ s.sched ≠ .postWorker w) : WakesLinked cfg s :=
  ⟨fun elt he => absurd he (hs elt), fun w hu => absurd hu (not_or.mpr (hw w))⟩

theorem wakesLinked_reached {elt : Cell} (hs : s.sched = .inRunning elt) (hq : elt ∈ s.queue) :
    WakesLinked cfg s := by
  refine ⟨?_, ?_⟩
  · intro elt' he _
    rw [hs] at he
    cases he
    exact hq
  · intro w hu
    rw [hs] at hu
    exact hu.elim nofun nofun

theorem WakesLinked.selects (h : WakesLinked cfg s) (hq : Queued cfg s) (hp : cfg.policy = .fifo) {elt : Cell}
    (hs : s.sched = .inRunning elt) (hr : elt.datum ∉ data s.running) :
    WakesLinked cfg { s with sched := .insertRunning elt.datum } := by
  have hmem : elt.datum ∈ data s.queue := List.mem_map_of_mem (h.returned elt hs hr)
  refine ⟨nofun, ?_⟩
  intro w hw
  obtain rfl : elt.datum = w := by simpa using hw
  refine ⟨hmem, ?_⟩
  exact linked_not_gone hp (hq.mem_iff.mp hmem)

/-- The removal from the running list is where the walk can go wrong. -/
theorem removes_iff (h : WakesLinked cfg s) (ho : Once s) (hl : Slots cfg s) (hq : Queued cfg s) {w i : Nat}
    (hw : s.worker w = .removeRunning i) :
    LeavesUnseen cfg s (.worker w) ↔
      WakesLinked cfg { s.setWorker w (.postQueue i) with running := removeItem w s.running } := by
  have hlinked : w ∈ data s.queue ↔ i < cfg.iterations := by
    rw [hq.mem_iff, hw]
    simp [WorkerPc.linked]
  have hnot : w ∉ data (removeItem w s.running) := by
    rw [data_removeItem]
    exact ho.nodup.not_mem_erase
  constructor
  · intro hun
    refine ⟨?_, ?_⟩
    · intro elt he hn
      by_cases heq : elt.datum = w
      · have hlt : i < cfg.iterations := by
          by_contra hle
          exact hun i elt hw (Nat.le_of_not_lt hle) he heq
        exact (ho.walk elt (Or.inl he)).2 (heq ▸ hlinked.mpr hlt)
      · exact h.returned elt he fun hm => hn (mem_removeItem hm heq)
    · intro u hu
      obtain ⟨hin, hg⟩ := h.woken u hu
      refine ⟨hin, ?_⟩
      by_cases heq : u = w
      · have hwaits := (ho.picked_waits hl hu).2
        rw [heq, hw] at hwaits
        cases hwaits
      · rw [show _ = s.worker u from s.setWorker_ne heq (.postQueue i)]
        exact hg
  · intro hlk j elt hj hle he heq
    rw [hw] at hj
    cases hj
    have hmem := hlk.returned elt he (heq ▸ hnot)
    have hin : w ∈ data s.queue := heq ▸ List.mem_map_of_mem hmem
    have := hlinked.mp hin
    omega

theorem wakesLinked_step (hp : cfg.policy = .fifo) (hc : Created cfg s) (hl : Slots cfg s) (hq : Queued cfg s)
    (ho : Once s) (h : WakesLinked cfg s) {t : Thread} {e : Option Event}
    (hm : Moves cfg s t s' e) : LeavesUnseen cfg s t ↔ WakesLinked cfg s' := by
  have hother : ∀ {w : Nat}, (∀ i, s.worker w ≠ .removeRunning i) → LeavesUnseen cfg s (.worker w) :=
    fun hw i elt hj => absurd hj (hw i)
  cases hm with
  | startScheduler | queueReady | loop | loopDone | peekNull | isRunning | eltNull | waitForWorker =>
    exact iff_of_true trivial (wakesLinked_idle nofun fun _ => ⟨nofun, nofun⟩)
  | setNum | initThread | initDone | join | cleanUp | poll => exact iff_of_true trivial ⟨h.returned, h.woken⟩
  | createThread i hm =>
    have hnew := hc.later i (by rw [hm]; rfl) i (Nat.le_refl i)
    exact iff_of_true trivial (h.worker_keep ho hl rfl rfl rfl (fun _ => id) nofun)
  | peekHead elt hs hq => exact iff_of_true trivial (wakesLinked_reached rfl (List.mem_of_mem_head? hq))
  | eltNext elt next hs hq => exact iff_of_true trivial (wakesLinked_reached rfl (mem_of_nextElt hq))
  | selected elt hs hr => exact iff_of_true trivial (h.selects hq hp hs hr)
  | insertRunning w hs =>
    refine iff_of_true trivial ⟨nofun, ?_⟩
    intro u hu
    obtain rfl : w = u := by simpa using hu
    exact h.woken w (Or.inl hs)
  | postWorker w hs => exact iff_of_true trivial (wakesLinked_idle nofun fun _ => ⟨nofun, nofun⟩)
  | leaveQueue w hw =>
    refine iff_of_true (hother (by rw [hw]; nofun)) ⟨?_, ?_⟩
    · intro elt he hn
      have hne : elt.datum ≠ w := by
        rintro rfl
        exact hn (hl.mem_running (by rw [hw]; rfl))
      exact (List.mem_eraseP_of_neg (by simp [hne])).mpr (h.returned elt he hn)
    · intro u hu
      obtain ⟨hin, hg⟩ := h.woken u hu
      have hne : u ≠ w := by
        rintro rfl
        have hwaits := (ho.picked_waits hl hu).2
        rw [hw] at hwaits
        cases hwaits
      refine ⟨mem_removeItem hin hne, ?_⟩
      rw [show _ = s.worker u from s.setWorker_ne hne .readNum]
      exact hg
  | fifoRemoveRunning w i hp' hw => exact removes_iff h ho hl hq hw
  | rrRemoveRunning w i hrr =>
    rw [hp] at hrr
    cases hrr
  | removeQueue w i hw => exact absurd (Or.inl hw) (hq.no_reinsert hp w i)
  | insertQueue w i hw => exact absurd (Or.inr hw) (hq.no_reinsert hp w i)
  | enterQueue w hw =>
    exact iff_of_true (hother (by rw [hw]; nofun))
      (h.worker_keep ho hl rfl rfl rfl (fun c hc => List.mem_append_left _ hc) nofun)
  | exitTurn w i n hw | postLoop w i hw =>
    exact iff_of_true (hother (by rw [hw]; nofun)) (h.worker_keep ho hl rfl rfl rfl (fun _ => id) nofun)
  | loopTurn w i n hw hn hi =>
    refine iff_of_true (hother (by rw [hw]; nofun)) (h.worker_keep ho hl rfl rfl rfl (fun _ => id) ?_)
    simp [WorkerPc.gone, hi]
  | readNum w hw | writeNum w num hw =>
    exact iff_of_true (hother (by simp [hw]))
      (h.worker_keep ho hl rfl rfl rfl (fun _ => id) fun _ => Or.inr (by rw [hw]; rfl))
  | postExit w i hw hi =>
    refine iff_of_true (hother (by simp [hw]))
      (h.worker_keep ho hl rfl rfl rfl (fun _ => id) fun _ => Or.inl ?_)
    simp [hw, WorkerPc.gone, hi]

/-! ## Runs -/

theorem once_run (hp : cfg.policy = .fifo) {es : List Thread} {tr : List (Thread × Option Event)}
    (hr : run (step cfg) (initSchedQueue cfg) es = some (s, tr)) : Once s := by
  have h : Created cfg s ∧ Queued cfg s ∧ Once s := by
    refine run_inv (I := fun s => Created cfg s ∧ Queued cfg s ∧ Once s) ?_
      ⟨created_init cfg, queued_init cfg, once_init cfg⟩ (guarded_true _ es) hr
    rintro s t s' e ⟨hc, hq, ho⟩ - hst
    have hm := step_moves hst
    exact ⟨created_step hc hm, queued_step hq hc hm, once_step ho hp hc hq hm⟩
  exact h.2.2

/-- The scheduler can come to the test of a worker that takes itself off both lists before the test is made. -/
theorem can_stray (hp : cfg.policy = .fifo) (h2 : 2 ≤ cfg.queueSize) (hmax : cfg.queueSize ≤ intMax)
    (hN : 1 ≤ cfg.threadCount) : Can (step cfg)
      (fun s => ∃ elt, s.sched = .inRunning elt ∧ data s.queue = [] ∧ data s.running = []) (initSchedQueue cfg) := by
  apply (can_solo hp (by omega) hmax hN).trans
  intro s hs
  apply (solo_wakes hs hN).trans
  intro t h
  obtain ⟨elt, hq, helt⟩ := data_eq_singleton h.queue
  have hx : t.main ≠ .exit := by rw [h.main]; nofun
  apply can_wait (n := cfg.queueSize - 2) h.sched hx (by rw [h.queueSem]; omega)
  refine can_move (.loop rfl (by rw [State.resumed_num, h.num]; omega)) hx ?_
  refine can_move (.peekHead elt rfl (by simp [hq])) hx ?_
  refine can_decrement (w := 0) (n := 0) (by simp [h.worker]) hx (by simp [h.infoSem]) ?_
  refine can_move (.fifoRemoveRunning 0 cfg.iterations hp (State.decremented_worker 0 0)) hx ?_
  refine .here ⟨elt, rfl, ?_, ?_⟩
  · simp [State.setWorker, data_removeItem, h.queue]
  · simp [data_removeItem, h.running]

end

/-- All wake-ups of a run are of workers on the queue exactly if no worker takes
itself off the running list while the scheduler is about to look for it there.
With workers at all, some run fails. -/
theorem wakes_linked (cfg : Config) (hp : cfg.policy = .fifo) (h2 : 2 ≤ cfg.queueSize) (hmax : cfg.queueSize ≤ intMax) :
    (∀ es s tr, run (step cfg) (initSchedQueue cfg) es = some (s, tr) →
      (Guarded (step cfg) (LeavesUnseen cfg) (initSchedQueue cfg) es ↔
        Throughout (step cfg) (WakesLinked cfg) (initSchedQueue cfg) es)) ∧
    ((∀ es s tr, run (step cfg) (initSchedQueue cfg) es = some (s, tr) → WakesLinked cfg s) ↔ cfg.threadCount = 0) := by
  constructor
  · intro es s tr hr
    refine guarded_iff_throughout (I := Reachable (step cfg) (initSchedQueue cfg))
      (fun _ _ _ _ h hs => h.next hs)
      ?_ Reachable.start (wakesLinked_idle nofun fun _ => ⟨nofun, nofun⟩) hr
    rintro s t s' e ⟨es, tr, hr⟩ h hst
    obtain ⟨hc, hl⟩ := slots_run hr
    exact wakesLinked_step hp hc hl (queued_run hr).2 (once_run hp hr) h (step_moves hst)
  · constructor
    · intro h
      by_contra h0
      obtain ⟨es, s, tr, hr, elt, hs, hq, hrun⟩ := can_stray hp h2 hmax (Nat.pos_of_ne_zero h0)
      have hmem := (h es s tr hr).returned elt hs (by simp [hrun])
      have hdata : elt.datum ∈ data s.queue := List.mem_map_of_mem hmem
      rw [hq] at hdata
      cases hdata
    · intro h0 es s tr hr
      obtain ⟨hc, hq⟩ := queued_run hr
      have hnone : s.queue = [] := List.length_eq_zero_iff.mp (by have := hq.length_le hc; omega)
      have hpicked : ∀ w, w ∉ s.sched.picked := by
        intro w hw
        have := hc.worker w (hc.picked w hw)
        omega
      refine wakesLinked_idle ?_ ?_
      · intro elt he
        exact hpicked elt.datum (by rw [he]; rfl)
      · intro w
        exact ⟨fun hw => hpicked w (by rw [hw]; rfl), fun hw => hpicked w (by rw [hw]; rfl)⟩

theorem wakes_linked_one :
    (∀ es s tr, run (step ⟨.fifo, 2, 1, 0⟩) (initSchedQueue ⟨.fifo, 2, 1, 0⟩) es = some (s, tr) →
      (Guarded (step ⟨.fifo, 2, 1, 0⟩) (LeavesUnseen ⟨.fifo, 2, 1, 0⟩) (initSchedQueue ⟨.fifo, 2, 1, 0⟩) es ↔
        Throughout (step ⟨.fifo, 2, 1, 0⟩) (WakesLinked ⟨.fifo, 2, 1, 0⟩) (initSchedQueue ⟨.fifo, 2, 1, 0⟩) es)) ∧
    ¬ ∀ es s tr, run (step ⟨.fifo, 2, 1, 0⟩) (initSchedQueue ⟨.fifo, 2, 1, 0⟩) es = some (s, tr) →
      WakesLinked ⟨.fifo, 2, 1, 0⟩ s := by
  obtain ⟨hunseen, hall⟩ := wakes_linked ⟨.fifo, 2, 1, 0⟩ rfl (by decide) (by decide)
  exact ⟨hunseen, hall.not.mpr (by decide)⟩

/-- The scheduler looks at the worker, which leaves both lists and finishes, and
is woken again. -/
def straySchedule : List Thread :=
  List.replicate 4 .main ++ [.worker 0] ++ List.replicate 9 .sched ++ List.replicate 6 (.worker 0) ++ List.replicate 2 .sched

theorem wakes_stray :
    ∃ s tr, run (step ⟨.fifo, 2, 1, 0⟩) (initSchedQueue ⟨.fifo, 2, 1, 0⟩) straySchedule = some (s, tr) ∧
      s.sched = .postWorker 0 ∧ s.worker 0 = .finished ∧ s.queue = [] ∧ data s.running = [0] ∧
      ¬ WakesLinked ⟨.fifo, 2, 1, 0⟩ s := by
  refine ⟨_, _, rfl, rfl, rfl, rfl, rfl, ?_⟩
  intro h
  cases (h.woken 0 (Or.inr rfl)).2

end OsLabs.Sched
