import OsLabs.SchedFifo
import OsLabs.SchedReach
import OsLabs.SharedCount

/-!
# The count of the workers under any interleaving

`num_workers_remaining` is decremented by a read and a write, and the scheduler
implementation is to keep these of two workers apart. It does so with queue
size 1. With more slots two workers can have the CPU for their exit together.
-/

namespace OsLabs.Sched

/-- Main has set the counter. -/
def MainPc.counterSet : MainPc → Bool
  | .startScheduler | .setNum => false
  | .initThread _ | .createThread _ | .join | .cleanUp | .exit => true

def WorkerPc.hasRead : WorkerPc → Option Int
  | .writeNum num => some num
  | .notCreated | .enterQueue | .waitForCpu _ | .leaveQueue | .readNum | .removeRunning _ | .removeQueue _
    | .insertQueue _ | .postQueue _ | .finished => none

/-- The counter as the one that the workers share. Before it is set, it stands for what main is about to set. -/
def shared (cfg : Config) (s : State) : SharedCount Nat where
  left := cfg.threadCount - (exited cfg s).card
  num := if s.main.counterSet then s.numWorkersRemaining else cfg.threadCount
  reads w := (s.worker w).hasRead

def WorkerPc.access (w : Nat) : WorkerPc → Option (Access Nat)
  | .readNum => some (.read w)
  | .writeNum _ => some (.write w)
  | .notCreated | .enterQueue | .waitForCpu _ | .leaveQueue | .removeRunning _ | .removeQueue _ | .insertQueue _
    | .postQueue _ | .finished => none

def accessOf (s : State) : Thread → Option (Access Nat)
  | .worker w => (s.worker w).access w
  | .main | .sched => none

/-- A worker reads the counter only while no other one is between its read and its write. -/
def ReadsApart (s : State) : Thread → Prop
  | .worker w => s.worker w = .readNum → ∀ u num, s.worker u ≠ .writeNum num
  | .main | .sched => True

theorem hasRead_none {pc : WorkerPc} : pc.hasRead = none ↔ ∀ num, pc ≠ .writeNum num := by
  cases pc <;> simp [WorkerPc.hasRead]

theorem readsApart_iff {cfg : Config} {s : State} {t : Thread} :
    ReadsApart s t ↔ ∀ a ∈ accessOf s t, SharedCount.Apart (shared cfg s) a := by
  cases t with
  | main | sched => simp [ReadsApart, accessOf]
  | worker w =>
    cases hw : s.worker w <;>
      simp [ReadsApart, accessOf, WorkerPc.access, SharedCount.Apart, shared, hw, hasRead_none]

section
variable {cfg : Config} {s s' : State}

theorem shared_congr (hm : s'.main.counterSet = s.main.counterSet)
    (hn : s'.numWorkersRemaining = s.numWorkersRemaining)
    (hc : ∀ u, (s'.worker u).counted cfg = (s.worker u).counted cfg)
    (hr : ∀ u, (s'.worker u).hasRead = (s.worker u).hasRead) : shared cfg s' = shared cfg s := by
  unfold shared
  rw [exited_congr hc, hm, hn]
  simp only [hr]

theorem shared_worker {w : Nat} {pc : WorkerPc} (hw : s'.worker = (s.setWorker w pc).worker)
    (hm : s'.main.counterSet = s.main.counterSet) (hn : s'.numWorkersRemaining = s.numWorkersRemaining)
    (hc : pc.counted cfg = (s.worker w).counted cfg) (hr : pc.hasRead = (s.worker w).hasRead) :
    shared cfg s' = shared cfg s := by
  exact shared_congr hm hn (worker_same (WorkerPc.counted cfg) hw hc) (worker_same WorkerPc.hasRead hw hr)

theorem Created.counterSet (hc : Created cfg s) {w : Nat} (hw : s.worker w ≠ .notCreated) :
    s.main.counterSet = true := by
  obtain ⟨⟨h1, h2⟩, -⟩ := hc.set_of_exists hw
  cases hm : s.main with
  | startScheduler => exact absurd hm h1
  | setNum => exact absurd hm h2
  | initThread | createThread | join | cleanUp | exit => rfl

theorem shared_hidden {t : Thread} {e : Option Event} (hc : Created cfg s) (hm : Moves cfg s t s' e)
    (ha : accessOf s t = none) : shared cfg s' = shared cfg s := by
  cases hm with
  | startScheduler hm => exact shared_congr (by rw [hm]; rfl) rfl (fun _ => rfl) fun _ => rfl
  | setNum hm => simp [shared, exited, MainPc.counterSet, hm]
  | initThread i hm | initDone i hm | join hm | cleanUp hm =>
    exact shared_congr (by rw [hm]; rfl) rfl (fun _ => rfl) fun _ => rfl
  | createThread i hm =>
    have hnew := hc.later i (by rw [hm]; rfl) i (Nat.le_refl i)
    exact shared_worker rfl (by rw [hm]; rfl) rfl (by rw [hnew]; rfl) (by rw [hnew]; rfl)
  | poll => rfl
  | queueReady | loop | loopDone | peekHead | peekNull | isRunning | selected | eltNext | eltNull | insertRunning
    | postWorker | waitForWorker =>
    rfl
  | readNum w hw | writeNum w num hw => simp [accessOf, WorkerPc.access, hw] at ha
  | loopTurn w i n hw hn hi | postLoop w i hw hi | postExit w i hw hi =>
    exact shared_worker rfl rfl rfl (by simpa [hw, WorkerPc.counted] using hi) (by rw [hw]; rfl)
  | enterQueue w hw | exitTurn w i n hw | leaveQueue w hw | fifoRemoveRunning w i hp hw | rrRemoveRunning w i hp hw
    | removeQueue w i hw | insertQueue w i hw =>
    exact shared_worker rfl rfl rfl (by rw [hw]; rfl) (by rw [hw]; rfl)

theorem hasRead_setWorker (w : Nat) (pc : WorkerPc) :
    (fun u => ((s.setWorker w pc).worker u).hasRead) = Function.update (fun u => (s.worker u).hasRead) w pc.hasRead := by
  funext u
  rw [State.setWorker_worker, Function.update_apply]
  by_cases hu : u = w
  · simp [hu]
  · simp [hu]

theorem shared_read {w : Nat} (hc : Created cfg s) (hw : s.worker w = .readNum) :
    SharedCount.access (shared cfg s) (.read w) =
      some (shared cfg (s.setWorker w (.writeNum s.numWorkersRemaining)), ()) := by
  have hset := hc.counterSet (w := w) (by rw [hw]; nofun)
  have hset' : (s.setWorker w (.writeNum s.numWorkersRemaining)).main.counterSet = true := hset
  have hex : exited cfg (s.setWorker w (.writeNum s.numWorkersRemaining)) = exited cfg s :=
    exited_congr (worker_same (WorkerPc.counted cfg) rfl (by rw [hw]; rfl))
  rw [SharedCount.access_read (by simp [shared, hw, WorkerPc.hasRead])]
  simp only [shared, hset, hset', hex, hasRead_setWorker, ite_true]
  rfl

theorem shared_write {w : Nat} {num : Int} (hc : Created cfg s) (hw : s.worker w = .writeNum num) :
    SharedCount.access (shared cfg s) (.write w) =
      some (shared cfg { s.setWorker w (.removeRunning cfg.iterations) with numWorkersRemaining := num - 1 }, ()) := by
  have hne : s.worker w ≠ .notCreated := by rw [hw]; nofun
  have hset := hc.counterSet hne
  have hcard : (exited cfg { s.setWorker w (.removeRunning cfg.iterations) with numWorkersRemaining := num - 1 }).card =
      (exited cfg s).card + 1 := by
    apply exited_insert (hc.worker w hne) (by rw [hw]; rfl)
    · simp [WorkerPc.counted]
    · intro u hu
      exact s.setWorker_ne hu (.removeRunning cfg.iterations)
  rw [SharedCount.access_write (v := num) (by simp [shared, hw, WorkerPc.hasRead])]
  simp only [shared, hcard]
  congr 3
  · omega
  · exact (if_pos hset).symm
  · exact (hasRead_setWorker w (.removeRunning cfg.iterations)).symm

theorem shared_visible {t : Thread} {e : Option Event} {a : Access Nat} (hc : Created cfg s)
    (hm : Moves cfg s t s' e) (ha : accessOf s t = some a) :
    SharedCount.access (shared cfg s) a = some (shared cfg s', ()) := by
  cases hm with
  | readNum w hw =>
    obtain rfl : Access.read w = a := by simpa [accessOf, WorkerPc.access, hw] using ha
    exact shared_read hc hw
  | writeNum w num hw =>
    obtain rfl : Access.write w = a := by simpa [accessOf, WorkerPc.access, hw] using ha
    exact shared_write hc hw
  | startScheduler | setNum | initThread | initDone | createThread | join | cleanUp | poll | queueReady | loop | loopDone
    | peekHead | peekNull | isRunning | selected | eltNext | eltNull | insertRunning | postWorker | waitForWorker =>
    cases ha
  | enterQueue w hw | loopTurn w i n hw | exitTurn w i n hw | leaveQueue w hw | fifoRemoveRunning w i hp hw
    | rrRemoveRunning w i hp hw | removeQueue w i hw | insertQueue w i hw | postLoop w i hw | postExit w i hw =>
    simp [accessOf, WorkerPc.access, hw] at ha

theorem shared_init : SharedCount.Exact (shared cfg (initSchedQueue cfg)) := by
  have hex : exited cfg (initSchedQueue cfg) = ∅ := Finset.filter_eq_empty_iff.mpr fun _ _ => nofun
  refine ⟨?_, nofun, nofun⟩
  simp only [shared, hex]
  simp [initSchedQueue, MainPc.counterSet]

/-- A run of the program is a run of the shared counter, and the reads of the one are apart if those of the other are. -/
theorem shared_run {es : List Thread} {tr : List (Thread × Option Event)}
    (hr : run (step cfg) (initSchedQueue cfg) es = some (s, tr)) :
    ∃ as tr', run SharedCount.access (shared cfg (initSchedQueue cfg)) as = some (shared cfg s, tr') ∧
      (Guarded SharedCount.access SharedCount.Apart (shared cfg (initSchedQueue cfg)) as ↔
        Guarded (step cfg) ReadsApart (initSchedQueue cfg) es) := by
  obtain ⟨as, tr', has, hguard⟩ := run_shows (shared cfg) accessOf (I := Created cfg)
    (fun _ _ _ _ h hs => created_step h (step_moves hs)) (fun _ _ _ _ h hs => shared_hidden h (step_moves hs))
    (fun _ _ _ _ _ h hs ha => ⟨(), shared_visible h (step_moves hs) ha⟩) (created_init cfg) hr
  refine ⟨as, tr', has, ?_⟩
  rw [hguard]
  simp only [← readsApart_iff]

theorem shared_quiet (hq : ∀ w num, s.worker w ≠ .writeNum num) (w : Nat) : (shared cfg s).reads w = none :=
  hasRead_none.mpr (hq w)

/-- The counter is never lower than the number of workers that have not decremented it. -/
theorem num_ge {es : List Thread} {tr : List (Thread × Option Event)}
    (hr : run (step cfg) (initSchedQueue cfg) es = some (s, tr)) (hset : s.main.counterSet = true) :
    (cfg.threadCount : Int) - (exited cfg s).card ≤ s.numWorkersRemaining := by
  obtain ⟨as, tr', has, -⟩ := shared_run hr
  have hover := SharedCount.over_run shared_init.over has
  simpa [shared, hset] using hover.num

end

/-! ## When the counter is right -/

/-- What the counter is to be once it is set. -/
structure CountKept (cfg : Config) (s : State) : Prop where
  count : (∀ w num, s.worker w ≠ .writeNum num) → s.numWorkersRemaining = cfg.threadCount - (exited cfg s).card
  final : (∀ w, w < cfg.threadCount → s.worker w = .finished) → s.numWorkersRemaining = 0

theorem countKept_of_count {cfg : Config} {s : State} (hc : Created cfg s)
    (h : (∀ w num, s.worker w ≠ .writeNum num) → s.numWorkersRemaining = cfg.threadCount - (exited cfg s).card) :
    CountKept cfg s := by
  refine ⟨h, ?_⟩
  intro hfin
  have hquiet : ∀ w num, s.worker w ≠ .writeNum num := by
    intro w num hw
    have hlt := hc.worker w (by rw [hw]; nofun)
    rw [hfin w hlt] at hw
    cases hw
  have hall : exited cfg s = Finset.range cfg.threadCount := Finset.filter_true_of_mem fun w hw => by
    rw [hfin w (Finset.mem_range.mp hw)]
    rfl
  rw [h hquiet, hall, Finset.card_range]
  omega

section
variable {cfg : Config} {es : List Thread} {s : State} {tr : List (Thread × Option Event)}

theorem count_iff_apart (hr : run (step cfg) (initSchedQueue cfg) es = some (s, tr))
    (hset : s.main.counterSet = true) (hq : ∀ w num, s.worker w ≠ .writeNum num) :
    s.numWorkersRemaining = cfg.threadCount - (exited cfg s).card ↔
      Guarded (step cfg) ReadsApart (initSchedQueue cfg) es := by
  obtain ⟨as, tr', has, hguard⟩ := shared_run hr
  rw [← hguard, ← SharedCount.exact_iff_apart shared_init has (shared_quiet hq)]
  simp [shared, hset]

end

section
variable {cfg : Config}

/-- With queue size 1, and also with a single worker, no two workers are past `wait_for_cpu` together. -/
theorem readsApart_of_one (h : cfg.queueSize = 1 ∨ cfg.threadCount ≤ 1) (es : List Thread) :
    Guarded (step cfg) ReadsApart (initSchedQueue cfg) es := by
  rcases h with h | h
  · refine guarded_of_inv (I := fun s => Created cfg s ∧ ∃ p, Single s p) ?_ ?_ ⟨created_init cfg, _, single_init h⟩ es
    · rintro s t s' e ⟨hc, p, hs⟩ hst
      exact ⟨created_step hc (step_moves hst), single_step hs hc (step_moves hst)⟩
    · rintro s (_ | _ | w) ⟨-, p, hs⟩
      · trivial
      · trivial
      intro hw u num hu
      have h1 := hs.working (w := w) (by rw [hw]; rfl)
      have h2 := hs.working (w := u) (by rw [hu]; rfl)
      obtain rfl : w = u := by simpa [h1] using h2
      rw [hw] at hu
      cases hu
  · refine guarded_of_inv (I := Created cfg)
      (fun _ _ _ _ h hs => created_step h (step_moves hs)) ?_ (created_init cfg) es
    rintro s (_ | _ | w) hc
    · trivial
    · trivial
    intro hw u num hu
    have h1 := hc.worker w (by rw [hw]; nofun)
    have h2 := hc.worker u (by rw [hu]; nofun)
    obtain rfl : w = u := by omega
    rw [hw] at hu
    cases hu

/-- Workers 0 and 1 have read the same count, and both have written. -/
structure Overlapped (cfg : Config) (s : State) : Prop where
  main : s.main = .initThread 2
  worker : ∀ u, s.worker u = if u < 2 then .removeRunning cfg.iterations else .notCreated
  num : s.numWorkersRemaining = cfg.threadCount - 1

theorem can_overlap (hp : cfg.policy = .fifo) (h2 : 2 ≤ cfg.queueSize) (hN : 2 ≤ cfg.threadCount)
    (hmax : cfg.queueSize ≤ intMax) : Can (step cfg) (Overlapped cfg) (initSchedQueue cfg) := by
  apply (can_pair hp h2 hN hmax (Nat.le_refl cfg.iterations)).trans
  intro s h
  have hx : s.main ≠ .exit := by rw [h.main]; nofun
  have hle := Nat.le_refl cfg.iterations
  apply can_move (.exitTurn 0 cfg.iterations 0 (by simp [h.worker]) (by simp [h.infoSem]) hle) hx
  apply can_move (.exitTurn 1 cfg.iterations 0 (by simp [State.setWorker, h.worker]) (by simp [h.infoSem]) hle)
    (by exact hx)
  apply can_move (.leaveQueue 0 (by simp [State.setWorker])) (by exact hx)
  apply can_move (.leaveQueue 1 (by simp [State.setWorker])) (by exact hx)
  apply can_move (.readNum 0 (by simp [State.setWorker])) (by exact hx)
  apply can_move (.readNum 1 (by simp [State.setWorker])) (by exact hx)
  apply can_move (.writeNum 0 cfg.threadCount (by simp [State.setWorker, h.num]))
    (by simpa [State.setWorker] using hx)
  apply can_move (.writeNum 1 cfg.threadCount (by simp [State.setWorker, h.num]))
    (by simpa [State.setWorker] using hx)
  refine .here ⟨by simp [State.setWorker, h.main], ?_, by simp⟩
  intro u
  by_cases h0 : u = 0
  · simp [h0, State.setWorker]
  · by_cases h1 : u = 1
    · simp [h1, State.setWorker]
    · have hlt : ¬ u < 2 := by omega
      simp [h0, h1, hlt, State.setWorker, h.worker]

theorem Overlapped.not_kept (hN : 2 ≤ cfg.threadCount) {s : State} (h : Overlapped cfg s) :
    ¬ CountKept cfg s := by
  intro hk
  have hquiet : ∀ w num, s.worker w ≠ .writeNum num := by
    intro w num hw
    rw [h.worker] at hw
    by_cases hlt : w < 2
    · simp [hlt] at hw
    · simp [hlt] at hw
  have hsub : Finset.range 2 ⊆ exited cfg s := by
    intro w hw
    have hlt := Finset.mem_range.mp hw
    refine Finset.mem_filter.mpr ⟨Finset.mem_range.mpr (by omega), ?_⟩
    simp [h.worker, hlt, WorkerPc.counted]
  have hcard := Finset.card_le_card hsub
  have hcount := hk.count hquiet
  rw [Finset.card_range] at hcard
  rw [h.num] at hcount
  omega

end

/-- At a moment when no worker is between the read and the write, the counter
is right exactly if no worker has read it while another one was. It is right in
every run only with queue size 1 or with at most one worker. -/
theorem count_kept (cfg : Config) (hp : cfg.policy = .fifo) (h1 : 1 ≤ cfg.queueSize) (hmax : cfg.queueSize ≤ intMax) :
    (∀ es s tr, run (step cfg) (initSchedQueue cfg) es = some (s, tr) → s.main.counterSet = true →
      (∀ w num, s.worker w ≠ .writeNum num) →
      (s.numWorkersRemaining = cfg.threadCount - (exited cfg s).card ↔
        Guarded (step cfg) ReadsApart (initSchedQueue cfg) es)) ∧
    ((∀ es s tr, run (step cfg) (initSchedQueue cfg) es = some (s, tr) → s.main.counterSet = true → CountKept cfg s) ↔
      cfg.queueSize = 1 ∨ cfg.threadCount ≤ 1) := by
  refine ⟨fun es s tr hr hset hq => count_iff_apart hr hset hq, ?_⟩
  constructor
  · intro h
    by_contra hone
    have hN : 2 ≤ cfg.threadCount := by omega
    obtain ⟨es, s, tr, hr, hs⟩ := can_overlap hp (by omega) hN hmax
    exact hs.not_kept hN (h es s tr hr (by rw [hs.main]; rfl))
  · intro hone es s tr hr hset
    exact countKept_of_count (created_run hr) fun hq => (count_iff_apart hr hset hq).mpr (readsApart_of_one hone es)

theorem count_kept_two :
    (∀ es s tr, run (step ⟨.fifo, 2, 2, 0⟩) (initSchedQueue ⟨.fifo, 2, 2, 0⟩) es = some (s, tr) →
      s.main.counterSet = true → (∀ w num, s.worker w ≠ .writeNum num) →
      (s.numWorkersRemaining = 2 - (exited ⟨.fifo, 2, 2, 0⟩ s).card ↔
        Guarded (step ⟨.fifo, 2, 2, 0⟩) ReadsApart (initSchedQueue ⟨.fifo, 2, 2, 0⟩) es)) ∧
    ¬ ∀ es s tr, run (step ⟨.fifo, 2, 2, 0⟩) (initSchedQueue ⟨.fifo, 2, 2, 0⟩) es = some (s, tr) →
      s.main.counterSet = true → CountKept ⟨.fifo, 2, 2, 0⟩ s := by
  obtain ⟨hcount, hall⟩ := count_kept ⟨.fifo, 2, 2, 0⟩ rfl (by decide) (by decide)
  exact ⟨hcount, hall.not.mpr (by decide)⟩

/-- The scheduler wakes both workers, and both read the counter before either writes it. -/
def overlapSchedule : List Thread :=
  List.replicate 6 .main ++ [.worker 0, .worker 1] ++ List.replicate 14 .sched ++
    (List.replicate 3 [.worker 0, .worker 1]).flatten ++ List.replicate 3 (.worker 0) ++ List.replicate 3 (.worker 1)

theorem count_lost :
    ∃ s tr, run (step ⟨.fifo, 2, 2, 0⟩) (initSchedQueue ⟨.fifo, 2, 2, 0⟩) overlapSchedule = some (s, tr) ∧
      s.worker 0 = .finished ∧ s.worker 1 = .finished ∧ s.numWorkersRemaining = 1 ∧ ¬ CountKept ⟨.fifo, 2, 2, 0⟩ s := by
  have hlost : (run (step ⟨.fifo, 2, 2, 0⟩) (initSchedQueue ⟨.fifo, 2, 2, 0⟩) overlapSchedule).map
      (fun p => (p.1.worker 0, p.1.worker 1, p.1.numWorkersRemaining)) = some (.finished, .finished, 1) := by decide +kernel
  obtain ⟨⟨s, tr⟩, hrun, heq⟩ := Option.map_eq_some_iff.mp hlost
  simp only [Prod.mk.injEq] at heq
  obtain ⟨h0, h1, hnum⟩ := heq
  refine ⟨s, tr, hrun, h0, h1, hnum, ?_⟩
  intro h
  have hfinal := h.final fun w hw => ?_
  · rw [hnum] at hfinal
    cases hfinal
  · match w, hw with
    | 0, _ => exact h0
    | 1, _ => exact h1

end OsLabs.Sched
