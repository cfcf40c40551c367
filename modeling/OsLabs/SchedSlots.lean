import OsLabs.SchedSingle

/-!
# The slots of the CPU

A slot that is not free is with a worker on the running list, or with one that
has taken itself off the list and has not posted yet. The queue semaphore
counts the free slots, but for the one that the scheduler is about to take.
-/

namespace OsLabs.Sched

/-- The worker is off the running list, and its post is still to come. -/
def WorkerPc.releasing : WorkerPc → Bool
  | .removeQueue _ | .insertQueue _ | .postQueue _ => true
  | .notCreated | .enterQueue | .waitForCpu _ | .leaveQueue | .readNum | .writeNum _ | .removeRunning _ | .finished => false

/-- 1 between the two steps of `wake_up_worker` of worker `w`. -/
def SchedPc.posting (pc : SchedPc) (w : Nat) : Nat :=
  match pc with
  | .postWorker u => if u = w then 1 else 0
  | .notCreated | .waitForQueue | .loop | .peekHead | .inRunning _ | .eltNext _ | .insertRunning _ | .waitForWorker _
    | .done => 0

/-- The scheduler has put a worker on the running list and has not taken a slot for it. -/
def SchedPc.owing : SchedPc → Bool
  | .postWorker _ | .waitForWorker _ => true
  | .notCreated | .waitForQueue | .loop | .peekHead | .inRunning _ | .eltNext _ | .insertRunning _ | .done => false

def releasing (cfg : Config) (s : State) : Finset Nat :=
  (Finset.range cfg.threadCount).filter fun w => (s.worker w).releasing = true

/-- The workers between their return from `wait_for_cpu` and their post. -/
def holding (cfg : Config) (s : State) : Finset Nat :=
  (Finset.range cfg.threadCount).filter fun w => (s.worker w).atRest = false

structure Slots (cfg : Config) (s : State) : Prop where
  created : ∀ w ∈ data s.running, s.worker w ≠ .notCreated
  count : ∀ w, (data s.running).count w = s.infoSem w + s.sched.posting w + (s.worker w).onRunning.toNat
  free : s.queueSem + (data s.running).length + (releasing cfg s).card =
    semInit ((cfg.queueSize : Int) - 1) + s.sched.owing.toNat

theorem slots_init (cfg : Config) : Slots cfg (initSchedQueue cfg) := by
  refine ⟨nofun, fun w => rfl, ?_⟩
  simp [initSchedQueue, releasing, WorkerPc.releasing, SchedPc.owing]

theorem releasing_congr {cfg : Config} {s s' : State}
    (hw : ∀ u, (s'.worker u).releasing = (s.worker u).releasing) : releasing cfg s' = releasing cfg s := by
  unfold releasing
  simp only [hw]

theorem releasing_insert {cfg : Config} {s s' : State} {w : Nat} (hlt : w < cfg.threadCount)
    (hold : (s.worker w).releasing = false) (hnew : (s'.worker w).releasing = true)
    (hw : ∀ u, u ≠ w → s'.worker u = s.worker u) : (releasing cfg s').card = (releasing cfg s).card + 1 :=
  card_filter_insert hlt hold hnew fun u hu => by rw [hw u hu]

section
variable {cfg : Config} {s s' : State} (h : Slots cfg s)
include h

theorem Slots.infoSem_notCreated {w : Nat} (hw : s.worker w = .notCreated) : s.infoSem w = 0 := by
  have hnot : w ∉ data s.running := fun hm => h.created w hm hw
  have hcount := h.count w
  rw [List.count_eq_zero_of_not_mem hnot] at hcount
  omega

theorem Slots.mem_running {w : Nat} (hw : (s.worker w).onRunning = true) : w ∈ data s.running := by
  have hcount := h.count w
  rw [hw] at hcount
  simp only [Bool.toNat_true] at hcount
  exact List.count_pos_iff.mp (by omega)

theorem Slots.move (hr : s'.running = s.running) (hi : ∀ u, s'.infoSem u = s.infoSem u) (hq : s'.queueSem = s.queueSem)
    (hp : s'.sched.posting = s.sched.posting) (ho : s'.sched.owing = s.sched.owing)
    (hw : ∀ u, s'.worker u = s.worker u ∨ s'.worker u ≠ .notCreated ∧
      (s'.worker u).onRunning = (s.worker u).onRunning ∧ (s'.worker u).releasing = (s.worker u).releasing) :
    Slots cfg s' := by
  refine ⟨?_, ?_, ?_⟩
  · intro w hm
    rcases hw w with heq | ⟨hne, -⟩
    · rw [heq]
      exact h.created w (hr ▸ hm)
    · exact hne
  · intro w
    have hon : (s'.worker w).onRunning = (s.worker w).onRunning := by
      rcases hw w with heq | ⟨-, heq, -⟩
      · rw [heq]
      · exact heq
    rw [hr, hi, hp, hon]
    exact h.count w
  · have hrel : releasing cfg s' = releasing cfg s := releasing_congr fun u => by
      rcases hw u with heq | ⟨-, -, heq⟩
      · rw [heq]
      · exact heq
    rw [hr, hq, ho, hrel]
    exact h.free

theorem Slots.sched_move (hold : s.sched.owing = false) (hnew : s'.sched.owing = false)
    (hr : s'.running = s.running) (hi : s'.infoSem = s.infoSem) (hq : s'.queueSem = s.queueSem)
    (hw : s'.worker = s.worker) : Slots cfg s' := by
  have hnone : ∀ {pc : SchedPc}, pc.owing = false → pc.posting = fun _ => 0 := by
    intro pc hpc
    cases pc with
    | postWorker w => cases hpc
    | notCreated | waitForQueue | loop | peekHead | inRunning | eltNext | insertRunning | waitForWorker | done => rfl
  exact h.move hr (fun u => by rw [hi]) hq ((hnone hnew).trans (hnone hold).symm) (hnew.trans hold.symm)
    fun u => Or.inl (by rw [hw])

theorem Slots.worker_move {w : Nat} {pc : WorkerPc} (hw : s'.worker = (s.setWorker w pc).worker)
    (hne : pc ≠ .notCreated) (hon : pc.onRunning = (s.worker w).onRunning)
    (hrel : pc.releasing = (s.worker w).releasing) (hr : s'.running = s.running) (hi : s'.infoSem = s.infoSem)
    (hq : s'.queueSem = s.queueSem) (hs : s'.sched = s.sched) : Slots cfg s' := by
  apply h.move hr (fun u => by rw [hi]) hq (by rw [hs]) (by rw [hs])
  intro u
  rw [hw, State.setWorker_worker]
  by_cases hu : u = w
  · subst hu
    simp only [ite_true]
    exact Or.inr ⟨hne, hon, hrel⟩
  · exact Or.inl (if_neg hu)

theorem Slots.wakes {w : Nat} (hs : s.sched = .insertRunning w) (hc : s.worker w ≠ .notCreated)
    (hs' : s'.sched = .postWorker w) (hr : data s'.running = data s.running ++ [w])
    (hi : s'.infoSem = s.infoSem) (hq : s'.queueSem = s.queueSem) (hw : s'.worker = s.worker) :
    Slots cfg s' := by
  refine ⟨?_, ?_, ?_⟩
  · intro u hu
    rw [hw]
    rw [hr] at hu
    rcases List.mem_append.mp hu with hu | hu
    · exact h.created u hu
    · rw [List.mem_singleton.mp hu]
      exact hc
  · intro u
    have hcount := h.count u
    rw [hs] at hcount
    rw [hr, hi, hs', hw, List.count_append, hcount, List.count_singleton]
    simp only [SchedPc.posting, beq_iff_eq]
    omega
  · have hfree := h.free
    rw [hs] at hfree
    have hrel : releasing cfg s' = releasing cfg s := releasing_congr fun u => by rw [hw]
    rw [hq, hr, hs', hrel, List.length_append, List.length_singleton]
    simp only [SchedPc.owing, Bool.toNat_true, Bool.toNat_false] at hfree ⊢
    omega

theorem Slots.postsInfo {w : Nat} (hs : s.sched = .postWorker w) (hs' : s'.sched = .waitForWorker w)
    (hr : s'.running = s.running) (hi : s'.infoSem = Function.update s.infoSem w (s.infoSem w + 1))
    (hq : s'.queueSem = s.queueSem) (hw : s'.worker = s.worker) : Slots cfg s' := by
  refine ⟨by rw [hr, hw]; exact h.created, ?_, ?_⟩
  · intro u
    have hcount := h.count u
    rw [hs] at hcount
    rw [hr, hi, hs', hw, hcount, Function.update_apply]
    simp only [SchedPc.posting]
    by_cases hu : u = w
    · subst hu
      simp only [ite_true]
    · have hne : ¬ w = u := fun heq => hu heq.symm
      simp only [hu, hne, ite_false]
  · have hfree := h.free
    rw [hs] at hfree
    have hrel : releasing cfg s' = releasing cfg s := releasing_congr fun u => by rw [hw]
    rw [hq, hr, hs', hrel]
    exact hfree

theorem Slots.waits {w n : Nat} (hs : s.sched = .waitForWorker w) (hn : s.queueSem = n + 1)
    (hs' : s'.sched = .loop) (hr : s'.running = s.running) (hi : s'.infoSem = s.infoSem)
    (hq : s'.queueSem = n) (hw : s'.worker = s.worker) : Slots cfg s' := by
  refine ⟨by rw [hr, hw]; exact h.created, ?_, ?_⟩
  · intro u
    have hcount := h.count u
    rw [hs] at hcount
    rw [hr, hi, hs', hw]
    exact hcount
  · have hfree := h.free
    rw [hs, hn] at hfree
    have hrel : releasing cfg s' = releasing cfg s := releasing_congr fun u => by rw [hw]
    rw [hq, hr, hs', hrel]
    simp only [SchedPc.owing, Bool.toNat_true, Bool.toNat_false] at hfree ⊢
    omega

theorem Slots.takes {w n : Nat} {pc : WorkerPc} (hw : s'.worker = (s.setWorker w pc).worker)
    (hn : s.infoSem w = n + 1) (hold : (s.worker w).onRunning = false) (hrel : (s.worker w).releasing = false)
    (hne : pc ≠ .notCreated) (hon : pc.onRunning = true) (hrel' : pc.releasing = false)
    (hs : s'.sched = s.sched) (hr : s'.running = s.running) (hi : s'.infoSem = Function.update s.infoSem w n)
    (hq : s'.queueSem = s.queueSem) : Slots cfg s' := by
  refine ⟨?_, ?_, ?_⟩
  · intro u hu
    rw [hw, State.setWorker_worker]
    split
    · exact hne
    · exact h.created u (hr ▸ hu)
  · intro u
    have hcount := h.count u
    rw [hr, hi, hs, hw, State.setWorker_worker, Function.update_apply, hcount]
    by_cases hu : u = w
    · subst hu
      simp only [ite_true, hold, hon, Bool.toNat_true, Bool.toNat_false]
      omega
    · rw [if_neg hu, if_neg hu]
  · have hsame : releasing cfg s' = releasing cfg s :=
      releasing_congr (worker_same WorkerPc.releasing hw (hrel'.trans hrel.symm))
    rw [hq, hr, hs, hsame]
    exact h.free

theorem Slots.removes {w : Nat} {pc : WorkerPc} (hw : s'.worker = (s.setWorker w pc).worker)
    (hlt : w < cfg.threadCount) (hold : (s.worker w).onRunning = true) (hrel : (s.worker w).releasing = false)
    (hne : pc ≠ .notCreated) (hon : pc.onRunning = false) (hrel' : pc.releasing = true)
    (hs : s'.sched = s.sched) (hr : data s'.running = (data s.running).erase w) (hi : s'.infoSem = s.infoSem)
    (hq : s'.queueSem = s.queueSem) : Slots cfg s' := by
  have hmem := h.mem_running hold
  refine ⟨?_, ?_, ?_⟩
  · intro u hu
    rw [hr] at hu
    rw [hw, State.setWorker_worker]
    split
    · exact hne
    · exact h.created u (List.mem_of_mem_erase hu)
  · intro u
    have hcount := h.count u
    rw [hr, hi, hs, hw, State.setWorker_worker, List.count_erase]
    by_cases hu : u = w
    · subst hu
      simp only [hold, hon, BEq.rfl, ite_true, Bool.toNat_true, Bool.toNat_false] at hcount ⊢
      omega
    · have hbeq : (w == u) = false := by simpa using fun heq : w = u => hu heq.symm
      rw [if_neg hu, hbeq]
      simpa using hcount
  · have hcard : (releasing cfg s').card = (releasing cfg s).card + 1 := releasing_insert hlt hrel
      (by rw [hw, State.setWorker_self]; exact hrel') fun u hu => by rw [hw, s.setWorker_ne hu pc]
    have hpos := List.length_pos_of_mem hmem
    have hfree := h.free
    rw [hcard, hq, hr, hs, List.length_erase_of_mem hmem]
    omega

theorem Slots.posts {w : Nat} {pc : WorkerPc} (hw : s'.worker = (s.setWorker w pc).worker)
    (hlt : w < cfg.threadCount) (hold : (s.worker w).releasing = true) (hon : (s.worker w).onRunning = false)
    (hne : pc ≠ .notCreated) (hon' : pc.onRunning = false) (hrel : pc.releasing = false)
    (hs : s'.sched = s.sched) (hr : s'.running = s.running) (hi : s'.infoSem = s.infoSem)
    (hq : s'.queueSem = s.queueSem + 1) : Slots cfg s' := by
  refine ⟨?_, ?_, ?_⟩
  · intro u hu
    rw [hw, State.setWorker_worker]
    split
    · exact hne
    · exact h.created u (hr ▸ hu)
  · intro u
    have hcount := h.count u
    rw [hr, hi, hs, worker_same WorkerPc.onRunning hw (hon'.trans hon.symm), hcount]
  · have hcard : (releasing cfg s).card = (releasing cfg s').card + 1 :=
      releasing_insert hlt (by rw [hw, State.setWorker_self]; exact hrel) hold fun u hu => by rw [hw, s.setWorker_ne hu pc]
    have hfree := h.free
    rw [hq, hr, hs]
    omega

end

theorem slots_step {cfg : Config} {s s' : State} {t : Thread} {e : Option Event} (h : Slots cfg s)
    (hc : Created cfg s) (hm : Moves cfg s t s' e) : Slots cfg s' := by
  cases hm with
  | startScheduler hs => exact h.sched_move (by rw [hc.sched hs]; rfl) rfl rfl rfl rfl rfl
  | setNum | initDone | join | cleanUp => exact h.move rfl (fun _ => rfl) rfl rfl rfl fun _ => Or.inl rfl
  | initThread i hs hi =>
    refine h.move rfl ?_ rfl rfl rfl fun _ => Or.inl rfl
    intro u
    by_cases hu : u = i
    · subst hu
      rw [h.infoSem_notCreated (hc.later u (by rw [hs]; rfl) u (Nat.le_refl u))]
      exact Function.update_self ..
    · exact Function.update_of_ne hu ..
  | createThread i hs =>
    have hnew := hc.later i (by rw [hs]; rfl) i (Nat.le_refl i)
    exact h.worker_move rfl nofun (by rw [hnew]; rfl) (by rw [hnew]; rfl) rfl rfl rfl rfl
  | poll => exact h
  | queueReady hs | loop hs | loopDone hs | peekHead elt hs | peekNull hs | isRunning elt hs | selected elt hs
    | eltNext elt next hs | eltNull elt hs =>
    exact h.sched_move (by rw [hs]; rfl) rfl rfl rfl rfl rfl
  | insertRunning w hs => exact h.wakes hs (hc.picked w (by rw [hs]; rfl)) rfl (data_append ..) rfl rfl rfl
  | postWorker w hs => exact h.postsInfo hs rfl rfl rfl rfl rfl
  | waitForWorker w n hs hn => exact h.waits hs hn rfl rfl rfl rfl rfl
  | enterQueue w hw | leaveQueue w hw | readNum w hw | writeNum w num hw | removeQueue w i hw | insertQueue w i hw =>
    exact h.worker_move rfl nofun (by rw [hw]; rfl) (by rw [hw]; rfl) rfl rfl rfl rfl
  | loopTurn w i n hw hn | exitTurn w i n hw hn =>
    exact h.takes rfl hn (by rw [hw]; rfl) (by rw [hw]; rfl) nofun rfl rfl rfl rfl rfl rfl
  | fifoRemoveRunning w i hp hw | rrRemoveRunning w i hp hw =>
    exact h.removes rfl (hc.worker w (by rw [hw]; nofun)) (by rw [hw]; rfl) (by rw [hw]; rfl) nofun rfl rfl rfl
      (data_removeItem w s.running) rfl rfl
  | postLoop w i hw | postExit w i hw =>
    exact h.posts rfl (hc.worker w (by rw [hw]; nofun)) (by rw [hw]; rfl) (by rw [hw]; rfl) nofun rfl rfl rfl rfl rfl rfl

theorem slots_run {cfg : Config} {es : List Thread} {s : State} {tr : List (Thread × Option Event)}
    (hr : run (step cfg) (initSchedQueue cfg) es = some (s, tr)) : Created cfg s ∧ Slots cfg s :=
  run_inv (I := fun s => Created cfg s ∧ Slots cfg s)
    (fun _ _ _ _ h _ hs => ⟨created_step h.1 (step_moves hs), slots_step h.2 h.1 (step_moves hs)⟩)
    ⟨created_init cfg, slots_init cfg⟩ (guarded_true _ es) hr

theorem semInit_le (n : Nat) : semInit ((n : Int) - 1) ≤ n - 1 := by
  unfold semInit
  split
  · omega
  · exact Nat.zero_le _

theorem Slots.holding_le {cfg : Config} {s : State} (h : Slots cfg s) :
    (holding cfg s).card ≤ (data s.running).length + (releasing cfg s).card := by
  have hsub : holding cfg s ⊆ (data s.running).toFinset ∪ releasing cfg s := by
    intro w hw
    obtain ⟨hlt, hrest⟩ := Finset.mem_filter.mp hw
    rw [Finset.mem_union, List.mem_toFinset]
    by_cases hon : (s.worker w).onRunning = true
    · exact Or.inl (h.mem_running hon)
    · refine Or.inr (Finset.mem_filter.mpr ⟨hlt, ?_⟩)
      cases hpc : s.worker w with
      | removeQueue | insertQueue | postQueue => rfl
      | notCreated | enterQueue | waitForCpu | finished =>
        rw [hpc] at hrest
        cases hrest
      | leaveQueue | readNum | writeNum | removeRunning =>
        rw [hpc] at hon
        exact absurd rfl hon
  have hunion := (Finset.card_le_card hsub).trans (Finset.card_union_le _ _)
  have hlen := List.toFinset_card_le (data s.running)
  omega

/-- Never more than `queue_size` workers are on the running list, nor hold the CPU. -/
theorem cpu_slots (cfg : Config) (h1 : 1 ≤ cfg.queueSize) (es : List Thread) (s : State)
    (tr : List (Thread × Option Event)) (hr : run (step cfg) (initSchedQueue cfg) es = some (s, tr)) :
    s.running.length ≤ cfg.queueSize ∧ (holding cfg s).card ≤ cfg.queueSize := by
  have h := (slots_run hr).2
  have hfree := h.free
  have hsem := semInit_le cfg.queueSize
  have howing := Bool.toNat_le s.sched.owing
  have hholding := h.holding_le
  have hlen : (data s.running).length = s.running.length := List.length_map _
  omega

/-- Two workers arrive, the scheduler wakes both, and both return from `wait_for_cpu`. -/
def pairSchedule : List Thread :=
  List.replicate 6 .main ++ [.worker 0, .worker 1] ++ List.replicate 14 .sched ++ [.worker 0, .worker 1]

theorem cpu_slots_two :
    ∃ s tr, run (step ⟨.rr, 2, 2, 1⟩) (initSchedQueue ⟨.rr, 2, 2, 1⟩) pairSchedule = some (s, tr) ∧
      (holding ⟨.rr, 2, 2, 1⟩ s).card = 2 ∧ s.running.length ≤ 2 ∧ (holding ⟨.rr, 2, 2, 1⟩ s).card ≤ 2 :=
  ⟨_, _, rfl, by decide, cpu_slots ⟨.rr, 2, 2, 1⟩ (by decide) pairSchedule _ _ rfl⟩

end OsLabs.Sched
