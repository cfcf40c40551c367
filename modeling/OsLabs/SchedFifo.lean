import OsLabs.SchedSingle

/-!
# First in, first out with queue size 1

The workers that have left the queue have had all their turns, the one at the
head has had those its program counter tells, and the others have had none. The
turns so far are therefore the turns of the workers one after the other, in the
order in which they entered the queue.
-/

namespace OsLabs.Sched

/-! ## Turns -/

section
variable (cfg : Config)

def allTurns : List Turn := List.replicate cfg.iterations .loop ++ [.exit]

def WorkerPc.taken : WorkerPc → List Turn
  | .notCreated | .enterQueue => []
  | .waitForCpu i => List.replicate i .loop
  | .removeRunning i | .removeQueue i | .insertQueue i | .postQueue i =>
    if i < cfg.iterations then List.replicate (i + 1) .loop else allTurns cfg
  | .leaveQueue | .readNum | .writeNum _ | .finished => allTurns cfg

def WorkerPc.queued : WorkerPc → Bool
  | .waitForCpu i => decide (i ≤ cfg.iterations)
  | .leaveQueue => true
  | .removeRunning i | .postQueue i => decide (i < cfg.iterations)
  | .notCreated | .enterQueue | .readNum | .writeNum _ | .removeQueue _ | .insertQueue _ | .finished => false

def WorkerPc.gone : WorkerPc → Bool
  | .readNum | .writeNum _ | .finished => true
  | .removeRunning i | .postQueue i => decide (cfg.iterations ≤ i)
  | .notCreated | .enterQueue | .waitForCpu _ | .leaveQueue | .removeQueue _ | .insertQueue _ => false

def WorkerPc.counted : WorkerPc → Bool
  | .finished => true
  | .removeRunning i | .removeQueue i | .insertQueue i | .postQueue i => decide (cfg.iterations ≤ i)
  | .notCreated | .enterQueue | .waitForCpu _ | .leaveQueue | .readNum | .writeNum _ => false

end

def WorkerPc.isNew : WorkerPc → Bool
  | .notCreated | .enterQueue => true
  | .waitForCpu _ | .leaveQueue | .readNum | .writeNum _ | .removeRunning _ | .removeQueue _ | .insertQueue _
    | .postQueue _ | .finished => false

theorem new_atRest {pc : WorkerPc} (h : pc.isNew = true) : pc.atRest = true := by
  cases pc with
  | notCreated | enterQueue | waitForCpu | finished => rfl
  | leaveQueue | readNum | writeNum | removeRunning | removeQueue | insertQueue | postQueue => cases h

theorem taken_gone {cfg : Config} {pc : WorkerPc} (h : pc.gone cfg = true) : pc.taken cfg = allTurns cfg := by
  cases pc with
  | readNum | writeNum | finished => rfl
  | removeRunning i | postQueue i =>
    have : ¬ i < cfg.iterations := by simpa [WorkerPc.gone] using h
    simp [WorkerPc.taken, this]
  | notCreated | enterQueue | waitForCpu | leaveQueue | removeQueue | insertQueue => cases h

theorem taken_queued {cfg : Config} {pc : WorkerPc} (h : pc.queued cfg = true) :
    pc.taken cfg <+: allTurns cfg := by
  have hle : ∀ {i : Nat}, i ≤ cfg.iterations → List.replicate i Turn.loop <+: allTurns cfg := fun {i} hi => by
    refine List.IsPrefix.trans ?_ (List.prefix_append _ _)
    exact ⟨List.replicate (cfg.iterations - i) .loop, by rw [List.replicate_append_replicate]; congr 1; omega⟩
  cases pc with
  | waitForCpu i => exact hle (by simpa [WorkerPc.queued] using h)
  | leaveQueue => exact List.prefix_rfl
  | removeRunning i | postQueue i =>
    have hi : i < cfg.iterations := by simpa [WorkerPc.queued] using h
    simpa [WorkerPc.taken, hi] using hle hi
  | notCreated | enterQueue | readNum | writeNum | finished | removeQueue | insertQueue => cases h

/-- The turns that the workers of a list have had, one worker after the other. -/
def takenBy (cfg : Config) (worker : Nat → WorkerPc) (l : List Nat) : List (Nat × Turn) :=
  l.flatMap fun w => ((worker w).taken cfg).map (w, ·)

@[simp] theorem takenBy_append (cfg : Config) (worker : Nat → WorkerPc) (l₁ l₂ : List Nat) :
    takenBy cfg worker (l₁ ++ l₂) = takenBy cfg worker l₁ ++ takenBy cfg worker l₂ := List.flatMap_append

@[simp] theorem takenBy_cons (cfg : Config) (worker : Nat → WorkerPc) (w : Nat) (l : List Nat) :
    takenBy cfg worker (w :: l) = ((worker w).taken cfg).map (w, ·) ++ takenBy cfg worker l := List.flatMap_cons

theorem takenBy_congr {cfg : Config} {worker worker' : Nat → WorkerPc} {l : List Nat}
    (h : ∀ u ∈ l, (worker' u).taken cfg = (worker u).taken cfg) :
    takenBy cfg worker' l = takenBy cfg worker l := by
  unfold takenBy
  simp only [List.flatMap]
  rw [List.map_congr_left fun u hu => by rw [h u hu]]

/-! ## The order of the queue -/

@[simp] theorem inserted_append (es es' : List Event) : inserted (es ++ es') = inserted es ++ inserted es' :=
  List.filterMap_append

@[simp] theorem turns_append (es es' : List Event) : turns (es ++ es') = turns es ++ turns es' :=
  List.filterMap_append

/-- The workers in the order of their arrival: first those that are gone, then the queue. -/
structure Fifo (cfg : Config) (s : State) (es : List Event) (gone : List Nat) : Prop where
  order : inserted es = gone ++ data s.queue
  nodup : (inserted es).Nodup
  gone : ∀ w ∈ gone, (s.worker w).gone cfg = true
  queued : ∀ w ∈ data s.queue, (s.worker w).queued cfg = true
  new : ∀ w, w ∉ inserted es → (s.worker w).isNew = true
  waiting : ∀ w ∈ (data s.queue).tail, s.worker w = .waitForCpu 0
  history : turns es = takenBy cfg s.worker (inserted es)

theorem fifo_init (cfg : Config) : Fifo cfg (initSchedQueue cfg) [] [] :=
  ⟨rfl, List.nodup_nil, nofun, nofun, fun _ _ => rfl, nofun, rfl⟩

section
variable {cfg : Config} {s s' : State} {es : List Event} {gone : List Nat} (h : Fifo cfg s es gone)
include h

theorem Fifo.turns_le : turns es <+: (inserted es).flatMap fun w => (allTurns cfg).map (w, ·) := by
  have hgone : takenBy cfg s.worker gone = gone.flatMap fun w => (allTurns cfg).map (w, ·) := by
    unfold takenBy
    simp only [List.flatMap]
    rw [List.map_congr_left fun u hu => by rw [taken_gone (h.gone u hu)]]
  rw [h.history, h.order, takenBy_append, List.flatMap_append, hgone, List.prefix_append_right_inj]
  cases hq : data s.queue with
  | nil => exact List.prefix_rfl
  | cons w t =>
    have hnone : takenBy cfg s.worker t = [] := by
      apply List.flatMap_eq_nil_iff.mpr
      intro u hu
      rw [h.waiting u (by rw [hq]; exact hu)]
      rfl
    rw [takenBy_cons, hnone, List.append_nil, List.flatMap_cons]
    exact ((taken_queued (h.queued w (by simp [hq]))).map _).trans (List.prefix_append _ _)

theorem Fifo.head {w : Nat} (hw : (s.worker w).atRest = false) (hg : (s.worker w).gone cfg = false) :
    ∃ t, data s.queue = w :: t := by
  have hins : w ∈ inserted es := by
    by_contra hnot
    have hrest := new_atRest (h.new w hnot)
    rw [hw] at hrest
    cases hrest
  rw [h.order] at hins
  rcases List.mem_append.mp hins with hm | hm
  · rw [h.gone w hm] at hg
    cases hg
  · have hwait := h.waiting
    cases hq : data s.queue with
    | nil =>
      rw [hq] at hm
      cases hm
    | cons x t =>
      rw [hq] at hm hwait
      rcases List.mem_cons.mp hm with rfl | hm
      · exact ⟨t, rfl⟩
      · rw [hwait w hm] at hw
        cases hw

theorem Fifo.keep (hw : s'.worker = s.worker) (hq : s'.queue = s.queue) : Fifo cfg s' es gone :=
  ⟨by rw [h.order, hq], h.nodup, hw ▸ h.gone, hw ▸ hq ▸ h.queued, hw ▸ h.new, hw ▸ hq ▸ h.waiting, hw ▸ h.history⟩

theorem Fifo.silent {e : Event} (hi : inserted [e] = []) (ht : turns [e] = []) :
    Fifo cfg s (es ++ [e]) gone := by
  have hins : inserted (es ++ [e]) = inserted es := by rw [inserted_append, hi, List.append_nil]
  refine ⟨hins ▸ h.order, hins ▸ h.nodup, h.gone, h.queued, hins ▸ h.new, h.waiting, ?_⟩
  rw [hins, turns_append, ht, List.append_nil]
  exact h.history

theorem Fifo.move {w : Nat} {pc : WorkerPc} (hw : s'.worker = (s.setWorker w pc).worker)
    (hq : s'.queue = s.queue) (ht : pc.taken cfg = (s.worker w).taken cfg)
    (hg : (s.worker w).gone cfg = true → pc.gone cfg = true)
    (hin : (s.worker w).queued cfg = true → pc.queued cfg = true)
    (hnew : (s.worker w).isNew = true → pc.isNew = true) (hwait : s.worker w ≠ .waitForCpu 0) :
    Fifo cfg s' es gone := by
  have hcase : ∀ u, u = w ∧ s'.worker u = pc ∨ s'.worker u = s.worker u := fun u => by
    rw [hw, State.setWorker_worker]
    by_cases hu : u = w
    · exact Or.inl ⟨hu, if_pos hu⟩
    · exact Or.inr (if_neg hu)
  refine ⟨by rw [h.order, hq], h.nodup, ?_, ?_, ?_, ?_, ?_⟩
  · intro u hu
    rcases hcase u with ⟨rfl, heq⟩ | heq <;> rw [heq]
    · exact hg (h.gone u hu)
    · exact h.gone u hu
  · intro u hu
    rw [hq] at hu
    rcases hcase u with ⟨rfl, heq⟩ | heq <;> rw [heq]
    · exact hin (h.queued u hu)
    · exact h.queued u hu
  · intro u hu
    rcases hcase u with ⟨rfl, heq⟩ | heq <;> rw [heq]
    · exact hnew (h.new u hu)
    · exact h.new u hu
  · intro u hu
    rw [hq] at hu
    rcases hcase u with ⟨rfl, heq⟩ | heq
    · exact absurd (h.waiting u hu) hwait
    · exact heq.trans (h.waiting u hu)
  · refine h.history.trans (takenBy_congr ?_).symm
    intro u _
    rcases hcase u with ⟨rfl, heq⟩ | heq <;> rw [heq]
    exact ht

theorem Fifo.turn {w : Nat} {t : List Nat} {pc : WorkerPc} {x : Turn} (hhead : data s.queue = w :: t)
    (hw : s'.worker = (s.setWorker w pc).worker) (hq : s'.queue = s.queue)
    (ht : pc.taken cfg = (s.worker w).taken cfg ++ [x]) (hin : pc.queued cfg = true) :
    Fifo cfg s' (es ++ [.turn w x]) gone := by
  have hins : inserted (es ++ [.turn w x]) = inserted es := by simp [inserted]
  have hnd := h.nodup
  rw [h.order, hhead] at hnd
  obtain ⟨-, hndt, hdis⟩ := List.nodup_append'.mp hnd
  have hwt : w ∉ t := (List.nodup_cons.mp hndt).1
  have hwg : w ∉ gone := fun hm => hdis hm (by simp)
  have hne : ∀ u, u ≠ w → s'.worker u = s.worker u := fun u hu => by rw [hw, s.setWorker_ne hu]
  have hself : s'.worker w = pc := by rw [hw, State.setWorker_self]
  refine ⟨by rw [hins, h.order, hq], by rw [hins]; exact h.nodup, ?_, ?_, ?_,
    ?_, ?_⟩
  · intro u hu
    rw [hne u fun heq => hwg (heq ▸ hu)]
    exact h.gone u hu
  · intro u hu
    rw [hq] at hu
    by_cases heq : u = w
    · rw [heq, hself]
      exact hin
    · rw [hne u heq]
      exact h.queued u hu
  · intro u hu
    rw [hins] at hu
    rw [hne u fun heq => hu (by rw [heq, h.order, hhead]; simp)]
    exact h.new u hu
  · intro u hu
    rw [hq] at hu
    rw [hne u fun heq => hwt (by rw [hhead] at hu; exact heq ▸ hu)]
    exact h.waiting u hu
  · have hgone : takenBy cfg s'.worker gone = takenBy cfg s.worker gone :=
      takenBy_congr fun u hu => by rw [hne u fun heq => hwg (heq ▸ hu)]
    have hnone : ∀ worker : Nat → WorkerPc, (∀ u ∈ t, worker u = .waitForCpu 0) → takenBy cfg worker t = [] :=
      fun worker hwait => List.flatMap_eq_nil_iff.mpr fun u hu => by rw [hwait u hu]; rfl
    have hwait : ∀ u ∈ t, s.worker u = .waitForCpu 0 := fun u hu => h.waiting u (by rw [hhead]; exact hu)
    have hwait' : ∀ u ∈ t, s'.worker u = .waitForCpu 0 := fun u hu =>
      (hne u fun heq => hwt (heq ▸ hu)).trans (hwait u hu)
    rw [hins, turns_append, h.history, h.order, hhead, takenBy_append, takenBy_append, takenBy_cons, takenBy_cons,
      hgone, hnone _ hwait, hnone _ hwait', hself, ht]
    simp [Sched.turns]

theorem Fifo.arrive {w : Nat} (hold : s.worker w = .enterQueue) :
    Fifo cfg ((s.insertQueueTail w).setWorker w (.waitForCpu 0)) (es ++ [.inserted w]) gone := by
  have hins : inserted (es ++ [.inserted w]) = inserted es ++ [w] := by simp [inserted]
  have hnot : w ∉ inserted es := by
    intro hm
    rw [h.order] at hm
    rcases List.mem_append.mp hm with hm | hm
    · have := h.gone w hm
      rw [hold] at this
      cases this
    · have := h.queued w hm
      rw [hold] at this
      cases this
  have hne : ∀ u ∈ inserted es, ((s.insertQueueTail w).setWorker w (.waitForCpu 0)).worker u = s.worker u :=
    fun u hu => State.setWorker_ne _ (by rintro rfl; exact hnot hu) _
  have hord : ∀ u, u ∈ gone ∨ u ∈ data s.queue → u ∈ inserted es := fun u hu => by
    rw [h.order]
    exact List.mem_append.mpr hu
  refine ⟨?_, ?_, ?_, ?_, ?_, ?_, ?_⟩
  · simp [hins, h.order]
  · rw [hins]
    exact List.nodup_append'.mpr ⟨h.nodup, List.nodup_singleton w, by simpa using hnot⟩
  · intro u hu
    rw [hne u (hord u (Or.inl hu))]
    exact h.gone u hu
  · intro u hu
    simp only [State.setWorker_queue, State.insertQueueTail_queue, List.mem_append, List.mem_singleton] at hu
    rcases hu with hu | rfl
    · rw [hne u (hord u (Or.inr hu))]
      exact h.queued u hu
    · simp [WorkerPc.queued]
  · intro u hu
    rw [hins, List.mem_append, List.mem_singleton, not_or] at hu
    rw [State.setWorker_ne _ hu.2]
    exact h.new u hu.1
  · intro u hu
    simp only [State.setWorker_queue, State.insertQueueTail_queue] at hu
    have hsub : u ∈ (data s.queue).tail ∨ u = w := by
      cases hq : data s.queue with
      | nil =>
        rw [hq] at hu
        cases hu
      | cons x t => simpa [hq] using hu
    rcases hsub with hu | rfl
    · rw [hne u (hord u (Or.inr (List.mem_of_mem_tail hu)))]
      exact h.waiting u hu
    · simp
  · have hkeep := takenBy_congr fun u hu => congrArg (WorkerPc.taken cfg) (hne u hu)
    rw [hins, turns_append, h.history, takenBy_append, hkeep]
    simp [Sched.turns, takenBy, WorkerPc.taken]

theorem Fifo.leave {w : Nat} (hold : s.worker w = .leaveQueue) :
    Fifo cfg { s.setWorker w .readNum with queue := removeItem w s.queue } es (gone ++ [w]) := by
  obtain ⟨t, hhead⟩ := h.head (w := w) (by rw [hold]; rfl) (by rw [hold]; rfl)
  have hdata : data (removeItem w s.queue) = t := by
    rw [data_removeItem, hhead]
    simp
  have hnd := h.nodup
  rw [h.order, hhead] at hnd
  obtain ⟨-, hndt, hdis⟩ := List.nodup_append'.mp hnd
  have hwt : w ∉ t := (List.nodup_cons.mp hndt).1
  have hwg : w ∉ gone := fun hm => hdis hm (by simp)
  have hne : ∀ u, u ≠ w → (s.setWorker w .readNum).worker u = s.worker u := fun u hu => s.setWorker_ne hu _
  refine ⟨by rw [h.order, hhead, hdata]; simp, h.nodup, ?_, ?_, ?_,
    ?_, ?_⟩
  · intro u hu
    rcases List.mem_append.mp hu with hu | hu
    · rw [show _ = s.worker u from hne u fun heq => hwg (heq ▸ hu)]
      exact h.gone u hu
    · obtain rfl := List.mem_singleton.mp hu
      rw [show _ = WorkerPc.readNum from s.setWorker_self u _]
      rfl
  · intro u hu
    rw [hdata] at hu
    rw [show _ = s.worker u from hne u fun heq => hwt (heq ▸ hu)]
    exact h.queued u (by rw [hhead]; exact List.mem_cons_of_mem w hu)
  · intro u hu
    rw [show _ = s.worker u from hne u fun heq => hu (by rw [heq, h.order, hhead]; simp)]
    exact h.new u hu
  · intro u hu
    rw [hdata] at hu
    have hu' := List.mem_of_mem_tail hu
    rw [show _ = s.worker u from hne u fun heq => hwt (heq ▸ hu')]
    exact h.waiting u (by rw [hhead]; exact hu')
  · refine h.history.trans (takenBy_congr ?_).symm
    intro u _
    by_cases hu : u = w
    · rw [hu, show _ = WorkerPc.readNum from s.setWorker_self w _, hold]
      rfl
    · rw [show _ = s.worker u from hne u hu]

end

theorem fifo_step {cfg : Config} (hp : cfg.policy = .fifo) {s s' : State} {t : Thread} {e : Option Event}
    {es : List Event} {gone : List Nat} (h : Fifo cfg s es gone) (hch : Chosen s) (hc : Created cfg s)
    (hm : Moves cfg s t s' e) : ∃ gone', Fifo cfg s' (es ++ e.toList) gone' := by
  have hnil : es ++ (none : Option Event).toList = es := List.append_nil es
  cases hm with
  | startScheduler | setNum | initThread | initDone | join | cleanUp | poll | queueReady | loop | loopDone | peekHead
    | peekNull | isRunning | selected | eltNext | eltNull | postWorker | waitForWorker =>
    rw [hnil]
    exact ⟨gone, h.keep rfl rfl⟩
  | createThread i hs =>
    have hnew := hc.later i (by rw [hs]; rfl) i (Nat.le_refl i)
    rw [hnil]
    exact ⟨gone, h.move rfl rfl (by rw [hnew]; rfl) (by rw [hnew]; nofun) (by rw [hnew]; nofun) (fun _ => rfl)
      (by rw [hnew]; nofun)⟩
  | insertRunning w hs =>
    have hk : Fifo cfg { s.insertRunningTail w with sched := .postWorker w } es gone := h.keep rfl rfl
    exact ⟨gone, hk.silent rfl rfl⟩
  | enterQueue w hw => exact ⟨gone, h.arrive hw⟩
  | loopTurn w i n hw hn hi =>
    obtain ⟨t, hhead⟩ := hch.picked w (Or.inr (Or.inr (by omega)))
    refine ⟨gone, h.turn hhead rfl rfl ?_ (by simpa [WorkerPc.queued] using hi)⟩
    simp [hw, WorkerPc.taken, hi, List.replicate_succ']
  | exitTurn w i n hw hn hi =>
    obtain ⟨t, hhead⟩ := hch.picked w (Or.inr (Or.inr (by omega)))
    have hle := h.queued w (by rw [hhead]; exact List.mem_cons_self)
    rw [hw] at hle
    obtain rfl : i = cfg.iterations := Nat.le_antisymm (by simpa [WorkerPc.queued] using hle) hi
    refine ⟨gone, h.turn hhead rfl rfl ?_ rfl⟩
    rw [hw]
    rfl
  | leaveQueue w hw =>
    rw [hnil]
    exact ⟨gone ++ [w], h.leave hw⟩
  | readNum w hw =>
    rw [hnil]
    exact ⟨gone, h.move rfl rfl (by rw [hw]; rfl) (fun _ => rfl) (by rw [hw]; nofun) (by rw [hw]; nofun)
      (by rw [hw]; nofun)⟩
  | writeNum w num hw =>
    rw [hnil]
    exact ⟨gone, h.move rfl rfl (by rw [hw]; simp [WorkerPc.taken]) (fun _ => by simp [WorkerPc.gone])
      (by rw [hw]; nofun) (by rw [hw]; nofun) (by rw [hw]; nofun)⟩
  | fifoRemoveRunning w i hf hw =>
    rw [hnil]
    exact ⟨gone, h.move rfl rfl (by rw [hw]; rfl) (by rw [hw]; exact id) (by rw [hw]; exact id) (by rw [hw]; exact id)
      (by rw [hw]; nofun)⟩
  | rrRemoveRunning w i hf hw =>
    rw [hp] at hf
    cases hf
  | removeQueue w i hw | insertQueue w i hw =>
    obtain ⟨t, ht⟩ := h.head (w := w) (by rw [hw]; rfl) (by rw [hw]; rfl)
    have := h.queued w (by rw [ht]; exact List.mem_cons_self)
    rw [hw] at this
    cases this
  | postLoop w i hw hi =>
    rw [hnil]
    refine ⟨gone, h.move rfl rfl (by simp [hw, WorkerPc.taken, hi]) ?_ ?_ (by rw [hw]; nofun)
      (by rw [hw]; nofun)⟩
    · intro hg
      simp [hw, WorkerPc.gone] at hg
      omega
    · intro _
      simpa [WorkerPc.queued] using Nat.succ_le_of_lt hi
  | postExit w i hw hi =>
    have hlt : ¬ i < cfg.iterations := Nat.not_lt.mpr hi
    have hk : Fifo cfg ({ s with queueSem := s.queueSem + 1 }.setWorker w .finished) es gone := by
      refine h.move rfl rfl (by simp [hw, WorkerPc.taken, hlt]) (fun _ => rfl) ?_ (by rw [hw]; nofun)
        (by rw [hw]; nofun)
      intro hin
      simp [hw, WorkerPc.queued, hlt] at hin
    exact ⟨gone, hk.silent rfl rfl⟩

/-! ## The count of the workers -/

def exited (cfg : Config) (s : State) : Finset Nat :=
  (Finset.range cfg.threadCount).filter fun w => (s.worker w).counted cfg = true

/-- `num_workers_remaining` counts the workers that have not decremented it. -/
structure Counted (cfg : Config) (s : State) : Prop where
  unset : s.main = .startScheduler ∨ s.main = .setNum →
    s.queue = [] ∧ s.doneThing = false ∧ (s.sched = .notCreated ∨ s.sched = .waitForQueue)
  num : s.main ≠ .startScheduler → s.main ≠ .setNum →
    s.numWorkersRemaining = cfg.threadCount - (exited cfg s).card
  read : ∀ w num, s.worker w = .writeNum num → num = s.numWorkersRemaining
  done : s.sched = .done → ∀ w, w < cfg.threadCount → s.worker w = .finished

theorem counted_init (cfg : Config) : Counted cfg (initSchedQueue cfg) :=
  ⟨fun _ => ⟨rfl, rfl, Or.inl rfl⟩, fun h => absurd rfl h, nofun, nofun⟩

theorem exited_congr {cfg : Config} {s s' : State}
    (hw : ∀ u, (s'.worker u).counted cfg = (s.worker u).counted cfg) : exited cfg s' = exited cfg s := by
  unfold exited
  simp only [hw]

theorem exited_insert {cfg : Config} {s s' : State} {w : Nat} (hlt : w < cfg.threadCount)
    (hold : (s.worker w).counted cfg = false) (hnew : (s'.worker w).counted cfg = true)
    (hw : ∀ u, u ≠ w → s'.worker u = s.worker u) : (exited cfg s').card = (exited cfg s).card + 1 :=
  card_filter_insert hlt hold hnew fun u hu => by rw [hw u hu]

section
variable {cfg : Config} {s s' : State} (h : Counted cfg s)

theorem Created.unset_notCreated (hc : Created cfg s) (hm : s.main = .startScheduler ∨ s.main = .setNum)
    (w : Nat) : s.worker w = .notCreated := by
  rcases hm with hm | hm <;> exact hc.later 0 (by rw [hm]; rfl) w (Nat.zero_le w)

theorem Created.set_of_exists (hc : Created cfg s) {w : Nat} (hw : s.worker w ≠ .notCreated) :
    (s.main ≠ .startScheduler ∧ s.main ≠ .setNum) ∧ w < cfg.threadCount :=
  ⟨⟨fun hm => hw (hc.unset_notCreated (Or.inl hm) w), fun hm => hw (hc.unset_notCreated (Or.inr hm) w)⟩,
    hc.worker w hw⟩

include h

theorem Counted.main_move (hold : s.main ≠ .startScheduler ∧ s.main ≠ .setNum)
    (hnew : s'.main ≠ .startScheduler ∧ s'.main ≠ .setNum) (hs : s'.sched = s.sched)
    (hn : s'.numWorkersRemaining = s.numWorkersRemaining) (hw : s'.worker = s.worker) : Counted cfg s' := by
  refine ⟨fun hm => (hm.elim hnew.1 hnew.2).elim, ?_, ?_, ?_⟩
  · intro _ _
    rw [hn, h.num hold.1 hold.2, exited_congr fun u => by rw [hw]]
  · intro w num hr
    rw [hn]
    exact h.read w num (hw ▸ hr)
  · intro hd w hlt
    rw [hw]
    exact h.done (hs ▸ hd) w hlt

theorem Counted.sched_move (hm : s'.main = s.main) (hold : s.sched ≠ .notCreated ∧ s.sched ≠ .waitForQueue)
    (hn : s'.numWorkersRemaining = s.numWorkersRemaining) (hw : s'.worker = s.worker)
    (hd : s'.sched = .done → ∀ w, w < cfg.threadCount → s.worker w = .finished) : Counted cfg s' := by
  refine ⟨?_, ?_, ?_, fun hs w hlt => by rw [hw]; exact hd hs w hlt⟩
  · intro hu
    rw [hm] at hu
    rcases (h.unset hu).2.2 with hs | hs
    · exact absurd hs hold.1
    · exact absurd hs hold.2
  · intro h1 h2
    rw [hm] at h1 h2
    rw [hn, h.num h1 h2, exited_congr fun u => by rw [hw]]
  · intro w num hr
    rw [hn]
    exact h.read w num (hw ▸ hr)

theorem Counted.worker_move {w : Nat} {pc : WorkerPc} (hw : s'.worker = (s.setWorker w pc).worker)
    (hold : (s.main ≠ .startScheduler ∧ s.main ≠ .setNum) ∧ w < cfg.threadCount)
    (hm : s'.main = s.main ∨ s'.main ≠ .startScheduler ∧ s'.main ≠ .setNum) (hs : s'.sched = s.sched)
    (hn : s'.numWorkersRemaining = s.numWorkersRemaining) (hfin : s.worker w ≠ .finished)
    (hcount : pc.counted cfg = (s.worker w).counted cfg)
    (hread : ∀ num, pc = .writeNum num → num = s.numWorkersRemaining) : Counted cfg s' := by
  have hm' : s'.main ≠ .startScheduler ∧ s'.main ≠ .setNum := by
    rcases hm with hm | hm
    · rw [hm]
      exact hold.1
    · exact hm
  refine ⟨fun hu => (hu.elim hm'.1 hm'.2).elim, ?_, ?_, ?_⟩
  · intro _ _
    rw [hn, h.num hold.1.1 hold.1.2, exited_congr (worker_same (WorkerPc.counted cfg) hw hcount)]
  · intro u num hr
    rw [hn]
    rw [hw, State.setWorker_worker] at hr
    by_cases hu : u = w
    · rw [if_pos hu] at hr
      exact hread num hr
    · rw [if_neg hu] at hr
      exact h.read u num hr
  · intro hd
    rw [hs] at hd
    exact absurd (h.done hd w hold.2) hfin

theorem Counted.write {p : Phase} (hsing : Single s p) (hc : Created cfg s) {w : Nat} {num : Int}
    (hold : s.worker w = .writeNum num) :
    Counted cfg { s.setWorker w (.removeRunning cfg.iterations) with numWorkersRemaining := num - 1 } := by
  have hne : s.worker w ≠ .notCreated := by rw [hold]; nofun
  have hset := (hc.set_of_exists hne).1
  obtain rfl := hsing.working (w := w) (by rw [hold]; rfl)
  refine ⟨fun hu => (hu.elim hset.1 hset.2).elim, ?_, ?_, ?_⟩
  · intro _ _
    have hcard : (exited cfg { s.setWorker w (.removeRunning cfg.iterations) with numWorkersRemaining := num - 1 }).card =
        (exited cfg s).card + 1 := by
      apply exited_insert (hc.worker w hne) (by rw [hold]; rfl)
      · simp [WorkerPc.counted]
      · intro u hu
        exact s.setWorker_ne hu (.removeRunning cfg.iterations)
    rw [hcard, h.read w num hold]
    have := h.num hset.1 hset.2
    simp only
    omega
  · intro u v hr
    have hrest := hsing.rest u
    rw [show _ = if u = w then WorkerPc.removeRunning cfg.iterations else s.worker u from
      s.setWorker_worker w _ u] at hr
    by_cases hu : u = w
    · rw [if_pos hu] at hr
      cases hr
    · have hwu : ¬ w = u := fun heq => hu heq.symm
      rw [if_neg hu] at hr
      rw [hr] at hrest
      simp [WorkerPc.atRest, hwu] at hrest
  · intro hd
    have hf : s.sched = .waitForWorker w := hsing.fits
    exact absurd (hf.symm.trans hd) nofun

/-- All workers have finished when the count is used up and nobody holds the CPU. -/
theorem Counted.all_finished {p : Phase} (hsing : Single s p) (hs : s.sched = .loop)
    (hn : s.numWorkersRemaining ≤ 0) {w : Nat} (hw : w < cfg.threadCount) : s.worker w = .finished := by
  have hset : s.main ≠ .startScheduler ∧ s.main ≠ .setNum := by
    constructor <;> intro hm
    · rcases (h.unset (Or.inl hm)).2.2 with h1 | h1 <;> rw [hs] at h1 <;> cases h1
    · rcases (h.unset (Or.inr hm)).2.2 with h1 | h1 <;> rw [hs] at h1 <;> cases h1
  have hcard := h.num hset.1 hset.2
  have hfull : exited cfg s = Finset.range cfg.threadCount :=
    Finset.eq_of_subset_of_card_le (Finset.filter_subset _ _) (by rw [Finset.card_range]; omega)
  have hmem : w ∈ exited cfg s := by rw [hfull]; exact Finset.mem_range.mpr hw
  have hcount := (Finset.mem_filter.mp hmem).2
  obtain rfl := hsing.picking (by rw [hs]; nofun) (by rw [hs]; nofun)
  have hrest := hsing.rest w
  simp only [ne_eq, reduceCtorEq, not_false_eq_true, decide_true] at hrest
  cases hpc : s.worker w with
  | finished => rfl
  | notCreated | enterQueue | waitForCpu | leaveQueue | readNum | writeNum =>
    rw [hpc] at hcount
    cases hcount
  | removeRunning | removeQueue | insertQueue | postQueue =>
    rw [hpc] at hrest
    cases hrest

end

theorem counted_step {cfg : Config} {s s' : State} {t : Thread} {e : Option Event} {p : Phase}
    (h : Counted cfg s) (hsing : Single s p) (hc : Created cfg s) (hm : Moves cfg s t s' e) :
    Counted cfg s' := by
  cases hm with
  | startScheduler hm =>
    have hu := h.unset (Or.inl hm)
    exact ⟨fun _ => ⟨hu.1, hu.2.1, Or.inr rfl⟩, fun _ h2 => absurd rfl h2, h.read, nofun⟩
  | setNum hm =>
    have hnew := hc.unset_notCreated (Or.inr hm)
    refine ⟨nofun, ?_, ?_, ?_⟩
    · intro _ _
      have hempty : exited cfg { s with main := .initThread 0, numWorkersRemaining := cfg.threadCount } = ∅ := by
        apply Finset.filter_eq_empty_iff.mpr
        intro w _
        rw [show _ = WorkerPc.notCreated from hnew w]
        nofun
      rw [hempty]
      simp
    · intro w num hr
      have := hnew w
      rw [show s.worker w = _ from hr] at this
      cases this
    · intro hd
      rcases (h.unset (Or.inr hm)).2.2 with h1 | h1 <;> rw [show s.sched = _ from hd] at h1 <;> cases h1
  | initThread i hm | initDone i hm | join hm | cleanUp hm =>
    exact h.main_move (by rw [hm]; exact ⟨nofun, nofun⟩) ⟨nofun, nofun⟩ rfl rfl rfl
  | createThread i hm =>
    have hnew := hc.later i (by rw [hm]; rfl) i (Nat.le_refl i)
    exact h.worker_move rfl ⟨by rw [hm]; exact ⟨nofun, nofun⟩, hc.creating i hm⟩
      (Or.inr ⟨nofun, nofun⟩) rfl rfl
      (by rw [hnew]; nofun) (by rw [hnew]; rfl) nofun
  | poll => exact h
  | queueReady hs hq =>
    refine ⟨?_, h.num, h.read, nofun⟩
    intro hu
    obtain ⟨h1, h2, -⟩ := h.unset hu
    rcases hq with hq | hq
    · rw [h2] at hq
      cases hq
    · exact absurd h1 hq
  | loopDone hs hn =>
    exact h.sched_move rfl (by rw [hs]; exact ⟨nofun, nofun⟩) rfl rfl fun _ w hw => h.all_finished hsing hs hn hw
  | loop hs | peekHead elt hs | peekNull hs | isRunning elt hs | selected elt hs | eltNext elt next hs | eltNull elt hs
    | insertRunning w hs | postWorker w hs | waitForWorker w n hs =>
    exact h.sched_move rfl (by rw [hs]; exact ⟨nofun, nofun⟩) rfl rfl nofun
  | writeNum w num hw => exact h.write hsing hc hw
  | readNum w hw =>
    refine h.worker_move rfl (hc.set_of_exists (by rw [hw]; nofun)) (Or.inl rfl) rfl rfl (by rw [hw]; nofun)
      (by rw [hw]; rfl) ?_
    intro num hr
    cases hr
    rfl
  | loopTurn w i n hw hn hi | postLoop w i hw hi | postExit w i hw hi =>
    exact h.worker_move rfl (hc.set_of_exists (by rw [hw]; nofun)) (Or.inl rfl) rfl rfl (by rw [hw]; nofun)
      (by simpa [hw, WorkerPc.counted] using hi) nofun
  | enterQueue w hw | exitTurn w i n hw | leaveQueue w hw | fifoRemoveRunning w i hp hw | rrRemoveRunning w i hp hw
    | removeQueue w i hw | insertQueue w i hw =>
    exact h.worker_move rfl (hc.set_of_exists (by rw [hw]; nofun)) (Or.inl rfl) rfl rfl (by rw [hw]; nofun)
      (by rw [hw]; rfl) nofun

/-! ## Runs -/

theorem events_snoc (tr : List (Thread × Option Event)) (t : Thread) (e : Option Event) :
    events (tr ++ [(t, e)]) = events tr ++ e.toList := by
  cases e <;> simp [events]

theorem fifo_run {cfg : Config} (hp : cfg.policy = .fifo) (hq : cfg.queueSize = 1) {es : List Thread}
    {s : State} {tr : List (Thread × Option Event)}
    (hr : run (step cfg) (initSchedQueue cfg) es = some (s, tr)) :
    Created cfg s ∧ (∃ p, Single s p) ∧ Chosen s ∧ Counted cfg s ∧ ∃ gone, Fifo cfg s (events tr) gone := by
  refine run_hist (I := fun s tr => Created cfg s ∧ (∃ p, Single s p) ∧ Chosen s ∧ Counted cfg s ∧
    ∃ gone, Fifo cfg s (events tr) gone) (g := []) ?_ ?_ (guarded_true _ es) hr
  · rintro s tr t s' e ⟨hc, ⟨p, hs⟩, hch, hn, gone, hf⟩ - hst
    have hm := step_moves hst
    rw [events_snoc]
    exact ⟨created_step hc hm, single_step hs hc hm, chosen_step hch hs hc hm, counted_step hn hs hc hm,
      fifo_step hp hf hch hc hm⟩
  · exact ⟨created_init cfg, ⟨_, single_init hq⟩, chosen_of_idle (fun _ => rfl) nofun nofun fun _ => ⟨nofun, nofun⟩,
      counted_init cfg, [], fifo_init cfg⟩

/-- At any moment the turns so far are those of the workers in the order of
their arrival, each with all its turns before the next one. -/
theorem fifo_runs_in_order (cfg : Config) (hp : cfg.policy = .fifo) (hq : cfg.queueSize = 1) (es : List Thread)
    (s : State) (tr : List (Thread × Option Event))
    (hr : run (step cfg) (initSchedQueue cfg) es = some (s, tr)) :
    turns (events tr) <+: (inserted (events tr)).flatMap (fun w =>
        (List.replicate cfg.iterations Turn.loop ++ [Turn.exit]).map (w, ·)) ∧
      (s.sched = .done → ∀ w, w < cfg.threadCount → s.worker w = .finished) := by
  obtain ⟨-, -, -, hn, gone, hf⟩ := fifo_run hp hq hr
  exact ⟨hf.turns_le, hn.done⟩

/-- Two workers with one iteration each, worker 1 first in the queue. -/
def fifoSchedule : List Thread :=
  let wake := List.replicate 5 Thread.sched
  let round (w : Nat) := wake ++ List.replicate 3 (.worker w) ++ [.sched] ++ wake ++ List.replicate 6 (.worker w) ++ [.sched]
  List.replicate 7 .main ++ [.worker 1, .sched, .worker 0] ++ round 1 ++ round 0 ++ [.sched]

theorem fifo_runs_in_order_two :
    ∃ s tr, run (step ⟨.fifo, 1, 2, 1⟩) (initSchedQueue ⟨.fifo, 1, 2, 1⟩) fifoSchedule = some (s, tr) ∧
      turns (events tr) = [(1, .loop), (1, .exit), (0, .loop), (0, .exit)] ∧ s.sched = .done ∧
      turns (events tr) <+: (inserted (events tr)).flatMap (fun w =>
        (List.replicate 1 Turn.loop ++ [Turn.exit]).map (w, ·)) ∧
      (s.sched = .done → ∀ w, w < 2 → s.worker w = .finished) :=
  ⟨_, _, rfl, by decide, rfl, fifo_runs_in_order ⟨.fifo, 1, 2, 1⟩ rfl rfl fifoSchedule _ _ rfl⟩

end OsLabs.Sched
