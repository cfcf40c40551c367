import Mathlib.Data.Finset.Card
import OsLabs.Sched

/-!
# What one step of the scheduler program can do

`Moves` lists the steps of all threads with their guards, for both policies and
every queue size. Invariants are proved by cases on it.
-/

namespace OsLabs.Sched

/-! ## Lists -/

@[simp] theorem data_nil : data [] = [] := rfl

@[simp] theorem data_append (l₁ l₂ : List Cell) : data (l₁ ++ l₂) = data l₁ ++ data l₂ :=
  List.map_append

@[simp] theorem data_cons (c : Cell) (l : List Cell) : data (c :: l) = c.datum :: data l := rfl

theorem eltInList_iff {lst : List Cell} {datum : Nat} : eltInList lst datum = true ↔ datum ∈ data lst := by
  simp [eltInList, data]

theorem data_removeItem (w : Nat) (lst : List Cell) : data (removeItem w lst) = (data lst).erase w := by
  induction lst with
  | nil => rfl
  | cons c lst ih =>
    unfold removeItem at ih ⊢
    by_cases hc : c.datum = w
    · simp [hc]
    · have hb : (c.datum == w) = false := by simpa using hc
      rw [List.eraseP_cons_of_neg (by simp [hc]), data_cons, data_cons, ih, List.erase_cons_tail (by simp [hb])]

theorem mem_removeItem {u w : Nat} {lst : List Cell} (hu : u ∈ data lst) (hne : u ≠ w) :
    u ∈ data (removeItem w lst) := by
  rw [data_removeItem]
  exact (List.mem_erase_of_ne hne).mpr hu

/-- One more number below `n` satisfies `q` than `p`. -/
theorem card_filter_insert {n w : Nat} {p q : Nat → Bool} (hw : w < n) (hp : p w = false) (hq : q w = true)
    (h : ∀ u, u ≠ w → q u = p u) :
    ((Finset.range n).filter fun u => q u = true).card = ((Finset.range n).filter fun u => p u = true).card + 1 := by
  have hnot : w ∉ (Finset.range n).filter fun u => p u = true := by simp [hp]
  have heq : ((Finset.range n).filter fun u => q u = true) = insert w ((Finset.range n).filter fun u => p u = true) := by
    ext u
    by_cases hu : u = w
    · simp [hu, hw, hq]
    · simp [hu, h u hu]
  rw [heq, Finset.card_insert_of_notMem hnot]

/-! ## Updates -/

@[simp] theorem State.setWorker_self (s : State) (w : Nat) (pc : WorkerPc) :
    (s.setWorker w pc).worker w = pc :=
  Function.update_self ..

theorem State.setWorker_ne (s : State) {u w : Nat} (h : u ≠ w) (pc : WorkerPc) :
    (s.setWorker w pc).worker u = s.worker u :=
  Function.update_of_ne h ..

section
variable (s : State) (w : Nat) (pc : WorkerPc)

@[simp] theorem State.setWorker_sched : (s.setWorker w pc).sched = s.sched := rfl

@[simp] theorem State.setWorker_queue : (s.setWorker w pc).queue = s.queue := rfl

@[simp] theorem State.setWorker_running : (s.setWorker w pc).running = s.running := rfl

@[simp] theorem State.setWorker_infoSem : (s.setWorker w pc).infoSem = s.infoSem := rfl

end

@[simp] theorem State.insertQueueTail_queue (s : State) (w : Nat) :
    data (s.insertQueueTail w).queue = data s.queue ++ [w] := data_append ..

theorem State.setWorker_worker (s : State) (w : Nat) (pc : WorkerPc) (u : Nat) :
    (s.setWorker w pc).worker u = if u = w then pc else s.worker u :=
  Function.update_apply ..

/-- A worker that goes on does not change what its old and its new place have in common. -/
theorem worker_same {α : Type*} {s s' : State} {w : Nat} {pc : WorkerPc} (f : WorkerPc → α)
    (hw : s'.worker = (s.setWorker w pc).worker) (hf : f pc = f (s.worker w)) (u : Nat) :
    f (s'.worker u) = f (s.worker u) := by
  rw [hw, State.setWorker_worker]
  by_cases hu : u = w
  · rw [if_pos hu, hu, hf]
  · rw [if_neg hu]

/-! ## The steps -/

section
variable (cfg : Config) (s : State)

inductive Moves : Thread → State → Option Event → Prop
  | startScheduler (h : s.main = .startScheduler) :
    Moves .main { s with main := .setNum, sched := .waitForQueue } none
  | setNum (h : s.main = .setNum) :
    Moves .main { s with main := .initThread 0, numWorkersRemaining := cfg.threadCount } none
  | initThread (i : Nat) (h : s.main = .initThread i) (hi : i < cfg.threadCount) :
    Moves .main { s with main := .createThread i, infoSem := Function.update s.infoSem i 0 } none
  | initDone (i : Nat) (h : s.main = .initThread i) (hi : cfg.threadCount ≤ i) :
    Moves .main { s with main := .join } none
  | createThread (i : Nat) (h : s.main = .createThread i) :
    Moves .main { s.setWorker i .enterQueue with main := .initThread (i + 1) } none
  | join (h : s.main = .join) (hs : s.sched = .done) : Moves .main { s with main := .cleanUp } none
  | cleanUp (h : s.main = .cleanUp) : Moves .main { s with main := .exit } none
  | poll (h : s.sched = .waitForQueue) (hd : s.doneThing = false) (hq : s.queue = []) : Moves .sched s none
  | queueReady (h : s.sched = .waitForQueue) (hq : s.doneThing = true ∨ s.queue ≠ []) :
    Moves .sched { s with sched := .loop, doneThing := true } none
  | loop (h : s.sched = .loop) (hn : 0 < s.numWorkersRemaining) : Moves .sched { s with sched := .peekHead } none
  | loopDone (h : s.sched = .loop) (hn : s.numWorkersRemaining ≤ 0) : Moves .sched { s with sched := .done } none
  | peekHead (elt : Cell) (h : s.sched = .peekHead) (hq : s.queue.head? = some elt) :
    Moves .sched { s with sched := .inRunning elt } none
  | peekNull (h : s.sched = .peekHead) (hq : s.queue = []) : Moves .sched { s with sched := .waitForQueue } none
  | isRunning (elt : Cell) (h : s.sched = .inRunning elt) (hr : elt.datum ∈ data s.running) :
    Moves .sched { s with sched := .eltNext elt } none
  | selected (elt : Cell) (h : s.sched = .inRunning elt) (hr : elt.datum ∉ data s.running) :
    Moves .sched { s with sched := .insertRunning elt.datum } none
  | eltNext (elt next : Cell) (h : s.sched = .eltNext elt) (hq : nextElt elt s.queue = some next) :
    Moves .sched { s with sched := .inRunning next } none
  | eltNull (elt : Cell) (h : s.sched = .eltNext elt) (hq : nextElt elt s.queue = none) :
    Moves .sched { s with sched := .waitForQueue } none
  | insertRunning (w : Nat) (h : s.sched = .insertRunning w) :
    Moves .sched { s.insertRunningTail w with sched := .postWorker w } (some (.woken w))
  | postWorker (w : Nat) (h : s.sched = .postWorker w) :
    Moves .sched { s.postInfo w with sched := .waitForWorker w } none
  | waitForWorker (w n : Nat) (h : s.sched = .waitForWorker w) (hn : s.queueSem = n + 1) :
    Moves .sched { s with queueSem := n, sched := .loop } none
  | enterQueue (w : Nat) (h : s.worker w = .enterQueue) :
    Moves (.worker w) ((s.insertQueueTail w).setWorker w (.waitForCpu 0)) (some (.inserted w))
  | loopTurn (w i n : Nat) (h : s.worker w = .waitForCpu i) (hn : s.infoSem w = n + 1) (hi : i < cfg.iterations) :
    Moves (.worker w) ({ s with infoSem := Function.update s.infoSem w n }.setWorker w (.removeRunning i))
      (some (.turn w .loop))
  | exitTurn (w i n : Nat) (h : s.worker w = .waitForCpu i) (hn : s.infoSem w = n + 1) (hi : cfg.iterations ≤ i) :
    Moves (.worker w) ({ s with infoSem := Function.update s.infoSem w n }.setWorker w .leaveQueue)
      (some (.turn w .exit))
  | leaveQueue (w : Nat) (h : s.worker w = .leaveQueue) :
    Moves (.worker w) { s.setWorker w .readNum with queue := removeItem w s.queue } none
  | readNum (w : Nat) (h : s.worker w = .readNum) :
    Moves (.worker w) (s.setWorker w (.writeNum s.numWorkersRemaining)) none
  | writeNum (w : Nat) (num : Int) (h : s.worker w = .writeNum num) :
    Moves (.worker w) { s.setWorker w (.removeRunning cfg.iterations) with numWorkersRemaining := num - 1 } none
  | fifoRemoveRunning (w i : Nat) (hp : cfg.policy = .fifo) (h : s.worker w = .removeRunning i) :
    Moves (.worker w) { s.setWorker w (.postQueue i) with running := removeItem w s.running } none
  | rrRemoveRunning (w i : Nat) (hp : cfg.policy = .rr) (h : s.worker w = .removeRunning i) :
    Moves (.worker w) { s.setWorker w (.removeQueue i) with running := removeItem w s.running } none
  | removeQueue (w i : Nat) (h : s.worker w = .removeQueue i) :
    Moves (.worker w) { s.setWorker w (.insertQueue i) with queue := removeItem w s.queue } none
  | insertQueue (w i : Nat) (h : s.worker w = .insertQueue i) :
    Moves (.worker w) ((s.insertQueueTail w).setWorker w (.postQueue i)) none
  | postLoop (w i : Nat) (h : s.worker w = .postQueue i) (hi : i < cfg.iterations) :
    Moves (.worker w) ({ s with queueSem := s.queueSem + 1 }.setWorker w (.waitForCpu (i + 1))) none
  | postExit (w i : Nat) (h : s.worker w = .postQueue i) (hi : cfg.iterations ≤ i) :
    Moves (.worker w) ({ s with queueSem := s.queueSem + 1 }.setWorker w .finished) (some (.finished w))

end

section
variable {cfg : Config} {s s' : State} {e : Option Event}

theorem mainStep_moves (h : mainStep cfg s = some (s', e)) : Moves cfg s .main s' e := by
  unfold mainStep at h
  split at h
  · rename_i hm
    cases h
    exact .startScheduler hm
  · rename_i hm
    cases h
    exact .setNum hm
  · rename_i i hm
    split at h
    · rename_i hi
      cases h
      exact .initThread i hm hi
    · rename_i hi
      cases h
      exact .initDone i hm (Nat.le_of_not_lt hi)
  · rename_i i hm
    cases h
    exact .createThread i hm
  · rename_i hm
    split at h
    · rename_i hs
      cases h
      exact .join hm hs
    · cases h
  · rename_i hm
    cases h
    exact .cleanUp hm
  · cases h

theorem schedStep_moves (h : schedStep s = some (s', e)) : Moves cfg s .sched s' e := by
  unfold schedStep at h
  split at h
  · cases h
  · rename_i hs
    cases h
    unfold waitForQueue
    split
    · rename_i hd
      have : { s with sched := .loop } = { s with sched := .loop, doneThing := true } := by rw [← hd]
      rw [this]
      exact .queueReady hs (Or.inl hd)
    · rename_i hd
      split
      · rename_i hq
        exact .poll hs (by simpa using hd) hq
      · rename_i hq
        exact .queueReady hs (Or.inr hq)
  · rename_i hs
    cases h
    split
    · rename_i hn
      exact .loop hs hn
    · rename_i hn
      exact .loopDone hs (Int.not_lt.mp hn)
  · rename_i hs
    cases h
    cases hq : s.queue.head? with
    | none => exact .peekNull hs (List.head?_eq_none_iff.mp hq)
    | some elt => exact .peekHead elt hs hq
  · rename_i elt hs
    cases h
    split
    · rename_i hr
      exact .isRunning elt hs (eltInList_iff.mp hr)
    · rename_i hr
      exact .selected elt hs fun hm => hr (eltInList_iff.mpr hm)
  · rename_i elt hs
    cases h
    cases hq : nextElt elt s.queue with
    | none => exact .eltNull elt hs hq
    | some next => exact .eltNext elt next hs hq
  · rename_i w hs
    cases h
    exact .insertRunning w hs
  · rename_i w hs
    cases h
    exact .postWorker w hs
  · rename_i w hs
    unfold State.waitQueueSem at h
    split at h
    · cases h
    · rename_i n hn
      cases h
      exact .waitForWorker w n hs hn
  · cases h

theorem workerStep_moves {w : Nat} (h : workerStep cfg s w = some (s', e)) :
    Moves cfg s (.worker w) s' e := by
  unfold workerStep at h
  split at h
  · cases h
  · rename_i hw
    cases h
    exact .enterQueue w hw
  · rename_i i hw
    unfold State.waitInfo at h
    split at h
    · cases h
    · rename_i n hn
      unfold gotCpu at h
      by_cases hi : i < cfg.iterations
      · simp only [Option.map_some, hi, ite_true] at h
        cases h
        exact .loopTurn w i n hw hn hi
      · simp only [Option.map_some, hi, ite_false] at h
        cases h
        exact .exitTurn w i n hw hn (Nat.le_of_not_lt hi)
  · rename_i hw
    cases h
    exact .leaveQueue w hw
  · rename_i hw
    cases h
    exact .readNum w hw
  · rename_i num hw
    cases h
    exact .writeNum w num hw
  · rename_i i hw
    cases hp : cfg.policy with
    | fifo =>
      rw [hp] at h
      cases h
      exact .fifoRemoveRunning w i hp hw
    | rr =>
      rw [hp] at h
      cases h
      exact .rrRemoveRunning w i hp hw
  · rename_i i hw
    cases h
    exact .removeQueue w i hw
  · rename_i i hw
    cases h
    exact .insertQueue w i hw
  · rename_i i hw
    by_cases hi : i < cfg.iterations
    · simp only [hi, ite_true] at h
      cases h
      exact .postLoop w i hw hi
    · simp only [hi, ite_false] at h
      cases h
      exact .postExit w i hw (Nat.le_of_not_lt hi)
  · cases h

theorem step_moves {t : Thread} (h : step cfg s t = some (s', e)) : Moves cfg s t s' e := by
  cases t with
  | main => exact mainStep_moves h
  | sched => exact schedStep_moves h
  | worker w =>
    by_cases hx : s.main = .exit
    · simp [step, hx] at h
    · simp only [step, hx, ite_false] at h
      exact workerStep_moves h

/-- The workers have no steps after `clean_up`, and all other threads have
exactly the listed ones. -/
theorem step_iff {t : Thread} :
    step cfg s t = some (s', e) ↔ Moves cfg s t s' e ∧ ∀ w, t = .worker w → s.main ≠ .exit := by
  constructor
  · intro h
    refine ⟨step_moves h, ?_⟩
    rintro w rfl hx
    simp [step, hx] at h
  · intro ⟨h, hx⟩
    cases h with
    | initThread i h hi =>
      have h0 : semInit (-1) = 0 := by decide
      simp [step, mainStep, h, hi, h0]
    | initDone i h hi => simp [step, mainStep, h, hi]
    | startScheduler h | setNum h | createThread i h | cleanUp h => simp [step, mainStep, h]
    | join h hs => simp [step, mainStep, h, hs]
    | poll h hd hq => simp [step, schedStep, waitForQueue, h, hd, hq]
    | queueReady h hq =>
      cases hd : s.doneThing with
      | true => simp [step, schedStep, waitForQueue, h, hd]
      | false =>
        have hne : s.queue ≠ [] := by simpa [hd] using hq
        simp [step, schedStep, waitForQueue, h, hd, hne]
    | loop h hn => simp [step, schedStep, h, hn]
    | loopDone h hn => simp [step, schedStep, h, Int.not_lt.mpr hn]
    | peekHead elt h hq | peekNull h hq => simp [step, schedStep, walkTo, h, hq]
    | isRunning elt h hr => simp [step, schedStep, h, eltInList_iff.mpr hr]
    | selected elt h hr =>
      have hr' : eltInList s.running elt.datum = false := by simpa [← eltInList_iff] using hr
      simp [step, schedStep, h, hr']
    | eltNext elt next h hq | eltNull elt h hq => simp [step, schedStep, walkTo, h, hq]
    | insertRunning w h | postWorker w h => simp [step, schedStep, h]
    | waitForWorker w n h hn => simp [step, schedStep, State.waitQueueSem, h, hn]
    | loopTurn w i n h hn hi | exitTurn w i n h hn hi =>
      simp [step, workerStep, State.waitInfo, gotCpu, hx w rfl, h, hn, hi]
    | fifoRemoveRunning w i hp h | rrRemoveRunning w i hp h => simp [step, workerStep, hx w rfl, h, hp]
    | enterQueue w h | leaveQueue w h | readNum w h | writeNum w num h | removeQueue w i h | insertQueue w i h =>
      simp [step, workerStep, hx w rfl, h]
    | postLoop w i h hi | postExit w i h hi => simp [step, workerStep, hx w rfl, h, hi]

end

/-! ## Creation of the workers -/

/-- The first worker that main has still to create, while it creates them. -/
def MainPc.next : MainPc → Option Nat
  | .startScheduler | .setNum => some 0
  | .initThread i | .createThread i => some i
  | .join | .cleanUp | .exit => none

/-- The worker that the scheduler looks at, wakes or waits for. -/
def SchedPc.picked : SchedPc → Option Nat
  | .inRunning elt | .eltNext elt => some elt.datum
  | .insertRunning w | .postWorker w | .waitForWorker w => some w
  | .notCreated | .waitForQueue | .loop | .peekHead | .done => none

structure Created (cfg : Config) (s : State) : Prop where
  creating : ∀ i, s.main = .createThread i → i < cfg.threadCount
  later : ∀ i, s.main.next = some i → ∀ w, i ≤ w → s.worker w = .notCreated
  worker : ∀ w, s.worker w ≠ .notCreated → w < cfg.threadCount
  sched : s.main = .startScheduler → s.sched = .notCreated
  queue : ∀ w ∈ data s.queue, s.worker w ≠ .notCreated
  picked : ∀ w ∈ s.sched.picked, s.worker w ≠ .notCreated

theorem created_init (cfg : Config) : Created cfg (initSchedQueue cfg) :=
  ⟨nofun, fun _ _ _ _ => rfl, fun _ h => absurd rfl h, fun _ => rfl, nofun, nofun⟩

theorem mem_of_nextElt {elt next : Cell} {lst : List Cell} (h : nextElt elt lst = some next) :
    next ∈ lst := by
  induction lst with
  | nil => cases h
  | cons x lst ih =>
    unfold nextElt at h
    split at h
    · exact List.mem_cons_of_mem x (List.mem_of_mem_head? h)
    · exact List.mem_cons_of_mem x (ih h)

section
variable {cfg : Config} {s s' : State}

theorem Created.move (h : Created cfg s) (hm : s'.main = s.main)
    (hw : ∀ u, s'.worker u = s.worker u ∨ s.worker u ≠ .notCreated ∧ s'.worker u ≠ .notCreated)
    (hq : ∀ u ∈ data s'.queue, u ∈ data s.queue ∨ s.worker u ≠ .notCreated)
    (hs : s.main = .startScheduler → s'.sched = .notCreated)
    (hp : ∀ u ∈ s'.sched.picked, u ∈ s.sched.picked ∨ u ∈ data s.queue) : Created cfg s' := by
  have hkeep : ∀ u, s.worker u ≠ .notCreated → s'.worker u ≠ .notCreated := fun u hu => by
    rcases hw u with heq | ⟨-, hne⟩
    · rwa [heq]
    · exact hne
  refine ⟨fun i hi => h.creating i (hm ▸ hi), ?_, ?_, fun hi => hs (hm ▸ hi),
    fun u hu => hkeep u ?_, fun u hu => hkeep u ?_⟩
  · intro i hi u hu
    have hnew := h.later i (hm ▸ hi) u hu
    rcases hw u with heq | ⟨hne, -⟩
    · exact heq.trans hnew
    · exact absurd hnew hne
  · intro u hu
    rcases hw u with heq | ⟨hne, -⟩
    · exact h.worker u (heq ▸ hu)
    · exact h.worker u hne
  · exact (hq u hu).elim (h.queue u) id
  · exact (hp u hu).elim (h.picked u) (h.queue u)

theorem Created.sched_move (h : Created cfg s) (hm : s'.main = s.main) (hw : s'.worker = s.worker)
    (hq : s'.queue = s.queue) (hs : s.sched ≠ .notCreated)
    (hp : ∀ u ∈ s'.sched.picked, u ∈ s.sched.picked ∨ u ∈ data s.queue) : Created cfg s' :=
  h.move hm (fun u => Or.inl (by rw [hw])) (fun u hu => Or.inl (hq ▸ hu))
    (fun hi => absurd (h.sched hi) hs) hp

theorem Created.worker_move (h : Created cfg s) {w : Nat} {pc : WorkerPc} (hm : s'.main = s.main)
    (hw : s'.worker = (s.setWorker w pc).worker) (hold : s.worker w ≠ .notCreated) (hnew : pc ≠ .notCreated)
    (hs : s'.sched = s.sched) (hq : ∀ u ∈ data s'.queue, u ∈ data s.queue ∨ u = w) : Created cfg s' := by
  refine h.move hm ?_ (fun u hu => (hq u hu).imp_right (by rintro rfl; exact hold))
    (fun hi => hs.trans (h.sched hi)) fun u hu => Or.inl (hs ▸ hu)
  intro u
  rw [hw, State.setWorker_worker]
  by_cases hu : u = w
  · subst hu
    exact Or.inr ⟨hold, by simpa using hnew⟩
  · exact Or.inl (if_neg hu)

theorem created_step {t : Thread} {e : Option Event} (h : Created cfg s) (hm : Moves cfg s t s' e) :
    Created cfg s' := by
  cases hm with
  | startScheduler hs =>
    exact ⟨nofun, fun i _ w _ => h.later 0 (by rw [hs]; rfl) w (Nat.zero_le w), h.worker, nofun, h.queue, nofun⟩
  | setNum hs =>
    exact ⟨nofun, fun i _ w _ => h.later 0 (by rw [hs]; rfl) w (Nat.zero_le w), h.worker, nofun, h.queue, h.picked⟩
  | initThread i hs hi =>
    refine ⟨?_, fun j hj => h.later j (by rw [hs]; exact hj), h.worker, nofun, h.queue, h.picked⟩
    intro j hj
    cases hj
    exact hi
  | initDone | join | cleanUp => exact ⟨nofun, nofun, h.worker, nofun, h.queue, h.picked⟩
  | createThread i hs =>
    have hne : ∀ u, s.worker u ≠ .notCreated →
        (s.setWorker i .enterQueue).worker u ≠ .notCreated := fun u hu => by
      rw [State.setWorker_worker]
      split
      · nofun
      · exact hu
    refine ⟨nofun, ?_, ?_, nofun, fun w hw => hne w (h.queue w hw),
      fun w hw => hne w (h.picked w hw)⟩
    · intro j hj w hw
      cases hj
      rw [show _ = s.worker w from s.setWorker_ne (by omega) .enterQueue]
      exact h.later i (by rw [hs]; rfl) w (by omega)
    · intro w hw
      by_cases hwi : w = i
      · subst hwi
        exact h.creating w hs
      · rw [show _ = s.worker w from s.setWorker_ne hwi .enterQueue] at hw
        exact h.worker w hw
  | poll => exact h
  | queueReady hs | loop hs | loopDone hs | peekNull hs | eltNull elt hs | waitForWorker w n hs =>
    exact h.sched_move rfl rfl rfl (by rw [hs]; nofun) nofun
  | peekHead elt hs hq =>
    refine h.sched_move rfl rfl rfl (by rw [hs]; nofun) fun u hu => Or.inr ?_
    obtain rfl : elt.datum = u := Option.some.inj hu
    exact List.mem_map_of_mem (List.mem_of_mem_head? hq)
  | eltNext elt next hs hq =>
    refine h.sched_move rfl rfl rfl (by rw [hs]; nofun) fun u hu => Or.inr ?_
    obtain rfl : next.datum = u := Option.some.inj hu
    exact List.mem_map_of_mem (mem_of_nextElt hq)
  | isRunning elt hs | selected elt hs | insertRunning w hs | postWorker w hs =>
    exact h.sched_move rfl rfl rfl (by rw [hs]; nofun) fun u hu => Or.inl (by rw [hs]; exact hu)
  | enterQueue w hw | insertQueue w i hw =>
    refine h.worker_move rfl rfl (by rw [hw]; nofun) nofun rfl fun u hu => ?_
    simpa [State.insertQueueTail, State.setWorker] using hu
  | leaveQueue w hw | removeQueue w i hw =>
    refine h.worker_move rfl rfl (by rw [hw]; nofun) nofun rfl fun u hu => Or.inl ?_
    rw [data_removeItem] at hu
    exact List.mem_of_mem_erase hu
  | loopTurn w i n hw | exitTurn w i n hw | readNum w hw | writeNum w num hw | fifoRemoveRunning w i hp hw
    | rrRemoveRunning w i hp hw | postLoop w i hw | postExit w i hw =>
    exact h.worker_move rfl rfl (by rw [hw]; nofun) nofun rfl fun _ => Or.inl

theorem created_run {es : List Thread} {tr : List (Thread × Option Event)}
    (hr : run (step cfg) (initSchedQueue cfg) es = some (s, tr)) : Created cfg s :=
  run_inv (fun _ _ _ _ h _ hs => created_step h (step_moves hs)) (created_init cfg) (guarded_true _ es) hr

end

end OsLabs.Sched
