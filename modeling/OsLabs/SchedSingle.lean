import OsLabs.SchedSound

/-!
# One turn at a time

With queue size 1 the queue semaphore starts at 0, so that the scheduler waits
for each worker it has woken. The CPU is then in one place at any time: with
the scheduler, on its way to a worker, with the worker, or on its way back.
-/

namespace OsLabs.Sched

inductive Phase
  | picking
  | waking (w : Nat)
  | woken (w : Nat)
  | working (w : Nat)
  | released (w : Nat)
  deriving DecidableEq

def WorkerPc.atRest : WorkerPc → Bool
  | .notCreated | .enterQueue | .waitForCpu _ | .finished => true
  | .leaveQueue | .readNum | .writeNum _ | .removeRunning _ | .removeQueue _ | .insertQueue _ | .postQueue _ => false

/-- A worker that holds the CPU is still on the running list. -/
def WorkerPc.onRunning : WorkerPc → Bool
  | .leaveQueue | .readNum | .writeNum _ | .removeRunning _ => true
  | .notCreated | .enterQueue | .waitForCpu _ | .finished | .removeQueue _ | .insertQueue _ | .postQueue _ => false

def Phase.Fits : Phase → SchedPc → Prop
  | .picking, pc => (∀ w, pc ≠ .postWorker w) ∧ ∀ w, pc ≠ .waitForWorker w
  | .waking w, pc => pc = .postWorker w
  | .woken w, pc | .working w, pc | .released w, pc => pc = .waitForWorker w

def Phase.running (worker : Nat → WorkerPc) : Phase → List Nat
  | .waking w | .woken w => [w]
  | .working w => if (worker w).onRunning then [w] else []
  | .picking | .released _ => []

def Phase.queueSem : Phase → Nat
  | .released _ => 1
  | .picking | .waking _ | .woken _ | .working _ => 0

structure Single (s : State) (p : Phase) : Prop where
  fits : p.Fits s.sched
  running : data s.running = p.running s.worker
  infoSem : ∀ u, s.infoSem u = if p = .woken u then 1 else 0
  queueSem : s.queueSem = p.queueSem
  rest : ∀ u, (s.worker u).atRest = decide (p ≠ .working u)

theorem single_init {cfg : Config} (hq : cfg.queueSize = 1) : Single (initSchedQueue cfg) .picking := by
  refine ⟨⟨nofun, nofun⟩, rfl, fun u => rfl, ?_, fun u => rfl⟩
  simp [initSchedQueue, hq, semInit, Phase.queueSem]

section
variable {s s' : State} {p : Phase} (h : Single s p)
include h

theorem Single.picking (hw : ∀ w, s.sched ≠ .postWorker w) (hs : ∀ w, s.sched ≠ .waitForWorker w) :
    p = .picking := by
  have hf := h.fits
  cases p with
  | picking => rfl
  | waking w => exact absurd hf (hw w)
  | woken w | working w | released w => exact absurd hf (hs w)

theorem Single.waking {w : Nat} (hs : s.sched = .postWorker w) : p = .waking w := by
  have hf := h.fits
  rw [hs] at hf
  cases p with
  | picking => exact absurd rfl (hf.1 w)
  | waking u =>
    cases hf
    rfl
  | woken u | working u | released u => cases hf

theorem Single.released {w : Nat} (hs : s.sched = .waitForWorker w) (hq : s.queueSem ≠ 0) :
    p = .released w := by
  have hf := h.fits
  rw [h.queueSem] at hq
  cases p with
  | released u =>
    rw [hs] at hf
    cases hf
    rfl
  | picking | waking u | woken u | working u => exact absurd rfl hq

theorem Single.woken {w : Nat} (hi : s.infoSem w ≠ 0) : p = .woken w := by
  have := h.infoSem w
  by_contra hne
  rw [if_neg hne] at this
  exact hi this

theorem Single.working {w : Nat} (hw : (s.worker w).atRest = false) : p = .working w := by
  have := h.rest w
  by_contra hne
  rw [hw] at this
  simp [hne] at this

theorem Single.move (hs : p.Fits s'.sched) (hr : s'.running = s.running)
    (hi : ∀ u, s'.infoSem u = s.infoSem u) (hq : s'.queueSem = s.queueSem)
    (hw : ∀ u, s'.worker u = s.worker u ∨ (s.worker u).atRest = true ∧ (s'.worker u).atRest = true) :
    Single s' p := by
  have hrest : ∀ u, (s'.worker u).atRest = decide (p ≠ .working u) := fun u => by
    rw [← h.rest u]
    rcases hw u with heq | ⟨h1, h2⟩
    · rw [heq]
    · rw [h1, h2]
  refine ⟨hs, ?_, fun u => (hi u).trans (h.infoSem u), hq.trans h.queueSem, hrest⟩
  rw [hr, h.running]
  cases p with
  | working w =>
    rcases hw w with heq | ⟨h1, -⟩
    · simp only [Phase.running, heq]
    · have := h.rest w
      simp [h1] at this
  | picking | waking w | woken w | released w => rfl

theorem Single.picks (hp : p = .picking) (hs : Phase.Fits .picking s'.sched) (hr : s'.running = s.running)
    (hi : s'.infoSem = s.infoSem) (hq : s'.queueSem = s.queueSem) (hw : s'.worker = s.worker) :
    Single s' .picking := by
  subst hp
  exact h.move hs hr (fun u => by rw [hi]) hq fun u => Or.inl (by rw [hw])

theorem Single.works {w : Nat} {pc : WorkerPc} (hold : (s.worker w).atRest = false) (hnew : pc.atRest = false)
    (hw : s'.worker = (s.setWorker w pc).worker) (hs : s'.sched = s.sched) (hi : s'.infoSem = s.infoSem)
    (hq : s'.queueSem = s.queueSem)
    (hr : data s'.running = if pc.onRunning then data s.running else (data s.running).erase w)
    (hon : pc.onRunning = true → (s.worker w).onRunning = true) : Single s' (.working w) := by
  obtain rfl := h.working hold
  refine ⟨hs ▸ h.fits, ?_, fun u => by rw [hi]; exact h.infoSem u, hq.trans h.queueSem, ?_⟩
  · rw [hr, h.running, hw]
    simp only [Phase.running, State.setWorker_self]
    by_cases ho : pc.onRunning = true
    · simp [ho, hon ho]
    · by_cases ho' : (s.worker w).onRunning = true <;> simp [ho, ho']
  · intro u
    rw [hw, State.setWorker_worker]
    by_cases hu : u = w
    · subst hu
      simpa using hnew
    · rw [if_neg hu]
      exact h.rest u

theorem Single.posts {w i : Nat} {pc : WorkerPc} (hold : s.worker w = .postQueue i) (hnew : pc.atRest = true) :
    Single ({ s with queueSem := s.queueSem + 1 }.setWorker w pc) (.released w) := by
  obtain rfl := h.working (by rw [hold]; rfl)
  refine ⟨h.fits, ?_, h.infoSem, by rw [Phase.queueSem, ← show s.queueSem + 1 = _ from rfl, h.queueSem]; rfl,
    ?_⟩
  · have := h.running
    simp only [Phase.running, hold] at this
    exact this
  · intro u
    rw [State.setWorker_worker]
    by_cases hu : u = w
    · subst hu
      simpa using hnew
    · rw [if_neg hu]
      have := h.rest u
      have hne : ¬ w = u := fun heq => hu heq.symm
      simpa [hne] using this

theorem Single.takes {w n : Nat} {pc : WorkerPc} (hn : s.infoSem w = n + 1)
    (hold : (s.worker w).atRest = true) (hnew : pc.atRest = false) (hon : pc.onRunning = true) :
    Single ({ s with infoSem := Function.update s.infoSem w n }.setWorker w pc) (.working w) := by
  obtain rfl := h.woken (w := w) (by omega)
  have hone := h.infoSem w
  refine ⟨h.fits, ?_, ?_, h.queueSem, ?_⟩
  · simpa [Phase.running, hon] using h.running
  · intro u
    by_cases hu : u = w
    · subst hu
      simp only [ite_true] at hone
      simp [State.setWorker]
      omega
    · have := h.infoSem u
      have hne : ¬ w = u := fun heq => hu heq.symm
      simpa [State.setWorker, hu, hne] using this
  · intro u
    rw [State.setWorker_worker]
    by_cases hu : u = w
    · subst hu
      simpa using hnew
    · rw [if_neg hu]
      have := h.rest u
      have hne : ¬ w = u := fun heq => hu heq.symm
      simpa [hne] using this

end

theorem setWorker_rest {s : State} {w : Nat} {pc : WorkerPc} (hold : (s.worker w).atRest = true)
    (hnew : pc.atRest = true) (u : Nat) : (s.setWorker w pc).worker u = s.worker u ∨
      (s.worker u).atRest = true ∧ ((s.setWorker w pc).worker u).atRest = true := by
  by_cases hu : u = w
  · subst hu
    exact Or.inr ⟨hold, by simpa using hnew⟩
  · exact Or.inl (s.setWorker_ne hu pc)

/-- The semaphore of a worker that does not exist has not been posted. -/
theorem Single.infoSem_new {cfg : Config} {s : State} {p : Phase} (h : Single s p) (hc : Created cfg s)
    {i : Nat} (hm : s.main = .initThread i) : s.infoSem i = 0 := by
  by_contra hne
  have hf := h.fits
  rw [h.woken hne] at hf
  have hs : s.sched = .waitForWorker i := hf
  exact hc.picked i (by rw [hs]; rfl) (hc.later i (by rw [hm]; rfl) i (Nat.le_refl i))

theorem single_step {cfg : Config} {s s' : State} {t : Thread} {e : Option Event} {p : Phase} (h : Single s p)
    (hc : Created cfg s) (hm : Moves cfg s t s' e) : ∃ p', Single s' p' := by
  cases hm with
  | startScheduler hs =>
    have hsched := hc.sched hs
    exact ⟨_, h.picks (h.picking (by rw [hsched]; nofun) (by rw [hsched]; nofun)) ⟨nofun, nofun⟩ rfl rfl rfl rfl⟩
  | setNum | initDone | join | cleanUp => exact ⟨p, h.move h.fits rfl (fun _ => rfl) rfl fun _ => Or.inl rfl⟩
  | initThread i hs hi =>
    have h0 := h.infoSem_new hc hs
    refine ⟨p, h.move h.fits rfl ?_ rfl fun _ => Or.inl rfl⟩
    intro u
    by_cases hu : u = i
    · subst hu
      simp [h0]
    · simp [hu]
  | createThread i hs =>
    have hnew := hc.later i (by rw [hs]; rfl) i (Nat.le_refl i)
    exact ⟨p, h.move h.fits rfl (fun _ => rfl) rfl (setWorker_rest (by rw [hnew]; rfl) rfl)⟩
  | poll => exact ⟨p, h⟩
  | queueReady hs | loop hs | loopDone hs | peekHead elt hs | peekNull hs | isRunning elt hs | selected elt hs
    | eltNext elt next hs | eltNull elt hs =>
    exact ⟨_, h.picks (h.picking (by rw [hs]; nofun) (by rw [hs]; nofun)) ⟨nofun, nofun⟩ rfl rfl rfl rfl⟩
  | insertRunning w hs =>
    obtain rfl := h.picking (by rw [hs]; nofun) (by rw [hs]; nofun)
    refine ⟨.waking w, rfl, ?_, h.infoSem, h.queueSem, h.rest⟩
    simp [State.insertRunningTail, Phase.running, h.running]
  | postWorker w hs =>
    obtain rfl := h.waking hs
    refine ⟨.woken w, rfl, h.running, ?_, h.queueSem, h.rest⟩
    intro u
    by_cases hu : u = w
    · subst hu
      simp [State.postInfo, h.infoSem]
    · have hne : ¬ w = u := fun heq => hu heq.symm
      simp [State.postInfo, h.infoSem, hu, hne]
  | waitForWorker w n hs hn =>
    obtain rfl := h.released hs (by omega)
    have h1 := h.queueSem
    simp only [Phase.queueSem] at h1
    refine ⟨.picking, ⟨nofun, nofun⟩, h.running, h.infoSem, ?_, h.rest⟩
    simp only [Phase.queueSem]
    omega
  | enterQueue w hw =>
    exact ⟨p, h.move h.fits rfl (fun _ => rfl) rfl (setWorker_rest (s := s) (by rw [hw]; rfl) rfl)⟩
  | loopTurn w i n hw hn | exitTurn w i n hw hn => exact ⟨_, h.takes hn (by rw [hw]; rfl) rfl rfl⟩
  | leaveQueue w hw | readNum w hw | writeNum w num hw =>
    exact ⟨_, h.works (by rw [hw]; rfl) rfl rfl rfl rfl rfl rfl fun _ => by rw [hw]; rfl⟩
  | fifoRemoveRunning w i hp hw | rrRemoveRunning w i hp hw =>
    exact ⟨_, h.works (by rw [hw]; rfl) rfl rfl rfl rfl rfl (data_removeItem w s.running) nofun⟩
  | removeQueue w i hw | insertQueue w i hw =>
    refine ⟨_, h.works (by rw [hw]; rfl) rfl rfl rfl rfl rfl ?_ nofun⟩
    have hr := h.running
    rw [h.working (w := w) (by rw [hw]; rfl)] at hr
    simp only [Phase.running, hw] at hr
    exact hr.trans (by rw [hr]; rfl)
  | postLoop w i hw hi | postExit w i hw hi => exact ⟨_, h.posts hw rfl⟩

/-! ## The choice of the next worker -/

/-- The scheduler chooses the worker at the head of the queue, which stays there until it runs. -/
structure Chosen (s : State) : Prop where
  head : ∀ elt, s.sched = .inRunning elt → s.queue.head? = some elt
  walk : ∀ elt, s.sched ≠ .eltNext elt
  picked : ∀ w, s.sched = .insertRunning w ∨ s.sched = .postWorker w ∨ s.infoSem w ≠ 0 → ∃ t, data s.queue = w :: t

section
variable {s s' : State} {p : Phase}

theorem Chosen.keep (h : Chosen s) (hs : s'.sched = s.sched) (hi : ∀ u, s'.infoSem u ≠ 0 → s.infoSem u ≠ 0)
    (hq : ∃ l, s'.queue = s.queue ++ l) : Chosen s' := by
  obtain ⟨l, hl⟩ := hq
  refine ⟨?_, fun elt => hs ▸ h.walk elt, ?_⟩
  · intro elt he
    have := h.head elt (hs ▸ he)
    rw [hl, List.head?_append, this]
    rfl
  · intro w hw
    rw [hs] at hw
    obtain ⟨t, ht⟩ := h.picked w (hw.imp_right (Or.imp_right (hi w)))
    exact ⟨t ++ data l, by rw [hl, data_append, ht]; rfl⟩

theorem chosen_of_idle (hi : ∀ u, s.infoSem u = 0) (hh : ∀ elt, s.sched ≠ .inRunning elt)
    (hw : ∀ elt, s.sched ≠ .eltNext elt) (hp : ∀ w, s.sched ≠ .insertRunning w ∧ s.sched ≠ .postWorker w) :
    Chosen s := by
  refine ⟨fun elt he => absurd he (hh elt), hw, ?_⟩
  intro w hw
  rcases hw with hw | hw | hw
  · exact absurd hw (hp w).1
  · exact absurd hw (hp w).2
  · exact absurd (hi w) hw

theorem Single.chosen_works (h : Single s p) {w : Nat} (hw : (s.worker w).atRest = false)
    (hs : s'.sched = s.sched) (hi : s'.infoSem = s.infoSem) : Chosen s' := by
  obtain rfl := h.working hw
  have hf : s.sched = .waitForWorker w := h.fits
  rw [hf] at hs
  refine chosen_of_idle ?_ (by rw [hs]; nofun) (by rw [hs]; nofun) fun u => ⟨by rw [hs]; nofun, by rw [hs]; nofun⟩
  intro u
  rw [hi, h.infoSem]
  rfl

theorem Single.chosen_takes (h : Single s p) {w n : Nat} (hn : s.infoSem w = n + 1) (hs : s'.sched = s.sched)
    (hi : s'.infoSem = Function.update s.infoSem w n) : Chosen s' := by
  obtain rfl := h.woken (w := w) (by omega)
  have hf : s.sched = .waitForWorker w := h.fits
  rw [hf] at hs
  refine chosen_of_idle ?_ (by rw [hs]; nofun) (by rw [hs]; nofun) fun u => ⟨by rw [hs]; nofun, by rw [hs]; nofun⟩
  intro u
  rw [hi, Function.update_apply]
  have hu := h.infoSem u
  by_cases heq : u = w
  · subst heq
    simp only [ite_true] at hu ⊢
    omega
  · have hne : ¬ w = u := fun h => heq h.symm
    simpa [heq, hne] using hu

theorem chosen_step {cfg : Config} {t : Thread} {e : Option Event} (h : Chosen s) (hs : Single s p)
    (hc : Created cfg s) (hm : Moves cfg s t s' e) : Chosen s' := by
  have hpick : p = .picking → ∀ u, s.infoSem u = 0 := fun hp u => by
    subst hp
    rw [hs.infoSem]
    rfl
  have hphase : ∀ {pc : SchedPc}, s.sched = pc → (∀ w, pc ≠ .postWorker w) → (∀ w, pc ≠ .waitForWorker w) →
      p = .picking := fun h1 h2 h3 => hs.picking (h1 ▸ h2) (h1 ▸ h3)
  cases hm with
  | startScheduler hm =>
    have hp := hphase (hc.sched hm) nofun nofun
    exact chosen_of_idle (hpick hp) nofun nofun fun _ => ⟨nofun, nofun⟩
  | setNum | initDone | createThread | join | cleanUp => exact h.keep rfl (fun _ hu => hu) ⟨[], by simp⟩
  | initThread i =>
    refine h.keep rfl ?_ ⟨[], by simp⟩
    intro u hu
    by_cases heq : u = i
    · subst heq
      simp at hu
    · simpa [heq] using hu
  | poll => exact h
  | queueReady hm | loop hm | loopDone hm | peekNull hm =>
    exact chosen_of_idle (hpick (hphase hm nofun nofun)) nofun nofun fun _ => ⟨nofun, nofun⟩
  | peekHead elt hm hq =>
    have hi := hpick (hphase hm nofun nofun)
    refine ⟨?_, nofun, ?_⟩
    · intro elt' he
      cases he
      exact hq
    · intro w hw
      rcases hw with hw | hw | hw
      · cases hw
      · cases hw
      · exact absurd (hi w) hw
  | isRunning elt hm hr =>
    obtain rfl := hphase hm nofun nofun
    rw [hs.running] at hr
    cases hr
  | selected elt hm hr =>
    have hi := hpick (hphase hm nofun nofun)
    refine ⟨nofun, nofun, ?_⟩
    intro w hw
    rcases hw with hw | hw | hw
    · cases hw
      obtain ⟨t, ht⟩ := List.head?_eq_some_iff.mp (h.head elt hm)
      exact ⟨data t, by rw [ht]; rfl⟩
    · cases hw
    · exact absurd (hi w) hw
  | eltNext elt next hm | eltNull elt hm => exact absurd hm (h.walk elt)
  | insertRunning w hm =>
    refine ⟨nofun, nofun, ?_⟩
    intro u hu
    rcases hu with hu | hu | hu
    · cases hu
    · cases hu
      exact h.picked w (Or.inl hm)
    · exact h.picked u (Or.inr (Or.inr hu))
  | postWorker w hm =>
    refine ⟨nofun, nofun, ?_⟩
    intro u hu
    rcases hu with hu | hu | hu
    · cases hu
    · cases hu
    · by_cases heq : u = w
      · subst heq
        exact h.picked u (Or.inr (Or.inl hm))
      · exact h.picked u (Or.inr (Or.inr (by simpa [State.postInfo, heq] using hu)))
  | waitForWorker w n hm hn =>
    obtain rfl := hs.released hm (by omega)
    refine chosen_of_idle ?_ nofun nofun fun _ => ⟨nofun, nofun⟩
    intro u
    rw [show _ = s.infoSem u from rfl, hs.infoSem]
    rfl
  | enterQueue w hw => exact h.keep rfl (fun _ hu => hu) ⟨[⟨s.fresh, w⟩], rfl⟩
  | loopTurn w i n hw hn | exitTurn w i n hw hn => exact hs.chosen_takes hn rfl rfl
  | leaveQueue w hw | readNum w hw | writeNum w num hw | fifoRemoveRunning w i hp hw | rrRemoveRunning w i hp hw
    | removeQueue w i hw | insertQueue w i hw | postLoop w i hw | postExit w i hw =>
    exact hs.chosen_works (by rw [hw]; rfl) rfl rfl

end

end OsLabs.Sched
