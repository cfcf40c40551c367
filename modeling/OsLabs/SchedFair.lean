import Mathlib.Algebra.BigOperators.Group.Finset.Basic
import Mathlib.Algebra.Order.BigOperators.Group.Finset
import OsLabs.Fair
import OsLabs.SchedAwake
import OsLabs.SchedRotate

/-!
# Queue size 1 under fair schedules

No thread but the scheduler has a loop without end, and the scheduler polls only
while a worker has still to arrive. Under a fair schedule the program therefore
comes to its end, unless the scheduler waits for a worker that has finished.
-/

namespace OsLabs.Sched

/-- The threads that the program has or will have. -/
def Config.Has (cfg : Config) : Thread → Prop
  | .main | .sched => True
  | .worker w => w < cfg.threadCount

/-- The scheduler waits for ever for a worker that has finished. -/
def Hung (s : State) : Prop := ∃ w, s.sched = .waitForWorker w ∧ s.queueSem = 0 ∧ s.worker w = .finished

/-! ## Steps that are left -/

section
variable (cfg : Config)

def MainPc.left : MainPc → Nat
  | .startScheduler => 2 * cfg.threadCount + 5
  | .setNum => 2 * cfg.threadCount + 4
  | .initThread i => 2 * (cfg.threadCount - i) + 3
  | .createThread i => 2 * (cfg.threadCount - i) + 2
  | .join => 2
  | .cleanUp => 1
  | .exit => 0

/-- The steps of a turn are counted as under round robin, where a release takes one more. -/
def WorkerPc.left : WorkerPc → Nat
  | .notCreated => 5 * cfg.iterations + 10
  | .enterQueue => 5 * cfg.iterations + 9
  | .waitForCpu i => 5 * (cfg.iterations - i) + 8
  | .leaveQueue => 7
  | .readNum => 6
  | .writeNum _ => 5
  | .removeRunning i => 5 * (cfg.iterations - i) + if i < cfg.iterations then 7 else 4
  | .removeQueue i => 5 * (cfg.iterations - i) + if i < cfg.iterations then 6 else 3
  | .insertQueue i => 5 * (cfg.iterations - i) + if i < cfg.iterations then 5 else 2
  | .postQueue i => 5 * (cfg.iterations - i) + if i < cfg.iterations then 4 else 1
  | .finished => 0

def State.left (s : State) : Nat :=
  s.main.left cfg + ((Finset.range cfg.threadCount).sum fun w => (s.worker w).left cfg)

end

section
variable {cfg : Config} {s s' : State}

theorem left_worker {w : Nat} {pc : WorkerPc} (hlt : w < cfg.threadCount) (hw : s'.worker = (s.setWorker w pc).worker)
    (hpc : pc.left cfg < (s.worker w).left cfg) :
    ((Finset.range cfg.threadCount).sum fun u => (s'.worker u).left cfg) <
      (Finset.range cfg.threadCount).sum fun u => (s.worker u).left cfg := by
  have hself : (s'.worker w).left cfg < (s.worker w).left cfg := by rwa [hw, State.setWorker_self]
  refine Finset.sum_lt_sum ?_ ⟨w, Finset.mem_range.mpr hlt, hself⟩
  intro u _
  by_cases hu : u = w
  · subst hu
    exact Nat.le_of_lt hself
  · rw [hw, s.setWorker_ne hu]

/-- Every step but those of the scheduler is one less. -/
theorem left_step {t : Thread} {e : Option Event} (hc : Created cfg s) (hm : Moves cfg s t s' e) :
    s'.left cfg < s.left cfg ∨ t = .sched ∧ s'.left cfg = s.left cfg := by
  have hworker : ∀ {w pc}, s.worker w ≠ .notCreated → s'.main = s.main → s'.worker = (s.setWorker w pc).worker →
      pc.left cfg < (s.worker w).left cfg → s'.left cfg < s.left cfg := fun hne hmain hw hpc => by
    have hsum := left_worker (hc.worker _ hne) hw hpc
    unfold State.left
    rw [hmain]
    omega
  cases hm with
  | startScheduler h | setNum h | initThread i h | initDone i h | join h | cleanUp h =>
    left
    simp only [State.left, h, MainPc.left]
    omega
  | createThread i h =>
    have hlt := hc.creating i h
    have hnew := hc.later i (by rw [h]; rfl) i (Nat.le_refl i)
    have hsum := left_worker hlt (rfl : (s.setWorker i .enterQueue).worker = _)
      (by rw [hnew]; simp [WorkerPc.left])
    left
    simp only [State.left, h, MainPc.left]
    omega
  | poll | queueReady | loop | loopDone | peekHead | peekNull | isRunning | selected | eltNext | eltNull | insertRunning
    | postWorker | waitForWorker =>
    exact Or.inr ⟨rfl, rfl⟩
  | enterQueue w h | leaveQueue w h | readNum w h =>
    exact Or.inl (hworker (by rw [h]; nofun) rfl rfl (by rw [h]; simp [WorkerPc.left]))
  | exitTurn w i n h hn hi =>
    refine Or.inl (hworker (by rw [h]; nofun) rfl rfl ?_)
    rw [h]
    simp only [WorkerPc.left]
    omega
  | loopTurn w i n h hn hi | writeNum w num h | fifoRemoveRunning w i hp h | rrRemoveRunning w i hp h | removeQueue w i h
    | insertQueue w i h =>
    refine Or.inl (hworker (by rw [h]; nofun) rfl rfl ?_)
    rw [h]
    simp only [WorkerPc.left]
    split <;> omega
  | postLoop w i h hi | postExit w i h hi =>
    refine Or.inl (hworker (by rw [h]; nofun) rfl rfl ?_)
    rw [h]
    simp only [WorkerPc.left]
    split <;> omega

end

/-! ## The way of the scheduler -/

/-- The steps that the scheduler has left before it blocks or polls. -/
def State.ahead (s : State) : Nat :=
  match s.sched with
  | .notCreated | .done => 0
  | .waitForQueue => if s.queue = [] ∧ (s.doneThing = false ∨ 0 < s.numWorkersRemaining) then 0 else 6
  | .loop => if s.queue = [] ∧ 0 < s.numWorkersRemaining then 0 else 5
  | .peekHead => if s.queue = [] then if 0 < s.numWorkersRemaining then 0 else 7 else 4
  | .inRunning _ => 3
  | .insertRunning _ => 2
  | .eltNext _ | .postWorker _ => 1
  | .waitForWorker _ => if s.queueSem = 0 then 0 else 8

def SchedPc.polls : SchedPc → Bool
  | .waitForQueue | .loop | .peekHead => true
  | .notCreated | .inRunning _ | .eltNext _ | .insertRunning _ | .postWorker _ | .waitForWorker _ | .done => false

/-- Whose step brings the program further. -/
def Helps (cfg : Config) (s : State) (t : Thread) : Prop :=
  match s.sched with
  | .notCreated | .done => t = .main
  | .waitForWorker w => if s.queueSem = 0 then t = .worker w else t = .sched
  | .inRunning _ | .eltNext _ | .insertRunning _ | .postWorker _ => t = .sched
  | .waitForQueue | .loop | .peekHead =>
    if s.ahead = 0 then
      t = .main ∧ s.main.next.isSome = true ∨ ∃ w, w < cfg.threadCount ∧ s.worker w = .enterQueue ∧ t = .worker w
    else t = .sched

section
variable {cfg : Config} {s s' : State} {p : Phase}

theorem ahead_le (s : State) : s.ahead ≤ 8 := by
  unfold State.ahead
  repeat' split
  all_goals omega

theorem helps_polls (hs : s.sched.polls = true) (h0 : s.ahead = 0) (t : Thread) : Helps cfg s t ↔
    t = .main ∧ s.main.next.isSome = true ∨ ∃ w, w < cfg.threadCount ∧ s.worker w = .enterQueue ∧ t = .worker w := by
  cases hpc : s.sched with
  | waitForQueue | loop | peekHead => simp only [Helps, hpc, h0, if_true]
  | notCreated | inRunning | eltNext | insertRunning | postWorker | waitForWorker | done =>
    rw [hpc] at hs
    cases hs

/-- A step of the scheduler brings it further, unless it polls. -/
theorem sched_ahead {e : Option Event} (h : Steady cfg s p) (hm : Moves cfg s .sched s' e) :
    s'.ahead < s.ahead ∨ (s.ahead = 0 ∧ s'.ahead = 0 ∧ s.sched.polls = true ∧ s'.sched.polls = true) ∧
      s'.main = s.main ∧ s'.worker = s.worker := by
  cases hm with
  | poll hs hd hq => exact Or.inr ⟨⟨by simp [State.ahead, hs, hd, hq], by simp [State.ahead, hs, hd, hq],
      by rw [hs]; rfl, by rw [hs]; rfl⟩, rfl, rfl⟩
  | queueReady hs hq =>
    by_cases hidle : s.queue = [] ∧ 0 < s.numWorkersRemaining
    · exact Or.inr ⟨⟨by simp [State.ahead, hs, hidle], by simp [State.ahead, hidle], by rw [hs]; rfl, rfl⟩, rfl, rfl⟩
    · left
      have hsees : ¬ (s.queue = [] ∧ (s.doneThing = false ∨ 0 < s.numWorkersRemaining)) := by
        rintro ⟨hempty, hd | hn⟩
        · rcases hq with hq | hq
          · rw [hd] at hq
            cases hq
          · exact hq hempty
        · exact hidle ⟨hempty, hn⟩
      simp only [State.ahead, hs, if_neg hidle, if_neg hsees]
      omega
  | loop hs hn =>
    by_cases hq : s.queue = []
    · exact Or.inr ⟨⟨by simp [State.ahead, hs, hn, hq], by simp [State.ahead, hn, hq], by rw [hs]; rfl, rfl⟩, rfl, rfl⟩
    · left
      simp [State.ahead, hs, hq]
  | loopDone hs hn =>
    left
    simp [State.ahead, hs, Int.not_lt.mpr hn]
  | peekHead elt hs hq =>
    left
    have hne : s.queue ≠ [] := by
      intro hempty
      rw [hempty] at hq
      cases hq
    simp [State.ahead, hs, hne]
  | peekNull hs hq =>
    by_cases hn : 0 < s.numWorkersRemaining
    · exact Or.inr ⟨⟨by simp [State.ahead, hs, hn, hq], by simp [State.ahead, hn, hq], by rw [hs]; rfl, rfl⟩, rfl, rfl⟩
    · left
      simp only [State.ahead, hs, hq, hn]
      split <;> simp
  | isRunning elt hs hr =>
    obtain rfl := h.single.picking (by rw [hs]; nofun) (by rw [hs]; nofun)
    rw [h.single.running] at hr
    cases hr
  | selected elt hs hr =>
    left
    simp [State.ahead, hs]
  | eltNext elt next hs | eltNull elt hs => exact absurd hs (h.chosen.walk elt)
  | insertRunning w hs =>
    left
    simp [State.ahead, hs]
  | postWorker w hs =>
    left
    obtain rfl := h.single.waking hs
    have h0 : s.queueSem = 0 := h.single.queueSem
    simp [State.ahead, hs, State.postInfo, h0]
  | waitForWorker w n hs hn =>
    left
    simp only [State.ahead, hs, hn]
    split <;> simp

/-! ## Everybody has a step -/

theorem sched_goes (h0 : s.sched ≠ .notCreated) (hd : s.sched ≠ .done)
    (hw : ∀ w, s.sched = .waitForWorker w → s.queueSem ≠ 0) : ∃ s' e, step cfg s .sched = some (s', e) := by
  cases hs : s.sched with
  | notCreated => exact absurd hs h0
  | done => exact absurd hs hd
  | waitForWorker w =>
    obtain ⟨n, hn⟩ := Nat.exists_eq_succ_of_ne_zero (hw w hs)
    exact ⟨_, _, step_iff.mpr ⟨.waitForWorker w n hs hn, nofun⟩⟩
  | waitForQueue | loop | peekHead | inRunning | eltNext | insertRunning | postWorker =>
    simp [step, schedStep, hs]

theorem main_goes (hx : s.main ≠ .exit) (hj : s.main = .join → s.sched = .done) :
    ∃ s' e, step cfg s .main = some (s', e) := by
  cases hm : s.main with
  | exit => exact absurd hm hx
  | join => exact ⟨_, _, step_iff.mpr ⟨.join hm (hj hm), nofun⟩⟩
  | initThread i =>
    simp only [step, mainStep, hm]
    split <;> exact ⟨_, _, rfl⟩
  | startScheduler | setNum | createThread | cleanUp => simp [step, mainStep, hm]

end

/-! ## The beginning -/

/-- Until the scheduler has seen a worker on the queue, none has had a turn. -/
structure Begun (cfg : Config) (s : State) : Prop where
  created : s.sched = .notCreated → s.main = .startScheduler
  polls : s.doneThing = false → s.sched = .notCreated ∨ s.sched = .waitForQueue
  waits : s.doneThing = false → ∀ w, (s.worker w).isNew = true ∨ s.worker w = .waitForCpu 0
  earlier : ∀ w, w < cfg.threadCount → s.worker w = .notCreated → ∃ i, s.main.next = some i ∧ i ≤ w

theorem begun_init (cfg : Config) : Begun cfg (initSchedQueue cfg) :=
  ⟨fun _ => rfl, fun _ => Or.inl rfl, fun _ _ => Or.inl rfl, fun w _ _ => ⟨0, rfl, Nat.zero_le w⟩⟩

section
variable {cfg : Config} {s s' : State} {p : Phase}

theorem Begun.sched_move (h : Begun cfg s) (hm : s'.main = s.main) (hw : s'.worker = s.worker)
    (hd : s'.doneThing = s.doneThing) (hs : s.sched ≠ .notCreated ∧ s.sched ≠ .waitForQueue)
    (hs' : s'.sched ≠ .notCreated) : Begun cfg s' := by
  refine ⟨fun h0 => absurd h0 hs', ?_, ?_, ?_⟩
  · intro hd'
    exact absurd (h.polls (hd ▸ hd')) (by simp [hs.1, hs.2])
  · intro hd'
    rw [hw]
    exact h.waits (hd ▸ hd')
  · intro w hlt hnew
    rw [hm]
    exact h.earlier w hlt (hw ▸ hnew)

theorem Begun.worker_move (h : Begun cfg s) {w : Nat} {pc : WorkerPc} (hm : s'.main = s.main)
    (hs : s'.sched = s.sched) (hd : s'.doneThing = s.doneThing) (hw : s'.worker = (s.setWorker w pc).worker)
    (hnew : pc ≠ .notCreated) (hpc : s.doneThing = false → pc = .waitForCpu 0) : Begun cfg s' := by
  refine ⟨fun h0 => hm.trans (h.created (hs ▸ h0)), fun hd' => hs ▸ h.polls (hd ▸ hd'), ?_, ?_⟩
  · intro hd' u
    rw [hw, State.setWorker_worker]
    split
    · exact Or.inr (hpc (hd ▸ hd'))
    · exact h.waits (hd ▸ hd') u
  · intro u hlt hu
    rw [hw, State.setWorker_worker] at hu
    split at hu
    · exact absurd hu hnew
    · rw [hm]
      exact h.earlier u hlt hu

/-- A worker that has had a turn has been seen. -/
theorem Begun.seen (h : Begun cfg s) {w : Nat} (hnew : (s.worker w).isNew = false) (hw : s.worker w ≠ .waitForCpu 0) :
    s.doneThing ≠ false := by
  intro hd
  rcases h.waits hd w with h1 | h1
  · rw [hnew] at h1
    cases h1
  · exact hw h1

theorem begun_step {t : Thread} {e : Option Event} (h : Begun cfg s) (hs : Single s p) (hm : Moves cfg s t s' e) :
    Begun cfg s' := by
  cases hm with
  | startScheduler hm =>
    exact ⟨nofun, fun _ => Or.inr rfl, h.waits, fun w hlt hw => ⟨0, rfl, Nat.zero_le w⟩⟩
  | setNum hm =>
    refine ⟨?_, h.polls, h.waits, fun w hlt hw => ⟨0, rfl, Nat.zero_le w⟩⟩
    intro h0
    rw [h.created h0] at hm
    cases hm
  | initThread i hm =>
    refine ⟨?_, h.polls, h.waits, ?_⟩
    · intro h0
      rw [h.created h0] at hm
      cases hm
    · intro w hlt hw
      have := h.earlier w hlt hw
      rwa [hm] at this
  | initDone i hm hi =>
    refine ⟨?_, h.polls, h.waits, ?_⟩
    · intro h0
      rw [h.created h0] at hm
      cases hm
    · intro w hlt hw
      obtain ⟨j, hj, hle⟩ := h.earlier w hlt hw
      rw [hm] at hj
      cases hj
      omega
  | createThread i hm =>
    refine ⟨?_, h.polls, ?_, ?_⟩
    · intro h0
      have h0 : s.sched = .notCreated := h0
      rw [h.created h0] at hm
      cases hm
    · intro hd u
      show ((s.setWorker i .enterQueue).worker u).isNew = true ∨ (s.setWorker i .enterQueue).worker u = .waitForCpu 0
      rw [State.setWorker_worker]
      split
      · exact Or.inl rfl
      · exact h.waits hd u
    · intro w hlt hw
      have hw : (s.setWorker i .enterQueue).worker w = .notCreated := hw
      rw [State.setWorker_worker] at hw
      split at hw
      · cases hw
      · obtain ⟨j, hj, hle⟩ := h.earlier w hlt hw
        rw [hm] at hj
        cases hj
        exact ⟨i + 1, rfl, by omega⟩
  | join hm hd | cleanUp hm =>
    refine ⟨?_, h.polls, h.waits, ?_⟩
    · intro h0
      rw [h.created h0] at hm
      cases hm
    · intro w hlt hw
      have := h.earlier w hlt hw
      rwa [hm] at this
  | poll => exact h
  | queueReady hs' hq => exact ⟨nofun, nofun, nofun, h.earlier⟩
  | loop hs' | loopDone hs' | peekHead elt hs' | isRunning elt hs' | selected elt hs' | eltNext elt next hs'
    | insertRunning w hs' | postWorker w hs' | waitForWorker w n hs' | peekNull hs' | eltNull elt hs' =>
    exact h.sched_move rfl rfl rfl (by rw [hs']; exact ⟨nofun, nofun⟩) nofun
  | enterQueue w hw => exact h.worker_move rfl rfl rfl rfl nofun fun _ => rfl
  | loopTurn w i n hw hn | exitTurn w i n hw hn =>
    -- the semaphore of a worker is posted after it has been seen
    refine h.worker_move rfl rfl rfl rfl nofun fun hd => ?_
    have hf := hs.fits
    rw [hs.woken (w := w) (by omega)] at hf
    rcases h.polls hd with h1 | h1
    · rw [h1] at hf
      cases hf
    · rw [h1] at hf
      cases hf
  | leaveQueue w hw | readNum w hw | writeNum w num hw | fifoRemoveRunning w i hp hw | rrRemoveRunning w i hp hw
    | removeQueue w i hw | insertQueue w i hw | postExit w i hw hi =>
    exact h.worker_move rfl rfl rfl rfl nofun fun hd =>
      absurd hd (h.seen (w := w) (by rw [hw]; rfl) (by rw [hw]; nofun))
  | postLoop w i hw hi =>
    exact h.worker_move rfl rfl rfl rfl nofun fun hd =>
      absurd hd (h.seen (w := w) (by rw [hw]; rfl) (by rw [hw]; nofun))

end

/-! ## Under a fair schedule -/

/-- What holds in every state with queue size 1. -/
structure Serial (cfg : Config) (s : State) (p : Phase) : Prop where
  steady : Steady cfg s p
  counted : Counted cfg s
  started : Started s
  begun : Begun cfg s

theorem serial_step {cfg : Config} {s s' : State} {p : Phase} {t : Thread} {e : Option Event} (h : Serial cfg s p)
    (hs : step cfg s t = some (s', e)) : ∃ p', Serial cfg s' p' := by
  have hm := step_moves hs
  obtain ⟨p', hp'⟩ := steady_step h.steady hs
  exact ⟨p', hp', counted_step h.counted h.steady.single h.steady.created hm,
    started_step h.started h.steady.created hm, begun_step h.begun h.steady.single hm⟩

theorem serial_init {cfg : Config} (hq : cfg.queueSize = 1) : ∃ p, Serial cfg (initSchedQueue cfg) p := by
  obtain ⟨p, hp⟩ := steady_run hq (run_nil (step cfg) (initSchedQueue cfg))
  exact ⟨p, hp, counted_init cfg, started_init cfg, begun_init cfg⟩

theorem serial_run {cfg : Config} (hq : cfg.queueSize = 1) {es : List Thread} {s : State}
    {tr : List (Thread × Option Event)} (hr : run (step cfg) (initSchedQueue cfg) es = some (s, tr)) :
    ∃ p, Serial cfg s p :=
  run_inv (I := fun s => ∃ p, Serial cfg s p) (fun _ _ _ _ h _ hs => h.elim fun _ hp => serial_step hp hs)
    (serial_init hq) (guarded_true _ es) hr

def State.rank (cfg : Config) (s : State) : Nat := 9 * s.left cfg + s.ahead

section
variable {cfg : Config} {s s' : State} {p : Phase}

theorem rank_left (h : s'.left cfg < s.left cfg) : s'.rank cfg < s.rank cfg := by
  have hle := ahead_le s'
  unfold State.rank
  omega

theorem rank_step {t : Thread} {e : Option Event} (h : Serial cfg s p) (hs : step cfg s t = some (s', e)) :
    s'.rank cfg < s.rank cfg ∨ (s.ahead = 0 ∧ s'.ahead = 0 ∧ s.sched.polls = true ∧ s'.sched.polls = true) ∧
      t = .sched ∧ s'.rank cfg = s.rank cfg ∧ s'.main = s.main ∧ s'.worker = s.worker := by
  have hm := step_moves hs
  rcases left_step h.steady.created hm with hlt | ⟨rfl, heq⟩
  · exact Or.inl (rank_left hlt)
  · rcases sched_ahead h.steady hm with hlt | ⟨hpoll, hmain, hw⟩
    · left
      unfold State.rank
      omega
    · exact Or.inr ⟨hpoll, rfl, by rw [State.rank, State.rank, heq, hpoll.1, hpoll.2.1], hmain, hw⟩

/-- While the scheduler polls, some worker has still to arrive. -/
theorem Serial.missing (h : Serial cfg s p) (hN : 1 ≤ cfg.threadCount) (hs : s.sched.polls = true) (h0 : s.ahead = 0) :
    ∃ w, w < cfg.threadCount ∧ (s.worker w).isNew = true := by
  have hq : s.queue = [] ∧ (s.doneThing = false ∨ 0 < s.numWorkersRemaining) := by
    cases hpc : s.sched with
    | waitForQueue =>
      simp only [State.ahead, hpc] at h0
      split at h0
      · assumption
      · cases h0
    | loop =>
      simp only [State.ahead, hpc] at h0
      split at h0
      · rename_i hidle
        exact ⟨hidle.1, Or.inr hidle.2⟩
      · cases h0
    | peekHead =>
      simp only [State.ahead, hpc] at h0
      split at h0
      · split at h0
        · exact ⟨‹_›, Or.inr ‹_›⟩
        · cases h0
      · cases h0
    | notCreated | inRunning | eltNext | insertRunning | postWorker | waitForWorker | done =>
      rw [hpc] at hs
      cases hs
  obtain rfl : p = .picking := by
    apply h.steady.single.picking <;> (intro w hw; rw [hw] at hs; cases hs)
  by_contra hno
  have hold : ∀ w, w < cfg.threadCount → (s.worker w).isNew = false := fun w hw => by
    by_contra hne
    exact hno ⟨w, hw, by simpa using hne⟩
  have hout : ∀ w, (s.worker w).linked cfg = false := fun w => by
    by_contra hne
    have hmem := h.steady.queued.mem_iff.mpr (by simpa using hne)
    rw [hq.1] at hmem
    cases hmem
  rcases hq.2 with hd | hn
  · rcases h.begun.waits hd 0 with h1 | h1
    · rw [hold 0 hN] at h1
      cases h1
    · have := hout 0
      rw [h1] at this
      cases this
  · -- nobody waits and nobody has the CPU, so that all have finished
    have hfin : ∀ w, w < cfg.threadCount → s.worker w = .finished := fun w hw => by
      have hrest := h.steady.single.picking_rest w
      have hnew := hold w hw
      have hlink := hout w
      cases hpc : s.worker w with
      | finished => rfl
      | notCreated | enterQueue =>
        rw [hpc] at hnew
        cases hnew
      | waitForCpu i =>
        rw [hpc] at hlink
        cases hlink
      | leaveQueue | readNum | writeNum | removeRunning | removeQueue | insertQueue | postQueue =>
        rw [hpc] at hrest
        cases hrest
    have hset := h.steady.created.set_of_exists (w := 0) (by rw [hfin 0 hN]; nofun)
    have hall : exited cfg s = Finset.range cfg.threadCount := by
      apply Finset.filter_true_of_mem
      intro w hw
      rw [hfin w (Finset.mem_range.mp hw)]
      rfl
    have hnum := h.counted.num hset.1.1 hset.1.2
    rw [hall, Finset.card_range] at hnum
    omega

/-- A worker that is new is about to be created or to arrive. -/
theorem Serial.arrives (h : Serial cfg s p) {w : Nat} (hw : w < cfg.threadCount) (hnew : (s.worker w).isNew = true) :
    s.main.next.isSome = true ∨ s.worker w = .enterQueue := by
  cases hpc : s.worker w with
  | notCreated =>
    obtain ⟨i, hi, -⟩ := h.begun.earlier w hw hpc
    exact Or.inl (by rw [hi]; rfl)
  | enterQueue => exact Or.inr rfl
  | waitForCpu | leaveQueue | readNum | writeNum | removeRunning | removeQueue | insertQueue | postQueue | finished =>
    rw [hpc] at hnew
    cases hnew

theorem Serial.someone (h : Serial cfg s p) (hN : 1 ≤ cfg.threadCount) : ∃ t, cfg.Has t ∧ Helps cfg s t := by
  by_cases hpoll : s.sched.polls = true ∧ s.ahead = 0
  · obtain ⟨w, hw, hnew⟩ := h.missing hN hpoll.1 hpoll.2
    rcases h.arrives hw hnew with hnext | henter
    · exact ⟨.main, trivial, (helps_polls hpoll.1 hpoll.2 _).mpr (Or.inl ⟨rfl, hnext⟩)⟩
    · exact ⟨.worker w, hw, (helps_polls hpoll.1 hpoll.2 _).mpr (Or.inr ⟨w, hw, henter, rfl⟩)⟩
  · cases hpc : s.sched with
    | notCreated | done => exact ⟨.main, trivial, by rw [Helps, hpc]⟩
    | waitForWorker w =>
      by_cases hq : s.queueSem = 0
      · have hlt := h.steady.created.worker w (h.steady.created.picked w (by rw [hpc]; rfl))
        exact ⟨.worker w, hlt, by simp only [Helps, hpc, hq, if_true]⟩
      · exact ⟨.sched, trivial, by simp only [Helps, hpc, hq, if_false]⟩
    | inRunning | eltNext | insertRunning | postWorker => exact ⟨.sched, trivial, by rw [Helps, hpc]⟩
    | waitForQueue | loop | peekHead =>
      rw [hpc] at hpoll
      have hne : s.ahead ≠ 0 := fun h0 => hpoll ⟨rfl, h0⟩
      exact ⟨.sched, trivial, by simp only [Helps, hpc, hne, if_false]⟩

/-- A worker that the scheduler waits for goes on, unless it has finished. -/
theorem Serial.awaited_goes (h : Serial cfg s p) (hx : s.main ≠ .exit) {w : Nat} (hs : s.sched = .waitForWorker w)
    (hq : s.queueSem = 0) (hw : s.worker w ≠ .finished) : ∃ s' e, step cfg s (.worker w) = some (s', e) := by
  rcases h.steady.single.awaited hs hq with rfl | rfl
  · have hone : s.infoSem w = 1 := (h.steady.single.infoSem w).trans (if_pos rfl)
    obtain ⟨l, hl⟩ := h.steady.chosen.picked w (Or.inr (Or.inr (by omega)))
    have hlink := h.steady.queued.mem_iff.mp (show w ∈ data s.queue by rw [hl]; exact List.mem_cons_self)
    have hrest := h.steady.single.rest w
    cases hpc : s.worker w with
    | waitForCpu i => exact worker_awake hpc hx hone
    | finished => exact absurd hpc hw
    | notCreated | enterQueue =>
      rw [hpc] at hlink
      cases hlink
    | leaveQueue | readNum | writeNum | removeRunning | removeQueue | insertQueue | postQueue =>
      rw [hpc] at hrest
      cases hrest
  · exact worker_goes_on (by simp [h.steady.single.rest]) hx

theorem Serial.helper_goes (h : Serial cfg s p) (hgoal : ¬ (s.main = .exit ∨ Hung s)) {t : Thread} (ht : Helps cfg s t) :
    ∃ s' e, step cfg s t = some (s', e) := by
  obtain ⟨hx, hhung⟩ := not_or.mp hgoal
  by_cases hpoll : s.sched.polls = true ∧ s.ahead = 0
  · rcases (helps_polls hpoll.1 hpoll.2 t).mp ht with ⟨rfl, hnext⟩ | ⟨w, hw, henter, rfl⟩
    · refine main_goes hx fun hj => ?_
      rw [hj] at hnext
      cases hnext
    · exact ⟨_, _, step_iff.mpr ⟨.enterQueue w henter, fun _ _ => hx⟩⟩
  · cases hpc : s.sched with
    | notCreated =>
      rw [Helps, hpc] at ht
      subst ht
      have hm := h.begun.created hpc
      exact main_goes hx fun hj => by rw [hm] at hj; cases hj
    | done =>
      rw [Helps, hpc] at ht
      subst ht
      exact main_goes hx fun _ => hpc
    | waitForWorker w =>
      by_cases hq : s.queueSem = 0
      · simp only [Helps, hpc, hq, if_true] at ht
        subst ht
        exact h.awaited_goes hx hpc hq fun hfin => hhung ⟨w, hpc, hq, hfin⟩
      · simp only [Helps, hpc, hq, if_false] at ht
        subst ht
        exact sched_goes (by rw [hpc]; nofun) (by rw [hpc]; nofun) fun _ _ => hq
    | inRunning | eltNext | insertRunning | postWorker =>
      rw [Helps, hpc] at ht
      subst ht
      exact sched_goes (by rw [hpc]; nofun) (by rw [hpc]; nofun) (by rw [hpc]; nofun)
    | waitForQueue | loop | peekHead =>
      rw [hpc] at hpoll
      have hne : s.ahead ≠ 0 := fun h0 => hpoll ⟨rfl, h0⟩
      simp only [Helps, hpc, hne, if_false] at ht
      subst ht
      exact sched_goes (by rw [hpc]; nofun) (by rw [hpc]; nofun) (by rw [hpc]; nofun)

theorem serial_progress (hN : 1 ≤ cfg.threadCount) :
    Progress (step cfg) (fun s => ∃ p, Serial cfg s p) (fun s => s.main = .exit ∨ Hung s) cfg.Has (State.rank cfg)
      (Helps cfg) where
  inv := fun s t s' e ⟨p, h⟩ hs => serial_step h hs
  someone := fun s ⟨p, h⟩ _ => h.someone hN
  lowers := by
    rintro s t ⟨p, h⟩ hgoal ht
    obtain ⟨s', e, hs⟩ := h.helper_goes hgoal ht
    refine ⟨s', e, hs, ?_⟩
    rcases rank_step h hs with hlt | ⟨hpoll, rfl, -⟩
    · exact hlt
    · -- while the scheduler polls, it does not help
      rcases (helps_polls hpoll.2.2.1 hpoll.1 _).mp ht with ⟨heq, -⟩ | ⟨w, -, -, heq⟩ <;> cases heq
  keeps := by
    rintro s t s' e ⟨p, h⟩ hgoal hs
    rcases rank_step h hs with hlt | ⟨hpoll, rfl, hrank, hmain, hw⟩
    · exact Or.inl hlt
    · refine Or.inr ⟨hrank, fun u hu => ?_⟩
      rw [helps_polls hpoll.2.2.2 hpoll.2.1, hmain, hw]
      exact (helps_polls hpoll.2.2.1 hpoll.1 u).mp hu

end

/-! ## The end of the program -/

section
variable {cfg : Config} {s : State} {p : Phase}

/-- The program after `clean_up`: nobody has a step. -/
theorem Serial.over (h : Serial cfg s p) (hx : s.main = .exit) (t : Thread) : step cfg s t = none := by
  have hd := h.started.joined (Or.inr hx)
  cases t with
  | main => simp [step, mainStep, hx]
  | sched => simp [step, schedStep, hd]
  | worker w => simp [step, hx]

/-- Who waits for a worker that has finished has no step, and neither has anybody else any effect on that. -/
theorem Serial.hung_stays (h : Serial cfg s p) (hh : Hung s) {t : Thread} {s' : State} {e : Option Event}
    (hst : step cfg s t = some (s', e)) : Hung s' := by
  obtain ⟨w, hsched, hq, hfin⟩ := hh
  have hno : ∀ {u : Nat}, (s.worker u).atRest = true ∨ u = w := fun {u} => by
    by_contra hne
    obtain ⟨hne, huw⟩ := not_or.mp hne
    have hpu := h.steady.single.working (w := u) (by simpa using hne)
    rcases h.steady.single.awaited hsched hq with rfl | rfl
    · cases hpu
    · cases hpu
      exact huw rfl
  have hworker : ∀ {u : Nat} {pc : WorkerPc}, s.worker u ≠ .finished → (s.setWorker u pc).worker w = .finished :=
    fun {u pc} hu => by
      rw [s.setWorker_ne (by rintro rfl; exact hu hfin), hfin]
  cases step_moves hst with
  | startScheduler hm =>
    rw [h.steady.created.sched hm] at hsched
    cases hsched
  | setNum | initThread | initDone | join | cleanUp => exact ⟨w, hsched, hq, hfin⟩
  | createThread i hm =>
    have hnew := h.steady.created.later i (by rw [hm]; rfl) i (Nat.le_refl i)
    exact ⟨w, hsched, hq, hworker (by rw [hnew]; nofun)⟩
  | poll hs | queueReady hs | loop hs | loopDone hs | peekHead elt hs | peekNull hs | isRunning elt hs | selected elt hs
    | eltNext elt next hs | eltNull elt hs | insertRunning v hs | postWorker v hs =>
    rw [hs] at hsched
    cases hsched
  | waitForWorker v n hs hn => omega
  | enterQueue u hu | loopTurn u i n hu | exitTurn u i n hu => exact ⟨w, hsched, hq, hworker (by rw [hu]; nofun)⟩
  | leaveQueue u hu | readNum u hu | writeNum u num hu | fifoRemoveRunning u i hp hu | rrRemoveRunning u i hp hu
    | removeQueue u i hu | insertQueue u i hu | postLoop u i hu | postExit u i hu =>
    rcases hno (u := u) with hrest | rfl
    · rw [hu] at hrest
      cases hrest
    · rw [hu] at hfin
      cases hfin

theorem Serial.not_hung (h : Serial cfg s p) (hp : cfg.policy = .fifo) : ¬ Hung s := by
  rintro ⟨w, hs, hq, hfin⟩
  rcases h.steady.single.awaited hs hq with rfl | rfl
  · have hone : s.infoSem w = 1 := (h.steady.single.infoSem w).trans (if_pos rfl)
    obtain ⟨l, hl⟩ := h.steady.chosen.picked w (Or.inr (Or.inr (by omega)))
    have hlink := h.steady.queued.mem_iff.mp (show w ∈ data s.queue by rw [hl]; exact List.mem_cons_self)
    rw [hfin] at hlink
    simp [WorkerPc.linked, hp] at hlink
  · have hrest := h.steady.single.rest w
    rw [hfin] at hrest
    simp [WorkerPc.atRest] at hrest

/-- Without workers the scheduler never sees one. -/
theorem never_done (hN : cfg.threadCount = 0) (hq : cfg.queueSize = 1) {es : List Thread}
    {tr : List (Thread × Option Event)} (hr : run (step cfg) (initSchedQueue cfg) es = some (s, tr)) :
    s.sched ≠ .done := by
  have hI : s.doneThing = false ∧ ∃ p, Serial cfg s p := by
    refine run_inv (I := fun s => s.doneThing = false ∧ ∃ p, Serial cfg s p) ?_ ⟨rfl, serial_init hq⟩
      (guarded_true _ es) hr
    rintro s t s' e ⟨hd, p, h⟩ - hs
    refine ⟨?_, serial_step h hs⟩
    cases step_moves hs with
    | queueReady _ hready =>
      rcases hready with hready | hne
      · rw [hd] at hready
        cases hready
      · obtain ⟨elt, hmem⟩ := List.exists_mem_of_ne_nil s.queue hne
        have hlt := h.steady.created.worker _ (h.steady.created.queue elt.datum (List.mem_map_of_mem hmem))
        omega
    | startScheduler | setNum | initThread | initDone | createThread | join | cleanUp | poll | loop | loopDone
      | peekHead | peekNull | isRunning | selected | eltNext | eltNull | insertRunning | postWorker | waitForWorker
      | enterQueue | loopTurn | exitTurn | leaveQueue | readNum | writeNum | fifoRemoveRunning | rrRemoveRunning
      | removeQueue | insertQueue | postLoop | postExit => exact hd
  obtain ⟨hd, p, h⟩ := hI
  intro hdone
  rcases h.begun.polls hd with h1 | h1 <;> rw [hdone] at h1 <;> cases h1

/-- All workers have had their turns, one worker after the other. -/
theorem Fifo.complete {es : List Event} {gone : List Nat} (h : Fifo cfg s es gone) (hc : Created cfg s)
    (hfin : ∀ w, w < cfg.threadCount → s.worker w = .finished) :
    (inserted es).Perm (List.range cfg.threadCount) ∧
      turns es = (inserted es).flatMap fun w => (allTurns cfg).map (w, ·) := by
  have hmem : ∀ w, w ∈ inserted es ↔ w < cfg.threadCount := fun w => by
    constructor
    · intro hw
      rw [h.order] at hw
      apply hc.worker
      intro hnew
      rcases List.mem_append.mp hw with hw | hw
      · have := h.gone w hw
        rw [hnew] at this
        cases this
      · have := h.queued w hw
        rw [hnew] at this
        cases this
    · intro hw
      by_contra hnot
      have := h.new w hnot
      rw [hfin w hw] at this
      cases this
  constructor
  · rw [List.perm_ext_iff_of_nodup h.nodup List.nodup_range]
    intro w
    rw [hmem, List.mem_range]
  · rw [h.history]
    unfold takenBy
    simp only [List.flatMap]
    congr 1
    apply List.map_congr_left
    intro w hw
    rw [hfin w ((hmem w).mp hw)]
    rfl

end

/-- The state and the events after some turns of the schedule. -/
def after (cfg : Config) (f : Nat → Thread) (n : Nat) : State := states (step cfg) (initSchedQueue cfg) f n

def eventsBy (cfg : Config) (f : Nat → Thread) (n : Nat) : List Event :=
  events (history (step cfg) (initSchedQueue cfg) f n)

section
variable {cfg : Config} (f : Nat → Thread)

variable (cfg) in
theorem after_next (n : Nat) : after cfg f (n + 1) = after cfg f n ∧ eventsBy cfg f (n + 1) = eventsBy cfg f n ∨
    ∃ s' e, step cfg (after cfg f n) (f n) = some (s', e) ∧ after cfg f (n + 1) = s' ∧
      eventsBy cfg f (n + 1) = eventsBy cfg f n ++ e.toList := by
  rcases states_next (step cfg) (initSchedQueue cfg) f n with ⟨hs, hh⟩ | ⟨s', e, hst, hs, hh⟩
  · exact Or.inl ⟨hs, congrArg events hh⟩
  · refine Or.inr ⟨s', e, hst, hs, ?_⟩
    rw [eventsBy, hh, events_snoc]
    rfl

theorem serial_after (hq : cfg.queueSize = 1) (n : Nat) : ∃ p, Serial cfg (after cfg f n) p := by
  obtain ⟨es, hr⟩ := states_run (step cfg) (initSchedQueue cfg) f n
  exact serial_run hq hr

/-- Under a fair schedule the program comes to its end or to a worker that has finished. -/
theorem serial_reaches (hq : cfg.queueSize = 1) (hN : 1 ≤ cfg.threadCount) {f : Nat → Thread} (hf : FairTo cfg.Has f) :
    ∃ n, (after cfg f n).main = .exit ∨ Hung (after cfg f n) :=
  (serial_progress hN).reaches (serial_init hq) hf

end

/-- With queue size 1, first in first out comes to its end under every fair
schedule, if and only if there is a worker. From then on nothing happens; every
worker has finished, and has had all its turns in a row, the workers in the
order in which they arrived. -/
theorem fifo_terminates (cfg : Config) (hp : cfg.policy = .fifo) (hq : cfg.queueSize = 1) (f : Nat → Thread)
    (hf : FairTo cfg.Has f) :
    ((∃ n, (after cfg f n).main = .exit) ↔ 1 ≤ cfg.threadCount) ∧
    ∀ n, (after cfg f n).main = .exit →
      (∀ t, step cfg (after cfg f n) t = none) ∧ (∀ w, w < cfg.threadCount → (after cfg f n).worker w = .finished) ∧
      (inserted (eventsBy cfg f n)).Perm (List.range cfg.threadCount) ∧
      turns (eventsBy cfg f n) = (inserted (eventsBy cfg f n)).flatMap fun w =>
        (List.replicate cfg.iterations Turn.loop ++ [Turn.exit]).map (w, ·) := by
  refine ⟨⟨?_, ?_⟩, ?_⟩
  · rintro ⟨n, hx⟩
    obtain ⟨es, hr⟩ := states_run (step cfg) (initSchedQueue cfg) f n
    by_contra h0
    exact never_done (by omega) hq hr ((started_run hr).2.joined (Or.inr hx))
  · intro hN
    obtain ⟨n, hx | hh⟩ := serial_reaches hq hN hf
    · exact ⟨n, hx⟩
    · obtain ⟨p, h⟩ := serial_after f hq n
      exact absurd hh (h.not_hung hp)
  · intro n hx
    obtain ⟨p, h⟩ := serial_after f hq n
    obtain ⟨es, hr⟩ := states_run (step cfg) (initSchedQueue cfg) f n
    obtain ⟨hc, -, -, hn, gone, hfifo⟩ := fifo_run hp hq hr
    have hfin := hn.done (h.started.joined (Or.inr hx))
    exact ⟨h.over hx, hfin, hfifo.complete hc hfin⟩

/-- Two workers and the other threads, one after the other. -/
def everybody : Nat → Thread := cycle [.main, .sched, .worker 0, .worker 1] (by decide)

theorem everybody_fair {cfg : Config} (h : cfg.threadCount = 2) : FairTo cfg.Has everybody := by
  intro t ht
  refine cycle_fair [Thread.main, .sched, .worker 0, .worker 1] (by decide) t ?_
  cases t with
  | main | sched => simp
  | worker w =>
    have hw : w < 2 := h ▸ ht
    obtain rfl | rfl : w = 0 ∨ w = 1 := by omega
    all_goals simp

theorem fifo_terminates_two :
    ((∃ n, (after ⟨.fifo, 1, 2, 3⟩ everybody n).main = .exit) ↔ 1 ≤ 2) ∧
    ∀ n, (after ⟨.fifo, 1, 2, 3⟩ everybody n).main = .exit →
      (∀ t, step ⟨.fifo, 1, 2, 3⟩ (after ⟨.fifo, 1, 2, 3⟩ everybody n) t = none) ∧
      (∀ w, w < 2 → (after ⟨.fifo, 1, 2, 3⟩ everybody n).worker w = .finished) ∧
      (inserted (eventsBy ⟨.fifo, 1, 2, 3⟩ everybody n)).Perm (List.range 2) ∧
      turns (eventsBy ⟨.fifo, 1, 2, 3⟩ everybody n) = (inserted (eventsBy ⟨.fifo, 1, 2, 3⟩ everybody n)).flatMap fun w =>
        (List.replicate 3 Turn.loop ++ [Turn.exit]).map (w, ·) :=
  fifo_terminates ⟨.fifo, 1, 2, 3⟩ rfl rfl everybody (everybody_fair rfl)

end OsLabs.Sched
