import OsLabs.SchedLinked
import OsLabs.SchedTurns

/-!
# Round robin with queue size 1

The CPU goes from the head of the queue to the next one, and back to the same
worker when all those have had it that were ahead when it was put back. New
workers, and workers that are put back later, are behind it.
-/

namespace OsLabs.Sched

/-! ## The hands that the CPU goes through -/

section
variable (cfg : Config)

/-- A worker with the CPU is still at the head of the queue. -/
def WorkerPc.leads : WorkerPc → Bool
  | .leaveQueue => true
  | .removeRunning i | .removeQueue i => decide (i < cfg.iterations)
  | .notCreated | .enterQueue | .waitForCpu _ | .readNum | .writeNum _ | .insertQueue _ | .postQueue _ | .finished => false

/-- The worker at the head of the queue that is woken or has the CPU. -/
def Phase.atHead (worker : Nat → WorkerPc) : Phase → List Nat
  | .waking w | .woken w => [w]
  | .working w => if (worker w).leads cfg then [w] else []
  | .picking | .released _ => []

end

def WorkerPc.atPost : WorkerPc → Bool
  | .postQueue _ => true
  | .notCreated | .enterQueue | .waitForCpu _ | .leaveQueue | .readNum | .writeNum _ | .removeRunning _ | .removeQueue _
    | .insertQueue _ | .finished => false

/-- The worker that is woken and has not got the CPU yet. -/
def Phase.due : Phase → List Nat
  | .waking w | .woken w => [w]
  | .picking | .working _ | .released _ => []

section
variable (cfg : Config) (s s' : State)

/-- What a step does to the CPU and to the queue. -/
inductive Hands : Phase → Phase → Thread → Option Event → Prop
  | idle (p : Phase) (t : Thread) (hq : data s'.queue = data s.queue)
    (hh : p.atHead cfg s'.worker = p.atHead cfg s.worker) (hp : ∀ u, (s'.worker u).atPost = (s.worker u).atPost)
    (ht : ∀ w i, t = .worker w → s.worker w ≠ .insertQueue i) : Hands p p t none
  | enter (p : Phase) (w : Nat) (hw : s.worker w = .enterQueue) (hq : data s'.queue = data s.queue ++ [w])
    (hh : p.atHead cfg s'.worker = p.atHead cfg s.worker) (hp : ∀ u, (s'.worker u).atPost = (s.worker u).atPost) :
    Hands p p (.worker w) (some (.inserted w))
  | wake (w : Nat) (l : List Nat) (hl : data s.queue = w :: l) (hq : data s'.queue = data s.queue) :
    Hands .picking (.waking w) .sched (some (.woken w))
  | post (w : Nat) (hq : data s'.queue = data s.queue) : Hands (.waking w) (.woken w) .sched none
  | take (w i : Nat) (x : Turn) (hw : s.worker w = .waitForCpu i) (hq : data s'.queue = data s.queue)
    (hh : (s'.worker w).leads cfg = true) : Hands (.woken w) (.working w) (.worker w) (some (.turn w x))
  | unlink (w : Nat) (hw : ∀ i, s.worker w ≠ .insertQueue i) (hq : data s'.queue = (data s.queue).erase w)
    (hh : (s.worker w).leads cfg = true) (hh' : (s'.worker w).leads cfg = false)
    (hp : (s'.worker w).atPost = false) : Hands (.working w) (.working w) (.worker w) none
  | putBack (w i : Nat) (hw : s.worker w = .insertQueue i) (hq : data s'.queue = data s.queue ++ [w])
    (hw' : s'.worker w = .postQueue i) : Hands (.working w) (.working w) (.worker w) none
  | release (w i : Nat) (e : Option Event) (hw : s.worker w = .postQueue i) (hq : data s'.queue = data s.queue)
    (he : e = none ∨ e = some (.finished w)) : Hands (.working w) (.released w) (.worker w) e
  | resume (w : Nat) (hq : data s'.queue = data s.queue) : Hands (.released w) .picking .sched none

end

theorem leads_atPost {cfg : Config} {pc : WorkerPc} (h : pc.leads cfg = true) : pc.atPost = false := by
  cases pc with
  | postQueue => cases h
  | notCreated | enterQueue | waitForCpu | leaveQueue | readNum | writeNum | removeRunning | removeQueue | insertQueue
    | finished => rfl

theorem atHead_congr {cfg : Config} {f g : Nat → WorkerPc} (h : ∀ u, (f u).leads cfg = (g u).leads cfg)
    (p : Phase) : p.atHead cfg f = p.atHead cfg g := by
  cases p with
  | working w => simp only [Phase.atHead, h]
  | picking | waking | woken | released => rfl

section
variable {cfg : Config} {s s' : State} {p p' : Phase}

/-- A step that changes nothing of what the phase is read off leaves the phase. -/
theorem Single.stays (h : Single s p) (h' : Single s' p') (hs : s'.sched = s.sched)
    (hi : ∀ u, s'.infoSem u = s.infoSem u) (hq : s'.queueSem = s.queueSem)
    (hw : ∀ u, (s'.worker u).atRest = (s.worker u).atRest) : p' = p := by
  have hf := h.fits
  cases p with
  | picking => exact h'.picking (hs ▸ hf.1) (hs ▸ hf.2)
  | waking w => exact h'.waking (hs.trans hf)
  | woken w => exact h'.woken (by rw [hi, h.infoSem]; simp)
  | working w => exact h'.working (by rw [hw, h.rest]; simp)
  | released w => exact h'.released (hs.trans hf) (by rw [hq, h.queueSem]; nofun)

/-- A worker step on its way with the CPU. -/
theorem Single.carries (h : Single s p) (h' : Single s' p') {w : Nat} {pc : WorkerPc}
    (hold : (s.worker w).atRest = false) (hw : s'.worker = (s.setWorker w pc).worker)
    (hnew : pc.atRest = false) : p = .working w ∧ p' = .working w :=
  ⟨h.working hold, h'.working (by rw [hw, State.setWorker_self]; exact hnew)⟩

/-- The same for one that stays where it is in the queue. -/
theorem Single.idle (h : Single s p) (h' : Single s' p') {w : Nat} {pc : WorkerPc}
    (hold : (s.worker w).atRest = false) (hw : s'.worker = (s.setWorker w pc).worker)
    (hnew : pc.atRest = false) (hq : data s'.queue = data s.queue)
    (hl : pc.leads cfg = (s.worker w).leads cfg) (hp : pc.atPost = (s.worker w).atPost)
    (hi : ∀ i, s.worker w ≠ .insertQueue i) : Hands cfg s s' p p' (.worker w) none := by
  obtain ⟨rfl, rfl⟩ := h.carries h' hold hw hnew
  have hhead := atHead_congr (worker_same (WorkerPc.leads cfg) hw hl) (.working w)
  refine .idle (.working w) (.worker w) hq hhead (worker_same WorkerPc.atPost hw hp) ?_
  intro v i hv
  cases hv
  exact hi i

theorem Single.unlinks (h : Single s p) (h' : Single s' p') {w : Nat} {pc : WorkerPc}
    (hold : (s.worker w).atRest = false) (hw : s'.worker = (s.setWorker w pc).worker)
    (hnew : pc.atRest = false) (hq : data s'.queue = (data s.queue).erase w)
    (hl : (s.worker w).leads cfg = true) (hl' : pc.leads cfg = false) (hp : pc.atPost = false)
    (hi : ∀ i, s.worker w ≠ .insertQueue i) : Hands cfg s s' p p' (.worker w) none := by
  obtain ⟨rfl, rfl⟩ := h.carries h' hold hw hnew
  exact .unlink w hi hq hl (by rw [hw, State.setWorker_self]; exact hl')
    (by rw [hw, State.setWorker_self]; exact hp)

theorem idle_main {t : Thread} (hphase : p' = p) (hq : s'.queue = s.queue)
    (hl : ∀ u, (s'.worker u).leads cfg = (s.worker u).leads cfg)
    (hp : ∀ u, (s'.worker u).atPost = (s.worker u).atPost) (ht : ∀ w, t ≠ .worker w) :
    Hands cfg s s' p p' t none := by
  subst hphase
  exact .idle p' t (by rw [hq]) (atHead_congr hl p') hp fun w i heq => absurd heq (ht w)

theorem Single.idle_sched (h : Single s p) (h' : Single s' p')
    (hs : (∀ w, s.sched ≠ .postWorker w) ∧ ∀ w, s.sched ≠ .waitForWorker w)
    (hs' : (∀ w, s'.sched ≠ .postWorker w) ∧ ∀ w, s'.sched ≠ .waitForWorker w) (hq : s'.queue = s.queue)
    (hw : s'.worker = s.worker) : Hands cfg s s' p p' .sched none := by
  obtain rfl := h.picking hs.1 hs.2
  obtain rfl := h'.picking hs'.1 hs'.2
  exact .idle .picking .sched (by rw [hq]) rfl (fun u => by rw [hw]) nofun

theorem hands_step (hp : cfg.policy = .rr) (h : Single s p) (h' : Single s' p') (hch : Chosen s)
    (hc : Created cfg s) (hl : Queued cfg s) {t : Thread} {e : Option Event} (hm : Moves cfg s t s' e) :
    Hands cfg s s' p p' t e := by
  cases hm with
  | startScheduler hm =>
    have hs := hc.sched hm
    obtain rfl := h.picking (by rw [hs]; nofun) (by rw [hs]; nofun)
    obtain rfl := h'.picking nofun nofun
    exact idle_main rfl rfl (fun _ => rfl) (fun _ => rfl) nofun
  | setNum | initDone | join | cleanUp =>
    have hphase := h.stays h' rfl (fun _ => rfl) rfl fun _ => rfl
    exact idle_main hphase rfl (fun _ => rfl) (fun _ => rfl) nofun
  | initThread i hm =>
    have h0 := h.infoSem_new hc hm
    have hphase := h.stays h' rfl (fun u => by simp only [Function.update_apply]; split <;> simp_all) rfl fun _ => rfl
    exact idle_main hphase rfl (fun _ => rfl) (fun _ => rfl) nofun
  | createThread i hm =>
    have hnew := hc.later i (by rw [hm]; rfl) i (Nat.le_refl i)
    have hphase := h.stays h' rfl (fun _ => rfl) rfl (worker_same WorkerPc.atRest rfl (by rw [hnew]; rfl))
    refine idle_main hphase rfl ?_ ?_ nofun
    · exact worker_same (WorkerPc.leads cfg) rfl (by rw [hnew]; rfl)
    · exact worker_same WorkerPc.atPost rfl (by rw [hnew]; rfl)
  | poll hs =>
    have hidle : (∀ w, s.sched ≠ .postWorker w) ∧ ∀ w, s.sched ≠ .waitForWorker w := by
      rw [hs]
      exact ⟨nofun, nofun⟩
    exact h.idle_sched h' hidle hidle rfl rfl
  | queueReady hs | loop hs | loopDone hs | peekHead elt hs | peekNull hs | isRunning elt hs | selected elt hs
    | eltNext elt next hs | eltNull elt hs =>
    exact h.idle_sched h' (by rw [hs]; exact ⟨nofun, nofun⟩) ⟨nofun, nofun⟩ rfl rfl
  | insertRunning w hs =>
    obtain rfl := h.picking (by rw [hs]; nofun) (by rw [hs]; nofun)
    obtain rfl := h'.waking rfl
    obtain ⟨l, hl⟩ := hch.picked w (Or.inl hs)
    exact .wake w l hl rfl
  | postWorker w hs =>
    obtain rfl := h.waking hs
    obtain rfl := h'.woken (w := w) (by simp [State.postInfo])
    exact .post w rfl
  | waitForWorker w n hs hn =>
    obtain rfl := h.released hs (by omega)
    obtain rfl := h'.picking (by simp) (by simp)
    exact .resume w rfl
  | enterQueue w hw =>
    obtain rfl := h.stays h' rfl (fun _ => rfl) rfl (worker_same WorkerPc.atRest rfl (by rw [hw]; rfl))
    refine .enter _ w hw (data_append ..) (atHead_congr ?_ _) ?_
    · exact worker_same (WorkerPc.leads cfg) rfl (by rw [hw]; rfl)
    · exact worker_same WorkerPc.atPost rfl (by rw [hw]; rfl)
  | loopTurn w i n hw hn hi =>
    obtain rfl := h.woken (w := w) (by omega)
    obtain rfl := h'.working (w := w) (by rw [State.setWorker_self]; rfl)
    exact .take w i .loop hw rfl (by simp [WorkerPc.leads, hi])
  | exitTurn w i n hw hn hi =>
    obtain rfl := h.woken (w := w) (by omega)
    obtain rfl := h'.working (w := w) (by rw [State.setWorker_self]; rfl)
    exact .take w i .exit hw rfl (by simp [WorkerPc.leads])
  | leaveQueue w hw =>
    exact h.unlinks h' (by rw [hw]; rfl) rfl rfl (data_removeItem w s.queue)
      (by rw [hw]; rfl) rfl rfl (by simp [hw])
  | readNum w hw =>
    exact h.idle h' (by rw [hw]; rfl) rfl rfl rfl (by rw [hw]; rfl) (by rw [hw]; rfl) (by simp [hw])
  | writeNum w num hw =>
    exact h.idle h' (by rw [hw]; rfl) rfl rfl rfl (by simp [hw, WorkerPc.leads]) (by rw [hw]; rfl)
      (by simp [hw])
  | fifoRemoveRunning w i hf =>
    rw [hp] at hf
    cases hf
  | rrRemoveRunning w i hp hw =>
    exact h.idle h' (by rw [hw]; rfl) rfl rfl rfl (by rw [hw]; rfl) (by rw [hw]; rfl) (by simp [hw])
  | removeQueue w i hw =>
    by_cases hi : i < cfg.iterations
    · exact h.unlinks h' (by rw [hw]; rfl) rfl rfl (data_removeItem w s.queue)
        (by simp [hw, WorkerPc.leads, hi]) rfl rfl
        (by simp [hw])
    · -- on the exit path the worker has left the queue before
      have hnot : w ∉ data s.queue := by
        rw [hl.mem_iff, hw]
        simp [WorkerPc.linked, hi]
      exact h.idle h' (by rw [hw]; rfl) rfl rfl ((data_removeItem w s.queue).trans (List.erase_of_not_mem hnot))
        (by simp [hw, WorkerPc.leads, hi]) (by rw [hw]; rfl) (by simp [hw])
  | insertQueue w i hw =>
    obtain ⟨rfl, rfl⟩ := h.carries h' (by rw [hw]; rfl) rfl rfl
    exact .putBack w i hw (data_append ..) (State.setWorker_self ..)
  | postLoop w i hw hi =>
    obtain rfl := h.working (w := w) (by rw [hw]; rfl)
    have hs : s.sched = .waitForWorker w := h.fits
    obtain rfl := h'.released (w := w) hs (Nat.succ_ne_zero s.queueSem)
    exact .release w i none hw rfl (Or.inl rfl)
  | postExit w i hw hi =>
    obtain rfl := h.working (w := w) (by rw [hw]; rfl)
    have hs : s.sched = .waitForWorker w := h.fits
    obtain rfl := h'.released (w := w) hs (Nat.succ_ne_zero s.queueSem)
    exact .release w i _ hw rfl (Or.inr rfl)

end

/-! ## From one wake-up of a worker to the next -/

def wakeUps (es : List Event) : List Nat :=
  es.filterMap fun | .woken w => some w | _ => none

@[simp] theorem wakeUps_append (es es' : List Event) : wakeUps (es ++ es') = wakeUps es ++ wakeUps es' :=
  List.filterMap_append

section
variable (cfg : Config) (w : Nat) (s₀ : State)

/-- In the run from `s₀`, `rr_release_cpu` puts `w` back behind the workers `ahead`. -/
def PutBack (es : List Thread) (ahead : List Nat) : Prop :=
  ∃ es₁ es₂ t u tr e i, es = es₁ ++ .worker w :: es₂ ∧ run (step cfg) s₀ es₁ = some (t, tr) ∧
    t.worker w = .insertQueue i ∧ step cfg t (.worker w) = some (u, e) ∧ data u.queue = ahead ++ [w]

/-- The worker has been woken and has not been put back yet. -/
structure Away (s : State) (p : Phase) (tr : List (Thread × Option Event)) : Prop where
  phase : p = .waking w ∨ p = .woken w ∨ p = .working w ∧ (s.worker w).atPost = false
  woken : wakeUps (events tr) = []
  turns : (turns (events tr)).map Prod.fst ++ p.due = [w]
  put : ∀ ahead, ¬ PutBack cfg w s₀ (tr.map Prod.fst) ahead

/-- The worker has been put back behind `ahead`, of which the first ones have been woken since. -/
structure Back (ahead : List Nat) (s : State) (p : Phase) (tr : List (Thread × Option Event)) : Prop where
  phase : p ≠ .waking w ∧ p ≠ .woken w ∧ (p = .working w → (s.worker w).atPost = true)
  put : ∀ l, PutBack cfg w s₀ (tr.map Prod.fst) l ↔ l = ahead
  nodup : (w :: ahead).Nodup
  order : ∃ rest later, ahead = wakeUps (events tr) ++ rest ∧
    data s.queue = p.atHead cfg s.worker ++ rest ++ w :: later
  turns : (turns (events tr)).map Prod.fst ++ p.due = w :: wakeUps (events tr)

end

section
variable {cfg : Config} {w : Nat} {s₀ : State}

theorem putBack_snoc {es : List Thread} {s s' : State} {tr : List (Thread × Option Event)} {t : Thread}
    {e : Option Event} (hr : run (step cfg) s₀ es = some (s, tr)) (hs : step cfg s t = some (s', e))
    (l : List Nat) :
    PutBack cfg w s₀ (es ++ [t]) l ↔ PutBack cfg w s₀ es l ∨ t = .worker w ∧
      (∃ i, s.worker w = .insertQueue i) ∧ data s'.queue = l ++ [w] := by
  constructor
  · rintro ⟨es₁, es₂, a, b, tra, x, i, heq, hra, ha, hb, hl⟩
    rcases snoc_split heq with ⟨es₃, rfl, hes⟩ | ⟨rfl, rfl⟩
    · exact Or.inl ⟨es₁, es₃, a, b, tra, x, i, hes, hra, ha, hb, hl⟩
    · rw [hr] at hra
      cases hra
      rw [hs] at hb
      cases hb
      exact Or.inr ⟨rfl, ⟨i, ha⟩, hl⟩
  · rintro (⟨es₁, es₂, a, b, tra, x, i, rfl, hra, ha, hb, hl⟩ | ⟨rfl, ⟨i, hi⟩, hl⟩)
    · exact ⟨es₁, es₂ ++ [t], a, b, tra, x, i, by simp, hra, ha, hb, hl⟩
    · exact ⟨es, [], s, s', tr, e, i, rfl, hr, hi, hs, hl⟩

section
variable {s s' : State} {p p' : Phase} {tr : List (Thread × Option Event)} {t : Thread} {e : Option Event}
  (hput : ∀ l, PutBack cfg w s₀ ((tr ++ [(t, e)]).map Prod.fst) l ↔ PutBack cfg w s₀ (tr.map Prod.fst) l ∨
    t = .worker w ∧ (∃ i, s.worker w = .insertQueue i) ∧ data s'.queue = l ++ [w])
include hput

theorem Away.keep (h : Away cfg w s₀ s p tr) (ht : t = .worker w → ∀ i, s.worker w ≠ .insertQueue i)
    (hp : p' = .waking w ∨ p' = .woken w ∨ p' = .working w ∧ (s'.worker w).atPost = false)
    (hw : wakeUps e.toList = []) (hturns : (Sched.turns e.toList).map Prod.fst ++ p'.due = p.due) :
    Away cfg w s₀ s' p' (tr ++ [(t, e)]) := by
  refine ⟨hp, ?_, ?_, ?_⟩
  · rw [events_snoc, wakeUps_append, h.woken, hw]
    rfl
  · rw [events_snoc, turns_append, List.map_append, List.append_assoc, hturns]
    exact h.turns
  · intro l hl
    rcases (hput l).mp hl with hold | ⟨heq, ⟨i, hi⟩, -⟩
    · exact h.put l hold
    · exact ht heq i hi

theorem away_step (h : Away cfg w s₀ s p tr) (hm : Hands cfg s s' p p' t e) (hl : Queued cfg s') :
    Away cfg w s₀ s' p' (tr ++ [(t, e)]) ∨ ∃ ahead, Back cfg w s₀ ahead s' p' (tr ++ [(t, e)]) := by
  have hphase := h.phase
  cases hm with
  | idle p t hq hh hpost ht =>
    left
    apply h.keep hput (fun htw i => ht w i htw) ?_ rfl rfl
    rw [hpost]
    exact hphase
  | enter p v hw hq hh hpost =>
    left
    apply h.keep hput ?_ ?_ rfl rfl
    · rintro ⟨⟩ i hi
      rw [hw] at hi
      cases hi
    · rw [hpost]
      exact hphase
  | wake v => simp at hphase
  | post v hq =>
    obtain rfl : v = w := by simpa using hphase
    exact Or.inl (h.keep hput nofun (Or.inr (Or.inl rfl)) rfl rfl)
  | take v i x hw hq hh =>
    obtain rfl : v = w := by simpa using hphase
    left
    apply h.keep hput ?_ (Or.inr (Or.inr ⟨rfl, leads_atPost hh⟩)) rfl rfl
    intro _ j hj
    rw [hw] at hj
    cases hj
  | unlink v hw hq hh hh' hpost =>
    obtain ⟨rfl, -⟩ : v = w ∧ (s.worker w).atPost = false := by simpa using hphase
    exact Or.inl (h.keep hput (fun _ => hw) (Or.inr (Or.inr ⟨rfl, hpost⟩)) rfl rfl)
  | putBack v i hw hq hw' =>
    obtain ⟨rfl, -⟩ : v = w ∧ (s.worker w).atPost = false := by simpa using hphase
    right
    refine ⟨data s.queue, ⟨nofun, nofun, fun _ => by rw [hw']; rfl⟩, ?_, ?_, ⟨data s.queue, [], ?_, ?_⟩, ?_⟩
    · intro l
      rw [hput, hq, List.append_left_inj]
      constructor
      · rintro (hold | ⟨-, -, heq⟩)
        · exact absurd hold (h.put l)
        · exact heq.symm
      · rintro rfl
        exact Or.inr ⟨rfl, ⟨i, hw⟩, rfl⟩
    · have hnodup := hl.nodup
      rwa [hq, List.nodup_append_comm] at hnodup
    · rw [events_snoc, wakeUps_append, h.woken]
      rfl
    · rw [hq]
      simp [Phase.atHead, hw', WorkerPc.leads]
    · rw [events_snoc, turns_append, wakeUps_append, h.woken]
      simpa [Sched.turns, wakeUps] using h.turns
  | release v i e hw =>
    obtain ⟨rfl, hpost⟩ : v = w ∧ (s.worker w).atPost = false := by simpa using hphase
    rw [hw] at hpost
    cases hpost
  | resume v => simp at hphase

theorem Back.keep {ahead : List Nat} (h : Back cfg w s₀ ahead s p tr)
    (ht : t = .worker w → ∀ i, s.worker w ≠ .insertQueue i)
    (hp : p' ≠ .waking w ∧ p' ≠ .woken w ∧ (p' = .working w → (s'.worker w).atPost = true))
    (hw : wakeUps e.toList = []) (hturns : (Sched.turns e.toList).map Prod.fst ++ p'.due = p.due)
    (hq : ∀ rest later, data s.queue = p.atHead cfg s.worker ++ rest ++ w :: later →
      ∃ later', data s'.queue = p'.atHead cfg s'.worker ++ rest ++ w :: later') :
    Back cfg w s₀ ahead s' p' (tr ++ [(t, e)]) := by
  obtain ⟨rest, later, hahead, hqueue⟩ := h.order
  obtain ⟨later', hqueue'⟩ := hq rest later hqueue
  have hwake : wakeUps (events (tr ++ [(t, e)])) = wakeUps (events tr) := by
    rw [events_snoc, wakeUps_append, hw, List.append_nil]
  refine ⟨hp, ?_, h.nodup, ⟨rest, later', ?_, hqueue'⟩, ?_⟩
  · intro l
    rw [hput, ← h.put l]
    constructor
    · rintro (hold | ⟨heq, ⟨i, hi⟩, -⟩)
      · exact hold
      · exact absurd hi (ht heq i)
    · exact Or.inl
  · rw [hwake]
    exact hahead
  · rw [hwake, events_snoc, turns_append, List.map_append, List.append_assoc, hturns]
    exact h.turns

theorem Back.wake {ahead : List Nat} (h : Back cfg w s₀ ahead s .picking tr) {x : Nat} {l : List Nat}
    (hl : data s.queue = x :: l) (hq : data s'.queue = data s.queue) (hne : x ≠ w) (ht : t ≠ .worker w)
    (he : e = some (.woken x)) : Back cfg w s₀ ahead s' (.waking x) (tr ++ [(t, e)]) := by
  subst he
  obtain ⟨rest, later, hahead, hqueue⟩ := h.order
  have hwake : wakeUps (events (tr ++ [(t, some (.woken x))])) = wakeUps (events tr) ++ [x] := by
    rw [events_snoc, wakeUps_append]
    rfl
  rw [hl] at hqueue
  cases rest with
  | nil =>
    cases hqueue
    exact absurd rfl hne
  | cons y rest =>
    obtain ⟨rfl, rfl⟩ : x = y ∧ l = rest ++ w :: later := by simpa [Phase.atHead] using hqueue
    refine ⟨⟨by simpa using hne, nofun, nofun⟩, ?_, h.nodup, ⟨rest, later, ?_, ?_⟩, ?_⟩
    · intro l
      rw [hput, ← h.put l]
      simp [ht]
    · rw [hwake, hahead]
      simp
    · rw [hq, hl]
      rfl
    · have hturns := h.turns
      rw [hwake, events_snoc, turns_append]
      simp [Phase.due, Sched.turns] at hturns ⊢
      simp [hturns]

theorem back_step {ahead : List Nat} (h : Back cfg w s₀ ahead s p tr) (hm : Hands cfg s s' p p' t e)
    (he : e ≠ some (.woken w)) : Back cfg w s₀ ahead s' p' (tr ++ [(t, e)]) := by
  obtain ⟨hwaking, hwoken, hworking⟩ := h.phase
  cases hm with
  | idle p t hq hh hpost ht =>
    refine h.keep hput (fun htw i => ht w i htw)
      ⟨hwaking, hwoken, fun hp => (hpost w).trans (hworking hp)⟩ rfl rfl ?_
    intro rest later hqueue
    exact ⟨later, by rw [hq, hh, hqueue]⟩
  | enter p v hw hq hh hpost =>
    refine h.keep hput ?_ ⟨hwaking, hwoken, fun hp => (hpost w).trans (hworking hp)⟩ rfl rfl ?_
    · rintro ⟨⟩ i hi
      rw [hw] at hi
      cases hi
    · intro rest later hqueue
      exact ⟨later ++ [v], by rw [hq, hh, hqueue]; simp⟩
  | wake x l hl hq =>
    exact h.wake hput hl hq (by simpa using he) nofun rfl
  | post x hq =>
    have hne : x ≠ w := by simpa using hwaking
    refine h.keep hput nofun ⟨nofun, by simpa using hne, nofun⟩ rfl rfl ?_
    intro rest later hqueue
    exact ⟨later, hq.trans hqueue⟩
  | take x i y hw hq hh =>
    have hne : x ≠ w := by simpa using hwoken
    refine h.keep hput (by simp [hne]) ⟨nofun, nofun, by simp [hne]⟩ rfl rfl ?_
    intro rest later hqueue
    refine ⟨later, ?_⟩
    rw [hq, hqueue]
    simp [Phase.atHead, hh]
  | unlink x hw hq hh hh' hpost =>
    have hne : x ≠ w := by
      rintro rfl
      have hat := hworking rfl
      rw [leads_atPost hh] at hat
      cases hat
    refine h.keep hput (by simp [hne]) ⟨nofun, nofun, by simp [hne]⟩ rfl rfl ?_
    intro rest later hqueue
    refine ⟨later, ?_⟩
    rw [hq, hqueue]
    simp [Phase.atHead, hh, hh']
  | putBack x i hw hq hw' =>
    have hne : x ≠ w := by
      rintro rfl
      have hat := hworking rfl
      rw [hw] at hat
      cases hat
    refine h.keep hput (by simp [hne]) ⟨nofun, nofun, by simp [hne]⟩ rfl rfl ?_
    intro rest later hqueue
    refine ⟨later ++ [x], ?_⟩
    rw [hq, hqueue]
    simp [Phase.atHead, hw, hw', WorkerPc.leads]
  | release x i e hw hq hev =>
    have hnone : wakeUps e.toList = [] ∧ Sched.turns e.toList = [] := by
      rcases hev with rfl | rfl
      · exact ⟨rfl, rfl⟩
      · exact ⟨rfl, rfl⟩
    refine h.keep hput ?_ ⟨nofun, nofun, nofun⟩ hnone.1 (by rw [hnone.2]; rfl) ?_
    · rintro ⟨⟩ j hj
      rw [hw] at hj
      cases hj
    · intro rest later hqueue
      refine ⟨later, ?_⟩
      rw [hq, hqueue]
      simp [Phase.atHead, hw, WorkerPc.leads]
  | resume x hq =>
    refine h.keep hput nofun ⟨nofun, nofun, nofun⟩ rfl rfl ?_
    intro rest later hqueue
    exact ⟨later, hq.trans hqueue⟩

end

end

/-! ## Runs -/

structure Steady (cfg : Config) (s : State) (p : Phase) : Prop where
  single : Single s p
  chosen : Chosen s
  created : Created cfg s
  queued : Queued cfg s

theorem steady_step {cfg : Config} {s s' : State} {p : Phase} {t : Thread} {e : Option Event}
    (h : Steady cfg s p) (hs : step cfg s t = some (s', e)) : ∃ p', Steady cfg s' p' := by
  have hm := step_moves hs
  obtain ⟨p', hp'⟩ := single_step h.single h.created hm
  exact ⟨p', hp', chosen_step h.chosen h.single h.created hm, created_step h.created hm, queued_step h.queued h.created hm⟩

theorem steady_run {cfg : Config} (hq : cfg.queueSize = 1) {es : List Thread} {s : State}
    {tr : List (Thread × Option Event)} (hr : run (step cfg) (initSchedQueue cfg) es = some (s, tr)) :
    ∃ p, Steady cfg s p := by
  have h0 : ∃ p, Steady cfg (initSchedQueue cfg) p :=
    ⟨.picking, single_init hq, chosen_of_idle (fun _ => rfl) nofun nofun fun _ => ⟨nofun, nofun⟩, created_init cfg,
      queued_init cfg⟩
  exact run_inv (I := fun s => ∃ p, Steady cfg s p)
    (fun _ _ _ _ h _ hs => h.elim fun _ hp => steady_step hp hs) h0
    (guarded_true _ es) hr

theorem wakes_sched {cfg : Config} {s s' : State} {w : Nat}
    (hs : step cfg s .sched = some (s', some (.woken w))) :
    s.sched = .insertRunning w ∧ s'.sched = .postWorker w := by
  cases step_moves hs with
  | insertRunning w hw => exact ⟨hw, rfl⟩

/-- Until it is woken again, the worker is away or has been put back. -/
theorem between_run {cfg : Config} (hp : cfg.policy = .rr) {w : Nat} {s₁ s : State} {p : Phase}
    {es : List Thread} {tr : List (Thread × Option Event)} (h : Steady cfg s₁ p)
    (hs : s₁.sched = .postWorker w) (hr : run (step cfg) s₁ es = some (s, tr)) (hn : .woken w ∉ events tr) :
    ∃ p, Steady cfg s p ∧ (Away cfg w s₁ s p tr ∨ ∃ ahead, Back cfg w s₁ ahead s p tr) := by
  have hI : run (step cfg) s₁ (tr.map Prod.fst) = some (s, tr) ∧ ∃ p, Steady cfg s p ∧
      (.woken w ∉ events tr → Away cfg w s₁ s p tr ∨ ∃ ahead, Back cfg w s₁ ahead s p tr) := by
    refine run_hist (I := fun s tr => run (step cfg) s₁ (tr.map Prod.fst) = some (s, tr) ∧ ∃ p, Steady cfg s p ∧
      (.woken w ∉ events tr → Away cfg w s₁ s p tr ∨ ∃ ahead, Back cfg w s₁ ahead s p tr)) (g := []) ?_ ?_
      (guarded_true _ es) hr
    · rintro s tr t s' e ⟨hr, p, hst, hb⟩ - hs
      obtain ⟨p', hst'⟩ := steady_step hst hs
      have hrun := run_snoc hr hs
      have hfst : (tr ++ [(t, e)]).map Prod.fst = tr.map Prod.fst ++ [t] := by simp
      have hput := hfst ▸ putBack_snoc (w := w) hr hs
      have hm := hands_step hp hst.single hst'.single hst.chosen hst.created hst.queued (step_moves hs)
      refine ⟨by rw [hfst]; exact hrun, p', hst', ?_⟩
      intro hno
      rw [events_snoc, List.mem_append, not_or] at hno
      rcases hb hno.1 with hb | ⟨ahead, hb⟩
      · exact away_step hput hb hm hst'.queued
      · refine Or.inr ⟨ahead, back_step hput hb hm ?_⟩
        rintro rfl
        exact hno.2 (List.mem_singleton.mpr rfl)
    · refine ⟨rfl, p, h, ?_⟩
      obtain rfl := h.single.waking hs
      intro _
      refine Or.inl ⟨Or.inl rfl, rfl, rfl, ?_⟩
      rintro ahead ⟨es₁, es₂, t, u, tr, e, i, heq, -⟩
      simp at heq
  obtain ⟨-, p, hst, hb⟩ := hI
  exact ⟨p, hst, hb hn⟩

/-- The worker that is woken next is at the head, with all of those ahead woken before. -/
theorem Back.over {cfg : Config} {w : Nat} {s₀ s : State} {p : Phase} {ahead : List Nat}
    {tr : List (Thread × Option Event)} (h : Back cfg w s₀ ahead s p tr) (hst : Steady cfg s p)
    (hs : s.sched = .insertRunning w) : p = .picking ∧ wakeUps (events tr) = ahead := by
  obtain rfl := hst.single.picking (by rw [hs]; nofun) (by rw [hs]; nofun)
  obtain ⟨rest, later, hahead, hqueue⟩ := h.order
  obtain ⟨l, hl⟩ := hst.chosen.picked w (Or.inl hs)
  have hnodup := hst.queued.nodup
  refine ⟨rfl, ?_⟩
  cases rest with
  | nil => rw [hahead, List.append_nil]
  | cons x rest =>
    rw [hqueue] at hl hnodup
    obtain ⟨rfl, -⟩ : x = w ∧ _ := by simpa [Phase.atHead] using hl
    simp [Phase.atHead] at hnodup

/-- Between two wake-ups of a worker in a row it is put back once, and the others
that are woken are those ahead of it then, in the order of the queue. They have
one turn each, after its own. -/
theorem rr_rotates (cfg : Config) (hp : cfg.policy = .rr) (hq : cfg.queueSize = 1) (w : Nat) (es₀ es : List Thread)
    (s₀ s₁ s₂ s₃ : State) (tr₀ tr : List (Thread × Option Event))
    (h₀ : run (step cfg) (initSchedQueue cfg) es₀ = some (s₀, tr₀))
    (h₁ : step cfg s₀ .sched = some (s₁, some (.woken w))) (hr : run (step cfg) s₁ es = some (s₂, tr))
    (hn : .woken w ∉ events tr) (h₂ : step cfg s₂ .sched = some (s₃, some (.woken w))) :
    ∃ ahead, (∀ l, PutBack cfg w s₁ es l ↔ l = ahead) ∧ wakeUps (events tr) = ahead ∧
      (turns (events tr)).map Prod.fst = w :: ahead ∧ (w :: ahead).Nodup := by
  obtain ⟨p₀, hst₀⟩ := steady_run hq h₀
  obtain ⟨p₁, hst₁⟩ := steady_step hst₀ h₁
  obtain ⟨p, hst, hb⟩ := between_run hp hst₁ (wakes_sched h₁).2 hr hn
  have hs := (wakes_sched h₂).1
  rcases hb with hb | ⟨ahead, hb⟩
  · obtain rfl := hst.single.picking (by rw [hs]; nofun) (by rw [hs]; nofun)
    simpa using hb.phase
  · obtain ⟨rfl, hwake⟩ := hb.over hst hs
    have hput := hb.put
    have hturns := hb.turns
    rw [run_fst hr] at hput
    rw [hwake] at hturns
    exact ⟨ahead, hput, hwake, by simpa [Phase.due] using hturns, hb.nodup⟩

/-- Both workers arrive, and the scheduler is about to wake worker 0. -/
def rotateStart : List Thread := List.replicate 7 .main ++ [.worker 0, .worker 1] ++ List.replicate 4 .sched

/-- Both have their loop turn, and the scheduler is about to wake worker 0 again. -/
def rotateSchedule : List Thread :=
  [.sched] ++ List.replicate 5 (.worker 0) ++ List.replicate 6 .sched ++ List.replicate 5 (.worker 1) ++
    List.replicate 4 .sched

theorem rr_rotates_two :
    ∃ s₀ s₁ s₂ s₃ tr₀ tr, run (step ⟨.rr, 1, 2, 1⟩) (initSchedQueue ⟨.rr, 1, 2, 1⟩) rotateStart = some (s₀, tr₀) ∧
      step ⟨.rr, 1, 2, 1⟩ s₀ .sched = some (s₁, some (.woken 0)) ∧
      run (step ⟨.rr, 1, 2, 1⟩) s₁ rotateSchedule = some (s₂, tr) ∧ .woken 0 ∉ events tr ∧
      step ⟨.rr, 1, 2, 1⟩ s₂ .sched = some (s₃, some (.woken 0)) ∧ wakeUps (events tr) = [1] ∧
      ∃ ahead, (∀ l, PutBack ⟨.rr, 1, 2, 1⟩ 0 s₁ rotateSchedule l ↔ l = ahead) ∧ wakeUps (events tr) = ahead ∧
        (turns (events tr)).map Prod.fst = 0 :: ahead ∧ (0 :: ahead).Nodup :=
  ⟨_, _, _, _, _, _, rfl, rfl, rfl, by decide, rfl, rfl,
    rr_rotates ⟨.rr, 1, 2, 1⟩ rfl rfl 0 rotateStart rotateSchedule _ _ _ _ _ _ rfl rfl rfl (by decide) rfl⟩

end OsLabs.Sched
