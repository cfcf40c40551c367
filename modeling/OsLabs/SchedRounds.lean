import OsLabs.SchedFair

/-!
# When round robin with queue size 1 comes to its end

The workers go round: who has the CPU is at the head, and goes to the back when
its release puts it in the queue again. If all have arrived before the first one
is put back, they take their turns in rounds and exit together in the last one.
A worker that arrives later stays behind, and the scheduler comes to one that
has finished while the late one has not.
-/

namespace OsLabs.Sched

/-! ## The ring of workers -/

section
variable (cfg : Config)

/-- How often the worker has been put back in the queue. -/
def WorkerPc.rounds : WorkerPc → Nat
  | .notCreated | .enterQueue => 0
  | .waitForCpu i | .removeRunning i | .removeQueue i | .insertQueue i => min i cfg.iterations
  | .leaveQueue | .readNum | .writeNum _ => cfg.iterations
  | .postQueue i => min i cfg.iterations + 1
  | .finished => cfg.iterations + 1

/-- The turn that a worker has in a round. -/
def turnIn (k : Nat) : Turn := if k < cfg.iterations then .loop else .exit

/-- The worker that has left the queue and has still to be put back. -/
def Phase.off (worker : Nat → WorkerPc) : Phase → List Nat
  | .working w => if (worker w).leads cfg || (worker w).atPost then [] else [w]
  | .picking | .waking _ | .woken _ | .released _ => []

/-- The worker that has had its turn of the round and has still to be put back. -/
def Phase.had (worker : Nat → WorkerPc) : Phase → List Nat
  | .working w => if (worker w).atPost then [] else [w]
  | .picking | .waking _ | .woken _ | .released _ => []

def ring (s : State) (p : Phase) : List Nat := p.off cfg s.worker ++ data s.queue

end

/-- The scheduler has found workers remaining and has chosen one, or is about to. -/
def SchedPc.choosing : SchedPc → Bool
  | .peekHead | .inRunning _ | .eltNext _ | .insertRunning _ | .postWorker _ | .waitForWorker _ => true
  | .notCreated | .waitForQueue | .loop | .done => false

/-- What holds in every state of round robin with queue size 1. -/
structure Wheel (cfg : Config) (s : State) (p : Phase) : Prop where
  serial : Serial cfg s p
  head : ∃ l, data s.queue = p.atHead cfg s.worker ++ l
  wanted : s.sched.choosing = true → (∀ w, p ≠ .working w ∧ p ≠ .released w) → 0 < s.numWorkersRemaining

section
variable (cfg : Config) (s s' : State) (p p' : Phase)

/-- What a step does to the ring and to the turns. -/
inductive Spins : Option Event → Prop
  | same (e : Option Event) (hi : inserted e.toList = []) (ht : turns e.toList = []) (hr : ring cfg s' p' = ring cfg s p)
    (hk : ∀ u, (s'.worker u).rounds cfg = (s.worker u).rounds cfg) (hh : p'.had s'.worker = p.had s.worker)
    (hn : ∀ u, (s'.worker u).isNew = (s.worker u).isNew) : Spins e
  | arrive (w : Nat) (hw : s.worker w = .enterQueue) (hw' : (s'.worker w).isNew = false)
    (hr : ring cfg s' p' = ring cfg s p ++ [w]) (hk : ∀ u, (s'.worker u).rounds cfg = (s.worker u).rounds cfg)
    (hh : p'.had s'.worker = p.had s.worker) (hn : ∀ u, u ≠ w → (s'.worker u).isNew = (s.worker u).isNew) :
    Spins (some (.inserted w))
  | take (w : Nat) (l : List Nat) (hl : ring cfg s p = w :: l) (hr : ring cfg s' p' = ring cfg s p)
    (hk : ∀ u, (s'.worker u).rounds cfg = (s.worker u).rounds cfg) (hh : p.had s.worker = [])
    (hh' : p'.had s'.worker = [w]) (hle : (s.worker w).rounds cfg ≤ cfg.iterations)
    (hn : ∀ u, (s'.worker u).isNew = (s.worker u).isNew) :
    Spins (some (.turn w (turnIn cfg ((s.worker w).rounds cfg))))
  | back (w : Nat) (l : List Nat) (hl : ring cfg s p = w :: l) (hr : ring cfg s' p' = l ++ [w])
    (hw : (s'.worker w).rounds cfg = (s.worker w).rounds cfg + 1)
    (hk : ∀ u, u ≠ w → (s'.worker u).rounds cfg = (s.worker u).rounds cfg) (hh : p.had s.worker = [w])
    (hh' : p'.had s'.worker = []) (hn : ∀ u, (s'.worker u).isNew = (s.worker u).isNew) : Spins none

end

section
variable {cfg : Config} {s s' : State} {p p' : Phase} {e : Option Event}

theorem worker_others {w u : Nat} (hm : Moves cfg s (.worker w) s' e) (hu : u ≠ w) : s'.worker u = s.worker u := by
  cases hm <;> exact State.setWorker_ne _ hu _

theorem rounds_same (hp : cfg.policy = .rr) {t : Thread} (hc : Created cfg s) (hm : Moves cfg s t s' e)
    (ht : ∀ w i, t = .worker w → s.worker w ≠ .insertQueue i) (u : Nat) :
    (s'.worker u).rounds cfg = (s.worker u).rounds cfg := by
  cases hm with
  | startScheduler | setNum | initThread | initDone | join | cleanUp | poll | queueReady | loop | loopDone | peekHead
    | peekNull | isRunning | selected | eltNext | eltNull | insertRunning | postWorker | waitForWorker => rfl
  | createThread i hm =>
    have hnew := hc.later i (by rw [hm]; rfl) i (Nat.le_refl i)
    exact worker_same (WorkerPc.rounds cfg) rfl (by rw [hnew]; rfl) u
  | insertQueue w i hw => exact absurd hw (ht w i rfl)
  | fifoRemoveRunning w i hf hw =>
    rw [hp] at hf
    cases hf
  | enterQueue w hw =>
    exact worker_same (s := s) (WorkerPc.rounds cfg) rfl (by rw [hw]; simp [WorkerPc.rounds]) u
  | leaveQueue w hw | readNum w hw | rrRemoveRunning w i hp hw | removeQueue w i hw =>
    exact worker_same (WorkerPc.rounds cfg) rfl (by rw [hw]; rfl) u
  | writeNum w num hw =>
    exact worker_same (WorkerPc.rounds cfg) rfl (by rw [hw]; simp [WorkerPc.rounds]) u
  | loopTurn w i n hw hn hi => exact worker_same (WorkerPc.rounds cfg) rfl (by rw [hw]; simp [WorkerPc.rounds]) u
  | exitTurn w i n hw hn hi => exact worker_same (WorkerPc.rounds cfg) rfl (by rw [hw]; simp [WorkerPc.rounds, hi]) u
  | postLoop w i hw hi =>
    refine worker_same (WorkerPc.rounds cfg) rfl ?_ u
    rw [hw]
    simp only [WorkerPc.rounds]
    omega
  | postExit w i hw hi => exact worker_same (WorkerPc.rounds cfg) rfl (by rw [hw]; simp [WorkerPc.rounds, hi]) u

theorem isNew_same {t : Thread} (hc : Created cfg s) (hm : Moves cfg s t s' e) (he : ∀ w, e ≠ some (.inserted w))
    (u : Nat) : (s'.worker u).isNew = (s.worker u).isNew := by
  cases hm with
  | startScheduler | setNum | initThread | initDone | join | cleanUp | poll | queueReady | loop | loopDone | peekHead
    | peekNull | isRunning | selected | eltNext | eltNull | insertRunning | postWorker | waitForWorker => rfl
  | createThread i hm =>
    have hnew := hc.later i (by rw [hm]; rfl) i (Nat.le_refl i)
    exact worker_same WorkerPc.isNew rfl (by rw [hnew]; rfl) u
  | enterQueue w hw => exact absurd rfl (he w)
  | loopTurn w i n hw | exitTurn w i n hw | leaveQueue w hw | readNum w hw | writeNum w num hw
    | fifoRemoveRunning w i hp hw | rrRemoveRunning w i hp hw | removeQueue w i hw | postLoop w i hw | postExit w i hw =>
    exact worker_same WorkerPc.isNew rfl (by rw [hw]; rfl) u
  | insertQueue w i hw => exact worker_same (s := s) WorkerPc.isNew rfl (by rw [hw]; rfl) u

/-- The turn that a worker takes is that of its round. -/
theorem turn_in {w : Nat} {x : Turn} (hm : Moves cfg s (.worker w) s' (some (.turn w x))) :
    x = turnIn cfg ((s.worker w).rounds cfg) ∧ (s.worker w).rounds cfg ≤ cfg.iterations := by
  cases hm with
  | loopTurn w i n hw hn hi =>
    rw [hw]
    simp only [WorkerPc.rounds]
    rw [Nat.min_eq_left (Nat.le_of_lt hi), turnIn, if_pos hi]
    exact ⟨rfl, Nat.le_of_lt hi⟩
  | exitTurn w i n hw hn hi =>
    rw [hw]
    simp only [WorkerPc.rounds]
    rw [Nat.min_eq_right hi, turnIn, if_neg (Nat.lt_irrefl _)]
    exact ⟨rfl, Nat.le_refl _⟩

theorem off_congr {f g : Nat → WorkerPc} (hl : p.atHead cfg f = p.atHead cfg g) (hp : ∀ u, (f u).atPost = (g u).atPost) :
    p.off cfg f = p.off cfg g := by
  cases p with
  | working w =>
    have hlead : (f w).leads cfg = (g w).leads cfg := by
      simp only [Phase.atHead] at hl
      cases hf : (f w).leads cfg <;> cases hg : (g w).leads cfg <;> simp_all
    simp only [Phase.off, hlead, hp]
  | picking | waking | woken | released => rfl

theorem had_congr {f g : Nat → WorkerPc} (hp : ∀ u, (f u).atPost = (g u).atPost) : p.had f = p.had g := by
  cases p with
  | working w => simp only [Phase.had, hp]
  | picking | waking | woken | released => rfl

theorem Wheel.spins (h : Wheel cfg s p) (hp : cfg.policy = .rr) {t : Thread} (hm : Moves cfg s t s' e) (hh : Hands cfg s s' p p' t e) :
    Spins cfg s s' p p' e := by
  have hc := h.serial.steady.created
  cases hh with
  | idle p t hq hh hpost ht =>
    refine .same none rfl rfl ?_ (rounds_same hp hc hm ht) (had_congr hpost) (isNew_same hc hm (by simp))
    rw [ring, ring, off_congr hh hpost, hq]
  | enter p w hw hq hh hpost =>
    refine .arrive w hw ?_ ?_ (rounds_same hp hc hm ?_) (had_congr hpost) ?_
    · cases hm with
      | enterQueue w hw => simp [WorkerPc.isNew]
    · rw [ring, ring, off_congr hh hpost, hq, List.append_assoc]
    · intro v i hv
      cases hv
      rw [hw]
      simp
    · intro u hu
      rw [worker_others hm hu]
  | wake w l hl hq =>
    exact .same _ rfl rfl (by rw [ring, ring, hq]; rfl) (rounds_same hp hc hm (by simp)) rfl (isNew_same hc hm (by simp))
  | post w hq =>
    exact .same _ rfl rfl (by rw [ring, ring, hq]; rfl) (rounds_same hp hc hm (by simp)) rfl (isNew_same hc hm (by simp))
  | take w i x hw hq hlead =>
    obtain ⟨rfl, hle⟩ := turn_in hm
    obtain ⟨l, hl⟩ := h.head
    refine .take w l hl ?_ (rounds_same hp hc hm ?_) rfl ?_ hle (isNew_same hc hm (by simp))
    · rw [ring, ring, hq]
      simp [Phase.off, hlead]
    · intro v j hv
      cases hv
      rw [hw]
      simp
    · simp [Phase.had, leads_atPost hlead]
  | unlink w hw hq hlead hlead' hpost =>
    obtain ⟨l, hl⟩ := h.head
    have hl : data s.queue = w :: l := by simpa [Phase.atHead, hlead] using hl
    refine .same none rfl rfl ?_ (rounds_same hp hc hm ?_) ?_ (isNew_same hc hm (by simp))
    · simp [ring, Phase.off, hlead, hlead', hpost, hq, hl]
    · intro v i hv
      cases hv
      exact hw i
    · simp [Phase.had, hpost, leads_atPost hlead]
  | putBack w i hw hq hw' =>
    refine .back w (data s.queue) ?_ ?_ ?_ ?_ ?_ ?_ (isNew_same hc hm (by simp))
    · simp [ring, Phase.off, hw, WorkerPc.leads, WorkerPc.atPost]
    · simp [ring, Phase.off, hw', WorkerPc.atPost, hq]
    · simp [hw, hw', WorkerPc.rounds]
    · intro u hu
      rw [worker_others hm hu]
    · simp [Phase.had, hw, WorkerPc.atPost]
    · simp [Phase.had, hw', WorkerPc.atPost]
  | release w i e hw hq he =>
    have hsilent : inserted e.toList = [] ∧ turns e.toList = [] ∧ ∀ w, e ≠ some (.inserted w) := by
      rcases he with rfl | rfl
      · exact ⟨rfl, rfl, by simp⟩
      · exact ⟨rfl, rfl, by simp⟩
    refine .same e hsilent.1 hsilent.2.1 ?_ (rounds_same hp hc hm ?_) ?_ (isNew_same hc hm hsilent.2.2)
    · simp [ring, Phase.off, hw, WorkerPc.atPost, hq]
    · intro v j hv
      cases hv
      rw [hw]
      simp
    · simp [Phase.had, hw, WorkerPc.atPost]
  | resume w hq =>
    exact .same _ rfl rfl (by rw [ring, ring, hq]; rfl) (rounds_same hp hc hm (by simp)) rfl (isNew_same hc hm (by simp))

theorem Hands.head {t : Thread} (hh : Hands cfg s s' p p' t e) (h : ∃ l, data s.queue = p.atHead cfg s.worker ++ l) :
    ∃ l, data s'.queue = p'.atHead cfg s'.worker ++ l := by
  obtain ⟨t, ht⟩ := h
  cases hh with
  | idle p t hq hh => exact ⟨_, by rw [hq, hh, ht]⟩
  | enter p w hw hq hh => exact ⟨_, by rw [hq, hh, ht, List.append_assoc]⟩
  | wake w l hl hq => exact ⟨l, by rw [hq, hl]; rfl⟩
  | post w hq => exact ⟨t, by rw [hq, ht]; rfl⟩
  | take w i x hw hq hlead => exact ⟨t, by rw [hq, ht]; simp [Phase.atHead, hlead]⟩
  | unlink w hw hq hlead hlead' => exact ⟨data s'.queue, by simp [Phase.atHead, hlead']⟩
  | putBack w i hw hq hw' => exact ⟨data s'.queue, by simp [Phase.atHead, hw', WorkerPc.leads]⟩
  | release | resume => exact ⟨_, rfl⟩

theorem Wheel.wanted_step (h : Wheel cfg s p) (h' : Single s' p') {t : Thread} (hm : Moves cfg s t s' e)
    (hh : Hands cfg s s' p p' t e) (hs : s'.sched.choosing = true) (hp : ∀ w, p' ≠ .working w ∧ p' ≠ .released w) :
    0 < s'.numWorkersRemaining := by
  have hsingle := h.serial.steady.single
  have hpick : ∀ {pc : SchedPc}, s.sched = pc → pc.choosing = true → (∀ w, pc ≠ .postWorker w) →
      (∀ w, pc ≠ .waitForWorker w) → 0 < s.numWorkersRemaining := fun hpc hch h1 h2 => by
    obtain rfl := hsingle.picking (hpc ▸ h1) (hpc ▸ h2)
    exact h.wanted (hpc ▸ hch) fun _ => ⟨nofun, nofun⟩
  have hworking : ∀ {w : Nat}, (s'.worker w).atRest = false → False := fun {w} hrest =>
    (hp w).1 (h'.working hrest)
  cases hm with
  | poll hs' =>
    rw [hs'] at hs
    cases hs
  | startScheduler | queueReady | loopDone | peekNull | eltNull | waitForWorker => cases hs
  | setNum hm =>
    have hs : s.sched.choosing = true := hs
    rcases (h.serial.counted.unset (Or.inr hm)).2.2 with h1 | h1 <;> rw [h1] at hs <;> cases hs
  | initThread | initDone | createThread | join | cleanUp =>
    cases hh
    exact h.wanted hs hp
  | enterQueue w hw =>
    cases hh with
    | enter => exact h.wanted hs hp
    | release w i e hw' =>
      rw [hw] at hw'
      cases hw'
  | loop hs' hn => exact hn
  | peekHead elt hs' | isRunning elt hs' | selected elt hs' | eltNext elt next hs' | insertRunning w hs' =>
    exact hpick hs' rfl nofun nofun
  | postWorker w hs' =>
    obtain rfl := hsingle.waking hs'
    exact h.wanted (by rw [hs']; rfl) fun _ => ⟨nofun, nofun⟩
  | loopTurn | exitTurn | leaveQueue | readNum | writeNum | fifoRemoveRunning | rrRemoveRunning | removeQueue
    | insertQueue => exact (hworking (by rw [State.setWorker_self]; rfl)).elim
  | postLoop w i hw | postExit w i hw =>
    obtain rfl := hsingle.working (w := w) (by rw [hw]; rfl)
    have hsched : s.sched = .waitForWorker w := hsingle.fits
    exact absurd (h'.released (w := w) hsched (Nat.succ_ne_zero s.queueSem)) (hp w).2

theorem wheel_step (hp : cfg.policy = .rr) (h : Wheel cfg s p) {t : Thread} (hs : step cfg s t = some (s', e)) :
    ∃ p', Wheel cfg s' p' ∧ Spins cfg s s' p p' e := by
  have hm := step_moves hs
  obtain ⟨p', h'⟩ := serial_step h.serial hs
  have hst := h.serial.steady
  have hh := hands_step hp hst.single h'.steady.single hst.chosen hst.created hst.queued hm
  exact ⟨p', ⟨h', hh.head h.head, h.wanted_step h'.steady.single hm hh⟩, h.spins hp hm hh⟩

theorem wheel_init (hq : cfg.queueSize = 1) : Wheel cfg (initSchedQueue cfg) .picking := by
  obtain ⟨p, h⟩ := serial_init hq
  obtain rfl := h.steady.single.picking nofun nofun
  exact ⟨h, ⟨[], rfl⟩, nofun⟩

end

/-! ## Rounds -/

/-- Everybody who has arrived is in the ring once. -/
structure Seated (cfg : Config) (s : State) (p : Phase) : Prop where
  nodup : (ring cfg s p).Nodup
  mem : ∀ w, w ∈ ring cfg s p ↔ (s.worker w).isNew = false

/-- The first `k` rounds: all workers in the order of their arrival, again and again. -/
def wholeRounds (cfg : Config) (k : Nat) (ins : List Nat) : List (Nat × Turn) :=
  (List.range k).flatMap fun j => ins.map fun w => (w, turnIn cfg j)

/-- In round `k` the workers `ys` have had their turns, and `xs` have them to come. -/
structure InRounds (cfg : Config) (s : State) (p : Phase) (es : List Event) (k : Nat) (xs ys : List Nat) : Prop where
  order : inserted es = ys ++ xs
  ring : ring cfg s p = xs ++ ys
  ahead : ∀ w ∈ xs, (s.worker w).rounds cfg = k
  behind : ∀ w ∈ ys, (s.worker w).rounds cfg = k + 1
  turns : turns es = wholeRounds cfg k (inserted es) ++ (ys ++ p.had s.worker).map fun w => (w, turnIn cfg k)
  had : p.had s.worker ≠ [] → xs ≠ []

/-- A worker has been put back more often than another one that it has not waited for. -/
def Behind (cfg : Config) (s : State) (p : Phase) : Prop :=
  ∃ a b, b < cfg.threadCount ∧ a ∈ ring cfg s p ∧
    ((s.worker b).isNew = true ∧ 1 ≤ (s.worker a).rounds cfg ∨
      [a, b].Sublist (ring cfg s p) ∧ (s.worker b).rounds cfg + 1 ≤ (s.worker a).rounds cfg ∨
      [b, a].Sublist (ring cfg s p) ∧ (s.worker b).rounds cfg + 2 ≤ (s.worker a).rounds cfg)

/-- All workers have arrived, and none has been put back yet. -/
def Mustered (cfg : Config) (s : State) : Prop :=
  ∀ w, w < cfg.threadCount → (s.worker w).isNew = false ∧ (s.worker w).rounds cfg = 0

def AllIn (cfg : Config) (s : State) : Prop := ∀ w, w < cfg.threadCount → (s.worker w).isNew = false

theorem wholeRounds_succ (cfg : Config) (k : Nat) (ins : List Nat) :
    wholeRounds cfg (k + 1) ins = wholeRounds cfg k ins ++ ins.map fun w => (w, turnIn cfg k) := by
  simp [wholeRounds, List.range_succ]

section
variable {cfg : Config} {s s' : State} {p p' : Phase} {e : Option Event} {es : List Event} {k : Nat} {xs ys : List Nat}

theorem Spins.new {w : Nat} (hs : Spins cfg s s' p p' e) (hw : (s.worker w).isNew = false) :
    (s'.worker w).isNew = false := by
  cases hs with
  | same _ _ _ _ _ _ hn | take _ _ _ _ _ _ _ _ hn | back _ _ _ _ _ _ _ _ hn => rw [hn, hw]
  | arrive v hv hv' hr hk hh hn =>
    by_cases hwv : w = v
    · rw [hwv, hv']
    · rw [hn w hwv, hw]

theorem Seated.step (h : Seated cfg s p) (hs : Spins cfg s s' p p' e) : Seated cfg s' p' := by
  cases hs with
  | same _ _ _ hr _ _ hn | take _ _ _ hr _ _ _ _ hn => exact ⟨hr ▸ h.nodup, fun w => by rw [hr, hn, h.mem]⟩
  | arrive w hw hw' hr hk hh hn =>
    have hnot : w ∉ ring cfg s p := by
      rw [h.mem, hw]
      simp [WorkerPc.isNew]
    refine ⟨?_, ?_⟩
    · rw [hr]
      exact List.nodup_append'.mpr ⟨h.nodup, List.nodup_singleton w, by simpa using hnot⟩
    · intro u
      rw [hr, List.mem_append, List.mem_singleton]
      by_cases hu : u = w
      · simp [hu, hw']
      · simp [hu, hn u hu, h.mem]
  | back w l hl hr hw hk hh hh' hn =>
    have hperm : (ring cfg s' p').Perm (ring cfg s p) := by
      rw [hr, hl]
      exact List.perm_append_singleton w l
    exact ⟨hperm.nodup_iff.mpr h.nodup, fun u => by rw [hperm.mem_iff, hn, h.mem]⟩

theorem InRounds.same (h : InRounds cfg s p es k xs ys) {es' : List Event} (hi : inserted es' = inserted es)
    (ht : Sched.turns es' = Sched.turns es) (hr : Sched.ring cfg s' p' = Sched.ring cfg s p)
    (hk : ∀ u, (s'.worker u).rounds cfg = (s.worker u).rounds cfg) (hh : p'.had s'.worker = p.had s.worker) :
    InRounds cfg s' p' es' k xs ys :=
  ⟨by rw [hi, h.order], by rw [hr, h.ring], fun w hw => by rw [hk, h.ahead w hw], fun w hw => by rw [hk, h.behind w hw],
    by rw [ht, hi, hh, h.turns], by rw [hh]; exact h.had⟩

/-- When all have had their turns, the next round begins. -/
theorem InRounds.turnOver (h : InRounds cfg s p es k [] ys) : InRounds cfg s p es (k + 1) ys [] := by
  have hhad : p.had s.worker = [] := by
    by_contra hne
    exact h.had hne rfl
  have hins : inserted es = ys := by rw [h.order, List.append_nil]
  refine ⟨by rw [hins, List.nil_append], by rw [h.ring, List.nil_append, List.append_nil], h.behind, nofun, ?_, ?_⟩
  · rw [h.turns, wholeRounds_succ, hhad, hins]
    simp
  · intro hne
    exact absurd hhad hne

/-- The head of the ring is at work on its turn of the round. -/
theorem InRounds.fresh (h : InRounds cfg s p es k xs ys) {w : Nat} {l : List Nat} (hl : Sched.ring cfg s p = w :: l) :
    ∃ k' xs' ys', InRounds cfg s p es k' (w :: xs') ys' ∧ l = xs' ++ ys' ∧ (k = 0 ∧ ys = [] → k' = 0 ∧ ys' = []) := by
  cases xs with
  | nil =>
    have hys : ys = w :: l := by rw [← hl, h.ring, List.nil_append]
    subst hys
    exact ⟨k + 1, l, [], h.turnOver, by rw [List.append_nil], fun hk => by cases hk.2⟩
  | cons x xs =>
    have hring := h.ring
    rw [hl, List.cons_append] at hring
    obtain ⟨rfl, rfl⟩ := List.cons.inj hring
    exact ⟨k, xs, ys, h, rfl, id⟩

theorem InRounds.take (h : InRounds cfg s p es k xs ys) {w : Nat} {l : List Nat} (hl : Sched.ring cfg s p = w :: l)
    (hr : Sched.ring cfg s' p' = Sched.ring cfg s p) (hk : ∀ u, (s'.worker u).rounds cfg = (s.worker u).rounds cfg)
    (hh : p.had s.worker = []) (hh' : p'.had s'.worker = [w]) :
    ∃ k' xs' ys', InRounds cfg s' p' (es ++ [.turn w (turnIn cfg ((s.worker w).rounds cfg))]) k' xs' ys' ∧
      (k = 0 ∧ ys = [] → k' = 0 ∧ ys' = []) := by
  obtain ⟨k', xs', ys', hin, -, hk0⟩ := h.fresh hl
  have hi : inserted (es ++ [.turn w (turnIn cfg ((s.worker w).rounds cfg))]) = inserted es := by
    simp [inserted]
  refine ⟨k', w :: xs', ys', ⟨by rw [hi, hin.order], by rw [hr, hin.ring], fun u hu => by rw [hk, hin.ahead u hu],
    fun u hu => by rw [hk, hin.behind u hu], ?_, by simp⟩, hk0⟩
  rw [turns_append, hi, hin.turns, hh, hh', hin.ahead w (by simp)]
  simp [Sched.turns]

theorem InRounds.back (h : InRounds cfg s p es k xs ys) (hseat : Seated cfg s p) {w : Nat} {l : List Nat}
    (hl : Sched.ring cfg s p = w :: l) (hr : Sched.ring cfg s' p' = l ++ [w])
    (hw : (s'.worker w).rounds cfg = (s.worker w).rounds cfg + 1)
    (hk : ∀ u, u ≠ w → (s'.worker u).rounds cfg = (s.worker u).rounds cfg) (hh : p.had s.worker = [w])
    (hh' : p'.had s'.worker = []) : ∃ k' xs' ys', InRounds cfg s' p' es k' xs' ys' := by
  obtain ⟨k', xs', ys', hin, rfl, -⟩ := h.fresh hl
  have hnodup := hseat.nodup
  rw [hl] at hnodup
  have hne : ∀ u ∈ xs' ++ ys', u ≠ w := by
    rintro u hu rfl
    exact (List.nodup_cons.mp hnodup).1 hu
  refine ⟨k', xs', ys' ++ [w], ⟨by rw [hin.order]; simp, by rw [hr]; simp, ?_, ?_, ?_, fun hne => absurd hh' hne⟩⟩
  · intro u hu
    rw [hk u (hne u (by simp [hu])), hin.ahead u (by simp [hu])]
  · intro u hu
    rcases List.mem_append.mp hu with hu | hu
    · rw [hk u (hne u (by simp [hu])), hin.behind u hu]
    · obtain rfl := List.mem_singleton.mp hu
      rw [hw, hin.ahead u (by simp)]
  · rw [hin.turns, hh, hh', List.append_nil]

theorem InRounds.arrive (h : InRounds cfg s p es 0 xs []) {w : Nat} (hw : s.worker w = .enterQueue)
    (hr : Sched.ring cfg s' p' = Sched.ring cfg s p ++ [w])
    (hk : ∀ u, (s'.worker u).rounds cfg = (s.worker u).rounds cfg) (hh : p'.had s'.worker = p.had s.worker) :
    InRounds cfg s' p' (es ++ [.inserted w]) 0 (xs ++ [w]) [] := by
  have hi : inserted (es ++ [.inserted w]) = inserted es ++ [w] := by simp [inserted]
  refine ⟨by rw [hi, h.order]; simp, by rw [hr, h.ring]; simp, ?_, by simp, ?_, fun _ => by simp⟩
  · intro u hu
    rw [hk]
    rcases List.mem_append.mp hu with hu | hu
    · exact h.ahead u hu
    · obtain rfl := List.mem_singleton.mp hu
      rw [hw]
      rfl
  · rw [turns_append, h.turns, hh]
    simp [wholeRounds, Sched.turns]

theorem Behind.same (h : Behind cfg s p) (hr : ring cfg s' p' = ring cfg s p)
    (hk : ∀ u, (s'.worker u).rounds cfg = (s.worker u).rounds cfg)
    (hn : ∀ u, (s'.worker u).isNew = (s.worker u).isNew) : Behind cfg s' p' := by
  obtain ⟨a, b, hb, ha, h⟩ := h
  refine ⟨a, b, hb, by rw [hr]; exact ha, ?_⟩
  rw [hr, hk, hk, hn]
  exact h

theorem Behind.arrive (h : Behind cfg s p) {w : Nat} (hw : s.worker w = .enterQueue)
    (hr : ring cfg s' p' = ring cfg s p ++ [w]) (hk : ∀ u, (s'.worker u).rounds cfg = (s.worker u).rounds cfg)
    (hn : ∀ u, u ≠ w → (s'.worker u).isNew = (s.worker u).isNew) : Behind cfg s' p' := by
  obtain ⟨a, b, hb, ha, h⟩ := h
  refine ⟨a, b, hb, by rw [hr]; simp [ha], ?_⟩
  rw [hr, hk, hk]
  rcases h with ⟨hnew, hone⟩ | ⟨hab, hle⟩ | ⟨hba, hle⟩
  · by_cases hbw : b = w
    · subst hbw
      have h0 : (s.worker b).rounds cfg = 0 := by rw [hw]; rfl
      exact Or.inr (Or.inl ⟨pair_of_mem ha, by omega⟩)
    · exact Or.inl ⟨by rw [hn b hbw, hnew], hone⟩
  · exact Or.inr (Or.inl ⟨hab.trans (List.sublist_append_left _ _), hle⟩)
  · exact Or.inr (Or.inr ⟨hba.trans (List.sublist_append_left _ _), hle⟩)

theorem pair_tail {α : Type*} {w x y : α} {l : List α} (h : [x, y].Sublist (w :: l)) (hx : x ≠ w) :
    [x, y].Sublist l := by
  cases h with
  | cons _ h => exact h
  | cons_cons _ h => exact absurd rfl hx

theorem Behind.back (h : Behind cfg s p) (hseat : Seated cfg s p) {w : Nat} {l : List Nat}
    (hl : ring cfg s p = w :: l) (hr : ring cfg s' p' = l ++ [w])
    (hw : (s'.worker w).rounds cfg = (s.worker w).rounds cfg + 1)
    (hk : ∀ u, u ≠ w → (s'.worker u).rounds cfg = (s.worker u).rounds cfg)
    (hn : ∀ u, (s'.worker u).isNew = (s.worker u).isNew) : Behind cfg s' p' := by
  have hnodup := hseat.nodup
  rw [hl] at hnodup
  have hgrow : ∀ u, (s.worker u).rounds cfg ≤ (s'.worker u).rounds cfg := fun u => by
    by_cases hu : u = w
    · rw [hu, hw]
      omega
    · rw [hk u hu]
  obtain ⟨a, b, hb, ha, h⟩ := h
  refine ⟨a, b, hb, by rw [hr]; rw [hl] at ha; simpa [or_comm] using ha, ?_⟩
  rw [hl] at h
  rcases h with ⟨hnew, hone⟩ | ⟨hab, hle⟩ | ⟨hba, hle⟩
  · exact Or.inl ⟨by rw [hn, hnew], hone.trans (hgrow a)⟩
  · -- the worker that is ahead goes to the back, with one more round
    have hbw : b ≠ w := by
      rintro rfl
      exact pair_cons hnodup hab
    have hmem : b ∈ l := by
      have := hab.subset (show b ∈ [a, b] by simp)
      simpa [hbw] using this
    rw [hr, hk b hbw]
    by_cases haw : a = w
    · subst haw
      exact Or.inr (Or.inr ⟨pair_of_mem hmem, by omega⟩)
    · rw [hk a haw]
      exact Or.inr (Or.inl ⟨(pair_tail hab haw).trans (List.sublist_append_left _ _), hle⟩)
  · have haw : a ≠ w := by
      rintro rfl
      exact pair_cons hnodup hba
    have hmem : a ∈ l := by
      have := hba.subset (show a ∈ [b, a] by simp)
      simpa [haw] using this
    rw [hr, hk a haw]
    by_cases hbw : b = w
    · subst hbw
      exact Or.inr (Or.inl ⟨pair_of_mem hmem, by omega⟩)
    · rw [hk b hbw]
      exact Or.inr (Or.inr ⟨(pair_tail hba hbw).trans (List.sublist_append_left _ _), hle⟩)

theorem Behind.step (h : Behind cfg s p) (hseat : Seated cfg s p) (hs : Spins cfg s s' p p' e) : Behind cfg s' p' := by
  cases hs with
  | same _ _ _ hr hk _ hn | take _ _ _ hr hk _ _ _ hn => exact h.same hr hk hn
  | arrive w hw hw' hr hk hh hn => exact h.arrive hw hr hk hn
  | back w l hl hr hw hk hh hh' hn => exact h.back hseat hl hr hw hk hn

/-- Once all have arrived, the rounds go on. -/
theorem InRounds.step (h : InRounds cfg s p es k xs ys) (hseat : Seated cfg s p) (hc : Created cfg s)
    (hin : AllIn cfg s) (hs : Spins cfg s s' p p' e) : ∃ k' xs' ys', InRounds cfg s' p' (es ++ e.toList) k' xs' ys' := by
  cases hs with
  | same _ hi ht hr hk hh hn =>
    refine ⟨k, xs, ys, h.same ?_ ?_ hr hk hh⟩
    · rw [inserted_append, hi, List.append_nil]
    · rw [turns_append, ht, List.append_nil]
  | arrive w hw =>
    have hnew := hin w (hc.worker w (by rw [hw]; nofun))
    rw [hw] at hnew
    cases hnew
  | take w l hl hr hk hh hh' hle hn =>
    obtain ⟨k', xs', ys', h', -⟩ := h.take hl hr hk hh hh'
    exact ⟨k', xs', ys', h'⟩
  | back w l hl hr hw hk hh hh' hn =>
    rw [Option.toList_none, List.append_nil]
    exact h.back hseat hl hr hw hk hh hh'

/-- Before anybody is put back: either that stays so, or it ends with all there, or with one behind. -/
theorem InRounds.first_step (h : InRounds cfg s p es 0 xs []) (hseat : Seated cfg s p) (hs : Spins cfg s s' p p' e) :
    (∃ xs', InRounds cfg s' p' (es ++ e.toList) 0 xs' []) ∨
      (Mustered cfg s ∧ ∃ k' xs' ys', InRounds cfg s' p' (es ++ e.toList) k' xs' ys') ∨ Behind cfg s' p' := by
  cases hs with
  | same _ hi ht hr hk hh hn =>
    refine Or.inl ⟨xs, h.same ?_ ?_ hr hk hh⟩
    · rw [inserted_append, hi, List.append_nil]
    · rw [turns_append, ht, List.append_nil]
  | arrive w hw hw' hr hk hh hn => exact Or.inl ⟨xs ++ [w], h.arrive hw hr hk hh⟩
  | take w l hl hr hk hh hh' hle hn =>
    obtain ⟨k', xs', ys', h', h0⟩ := h.take hl hr hk hh hh'
    obtain ⟨rfl, rfl⟩ := h0 ⟨rfl, rfl⟩
    exact Or.inl ⟨xs', h'⟩
  | back w l hl hr hw hk hh hh' hn =>
    by_cases hall : AllIn cfg s
    · refine Or.inr (Or.inl ⟨fun u hu => ⟨hall u hu, ?_⟩, ?_⟩)
      · have hmem := (hseat.mem u).mpr (hall u hu)
        rw [h.ring, List.append_nil] at hmem
        exact h.ahead u hmem
      · rw [Option.toList_none, List.append_nil]
        exact h.back hseat hl hr hw hk hh hh'
    · right
      right
      simp only [AllIn, not_forall] at hall
      obtain ⟨b, hb, hnew⟩ := hall
      exact ⟨w, b, hb, by rw [hr]; simp, Or.inl ⟨by rw [hn]; simpa using hnew, by omega⟩⟩

theorem AllIn.step (h : AllIn cfg s) (hs : Spins cfg s s' p p' e) : AllIn cfg s' := fun w hw => hs.new (h w hw)

/-! ## Finished workers -/

variable (cfg) in
theorem rounds_le (pc : WorkerPc) : pc.rounds cfg ≤ cfg.iterations + 1 := by
  cases pc <;> simp only [WorkerPc.rounds] <;> omega

theorem counted_of_rounds {pc : WorkerPc} (h : pc.rounds cfg = cfg.iterations + 1) : pc.counted cfg = true := by
  cases pc with
  | finished => rfl
  | postQueue i =>
    simp only [WorkerPc.rounds] at h
    simp only [WorkerPc.counted, decide_eq_true_eq]
    omega
  | notCreated | enterQueue | waitForCpu | leaveQueue | readNum | writeNum | removeRunning | removeQueue | insertQueue =>
    simp only [WorkerPc.rounds] at h
    omega

/-- When the head of the ring has finished, all have. -/
theorem InRounds.all_finished (h : InRounds cfg s p es k xs ys) {w : Nat} {l : List Nat} (hl : Sched.ring cfg s p = w :: l)
    (hw : (s.worker w).rounds cfg = cfg.iterations + 1) (u : Nat) (hu : u ∈ Sched.ring cfg s p) :
    (s.worker u).rounds cfg = cfg.iterations + 1 := by
  obtain ⟨k', xs', ys', hin, hl', -⟩ := h.fresh hl
  have hk : k' = cfg.iterations + 1 := by rw [← hin.ahead w (by simp), hw]
  rw [hin.ring] at hu
  rcases List.mem_append.mp hu with hu | hu
  · rw [hin.ahead u hu, hk]
  · have hle := rounds_le cfg (s.worker u)
    rw [hin.behind u hu] at hle
    omega

/-- The scheduler does not wait for a finished worker while the rounds go on. -/
theorem Wheel.not_hung (h : Wheel cfg s p) (hseat : Seated cfg s p) (hin : InRounds cfg s p es k xs ys)
    (hall : AllIn cfg s) : ¬ Hung s := by
  rintro ⟨w, hs, hq, hfin⟩
  have hst := h.serial.steady
  obtain rfl : p = .woken w := by
    rcases hst.single.awaited hs hq with hp | hp
    · exact hp
    · have hrest := hst.single.rest w
      rw [hfin, hp] at hrest
      simp [WorkerPc.atRest] at hrest
  obtain ⟨l, hl⟩ := h.head
  have hcount : ∀ u, u < cfg.threadCount → (s.worker u).counted cfg = true := fun u hu =>
    counted_of_rounds (hin.all_finished hl (by rw [hfin]; rfl) u ((hseat.mem u).mpr (hall u hu)))
  have hset := hst.created.set_of_exists (w := w) (by simp [hfin])
  have hexit : exited cfg s = Finset.range cfg.threadCount :=
    Finset.filter_true_of_mem fun u hu => hcount u (Finset.mem_range.mp hu)
  have hnum := h.serial.counted.num hset.1.1 hset.1.2
  rw [hexit, Finset.card_range] at hnum
  have hpos := h.wanted (by rw [hs]; rfl) fun _ => ⟨by simp, by simp⟩
  omega

theorem Behind.not_over (h : Behind cfg s p)
    (hfin : ∀ w, w < cfg.threadCount → s.worker w = .finished) : False := by
  obtain ⟨a, b, hb, ha, h⟩ := h
  have hra : (s.worker a).rounds cfg ≤ cfg.iterations + 1 := rounds_le cfg _
  have hrb : (s.worker b).rounds cfg = cfg.iterations + 1 := by rw [hfin b hb]; rfl
  rcases h with ⟨hnew, -⟩ | ⟨-, hle⟩ | ⟨-, hle⟩
  · rw [hfin b hb] at hnew
    cases hnew
  · omega
  · omega

/-- At the end the last round is over. -/
theorem InRounds.over (h : InRounds cfg s p es k xs ys) (hseat : Seated cfg s p) (hN : 1 ≤ cfg.threadCount)
    (hfin : ∀ w, w < cfg.threadCount → s.worker w = .finished) (hc : Created cfg s) (hhad : p.had s.worker = []) :
    (inserted es).Perm (List.range cfg.threadCount) ∧
      Sched.turns es = wholeRounds cfg (cfg.iterations + 1) (inserted es) := by
  have hmem : ∀ w, w ∈ Sched.ring cfg s p ↔ w < cfg.threadCount := fun w => by
    rw [hseat.mem]
    constructor
    · intro hw
      apply hc.worker
      intro hnew
      rw [hnew] at hw
      cases hw
    · intro hw
      rw [hfin w hw]
      rfl
  have hrounds : ∀ w ∈ xs ++ ys, (s.worker w).rounds cfg = cfg.iterations + 1 := fun w hw => by
    rw [hfin w ((hmem w).mp (by rw [h.ring]; exact hw))]
    rfl
  have hperm : (inserted es).Perm (List.range cfg.threadCount) := by
    have hring : (Sched.ring cfg s p).Perm (List.range cfg.threadCount) := by
      rw [List.perm_ext_iff_of_nodup hseat.nodup List.nodup_range]
      intro w
      rw [hmem, List.mem_range]
    rw [h.order]
    exact List.perm_append_comm.trans (h.ring ▸ hring)
  refine ⟨hperm, ?_⟩
  cases xs with
  | nil =>
    have hend := h.turnOver
    cases ys with
    | nil =>
      have h0 := (hmem 0).mpr hN
      rw [h.ring] at h0
      cases h0
    | cons y ys =>
      have hk : k = cfg.iterations := by
        have := h.behind y (by simp)
        rw [hrounds y (by simp)] at this
        omega
      rw [hend.turns, hhad, hk]
      simp
  | cons x xs =>
    have hk : k = cfg.iterations + 1 := by rw [← h.ahead x (by simp), hrounds x (by simp)]
    cases ys with
    | nil =>
      rw [h.turns, hhad, hk]
      simp
    | cons y ys =>
      have := h.behind y (by simp)
      rw [hrounds y (by simp)] at this
      omega

end

/-! ## Under a fair schedule -/

section
variable {cfg : Config} (hp : cfg.policy = .rr) (hq : cfg.queueSize = 1) (f : Nat → Thread)

include hp hq

/-- Nobody has been put back yet, or the rounds go on since all were there, or somebody is behind. -/
theorem course (n : Nat) : ∃ p, Wheel cfg (after cfg f n) p ∧ Seated cfg (after cfg f n) p ∧
    ((∃ xs, InRounds cfg (after cfg f n) p (eventsBy cfg f n) 0 xs []) ∨
      ((∃ m, Mustered cfg (after cfg f m)) ∧ AllIn cfg (after cfg f n) ∧
        ∃ k xs ys, InRounds cfg (after cfg f n) p (eventsBy cfg f n) k xs ys) ∨
      Behind cfg (after cfg f n) p) := by
  induction n with
  | zero =>
    refine ⟨.picking, wheel_init hq, ⟨List.nodup_nil, fun w => by simp [after, states, initSchedQueue, ring, Phase.off,
      WorkerPc.isNew]⟩, Or.inl ⟨[], rfl, rfl, nofun, nofun, rfl, fun hne => absurd rfl hne⟩⟩
  | succ n ih =>
    rcases after_next cfg f n with ⟨hs, he⟩ | ⟨s', e, hst, hs, he⟩
    · rw [hs, he]
      exact ih
    · obtain ⟨p, hw, hseat, hcase⟩ := ih
      obtain ⟨p', hw', hspin⟩ := wheel_step hp hw hst
      rw [hs, he]
      refine ⟨p', hw', hseat.step hspin, ?_⟩
      rcases hcase with ⟨xs, hin⟩ | ⟨hm, hall, k, xs, ys, hin⟩ | hb
      · rcases hin.first_step hseat hspin with h1 | ⟨hm, h1⟩ | h1
        · exact Or.inl h1
        · exact Or.inr (Or.inl ⟨⟨n, hm⟩, AllIn.step (fun w hlt => (hm w hlt).1) hspin, h1⟩)
        · exact Or.inr (Or.inr h1)
      · exact Or.inr (Or.inl ⟨hm, hall.step hspin, hin.step hseat hw.serial.steady.created hall hspin⟩)
      · exact Or.inr (Or.inr (hb.step hseat hspin))

/-- From where all are there, the rounds go on. -/
theorem rounds_on {m : Nat} (hm : Mustered cfg (after cfg f m)) (d : Nat) :
    ∃ p, Wheel cfg (after cfg f (m + d)) p ∧ Seated cfg (after cfg f (m + d)) p ∧ AllIn cfg (after cfg f (m + d)) ∧
      ∃ k xs ys, InRounds cfg (after cfg f (m + d)) p (eventsBy cfg f (m + d)) k xs ys := by
  induction d with
  | zero =>
    have hall : AllIn cfg (after cfg f m) := fun w hw => (hm w hw).1
    obtain ⟨p, hw, hseat, hcase⟩ := course hp hq f m
    refine ⟨p, hw, hseat, hall, ?_⟩
    rcases hcase with ⟨xs, hin⟩ | ⟨-, -, hin⟩ | ⟨a, b, hb, ha, hb'⟩
    · exact ⟨0, xs, [], hin⟩
    · exact hin
    · have hold := (hseat.mem a).mp ha
      have ha0 := (hm a (hw.serial.steady.created.worker a (by intro hnew; rw [hnew] at hold; cases hold))).2
      rcases hb' with ⟨hnew, -⟩ | ⟨-, hle⟩ | ⟨-, hle⟩
      · rw [hall b hb] at hnew
        cases hnew
      · omega
      · omega
  | succ d ih =>
    rcases after_next cfg f (m + d) with ⟨hs, he⟩ | ⟨s', e, hst, hs, he⟩
    · rw [← Nat.add_assoc, hs, he]
      exact ih
    · obtain ⟨p, hw, hseat, hall, k, xs, ys, hin⟩ := ih
      obtain ⟨p', hw', hspin⟩ := wheel_step hp hw hst
      rw [← Nat.add_assoc, hs, he]
      exact ⟨p', hw', hseat.step hspin, hall.step hspin, hin.step hseat hw.serial.steady.created hall hspin⟩

/-- When the program is over, the last round is. -/
theorem rounds_over (hN : 1 ≤ cfg.threadCount) {n : Nat} (hx : (after cfg f n).main = .exit) :
    (∀ t, step cfg (after cfg f n) t = none) ∧ (∀ w, w < cfg.threadCount → (after cfg f n).worker w = .finished) ∧
      (inserted (eventsBy cfg f n)).Perm (List.range cfg.threadCount) ∧
      turns (eventsBy cfg f n) = wholeRounds cfg (cfg.iterations + 1) (inserted (eventsBy cfg f n)) := by
  obtain ⟨p, hw, hseat, hcase⟩ := course hp hq f n
  have hall := hw.serial.counted.done (hw.serial.started.joined (Or.inr hx))
  obtain ⟨k, xs, ys, hin⟩ : ∃ k xs ys, InRounds cfg (after cfg f n) p (eventsBy cfg f n) k xs ys := by
    rcases hcase with ⟨xs, hin⟩ | ⟨-, -, hin⟩ | hb
    · exact ⟨0, xs, [], hin⟩
    · exact hin
    · exact (hb.not_over hall).elim
  have hd := hw.serial.started.joined (Or.inr hx)
  obtain rfl := hw.serial.steady.single.picking (by rw [hd]; nofun) (by rw [hd]; nofun)
  exact ⟨hw.serial.over hx, hall, hin.over hseat hN hall hw.serial.steady.created rfl⟩

omit hp in
/-- The end, and a scheduler that hangs, are for good. -/
theorem after_stays (n d : Nat) :
    ((after cfg f n).main = .exit → after cfg f (n + d) = after cfg f n) ∧
      (Hung (after cfg f n) → Hung (after cfg f (n + d))) := by
  induction d with
  | zero => exact ⟨fun _ => rfl, id⟩
  | succ d ih =>
    obtain ⟨p, h⟩ := serial_after f hq (n + d)
    rcases after_next cfg f (n + d) with ⟨hs, -⟩ | ⟨s', e, hst, hs, -⟩
    · rw [← Nat.add_assoc, hs]
      exact ih
    · rw [← Nat.add_assoc, hs]
      refine ⟨fun hx => ?_, fun hh => h.hung_stays (ih.2 hh) hst⟩
      rw [h.over (by rw [ih.1 hx]; exact hx)] at hst
      cases hst

end

/-- With queue size 1, round robin comes to its end under a fair schedule if and
only if all workers have arrived before the first one is put back in the queue,
and otherwise the scheduler waits from some moment on for a worker that has
finished. At the end the workers have had their turns in rounds, each round in
the order of their arrival. -/
theorem rr_terminates (cfg : Config) (hp : cfg.policy = .rr) (hq : cfg.queueSize = 1) (hN : 1 ≤ cfg.threadCount)
    (f : Nat → Thread) (hf : FairTo cfg.Has f) :
    ((∃ n, (after cfg f n).main = .exit) ↔ ∃ n, Mustered cfg (after cfg f n)) ∧
    ((∀ n, (after cfg f n).main ≠ .exit) → ∃ n, ∀ m, n ≤ m → Hung (after cfg f m)) ∧
    ∀ n, (after cfg f n).main = .exit →
      (∀ t, step cfg (after cfg f n) t = none) ∧ (∀ w, w < cfg.threadCount → (after cfg f n).worker w = .finished) ∧
      (inserted (eventsBy cfg f n)).Perm (List.range cfg.threadCount) ∧
      turns (eventsBy cfg f n) = (List.range (cfg.iterations + 1)).flatMap fun j =>
        (inserted (eventsBy cfg f n)).map fun w => (w, if j < cfg.iterations then Turn.loop else Turn.exit) := by
  have hreach := serial_reaches hq hN hf
  have hfin : ∀ n p, Serial cfg (after cfg f n) p → (after cfg f n).main = .exit →
      ∀ w, w < cfg.threadCount → (after cfg f n).worker w = .finished := fun n p h hx =>
    h.counted.done (h.started.joined (Or.inr hx))
  refine ⟨⟨?_, ?_⟩, ?_, ?_⟩
  · rintro ⟨n, hx⟩
    obtain ⟨p, hw, hseat, hcase⟩ := course hp hq f n
    have hall := hfin n p hw.serial hx
    rcases hcase with ⟨xs, hin⟩ | ⟨hm, -⟩ | hb
    · have hmem := (hseat.mem 0).mpr (by rw [hall 0 hN]; rfl)
      rw [hin.ring, List.append_nil] at hmem
      have h0 := hin.ahead 0 hmem
      rw [hall 0 hN] at h0
      cases h0
    · exact hm
    · exact (hb.not_over hall).elim
  · rintro ⟨m, hm⟩
    obtain ⟨n, hn⟩ := hreach
    obtain ⟨p, hw, hseat, hall, k, xs, ys, hin⟩ := rounds_on hp hq f hm n
    have hstay := after_stays hq f n m
    rw [Nat.add_comm n m] at hstay
    rcases hn with hx | hh
    · exact ⟨n, hx⟩
    · exact absurd (hstay.2 hh) (hw.not_hung hseat hin hall)
  · intro hno
    obtain ⟨n, hn⟩ := hreach
    refine ⟨n, fun m hm => ?_⟩
    have hstay := (after_stays hq f n (m - n)).2 (hn.resolve_left (hno n))
    rwa [Nat.add_sub_cancel' hm] at hstay
  · exact fun n hx => rounds_over hp hq f hN hx

theorem rr_terminates_two :
    ((∃ n, (after ⟨.rr, 1, 2, 3⟩ everybody n).main = .exit) ↔ ∃ n, Mustered ⟨.rr, 1, 2, 3⟩ (after ⟨.rr, 1, 2, 3⟩ everybody n)) ∧
    ((∀ n, (after ⟨.rr, 1, 2, 3⟩ everybody n).main ≠ .exit) → ∃ n, ∀ m, n ≤ m → Hung (after ⟨.rr, 1, 2, 3⟩ everybody m)) ∧
    ∀ n, (after ⟨.rr, 1, 2, 3⟩ everybody n).main = .exit →
      (∀ t, step ⟨.rr, 1, 2, 3⟩ (after ⟨.rr, 1, 2, 3⟩ everybody n) t = none) ∧
      (∀ w, w < 2 → (after ⟨.rr, 1, 2, 3⟩ everybody n).worker w = .finished) ∧
      (inserted (eventsBy ⟨.rr, 1, 2, 3⟩ everybody n)).Perm (List.range 2) ∧
      turns (eventsBy ⟨.rr, 1, 2, 3⟩ everybody n) = (List.range 4).flatMap fun j =>
        (inserted (eventsBy ⟨.rr, 1, 2, 3⟩ everybody n)).map fun w => (w, if j < 3 then Turn.loop else Turn.exit) :=
  rr_terminates ⟨.rr, 1, 2, 3⟩ rfl rfl (by decide) everybody (everybody_fair rfl)

end OsLabs.Sched
