import OsLabs.SchedTurns

/-!
# The order of the turns with more than one slot

The first worker of the queue is woken first. With a second slot the walk of
`next_worker` goes past it to the next one, unless it has taken its exit turn.
-/

namespace OsLabs.Sched

theorem nextElt_split {elt next : Cell} {lst : List Cell} (h : nextElt elt lst = some next) :
    ∃ l₁ l₂, lst = l₁ ++ elt :: next :: l₂ := by
  induction lst with
  | nil => cases h
  | cons x lst ih =>
    unfold nextElt at h
    split at h
    · rename_i hx
      obtain ⟨l₂, rfl⟩ := List.head?_eq_some_iff.mp h
      exact ⟨[], l₂, by rw [hx]; rfl⟩
    · obtain ⟨l₁, l₂, rfl⟩ := ih h
      exact ⟨x :: l₁, l₂, rfl⟩

/-- The worker has had no turn and is not woken yet. -/
structure Waits (s : State) (w : Nat) : Prop where
  worker : s.worker w = .waitForCpu 0
  running : w ∉ data s.running
  sched : s.sched ≠ .insertRunning w

/-- On the queue nobody is further than waiting behind a worker that has its exit turn still to come. -/
structure Heads (s : State) : Prop where
  known : ∀ w, w ∈ data s.running ∨ s.sched = .insertRunning w → (s.worker w).isNew = false
  order : ∀ w u, [w, u].Sublist (data s.queue) → s.worker w = .leaveQueue ∨ Waits s u
  walk : ∀ elt, s.sched = .inRunning elt ∨ s.sched = .eltNext elt →
    ∀ w, [w, elt.datum].Sublist (data s.queue) → s.worker w = .leaveQueue

/-- `next_worker` goes on from a running worker to another one only past one that has taken its exit turn. -/
def PassesLeavers (s : State) : Thread → Prop
  | .sched => ∀ elt, s.sched = .eltNext elt → nextElt elt s.queue ≠ none → s.worker elt.datum = .leaveQueue
  | .main | .worker _ => True

theorem heads_init (cfg : Config) : Heads (initSchedQueue cfg) :=
  ⟨fun _ h => h.elim nofun nofun, nofun, fun _ h => h.elim nofun nofun⟩

theorem Slots.waits_infoSem {cfg : Config} {s : State} (h : Slots cfg s) {w : Nat} (hw : Waits s w) :
    s.infoSem w = 0 := by
  have hcount := h.count w
  rw [List.count_eq_zero_of_not_mem hw.running] at hcount
  omega

section
variable {cfg : Config} {s s' : State} (h : Heads s)
include h

/-- The scheduler reads and tests. Where it has chosen a worker, all those ahead are leaving. -/
theorem Heads.sched_move (hw : s'.worker = s.worker) (hq : s'.queue = s.queue) (hr : s'.running = s.running)
    (hi : ∀ w, s'.sched = .insertRunning w →
      (s.worker w).isNew = false ∧ ∀ x, [x, w].Sublist (data s.queue) → s.worker x = .leaveQueue)
    (hwalk : ∀ elt, s'.sched = .inRunning elt ∨ s'.sched = .eltNext elt →
      ∀ w, [w, elt.datum].Sublist (data s.queue) → s.worker w = .leaveQueue) : Heads s' := by
  refine ⟨?_, ?_, ?_⟩
  · intro w hin
    rw [hr] at hin
    rw [hw]
    rcases hin with hin | hin
    · exact h.known w (Or.inl hin)
    · exact (hi w hin).1
  · intro w u hp
    rw [hq] at hp
    rw [hw]
    by_cases hu : s'.sched = .insertRunning u
    · exact Or.inl ((hi u hu).2 w hp)
    · exact (h.order w u hp).imp_right fun hwait => ⟨hw ▸ hwait.worker, hr ▸ hwait.running, hu⟩
  · intro elt he w hp
    rw [hq] at hp
    rw [hw]
    exact hwalk elt he w hp

theorem Heads.worker_move {w : Nat} {pc : WorkerPc} (hw : s'.worker = (s.setWorker w pc).worker)
    (hs : s'.sched = s.sched) (hq : s'.queue = s.queue) (hr : ∀ u ∈ data s'.running, u ∈ data s.running)
    (hnew : pc.isNew = false) (hold : s.worker w ≠ .leaveQueue) (hwait : ¬ Waits s w) : Heads s' := by
  have hleave : ∀ u, s.worker u = .leaveQueue → s'.worker u = .leaveQueue := by
    intro u hu
    rw [hw, State.setWorker_ne, hu]
    rintro rfl
    exact hold hu
  refine ⟨?_, ?_, ?_⟩
  · intro u hin
    rw [hw, State.setWorker_worker]
    by_cases hu : u = w
    · simp [hu, hnew]
    · simpa [hu] using h.known u (hin.imp (hr u) (hs ▸ ·))
  · intro x u hp
    rw [hq] at hp
    refine (h.order x u hp).imp (hleave x) ?_
    intro hu
    have hne : u ≠ w := by
      rintro rfl
      exact hwait hu
    exact ⟨by rw [hw, State.setWorker_ne _ hne, hu.worker], fun hm => hu.running (hr u hm), hs ▸ hu.sched⟩
  · intro elt he u hp
    rw [hq] at hp
    exact hleave u (h.walk elt (hs ▸ he) u hp)

/-- The queue does not grow, and the workers that stay on it are where they were. -/
theorem Heads.remain (hs : s'.sched = s.sched) (hr : s'.running = s.running)
    (hk : ∀ u, (s.worker u).isNew = false → (s'.worker u).isNew = false)
    (hq : ∀ x u, [x, u].Sublist (data s'.queue) →
      [x, u].Sublist (data s.queue) ∧ s'.worker x = s.worker x ∧ s'.worker u = s.worker u) : Heads s' := by
  refine ⟨?_, ?_, ?_⟩
  · intro u hin
    rw [hr, hs] at hin
    exact hk u (h.known u hin)
  · intro x u hp
    obtain ⟨hp, hx, hu⟩ := hq x u hp
    rw [hx]
    exact (h.order x u hp).imp_right fun hwait => ⟨hu.trans hwait.worker, hr ▸ hwait.running, hs ▸ hwait.sched⟩
  · intro elt he u hp
    rw [hs] at he
    obtain ⟨hp, hu, -⟩ := hq u elt.datum hp
    exact hu.trans (h.walk elt he u hp)

theorem Heads.create {i : Nat} (hnew : s.worker i = .notCreated) (hc : Created cfg s) :
    Heads { s.setWorker i .enterQueue with main := .initThread (i + 1) } := by
  have hsame : ∀ u, s.worker u ≠ .notCreated → (s.setWorker i .enterQueue).worker u = s.worker u := by
    intro u hu
    apply State.setWorker_ne
    rintro rfl
    exact hu hnew
  have hqueue : ∀ u ∈ data s.queue, (s.setWorker i .enterQueue).worker u = s.worker u :=
    fun u hu => hsame u (hc.queue u hu)
  refine h.remain rfl rfl ?_ ?_
  · intro u hk
    rw [show _ = s.worker u from hsame u (by intro hu; rw [hu] at hk; cases hk)]
    exact hk
  · intro x u hp
    exact ⟨hp, hqueue x (hp.subset (by simp)), hqueue u (hp.subset (by simp))⟩

theorem Heads.arrive {w : Nat} (hw : s.worker w = .enterQueue) (hl : Queued cfg s) (ho : Once s) :
    Heads ((s.insertQueueTail w).setWorker w (.waitForCpu 0)) := by
  have hnot : w ∉ data s.queue := by
    intro hm
    have := hl.mem_iff.mp hm
    rw [hw] at this
    cases this
  have hout : ∀ hin : w ∈ data s.running ∨ s.sched = .insertRunning w, False := by
    intro hin
    have := h.known w hin
    rw [hw] at this
    cases this
  have hsame : ∀ u, u ≠ w → ((s.insertQueueTail w).setWorker w (.waitForCpu 0)).worker u = s.worker u :=
    fun u hu => State.setWorker_ne _ hu _
  have hmem : ∀ u ∈ data s.queue, u ≠ w := by
    rintro u hu rfl
    exact hnot hu
  refine ⟨?_, ?_, ?_⟩
  · intro u hin
    by_cases hu : u = w
    · simp [hu, WorkerPc.isNew]
    · rw [hsame u hu]
      exact h.known u hin
  · intro x u hp
    rw [State.setWorker_queue, State.insertQueueTail_queue] at hp
    rcases pair_concat hp with hp | ⟨rfl, hx⟩
    · have hx := hmem x (hp.subset (by simp))
      have hu := hmem u (hp.subset (by simp))
      rw [hsame x hx]
      exact (h.order x u hp).imp_right fun hwait => ⟨(hsame u hu).trans hwait.worker, hwait.running, hwait.sched⟩
    · exact Or.inr ⟨State.setWorker_self .., fun hm => hout (Or.inl hm), fun hs => hout (Or.inr hs)⟩
  · intro elt he u hp
    rw [State.setWorker_queue, State.insertQueueTail_queue] at hp
    rcases pair_concat hp with hp | ⟨heq, -⟩
    · rw [hsame u (hmem u (hp.subset (by simp)))]
      exact h.walk elt he u hp
    · have hold := (ho.walk elt he).1
      rw [heq, hw] at hold
      cases hold

theorem Heads.leave {w : Nat} (hl : Queued cfg s) :
    Heads { s.setWorker w .readNum with queue := removeItem w s.queue } := by
  refine h.remain rfl rfl ?_ ?_
  · intro u hk
    rw [show _ = if u = w then WorkerPc.readNum else s.worker u from s.setWorker_worker w _ u]
    by_cases hu : u = w
    · simp [hu, WorkerPc.isNew]
    · simpa [hu] using hk
  · intro x u hp
    rw [show data _ = _ from data_removeItem w s.queue] at hp
    have hnot := hl.nodup.not_mem_erase (a := w)
    have hne : ∀ v ∈ [x, u], v ≠ w := by
      rintro v hv rfl
      exact hnot (hp.subset hv)
    exact ⟨hp.trans List.erase_sublist, s.setWorker_ne (hne x (by simp)) .readNum,
      s.setWorker_ne (hne u (by simp)) .readNum⟩

/-- Where the guard of the walk is met, the ones ahead of the next element are leaving too. -/
theorem Heads.next (hl : Queued cfg s) {elt next : Cell} (hs : s.sched = .eltNext elt)
    (hq : nextElt elt s.queue = some next) (hleave : s.worker elt.datum = .leaveQueue) {w : Nat}
    (hp : [w, next.datum].Sublist (data s.queue)) : s.worker w = .leaveQueue := by
  obtain ⟨l₁, l₂, heq⟩ := nextElt_split hq
  have hdata : data s.queue = (data l₁ ++ [elt.datum]) ++ next.datum :: data l₂ := by simp [heq]
  have hnd := hl.nodup
  rw [hdata] at hnd hp
  rcases List.mem_append.mp (pair_split hnd hp) with hw | hw
  · apply h.walk elt (Or.inr hs)
    rw [heq, data_append, data_cons]
    exact pair_of_mem hw
  · rw [List.mem_singleton.mp hw]
    exact hleave

theorem heads_step (hc : Created cfg s) (hsl : Slots cfg s) (hl : Queued cfg s) (ho : Once s)
    (hp : cfg.policy = .fifo) {t : Thread} {e : Option Event} (hg : PassesLeavers s t)
    (hm : Moves cfg s t s' e) : Heads s' := by
  have hturn : ∀ {w i n : Nat}, s.infoSem w = n + 1 → ¬ Waits s w := by
    intro w i n hn hw
    have := hsl.waits_infoSem hw
    omega
  have hbusy : ∀ {w : Nat} {pc : WorkerPc}, s.worker w = pc → pc ≠ .waitForCpu 0 → ¬ Waits s w :=
    fun hw hne hwait => hne (hw.symm.trans hwait.worker)
  cases hm with
  | startScheduler | queueReady | loop | loopDone | peekNull | eltNull | waitForWorker =>
    exact h.sched_move rfl rfl rfl nofun fun _ he => he.elim nofun nofun
  | setNum | initThread | initDone | join | cleanUp | poll =>
    exact ⟨h.known, fun x u hp => (h.order x u hp).imp_right
      fun hw => ⟨hw.worker, hw.running, hw.sched⟩, h.walk⟩
  | createThread i hm => exact h.create (hc.later i (by rw [hm]; rfl) i (Nat.le_refl i)) hc
  | peekHead elt hs hq =>
    refine h.sched_move rfl rfl rfl nofun ?_
    intro elt' he w hpair
    obtain rfl : elt = elt' := by simpa using he
    obtain ⟨rest, heq⟩ := List.head?_eq_some_iff.mp hq
    have hnd := hl.nodup
    rw [heq, data_cons] at hpair hnd
    exact (pair_cons hnd hpair).elim
  | isRunning elt hs =>
    refine h.sched_move rfl rfl rfl nofun ?_
    intro elt' he
    obtain rfl : elt = elt' := by simpa using he
    exact h.walk elt (Or.inl hs)
  | eltNext elt next hs hq =>
    refine h.sched_move rfl rfl rfl nofun ?_
    intro elt' he w hpair
    obtain rfl : next = elt' := by simpa using he
    exact h.next hl hs hq (hg elt hs (by rw [hq]; nofun)) hpair
  | selected elt hs hr =>
    refine h.sched_move rfl rfl rfl ?_ fun _ he => he.elim nofun nofun
    intro w hw
    obtain rfl : elt.datum = w := by simpa using hw
    exact ⟨(ho.walk elt (Or.inl hs)).1, h.walk elt (Or.inl hs)⟩
  | insertRunning w hs =>
    have hrun : data (s.insertRunningTail w).running = data s.running ++ [w] := data_append ..
    refine ⟨?_, ?_, fun _ he => he.elim nofun nofun⟩
    · intro u hu
      have hu : u ∈ data s.running ++ [w] := hrun ▸ hu.resolve_right nofun
      rcases List.mem_append.mp hu with hu | hu
      · exact h.known u (Or.inl hu)
      · exact h.known u (Or.inr (by rw [hs, List.mem_singleton.mp hu]))
    · intro x u hpair
      refine (h.order x u hpair).imp_right fun hwait => ⟨hwait.worker, ?_, nofun⟩
      have hne : u ≠ w := by
        rintro rfl
        exact hwait.sched hs
      rw [show data _ = data s.running ++ [w] from hrun]
      simpa [hne] using hwait.running
  | postWorker w hs =>
    refine h.sched_move rfl rfl rfl nofun fun _ he => he.elim nofun nofun
  | enterQueue w hw => exact h.arrive hw hl ho
  | leaveQueue w hw => exact h.leave hl
  | loopTurn w i n hw hn | exitTurn w i n hw hn =>
    exact h.worker_move rfl rfl rfl (fun _ => id) rfl (by rw [hw]; nofun) (hturn (i := i) hn)
  | readNum w hw | writeNum w num hw | postLoop w i hw | postExit w i hw =>
    exact h.worker_move rfl rfl rfl (fun _ => id) rfl (by rw [hw]; nofun) (hbusy hw nofun)
  | fifoRemoveRunning w i hp' hw =>
    refine h.worker_move rfl rfl rfl ?_ rfl (by rw [hw]; nofun) (hbusy hw nofun)
    intro u hu
    rw [show data _ = _ from data_removeItem w s.running] at hu
    exact List.mem_of_mem_erase hu
  | rrRemoveRunning w i hrr =>
    rw [hp] at hrr
    cases hrr
  | removeQueue w i hw => exact absurd (Or.inl hw) (hl.no_reinsert hp w i)
  | insertQueue w i hw => exact absurd (Or.inr hw) (hl.no_reinsert hp w i)

end

/-! ## Turns in the order of arrival -/

/-- `[w, u]` is a sublist of the arrivals if `w` arrived before `u`. -/
structure InOrder (ins : List Nat) (ts : List (Nat × Turn)) : Prop where
  complete : ∀ w u l₁ l₂ l₃, ts = l₁ ++ (w, .loop) :: l₂ ++ (u, .loop) :: l₃ → u ≠ w → (w, .exit) ∈ l₂
  arrival : ∀ w u, [w, u].Sublist ins → ∀ l₁ l₂, ts = l₁ ++ (u, .loop) :: l₂ → (w, .exit) ∈ l₁

theorem inOrder_init : InOrder [] [] :=
  ⟨fun _ _ l₁ l₂ _ h => by simp at h, nofun⟩

section
variable {ins : List Nat} {ts : List (Nat × Turn)} (h : InOrder ins ts)
include h

theorem InOrder.silent {ins' : List Nat} {ts' : List (Nat × Turn)} (hi : ins' = []) (ht : ts' = []) :
    InOrder (ins ++ ins') (ts ++ ts') := by
  rw [hi, ht, List.append_nil, List.append_nil]
  exact h

theorem InOrder.exit (w : Nat) : InOrder ins (ts ++ [(w, .exit)]) := by
  refine ⟨?_, ?_⟩
  · intro v u l₁ l₂ l₃ heq hne
    rcases snoc_split heq with ⟨l₄, rfl, hts⟩ | ⟨hx, -⟩
    · exact h.complete v u l₁ l₂ l₄ hts hne
    · cases hx
  · intro v u hp l₁ l₂ heq
    rcases snoc_split heq with ⟨l₄, rfl, hts⟩ | ⟨hx, -⟩
    · exact h.arrival v u hp l₁ l₄ hts
    · cases hx

theorem InOrder.arrive {w : Nat} (hnew : ∀ t, (w, t) ∉ ts) : InOrder (ins ++ [w]) ts := by
  refine ⟨h.complete, ?_⟩
  intro v u hp l₁ l₂ heq
  rcases pair_concat hp with hp | ⟨rfl, -⟩
  · exact h.arrival v u hp l₁ l₂ heq
  · exact absurd (by simp [heq]) (hnew .loop)

theorem InOrder.loop {u : Nat} (hahead : ∀ w, [w, u].Sublist ins → (w, .exit) ∈ ts)
    (hdone : ∀ w, w ≠ u → ∀ l₁ l₂, ts = l₁ ++ (w, .loop) :: l₂ → (w, .exit) ∈ l₂) :
    InOrder ins (ts ++ [(u, .loop)]) := by
  refine ⟨?_, ?_⟩
  · intro w v l₁ l₂ l₃ heq hne
    rcases snoc_split heq with ⟨l₄, rfl, hts⟩ | ⟨hx, hts⟩
    · exact h.complete w v l₁ l₂ l₄ hts hne
    · cases hx
      exact hdone w hne.symm l₁ l₂ hts
  · intro w v hp l₁ l₂ heq
    rcases snoc_split heq with ⟨l₄, rfl, hts⟩ | ⟨hx, rfl⟩
    · exact h.arrival w v hp l₁ l₄ hts
    · cases hx
      exact hahead w hp

end

theorem left_gone {cfg : Config} (hp : cfg.policy = .fifo) {s : State} (hq : Queued cfg s) {w : Nat}
    (hnew : (s.worker w).isNew = false) (hl : (s.worker w).linked cfg = false) :
    (s.worker w).gone cfg = true := by
  cases hw : s.worker w with
  | notCreated | enterQueue =>
    rw [hw] at hnew
    cases hnew
  | waitForCpu | leaveQueue =>
    rw [hw] at hl
    cases hl
  | readNum | writeNum | finished => rfl
  | removeRunning i | postQueue i => simpa [hw, WorkerPc.linked, WorkerPc.gone, hp] using hl
  | removeQueue i => exact absurd (Or.inl hw) (hq.no_reinsert hp w i)
  | insertQueue i => exact absurd (Or.inr hw) (hq.no_reinsert hp w i)

theorem exit_mem_taken {cfg : Config} {pc : WorkerPc} (h : Turn.exit ∈ pc.taken cfg) :
    pc.taken cfg = allTurns cfg := by
  cases pc with
  | notCreated | enterQueue => cases h
  | waitForCpu i => simp [WorkerPc.taken] at h
  | leaveQueue | readNum | writeNum | finished => rfl
  | removeRunning i | removeQueue i | insertQueue i | postQueue i =>
    by_cases hi : i < cfg.iterations
    · simp [WorkerPc.taken, hi] at h
    · simp [WorkerPc.taken, hi]

section
variable {cfg : Config} {s s' : State} {ins : List Nat} {ts : List (Nat × Turn)}

theorem Turned.mem_inserted (h : Turned cfg s ts) (ha : Arrives cfg s ins) {w : Nat} {t : Turn}
    (hm : (w, t) ∈ ts) : w ∈ ins := by
  apply (ha.new w).mpr
  have htaken := h.mem_iff.mp hm
  cases hw : s.worker w with
  | notCreated | enterQueue =>
    rw [hw] at htaken
    cases htaken
  | waitForCpu | leaveQueue | readNum | writeNum | removeRunning | removeQueue | insertQueue | postQueue | finished => rfl

/-- When a worker has a turn, those that arrived before it have had their exit turn. -/
theorem Heads.ahead (h : Heads s) (hp : cfg.policy = .fifo) (hsl : Slots cfg s) (hl : Queued cfg s)
    (ht : Turned cfg s ts) (ha : Arrives cfg s ins) {u i n : Nat} (hu : s.worker u = .waitForCpu i)
    (hn : s.infoSem u = n + 1) {w : Nat} (hpair : [w, u].Sublist ins) : (w, .exit) ∈ ts := by
  have hexit : (s.worker w).taken cfg = allTurns cfg → (w, .exit) ∈ ts := by
    intro hall
    rw [ht.mem_iff, hall]
    simp [allTurns]
  by_cases hw : w ∈ data s.queue
  · have hqueue : u ∈ data s.queue := hl.mem_iff.mpr (by rw [hu]; rfl)
    rcases h.order w u (ha.pair hpair hw hqueue) with hleave | hwait
    · exact hexit (by rw [hleave]; rfl)
    · have := hsl.waits_infoSem hwait
      omega
  · rw [hl.mem_iff] at hw
    exact hexit (taken_gone (left_gone hp hl ((ha.new w).mp (hpair.subset (by simp))) (by simpa using hw)))

theorem InOrder.turn (h : InOrder ins ts) (hp : cfg.policy = .fifo) (hh : Heads s) (hsl : Slots cfg s)
    (hl : Queued cfg s) (ht : Turned cfg s ts) (ha : Arrives cfg s ins) {u i n : Nat}
    (hu : s.worker u = .waitForCpu i) (hn : s.infoSem u = n + 1) : InOrder ins (ts ++ [(u, .loop)]) := by
  apply h.loop fun w hpair => hh.ahead hp hsl hl ht ha hu hn hpair
  intro w hne l₁ l₂ heq
  have hw : w ∈ ins := ht.mem_inserted ha (t := .loop) (by simp [heq])
  have hins : u ∈ ins := (ha.new u).mpr (by rw [hu]; rfl)
  rcases pair_or hw hins hne with hpair | hpair
  · have hexit := ht.mem_iff.mp (hh.ahead hp hsl hl ht ha hu hn hpair)
    exact ht.exit_after (exit_mem_taken hexit) heq
  · have hexit : (u, Turn.exit) ∈ ts := by
      rw [heq]
      exact List.mem_append_left _ (h.arrival u w hpair l₁ l₂ heq)
    have htaken := ht.mem_iff.mp hexit
    simp [hu, WorkerPc.taken] at htaken

theorem inOrder_step {es : List Event} (h : InOrder (inserted es) (turns es)) (hp : cfg.policy = .fifo)
    (hh : Heads s) (hsl : Slots cfg s) (hl : Queued cfg s) (ht : Turned cfg s (turns es))
    (ha : Arrives cfg s (inserted es)) {t : Thread} {e : Option Event} (hm : Moves cfg s t s' e) :
    InOrder (inserted (es ++ e.toList)) (turns (es ++ e.toList)) := by
  rw [inserted_append, turns_append]
  cases hm with
  | enterQueue w hw =>
    have hnew : InOrder (inserted es ++ [w]) (turns es) := by
      apply h.arrive
      intro t hmem
      have := (ha.new w).mp (ht.mem_inserted ha hmem)
      rw [hw] at this
      cases this
    simpa [inserted, turns] using hnew
  | loopTurn w i n hw hn => simpa [inserted, turns] using h.turn hp hh hsl hl ht ha hw hn
  | exitTurn w i n hw => simpa [inserted, turns] using h.exit w
  | startScheduler | setNum | initThread | initDone | createThread | join | cleanUp | poll | queueReady | loop | loopDone
    | peekHead | peekNull | isRunning | selected | eltNext | eltNull | insertRunning | postWorker | waitForWorker
    | leaveQueue | readNum | writeNum | fifoRemoveRunning | rrRemoveRunning | removeQueue | insertQueue | postLoop
    | postExit =>
    exact h.silent rfl rfl

end

/-! ## Runs -/

theorem inOrder_run {cfg : Config} (hp : cfg.policy = .fifo) {es : List Thread} {s : State}
    {tr : List (Thread × Option Event)} (hg : Guarded (step cfg) PassesLeavers (initSchedQueue cfg) es)
    (hr : run (step cfg) (initSchedQueue cfg) es = some (s, tr)) :
    InOrder (inserted (events tr)) (turns (events tr)) := by
  have hI : (Created cfg s ∧ Slots cfg s ∧ Queued cfg s ∧ Once s ∧ Heads s) ∧
    Turned cfg s (turns (events tr)) ∧
      Arrives cfg s (inserted (events tr)) ∧ InOrder (inserted (events tr)) (turns (events tr)) := by
    refine run_hist (I := fun s tr => (Created cfg s ∧ Slots cfg s ∧ Queued cfg s ∧ Once s ∧ Heads s) ∧
      Turned cfg s (turns (events tr)) ∧ Arrives cfg s (inserted (events tr)) ∧
      InOrder (inserted (events tr)) (turns (events tr))) (g := []) ?_ ?_ hg hr
    · rintro s tr t s' e ⟨⟨hc, hsl, hl, ho, hh⟩, ht, ha, hi⟩ hok hst
      have hm := step_moves hst
      rw [events_snoc]
      exact ⟨⟨created_step hc hm, slots_step hsl hc hm, queued_step hl hc hm, once_step ho hp hc hl hm,
        heads_step hh hc hsl hl ho hp hok hm⟩, turned_step ht hc hm, arrives_step hp ha hc hl hm,
        inOrder_step hi hp hh hsl hl ht ha hm⟩
    · exact ⟨⟨created_init cfg, slots_init cfg, queued_init cfg, once_init cfg, heads_init cfg⟩, turned_init cfg,
        arrives_init cfg, inOrder_init⟩
  exact hI.2.2.2

/-- Workers 0 and 1 can have their first loop turn together. -/
theorem can_mix {cfg : Config} (hp : cfg.policy = .fifo) (h2 : 2 ≤ cfg.queueSize) (hmax : cfg.queueSize ≤ intMax)
    (hN : 2 ≤ cfg.threadCount) (hi : 0 < cfg.iterations) :
    Can (step cfg) (fun s => s.worker 0 = .removeRunning 0 ∧ s.worker 1 = .removeRunning 0) (initSchedQueue cfg) := by
  apply (can_pair hp h2 hN hmax (Nat.zero_le _)).trans
  intro s h
  have hx : s.main ≠ .exit := by rw [h.main]; nofun
  refine can_move (.loopTurn 0 0 0 (by simp [h.worker]) (by simp [h.infoSem]) hi) hx ?_
  refine can_move (.loopTurn 1 0 0 (by simp [State.setWorker, h.worker]) (by simp [h.infoSem]) hi) hx ?_
  exact .here ⟨by simp [State.setWorker], by simp [State.setWorker]⟩

/-- Two workers that have had one loop turn each, and nothing else, have not had them in order. -/
theorem Turned.mixed {cfg : Config} {s : State} {ins : List Nat} {ts : List (Nat × Turn)}
    (h : Turned cfg s ts) (hi : 0 < cfg.iterations) (h0 : s.worker 0 = .removeRunning 0)
    (h1 : s.worker 1 = .removeRunning 0) : ¬ InOrder ins ts := by
  intro ho
  have hno : ∀ w, s.worker w = .removeRunning 0 → (w, Turn.exit) ∉ ts := by
    intro w hw hm
    have := h.mem_iff.mp hm
    simp [hw, WorkerPc.taken, hi] at this
  have hyes : ∀ w, s.worker w = .removeRunning 0 → (w, Turn.loop) ∈ ts := by
    intro w hw
    rw [h.mem_iff]
    simp [hw, WorkerPc.taken, hi]
  obtain ⟨l₁, l₂, heq⟩ := List.append_of_mem (hyes 0 h0)
  have hmem := hyes 1 h1
  rw [heq] at hmem
  rcases List.mem_append.mp hmem with hm | hm
  · obtain ⟨l₃, l₄, rfl⟩ := List.append_of_mem hm
    apply hno 1 h1
    rw [heq]
    have := ho.complete 1 0 l₃ l₄ l₂ heq (by decide)
    simp [this]
  · obtain ⟨l₃, l₄, rfl⟩ := List.append_of_mem (List.mem_of_ne_of_mem (by simp) hm)
    apply hno 0 h0
    rw [heq]
    have := ho.complete 0 1 l₁ l₃ l₄ (by simp [heq]) (by decide)
    simp [this]

theorem inOrder_of_few {cfg : Config} (h : cfg.threadCount ≤ 1 ∨ cfg.iterations = 0) {s : State}
    {ins : List Nat} {ts : List (Nat × Turn)} (hc : Created cfg s) (ht : Turned cfg s ts)
    (ha : Arrives cfg s ins) : InOrder ins ts := by
  have hlt : ∀ w ∈ ins, w < cfg.threadCount := by
    intro w hw
    apply hc.worker
    intro hnot
    have := (ha.new w).mp hw
    rw [hnot] at this
    cases this
  rcases h with hN | hi
  · refine ⟨?_, ?_⟩
    · intro w u l₁ l₂ l₃ heq hne
      have hw := hlt w (ht.mem_inserted ha (t := .loop) (by simp [heq]))
      have hu := hlt u (ht.mem_inserted ha (t := .loop) (by simp [heq]))
      omega
    · intro w u hp l₁ l₂ heq
      have hw := hlt w (hp.subset (by simp))
      have hu := hlt u (hp.subset (by simp))
      have hnd := ha.nodup.sublist hp
      obtain rfl : w = u := by omega
      simp at hnd
  · have hno : ∀ u, (u, Turn.loop) ∉ ts := by
      intro u hm
      have hmem := (taken_le fun i hw => ht.le u i hw).subset (ht.mem_iff.mp hm)
      simp [allTurns, hi] at hmem
    refine ⟨?_, ?_⟩
    · intro w u l₁ l₂ l₃ heq
      exact absurd (by simp [heq]) (hno w)
    · intro w u hp l₁ l₂ heq
      exact absurd (by simp [heq]) (hno u)

/-- Turns are in order in every run whose walks go past leaving workers only.
They are in order in every run only with at most one worker or without loop turns. -/
theorem turns_in_order (cfg : Config) (hp : cfg.policy = .fifo) (h2 : 2 ≤ cfg.queueSize) (hmax : cfg.queueSize ≤ intMax) :
    (∀ es s tr, Guarded (step cfg) PassesLeavers (initSchedQueue cfg) es →
      run (step cfg) (initSchedQueue cfg) es = some (s, tr) → InOrder (inserted (events tr)) (turns (events tr))) ∧
    ((∀ es s tr, run (step cfg) (initSchedQueue cfg) es = some (s, tr) →
      InOrder (inserted (events tr)) (turns (events tr))) ↔ cfg.threadCount ≤ 1 ∨ cfg.iterations = 0) := by
  refine ⟨fun es s tr hg hr => inOrder_run hp hg hr, ?_⟩
  constructor
  · intro h
    by_contra hfew
    obtain ⟨es, s, tr, hr, h0, h1⟩ := can_mix hp h2 hmax (by omega) (by omega)
    exact (turned_run hr).2.mixed (by omega) h0 h1 (h es s tr hr)
  · intro hfew es s tr hr
    obtain ⟨hc, ht⟩ := turned_run hr
    exact inOrder_of_few hfew hc ht (arrives_run hp hr)

theorem turns_in_order_two :
    (∀ es s tr, Guarded (step ⟨.fifo, 2, 2, 1⟩) PassesLeavers (initSchedQueue ⟨.fifo, 2, 2, 1⟩) es →
      run (step ⟨.fifo, 2, 2, 1⟩) (initSchedQueue ⟨.fifo, 2, 2, 1⟩) es = some (s, tr) →
      InOrder (inserted (events tr)) (turns (events tr))) ∧
    ¬ ∀ es s tr, run (step ⟨.fifo, 2, 2, 1⟩) (initSchedQueue ⟨.fifo, 2, 2, 1⟩) es = some (s, tr) →
      InOrder (inserted (events tr)) (turns (events tr)) := by
  obtain ⟨horder, hall⟩ := turns_in_order ⟨.fifo, 2, 2, 1⟩ rfl (by decide) (by decide)
  exact ⟨horder, hall.not.mpr (by decide)⟩

/-- The scheduler wakes both workers, and both have their loop turn. -/
def mixSchedule : List Thread :=
  List.replicate 6 .main ++ [.worker 0, .worker 1] ++ List.replicate 14 .sched ++ [.worker 0, .worker 1]

theorem turns_mixed :
    ∃ s tr, run (step ⟨.fifo, 2, 2, 1⟩) (initSchedQueue ⟨.fifo, 2, 2, 1⟩) mixSchedule = some (s, tr) ∧
      turns (events tr) = [(0, .loop), (1, .loop)] ∧ ¬ InOrder (inserted (events tr)) (turns (events tr)) := by
  refine ⟨_, _, rfl, by decide, ?_⟩
  intro h
  cases h.complete 0 1 [] [] [] (by decide) (by decide)

end OsLabs.Sched
