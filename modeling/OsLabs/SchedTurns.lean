import OsLabs.SchedWalk

/-!
# Turns and arrivals in the history

Whatever the policy and the queue size, the turns of a worker so far are those
that its program counter tells. Under first in, first out the queue is what is
left of the workers in the order of their arrival.
-/

namespace OsLabs.Sched

/-! ## Order in a list -/

section
variable {α : Type*} {l : List α} {w u x : α}

theorem pair_or (hw : w ∈ l) (hu : u ∈ l) (hne : w ≠ u) : [w, u].Sublist l ∨ [u, w].Sublist l := by
  induction l with
  | nil => cases hw
  | cons y l ih =>
    rcases List.mem_cons.mp hw with hwy | hwl
    · rcases List.mem_cons.mp hu with huy | hul
      · exact absurd (hwy.trans huy.symm) hne
      · exact Or.inl (hwy ▸ (List.singleton_sublist.mpr hul).cons_cons _)
    · rcases List.mem_cons.mp hu with huy | hul
      · exact Or.inr (huy ▸ (List.singleton_sublist.mpr hwl).cons_cons _)
      · exact (ih hwl hul).imp (·.cons _) (·.cons _)

theorem pair_concat (h : [w, u].Sublist (l ++ [x])) : [w, u].Sublist l ∨ u = x ∧ w ∈ l := by
  obtain ⟨l₁, l₂, heq, h1, h2⟩ := List.sublist_append_iff.mp h
  rcases List.sublist_singleton.mp h2 with rfl | rfl
  · rw [List.append_nil] at heq
    exact Or.inl (heq ▸ h1)
  · obtain ⟨rfl, hux⟩ : l₁ = [w] ∧ u = x := by
      have hinj : [w] ++ [u] = l₁ ++ [x] := heq
      simpa [eq_comm] using List.append_inj' hinj rfl
    exact Or.inr ⟨hux, List.singleton_sublist.mp h1⟩

theorem pair_cons (hn : (x :: l).Nodup) (h : [w, x].Sublist (x :: l)) : False := by
  have hx := (List.nodup_cons.mp hn).1
  cases h with
  | cons _ h => exact hx (h.subset (by simp))
  | cons_cons _ h => exact hx (h.subset (by simp))

theorem pair_split {l₁ l₂ : List α} (hn : (l₁ ++ u :: l₂).Nodup) (h : [w, u].Sublist (l₁ ++ u :: l₂)) :
    w ∈ l₁ := by
  obtain ⟨l₃, l₄, heq, h1, h2⟩ := List.sublist_append_iff.mp h
  cases l₃ with
  | nil =>
    have heq : [w, u] = l₄ := heq
    subst heq
    exact (pair_cons hn.of_append_right h2).elim
  | cons y l₃ =>
    obtain rfl : w = y := (List.cons.inj heq).1
    exact h1.subset (by simp)

theorem pair_of_mem {l₁ l₂ : List α} (h : w ∈ l₁) : [w, u].Sublist (l₁ ++ u :: l₂) :=
  (List.singleton_sublist.mpr h).append (List.singleton_sublist.mpr (by simp))

end

/-! ## The turns of a worker -/

/-- The turns so far of each worker are those that its program counter tells. -/
structure Turned (cfg : Config) (s : State) (ts : List (Nat × Turn)) : Prop where
  own : ∀ w, ts.filter (fun x => x.1 = w) = ((s.worker w).taken cfg).map (w, ·)
  le : ∀ w i, s.worker w = .waitForCpu i → i ≤ cfg.iterations

theorem turned_init (cfg : Config) : Turned cfg (initSchedQueue cfg) [] := ⟨fun _ => rfl, nofun⟩

theorem taken_le {cfg : Config} {pc : WorkerPc} (h : ∀ i, pc = .waitForCpu i → i ≤ cfg.iterations) :
    pc.taken cfg <+: allTurns cfg := by
  cases pc with
  | notCreated | enterQueue => exact List.nil_prefix
  | waitForCpu i => exact taken_queued (by simpa [WorkerPc.queued] using h i rfl)
  | leaveQueue | readNum | writeNum | finished => exact List.prefix_rfl
  | removeRunning i | removeQueue i | insertQueue i | postQueue i =>
    by_cases hi : i < cfg.iterations
    · have hq : (WorkerPc.waitForCpu (i + 1)).queued cfg = true := by simpa [WorkerPc.queued] using Nat.succ_le_of_lt hi
      simpa [WorkerPc.taken, hi] using taken_queued hq
    · simp [WorkerPc.taken, hi]

section
variable {cfg : Config} {s s' : State} {ts : List (Nat × Turn)} (h : Turned cfg s ts)
include h

theorem Turned.mem_iff {w : Nat} {t : Turn} : (w, t) ∈ ts ↔ t ∈ (s.worker w).taken cfg := by
  have := h.own w
  have hmem : (w, t) ∈ ts ↔ (w, t) ∈ ts.filter (fun x => x.1 = w) := by simp
  rw [hmem, this]
  simp

theorem Turned.keep (hw : s'.worker = s.worker) : Turned cfg s' ts := ⟨hw ▸ h.own, hw ▸ h.le⟩

theorem Turned.move {w : Nat} {pc : WorkerPc} (hw : s'.worker = (s.setWorker w pc).worker)
    (ht : pc.taken cfg = (s.worker w).taken cfg) (hle : ∀ i, pc = .waitForCpu i → i ≤ cfg.iterations) :
    Turned cfg s' ts := by
  refine ⟨?_, ?_⟩
  · intro u
    rw [worker_same (WorkerPc.taken cfg) hw ht, h.own]
  · intro u i hi
    rw [hw, State.setWorker_worker] at hi
    by_cases hu : u = w
    · exact hle i (by simpa [hu] using hi)
    · exact h.le u i (by simpa [hu] using hi)

theorem Turned.turn {w : Nat} {pc : WorkerPc} {t : Turn} (hw : s'.worker = (s.setWorker w pc).worker)
    (ht : pc.taken cfg = (s.worker w).taken cfg ++ [t]) (hle : ∀ i, pc ≠ .waitForCpu i) :
    Turned cfg s' (ts ++ [(w, t)]) := by
  refine ⟨?_, ?_⟩
  · intro u
    rw [hw, State.setWorker_worker, List.filter_append, h.own]
    by_cases hu : u = w
    · simp [hu, ht]
    · simp [hu, Ne.symm hu]
  · intro u i hi
    rw [hw, State.setWorker_worker] at hi
    by_cases hu : u = w
    · exact absurd (by simpa [hu] using hi) (hle i)
    · exact h.le u i (by simpa [hu] using hi)

/-- A worker that has had its exit turn has had it after each of its loop turns. -/
theorem Turned.exit_after {w : Nat} (hall : (s.worker w).taken cfg = allTurns cfg) {l₁ l₂ : List (Nat × Turn)}
    (heq : ts = l₁ ++ (w, .loop) :: l₂) : (w, .exit) ∈ l₂ := by
  have hown := h.own w
  rw [hall, heq, List.filter_append, List.filter_cons_of_pos (by simp)] at hown
  have hlast := congrArg List.getLast? hown
  simp only [allTurns, List.map_append, List.getLast?_append, List.getLast?_cons, List.map_cons, List.map_nil,
    Option.some_or] at hlast
  cases hl : (l₂.filter fun x => x.1 = w).getLast? with
  | none => simp [hl] at hlast
  | some x =>
    rw [hl] at hlast
    obtain rfl : x = (w, .exit) := by simpa using hlast
    exact List.mem_of_mem_filter (List.mem_of_getLast? hl)

end

theorem turned_step {cfg : Config} {s s' : State} {es : List Event} {t : Thread} {e : Option Event}
    (h : Turned cfg s (turns es)) (hc : Created cfg s) (hm : Moves cfg s t s' e) :
    Turned cfg s' (turns (es ++ e.toList)) := by
  have hnil : ∀ e : Event, turns [e] = [] → turns (es ++ [e]) = turns es := fun e he => by
    rw [turns_append, he, List.append_nil]
  cases hm with
  | startScheduler | setNum | initThread | initDone | join | cleanUp | poll | queueReady | loop | loopDone
    | peekHead | peekNull | isRunning | selected | eltNext | eltNull | postWorker | waitForWorker =>
    rw [Option.toList_none, List.append_nil]
    exact h.keep rfl
  | insertRunning w hs =>
    rw [Option.toList_some, hnil _ rfl]
    exact h.keep rfl
  | createThread i hm =>
    have hnew := hc.later i (by rw [hm]; rfl) i (Nat.le_refl i)
    rw [Option.toList_none, List.append_nil]
    exact h.move rfl (by rw [hnew]; rfl) nofun
  | enterQueue w hw =>
    rw [Option.toList_some, hnil _ rfl]
    refine h.move rfl (by rw [hw]; rfl) ?_
    simp
  | loopTurn w i n hw hn hi =>
    rw [Option.toList_some, turns_append]
    exact h.turn rfl (by simp [hw, WorkerPc.taken, hi, List.replicate_succ']) nofun
  | exitTurn w i n hw hn hi =>
    obtain rfl := Nat.le_antisymm (h.le w i hw) hi
    rw [Option.toList_some, turns_append]
    exact h.turn rfl (by rw [hw]; rfl) (by simp)
  | leaveQueue w hw | readNum w hw | fifoRemoveRunning w i hp hw | rrRemoveRunning w i hp hw | removeQueue w i hw
    | insertQueue w i hw =>
    rw [Option.toList_none, List.append_nil]
    exact h.move rfl (by rw [hw]; rfl) (by simp)
  | writeNum w num hw =>
    rw [Option.toList_none, List.append_nil]
    exact h.move rfl (by rw [hw]; simp [WorkerPc.taken]) (by simp)
  | postLoop w i hw hi =>
    rw [Option.toList_none, List.append_nil]
    refine h.move rfl (by rw [hw]; simp [WorkerPc.taken, hi]) ?_
    intro j hj
    cases hj
    exact hi
  | postExit w i hw hi =>
    rw [Option.toList_some, hnil _ rfl]
    exact h.move rfl (by rw [hw]; simp [WorkerPc.taken, Nat.not_lt.mpr hi]) (by simp)

/-! ## Arrivals -/

/-- The workers on the queue are those in the order of arrival that have not left it. -/
structure Arrives (cfg : Config) (s : State) (ins : List Nat) : Prop where
  nodup : ins.Nodup
  new : ∀ w, w ∈ ins ↔ (s.worker w).isNew = false
  queue : data s.queue = ins.filter fun w => (s.worker w).linked cfg

theorem arrives_init (cfg : Config) : Arrives cfg (initSchedQueue cfg) [] :=
  ⟨List.nodup_nil, fun _ => iff_of_false nofun nofun, rfl⟩

section
variable {cfg : Config} {s s' : State} {ins : List Nat} (h : Arrives cfg s ins)
include h

theorem Arrives.keep (hw : s'.worker = s.worker) (hq : s'.queue = s.queue) : Arrives cfg s' ins :=
  ⟨h.nodup, hw ▸ h.new, hw ▸ hq ▸ h.queue⟩

theorem Arrives.move {w : Nat} {pc : WorkerPc} (hw : s'.worker = (s.setWorker w pc).worker)
    (hq : s'.queue = s.queue) (hn : pc.isNew = (s.worker w).isNew)
    (hl : pc.linked cfg = (s.worker w).linked cfg) : Arrives cfg s' ins := by
  refine ⟨h.nodup, ?_, ?_⟩
  · intro u
    rw [h.new, hw, State.setWorker_worker]
    by_cases hu : u = w
    · simp [hu, hn]
    · simp [hu]
  · rw [hq, h.queue]
    apply List.filter_congr
    intro u _
    rw [hw, State.setWorker_worker]
    by_cases hu : u = w
    · simp [hu, hl]
    · simp [hu]

theorem Arrives.arrive {w : Nat} {pc : WorkerPc} (hw : s'.worker = (s.setWorker w pc).worker)
    (hq : data s'.queue = data s.queue ++ [w]) (hold : (s.worker w).isNew = true) (hnew : pc.isNew = false)
    (hl : pc.linked cfg = true) : Arrives cfg s' (ins ++ [w]) := by
  have hnot : w ∉ ins := by
    intro hm
    rw [(h.new w).mp hm] at hold
    cases hold
  refine ⟨List.nodup_append'.mpr ⟨h.nodup, List.nodup_singleton w, by simpa using hnot⟩, ?_, ?_⟩
  · intro u
    rw [hw, State.setWorker_worker, List.mem_append, h.new]
    by_cases hu : u = w
    · simp [hu, hnew]
    · simp [hu]
  · have hsame : ins.filter (fun u => (s'.worker u).linked cfg) = ins.filter fun u => (s.worker u).linked cfg := by
      apply List.filter_congr
      intro u hu
      rw [hw, State.setWorker_ne]
      rintro rfl
      exact hnot hu
    rw [hq, h.queue, List.filter_append, hsame]
    simp [hw, hl]

theorem Arrives.leave {w : Nat} {pc : WorkerPc} (hw : s'.worker = (s.setWorker w pc).worker)
    (hq : data s'.queue = (data s.queue).erase w) (hold : (s.worker w).isNew = false)
    (hnew : pc.isNew = false) (hl : pc.linked cfg = false) : Arrives cfg s' ins := by
  refine ⟨h.nodup, ?_, ?_⟩
  · intro u
    rw [hw, State.setWorker_worker, h.new]
    by_cases hu : u = w
    · simp [hu, hold, hnew]
    · simp [hu]
  · rw [hq, h.queue, (h.nodup.filter _).erase_eq_filter, List.filter_filter]
    apply List.filter_congr
    intro u _
    rw [hw, State.setWorker_worker]
    by_cases hu : u = w
    · simp [hu, hl]
    · simp [hu]

theorem Arrives.pair {w u : Nat} (hp : [w, u].Sublist ins) (hw : w ∈ data s.queue) (hu : u ∈ data s.queue) :
    [w, u].Sublist (data s.queue) := by
  rw [h.queue] at hw hu ⊢
  have hsub := hp.filter fun w => (s.worker w).linked cfg
  simpa [(List.mem_filter.mp hw).2, (List.mem_filter.mp hu).2] using hsub

end

theorem arrives_step {cfg : Config} (hp : cfg.policy = .fifo) {s s' : State} {es : List Event} {t : Thread}
    {e : Option Event} (h : Arrives cfg s (inserted es)) (hc : Created cfg s) (hq : Queued cfg s)
    (hm : Moves cfg s t s' e) : Arrives cfg s' (inserted (es ++ e.toList)) := by
  have hnil : ∀ e : Event, inserted [e] = [] → inserted (es ++ [e]) = inserted es := fun e he => by
    rw [inserted_append, he, List.append_nil]
  cases hm with
  | startScheduler | setNum | initThread | initDone | join | cleanUp | poll | queueReady | loop | loopDone
    | peekHead | peekNull | isRunning | selected | eltNext | eltNull | postWorker | waitForWorker =>
    rw [Option.toList_none, List.append_nil]
    exact h.keep rfl rfl
  | insertRunning w hs =>
    rw [Option.toList_some, hnil _ rfl]
    exact h.keep rfl rfl
  | createThread i hm =>
    have hnew := hc.later i (by rw [hm]; rfl) i (Nat.le_refl i)
    rw [Option.toList_none, List.append_nil]
    exact h.move rfl rfl (by rw [hnew]; rfl) (by rw [hnew]; rfl)
  | enterQueue w hw =>
    rw [Option.toList_some, inserted_append]
    exact h.arrive rfl (data_append ..) (by rw [hw]; rfl) rfl rfl
  | leaveQueue w hw =>
    rw [Option.toList_none, List.append_nil]
    exact h.leave rfl (data_removeItem w s.queue) (by rw [hw]; rfl) rfl rfl
  | loopTurn w i n hw hn hi =>
    rw [Option.toList_some, hnil _ rfl]
    exact h.move rfl rfl (by rw [hw]; rfl) (by simp [hw, WorkerPc.linked, hi])
  | exitTurn w i n hw =>
    rw [Option.toList_some, hnil _ rfl]
    exact h.move rfl rfl (by rw [hw]; rfl) (by rw [hw]; rfl)
  | readNum w hw =>
    rw [Option.toList_none, List.append_nil]
    exact h.move rfl rfl (by rw [hw]; rfl) (by rw [hw]; rfl)
  | writeNum w num hw =>
    rw [Option.toList_none, List.append_nil]
    exact h.move rfl rfl (by rw [hw]; rfl) (by simp [hw, WorkerPc.linked])
  | fifoRemoveRunning w i hp' hw =>
    rw [Option.toList_none, List.append_nil]
    exact h.move rfl rfl (by rw [hw]; rfl) (by simp [hw, WorkerPc.linked, hp])
  | rrRemoveRunning w i hrr =>
    rw [hp] at hrr
    cases hrr
  | removeQueue w i hw => exact absurd (Or.inl hw) (hq.no_reinsert hp w i)
  | insertQueue w i hw => exact absurd (Or.inr hw) (hq.no_reinsert hp w i)
  | postLoop w i hw hi =>
    rw [Option.toList_none, List.append_nil]
    exact h.move rfl rfl (by rw [hw]; rfl) (by simp [hw, WorkerPc.linked, hi])
  | postExit w i hw hi =>
    rw [Option.toList_some, hnil _ rfl]
    exact h.move rfl rfl (by rw [hw]; rfl) (by simp [hw, WorkerPc.linked, hp, Nat.not_lt.mpr hi])

/-! ## Runs -/

theorem turned_run {cfg : Config} {es : List Thread} {s : State} {tr : List (Thread × Option Event)}
    (hr : run (step cfg) (initSchedQueue cfg) es = some (s, tr)) :
    Created cfg s ∧ Turned cfg s (turns (events tr)) := by
  refine run_hist (I := fun s tr => Created cfg s ∧ Turned cfg s (turns (events tr))) (g := []) ?_
    ⟨created_init cfg, turned_init cfg⟩ (guarded_true _ es) hr
  rintro s tr t s' e ⟨hc, ht⟩ - hst
  have hm := step_moves hst
  rw [events_snoc]
  exact ⟨created_step hc hm, turned_step ht hc hm⟩

theorem arrives_run {cfg : Config} (hp : cfg.policy = .fifo) {es : List Thread} {s : State}
    {tr : List (Thread × Option Event)} (hr : run (step cfg) (initSchedQueue cfg) es = some (s, tr)) :
    Arrives cfg s (inserted (events tr)) := by
  have hI : Created cfg s ∧ Queued cfg s ∧ Arrives cfg s (inserted (events tr)) := by
    refine run_hist (I := fun s tr => Created cfg s ∧ Queued cfg s ∧ Arrives cfg s (inserted (events tr))) (g := []) ?_
      ⟨created_init cfg, queued_init cfg, arrives_init cfg⟩ (guarded_true _ es) hr
    rintro s tr t s' e ⟨hc, hq, ha⟩ - hst
    have hm := step_moves hst
    rw [events_snoc]
    exact ⟨created_step hc hm, queued_step hq hc hm, arrives_step hp ha hc hq hm⟩
  exact hI.2.2

end OsLabs.Sched
