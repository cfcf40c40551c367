import OsLabs.SchedHeard
import OsLabs.SchedVerdict

/-!
# The first in first out test

`check_executed_fifo` accepts the log of a complete run if and only if the turns
in it are those of one worker after the other. With queue size 1 they are.
-/

namespace OsLabs.Sched

open Stdio

/-- The turns are those of one worker after the other. -/
def InTurn (cfg : Config) (ts : List (Nat × Turn)) : Prop := ∃ ws : List Nat, ts = ws.flatMap fun w => (allTurns cfg).map (w, ·)

/-- What `check_executed_fifo` does with a turn. -/
def fifoTurn (ids : Ids) (iterations : Nat) (s : FifoCheck) : Nat × Turn → Option FifoCheck
  | (w, .loop) =>
    if s.prevThread = 0 then some ⟨ids.worker w, s.counter + 1⟩
    else if s.prevThread ≠ ids.worker w then none
    else some { s with counter := s.counter + 1 }
  | (_, .exit) => if s.counter ≠ iterations then none else some ⟨0, 0⟩

section
variable {cfg : Config} {ids : Ids} {log : List Line}

theorem fifoLine_text (ids : Ids) {l : Line} (hl : l.InRange) (k : Nat) (s : FifoCheck) : fifoLine k s (l.text ids) =
    match l.turn? with
    | none => some s
    | some x => fifoTurn ids k s x := by
  rw [fifoLine, sscanf_loop hl, sscanf_exiting hl]
  cases l <;> rfl

theorem reads_fifo (h : ∀ l ∈ log, l.InRange) (k : Nat) (s : FifoCheck) :
    reads (fifoLine k) ids log s = (logTurns log).foldlM (fifoTurn ids k) s := by
  induction log generalizing s with
  | nil => rfl
  | cons l log ih =>
    obtain ⟨hl, hlog⟩ := List.forall_mem_cons.mp h
    have hline := fifoLine_text ids hl k s
    rw [reads_bind, hline]
    cases hx : l.turn? with
    | none =>
      rw [logTurns, List.filterMap_cons_none hx]
      exact ih hlog s
    | some x =>
      rw [logTurns, List.filterMap_cons_some hx, List.foldlM_cons]
      show (fifoTurn ids k s x).bind _ = (fifoTurn ids k s x).bind _
      exact congrArg _ (funext fun s' => ih hlog s')

/-! ## What is accepted -/

theorem fifo_loops (w k c : Nat) : (List.replicate c (w, Turn.loop)).foldlM (fifoTurn ids k) ⟨0, 0⟩ =
    some ⟨if c = 0 then 0 else ids.worker w, c⟩ := by
  induction c with
  | zero => rfl
  | succ c ih =>
    have hturn : fifoTurn ids k ⟨if c = 0 then 0 else ids.worker w, c⟩ (w, .loop) = some ⟨ids.worker w, c + 1⟩ := by
      by_cases hc : c = 0
      · simp [fifoTurn, hc]
      · simp [fifoTurn, hc]
    rw [List.replicate_succ', foldlM_bind, ih, Option.bind_some, List.foldlM_cons, hturn]
    rfl

theorem fifo_accepts (ids : Ids) {ts : List (Nat × Turn)} (h : InTurn cfg ts) :
    ts.foldlM (fifoTurn ids cfg.iterations) ⟨0, 0⟩ = some ⟨0, 0⟩ := by
  obtain ⟨ws, rfl⟩ := h
  induction ws with
  | nil => rfl
  | cons w ws ih =>
    have hblock : ((allTurns cfg).map (w, ·)).foldlM (fifoTurn ids cfg.iterations) ⟨0, 0⟩ = some ⟨0, 0⟩ := by
      rw [allTurns, List.map_append, List.map_replicate, foldlM_bind, fifo_loops, Option.bind_some]
      simp [fifoTurn]
    rw [List.flatMap_cons, foldlM_bind, hblock, Option.bind_some, ih]

theorem count_turns (h : Follows cfg log) (w : Nat) :
    (logTurns log).count (w, .loop) = min (progress w log - 1) cfg.iterations ∧
      ((w, Turn.exit) ∈ logTurns log ↔ progress w log = cfg.iterations + 2) := by
  induction log using List.reverseRecOn with
  | nil => simp [logTurns, progress, linesOf]
  | append_singleton log l ih =>
    obtain ⟨hcount, hexit⟩ := ih h.init
    rw [logTurns_snoc, List.count_append, List.mem_append, hcount, hexit]
    by_cases hw : l.speaker = .worker w
    · rw [progress_self hw]
      cases l with
      | inQueue v =>
        obtain rfl : v = w := by simpa [Line.speaker] using hw
        simp [Line.turn?, h.inQueue.2]
      | loop v i =>
        obtain rfl : v = w := by simpa [Line.speaker] using hw
        obtain ⟨-, hi, hp⟩ := h.loop
        simp only [Line.turn?, Option.toList_some, hp, List.count_singleton_self, List.mem_singleton, Prod.mk.injEq, true_and,
          reduceCtorEq, or_false]
        omega
      | exiting v =>
        obtain rfl : v = w := by simpa [Line.speaker] using hw
        have hp := h.exiting.2
        simp [Line.turn?, hp]
      | running | detaching | waiting | done => cases hw
    · rw [progress_other hw]
      have hne : ∀ x, l.turn? = some x → x.1 ≠ w := by
        intro x hx heq
        cases l with
        | loop v i =>
          cases hx
          exact hw (congrArg Thread.worker heq)
        | exiting v =>
          cases hx
          exact hw (congrArg Thread.worker heq)
        | running | detaching | waiting | inQueue | done => cases hx
      cases hx : l.turn? with
      | none => simp
      | some x =>
        have hx1 := hne x hx
        have hloop : x ≠ (w, .loop) := fun heq => hx1 (by rw [heq])
        have hexit' : (w, Turn.exit) ≠ x := fun heq => hx1 (by rw [← heq])
        simp [hexit', hloop]

theorem count_blocks (cfg : Config) (w : Nat) (ws : List Nat) :
    (w ∉ ws → (ws.flatMap fun u => (allTurns cfg).map (u, ·)).count (w, .loop) = 0) ∧
      (w ∈ ws → cfg.iterations ≤ (ws.flatMap fun u => (allTurns cfg).map (u, ·)).count (w, .loop)) := by
  refine ⟨fun hw => ?_, fun hw => ?_⟩
  · rw [List.count_eq_zero]
    intro hmem
    obtain ⟨u, hu, hx⟩ := List.mem_flatMap.mp hmem
    obtain ⟨x, -, heq⟩ := List.mem_map.mp hx
    cases heq
    exact hw hu
  · obtain ⟨xs, ys, rfl⟩ := List.append_of_mem hw
    have hblock : cfg.iterations ≤ ((allTurns cfg).map (w, ·)).count (w, Turn.loop) := by
      rw [allTurns, List.map_append, List.map_replicate, List.count_append, List.count_replicate_self]
      exact Nat.le_add_right _ _
    rw [List.flatMap_append, List.flatMap_cons, List.count_append, List.count_append]
    omega

/-- While nothing has been rejected, workers have had all their turns in a row, and one more has begun. -/
structure Admitted (cfg : Config) (ids : Ids) (log : List Line) (s : FifoCheck) (ws : List Nat) (w c : Nat) : Prop where
  turns : logTurns log = (ws.flatMap fun u => (allTurns cfg).map (u, ·)) ++ List.replicate c (w, .loop)
  counter : s.counter = c
  prevThread : s.prevThread = if c = 0 then 0 else (ids.worker w : Int)
  known : 0 < c → w < cfg.threadCount

theorem admitted_log (hid : ids.Distinct cfg) (hnz : ∀ w, w < cfg.threadCount → ids.worker w ≠ 0) (hk : cfg.iterations ≤ intMax)
    (h : Follows cfg log) {s : FifoCheck} (hs : reads (fifoLine cfg.iterations) ids log ⟨0, 0⟩ = some s) :
    ∃ ws w c, Admitted cfg ids log s ws w c := by
  induction log using List.reverseRecOn generalizing s with
  | nil =>
    cases hs
    exact ⟨[], 0, 0, rfl, rfl, rfl, nofun⟩
  | append_singleton log l ih =>
    have hl := h.inRange hk (List.mem_append_right log (List.mem_singleton_self l))
    rw [reads_snoc, Option.bind_eq_some_iff] at hs
    obtain ⟨s₀, hs₀, hline⟩ := hs
    obtain ⟨ws, w, c, ha⟩ := ih h.init hs₀
    rw [fifoLine_text ids hl] at hline
    cases l with
    | running | detaching | waiting | inQueue | done =>
      cases hline
      exact ⟨ws, w, c, by rw [logTurns_snoc, ha.turns]; simp [Line.turn?], ha.counter, ha.prevThread, ha.known⟩
    | loop u i =>
      have hu := h.loop.1
      simp only [Line.turn?, fifoTurn, ha.counter, ha.prevThread] at hline
      by_cases hc : c = 0
      · subst hc
        rw [if_pos (if_pos rfl)] at hline
        cases hline
        exact ⟨ws, u, 1, by rw [logTurns_snoc, ha.turns]; simp [Line.turn?], by simp, by simp, fun _ => hu⟩
      · have hw := ha.known (Nat.pos_of_ne_zero hc)
        have hwz := hnz w hw
        rw [if_neg hc, if_neg (by exact_mod_cast hwz)] at hline
        split at hline
        · cases hline
        · rename_i heq
          have heq : ids.worker w = ids.worker u := by exact_mod_cast Decidable.not_not.mp heq
          obtain rfl := hid w u hw hu (by rw [heq])
          cases hline
          refine ⟨ws, w, c + 1, ?_, by simp, by simp [hc], fun _ => hw⟩
          rw [logTurns_snoc, ha.turns, List.append_assoc, List.replicate_succ']
          rfl
    | exiting u =>
      obtain ⟨hu, hp⟩ := h.exiting
      simp only [Line.turn?, fifoTurn, ha.counter] at hline
      split at hline
      · cases hline
      · rename_i hck
        have hck : c = cfg.iterations := by exact_mod_cast Decidable.not_not.mp hck
        cases hline
        -- it is the worker whose turns have been read: nobody else has had that many of its own
        have hsame : c = 0 ∨ u = w := by
          rcases Nat.eq_zero_or_pos c with hc | hc
          · exact Or.inl hc
          · right
            by_contra hne
            obtain ⟨hcount, hexit⟩ := count_turns h.init u
            have hnot : u ∉ ws := by
              intro hmem
              have hin : (u, Turn.exit) ∈ logTurns log := by
                rw [ha.turns]
                refine List.mem_append_left _ (List.mem_flatMap.mpr ⟨u, hmem, ?_⟩)
                simp [allTurns]
              rw [hexit, hp] at hin
              omega
            have hrep : (List.replicate c (w, Turn.loop)).count (u, .loop) = 0 := by
              rw [List.count_replicate, if_neg]
              simpa using Ne.symm hne
            rw [ha.turns, List.count_append, (count_blocks cfg u ws).1 hnot, hrep, hp] at hcount
            omega
        refine ⟨ws ++ [u], 0, 0, ?_, rfl, rfl, nofun⟩
        have hrep : List.replicate c (w, Turn.loop) = List.replicate cfg.iterations (u, Turn.loop) := by
          rcases hsame with hc | rfl
          · rw [← hck, hc]
            rfl
          · rw [hck]
        rw [logTurns_snoc, ha.turns, hrep]
        simp [Line.turn?, allTurns]

/-- `check_executed_fifo` accepts exactly the logs with one worker after the other. -/
theorem fifo_exact (hid : ids.Distinct cfg) (hnz : ∀ w, w < cfg.threadCount → ids.worker w ≠ 0) (hk : cfg.iterations ≤ intMax)
    (h : Whole cfg log) : (reads (fifoLine cfg.iterations) ids log ⟨0, 0⟩).isSome = true ↔ InTurn cfg (logTurns log) := by
  constructor
  · intro hsome
    obtain ⟨s, hs⟩ := Option.isSome_iff_exists.mp hsome
    obtain ⟨ws, w, c, ha⟩ := admitted_log hid hnz hk h.follows hs
    rcases Nat.eq_zero_or_pos c with rfl | hc
    · exact ⟨ws, by simpa using ha.turns⟩
    · exfalso
      have hp := h.progress (ha.known hc)
      obtain ⟨hcount, hexit⟩ := count_turns h.follows w
      have hin := hexit.mpr hp
      rw [ha.turns] at hin
      rcases List.mem_append.mp hin with hin | hin
      · obtain ⟨u, hu, hx⟩ := List.mem_flatMap.mp hin
        obtain ⟨x, -, heq⟩ := List.mem_map.mp hx
        cases heq
        have hblocks := (count_blocks cfg w ws).2 hu
        rw [ha.turns, List.count_append, List.count_replicate_self, hp] at hcount
        omega
      · cases (List.mem_replicate.mp hin).2
  · intro hturn
    rw [reads_fifo (fun l hl => h.follows.inRange hk hl)]
    have hacc := fifo_accepts ids hturn
    simp only [hacc, Option.isSome_some]

end

theorem whole_log {cfg : Config} {es : List Thread} {m : Talk State Thread Line} {tr : List (Thread × (Option Event ⊕ Line))}
    (hr : run (logStep cfg) (logStart cfg) es = some (m, tr)) (hm : Complete cfg m) : Whole cfg (said tr) :=
  ⟨follows_run hr, fun _ hw => whole_run hr hm hw⟩

theorem inTurn_run {cfg : Config} (hp : cfg.policy = .fifo) (hq : cfg.queueSize = 1) {es : List Thread}
    {m : Talk State Thread Line} {tr : List (Thread × (Option Event ⊕ Line))}
    (hr : run (logStep cfg) (logStart cfg) es = some (m, tr)) (hm : Complete cfg m) : InTurn cfg (logTurns (said tr)) := by
  obtain ⟨es', hes⟩ := acted_run hr
  obtain ⟨hc, -, -, -, gone, hfifo⟩ := fifo_run hp hq hes
  exact ⟨_, (logTurns_run hq hr hm).trans (hfifo.complete hc hm.finished).2⟩

/-- The first in first out test on what a complete run has printed, when the ids
of all workers of the run differ as `int`s (none is used again) and are not 0, and
the command line is in the range of `int`, its iterations below `INT_MAX`. It
accepts if and only if the last line is the scheduler's, never more workers than
the queue size were between their first and their last line, and the turns are
those of one worker after the other; with queue size 1 they are. -/
theorem check_fifo_log (cfg : Config) (ids : Ids) (hid : ids.Distinct cfg) (hnz : ∀ w, w < cfg.threadCount → ids.worker w ≠ 0)
    (hc : cfg.InRange) (es : List Thread) (m : Talk State Thread Line) (tr : List (Thread × (Option Event ⊕ Line)))
    (hr : run (logStep cfg) (logStart cfg) es = some (m, tr)) (hm : Complete cfg m) :
    (∃ b, checkFifo (logText ids (logOf cfg tr)) cfg.queueSize cfg.threadCount cfg.iterations = some b ∧
      (b = true ↔ (said tr).getLast? = some .done ∧ Fits cfg.queueSize (said tr) ∧ InTurn cfg (logTurns (said tr)))) ∧
    (cfg.policy = .fifo → cfg.queueSize = 1 → InTurn cfg (logTurns (said tr))) := by
  refine ⟨?_, fun hp hq => inTurn_run hp hq hr hm⟩
  have hw := whole_log hr hm
  obtain ⟨b, hb, hiff⟩ := checkRudimentary_log hid hc hw
  rw [checkFifo, logOf, hb]
  cases b with
  | false =>
    refine ⟨false, rfl, ?_⟩
    simp only [Bool.false_eq_true, false_iff, not_and] at hiff ⊢
    exact fun hlast hfits => absurd hfits (hiff hlast)
  | true =>
    obtain ⟨hlast, hfits⟩ := hiff.mp rfl
    have hrange := hw.inRange hc
    have hrunning := fifoLine_text ids (hrange _ List.mem_cons_self) cfg.iterations ⟨0, 0⟩
    have hdone := fun s => fifoLine_text ids (show Line.done.InRange from trivial) cfg.iterations s
    have hexact := fifo_exact hid hnz hc.iterations.le hw
    simp only [checkExecutedFifo, eachRound_whole hrunning hdone hrange hlast]
    cases hreads : reads (fifoLine cfg.iterations) ids (said tr) ⟨0, 0⟩ with
    | none =>
      rw [hreads] at hexact
      refine ⟨false, rfl, ?_⟩
      simpa [hlast, hfits] using hexact
    | some s =>
      rw [hreads] at hexact
      refine ⟨true, rfl, ?_⟩
      simpa [hlast, hfits] using hexact

/-- Two workers, with a loop each. -/
def twoWorkers (policy : Policy) : Config := ⟨policy, 1, 2, 1⟩

def twoIds : Ids := ⟨fun w => if w = 0 then 7 else 9, 8, fun w => by split <;> decide, by decide⟩

theorem twoIds_distinct (policy : Policy) : twoIds.Distinct (twoWorkers policy) := fun v w hv hw =>
  (by decide : ∀ v < 2, ∀ w < 2, toInt (twoIds.worker v) = toInt (twoIds.worker w) → v = w) v hv w hw

theorem twoWorkers_inRange (policy : Policy) : (twoWorkers policy).InRange :=
  ⟨show 2 ≤ intMax by decide, show 1 ≤ intMax by decide, show 1 < intMax by decide⟩

/-- The steps of one thread after the other, so many at a time. -/
def bursts (bs : List (Thread × Nat)) : List Thread := bs.flatMap fun b => List.replicate b.2 b.1

/-- Worker 1 comes when worker 0 has finished. -/
def lateSchedule : List Thread :=
  bursts [(.main, 10), (.worker 0, 2), (.sched, 6), (.worker 0, 4), (.sched, 6), (.worker 0, 7), (.sched, 20),
    (.worker 1, 2), (.sched, 4), (.worker 1, 4), (.sched, 6), (.worker 1, 7), (.sched, 3), (.main, 2)]

def lateLog : List Line :=
  [.detaching 0, .detaching 1, .waiting, .inQueue 0, .loop 0 0, .exiting 0, .inQueue 1, .loop 1 0, .exiting 1, .done]

/-- Worker 1 comes while worker 0 is in the queue. -/
def earlySchedule : List Thread :=
  bursts [(.main, 10), (.worker 0, 2), (.worker 1, 2), (.sched, 6), (.worker 0, 4), (.sched, 6), (.worker 0, 7),
    (.sched, 6), (.worker 1, 4), (.sched, 6), (.worker 1, 7), (.sched, 3), (.main, 2)]

def earlyLog : List Line :=
  [.detaching 0, .detaching 1, .waiting, .inQueue 0, .inQueue 1, .loop 0 0, .exiting 0, .loop 1 0, .exiting 1, .done]

/-- Both runs are one worker after the other, but in the second one both workers are in the queue at once. -/
theorem check_fifo_log_two :
    (∃ m tr, run (logStep (twoWorkers .fifo)) (logStart (twoWorkers .fifo)) lateSchedule = some (m, tr) ∧
      said tr = lateLog ∧ checkFifo (logText twoIds (logOf (twoWorkers .fifo) tr)) 1 2 1 = some true) ∧
    ∃ m tr, run (logStep (twoWorkers .fifo)) (logStart (twoWorkers .fifo)) earlySchedule = some (m, tr) ∧
      said tr = earlyLog ∧ checkFifo (logText twoIds (logOf (twoWorkers .fifo) tr)) 1 2 1 = some false := by
  have hnz : ∀ w, w < 2 → twoIds.worker w ≠ 0 := by decide
  constructor
  · have hend : (run (logStep (twoWorkers .fifo)) (logStart (twoWorkers .fifo)) lateSchedule).map
        (fun r => (said r.2, decide (Complete (twoWorkers .fifo) r.1))) = some (lateLog, true) := by decide +kernel
    obtain ⟨m, tr, hr, hsaid, hm⟩ := complete_run hend
    obtain ⟨⟨b, hb, hiff⟩, hturns⟩ := check_fifo_log (twoWorkers .fifo) twoIds (twoIds_distinct .fifo) hnz
      (twoWorkers_inRange .fifo) lateSchedule m tr hr hm
    have hfits : Fits 1 (said tr) := by
      rw [hsaid]
      decide
    have hlast : (said tr).getLast? = some .done := by
      rw [hsaid]
      rfl
    exact ⟨m, tr, hr, hsaid, hb.trans (congrArg some (hiff.mpr ⟨hlast, hfits, hturns rfl rfl⟩))⟩
  · have hend : (run (logStep (twoWorkers .fifo)) (logStart (twoWorkers .fifo)) earlySchedule).map
        (fun r => (said r.2, decide (Complete (twoWorkers .fifo) r.1))) = some (earlyLog, true) := by decide +kernel
    obtain ⟨m, tr, hr, hsaid, hm⟩ := complete_run hend
    obtain ⟨⟨b, hb, hiff⟩, -⟩ := check_fifo_log (twoWorkers .fifo) twoIds (twoIds_distinct .fifo) hnz
      (twoWorkers_inRange .fifo) earlySchedule m tr hr hm
    have hnot : ¬ Fits 1 (said tr) := by
      rw [hsaid]
      decide
    exact ⟨m, tr, hr, hsaid, hb.trans (congrArg some (Bool.eq_false_iff.mpr fun htrue => hnot (hiff.mp htrue).2.1))⟩

end OsLabs.Sched
