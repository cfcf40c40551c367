import OsLabs.SchedLog
import OsLabs.SchedRounds

/-!
# The turns in the log

With queue size 1 a worker that has a turn prints its line before the next turn
of anybody: at most one line is late, and the log has the turns in their order.
-/

namespace OsLabs.Sched

def Line.turn? : Line → Option (Nat × Turn)
  | .loop w _ => some (w, .loop)
  | .exiting w => some (w, .exit)
  | .running .. | .detaching _ | .waiting | .inQueue _ | .done => none

def logTurns (log : List Line) : List (Nat × Turn) := log.filterMap Line.turn?

theorem logTurns_snoc (log : List Line) (l : Line) : logTurns (log ++ [l]) = logTurns log ++ l.turn?.toList := by
  rw [logTurns, List.filterMap_append]
  cases h : l.turn? <;> simp [logTurns, h]

/-- The log has all turns so far, or all but the one whose line is late. -/
inductive Heard (m : Talk State Thread Line) (es : List Event) (log : List Line) : Prop
  | all (h : logTurns log = turns es) (hun : ∀ w l, m.unsaid (.worker w) = some l → l.turn? = none)
  | late (w : Nat) (l : Line) (x : Nat × Turn) (h : logTurns log ++ [x] = turns es)
    (hl : m.unsaid (.worker w) = some l) (hx : l.turn? = some x) (hrest : (m.state.worker w).atRest = false)
    (hun : ∀ u l', u ≠ w → m.unsaid (.worker u) = some l' → l'.turn? = none)

section
variable {cfg : Config} {s s' : State} {t : Thread} {e : Option Event}

theorem turn?_speaker {l : Line} {x : Nat × Turn} (h : l.turn? = some x) : ∃ w, l.speaker = .worker w := by
  cases l with
  | loop w i => exact ⟨w, rfl⟩
  | exiting w => exact ⟨w, rfl⟩
  | running | detaching | waiting | inQueue | done => cases h

/-- The turns are the steps after which a worker has a line about a turn to print. -/
theorem turns_tells (hm : Moves cfg s t s' e) : turns e.toList = ((tells cfg s t).bind Line.turn?).toList := by
  cases hm with
  | startScheduler h | setNum h | initThread i h hi | initDone i h hi | createThread i h | join h | cleanUp h =>
    cases hl : tells cfg s .main with
    | none => rfl
    | some l =>
      cases hx : l.turn? with
      | none => simp [hx, turns]
      | some x =>
        obtain ⟨w, hw⟩ := turn?_speaker hx
        rw [tells_speaker hl] at hw
        cases hw
  | poll | queueReady | loop | loopDone | peekHead | peekNull | isRunning | selected | eltNext | eltNull | insertRunning
    | postWorker | waitForWorker =>
    cases hl : tells cfg s .sched with
    | none => rfl
    | some l =>
      cases hx : l.turn? with
      | none => simp [hx, turns]
      | some x =>
        obtain ⟨w, hw⟩ := turn?_speaker hx
        rw [tells_speaker hl] at hw
        cases hw
  | loopTurn w i n hw hn hi => simp [tells, hw, hi, Line.turn?, turns]
  | exitTurn w i n hw hn hi => simp [tells, hw, Nat.not_lt.mpr hi, Line.turn?, turns]
  | enterQueue w hw | leaveQueue w hw | readNum w hw | writeNum w num hw | fifoRemoveRunning w i hp hw
    | rrRemoveRunning w i hp hw | removeQueue w i hw | insertQueue w i hw | postLoop w i hw hi | postExit w i hw hi =>
    simp [tells, hw, Line.turn?, turns]

/-- Who has a turn has been woken up, and is not at rest then. -/
theorem turn_woken (hm : Moves cfg s t s' e) {l : Line} {x : Nat × Turn} (hl : tells cfg s t = some l)
    (hx : l.turn? = some x) : ∃ w, t = .worker w ∧ s.infoSem w ≠ 0 ∧ (s'.worker w).atRest = false := by
  obtain ⟨w, hw⟩ := turn?_speaker hx
  obtain rfl := (tells_speaker hl).symm.trans hw
  refine ⟨w, rfl, ?_⟩
  cases hm with
  | loopTurn _ i n hw hn hi =>
    rw [State.setWorker_self, hn]
    exact ⟨Nat.succ_ne_zero n, rfl⟩
  | exitTurn _ i n hw hn hi =>
    rw [State.setWorker_self, hn]
    exact ⟨Nat.succ_ne_zero n, rfl⟩
  | enterQueue _ hw =>
    simp only [tells, hw, Option.some.injEq] at hl
    subst hl
    cases hx
  | leaveQueue _ hw | readNum _ hw | writeNum _ num hw | fifoRemoveRunning _ i hp hw | rrRemoveRunning _ i hp hw
    | removeQueue _ i hw | insertQueue _ i hw | postLoop _ i hw hi | postExit _ i hw hi => simp [tells, hw] at hl

/-- A worker that is not at rest stays where it is while others have steps. -/
theorem awake_stays (hc : Created cfg s) (hm : Moves cfg s t s' e) {w : Nat} (ht : t ≠ .worker w)
    (hw : (s.worker w).atRest = false) : s'.worker w = s.worker w := by
  cases t with
  | main =>
    cases hm with
    | startScheduler | setNum | initThread | initDone | join | cleanUp => rfl
    | createThread i h =>
      refine State.setWorker_ne s ?_ _
      rintro rfl
      rw [hc.later w (by rw [h]; rfl) w (Nat.le_refl w)] at hw
      cases hw
  | sched => cases hm <;> rfl
  | worker u => exact worker_others hm fun heq => ht (by rw [heq])

end

section
variable {cfg : Config} {m : Talk State Thread Line} {es : List Event} {log : List Line}

theorem Heard.act (h : Heard m es log) {p : Phase} (hsing : Single m.state p) (hc : Created cfg m.state) {t : Thread}
    {s' : State} {e : Option Event} (hun : m.unsaid t = none) (hm : Moves cfg m.state t s' e) :
    Heard ⟨s', Function.update m.unsaid t (tells cfg m.state t)⟩ (es ++ e.toList) log := by
  have hturns := turns_tells hm
  cases hl : tells cfg m.state t with
  | none =>
    rw [hl] at hturns
    cases h with
    | all h hall =>
      refine .all (by rw [turns_append, hturns, h]; simp) fun w l hw => ?_
      by_cases ht : Thread.worker w = t
      · simp [ht] at hw
      · exact hall w l (by simpa [ht] using hw)
    | late w l x h hlate hx hrest hall =>
      have ht : t ≠ .worker w := by
        rintro rfl
        rw [hun] at hlate
        cases hlate
      refine .late w l x (by rw [turns_append, hturns, h]; simp) (by simp [Ne.symm ht, hlate]) hx ?_ fun u l' hu hw => ?_
      · show (s'.worker w).atRest = false
        rw [awake_stays hc hm ht hrest, hrest]
      · by_cases htu : Thread.worker u = t
        · simp [htu] at hw
        · exact hall u l' hu (by simpa [htu] using hw)
  | some l =>
    rw [hl] at hturns
    cases hx : l.turn? with
    | none =>
      rw [Option.bind_some, hx] at hturns
      cases h with
      | all h hall =>
        refine .all (by rw [turns_append, hturns, h]; simp) fun w l' hw => ?_
        by_cases ht : Thread.worker w = t
        · obtain rfl : l = l' := by simpa [ht] using hw
          exact hx
        · exact hall w l' (by simpa [ht] using hw)
      | late w l₀ x h hlate hx₀ hrest hall =>
        have ht : t ≠ .worker w := by
          rintro rfl
          rw [hun] at hlate
          cases hlate
        refine .late w l₀ x (by rw [turns_append, hturns, h]; simp) (by simp [Ne.symm ht, hlate]) hx₀ ?_ fun u l' hu hw => ?_
        · show (s'.worker w).atRest = false
          rw [awake_stays hc hm ht hrest, hrest]
        · by_cases htu : Thread.worker u = t
          · obtain rfl : l = l' := by simpa [htu] using hw
            exact hx
          · exact hall u l' hu (by simpa [htu] using hw)
    | some x =>
      obtain ⟨v, rfl, hsem, hawake⟩ := turn_woken hm hl hx
      -- nobody else is awake, so no line about a turn is late
      have hp : p = .woken v := by
        by_contra hne
        exact hsem (by rw [hsing.infoSem, if_neg hne])
      cases h with
      | late w l₀ x₀ h hlate hx₀ hrest hall =>
        rw [hsing.rest, hp] at hrest
        simp at hrest
      | all h hall =>
        rw [Option.bind_some, hx] at hturns
        refine .late v l x (by rw [turns_append, hturns, h]; rfl) (by simp) hx hawake fun u l' hu hw => ?_
        exact hall u l' (by simpa [hu] using hw)

theorem Heard.say (h : Heard m es log) (hs : Spoken cfg m log) {t : Thread} {l : Line} (hun : m.unsaid t = some l) :
    Heard ⟨m.state, Function.update m.unsaid t none⟩ es (log ++ [l]) := by
  have hquiet : ∀ w l', (∀ l', m.unsaid (.worker w) = some l' → l'.turn? = none) →
      Function.update m.unsaid t none (.worker w) = some l' → l'.turn? = none := by
    intro w l' hall hw
    by_cases ht : Thread.worker w = t
    · simp [ht] at hw
    · exact hall l' (by simpa [ht] using hw)
  have hother : (∀ w, t = .worker w → l.turn? = none) → l.turn? = none := by
    intro hw
    cases hx : l.turn? with
    | none => rfl
    | some x =>
      obtain ⟨w, hspeak⟩ := turn?_speaker hx
      rw [hs.own t l hun] at hspeak
      rw [← hx, hw w hspeak]
  cases h with
  | all h hall =>
    have hl : l.turn? = none := hother fun w ht => hall w l (ht ▸ hun)
    exact .all (by rw [logTurns_snoc, hl, ← h]; simp) fun w l' hw => hquiet w l' (hall w) hw
  | late w l₀ x h hlate hx hrest hall =>
    by_cases ht : t = .worker w
    · subst ht
      rw [hun] at hlate
      cases hlate
      refine .all (by rw [logTurns_snoc, hx, ← h]; rfl) fun u l' hu => ?_
      by_cases hne : u = w
      · subst hne
        simp at hu
      · exact hall u l' hne (by simpa [hne] using hu)
    · have hl : l.turn? = none := hother fun u hu => hall u l (by rintro rfl; exact ht hu) (hu ▸ hun)
      refine .late w l₀ x (by rw [logTurns_snoc, hl, ← h]; simp) (by simp [Ne.symm ht, hlate]) hx hrest fun u l' hu hw => ?_
      exact hquiet u l' (fun l' => hall u l' hu) hw

/-- With queue size 1, the log of a complete run has the turns in their order. -/
theorem logTurns_run (hq : cfg.queueSize = 1) {es : List Thread} {m : Talk State Thread Line}
    {tr : List (Thread × (Option Event ⊕ Line))} (hr : run (logStep cfg) (logStart cfg) es = some (m, tr))
    (hm : Complete cfg m) : logTurns (said tr) = turns (events (acted tr)) := by
  have h : Spoken cfg m (said tr) ∧ (∃ p, Steady cfg m.state p) ∧ Heard m (events (acted tr)) (said tr) := by
    refine talk_hist (P := fun m tr log => Spoken cfg m log ∧ (∃ p, Steady cfg m.state p) ∧ Heard m (events tr) log)
      ?_ ?_ ⟨spoken_start cfg, steady_run hq (run_nil (step cfg) (initSchedQueue cfg)), .all rfl nofun⟩ hr
    · rintro m tr log t s' e ⟨hs, ⟨p, hp⟩, hh⟩ hun hst -
      rw [events_snoc]
      exact ⟨hs.act hun hst, steady_step hp hst, hh.act hp.single hp.created hun (step_moves hst)⟩
    · rintro m tr log t l ⟨hs, hp, hh⟩ hun
      exact ⟨hs.say hun, hp, hh.say hs hun⟩
  cases h.2.2 with
  | all h _ => exact h
  | late w l x _ hl =>
    rw [h.1.quiet hm] at hl
    cases hl

end

end OsLabs.Sched
