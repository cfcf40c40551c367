import OsLabs.Machine

/-!
# Fair schedules

A schedule says whose turn it is at each moment. Whoever has no step lets the
turn pass. A schedule is fair to somebody who has a turn again and again. A
state is reached under every fair schedule when a rank says how far it still is,
no step raises the rank, and there is always somebody whose next step lowers it
and who does not lose that step until the rank is lower.
-/

namespace OsLabs

section
variable {σ ε ρ : Type*} (step : StepFn σ ε ρ)

def pass (s : σ) (e : ε) : σ := ((step s e).map Prod.fst).getD s

def states (s : σ) (f : Nat → ε) : Nat → σ
  | 0 => s
  | n + 1 => pass step (states s f n) (f n)

/-- The turns that have not passed, with what they gave. -/
def history (s : σ) (f : Nat → ε) : Nat → List (ε × ρ)
  | 0 => []
  | n + 1 => history s f n ++ ((step (states step s f n) (f n)).map fun r => (f n, r.2)).toList

/-- Everybody in `A` has a turn again and again. -/
def FairTo (A : ε → Prop) (f : Nat → ε) : Prop := ∀ e, A e → ∀ n, ∃ m, n ≤ m ∧ f m = e

/-- Why `goal` is reached from the states with `I`: who is helpful lowers the rank with the next step. -/
structure Progress (I goal : σ → Prop) (A : ε → Prop) (rank : σ → Nat) (Helpful : σ → ε → Prop) : Prop where
  inv : ∀ s e s' r, I s → step s e = some (s', r) → I s'
  someone : ∀ s, I s → ¬ goal s → ∃ e, A e ∧ Helpful s e
  lowers : ∀ s e, I s → ¬ goal s → Helpful s e → ∃ s' r, step s e = some (s', r) ∧ rank s' < rank s
  keeps : ∀ s e s' r, I s → ¬ goal s → step s e = some (s', r) →
    rank s' < rank s ∨ rank s' = rank s ∧ ∀ e, Helpful s e → Helpful s' e

end

section
variable {σ ε ρ : Type*} {step : StepFn σ ε ρ}

theorem FairTo.shift {A : ε → Prop} {f : Nat → ε} (h : FairTo A f) (k : Nat) : FairTo A fun n => f (k + n) := by
  intro e he n
  obtain ⟨m, hm, hf⟩ := h e he (k + n)
  refine ⟨m - k, by omega, ?_⟩
  show f (k + (m - k)) = e
  rw [Nat.add_sub_cancel' (by omega), hf]

theorem pass_step {s s' : σ} {e : ε} {r : ρ} (h : step s e = some (s', r)) : pass step s e = s' := by
  simp [pass, h]

theorem pass_none {s : σ} {e : ε} (h : step s e = none) : pass step s e = s := by
  simp [pass, h]

theorem pass_inv {I : σ → Prop} (hI : ∀ s e s' r, I s → step s e = some (s', r) → I s') {s : σ} (e : ε) (h : I s) :
    I (pass step s e) := by
  cases hs : step s e with
  | none => rwa [pass_none hs]
  | some r =>
    rw [pass_step hs]
    exact hI s e r.1 r.2 h hs

theorem states_inv {I : σ → Prop} (hI : ∀ s e s' r, I s → step s e = some (s', r) → I s') {s : σ} (h : I s)
    (f : Nat → ε) (n : Nat) : I (states step s f n) := by
  induction n with
  | zero => exact h
  | succ n ih => exact pass_inv hI (f n) ih

theorem states_shift (s : σ) (f : Nat → ε) (k n : Nat) :
    states step (states step s f k) (fun n => f (k + n)) n = states step s f (k + n) := by
  induction n with
  | zero => rfl
  | succ n ih =>
    rw [← Nat.add_assoc, states, states, ih]

/-- The next turn passes, or is a step. -/
theorem states_next (step : StepFn σ ε ρ) (s : σ) (f : Nat → ε) (n : Nat) :
    states step s f (n + 1) = states step s f n ∧ history step s f (n + 1) = history step s f n ∨
      ∃ s' r, step (states step s f n) (f n) = some (s', r) ∧ states step s f (n + 1) = s' ∧
        history step s f (n + 1) = history step s f n ++ [(f n, r)] := by
  cases hs : step (states step s f n) (f n) with
  | none => exact Or.inl ⟨pass_none hs, by simp [history, hs]⟩
  | some r => exact Or.inr ⟨r.1, r.2, rfl, pass_step hs, by simp [history, hs]⟩

/-- The turns that have not passed are a run. -/
theorem states_run (step : StepFn σ ε ρ) (s : σ) (f : Nat → ε) (n : Nat) :
    ∃ es, run step s es = some (states step s f n, history step s f n) := by
  induction n with
  | zero => exact ⟨[], rfl⟩
  | succ n ih =>
    obtain ⟨es, hr⟩ := ih
    rcases states_next step s f n with ⟨hs, hh⟩ | ⟨s', r, hst, hs, hh⟩
    · exact ⟨es, by rw [hs, hh, hr]⟩
    · exact ⟨es ++ [f n], by rw [hs, hh, run_snoc hr hst]⟩

theorem states_head (s : σ) (f : Nat → ε) (n : Nat) :
    states step s f (n + 1) = states step (pass step s (f 0)) (fun n => f (n + 1)) n ∧
      history step s f (n + 1) = ((step s (f 0)).map fun r => (f 0, r.2)).toList ++
        history step (pass step s (f 0)) (fun n => f (n + 1)) n := by
  induction n with
  | zero => exact ⟨rfl, (List.append_nil _).symm⟩
  | succ n ih =>
    rw [states, history, ih.1, ih.2, List.append_assoc]
    exact ⟨rfl, rfl⟩

/-- A run is what happens under a schedule that begins with it. -/
theorem states_of_run {es : List ε} : ∀ {s t : σ} {tr : List (ε × ρ)}, run step s es = some (t, tr) → ∀ {f : Nat → ε},
    (∀ n e, es[n]? = some e → f n = e) → states step s f es.length = t ∧ history step s f es.length = tr := by
  induction es with
  | nil =>
    intro s t tr hr f _
    cases hr
    exact ⟨rfl, rfl⟩
  | cons e es ih =>
    intro s t tr hr f hf
    obtain ⟨s', r, tr', hs, hr', rfl⟩ := (run_cons step).mp hr
    have h0 : f 0 = e := hf 0 e rfl
    obtain ⟨hst, hh⟩ := ih hr' fun n e he => hf (n + 1) e he
    rw [List.length_cons, (states_head s f es.length).1, (states_head s f es.length).2, h0, pass_step hs, hst, hh, hs]
    exact ⟨rfl, rfl⟩

section
variable {I goal : σ → Prop} {A : ε → Prop} {rank : σ → Nat} {Helpful : σ → ε → Prop}
  (h : Progress step I goal A rank Helpful)
include h

/-- Until the turn of who is helpful, the goal is reached, or the rank is lower, or who is helpful still is. -/
theorem Progress.waits {s : σ} (hs : I s) {e : ε} (he : Helpful s e) (f : Nat → ε) (m : Nat) :
    (∃ n, goal (states step s f n) ∨ rank (states step s f n) < rank s) ∨
      rank (states step s f m) = rank s ∧ Helpful (states step s f m) e := by
  induction m with
  | zero => exact Or.inr ⟨rfl, he⟩
  | succ m ih =>
    rcases ih with hn | ⟨hrank, hm⟩
    · exact Or.inl hn
    have hi : I (states step s f m) := states_inv h.inv hs f m
    by_cases hg : goal (states step s f m)
    · exact Or.inl ⟨m, Or.inl hg⟩
    cases hst : step (states step s f m) (f m) with
    | none =>
      have heq : states step s f (m + 1) = states step s f m := pass_none hst
      exact Or.inr ⟨heq ▸ hrank, heq ▸ hm⟩
    | some r =>
      have heq : states step s f (m + 1) = r.1 := pass_step hst
      rcases h.keeps _ _ r.1 r.2 hi hg hst with hlt | ⟨hkeep, hhelp⟩
      · exact Or.inl ⟨m + 1, Or.inr (by rw [heq, ← hrank]; exact hlt)⟩
      · exact Or.inr ⟨by rw [heq, hkeep, hrank], heq ▸ hhelp e hm⟩

theorem Progress.reaches {s : σ} (hs : I s) {f : Nat → ε} (hf : FairTo A f) : ∃ n, goal (states step s f n) := by
  -- on the rank, which is lower at some moment after the turn of who is helpful
  induction hk : rank s using Nat.strongRecOn generalizing s f with
  | ind k ih =>
    by_cases hg : goal s
    · exact ⟨0, hg⟩
    obtain ⟨e, hA, he⟩ := h.someone s hs hg
    obtain ⟨m, -, hm⟩ := hf e hA 0
    have hlower : ∃ n, goal (states step s f n) ∨ rank (states step s f n) < rank s := by
      rcases h.waits hs he f m with hn | ⟨hrank, hhelp⟩
      · exact hn
      have hi : I (states step s f m) := states_inv h.inv hs f m
      by_cases hg : goal (states step s f m)
      · exact ⟨m, Or.inl hg⟩
      obtain ⟨s', r, hst, hlt⟩ := h.lowers _ e hi hg hhelp
      have heq : states step s f (m + 1) = s' := by
        rw [← hm] at hst
        exact pass_step hst
      exact ⟨m + 1, Or.inr (by rw [heq, ← hrank]; exact hlt)⟩
    obtain ⟨n, hn | hn⟩ := hlower
    · exact ⟨n, hn⟩
    · have hi : I (states step s f n) := states_inv h.inv hs f n
      obtain ⟨j, hj⟩ := ih _ (hk ▸ hn) hi (hf.shift n) rfl
      exact ⟨n + j, by rwa [states_shift] at hj⟩

end

/-- The schedule that goes round a list. -/
def cycle (l : List ε) (h : 0 < l.length) (n : Nat) : ε := l.get ⟨n % l.length, Nat.mod_lt n h⟩

theorem cycle_fair (l : List ε) (h : 0 < l.length) : FairTo (· ∈ l) (cycle l h) := by
  intro e he n
  obtain ⟨i, hi, rfl⟩ := List.mem_iff_getElem.mp he
  refine ⟨l.length * n + i, Nat.le_add_right_of_le (Nat.le_mul_of_pos_left n h), ?_⟩
  simp [cycle, Nat.mod_eq_of_lt hi]

end

end OsLabs
