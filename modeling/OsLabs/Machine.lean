import Mathlib.Logic.Function.Basic

/-!
# Runs of a partial step function

A component is a step function on its states: a step takes a label (a call, or
the thread that moves), may be undefined, and gives an output. `run` executes a
list of labels and keeps the history of labels and outputs. An invariant, a
guarded run and a simulation each need one argument about a single step.
-/

namespace OsLabs

abbrev StepFn (σ ε ρ : Type*) := σ → ε → Option (σ × ρ)

section
variable {σ ε ρ : Type*}

def run (step : StepFn σ ε ρ) : σ → List ε → Option (σ × List (ε × ρ))
  | s, [] => some (s, [])
  | s, e :: es =>
    match step s e with
    | none => none
    | some (s', r) =>
      match run step s' es with
      | none => none
      | some (t, tr) => some (t, (e, r) :: tr)

/-- Every label of the run meets `ok` at the state where it is executed. -/
def Guarded (step : StepFn σ ε ρ) (ok : σ → ε → Prop) : σ → List ε → Prop
  | _, [] => True
  | s, e :: es => ok s e ∧ ∀ s' r, step s e = some (s', r) → Guarded step ok s' es

instance decidableGuarded (step : StepFn σ ε ρ) (ok : σ → ε → Prop) [∀ s e, Decidable (ok s e)] :
    ∀ s es, Decidable (Guarded step ok s es)
  | _, [] => .isTrue trivial
  | s, e :: es =>
    match h : step s e with
    | none => decidable_of_iff (ok s e) (by simp [Guarded, h])
    | some (s', r) =>
      have := decidableGuarded step ok s' es
      decidable_of_iff (ok s e ∧ Guarded step ok s' es) (by simp [Guarded, h])

variable (step : StepFn σ ε ρ)

@[simp] theorem run_nil (s : σ) : run step s [] = some (s, []) := rfl

theorem run_cons {s t : σ} {e : ε} {es : List ε} {tr : List (ε × ρ)} :
    run step s (e :: es) = some (t, tr) ↔
      ∃ s' r tr', step s e = some (s', r) ∧ run step s' es = some (t, tr') ∧ tr = (e, r) :: tr' := by
  simp only [run]
  constructor
  · intro h
    split at h
    · cases h
    · rename_i s' r hs
      split at h
      · cases h
      · rename_i t' tr' hr
        cases h
        exact ⟨s', r, tr', hs, hr, rfl⟩
  · rintro ⟨s', r, tr', hs, hr, rfl⟩
    simp only [hs, hr]

/-- Some run from `s` ends in a state with `P`. -/
def Can (P : σ → Prop) (s : σ) : Prop := ∃ es t tr, run step s es = some (t, tr) ∧ P t

variable {step} {P Q : σ → Prop}

theorem Can.here {s : σ} (h : P s) : Can step P s := ⟨[], s, [], rfl, h⟩

theorem Can.head {s s' : σ} {e : ε} {r : ρ} (hs : step s e = some (s', r)) (h : Can step P s') :
    Can step P s := by
  obtain ⟨es, t, tr, hr, ht⟩ := h
  exact ⟨e :: es, t, (e, r) :: tr, (run_cons step).mpr ⟨s', r, tr, hs, hr, rfl⟩, ht⟩

theorem Can.trans {s : σ} (h : Can step P s) (hPQ : ∀ t, P t → Can step Q t) : Can step Q s := by
  obtain ⟨es, t, tr, hr, ht⟩ := h
  induction es generalizing s tr with
  | nil =>
    cases hr
    exact hPQ t ht
  | cons e es ih =>
    obtain ⟨s', r, tr', hs, hr', rfl⟩ := (run_cons step).mp hr
    exact (ih tr' hr').head hs

/-- A loop whose body goes from each index to the next. -/
theorem Can.iterate {I : Nat → σ → Prop} {n : Nat} (hI : ∀ i < n, ∀ s, I i s → Can step (I (i + 1)) s) {s : σ}
    (h : I 0 s) : Can step (I n) s := by
  induction n with
  | zero => exact .here h
  | succ n ih => exact (ih fun i hi => hI i (by omega)).trans (hI n (by omega))

theorem run_fst {es : List ε} :
    ∀ {s t : σ} {tr : List (ε × ρ)}, run step s es = some (t, tr) → tr.map Prod.fst = es := by
  induction es with
  | nil =>
    intro s t tr hr
    cases hr
    rfl
  | cons e es ih =>
    intro s t tr hr
    obtain ⟨s', r, tr', hs, hr', rfl⟩ := (run_cons step).mp hr
    rw [List.map_cons, ih hr']

theorem run_append {es es' : List ε} :
    ∀ {s t u : σ} {tr tr' : List (ε × ρ)}, run step s es = some (t, tr) → run step t es' = some (u, tr') →
      run step s (es ++ es') = some (u, tr ++ tr') := by
  induction es with
  | nil =>
    intro s t u tr tr' hr hr'
    cases hr
    exact hr'
  | cons e es ih =>
    intro s t u tr tr' hr hr'
    obtain ⟨s', q, tr₁, hs, hr₁, rfl⟩ := (run_cons step).mp hr
    exact (run_cons step).mpr ⟨s', q, tr₁ ++ tr', hs, ih hr₁ hr', rfl⟩

theorem run_snoc {es : List ε} {e : ε} {r : ρ} {s t u : σ} {tr : List (ε × ρ)}
    (hr : run step s es = some (t, tr)) (hs : step t e = some (u, r)) :
    run step s (es ++ [e]) = some (u, tr ++ [(e, r)]) :=
  run_append hr ((run_cons step).mpr ⟨u, r, [], hs, rfl, rfl⟩)

/-- A run under other names for its labels and outputs, from a state with `I`. -/
theorem run_map {ε' ρ' : Type*} {step' : StepFn σ ε' ρ'} {I : σ → Prop} (f : ε → ε') (g : ρ → ρ')
    (hstep : ∀ s e s' r, I s → step s e = some (s', r) → step' s (f e) = some (s', g r) ∧ I s') {es : List ε} :
    ∀ {s t : σ} {tr : List (ε × ρ)}, I s → run step s es = some (t, tr) →
      run step' s (es.map f) = some (t, tr.map (Prod.map f g)) ∧ I t := by
  induction es with
  | nil =>
    intro s t tr h hr
    cases hr
    exact ⟨rfl, h⟩
  | cons e es ih =>
    intro s t tr h hr
    obtain ⟨s', r, tr', hs, hr', rfl⟩ := (run_cons step).mp hr
    obtain ⟨hs', h'⟩ := hstep s e s' r h hs
    obtain ⟨hr'', ht⟩ := ih h' hr'
    exact ⟨(run_cons step').mpr ⟨s', g r, _, hs', hr'', rfl⟩, ht⟩

/-- The state is at the end of some run from `s₀`. -/
def Reachable (step : StepFn σ ε ρ) (s₀ s : σ) : Prop := ∃ es tr, run step s₀ es = some (s, tr)

theorem Reachable.start {s₀ : σ} : Reachable step s₀ s₀ := ⟨[], [], rfl⟩

theorem Reachable.next {s₀ s s' : σ} {e : ε} {r : ρ} (h : Reachable step s₀ s) (hs : step s e = some (s', r)) :
    Reachable step s₀ s' := by
  obtain ⟨es, tr, hr⟩ := h
  exact ⟨es ++ [e], tr ++ [(e, r)], run_snoc hr hs⟩

variable {ok : σ → ε → Prop}

/-! ## Invariants -/

/-- An invariant of states and of the history so far, kept by every step that
meets the guard, holds at the end of a guarded run. -/
theorem run_hist {I : σ → List (ε × ρ) → Prop}
    (hI : ∀ s tr e s' r, I s tr → ok s e → step s e = some (s', r) → I s' (tr ++ [(e, r)])) :
    ∀ {es s g t tr}, I s g → Guarded step ok s es → run step s es = some (t, tr) → I t (g ++ tr) := by
  intro es
  induction es with
  | nil =>
    intro s g t tr h _ hr
    cases hr
    simpa using h
  | cons e es ih =>
    intro s g t tr h hg hr
    obtain ⟨s', r, tr', hs, hr', rfl⟩ := (run_cons step).mp hr
    have := ih (hI s g e s' r h hg.1 hs) (hg.2 s' r hs) hr'
    simpa using this

theorem run_inv {I : σ → Prop} (hI : ∀ s e s' r, I s → ok s e → step s e = some (s', r) → I s')
    {es : List ε} {s t : σ} {tr : List (ε × ρ)} (h : I s) (hg : Guarded step ok s es)
    (hr : run step s es = some (t, tr)) : I t :=
  run_hist (I := fun s _ => I s) (g := []) (fun s _ e s' r h ho hs => hI s e s' r h ho hs) h hg hr

theorem guarded_true (s : σ) (es : List ε) : Guarded step (fun _ _ => True) s es := by
  induction es generalizing s with
  | nil => trivial
  | cons e es ih => exact ⟨trivial, fun s' _ _ => ih s'⟩

theorem guarded_of_forall {P : ε → Prop} : ∀ {es : List ε} (s : σ), (∀ e ∈ es, P e) →
    Guarded step (fun _ e => P e) s es
  | [], _, _ => trivial
  | e :: es, _, h =>
    ⟨h e (by simp), fun s' _ _ => guarded_of_forall s' fun x hx => h x (List.mem_cons_of_mem e hx)⟩

theorem guarded_cons {s s' : σ} {e : ε} {r : ρ} {es : List ε} (hs : step s e = some (s', r)) :
    Guarded step ok s (e :: es) ↔ ok s e ∧ Guarded step ok s' es := by
  simp [Guarded, hs]

theorem guarded_and {ok' : σ → ε → Prop} : ∀ {s es}, Guarded step ok s es → Guarded step ok' s es →
    Guarded step (fun s e => ok s e ∧ ok' s e) s es
  | _, [], _, _ => trivial
  | _, _ :: _, h, h' => ⟨⟨h.1, h'.1⟩, fun s' r hs => guarded_and (h.2 s' r hs) (h'.2 s' r hs)⟩

/-- A guard that holds wherever an invariant does is met by every run. -/
theorem guarded_of_inv {I : σ → Prop} (hI : ∀ s e s' r, I s → step s e = some (s', r) → I s')
    (hok : ∀ s e, I s → ok s e) : ∀ {s}, I s → ∀ es, Guarded step ok s es
  | _, _, [] => trivial
  | s, h, e :: es => ⟨hok s e h, fun s' r hs => guarded_of_inv hI hok (hI s e s' r h hs) es⟩

/-- A run meets its guard, unless one of its steps has spoilt the state for good. -/
theorem guarded_or_spoilt {I L : σ → Prop} (hI : ∀ s e s' r, I s → step s e = some (s', r) → I s')
    (hbad : ∀ s e s' r, I s → ¬ ok s e → step s e = some (s', r) → L s')
    (hL : ∀ s e s' r, I s → L s → step s e = some (s', r) → L s') :
    ∀ {es s t tr}, I s → run step s es = some (t, tr) → Guarded step ok s es ∨ L t := by
  have hstays : ∀ {es s t tr}, I s ∧ L s → run step s es = some (t, tr) → L t := by
    intro es s t tr h hr
    exact (run_inv (I := fun s => I s ∧ L s) (fun s e s' r h _ hs => ⟨hI s e s' r h.1 hs, hL s e s' r h.1 h.2 hs⟩)
      h (guarded_true s es) hr).2
  intro es
  induction es with
  | nil => exact fun {s t tr} _ _ => Or.inl trivial
  | cons e es ih =>
    intro s t tr h hr
    obtain ⟨s', r, tr', hs, hr', rfl⟩ := (run_cons step).mp hr
    by_cases ho : ok s e
    · apply (ih (hI s e s' r h hs) hr').imp_left
      intro hg
      exact (guarded_cons hs).mpr ⟨ho, hg⟩
    · exact Or.inr (hstays ⟨hI s e s' r h hs, hbad s e s' r h ho hs⟩ hr')

/-- `P` holds in every state of the run. -/
def Throughout (step : StepFn σ ε ρ) (P : σ → Prop) : σ → List ε → Prop
  | s, [] => P s
  | s, e :: es => P s ∧ ∀ s' r, step s e = some (s', r) → Throughout step P s' es

theorem throughout_cons {s s' : σ} {e : ε} {r : ρ} {es : List ε} (hs : step s e = some (s', r)) :
    Throughout step P s (e :: es) ↔ P s ∧ Throughout step P s' es := by
  simp [Throughout, hs]

theorem Throughout.head {s : σ} {es : List ε} (h : Throughout step P s es) : P s := by
  cases es with
  | nil => exact h
  | cons e es => exact h.1

/-- Where the guard of a step decides whether the next state has `P`, the guard
of a run decides whether all its states have. All labels of the run meet `adm`. -/
theorem guarded_iff_throughout_of {adm : σ → ε → Prop} {I : σ → Prop}
    (hI : ∀ s e s' r, I s → adm s e → step s e = some (s', r) → I s')
    (hP : ∀ s e s' r, I s → adm s e → P s → step s e = some (s', r) → (ok s e ↔ P s')) :
    ∀ {es s t tr}, I s → Guarded step adm s es → P s → run step s es = some (t, tr) →
      (Guarded step ok s es ↔ Throughout step P s es) := by
  intro es
  induction es with
  | nil => exact fun {s t tr} _ _ hs _ => ⟨fun _ => hs, fun _ => trivial⟩
  | cons e es ih =>
    intro s t tr h hadm hs hr
    obtain ⟨s', r, tr', hst, hr', rfl⟩ := (run_cons step).mp hr
    obtain ⟨ha, hadm'⟩ := (guarded_cons hst).mp hadm
    have hok := hP s e s' r h ha hs hst
    have hrest := fun hp => ih (hI s e s' r h ha hst) hadm' hp hr'
    rw [guarded_cons hst, throughout_cons hst]
    constructor
    · rintro ⟨ho, hg⟩
      exact ⟨hs, (hrest (hok.mp ho)).mp hg⟩
    · rintro ⟨-, ht⟩
      exact ⟨hok.mpr ht.head, (hrest ht.head).mpr ht⟩

theorem guarded_iff_throughout {I : σ → Prop} (hI : ∀ s e s' r, I s → step s e = some (s', r) → I s')
    (hP : ∀ s e s' r, I s → P s → step s e = some (s', r) → (ok s e ↔ P s')) {es : List ε} {s t : σ}
    {tr : List (ε × ρ)} (h : I s) (hs : P s) (hr : run step s es = some (t, tr)) :
    Guarded step ok s es ↔ Throughout step P s es :=
  guarded_iff_throughout_of (fun s e s' r h _ hst => hI s e s' r h hst)
    (fun s e s' r h _ hp hst => hP s e s' r h hp hst) h (guarded_true s es) hs hr

/-- Where every guarded step from an invariant state is defined and keeps the
invariant, a guarded run is defined. -/
theorem run_total {I : σ → Prop}
    (hI : ∀ s e, I s → ok s e → ∃ s' r, step s e = some (s', r) ∧ I s') :
    ∀ {es s}, I s → Guarded step ok s es → ∃ t tr, run step s es = some (t, tr) ∧ I t := by
  intro es
  induction es with
  | nil => exact fun {s} h _ => ⟨s, [], rfl, h⟩
  | cons e es ih =>
    intro s h hg
    obtain ⟨s', r, hs, hi⟩ := hI s e h hg.1
    obtain ⟨t, tr, hr, ht⟩ := ih hi (hg.2 s' r hs)
    exact ⟨t, (e, r) :: tr, (run_cons step).mpr ⟨s', r, tr, hs, hr, rfl⟩, ht⟩

/-! ## Simulation -/

/-- Two step functions related by `R` give the same outputs on every run that
the second one admits. -/
theorem run_sim {τ : Type*} {step₂ : StepFn τ ε ρ} {ok₂ : τ → ε → Prop} {R : σ → τ → Prop}
    (hR : ∀ s a e, R s a → ok₂ a e →
      ∃ s' a' r, step s e = some (s', r) ∧ step₂ a e = some (a', r) ∧ R s' a') :
    ∀ {es s a}, R s a → Guarded step₂ ok₂ a es →
      ∃ t b tr, run step s es = some (t, tr) ∧ run step₂ a es = some (b, tr) ∧ R t b := by
  intro es
  induction es with
  | nil => exact fun {s a} h _ => ⟨s, a, [], rfl, rfl, h⟩
  | cons e es ih =>
    intro s a h hg
    obtain ⟨s', a', r, hs, ha, hR'⟩ := hR s a e h hg.1
    obtain ⟨t, b, tr, ht, hb, hRt⟩ := ih hR' (hg.2 a' r ha)
    exact ⟨t, b, (e, r) :: tr, (run_cons step).mpr ⟨s', r, tr, hs, ht, rfl⟩,
      (run_cons step₂).mpr ⟨a', r, tr, ha, hb, rfl⟩, hRt⟩

/-- Where a step shows as the step `label` of another machine, or not at all, a
run shows as a run, and a guard on that run is a guard on this one. -/
theorem run_shows {τ ε' ρ' : Type*} {step₂ : StepFn τ ε' ρ'} (shows : σ → τ) (label : σ → ε → Option ε')
    {I : σ → Prop} (hI : ∀ s e s' r, I s → step s e = some (s', r) → I s')
    (hidden : ∀ s e s' r, I s → step s e = some (s', r) → label s e = none → shows s' = shows s)
    (visible : ∀ s e s' r a, I s → step s e = some (s', r) → label s e = some a →
      ∃ q, step₂ (shows s) a = some (shows s', q)) :
    ∀ {es s t tr}, I s → run step s es = some (t, tr) →
      ∃ as tr', run step₂ (shows s) as = some (shows t, tr') ∧
        ∀ ok₂ : τ → ε' → Prop, Guarded step₂ ok₂ (shows s) as ↔
          Guarded step (fun s e => ∀ a ∈ label s e, ok₂ (shows s) a) s es := by
  intro es
  induction es with
  | nil =>
    intro s t tr _ hr
    cases hr
    exact ⟨[], [], rfl, fun _ => Iff.rfl⟩
  | cons e es ih =>
    intro s t tr h hr
    obtain ⟨s', r, tr', hs, hr', rfl⟩ := (run_cons step).mp hr
    obtain ⟨as, tr₂, has, hguard⟩ := ih (hI s e s' r h hs) hr'
    cases hl : label s e with
    | none =>
      rw [hidden s e s' r h hs hl] at has hguard
      refine ⟨as, tr₂, has, ?_⟩
      intro ok₂
      rw [guarded_cons hs, hguard ok₂]
      simp [hl]
    | some a =>
      obtain ⟨q, ha⟩ := visible s e s' r a h hs hl
      refine ⟨a :: as, (a, q) :: tr₂, (run_cons step₂).mpr ⟨shows s', q, tr₂, ha, has, rfl⟩, ?_⟩
      intro ok₂
      rw [guarded_cons hs, guarded_cons ha, hguard ok₂]
      simp [hl]

end

/-! ## Histories -/

/-- An entry of a history is the last one, or one of those before. -/
theorem snoc_split {α : Type*} {l l₁ l₂ : List α} {x y : α} (h : l ++ [x] = l₁ ++ y :: l₂) :
    (∃ l₃, l₂ = l₃ ++ [x] ∧ l = l₁ ++ y :: l₃) ∨ y = x ∧ l = l₁ := by
  rcases List.eq_nil_or_concat l₂ with rfl | ⟨l₃, z, rfl⟩
  · obtain ⟨rfl, heq⟩ := List.append_inj' h rfl
    exact Or.inr ⟨by simpa using heq.symm, rfl⟩
  · have h : l ++ [x] = (l₁ ++ y :: l₃) ++ [z] := by simpa using h
    obtain ⟨rfl, heq⟩ := List.append_inj' h rfl
    exact Or.inl ⟨l₃, by simpa using heq.symm, rfl⟩

end OsLabs
