import Mathlib.Logic.Function.Basic
import OsLabs.Machine

/-!
# Threads that print

A step of a thread may leave it with something to say, and it tells that before
its next step. Between the two the other threads can have steps, and can say
things of their own: what has been said need not be in the order of the steps.
-/

namespace OsLabs

structure Talk (σ ε L : Type*) where
  state : σ
  unsaid : ε → Option L

section
variable {σ ε ρ L : Type*} [DecidableEq ε] (step : StepFn σ ε ρ) (tells : σ → ε → Option L) (may : Talk σ ε L → ε → Bool)

/-- A step of a thread, or the line that the last one has left it with. -/
def talk : StepFn (Talk σ ε L) ε (ρ ⊕ L)
  | m, e =>
    if may m e = false then none
    else
      match m.unsaid e with
      | some l => some (⟨m.state, Function.update m.unsaid e none⟩, .inr l)
      | none => (step m.state e).map fun r => (⟨r.1, Function.update m.unsaid e (tells m.state e)⟩, .inl r.2)

/-- The lines, in the order in which they have been said. -/
def said (tr : List (ε × (ρ ⊕ L))) : List L := tr.filterMap fun x => x.2.getRight?

/-- The steps. -/
def acted (tr : List (ε × (ρ ⊕ L))) : List (ε × ρ) := tr.filterMap fun x => x.2.getLeft?.map (x.1, ·)

end

section
variable {σ ε ρ L : Type*} [DecidableEq ε] {step : StepFn σ ε ρ} {tells : σ → ε → Option L} {may : Talk σ ε L → ε → Bool}

omit [DecidableEq ε] in
theorem said_step (tr : List (ε × (ρ ⊕ L))) (e : ε) (r : ρ) :
    said (tr ++ [(e, .inl r)]) = said tr ∧ acted (tr ++ [(e, .inl r)]) = acted tr ++ [(e, r)] := by
  rw [said, acted, List.filterMap_append, List.filterMap_append]
  exact ⟨List.append_nil _, rfl⟩

omit [DecidableEq ε] in
theorem said_line (tr : List (ε × (ρ ⊕ L))) (e : ε) (l : L) :
    said (tr ++ [(e, .inr l)]) = said tr ++ [l] ∧ acted (tr ++ [(e, .inr l)]) = acted tr := by
  rw [said, acted, List.filterMap_append, List.filterMap_append]
  exact ⟨rfl, List.append_nil _⟩

/-- What a step keeps and a line keeps, holds of the steps and the lines of every run. -/
theorem talk_hist {P : Talk σ ε L → List (ε × ρ) → List L → Prop}
    (hact : ∀ m tr log e s' r, P m tr log → m.unsaid e = none → step m.state e = some (s', r) →
      may m e = true → P ⟨s', Function.update m.unsaid e (tells m.state e)⟩ (tr ++ [(e, r)]) log)
    (hsay : ∀ m tr log e l, P m tr log → m.unsaid e = some l →
      P ⟨m.state, Function.update m.unsaid e none⟩ tr (log ++ [l]))
    {es : List ε} {m₀ m : Talk σ ε L} {tr : List (ε × (ρ ⊕ L))} (h₀ : P m₀ [] [])
    (hr : run (talk step tells may) m₀ es = some (m, tr)) : P m (acted tr) (said tr) := by
  have h := @run_hist _ _ _ (talk step tells may) (fun _ _ => True) (fun m tr => P m (acted tr) (said tr)) ?_ es m₀ [] m tr
    h₀ (guarded_true m₀ es) hr
  · exact h
  intro m tr e m' r hm _ hs
  by_cases hmay : may m e = false
  · rw [talk, if_pos hmay] at hs
    cases hs
  · rw [talk, if_neg hmay] at hs
    split at hs
    · rename_i l hl
      cases hs
      rw [(said_line tr e l).1, (said_line tr e l).2]
      exact hsay m _ _ e l hm hl
    · rename_i hl
      obtain ⟨⟨s', r'⟩, hst, heq⟩ := Option.map_eq_some_iff.mp hs
      cases heq
      rw [(said_step tr e r').1, (said_step tr e r').2]
      exact hact m _ _ e s' r' hm hl hst (by simpa using hmay)

/-- The steps are a run without the printing. -/
theorem acted_run {es : List ε} {m₀ m : Talk σ ε L} {tr : List (ε × (ρ ⊕ L))}
    (hr : run (talk step tells may) m₀ es = some (m, tr)) :
    ∃ es', run step m₀.state es' = some (m.state, acted tr) := by
  refine talk_hist (P := fun m tr _ => ∃ es', run step m₀.state es' = some (m.state, tr)) ?_ ?_ ⟨[], rfl⟩ hr
  · rintro m tr log e s' r ⟨es', hes⟩ - hst -
    exact ⟨es' ++ [e], run_snoc hes hst⟩
  · rintro m tr log e l ⟨es', hes⟩ -
    exact ⟨es', hes⟩

/-- What a step leaves to say is all that can be said. -/
theorem said_of_tells {Q : L → Prop} (hQ : ∀ s e l, tells s e = some l → Q l) {es : List ε} {m₀ m : Talk σ ε L}
    {tr : List (ε × (ρ ⊕ L))} (h₀ : ∀ e l, m₀.unsaid e = some l → Q l)
    (hr : run (talk step tells may) m₀ es = some (m, tr)) :
    (∀ l ∈ said tr, Q l) ∧ ∀ e l, m.unsaid e = some l → Q l := by
  refine talk_hist (P := fun m _ log => (∀ l ∈ log, Q l) ∧ ∀ e l, m.unsaid e = some l → Q l) ?_ ?_ ⟨nofun, h₀⟩ hr
  · rintro m tr log e s' r ⟨hlog, hun⟩ - - -
    refine ⟨hlog, fun e' l hl => ?_⟩
    by_cases he : e' = e
    · subst he
      exact hQ m.state e' l (by simpa using hl)
    · exact hun e' l (by simpa [he] using hl)
  · rintro m tr log e l ⟨hlog, hun⟩ hl
    refine ⟨fun l' hl' => ?_, fun e' l' hl' => ?_⟩
    · rcases List.mem_append.mp hl' with hl' | hl'
      · exact hlog l' hl'
      · rw [List.mem_singleton.mp hl']
        exact hun e l hl
    · by_cases he : e' = e
      · subst he
        simp at hl'
      · exact hun e' l' (by simpa [he] using hl')

end

end OsLabs
