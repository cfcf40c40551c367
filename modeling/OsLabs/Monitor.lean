import OsLabs.Machine

/-!
# Sections of code under one semaphore

Threads share memory. A thread waits for a semaphore that starts at 1, runs a
section of code that makes one access to the memory at a step, and posts the
semaphore. Steps of different threads come in any order, and nothing but the
semaphore keeps two sections apart. Each section then takes effect as a whole,
in the order in which they are left.
-/

namespace OsLabs

/-- Sequential code. How it goes on after an access depends on the memory
before it. `fail` is an access that is undefined. -/
inductive Prog (σ ρ : Type*)
  | ret (r : ρ)
  | fail
  | access (f : σ → σ) (next : σ → Prog σ ρ)

namespace Prog

def bind {σ α β : Type*} (p : Prog σ α) (k : α → Prog σ β) : Prog σ β :=
  match p with
  | ret a => k a
  | fail => fail
  | access f next => access f fun s => (next s).bind k

instance {σ : Type*} : Monad (Prog σ) where
  pure := ret
  bind := bind

/-- One access, with what it reads. -/
def act {σ α : Type*} (f : σ → Option (σ × α)) : Prog σ α :=
  access (fun s => ((f s).map Prod.fst).getD s) fun s => ((f s).map fun r => ret r.2).getD fail

/-- The code executed without interruption. -/
def exec {σ ρ : Type*} : Prog σ ρ → σ → Option (σ × ρ)
  | ret r, s => some (s, r)
  | fail, _ => none
  | access f next, s => (next s).exec (f s)

section
variable {σ : Type*}

@[simp] theorem exec_pure {α : Type*} (a : α) (s : σ) : (pure a : Prog σ α).exec s = some (s, a) := rfl

@[simp] theorem exec_bind {α β : Type _} (p : Prog σ α) (k : α → Prog σ β) (s : σ) :
    (p >>= k).exec s = (p.exec s).bind fun r => (k r.2).exec r.1 := by
  show (p.bind k).exec s = _
  induction p generalizing s with
  | ret a => rfl
  | fail => rfl
  | access f next ih => exact ih s (f s)

@[simp] theorem exec_map {α β : Type _} (p : Prog σ α) (g : α → β) (s : σ) :
    (g <$> p).exec s = (p.exec s).map fun r => (r.1, g r.2) := by
  show (p >>= fun a => pure (g a)).exec s = _
  rw [exec_bind]
  cases p.exec s <;> rfl

@[simp] theorem exec_act {α : Type*} (f : σ → Option (σ × α)) (s : σ) : (act f).exec s = f s := by
  cases h : f s <;> simp [act, exec, h]

end

end Prog

/-! ## The threads -/

/-- Where a thread is in its loop, with what it has been asked for. -/
inductive Place (σ κ ρ : Type*)
  | outside
  | waiting (q : κ)
  | inside (q : κ) (rest : Prog σ ρ)

structure Monitor (ι σ κ ρ : Type*) where
  memory : σ
  sem : Nat
  place : ι → Place σ κ ρ

namespace Monitor

/-- A step of a thread: it turns to the semaphore, waits for it, makes the next
access of its section, or posts. -/
inductive Move (ι κ : Type*)
  | turn (q : κ)
  | wait (i : ι)
  | access (i : ι)
  | post (i : ι)

variable {ι σ κ ρ : Type*} [DecidableEq ι]

def put (m : Monitor ι σ κ ρ) (i : ι) (p : Place σ κ ρ) : Monitor ι σ κ ρ :=
  { m with place := Function.update m.place i p }

section
variable (who : κ → ι) (code : κ → Prog σ ρ)

/-- What has been asked for tells who executes it. A section that is left gives its result. -/
def step : StepFn (Monitor ι σ κ ρ) (Move ι κ) (Option (κ × ρ))
  | m, .turn q =>
    match m.place (who q) with
    | .outside => some (m.put (who q) (.waiting q), none)
    | .waiting _ | .inside _ _ => none
  | m, .wait i =>
    match m.place i, m.sem with
    | .waiting q, n + 1 => some ({ m with sem := n }.put i (.inside q (code q)), none)
    | _, _ => none
  | m, .access i =>
    match m.place i with
    | .inside q (.access f next) => some ({ m with memory := f m.memory }.put i (.inside q (next m.memory)), none)
    | _ => none
  | m, .post i =>
    match m.place i with
    | .inside q (.ret r) => some ({ m with sem := m.sem + 1 }.put i .outside, some (q, r))
    | _ => none

/-- Whole sections, one after the other. -/
def sections : StepFn σ κ ρ := fun s q => (code q).exec s

end

def start (memory : σ) : Monitor ι σ κ ρ := { memory := memory, sem := 1, place := fun _ => .outside }

/-- The sections that have been left, with their results. -/
def left (tr : List (Move ι κ × Option (κ × ρ))) : List (κ × ρ) := tr.filterMap (·.2)

/-! ## One section at a time -/

/-- Nobody is inside and the memory is `s`, or the one thread inside is still to
do to the memory what its whole section does to `s`. -/
inductive Between (code : κ → Prog σ ρ) (m : Monitor ι σ κ ρ) (s : σ) : Prop
  | free (hsem : m.sem = 1) (hs : m.memory = s) (hout : ∀ i q p, m.place i ≠ .inside q p)
  | taken (i : ι) (q : κ) (p : Prog σ ρ) (hsem : m.sem = 0) (hi : m.place i = .inside q p)
      (hp : p.exec m.memory = (code q).exec s) (hout : ∀ j, j ≠ i → ∀ q p, m.place j ≠ .inside q p)

section
variable {who : κ → ι} {code : κ → Prog σ ρ} {m m' : Monitor ι σ κ ρ} {s : σ}

theorem put_place (m : Monitor ι σ κ ρ) (i j : ι) (p : Place σ κ ρ) :
    (m.put i p).place j = if j = i then p else m.place j :=
  Function.update_apply ..

omit [DecidableEq ι] in
theorem between_start (code : κ → Prog σ ρ) (s : σ) : Between code (start s : Monitor ι σ κ ρ) s :=
  .free rfl rfl nofun

/-- A thread that stays outside of its section disturbs nobody. -/
theorem Between.stays (h : Between code m s) {i : ι} {p : Place σ κ ρ} (hi : ∀ q c, m.place i ≠ .inside q c)
    (hp : ∀ q c, p ≠ .inside q c) : Between code (m.put i p) s := by
  have hout : ∀ j, (∀ q c, m.place j ≠ .inside q c) → ∀ q c, (m.put i p).place j ≠ .inside q c := by
    intro j hj q c
    rw [put_place]
    split
    · exact hp q c
    · exact hj q c
  cases h with
  | free hsem hs ho => exact .free hsem hs fun j => hout j (ho j)
  | taken j q c hsem hj hc ho =>
    have hne : j ≠ i := by
      rintro rfl
      exact hi q c hj
    refine .taken j q c hsem ?_ hc fun k hk => hout k (ho k hk)
    rw [put_place, if_neg hne, hj]

theorem Between.inside (h : Between code m s) {i : ι} {q : κ} {c : Prog σ ρ} (hi : m.place i = .inside q c) :
    m.sem = 0 ∧ c.exec m.memory = (code q).exec s ∧ ∀ j, j ≠ i → ∀ q c, m.place j ≠ .inside q c := by
  cases h with
  | free hsem hs ho => exact absurd hi (ho i q c)
  | taken j q' c' hsem hj hc ho =>
    by_cases hij : i = j
    · subst hij
      rw [hi] at hj
      cases hj
      exact ⟨hsem, hc, ho⟩
    · exact absurd hi (ho i hij q c)

theorem between_step {e : Move ι κ} {r : Option (κ × ρ)} (h : Between code m s)
    (hs : step who code m e = some (m', r)) :
    (r = none ∧ Between code m' s) ∨ ∃ q a s', r = some (q, a) ∧ (code q).exec s = some (s', a) ∧ Between code m' s' := by
  cases e with
  | turn q =>
    simp only [step] at hs
    split at hs
    · rename_i hi
      cases hs
      exact Or.inl ⟨rfl, h.stays (by rw [hi]; nofun) nofun⟩
    · cases hs
    · cases hs
  | wait i =>
    simp only [step] at hs
    split at hs
    · rename_i q n hi hn
      cases hs
      left
      refine ⟨rfl, ?_⟩
      cases h with
      | free hsem hmem ho =>
        subst hmem
        refine .taken i q (code q) ?_ ?_ rfl ?_
        · simp only [put]
          omega
        · rw [put_place, if_pos rfl]
        · intro j hj q' c
          rw [put_place, if_neg hj]
          exact ho j q' c
      | taken j q' c hsem => omega
    · cases hs
  | access i =>
    simp only [step] at hs
    split at hs
    · rename_i q f next hi
      cases hs
      obtain ⟨hsem, hc, ho⟩ := h.inside hi
      left
      refine ⟨rfl, .taken i q (next m.memory) hsem ?_ hc ?_⟩
      · rw [put_place, if_pos rfl]
      · intro j hj q' c
        rw [put_place, if_neg hj]
        exact ho j hj q' c
    · cases hs
  | post i =>
    simp only [step] at hs
    split at hs
    · rename_i q a hi
      cases hs
      obtain ⟨hsem, hc, ho⟩ := h.inside hi
      right
      refine ⟨q, a, m.memory, rfl, hc.symm, .free ?_ rfl ?_⟩
      · simp only [put, hsem]
      · intro j q' c
        rw [put_place]
        split
        · nofun
        · rename_i hj
          exact ho j hj q' c
    · cases hs

omit [DecidableEq ι] in
theorem left_snoc (tr : List (Move ι κ × Option (κ × ρ))) (e : Move ι κ) (r : Option (κ × ρ)) :
    left (tr ++ [(e, r)]) = left tr ++ r.toList := by
  cases r <;> simp [left]

/-- Whatever the order of the steps, the sections that have been left give the
results, and leave the memory, that they would one after the other. -/
theorem sections_atomic {s₀ : σ} {es : List (Move ι κ)} {tr : List (Move ι κ × Option (κ × ρ))}
    (hr : run (step who code) (start s₀) es = some (m, tr)) :
    ∃ s, run (sections code) s₀ ((left tr).map Prod.fst) = some (s, left tr) ∧ Between code m s := by
  refine run_hist (I := fun m tr => ∃ s, run (sections code) s₀ ((left tr).map Prod.fst) = some (s, left tr) ∧
    Between code m s) (g := []) ?_ ⟨s₀, rfl, between_start code s₀⟩ (guarded_true _ es) hr
  rintro m tr e m' r ⟨s, hrun, h⟩ - hs
  rw [left_snoc, List.map_append]
  rcases between_step h hs with ⟨rfl, h'⟩ | ⟨q, a, s', rfl, hq, h'⟩
  · exact ⟨s, by simpa using hrun, h'⟩
  · exact ⟨s', run_snoc hrun hq, h'⟩

/-! ## Every thread gets through -/

/-- A thread that is inside can go on alone to the end of its section. -/
theorem can_leave {i : ι} {q : κ} {a : ρ} {s' : σ} {c : Prog σ ρ} (hi : m.place i = .inside q c)
    (hc : c.exec m.memory = some (s', a)) :
    Can (step who code) (· = { m with memory := s', sem := m.sem + 1 }.put i .outside) m := by
  induction c generalizing m with
  | ret b =>
    cases hc
    refine Can.head (e := .post i) (r := some (q, a)) ?_ (.here rfl)
    simp [step, hi]
  | fail => cases hc
  | access f next ih =>
    have hstep : step who code m (.access i) =
        some ({ m with memory := f m.memory }.put i (.inside q (next m.memory)), none) := by
      simp [step, hi]
    have hin : ({ m with memory := f m.memory }.put i (.inside q (next m.memory))).place i = .inside q (next m.memory) := by
      rw [put_place, if_pos rfl]
    have hrest := ih m.memory hin hc
    exact Can.head hstep (by simpa [put] using hrest)

/-- The sections are defined wherever `I` holds, and keep it. -/
def Keeps (code : κ → Prog σ ρ) (I : σ → Prop) : Prop :=
  ∀ s, I s → ∀ q, ∃ s' a, (code q).exec s = some (s', a) ∧ I s'

variable {I : σ → Prop} (hI : Keeps code I)
include hI

theorem Between.no_fail (h : Between code m s) (hs : I s) (i : ι) (q : κ) : m.place i ≠ .inside q .fail := by
  intro hi
  obtain ⟨s', a, hq, -⟩ := hI s hs q
  have hfail := (h.inside hi).2.1
  rw [hq] at hfail
  cases hfail

/-- The semaphore can always be had, if need be after the thread inside has left. -/
theorem Between.can_free (h : Between code m s) (hs : I s) :
    Can (step who code) (fun m' => (∃ s', Between code m' s' ∧ I s') ∧ m'.sem = 1 ∧
      ∀ i q, m.place i = .waiting q → m'.place i = .waiting q) m := by
  cases h with
  | free hsem hmem ho => exact .here ⟨⟨s, .free hsem hmem ho, hs⟩, hsem, fun _ _ hi => hi⟩
  | taken i q c hsem hi hc ho =>
    obtain ⟨s', a, hq, hs'⟩ := hI s hs q
    rw [hq] at hc
    apply (can_leave hi hc).trans
    rintro t rfl
    refine .here ⟨⟨s', .free ?_ rfl ?_, hs'⟩, ?_, ?_⟩
    · simp only [put, hsem]
    · intro j q' c'
      rw [put_place]
      split
      · nofun
      · rename_i hj
        exact ho j hj q' c'
    · simp only [put, hsem]
    · intro j q' hj
      rw [put_place, if_neg]
      · exact hj
      · rintro rfl
        rw [hi] at hj
        cases hj

/-- A thread that waits can get in and out again. -/
theorem Between.gets_through (h : Between code m s) (hs : I s) {i : ι} {q : κ} (hi : m.place i = .waiting q) :
    Can (step who code) (fun m' => (∃ s', Between code m' s' ∧ I s') ∧ m'.place i = .outside) m := by
  apply (h.can_free hI hs).trans
  rintro t ⟨⟨s₁, hb, hs₁⟩, hsem, hwait⟩
  have hti := hwait i q hi
  have henter : step who code t (.wait i) = some ({ t with sem := 0 }.put i (.inside q (code q)), none) := by
    simp [step, hti, hsem]
  cases hb with
  | taken j q' c hsem' => omega
  | free _ hmem ho =>
    obtain ⟨s', a, hq, hs'⟩ := hI s₁ hs₁ q
    have hq' : (code q).exec ({ t with sem := 0 }.put i (.inside q (code q))).memory = some (s', a) := by
      rw [← hq, ← hmem]
      rfl
    refine Can.head henter ((can_leave (by rw [put_place, if_pos rfl]) hq').trans ?_)
    rintro u rfl
    refine .here ⟨⟨s', .free rfl rfl ?_, hs'⟩, ?_⟩
    · intro j q' c
      rw [put_place]
      split
      · nofun
      · rename_i hj
        rw [put_place, if_neg hj]
        exact ho j q' c
    · rw [put_place, if_pos rfl]

end

end Monitor

end OsLabs
