import Mathlib.Logic.Function.Basic
import OsLabs.Machine

/-!
# A counter that is decremented in two steps

Several parties decrement a shared counter, each by a read and a later write,
with nothing that keeps them apart. The counter never falls below the number
`left` that it stands for, and it agrees with it at the end exactly when no
party has read it between the read and the write of another one.
-/

namespace OsLabs

structure SharedCount (ι : Type*) where
  left : Int
  num : Int
  reads : ι → Option Int

inductive Access (ι : Type*)
  | read (i : ι)
  | write (i : ι)

namespace SharedCount

variable {ι : Type*} [DecidableEq ι]

def access : StepFn (SharedCount ι) (Access ι) Unit
  | c, .read i =>
    match c.reads i with
    | none => some ({ c with reads := Function.update c.reads i (some c.num) }, ())
    | some _ => none
  | c, .write i =>
    match c.reads i with
    | none => none
    | some v => some ({ left := c.left - 1, num := v - 1, reads := Function.update c.reads i none }, ())

theorem access_read {c : SharedCount ι} {i : ι} (h : c.reads i = none) :
    access c (.read i) = some ({ c with reads := Function.update c.reads i (some c.num) }, ()) := by
  simp [access, h]

theorem access_write {c : SharedCount ι} {i : ι} {v : Int} (h : c.reads i = some v) :
    access c (.write i) =
      some ({ left := c.left - 1, num := v - 1, reads := Function.update c.reads i none }, ()) := by
  simp [access, h]

theorem access_cases {c c' : SharedCount ι} {a : Access ι} {r : Unit} (h : access c a = some (c', r)) :
    (∃ i, a = .read i ∧ c.reads i = none ∧ c' = { c with reads := Function.update c.reads i (some c.num) }) ∨
    (∃ i v, a = .write i ∧ c.reads i = some v ∧
      c' = { left := c.left - 1, num := v - 1, reads := Function.update c.reads i none }) := by
  cases a with
  | read i =>
    cases hi : c.reads i with
    | none =>
      rw [access_read hi] at h
      cases h
      exact Or.inl ⟨i, rfl, hi, rfl⟩
    | some v => simp [access, hi] at h
  | write i =>
    cases hi : c.reads i with
    | none => simp [access, hi] at h
    | some v =>
      rw [access_write hi] at h
      cases h
      exact Or.inr ⟨i, v, rfl, hi, rfl⟩

theorem update_some {f : ι → Option Int} {i j : ι} {x : Option Int} {v : Int}
    (h : Function.update f i x j = some v) : i = j ∧ x = some v ∨ i ≠ j ∧ f j = some v := by
  by_cases hij : j = i
  · subst hij
    rw [Function.update_self] at h
    exact Or.inl ⟨rfl, h⟩
  · rw [Function.update_of_ne hij] at h
    exact Or.inr ⟨Ne.symm hij, h⟩

/-- A party reads only while no other is between its read and its write. -/
def Apart (c : SharedCount ι) : Access ι → Prop
  | .read _ => ∀ j, c.reads j = none
  | .write _ => True

/-! ## The counter is never too low -/

structure Over (c : SharedCount ι) : Prop where
  num : c.left ≤ c.num
  reads : ∀ i v, c.reads i = some v → c.left ≤ v

theorem over_access {c c' : SharedCount ι} {a : Access ι} {r : Unit} (h : Over c)
    (hs : access c a = some (c', r)) : Over c' := by
  obtain ⟨i, rfl, -, rfl⟩ | ⟨i, v, rfl, hi, rfl⟩ := access_cases hs
  · refine ⟨h.num, ?_⟩
    intro j w hw
    rcases update_some hw with ⟨-, heq⟩ | ⟨-, hj⟩
    · cases heq
      exact h.num
    · exact h.reads j w hj
  · refine ⟨Int.sub_le_sub_right (h.reads i v hi) 1, ?_⟩
    intro j w hw
    rcases update_some hw with ⟨-, heq⟩ | ⟨-, hj⟩
    · cases heq
    · have := h.reads j w hj
      simp only
      omega

/-! ## Decrements that stay apart -/

structure Exact (c : SharedCount ι) : Prop where
  num : c.num = c.left
  reads : ∀ i v, c.reads i = some v → v = c.left
  alone : ∀ i j v w, c.reads i = some v → c.reads j = some w → i = j

omit [DecidableEq ι] in
theorem Exact.over {c : SharedCount ι} (h : Exact c) : Over c :=
  ⟨Int.le_of_eq h.num.symm, fun i v hv => Int.le_of_eq (h.reads i v hv).symm⟩

theorem exact_access {c c' : SharedCount ι} {a : Access ι} {r : Unit} (h : Exact c) (ha : Apart c a)
    (hs : access c a = some (c', r)) : Exact c' := by
  obtain ⟨i, rfl, -, rfl⟩ | ⟨i, v, rfl, hi, rfl⟩ := access_cases hs
  · have honly : ∀ j w, Function.update c.reads i (some c.num) j = some w → i = j ∧ c.num = w := by
      intro j w hw
      rcases update_some hw with ⟨heq, hw⟩ | ⟨-, hj⟩
      · exact ⟨heq, Option.some.inj hw⟩
      · rw [show c.reads j = none from ha j] at hj
        cases hj
    refine ⟨h.num, ?_, ?_⟩
    · intro j w hw
      exact (honly j w hw).2.symm.trans h.num
    · intro j k v w hv hw
      exact (honly j v hv).1.symm.trans (honly k w hw).1
  · have hnone : ∀ j w, Function.update c.reads i none j ≠ some w := by
      intro j w hw
      rcases update_some hw with ⟨-, heq⟩ | ⟨hne, hj⟩
      · cases heq
      · exact hne (h.alone i j v w hi hj)
    refine ⟨by rw [h.reads i v hi], fun j w hw => absurd hw (hnone j w), ?_⟩
    intro j k w x hw
    exact absurd hw (hnone j w)

/-! ## An update is lost -/

/-- Two parties are between their read and their write, or one of them has read
too much, or the counter and all that has been read of it are too high. -/
inductive Lost (c : SharedCount ι) : Prop
  | overlap (i j : ι) (v w : Int) (hne : i ≠ j) (hi : c.reads i = some v) (hj : c.reads j = some w)
  | stale (i : ι) (v : Int) (hi : c.reads i = some v) (hv : c.left < v)
  | high (hn : c.left < c.num) (hr : ∀ i v, c.reads i = some v → c.left < v)

theorem lost_read {c : SharedCount ι} {i : ι} (h : Lost c) (hi : c.reads i = none) :
    Lost { c with reads := Function.update c.reads i (some c.num) } := by
  have hkeep : ∀ j v, c.reads j = some v → Function.update c.reads i (some c.num) j = some v := by
    intro j v hj
    rw [Function.update_of_ne, hj]
    rintro rfl
    rw [hi] at hj
    cases hj
  cases h with
  | overlap j k v w hne hj hk => exact .overlap j k v w hne (hkeep j v hj) (hkeep k w hk)
  | stale j v hj hv => exact .stale j v (hkeep j v hj) hv
  | high hn hr =>
    refine .high hn ?_
    intro j v hv
    rcases update_some hv with ⟨-, heq⟩ | ⟨-, hj⟩
    · cases heq
      exact hn
    · exact hr j v hj

theorem lost_write {c : SharedCount ι} {i : ι} {v : Int} (h : Lost c) (ho : Over c) (hi : c.reads i = some v) :
    Lost { left := c.left - 1, num := v - 1, reads := Function.update c.reads i none } := by
  have hkeep : ∀ j w, j ≠ i → c.reads j = some w → Function.update c.reads i none j = some w := by
    intro j w hne hj
    rw [Function.update_of_ne hne, hj]
  -- what a party has read is too high once another one has written
  have hstale : ∀ j w, j ≠ i → c.reads j = some w →
      Lost { left := c.left - 1, num := v - 1, reads := Function.update c.reads i none } := by
    intro j w hne hj
    have hle := ho.reads j w hj
    exact .stale j w (hkeep j w hne hj) (by simp only; omega)
  have hhigh : c.left < v → Lost { left := c.left - 1, num := v - 1, reads := Function.update c.reads i none } := by
    intro hv
    refine .high (by simp only; omega) ?_
    intro j w hw
    rcases update_some hw with ⟨-, heq⟩ | ⟨-, hj⟩
    · cases heq
    · have hle := ho.reads j w hj
      simp only
      omega
  cases h with
  | overlap j k w x hne hj hk =>
    by_cases hji : j = i
    · exact hstale k x (fun heq => hne (hji.trans heq.symm)) hk
    · exact hstale j w hji hj
  | stale j w hj hw =>
    by_cases hji : j = i
    · rw [hji, hi] at hj
      cases hj
      exact hhigh hw
    · exact hstale j w hji hj
  | high hn hr => exact hhigh (hr i v hi)

theorem lost_access {c c' : SharedCount ι} {a : Access ι} {r : Unit} (h : Lost c) (ho : Over c)
    (hs : access c a = some (c', r)) : Lost c' := by
  obtain ⟨i, rfl, hi, rfl⟩ | ⟨i, v, rfl, hi, rfl⟩ := access_cases hs
  · exact lost_read h hi
  · exact lost_write h ho hi

theorem lost_of_not_apart {c c' : SharedCount ι} {a : Access ι} {r : Unit} (ha : ¬ Apart c a)
    (hs : access c a = some (c', r)) : Lost c' := by
  obtain ⟨i, rfl, hi, rfl⟩ | ⟨i, v, rfl, -, -⟩ := access_cases hs
  · obtain ⟨j, hj⟩ := not_forall.mp ha
    obtain ⟨v, hv⟩ := Option.ne_none_iff_exists'.mp hj
    have hne : j ≠ i := by
      rintro rfl
      exact hj hi
    exact .overlap i j c.num v hne.symm (Function.update_self ..) ((Function.update_of_ne hne ..).trans hv)
  · exact absurd trivial ha

/-! ## Runs -/

section
variable {c c' : SharedCount ι} {as : List (Access ι)} {tr : List (Access ι × Unit)}

theorem over_run (h : Over c) (hr : run access c as = some (c', tr)) : Over c' :=
  run_inv (fun _ _ _ _ h _ hs => over_access h hs) h (guarded_true c as) hr

/-- When nobody is between a read and a write, the counter is right exactly
after the runs in which the decrements have been apart. -/
theorem exact_iff_apart (h : Exact c) (hr : run access c as = some (c', tr)) (hq : ∀ i, c'.reads i = none) :
    c'.num = c'.left ↔ Guarded access Apart c as := by
  constructor
  · intro heq
    apply (guarded_or_spoilt (fun _ _ _ _ h hs => over_access h hs) (fun _ _ _ _ _ ha hs => lost_of_not_apart ha hs)
      (fun _ _ _ _ ho h hs => lost_access h ho hs) h.over hr).resolve_right
    intro hl
    cases hl with
    | overlap i j v w hne hi hj =>
      rw [hq i] at hi
      cases hi
    | stale i v hi hv =>
      rw [hq i] at hi
      cases hi
    | high hn hr => omega
  · intro hg
    exact (run_inv (fun _ _ _ _ h ha hs => exact_access h ha hs) h hg hr).num

end

end SharedCount

end OsLabs
