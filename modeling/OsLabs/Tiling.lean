import Mathlib.Algebra.BigOperators.Group.List.Basic
import Mathlib.Data.List.Chain
import Mathlib.Data.List.Sort
import Mathlib.Tactic.Ring

/-!
# Tilings of an interval by used and free segments

A list of segments tiles an interval if each one starts where the previous one
ends. In a coalesced tiling no two neighbours are free: then the free segments
are exactly the gaps between the used ones, and the used ones determine the
whole list.
-/

namespace OsLabs

structure Seg where
  start : ℤ
  len : ℤ
  used : Bool
  deriving DecidableEq

def Tiles : ℤ → List Seg → ℤ → Prop
  | a, [], e => a = e
  | a, x :: l, e => x.start = a ∧ Tiles (a + x.len) l e

def lengths (l : List Seg) : ℤ := (l.map Seg.len).sum

def Positive (l : List Seg) : Prop := ∀ x ∈ l, 0 < x.len

def Coalesced (l : List Seg) : Prop := l.IsChain fun x y => x.used = true ∨ y.used = true

@[simp] theorem lengths_nil : lengths [] = 0 := rfl

@[simp] theorem lengths_cons (x : Seg) (l : List Seg) : lengths (x :: l) = x.len + lengths l := by
  simp [lengths]

@[simp] theorem lengths_append (l₁ l₂ : List Seg) : lengths (l₁ ++ l₂) = lengths l₁ + lengths l₂ := by
  simp [lengths]

theorem Positive.lengths_nonneg {l : List Seg} (h : Positive l) : 0 ≤ lengths l := by
  induction l with
  | nil => simp
  | cons x l ih =>
    have := h x (by simp)
    have := ih fun y hy => h y (List.mem_cons_of_mem x hy)
    rw [lengths_cons]
    omega

/-! ## Cutting and replacing parts of a tiling -/

theorem Tiles.end_eq : ∀ {l : List Seg} {a e : ℤ}, Tiles a l e → e = a + lengths l
  | [], a, e, h => by simp only [Tiles] at h; simp [h]
  | x :: l, a, e, h => by
    have := Tiles.end_eq h.2
    rw [lengths_cons]
    omega

theorem tiles_append {l₁ l₂ : List Seg} {a e : ℤ} :
    Tiles a (l₁ ++ l₂) e ↔ Tiles a l₁ (a + lengths l₁) ∧ Tiles (a + lengths l₁) l₂ e := by
  induction l₁ generalizing a with
  | nil => simp [Tiles]
  | cons x l₁ ih =>
    simp only [List.cons_append, Tiles, lengths_cons, ih, add_assoc]
    tauto

theorem Tiles.replace {l₁ m m' l₂ : List Seg} {a e : ℤ} (h : Tiles a (l₁ ++ m ++ l₂) e)
    (hm : Tiles (a + lengths l₁) m' (a + lengths l₁ + lengths m)) : Tiles a (l₁ ++ m' ++ l₂) e := by
  have hl := hm.end_eq
  rw [List.append_assoc, tiles_append, tiles_append] at h ⊢
  refine ⟨h.1, hl ▸ hm, ?_⟩
  rw [← hl]
  exact h.2.2

theorem Tiles.start_eq {l₁ l₂ : List Seg} {x : Seg} {a e : ℤ} (h : Tiles a (l₁ ++ x :: l₂) e) :
    x.start = a + lengths l₁ :=
  (tiles_append.mp h).2.1

/-! ## Segments of a positive tiling -/

section
variable {l : List Seg} {a e : ℤ}

theorem Tiles.bounds (h : Tiles a l e) (hp : Positive l) {x : Seg} (hx : x ∈ l) :
    a ≤ x.start ∧ x.start + x.len ≤ e := by
  obtain ⟨l₁, l₂, rfl⟩ := List.append_of_mem hx
  have h₁ : Positive l₁ := fun y hy => hp y (by simp [hy])
  have h₂ : Positive l₂ := fun y hy => hp y (by simp [hy])
  have := h₁.lengths_nonneg
  have := h₂.lengths_nonneg
  have := h.start_eq
  have := h.end_eq
  simp only [lengths_append, lengths_cons] at this
  omega

theorem Tiles.ordered (h : Tiles a l e) (hp : Positive l) :
    l.Pairwise fun x y => x.start + x.len ≤ y.start := by
  induction l generalizing a with
  | nil => exact .nil
  | cons x l ih =>
    have hp' : Positive l := fun y hy => hp y (List.mem_cons_of_mem x hy)
    refine List.pairwise_cons.mpr ⟨?_, ih h.2 hp'⟩
    intro y hy
    rw [h.1]
    exact (Tiles.bounds h.2 hp' hy).1

theorem Tiles.unique (h : Tiles a l e) (hp : Positive l) {x y : Seg} (hx : x ∈ l) (hy : y ∈ l) {i : ℤ}
    (hxi : x.start ≤ i ∧ i < x.start + x.len) (hyi : y.start ≤ i ∧ i < y.start + y.len) : x = y := by
  by_contra hne
  obtain ⟨l₁, l₂, rfl⟩ := List.append_of_mem hx
  have ho := List.pairwise_append.mp (h.ordered hp)
  rcases List.mem_append.mp hy with hy | hy
  · have := ho.2.2 y hy x (by simp)
    omega
  · rcases List.mem_cons.mp hy with hy | hy
    · exact hne hy.symm
    · have := (List.pairwise_cons.mp ho.2.1).1 y hy
      omega

theorem Tiles.start_inj (h : Tiles a l e) (hp : Positive l) {x y : Seg} (hx : x ∈ l) (hy : y ∈ l)
    (hs : x.start = y.start) : x = y := by
  have := hp x hx
  have := hp y hy
  exact h.unique hp hx hy (i := x.start) (by omega) (by omega)

theorem Tiles.cover (h : Tiles a l e) {i : ℤ} (hai : a ≤ i) (hie : i < e) :
    ∃ x ∈ l, x.start ≤ i ∧ i < x.start + x.len := by
  induction l generalizing a with
  | nil => simp only [Tiles] at h; omega
  | cons x l ih =>
    by_cases hi : i < a + x.len
    · exact ⟨x, by simp, by rw [h.1]; omega⟩
    · obtain ⟨y, hy, hyi⟩ := ih h.2 (by omega)
      exact ⟨y, List.mem_cons_of_mem x hy, hyi⟩

theorem Tiles.nodup (h : Tiles a l e) (hp : Positive l) : l.Nodup := by
  refine List.Pairwise.imp_of_mem (fun hx _ hxy heq => ?_) (h.ordered hp)
  have := hp _ hx
  rw [← heq] at hxy
  omega

end

/-! ## Gaps -/

def spans (l : List Seg) : List (ℤ × ℤ) := l.map fun x => (x.start, x.len)

def usedSpans (l : List Seg) : List (ℤ × ℤ) := spans (l.filter fun x => x.used)

def freeSpans (l : List Seg) : List (ℤ × ℤ) := spans (l.filter fun x => !x.used)

theorem mem_usedSpans {l : List Seg} {p : ℤ × ℤ} : p ∈ usedSpans l ↔ ⟨p.1, p.2, true⟩ ∈ l := by
  simp only [usedSpans, spans, List.mem_map, List.mem_filter]
  constructor
  · rintro ⟨⟨s, n, u⟩, ⟨hx, hu⟩, rfl⟩
    simp only at hu
    exact hu ▸ hx
  · exact fun h => ⟨⟨p.1, p.2, true⟩, ⟨h, rfl⟩, rfl⟩

theorem mem_freeSpans {l : List Seg} {p : ℤ × ℤ} : p ∈ freeSpans l ↔ ⟨p.1, p.2, false⟩ ∈ l := by
  simp only [freeSpans, spans, List.mem_map, List.mem_filter]
  constructor
  · rintro ⟨⟨s, n, u⟩, ⟨hx, hu⟩, rfl⟩
    simp only [Bool.not_eq_true'] at hu
    exact hu ▸ hx
  · exact fun h => ⟨⟨p.1, p.2, false⟩, ⟨h, rfl⟩, rfl⟩

@[simp] theorem usedSpans_nil : usedSpans [] = [] := rfl

@[simp] theorem usedSpans_append (l₁ l₂ : List Seg) :
    usedSpans (l₁ ++ l₂) = usedSpans l₁ ++ usedSpans l₂ := by
  simp [usedSpans, spans]

@[simp] theorem usedSpans_cons (x : Seg) (l : List Seg) :
    usedSpans (x :: l) = if x.used then (x.start, x.len) :: usedSpans l else usedSpans l := by
  cases hx : x.used <;> simp [usedSpans, spans, hx]

theorem usedSpans_of_free {l : List Seg} (h : ∀ x ∈ l, x.used = false) : usedSpans l = [] := by
  have : l.filter (fun x => x.used) = [] := List.filter_eq_nil_iff.mpr fun x hx => by simp [h x hx]
  simp [usedSpans, this, spans]

theorem lengths_eq_spans (l : List Seg) :
    lengths l = ((usedSpans l).map Prod.snd).sum + ((freeSpans l).map Prod.snd).sum := by
  induction l with
  | nil => rfl
  | cons x l ih =>
    simp only [usedSpans, freeSpans, spans] at ih ⊢
    cases hx : x.used <;> simp [hx, ih] <;> ring

theorem Tiles.usedSpans_ordered {l : List Seg} {a e : ℤ} (h : Tiles a l e) (hp : Positive l) :
    (usedSpans l).Pairwise fun p q => p.1 + p.2 ≤ q.1 :=
  ((h.ordered hp).filter _).map _ fun _ _ hxy => hxy

def Covered (live : List (ℤ × ℤ)) (i : ℤ) : Prop := ∃ p ∈ live, p.1 ≤ i ∧ i < p.1 + p.2

/-- `p` is a maximal stretch of `[lo, hi)` that no span of `live` meets. -/
structure IsGap (live : List (ℤ × ℤ)) (lo hi : ℤ) (p : ℤ × ℤ) : Prop where
  pos : 0 < p.2
  inside : lo ≤ p.1 ∧ p.1 + p.2 ≤ hi
  clear : ∀ i, p.1 ≤ i → i < p.1 + p.2 → ¬ Covered live i
  left : p.1 = lo ∨ Covered live (p.1 - 1)
  right : p.1 + p.2 = hi ∨ Covered live (p.1 + p.2)

theorem IsGap.left_end {live : List (ℤ × ℤ)} {lo hi : ℤ} {p : ℤ × ℤ} (hg : IsGap live lo hi p) :
    p.1 = lo ∨ ∃ q ∈ live, q.1 + q.2 = p.1 := by
  apply hg.left.imp_right
  intro ⟨q, hq, hle, hlt⟩
  have hpos := hg.pos
  have hno := hg.clear p.1 (le_refl _) (by omega)
  refine ⟨q, hq, ?_⟩
  by_contra hne
  exact hno ⟨q, hq, by omega, by omega⟩

theorem IsGap.right_end {live : List (ℤ × ℤ)} {lo hi : ℤ} {p : ℤ × ℤ} (hg : IsGap live lo hi p) :
    p.1 + p.2 = hi ∨ ∃ q ∈ live, q.1 = p.1 + p.2 := by
  apply hg.right.imp_right
  intro ⟨q, hq, hle, hlt⟩
  have hpos := hg.pos
  have hno := hg.clear (p.1 + p.2 - 1) (by omega) (by omega)
  refine ⟨q, hq, ?_⟩
  by_contra hne
  exact hno ⟨q, hq, by omega, by omega⟩

/-- Between spans of one length on the grid of that length, the gaps are on the grid. -/
theorem IsGap.grid {live : List (ℤ × ℤ)} {lo hi k : ℤ} {p : ℤ × ℤ}
    (hl : ∀ q ∈ live, q.2 = k ∧ k ∣ q.1 - lo) (hk : k ∣ hi - lo) (hg : IsGap live lo hi p) :
    k ∣ p.1 - lo ∧ k ∣ p.2 := by
  have hstart : k ∣ p.1 - lo := by
    rcases hg.left_end with h | ⟨q, hq, h⟩
    · rw [h, sub_self]
      exact Int.dvd_zero k
    · obtain ⟨hlen, hdvd⟩ := hl q hq
      rw [← h, hlen, add_sub_right_comm]
      exact Int.dvd_add hdvd (Int.dvd_refl k)
  have hend : k ∣ p.1 + p.2 - lo := by
    rcases hg.right_end with h | ⟨q, hq, h⟩
    · rw [h]
      exact hk
    · rw [← h]
      exact (hl q hq).2
  rw [add_sub_right_comm] at hend
  exact ⟨hstart, (Int.dvd_add_right hstart).mp hend⟩

theorem covered_congr {live live' : List (ℤ × ℤ)} (h : ∀ p, p ∈ live ↔ p ∈ live') (i : ℤ) :
    Covered live i ↔ Covered live' i := by
  simp only [Covered, h]

theorem isGap_congr {live live' : List (ℤ × ℤ)} (h : ∀ p, p ∈ live ↔ p ∈ live') {lo hi : ℤ} {p : ℤ × ℤ}
    (hg : IsGap live lo hi p) : IsGap live' lo hi p where
  pos := hg.pos
  inside := hg.inside
  clear i h1 h2 := (covered_congr h i).not.mp (hg.clear i h1 h2)
  left := hg.left.imp_right (covered_congr h _).mp
  right := hg.right.imp_right (covered_congr h _).mp

theorem Tiles.usedSpans_filter {xs ys : List Seg} {b : Seg} {a e : ℤ} (h : Tiles a (xs ++ b :: ys) e)
    (hp : Positive (xs ++ b :: ys)) :
    (usedSpans (xs ++ b :: ys)).filter (fun q => decide (q.1 ≠ b.start)) = usedSpans xs ++ usedSpans ys := by
  have hnd := h.nodup hp
  have hne : ∀ q ∈ usedSpans xs ++ usedSpans ys, q.1 ≠ b.start := by
    intro q hq heq
    have hm : ⟨q.1, q.2, true⟩ ∈ xs ++ ys := by
      rw [← usedSpans_append] at hq
      exact mem_usedSpans.mp hq
    have hm' : ⟨q.1, q.2, true⟩ ∈ xs ++ b :: ys := List.mem_append.mpr
      ((List.mem_append.mp hm).imp_right fun h => List.mem_cons_of_mem b h)
    rw [h.start_inj hp hm' (by simp) heq] at hm
    exact (List.nodup_middle.mp hnd).notMem hm
  have hself : (usedSpans xs ++ usedSpans ys).filter (fun q => decide (q.1 ≠ b.start)) =
      usedSpans xs ++ usedSpans ys := List.filter_eq_self.mpr fun q hq => by simpa using hne q hq
  rw [List.filter_append] at hself
  rw [usedSpans_append, List.filter_append, usedSpans_cons]
  split
  · rw [List.filter_cons_of_neg (by simp), hself]
  · exact hself

section
variable {l : List Seg} {a e : ℤ} (ht : Tiles a l e) (hp : Positive l)
include ht hp

theorem Tiles.covered_iff {x : Seg} (hx : x ∈ l) {i : ℤ} (hi : x.start ≤ i ∧ i < x.start + x.len) :
    Covered (usedSpans l) i ↔ x.used = true := by
  constructor
  · intro ⟨p, hm, hpi⟩
    have := ht.unique hp hx (mem_usedSpans.mp hm) hi hpi
    rw [this]
  · intro hu
    exact ⟨(x.start, x.len), mem_usedSpans.mpr (by rw [← hu]; exact hx), hi⟩

variable (hc : Coalesced l)
include hc

theorem Tiles.after_free {x : Seg} (hx : x ∈ l) (hf : x.used = false) :
    x.start + x.len = e ∨ Covered (usedSpans l) (x.start + x.len) := by
  obtain ⟨l₁, l₂, rfl⟩ := List.append_of_mem hx
  cases l₂ with
  | nil =>
    left
    have := ht.end_eq
    have := ht.start_eq
    simp only [lengths_append, lengths_cons, lengths_nil] at *
    omega
  | cons y l₂ =>
    right
    have hy : y.start = x.start + x.len := by
      have h1 := ht.start_eq
      have h2 := (show Tiles a ((l₁ ++ [x]) ++ y :: l₂) e by simpa using ht).start_eq
      simp only [lengths_append, lengths_cons, lengths_nil] at h2
      omega
    have hpy := hp y (by simp)
    rw [ht.covered_iff hp (x := y) (by simp) (by omega)]
    have := List.isChain_iff_forall_rel_of_append_cons_cons.mp hc rfl
    simpa [hf] using this

theorem Tiles.before_free {x : Seg} (hx : x ∈ l) (hf : x.used = false) :
    x.start = a ∨ Covered (usedSpans l) (x.start - 1) := by
  obtain ⟨l₁, l₂, rfl⟩ := List.append_of_mem hx
  rcases List.eq_nil_or_concat l₁ with rfl | ⟨l₁, y, rfl⟩
  · left
    simpa using ht.start_eq
  · right
    rw [List.concat_eq_append] at *
    have hl : (l₁ ++ [y]) ++ x :: l₂ = l₁ ++ y :: x :: l₂ := by simp
    have hy : y.start + y.len = x.start := by
      have h2 := ht.start_eq
      have h1 := (hl ▸ ht).start_eq
      simp only [lengths_append, lengths_cons, lengths_nil] at h2
      omega
    have hpy := hp y (by simp)
    rw [ht.covered_iff hp (x := y) (by simp) (by omega)]
    have := List.isChain_iff_forall_rel_of_append_cons_cons.mp hc hl
    simpa [hf] using this

/-- The free segments of a coalesced tiling are the gaps between the used ones. -/
theorem Tiles.mem_freeSpans_iff (p : ℤ × ℤ) : p ∈ freeSpans l ↔ IsGap (usedSpans l) a e p := by
  rw [mem_freeSpans]
  constructor
  · intro hx
    refine ⟨hp _ hx, ht.bounds hp hx, ?_, ht.before_free hp hc hx rfl, ht.after_free hp hc hx rfl⟩
    intro i h1 h2
    rw [ht.covered_iff hp hx ⟨h1, h2⟩]
    exact Bool.false_ne_true
  · intro hg
    have hin := hg.inside
    have hpos := hg.pos
    -- the free segment that holds the first point of the gap
    obtain ⟨x, hx, hxi⟩ := ht.cover hin.1 (by omega)
    have hf : x.used = false := by
      rw [← Bool.not_eq_true, ← ht.covered_iff hp hx hxi]
      exact hg.clear p.1 (le_refl _) (by omega)
    have hstart : x.start = p.1 := by
      by_contra hne
      rcases hg.left with h | h
      · have := (ht.bounds hp hx).1
        omega
      · rw [ht.covered_iff hp hx (by omega), hf] at h
        exact Bool.false_ne_true h
    have hend : x.start + x.len = p.1 + p.2 := by
      rcases lt_trichotomy (x.start + x.len) (p.1 + p.2) with h | h | h
      · rcases ht.after_free hp hc hx hf with h' | h'
        · omega
        · exact absurd h' (hg.clear _ (by omega) (by omega))
      · exact h
      · rcases hg.right with h' | h'
        · have := (ht.bounds hp hx).2
          omega
        · rw [ht.covered_iff hp hx (by omega), hf] at h'
          exact absurd h' Bool.false_ne_true
    have : (⟨p.1, p.2, false⟩ : Seg) = x := by
      rw [← hf, ← hstart]
      have : p.2 = x.len := by omega
      rw [this]
    rw [this]
    exact hx

end

/-! ## Carving a used segment out of a free one -/

/-- The first `r` of the segment become used; what is left over stays free. -/
def carve (r : ℤ) (b : Seg) : List Seg :=
  if b.len = r then [⟨b.start, r, true⟩] else [⟨b.start, r, true⟩, ⟨b.start + r, b.len - r, false⟩]

section
variable {xs ys : List Seg} {b : Seg} {a e r : ℤ}

@[simp] theorem usedSpans_carve : usedSpans (carve r b) = [(b.start, r)] := by
  unfold carve
  split <;> simp

theorem Tiles.carve (h : Tiles a (xs ++ b :: ys) e) : Tiles a (xs ++ carve r b ++ ys) e := by
  have hs := h.start_eq
  refine Tiles.replace (m := [b]) (by simpa using h) ?_
  unfold OsLabs.carve
  split <;> simp only [Tiles, lengths_cons, lengths_nil] <;> omega

theorem Positive.carve (h : Positive (xs ++ b :: ys)) (hr : 0 < r) (hb : r ≤ b.len) :
    Positive (xs ++ carve r b ++ ys) := by
  intro x hx
  rcases List.mem_append.mp hx with hx | hx
  · rcases List.mem_append.mp hx with hx | hx
    · exact h x (by simp [hx])
    · unfold OsLabs.carve at hx
      split at hx <;> simp only [List.mem_cons, List.not_mem_nil, or_false] at hx
      · rw [hx]; exact hr
      · rcases hx with hx | hx <;> rw [hx]
        · exact hr
        · show 0 < b.len - r
          omega
  · exact h x (by simp [hx])

theorem Coalesced.carve (h : Coalesced (xs ++ b :: ys)) (hb : b.used = false) :
    Coalesced (xs ++ carve r b ++ ys) := by
  obtain ⟨hx, hby, hxb⟩ := List.isChain_append.mp h
  obtain ⟨hbh, hy⟩ := List.isChain_cons.mp hby
  rw [List.append_assoc]
  refine List.isChain_append.mpr ⟨hx, ?_, fun x hx' y hy' => Or.inr ?_⟩
  · unfold OsLabs.carve
    split
    · exact List.isChain_cons.mpr ⟨fun y _ => Or.inl rfl, hy⟩
    · refine List.isChain_cons.mpr ⟨fun y _ => Or.inl rfl, List.isChain_cons.mpr ⟨?_, hy⟩⟩
      intro y hy'
      exact Or.inr (by simpa [hb] using hbh y hy')
  · unfold OsLabs.carve at hy'
    split at hy' <;> cases hy' <;> rfl

end

/-! ## Merging a run of segments into one free segment -/

def merged (s : ℤ) (run : List Seg) : Seg := ⟨s, lengths run, false⟩

section
variable {xs run ys : List Seg} {a e : ℤ}

theorem Tiles.merge (h : Tiles a (xs ++ run ++ ys) e) :
    Tiles a (xs ++ merged (a + lengths xs) run :: ys) e := by
  have hm : Tiles (a + lengths xs) [merged (a + lengths xs) run] (a + lengths xs + lengths run) := ⟨rfl, rfl⟩
  have := h.replace hm
  simpa using this

theorem Positive.merge {s : ℤ} (h : Positive (xs ++ run ++ ys)) (hr : run ≠ []) :
    Positive (xs ++ merged s run :: ys) := by
  have hrun : 0 < lengths run := by
    cases run with
    | nil => exact absurd rfl hr
    | cons x run =>
      have := h x (by simp)
      have := Positive.lengths_nonneg (l := run) fun y hy => h y (by simp [hy])
      rw [lengths_cons]
      omega
  intro x hx
  rcases List.mem_append.mp hx with hx | hx
  · exact h x (by simp [hx])
  · rcases List.mem_cons.mp hx with hx | hx
    · rw [hx]; exact hrun
    · exact h x (by simp [hx])

theorem Coalesced.merge {s : ℤ} (hx : Coalesced xs) (hy : Coalesced ys)
    (hxu : ∀ x ∈ xs.getLast?, x.used = true) (hyu : ∀ y ∈ ys.head?, y.used = true) :
    Coalesced (xs ++ merged s run :: ys) := by
  refine List.isChain_append.mpr ⟨hx, List.isChain_cons.mpr ⟨fun y h => Or.inr (hyu y h), hy⟩, ?_⟩
  exact fun x h _ _ => Or.inl (hxu x h)

end

/-- Two coalesced tilings of one interval with the same used spans are equal. -/
theorem Tiles.ext {l l' : List Seg} {a e : ℤ} (h : Tiles a l e) (h' : Tiles a l' e) (hp : Positive l)
    (hp' : Positive l') (hc : Coalesced l) (hc' : Coalesced l')
    (hu : ∀ p, p ∈ usedSpans l ↔ p ∈ usedSpans l') : l = l' := by
  have hmem : ∀ x, x ∈ l ↔ x ∈ l' := by
    intro ⟨s, n, u⟩
    cases u with
    | true => simpa [mem_usedSpans] using hu (s, n)
    | false =>
      have h1 := h.mem_freeSpans_iff hp hc (s, n)
      have h2 := h'.mem_freeSpans_iff hp' hc' (s, n)
      rw [mem_freeSpans] at h1 h2
      rw [h1, h2]
      exact ⟨isGap_congr hu, isGap_congr fun p => (hu p).symm⟩
  have hperm := (List.perm_ext_iff_of_nodup (h.nodup hp) (h'.nodup hp')).mpr hmem
  refine hperm.eq_of_pairwise ?_ (h.ordered hp) (h'.ordered hp')
  intro x y hx hy hxy hyx
  have := hp x hx
  have := hp' y hy
  omega

end OsLabs
