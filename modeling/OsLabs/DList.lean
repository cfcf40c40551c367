import Mathlib.Data.List.Nodup
import Mathlib.Data.Finset.Card
import Mathlib.Logic.Function.Basic

/-!
# Doubly linked lists in a store of nodes

The store holds the nodes that have been allocated and not freed since. An
access to any other node is undefined, so a defined program follows no stale
pointer. `Links` reads a part of a list node by node, which is what surgery
needs; `WellLinked` is the whole list as the loops that walk over it see it.
-/

namespace OsLabs.DList

structure Node (α : Type*) where
  prev : Option Nat
  next : Option Nat
  val : α
  deriving DecidableEq

structure Store (α : Type*) where
  node : Nat → Option (Node α)
  /-- The next node that an allocation returns. -/
  fresh : Nat
  unused : ∀ i, fresh ≤ i → node i = none

section
variable {α : Type*}

namespace Store

def empty : Store α := ⟨fun _ => none, 0, fun _ _ => rfl⟩

def malloc (σ : Store α) (n : Node α) : Store α where
  node := Function.update σ.node σ.fresh (some n)
  fresh := σ.fresh + 1
  unused i hi := by
    rw [Function.update_of_ne (by omega)]
    exact σ.unused i (by omega)

def modify (σ : Store α) (i : Nat) (f : Node α → Node α) : Option (Store α) :=
  (σ.node i).map fun _ =>
    { node := Function.update σ.node i ((σ.node i).map f)
      fresh := σ.fresh
      unused := by
        intro j hj
        rcases eq_or_ne j i with rfl | hij
        · simp [σ.unused j hj]
        · rw [Function.update_of_ne hij, σ.unused j hj] }

def free (σ : Store α) (i : Nat) : Option (Store α) :=
  (σ.node i).map fun _ =>
    { node := Function.update σ.node i none
      fresh := σ.fresh
      unused := by
        intro j hj
        rcases eq_or_ne j i with rfl | hij
        · simp
        · rw [Function.update_of_ne hij, σ.unused j hj] }

def setPrev (σ : Store α) (i : Nat) (p : Option Nat) : Option (Store α) := σ.modify i fun n => { n with prev := p }

def setNext (σ : Store α) (i : Nat) (p : Option Nat) : Option (Store α) := σ.modify i fun n => { n with next := p }

def setVal (σ : Store α) (i : Nat) (f : α → α) : Option (Store α) := σ.modify i fun n => { n with val := f n.val }

/-- `if(ptr) ptr->prev = p;` -/
def setPrevAt (σ : Store α) (ptr p : Option Nat) : Option (Store α) :=
  match ptr with
  | none => some σ
  | some i => σ.setPrev i p

/-- `if(ptr) ptr->next = p;` -/
def setNextAt (σ : Store α) (ptr p : Option Nat) : Option (Store α) :=
  match ptr with
  | none => some σ
  | some i => σ.setNext i p

/-- The node has been allocated, and freed since. -/
def Freed (σ : Store α) (i : Nat) : Prop := i < σ.fresh ∧ σ.node i = none

theorem lt_fresh {σ : Store α} {i : Nat} {n : Node α} (h : σ.node i = some n) : i < σ.fresh := by
  by_contra hi
  rw [σ.unused i (by omega)] at h
  cases h

/-- The nodes outside `s` are the same in both stores. -/
structure Same (s : List Nat) (σ σ' : Store α) : Prop where
  fresh : σ'.fresh = σ.fresh
  node : ∀ i ∉ s, σ'.node i = σ.node i

theorem Same.refl (s : List Nat) (σ : Store α) : Same s σ σ := ⟨rfl, fun _ _ => rfl⟩

theorem Same.trans {s : List Nat} {σ σ' σ'' : Store α} (h : Same s σ σ') (h' : Same s σ' σ'') : Same s σ σ'' :=
  ⟨h'.fresh.trans h.fresh, fun i hi => (h'.node i hi).trans (h.node i hi)⟩

theorem Same.mono {s t : List Nat} {σ σ' : Store α} (h : Same s σ σ') (hst : s ⊆ t) : Same t σ σ' :=
  ⟨h.fresh, fun i hi => h.node i fun his => hi (hst his)⟩

theorem modify_eq {σ : Store α} {i : Nat} {n : Node α} (h : σ.node i = some n) (f : Node α → Node α) :
    ∃ σ', σ.modify i f = some σ' ∧ σ'.node i = some (f n) ∧ Same [i] σ σ' := by
  refine ⟨_, Option.map_eq_some_iff.mpr ⟨n, h, rfl⟩, ?_, rfl, ?_⟩
  · simp [h]
  · intro j hj
    exact Function.update_of_ne (by simpa using hj) _ _

theorem setPrev_eq {σ : Store α} {i : Nat} {n : Node α} (h : σ.node i = some n) (p : Option Nat) :
    ∃ σ', σ.setPrev i p = some σ' ∧ σ'.node i = some { n with prev := p } ∧ Same [i] σ σ' :=
  modify_eq h fun n => { n with prev := p }

theorem setNext_eq {σ : Store α} {i : Nat} {n : Node α} (h : σ.node i = some n) (p : Option Nat) :
    ∃ σ', σ.setNext i p = some σ' ∧ σ'.node i = some { n with next := p } ∧ Same [i] σ σ' :=
  modify_eq h fun n => { n with next := p }

theorem setVal_eq {σ : Store α} {i : Nat} {n : Node α} (h : σ.node i = some n) (f : α → α) :
    ∃ σ', σ.setVal i f = some σ' ∧ σ'.node i = some { n with val := f n.val } ∧ Same [i] σ σ' :=
  modify_eq h fun n => { n with val := f n.val }

theorem free_eq {σ : Store α} {i : Nat} {n : Node α} (h : σ.node i = some n) :
    ∃ σ', σ.free i = some σ' ∧ σ'.node i = none ∧ Same [i] σ σ' := by
  refine ⟨_, Option.map_eq_some_iff.mpr ⟨n, h, rfl⟩, ?_, rfl, ?_⟩
  · exact Function.update_self _ _ _
  · intro j hj
    exact Function.update_of_ne (by simpa using hj) _ _

@[simp] theorem malloc_fresh (σ : Store α) (n : Node α) : (σ.malloc n).fresh = σ.fresh + 1 := rfl

@[simp] theorem malloc_node (σ : Store α) (n : Node α) : (σ.malloc n).node σ.fresh = some n :=
  Function.update_self _ _ _

theorem malloc_node_of_ne (σ : Store α) (n : Node α) {i : Nat} (h : i ≠ σ.fresh) : (σ.malloc n).node i = σ.node i :=
  Function.update_of_ne h _ _

end Store

/-! ## Parts of a list -/

def ids (l : List (Nat × α)) : List Nat := l.map Prod.fst

/-- The first node of the part, and the node behind the part if it is empty. -/
def firstId : List (Nat × α) → Option Nat → Option Nat
  | [], n => n
  | (i, _) :: _, _ => some i

def lastId : Option Nat → List (Nat × α) → Option Nat
  | p, [] => p
  | _, (i, _) :: rest => lastId (some i) rest

/-- The part `l` of a list, after the node `p` and before the node `n`. -/
def Links (σ : Store α) : Option Nat → List (Nat × α) → Option Nat → Prop
  | _, [], _ => True
  | p, (i, a) :: rest, n => σ.node i = some ⟨p, firstId rest n, a⟩ ∧ Links σ (some i) rest n

@[simp] theorem ids_nil : ids ([] : List (Nat × α)) = [] := rfl

@[simp] theorem ids_cons (x : Nat × α) (l : List (Nat × α)) : ids (x :: l) = x.1 :: ids l := rfl

@[simp] theorem ids_append (xs ys : List (Nat × α)) : ids (xs ++ ys) = ids xs ++ ids ys := List.map_append

theorem mem_ids {l : List (Nat × α)} {i : Nat} : i ∈ ids l ↔ ∃ a, (i, a) ∈ l := by simp [ids]

@[simp] theorem firstId_nil (n : Option Nat) : firstId ([] : List (Nat × α)) n = n := rfl

@[simp] theorem firstId_cons (x : Nat × α) (l : List (Nat × α)) (n : Option Nat) : firstId (x :: l) n = some x.1 := rfl

@[simp] theorem lastId_nil (p : Option Nat) : lastId p ([] : List (Nat × α)) = p := rfl

@[simp] theorem lastId_cons (p : Option Nat) (x : Nat × α) (l : List (Nat × α)) :
    lastId p (x :: l) = lastId (some x.1) l := rfl

theorem firstId_eq_none {l : List (Nat × α)} : firstId l none = none ↔ l = [] := by
  cases l <;> simp

theorem firstId_append (xs ys : List (Nat × α)) (n : Option Nat) :
    firstId (xs ++ ys) n = firstId xs (firstId ys n) := by
  cases xs <;> rfl

/-- What follows a node, and its value, make no difference to the first node. -/
theorem firstId_middle (xs : List (Nat × α)) (i : Nat) (a b : α) (ys zs : List (Nat × α)) (n : Option Nat) :
    firstId (xs ++ (i, a) :: ys) n = firstId (xs ++ (i, b) :: zs) n := by
  rw [firstId_append, firstId_append]
  rfl

theorem lastId_append (p : Option Nat) (xs ys : List (Nat × α)) :
    lastId p (xs ++ ys) = lastId (lastId p xs) ys := by
  induction xs generalizing p with
  | nil => rfl
  | cons x xs ih => exact ih _

theorem lastId_eq_none {l : List (Nat × α)} : lastId none l = none ↔ l = [] := by
  rcases List.eq_nil_or_concat l with rfl | ⟨xs, x, rfl⟩
  · simp
  · simp [lastId_append]

theorem firstId_mem {l : List (Nat × α)} {i : Nat} (h : firstId l none = some i) : i ∈ ids l := by
  cases l with
  | nil => cases h
  | cons x l =>
    cases h
    exact List.mem_cons_self

theorem lastId_mem {l : List (Nat × α)} {i : Nat} (h : lastId none l = some i) : i ∈ ids l := by
  rcases List.eq_nil_or_concat l with rfl | ⟨xs, x, rfl⟩
  · cases h
  · rw [List.concat_eq_append, lastId_append] at h
    cases h
    simp

theorem links_append {σ : Store α} {p n : Option Nat} {xs ys : List (Nat × α)} :
    Links σ p (xs ++ ys) n ↔ Links σ p xs (firstId ys n) ∧ Links σ (lastId p xs) ys n := by
  induction xs generalizing p with
  | nil => simp [Links, lastId]
  | cons x xs ih =>
    rw [List.cons_append, Links, Links, ih, firstId_append, and_assoc]
    rfl

theorem Links.congr {σ σ' : Store α} {p n : Option Nat} {l : List (Nat × α)} (h : Links σ p l n)
    (hσ : ∀ i ∈ ids l, σ'.node i = σ.node i) : Links σ' p l n := by
  induction l generalizing p with
  | nil => trivial
  | cons x l ih =>
    obtain ⟨hx, hl⟩ := List.forall_mem_cons.mp hσ
    exact ⟨hx.trans h.1, ih h.2 hl⟩

/-- What is done to other nodes does not change the part. -/
theorem Links.frame {σ σ' : Store α} {p n : Option Nat} {l : List (Nat × α)} {s : List Nat} (h : Links σ p l n)
    (hσ : σ.Same s σ') (hs : List.Disjoint s (ids l)) : Links σ' p l n :=
  h.congr fun i hi => hσ.node i fun his => hs his hi

theorem Links.node {σ : Store α} {p n : Option Nat} {xs ys : List (Nat × α)} {i : Nat} {a : α}
    (h : Links σ p (xs ++ (i, a) :: ys) n) : σ.node i = some ⟨lastId p xs, firstId ys n, a⟩ :=
  (links_append.mp h).2.1

theorem Links.live {σ : Store α} {p n : Option Nat} {l : List (Nat × α)} (h : Links σ p l n) {i : Nat}
    (hi : i ∈ ids l) : ∃ m, σ.node i = some m := by
  obtain ⟨a, ha⟩ := mem_ids.mp hi
  obtain ⟨xs, ys, rfl⟩ := List.append_of_mem ha
  exact ⟨_, h.node⟩

theorem Links.ne_fresh {σ : Store α} {p n : Option Nat} {l : List (Nat × α)} (h : Links σ p l n) {i : Nat}
    (hi : i ∈ ids l) : i ≠ σ.fresh := by
  obtain ⟨m, hm⟩ := h.live hi
  exact Nat.ne_of_lt (Store.lt_fresh hm)

theorem Links.malloc {σ : Store α} {p n : Option Nat} {l : List (Nat × α)} (h : Links σ p l n) (m : Node α) :
    Links (σ.malloc m) p l n :=
  h.congr fun _ hi => Store.malloc_node_of_ne σ m (h.ne_fresh hi)

/-- The number of nodes ever allocated bounds the length of every list. -/
theorem Links.length_le {σ : Store α} {p n : Option Nat} {l : List (Nat × α)} (h : Links σ p l n)
    (hd : (ids l).Nodup) : l.length ≤ σ.fresh := by
  have hsub : (ids l).toFinset ⊆ Finset.range σ.fresh := by
    intro i hi
    obtain ⟨m, hm⟩ := h.live (List.mem_toFinset.mp hi)
    exact Finset.mem_range.mpr (Store.lt_fresh hm)
  have hcard := Finset.card_le_card hsub
  rw [List.toFinset_card_of_nodup hd, Finset.card_range] at hcard
  simpa [ids] using hcard

/-! ## Surgery -/

theorem firstId_toList (l : List (Nat × α)) : (firstId l none).toList ⊆ ids l := by
  intro i hi
  exact firstId_mem (Option.mem_toList.mp hi)

theorem lastId_toList (l : List (Nat × α)) : (lastId none l).toList ⊆ ids l := by
  intro i hi
  exact lastId_mem (Option.mem_toList.mp hi)

/-- The rest of a list gets another predecessor. -/
theorem Links.setFirst {σ : Store α} {p : Option Nat} {ys : List (Nat × α)} (h : Links σ p ys none)
    (hd : (ids ys).Nodup) (q : Option Nat) :
    ∃ σ', σ.setPrevAt (firstId ys none) q = some σ' ∧ Links σ' q ys none ∧ σ.Same (firstId ys none).toList σ' := by
  cases ys with
  | nil => exact ⟨σ, rfl, trivial, .refl _ σ⟩
  | cons y ys =>
    obtain ⟨hy, hys⟩ := h
    obtain ⟨σ', hσ', hn, hs⟩ := Store.setPrev_eq hy q
    refine ⟨σ', hσ', ⟨hn, hys.frame hs ?_⟩, hs⟩
    exact List.singleton_disjoint.mpr (List.nodup_cons.mp hd).1

/-- The beginning of a list gets another successor. -/
theorem Links.setLast {σ : Store α} {n : Option Nat} {xs : List (Nat × α)} (h : Links σ none xs n)
    (hd : (ids xs).Nodup) (q : Option Nat) :
    ∃ σ', σ.setNextAt (lastId none xs) q = some σ' ∧ Links σ' none xs q ∧ σ.Same (lastId none xs).toList σ' := by
  rcases List.eq_nil_or_concat xs with rfl | ⟨xs, x, rfl⟩
  · exact ⟨σ, rfl, trivial, .refl _ σ⟩
  · rw [List.concat_eq_append] at h hd ⊢
    obtain ⟨hxs, hx, -⟩ := links_append.mp h
    obtain ⟨σ', hσ', hn, hs⟩ := Store.setNext_eq hx q
    rw [lastId_append]
    refine ⟨σ', hσ', links_append.mpr ⟨hxs.frame hs ?_, hn, trivial⟩, hs⟩
    rw [ids_append, ids_cons, List.nodup_append] at hd
    intro i hi hix
    exact hd.2.2 i hix x.1 List.mem_cons_self (List.mem_singleton.mp hi)

theorem nodup_middle {xs ys : List (Nat × α)} {i : Nat} {a : α} :
    (ids (xs ++ (i, a) :: ys)).Nodup ↔ i ∉ ids xs ∧ i ∉ ids ys ∧ (ids (xs ++ ys)).Nodup := by
  rw [ids_append, ids_cons, List.nodup_middle, List.nodup_cons, List.mem_append, not_or, and_assoc, ids_append]

theorem Links.setVal {σ : Store α} {p n : Option Nat} {xs ys : List (Nat × α)} {i : Nat} {a : α}
    (h : Links σ p (xs ++ (i, a) :: ys) n) (hd : (ids (xs ++ (i, a) :: ys)).Nodup) (f : α → α) :
    ∃ σ', σ.setVal i f = some σ' ∧ Links σ' p (xs ++ (i, f a) :: ys) n ∧ σ.Same [i] σ' := by
  obtain ⟨hxi, hyi, -⟩ := nodup_middle.mp hd
  obtain ⟨hxs, hi, hys⟩ := links_append.mp h
  obtain ⟨σ', hσ', hn, hs⟩ := Store.setVal_eq hi f
  exact ⟨σ', hσ', links_append.mpr ⟨hxs.frame hs (List.singleton_disjoint.mpr hxi), hn,
    hys.frame hs (List.singleton_disjoint.mpr hyi)⟩, hs⟩

/-- `i->next = next; if(next) next->prev = i;` where `next` is the node behind the next one. -/
theorem Links.unlinkNext {σ : Store α} {p : Option Nat} {xs ys : List (Nat × α)} {i j : Nat} {a b : α}
    (h : Links σ p (xs ++ (i, a) :: (j, b) :: ys) none) (hd : (ids (xs ++ (i, a) :: (j, b) :: ys)).Nodup) :
    ∃ σ₁ σ₂, σ.setNext i (firstId ys none) = some σ₁ ∧ σ₁.setPrevAt (firstId ys none) (some i) = some σ₂ ∧
      Links σ₂ p (xs ++ (i, a) :: ys) none ∧ σ.Same (i :: (firstId ys none).toList) σ₂ := by
  obtain ⟨hxi, hyi, hd⟩ := nodup_middle.mp hd
  obtain ⟨-, -, hd⟩ := nodup_middle.mp hd
  rw [ids_append, List.nodup_append'] at hd
  obtain ⟨-, hdy, hxy⟩ := hd
  rw [ids_cons, List.mem_cons, not_or] at hyi
  obtain ⟨hxs, hi, -, hys⟩ := links_append.mp h
  obtain ⟨σ₁, hσ₁, hi₁, hs₁⟩ := Store.setNext_eq hi (firstId ys none)
  obtain ⟨σ₂, hσ₂, hys₂, hs₂⟩ := (hys.frame hs₁ (List.singleton_disjoint.mpr hyi.2)).setFirst hdy (some i)
  have hs : σ.Same (i :: (firstId ys none).toList) σ₂ :=
    (hs₁.mono (by simp)).trans (hs₂.mono (List.subset_cons_self _ _))
  refine ⟨σ₁, σ₂, hσ₁, hσ₂, links_append.mpr ⟨hxs.frame hs ?_, ?_, hys₂⟩, hs⟩
  · refine List.disjoint_cons_left.mpr ⟨hxi, ?_⟩
    exact List.disjoint_of_subset_left (firstId_toList ys) hxy.symm
  · exact (hs₂.node i fun hmem => hyi.2 (firstId_toList ys hmem)).trans hi₁

/-- `k->next = i->next; if(k->next) k->next->prev = k; k->prev = i; i->next = k;` -/
theorem Links.insertAfter {σ : Store α} {p : Option Nat} {xs ys : List (Nat × α)} {i k : Nat} {a : α} {m : Node α}
    (h : Links σ p (xs ++ (i, a) :: ys) none) (hd : (ids (xs ++ (i, a) :: ys)).Nodup) (hk : σ.node k = some m)
    (hkl : k ∉ ids (xs ++ (i, a) :: ys)) :
    ∃ σ₁ σ₂ σ₃ σ₄, σ.setNext k (firstId ys none) = some σ₁ ∧ σ₁.setPrevAt (firstId ys none) (some k) = some σ₂ ∧
      σ₂.setPrev k (some i) = some σ₃ ∧ σ₃.setNext i (some k) = some σ₄ ∧
      Links σ₄ p (xs ++ (i, a) :: (k, m.val) :: ys) none ∧ σ.Same (k :: i :: (firstId ys none).toList) σ₄ := by
  obtain ⟨hxi, hyi, hd⟩ := nodup_middle.mp hd
  rw [ids_append, List.nodup_append'] at hd
  obtain ⟨-, hdy, hxy⟩ := hd
  rw [ids_append, ids_cons, List.mem_append, List.mem_cons, not_or, not_or] at hkl
  obtain ⟨hkx, hki, hky⟩ := hkl
  have hsub := firstId_toList ys
  obtain ⟨hxs, hi, hys⟩ := links_append.mp h
  obtain ⟨σ₁, hσ₁, hk₁, hs₁⟩ := Store.setNext_eq hk (firstId ys none)
  obtain ⟨σ₂, hσ₂, hys₂, hs₂⟩ := (hys.frame hs₁ (List.singleton_disjoint.mpr hky)).setFirst hdy (some k)
  have hk₂ := (hs₂.node k fun hmem => hky (hsub hmem)).trans hk₁
  obtain ⟨σ₃, hσ₃, hk₃, hs₃⟩ := Store.setPrev_eq hk₂ (some i)
  have hs : σ.Same (k :: (firstId ys none).toList) σ₃ :=
    ((hs₁.mono (by simp)).trans (hs₂.mono (List.subset_cons_self _ _))).trans (hs₃.mono (by simp))
  have hi₃ : σ₃.node i = _ := (hs.node i fun hmem => by
    rcases List.mem_cons.mp hmem with rfl | hmem
    · exact hki rfl
    · exact hyi (hsub hmem)).trans hi
  obtain ⟨σ₄, hσ₄, hi₄, hs₄⟩ := Store.setNext_eq hi₃ (some k)
  have hs' : σ.Same (k :: i :: (firstId ys none).toList) σ₄ :=
    (hs.mono (List.cons_subset_cons _ (List.subset_cons_self _ _))).trans (hs₄.mono (by simp))
  refine ⟨σ₁, σ₂, σ₃, σ₄, hσ₁, hσ₂, hσ₃, hσ₄, links_append.mpr ⟨hxs.frame hs' ?_, hi₄, ?_, ?_⟩, hs'⟩
  · refine List.disjoint_cons_left.mpr ⟨hkx, List.disjoint_cons_left.mpr ⟨hxi, ?_⟩⟩
    exact List.disjoint_of_subset_left hsub hxy.symm
  · exact (hs₄.node k (by simpa using hki)).trans hk₃
  · refine (hys₂.frame hs₃ (List.singleton_disjoint.mpr hky)).frame hs₄ (List.singleton_disjoint.mpr hyi)

/-! ## Whole lists -/

structure IsList (σ : Store α) (head : Option Nat) (l : List (Nat × α)) : Prop where
  head : head = firstId l none
  links : Links σ none l none
  nodup : (ids l).Nodup

/-- The store has no nodes but those of the list. -/
def Owned (σ : Store α) (l : List (Nat × α)) : Prop := ∀ i n, σ.node i = some n → i ∈ ids l

theorem Owned.same {σ σ' : Store α} {l l' : List (Nat × α)} {s : List Nat} (h : Owned σ l) (hs : σ.Same s σ')
    (hl : ids l ⊆ ids l') (hsl : s ⊆ ids l') : Owned σ' l' := by
  intro i n hn
  by_cases hi : i ∈ s
  · exact hsl hi
  · exact hl (h i n (hs.node i hi ▸ hn))

theorem Owned.malloc {σ : Store α} {l : List (Nat × α)} (h : Owned σ l) (m : Node α) {a : α} {l' : List (Nat × α)}
    (hl : ids l ⊆ ids l') (hm : (σ.fresh, a) ∈ l') : Owned (σ.malloc m) l' := by
  intro i n hn
  by_cases hi : i = σ.fresh
  · exact mem_ids.mpr ⟨a, hi ▸ hm⟩
  · exact hl (h i n (Store.malloc_node_of_ne σ m hi ▸ hn))

/-- Following `link` from `ptr` visits `l` and ends at null. -/
def Walks (σ : Store α) (link : Node α → Option Nat) : Option Nat → List (Nat × α) → Prop
  | ptr, [] => ptr = none
  | ptr, (i, a) :: rest => ptr = some i ∧ ∃ n, σ.node i = some n ∧ n.val = a ∧ Walks σ link (link n) rest

structure WellLinked (σ : Store α) (head : Option Nat) (l : List (Nat × α)) : Prop where
  walk : Walks σ Node.next head l
  nodup : (ids l).Nodup
  first : ∀ i n, head = some i → σ.node i = some n → n.prev = none
  agree : ∀ i ∈ ids l, ∀ j ∈ ids l, ∀ n m, σ.node i = some n → σ.node j = some m →
    (n.next = some j ↔ m.prev = some i)
  closed : ∀ i ∈ ids l, ∀ n, σ.node i = some n → ∀ j, n.next = some j ∨ n.prev = some j → j ∈ ids l

theorem Links.walks {σ : Store α} {p : Option Nat} {l : List (Nat × α)} (h : Links σ p l none) :
    Walks σ Node.next (firstId l none) l := by
  induction l generalizing p with
  | nil => rfl
  | cons x l ih => exact ⟨rfl, _, h.1, rfl, ih h.2⟩

theorem Links.walks_back {σ : Store α} {n : Option Nat} {l : List (Nat × α)} (h : Links σ none l n) :
    Walks σ Node.prev (lastId none l) l.reverse := by
  induction l using List.reverseRecOn generalizing n with
  | nil => rfl
  | append_singleton xs x ih =>
    obtain ⟨hxs, hx, -⟩ := links_append.mp h
    rw [List.reverse_append, lastId_append]
    exact ⟨rfl, _, hx, rfl, ih hxs⟩

theorem Walks.links {σ : Store α} {ptr p : Option Nat} {l : List (Nat × α)} (hw : Walks σ Node.next ptr l)
    (hp : ∀ i n, ptr = some i → σ.node i = some n → n.prev = p)
    (ha : ∀ i ∈ ids l, ∀ j ∈ ids l, ∀ n m, σ.node i = some n → σ.node j = some m →
      n.next = some j → m.prev = some i) :
    ptr = firstId l none ∧ Links σ p l none := by
  induction l generalizing ptr p with
  | nil => exact ⟨hw, trivial⟩
  | cons x l ih =>
    obtain ⟨rfl, n, hn, hval, hw⟩ := hw
    have hstep := ih hw (p := some x.1) ?_ ?_
    · obtain ⟨hnext, hl⟩ := hstep
      refine ⟨rfl, ?_, hl⟩
      rw [hn, ← hp x.1 n rfl hn, ← hnext, ← hval]
    · intro j m hj hm
      have hmem : j ∈ ids l := by
        cases l with
        | nil => rw [hw] at hj; cases hj
        | cons y l =>
          rw [hw.1] at hj
          cases hj
          exact List.mem_cons_self
      exact ha x.1 List.mem_cons_self j (List.mem_cons_of_mem _ hmem) n m hn hm hj
    · intro i hi j hj
      exact ha i (List.mem_cons_of_mem _ hi) j (List.mem_cons_of_mem _ hj)

/-- The neighbours of a node, and that they have it as theirs. -/
theorem Links.neighbours {σ : Store α} {l : List (Nat × α)} (h : Links σ none l none) {i j : Nat} {n m : Node α}
    (hi : i ∈ ids l) (hj : j ∈ ids l) (hn : σ.node i = some n) (hm : σ.node j = some m) :
    n.next = some j ↔ m.prev = some i := by
  obtain ⟨a, ha⟩ := mem_ids.mp hi
  obtain ⟨b, hb⟩ := mem_ids.mp hj
  constructor
  · intro hnext
    obtain ⟨xs, ys, rfl⟩ := List.append_of_mem ha
    rw [h.node] at hn
    cases hn
    cases ys with
    | nil => cases hnext
    | cons y ys =>
      cases hnext
      rw [(links_append.mp h).2.2.1] at hm
      cases hm
      rfl
  · intro hprev
    obtain ⟨xs, ys, rfl⟩ := List.append_of_mem hb
    rw [h.node] at hm
    cases hm
    rcases List.eq_nil_or_concat xs with rfl | ⟨xs, x, rfl⟩
    · cases hprev
    · rw [List.concat_eq_append] at h hprev
      rw [lastId_append] at hprev
      cases hprev
      rw [List.append_assoc, List.singleton_append] at h
      rw [h.node] at hn
      cases hn
      rfl

theorem wellLinked_iff {σ : Store α} {head : Option Nat} {l : List (Nat × α)} :
    WellLinked σ head l ↔ IsList σ head l := by
  constructor
  · intro h
    obtain ⟨hhead, hl⟩ := h.walk.links h.first fun i hi j hj n m hn hm => (h.agree i hi j hj n m hn hm).mp
    exact ⟨hhead, hl, h.nodup⟩
  · rintro ⟨rfl, hl, hd⟩
    refine ⟨hl.walks, hd, ?_, fun i hi j hj n m hn hm => hl.neighbours hi hj hn hm, ?_⟩
    · intro i n hi hn
      cases l with
      | nil => cases hi
      | cons x l =>
        cases hi
        rw [hl.1] at hn
        cases hn
        rfl
    · intro i hi n hn j hj
      obtain ⟨a, ha⟩ := mem_ids.mp hi
      obtain ⟨xs, ys, rfl⟩ := List.append_of_mem ha
      rw [hl.node] at hn
      cases hn
      rw [ids_append, ids_cons]
      rcases hj with hj | hj
      · exact List.mem_append_right _ (List.mem_cons_of_mem _ (firstId_mem hj))
      · exact List.mem_append_left _ (lastId_mem hj)

/-! ## Loops over a list -/

/-- `while(ptr != NULL && !p(ptr)) ptr = ptr->next;` -/
def Store.seek (σ : Store α) (p : α → Bool) : (fuel : Nat) → Option Nat → Option (Option Nat)
  | 0, _ => none
  | _ + 1, none => some none
  | fuel + 1, some i =>
    match σ.node i with
    | none => none
    | some n => if p n.val then some (some i) else σ.seek p fuel n.next

/-- `for(; ptr != NULL; ptr = ptr->next) acc = f(acc, ptr);` -/
def Store.fold {β : Type*} (σ : Store α) (f : β → Nat → α → Option β) : (fuel : Nat) → β → Option Nat → Option β
  | 0, _, _ => none
  | _ + 1, acc, none => some acc
  | fuel + 1, acc, some i =>
    match σ.node i with
    | none => none
    | some n =>
      match f acc i n.val with
      | none => none
      | some acc' => σ.fold f fuel acc' n.next

theorem Links.seek {σ : Store α} {p : Option Nat} {l : List (Nat × α)} (h : Links σ p l none) (q : α → Bool)
    {fuel : Nat} (hf : l.length < fuel) :
    σ.seek q fuel (firstId l none) = some ((l.find? fun x => q x.2).map Prod.fst) := by
  induction l generalizing p fuel with
  | nil =>
    obtain ⟨fuel, rfl⟩ := Nat.exists_eq_add_of_lt hf
    rfl
  | cons x l ih =>
    obtain ⟨fuel, rfl⟩ : ∃ k, fuel = k + 1 := ⟨fuel - 1, by omega⟩
    rw [firstId, Store.seek, h.1, List.find?_cons]
    cases hq : q x.2 with
    | true => simp [hq]
    | false => simpa [hq] using ih h.2 (by simpa using hf)

theorem Links.fold {β : Type*} {σ : Store α} {p : Option Nat} {l : List (Nat × α)} (h : Links σ p l none)
    (f : β → Nat → α → Option β) {fuel : Nat} (hf : l.length < fuel) (acc : β) :
    σ.fold f fuel acc (firstId l none) = l.foldlM (fun acc x => f acc x.1 x.2) acc := by
  induction l generalizing p fuel acc with
  | nil =>
    obtain ⟨fuel, rfl⟩ := Nat.exists_eq_add_of_lt hf
    rfl
  | cons x l ih =>
    obtain ⟨fuel, rfl⟩ : ∃ k, fuel = k + 1 := ⟨fuel - 1, by omega⟩
    rw [firstId, Store.fold, h.1, List.foldlM_cons]
    cases hx : f acc x.1 x.2 with
    | none => simp [hx]
    | some acc' => simpa [hx] using ih h.2 (by simpa using hf) acc'

end

end OsLabs.DList
