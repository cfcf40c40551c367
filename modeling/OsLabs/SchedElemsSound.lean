import OsLabs.SchedElems

/-!
# The list of the scheduler is a sequence

Every call on the elements does to the list what the same call does to the
sequence, and gives the same result. The elements that are not in the list are
followed as well, with their data, since a removed element may be inserted again.
-/

namespace OsLabs.Sched.Linked

open DList

/-- The list that the pointers `head` and `tail` span. -/
structure Spans (lst : ListT) (l : List (Nat × Nat)) : Prop where
  list : IsList lst.store lst.head l
  tail : lst.tail = lastId none l

/-! ## Insertion and removal -/

/-- Both insertions make a list of one element of an empty one. -/
theorem insert_empty {σ : Store Nat} {elt : Nat} {n : Node Nat} (hn : σ.node elt = some n) :
    ∃ σ₁ σ₂, σ.setNext elt none = some σ₁ ∧ σ₁.setPrev elt none = some σ₂ ∧
      Spans { head := some elt, tail := some elt, store := σ₂ } [(elt, n.val)] ∧ σ.Same [elt] σ₂ := by
  obtain ⟨σ₁, hσ₁, hn₁, hs₁⟩ := Store.setNext_eq hn none
  obtain ⟨σ₂, hσ₂, hn₂, hs₂⟩ := Store.setPrev_eq hn₁ none
  exact ⟨σ₁, σ₂, hσ₁, hσ₂, ⟨⟨rfl, ⟨hn₂, trivial⟩, List.nodup_singleton _⟩, rfl⟩, hs₁.trans hs₂⟩

theorem listInsertHead_spans {lst : ListT} {l : List (Nat × Nat)} (h : Spans lst l) {elt : Nat} {n : Node Nat}
    (hn : lst.store.node elt = some n) (he : elt ∉ ids l) :
    ∃ lst', listInsertHead lst elt = some lst' ∧ Spans lst' ((elt, n.val) :: l) ∧
      lst.store.Same (elt :: ids l) lst'.store := by
  obtain ⟨⟨hhead, hl, hd⟩, htail⟩ := h
  unfold listInsertHead
  rw [hhead]
  cases l with
  | nil =>
    obtain ⟨σ₁, σ₂, hσ₁, hσ₂, hspans, hs⟩ := insert_empty hn
    exact ⟨_, by simp [hσ₁, hσ₂], hspans, hs⟩
  | cons x l =>
    obtain ⟨σ₁, hσ₁, hn₁, hs₁⟩ := Store.setPrev_eq hn none
    obtain ⟨σ₂, hσ₂, hn₂, hs₂⟩ := Store.setNext_eq hn₁ (some x.1)
    have hs := hs₁.trans hs₂
    obtain ⟨σ₃, hσ₃, hl₃, hs₃⟩ := (hl.frame hs (List.singleton_disjoint.mpr he)).setFirst hd (some elt)
    have h₃ : σ₂.setPrevAt (some x.1) (some elt) = some σ₃ := hσ₃
    have hn₃ := (hs₃.node elt fun hmem => he (firstId_toList _ hmem)).trans hn₂
    refine ⟨{ lst with head := some elt, store := σ₃ }, by simp [hσ₁, hσ₂, h₃],
      ⟨⟨rfl, ⟨hn₃, hl₃⟩, List.nodup_cons.mpr ⟨he, hd⟩⟩, htail⟩, ?_⟩
    exact (hs.mono (by simp)).trans (hs₃.mono (List.subset_cons_of_subset _ (firstId_toList _)))

theorem listInsertTail_spans {lst : ListT} {l : List (Nat × Nat)} (h : Spans lst l) {elt : Nat} {n : Node Nat}
    (hn : lst.store.node elt = some n) (he : elt ∉ ids l) :
    ∃ lst', listInsertTail lst elt = some lst' ∧ Spans lst' (l ++ [(elt, n.val)]) ∧
      lst.store.Same (elt :: ids l) lst'.store := by
  obtain ⟨⟨hhead, hl, hd⟩, htail⟩ := h
  unfold listInsertTail
  rw [htail]
  rcases List.eq_nil_or_concat l with rfl | ⟨xs, x, rfl⟩
  · obtain ⟨σ₁, σ₂, hσ₁, hσ₂, hspans, hs⟩ := insert_empty hn
    exact ⟨_, by simp [hσ₁, hσ₂], hspans, hs⟩
  · rw [List.concat_eq_append] at *
    have hlast : lastId none (xs ++ [x]) = some x.1 := lastId_append _ _ _
    rw [hlast]
    obtain ⟨σ₁, hσ₁, hn₁, hs₁⟩ := Store.setPrev_eq hn (some x.1)
    obtain ⟨σ₂, hσ₂, hl₂, hs₂⟩ := (hl.frame hs₁ (List.singleton_disjoint.mpr he)).setLast hd (some elt)
    have hn₂ := (hs₂.node elt fun hmem => he (lastId_toList _ hmem)).trans hn₁
    obtain ⟨σ₃, hσ₃, hn₃, hs₃⟩ := Store.setNext_eq hn₂ none
    have h₂ : σ₁.setNextAt (some x.1) (some elt) = some σ₂ := hlast ▸ hσ₂
    refine ⟨{ lst with tail := some elt, store := σ₃ }, by simp [hσ₁, h₂, hσ₃], ⟨⟨?_, ?_, ?_⟩, ?_⟩, ?_⟩
    · rw [hhead, firstId_append, firstId_append, firstId_append]
      rfl
    · refine links_append.mpr ⟨hl₂.frame hs₃ (List.singleton_disjoint.mpr he), ?_, trivial⟩
      rw [hlast]
      exact hn₃
    · exact nodup_middle.mpr ⟨he, List.not_mem_nil, by simpa using hd⟩
    · show some elt = lastId none (xs ++ [x] ++ [(elt, n.val)])
      rw [lastId_append]
      rfl
    · refine ((hs₁.mono ?_).trans (hs₂.mono ?_)).trans (hs₃.mono ?_)
      · simp
      · exact List.subset_cons_of_subset _ (lastId_toList _)
      · simp

theorem listRemoveElem_spans {lst : ListT} {xs ys : List (Nat × Nat)} {elt d : Nat}
    (h : Spans lst (xs ++ (elt, d) :: ys)) :
    ∃ lst', listRemoveElem lst elt = some lst' ∧ Spans lst' (xs ++ ys) ∧
      lst'.store.node elt = some ⟨none, none, d⟩ ∧ lst.store.Same (ids (xs ++ (elt, d) :: ys)) lst'.store := by
  obtain ⟨⟨hhead, hl, hd⟩, htail⟩ := h
  obtain ⟨hx, hy, hdxy⟩ := nodup_middle.mp hd
  have hd' := hdxy
  rw [ids_append, List.nodup_append'] at hd'
  obtain ⟨hdx, hdy, hxy⟩ := hd'
  obtain ⟨hxs, he, hys⟩ := links_append.mp hl
  have hsubx := lastId_toList xs
  have hsuby := firstId_toList ys
  obtain ⟨σ₁, hσ₁, hxs₁, hs₁⟩ := hxs.setLast hdx (firstId ys none)
  have he₁ := (hs₁.node elt fun hmem => hx (hsubx hmem)).trans he
  have hys₁ := hys.frame hs₁ (List.disjoint_of_subset_left hsubx hxy)
  obtain ⟨σ₂, hσ₂, hys₂, hs₂⟩ := hys₁.setFirst hdy (lastId none xs)
  have he₂ := (hs₂.node elt fun hmem => hy (hsuby hmem)).trans he₁
  have hxs₂ := hxs₁.frame hs₂ (List.disjoint_of_subset_left hsuby hxy.symm)
  obtain ⟨σ₃, hσ₃, he₃, hs₃⟩ := Store.setPrev_eq he₂ none
  obtain ⟨σ₄, hσ₄, he₄, hs₄⟩ := Store.setNext_eq he₃ none
  have hs := hs₃.trans hs₄
  have hlinks : Links σ₄ none (xs ++ ys) none :=
    links_append.mpr ⟨hxs₂.frame hs (List.singleton_disjoint.mpr hx), hys₂.frame hs (List.singleton_disjoint.mpr hy)⟩
  have hnewHead : (if lastId none xs = none ∧ lst.head = some elt then firstId ys none else lst.head) =
      firstId (xs ++ ys) none := by
    rw [hhead]
    cases xs with
    | nil => simp
    | cons x xs =>
      have hlast : lastId none (x :: xs) ≠ none := fun hnone => List.cons_ne_nil _ _ (lastId_eq_none.mp hnone)
      rw [if_neg fun hc => hlast hc.1]
      rfl
  have hnewTail : (if firstId ys none = none ∧ lst.tail = some elt then lastId none xs else lst.tail) =
      lastId none (xs ++ ys) := by
    rw [htail, lastId_append, lastId_append]
    cases ys <;> simp
  refine ⟨{ head := firstId (xs ++ ys) none, tail := lastId none (xs ++ ys), store := σ₄ }, ?_,
    ⟨⟨rfl, hlinks, hdxy⟩, rfl⟩, he₄, ?_⟩
  · simp [listRemoveElem, he, hσ₁, he₁, hσ₂, hσ₃, hσ₄, hnewHead, hnewTail]
  · rw [ids_append, ids_cons]
    refine ((hs₁.mono ?_).trans (hs₂.mono ?_)).trans (hs.mono ?_)
    · exact List.subset_append_of_subset_left _ hsubx
    · exact List.subset_append_of_subset_right _ (List.subset_cons_of_subset _ hsuby)
    · simp

/-! ## The elements in the sequence and the loose ones -/

def entries (cells : List Cell) : List (Nat × Nat) := cells.map fun c => (c.id, c.datum)

@[simp] theorem entries_nil : entries [] = [] := rfl

@[simp] theorem entries_cons (c : Cell) (cells : List Cell) : entries (c :: cells) = (c.id, c.datum) :: entries cells :=
  rfl

@[simp] theorem entries_append (xs ys : List Cell) : entries (xs ++ ys) = entries xs ++ entries ys := List.map_append

@[simp] theorem entries_length (cells : List Cell) : (entries cells).length = cells.length := List.length_map _

structure Holds (lst : ListT) (s : Sequence) : Prop where
  spans : Spans lst (entries s.cells)
  loose : ∀ i, s.loose i = if i ∈ ids (entries s.cells) then none else (lst.store.node i).map Node.val
  fresh : lst.store.fresh = s.fresh

theorem Holds.loose_some {lst : ListT} {s : Sequence} (h : Holds lst s) {elt datum : Nat}
    (he : s.loose elt = some datum) :
    elt ∉ ids (entries s.cells) ∧ ∃ n, lst.store.node elt = some n ∧ n.val = datum := by
  rw [h.loose elt] at he
  split at he
  · cases he
  · rename_i hout
    exact ⟨hout, Option.map_eq_some_iff.mp he⟩

/-- An element that is inserted is not loose any more, and the others stay as they are. -/
theorem Holds.insert {lst lst' : ListT} {s : Sequence} (h : Holds lst s) {elt : Nat} {cells : List Cell}
    (hmem : ∀ i, i ∈ ids (entries cells) ↔ i = elt ∨ i ∈ ids (entries s.cells)) (hspans : Spans lst' (entries cells))
    (hs : lst.store.Same (elt :: ids (entries s.cells)) lst'.store) :
    Holds lst' { s with cells := cells, loose := Function.update s.loose elt none } where
  spans := hspans
  fresh := hs.fresh.trans h.fresh
  loose := by
    intro i
    show Function.update s.loose elt none i = if i ∈ ids (entries cells) then none else _
    by_cases hi : i = elt
    · rw [if_pos ((hmem i).mpr (Or.inl hi)), hi]
      exact Function.update_self _ _ _
    · rw [Function.update_of_ne hi, h.loose i]
      by_cases hin : i ∈ ids (entries s.cells)
      · rw [if_pos hin, if_pos ((hmem i).mpr (Or.inr hin))]
      · have hout : i ∉ ids (entries cells) := fun hc => ((hmem i).mp hc).elim hi hin
        rw [if_neg hin, if_neg hout, hs.node i fun hc => (List.mem_cons.mp hc).elim hi hin]

theorem Holds.newElem {lst : ListT} {s : Sequence} (h : Holds lst s) (elem : Node Nat) :
    Holds (newElem lst elem)
      { s with loose := Function.update s.loose s.fresh (some elem.val), fresh := s.fresh + 1 } where
  spans := ⟨⟨h.spans.list.head, h.spans.list.links.malloc elem, h.spans.list.nodup⟩, h.spans.tail⟩
  fresh := congrArg (· + 1) h.fresh
  loose := by
    intro i
    show Function.update s.loose s.fresh (some elem.val) i = if _ then none else ((lst.store.malloc elem).node i).map _
    rw [← h.fresh]
    by_cases hi : i = lst.store.fresh
    · have hout : i ∉ ids (entries s.cells) := fun hmem => h.spans.list.links.ne_fresh hmem hi
      rw [if_neg hout, hi, Function.update_self, Store.malloc_node]
      rfl
    · rw [Function.update_of_ne hi, Store.malloc_node_of_ne _ _ hi]
      exact h.loose i

/-- Only one element has changed, and it is loose. -/
theorem Holds.change {lst : ListT} {s : Sequence} (h : Holds lst s) {elt : Nat} (hout : elt ∉ ids (entries s.cells))
    {σ : Store Nat} (hs : lst.store.Same [elt] σ) {o : Option Nat} (ho : (σ.node elt).map Node.val = o) :
    Holds { lst with store := σ } { s with loose := Function.update s.loose elt o } where
  spans := ⟨⟨h.spans.list.head, h.spans.list.links.frame hs (List.singleton_disjoint.mpr hout), h.spans.list.nodup⟩,
    h.spans.tail⟩
  fresh := hs.fresh.trans h.fresh
  loose := by
    intro i
    show Function.update s.loose elt o i = if _ then none else (σ.node i).map _
    by_cases hi : i = elt
    · rw [hi, if_neg hout, Function.update_self, ho]
    · rw [Function.update_of_ne hi, hs.node i (by simpa using hi)]
      exact h.loose i

theorem Holds.elemInit {lst : ListT} {s : Sequence} (h : Holds lst s) {elt d : Nat} (he : s.loose elt = some d)
    (datum : Nat) :
    ∃ lst', listElemInit lst elt datum = some lst' ∧
      Holds lst' { s with loose := Function.update s.loose elt (some datum) } := by
  obtain ⟨hout, n, hn, -⟩ := h.loose_some he
  obtain ⟨σ₁, hσ₁, hn₁, hs₁⟩ := Store.setNext_eq hn none
  obtain ⟨σ₂, hσ₂, hn₂, hs₂⟩ := Store.setPrev_eq hn₁ none
  obtain ⟨σ₃, hσ₃, hn₃, hs₃⟩ := Store.setVal_eq hn₂ fun _ => datum
  exact ⟨{ lst with store := σ₃ }, by simp [listElemInit, hσ₁, hσ₂, hσ₃],
    h.change hout ((hs₁.trans hs₂).trans hs₃) (by rw [hn₃]; rfl)⟩

theorem Holds.insertHead {lst : ListT} {s : Sequence} (h : Holds lst s) {elt datum : Nat}
    (he : s.loose elt = some datum) :
    ∃ lst', listInsertHead lst elt = some lst' ∧
      Holds lst' { s with cells := ⟨elt, datum⟩ :: s.cells, loose := Function.update s.loose elt none } := by
  obtain ⟨hout, n, hn, rfl⟩ := h.loose_some he
  obtain ⟨lst', hlst, hspans, hs⟩ := listInsertHead_spans h.spans hn hout
  exact ⟨lst', hlst, h.insert (fun i => by simp) hspans hs⟩

theorem Holds.insertTail {lst : ListT} {s : Sequence} (h : Holds lst s) {elt datum : Nat}
    (he : s.loose elt = some datum) :
    ∃ lst', listInsertTail lst elt = some lst' ∧
      Holds lst' { s with cells := s.cells ++ [⟨elt, datum⟩], loose := Function.update s.loose elt none } := by
  obtain ⟨hout, n, hn, rfl⟩ := h.loose_some he
  obtain ⟨lst', hlst, hspans, hs⟩ := listInsertTail_spans h.spans hn hout
  refine ⟨lst', hlst, h.insert (fun i => by simp [or_comm]) ?_ hs⟩
  rw [entries_append]
  exact hspans

/-- The element is loose afterwards, with the datum it had in the list. -/
theorem Holds.removeElem {lst : ListT} {s : Sequence} (h : Holds lst s) {xs ys : List Cell} {c : Cell}
    (hc : s.cells = xs ++ c :: ys) :
    ∃ lst', listRemoveElem lst c.id = some lst' ∧
      Holds lst' { s with cells := xs ++ ys, loose := Function.update s.loose c.id (some c.datum) } := by
  have hspans := h.spans
  have hloose := h.loose
  rw [hc, entries_append, entries_cons] at hspans hloose
  obtain ⟨lst', hlst, hspans', hn, hs⟩ := listRemoveElem_spans hspans
  obtain ⟨hx, hy, -⟩ := nodup_middle.mp hspans.list.nodup
  rw [← entries_append] at hspans'
  refine ⟨lst', hlst, hspans', ?_, hs.fresh.trans h.fresh⟩
  intro i
  show Function.update s.loose c.id (some c.datum) i = if i ∈ ids (entries (xs ++ ys)) then none else _
  have hmem : i ∈ ids (entries xs ++ (c.id, c.datum) :: entries ys) ↔ i = c.id ∨ i ∈ ids (entries (xs ++ ys)) := by
    simp only [entries_append, ids_append, ids_cons, List.mem_append, List.mem_cons]
    exact or_left_comm
  by_cases hi : i = c.id
  · have hout : c.id ∉ ids (entries (xs ++ ys)) := by
      rw [entries_append, ids_append, List.mem_append, not_or]
      exact ⟨hx, hy⟩
    rw [hi, if_neg hout, Function.update_self, hn]
    rfl
  · rw [Function.update_of_ne hi, hloose i]
    by_cases hin : i ∈ ids (entries (xs ++ ys))
    · rw [if_pos hin, if_pos (hmem.mpr (Or.inr hin))]
    · have hout := fun hm => (hmem.mp hm).elim hi hin
      rw [if_neg hin, if_neg hout, hs.node i hout]

theorem Holds.free {lst : ListT} {s : Sequence} (h : Holds lst s) {elt datum : Nat} (he : s.loose elt = some datum) :
    ∃ σ, lst.store.free elt = some σ ∧
      Holds { lst with store := σ } { s with loose := Function.update s.loose elt none } := by
  obtain ⟨hout, n, hn, -⟩ := h.loose_some he
  obtain ⟨σ, hσ, hnone, hs⟩ := Store.free_eq hn
  exact ⟨σ, hσ, h.change hout hs (by rw [hnone]; rfl)⟩

/-! ## Reading the list -/

theorem Holds.length_lt {lst : ListT} {s : Sequence} (h : Holds lst s) : (entries s.cells).length < lst.fuel :=
  Nat.lt_succ_of_le (h.spans.list.links.length_le h.spans.list.nodup)

theorem Holds.seek {lst : ListT} {s : Sequence} (h : Holds lst s) (datum : Nat) :
    lst.store.seek (fun d => d == datum) lst.fuel lst.head =
      some ((s.cells.find? fun c => c.datum == datum).map Cell.id) := by
  rw [h.spans.list.head, h.spans.list.links.seek _ h.length_lt, entries, List.find?_map, Option.map_map]
  rfl

theorem foldlM_count (l : List (Nat × Nat)) (k : Int) :
    l.foldlM (fun (count : Int) _ => some (toInt (count + 1))) (toInt k) = some (toInt (k + l.length)) := by
  induction l generalizing k with
  | nil => simp
  | cons x l ih =>
    rw [List.foldlM_cons, toInt_add, List.length_cons]
    show l.foldlM _ (toInt (k + 1)) = _
    have hlen : k + 1 + (l.length : Int) = k + ((l.length + 1 : Nat) : Int) := by omega
    rw [ih, hlen]

theorem Holds.listSize {lst : ListT} {s : Sequence} (h : Holds lst s) :
    listSize lst = some (toInt s.cells.length) := by
  have hcount := foldlM_count (entries s.cells) 0
  rw [Int.zero_add, entries_length] at hcount
  rw [Linked.listSize, h.spans.list.head, h.spans.list.links.fold _ h.length_lt]
  exact hcount

/-! ## The wrappers -/

structure Refines (lst : ListWrap) (s : Sequence) : Prop where
  holds : Holds lst.data s
  sem : lst.sem = 1

section
variable {lst : ListWrap} {s : Sequence} (h : Refines lst s)
include h

theorem Refines.semWait : semWait lst = some { lst with sem := 0 } := by
  rw [Linked.semWait, h.sem]

theorem Refines.semPost : semPost { lst with sem := 0 } = lst := by
  obtain ⟨data, sem⟩ := lst
  obtain rfl : sem = 1 := h.sem
  rfl

/-- The new element is loose until it is inserted. -/
theorem Refines.newElem (datum : Nat) :
    ∃ data, listElemInit (newElem lst.data blank) lst.data.store.fresh datum = some data ∧
      Holds data { s with loose := Function.update s.loose s.fresh (some datum), fresh := s.fresh + 1 } := by
  have hloose : Function.update s.loose s.fresh (some blank.val) s.fresh = some blank.val := Function.update_self _ _ _
  obtain ⟨data, hdata, hinit⟩ := (h.holds.newElem blank).elemInit hloose datum
  rw [h.holds.fresh]
  simp only [Function.update_idem] at hinit
  exact ⟨data, hdata, hinit⟩

theorem Refines.fresh_loose : s.loose s.fresh = none := by
  rw [h.holds.loose, ← h.holds.fresh, lst.data.store.unused _ (Nat.le_refl _)]
  exact ite_self none

/-- Taking a new element into the sequence leaves the loose ones as they are. -/
theorem Refines.loose_back (d : Option Nat) :
    Function.update (Function.update s.loose s.fresh d) s.fresh none = s.loose := by
  rw [Function.update_idem, Function.update_eq_self_iff]
  exact h.fresh_loose.symm

theorem Refines.insertItemHead (datum : Nat) :
    ∃ lst', insertItemHead lst datum = some lst' ∧
      Refines lst' { s with cells := ⟨s.fresh, datum⟩ :: s.cells, fresh := s.fresh + 1 } := by
  obtain ⟨data, hdata, hnew⟩ := h.newElem datum
  obtain ⟨data', hdata', hins⟩ := hnew.insertHead (Function.update_self s.fresh (some datum) s.loose)
  simp only [h.loose_back] at hins
  rw [← h.holds.fresh] at hdata'
  refine ⟨{ data := data', sem := 1 }, ?_, hins, rfl⟩
  simp [Linked.insertItemHead, h.semWait, hdata, hdata', Linked.semPost]

theorem Refines.insertItemTail (datum : Nat) :
    ∃ lst', insertItemTail lst datum = some lst' ∧
      Refines lst' { s with cells := s.cells ++ [⟨s.fresh, datum⟩], fresh := s.fresh + 1 } := by
  obtain ⟨data, hdata, hnew⟩ := h.newElem datum
  obtain ⟨data', hdata', hins⟩ := hnew.insertTail (Function.update_self s.fresh (some datum) s.loose)
  simp only [h.loose_back] at hins
  rw [← h.holds.fresh] at hdata'
  refine ⟨{ data := data', sem := 1 }, ?_, hins, rfl⟩
  simp [Linked.insertItemTail, h.semWait, hdata, hdata', Linked.semPost]

theorem Refines.removeItem (datum : Nat) :
    ∃ lst', removeItem lst datum = some lst' ∧
      Refines lst' { s with cells := Sched.removeItem datum s.cells } := by
  have hseek := h.holds.seek datum
  cases hfind : s.cells.find? fun c => c.datum == datum with
  | none =>
    rw [hfind] at hseek
    have hsame : Sched.removeItem datum s.cells = s.cells :=
      List.eraseP_of_forall_not fun c hc => List.find?_eq_none.mp hfind c hc
    rw [hsame]
    refine ⟨lst, ?_, h⟩
    simp [Linked.removeItem, h.semWait, listGetHead, hseek, h.semPost]
  | some c =>
    rw [hfind] at hseek
    obtain ⟨hc, xs, ys, hcells, hxs⟩ := List.find?_eq_some_iff_append.mp hfind
    have hremoved : Sched.removeItem datum s.cells = xs ++ ys := by
      rw [hcells, Sched.removeItem, List.eraseP_append_right _ fun x hx => by simpa using hxs x hx]
      exact congrArg (xs ++ ·) (List.eraseP_cons_of_pos hc)
    obtain ⟨data, hdata, hrem⟩ := h.holds.removeElem hcells
    obtain ⟨σ, hσ, hfree⟩ := hrem.free (Function.update_self c.id (some c.datum) s.loose)
    have hin : s.loose c.id = none := by
      rw [h.holds.loose, hcells]
      exact if_pos (by simp)
    have hback : Function.update s.loose c.id none = s.loose := Function.update_eq_self_iff.mpr hin.symm
    simp only [Function.update_idem, hback] at hfree
    rw [hremoved]
    refine ⟨{ data := { data with store := σ }, sem := 1 }, ?_, hfree, rfl⟩
    simp [Linked.removeItem, h.semWait, listGetHead, hseek, hdata, hσ, Linked.semPost]

theorem Refines.findInList (datum : Nat) :
    findInList lst datum = some (lst, (s.cells.find? fun c => c.datum == datum).map Cell.id) := by
  simp [Linked.findInList, h.semWait, listGetHead, h.holds.seek datum, h.semPost]

theorem Refines.eltInList (datum : Nat) :
    eltInList lst datum = some (lst, if Sched.eltInList s.cells datum then 1 else 0) := by
  have hseek := h.holds.seek datum
  have hany : Sched.eltInList s.cells datum = (s.cells.find? fun c => c.datum == datum).isSome := by
    rw [Sched.eltInList, Bool.eq_iff_iff, List.find?_isSome, List.any_eq_true]
  cases hfind : s.cells.find? fun c => c.datum == datum with
  | none =>
    rw [hfind] at hseek hany
    simp [Linked.eltInList, h.semWait, listGetHead, hseek, hany, h.semPost]
  | some c =>
    rw [hfind] at hseek hany
    simp [Linked.eltInList, h.semWait, listGetHead, hseek, hany, h.semPost]

theorem Refines.head : lst.data.head = s.cells.head?.map Cell.id := by
  rw [h.holds.spans.list.head]
  cases s.cells <;> rfl

theorem Refines.tail : lst.data.tail = s.cells.getLast?.map Cell.id := by
  rw [h.holds.spans.tail]
  rcases List.eq_nil_or_concat s.cells with hs | ⟨xs, c, hs⟩
  · rw [hs]
    rfl
  · rw [hs, List.concat_eq_append, entries_append, lastId_append, List.getLast?_append]
    rfl

theorem Refines.removeElem {elt : Nat} (he : ∃ c ∈ s.cells, c.id = elt) :
    ∃ c data, (s.cells.find? fun c => c.id == elt) = some c ∧ listRemoveElem lst.data elt = some data ∧
      Refines { lst with data := data }
        { s with cells := s.cells.erase c, loose := Function.update s.loose elt (some c.datum) } := by
  obtain ⟨c, hfind⟩ : ∃ c, (s.cells.find? fun c => c.id == elt) = some c := by
    apply Option.isSome_iff_exists.mp
    obtain ⟨c, hc, heq⟩ := he
    exact List.find?_isSome.mpr ⟨c, hc, by simpa using heq⟩
  obtain ⟨hc, xs, ys, hcells, hxs⟩ := List.find?_eq_some_iff_append.mp hfind
  obtain rfl : c.id = elt := by simpa using hc
  have hnot : c ∉ xs := by
    intro hmem
    simpa using hxs c hmem
  have herase : s.cells.erase c = xs ++ ys := by
    rw [hcells, List.erase_append_right _ hnot, List.erase_cons_head]
  obtain ⟨data, hdata, hrem⟩ := h.holds.removeElem hcells
  exact ⟨c, data, hfind, hdata, herase ▸ hrem, h.sem⟩

end

/-! ## Every sequence of calls -/

theorem op_refines (lst : ListWrap) (s : Sequence) (e : Op) (h : Refines lst s) (he : e.Admitted s) :
    ∃ lst' s' r, op lst e = some (lst', r) ∧ Sequence.op s e = some (s', r) ∧ Refines lst' s' := by
  cases e with
  | newElem elem =>
    refine ⟨{ lst with data := newElem lst.data elem }, _, .elem (some s.fresh), ?_, rfl, h.holds.newElem elem, h.sem⟩
    rw [op, h.holds.fresh]
  | elemInit elt datum =>
    obtain ⟨d, hd⟩ := Option.isSome_iff_exists.mp he
    obtain ⟨data, hdata, hinit⟩ := h.holds.elemInit hd datum
    exact ⟨{ lst with data := data }, _, .void, by rw [op, hdata]; rfl, rfl, hinit, h.sem⟩
  | insertHead elt =>
    obtain ⟨d, hd⟩ := Option.isSome_iff_exists.mp he
    obtain ⟨data, hdata, hins⟩ := h.holds.insertHead hd
    exact ⟨{ lst with data := data }, _, .void, by rw [op, hdata]; rfl, by rw [Sequence.op, hd]; rfl, hins, h.sem⟩
  | insertTail elt =>
    obtain ⟨d, hd⟩ := Option.isSome_iff_exists.mp he
    obtain ⟨data, hdata, hins⟩ := h.holds.insertTail hd
    exact ⟨{ lst with data := data }, _, .void, by rw [op, hdata]; rfl, by rw [Sequence.op, hd]; rfl, hins, h.sem⟩
  | removeElem elt =>
    obtain ⟨c, data, hfind, hdata, hrem⟩ := h.removeElem he
    exact ⟨_, _, .void, by rw [op, hdata]; rfl, by rw [Sequence.op, hfind]; rfl, hrem⟩
  | size => exact ⟨_, _, _, by rw [op, h.holds.listSize]; rfl, rfl, h⟩
  | insertItemHead datum =>
    obtain ⟨lst', hlst, hr⟩ := h.insertItemHead datum
    exact ⟨_, _, .void, by rw [op, hlst]; rfl, rfl, hr⟩
  | insertItemTail datum =>
    obtain ⟨lst', hlst, hr⟩ := h.insertItemTail datum
    exact ⟨_, _, .void, by rw [op, hlst]; rfl, rfl, hr⟩
  | removeItem datum =>
    obtain ⟨lst', hlst, hr⟩ := h.removeItem datum
    exact ⟨_, _, .void, by rw [op, hlst]; rfl, rfl, hr⟩
  | eltInList datum => exact ⟨_, _, _, by rw [op, h.eltInList]; rfl, rfl, h⟩
  | findInList datum => exact ⟨_, _, _, by rw [op, h.findInList]; rfl, rfl, h⟩
  | peekItemHead =>
    refine ⟨_, _, _, ?_, rfl, h⟩
    simp [op, peekItemHead, h.semWait, listGetHead, h.head, h.semPost]
  | peekItemTail =>
    refine ⟨_, _, _, ?_, rfl, h⟩
    simp [op, peekItemTail, h.semWait, listGetTail, h.tail, h.semPost]
  | wrapperSize =>
    refine ⟨_, _, _, ?_, rfl, h⟩
    simp [op, wrapperSize, h.semWait, h.holds.listSize, h.semPost]

theorem createWrapper_refines : Refines createWrapper .empty where
  holds := ⟨⟨⟨rfl, trivial, List.nodup_nil⟩, rfl⟩, fun _ => rfl, rfl⟩
  sem := rfl

/-- The list after any calls is the sequence after the same calls, read from
either end, and each call has returned what it returns on the sequence. The
count is an `int`, which is the length as long as that is one. -/
theorem list_refines_sequence (es : List Op) (hes : Guarded Sequence.op (fun s e => e.Admitted s) .empty es) :
    ∃ lst s tr, run op createWrapper es = some (lst, tr) ∧ run Sequence.op .empty es = some (s, tr) ∧
      Walks lst.data.store Node.next lst.data.head (entries s.cells) ∧
      Walks lst.data.store Node.prev lst.data.tail (entries s.cells).reverse ∧
      (lst.data.head = none ↔ lst.data.tail = none) ∧
      listSize lst.data = some (toInt s.cells.length) ∧
      (s.cells.length ≤ intMax → listSize lst.data = some (s.cells.length : Int)) ∧
      ∀ datum, eltInList lst datum = some (lst, if datum ∈ data s.cells then 1 else 0) := by
  obtain ⟨lst, s, tr, hlst, hs, h⟩ := run_sim op_refines createWrapper_refines hes
  have hspans := h.holds.spans
  refine ⟨lst, s, tr, hlst, hs, ?_, ?_, ?_, h.holds.listSize, ?_, ?_⟩
  · rw [hspans.list.head]
    exact hspans.list.links.walks
  · rw [hspans.tail]
    exact hspans.list.links.walks_back
  · rw [hspans.list.head, hspans.tail, firstId_eq_none, lastId_eq_none]
  · intro hlen
    rw [h.holds.listSize, toInt_of_bounds (by omega) (by unfold intMax at hlen; omega)]
  · intro datum
    have hany : (Sched.eltInList s.cells datum = true) = (datum ∈ data s.cells) := by
      simp [Sched.eltInList, data]
    rw [h.eltInList datum]
    simp only [hany]

/-- Two items take turns as in round robin, and an element of the caller's goes in and out twice. -/
def turns : List Op :=
  [.insertItemTail 7, .insertItemTail 8, .removeItem 7, .insertItemTail 7, .newElem ⟨some 9, some 9, 5⟩,
    .insertHead 3, .removeElem 3, .insertTail 3, .removeElem 3, .removeItem 6]

theorem list_refines_sequence_turns :
    ∃ lst s tr, run op createWrapper turns = some (lst, tr) ∧ run Sequence.op .empty turns = some (s, tr) ∧
      Walks lst.data.store Node.next lst.data.head (entries s.cells) ∧
      Walks lst.data.store Node.prev lst.data.tail (entries s.cells).reverse ∧
      (lst.data.head = none ↔ lst.data.tail = none) ∧
      listSize lst.data = some (toInt s.cells.length) ∧
      (s.cells.length ≤ intMax → listSize lst.data = some (s.cells.length : Int)) ∧
      ∀ datum, eltInList lst datum = some (lst, if datum ∈ data s.cells then 1 else 0) :=
  list_refines_sequence turns (by decide +kernel)

end OsLabs.Sched.Linked
