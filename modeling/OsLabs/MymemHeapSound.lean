import OsLabs.MymemMerge
import OsLabs.MymemRove

/-!
# The nodes of the memory manager form the list

A list of nodes in the store represents the list of blocks: its nodes are linked
both ways in the order of the blocks, and there are no other nodes. Each
function on the nodes does what the function on the list does, so it is defined
where that one is and keeps the links.
-/

namespace OsLabs.Mymem

open DList

def MemoryList.entry (b : MemoryList) : Nat × Linked.Block := (b.node, ⟨b.size, b.alloc, b.ptr⟩)

def entries (l : List MemoryList) : List (Nat × Linked.Block) := l.map MemoryList.entry

@[simp] theorem entries_nil : entries [] = [] := rfl

@[simp] theorem entries_cons (b : MemoryList) (l : List MemoryList) : entries (b :: l) = b.entry :: entries l := rfl

@[simp] theorem entries_append (xs ys : List MemoryList) : entries (xs ++ ys) = entries xs ++ entries ys :=
  List.map_append

@[simp] theorem entries_length (l : List MemoryList) : (entries l).length = l.length := List.length_map _

theorem ids_entries (l : List MemoryList) : ids (entries l) = l.map (·.node) := List.map_map

theorem Cursor.entries_list (c : Cursor) :
    entries c.list = entries c.before.reverse ++ c.block.entry :: entries c.after := by
  rw [Cursor.list, entries_append, entries_cons]

namespace Linked

structure Represents (g : Globals) (m : Mem) : Prop where
  myStrategy : g.myStrategy = m.myStrategy
  mySize : g.mySize = m.mySize
  myMemory : g.myMemory = m.myMemory
  next : g.next = m.next
  fresh : g.store.fresh = m.fresh
  list : IsList g.store g.head (entries m.head)
  owned : Owned g.store (entries m.head)

theorem Represents.distinct {g : Globals} {m : Mem} (h : Represents g m) : Distinct m where
  nodup := ids_entries m.head ▸ h.list.nodup
  below b hb := by
    have hmem : b.node ∈ ids (entries m.head) := ids_entries m.head ▸ List.mem_map_of_mem hb
    obtain ⟨n, hn⟩ := h.list.links.live hmem
    exact h.fresh ▸ Store.lt_fresh hn

theorem Represents.length_lt {g : Globals} {m : Mem} (h : Represents g m) : m.head.length < g.fuel := by
  have hlen := h.list.links.length_le h.list.nodup
  rw [entries_length] at hlen
  exact Nat.lt_succ_of_le hlen

/-! ## Initialization -/

theorem releaseLoop_links {σ : Store Block} {p : Option Nat} {l : List (Nat × Block)} (h : Links σ p l none)
    (hd : (ids l).Nodup) {fuel : Nat} (hf : l.length < fuel) :
    ∃ σ', releaseLoop fuel σ (firstId l none) = some σ' ∧ (∀ i ∈ ids l, σ'.node i = none) ∧ σ.Same (ids l) σ' := by
  induction l generalizing σ p fuel with
  | nil =>
    obtain ⟨fuel, rfl⟩ := Nat.exists_eq_add_of_lt hf
    exact ⟨σ, rfl, fun i hi => absurd hi List.not_mem_nil, .refl _ σ⟩
  | cons x l ih =>
    obtain ⟨fuel, rfl⟩ : ∃ k, fuel = k + 1 := ⟨fuel - 1, by omega⟩
    obtain ⟨hx, hd⟩ := List.nodup_cons.mp hd
    obtain ⟨σ₁, hσ₁, hn, hs⟩ := Store.free_eq h.1
    obtain ⟨σ', hσ', hgone, hs'⟩ := ih (h.2.frame hs (List.singleton_disjoint.mpr hx)) hd (by simpa using hf)
    refine ⟨σ', ?_, ?_, (hs.mono (by simp)).trans (hs'.mono (List.subset_cons_self _ _))⟩
    · simp [releaseLoop, h.1, hσ₁, hσ']
    · intro i hi
      rcases List.mem_cons.mp hi with rfl | hi
      · exact (hs'.node _ hx).trans hn
      · exact hgone i hi

theorem initializeHead_represents {g : Globals} {m : Mem} (hst : g.myStrategy = m.myStrategy)
    (hsz : g.mySize = m.mySize) (hmem : g.myMemory = m.myMemory) (hf : g.store.fresh = m.fresh)
    (hempty : ∀ i, g.store.node i = none) : Represents (initializeHead g) (Mymem.initializeHead m) where
  myStrategy := hst
  mySize := hsz
  myMemory := hmem
  next := congrArg some hf
  fresh := congrArg (· + 1) hf
  list := by
    have hnode := Store.malloc_node g.store
      { prev := none, next := none, val := { size := toInt g.mySize, alloc := false, ptr := g.myMemory } }
    rw [hf, hsz, hmem] at hnode
    refine ⟨congrArg some hf, ⟨?_, trivial⟩, ?_⟩
    · rw [initializeHead, hsz, hmem]
      simp only [List.map_nil, firstId_nil]
      exact hnode
    · rw [ids_entries]
      exact List.nodup_singleton _
  owned := by
    intro i n hn
    by_cases hi : i = g.store.fresh
    · rw [hi, hf]
      exact List.mem_singleton_self _
    · rw [initializeHead, Store.malloc_node_of_ne _ _ hi, hempty i] at hn
      cases hn

theorem Represents.initmem {g : Globals} {m : Mem} (h : Represents g m) (strategy : Strategies) (sz pool : Nat) :
    ∃ g', initmem g strategy sz pool = some g' ∧ Represents g' (Mymem.initmem m strategy sz pool) := by
  have hlen : (entries m.head).length < g.fuel := by simpa using h.length_lt
  obtain ⟨σ, hσ, hgone, hs⟩ := releaseLoop_links h.list.links h.list.nodup hlen
  rw [← h.list.head] at hσ
  have hempty : ∀ i, σ.node i = none := by
    intro i
    by_cases hi : i ∈ ids (entries m.head)
    · exact hgone i hi
    · rw [hs.node i hi]
      cases hn : g.store.node i with
      | none => rfl
      | some n => exact absurd (h.owned i n hn) hi
  have hrelease : release { g with myStrategy := strategy, mySize := sz } =
      some { g with myStrategy := strategy, mySize := sz, head := none, next := none, store := σ } := by
    show Option.bind (releaseLoop g.fuel g.store g.head) _ = _
    rw [hσ]
    rfl
  refine ⟨_, by rw [Linked.initmem, hrelease]; rfl, ?_⟩
  exact initializeHead_represents rfl rfl rfl (hs.fresh.trans h.fresh) hempty

/-! ## The searches -/

/-- The block is in the store, under its node. -/
def Holds (σ : Store Block) (b : MemoryList) : Prop := ∃ p n, σ.node b.node = some ⟨p, n, b.entry.2⟩

theorem Represents.holds {g : Globals} {m : Mem} (h : Represents g m) : ∀ b ∈ m.head, Holds g.store b := by
  intro b hb
  obtain ⟨xs, ys, hl⟩ := List.append_of_mem hb
  have hlinks := h.list.links
  rw [hl, entries_append, entries_cons] at hlinks
  exact ⟨_, _, hlinks.node⟩

/-- The loop over the nodes stops where the loop over the list does. -/
theorem seek_entries {σ : Store Block} {p : Option Nat} {l : List MemoryList} (h : Links σ p (entries l) none)
    (q : Block → Bool) {fuel : Nat} (hf : l.length < fuel) (before : List MemoryList) :
    σ.seek q fuel (firstId (entries l) none) =
      some ((Mymem.seek (fun b => q b.entry.2) before l).map fun c => c.block.node) := by
  have hfind := seek_find (fun b => q b.entry.2) before l
  have hmap : (Mymem.seek (fun b => q b.entry.2) before l).map (fun c => c.block.node) =
      (l.find? fun b => q b.entry.2).map (·.node) := by
    rw [← hfind, Option.map_map]
    rfl
  rw [h.seek q (by simpa using hf), hmap, entries, List.find?_map, Option.map_map]
  rfl

theorem choose_entries {better : Int → Int → Bool} {σ : Store Block} {requested : Nat} {l : List MemoryList}
    (toUse : Option Cursor) (hu : ∀ u ∈ toUse, Holds σ u.block) (hl : ∀ b ∈ l, Holds σ b)
    (before : List MemoryList) :
    (entries l).foldlM (fun u x => choose better σ requested u x.1 x.2) (toUse.map fun c => c.block.node) =
      some ((Mymem.searchBy better requested toUse before l).map fun c => c.block.node) := by
  induction l generalizing toUse before with
  | nil => rfl
  | cons b l ih =>
    obtain ⟨hb, hl⟩ := List.forall_mem_cons.mp hl
    have hfits : b.entry.2.fits requested = b.fits requested := rfl
    have hchoose : choose better σ requested (toUse.map fun c => c.block.node) b.node b.entry.2 =
        some ((if b.fits requested && b.wins better toUse then some (⟨before, b, l⟩ : Cursor) else toUse).map
          fun c => c.block.node) := by
      unfold choose
      rw [hfits]
      cases b.fits requested with
      | false => simp
      | true =>
        cases toUse with
        | none => rfl
        | some u =>
          obtain ⟨p, n, hn⟩ := hu u rfl
          cases hbetter : better b.size u.block.size <;>
            simp [hn, MemoryList.wins, MemoryList.entry, hbetter]
    rw [entries_cons, List.foldlM_cons]
    show (choose better σ requested (toUse.map fun c => c.block.node) b.node b.entry.2).bind _ = _
    rw [hchoose, Mymem.searchBy]
    refine ih _ ?_ hl (b :: before)
    intro u hm
    split at hm
    · cases hm
      exact hb
    · exact hu u hm

section
variable {g : Globals} {m : Mem} (h : Represents g m)
include h

theorem Represents.searchFirst (requested : Nat) :
    searchFirst g requested = some ((Mymem.searchFirst requested [] m.head).map fun c => c.block.node) := by
  rw [Linked.searchFirst, h.list.head]
  exact seek_entries h.list.links (Block.fits requested) h.length_lt []

theorem Represents.searchBy (better : Int → Int → Bool) (requested : Nat) :
    searchBy better g requested =
      some ((Mymem.searchBy better requested none [] m.head).map fun c => c.block.node) := by
  have hfold := h.list.links.fold (choose better g.store requested) (by simpa using h.length_lt) none
  rw [Linked.searchBy, h.list.head, hfold]
  exact choose_entries none (fun u hu => by cases hu) h.holds []

theorem Represents.searchNext {toUse : Cursor} (hs : Mymem.searchNext m = some toUse) :
    searchNext g = some toUse.block.node := by
  unfold Mymem.searchNext at hs
  split at hs
  · cases hs
  · rename_i c hc
    obtain ⟨xs, hl, hbefore, -, hp⟩ := seek_some hc
    have hlinks := h.list.links
    have hlen := h.length_lt
    rw [hl, entries_append] at hlinks
    rw [hl, List.length_append] at hlen
    have hnext : g.next = firstId (entries (c.block :: c.after)) none := by
      have hp : m.next = some c.block.node := by simpa using hp
      exact h.next.trans hp
    rw [Linked.searchNext, hnext, seek_entries (links_append.mp hlinks).2 (fun b => !b.alloc)
      (show (c.block :: c.after).length < g.fuel by omega) c.before]
    exact congrArg (fun o => o.map fun c => c.block.node) hs

end

/-! ## The block to use -/

/-- What is left of a block behind the part that is used. -/
def leftOver (requested : Nat) (u : Block) : Block where
  size := toInt (toSize ((toSize u.size : Int) - requested))
  alloc := false
  ptr := u.ptr + requested

theorem split_links {σ : Store Block} {xs ys : List (Nat × Block)} {i : Nat} {u : Block}
    (h : Links σ none (xs ++ (i, u) :: ys) none) (hd : (ids (xs ++ (i, u) :: ys)).Nodup) (requested : Nat) :
    ∃ σ', split σ requested i = some σ' ∧
      Links σ' none (xs ++ (i, { u with alloc := true, size := toInt requested }) ::
        (σ.fresh, leftOver requested u) :: ys) none ∧
      (σ.malloc blank).Same (σ.fresh :: i :: (firstId ys none).toList) σ' := by
  have hnew : σ.fresh ∉ ids (xs ++ (i, u) :: ys) := fun hj => h.ne_fresh hj rfl
  obtain ⟨σ₁, σ₂, σ₃, σ₄, hσ₁, hσ₂, hσ₃, hσ₄, h₄, hs₄⟩ :=
    (h.malloc blank).insertAfter hd (Store.malloc_node σ blank) hnew
  have hd₄ : (ids ((xs ++ [(i, u)]) ++ (σ.fresh, blank.val) :: ys)).Nodup := by
    rw [nodup_middle, ids_append, ids_cons, List.append_assoc]
    rw [ids_append, ids_cons, List.mem_append, List.mem_cons, not_or, not_or] at hnew
    refine ⟨by simp [hnew.1, hnew.2.1], hnew.2.2, by simpa using hd⟩
  rw [List.append_cons] at h₄
  obtain ⟨σ₅, hσ₅, h₅, hs₅⟩ := h₄.setVal hd₄ fun _ => leftOver requested u
  rw [← List.append_cons] at h₅
  obtain ⟨σ', hσ', h', hs'⟩ := h₅.setVal (by simpa using hd₄) fun b =>
    { b with alloc := true, size := toInt requested }
  refine ⟨σ', ?_, h', (hs₄.trans (hs₅.mono (by simp))).trans (hs'.mono (by simp))⟩
  simp only [leftOver] at hσ₅
  simp [split, h.node, hσ₁, hσ₂, hσ₃, hσ₄, hσ₅, hσ']

section
variable {g : Globals} {m : Mem} (h : Represents g m)
include h

/-- A block that keeps its node gets another value. -/
theorem Represents.setBlock {c : Cursor} (hc : c.list = m.head) {b : MemoryList} (hb : b.node = c.block.node)
    {f : Block → Block} (hf : f c.block.entry.2 = b.entry.2) :
    ∃ σ, g.store.setVal c.block.node f = some σ ∧
      Represents { g with store := σ } { m with head := ({ c with block := b } : Cursor).list } := by
  obtain ⟨hhead, hlinks, hd⟩ := h.list
  have howned := h.owned
  rw [← hc, Cursor.entries_list] at hhead hlinks hd howned
  obtain ⟨σ, hσ, hlinks', hs⟩ := hlinks.setVal hd f
  have hl : entries ({ c with block := b } : Cursor).list =
      entries c.before.reverse ++ (c.block.node, f c.block.entry.2) :: entries c.after := by
    rw [Cursor.entries_list, hf, ← hb]
    rfl
  refine ⟨σ, hσ, h.myStrategy, h.mySize, h.myMemory, h.next, hs.fresh.trans h.fresh, ?_, ?_⟩
  · rw [hl]
    refine ⟨hhead.trans (firstId_middle _ _ _ _ _ _ _), hlinks', ?_⟩
    simpa [MemoryList.entry] using hd
  · rw [hl]
    exact howned.same hs (by simp [MemoryList.entry]) (by simp)

theorem Represents.split {c : Cursor} (hc : c.list = m.head) {requested : Nat}
    (hsz : toSize c.block.size ≠ requested) :
    ∃ σ, split g.store requested c.block.node = some σ ∧
      Represents { g with store := σ } (placeBlock m requested c) := by
  obtain ⟨hhead, hlinks, hd⟩ := h.list
  have howned := h.owned
  rw [← hc, Cursor.entries_list] at hhead hlinks hd howned
  obtain ⟨σ, hσ, hlinks', hs⟩ := split_links hlinks hd requested
  have hfresh : (placeBlock m requested c).fresh = m.fresh + 1 := by simp [placeBlock, MemoryList.carve, hsz]
  have hentries : entries (placeBlock m requested c).head = entries c.before.reverse ++
      (c.block.node, { c.block.entry.2 with alloc := true, size := toInt requested }) ::
        (g.store.fresh, leftOver requested c.block.entry.2) :: entries c.after := by
    rw [h.fresh]
    simp [placeBlock, MemoryList.carve, hsz, MemoryList.entry, leftOver]
  have hids : ∀ j, j ∈ ids (entries (placeBlock m requested c).head) ↔
      j ∈ ids (entries c.before.reverse) ∨ j = c.block.node ∨ j = g.store.fresh ∨ j ∈ ids (entries c.after) := by
    simp [hentries]
  refine ⟨σ, hσ, h.myStrategy, h.mySize, h.myMemory, h.next, ?_, ?_, ?_⟩
  · rw [hfresh, ← h.fresh]
    exact hs.fresh
  · refine ⟨?_, hentries ▸ hlinks', ids_entries _ ▸ (h.distinct.place hc requested).nodup⟩
    rw [hentries]
    exact hhead.trans (firstId_middle _ _ _ _ _ _ _)
  · have hmem : (g.store.fresh, leftOver requested c.block.entry.2) ∈ entries (placeBlock m requested c).head := by
      simp [hentries]
    refine (howned.malloc blank ?_ hmem).same hs (List.Subset.refl _) ?_
    · intro j hj
      rw [ids_append, ids_cons, List.mem_append, List.mem_cons] at hj
      exact (hids j).mpr (hj.imp_right fun hj => hj.imp_right Or.inr)
    · intro j hj
      rw [List.mem_cons, List.mem_cons] at hj
      rcases hj with hj | hj | hj
      · exact (hids j).mpr (Or.inr (Or.inr (Or.inl hj)))
      · exact (hids j).mpr (Or.inr (Or.inl hj))
      · exact (hids j).mpr (Or.inr (Or.inr (Or.inr (firstId_toList _ hj))))

theorem Represents.carve {c : Cursor} (hc : c.list = m.head) (requested : Nat) :
    ∃ σ, carve g.store requested c.block.node = some σ ∧
      Represents { g with store := σ } (placeBlock m requested c) := by
  have hlinks := h.list.links
  rw [← hc, Cursor.entries_list] at hlinks
  have hnode : g.store.node c.block.node = some ⟨_, _, c.block.entry.2⟩ := hlinks.node
  by_cases hsz : toSize c.block.size = requested
  · obtain ⟨σ, hσ, hr⟩ := h.setBlock hc (b := { c.block with alloc := true }) (f := fun b => { b with alloc := true })
      rfl rfl
    have hplace : placeBlock m requested c =
        { m with head := ({ c with block := { c.block with alloc := true } } : Cursor).list } := by
      simp [placeBlock, MemoryList.carve, hsz, Cursor.list]
    refine ⟨σ, ?_, hplace ▸ hr⟩
    simp [Linked.carve, hnode, MemoryList.entry, hsz, hσ]
  · obtain ⟨σ, hσ, hr⟩ := h.split hc hsz
    refine ⟨σ, ?_, hr⟩
    simp [Linked.carve, hnode, MemoryList.entry, hsz, hσ]

omit h in
theorem walkNext_entries {σ : Store Block} {p : Option Nat} {head rest : List MemoryList}
    (hh : Links σ none (entries head) none) (hr : Links σ p (entries rest) none) (toUse fuel : Nat) :
    walkNext σ (firstId (entries head) none) toUse fuel (firstId (entries rest) none) =
      Mymem.walkNext head toUse fuel rest := by
  induction fuel generalizing p rest with
  | zero => rfl
  | succ fuel ih =>
    cases rest with
    | nil => exact ih hh
    | cons b rest =>
      have hb : σ.node b.node = some ⟨p, firstId (entries rest) none, b.entry.2⟩ := hr.1
      rw [entries_cons, firstId_cons, Linked.walkNext, Mymem.walkNext, ← ih hr.2]
      show (σ.node b.node).bind _ = _
      rw [hb]
      rfl

omit h in
theorem walkNext_fuel {head rest : List MemoryList} {toUse k n : Nat}
    (hn : Mymem.walkNext head toUse k rest = some n) (d : Nat) : Mymem.walkNext head toUse (k + d) rest = some n := by
  induction k generalizing rest with
  | zero => cases hn
  | succ k ih =>
    rw [Nat.add_right_comm]
    cases rest with
    | nil => exact ih hn
    | cons b rest =>
      rw [Mymem.walkNext] at hn ⊢
      split at hn
      · rename_i hb
        rw [if_pos hb]
        exact ih hn
      · rename_i hb
        rw [if_neg hb]
        exact hn

/-- After an allocation `next` is moved over the nodes as it is over the list. -/
theorem Represents.updateNext {pre rest : List MemoryList} {b : MemoryList} (hm : m.head = pre ++ b :: rest)
    {n : Nat} (hn : Mymem.updateNext m.head b.node rest = some n) :
    updateNext g b.node = some { g with next := some n } := by
  obtain ⟨hhead, hlinks, -⟩ := h.list
  have hpart := hlinks
  rw [hm, entries_append, entries_cons] at hpart
  have hnode : g.store.node b.node = some ⟨_, firstId (entries rest) none, b.entry.2⟩ := hpart.node
  unfold Mymem.updateNext at hn
  split at hn
  · cases hn
  · rename_i k hk
    obtain ⟨d, hd⟩ := Nat.exists_eq_add_of_le (show 2 * m.head.length + 2 ≤ 2 * g.fuel by have := h.length_lt; omega)
    have hwalk : walkNext g.store g.head b.node (2 * g.fuel) (firstId (entries rest) none) = some k := by
      rw [hhead, walkNext_entries hlinks (links_append.mp hpart).2.2, hd]
      exact walkNext_fuel hk d
    have hfirst : g.head = m.head.head?.map (·.node) := by
      rw [hhead]
      cases m.head <;> rfl
    have hnext : (if k = b.node then g.head else some k) = some n := by rw [hfirst, hn]
    simp [Linked.updateNext, hnode, hwalk, hnext]

theorem Represents.useBlock {c : Cursor} (hc : c.list = m.head) {requested p : Nat} {m' : Mem}
    (hm : Mymem.useBlock m requested c = some (m', p)) :
    ∃ g', useBlock g requested c.block.node = some (g', p) ∧ Represents g' m' := by
  obtain ⟨σ, hσ, hplace⟩ := h.carve hc requested
  obtain ⟨b', xs, hcarve, hn, -, hp, -⟩ := carve_shape requested m.fresh c.block
  have hhead : (placeBlock m requested c).head = c.before.reverse ++ b' :: (xs ++ c.after) := by
    simp [placeBlock, hcarve]
  have hlinks := hplace.list.links
  rw [hhead, entries_append, entries_cons] at hlinks
  have hnode : σ.node c.block.node = some ⟨_, _, b'.entry.2⟩ := hn ▸ hlinks.node
  have hptr : b'.entry.2.ptr = c.block.ptr := hp
  by_cases hs : m.myStrategy = .next
  · rw [Mymem.useBlock, if_pos hs, hcarve] at hm
    split at hm
    · cases hm
    · rename_i n hupd
      cases hm
      rw [List.tail_cons, ← hn] at hupd
      have hs' : g.myStrategy = .next := h.myStrategy.trans hs
      have hnext := hplace.updateNext hhead hupd
      simp only [hn, hs'] at hnext
      refine ⟨{ g with store := σ, next := some n }, ?_, hplace.myStrategy, hplace.mySize, hplace.myMemory, rfl,
        hplace.fresh, hplace.list, hplace.owned⟩
      simp [Linked.useBlock, hσ, hs', hnext, hnode, hptr]
  · rw [Mymem.useBlock, if_neg hs] at hm
    cases hm
    exact ⟨_, by simp [Linked.useBlock, hσ, h.myStrategy, hs, hnode, hptr], hplace⟩

theorem Represents.orNull {c : Option Cursor} (hc : ∀ u ∈ c, u.list = m.head) {requested p : Nat} {m' : Mem}
    (hm : Mymem.orNull m requested c = some (m', p)) :
    ∃ g', orNull g requested (c.map fun c => c.block.node) = some (g', p) ∧ Represents g' m' := by
  cases c with
  | none =>
    cases hm
    exact ⟨g, rfl, h⟩
  | some u => exact h.useBlock (hc u rfl) hm

theorem Represents.mymalloc {requested p : Nat} {m' : Mem} (hm : Mymem.mymalloc m requested = some (m', p)) :
    ∃ g', mymalloc g requested = some (g', p) ∧ Represents g' m' := by
  have hfirst : ∀ u ∈ Mymem.searchFirst requested [] m.head, u.list = m.head := by
    intro u hu
    simpa using seek_list hu
  have hby : ∀ better, ∀ u ∈ Mymem.searchBy better requested none [] m.head, u.list = m.head := by
    intro better u hu
    exact (searchBy_some (by simp) hu).1
  unfold Mymem.mymalloc at hm
  unfold Linked.mymalloc
  rw [h.myStrategy]
  cases hs : m.myStrategy with
  | notSet =>
    rw [hs] at hm
    cases hm
  | first =>
    rw [hs] at hm
    have hsearch := h.searchFirst requested
    simp only [hsearch, Option.bind_eq_bind, Option.bind_some]
    exact h.orNull hfirst hm
  | best =>
    rw [hs] at hm
    have hsearch := h.searchBy (fun size best => decide (size < best)) requested
    simp only [searchBest, hsearch, Option.bind_eq_bind, Option.bind_some]
    exact h.orNull (hby _) hm
  | worst =>
    rw [hs] at hm
    have hsearch := h.searchBy (fun size worst => decide (worst < size)) requested
    simp only [searchWorst, hsearch, Option.bind_eq_bind, Option.bind_some]
    exact h.orNull (hby _) hm
  | next =>
    rw [hs] at hm
    simp only at hm
    split at hm
    · cases hm
    · rename_i u hu
      simp only [h.searchNext hu, Option.bind_eq_bind, Option.bind_some]
      exact h.useBlock (searchNext_list hu) hm

end

/-! ## Release of a block -/

/-- The block `f` with the sizes of the blocks `rest`. -/
def absorb (f : MemoryList) (rest : List MemoryList) : MemoryList :=
  { f with size := (grow f.entry.2 (entries rest)).size }

theorem absorb_entry (f : MemoryList) (rest : List MemoryList) :
    (absorb f rest).entry = (f.node, grow f.entry.2 (entries rest)) := by
  have heta : grow f.entry.2 (entries rest) =
      ⟨(grow f.entry.2 (entries rest)).size, (grow f.entry.2 (entries rest)).alloc,
        (grow f.entry.2 (entries rest)).ptr⟩ := rfl
  rw [heta, grow_alloc, grow_ptr]
  rfl

theorem mergeForward_run {rest ys : List MemoryList} (hrest : ∀ b ∈ rest, b.alloc = false)
    (hys : ∀ b ∈ ys.head?, b.alloc = true) (next : Option Nat) (f : MemoryList) :
    Mymem.mergeForward next f (rest ++ ys) =
      (redirect next (ids (entries rest)) f.node, absorb f rest, ys) := by
  induction rest generalizing next f with
  | nil =>
    cases ys with
    | nil => rfl
    | cons y ys =>
      rw [List.nil_append, Mymem.mergeForward, if_pos (hys y rfl)]
      rfl
  | cons t rest ih =>
    obtain ⟨ht, hrest⟩ := List.forall_mem_cons.mp hrest
    rw [List.cons_append, Mymem.mergeForward, if_neg (by simp [ht]), ih hrest, redirect_cons]
    rfl

theorem mergeBlocks_run (m : Mem) {c : Cursor} {xs back fwd ys rest : List MemoryList} {f : MemoryList}
    (hpre : c.before.reverse = xs ++ back) (hpost : c.after = fwd ++ ys) (hrun : back ++ c.block :: fwd = f :: rest)
    (hfree : ∀ b ∈ f :: rest, b.alloc = false) (hxs : ∀ b ∈ xs.getLast?, b.alloc = true)
    (hys : ∀ b ∈ ys.head?, b.alloc = true) :
    Mymem.mergeBlocks m c =
      { m with head := xs ++ absorb f rest :: ys, next := redirect m.next (ids (entries rest)) f.node } := by
  have hb : c.block.alloc = false := hfree _ (hrun ▸ by simp)
  have hbefore : c.before = back.reverse ++ xs.reverse := by
    rw [← List.reverse_append, ← hpre, List.reverse_reverse]
  have hback : ∀ b ∈ back.reverse, (!b.alloc) = true := by
    intro b hb
    rw [hfree b (hrun ▸ List.mem_append_left _ (List.mem_reverse.mp hb))]
    rfl
  have hstop : (xs.reverse.dropWhile fun b => !b.alloc) = xs.reverse ∧
      (xs.reverse.takeWhile fun b => !b.alloc) = [] := by
    rw [← List.head?_reverse] at hxs
    cases hr : xs.reverse with
    | nil => exact ⟨rfl, rfl⟩
    | cons x l =>
      have hx : x.alloc = true := hxs x (by rw [hr]; rfl)
      simp [hx]
  have hdrop : (c.before.dropWhile fun b => !b.alloc) = xs.reverse := by
    rw [hbefore, List.dropWhile_append_of_pos hback, hstop.1]
  have htake : (c.before.takeWhile fun b => !b.alloc).reverse = back := by
    rw [hbefore, List.takeWhile_append_of_pos hback, hstop.2, List.append_nil, List.reverse_reverse]
  have hl : back ++ c.block :: c.after = f :: (rest ++ ys) := by
    rw [hpost, ← List.cons_append, ← List.append_assoc, hrun, List.cons_append]
  obtain ⟨h1, h2, -⟩ := moveBack_spec c.before c.block c.after hb
  rw [hdrop] at h1
  rw [htake, hl] at h2
  obtain ⟨hf, hrest⟩ := List.cons.inj h2
  unfold Mymem.mergeBlocks
  simp only [hb, Bool.false_eq_true, ite_false]
  rw [hf, hrest, mergeForward_run (fun b hb => hfree b (List.mem_cons_of_mem _ hb)) hys, h1, List.reverse_reverse]

theorem Represents.mergeBlocks {g : Globals} {m : Mem} {c : Cursor} (h : Represents g { m with head := c.list })
    (hb : c.block.alloc = false) :
    ∃ g', mergeBlocks g c.block.node = some g' ∧ Represents g' (Mymem.mergeBlocks m c) := by
  obtain ⟨xs, back, fwd, ys, f, rest, hpre, hpost, hrun, hfree, hxs, hys⟩ :=
    exists_run MemoryList.alloc c.before.reverse hb c.after
  have hlist : c.list = xs ++ (f :: rest) ++ ys := by
    rw [Cursor.list, hpre, hpost, ← hrun]
    simp
  have hl := h.list
  have howned := h.owned
  simp only [hlist, entries_append, entries_cons] at hl howned
  have hrun' : entries back ++ (c.block.node, c.block.entry.2) :: entries fwd = f.entry :: entries rest := by
    rw [← entries_cons, ← hrun, entries_append, entries_cons]
    rfl
  have hfree' : ∀ x ∈ f.entry :: entries rest, x.2.alloc = false := by
    rw [← entries_cons]
    exact List.forall_mem_map.mpr hfree
  have hxs' : ∀ x ∈ (entries xs).getLast?, x.2.alloc = true := by
    rw [entries, List.getLast?_map]
    intro x hx
    obtain ⟨b, hb, rfl⟩ := Option.mem_map.mp hx
    exact hxs b hb
  have hys' : ∀ x ∈ (entries ys).head?, x.2.alloc = true := by
    rw [entries, List.head?_map]
    intro x hx
    obtain ⟨b, hb, rfl⟩ := Option.mem_map.mp hx
    exact hys b hb
  obtain ⟨σ, hσ, hl', hgone, hs⟩ := mergeBlocks_links hl hrun' hfree' hxs' hys'
  refine ⟨_, hσ, ?_⟩
  rw [mergeBlocks_run m hpre hpost hrun hfree hxs hys]
  refine ⟨h.myStrategy, h.mySize, h.myMemory, congrArg (redirect · _ _) h.next, hs.fresh.trans h.fresh, ?_, ?_⟩
  · rw [entries_append, entries_cons, absorb_entry]
    exact hl'
  · rw [entries_append, entries_cons, absorb_entry]
    exact owned_merged howned hs hgone

theorem Represents.myfree {g : Globals} {m : Mem} (h : Represents g m) (p : Nat) :
    ∃ g', myfree g p = some g' ∧ Represents g' (Mymem.myfree m p) := by
  have hseek := seek_entries h.list.links (fun b => b.ptr == p) h.length_lt []
  rw [← h.list.head] at hseek
  unfold Mymem.myfree
  split
  · rename_i hc
    have hnone : g.store.seek (fun b => b.ptr == p) g.fuel g.head = some none :=
      hseek.trans (congrArg (fun o => some (o.map fun c => c.block.node)) hc)
    exact ⟨g, by simp [Linked.myfree, hnone], h⟩
  · rename_i c hc
    have hsome : g.store.seek (fun b => b.ptr == p) g.fuel g.head = some (some c.block.node) :=
      hseek.trans (congrArg (fun o => some (o.map fun c => c.block.node)) hc)
    obtain ⟨σ, hσ, hfreed⟩ := h.setBlock (seek_list hc) (b := { c.block with alloc := false })
      (f := fun b => { b with alloc := false }) rfl rfl
    obtain ⟨g', hg', hr⟩ := hfreed.mergeBlocks rfl
    refine ⟨g', ?_, hr⟩
    simpa [Linked.myfree, hsome, hσ] using hg'

end Linked

end OsLabs.Mymem
