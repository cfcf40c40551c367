import OsLabs.MymemHeapSound

/-!
# Every run keeps the nodes linked

The calls on the nodes and the calls on the list of blocks give the same
results, and the nodes form the list after each of them. What is known of the
list, that next fit keeps its pointer in it, keeps the loops on the nodes
defined.
-/

namespace OsLabs.Mymem.Linked

open DList

/-- The same calls on the list of blocks. -/
def memOp : StepFn Mem Op Nat
  | m, .initmem strategy sz pool => some (Mymem.initmem m strategy sz pool, null)
  | m, .mymalloc requested => Mymem.mymalloc m requested
  | m, .myfree block => some (Mymem.myfree m block, null)

/-- The sizes are values of an `int`. -/
def Sized (l : List MemoryList) : Prop := ∀ b ∈ l, toInt b.size = b.size

theorem Sized.useBlock {m m' : Mem} (h : Sized m.head) {c : Cursor} (hc : c.list = m.head) {requested p : Nat}
    (hm : Mymem.useBlock m requested c = some (m', p)) : Sized m'.head := by
  have hplace : Sized (placeBlock m requested c).head := by
    intro b hb
    have hmem : b ∈ c.list ∨ b ∈ c.block.carve requested m.fresh := by
      simp only [placeBlock, List.mem_append] at hb
      rcases hb with (hb | hb) | hb
      · exact Or.inl (List.mem_append_left _ hb)
      · exact Or.inr hb
      · exact Or.inl (List.mem_append_right _ (List.mem_cons_of_mem _ hb))
    rcases hmem with hb | hb
    · exact h b (hc ▸ hb)
    · unfold MemoryList.carve at hb
      split at hb
      · obtain rfl := List.mem_singleton.mp hb
        exact h c.block (hc ▸ List.mem_append_right _ List.mem_cons_self)
      · rcases List.mem_cons.mp hb with rfl | hb
        · simp only [toInt_toInt]
        · obtain rfl := List.mem_singleton.mp hb
          simp only [toInt_toInt]
  by_cases hs : m.myStrategy = .next
  · rw [Mymem.useBlock, if_pos hs] at hm
    split at hm
    · cases hm
    · cases hm
      exact hplace
  · rw [Mymem.useBlock, if_neg hs] at hm
    cases hm
    exact hplace

theorem Sized.mymalloc {m m' : Mem} (h : Sized m.head) {requested p : Nat}
    (hm : Mymem.mymalloc m requested = some (m', p)) : Sized m'.head := by
  by_cases hfits : m.myStrategy.Fits
  · rw [(mymalloc_search hfits requested).2] at hm
    cases hs : searchFit m requested with
    | none =>
      rw [hs] at hm
      cases hm
      exact h
    | some c =>
      rw [hs] at hm
      exact h.useBlock (searchFit_some hs).1 hm
  · unfold Mymem.mymalloc at hm
    cases hk : m.myStrategy with
    | first | best | worst => exact absurd (hk ▸ trivial) hfits
    | notSet =>
      rw [hk] at hm
      cases hm
    | next =>
      rw [hk] at hm
      simp only at hm
      split at hm
      · cases hm
      · rename_i c hc
        exact h.useBlock (searchNext_list hc) hm

theorem mergeForward_sized {block : MemoryList} {after : List MemoryList} (h : Sized (block :: after))
    (next : Option Nat) :
    Sized ((Mymem.mergeForward next block after).2.1 :: (Mymem.mergeForward next block after).2.2) := by
  induction after generalizing next block with
  | nil => exact h
  | cons tmp rest ih =>
    unfold Mymem.mergeForward
    split
    · exact h
    · apply ih
      intro b hb
      rcases List.mem_cons.mp hb with rfl | hb
      · exact toInt_toInt _
      · exact h b (List.mem_cons_of_mem _ (List.mem_cons_of_mem _ hb))

theorem Sized.myfree {m : Mem} (h : Sized m.head) (p : Nat) : Sized (Mymem.myfree m p).head := by
  unfold Mymem.myfree
  split
  · exact h
  · rename_i c hc
    have hlist : c.list = m.head := seek_list hc
    let c' : Cursor := { c with block := { c.block with alloc := false } }
    have hc' : Sized c'.list := by
      intro b hb
      rcases List.mem_append.mp hb with hb | hb
      · exact h b (hlist ▸ List.mem_append_left _ hb)
      · rcases List.mem_cons.mp hb with rfl | hb
        · exact h c.block (hlist ▸ List.mem_append_right _ List.mem_cons_self)
        · exact h b (hlist ▸ List.mem_append_right _ (List.mem_cons_of_mem _ hb))
    rw [Cursor.list, ← moveBack_list c'.before c'.block c'.after rfl, Cursor.list] at hc'
    have hmerged := mergeForward_sized (fun b hb => hc' b (List.mem_append_right _ hb)) m.next
    intro b hb
    rcases List.mem_append.mp hb with hb | hb
    · exact hc' b (List.mem_append_left _ hb)
    · exact hmerged b hb

/-- The list that the nodes form, with the roving pointer of next fit in it. -/
structure Simulates (m : Mem) (g : Globals) : Prop where
  represents : Represents g m
  roves : m.myStrategy = .next → Points m.next m.head
  sized : Sized m.head

theorem Simulates.static : Simulates { unset with fresh := 0 } static where
  represents := ⟨rfl, rfl, rfl, rfl, rfl, ⟨rfl, trivial, List.nodup_nil⟩, fun i n hn => by cases hn⟩
  roves hs := by cases hs
  sized _ hb := absurd hb List.not_mem_nil

/-- A free node is one of the blocks. -/
theorem Represents.free {g : Globals} {m : Mem} (h : Represents g m) {i : Nat} {n : Node Block}
    (hn : g.store.node i = some n) (hf : n.val.alloc = false) : ∃ b ∈ m.head, b.alloc = false := by
  obtain ⟨b, hb, rfl⟩ := List.mem_map.mp (ids_entries m.head ▸ h.owned i n hn)
  obtain ⟨p, q, hb'⟩ := h.holds b hb
  rw [hn] at hb'
  cases hb'
  exact ⟨b, hb, hf⟩

theorem Simulates.mymalloc {g : Globals} {m : Mem} (h : Simulates m g) {requested : Nat}
    (he : (Op.mymalloc requested).Admitted g) :
    ∃ m' p, Mymem.mymalloc m requested = some (m', p) ∧ (m'.myStrategy = .next → Points m'.next m'.head) := by
  obtain ⟨hst, hfree⟩ := he
  rw [h.represents.myStrategy] at hst hfree
  by_cases hs : m.myStrategy = .next
  · obtain ⟨i, -, n, hn, hf⟩ := hfree hs
    have hrover : Rover m := ⟨hs, h.represents.distinct, h.roves hs⟩
    obtain ⟨toUse, hsearch, -, -⟩ := hrover.searchNext (h.represents.free hn hf)
    obtain ⟨m', pre, b, post, hm, -, hr⟩ := hrover.mymalloc requested hsearch
    exact ⟨m', b.ptr, hm, fun _ => hr.points⟩
  · have hfits : m.myStrategy.Fits := by
      cases hk : m.myStrategy with
      | notSet => exact absurd hk hst
      | next => exact absurd hk hs
      | first | best | worst => trivial
    rw [(mymalloc_search hfits requested).2]
    cases searchFit m requested with
    | none => exact ⟨m, null, rfl, fun hk => absurd hk hs⟩
    | some c =>
      exact ⟨placeBlock m requested c, c.block.ptr, by rw [Mymem.orNull, Mymem.useBlock, if_neg hs],
        fun hk => absurd hk hs⟩

theorem op_simulates (m : Mem) (g : Globals) (e : Op) (h : Simulates m g) (he : e.Admitted g) :
    ∃ m' g' r, memOp m e = some (m', r) ∧ op g e = some (g', r) ∧ Simulates m' g' := by
  cases e with
  | initmem strategy sz pool =>
    obtain ⟨g', hg, hr⟩ := h.represents.initmem strategy sz pool
    refine ⟨_, g', null, rfl, by simp [op, hg], hr, fun _ => ⟨_, rfl, Or.inr rfl⟩, ?_⟩
    intro b hb
    obtain rfl := List.mem_singleton.mp hb
    simp only [toInt_toInt]
  | mymalloc requested =>
    obtain ⟨m', p, hm, hp⟩ := h.mymalloc he
    obtain ⟨g', hg, hr⟩ := h.represents.mymalloc hm
    exact ⟨m', g', p, hm, hg, hr, hp, h.sized.mymalloc hm⟩
  | myfree block =>
    obtain ⟨g', hg, hr⟩ := h.represents.myfree block
    refine ⟨_, g', null, rfl, by simp [op, hg], hr, ?_, h.sized.myfree block⟩
    intro hs
    exact myfree_points (h.roves ((myfree_strategy m block).symm.trans hs)) block

/-! ## One merge -/

/-- The run of free nodes around the node `i` gives way to its first node `f`,
with the sum of the sizes. All that changes elsewhere is the `prev` of the node behind it. -/
structure RunMerged (g : Globals) (l : List (Nat × Block)) (i : Nat) (g' : Globals) (xs : List (Nat × Block))
    (f : Nat × Block) (rest ys : List (Nat × Block)) : Prop where
  run : l = xs ++ (f :: rest) ++ ys
  mem : i ∈ ids (f :: rest)
  free : ∀ x ∈ f :: rest, x.2.alloc = false
  leftEnd : ∀ x ∈ xs.getLast?, x.2.alloc = true
  rightEnd : ∀ x ∈ ys.head?, x.2.alloc = true
  list : WellLinked g'.store g'.head
    (xs ++ (f.1, { f.2 with size := toInt (((f :: rest).map fun x => x.2.size).sum) }) :: ys)
  released : ∀ j ∈ ids rest, g'.store.Freed j
  behind : ∀ j n, firstId ys none = some j → g.store.node j = some n →
    g'.store.node j = some { n with prev := some f.1 }
  untouched : ∀ j ∉ ids (f :: rest), firstId ys none ≠ some j → g'.store.node j = g.store.node j
  next : g'.next = redirect g.next (ids rest) f.1
  others : g' = { g with store := g'.store, next := g'.next }

theorem mergeBlocks_merged {g : Globals} {l : List (Nat × Block)} (h : WellLinked g.store g.head l)
    (hint : ∀ x ∈ l, toInt x.2.size = x.2.size) {i : Nat} {b : Block} (hi : (i, b) ∈ l) (hb : b.alloc = false) :
    ∃ g' xs f rest ys, mergeBlocks g i = some g' ∧ RunMerged g l i g' xs f rest ys := by
  have hl := wellLinked_iff.mp h
  obtain ⟨pre, post, rfl⟩ := List.append_of_mem hi
  obtain ⟨xs, back, fwd, ys, f, rest, rfl, rfl, hrun, hfree, hxs, hys⟩ :=
    exists_run (fun x : Nat × Block => x.2.alloc) pre (x := (i, b)) hb post
  have hlist : xs ++ back ++ (i, b) :: (fwd ++ ys) = xs ++ (f :: rest) ++ ys := by
    rw [← hrun]
    simp
  rw [hlist] at hl hint ⊢
  obtain ⟨σ, hσ, hl', hgone, hs⟩ := mergeBlocks_links hl hrun hfree hxs hys
  have hsize : grow f.2 rest = { f.2 with size := toInt (((f :: rest).map fun x => x.2.size).sum) } := by
    have heta : grow f.2 rest = ⟨(grow f.2 rest).size, (grow f.2 rest).alloc, (grow f.2 rest).ptr⟩ := rfl
    rw [heta, grow_size (hint f (by simp)), grow_alloc, grow_ptr, List.map_cons, List.sum_cons]
  refine ⟨_, xs, f, rest, ys, hσ, rfl, ?_, hfree, hxs, hys, wellLinked_iff.mpr (hsize ▸ hl'), ?_, ?_, ?_, rfl, rfl⟩
  · rw [← hrun]
    simp
  · intro j hj
    obtain ⟨n, hn⟩ := hl.links.live (i := j) (by simp [hj])
    exact ⟨hs.fresh.symm ▸ Store.lt_fresh hn, hgone j hj⟩
  · intro j n hj hn
    cases ys with
    | nil => cases hj
    | cons y ys =>
      cases hj
      have hnew := (links_append.mp hl'.links).2.2.1
      rw [hl.links.node] at hn
      cases hn
      exact hnew
  · intro j hj hjy
    refine hs.node j ?_
    rw [ids_cons, List.mem_cons, not_or] at hj
    simp only [List.mem_cons, List.mem_append, Option.mem_toList, not_or]
    exact ⟨hj.1, hj.2, hjy⟩

/-! ## Every run -/

/-- In every run the nodes form a list that is linked both ways and leads to no
node that has been freed, with sizes that are values of an `int`; and in every
such list `merge_blocks` puts the first node of a run of free nodes in the place
of the whole run. -/
theorem blocks_stay_linked :
    (∀ es, Guarded op (fun g e => e.Admitted g) static es →
      ∃ g tr l, run op static es = some (g, tr) ∧ WellLinked g.store g.head l ∧
        (∀ x ∈ l, toInt x.2.size = x.2.size) ∧
        ∀ k, g.store.Freed k → k ∉ ids l ∧
          ∀ i ∈ ids l, ∀ n, g.store.node i = some n → n.prev ≠ some k ∧ n.next ≠ some k) ∧
    ∀ (g : Globals) (l : List (Nat × Block)) (i : Nat) (b : Block), WellLinked g.store g.head l →
      (∀ x ∈ l, toInt x.2.size = x.2.size) → (i, b) ∈ l → b.alloc = false →
      ∃ g' xs f rest ys, mergeBlocks g i = some g' ∧ RunMerged g l i g' xs f rest ys := by
  constructor
  · intro es hes
    obtain ⟨m, g, tr, -, hg, h⟩ := run_sim op_simulates Simulates.static hes
    have hl := h.represents.list
    refine ⟨g, tr, entries m.head, hg, wellLinked_iff.mpr hl, List.forall_mem_map.mpr h.sized, ?_⟩
    intro k hk
    have hout : k ∉ ids (entries m.head) := by
      intro hmem
      obtain ⟨n, hn⟩ := hl.links.live hmem
      exact Option.some_ne_none n (hn.symm.trans hk.2)
    refine ⟨hout, ?_⟩
    intro i hi n hn
    have hclosed := (wellLinked_iff.mpr hl).closed i hi n hn k
    exact ⟨fun hp => hout (hclosed (Or.inr hp)), fun hp => hout (hclosed (Or.inl hp))⟩
  · intro g l i b h hint hi hb
    exact mergeBlocks_merged h hint hi hb

/-- Three free nodes next to each other. -/
def threeFree : Globals :=
  { static with
    head := some 0
    next := some 2
    store := ((Store.empty.malloc ⟨none, some 1, ⟨4, false, 4096⟩⟩).malloc ⟨some 0, some 2, ⟨3, false, 4100⟩⟩).malloc
      ⟨some 1, none, ⟨5, false, 4103⟩⟩ }

/-- A run of next fit that merges on both sides. -/
def alternating : List Op :=
  [.initmem .next 10 4096, .mymalloc 4, .mymalloc 2, .myfree 4096, .mymalloc 3, .myfree 4100]

theorem blocks_stay_linked_three :
    (∃ g tr l, run op static alternating = some (g, tr) ∧ WellLinked g.store g.head l ∧
        (∀ x ∈ l, toInt x.2.size = x.2.size) ∧
        ∀ k, g.store.Freed k → k ∉ ids l ∧
          ∀ i ∈ ids l, ∀ n, g.store.node i = some n → n.prev ≠ some k ∧ n.next ≠ some k) ∧
    ∃ g' xs f rest ys, mergeBlocks threeFree 1 = some g' ∧
      RunMerged threeFree [(0, ⟨4, false, 4096⟩), (1, ⟨3, false, 4100⟩), (2, ⟨5, false, 4103⟩)] 1 g' xs f rest ys :=
  ⟨blocks_stay_linked.1 alternating (by decide +kernel),
    blocks_stay_linked.2 threeFree _ 1 ⟨3, false, 4100⟩
      (wellLinked_iff.mpr ⟨rfl, ⟨rfl, rfl, rfl, trivial⟩, by decide⟩) (by decide) (by simp) rfl⟩

end OsLabs.Mymem.Linked
