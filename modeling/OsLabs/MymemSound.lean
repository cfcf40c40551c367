import Mathlib.Data.List.TakeWhile
import OsLabs.Mymem

/-!
# First, best and worst fit keep a coalesced tiling of the pool

Every block size stays between 1 and the size of the pool, so that the mixed
comparisons and the conversions of `mymalloc` are exact. The search loops find
a free block that is large enough whenever there is one; `mymalloc` carves the
request out of it and `myfree` merges a freed block with its free neighbours.
The used segments are therefore the live allocations.
-/

namespace OsLabs.Mymem

/-! ## Searches -/

@[simp] theorem Cursor.list_mk (before : List MemoryList) (block : MemoryList) (after : List MemoryList) :
    Cursor.list ⟨before, block, after⟩ = before.reverse ++ block :: after := rfl

theorem seek_some {p : MemoryList → Bool} {before l : List MemoryList} {c : Cursor}
    (h : seek p before l = some c) :
    ∃ xs, l = xs ++ c.block :: c.after ∧ c.before = xs.reverse ++ before ∧ (∀ x ∈ xs, p x = false) ∧
      p c.block = true := by
  induction l generalizing before with
  | nil => cases h
  | cons b rest ih =>
    simp only [seek] at h
    split at h
    · rename_i hb
      cases h
      exact ⟨[], rfl, rfl, by simp, hb⟩
    · rename_i hb
      obtain ⟨xs, rfl, hbef, hxs, hc⟩ := ih h
      refine ⟨b :: xs, rfl, by simp [hbef], ?_, hc⟩
      intro x hx
      rcases List.mem_cons.mp hx with rfl | hx
      · simpa using hb
      · exact hxs x hx

theorem seek_none {p : MemoryList → Bool} {before l : List MemoryList} (h : seek p before l = none) :
    ∀ x ∈ l, p x = false := by
  induction l generalizing before with
  | nil => simp
  | cons b rest ih =>
    simp only [seek] at h
    split at h
    · cases h
    · rename_i hb
      exact List.forall_mem_cons.mpr ⟨by simpa using hb, ih h⟩

theorem seek_list {p : MemoryList → Bool} {before l : List MemoryList} {c : Cursor}
    (h : seek p before l = some c) : c.list = before.reverse ++ l := by
  obtain ⟨xs, rfl, hbef, -, -⟩ := seek_some h
  simp [Cursor.list, hbef]

/-- A cursor into the list `l` at a block that fits the request. -/
def Cursor.Finds (requested : Nat) (l : List MemoryList) (c : Cursor) : Prop :=
  c.list = l ∧ c.block.fits requested = true

theorem searchBy_some {better : Int → Int → Bool} {requested : Nat} {toUse : Option Cursor}
    {before l : List MemoryList} {c : Cursor}
    (hu : ∀ u ∈ toUse, u.Finds requested (before.reverse ++ l))
    (h : searchBy better requested toUse before l = some c) : c.Finds requested (before.reverse ++ l) := by
  induction l generalizing before toUse with
  | nil => exact hu c h
  | cons b rest ih =>
    have hl : before.reverse ++ b :: rest = (b :: before).reverse ++ rest := by simp
    rw [hl] at hu ⊢
    refine ih ?_ h
    intro u hm
    split at hm
    · rename_i hb
      cases hm
      rw [Bool.and_eq_true] at hb
      exact ⟨by simp, hb.1⟩
    · exact hu u hm

theorem searchBy_none {better : Int → Int → Bool} {requested : Nat} {toUse : Option Cursor}
    {before l : List MemoryList} (h : searchBy better requested toUse before l = none) :
    toUse = none ∧ ∀ x ∈ l, x.fits requested = false := by
  induction l generalizing before toUse with
  | nil => exact ⟨h, by simp⟩
  | cons b rest ih =>
    obtain ⟨hnone, hrest⟩ := ih h
    split at hnone
    · cases hnone
    · rename_i hb
      subst hnone
      exact ⟨rfl, List.forall_mem_cons.mpr ⟨by simpa [MemoryList.wins] using hb, hrest⟩⟩

/-! ## The invariant -/

structure Inv (pool sz : Nat) (m : Mem) : Prop where
  memory : m.myMemory = pool
  tiles : Tiles pool m.blocks (pool + sz)
  positive : Positive m.blocks
  coalesced : Coalesced m.blocks

theorem mem_blocks {m : Mem} {b : MemoryList} (h : b ∈ m.head) : b.seg ∈ m.blocks :=
  List.mem_map_of_mem h

section
variable {pool sz : Nat} {m : Mem} (h : Inv pool sz m) (hsz : sz ≤ intMax)
include h

theorem Inv.size_pos {b : MemoryList} (hb : b ∈ m.head) : 0 < b.size := h.positive _ (mem_blocks hb)

theorem Inv.size_le {b : MemoryList} (hb : b ∈ m.head) : b.size ≤ sz := by
  have hbd := h.tiles.bounds h.positive (mem_blocks hb)
  simp only [MemoryList.seg] at hbd
  omega

include hsz

theorem Inv.toSize_size {b : MemoryList} (hb : b ∈ m.head) : (toSize b.size : Int) = b.size := by
  have := h.size_pos hb
  have := h.size_le hb
  unfold intMax at hsz
  exact toSize_of_bounds (by omega) (by omega)

theorem Inv.fits_iff {b : MemoryList} (hb : b ∈ m.head) (requested : Nat) :
    b.fits requested = true ↔ b.alloc = false ∧ (requested : Int) ≤ b.size := by
  rw [← h.toSize_size hsz hb]
  simp [MemoryList.fits]

theorem Inv.carve_seg {b : MemoryList} (hb : b ∈ m.head) {requested : Nat} (hr : (requested : Int) ≤ b.size)
    (fresh : Nat) : (b.carve requested fresh).map MemoryList.seg = carve requested b.seg := by
  have hs := h.toSize_size hsz hb
  have := h.size_pos hb
  have := h.size_le hb
  unfold intMax at hsz
  by_cases heq : b.size = requested
  · rw [MemoryList.carve, if_pos (by omega), OsLabs.carve, if_pos (show b.seg.len = requested from heq)]
    simp [MemoryList.seg, heq]
  · have hx : toInt (toSize ((toSize b.size : Int) - requested)) = b.size - requested := by
      rw [toSize_of_bounds (by omega) (by omega), hs, toInt_of_bounds (by omega) (by omega)]
    have hq : toInt requested = requested := toInt_of_bounds (by omega) (by omega)
    rw [MemoryList.carve, if_neg (by omega), OsLabs.carve, if_neg (show ¬ b.seg.len = requested from heq)]
    simp [MemoryList.seg, hx, hq]

end

/-! ## `mymalloc` -/

/-- The three strategies that look for a block that is large enough. -/
def Strategies.Fits : Strategies → Prop
  | .first | .best | .worst => True
  | .notSet | .next => False

/-- The block list after `mymalloc`: a free block has given way to the request. -/
structure Allocates (requested : Nat) (m m' : Mem) (p : Nat) : Prop where
  split : ∃ xs b ys, m.blocks = xs ++ b :: ys ∧ b.used = false ∧ (requested : ℤ) ≤ b.len ∧ b.start = (p : ℤ) ∧
    m'.blocks = xs ++ carve requested b ++ ys
  memory : m'.myMemory = m.myMemory
  strategy : m'.myStrategy = m.myStrategy

theorem Allocates.inv {pool sz requested p : Nat} {m m' : Mem} (h : Inv pool sz m) (hr : 1 ≤ requested)
    (ha : Allocates requested m m' p) : Inv pool sz m' := by
  obtain ⟨xs, b, ys, hb, hf, hle, -, hb'⟩ := ha.split
  have ht := h.tiles
  have hp := h.positive
  have hc := h.coalesced
  rw [hb] at ht hp hc
  exact ⟨ha.memory.trans h.memory, hb' ▸ ht.carve, hb' ▸ hp.carve (by omega) hle, hb' ▸ hc.carve hf⟩

theorem Allocates.used {requested p : Nat} {m m' : Mem} (ha : Allocates requested m m' p) :
    (usedSpans m'.blocks).Perm (((p : ℤ), (requested : ℤ)) :: usedSpans m.blocks) := by
  obtain ⟨xs, b, ys, hb, hf, -, hs, hb'⟩ := ha.split
  rw [hb, hb']
  simp only [usedSpans_append, usedSpans_carve, usedSpans_cons, hf, hs, Bool.false_eq_true, ite_false,
    List.append_assoc, List.cons_append, List.nil_append]
  exact List.perm_middle

theorem searchFirst_finds {requested : Nat} {l : List MemoryList} {c : Cursor}
    (hc : searchFirst requested [] l = some c) : c.Finds requested l := by
  obtain ⟨xs, hl, hbef, -, hfit⟩ := seek_some hc
  exact ⟨seek_list hc, hfit⟩

/-- The search of the strategies that look for a block that is large enough. -/
def searchFit (m : Mem) (requested : Nat) : Option Cursor :=
  match m.myStrategy with
  | .first => searchFirst requested [] m.head
  | .best => searchBest requested none [] m.head
  | .worst => searchWorst requested none [] m.head
  | .notSet | .next => none

theorem mymalloc_search {m : Mem} (hst : m.myStrategy.Fits) (requested : Nat) :
    m.myStrategy ≠ .next ∧ mymalloc m requested = orNull m requested (searchFit m requested) := by
  cases hs : m.myStrategy with
  | first | best | worst => simp [mymalloc, searchFit, hs]
  | notSet | next => rw [hs] at hst; exact hst.elim

theorem searchFit_some {m : Mem} {requested : Nat} {c : Cursor} (hc : searchFit m requested = some c) :
    c.Finds requested m.head := by
  cases hs : m.myStrategy with
  | first =>
    simp only [searchFit, hs] at hc
    exact searchFirst_finds hc
  | best | worst =>
    simp only [searchFit, hs] at hc
    exact @searchBy_some _ _ none [] _ _ (by simp) hc
  | notSet | next => simp [searchFit, hs] at hc

theorem searchFit_none {m : Mem} (hst : m.myStrategy.Fits) {requested : Nat}
    (hn : searchFit m requested = none) : ∀ x ∈ m.head, x.fits requested = false := by
  cases hs : m.myStrategy with
  | first =>
    simp only [searchFit, hs] at hn
    exact seek_none hn
  | best | worst =>
    simp only [searchFit, hs] at hn
    exact (searchBy_none hn).2
  | notSet | next => rw [hs] at hst; exact hst.elim

section
variable {pool sz : Nat} {m : Mem} (h : Inv pool sz m) (hsz : sz ≤ intMax)
include h hsz

theorem placeBlock_allocates {requested : Nat} {c : Cursor} (hc : c.Finds requested m.head) :
    Allocates requested m (placeBlock m requested c) c.block.ptr := by
  have hm : c.block ∈ m.head := by rw [← hc.1]; simp [Cursor.list]
  obtain ⟨hfree, hle⟩ := (h.fits_iff hsz hm requested).mp hc.2
  refine ⟨⟨c.before.reverse.map MemoryList.seg, c.block.seg, c.after.map MemoryList.seg, ?_, hfree, hle, rfl, ?_⟩,
    rfl, rfl⟩
  · rw [Mem.blocks, ← hc.1, Cursor.list]
    simp
  · rw [Mem.blocks, ← h.carve_seg hsz hm hle m.fresh]
    simp [placeBlock]

/-- `mymalloc` gives out a free block that is large enough, or `NULL` with
nothing changed when there is none. -/
theorem mymalloc_spec (hst : m.myStrategy.Fits) (requested : Nat) :
    (mymalloc m requested = some (m, null) ∧ ∀ x ∈ m.blocks, x.used = false → x.len < requested) ∨
    ∃ m' p, mymalloc m requested = some (m', p) ∧ Allocates requested m m' p := by
  obtain ⟨hn, heq⟩ := mymalloc_search hst requested
  cases ho : searchFit m requested with
  | none =>
    rw [ho] at heq
    refine Or.inl ⟨heq, ?_⟩
    intro x hx hu
    obtain ⟨b, hb, rfl⟩ := List.mem_map.mp hx
    have hno := searchFit_none hst ho b hb
    have hf := (h.fits_iff hsz hb requested).not.mp (by rw [hno]; exact Bool.false_ne_true)
    by_contra hlt
    exact hf ⟨hu, not_lt.mp hlt⟩
  | some c =>
    rw [ho] at heq
    have hu : useBlock m requested c = some (placeBlock m requested c, c.block.ptr) := by
      simp only [useBlock, hn, ite_false]
    exact Or.inr ⟨_, _, heq.trans hu, placeBlock_allocates h hsz (searchFit_some ho)⟩

end

/-! ## `myfree` -/

theorem moveBack_spec (before : List MemoryList) (block : MemoryList) (after : List MemoryList)
    (hb : block.alloc = false) :
    (moveBack before block after).before = before.dropWhile (fun b => !b.alloc) ∧
    (moveBack before block after).block :: (moveBack before block after).after =
      (before.takeWhile fun b => !b.alloc).reverse ++ block :: after ∧
    (moveBack before block after).block.alloc = false := by
  induction before generalizing block after with
  | nil => exact ⟨rfl, rfl, hb⟩
  | cons p before ih =>
    unfold moveBack
    by_cases hp : p.alloc = true
    · simp [hp, hb]
    · have hp' : p.alloc = false := by simpa using hp
      obtain ⟨h1, h2, h3⟩ := ih p (block :: after) hp'
      simp only [hp, Bool.false_eq_true, ite_false]
      refine ⟨by simpa [hp'] using h1, by simpa [hp'] using h2, h3⟩

theorem mergeForward_spec (next : Option Nat) (block : MemoryList) (l : List MemoryList) (h0 : 0 ≤ block.size)
    (hl : Positive (l.map MemoryList.seg)) (hsum : block.size + lengths (l.map MemoryList.seg) ≤ 2147483647) :
    (mergeForward next block l).2.1 = { block with
      size := block.size + lengths ((l.takeWhile fun b => !b.alloc).map MemoryList.seg) } ∧
    (mergeForward next block l).2.2 = l.dropWhile (fun b => !b.alloc) := by
  induction l generalizing next block with
  | nil => simp [mergeForward]
  | cons tmp rest ih =>
    unfold mergeForward
    by_cases ht : tmp.alloc = true
    · simp [ht]
    · have ht' : tmp.alloc = false := by simpa using ht
      have hrest : Positive (rest.map MemoryList.seg) := fun x hx => hl x (List.mem_cons_of_mem _ hx)
      have h1 : 0 < tmp.size := hl tmp.seg (by simp)
      have h2 := hrest.lengths_nonneg
      have hseg : tmp.seg.len = tmp.size := rfl
      rw [List.map_cons, lengths_cons, hseg] at hsum
      have hint : toInt (block.size + tmp.size) = block.size + tmp.size := toInt_of_bounds (by omega) (by omega)
      obtain ⟨h3, h4⟩ := ih (if next = some tmp.node then some block.node else next)
        { block with size := toInt (block.size + tmp.size) } (by rw [hint]; simp only; omega) hrest
        (by simp only [hint]; omega)
      simp only [ht, Bool.false_eq_true, ite_false]
      exact ⟨by rw [h3]; simp [ht', hint, hseg, add_assoc], by rw [h4]; simp [ht']⟩

/-- The maximal run of free nodes around a free node gives way to its first
node, with the sum of their sizes. -/
structure Merges (l : List MemoryList) (c : Cursor) (m' : Mem) (a : ℤ) (xs run ys : List MemoryList) : Prop where
  split : l = xs ++ run ++ ys
  left : xs <+: c.before.reverse
  right : ys <:+ c.after
  nonempty : run ≠ []
  free : ∀ x ∈ run, x.alloc = false
  leftEnd : ∀ x ∈ xs.getLast?, x.alloc = true
  rightEnd : ∀ y ∈ ys.head?, y.alloc = true
  blocks : m'.blocks = xs.map MemoryList.seg ++
    merged (a + lengths (xs.map MemoryList.seg)) (run.map MemoryList.seg) :: ys.map MemoryList.seg

section
variable {l : List MemoryList} {c : Cursor} {m' : Mem} {a : ℤ} {xs run ys : List MemoryList}

theorem Merges.coalesced (hm : Merges l c m' a xs run ys)
    (hx : Coalesced (c.before.reverse.map MemoryList.seg)) (hy : Coalesced (c.after.map MemoryList.seg)) :
    Coalesced m'.blocks := by
  have hcx : Coalesced (xs.map MemoryList.seg) := by
    obtain ⟨zs, hzs⟩ := hm.left
    rw [← hzs, List.map_append] at hx
    exact (List.isChain_append.mp hx).1
  have hxu : ∀ x ∈ (xs.map MemoryList.seg).getLast?, x.used = true := by
    intro x hx
    rw [List.getLast?_map, Option.mem_def, Option.map_eq_some_iff] at hx
    obtain ⟨b, hb, rfl⟩ := hx
    exact hm.leftEnd b hb
  have hyu : ∀ y ∈ (ys.map MemoryList.seg).head?, y.used = true := by
    intro y hy
    rw [List.head?_map, Option.mem_def, Option.map_eq_some_iff] at hy
    obtain ⟨b, hb, rfl⟩ := hy
    exact hm.rightEnd b hb
  rw [hm.blocks]
  exact hcx.merge (hy.suffix (hm.right.map MemoryList.seg)) hxu hyu

theorem Merges.usedSpans (hm : Merges l c m' a xs run ys) :
    usedSpans m'.blocks = usedSpans (l.map MemoryList.seg) := by
  have hrun : OsLabs.usedSpans (run.map MemoryList.seg) = [] := by
    apply usedSpans_of_free
    intro x hx
    obtain ⟨b, hb, rfl⟩ := List.mem_map.mp hx
    exact hm.free b hb
  rw [hm.blocks, hm.split]
  simp [hrun, merged]

end

theorem mergeBlocks_spec (m : Mem) {c : Cursor} (hb : c.block.alloc = false) {a e : ℤ}
    (ht : Tiles a (c.list.map MemoryList.seg) e) (hp : Positive (c.list.map MemoryList.seg))
    (hmax : e - a ≤ 2147483647) : ∃ xs run ys, Merges c.list c (mergeBlocks m c) a xs run ys := by
  obtain ⟨h1, h2, h3⟩ := moveBack_spec c.before c.block c.after hb
  -- the node `s` where the run begins
  generalize hs : moveBack c.before c.block c.after = s at h1 h2 h3
  let free : MemoryList → Bool := fun b => !b.alloc
  have hleft : c.before.reverse = (c.before.dropWhile free).reverse ++ (c.before.takeWhile free).reverse := by
    rw [← List.reverse_append, List.takeWhile_append_dropWhile]
  have hR : ∀ x ∈ (c.before.takeWhile free).reverse, free x = true := fun x hx =>
    List.mem_takeWhile_imp (List.mem_reverse.mp hx)
  have hlist : c.list = (c.before.dropWhile free).reverse ++ (s.block :: s.after) := by
    rw [Cursor.list, hleft, h2, List.append_assoc]
  have hrun : (c.before.takeWhile free).reverse ++ c.block :: c.after.takeWhile free =
      s.block :: s.after.takeWhile free := by
    have : (s.block :: s.after).takeWhile free = s.block :: s.after.takeWhile free := by
      simp [free, h3]
    rw [← this, h2, List.takeWhile_append_of_pos hR]
    simp [free, hb]
  have hdrop : s.after.dropWhile free = c.after.dropWhile free := by
    have : (s.block :: s.after).dropWhile free = s.after.dropWhile free := by simp [free, h3]
    rw [← this, h2, List.dropWhile_append_of_pos hR]
    simp [free, hb]
  rw [hlist, List.map_append, List.map_cons] at ht hp
  have hstart := ht.start_eq
  have hend := ht.end_eq
  have hlen : 0 ≤ lengths ((c.before.dropWhile free).reverse.map MemoryList.seg) :=
    Positive.lengths_nonneg fun x hx => hp x (List.mem_append_left _ hx)
  have hpos : 0 < s.block.size := hp s.block.seg (by simp)
  have hseg : s.block.seg.len = s.block.size := rfl
  rw [lengths_append, lengths_cons, hseg] at hend
  obtain ⟨h4, h5⟩ := mergeForward_spec m.next s.block s.after hpos.le (fun x hx => hp x (by simp [hx])) (by omega)
  refine ⟨(c.before.dropWhile free).reverse, s.block :: s.after.takeWhile free, c.after.dropWhile free,
    ?_, ?_, List.dropWhile_suffix _, by simp, ?_, ?_, ?_, ?_⟩
  · rw [← hrun, Cursor.list, hleft]
    simp
  · rw [hleft]
    exact List.prefix_append _ _
  · intro x hx
    rcases List.mem_cons.mp hx with rfl | hx
    · exact h3
    · simpa [free] using List.mem_takeWhile_imp hx
  · intro x hx
    rw [List.getLast?_reverse] at hx
    have := List.head?_dropWhile_not free c.before
    rw [hx] at this
    simpa [free] using this
  · intro y hy
    have := List.head?_dropWhile_not free c.after
    rw [hy] at this
    simpa [free] using this
  · have hm : (mergeBlocks m c).head = s.before.reverse ++ (mergeForward m.next s.block s.after).2.1 ::
        (mergeForward m.next s.block s.after).2.2 := by
      simp only [mergeBlocks, hb, hs, Bool.false_eq_true, ite_false]
    rw [Mem.blocks, hm, h1, h4, h5, hdrop, List.map_append, List.map_cons]
    congr 2
    simp only [MemoryList.seg, merged, h3, List.map_cons, lengths_cons, Seg.mk.injEq, and_true]
    exact ⟨hstart, rfl⟩

/-! ## The effect of `myfree` -/

section
variable {pool sz : Nat} {m : Mem} (h : Inv pool sz m) (hsz : sz ≤ intMax)
include h

theorem mergeBlocks_free {c : Cursor} (hc : c.list = m.head) (hb : c.block.alloc = false) :
    mergeBlocks m c = m := by
  obtain ⟨before, block, after⟩ := c
  replace hb : block.alloc = false := hb
  have hch := h.coalesced
  rw [Mem.blocks, ← hc, Cursor.list_mk, List.map_append, List.map_cons] at hch
  obtain ⟨-, hby, hxb⟩ := List.isChain_append.mp hch
  have hback : moveBack before block after = ⟨before, block, after⟩ := by
    cases before with
    | nil => rfl
    | cons p before =>
      have hp := hxb p.seg (by simp) block.seg (by simp)
      have hpa : p.alloc = true := by simpa [MemoryList.seg, hb] using hp
      simp only [moveBack, hpa, ite_true]
  have hfwd : mergeForward m.next block after = (m.next, block, after) := by
    cases after with
    | nil => rfl
    | cons q after =>
      have hq := (List.isChain_cons.mp hby).1 q.seg (by simp)
      have hqa : q.alloc = true := by simpa [MemoryList.seg, hb] using hq
      simp only [mergeForward, hqa, ite_true]
  unfold mergeBlocks
  simp only [hb, Bool.false_eq_true, ite_false, hback, hfwd]
  rw [Cursor.list_mk] at hc
  rw [hc]

include hsz

theorem mergeBlocks_used {c : Cursor} (hc : c.list = m.head) (hb : c.block.alloc = true) :
    Inv pool sz (mergeBlocks m { c with block := { c.block with alloc := false } }) ∧
    usedSpans (mergeBlocks m { c with block := { c.block with alloc := false } }).blocks =
      usedSpans (c.before.reverse.map MemoryList.seg) ++ usedSpans (c.after.map MemoryList.seg) := by
  obtain ⟨before, block, after⟩ := c
  have ht := h.tiles
  have hp := h.positive
  have hch := h.coalesced
  rw [Mem.blocks, ← hc, Cursor.list_mk, List.map_append, List.map_cons] at ht hp hch
  obtain ⟨hbefore, hafter, -⟩ := List.isChain_append.mp hch
  let freed : Cursor := ⟨before, { block with alloc := false }, after⟩
  -- freeing the node is a merge of the node alone
  have hlist : freed.list.map MemoryList.seg = before.reverse.map MemoryList.seg ++
      merged (pool + lengths (before.reverse.map MemoryList.seg)) [block.seg] :: after.map MemoryList.seg := by
    have hstart := ht.start_eq
    simp only [MemoryList.seg] at hstart
    simp [freed, Cursor.list, MemoryList.seg, merged, hstart]
  have ht' : Tiles pool (freed.list.map MemoryList.seg) (pool + sz) := by
    rw [hlist]
    exact Tiles.merge (by simpa using ht)
  have hp' : Positive (freed.list.map MemoryList.seg) := by
    rw [hlist]
    exact Positive.merge (by simpa using hp) (by simp)
  obtain ⟨xs, run, ys, hm⟩ := mergeBlocks_spec m (c := freed) rfl ht' hp' (by unfold intMax at hsz; omega)
  have hsplit : freed.list.map MemoryList.seg =
      xs.map MemoryList.seg ++ run.map MemoryList.seg ++ ys.map MemoryList.seg := by
    rw [hm.split]; simp
  have hspans := hm.usedSpans
  rw [hlist] at hspans
  rw [hsplit] at ht' hp'
  refine ⟨⟨?_, hm.blocks ▸ ht'.merge, hm.blocks ▸ hp'.merge (by simpa using hm.nonempty),
    hm.coalesced hbefore (List.isChain_cons.mp hafter).2⟩, ?_⟩
  · rw [← h.memory]
    simp [mergeBlocks]
  · simpa [merged] using hspans

/-- Freeing an address: nothing but the allocation that starts there is lost. -/
theorem myfree_spec (p : Nat) :
    Inv pool sz (myfree m p) ∧
    usedSpans (myfree m p).blocks = (usedSpans m.blocks).filter (fun q => decide (q.1 ≠ (p : ℤ))) ∧
    ((∀ q ∈ usedSpans m.blocks, q.1 ≠ (p : ℤ)) → myfree m p = m) := by
  have hkeep : (∀ q ∈ usedSpans m.blocks, q.1 ≠ (p : ℤ)) →
      usedSpans m.blocks = (usedSpans m.blocks).filter (fun q => decide (q.1 ≠ (p : ℤ))) := fun hne =>
    (List.filter_eq_self.mpr fun q hq => by simpa using hne q hq).symm
  cases hs : seek (fun b => b.ptr == p) [] m.head with
  | none =>
    have hm : myfree m p = m := by simp only [myfree, hs]
    have hne : ∀ q ∈ usedSpans m.blocks, q.1 ≠ (p : ℤ) := by
      intro q hq heq
      obtain ⟨b, hb, hbq⟩ := List.mem_map.mp (mem_usedSpans.mp hq)
      have hb1 := congrArg Seg.start hbq
      have := seek_none hs b hb
      simp only [beq_eq_false_iff_ne] at this
      simp only [MemoryList.seg] at hb1
      omega
    rw [hm]
    exact ⟨h, hkeep hne, fun _ => rfl⟩
  | some c =>
    obtain ⟨xs, hl, hbef, -, hc⟩ := seek_some hs
    have hlist : c.list = m.head := seek_list hs
    have hptr : c.block.ptr = p := by simpa using hc
    have ht := h.tiles
    have hp := h.positive
    rw [Mem.blocks, ← hlist, Cursor.list, List.map_append, List.map_cons] at ht hp
    have hfilter := ht.usedSpans_filter hp
    have hstart : c.block.seg.start = p := by rw [← hptr]; rfl
    rw [hstart] at hfilter
    have hblocks : m.blocks = c.before.reverse.map MemoryList.seg ++ c.block.seg :: c.after.map MemoryList.seg := by
      rw [Mem.blocks, ← hlist, Cursor.list, List.map_append, List.map_cons]
    cases hb : c.block.alloc with
    | false =>
      have hself : { c with block := { c.block with alloc := false } } = c := by rw [← hb]
      have hm : myfree m p = m := by
        simp only [myfree, hs, hself]
        exact mergeBlocks_free h hlist hb
      rw [hm]
      refine ⟨h, ?_, fun _ => rfl⟩
      rw [hblocks, hfilter, usedSpans_append, usedSpans_cons]
      simp [MemoryList.seg, hb]
    | true =>
      obtain ⟨hinv, hused⟩ := mergeBlocks_used h hsz hlist hb
      have hm : myfree m p = mergeBlocks m { c with block := { c.block with alloc := false } } := by
        simp only [myfree, hs]
      rw [hm]
      refine ⟨hinv, by rw [hused, hblocks, hfilter], fun hne => absurd hstart ?_⟩
      refine hne (c.block.seg.start, c.block.seg.len) (mem_usedSpans.mpr ?_)
      rw [hblocks]
      simp [MemoryList.seg, hb]

end

end OsLabs.Mymem
