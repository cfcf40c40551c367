import Mathlib.Algebra.Order.BigOperators.Group.List
import OsLabs.MymemSound

/-!
# The allocator is a map of live allocations

Over any run of `mymalloc` and `myfree` calls, with any addresses passed to
`myfree`, the allocated blocks of the list are the allocations that the client
holds, with the sizes it asked for, and the rest of the pool is free.
-/

namespace OsLabs.Mymem

/-! ## Counting loops -/

theorem tally_eq {p : MemoryList → Bool} {w : MemoryList → Int} {l : List MemoryList} {acc : Int}
    (h0 : 0 ≤ acc) (hw : ∀ x ∈ l, p x = true → 0 ≤ w x) (hmax : acc + ((l.filter p).map w).sum ≤ 2147483647) :
    tally p w acc l = acc + ((l.filter p).map w).sum := by
  induction l generalizing acc with
  | nil => simp [tally]
  | cons b rest ih =>
    have hrest : ∀ x ∈ rest, p x = true → 0 ≤ w x := fun x hx => hw x (List.mem_cons_of_mem b hx)
    unfold tally
    by_cases hb : p b = true
    · have hwb := hw b (by simp) hb
      have hs : 0 ≤ ((rest.filter p).map w).sum := List.sum_nonneg fun y hy => by
        obtain ⟨x, hx, rfl⟩ := List.mem_map.mp hy
        exact hrest x (List.mem_filter.mp hx).1 (List.mem_filter.mp hx).2
      simp only [List.filter_cons, hb, ite_true, List.map_cons, List.sum_cons] at hmax ⊢
      rw [toInt_of_bounds (by omega) (by omega), ih (by omega) hrest (by omega)]
      omega
    · simp only [List.filter_cons, hb, Bool.false_eq_true, ite_false] at hmax ⊢
      exact ih h0 hrest hmax

/-! ## One call -/

def span (q : Nat × Nat) : ℤ × ℤ := ((q.1 : ℤ), (q.2 : ℤ))

/-- The allocated blocks are what the client holds. -/
structure Tracks (pool sz : Nat) (c : Client) : Prop where
  inv : Inv pool sz c.mem
  used : (usedSpans c.mem.blocks).Perm (c.live.map span)

theorem filter_span (live : List (Nat × Nat)) (p : Nat) :
    (live.map span).filter (fun q => decide (q.1 ≠ (p : ℤ))) = (live.filter fun q => q.1 != p).map span := by
  rw [List.filter_map]
  congr 2
  funext q
  by_cases hq : q.1 = p <;> simp [span, hq]

@[simp] theorem myfree_strategy (m : Mem) (p : Nat) : (myfree m p).myStrategy = m.myStrategy := by
  unfold myfree
  split
  · rfl
  · unfold mergeBlocks
    split <;> rfl

section
variable {pool sz : Nat} (hsz : sz ≤ intMax) {c : Client} (h : Tracks pool sz c)
include h

theorem Tracks.allocate (hpool : 0 < pool) {requested p : Nat} {m' : Mem} (hr : 1 ≤ requested)
    (hm : mymalloc c.mem requested = some (m', p)) (ha : Allocates requested c.mem m' p) :
    call c (.malloc requested) = some ({ mem := m', live := (p, requested) :: c.live }, p) ∧
      Tracks pool sz { mem := m', live := (p, requested) :: c.live } := by
  have hp : p ≠ null := by
    obtain ⟨xs, b, ys, hb, -, -, hs, -⟩ := ha.split
    have := (h.inv.tiles.bounds h.inv.positive (x := b) (by simp [hb])).1
    rw [hs] at this
    unfold null
    omega
  exact ⟨by simp only [call, hm, hp, ite_false], ha.inv h.inv hr, ha.used.trans (h.used.cons (span (p, requested)))⟩

include hsz

theorem malloc_tracks (hf : c.mem.myStrategy.Fits) (hpool : 0 < pool) {requested : Nat} (hr : 1 ≤ requested) :
    ∃ c' r, call c (.malloc requested) = some (c', r) ∧ Tracks pool sz c' ∧
      c'.mem.myStrategy = c.mem.myStrategy := by
  rcases mymalloc_spec h.inv hsz hf requested with ⟨hm, -⟩ | ⟨m', p, hm, ha⟩
  · exact ⟨c, null, by simp [call, hm], h, rfl⟩
  · obtain ⟨hc, ht⟩ := h.allocate hpool hr hm ha
    exact ⟨_, p, hc, ht, ha.strategy⟩

theorem free_used (p : Nat) : (usedSpans (myfree c.mem p).blocks).Perm
    ((c.live.filter fun q => q.1 != p).map span) := by
  rw [(myfree_spec h.inv hsz p).2.1, ← filter_span]
  exact h.used.filter _

theorem free_stray (p : Nat) (hp : ∀ q ∈ c.live, q.1 ≠ p) : myfree c.mem p = c.mem := by
  apply (myfree_spec h.inv hsz p).2.2
  intro q hq
  obtain ⟨r, hr, rfl⟩ := List.mem_map.mp (h.used.mem_iff.mp hq)
  simpa [span] using hp r hr

theorem free_tracks (p : Nat) :
    Tracks pool sz { mem := myfree c.mem p, live := c.live.filter fun q => q.1 != p } :=
  ⟨(myfree_spec h.inv hsz p).1, free_used hsz h p⟩

theorem call_tracks (hf : c.mem.myStrategy.Fits) (hpool : 0 < pool) (e : Call) (he : e.Valid) :
    ∃ c' r, call c e = some (c', r) ∧ Tracks pool sz c' ∧ c'.mem.myStrategy = c.mem.myStrategy := by
  cases e with
  | malloc requested => exact malloc_tracks hsz h hf hpool he.1
  | free p => exact ⟨_, null, rfl, free_tracks hsz h p, myfree_strategy c.mem p⟩

end

/-! ## What holds after every call -/

structure Account (pool sz : Nat) (c : Client) : Prop where
  memory : memPool c.mem = pool
  tiles : Tiles pool c.mem.blocks (pool + sz)
  total : lengths c.mem.blocks = sz
  used : (usedSpans c.mem.blocks).Perm (c.live.map span)
  starts : (c.live.map Prod.fst).Nodup
  disjoint : c.live.Pairwise fun p q => p.1 + p.2 ≤ q.1 ∨ q.1 + q.2 ≤ p.1
  inside : ∀ q ∈ c.live, pool ≤ q.1 ∧ q.1 + q.2 ≤ pool + sz
  allocated : memAllocated c.mem = ((c.live.map Prod.snd).sum : Nat)
  free : memFree c.mem = sz - ((c.live.map Prod.snd).sum : Nat)
  freed : ∀ p, (usedSpans (myfree c.mem p).blocks).Perm ((c.live.filter fun q => q.1 != p).map span)
  stray : ∀ p, (∀ q ∈ c.live, q.1 ≠ p) → myfree c.mem p = c.mem

theorem usedSpans_sizes (m : Mem) : (usedSpans m.blocks).map Prod.snd =
    (m.head.filter fun b => b.alloc).map MemoryList.size := by
  simp [usedSpans, spans, Mem.blocks, List.filter_map, Function.comp_def, MemoryList.seg]

theorem freeSpans_sizes (m : Mem) : (freeSpans m.blocks).map Prod.snd =
    (m.head.filter fun b => !b.alloc).map MemoryList.size := by
  simp [freeSpans, spans, Mem.blocks, List.filter_map, Function.comp_def, MemoryList.seg]

theorem sum_span (live : List (Nat × Nat)) :
    ((live.map span).map Prod.snd).sum = ((live.map Prod.snd).sum : Nat) := by
  induction live with
  | nil => rfl
  | cons q live ih => simp [span] at ih ⊢; omega

section
variable {pool sz : Nat} {m : Mem} (h : Inv pool sz m) (hsz : sz ≤ intMax)
include h

theorem Inv.lengths_eq : lengths m.blocks = sz := by
  have := h.tiles.end_eq
  omega

theorem Inv.used_nonneg : 0 ≤ ((usedSpans m.blocks).map Prod.snd).sum :=
  List.sum_nonneg fun y hy => by
    obtain ⟨q, hq, rfl⟩ := List.mem_map.mp hy
    exact (h.positive _ (mem_usedSpans.mp hq)).le

theorem Inv.free_nonneg : 0 ≤ ((freeSpans m.blocks).map Prod.snd).sum :=
  List.sum_nonneg fun y hy => by
    obtain ⟨q, hq, rfl⟩ := List.mem_map.mp hy
    exact (h.positive _ (mem_freeSpans.mp hq)).le

include hsz

theorem memAllocated_eq : memAllocated m = ((usedSpans m.blocks).map Prod.snd).sum := by
  have h1 := lengths_eq_spans m.blocks
  have h2 := h.lengths_eq
  have h3 := h.free_nonneg
  rw [usedSpans_sizes] at h1 ⊢
  unfold intMax at hsz
  rw [memAllocated, tally_eq (le_refl 0) (fun x hx _ => (h.size_pos hx).le) (by omega), zero_add]

theorem memFree_eq : memFree m = ((freeSpans m.blocks).map Prod.snd).sum := by
  have h1 := lengths_eq_spans m.blocks
  have h2 := h.lengths_eq
  have h3 := h.used_nonneg
  rw [freeSpans_sizes] at h1 ⊢
  unfold intMax at hsz
  rw [memFree, tally_eq (le_refl 0) (fun x hx _ => (h.size_pos hx).le) (by omega), zero_add]

end

theorem Tracks.account {pool sz : Nat} (hsz : sz ≤ intMax) {c : Client} (h : Tracks pool sz c) :
    Account pool sz c := by
  have hord := h.inv.tiles.usedSpans_ordered h.inv.positive
  have hpos : ∀ q ∈ c.live, 0 < q.2 := fun q hq => by
    have := h.inv.positive _ (mem_usedSpans.mp (h.used.mem_iff.mpr (List.mem_map_of_mem hq)))
    simpa [span] using this
  have hdis : c.live.Pairwise fun p q => p.1 + p.2 ≤ q.1 ∨ q.1 + q.2 ≤ p.1 := by
    have hsym : (usedSpans c.mem.blocks).Pairwise fun p q => p.1 + p.2 ≤ q.1 ∨ q.1 + q.2 ≤ p.1 :=
      hord.imp fun hpq => Or.inl hpq
    have := (h.used.pairwise_iff fun hpq => hpq.symm).mp hsym
    refine (List.pairwise_map.mp this).imp fun {p q} hpq => ?_
    simp only [span] at hpq
    omega
  have hsum : ((usedSpans c.mem.blocks).map Prod.snd).sum = ((c.live.map Prod.snd).sum : Nat) :=
    (h.used.map Prod.snd).sum_eq.trans (sum_span c.live)
  refine ⟨h.inv.memory, h.inv.tiles, h.inv.lengths_eq, h.used, ?_, hdis, ?_,
    (memAllocated_eq h.inv hsz).trans hsum, ?_, free_used hsz h, free_stray hsz h⟩
  · rw [List.Nodup, List.pairwise_map]
    refine hdis.imp_of_mem fun {p q} hp hq hpq heq => ?_
    have := hpos p hp
    have := hpos q hq
    omega
  · intro q hq
    have := h.inv.tiles.bounds h.inv.positive (mem_usedSpans.mp (h.used.mem_iff.mpr (List.mem_map_of_mem hq)))
    simp only [span] at this
    omega
  · have := lengths_eq_spans c.mem.blocks
    rw [h.inv.lengths_eq, hsum, ← memFree_eq h.inv hsz] at this
    omega

/-! ## A pool of no bytes -/

/-- The list of a pool of size 0: one free block, which no request fits. -/
structure Hollow (pool : Nat) (c : Client) : Prop where
  memory : c.mem.myMemory = pool
  fits : c.mem.myStrategy.Fits
  head : ∃ b, c.mem.head = [b] ∧ b.seg = ⟨pool, 0, false⟩
  live : c.live = []

theorem myfree_single {m : Mem} {b : MemoryList} (hm : m.head = [b]) (hb : b.alloc = false) (p : Nat) :
    myfree m p = m := by
  unfold myfree
  rw [hm]
  simp only [seek]
  by_cases hp : (b.ptr == p) = true
  · have hself : { b with alloc := false } = b := by rw [← hb]
    simp only [hp, ite_true, mergeBlocks, hself, Bool.false_eq_true, ite_false, moveBack, mergeForward,
      List.reverse_nil, List.nil_append]
    rw [← hm]
  · simp only [hp]
    rfl

/-- A request of at least one byte does not fit the empty block. -/
theorem hollow_malloc {pool : Nat} {c : Client} (h : Hollow pool c) {requested : Nat} (hr : 1 ≤ requested) :
    mymalloc c.mem requested = some (c.mem, null) := by
  obtain ⟨b, hb, hs⟩ := h.head
  have hsize : b.size = 0 := congrArg Seg.len hs
  rw [(mymalloc_search h.fits requested).2]
  cases ho : searchFit c.mem requested with
  | none => rfl
  | some u =>
    obtain ⟨hl, hfit⟩ := searchFit_some ho
    have hu : u.block ∈ [b] := by rw [← hb, ← hl]; simp [Cursor.list]
    rw [List.mem_singleton.mp hu] at hfit
    simp [MemoryList.fits, hsize, toSize] at hfit
    omega

theorem hollow_call {pool : Nat} (c : Client) (e : Call) (h : Hollow pool c) (he : e.Valid) :
    ∃ c' r, call c e = some (c', r) ∧ Hollow pool c' ∧ c'.mem.myStrategy = c.mem.myStrategy := by
  obtain ⟨b, hb, hs⟩ := h.head
  have hfree : b.alloc = false := congrArg Seg.used hs
  cases e with
  | malloc requested => exact ⟨c, null, by simp [call, hollow_malloc h he.1], h, rfl⟩
  | free p =>
    have hm := myfree_single hb hfree p
    refine ⟨_, null, rfl, ?_⟩
    rw [hm, h.live]
    exact ⟨⟨h.memory, h.fits, h.head, rfl⟩, rfl⟩

theorem Hollow.account {pool : Nat} {c : Client} (h : Hollow pool c) : Account pool 0 c := by
  obtain ⟨b, hb, hs⟩ := h.head
  have hblocks : c.mem.blocks = [⟨pool, 0, false⟩] := by rw [Mem.blocks, hb, List.map_singleton, hs]
  have hsize : b.size = 0 := congrArg Seg.len hs
  have hfree : b.alloc = false := congrArg Seg.used hs
  have hmf := myfree_single hb hfree
  refine ⟨h.memory, ?_, ?_, ?_, ?_, ?_, ?_, ?_, ?_, ?_, fun p _ => hmf p⟩
  · rw [hblocks]; simp [Tiles]
  · rw [hblocks]; rfl
  · rw [hblocks, h.live]; simp
  · rw [h.live]; simp
  · rw [h.live]; exact .nil
  · rw [h.live]; simp
  · rw [memAllocated, hb, h.live]; simp [tally, hfree]
  · rw [memFree, hb, h.live]; simp [tally, hfree, hsize, toInt, toSigned]
  · intro p
    rw [hmf, hblocks, h.live]; simp

/-! ## Runs -/

theorem start_tracks (m : Mem) (strategy : Strategies) {sz pool : Nat} (hsz : sz ≤ intMax) (h0 : 0 < sz) :
    Tracks pool sz (start m strategy sz pool) := by
  have hint : toInt sz = sz := toInt_of_bounds (by omega) (by unfold intMax at hsz; omega)
  have hb : (start m strategy sz pool).mem.blocks = [⟨pool, sz, false⟩] := by
    simp [start, initmem, initializeHead, release, Mem.blocks, MemoryList.seg, hint]
  refine ⟨⟨rfl, ?_, ?_, ?_⟩, ?_⟩ <;> rw [hb]
  · simp [Tiles]
  · simpa [Positive] using h0
  · exact List.isChain_singleton _
  · simp [start]

theorem run_tracks (m : Mem) {strategy : Strategies} (hs : strategy.Fits) {sz pool : Nat} (hsz : sz ≤ intMax)
    (h0 : 0 < sz) (hpool : 0 < pool) (es : List Call) (hes : ∀ e ∈ es, e.Valid) :
    ∃ c tr, run call (start m strategy sz pool) es = some (c, tr) ∧ Tracks pool sz c ∧
      c.mem.myStrategy = strategy := by
  refine run_total ?_ ⟨start_tracks m strategy hsz h0, rfl⟩ (guarded_of_forall _ hes)
  intro c e ⟨hc, hst⟩ he
  obtain ⟨c', r, hcall, hc', hst'⟩ := call_tracks hsz hc (hst ▸ hs) hpool e he
  exact ⟨c', r, hcall, hc', hst'.trans hst⟩

theorem start_hollow (m : Mem) {strategy : Strategies} (hs : strategy.Fits) (pool : Nat) :
    Hollow pool (start m strategy 0 pool) := by
  have hint : toInt (0 : Nat) = 0 := toInt_of_bounds (by decide) (by decide)
  exact ⟨rfl, hs, ⟨⟨m.fresh, toInt (0 : Nat), false, pool⟩, rfl, by rw [hint]; rfl⟩, rfl⟩

/-- What a run of first, best or worst fit keeps, also in a pool of no bytes. -/
structure Sound (pool sz : Nat) (strategy : Strategies) (c : Client) : Prop where
  strategy : c.mem.myStrategy = strategy
  blocks : Tracks pool sz c ∨ sz = 0 ∧ Hollow pool c

section
variable {strategy : Strategies} (hs : strategy.Fits) {pool sz : Nat} (hsz : sz ≤ intMax)
include hsz

theorem Sound.account {c : Client} (h : Sound pool sz strategy c) : Account pool sz c := by
  rcases h.blocks with ht | ⟨rfl, hh⟩
  · exact ht.account hsz
  · exact hh.account

include hs

theorem start_sound (m : Mem) (pool : Nat) : Sound pool sz strategy (start m strategy sz pool) := by
  refine ⟨rfl, ?_⟩
  rcases Nat.eq_zero_or_pos sz with rfl | h0
  · exact Or.inr ⟨rfl, start_hollow m hs pool⟩
  · exact Or.inl (start_tracks m strategy hsz h0)

theorem call_sound (hpool : 0 < pool) (c : Client) (e : Call) (h : Sound pool sz strategy c) (he : e.Valid) :
    ∃ c' r, call c e = some (c', r) ∧ Sound pool sz strategy c' := by
  rcases h.blocks with ht | ⟨h0, hh⟩
  · obtain ⟨c', r, hc, ht', hst⟩ := call_tracks hsz ht (h.strategy ▸ hs) hpool e he
    exact ⟨c', r, hc, hst.trans h.strategy, Or.inl ht'⟩
  · obtain ⟨c', r, hc, hh', hst⟩ := hollow_call c e hh he
    exact ⟨c', r, hc, hst.trans h.strategy, Or.inr ⟨h0, hh'⟩⟩

theorem run_sound (m : Mem) (hpool : 0 < pool) (es : List Call) (hes : ∀ e ∈ es, e.Valid) :
    ∃ c tr, run call (start m strategy sz pool) es = some (c, tr) ∧ Sound pool sz strategy c :=
  run_total (call_sound hs hsz hpool) (start_sound hs hsz m pool) (guarded_of_forall _ hes)

end

/-- After every call of every run, the blocks tile the pool, the allocated ones
are the live allocations, and `myfree` takes away the one at its address only. -/
theorem allocator_account (m : Mem) {strategy : Strategies} (hs : strategy.Fits) {sz pool : Nat}
    (hsz : sz ≤ intMax) (hpool : 0 < pool) (es : List Call) (hes : ∀ e ∈ es, e.Valid) :
    ∃ c tr, run call (start m strategy sz pool) es = some (c, tr) ∧ Account pool sz c := by
  obtain ⟨c, tr, hr, hc⟩ := run_sound hs hsz m hpool es hes
  exact ⟨c, tr, hr, hc.account hsz⟩

def unset : Mem := { myStrategy := .notSet, mySize := 0, myMemory := null, head := [], next := none, fresh := 1 }

theorem allocator_account_best :
    ∃ c tr, run call (start unset .best 100 4096) [.malloc 10, .malloc 1, .free 4096, .malloc 1, .free 4100] =
      some (c, tr) ∧ Account 4096 100 c :=
  allocator_account unset (show Strategies.Fits .best from trivial) (by decide) (by decide) _ (by decide)

end OsLabs.Mymem
