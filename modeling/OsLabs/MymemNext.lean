import OsLabs.MymemLive

/-!
# Next fit gives out the block under the roving pointer

The search of next fit stops at the first free block from `next` on, whatever
its size. A request that this block can hold is served as in the other
strategies. Any other request is not: the size of the remainder becomes
negative, or the loop runs off the end of the list.
-/

namespace OsLabs.Mymem

/-! ## The search -/

/-- The first free block from the roving pointer on. -/
def roving (m : Mem) : Option MemoryList := (m.head.dropWhile fun b => m.next != some b.node).find? fun b => !b.alloc

theorem seek_find (p : MemoryList → Bool) (before l : List MemoryList) :
    (seek p before l).map Cursor.block = l.find? p := by
  induction l generalizing before with
  | nil => rfl
  | cons b rest ih =>
    unfold seek
    by_cases hb : p b = true
    · simp [hb]
    · simp [hb, ih]

theorem seek_dropWhile {p : MemoryList → Bool} {before l : List MemoryList} {c : Cursor}
    (h : seek p before l = some c) : l.dropWhile (fun b => !p b) = c.block :: c.after := by
  obtain ⟨xs, rfl, -, hxs, hc⟩ := seek_some h
  rw [List.dropWhile_append_of_pos fun x hx => by simp [hxs x hx]]
  simp [hc]

theorem searchNext_roving (m : Mem) : (searchNext m).map Cursor.block = roving m := by
  unfold searchNext roving
  cases hs : seek (fun b => m.next == some b.node) [] m.head with
  | none =>
    have hdrop : m.head.dropWhile (fun b => m.next != some b.node) = [] :=
      List.dropWhile_eq_nil_iff.mpr fun x hx => by simpa using seek_none hs x hx
    rw [hdrop]
    rfl
  | some c =>
    have hdrop : m.head.dropWhile (fun b => m.next != some b.node) = c.block :: c.after := seek_dropWhile hs
    rw [hdrop]
    exact seek_find _ _ _

theorem searchNext_list {m : Mem} {c : Cursor} (h : searchNext m = some c) : c.list = m.head := by
  unfold searchNext at h
  split at h
  · cases h
  · rename_i d hd
    rw [seek_list h, ← Cursor.list, seek_list hd]
    rfl

theorem roving_mem {m : Mem} {b : MemoryList} (h : b ∈ roving m) : b ∈ m.head ∧ b.alloc = false :=
  ⟨(List.dropWhile_sublist _).mem (List.mem_of_find?_eq_some h), by simpa using List.find?_some h⟩

/-! ## The update of the roving pointer -/

theorem walkNext_stops (head : List MemoryList) {toUse : Nat} {rest : List MemoryList}
    (h : ∃ b ∈ rest, (b.alloc && b.node != toUse) = false) (fuel : Nat) (hf : rest.length ≤ fuel) :
    ∃ n, walkNext head toUse fuel rest = some n := by
  induction rest generalizing fuel with
  | nil => simp at h
  | cons b rest ih =>
    obtain ⟨fuel, rfl⟩ : ∃ k, fuel = k + 1 := ⟨fuel - 1, by simp only [List.length_cons] at hf; omega⟩
    unfold walkNext
    cases hb : b.alloc && b.node != toUse with
    | false => exact ⟨b.node, rfl⟩
    | true =>
      obtain ⟨x, hx, hxs⟩ := h
      rcases List.mem_cons.mp hx with rfl | hx
      · rw [hb] at hxs
        cases hxs
      · exact ih ⟨x, hx, hxs⟩ fuel (by simpa using hf)

theorem walkNext_total {head : List MemoryList} {toUse : Nat}
    (h : ∃ b ∈ head, (b.alloc && b.node != toUse) = false) (rest : List MemoryList) (fuel : Nat)
    (hf : rest.length + head.length + 1 ≤ fuel) : ∃ n, walkNext head toUse fuel rest = some n := by
  induction rest generalizing fuel with
  | nil =>
    obtain ⟨fuel, rfl⟩ : ∃ k, fuel = k + 1 := ⟨fuel - 1, by omega⟩
    exact walkNext_stops head h fuel (by simpa using hf)
  | cons b rest ih =>
    obtain ⟨fuel, rfl⟩ : ∃ k, fuel = k + 1 := ⟨fuel - 1, by omega⟩
    unfold walkNext
    split
    · exact ih fuel (by simp only [List.length_cons] at hf; omega)
    · exact ⟨b.node, rfl⟩

theorem updateNext_total {head rest : List MemoryList} {toUse : Nat} (h : ∃ b ∈ head, b.node = toUse)
    (hf : rest.length ≤ head.length) : ∃ n, updateNext head toUse rest = some n := by
  obtain ⟨b, hb, hn⟩ := h
  have hstop : (b.alloc && b.node != toUse) = false := by simp [hn]
  obtain ⟨n, hw⟩ := walkNext_total ⟨b, hb, hstop⟩ rest (2 * head.length + 2) (by omega)
  unfold updateNext
  rw [hw]
  by_cases heq : n = toUse
  · cases head with
    | nil => simp at hb
    | cons x head => exact ⟨x.node, by simp [heq]⟩
  · exact ⟨n, by simp [heq]⟩

theorem carve_ne_nil (requested fresh : Nat) (b : MemoryList) :
    ∃ x ∈ b.carve requested fresh, x.node = b.node := by
  unfold MemoryList.carve
  split
  · exact ⟨_, List.mem_singleton.mpr rfl, rfl⟩
  · exact ⟨_, List.mem_cons_self, rfl⟩

theorem useBlock_next {m : Mem} (hs : m.myStrategy = .next) (requested : Nat) (c : Cursor) :
    ∃ n, useBlock m requested c = some ({ placeBlock m requested c with next := some n }, c.block.ptr) := by
  obtain ⟨x, hx, hn⟩ := carve_ne_nil requested m.fresh c.block
  have hmem : x ∈ (placeBlock m requested c).head := by simp [placeBlock, hx]
  have hlen : ((c.block.carve requested m.fresh).tail ++ c.after).length ≤ (placeBlock m requested c).head.length := by
    simp [placeBlock]
    omega
  obtain ⟨n, hu⟩ := updateNext_total ⟨x, hmem, hn⟩ hlen
  exact ⟨n, by simp only [useBlock, hs, ite_true, hu]⟩

theorem mymalloc_next {m : Mem} (hs : m.myStrategy = .next) (requested : Nat) :
    (roving m = none ∧ mymalloc m requested = none) ∨
    ∃ c n, roving m = some c.block ∧ c.list = m.head ∧
      mymalloc m requested = some ({ placeBlock m requested c with next := some n }, c.block.ptr) := by
  have hr := searchNext_roving m
  cases hc : searchNext m with
  | none =>
    rw [hc] at hr
    exact Or.inl ⟨hr.symm, by simp only [mymalloc, hs, hc]⟩
  | some c =>
    rw [hc] at hr
    obtain ⟨n, hu⟩ := useBlock_next hs requested c
    exact Or.inr ⟨c, n, hr.symm, searchNext_list hc, by simp only [mymalloc, hs, hc, hu]⟩

/-! ## Sound requests -/

/-- The block under the roving pointer is large enough. -/
def Roves (m : Mem) (requested : Nat) : Prop := ∃ b ∈ roving m, (requested : Int) ≤ b.size

instance (m : Mem) (requested : Nat) : Decidable (Roves m requested) := by
  unfold Roves; infer_instance

/-- What a request may do: it fails with nothing changed when no free block is
large enough, and otherwise takes its bytes from a free block. -/
structure Serves (pool sz : Nat) (c : Client) (requested : Nat) (m' : Mem) (p : Nat) : Prop where
  null : (p = null ∧ m'.blocks = c.mem.blocks) ↔ ∀ x ∈ c.mem.blocks, x.used = false → x.len < requested
  free : (∃ x ∈ c.mem.blocks, x.used = false ∧ (requested : ℤ) ≤ x.len) →
    ∃ x ∈ c.mem.blocks, x.used = false ∧ x.start ≤ p ∧ (p : ℤ) + requested ≤ x.start + x.len
  inside : p ≠ Mymem.null → pool ≤ p ∧ p + requested ≤ pool + sz
  apart : p ≠ Mymem.null → ∀ q ∈ c.live, p + requested ≤ q.1 ∨ q.1 + q.2 ≤ p
  positive : Positive m'.blocks

section
variable {pool sz : Nat} (hsz : sz ≤ intMax) {c : Client} (h : Tracks pool sz c)
  (hs : c.mem.myStrategy = .next)
include h hs

/-- Where the block under the roving pointer is too small, its address is
returned all the same. -/
theorem serves_roves (hpool : 0 < pool) {requested : Nat} {m' : Mem} {p : Nat}
    (hm : mymalloc c.mem requested = some (m', p)) (hv : Serves pool sz c requested m' p) :
    Roves c.mem requested := by
  rcases mymalloc_next hs requested with ⟨-, hno⟩ | ⟨d, n, hd, -, hd'⟩
  · rw [hm] at hno
    cases hno
  · rw [hm] at hd'
    obtain ⟨rfl, rfl⟩ := by simpa using hd'
    obtain ⟨hmem, hfree⟩ := roving_mem hd
    have hbd := h.inv.tiles.bounds h.inv.positive (mem_blocks hmem)
    have hpos := h.inv.size_pos hmem
    simp only [MemoryList.seg] at hbd
    by_cases hex : ∃ x ∈ c.mem.blocks, x.used = false ∧ (requested : ℤ) ≤ x.len
    · obtain ⟨x, hx, -, hx1, hx2⟩ := hv.free hex
      obtain ⟨y, hy, -, hy1⟩ := hex
      refine ⟨d.block, hd, ?_⟩
      by_contra hlt
      have heq : x = d.block.seg := h.inv.tiles.unique h.inv.positive hx (mem_blocks hmem) (i := d.block.ptr)
        (by omega) (by simp only [MemoryList.seg]; omega)
      rw [heq] at hx2
      simp only [MemoryList.seg] at hx2
      omega
    · have hno := hv.null.mpr fun x hx hu => by
        by_contra hge
        exact hex ⟨x, hx, hu, not_lt.mp hge⟩
      have := hno.1
      unfold null at this
      omega

include hsz

theorem roves_allocates {requested : Nat} (hr : Roves c.mem requested) :
    ∃ m' p, mymalloc c.mem requested = some (m', p) ∧ Allocates requested c.mem m' p := by
  obtain ⟨b, hb, hle⟩ := hr
  rcases mymalloc_next hs requested with ⟨hn, -⟩ | ⟨d, n, hd, hl, hm⟩
  · rw [hn] at hb
    cases hb
  · rw [hd] at hb
    cases hb
    obtain ⟨hmem, hfree⟩ := roving_mem hd
    have ha := placeBlock_allocates h.inv hsz ⟨hl, (h.inv.fits_iff hsz hmem requested).mpr ⟨hfree, hle⟩⟩
    exact ⟨_, _, hm, ha.split, ha.memory, ha.strategy⟩

theorem roves_serves (hpool : 0 < pool) {requested : Nat} (h1 : 1 ≤ requested) (hr : Roves c.mem requested) :
    ∃ m' p, mymalloc c.mem requested = some (m', p) ∧ Serves pool sz c requested m' p := by
  obtain ⟨m', p, hm, ha⟩ := roves_allocates hsz h hs hr
  obtain ⟨-, ht⟩ := h.allocate hpool h1 hm ha
  have hacc := ht.account hsz
  have hin := hacc.inside (p, requested) (by simp)
  obtain ⟨xs, b, ys, hb, hf, hle, hstart, -⟩ := ha.split
  have hbm : b ∈ c.mem.blocks := by simp [hb]
  refine ⟨m', p, hm, ⟨?_, fun _ => ⟨b, hbm, hf, hstart.le, by omega⟩, fun _ => hin,
    fun _ => (List.pairwise_cons.mp hacc.disjoint).1, ht.inv.positive⟩⟩
  constructor
  · rintro ⟨hp, -⟩
    unfold null at hp
    omega
  · intro hno
    have := hno b hbm hf
    omega

end

/-! ## Runs -/

/-- Requests that the block under the roving pointer can hold, and any release. -/
def Call.Roves (c : Client) : Call → Prop
  | .malloc requested => 1 ≤ requested ∧ Mymem.Roves c.mem requested
  | .free _ => True

instance (c : Client) (e : Call) : Decidable (e.Roves c) :=
  match e with
  | .malloc requested => inferInstanceAs (Decidable (1 ≤ requested ∧ Mymem.Roves c.mem requested))
  | .free _ => .isTrue trivial

theorem call_next {pool sz : Nat} (hsz : sz ≤ intMax) (hpool : 0 < pool) (c : Client) (e : Call)
    (h : Tracks pool sz c ∧ c.mem.myStrategy = .next) (he : e.Roves c) :
    ∃ c' r, call c e = some (c', r) ∧ Tracks pool sz c' ∧ c'.mem.myStrategy = .next := by
  cases e with
  | malloc requested =>
    obtain ⟨m', p, hm, ha⟩ := roves_allocates hsz h.1 h.2 he.2
    obtain ⟨hc, ht⟩ := h.1.allocate hpool he.1 hm ha
    exact ⟨_, p, hc, ht, ha.strategy.trans h.2⟩
  | free p => exact ⟨_, null, rfl, free_tracks hsz h.1 p, (myfree_strategy c.mem p).trans h.2⟩

/-- In every run whose requests fit the block under the roving pointer, all
blocks stay sound, and the next request is served soundly exactly when it fits. -/
theorem next_fit_serves (m : Mem) {sz pool : Nat} (h0 : 1 ≤ sz) (hsz : sz ≤ intMax) (hpool : 0 < pool)
    (es : List Call) (hes : Guarded call (fun c e => e.Roves c) (start m .next sz pool) es) :
    ∃ c tr, run call (start m .next sz pool) es = some (c, tr) ∧ Account pool sz c ∧ Positive c.mem.blocks ∧
      ∀ requested, 1 ≤ requested →
        ((∃ m' p, mymalloc c.mem requested = some (m', p) ∧ Serves pool sz c requested m' p) ↔
          Roves c.mem requested) := by
  obtain ⟨c, tr, hr, hc, hs⟩ := run_total (call_next hsz hpool) ⟨start_tracks m .next hsz h0, rfl⟩ hes
  exact ⟨c, tr, hr, hc.account hsz, hc.inv.positive, fun requested h1 =>
    ⟨fun ⟨_, _, hm, hv⟩ => serves_roves hc hs hpool hm hv, roves_serves hsz hc hs hpool h1⟩⟩

theorem next_fit_serves_two :
    ∃ c tr, run call (start unset .next 100 4096) [.malloc 10, .malloc 20, .free 4096] = some (c, tr) ∧
      Account 4096 100 c ∧ Positive c.mem.blocks ∧
      ∀ requested, 1 ≤ requested →
        ((∃ m' p, mymalloc c.mem requested = some (m', p) ∧ Serves 4096 100 c requested m' p) ↔
          Roves c.mem requested) :=
  next_fit_serves unset (by decide) (by decide) (by decide) _ (by decide)

theorem next_fit_overdraws :
    (∃ m', mymalloc (start unset .next 10 4096).mem 20 = some (m', 4096) ∧
      m'.blocks = [⟨4096, 20, true⟩, ⟨4116, -10, false⟩]) ∧
    ¬ ∃ m' p, mymalloc (start unset .next 10 4096).mem 20 = some (m', p) ∧
      Serves 4096 10 (start unset .next 10 4096) 20 m' p := by
  have hm : (mymalloc (start unset .next 10 4096).mem 20).map (fun x => (x.1.blocks, x.2)) =
      some ([⟨4096, 20, true⟩, ⟨4116, -10, false⟩], 4096) := by decide
  obtain ⟨⟨m', p⟩, hm', hb⟩ := Option.map_eq_some_iff.mp hm
  obtain ⟨hb, rfl⟩ := Prod.mk.inj hb
  refine ⟨⟨m', hm', hb⟩, ?_⟩
  intro ⟨m₂, p₂, hm₂, hv⟩
  rw [hm'] at hm₂
  obtain ⟨rfl, rfl⟩ := Prod.mk.inj (Option.some.inj hm₂)
  have := hv.positive ⟨4116, -10, false⟩ (by simp only at hb; simp [hb])
  simp at this

end OsLabs.Mymem
