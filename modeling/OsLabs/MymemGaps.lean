import Mathlib.Data.Set.Card
import OsLabs.MymemLive

/-!
# Free space is always coalesced

The free blocks are the maximal gaps between the live allocations, so that the
functions which count and measure holes are exact, and the block list depends
only on what is live: histories that leave the same allocations leave the same
list.
-/

namespace OsLabs.Mymem

/-! ## Holes are gaps -/

theorem ncard_of_nodup {α} [DecidableEq α] {l : List α} (hl : l.Nodup) {P : α → Prop} (hP : ∀ x, x ∈ l ↔ P x) :
    {x | P x}.ncard = l.length := by
  have : {x | P x} = (l.toFinset : Set α) := by
    ext x
    simp [hP]
  rw [this, Set.ncard_coe_finset, List.toFinset_card_of_nodup hl]

theorem length_le_lengths {l : List Seg} (hp : Positive l) : (l.length : ℤ) ≤ lengths l := by
  induction l with
  | nil => simp
  | cons x l ih =>
    have := hp x (by simp)
    have := ih fun y hy => hp y (List.mem_cons_of_mem x hy)
    rw [lengths_cons, List.length_cons]
    omega

theorem freeSpans_nodup {l : List Seg} {a e : ℤ} (h : Tiles a l e) (hp : Positive l) :
    (freeSpans l).Nodup := by
  refine List.Nodup.map_on ?_ ((h.nodup hp).filter _)
  intro x hx y hy hxy
  exact h.start_inj hp (List.mem_filter.mp hx).1 (List.mem_filter.mp hy).1 (congrArg Prod.fst hxy)

theorem largestFree_spec (l : List MemoryList) (acc : Int) :
    acc ≤ largestFree acc l ∧ (∀ b ∈ l, b.alloc = false → b.size ≤ largestFree acc l) ∧
    (largestFree acc l = acc ∨ ∃ b ∈ l, b.alloc = false ∧ b.size = largestFree acc l) := by
  induction l generalizing acc with
  | nil => exact ⟨le_refl _, by simp, Or.inl rfl⟩
  | cons b rest ih =>
    unfold largestFree
    split
    · rename_i hb
      simp only [Bool.and_eq_true, Bool.not_eq_true', decide_eq_true_eq] at hb
      obtain ⟨h1, h2, h3⟩ := ih b.size
      refine ⟨by omega, List.forall_mem_cons.mpr ⟨fun _ => h1, h2⟩, Or.inr ?_⟩
      rcases h3 with h3 | ⟨x, hx, hxf, hxs⟩
      · exact ⟨b, by simp, hb.1, h3.symm⟩
      · exact ⟨x, List.mem_cons_of_mem b hx, hxf, hxs⟩
    · rename_i hb
      simp only [Bool.and_eq_true, Bool.not_eq_true', decide_eq_true_eq, not_and, not_lt] at hb
      obtain ⟨h1, h2, h3⟩ := ih acc
      refine ⟨h1, List.forall_mem_cons.mpr ⟨fun hf => (hb hf).trans h1, h2⟩, h3.imp_right ?_⟩
      intro ⟨x, hx, hxf, hxs⟩
      exact ⟨x, List.mem_cons_of_mem b hx, hxf, hxs⟩

theorem mem_freeSpans_blocks {m : Mem} {p : ℤ × ℤ} :
    p ∈ freeSpans m.blocks ↔ ∃ b ∈ m.head, b.alloc = false ∧ p = ((b.ptr : ℤ), b.size) := by
  rw [mem_freeSpans, Mem.blocks, List.mem_map]
  constructor
  · rintro ⟨b, hb, heq⟩
    simp only [MemoryList.seg, Seg.mk.injEq] at heq
    exact ⟨b, hb, heq.2.2, Prod.ext heq.1.symm heq.2.1.symm⟩
  · rintro ⟨b, hb, hf, rfl⟩
    exact ⟨b, hb, by rw [MemoryList.seg, hf]⟩

section
variable {pool sz : Nat} {m : Mem} (h : Inv pool sz m) (hsz : sz ≤ intMax)
include h hsz

theorem tally_free (p : Int → Bool) : tally (fun b => !b.alloc && p b.size) (fun _ => 1) 0 m.head =
    (((freeSpans m.blocks).filter fun q => p q.2).length : ℤ) := by
  have hlen : ((m.head.filter fun b => !b.alloc && p b.size).length : ℤ) ≤ sz := by
    have h1 := length_le_lengths h.positive
    rw [h.lengths_eq, Mem.blocks, List.length_map] at h1
    have h2 := List.length_filter_le (fun b : MemoryList => !b.alloc && p b.size) m.head
    omega
  have hsum : ((m.head.filter fun b => !b.alloc && p b.size).map fun _ => (1 : Int)).sum =
      (m.head.filter fun b => !b.alloc && p b.size).length := by
    simp
  unfold intMax at hsz
  rw [tally_eq (le_refl 0) (fun _ _ _ => by decide) (by omega), hsum, zero_add]
  simp [freeSpans, spans, Mem.blocks, List.filter_map, Function.comp_def, MemoryList.seg, Bool.and_comm]

end

/-! ## The block list depends on what is live -/

theorem Tracks.ext {pool sz : Nat} {c c' : Client} (h : Tracks pool sz c) (h' : Tracks pool sz c')
    (hlive : ∀ q, q ∈ c.live ↔ q ∈ c'.live) : c.mem.blocks = c'.mem.blocks := by
  apply h.inv.tiles.ext h'.inv.tiles h.inv.positive h'.inv.positive h.inv.coalesced h'.inv.coalesced
  intro p
  rw [h.used.mem_iff, h'.used.mem_iff, List.mem_map, List.mem_map]
  simp only [hlive]

def freeAll (m : Mem) (ps : List Nat) : Mem := ps.foldl myfree m

theorem freeAll_tracks {pool sz : Nat} (hsz : sz ≤ intMax) : ∀ (ps : List Nat) {c : Client}, Tracks pool sz c →
    Tracks pool sz { mem := freeAll c.mem ps, live := c.live.filter fun q => decide (q.1 ∉ ps) }
  | [], c, h => by
    have : (c.live.filter fun q => decide (q.1 ∉ ([] : List Nat))) = c.live :=
      List.filter_eq_self.mpr fun q _ => by simp
    rw [this]
    exact h
  | p :: ps, c, h => by
    have := freeAll_tracks hsz ps (free_tracks hsz h p)
    rw [List.filter_filter] at this
    have hf : (fun q : Nat × Nat => decide (q.1 ∉ ps) && (q.1 != p)) = fun q => decide (q.1 ∉ p :: ps) := by
      funext q
      by_cases h1 : q.1 = p <;> by_cases h2 : q.1 ∈ ps <;> simp [h1, h2]
    rw [hf] at this
    exact this

theorem malloc_free_blocks {pool sz : Nat} (hsz : sz ≤ intMax) (hpool : 0 < pool) {c : Client}
    (h : Tracks pool sz c) (hf : c.mem.myStrategy.Fits) {requested : Nat} (hr : 1 ≤ requested) {m' : Mem}
    {p : Nat} (hm : mymalloc c.mem requested = some (m', p)) : (myfree m' p).blocks = c.mem.blocks := by
  have hstart : ∀ q ∈ c.live, q.1 ≠ null := fun q hq => by
    have := (h.account hsz).inside q hq
    unfold null
    omega
  obtain ⟨c', r, hc, h', -⟩ := malloc_tracks hsz h hf hpool hr
  simp only [call, hm, Option.some.injEq, Prod.mk.injEq] at hc
  obtain ⟨rfl, rfl⟩ := hc
  by_cases hp : p = null
  · subst hp
    simp only [ite_true] at h'
    apply (free_tracks hsz h' null).ext h
    intro q
    rw [List.filter_eq_self.mpr fun q hq => by simpa using hstart q hq]
  · simp only [hp, ite_false] at h'
    apply (free_tracks hsz h' p).ext h
    intro q
    have hnd := (h'.account hsz).starts
    rw [List.map_cons, List.nodup_cons] at hnd
    rw [List.filter_cons_of_neg (by simp), List.filter_eq_self.mpr fun q hq => ?_]
    have : q.1 ≠ p := fun heq => hnd.1 (List.mem_map.mpr ⟨q, hq, heq⟩)
    simpa using this

/-! ## What holds after every call -/

/-- What the functions that describe the free space say after a run. -/
structure Holes (pool sz : Nat) (c : Client) : Prop where
  coalesced : Coalesced c.mem.blocks
  gaps : ∀ p, p ∈ freeSpans c.mem.blocks ↔ IsGap (c.live.map span) pool (pool + sz) p
  holes : memHoles c.mem = {p | IsGap (c.live.map span) pool (pool + sz) p}.ncard
  small : ∀ n : Int, memSmallFree c.mem n = {p | IsGap (c.live.map span) pool (pool + sz) p ∧ p.2 ≤ n}.ncard
  largest : ∀ p, IsGap (c.live.map span) pool (pool + sz) p → p.2 ≤ memLargestFree c.mem
  attained : memLargestFree c.mem = 0 ∧ (∀ p, ¬ IsGap (c.live.map span) pool (pool + sz) p) ∨
    ∃ p, IsGap (c.live.map span) pool (pool + sz) p ∧ p.2 = memLargestFree c.mem
  restored : ∀ requested m' p, 1 ≤ requested → mymalloc c.mem requested = some (m', p) →
    (myfree m' p).blocks = c.mem.blocks
  reordered : ∀ ps ps' : List Nat, ps.Perm ps' → (freeAll c.mem ps).blocks = (freeAll c.mem ps').blocks
  emptied : ∀ ps : List Nat, (∀ q ∈ c.live, q.1 ∈ ps) → (freeAll c.mem ps).blocks = [⟨pool, sz, false⟩]

theorem Tracks.gaps {pool sz : Nat} {c : Client} (h : Tracks pool sz c) (p : ℤ × ℤ) :
    p ∈ freeSpans c.mem.blocks ↔ IsGap (c.live.map span) pool (pool + sz) p := by
  rw [h.inv.tiles.mem_freeSpans_iff h.inv.positive h.inv.coalesced p]
  exact ⟨isGap_congr fun q => h.used.mem_iff, isGap_congr fun q => h.used.mem_iff.symm⟩

theorem Tracks.holes {pool sz : Nat} (hsz : sz ≤ intMax) {c : Client} (h : Tracks pool sz c)
    (hf : c.mem.myStrategy.Fits) (hpool : 0 < pool) (h0 : 0 < sz) : Holes pool sz c := by
  have hgap := h.gaps
  have hnd := freeSpans_nodup h.inv.tiles h.inv.positive
  have hfree : ∀ p, p ∈ freeSpans c.mem.blocks ↔ ∃ b ∈ c.mem.head, b.alloc = false ∧
    p = ((b.ptr : ℤ), b.size) :=
    fun p => mem_freeSpans_blocks
  obtain ⟨hl1, hl2, hl3⟩ := largestFree_spec c.mem.head 0
  refine ⟨h.inv.coalesced, hgap, ?_, ?_, ?_, ?_, fun _ _ _ hr hm =>
    malloc_free_blocks hsz hpool h hf hr hm, ?_, ?_⟩
  · rw [ncard_of_nodup hnd hgap]
    simpa [memHoles] using tally_free h.inv hsz fun _ => true
  · intro n
    rw [ncard_of_nodup (hnd.filter fun q => decide (q.2 ≤ n)) fun q => by simp [hgap]]
    exact tally_free h.inv hsz fun size => decide (size ≤ n)
  · intro p hp
    obtain ⟨b, hb, hf, rfl⟩ := (hfree p).mp ((hgap p).mpr hp)
    exact hl2 b hb hf
  · rcases hl3 with hl3 | ⟨b, hb, hf, hbs⟩
    · refine Or.inl ⟨hl3, ?_⟩
      intro p hp
      obtain ⟨b, hb, hf, rfl⟩ := (hfree p).mp ((hgap p).mpr hp)
      have := hl2 b hb hf
      have := h.inv.size_pos hb
      omega
    · exact Or.inr ⟨_, (hgap _).mp ((hfree _).mpr ⟨b, hb, hf, rfl⟩), hbs⟩
  · intro ps ps' hps
    apply (freeAll_tracks hsz ps h).ext (freeAll_tracks hsz ps' h)
    intro q
    simp [hps.mem_iff]
  · intro ps hps
    have ht := freeAll_tracks hsz ps h
    have hnone : (c.live.filter fun q => decide (q.1 ∉ ps)) = [] :=
      List.filter_eq_nil_iff.mpr fun q hq => by simpa using hps q hq
    rw [hnone] at ht
    refine ht.inv.tiles.ext ⟨rfl, rfl⟩ ht.inv.positive (by simpa [Positive] using h0) ht.inv.coalesced
      (List.isChain_singleton _) ?_
    intro p
    rw [ht.used.mem_iff]
    simp

/-- After every run the free blocks are the gaps between the live allocations,
and two runs that leave the same allocations leave the same blocks. -/
theorem free_space_coalesced (m : Mem) {strategy : Strategies} (hs : strategy.Fits) {sz pool : Nat} (h0 : 1 ≤ sz)
    (hsz : sz ≤ intMax) (hpool : 0 < pool) (es : List Call) (hes : ∀ e ∈ es, e.Valid) :
    ∃ c tr, run call (start m strategy sz pool) es = some (c, tr) ∧ Holes pool sz c ∧
      ∀ es' c' tr', (∀ e ∈ es', e.Valid) → run call (start m strategy sz pool) es' = some (c', tr') →
        (∀ q, q ∈ c.live ↔ q ∈ c'.live) → c.mem.blocks = c'.mem.blocks := by
  obtain ⟨c, tr, hr, hc, hf⟩ := run_tracks m hs hsz h0 hpool es hes
  refine ⟨c, tr, hr, hc.holes hsz (hf ▸ hs) hpool h0, ?_⟩
  intro es' c' tr' hes' hr' hlive
  obtain ⟨c₂, tr₂, hr₂, hc₂, -⟩ := run_tracks m hs hsz h0 hpool es' hes'
  rw [hr'] at hr₂
  cases hr₂
  exact hc.ext hc₂ hlive

theorem free_space_coalesced_first :
    ∃ c tr, run call (start unset .first 100 4096) [.malloc 10, .malloc 20, .free 4096] = some (c, tr) ∧
      Holes 4096 100 c ∧
      ∀ es' c' tr', (∀ e ∈ es', e.Valid) → run call (start unset .first 100 4096) es' = some (c', tr') →
        (∀ q, q ∈ c.live ↔ q ∈ c'.live) → c.mem.blocks = c'.mem.blocks :=
  free_space_coalesced unset (show Strategies.Fits .first from trivial) (by decide) (by decide)
    (by decide) _ (by decide)

end OsLabs.Mymem
