import OsLabs.MymemGaps

/-!
# First, best and worst fit place by their policy

Best fit and worst fit keep the first of the best blocks seen so far. The list
is in the order of the addresses and its free blocks are the gaps, so each
search ends at the gap that its policy names, and it fails exactly when the
request is larger than `mem_largest_free`.
-/

namespace OsLabs.Mymem

/-! ## The running optimum -/

/-- The block at the cursor is the first of the lowest scores among the blocks
seen (nearest first) that fit; `rest` is not seen yet. -/
structure Cursor.Leads (score : Int → Int) (requested : Nat) (seen rest : List MemoryList) (c : Cursor) : Prop where
  split : ∃ mid, seen = mid ++ c.block :: c.before ∧ c.after = mid.reverse ++ rest ∧
    ∀ x ∈ mid, x.fits requested = true → score c.block.size ≤ score x.size
  earlier : ∀ x ∈ c.before, x.fits requested = true → score c.block.size < score x.size

section
variable {score : Int → Int} {better : Int → Int → Bool} (hb : ∀ n n', better n n' = true ↔ score n < score n')
  {requested : Nat} {seen rest : List MemoryList} {b : MemoryList}

theorem leads_take {toUse : Option Cursor} (hnone : toUse = none → ∀ x ∈ seen, x.fits requested = false)
    (hsome : ∀ u ∈ toUse, u.Leads score requested seen (b :: rest))
    (hwins : ∀ u ∈ toUse, score b.size < score u.block.size) :
    Cursor.Leads score requested (b :: seen) rest ⟨seen, b, rest⟩ := by
  refine ⟨⟨[], rfl, rfl, by simp⟩, ?_⟩
  intro x hx hfit
  cases toUse with
  | none =>
    rw [hnone rfl x hx] at hfit
    cases hfit
  | some u =>
    obtain ⟨⟨mid, hseen, -, hmid⟩, hearlier⟩ := hsome u rfl
    have hlt : score b.size < score u.block.size := hwins u rfl
    have hx' : x ∈ mid ++ u.block :: u.before := by rw [← hseen]; exact hx
    rcases List.mem_append.mp hx' with hx | hx
    · exact lt_of_lt_of_le hlt (hmid x hx hfit)
    · rcases List.mem_cons.mp hx with rfl | hx
      · exact hlt
      · exact hlt.trans (hearlier x hx hfit)

theorem Cursor.Leads.pass {u : Cursor} (hu : u.Leads score requested seen (b :: rest))
    (hb : b.fits requested = true → score u.block.size ≤ score b.size) :
    u.Leads score requested (b :: seen) rest := by
  obtain ⟨⟨mid, rfl, hafter, hmid⟩, hearlier⟩ := hu
  refine ⟨⟨b :: mid, rfl, by simp [hafter], ?_⟩, hearlier⟩
  intro x hx hfit
  rcases List.mem_cons.mp hx with rfl | hx
  · exact hb hfit
  · exact hmid x hx hfit

include hb in
theorem searchBy_leads {l : List MemoryList} {c : Cursor} {toUse : Option Cursor}
    (hnone : toUse = none → ∀ x ∈ seen, x.fits requested = false)
    (hsome : ∀ u ∈ toUse, u.Leads score requested seen l)
    (hc : searchBy better requested toUse seen l = some c) : c.Leads score requested (l.reverse ++ seen) [] := by
  induction l generalizing seen toUse with
  | nil => exact hsome c hc
  | cons b rest ih =>
    have hl : (b :: rest).reverse ++ seen = rest.reverse ++ (b :: seen) := by simp
    rw [hl]
    refine ih ?_ ?_ hc
    · intro hn
      split at hn
      · cases hn
      · rename_i hlost
        subst hn
        refine List.forall_mem_cons.mpr ⟨?_, hnone rfl⟩
        simpa [MemoryList.wins] using hlost
    · intro u hu
      split at hu
      · rename_i htake
        cases hu
        rw [Bool.and_eq_true] at htake
        apply leads_take hnone hsome
        intro u hu
        rw [Option.mem_def] at hu
        subst hu
        exact (hb _ _).mp htake.2
      · rename_i hlost
        apply (hsome u hu).pass
        intro hfit
        rw [Option.mem_def] at hu
        subst hu
        have hlost' : ¬ better b.size u.block.size = true := by simpa [hfit, MemoryList.wins] using hlost
        rw [hb] at hlost'
        exact not_lt.mp hlost'

end

/-! ## The policies -/

/-- The gap that the policy names, for requests that some gap can hold. -/
def Strategies.Chooses (gap : ℤ × ℤ → Prop) (requested : ℤ) (g : ℤ × ℤ) : Strategies → Prop
  | .first => ∀ g', gap g' → requested ≤ g'.2 → g.1 ≤ g'.1
  | .best => ∀ g', gap g' → requested ≤ g'.2 → g.2 < g'.2 ∨ g.2 = g'.2 ∧ g.1 ≤ g'.1
  | .worst => ∀ g', gap g' → g'.2 < g.2 ∨ g.2 = g'.2 ∧ g.1 ≤ g'.1
  | .notSet | .next => False

theorem cursor_ordered {pool sz : Nat} {m : Mem} (h : Inv pool sz m) {c : Cursor} (hc : c.list = m.head) :
    (∀ x ∈ c.before, x.ptr < c.block.ptr) ∧ ∀ x ∈ c.after, c.block.ptr < x.ptr := by
  have ho := h.tiles.ordered h.positive
  have hpos : ∀ x ∈ c.list, 0 < x.size := fun x hx => h.size_pos (by rw [← hc]; exact hx)
  rw [Mem.blocks, ← hc, List.pairwise_map, Cursor.list, List.pairwise_append] at ho
  simp only [MemoryList.seg] at ho
  constructor
  · intro x hx
    have := ho.2.2 x (List.mem_reverse.mpr hx) c.block (by simp)
    have := hpos x (by simp [Cursor.list, hx])
    omega
  · intro x hx
    have := (List.pairwise_cons.mp ho.2.1).1 x hx
    have := hpos c.block (by simp [Cursor.list])
    omega

section
variable {pool sz : Nat} {m : Mem} (h : Inv pool sz m) (hsz : sz ≤ intMax) {requested : Nat} {c : Cursor}
include h hsz

/-- The optimum of the loop is the first of the lowest scores among the free
blocks that can hold the request. -/
theorem Cursor.Leads.least {score : Int → Int} (hc : c.list = m.head)
    (hl : c.Leads score requested m.head.reverse []) {x : MemoryList} (hx : x ∈ m.head) (hf : x.alloc = false)
    (hle : (requested : Int) ≤ x.size) :
    score c.block.size < score x.size ∨ score c.block.size ≤ score x.size ∧ c.block.ptr ≤ x.ptr := by
  obtain ⟨hbefore, hafter⟩ := cursor_ordered h hc
  obtain ⟨⟨mid, hseen, hcafter, hmid⟩, hearlier⟩ := hl
  have hfit : x.fits requested = true := (h.fits_iff hsz hx requested).mpr ⟨hf, hle⟩
  have hx' : x ∈ mid ++ c.block :: c.before := by
    rw [← hseen]
    exact List.mem_reverse.mpr hx
  rcases List.mem_append.mp hx' with hx | hx
  · have := hafter x (by rw [hcafter]; simp [hx])
    exact Or.inr ⟨hmid x hx hfit, this.le⟩
  · rcases List.mem_cons.mp hx with rfl | hx
    · exact Or.inr ⟨le_refl _, le_refl _⟩
    · exact Or.inl (hearlier x hx hfit)

theorem searchFit_chooses (hs : searchFit m requested = some c) :
    m.myStrategy.Chooses (fun g => g ∈ freeSpans m.blocks) requested ((c.block.ptr : ℤ), c.block.size) := by
  obtain ⟨hlist, hfit⟩ := searchFit_some hs
  have hmem : c.block ∈ m.head := by rw [← hlist]; simp [Cursor.list]
  have hsize := ((h.fits_iff hsz hmem requested).mp hfit).2
  cases hst : m.myStrategy with
  | first =>
    intro g hg hle
    obtain ⟨x, hx, hf, rfl⟩ := mem_freeSpans_blocks.mp hg
    simp only [searchFit, hst] at hs
    obtain ⟨xs, hl, hbef, hxs, -⟩ := seek_some hs
    have hfitx : x.fits requested = true := (h.fits_iff hsz hx requested).mpr ⟨hf, hle⟩
    rw [hl] at hx
    rcases List.mem_append.mp hx with hx | hx
    · rw [hxs x hx] at hfitx
      cases hfitx
    · rcases List.mem_cons.mp hx with rfl | hx
      · exact le_refl _
      · have := (cursor_ordered h hlist).2 x hx
        simp only
        omega
  | best =>
    intro g hg hle
    obtain ⟨x, hx, hf, rfl⟩ := mem_freeSpans_blocks.mp hg
    simp only [searchFit, hst] at hs
    have hl : c.Leads id requested (m.head.reverse ++ []) [] := searchBy_leads (by simp) (by simp) (by simp) hs
    have := Cursor.Leads.least h hsz hlist (by simpa using hl) hx hf hle
    simp only [id] at this ⊢
    omega
  | worst =>
    intro g hg
    obtain ⟨x, hx, hf, rfl⟩ := mem_freeSpans_blocks.mp hg
    simp only [searchFit, hst] at hs
    have hl : c.Leads (fun n => -n) requested (m.head.reverse ++ []) [] :=
      searchBy_leads (by simp) (by simp) (by simp) hs
    by_cases hle : (requested : Int) ≤ x.size
    · have := Cursor.Leads.least h hsz hlist (by simpa using hl) hx hf hle
      simp only at this ⊢
      omega
    · simp only
      omega
  | notSet | next => simp [searchFit, hst] at hs

end

/-! ## One request -/

/-- What a request does: it fails with nothing changed when it is larger than
the largest gap, and otherwise takes the first bytes of the gap that the policy
names. -/
structure Policy (pool sz : Nat) (strategy : Strategies) (c : Client) (requested : Nat) : Prop where
  null : (∃ m', mymalloc c.mem requested = some (m', null)) ↔ memLargestFree c.mem < requested
  unchanged : ∀ m', mymalloc c.mem requested = some (m', Mymem.null) → m' = c.mem
  placed : ¬ memLargestFree c.mem < requested → ∃ m' p g xs ys, mymalloc c.mem requested = some (m', p) ∧
    g.1 = (p : ℤ) ∧ IsGap (c.live.map span) pool (pool + sz) g ∧ (requested : ℤ) ≤ g.2 ∧
    strategy.Chooses (IsGap (c.live.map span) pool (pool + sz)) requested g ∧
    c.mem.blocks = xs ++ ⟨g.1, g.2, false⟩ :: ys ∧ m'.blocks = xs ++ carve requested ⟨g.1, g.2, false⟩ ++ ys

theorem chooses_congr {gap gap' : ℤ × ℤ → Prop} (hg : ∀ g, gap g ↔ gap' g) {s : Strategies} {requested : ℤ}
    {g : ℤ × ℤ} (h : s.Chooses gap requested g) : s.Chooses gap' requested g := by
  have : gap = gap' := funext fun g => propext (hg g)
  rw [← this]
  exact h

theorem policy_of_null {pool sz : Nat} {strategy : Strategies} {c : Client} {requested : Nat}
    (hm : mymalloc c.mem requested = some (c.mem, null)) (hlt : memLargestFree c.mem < requested) :
    Policy pool sz strategy c requested := by
  refine ⟨⟨fun _ => hlt, fun _ => ⟨c.mem, hm⟩⟩, ?_, fun hge => absurd hlt hge⟩
  intro m' hm'
  rw [hm] at hm'
  cases hm'
  rfl

section
variable {pool sz : Nat} (hsz : sz ≤ intMax) {c : Client} (h : Tracks pool sz c)
include h hsz

theorem memLargestFree_lt {requested : Nat} (hr : 1 ≤ requested)
    (hno : ∀ x ∈ c.mem.head, x.fits requested = false) : memLargestFree c.mem < requested := by
  rcases (largestFree_spec c.mem.head 0).2.2 with hz | ⟨b, hb, hf, hs⟩
  · unfold memLargestFree
    omega
  · have hfit := (h.inv.fits_iff hsz hb requested).not.mp (by rw [hno b hb]; exact Bool.false_ne_true)
    unfold memLargestFree
    rw [← hs]
    exact not_le.mp fun hle => hfit ⟨hf, hle⟩

theorem Tracks.policy (hf : c.mem.myStrategy.Fits) (hpool : 0 < pool) {requested : Nat} (hr : 1 ≤ requested) :
    Policy pool sz c.mem.myStrategy c requested := by
  obtain ⟨hn, heq⟩ := mymalloc_search hf requested
  cases ho : searchFit c.mem requested with
  | none =>
    rw [ho] at heq
    exact policy_of_null heq (memLargestFree_lt hsz h hr (searchFit_none hf ho))
  | some d =>
    have hm : mymalloc c.mem requested = some (placeBlock c.mem requested d, d.block.ptr) := by
      rw [heq, ho]
      simp only [orNull, useBlock, hn, ite_false]
    obtain ⟨hlist, hfit⟩ := searchFit_some ho
    have hmem : d.block ∈ c.mem.head := by rw [← hlist]; simp [Cursor.list]
    obtain ⟨hfree, hle⟩ := (h.inv.fits_iff hsz hmem requested).mp hfit
    have hge : ¬ memLargestFree c.mem < requested := by
      have := (largestFree_spec c.mem.head 0).2.1 d.block hmem hfree
      unfold memLargestFree
      omega
    have hp : d.block.ptr ≠ null := by
      have := (h.inv.tiles.bounds h.inv.positive (mem_blocks hmem)).1
      simp only [MemoryList.seg] at this
      unfold null
      omega
    have hnull : ∀ m', mymalloc c.mem requested ≠ some (m', null) := by
      intro m' hm'
      rw [hm] at hm'
      exact hp (Prod.mk.inj (Option.some.inj hm')).2
    have hserved : ¬ ∃ m', mymalloc c.mem requested = some (m', null) := not_exists.mpr hnull
    have hgap : (((d.block.ptr : ℤ), d.block.size) : ℤ × ℤ) ∈ freeSpans c.mem.blocks :=
      mem_freeSpans_blocks.mpr ⟨d.block, hmem, hfree, rfl⟩
    have hseg : d.block.seg = ⟨d.block.ptr, d.block.size, false⟩ := by rw [MemoryList.seg, hfree]
    refine ⟨⟨fun hm' => absurd hm' hserved, fun hlt => absurd hlt hge⟩, fun m' hm' => absurd hm' (hnull m'), fun _ => ?_⟩
    refine ⟨_, _, ((d.block.ptr : ℤ), d.block.size), d.before.reverse.map MemoryList.seg,
      d.after.map MemoryList.seg, hm, rfl, (h.gaps _).mp hgap, hle,
      chooses_congr h.gaps (searchFit_chooses h.inv hsz ho), ?_, ?_⟩
    · rw [Mem.blocks, ← hlist, Cursor.list, List.map_append, List.map_cons, hseg]
    · rw [Mem.blocks, placeBlock, List.map_append, List.map_append, h.inv.carve_seg hsz hmem hle, hseg]

end

theorem Hollow.policy {pool : Nat} {c : Client} (h : Hollow pool c) {requested : Nat} (hr : 1 ≤ requested) :
    Policy pool 0 c.mem.myStrategy c requested := by
  obtain ⟨b, hb, hs⟩ := h.head
  have hsize : b.size = 0 := congrArg Seg.len hs
  apply policy_of_null (hollow_malloc h hr)
  rw [memLargestFree, hb]
  simp [largestFree, hsize]
  omega

theorem Sound.policy {pool sz : Nat} {strategy : Strategies} (hs : strategy.Fits) (hsz : sz ≤ intMax)
    (hpool : 0 < pool) {c : Client} (h : Sound pool sz strategy c) {requested : Nat} (hr : 1 ≤ requested) :
    Policy pool sz strategy c requested := by
  have hst := h.strategy
  rcases h.blocks with ht | ⟨rfl, hh⟩
  · exact hst ▸ ht.policy hsz (hst ▸ hs) hpool hr
  · exact hst ▸ hh.policy hr

/-- After every run each request is served by the policy of the strategy. -/
theorem mymalloc_policy (m : Mem) {strategy : Strategies} (hs : strategy.Fits) {sz pool : Nat}
    (hsz : sz ≤ intMax) (hpool : 0 < pool) (es : List Call) (hes : ∀ e ∈ es, e.Valid) :
    ∃ c tr, run call (start m strategy sz pool) es = some (c, tr) ∧
      ∀ requested, 1 ≤ requested → Policy pool sz strategy c requested := by
  obtain ⟨c, tr, hr, hc⟩ := run_sound hs hsz m hpool es hes
  exact ⟨c, tr, hr, fun _ h1 => hc.policy hs hsz hpool h1⟩

theorem mymalloc_policy_worst :
    ∃ c tr, run call (start unset .worst 100 4096) [.malloc 10, .malloc 1, .malloc 30, .free 4096] = some (c, tr) ∧
      ∀ requested, 1 ≤ requested → Policy 4096 100 .worst c requested :=
  mymalloc_policy unset (show Strategies.Fits .worst from trivial) (by decide) (by decide) _ (by decide)

end OsLabs.Mymem
