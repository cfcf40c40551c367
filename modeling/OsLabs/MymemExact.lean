import OsLabs.MymemUniform

/-!
# The allocator in unbounded integers

`Exact` is the allocator of first, best and worst fit with integers in the place
of `int` and `size_t`. Along a run the sizes of the blocks are not negative and
their sum is in the range of `int`, so no conversion changes a value and both
allocators go through the same states.
-/

namespace OsLabs.Mymem

/-! ## The exact allocator -/

namespace Exact

def initmem (m : Mem) (strategy : Strategies) (sz pool : Nat) : Mem :=
  { m with
    myStrategy := strategy
    mySize := sz
    myMemory := pool
    head := [{ node := m.fresh, size := sz, alloc := false, ptr := pool }]
    next := some m.fresh
    fresh := m.fresh + 1 }

def fits (requested : Nat) (b : MemoryList) : Bool := !b.alloc && decide ((requested : Int) ≤ b.size)

def searchBy (better : Int → Int → Bool) (requested : Nat) :
    Option Cursor → List MemoryList → List MemoryList → Option Cursor
  | toUse, _, [] => toUse
  | toUse, before, b :: rest =>
    searchBy better requested
      (if fits requested b && b.wins better toUse then some ⟨before, b, rest⟩ else toUse) (b :: before) rest

def search (m : Mem) (requested : Nat) : Option Cursor :=
  match m.myStrategy with
  | .first => seek (fits requested) [] m.head
  | .best => searchBy (fun size best => decide (size < best)) requested none [] m.head
  | .worst => searchBy (fun size worst => decide (worst < size)) requested none [] m.head
  | .notSet | .next => none

def carve (requested fresh : Nat) (b : MemoryList) : List MemoryList :=
  if b.size = requested then [{ b with alloc := true }]
  else
    [{ b with alloc := true, size := requested },
      { node := fresh, size := b.size - requested, alloc := false, ptr := b.ptr + requested }]

def mymalloc (m : Mem) (requested : Nat) : Mem × Nat :=
  match search m requested with
  | none => (m, null)
  | some toUse =>
    let carved := carve requested m.fresh toUse.block
    ({ m with head := toUse.before.reverse ++ carved ++ toUse.after, fresh := m.fresh + carved.tail.length },
      toUse.block.ptr)

def mergeForward (next : Option Nat) (block : MemoryList) :
    List MemoryList → Option Nat × MemoryList × List MemoryList
  | [] => (next, block, [])
  | tmp :: rest =>
    if tmp.alloc then (next, block, tmp :: rest)
    else mergeForward (if next = some tmp.node then some block.node else next)
      { block with size := block.size + tmp.size } rest

def myfree (m : Mem) (p : Nat) : Mem :=
  match seek (fun b => b.ptr == p) [] m.head with
  | none => m
  | some c =>
    let s := moveBack c.before { c.block with alloc := false } c.after
    let (next, block, after) := mergeForward m.next s.block s.after
    { m with head := s.before.reverse ++ block :: after, next := next }

def memAllocated (m : Mem) : Int := ((m.head.filter fun b => b.alloc).map MemoryList.size).sum

def memFree (m : Mem) : Int := ((m.head.filter fun b => !b.alloc).map MemoryList.size).sum

def memLargestFree (m : Mem) : Int := ((m.head.filter fun b => !b.alloc).map MemoryList.size).foldl max 0

def call : StepFn Client Call Nat
  | c, .malloc requested =>
    let (m, p) := mymalloc c.mem requested
    some ({ mem := m, live := if p = null then c.live else (p, requested) :: c.live }, p)
  | c, .free p => some ({ mem := myfree c.mem p, live := c.live.filter fun q => q.1 != p }, null)

def start (m : Mem) (strategy : Strategies) (sz pool : Nat) : Client :=
  { mem := initmem m strategy sz pool, live := [] }

end Exact

/-! ## Sizes in range -/

/-- No size is negative, and all of them together are in the range of `int`. -/
structure InRange (m : Mem) : Prop where
  nonneg : ∀ b ∈ m.head, 0 ≤ b.size
  sum_le : (m.head.map MemoryList.size).sum ≤ intMax

section
variable {m : Mem} (h : InRange m)
include h

/-- Each sum that the code makes adds up some of the sizes in their order. -/
theorem InRange.sublist {l : List Int} (hl : l.Sublist (m.head.map MemoryList.size)) :
    (∀ x ∈ l, 0 ≤ x) ∧ 0 ≤ l.sum ∧ l.sum ≤ intMax := by
  have hnonneg : ∀ x ∈ m.head.map MemoryList.size, 0 ≤ x := List.forall_mem_map.mpr h.nonneg
  have hl0 : ∀ x ∈ l, 0 ≤ x := fun x hx => hnonneg x (hl.subset hx)
  exact ⟨hl0, List.sum_nonneg hl0, (hl.sum_le_sum hnonneg).trans h.sum_le⟩

theorem InRange.size_le {b : MemoryList} (hb : b ∈ m.head) : b.size ≤ intMax := by
  simpa using (h.sublist (List.singleton_sublist.mpr (List.mem_map_of_mem hb))).2.2

theorem InRange.toSize_eq {b : MemoryList} (hb : b ∈ m.head) : (toSize b.size : Int) = b.size := by
  have h0 := h.nonneg b hb
  have h1 := h.size_le hb
  unfold intMax at h1
  exact toSize_of_bounds (by omega) (by omega)

theorem InRange.fits_eq {b : MemoryList} (hb : b ∈ m.head) (requested : Nat) :
    b.fits requested = Exact.fits requested b := by
  have hs := h.toSize_eq hb
  rw [MemoryList.fits, Exact.fits]
  congr 2
  exact propext (by omega)

/-- The difference `extra` and the new size of the block in use. -/
theorem InRange.extra_eq {b : MemoryList} (hb : b ∈ m.head) {requested : Nat} (hr : (requested : Int) ≤ b.size) :
    toInt (toSize ((toSize b.size : Int) - requested)) = b.size - requested ∧ toInt requested = requested := by
  have hs := h.toSize_eq hb
  have h1 := h.size_le hb
  unfold intMax at h1
  refine ⟨?_, toInt_of_bounds (by omega) (by omega)⟩
  rw [toSize_of_bounds (by omega) (by omega), hs, toInt_of_bounds (by omega) (by omega)]

theorem InRange.carve_eq {b : MemoryList} (hb : b ∈ m.head) {requested : Nat} (hr : (requested : Int) ≤ b.size)
    (fresh : Nat) : b.carve requested fresh = Exact.carve requested fresh b := by
  have hs := h.toSize_eq hb
  obtain ⟨hextra, hreq⟩ := h.extra_eq hb hr
  rw [MemoryList.carve, Exact.carve]
  by_cases heq : b.size = requested
  · rw [if_pos (by omega), if_pos heq]
  · rw [if_neg (by omega), if_neg heq]
    simp only [hextra, hreq]

end

/-! ## The calls -/

theorem seek_congr {p q : MemoryList → Bool} {l : List MemoryList} (h : ∀ x ∈ l, p x = q x) (before : List MemoryList) :
    seek p before l = seek q before l := by
  induction l generalizing before with
  | nil => rfl
  | cons b rest ih =>
    obtain ⟨hb, hrest⟩ := List.forall_mem_cons.mp h
    simp only [seek, hb, ih hrest]

theorem searchBy_eq {better : Int → Int → Bool} {requested : Nat} {l : List MemoryList}
    (h : ∀ x ∈ l, x.fits requested = Exact.fits requested x) (toUse : Option Cursor) (before : List MemoryList) :
    searchBy better requested toUse before l = Exact.searchBy better requested toUse before l := by
  induction l generalizing toUse before with
  | nil => rfl
  | cons b rest ih =>
    obtain ⟨hb, hrest⟩ := List.forall_mem_cons.mp h
    simp only [searchBy, Exact.searchBy, hb]
    exact ih hrest _ _

theorem mergeForward_eq (next : Option Nat) {block : MemoryList} {l : List MemoryList} (h0 : 0 ≤ block.size)
    (hl : ∀ x ∈ l, 0 ≤ x.size) (hsum : block.size + (l.map MemoryList.size).sum ≤ intMax) :
    mergeForward next block l = Exact.mergeForward next block l := by
  induction l generalizing next block with
  | nil => rfl
  | cons tmp rest ih =>
    obtain ⟨h1, hrest⟩ := List.forall_mem_cons.mp hl
    have h2 := List.sum_nonneg (List.forall_mem_map.mpr hrest)
    rw [List.map_cons, List.sum_cons] at hsum
    have hint : toInt (block.size + tmp.size) = block.size + tmp.size := by
      unfold intMax at hsum
      exact toInt_of_bounds (by omega) (by omega)
    rw [mergeForward, Exact.mergeForward, hint]
    split
    · rfl
    · exact ih _ (by simp only; omega) hrest (by simp only; omega)

section
variable {m : Mem} (h : InRange m)
include h

theorem InRange.search_eq (requested : Nat) : searchFit m requested = Exact.search m requested := by
  have hfits : ∀ x ∈ m.head, x.fits requested = Exact.fits requested x := fun x hx => h.fits_eq hx requested
  unfold searchFit Exact.search
  cases m.myStrategy with
  | first => exact seek_congr hfits []
  | best | worst => exact searchBy_eq hfits none []
  | notSet | next => rfl

theorem InRange.mymalloc_eq (hs : m.myStrategy.Fits) (requested : Nat) :
    mymalloc m requested = some (Exact.mymalloc m requested) := by
  obtain ⟨hn, heq⟩ := mymalloc_search hs requested
  rw [heq, Exact.mymalloc, ← h.search_eq requested]
  cases ho : searchFit m requested with
  | none => rfl
  | some c =>
    obtain ⟨hl, hfit⟩ := searchFit_some ho
    have hm : c.block ∈ m.head := by rw [← hl]; simp [Cursor.list]
    have hle : (requested : Int) ≤ c.block.size := by
      rw [h.fits_eq hm, Exact.fits, Bool.and_eq_true, decide_eq_true_eq] at hfit
      exact hfit.2
    simp only [orNull, useBlock, hn, ite_false, placeBlock, h.carve_eq hm hle]

theorem InRange.myfree_eq (p : Nat) : myfree m p = Exact.myfree m p := by
  unfold myfree Exact.myfree
  cases hs : seek (fun b => b.ptr == p) [] m.head with
  | none => rfl
  | some c =>
    have hlist : c.list = m.head := seek_list hs
    have hback := moveBack_list c.before { c.block with alloc := false } c.after rfl
    generalize hst : moveBack c.before { c.block with alloc := false } c.after = s at hback
    have hsub : ((s.block :: s.after).map MemoryList.size).Sublist (m.head.map MemoryList.size) := by
      have hsizes : s.list.map MemoryList.size = m.head.map MemoryList.size := by
        rw [hback, ← hlist]
        simp [Cursor.list]
      rw [← hsizes, Cursor.list, List.map_append]
      exact List.sublist_append_right _ _
    obtain ⟨h0, -, hsum⟩ := h.sublist hsub
    rw [List.map_cons, List.forall_mem_cons, List.forall_mem_map] at h0
    rw [List.map_cons, List.sum_cons] at hsum
    simp only [mergeBlocks, Bool.false_eq_true, ite_false, hst, mergeForward_eq m.next h0.1 h0.2 hsum]

theorem InRange.memAllocated_eq : memAllocated m = Exact.memAllocated m := by
  have hsub := h.sublist ((List.filter_sublist (p := fun b => b.alloc) (l := m.head)).map MemoryList.size)
  rw [memAllocated, tally_eq (le_refl 0) (fun x hx _ => h.nonneg x hx) (by rw [zero_add]; exact hsub.2.2), zero_add]
  rfl

theorem InRange.memFree_eq : memFree m = Exact.memFree m := by
  have hsub := h.sublist ((List.filter_sublist (p := fun b => !b.alloc) (l := m.head)).map MemoryList.size)
  rw [memFree, tally_eq (le_refl 0) (fun x hx _ => h.nonneg x hx) (by rw [zero_add]; exact hsub.2.2), zero_add]
  rfl

end

theorem largestFree_eq (l : List MemoryList) (acc : Int) :
    largestFree acc l = ((l.filter fun b => !b.alloc).map MemoryList.size).foldl max acc := by
  induction l generalizing acc with
  | nil => rfl
  | cons b rest ih =>
    rw [largestFree, ih, List.filter_cons]
    cases b.alloc with
    | true => rfl
    | false =>
      have hmax : (if acc < b.size then b.size else acc) = max acc b.size := by
        rw [max_def]
        split <;> split <;> omega
      simp [hmax]

/-! ## Runs -/

theorem Tracks.inRange {pool sz : Nat} (hsz : sz ≤ intMax) {c : Client} (h : Tracks pool sz c) : InRange c.mem where
  nonneg b hb := (h.inv.size_pos hb).le
  sum_le := by
    have hsum : (c.mem.head.map MemoryList.size).sum = lengths c.mem.blocks := by
      rw [lengths, Mem.blocks, List.map_map]
      rfl
    rw [hsum, h.inv.lengths_eq]
    omega

theorem Hollow.inRange {pool : Nat} {c : Client} (h : Hollow pool c) : InRange c.mem := by
  obtain ⟨b, hb, hs⟩ := h.head
  have hsize : b.size = 0 := congrArg Seg.len hs
  constructor
  · simp [hb, hsize]
  · simp [hb, hsize]

section
variable {strategy : Strategies} (hs : strategy.Fits) {pool sz : Nat} (hsz : sz ≤ intMax)
include hsz

theorem Sound.inRange {c : Client} (h : Sound pool sz strategy c) : InRange c.mem := by
  rcases h.blocks with ht | ⟨-, hh⟩
  · exact ht.inRange hsz
  · exact hh.inRange

theorem start_eq (m : Mem) : start m strategy sz pool = Exact.start m strategy sz pool := by
  have hint : toInt sz = sz := by
    unfold intMax at hsz
    exact toInt_of_bounds (by omega) (by omega)
  simp only [start, Exact.start, initmem, initializeHead, release, Exact.initmem, hint]

include hs

theorem Sound.call_eq {c : Client} (h : Sound pool sz strategy c) (e : Call) : call c e = Exact.call c e := by
  have hr := h.inRange hsz
  cases e with
  | malloc requested => simp only [call, Exact.call, hr.mymalloc_eq (h.strategy ▸ hs)]
  | free p => simp only [call, Exact.call, hr.myfree_eq]

end

/-- The arithmetic of the code on the blocks of a state: what it compares with a
request, what a split leaves, and each sum over some of the blocks in their order. -/
structure Unwrapped (m : Mem) : Prop where
  compare : ∀ b ∈ m.head, ∀ requested : Nat, (requested ≤ toSize b.size ↔ (requested : Int) ≤ b.size) ∧
    (toSize b.size = requested ↔ b.size = requested)
  extra : ∀ b ∈ m.head, ∀ requested : Nat, (requested : Int) ≤ b.size →
    toInt (toSize ((toSize b.size : Int) - requested)) = b.size - requested ∧ toInt requested = requested
  sums : ∀ l : List MemoryList, l.Sublist m.head → toInt (l.map MemoryList.size).sum = (l.map MemoryList.size).sum

theorem InRange.unwrapped {m : Mem} (h : InRange m) : Unwrapped m where
  compare b hb requested := by
    have := h.toSize_eq hb
    omega
  extra b hb requested hr := h.extra_eq hb hr
  sums l hl := by
    have hsum := (h.sublist (hl.map MemoryList.size)).2
    unfold intMax at hsum
    exact toInt_of_bounds (by omega) (by omega)

/-- In every run of first, best or worst fit the fixed-width allocator and the
exact one return the same and go through the same states, and neither a
comparison nor a difference nor a sum changes by a conversion. -/
theorem exact_arithmetic (m : Mem) {strategy : Strategies} (hs : strategy.Fits) {sz pool : Nat}
    (hsz : sz ≤ intMax) (hpool : 0 < pool) (es : List Call) (hes : ∀ e ∈ es, e.Valid) :
    ∃ c tr, run call (start m strategy sz pool) es = some (c, tr) ∧
      run Exact.call (Exact.start m strategy sz pool) es = some (c, tr) ∧ Unwrapped c.mem ∧
      memAllocated c.mem = Exact.memAllocated c.mem ∧ memFree c.mem = Exact.memFree c.mem ∧
      memLargestFree c.mem = Exact.memLargestFree c.mem := by
  have hstep : ∀ s a e, (s = a ∧ Sound pool sz strategy a) → Call.Valid e →
      ∃ s' a' r, call s e = some (s', r) ∧ Exact.call a e = some (a', r) ∧ s' = a' ∧ Sound pool sz strategy a' := by
    rintro s a e ⟨rfl, h⟩ he
    obtain ⟨c', r, hc, h'⟩ := call_sound hs hsz hpool s e h he
    exact ⟨c', c', r, hc, (h.call_eq hs hsz e).symm.trans hc, rfl, h'⟩
  obtain ⟨c, c', tr, hr, hr', rfl, h⟩ := run_sim (R := fun s a => s = a ∧ Sound pool sz strategy a) hstep
    ⟨start_eq hsz m, start_eq hsz m ▸ start_sound hs hsz m pool⟩ (guarded_of_forall _ hes)
  have hrange := h.inRange hsz
  exact ⟨c, tr, hr, hr', hrange.unwrapped, hrange.memAllocated_eq, hrange.memFree_eq, largestFree_eq _ _⟩

/-- A request of nearly `2 ^ 64` bytes, one that is split off, and a release. -/
theorem exact_arithmetic_huge :
    ∃ c tr, run call (start unset .best 2147483647 4096)
        [.malloc 18446744073709551615, .malloc 10, .free 4096] = some (c, tr) ∧
      run Exact.call (Exact.start unset .best 2147483647 4096)
        [.malloc 18446744073709551615, .malloc 10, .free 4096] = some (c, tr) ∧ Unwrapped c.mem ∧
      memAllocated c.mem = Exact.memAllocated c.mem ∧ memFree c.mem = Exact.memFree c.mem ∧
      memLargestFree c.mem = Exact.memLargestFree c.mem :=
  exact_arithmetic unset (show Strategies.Fits .best from trivial) (by decide) (by decide) _ (by decide)

end OsLabs.Mymem
