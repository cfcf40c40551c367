import OsLabs.MymemGaps
import OsLabs.MymemNext

/-!
# Next fit with blocks of one size

If all requests are of `k` bytes then all gaps are multiples of `k`, so that
any free block can hold the next request. It remains that the search finds one:
the roving pointer is at a free block, or at the first block of the list, from
which the search sees all of them. Neither the reset of the pointer in a full
pool nor a merge that takes its node away breaks this.
-/

namespace OsLabs.Mymem

/-! ## Where the roving pointer is -/

/-- The pointer is to a free node of the list or to its first node. -/
def Points (next : Option Nat) (l : List MemoryList) : Prop :=
  ∃ b, next = some b.node ∧ (b ∈ l ∧ b.alloc = false ∨ b ∈ l.head?)

theorem Points.swap {next : Option Nat} {pre l l' : List MemoryList} {x y : MemoryList}
    (h : Points next (pre ++ x :: l)) (hn : y.node = x.node) (hy : y.alloc = false)
    (hl : ∀ b ∈ l, b.alloc = false → next = some b.node → b ∈ l' ∨ b.node = y.node) :
    Points next (pre ++ y :: l') := by
  obtain ⟨b, hb, hm⟩ := h
  have hyl : y ∈ pre ++ y :: l' := by simp
  rcases hm with ⟨hm, hf⟩ | hm
  · rcases List.mem_append.mp hm with hm | hm
    · exact ⟨b, hb, Or.inl ⟨List.mem_append_left _ hm, hf⟩⟩
    · rcases List.mem_cons.mp hm with rfl | hm
      · exact ⟨y, by rw [hb, hn], Or.inl ⟨hyl, hy⟩⟩
      · rcases hl b hm hf hb with hm | heq
        · exact ⟨b, hb, Or.inl ⟨by simp [hm], hf⟩⟩
        · exact ⟨y, by rw [hb, heq], Or.inl ⟨hyl, hy⟩⟩
  · cases pre with
    | nil =>
      cases hm
      exact ⟨y, by rw [hb, hn], Or.inl ⟨hyl, hy⟩⟩
    | cons p pre => exact ⟨b, hb, Or.inr hm⟩

theorem roving_some {m : Mem} (h : Points m.next m.head) (hf : ∃ b ∈ m.head, b.alloc = false) :
    ∃ b, roving m = some b := by
  obtain ⟨b, hb, hm⟩ := h
  have hdrop : ∃ x ∈ m.head.dropWhile (fun b => m.next != some b.node), x.alloc = false := by
    rcases hm with ⟨hm, hbf⟩ | hm
    · refine ⟨b, ?_, hbf⟩
      obtain ⟨xs, ys, hl⟩ := List.append_of_mem hm
      have hstop : (b :: ys).dropWhile (fun b => m.next != some b.node) = b :: ys := by simp [hb]
      rw [hl, List.dropWhile_append, hstop]
      split <;> simp
    · obtain ⟨ys, hl⟩ := List.head?_eq_some_iff.mp hm
      have hstop : m.head.dropWhile (fun b => m.next != some b.node) = m.head := by rw [hl]; simp [hb]
      rw [hstop]
      exact hf
  obtain ⟨x, hx, hxf⟩ := hdrop
  unfold roving
  exact Option.isSome_iff_exists.mp (List.find?_isSome.mpr ⟨x, hx, by simp [hxf]⟩)

/-! ## The pointer after an allocation -/

theorem walkNext_mem {head : List MemoryList} {toUse n : Nat} {fuel : Nat} {rest : List MemoryList}
    (hr : ∀ x ∈ rest, x ∈ head) (h : walkNext head toUse fuel rest = some n) :
    ∃ b ∈ head, b.node = n ∧ (b.alloc = false ∨ n = toUse) := by
  induction fuel generalizing rest with
  | zero => cases h
  | succ fuel ih =>
    cases rest with
    | nil => exact ih (fun _ hx => hx) h
    | cons b rest =>
      unfold walkNext at h
      split at h
      · exact ih (fun x hx => hr x (List.mem_cons_of_mem b hx)) h
      · rename_i hstop
        cases h
        refine ⟨b, hr b (by simp), rfl, ?_⟩
        cases hb : b.alloc with
        | false => exact Or.inl rfl
        | true => exact Or.inr (by simpa [hb] using hstop)

theorem updateNext_points {head rest : List MemoryList} {toUse n : Nat} (hr : ∀ x ∈ rest, x ∈ head)
    (h : updateNext head toUse rest = some n) : Points (some n) head := by
  unfold updateNext at h
  split at h
  · cases h
  · rename_i k hw
    obtain ⟨b, hb, rfl, hstop⟩ := walkNext_mem hr hw
    split at h
    · obtain ⟨x, hx, rfl⟩ := Option.map_eq_some_iff.mp h
      exact ⟨x, rfl, Or.inr hx⟩
    · rename_i hne
      cases h
      exact ⟨b, rfl, Or.inl ⟨hb, hstop.resolve_right hne⟩⟩

theorem mymalloc_points {m m' : Mem} {requested p : Nat} (hs : m.myStrategy = .next)
    (hm : mymalloc m requested = some (m', p)) : Points m'.next m'.head := by
  simp only [mymalloc, hs] at hm
  split at hm
  · cases hm
  · rename_i c hc
    simp only [useBlock, hs, ite_true] at hm
    split at hm
    · cases hm
    · rename_i n hn
      cases hm
      refine updateNext_points ?_ hn
      intro x hx
      rcases List.mem_append.mp hx with hx | hx
      · simp [placeBlock, List.mem_of_mem_tail hx]
      · simp [placeBlock, hx]

/-! ## The pointer after a release -/

theorem mergeForward_points {next : Option Nat} {pre after : List MemoryList} {block : MemoryList}
    (hb : block.alloc = false) (h : Points next (pre ++ block :: after)) :
    Points (mergeForward next block after).1
      (pre ++ (mergeForward next block after).2.1 :: (mergeForward next block after).2.2) := by
  induction after generalizing next block with
  | nil => exact h
  | cons tmp rest ih =>
    unfold mergeForward
    split
    · exact h
    · have hgrown : { block with size := toInt (block.size + tmp.size) }.alloc = false := hb
      apply ih hgrown
      by_cases ht : next = some tmp.node
      · simp only [ht, ite_true]
        exact ⟨{ block with size := toInt (block.size + tmp.size) }, rfl, Or.inl ⟨by simp, hb⟩⟩
      · simp only [ht, ite_false]
        refine h.swap rfl hb ?_
        intro x hx hxf hxn
        rcases List.mem_cons.mp hx with rfl | hx
        · exact absurd hxn ht
        · exact Or.inl hx

theorem moveBack_list (before : List MemoryList) (block : MemoryList) (after : List MemoryList)
    (hb : block.alloc = false) : (moveBack before block after).list = before.reverse ++ block :: after := by
  obtain ⟨h1, h2, -⟩ := moveBack_spec before block after hb
  rw [Cursor.list, h1, h2, ← List.append_assoc, ← List.reverse_append, List.takeWhile_append_dropWhile]

theorem mergeBlocks_points {m : Mem} {c : Cursor} (hb : c.block.alloc = false) (h : Points m.next c.list) :
    Points (mergeBlocks m c).next (mergeBlocks m c).head := by
  have hlist := moveBack_list c.before c.block c.after hb
  have hfree := (moveBack_spec c.before c.block c.after hb).2.2
  unfold mergeBlocks
  simp only [hb, Bool.false_eq_true, ite_false]
  apply mergeForward_points hfree
  rw [← Cursor.list, hlist]
  exact h

theorem myfree_points {m : Mem} (h : Points m.next m.head) (p : Nat) :
    Points (myfree m p).next (myfree m p).head := by
  unfold myfree
  split
  · exact h
  · rename_i c hc
    refine mergeBlocks_points (c := { c with block := { c.block with alloc := false } }) rfl ?_
    have hlist : c.list = m.head := seek_list hc
    rw [← hlist] at h
    exact Points.swap h rfl rfl fun b hb _ _ => Or.inl hb

/-! ## One call -/

/-- What a run keeps whose requests are all of `k` bytes, in a pool for `n` of them. -/
structure Uniform (k n pool : Nat) (c : Client) : Prop where
  tracks : Tracks pool (n * k) c
  strategy : c.mem.myStrategy = .next
  sizes : ∀ q ∈ c.live, q.2 = k
  grid : ∀ q ∈ c.live, ∃ i, q.1 = pool + i * k
  next : Points c.mem.next c.mem.head

/-- Requests of `k` bytes while fewer than `n` blocks are live, and releases of
live blocks. -/
def Call.Uniform (k n : Nat) (c : Client) : Call → Prop
  | .malloc requested => requested = k ∧ c.live.length < n
  | .free block => ∃ q ∈ c.live, q.1 = block

section
variable {k n pool : Nat} {c : Client} (h : Uniform k n pool c)
include h

theorem Uniform.live_sum : (c.live.map Prod.snd).sum = c.live.length * k := by
  have hall : ∀ x ∈ c.live.map Prod.snd, x = k := fun x hx => by
    obtain ⟨q, hq, rfl⟩ := List.mem_map.mp hx
    exact h.sizes q hq
  rw [List.sum_eq_card_nsmul _ k hall, List.length_map]
  rfl

theorem Uniform.free_sum :
    ((freeSpans c.mem.blocks).map Prod.snd).sum + (c.live.length * k : Nat) = (n * k : Nat) := by
  have hused : ((usedSpans c.mem.blocks).map Prod.snd).sum = (c.live.length * k : Nat) := by
    rw [(h.tracks.used.map Prod.snd).sum_eq, sum_span, h.live_sum]
  have hall := lengths_eq_spans c.mem.blocks
  rw [h.tracks.inv.lengths_eq, hused] at hall
  omega

theorem Uniform.gap_grid {g : ℤ × ℤ} (hg : IsGap (c.live.map span) pool (pool + (n * k : Nat)) g) :
    (k : ℤ) ∣ g.1 - pool ∧ (k : ℤ) ∣ g.2 := by
  apply IsGap.grid _ _ hg
  · intro q hq
    obtain ⟨r, hr, rfl⟩ := List.mem_map.mp hq
    obtain ⟨i, hi⟩ := h.grid r hr
    refine ⟨by simp [span, h.sizes r hr], i, ?_⟩
    simp only [span, hi]
    push_cast
    ring
  · exact ⟨n, by push_cast; ring⟩

theorem Uniform.free_block (hk : 1 ≤ k) (hlt : c.live.length < n) : ∃ b ∈ c.mem.head, b.alloc = false := by
  have hsum := h.free_sum
  have hmul : c.live.length * k < n * k := Nat.mul_lt_mul_of_pos_right hlt hk
  cases hf : freeSpans c.mem.blocks with
  | nil =>
    rw [hf, List.map_nil, List.sum_nil] at hsum
    omega
  | cons p ps =>
    have hp : p ∈ freeSpans c.mem.blocks := by simp [hf]
    obtain ⟨b, hb, hbf, -⟩ := mem_freeSpans_blocks.mp hp
    exact ⟨b, hb, hbf⟩

theorem Uniform.no_free (hfull : c.live.length = n) : freeSpans c.mem.blocks = [] := by
  have hsum := h.free_sum
  rw [hfull] at hsum
  by_contra hne
  obtain ⟨p, hp⟩ := List.exists_mem_of_ne_nil _ hne
  have hpos : ∀ q ∈ freeSpans c.mem.blocks, 0 < q.2 := fun q hq =>
    h.tracks.inv.positive _ (mem_freeSpans.mp hq)
  have hle := List.single_le_sum (l := (freeSpans c.mem.blocks).map Prod.snd) (fun x hx => by
    obtain ⟨q, hq, rfl⟩ := List.mem_map.mp hx
    exact (hpos q hq).le) p.2 (List.mem_map_of_mem hp)
  have := hpos p hp
  omega

theorem Uniform.roves (hk : 1 ≤ k) (hlt : c.live.length < n) : Roves c.mem k := by
  obtain ⟨b, hb⟩ := roving_some h.next (h.free_block hk hlt)
  obtain ⟨hmem, hf⟩ := roving_mem hb
  have hgap := (h.tracks.gaps _).mp (mem_freeSpans_blocks.mpr ⟨b, hmem, hf, rfl⟩)
  have hpos := h.tracks.inv.size_pos hmem
  exact ⟨b, hb, Int.le_of_dvd hpos (h.gap_grid hgap).2⟩

variable (hk : 1 ≤ k) (hmax : n * k ≤ intMax) (hpool : 0 < pool)
include hk hmax hpool

theorem Uniform.malloc (hlt : c.live.length < n) :
    ∃ m' p, mymalloc c.mem k = some (m', p) ∧
      (∃ len, IsGap (c.live.map span) pool (pool + (n * k : Nat)) ((p : ℤ), len)) ∧
      call c (.malloc k) = some ({ mem := m', live := (p, k) :: c.live }, p) ∧
      Uniform k n pool { mem := m', live := (p, k) :: c.live } := by
  obtain ⟨m', p, hm, ha⟩ := roves_allocates hmax h.tracks h.strategy (h.roves hk hlt)
  obtain ⟨hcall, ht⟩ := h.tracks.allocate hpool hk hm ha
  obtain ⟨xs, b, ys, hb, hf, -, hs, -⟩ := ha.split
  have hgap : IsGap (c.live.map span) pool (pool + (n * k : Nat)) ((p : ℤ), b.len) := by
    rw [← h.tracks.gaps, mem_freeSpans, ← hs, ← hf, hb]
    simp
  have hin := (ht.account hmax).inside (p, k) (by simp)
  have hdvd : k ∣ p - pool := by
    have := (h.gap_grid hgap).1
    rw [← Int.ofNat_sub hin.1] at this
    exact Int.natCast_dvd_natCast.mp this
  obtain ⟨i, hi⟩ := hdvd
  refine ⟨m', p, hm, ⟨b.len, hgap⟩, hcall, ht, ha.strategy.trans h.strategy, ?_, ?_,
    mymalloc_points h.strategy hm⟩
  · exact List.forall_mem_cons.mpr ⟨rfl, h.sizes⟩
  · refine List.forall_mem_cons.mpr ⟨⟨i, ?_⟩, h.grid⟩
    show p = pool + i * k
    rw [Nat.mul_comm]
    omega

omit hk hpool in
theorem Uniform.free (p : Nat) :
    Uniform k n pool { mem := myfree c.mem p, live := c.live.filter fun q => q.1 != p } where
  tracks := free_tracks hmax h.tracks p
  strategy := (myfree_strategy c.mem p).trans h.strategy
  sizes q hq := h.sizes q (List.mem_filter.mp hq).1
  grid q hq := h.grid q (List.mem_filter.mp hq).1
  next := myfree_points h.next p

theorem call_uniform (e : Call) (he : e.Uniform k n c) :
    ∃ c' r, call c e = some (c', r) ∧ Uniform k n pool c' := by
  cases e with
  | malloc requested =>
    obtain ⟨rfl, hlt⟩ := he
    obtain ⟨m', p, -, -, hcall, h'⟩ := h.malloc hk hmax hpool hlt
    exact ⟨_, p, hcall, h'⟩
  | free p => exact ⟨_, null, rfl, h.free hmax p⟩

end

/-! ## Full pools -/

def places (k n pool : Nat) : List Nat := (List.range n).map fun i => pool + i * k

section
variable {k n pool : Nat} {c : Client} (h : Uniform k n pool c) (hk : 1 ≤ k) (hmax : n * k ≤ intMax)
include h hk hmax

theorem Uniform.place {q : Nat × Nat} (hq : q ∈ c.live) : ∃ i < n, q.1 = pool + i * k := by
  obtain ⟨i, hi⟩ := h.grid q hq
  refine ⟨i, ?_, hi⟩
  have hin := (h.tracks.account hmax).inside q hq
  rw [h.sizes q hq, hi] at hin
  have hle : (i + 1) * k ≤ n * k := by
    rw [Nat.succ_mul]
    omega
  exact Nat.le_of_mul_le_mul_right hle hk

theorem Uniform.starts_sub : ∀ p ∈ c.live.map Prod.fst, p ∈ places k n pool := by
  intro p hp
  obtain ⟨q, hq, rfl⟩ := List.mem_map.mp hp
  obtain ⟨i, hi, heq⟩ := h.place hk hmax hq
  exact List.mem_map.mpr ⟨i, List.mem_range.mpr hi, heq.symm⟩

theorem Uniform.full (hfull : c.live.length = n) : (c.live.map Prod.fst).Perm (places k n pool) := by
  have hsub := (h.tracks.account hmax).starts.subperm (h.starts_sub hk hmax)
  exact hsub.perm_of_length_le (by simp [places, hfull])

omit hk in
theorem Uniform.full_holes (hfull : c.live.length = n) : memHoles c.mem = 0 := by
  have := tally_free h.tracks.inv hmax fun _ => true
  rw [h.no_free hfull] at this
  simpa [memHoles] using this

end

/-! ## Runs -/

def refill (k : Nat) (ps : List Nat) : List Call := ps.map .free ++ List.replicate ps.length (.malloc k)

/-- Whatever is freed in a full pool, as many requests get exactly that back. -/
def Refills (k : Nat) (c : Client) : Prop :=
  ∀ ps : List Nat, ps.Nodup → (∀ p ∈ ps, ∃ q ∈ c.live, q.1 = p) → ∃ c' tr, run call c (refill k ps) = some (c', tr) ∧
    ((tr.map Prod.snd).drop ps.length).Perm ps ∧ memHoles c'.mem = 0

theorem gap_place {k j pool p : Nat} (hk : 1 ≤ k) {hi len : ℤ} {live : List (Nat × Nat)}
    (hlive : ∀ q, q ∈ live ↔ ∃ i < j, q = (pool + i * k, k)) (hg : IsGap (live.map span) pool hi ((p : ℤ), len)) :
    p = pool + j * k := by
  have hplace : ∃ i ≤ j, p = pool + i * k := by
    rcases hg.left_end with h0 | ⟨q, hq, hqe⟩
    · exact ⟨0, by omega, by simp only at h0; omega⟩
    · obtain ⟨r, hr, rfl⟩ := List.mem_map.mp hq
      obtain ⟨i, hi, rfl⟩ := (hlive r).mp hr
      refine ⟨i + 1, hi, ?_⟩
      rw [Nat.succ_mul]
      simp only [span] at hqe
      omega
  obtain ⟨i, hi, rfl⟩ := hplace
  have hno := hg.clear _ (le_refl _) (by have := hg.pos; simp only at this ⊢; omega)
  have hij : ¬ i < j := by
    intro hlt
    refine hno ⟨span (pool + i * k, k), List.mem_map_of_mem ((hlive _).mpr ⟨i, hlt, rfl⟩), le_refl _, ?_⟩
    simp only [span]
    omega
  rw [show i = j by omega]

section
variable {k n pool : Nat} (hmax : n * k ≤ intMax)
include hmax

theorem Uniform.frees : ∀ {ps : List Nat} {c : Client}, Uniform k n pool c → ps.Nodup →
    (∀ p ∈ ps, ∃ q ∈ c.live, q.1 = p) → ∃ c' tr, run call c (ps.map .free) = some (c', tr) ∧
      Uniform k n pool c' ∧ tr.length = ps.length ∧ (ps ++ c'.live.map Prod.fst).Perm (c.live.map Prod.fst)
  | [], c, h, _, _ => ⟨c, [], rfl, h, rfl, .refl _⟩
  | p :: ps, c, h, hnd, hlive => by
    obtain ⟨hp, hnd⟩ := List.nodup_cons.mp hnd
    have hnds := (h.tracks.account hmax).starts
    have hrest : ∀ p' ∈ ps, ∃ q ∈ c.live.filter (fun q => q.1 != p), q.1 = p' := by
      intro p' hp'
      obtain ⟨q, hq, hqp⟩ := hlive p' (List.mem_cons_of_mem p hp')
      have hne : q.1 ≠ p := fun heq => hp (heq ▸ hqp ▸ hp')
      exact ⟨q, List.mem_filter.mpr ⟨hq, by simpa using hne⟩, hqp⟩
    obtain ⟨c', tr, hr, h', hlen, hperm⟩ := Uniform.frees (h.free hmax p) hnd hrest
    refine ⟨c', (.free p, null) :: tr, (run_cons call).mpr ⟨_, null, tr, rfl, hr, rfl⟩, h', by simp [hlen], ?_⟩
    have hpm : p ∈ c.live.map Prod.fst := by
      obtain ⟨q, hq, hqp⟩ := hlive p (by simp)
      exact List.mem_map.mpr ⟨q, hq, hqp⟩
    have herase : (c.live.filter fun q => q.1 != p).map Prod.fst = (c.live.map Prod.fst).erase p := by
      rw [hnds.erase_eq_filter, List.filter_map]
      rfl
    rw [herase] at hperm
    exact (hperm.cons p).trans (List.perm_cons_erase hpm).symm

variable (hk : 1 ≤ k) (hpool : 0 < pool)
include hk hpool

theorem Uniform.mallocs : ∀ (j : Nat) {c : Client}, Uniform k n pool c → c.live.length + j ≤ n →
    ∃ c' tr, run call c (List.replicate j (.malloc k)) = some (c', tr) ∧ Uniform k n pool c' ∧
      c'.live.length = c.live.length + j ∧ (c'.live.map Prod.fst).Perm (tr.map Prod.snd ++ c.live.map Prod.fst)
  | 0, c, h, _ => ⟨c, [], rfl, h, rfl, .refl _⟩
  | j + 1, c, h, hle => by
    obtain ⟨m', p, -, -, hcall, h₁⟩ := h.malloc hk hmax hpool (by omega)
    obtain ⟨c', tr, hr, h', hlen, hperm⟩ := Uniform.mallocs j h₁ (by simp only [List.length_cons]; omega)
    refine ⟨c', (.malloc k, p) :: tr, (run_cons call).mpr ⟨_, p, tr, hcall, hr, rfl⟩, h', ?_, ?_⟩
    · simp only [List.length_cons] at hlen
      omega
    · rw [List.map_cons] at hperm
      exact hperm.trans List.perm_middle

theorem Uniform.refills {c : Client} (h : Uniform k n pool c) (hfull : c.live.length = n) : Refills k c := by
  intro ps hnd hlive
  obtain ⟨c₁, tr₁, hr₁, h₁, hlen₁, hperm₁⟩ := Uniform.frees hmax h hnd hlive
  have hcount := hperm₁.length_eq
  simp only [List.length_append, List.length_map] at hcount
  obtain ⟨c₂, tr₂, hr₂, h₂, hlen₂, hperm₂⟩ := Uniform.mallocs hmax hk hpool ps.length h₁ (by omega)
  have hfull₂ : c₂.live.length = n := by omega
  refine ⟨c₂, tr₁ ++ tr₂, run_append hr₁ hr₂, ?_, h₂.full_holes hmax hfull₂⟩
  have hdrop : ((tr₁ ++ tr₂).map Prod.snd).drop ps.length = tr₂.map Prod.snd := by
    rw [List.map_append, List.drop_left' (by simp [hlen₁])]
  rw [hdrop]
  -- both lists complete what is left to the places of a full pool
  have hplaces := (h.full hk hmax hfull).trans (h₂.full hk hmax hfull₂).symm
  exact (List.perm_append_right_iff _).mp (hperm₂.symm.trans (hplaces.symm.trans hperm₁.symm))

omit hpool in
theorem start_uniform (m : Mem) (hn : 1 ≤ n) : Uniform k n pool (start m .next (n * k) pool) where
  tracks := start_tracks m .next hmax (Nat.mul_pos hn hk)
  strategy := rfl
  sizes := by simp [start]
  grid := by simp [start]
  next := ⟨_, rfl, Or.inr rfl⟩

theorem Uniform.fills (m : Mem) (hn : 1 ≤ n) : ∀ j ≤ n, ∃ c tr,
    run call (start m .next (n * k) pool) (List.replicate j (.malloc k)) = some (c, tr) ∧ Uniform k n pool c ∧
      c.live.length = j ∧ (∀ q, q ∈ c.live ↔ ∃ i < j, q = (pool + i * k, k)) ∧
      tr.map Prod.snd = places k j pool := by
  intro j
  induction j with
  | zero => exact fun _ => ⟨_, [], rfl, start_uniform hmax hk m hn, rfl, by simp [start], rfl⟩
  | succ j ih =>
    intro hj
    obtain ⟨c, tr, hr, h, hlen, hlive, htr⟩ := ih (by omega)
    obtain ⟨m', p, -, ⟨len, hgap⟩, hcall, h'⟩ := h.malloc hk hmax hpool (by omega)
    obtain rfl := gap_place hk hlive hgap
    refine ⟨_, tr ++ [(.malloc k, pool + j * k)], ?_, h', by simp [hlen], ?_, ?_⟩
    · rw [List.replicate_succ']
      exact run_snoc hr hcall
    · intro q
      rw [List.mem_cons, hlive]
      constructor
      · intro hq
        rcases hq with rfl | ⟨i, hi, rfl⟩
        · exact ⟨j, by omega, rfl⟩
        · exact ⟨i, by omega, rfl⟩
      · intro hq
        obtain ⟨i, hi, hq⟩ := hq
        rcases Nat.lt_succ_iff_lt_or_eq.mp hi with hi | rfl
        · exact Or.inr ⟨i, hi, hq⟩
        · exact Or.inl hq
    · simp [places, List.range_succ, htr]

/-- Next fit with blocks of one size never fails while there is room: every
request gets a place that is not live, the first ones in order; and a full pool
hands out exactly the places that were freed. -/
theorem next_fit_uniform (m : Mem) (hn : 1 ≤ n) :
    (∀ es, Guarded call (fun c e => e.Uniform k n c) (start m .next (n * k) pool) es →
      ∃ c tr, run call (start m .next (n * k) pool) es = some (c, tr) ∧ Account pool (n * k) c ∧
        memAllocated c.mem = (k * c.live.length : Nat) ∧
        (c.live.length < n → ∃ m' i, mymalloc c.mem k = some (m', memPool c.mem + i * k) ∧ i < n ∧
          ∀ q ∈ c.live, q.1 ≠ memPool c.mem + i * k) ∧
        (c.live.length = n → Refills k c)) ∧
    ∃ c tr, run call (start m .next (n * k) pool) (List.replicate n (.malloc k)) = some (c, tr) ∧
      tr.map Prod.snd = (List.range n).map (fun i => pool + i * k) ∧ c.live.length = n ∧ Refills k c := by
  constructor
  · intro es hes
    obtain ⟨c, tr, hr, h⟩ := run_total (fun _ e h he => call_uniform h hk hmax hpool e he)
      (start_uniform hmax hk m hn) hes
    have hacc := h.tracks.account hmax
    refine ⟨c, tr, hr, hacc, ?_, ?_, h.refills hmax hk hpool⟩
    · rw [hacc.allocated, h.live_sum, Nat.mul_comm]
    · intro hlt
      obtain ⟨m', p, hm, -, -, h'⟩ := h.malloc hk hmax hpool hlt
      obtain ⟨i, hi, hp⟩ := h'.place hk hmax (q := (p, k)) (by simp)
      simp only at hp
      have hstarts := (h'.tracks.account hmax).starts
      rw [List.map_cons, List.nodup_cons] at hstarts
      rw [hacc.memory]
      refine ⟨m', i, by rw [← hp]; exact hm, hi, ?_⟩
      rw [← hp]
      intro q hq heq
      exact hstarts.1 (List.mem_map.mpr ⟨q, hq, heq⟩)
  · obtain ⟨c, tr, hr, h, hlen, -, htr⟩ := Uniform.fills hmax hk hpool m hn n (le_refl n)
    exact ⟨c, tr, hr, htr, hlen, h.refills hmax hk hpool hlen⟩

end

theorem next_fit_uniform_two :
    (∀ es, Guarded call (fun c e => e.Uniform 8 2 c) (start unset .next (2 * 8) 4096) es →
      ∃ c tr, run call (start unset .next (2 * 8) 4096) es = some (c, tr) ∧ Account 4096 (2 * 8) c ∧
        memAllocated c.mem = (8 * c.live.length : Nat) ∧
        (c.live.length < 2 → ∃ m' i, mymalloc c.mem 8 = some (m', memPool c.mem + i * 8) ∧ i < 2 ∧
          ∀ q ∈ c.live, q.1 ≠ memPool c.mem + i * 8) ∧
        (c.live.length = 2 → Refills 8 c)) ∧
    ∃ c tr, run call (start unset .next (2 * 8) 4096) (List.replicate 2 (.malloc 8)) = some (c, tr) ∧
      tr.map Prod.snd = (List.range 2).map (fun i => 4096 + i * 8) ∧ c.live.length = 2 ∧ Refills 8 c :=
  next_fit_uniform (by decide) (by decide) (by decide) unset (by decide)

end OsLabs.Mymem
