import OsLabs.MymemPolicy

/-!
# What `mem_is_alloc` says of each byte of the pool

The function looks for a block that starts at the address it is given and
answers for that block. It is right about the first byte of every block and
about every free byte, and wrong about all other bytes of an allocation.
-/

namespace OsLabs.Mymem

def Client.Holds (c : Client) (p : Nat) : Prop := ∃ q ∈ c.live, q.1 ≤ p ∧ p < q.1 + q.2

/-- The byte lies in a live allocation, after its first byte. -/
def Client.Interior (c : Client) (p : Nat) : Prop := ∃ q ∈ c.live, q.1 < p ∧ p < q.1 + q.2

def Client.Bytewise (c : Client) : Prop := ∀ q ∈ c.live, q.2 = 1

/-- The number of bytes of the pool that `mem_is_alloc` calls allocated. -/
def allocatedBytes (m : Mem) (sz : Nat) : Nat := (List.range sz).countP fun i => memIsAlloc m (memPool m + i)

/-- `mem_is_alloc` is right about every byte of the pool, so that the bytes it
calls allocated are as many as `mem_allocated` says. -/
structure Truthful (pool sz : Nat) (c : Client) : Prop where
  byte : ∀ p, pool ≤ p → p < pool + sz → (memIsAlloc c.mem p = true ↔ c.Holds p)
  count : (allocatedBytes c.mem sz : Int) = memAllocated c.mem

/-! ## The answer is about block starts -/

theorem memIsAlloc_iff {m : Mem} {p : Nat} (hu : ∀ x ∈ m.head, ∀ y ∈ m.head, x.ptr = y.ptr → x.seg = y.seg) :
    memIsAlloc m p = true ↔ ∃ b ∈ m.head, b.alloc = true ∧ b.ptr = p := by
  unfold memIsAlloc
  cases hs : seek (fun b => b.ptr == p) [] m.head with
  | none =>
    have hno := seek_none hs
    simp only [Bool.false_eq_true, false_iff]
    intro ⟨b, hb, _, hp⟩
    have := hno b hb
    simp [hp] at this
  | some c =>
    obtain ⟨xs, hl, -, -, hptr⟩ := seek_some hs
    have hmem : c.block ∈ m.head := by rw [hl]; simp
    have hptr' : c.block.ptr = p := by simpa using hptr
    constructor
    · exact fun ha => ⟨c.block, hmem, ha, hptr'⟩
    · intro ⟨b, hb, ha, hp⟩
      have hseg : c.block.alloc = b.alloc := congrArg Seg.used (hu c.block hmem b hb (hptr'.trans hp.symm))
      exact hseg.trans ha

/-- What decides the answers: the account of the run, and the starts of what is live. -/
structure Answers (pool sz : Nat) (c : Client) : Prop where
  account : Account pool sz c
  starts : ∀ p, memIsAlloc c.mem p = true ↔ ∃ q ∈ c.live, q.1 = p
  positive : ∀ q ∈ c.live, 0 < q.2

theorem Tracks.answers {pool sz : Nat} (hsz : sz ≤ intMax) {c : Client} (h : Tracks pool sz c) :
    Answers pool sz c := by
  have hu : ∀ x ∈ c.mem.head, ∀ y ∈ c.mem.head, x.ptr = y.ptr → x.seg = y.seg := by
    intro x hx y hy hxy
    apply h.inv.tiles.start_inj h.inv.positive (mem_blocks hx) (mem_blocks hy)
    simp [MemoryList.seg, hxy]
  have hlive : ∀ q ∈ c.live, ⟨q.1, q.2, true⟩ ∈ c.mem.blocks := fun q hq =>
    mem_usedSpans.mp (h.used.mem_iff.mpr (List.mem_map_of_mem hq))
  refine ⟨h.account hsz, fun p => ?_, fun q hq => by simpa using h.inv.positive _ (hlive q hq)⟩
  rw [memIsAlloc_iff hu]
  constructor
  · intro hb
    obtain ⟨b, hb, ha, hp⟩ := hb
    have hspan : ((b.ptr : ℤ), b.size) ∈ usedSpans c.mem.blocks := by
      rw [mem_usedSpans, ← ha]
      exact mem_blocks hb
    obtain ⟨q, hq, heq⟩ := List.mem_map.mp (h.used.mem_iff.mp hspan)
    have := congrArg Prod.fst heq
    simp only [span] at this
    exact ⟨q, hq, by omega⟩
  · intro hq
    obtain ⟨q, hq, hp⟩ := hq
    obtain ⟨b, hb, heq⟩ := List.mem_map.mp (hlive q hq)
    simp only [MemoryList.seg, Seg.mk.injEq] at heq
    exact ⟨b, hb, heq.2.2, by omega⟩

theorem Hollow.answers {pool : Nat} {c : Client} (h : Hollow pool c) : Answers pool 0 c := by
  obtain ⟨b, hb, hs⟩ := h.head
  have hfree : b.alloc = false := congrArg Seg.used hs
  refine ⟨h.account, fun p => ?_, by simp [h.live]⟩
  rw [memIsAlloc_iff (by simp [hb]), hb, h.live]
  simp [hfree]

theorem sum_eq_length_iff {l : List (Nat × Nat)} (hl : ∀ q ∈ l, 0 < q.2) :
    (l.map Prod.snd).sum = l.length ↔ ∀ q ∈ l, q.2 = 1 := by
  induction l with
  | nil => simp
  | cons q l ih =>
    obtain ⟨hq, hl⟩ := List.forall_mem_cons.mp hl
    have hle := List.length_le_sum_of_one_le (l.map Prod.snd) fun n hn => by
      obtain ⟨r, hr, rfl⟩ := List.mem_map.mp hn
      exact hl r hr
    rw [List.length_map] at hle
    rw [List.map_cons, List.sum_cons, List.length_cons, List.forall_mem_cons, ← ih hl]
    omega

theorem Sound.answers {pool sz : Nat} {strategy : Strategies} (hsz : sz ≤ intMax) {c : Client}
    (h : Sound pool sz strategy c) : Answers pool sz c := by
  rcases h.blocks with ht | ⟨rfl, hh⟩
  · exact ht.answers hsz
  · exact hh.answers

section
variable {pool sz : Nat} {c : Client} (h : Answers pool sz c)
include h

theorem Answers.apart {q q' : Nat × Nat} (hq : q ∈ c.live) (hq' : q' ∈ c.live) (hne : q ≠ q') :
    q.1 + q.2 ≤ q'.1 ∨ q'.1 + q'.2 ≤ q.1 := by
  have : Std.Symm fun p q : Nat × Nat => p.1 + p.2 ≤ q.1 ∨ q.1 + q.2 ≤ p.1 := ⟨fun _ _ => Or.symm⟩
  exact h.account.disjoint.forall hq hq' hne

theorem Answers.byte_iff (p : Nat) : (memIsAlloc c.mem p = true ↔ c.Holds p) ↔ ¬ c.Interior p := by
  rw [h.starts p]
  constructor
  · intro hiff ⟨q, hq, hlt, hin⟩
    obtain ⟨q', hq', hp⟩ := hiff.mpr ⟨q, hq, hlt.le, hin⟩
    have hne : q ≠ q' := fun heq => by rw [heq, hp] at hlt; exact lt_irrefl _ hlt
    have := h.apart hq hq' hne
    have := h.positive q' hq'
    omega
  · intro hno
    constructor
    · intro ⟨q, hq, hp⟩
      have := h.positive q hq
      exact ⟨q, hq, hp.le, by omega⟩
    · intro ⟨q, hq, hle, hin⟩
      refine ⟨q, hq, ?_⟩
      by_contra hne
      exact hno ⟨q, hq, by omega, hin⟩

theorem Answers.bytes_iff : (∀ p, pool ≤ p → p < pool + sz → (memIsAlloc c.mem p = true ↔ c.Holds p)) ↔
    c.Bytewise := by
  constructor
  · intro hall q hq
    have hin := h.account.inside q hq
    have hpos := h.positive q hq
    by_contra hne
    -- the second byte of the allocation
    have hno := (h.byte_iff (q.1 + 1)).mp (hall (q.1 + 1) (by omega) (by omega))
    exact hno ⟨q, hq, by omega, by omega⟩
  · intro hone p _ _
    apply (h.byte_iff p).mpr
    intro ⟨q, hq, hlt, hin⟩
    have := hone q hq
    omega

theorem Answers.allocatedBytes_eq : allocatedBytes c.mem sz = c.live.length := by
  have hperm : (((List.range sz).filter fun i => memIsAlloc c.mem (pool + i)).map (pool + ·)).Perm
      (c.live.map Prod.fst) := by
    refine (List.perm_ext_iff_of_nodup ?_ h.account.starts).mpr fun p => ?_
    · exact (List.nodup_range.filter _).map fun i j hij => by omega
    · simp only [List.mem_map, List.mem_filter, List.mem_range]
      constructor
      · intro ⟨i, ⟨_, ha⟩, hp⟩
        obtain ⟨q, hq, hqp⟩ := (h.starts _).mp ha
        exact ⟨q, hq, hqp.trans hp⟩
      · intro ⟨q, hq, hp⟩
        have hin := h.account.inside q hq
        have hpos := h.positive q hq
        have hsum : pool + (p - pool) = p := by omega
        exact ⟨p - pool, ⟨by omega, by rw [hsum]; exact (h.starts p).mpr ⟨q, hq, hp⟩⟩, hsum⟩
  have := hperm.length_eq
  rw [List.length_map, List.length_map] at this
  rw [allocatedBytes, h.account.memory, List.countP_eq_length_filter, this]

theorem Answers.count_iff : (allocatedBytes c.mem sz : Int) = memAllocated c.mem ↔ c.Bytewise := by
  rw [h.allocatedBytes_eq, h.account.allocated, Client.Bytewise, ← sum_eq_length_iff h.positive]
  omega

theorem Answers.truthful_iff : Truthful pool sz c ↔ c.Bytewise :=
  ⟨fun ht => h.bytes_iff.mp ht.byte, fun hb => ⟨h.bytes_iff.mpr hb, h.count_iff.mpr hb⟩⟩

end

/-! ## Runs -/

/-- A request that is not served, or is for one byte; and any release. -/
def Call.Bytewise (c : Client) : Call → Prop
  | .malloc requested => requested = 1 ∨ memLargestFree c.mem < requested
  | .free _ => True

theorem call_bytewise {pool sz : Nat} {strategy : Strategies} {c c' : Client} {e : Call} {r : Nat} (he : e.Valid)
    (hpol : ∀ requested, 1 ≤ requested → Policy pool sz strategy c requested) (hc : call c e = some (c', r))
    (hb : c.Bytewise) : e.Bytewise c ↔ c'.Bytewise := by
  cases e with
  | free p =>
    cases hc
    exact ⟨fun _ q hq => hb q (List.mem_filter.mp hq).1, fun _ => trivial⟩
  | malloc requested =>
    have hp := hpol requested he.1
    simp only [call] at hc
    split at hc
    · cases hc
    · rename_i m' p hm
      by_cases hnull : p = null
      · rw [hnull] at hm hc
        cases hc
        exact ⟨fun _ => hb, fun _ => Or.inr (hp.null.mp ⟨m', hm⟩)⟩
      · have hge : ¬ memLargestFree c.mem < requested := by
          intro hlt
          obtain ⟨m₂, hm₂⟩ := hp.null.mpr hlt
          rw [hm] at hm₂
          exact hnull (Prod.mk.inj (Option.some.inj hm₂)).2
        simp only [hnull, ite_false] at hc
        cases hc
        constructor
        · intro h1 q hq
          rcases List.mem_cons.mp hq with rfl | hq
          · exact h1.resolve_right hge
          · exact hb q hq
        · exact fun hall => Or.inl (hall (_, requested) List.mem_cons_self)

/-- In every run `mem_is_alloc` is right about a byte exactly if the byte is not
an inner one of a live allocation, and right about the whole pool exactly if all
allocations are of one byte. -/
theorem memIsAlloc_truthful (m : Mem) {strategy : Strategies} (hs : strategy.Fits) {sz pool : Nat}
    (hsz : sz ≤ intMax) (hpool : 0 < pool) (es : List Call) (hes : ∀ e ∈ es, e.Valid) :
    ∃ c tr, run call (start m strategy sz pool) es = some (c, tr) ∧
      (∀ p, (memIsAlloc c.mem p = true ↔ c.Holds p) ↔ ¬ c.Interior p) ∧
      ((∀ p, pool ≤ p → p < pool + sz → (memIsAlloc c.mem p = true ↔ c.Holds p)) ↔ c.Bytewise) ∧
      ((allocatedBytes c.mem sz : Int) = memAllocated c.mem ↔ c.Bytewise) ∧
      (Throughout call (Truthful pool sz) (start m strategy sz pool) es ↔
        Guarded call (fun c e => e.Bytewise c) (start m strategy sz pool) es) := by
  obtain ⟨c, tr, hr, hc⟩ := run_sound hs hsz m hpool es hes
  have hans := hc.answers hsz
  refine ⟨c, tr, hr, hans.byte_iff, hans.bytes_iff, hans.count_iff, ?_⟩
  have hstart := start_sound hs hsz m pool
  have hlive : Client.Bytewise (start m strategy sz pool) := fun q hq => by simp [start] at hq
  rw [guarded_iff_throughout_of (I := Sound pool sz strategy) ?_ ?_ hstart (guarded_of_forall _ hes)
    ((hstart.answers hsz).truthful_iff.mpr hlive) hr]
  · intro c e c' r h he hcall
    obtain ⟨c₂, r₂, hcall₂, h'⟩ := call_sound hs hsz hpool c e h he
    rw [hcall] at hcall₂
    cases hcall₂
    exact h'
  · intro c e c' r h he htruth hcall
    obtain ⟨c₂, r₂, hcall₂, h'⟩ := call_sound hs hsz hpool c e h he
    rw [hcall] at hcall₂
    cases hcall₂
    rw [(h'.answers hsz).truthful_iff]
    exact call_bytewise he (fun _ h1 => h.policy hs hsz hpool h1) hcall ((h.answers hsz).truthful_iff.mp htruth)

theorem memIsAlloc_truthful_best :
    ∃ c tr, run call (start unset .best 100 4096) [.malloc 1, .malloc 2, .free 4096] = some (c, tr) ∧
      (∀ p, (memIsAlloc c.mem p = true ↔ c.Holds p) ↔ ¬ c.Interior p) ∧
      ((∀ p, 4096 ≤ p → p < 4096 + 100 → (memIsAlloc c.mem p = true ↔ c.Holds p)) ↔ c.Bytewise) ∧
      ((allocatedBytes c.mem 100 : Int) = memAllocated c.mem ↔ c.Bytewise) ∧
      (Throughout call (Truthful 4096 100) (start unset .best 100 4096) [.malloc 1, .malloc 2, .free 4096] ↔
        Guarded call (fun c e => e.Bytewise c) (start unset .best 100 4096) [.malloc 1, .malloc 2, .free 4096]) :=
  memIsAlloc_truthful unset (show Strategies.Fits .best from trivial) (by decide) (by decide) _ (by decide)

theorem memIsAlloc_second_byte :
    ∃ c tr, run call (start unset .first 100 4096) [.malloc 2] = some (c, tr) ∧ c.Holds 4097 ∧
      memIsAlloc c.mem 4097 = false ∧ (allocatedBytes c.mem 100 : Int) = 1 ∧ memAllocated c.mem = 2 := by
  refine ⟨_, _, rfl, ⟨(4096, 2), by decide, by decide, by decide⟩, by decide, by decide, by decide⟩

end OsLabs.Mymem
