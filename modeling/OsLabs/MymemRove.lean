import OsLabs.MymemUniform

/-!
# Next fit keeps its roving pointer in the list

The pointer is to a free node or to the first node of the list after every call,
also when a request was larger than the block it got. From there the search
finds a free block if there is one, and the walk after an allocation comes back
to the block just used when it has met no free block on its way round.
-/

namespace OsLabs.Mymem

/-! ## The walk after an allocation -/

/-- The walk over a part of the list that does not hold the block just used. -/
theorem walkNext_along (head rest : List MemoryList) {toUse : Nat} {xs : List MemoryList}
    (hxs : ∀ x ∈ xs, x.node ≠ toUse) (fuel : Nat) :
    walkNext head toUse (fuel + xs.length) (xs ++ rest) =
      match xs.find? (fun b => !b.alloc) with
      | some b => some b.node
      | none => walkNext head toUse fuel rest := by
  induction xs with
  | nil => rfl
  | cons x xs ih =>
    obtain ⟨hx, hxs⟩ := List.forall_mem_cons.mp hxs
    rw [List.cons_append, List.length_cons, ← Nat.add_assoc, walkNext, List.find?_cons]
    cases x.alloc with
    | false => rfl
    | true => simpa [hx] using ih hxs

/-- The first free block after the one just used, in cyclic order. -/
def nextFree (pre post : List MemoryList) : Option MemoryList := (post ++ pre).find? fun b => !b.alloc

theorem updateNext_eq {pre post : List MemoryList} {b : MemoryList} (hb : b.alloc = true)
    (hpre : ∀ x ∈ pre, x.node ≠ b.node) (hpost : ∀ x ∈ post, x.node ≠ b.node) :
    updateNext (pre ++ b :: post) b.node post =
      match nextFree pre post with
      | some x => some x.node
      | none => (pre ++ b :: post).head?.map (·.node) := by
  have hwalk : walkNext (pre ++ b :: post) b.node (2 * (pre ++ b :: post).length + 2) post =
      match nextFree pre post with
      | some x => some x.node
      | none => some b.node := by
    obtain ⟨k, hk⟩ : ∃ k, 2 * (pre ++ b :: post).length + 2 = (k + 1 + pre.length) + 1 + post.length := by
      refine ⟨pre.length + post.length + 2, ?_⟩
      rw [List.length_append, List.length_cons]
      omega
    have hround := walkNext_along (pre ++ b :: post) [] hpost (k + 1 + pre.length + 1)
    rw [List.append_nil] at hround
    rw [hk, hround, nextFree, List.find?_append]
    cases post.find? fun b => !b.alloc with
    | some x => rfl
    | none =>
      rw [walkNext, walkNext_along _ _ hpre, walkNext]
      cases pre.find? fun b => !b.alloc with
      | some x => rfl
      | none => simp [hb]
  rw [updateNext, hwalk]
  cases hn : nextFree pre post with
  | none => simp
  | some x =>
    have hx : x.node ≠ b.node := by
      rcases List.mem_append.mp (List.mem_of_find?_eq_some hn) with h | h
      · exact hpost x h
      · exact hpre x h
    simp [hx]

/-! ## The nodes of the list -/

/-- No two nodes of the list are the same, and `malloc` returns none of them again. -/
structure Distinct (m : Mem) : Prop where
  nodup : (m.head.map (·.node)).Nodup
  below : ∀ b ∈ m.head, b.node < m.fresh

theorem Distinct.sublist {m m' : Mem} (h : Distinct m) (hf : m'.fresh = m.fresh)
    (hs : (m'.head.map (·.node)).Sublist (m.head.map (·.node))) : Distinct m' where
  nodup := h.nodup.sublist hs
  below b hb := by
    obtain ⟨x, hx, hn⟩ := List.mem_map.mp (hs.subset (List.mem_map_of_mem hb))
    rw [hf, ← hn]
    exact h.below x hx

theorem mergeForward_nodes (next : Option Nat) (block : MemoryList) (after : List MemoryList) :
    (((mergeForward next block after).2.1 :: (mergeForward next block after).2.2).map (·.node)).Sublist
      ((block :: after).map (·.node)) := by
  induction after generalizing next block with
  | nil => exact List.Sublist.refl _
  | cons tmp rest ih =>
    unfold mergeForward
    split
    · exact List.Sublist.refl _
    · exact (ih _ _).trans (List.cons_sublist_cons.mpr (List.sublist_cons_self _ _))

theorem mergeBlocks_nodes (m : Mem) {c : Cursor} (hb : c.block.alloc = false) :
    ((mergeBlocks m c).head.map (·.node)).Sublist (c.list.map (·.node)) := by
  have hlist := moveBack_list c.before c.block c.after hb
  unfold mergeBlocks
  simp only [hb, Bool.false_eq_true, ite_false]
  rw [Cursor.list, ← hlist, Cursor.list, List.map_append, List.map_append]
  exact (List.Sublist.refl _).append (mergeForward_nodes _ _ _)

theorem mergeBlocks_fresh (m : Mem) (c : Cursor) : (mergeBlocks m c).fresh = m.fresh := by
  unfold mergeBlocks
  split <;> rfl

theorem Distinct.myfree {m : Mem} (h : Distinct m) (p : Nat) : Distinct (myfree m p) := by
  unfold Mymem.myfree
  split
  · exact h
  · rename_i c hc
    have hlist : c.list = m.head := seek_list hc
    refine h.sublist (mergeBlocks_fresh _ _) ?_
    refine (mergeBlocks_nodes m (c := { c with block := { c.block with alloc := false } }) rfl).trans ?_
    rw [← hlist]
    simp [Cursor.list]

/-- The node that is used keeps its place and its address; what is left over is a fresh node behind it. -/
theorem carve_shape (requested fresh : Nat) (b : MemoryList) :
    ∃ b' xs, b.carve requested fresh = b' :: xs ∧ b'.node = b.node ∧ b'.alloc = true ∧ b'.ptr = b.ptr ∧
      (xs = [] ∨ xs.map (·.node) = [fresh]) := by
  unfold MemoryList.carve
  split
  · exact ⟨_, _, rfl, rfl, rfl, rfl, Or.inl rfl⟩
  · exact ⟨_, _, rfl, rfl, rfl, rfl, Or.inr rfl⟩

theorem Distinct.place {m : Mem} (h : Distinct m) {c : Cursor} (hc : c.list = m.head) (requested : Nat) :
    Distinct (placeBlock m requested c) := by
  obtain ⟨b', xs, hcarve, hn, -, -, hxs⟩ := carve_shape requested m.fresh c.block
  have hperm : ((placeBlock m requested c).head.map (·.node)).Perm (xs.map (·.node) ++ m.head.map (·.node)) := by
    rw [← hc, Cursor.list, List.perm_iff_count]
    intro n
    simp only [placeBlock, hcarve, List.map_append, List.map_cons, List.count_append, List.count_cons, hn]
    omega
  have hfresh : m.fresh ∉ m.head.map (·.node) := by
    intro hmem
    obtain ⟨x, hx, hxf⟩ := List.mem_map.mp hmem
    have := h.below x hx
    omega
  have hbelow : ∀ n ∈ m.head.map (·.node), n < m.fresh := by
    intro n hmem
    obtain ⟨x, hx, rfl⟩ := List.mem_map.mp hmem
    exact h.below x hx
  have hlen : (placeBlock m requested c).fresh = m.fresh + xs.length := by rw [placeBlock, hcarve]; rfl
  constructor
  · rw [hperm.nodup_iff]
    obtain rfl | hxs := hxs
    · exact h.nodup
    · rw [hxs]
      exact List.nodup_cons.mpr ⟨hfresh, h.nodup⟩
  · intro b hb
    have hmem := hperm.subset (List.mem_map_of_mem hb)
    rw [hlen]
    obtain rfl | hxs := hxs
    · exact hbelow _ hmem
    · have hone : xs.length = 1 := by simpa using congrArg List.length hxs
      rw [hxs] at hmem
      rcases List.mem_cons.mp hmem with hbn | hbn
      · omega
      · have := hbelow _ hbn
        omega

/-! ## Calls -/

/-- What every run of next fit keeps, however large its requests are. -/
structure Rover (m : Mem) : Prop where
  strategy : m.myStrategy = .next
  distinct : Distinct m
  points : Points m.next m.head

theorem start_rover (m : Mem) (sz pool : Nat) : Rover (start m .next sz pool).mem where
  strategy := rfl
  distinct := by
    refine ⟨List.nodup_singleton _, ?_⟩
    intro b hb
    rw [List.mem_singleton.mp hb]
    exact Nat.lt_succ_self _
  points := ⟨_, rfl, Or.inr rfl⟩

theorem Rover.myfree {m : Mem} (h : Rover m) (p : Nat) : Rover (myfree m p) :=
  ⟨(myfree_strategy m p).trans h.strategy, h.distinct.myfree p, myfree_points h.points p⟩

/-- The search of next fit sees a free block if there is one. -/
theorem Rover.searchNext {m : Mem} (h : Rover m) (hf : ∃ b ∈ m.head, b.alloc = false) :
    ∃ toUse, searchNext m = some toUse ∧ toUse.list = m.head ∧ toUse.block.alloc = false := by
  obtain ⟨b, hb⟩ := roving_some h.points hf
  have hr := searchNext_roving m
  rw [hb] at hr
  obtain ⟨toUse, hs, hblock⟩ := Option.map_eq_some_iff.mp hr
  exact ⟨toUse, hs, searchNext_list hs, (roving_mem (hblock ▸ hb)).2⟩

/-- The block just used, and where the pointer is after it. -/
structure Rounds (toUse : Cursor) (m' : Mem) (pre : List MemoryList) (b : MemoryList) (post : List MemoryList) :
    Prop where
  list : m'.head = pre ++ b :: post
  node : b.node = toUse.block.node
  used : b.alloc = true
  next : m'.next = match nextFree pre post with
    | some x => some x.node
    | none => m'.head.head?.map (·.node)

theorem Rover.mymalloc {m : Mem} (h : Rover m) (requested : Nat) {toUse : Cursor}
    (hs : Mymem.searchNext m = some toUse) :
    ∃ m' pre b post, mymalloc m requested = some (m', b.ptr) ∧ Rounds toUse m' pre b post ∧ Rover m' := by
  obtain ⟨b', xs, hcarve, hn, hu, hp, -⟩ := carve_shape requested m.fresh toUse.block
  have hd := h.distinct.place (searchNext_list hs) requested
  have hhead : (placeBlock m requested toUse).head = toUse.before.reverse ++ b' :: (xs ++ toUse.after) := by
    simp [placeBlock, hcarve]
  have hnodup := hd.nodup
  rw [hhead, List.map_append, List.map_cons, List.nodup_append, List.nodup_cons] at hnodup
  obtain ⟨-, ⟨hpost, -⟩, hpre⟩ := hnodup
  have hnext := updateNext_eq hu
    (fun x hx => hpre x.node (List.mem_map_of_mem hx) b'.node List.mem_cons_self)
    (fun x hx heq => hpost (heq ▸ List.mem_map_of_mem hx))
  rw [← hhead, hn] at hnext
  obtain ⟨n, hn'⟩ :
      ∃ n, updateNext (placeBlock m requested toUse).head toUse.block.node (xs ++ toUse.after) = some n := by
    rw [hnext]
    cases nextFree toUse.before.reverse (xs ++ toUse.after) with
    | some x => exact ⟨x.node, rfl⟩
    | none =>
      have hne : (placeBlock m requested toUse).head ≠ [] := by
        rw [hhead]
        exact List.append_ne_nil_of_right_ne_nil _ (List.cons_ne_nil _ _)
      exact ⟨_, by rw [List.head?_eq_some_head hne]; rfl⟩
  have hm : Mymem.mymalloc m requested = some ({ placeBlock m requested toUse with next := some n }, b'.ptr) := by
    simp only [Mymem.mymalloc, h.strategy, hs, useBlock, ite_true, hcarve, List.tail_cons, hn', hp]
  refine ⟨_, toUse.before.reverse, b', xs ++ toUse.after, hm, ⟨hhead, hn, hu, hn'.symm.trans hnext⟩, ?_⟩
  exact ⟨h.strategy, ⟨hd.nodup, hd.below⟩, mymalloc_points h.strategy hm⟩

/-! ## Runs -/

/-- A request while a block is free, however large, or any release. -/
def Call.WhileFree (c : Client) : Call → Prop
  | .malloc requested => 1 ≤ requested ∧ ∃ b ∈ c.mem.head, b.alloc = false
  | .free _ => True

instance (c : Client) (e : Call) : Decidable (e.WhileFree c) :=
  match e with
  | .malloc requested => inferInstanceAs (Decidable (1 ≤ requested ∧ ∃ b ∈ c.mem.head, b.alloc = false))
  | .free _ => .isTrue trivial

theorem call_rover {c : Client} (e : Call) (h : Rover c.mem) (he : e.WhileFree c) :
    ∃ c' r, call c e = some (c', r) ∧ Rover c'.mem := by
  cases e with
  | malloc requested =>
    obtain ⟨toUse, hs, -, -⟩ := h.searchNext he.2
    obtain ⟨m', pre, b, post, hm, -, hr⟩ := h.mymalloc requested hs
    exact ⟨_, _, by simp only [call, hm]; rfl, hr⟩
  | free p => exact ⟨_, null, rfl, h.myfree p⟩

/-- In every run of next fit the pointer is to a node of the list that is free or
first; the next search ends at a free block if there is one, and the walk after
it ends at the next free block round the list, or at the first one. -/
theorem next_fit_roves (m : Mem) (sz pool : Nat) (es : List Call)
    (hes : Guarded call (fun c e => e.WhileFree c) (start m .next sz pool) es) :
    ∃ c tr, run call (start m .next sz pool) es = some (c, tr) ∧ (c.mem.head.map (·.node)).Nodup ∧
      (∃ b ∈ c.mem.head, c.mem.next = some b.node ∧ (b.alloc = false ∨ c.mem.head.head? = some b)) ∧
      ((∃ b ∈ c.mem.head, b.alloc = false) →
        ∃ toUse, searchNext c.mem = some toUse ∧ toUse.list = c.mem.head ∧ toUse.block.alloc = false ∧
          ∀ requested, 1 ≤ requested → ∃ m' pre b post, mymalloc c.mem requested = some (m', b.ptr) ∧
            Rounds toUse m' pre b post) := by
  obtain ⟨c, tr, hr, h⟩ := run_total (I := fun c => Rover c.mem) (fun _ e h he => call_rover e h he)
    (start_rover m sz pool) hes
  refine ⟨c, tr, hr, h.distinct.nodup, ?_, ?_⟩
  · obtain ⟨b, hb, hm | hm⟩ := h.points
    · exact ⟨b, hm.1, hb, Or.inl hm.2⟩
    · exact ⟨b, List.mem_of_head? hm, hb, Or.inr hm⟩
  · intro hf
    obtain ⟨toUse, hs, hl, ha⟩ := h.searchNext hf
    refine ⟨toUse, hs, hl, ha, ?_⟩
    intro requested _
    obtain ⟨m', pre, b, post, hm, hb, -⟩ := h.mymalloc requested hs
    exact ⟨m', pre, b, post, hm, hb⟩

/-- A request larger than the pool, one more, and a release of the first. -/
theorem next_fit_roves_over :
    ∃ c tr, run call (start unset .next 10 4096) [.malloc 20, .malloc 5, .free 4096] = some (c, tr) ∧
      (c.mem.head.map (·.node)).Nodup ∧
      (∃ b ∈ c.mem.head, c.mem.next = some b.node ∧ (b.alloc = false ∨ c.mem.head.head? = some b)) ∧
      ((∃ b ∈ c.mem.head, b.alloc = false) →
        ∃ toUse, searchNext c.mem = some toUse ∧ toUse.list = c.mem.head ∧ toUse.block.alloc = false ∧
          ∀ requested, 1 ≤ requested → ∃ m' pre b post, mymalloc c.mem requested = some (m', b.ptr) ∧
            Rounds toUse m' pre b post) :=
  next_fit_roves unset 10 4096 _ (by decide)

end OsLabs.Mymem
