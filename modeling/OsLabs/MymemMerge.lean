import OsLabs.MymemHeap
import Mathlib.Data.List.DropRight

/-!
# Merging, on the nodes

`merge_blocks` walks back by `prev` to the first node of a run of free nodes,
then takes the nodes after it out of the list one by one. Each of them leaves a
list that is linked both ways, so the next one is taken out of such a list too.
-/

namespace OsLabs.Mymem.Linked

open DList

/-- The longest run of elements that are not in use around such an element; `f` is its first. -/
theorem exists_run {α : Type*} (used : α → Bool) (pre : List α) {x : α} (hx : used x = false) (post : List α) :
    ∃ xs back fwd ys f rest, pre = xs ++ back ∧ post = fwd ++ ys ∧ back ++ x :: fwd = f :: rest ∧
      (∀ y ∈ f :: rest, used y = false) ∧ (∀ y ∈ xs.getLast?, used y = true) ∧ ∀ y ∈ ys.head?, used y = true := by
  let p : α → Bool := fun y => !used y
  obtain ⟨f, rest, hrun⟩ := List.exists_cons_of_ne_nil
    (List.append_ne_nil_of_right_ne_nil (pre.rtakeWhile p) (List.cons_ne_nil x (post.takeWhile p)))
  refine ⟨pre.rdropWhile p, pre.rtakeWhile p, post.takeWhile p, post.dropWhile p, f, rest,
    List.rdropWhile_append_rtakeWhile.symm, List.takeWhile_append_dropWhile.symm, hrun, ?_, ?_, ?_⟩
  · intro y hy
    rw [← hrun] at hy
    rcases List.mem_append.mp hy with hy | hy
    · simpa [p] using List.mem_rtakeWhile_imp hy
    · rcases List.mem_cons.mp hy with rfl | hy
      · exact hx
      · simpa [p] using List.mem_takeWhile_imp hy
  · intro y hy
    obtain ⟨hne, rfl⟩ := List.mem_getLast?_eq_getLast hy
    simpa [p] using List.rdropWhile_last_not p pre hne
  · intro y hy
    have hhead := List.head?_dropWhile_not p post
    rw [Option.mem_def.mp hy] at hhead
    simpa [p] using hhead

/-- The block that takes over the sizes of the run behind it. -/
def grow (b : Block) (run : List (Nat × Block)) : Block :=
  run.foldl (fun b x => { b with size := toInt (b.size + x.2.size) }) b

/-- A pointer to one of the nodes that are gone is moved to the node that takes their place. -/
def redirect (next : Option Nat) (gone : List Nat) (first : Nat) : Option Nat :=
  if next ∈ gone.map some then some first else next

theorem redirect_cons (next : Option Nat) (tmp : Nat) (gone : List Nat) (first : Nat) :
    redirect (if next = some tmp then some first else next) gone first = redirect next (tmp :: gone) first := by
  unfold redirect
  by_cases h : next = some tmp <;> simp [h]

/-- Additions in `int` are additions, up to the wrap at the end. -/
theorem grow_size {b : Block} (hb : toInt b.size = b.size) (run : List (Nat × Block)) :
    (grow b run).size = toInt (b.size + (run.map fun x => x.2.size).sum) := by
  induction run generalizing b with
  | nil => simpa [grow] using hb.symm
  | cons x run ih =>
    calc (grow b (x :: run)).size
        = toInt (toInt (b.size + x.2.size) + (run.map fun x => x.2.size).sum) := ih (toInt_toInt _)
      _ = toInt (b.size + x.2.size + (run.map fun x => x.2.size).sum) := toInt_add _ _
      _ = toInt (b.size + ((x :: run).map fun x => x.2.size).sum) := by
        rw [List.map_cons, List.sum_cons, Int.add_assoc]

theorem grow_alloc (b : Block) (run : List (Nat × Block)) : (grow b run).alloc = b.alloc := by
  induction run generalizing b with
  | nil => rfl
  | cons x run ih => exact ih _

theorem grow_ptr (b : Block) (run : List (Nat × Block)) : (grow b run).ptr = b.ptr := by
  induction run generalizing b with
  | nil => rfl
  | cons x run ih => exact ih _

section
variable {σ : Store Block} {xs ys : List (Nat × Block)}

theorem moveBack_links {n : Option Nat} {back rest : List (Nat × Block)} {i : Nat} {b : Block}
    (h : Links σ none (xs ++ (back ++ (i, b) :: rest)) n) (hback : ∀ x ∈ back, x.2.alloc = false)
    (hxs : ∀ x ∈ xs.getLast?, x.2.alloc = true) {fuel : Nat} (hf : back.length < fuel) :
    moveBack σ fuel i = firstId (back ++ [(i, b)]) none := by
  induction back using List.reverseRecOn generalizing i b rest fuel with
  | nil =>
    obtain ⟨fuel, rfl⟩ := Nat.exists_eq_add_of_lt hf
    rw [List.nil_append] at h
    rw [moveBack, h.node]
    rcases List.eq_nil_or_concat xs with rfl | ⟨xs, p, rfl⟩
    · rfl
    · rw [List.concat_eq_append] at h hxs ⊢
      rw [List.append_assoc, List.singleton_append] at h
      have hp : p.2.alloc = true := hxs p (by simp)
      simp [lastId_append, h.node, hp]
  | append_singleton back p ih =>
    obtain ⟨fuel, rfl⟩ : ∃ k, fuel = k + 1 := ⟨fuel - 1, by omega⟩
    have hp : p.2.alloc = false := hback p (by simp)
    have hlen : back.length < fuel := by simpa using hf
    have hi := h
    rw [← List.append_assoc] at hi
    rw [List.append_assoc, List.singleton_append] at h
    have hstep := ih h (fun x hx => hback x (List.mem_append_left _ hx)) hlen
    rw [← List.append_assoc] at h
    rw [moveBack, hi.node, ← List.append_assoc, lastId_append]
    simp [h.node, hp, hstep, firstId_append]

theorem mergeForward_links {run : List (Nat × Block)} {i : Nat} {b : Block} (next : Option Nat)
    (h : Links σ none (xs ++ (i, b) :: (run ++ ys)) none) (hd : (ids (xs ++ (i, b) :: (run ++ ys))).Nodup)
    (hrun : ∀ x ∈ run, x.2.alloc = false) (hys : ∀ x ∈ ys.head?, x.2.alloc = true) {fuel : Nat}
    (hf : run.length < fuel) :
    ∃ σ', mergeForward fuel σ next i = some (σ', redirect next (ids run) i) ∧
      Links σ' none (xs ++ (i, grow b run) :: ys) none ∧ (∀ j ∈ ids run, σ'.node j = none) ∧
      σ.Same (i :: (ids run ++ (firstId ys none).toList)) σ' := by
  induction run generalizing σ b next fuel with
  | nil =>
    obtain ⟨fuel, rfl⟩ := Nat.exists_eq_add_of_lt hf
    refine ⟨σ, ?_, h, fun j hj => absurd hj List.not_mem_nil, .refl _ σ⟩
    rw [List.nil_append] at h
    rw [mergeForward, h.node]
    cases ys with
    | nil => rfl
    | cons y ys =>
      have hy : y.2.alloc = true := hys y rfl
      have hnode : σ.node y.1 = some ⟨some i, firstId ys none, y.2⟩ := (links_append.mp h).2.2.1
      simp [hnode, hy, redirect]
  | cons t run ih =>
    obtain ⟨fuel, rfl⟩ : ∃ k, fuel = k + 1 := ⟨fuel - 1, by omega⟩
    obtain ⟨tmp, t⟩ := t
    have ht : t.alloc = false := hrun _ List.mem_cons_self
    rw [List.cons_append] at h hd
    have htmp : σ.node tmp = some ⟨some i, firstId (run ++ ys) none, t⟩ := (links_append.mp h).2.2.1
    obtain ⟨σ₁, hσ₁, h₁, hs₁⟩ := h.setVal hd fun v => { v with size := toInt (v.size + t.size) }
    have hd₁ : (ids (xs ++ (i, { b with size := toInt (b.size + t.size) }) :: (tmp, t) :: (run ++ ys))).Nodup := by
      simpa using hd
    obtain ⟨σ₂, σ₃, hσ₂, hσ₃, h₃, hs₃⟩ := h₁.unlinkNext hd₁
    -- `tmp` itself is not written to before it is freed
    obtain ⟨-, hti, hd₂⟩ := nodup_middle.mp hd₁
    rw [ids_cons, List.mem_cons, not_or] at hti
    obtain ⟨htx, hty, hd₃⟩ := nodup_middle.mp hd₂
    have hs : σ.Same (i :: (firstId (run ++ ys) none).toList) σ₃ := (hs₁.mono (by simp)).trans hs₃
    have htmp₃ := hs.node tmp fun hmem => by
      rcases List.mem_cons.mp hmem with rfl | hmem
      · exact hti.1 rfl
      · exact hty (firstId_toList _ hmem)
    obtain ⟨σ₄, hσ₄, hn₄, hs₄⟩ := Store.free_eq (htmp₃.trans htmp)
    have hd₄ : (ids (xs ++ (i, { b with size := toInt (b.size + t.size) }) :: (run ++ ys))).Nodup := by
      refine nodup_middle.mpr ⟨(nodup_middle.mp hd₁).1, hti.2, hd₃⟩
    have h₄ : Links σ₄ none (xs ++ (i, { b with size := toInt (b.size + t.size) }) :: (run ++ ys)) none := by
      refine h₃.frame hs₄ (List.singleton_disjoint.mpr ?_)
      rw [ids_append, ids_cons, List.mem_append, List.mem_cons, not_or, not_or]
      exact ⟨htx, fun heq => hti.1 heq.symm, hty⟩
    obtain ⟨σ', hσ', h', hgone, hs'⟩ := ih (if next = some tmp then some i else next) h₄ hd₄
      (fun x hx => hrun x (List.mem_cons_of_mem _ hx)) (by simpa using hf)
    refine ⟨σ', ?_, h', ?_, ?_⟩
    · rw [mergeForward, h.node]
      simp [htmp, ht, hσ₁, hσ₂, hσ₃, hσ₄, hσ', redirect_cons]
    · intro j hj
      rcases List.mem_cons.mp hj with rfl | hj
      · refine (hs'.node _ ?_).trans hn₄
        rw [ids_append, List.mem_append, not_or] at hty
        simp only [List.mem_cons, List.mem_append, not_or]
        exact ⟨fun heq => hti.1 heq.symm, hty.1, fun hmem => hty.2 (firstId_toList _ hmem)⟩
      · exact hgone j hj
    · have hfirst : (firstId (run ++ ys) none).toList ⊆ ids run ++ (firstId ys none).toList := by
        rw [firstId_append]
        cases run <;> simp
      have hsub : i :: (firstId (run ++ ys) none).toList ⊆ i :: (ids ((tmp, t) :: run) ++ (firstId ys none).toList) :=
        List.cons_subset_cons _ (List.Subset.trans hfirst (List.subset_cons_self _ _))
      refine ((hs.mono hsub).trans (hs₄.mono (by simp))).trans (hs'.mono ?_)
      exact List.cons_subset_cons _ (List.subset_cons_self _ _)

end

/-- `f` is the first node of the run of free nodes around `i`, and `rest` the nodes after it. -/
theorem mergeBlocks_links {g : Globals} {xs back fwd ys rest : List (Nat × Block)} {f : Nat × Block} {i : Nat}
    {b : Block} (hl : IsList g.store g.head (xs ++ (f :: rest) ++ ys)) (hrun : back ++ (i, b) :: fwd = f :: rest)
    (hfree : ∀ x ∈ f :: rest, x.2.alloc = false) (hxs : ∀ x ∈ xs.getLast?, x.2.alloc = true)
    (hys : ∀ x ∈ ys.head?, x.2.alloc = true) :
    ∃ σ, mergeBlocks g i = some { g with store := σ, next := redirect g.next (ids rest) f.1 } ∧
      IsList σ g.head (xs ++ (f.1, grow f.2 rest) :: ys) ∧ (∀ j ∈ ids rest, σ.node j = none) ∧
      g.store.Same (f.1 :: (ids rest ++ (firstId ys none).toList)) σ := by
  obtain ⟨hhead, h, hd⟩ := hl
  have hlen := h.length_le hd
  rw [List.append_assoc, List.cons_append] at h hd hhead
  have hfuel : rest.length < g.fuel := by
    simp only [List.length_append, List.length_cons] at hlen
    unfold Globals.fuel
    omega
  have hback : back.length < g.fuel := by
    have := congrArg List.length hrun
    simp only [List.length_append, List.length_cons] at this
    omega
  obtain ⟨σ, hσ, hl', hgone, hs⟩ := mergeForward_links g.next h hd
    (fun x hx => hfree x (List.mem_cons_of_mem _ hx)) hys hfuel
  refine ⟨σ, ?_, ⟨?_, hl', ?_⟩, hgone, hs⟩
  · have hwalk : xs ++ f :: (rest ++ ys) = xs ++ (back ++ (i, b) :: (fwd ++ ys)) := by
      rw [← List.cons_append, ← hrun, List.append_assoc, List.cons_append]
    have hb : b.alloc = false := hfree (i, b) (hrun ▸ by simp)
    have hfirst : moveBack g.store g.fuel i = some f.1 := by
      rw [moveBack_links (hwalk ▸ h) (fun x hx => hfree x (hrun ▸ List.mem_append_left _ hx)) hxs
        hback]
      cases back <;> cases hrun <;> rfl
    have hi := h
    rw [hwalk, ← List.append_assoc] at hi
    simp [mergeBlocks, hi.node, hb, hfirst, hσ]
  · exact hhead.trans (firstId_middle _ _ _ _ _ _ _)
  · obtain ⟨hfx, hfy, hd⟩ := nodup_middle.mp hd
    rw [ids_append, List.mem_append, not_or] at hfy
    refine nodup_middle.mpr ⟨hfx, hfy.2, hd.sublist ?_⟩
    rw [ids_append, ids_append, ids_append]
    exact (List.Sublist.refl _).append (List.sublist_append_right _ _)

theorem owned_merged {σ σ' : Store Block} {xs ys rest : List (Nat × Block)} {f : Nat × Block} {b : Block}
    (h : Owned σ (xs ++ (f :: rest) ++ ys)) (hs : σ.Same (f.1 :: (ids rest ++ (firstId ys none).toList)) σ')
    (hgone : ∀ j ∈ ids rest, σ'.node j = none) : Owned σ' (xs ++ (f.1, b) :: ys) := by
  intro i n hn
  have hrest : i ∉ ids rest := fun hi => Option.some_ne_none n (hn.symm.trans (hgone i hi))
  rw [ids_append, ids_cons, List.mem_append, List.mem_cons]
  by_cases hi : i ∈ f.1 :: (ids rest ++ (firstId ys none).toList)
  · rcases List.mem_cons.mp hi with hi | hi
    · exact Or.inr (Or.inl hi)
    · exact Or.inr (Or.inr (firstId_toList ys ((List.mem_append.mp hi).resolve_left hrest)))
  · have hold := h i n (hs.node i hi ▸ hn)
    simp only [ids_append, ids_cons, List.mem_append, List.mem_cons] at hold
    rcases hold with (hold | hold | hold) | hold
    · exact Or.inl hold
    · exact Or.inr (Or.inl hold)
    · exact absurd hold hrest
    · exact Or.inr (Or.inr hold)

end OsLabs.Mymem.Linked
