import Mathlib.Data.List.Perm.Basic
import OsLabs.Buffer

/-!
# The shared buffer is a bounded queue or stack

The array is always the stored items followed by `-1` cells, and each critical
section acts on the stored items as on a list: `add_to` appends or puts in
front, `pop` takes the front. What is added and taken over a whole run is then
a fact about that list.
-/

namespace OsLabs.P3

/-! ## The shifting loops -/

theorem store_of_lt {data : List Int} {i : Nat} (h : i < data.length) (v : Int) :
    store data i v = some (data.set i v) := by
  simp [store, h]

theorem shiftUp_spec : ∀ (i : Nat) (data : List Int), i < data.length →
    ∃ d, shiftUp data i = some d ∧ ∀ j : Nat, d[j]? = if 1 ≤ j ∧ j ≤ i then data[j - 1]? else data[j]?
  | 0, data, _ => ⟨data, rfl, fun j => by rw [if_neg (by omega)]⟩
  | i + 1, data, h => by
    obtain ⟨x, hi⟩ : ∃ x, data[i]? = some x := ⟨_, List.getElem?_eq_getElem (by omega)⟩
    obtain ⟨d, hd, hj⟩ := shiftUp_spec i (data.set (i + 1) x) (by simp; omega)
    refine ⟨d, by simp only [shiftUp, hi, store_of_lt h, hd], ?_⟩
    intro j
    rw [hj]
    simp only [List.getElem?_set]
    by_cases hj1 : j = i + 1
    · subst hj1
      simp [hi, h]
    · by_cases hji : 1 ≤ j ∧ j ≤ i
      · rw [if_pos hji, if_neg (by omega), if_pos (by omega)]
      · rw [if_neg hji, if_neg (by omega), if_neg (by omega)]

theorem shiftDown_spec : ∀ (n i : Nat) (data : List Int), i + n < data.length →
    ∃ d, shiftDown data i n = some d ∧ ∀ j : Nat, d[j]? = if i ≤ j ∧ j < i + n then data[j + 1]? else data[j]?
  | 0, i, data, _ => ⟨data, rfl, fun j => by rw [if_neg (by omega)]⟩
  | n + 1, i, data, h => by
    obtain ⟨x, hi⟩ : ∃ x, data[i + 1]? = some x := ⟨_, List.getElem?_eq_getElem (by omega)⟩
    obtain ⟨d, hd, hj⟩ := shiftDown_spec n (i + 1) (data.set i x) (by simp; omega)
    refine ⟨d, by simp only [shiftDown, hi, store_of_lt (show i < data.length by omega), hd], ?_⟩
    intro j
    rw [hj]
    simp only [List.getElem?_set]
    by_cases hji : j = i
    · subst hji
      rw [if_neg (by omega), if_pos rfl, if_pos (by omega), if_pos (by omega), hi]
    · by_cases hj1 : i + 1 ≤ j ∧ j < i + 1 + n
      · rw [if_pos hj1, if_neg (by omega), if_pos (by omega)]
      · rw [if_neg hj1, if_neg (by omega), if_neg (by omega)]

theorem firstFree_append {items rest : List Int} (h : ∀ x ∈ items, 0 ≤ x) (i : Nat) :
    firstFree (items ++ -1 :: rest) i = some (i + items.length) := by
  induction items generalizing i with
  | nil => simp [firstFree]
  | cons x items ih =>
    have hx : x ≠ -1 := by have := h x (by simp); omega
    rw [List.cons_append, firstFree, if_pos hx, ih fun y hy => h y (List.mem_cons_of_mem x hy)]
    simp only [List.length_cons, Option.some.injEq]
    omega

/-! ## Packed arrays -/

/-- The array holds `items`, then only `-1`. -/
structure Packed (data items : List Int) : Prop where
  eq : data = items ++ List.replicate (bufferSize - items.length) (-1)
  le : items.length ≤ bufferSize
  nonneg : ∀ x ∈ items, 0 ≤ x

theorem Packed.length {data items : List Int} (h : Packed data items) : data.length = bufferSize := by
  have := h.le
  rw [h.eq]
  simp only [List.length_append, List.length_replicate]
  omega

theorem packed_cell {items : List Int} (hle : items.length ≤ bufferSize) (j : Nat) :
    (items ++ List.replicate (bufferSize - items.length) (-1))[j]? =
      if j < items.length then items[j]? else if j < bufferSize then some (-1) else none := by
  rw [List.getElem?_append]
  by_cases hj : j < items.length
  · rw [if_pos hj, if_pos hj]
  · rw [if_neg hj, if_neg hj, List.getElem?_replicate]
    by_cases hb : j < bufferSize
    · rw [if_pos hb, if_pos (by omega)]
    · rw [if_neg hb, if_neg (by omega)]

theorem Packed.getElem? {data items : List Int} (h : Packed data items) (j : Nat) :
    data[j]? = if j < items.length then items[j]? else if j < bufferSize then some (-1) else none := by
  rw [h.eq, packed_cell h.le]

theorem packed_of_getElem? {data items : List Int} (hle : items.length ≤ bufferSize) (hn : ∀ x ∈ items, 0 ≤ x)
    (h : ∀ j : Nat, data[j]? = if j < items.length then items[j]? else if j < bufferSize then some (-1) else none) :
    Packed data items :=
  ⟨List.ext_getElem? fun j => by rw [h, packed_cell hle], hle, hn⟩

theorem packed_nil : Packed (List.replicate bufferSize (-1)) [] :=
  ⟨by simp, by simp, by simp⟩

theorem Packed.isEmpty_iff {buff : Buffer} {items : List Int} (h : Packed buff.data items) :
    isEmpty buff = true ↔ items = [] := by
  rw [isEmpty, beq_iff_eq, h.getElem?]
  cases items with
  | nil => simp [bufferSize]
  | cons x items =>
    have := h.nonneg x (by simp)
    have hx : x ≠ -1 := by omega
    simp [hx]

theorem Packed.isFull_iff {buff : Buffer} {items : List Int} (h : Packed buff.data items) :
    isFull buff = true ↔ items.length = bufferSize := by
  have hle := h.le
  rw [isFull, bne_iff_ne, h.getElem?]
  by_cases hl : bufferSize - 1 < items.length
  · have hx := h.nonneg items[bufferSize - 1] (List.getElem_mem hl)
    rw [if_pos hl, List.getElem?_eq_getElem hl]
    refine ⟨fun _ => by omega, ?_⟩
    intro _ he
    rw [Option.some.inj he] at hx
    omega
  · rw [if_neg hl, if_pos (by decide)]
    have hb : 0 < bufferSize := by decide
    simp only [ne_eq, not_true_eq_false, false_iff]
    omega

/-- What adding `value` to the stored items gives, by the mode of the buffer. -/
def addItem (stack : Int) (items : List Int) (value : Int) : List Int :=
  if stack ≠ 0 then value :: items else items ++ [value]

theorem addData_packed {data items : List Int} (h : Packed data items) (hl : items.length < bufferSize)
    (stack : Int) {value : Int} (hv : 0 ≤ value) :
    ∃ data', addData stack data value = some data' ∧ Packed data' (addItem stack items value) := by
  have hlen := h.length
  unfold addData addItem
  by_cases hs : stack ≠ 0
  · rw [if_pos hs, if_pos hs]
    obtain ⟨d, hd, hj⟩ := shiftUp_spec (bufferSize - 1) data (by rw [hlen]; decide)
    have hdl : d.length = bufferSize := by rw [shiftUp_length hd, hlen]
    refine ⟨d.set 0 value, by simp only [hd, store_of_lt (show 0 < d.length by rw [hdl]; decide)], ?_⟩
    apply packed_of_getElem? (by simp only [List.length_cons]; omega) (by simpa using ⟨hv, h.nonneg⟩)
    intro j
    cases j with
    | zero => simp [hdl, bufferSize]
    | succ j =>
      simp only [List.getElem?_set, Nat.zero_ne_add_one, ite_false, hj, h.getElem?, List.length_cons,
        Nat.add_sub_cancel, List.getElem?_cons_succ, Nat.add_lt_add_iff_right]
      by_cases hb : j + 1 < bufferSize
      · rw [if_pos (by omega), if_pos hb, if_pos (show j < bufferSize by omega)]
      · rw [if_neg (by omega), if_neg (by omega), if_neg hb, if_neg (by omega)]
  · rw [if_neg hs, if_neg hs]
    have hk : bufferSize - items.length = (bufferSize - items.length - 1) + 1 := by omega
    have hf : firstFree data 0 = some items.length := by
      rw [h.eq, hk, List.replicate_succ, firstFree_append h.nonneg, Nat.zero_add]
    refine ⟨data.set items.length value, by simp only [hf, store_of_lt (show items.length < data.length by omega)], ?_⟩
    refine packed_of_getElem? (by simp only [List.length_append, List.length_singleton]; omega) ?_ ?_
    · intro x hx
      rcases List.mem_append.mp hx with hx | hx
      · exact h.nonneg x hx
      · simp only [List.mem_singleton] at hx; rw [hx]; exact hv
    · intro j
      rw [List.getElem?_set, h.getElem?, List.getElem?_append, List.length_append, List.length_singleton]
      by_cases hj : items.length = j
      · subst hj
        simp [hlen, hl]
      · rw [if_neg hj]
        by_cases hji : j < items.length
        · rw [if_pos hji, if_pos (by omega), if_pos hji]
        · rw [if_neg hji, if_neg (show ¬ j < items.length + 1 by omega)]

theorem popData_packed {data items : List Int} {v : Int} (h : Packed data (v :: items)) :
    ∃ data', popData data = some (data', v) ∧ Packed data' items := by
  have hlen := h.length
  have hle : items.length + 1 ≤ bufferSize := by simpa using h.le
  have h0 : data[0]? = some v := by rw [h.getElem?]; simp
  obtain ⟨d, hd, hj⟩ := shiftDown_spec (bufferSize - 1) 0 data (by rw [hlen]; decide)
  have hdl : d.length = bufferSize := by rw [shiftDown_length hd, hlen]
  have hlt : bufferSize - 1 < d.length := by rw [hdl]; decide
  refine ⟨d.set (bufferSize - 1) (-1), by simp only [popData, h0, hd, store_of_lt hlt], ?_⟩
  apply packed_of_getElem? (by omega) (fun x hx => h.nonneg x (List.mem_cons_of_mem v hx))
  intro j
  rw [List.getElem?_set]
  by_cases hj9 : bufferSize - 1 = j
  · rw [if_pos hj9, if_pos hlt, if_neg (by omega), if_pos (by omega)]
  · rw [if_neg hj9, hj]
    by_cases hb : j < bufferSize
    · rw [if_pos (by omega), h.getElem?]
      simp only [List.length_cons, List.getElem?_cons_succ, Nat.add_lt_add_iff_right]
      rw [if_pos (show j + 1 < bufferSize by omega), if_pos hb]
    · rw [if_neg (by omega), h.getElem?, if_neg (by simp; omega), if_neg hb, if_neg (by omega)]

/-! ## Critical sections act on the stored items -/

/-- The container the buffer stands for, as a list of its items. -/
def itemsStep (stack : Int) (P C : Nat) : StepFn (List Int) (Section P C) Line
  | items, .producer _ toBuffer =>
    if items.length = bufferSize then some (items, .full)
    else some (addItem stack items toBuffer, .added toBuffer)
  | [], .consumer _ => some ([], .empty)
  | v :: items, .consumer _ => some (items, .taken v)

def Holds (stack : Int) (buff : Buffer) (items : List Int) : Prop :=
  buff.stack = stack ∧ Packed buff.data items

theorem addTo_holds {stack : Int} {buff : Buffer} {items : List Int} (h : Holds stack buff items)
    (hl : items.length < bufferSize) {value : Int} (hv : 0 ≤ value) :
    ∃ b, addTo buff value = some b ∧ Holds stack b (addItem stack items value) := by
  obtain ⟨hs, hp⟩ := h
  obtain ⟨data, hd, hp'⟩ := addData_packed hp hl buff.stack hv
  refine ⟨{ buff with data := data, cells := hp'.length }, ?_, hs, hs ▸ hp'⟩
  unfold addTo
  split
  · rename_i hn
    rw [hd] at hn
    cases hn
  · rename_i data' hd'
    rw [hd] at hd'
    cases hd'
    rfl

theorem pop_holds {stack v : Int} {buff : Buffer} {items : List Int} (h : Holds stack buff (v :: items)) :
    ∃ b, pop buff = some (b, v) ∧ Holds stack b items := by
  obtain ⟨hs, hp⟩ := h
  obtain ⟨data, hd, hp'⟩ := popData_packed hp
  refine ⟨{ buff with data := data, cells := hp'.length }, ?_, hs, hp'⟩
  unfold pop
  split
  · rename_i hn
    rw [hd] at hn
    cases hn
  · rename_i data' r hd'
    rw [hd] at hd'
    cases hd'
    rfl

theorem critical_sim {stack : Int} {P C : Nat} (buff : Buffer) (items : List Int) (e : Section P C)
    (h : Holds stack buff items) (he : e.NonNeg) :
    ∃ b items' r, critical P C buff e = some (b, r) ∧ itemsStep stack P C items e = some (items', r) ∧
      Holds stack b items' := by
  cases e with
  | producer t v =>
    by_cases hf : items.length = bufferSize
    · exact ⟨buff, items, .full, by simp only [critical, h.2.isFull_iff.mpr hf, ite_true],
        by simp only [itemsStep, hf, ite_true], h⟩
    · have hle := h.2.le
      obtain ⟨b, hb, hb'⟩ := addTo_holds h (by omega) he
      have hnf : isFull buff = false := by
        rw [← Bool.not_eq_true, h.2.isFull_iff]; exact hf
      exact ⟨b, _, .added v, by simp [critical, hnf, hb], by simp only [itemsStep, hf, ite_false], hb'⟩
  | consumer t =>
    cases items with
    | nil => exact ⟨buff, [], .empty, by simp only [critical, h.2.isEmpty_iff.mpr rfl, ite_true], rfl, h⟩
    | cons v items =>
      obtain ⟨b, hb, hb'⟩ := pop_holds h
      have hne : isEmpty buff = false := by
        rw [← Bool.not_eq_true, h.2.isEmpty_iff]; simp
      exact ⟨b, items, .taken v, by simp [critical, hne, hb], rfl, hb'⟩

/-! ## What is added and taken over a run -/

section
variable {P C : Nat}

def added (tr : List (Section P C × Line)) : List Int :=
  tr.filterMap fun
    | (_, .added v) => some v
    | _ => none

def taken (tr : List (Section P C × Line)) : List Int :=
  tr.filterMap fun
    | (_, .taken v) => some v
    | _ => none

/-- The items added and not yet taken, the latest first. -/
def untaken (tr : List (Section P C × Line)) : List Int :=
  tr.foldl (fun l x => match x.2 with
    | .added v => v :: l
    | .taken v => l.erase v
    | _ => l) []

/-- Every item taken is the latest of those added and not yet taken. -/
def LastInFirstOut (tr : List (Section P C × Line)) : Prop :=
  ∀ tr₁ e v tr₂, tr = tr₁ ++ (e, .taken v) :: tr₂ → (untaken tr₁).head? = some v

theorem added_snoc (tr : List (Section P C × Line)) (e : Section P C) (r : Line) :
    added (tr ++ [(e, r)]) = added tr ++ (match r with | .added v => [v] | _ => []) := by
  cases r <;> simp [added]

theorem taken_snoc (tr : List (Section P C × Line)) (e : Section P C) (r : Line) :
    taken (tr ++ [(e, r)]) = taken tr ++ (match r with | .taken v => [v] | _ => []) := by
  cases r <;> simp [taken]

theorem untaken_snoc (tr : List (Section P C × Line)) (e : Section P C) (r : Line) :
    untaken (tr ++ [(e, r)]) = (match r with
      | .added v => v :: untaken tr
      | .taken v => (untaken tr).erase v
      | _ => untaken tr) := by
  simp only [untaken, List.foldl_append, List.foldl_cons, List.foldl_nil]

theorem lastInFirstOut_snoc {tr : List (Section P C × Line)} {e : Section P C} {r : Line}
    (h : LastInFirstOut tr) (hr : ∀ v, r = .taken v → (untaken tr).head? = some v) :
    LastInFirstOut (tr ++ [(e, r)]) := by
  intro tr₁ e' v tr₂ heq
  rcases snoc_split heq with ⟨tr₃, -, htr⟩ | ⟨hlast, rfl⟩
  · exact h tr₁ e' v tr₃ htr
  · exact hr v (Prod.mk.inj hlast).2.symm

/-- What a section does after `tr`: a producer adds its item unless the buffer
is full, and a consumer takes one unless it is empty. -/
def Acts (tr : List (Section P C × Line)) : Section P C → Line → Prop
  | .producer _ v, r => r = if (added tr).length = (taken tr).length + bufferSize then .full else .added v
  | .consumer _, r => if (added tr).length = (taken tr).length then r = .empty else ∃ v, r = .taken v

/-- What the items of the list-level container have to do with its history. -/
structure History (stack : Int) (items : List Int) (tr : List (Section P C × Line)) : Prop where
  queue : stack = 0 → added tr = taken tr ++ items
  stack : stack ≠ 0 → items = untaken tr ∧ LastInFirstOut tr
  perm : (added tr).Perm (taken tr ++ items)
  acts : ∀ tr₁ e r tr₂, tr = tr₁ ++ (e, r) :: tr₂ → Acts tr₁ e r

theorem history_nil (stack : Int) : History (P := P) (C := C) stack [] [] :=
  ⟨fun _ => rfl, fun _ => ⟨rfl, fun tr₁ e v tr₂ h => by simp at h⟩, .refl _, fun tr₁ e r tr₂ h => by simp at h⟩

theorem History.acts_now {stack : Int} {items items' : List Int} {tr : List (Section P C × Line)} {e : Section P C}
    {r : Line} (h : History stack items tr) (hs : itemsStep stack P C items e = some (items', r)) : Acts tr e r := by
  have hlen := h.perm.length_eq
  rw [List.length_append] at hlen
  cases e with
  | producer t v =>
    have hfull : (added tr).length = (taken tr).length + bufferSize ↔ items.length = bufferSize := by omega
    simp only [itemsStep] at hs
    split at hs
    · rename_i hf
      cases hs
      exact (if_pos (hfull.mpr hf)).symm
    · rename_i hf
      cases hs
      exact (if_neg (hfull.not.mpr hf)).symm
  | consumer t =>
    cases items with
    | nil =>
      cases hs
      exact (if_pos hlen).mpr rfl
    | cons v items =>
      cases hs
      rw [List.length_cons] at hlen
      exact (if_neg (by omega)).mpr ⟨v, rfl⟩

theorem history_step {stack : Int} {items items' : List Int} {tr : List (Section P C × Line)}
    {e : Section P C} {r : Line} (h : History stack items tr)
    (hs : itemsStep stack P C items e = some (items', r)) : History stack items' (tr ++ [(e, r)]) := by
  have hacts : ∀ tr₁ e' r' tr₂, tr ++ [(e, r)] = tr₁ ++ (e', r') :: tr₂ → Acts tr₁ e' r' := by
    intro tr₁ e' r' tr₂ heq
    rcases snoc_split heq with ⟨tr₃, -, htr⟩ | ⟨hlast, rfl⟩
    · exact h.acts tr₁ e' r' tr₃ htr
    · cases hlast
      exact h.acts_now hs
  cases e with
  | producer t v =>
    simp only [itemsStep] at hs
    split at hs <;> cases hs
    · exact ⟨fun h0 => by simpa [added_snoc, taken_snoc] using h.queue h0,
        fun h0 => ⟨by simpa [untaken_snoc] using (h.stack h0).1,
          lastInFirstOut_snoc (h.stack h0).2 (by simp)⟩,
        by simpa [added_snoc, taken_snoc] using h.perm, hacts⟩
    · refine ⟨?_, fun h0 => ⟨?_, lastInFirstOut_snoc (h.stack h0).2 (by simp)⟩, ?_, hacts⟩
      · intro h0
        simp [added_snoc, taken_snoc, h.queue h0, addItem, h0]
      · simp [untaken_snoc, addItem, h0, ← (h.stack h0).1]
      · simp only [added_snoc, taken_snoc, List.append_nil]
        have hp : (addItem stack items v).Perm (items ++ [v]) := by
          unfold addItem
          split
          · exact (List.perm_append_singleton v items).symm
          · exact .refl _
        apply (h.perm.append_right [v]).trans
        rw [List.append_assoc]
        exact hp.symm.append_left (taken tr)
  | consumer t =>
    cases items with
    | nil =>
      cases hs
      exact ⟨fun h0 => by simpa [added_snoc, taken_snoc] using h.queue h0,
        fun h0 => ⟨by simpa [untaken_snoc] using (h.stack h0).1,
          lastInFirstOut_snoc (h.stack h0).2 (by simp)⟩,
        by simpa [added_snoc, taken_snoc] using h.perm, hacts⟩
    | cons v items =>
      cases hs
      refine ⟨?_, fun h0 => ⟨?_, lastInFirstOut_snoc (h.stack h0).2 ?_⟩, ?_, hacts⟩
      · intro h0
        simp [added_snoc, taken_snoc, h.queue h0]
      · simp [untaken_snoc, ← (h.stack h0).1]
      · rintro w ⟨⟩
        rw [← (h.stack h0).1, List.head?_cons]
      · simpa [added_snoc, taken_snoc] using h.perm

end

/-! ## Any number of threads, any order of critical sections -/

/-- The buffer `buff` after the history `tr`, with the stored items `items`. -/
structure Account {P C : Nat} (stack : Int) (buff : Buffer) (tr : List (Section P C × Line))
    (items : List Int) : Prop where
  cells : buff.data = items ++ List.replicate (bufferSize - items.length) (-1)
  bounded : items.length ≤ bufferSize
  nonneg : ∀ x ∈ items, 0 ≤ x
  lossless : (added tr).Perm (taken tr ++ items)
  queue : stack = 0 → added tr = taken tr ++ items
  stack : stack ≠ 0 → items = untaken tr ∧ LastInFirstOut tr
  acts : ∀ tr₁ e r tr₂, tr = tr₁ ++ (e, r) :: tr₂ → Acts tr₁ e r
  empty : isEmpty buff = true ↔ items.length = 0
  full : isFull buff = true ↔ items.length = bufferSize

theorem account_run {P C : Nat} {stack : Int} {buff : Buffer} {items : List Int} {es : List (Section P C)}
    {tr : List (Section P C × Line)} (hi : run (itemsStep stack P C) [] es = some (items, tr)) (h : Holds stack buff items) :
    Account stack buff tr items := by
  have hist : History stack items ([] ++ tr) :=
    run_hist (fun _ _ _ _ _ h _ hs => history_step h hs) (history_nil stack) (guarded_true _ es) hi
  exact ⟨h.2.eq, h.2.le, h.2.nonneg, hist.perm, hist.queue, hist.stack, hist.acts,
    h.2.isEmpty_iff.trans List.length_eq_zero_iff.symm, h.2.isFull_iff⟩

/-- No critical section leaves the array or searches it without end, each one
adds or takes an item exactly when it can, and the stored items account for
everything added and taken so far. -/
theorem buffer_account (P C : Nat) (stack : Int) (es : List (Section P C)) (hes : ∀ e ∈ es, e.NonNeg) :
    ∃ buff tr items, run (critical P C) (mainBuffer stack) es = some (buff, tr) ∧
      Account stack buff tr items := by
  have h0 : Holds stack (mainBuffer stack) [] := ⟨rfl, packed_nil⟩
  obtain ⟨buff, items, tr, hr, hi, hh⟩ :=
    run_sim critical_sim h0 (guarded_of_forall _ hes)
  exact ⟨buff, tr, items, hr, account_run hi hh⟩

theorem buffer_account_stack : (∀ e ∈ [Section.producer (0 : Fin 2) 7, .producer 1 7, .consumer (0 : Fin 1)],
      e.NonNeg) ∧
    ∃ buff tr items, run (critical 2 1) (mainBuffer 1) [.producer 0 7, .producer 1 7, .consumer 0] =
      some (buff, tr) ∧ Account 1 buff tr items :=
  ⟨by decide, buffer_account 2 1 1 _ (by decide)⟩

end OsLabs.P3
