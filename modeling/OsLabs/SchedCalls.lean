import OsLabs.Monitor
import OsLabs.SchedElemsSound

/-!
# Calls of several threads on one list of the scheduler

The functions of `list.c` and the wrappers of `sched_impl.c` as code that makes
one access to a field, or one call of `malloc` or `free`, at a step. Any number
of threads call the wrappers of one list at the same time.
-/

namespace OsLabs.Sched.Linked

open DList

/-! ## Accesses -/

/-- Reads the pointer, and bounds the loop that starts from it. -/
def readHead : Prog ListT (Option Nat × Nat) := .act fun lst => some (lst, lst.head, lst.fuel)

def readTail : Prog ListT (Option Nat) := .act fun lst => some (lst, lst.tail)

def writeHead (ptr : Option Nat) : Prog ListT Unit := .act fun lst => some ({ lst with head := ptr }, ())

def writeTail (ptr : Option Nat) : Prog ListT Unit := .act fun lst => some ({ lst with tail := ptr }, ())

def readElem {α : Type} (elt : Nat) (field : Node Nat → α) : Prog ListT α := .act fun lst =>
  (lst.store.node elt).map fun n => (lst, field n)

def writeElem (f : Store Nat → Option (Store Nat)) : Prog ListT Unit := .act fun lst =>
  (f lst.store).map fun σ => ({ lst with store := σ }, ())

/-- A write through a pointer that has just been read. -/
def writePtr (ptr : Option Nat) (f : Store Nat → Nat → Option (Store Nat)) : Prog ListT Unit :=
  ptr.elim .fail fun elt => writeElem (f · elt)

def mallocElem : Prog ListT Nat := .act fun lst => some (newElem lst blank, lst.store.fresh)

/-! ## `list.c` -/

def countCode : (fuel : Nat) → (count : Int) → (elt : Option Nat) → Prog ListT Int
  | 0, _, _ => .fail
  | _ + 1, count, none => pure count
  | fuel + 1, count, some elt => do
    let next ← readElem elt (·.next)
    countCode fuel (toInt (count + 1)) next

def listSizeCode : Prog ListT Int := do
  let (elt, fuel) ← readHead
  countCode fuel 0 elt

def listElemInitCode (elt datum : Nat) : Prog ListT Unit := do
  writeElem (·.setNext elt none)
  writeElem (·.setPrev elt none)
  writeElem (·.setVal elt fun _ => datum)

def listInsertHeadCode (elt : Nat) : Prog ListT Unit := do
  match ← readHead with
  | (none, _) =>
    writeElem (·.setNext elt none)
    writeElem (·.setPrev elt none)
    writeTail (some elt)
    writeHead (some elt)
  | (some _, _) =>
    writeElem (·.setPrev elt none)
    let (head, _) ← readHead
    writeElem (·.setNext elt head)
    let (head, _) ← readHead
    if head.isSome then
      let (head, _) ← readHead
      writePtr head (·.setPrev · (some elt))
    writeHead (some elt)

def listInsertTailCode (elt : Nat) : Prog ListT Unit := do
  match ← readTail with
  | none =>
    writeElem (·.setNext elt none)
    writeElem (·.setPrev elt none)
    writeTail (some elt)
    writeHead (some elt)
  | some _ =>
    let tail ← readTail
    writeElem (·.setPrev elt tail)
    let tail ← readTail
    if tail.isSome then
      let tail ← readTail
      writePtr tail (·.setNext · (some elt))
    writeElem (·.setNext elt none)
    writeTail (some elt)

/-- The first half of `list_remove_elem`: what leads to the element from the front. -/
def unlinkPrevCode (elt : Nat) : Prog ListT Unit := do
  match ← readElem elt (·.prev) with
  | some prev => do
    let next ← readElem elt (·.next)
    writeElem (·.setNext prev next)
  | none => do
    let (head, _) ← readHead
    if head = some elt then do
      let next ← readElem elt (·.next)
      writeHead next
    else pure ()

def unlinkNextCode (elt : Nat) : Prog ListT Unit := do
  match ← readElem elt (·.next) with
  | some next => do
    let prev ← readElem elt (·.prev)
    writeElem (·.setPrev next prev)
  | none => do
    let tail ← readTail
    if tail = some elt then do
      let prev ← readElem elt (·.prev)
      writeTail prev
    else pure ()

def listRemoveElemCode (elt : Nat) : Prog ListT Unit := do
  unlinkPrevCode elt
  unlinkNextCode elt
  writeElem (·.setPrev elt none)
  writeElem (·.setNext elt none)

/-! ## `sched_impl.c`, between `sem_wait` and `sem_post` -/

/-- `while(elt != NULL)` up to the element with the datum. -/
def seekCode (datum : Nat) : (fuel : Nat) → (elt : Option Nat) → Prog ListT (Option Nat)
  | 0, _ => .fail
  | _ + 1, none => pure none
  | fuel + 1, some elt => do
    let d ← readElem elt (·.val)
    if d == datum then pure (some elt)
    else
      let next ← readElem elt (·.next)
      seekCode datum fuel next

inductive Call
  | insertItemHead (datum : Nat)
  | insertItemTail (datum : Nat)
  | peekItemHead
  | peekItemTail
  | eltInList (datum : Nat)
  | findInList (datum : Nat)
  | removeItem (datum : Nat)
  | wrapperSize
  deriving DecidableEq

def callCode : Call → Prog ListT Result
  | .insertItemHead datum => do
    let elt ← mallocElem
    listElemInitCode elt datum
    listInsertHeadCode elt
    pure .void
  | .insertItemTail datum => do
    let elt ← mallocElem
    listElemInitCode elt datum
    listInsertTailCode elt
    pure .void
  | .peekItemHead => do
    let (elt, _) ← readHead
    pure (.elem elt)
  | .peekItemTail => do
    let elt ← readTail
    pure (.elem elt)
  | .eltInList datum => do
    let (elt, fuel) ← readHead
    let elt ← seekCode datum fuel elt
    pure (.int (if elt.isSome then 1 else 0))
  | .findInList datum => do
    let (elt, fuel) ← readHead
    let elt ← seekCode datum fuel elt
    pure (.elem elt)
  | .removeItem datum => do
    let (elt, fuel) ← readHead
    match ← seekCode datum fuel elt with
    | none => pure .void
    | some elt =>
      listRemoveElemCode elt
      writeElem (·.free elt)
      pure .void
  | .wrapperSize => do
    let size ← listSizeCode
    pure (.int size)

def Call.op : Call → Op
  | .insertItemHead datum => .insertItemHead datum
  | .insertItemTail datum => .insertItemTail datum
  | .peekItemHead => .peekItemHead
  | .peekItemTail => .peekItemTail
  | .eltInList datum => .eltInList datum
  | .findInList datum => .findInList datum
  | .removeItem datum => .removeItem datum
  | .wrapperSize => .wrapperSize

/-! ## What the code computes -/

section
variable (lst : ListT)

@[simp] theorem exec_readHead : readHead.exec lst = some (lst, lst.head, lst.fuel) := Prog.exec_act ..

@[simp] theorem exec_readTail : readTail.exec lst = some (lst, lst.tail) := Prog.exec_act ..

@[simp] theorem exec_writeHead (ptr : Option Nat) : (writeHead ptr).exec lst = some ({ lst with head := ptr }, ()) :=
  Prog.exec_act ..

@[simp] theorem exec_writeTail (ptr : Option Nat) : (writeTail ptr).exec lst = some ({ lst with tail := ptr }, ()) :=
  Prog.exec_act ..

@[simp] theorem exec_readElem {α : Type} (elt : Nat) (field : Node Nat → α) :
    (readElem elt field).exec lst = (lst.store.node elt).map fun n => (lst, field n) :=
  Prog.exec_act ..

@[simp] theorem exec_writeElem (f : Store Nat → Option (Store Nat)) :
    (writeElem f).exec lst = (f lst.store).map fun σ => ({ lst with store := σ }, ()) :=
  Prog.exec_act ..

@[simp] theorem exec_mallocElem : mallocElem.exec lst = some (newElem lst blank, lst.store.fresh) := Prog.exec_act ..

theorem exec_listElemInit {elt datum : Nat} {lst' : ListT} (h : listElemInit lst elt datum = some lst') :
    (listElemInitCode elt datum).exec lst = some (lst', ()) := by
  simp only [listElemInit, Option.bind_eq_bind, Option.bind_eq_some_iff] at h
  obtain ⟨σ₁, hσ₁, σ₂, hσ₂, σ₃, hσ₃, heq⟩ := h
  cases heq
  simp [listElemInitCode, hσ₁, hσ₂, hσ₃]

theorem exec_listInsertHead (elt : Nat) :
    (listInsertHeadCode elt).exec lst = (listInsertHead lst elt).map fun lst => (lst, ()) := by
  cases hh : lst.head with
  | none => simp [listInsertHeadCode, listInsertHead, hh, Option.bind_map, Option.map_bind]
  | some head => simp [listInsertHeadCode, listInsertHead, writePtr, Store.setPrevAt, hh, Option.bind_map, Option.map_bind]

theorem exec_listInsertTail (elt : Nat) :
    (listInsertTailCode elt).exec lst = (listInsertTail lst elt).map fun lst => (lst, ()) := by
  cases hh : lst.tail with
  | none => simp [listInsertTailCode, listInsertTail, hh, Option.bind_map, Option.map_bind]
  | some tail => simp [listInsertTailCode, listInsertTail, writePtr, Store.setNextAt, hh, Option.bind_map, Option.map_bind]

theorem exec_unlinkPrev {elt : Nat} {e : Node Nat} (he : lst.store.node elt = some e) :
    (unlinkPrevCode elt).exec lst = (lst.store.setNextAt e.prev e.next).map fun σ =>
      ({ lst with head := if e.prev = none ∧ lst.head = some elt then e.next else lst.head, store := σ }, ()) := by
  cases hp : e.prev with
  | none =>
    by_cases hh : lst.head = some elt
    · simp [unlinkPrevCode, he, hp, hh, Store.setNextAt]
    · simp [unlinkPrevCode, he, hp, hh, Store.setNextAt]
  | some prev => simp [unlinkPrevCode, he, hp, Store.setNextAt]

theorem exec_unlinkNext {elt : Nat} {e : Node Nat} (he : lst.store.node elt = some e) :
    (unlinkNextCode elt).exec lst = (lst.store.setPrevAt e.next e.prev).map fun σ =>
      ({ lst with tail := if e.next = none ∧ lst.tail = some elt then e.prev else lst.tail, store := σ }, ()) := by
  cases hn : e.next with
  | none =>
    by_cases ht : lst.tail = some elt
    · simp [unlinkNextCode, he, hn, ht, Store.setPrevAt]
    · simp [unlinkNextCode, he, hn, ht, Store.setPrevAt]
  | some next => simp [unlinkNextCode, he, hn, Store.setPrevAt]

theorem exec_listRemoveElem {elt : Nat} {lst' : ListT} (h : listRemoveElem lst elt = some lst') :
    (listRemoveElemCode elt).exec lst = some (lst', ()) := by
  simp only [listRemoveElem, Option.bind_eq_bind, Option.bind_eq_some_iff] at h
  obtain ⟨e, he, σ₁, hσ₁, e₁, he₁, σ₂, hσ₂, σ₃, hσ₃, σ₄, hσ₄, heq⟩ := h
  cases heq
  simp only [listRemoveElemCode, Prog.exec_bind, exec_unlinkPrev lst he, hσ₁, Option.map_some, Option.bind_some]
  rw [exec_unlinkNext _ he₁]
  simp [hσ₂, hσ₃, hσ₄]

theorem exec_seek (datum fuel : Nat) (elt : Option Nat) :
    (seekCode datum fuel elt).exec lst =
      (lst.store.seek (fun d => d == datum) fuel elt).map fun elt => (lst, elt) := by
  induction fuel generalizing elt with
  | zero => rfl
  | succ fuel ih =>
    cases elt with
    | none => rfl
    | some elt =>
      rw [seekCode, Store.seek]
      cases he : lst.store.node elt with
      | none => simp [he]
      | some e =>
        by_cases hd : e.val = datum
        · simp [he, hd]
        · simp [he, hd, ih]

theorem exec_seek_some {datum fuel : Nat} {elt elt' : Option Nat}
    (h : lst.store.seek (fun d => d == datum) fuel elt = some elt') :
    (seekCode datum fuel elt).exec lst = some (lst, elt') := by
  rw [exec_seek, h, Option.map_some]

theorem exec_count (fuel : Nat) (count : Int) (elt : Option Nat) :
    (countCode fuel count elt).exec lst =
      (lst.store.fold (fun count _ _ => some (toInt (count + 1))) fuel count elt).map fun count => (lst, count) := by
  induction fuel generalizing count elt with
  | zero => rfl
  | succ fuel ih =>
    cases elt with
    | none => rfl
    | some elt =>
      rw [countCode, Store.fold]
      cases he : lst.store.node elt with
      | none => simp [he]
      | some e => simp [he, ih]

/-- A new element, initialized and inserted. -/
theorem exec_insertItem {datum : Nat} {insertCode : Nat → Prog ListT Unit} {insert : ListT → Nat → Option ListT}
    (hins : ∀ lst elt, (insertCode elt).exec lst = (insert lst elt).map fun lst => (lst, ())) {lst₁ lst₂ : ListT}
    (hinit : listElemInit (newElem lst blank) lst.store.fresh datum = some lst₁)
    (h : insert lst₁ lst.store.fresh = some lst₂) :
    (do
      let elt ← mallocElem
      listElemInitCode elt datum
      insertCode elt
      pure Result.void : Prog ListT Result).exec lst = some (lst₂, .void) := by
  simp [exec_listElemInit _ hinit, hins, h]

/-- A wrapper does between `sem_wait` and `sem_post` what the whole call does. -/
theorem exec_call {c : Call} {w : ListWrap} {r : Result} (h : op { data := lst, sem := 1 } c.op = some (w, r)) :
    (callCode c).exec lst = some (w.data, r) := by
  cases c with
  | insertItemHead datum =>
    simp only [Call.op, op, insertItemHead, semWait, Option.bind_eq_bind, Option.bind_some, Option.map_eq_some_iff,
      Option.bind_eq_some_iff] at h
    obtain ⟨w', ⟨lst₁, hinit, lst₂, hins, hw⟩, heq⟩ := h
    cases hw
    cases heq
    exact exec_insertItem lst exec_listInsertHead hinit hins
  | insertItemTail datum =>
    simp only [Call.op, op, insertItemTail, semWait, Option.bind_eq_bind, Option.bind_some, Option.map_eq_some_iff,
      Option.bind_eq_some_iff] at h
    obtain ⟨w', ⟨lst₁, hinit, lst₂, hins, hw⟩, heq⟩ := h
    cases hw
    cases heq
    exact exec_insertItem lst exec_listInsertTail hinit hins
  | peekItemHead | peekItemTail =>
    cases h
    simp [callCode, listGetHead, listGetTail, semPost]
  | eltInList datum =>
    simp only [Call.op, op, eltInList, semWait, Option.bind_eq_bind, Option.bind_some, Option.map_eq_some_iff,
      Option.bind_eq_some_iff] at h
    obtain ⟨w', ⟨elt, hseek, hw⟩, heq⟩ := h
    have hexec := exec_seek_some lst hseek
    simp only [listGetHead] at hexec
    cases elt with
    | none =>
      cases hw
      cases heq
      simp [callCode, hexec, semPost]
    | some elt =>
      cases hw
      cases heq
      simp [callCode, hexec, semPost]
  | findInList datum =>
    simp only [Call.op, op, findInList, semWait, Option.bind_eq_bind, Option.bind_some, Option.map_eq_some_iff,
      Option.bind_eq_some_iff] at h
    obtain ⟨w', ⟨elt, hseek, hw⟩, heq⟩ := h
    have hexec := exec_seek_some lst hseek
    simp only [listGetHead] at hexec
    cases hw
    cases heq
    simp [callCode, hexec, semPost]
  | removeItem datum =>
    simp only [Call.op, op, removeItem, semWait, Option.bind_eq_bind, Option.bind_some, Option.map_eq_some_iff,
      Option.bind_eq_some_iff] at h
    obtain ⟨w', ⟨elt, hseek, hw⟩, heq⟩ := h
    have hexec := exec_seek_some lst hseek
    simp only [listGetHead] at hexec
    cases elt with
    | none =>
      cases hw
      cases heq
      simp [callCode, hexec, semPost]
    | some elt =>
      simp only [Option.bind_eq_some_iff] at hw
      obtain ⟨data, hrem, σ, hfree, hw⟩ := hw
      cases hw
      cases heq
      simp [callCode, hexec, exec_listRemoveElem lst hrem, hfree, semPost]
  | wrapperSize =>
    simp only [Call.op, op, wrapperSize, semWait, Option.bind_eq_bind, Option.bind_some, Option.map_eq_some_iff,
      Option.bind_eq_some_iff] at h
    obtain ⟨w', ⟨size, hsize, hw⟩, heq⟩ := h
    have hexec : (countCode lst.fuel 0 lst.head).exec lst = some (lst, size) := by
      rw [exec_count]
      exact congrArg _ hsize
    cases hw
    cases heq
    simp [callCode, listSizeCode, hexec, semPost]

end

/-! ## All interleavings -/

section
variable {ι : Type*} [DecidableEq ι]

/-- Threads that call the wrappers of one list. -/
abbrev Calls (ι : Type*) := Monitor ι ListT (ι × Call) Result

def callsStep (ι : Type*) [DecidableEq ι] : StepFn (Calls ι) (Monitor.Move ι (ι × Call)) (Option ((ι × Call) × Result)) :=
  Monitor.step Prod.fst fun q => callCode q.2

/-- The calls that have returned, in the order in which they have posted the semaphore. -/
def returned (tr : List (Monitor.Move ι (ι × Call) × Option ((ι × Call) × Result))) : List (Op × Result) :=
  (Monitor.left tr).map fun x => (x.1.2.op, x.2)

/-- Between two calls: the list is the sequence, and nothing else is allocated. -/
structure Idle (lst : ListT) (s : Sequence) : Prop where
  refines : Refines { data := lst, sem := 1 } s
  loose : ∀ elt, s.loose elt = none

theorem idle_start : Idle createWrapper.data .empty := ⟨createWrapper_refines, fun _ => rfl⟩

theorem Call.admitted (c : Call) (s : Sequence) : c.op.Admitted s := by
  cases c <;> trivial

/-- No call leaves an element outside of the list. -/
theorem Call.loose {c : Call} {s s' : Sequence} {r : Result} (hs : Sequence.op s c.op = some (s', r)) :
    s'.loose = s.loose := by
  cases c <;> (cases hs; rfl)

theorem call_idle {lst : ListT} {s : Sequence} (h : Idle lst s) (c : Call) :
    ∃ lst' s' r, (callCode c).exec lst = some (lst', r) ∧ Sequence.op s c.op = some (s', r) ∧ Idle lst' s' := by
  obtain ⟨w, s', r, hw, hs, hr⟩ := op_refines _ s c.op h.refines (c.admitted s)
  refine ⟨w.data, s', r, exec_call lst hw, hs, ?_, ?_⟩
  · obtain ⟨data, sem⟩ := w
    obtain rfl : sem = 1 := hr.sem
    exact hr
  · rw [Call.loose hs]
    exact h.loose

theorem calls_keep (ι : Type*) : Monitor.Keeps (fun q : ι × Call => callCode q.2) fun lst => ∃ s, Idle lst s := by
  rintro lst ⟨s, h⟩ q
  obtain ⟨lst', s', r, hexec, -, h'⟩ := call_idle h q.2
  exact ⟨lst', r, hexec, s', h'⟩

theorem Idle.in_list {lst : ListT} {s : Sequence} (h : Idle lst s) (elt : Nat) :
    (lst.store.node elt).isSome = true ↔ elt ∈ ids (entries s.cells) := by
  have hloose := h.loose elt
  rw [h.refines.holds.loose] at hloose
  constructor
  · intro hsome
    by_contra hout
    rw [if_neg hout, Option.map_eq_none_iff] at hloose
    rw [hloose] at hsome
    cases hsome
  · intro hin
    obtain ⟨n, hn⟩ := h.refines.holds.spans.list.links.live hin
    rw [hn]
    rfl

/-- Where the accesses of all threads interleave, no access follows a pointer to
an element that has been freed and one thread at most is inside. The calls
return what they return on a sequence, made one after the other in the order in
which they post the semaphore. While nobody is inside the list is that sequence,
read from either end, and its elements are all that is allocated. A thread that
waits for the semaphore can get through. -/
theorem calls_linearize (ι : Type*) [DecidableEq ι] (es : List (Monitor.Move ι (ι × Call))) (m : Calls ι)
    (tr : List (Monitor.Move ι (ι × Call) × Option ((ι × Call) × Result)))
    (hr : run (callsStep ι) (Monitor.start createWrapper.data) es = some (m, tr)) :
    (∀ i q, m.place i ≠ .inside q .fail) ∧
    (∀ i j q q' p p', m.place i = .inside q p → m.place j = .inside q' p' → i = j) ∧
    (∃ s, run Sequence.op .empty ((returned tr).map Prod.fst) = some (s, returned tr) ∧
      (m.sem = 1 → Walks m.memory.store Node.next m.memory.head (entries s.cells) ∧
        Walks m.memory.store Node.prev m.memory.tail (entries s.cells).reverse ∧
        ∀ elt, (m.memory.store.node elt).isSome = true ↔ elt ∈ ids (entries s.cells))) ∧
    ∀ i q, m.place i = .waiting q → Can (callsStep ι) (fun m' => m'.place i = .outside) m := by
  obtain ⟨lst, hrun, hb⟩ := Monitor.sections_atomic hr
  -- the calls on the list are the calls on the sequence
  obtain ⟨lst', s, tr', hlst, hseq, hidle⟩ := run_sim (R := Idle) (fun _ _ (q : ι × Call) h _ => call_idle h q.2) idle_start
    (guarded_true _ ((Monitor.left tr).map Prod.fst))
  cases hrun.symm.trans hlst
  obtain ⟨hops, -⟩ := @run_map _ _ _ _ _ _ Sequence.op (fun _ => True) (fun q : ι × Call => q.2.op) id
    (fun _ _ _ _ _ hs => ⟨hs, trivial⟩) _ _ _ _ trivial hseq
  have hret : (Monitor.left tr).map (Prod.map (fun q : ι × Call => q.2.op) id) = returned tr := rfl
  have hcalls : ((Monitor.left tr).map Prod.fst).map (fun q : ι × Call => q.2.op) = (returned tr).map Prod.fst := by
    simp [returned]
  rw [hret, hcalls] at hops
  refine ⟨hb.no_fail (calls_keep ι) ⟨s, hidle⟩, ?_, ⟨s, hops, ?_⟩, ?_⟩
  · intro i j q q' p p' hpi hpj
    by_contra hne
    exact (hb.inside hpj).2.2 i hne q p hpi
  · intro hsem
    cases hb with
    | taken _ _ _ hsem' => omega
    | free _ hmem _ =>
      subst hmem
      have hspans := hidle.refines.holds.spans
      refine ⟨?_, ?_, hidle.in_list⟩
      · rw [hspans.list.head]
        exact hspans.list.links.walks
      · rw [hspans.tail]
        exact hspans.list.links.walks_back
  · intro i q hw
    apply (hb.gets_through (calls_keep ι) ⟨s, hidle⟩ hw).trans
    intro m' hm'
    exact .here hm'.2

end

/-- Thread 1 asks for the removal of the item that thread 0 is in the middle of inserting. -/
def overlap : List (Monitor.Move Nat (Nat × Call)) :=
  [.turn (0, .insertItemTail 5), .wait 0, .access 0, .access 0, .turn (1, .removeItem 5)] ++
    List.replicate 7 (.access 0) ++ [.post 0, .turn (0, .eltInList 5), .wait 1] ++ List.replicate 8 (.access 1)

theorem calls_linearize_overlap :
    ∃ m tr, run (callsStep Nat) (Monitor.start createWrapper.data) overlap = some (m, tr) ∧
      returned tr = [(.insertItemTail 5, .void)] ∧
      (∀ i q, m.place i ≠ .inside q .fail) ∧
      (∀ i j q q' p p', m.place i = .inside q p → m.place j = .inside q' p' → i = j) ∧
      (∃ s, run Sequence.op .empty ((returned tr).map Prod.fst) = some (s, returned tr) ∧
        (m.sem = 1 → Walks m.memory.store Node.next m.memory.head (entries s.cells) ∧
          Walks m.memory.store Node.prev m.memory.tail (entries s.cells).reverse ∧
          ∀ elt, (m.memory.store.node elt).isSome = true ↔ elt ∈ ids (entries s.cells))) ∧
      ∀ i q, m.place i = .waiting q → Can (callsStep Nat) (fun m' => m'.place i = .outside) m :=
  ⟨_, _, rfl, rfl, calls_linearize Nat overlap _ _ rfl⟩

end OsLabs.Sched.Linked
