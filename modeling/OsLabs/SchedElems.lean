import OsLabs.DList
import OsLabs.Sched

/-!
# The lists of the scheduler, element by element

`list.c` and the wrappers of `sched_impl.c` on a store of list elements. The
machine `op` makes any of their calls, also those that the scheduler leaves to
the wrappers. Beside it the sequence that the list is meant to be, and the
elements that have been allocated and are not in it.
-/

namespace OsLabs.Sched.Linked

open DList

/-- A `list_t`, and the elements it leads to. -/
structure ListT where
  head : Option Nat
  tail : Option Nat
  store : Store Nat

structure ListWrap where
  data : ListT
  sem : Nat

def ListT.fuel (lst : ListT) : Nat := lst.store.fresh + 1

/-! ## `list.c` -/

/-- The `int` count wraps as the machine's does. -/
def listSize (lst : ListT) : Option Int :=
  lst.store.fold (fun count _ _ => some (toInt (count + 1))) lst.fuel 0 lst.head

def listElemInit (lst : ListT) (elt datum : Nat) : Option ListT := do
  let σ ← lst.store.setNext elt none
  let σ ← σ.setPrev elt none
  let σ ← σ.setVal elt fun _ => datum
  some { lst with store := σ }

def listInsertHead (lst : ListT) (elt : Nat) : Option ListT :=
  match lst.head with
  | none => do
    let σ ← lst.store.setNext elt none
    let σ ← σ.setPrev elt none
    some { head := some elt, tail := some elt, store := σ }
  | some head => do
    let σ ← lst.store.setPrev elt none
    let σ ← σ.setNext elt (some head)
    let σ ← σ.setPrevAt (some head) (some elt)
    some { lst with head := some elt, store := σ }

def listInsertTail (lst : ListT) (elt : Nat) : Option ListT :=
  match lst.tail with
  | none => do
    let σ ← lst.store.setNext elt none
    let σ ← σ.setPrev elt none
    some { head := some elt, tail := some elt, store := σ }
  | some tail => do
    let σ ← lst.store.setPrev elt (some tail)
    let σ ← σ.setNextAt (some tail) (some elt)
    let σ ← σ.setNext elt none
    some { lst with tail := some elt, store := σ }

def listGetHead (lst : ListT) : Option Nat := lst.head

def listGetTail (lst : ListT) : Option Nat := lst.tail

def listRemoveElem (lst : ListT) (elt : Nat) : Option ListT := do
  let e ← lst.store.node elt
  let σ ← lst.store.setNextAt e.prev e.next
  let head := if e.prev = none ∧ lst.head = some elt then e.next else lst.head
  let e ← σ.node elt
  let σ ← σ.setPrevAt e.next e.prev
  let tail := if e.next = none ∧ lst.tail = some elt then e.prev else lst.tail
  let σ ← σ.setPrev elt none
  let σ ← σ.setNext elt none
  some { head := head, tail := tail, store := σ }

/-! ## `sched_impl.c` -/

def semWait (lst : ListWrap) : Option ListWrap :=
  match lst.sem with
  | 0 => none
  | n + 1 => some { lst with sem := n }

def semPost (lst : ListWrap) : ListWrap := { lst with sem := lst.sem + 1 }

/-- `malloc(sizeof(list_elem_t))`; `elem` is what the memory held before. -/
def newElem (lst : ListT) (elem : Node Nat) : ListT := { lst with store := lst.store.malloc elem }

def blank : Node Nat := { prev := none, next := none, val := 0 }

def insertItemHead (lst : ListWrap) (datum : Nat) : Option ListWrap := do
  let lst ← semWait lst
  let elt := lst.data.store.fresh
  let data ← listElemInit (newElem lst.data blank) elt datum
  let data ← listInsertHead data elt
  some (semPost { lst with data := data })

def insertItemTail (lst : ListWrap) (datum : Nat) : Option ListWrap := do
  let lst ← semWait lst
  let elt := lst.data.store.fresh
  let data ← listElemInit (newElem lst.data blank) elt datum
  let data ← listInsertTail data elt
  some (semPost { lst with data := data })

def peekItemHead (lst : ListWrap) : Option (ListWrap × Option Nat) := do
  let lst ← semWait lst
  some (semPost lst, listGetHead lst.data)

def peekItemTail (lst : ListWrap) : Option (ListWrap × Option Nat) := do
  let lst ← semWait lst
  some (semPost lst, listGetTail lst.data)

def findInList (lst : ListWrap) (datum : Nat) : Option (ListWrap × Option Nat) := do
  let lst ← semWait lst
  let elt ← lst.data.store.seek (fun d => d == datum) lst.data.fuel (listGetHead lst.data)
  some (semPost lst, elt)

def eltInList (lst : ListWrap) (datum : Nat) : Option (ListWrap × Int) := do
  let lst ← semWait lst
  match ← lst.data.store.seek (fun d => d == datum) lst.data.fuel (listGetHead lst.data) with
  | none => some (semPost lst, 0)
  | some _ => some (semPost lst, 1)

def removeItem (lst : ListWrap) (datum : Nat) : Option ListWrap := do
  let lst ← semWait lst
  match ← lst.data.store.seek (fun d => d == datum) lst.data.fuel (listGetHead lst.data) with
  | none => some (semPost lst)
  | some elt => do
    let data ← listRemoveElem lst.data elt
    let σ ← data.store.free elt
    some (semPost { lst with data := { data with store := σ } })

def wrapperSize (lst : ListWrap) : Option (ListWrap × Int) := do
  let lst ← semWait lst
  let size ← listSize lst.data
  some (semPost lst, size)

/-- `create_wrapper`, before any element exists. -/
def createWrapper : ListWrap := { data := { head := none, tail := none, store := .empty }, sem := 1 }

/-! ## Calls -/

inductive Op
  | newElem (elem : Node Nat)
  | elemInit (elt datum : Nat)
  | insertHead (elt : Nat)
  | insertTail (elt : Nat)
  | removeElem (elt : Nat)
  | size
  | insertItemHead (datum : Nat)
  | insertItemTail (datum : Nat)
  | removeItem (datum : Nat)
  | eltInList (datum : Nat)
  | findInList (datum : Nat)
  | peekItemHead
  | peekItemTail
  | wrapperSize
  deriving DecidableEq

inductive Result
  | void
  | elem (elt : Option Nat)
  | int (n : Int)
  deriving DecidableEq

def op : StepFn ListWrap Op Result
  | lst, .newElem elem => some ({ lst with data := newElem lst.data elem }, .elem (some lst.data.store.fresh))
  | lst, .elemInit elt datum => (listElemInit lst.data elt datum).map fun data => ({ lst with data := data }, .void)
  | lst, .insertHead elt => (listInsertHead lst.data elt).map fun data => ({ lst with data := data }, .void)
  | lst, .insertTail elt => (listInsertTail lst.data elt).map fun data => ({ lst with data := data }, .void)
  | lst, .removeElem elt => (listRemoveElem lst.data elt).map fun data => ({ lst with data := data }, .void)
  | lst, .size => (listSize lst.data).map fun n => (lst, .int n)
  | lst, .insertItemHead datum => (insertItemHead lst datum).map fun lst => (lst, .void)
  | lst, .insertItemTail datum => (insertItemTail lst datum).map fun lst => (lst, .void)
  | lst, .removeItem datum => (removeItem lst datum).map fun lst => (lst, .void)
  | lst, .eltInList datum => (eltInList lst datum).map fun r => (r.1, .int r.2)
  | lst, .findInList datum => (findInList lst datum).map fun r => (r.1, .elem r.2)
  | lst, .peekItemHead => (peekItemHead lst).map fun r => (r.1, .elem r.2)
  | lst, .peekItemTail => (peekItemTail lst).map fun r => (r.1, .elem r.2)
  | lst, .wrapperSize => (wrapperSize lst).map fun r => (r.1, .int r.2)

/-! ## The sequence -/

/-- What the list is for: a sequence of elements. `loose` has the datum of each
element that has been allocated and is not in the sequence. -/
structure Sequence where
  cells : List Cell
  loose : Nat → Option Nat
  fresh : Nat

def Sequence.empty : Sequence := { cells := [], loose := fun _ => none, fresh := 0 }

def Sequence.op : StepFn Sequence Op Result
  | s, .newElem elem =>
    some ({ s with loose := Function.update s.loose s.fresh (some elem.val), fresh := s.fresh + 1 },
      .elem (some s.fresh))
  | s, .elemInit elt datum => some ({ s with loose := Function.update s.loose elt (some datum) }, .void)
  | s, .insertHead elt => (s.loose elt).map fun datum =>
    ({ s with cells := ⟨elt, datum⟩ :: s.cells, loose := Function.update s.loose elt none }, .void)
  | s, .insertTail elt => (s.loose elt).map fun datum =>
    ({ s with cells := s.cells ++ [⟨elt, datum⟩], loose := Function.update s.loose elt none }, .void)
  | s, .removeElem elt => (s.cells.find? fun c => c.id == elt).map fun c =>
    ({ s with cells := s.cells.erase c, loose := Function.update s.loose elt (some c.datum) }, .void)
  | s, .size => some (s, .int (toInt s.cells.length))
  | s, .insertItemHead datum =>
    some ({ s with cells := ⟨s.fresh, datum⟩ :: s.cells, fresh := s.fresh + 1 }, .void)
  | s, .insertItemTail datum =>
    some ({ s with cells := s.cells ++ [⟨s.fresh, datum⟩], fresh := s.fresh + 1 }, .void)
  | s, .removeItem datum => some ({ s with cells := Sched.removeItem datum s.cells }, .void)
  | s, .eltInList datum => some (s, .int (if Sched.eltInList s.cells datum then 1 else 0))
  | s, .findInList datum => some (s, .elem ((s.cells.find? fun c => c.datum == datum).map Cell.id))
  | s, .peekItemHead => some (s, .elem (s.cells.head?.map Cell.id))
  | s, .peekItemTail => some (s, .elem (s.cells.getLast?.map Cell.id))
  | s, .wrapperSize => some (s, .int (toInt s.cells.length))

/-- An element is initialized or inserted while it is not in the list, and removed while it is. -/
def Op.Admitted (s : Sequence) : Op → Prop
  | .elemInit elt _ | .insertHead elt | .insertTail elt => (s.loose elt).isSome = true
  | .removeElem elt => ∃ c ∈ s.cells, c.id = elt
  | _ => True

instance (s : Sequence) (e : Op) : Decidable (e.Admitted s) :=
  match e with
  | .elemInit elt _ | .insertHead elt | .insertTail elt => inferInstanceAs (Decidable ((s.loose elt).isSome = true))
  | .removeElem elt => inferInstanceAs (Decidable (∃ c ∈ s.cells, c.id = elt))
  | .newElem _ | .size | .insertItemHead _ | .insertItemTail _ | .removeItem _ | .eltInList _ | .findInList _
  | .peekItemHead | .peekItemTail | .wrapperSize => .isTrue trivial

end OsLabs.Sched.Linked
