import OsLabs.DList
import OsLabs.Mymem

/-!
# The nodes of the memory manager

The functions of `mymem.c` once more, on the nodes themselves: every read and
every write through a pointer is one on the store, and undefined where the node
is not allocated. The loops get one more step than nodes have ever been
allocated, which is more than any list is long.
-/

namespace OsLabs.Mymem.Linked

open DList

structure Block where
  size : Int
  alloc : Bool
  ptr : Nat
  deriving DecidableEq

/-- The variables of `mymem.c`, and the nodes they lead to. -/
structure Globals where
  myStrategy : Strategies
  mySize : Nat
  myMemory : Nat
  head : Option Nat
  next : Option Nat
  store : Store Block

/-- The values the program starts with. -/
def static : Globals where
  myStrategy := .notSet
  mySize := 0
  myMemory := null
  head := none
  next := none
  store := .empty

def Globals.fuel (g : Globals) : Nat := g.store.fresh + 1

/-! ## Initialization -/

/-- `while(head != NULL) { tmp = head; head = head->next; free(tmp); }` -/
def releaseLoop : (fuel : Nat) → Store Block → Option Nat → Option (Store Block)
  | 0, _, _ => none
  | _ + 1, σ, none => some σ
  | fuel + 1, σ, some tmp => do
    let n ← σ.node tmp
    let σ ← σ.free tmp
    releaseLoop fuel σ n.next

def release (g : Globals) : Option Globals := do
  let σ ← releaseLoop g.fuel g.store g.head
  some { g with store := σ, head := none, next := none }

def initializeHead (g : Globals) : Globals :=
  { g with
    store := g.store.malloc
      { prev := none, next := none, val := { size := toInt g.mySize, alloc := false, ptr := g.myMemory } }
    head := some g.store.fresh
    next := some g.store.fresh }

def initmem (g : Globals) (strategy : Strategies) (sz pool : Nat) : Option Globals := do
  let g ← release { g with myStrategy := strategy, mySize := sz }
  some (initializeHead { g with myMemory := pool })

/-! ## Allocation -/

def Block.fits (requested : Nat) (b : Block) : Bool := !b.alloc && decide (requested ≤ toSize b.size)

def searchFirst (g : Globals) (requested : Nat) : Option (Option Nat) :=
  g.store.seek (Block.fits requested) g.fuel g.head

/-- The test of best fit and worst fit at the node `tmp`; `to_use->size` is read if `to_use` is not null. -/
def choose (better : Int → Int → Bool) (σ : Store Block) (requested : Nat) (toUse : Option Nat) (tmp : Nat)
    (b : Block) : Option (Option Nat) :=
  if b.fits requested then
    match toUse with
    | none => some (some tmp)
    | some u => do
      let n ← σ.node u
      some (if better b.size n.val.size then some tmp else some u)
  else some toUse

def searchBy (better : Int → Int → Bool) (g : Globals) (requested : Nat) : Option (Option Nat) :=
  g.store.fold (choose better g.store requested) g.fuel none g.head

def searchBest (g : Globals) (requested : Nat) : Option (Option Nat) :=
  searchBy (fun size best => decide (size < best)) g requested

def searchWorst (g : Globals) (requested : Nat) : Option (Option Nat) :=
  searchBy (fun size worst => decide (worst < size)) g requested

/-- `while(next->alloc) next = next->next;`, which follows a null pointer at the end of the list. -/
def searchNext (g : Globals) : Option Nat := (g.store.seek (fun b => !b.alloc) g.fuel g.next).join

/-- What `malloc` returns has no contents yet; all its fields are written before they are read. -/
def blank : Node Block := { prev := none, next := none, val := { size := 0, alloc := false, ptr := null } }

/-- The new node goes in behind `toUse` and gets what is left over. As in `MemoryList.carve` its address is not wrapped. -/
def split (σ : Store Block) (requested toUse : Nat) : Option (Store Block) := do
  let u ← σ.node toUse
  let extra := toInt (toSize ((toSize u.val.size : Int) - requested))
  let newList := σ.fresh
  let σ ← (σ.malloc blank).setNext newList u.next
  let σ ← σ.setPrevAt u.next (some newList)
  let σ ← σ.setPrev newList (some toUse)
  let σ ← σ.setNext toUse (some newList)
  let σ ← σ.setVal newList fun _ => { size := extra, alloc := false, ptr := u.val.ptr + requested }
  σ.setVal toUse fun b => { b with alloc := true, size := toInt requested }

def carve (σ : Store Block) (requested toUse : Nat) : Option (Store Block) := do
  let u ← σ.node toUse
  if toSize u.val.size = requested then σ.setVal toUse fun b => { b with alloc := true }
  else split σ requested toUse

/-- `while(!next || (next->alloc && next != to_use)) next = next ? next->next : head;` -/
def walkNext (σ : Store Block) (head : Option Nat) (toUse : Nat) : (fuel : Nat) → (next : Option Nat) → Option Nat
  | 0, _ => none
  | fuel + 1, none => walkNext σ head toUse fuel head
  | fuel + 1, some i => do
    let n ← σ.node i
    if n.val.alloc && i != toUse then walkNext σ head toUse fuel n.next else some i

def updateNext (g : Globals) (toUse : Nat) : Option Globals := do
  let u ← g.store.node toUse
  let next ← walkNext g.store g.head toUse (2 * g.fuel) u.next
  some { g with next := if next = toUse then g.head else some next }

/-- The second half of `mymalloc`, for a pointer that is not null. -/
def useBlock (g : Globals) (requested toUse : Nat) : Option (Globals × Nat) := do
  let σ ← carve g.store requested toUse
  let g ← if g.myStrategy = .next then updateNext { g with store := σ } toUse else some { g with store := σ }
  let u ← g.store.node toUse
  some (g, u.val.ptr)

def orNull (g : Globals) (requested : Nat) : Option Nat → Option (Globals × Nat)
  | none => some (g, null)
  | some toUse => useBlock g requested toUse

def mymalloc (g : Globals) (requested : Nat) : Option (Globals × Nat) :=
  match g.myStrategy with
  | .notSet => none
  | .first => searchFirst g requested >>= orNull g requested
  | .best => searchBest g requested >>= orNull g requested
  | .worst => searchWorst g requested >>= orNull g requested
  | .next => searchNext g >>= useBlock g requested

/-! ## Release of a block -/

/-- `while(block->prev && !block->prev->alloc) block = block->prev;` -/
def moveBack (σ : Store Block) : (fuel : Nat) → (block : Nat) → Option Nat
  | 0, _ => none
  | fuel + 1, block => do
    let b ← σ.node block
    match b.prev with
    | none => some block
    | some p => do
      let n ← σ.node p
      if n.val.alloc then some block else moveBack σ fuel p

/-- The loop that adds the free nodes after `block` to it and frees them. -/
def mergeForward : (fuel : Nat) → Store Block → (next : Option Nat) → (block : Nat) →
    Option (Store Block × Option Nat)
  | 0, _, _, _ => none
  | fuel + 1, σ, next, block => do
    let b ← σ.node block
    match b.next with
    | none => some (σ, next)
    | some tmp => do
      let t ← σ.node tmp
      if t.val.alloc then some (σ, next)
      else
        let σ ← σ.setVal block fun v => { v with size := toInt (v.size + t.val.size) }
        let σ ← σ.setNext block t.next
        let σ ← σ.setPrevAt t.next (some block)
        let σ ← σ.free tmp
        mergeForward fuel σ (if next = some tmp then some block else next) block

def mergeBlocks (g : Globals) (block : Nat) : Option Globals := do
  let b ← g.store.node block
  if b.val.alloc then some g
  else
    let first ← moveBack g.store g.fuel block
    let (σ, next) ← mergeForward g.fuel g.store g.next first
    some { g with store := σ, next := next }

def myfree (g : Globals) (block : Nat) : Option Globals := do
  match ← g.store.seek (fun b => b.ptr == block) g.fuel g.head with
  | none => some g
  | some tmp => do
    let σ ← g.store.setVal tmp fun b => { b with alloc := false }
    mergeBlocks { g with store := σ } tmp

/-! ## Runs -/

inductive Op
  | initmem (strategy : Strategies) (sz pool : Nat)
  | mymalloc (requested : Nat)
  | myfree (block : Nat)
  deriving DecidableEq

def op : StepFn Globals Op Nat
  | g, .initmem strategy sz pool => do
    let g ← initmem g strategy sz pool
    some (g, null)
  | g, .mymalloc requested => mymalloc g requested
  | g, .myfree block => do
    let g ← myfree g block
    some (g, null)

/-- `initmem` has set a strategy, and next fit has a free block to find. -/
def Op.Admitted (g : Globals) : Op → Prop
  | .initmem _ _ _ => True
  | .mymalloc _ => g.myStrategy ≠ .notSet ∧
    (g.myStrategy = .next → ∃ i < g.store.fresh, ∃ n ∈ g.store.node i, n.val.alloc = false)
  | .myfree _ => True

instance (g : Globals) (e : Op) : Decidable (e.Admitted g) :=
  match e with
  | .initmem _ _ _ => .isTrue trivial
  | .mymalloc _ => inferInstanceAs (Decidable (g.myStrategy ≠ .notSet ∧
      (g.myStrategy = .next → ∃ i < g.store.fresh, ∃ n ∈ g.store.node i, n.val.alloc = false)))
  | .myfree _ => .isTrue trivial

end OsLabs.Mymem.Linked
