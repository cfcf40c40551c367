import OsLabs.CInt
import OsLabs.Machine
import OsLabs.Tiling

/-!
# The memory manager of `mymem.c`

The blocks of the pool form a doubly linked list of nodes. The list is kept in
its order from `head`; a pointer to one of its nodes is a cursor, so that the
`prev` and `next` of a node are moves of the cursor. The roving pointer `next`
outlives the call that set it and is kept as the identity of its node. `none`
is a failed assertion, a null pointer followed, or a loop that does not end.
-/

namespace OsLabs.Mymem

inductive Strategies
  | notSet | best | worst | first | next
  deriving DecidableEq

structure MemoryList where
  node : Nat
  size : Int
  alloc : Bool
  ptr : Nat
  deriving DecidableEq

structure Mem where
  myStrategy : Strategies
  mySize : Nat
  myMemory : Nat
  head : List MemoryList
  next : Option Nat
  /-- The identity of the next node that `malloc` returns. -/
  fresh : Nat

def null : Nat := 0

/-- A pointer to a node: the nodes before it, the nearest first, and those after. -/
structure Cursor where
  before : List MemoryList
  block : MemoryList
  after : List MemoryList

def Cursor.list (c : Cursor) : List MemoryList := c.before.reverse ++ c.block :: c.after

/-! ## Initialization -/

def release (m : Mem) : Mem := { m with head := [], next := none }

def initializeHead (m : Mem) : Mem :=
  { m with
    head := [{ node := m.fresh, size := toInt m.mySize, alloc := false, ptr := m.myMemory }]
    next := some m.fresh
    fresh := m.fresh + 1 }

/-- `pool` is the address the system `malloc` returns. -/
def initmem (m : Mem) (strategy : Strategies) (sz pool : Nat) : Mem :=
  initializeHead { release { m with myStrategy := strategy, mySize := sz } with myMemory := pool }

/-! ## Allocation -/

/-- A free block of at least the requested size; the comparison is unsigned. -/
def MemoryList.fits (requested : Nat) (b : MemoryList) : Bool := !b.alloc && decide (requested ≤ toSize b.size)

/-- The cursor at the first node with the given property. -/
def seek (p : MemoryList → Bool) : List MemoryList → List MemoryList → Option Cursor
  | _, [] => none
  | before, b :: rest => if p b then some ⟨before, b, rest⟩ else seek p (b :: before) rest

def searchFirst (requested : Nat) : List MemoryList → List MemoryList → Option Cursor :=
  seek (fun b => b.fits requested)

def MemoryList.wins (better : Int → Int → Bool) (b : MemoryList) : Option Cursor → Bool
  | none => true
  | some u => better b.size u.block.size

/-- The loops of best fit and worst fit: `toUse` is the winner so far by `better`. -/
def searchBy (better : Int → Int → Bool) (requested : Nat) :
    Option Cursor → List MemoryList → List MemoryList → Option Cursor
  | toUse, _, [] => toUse
  | toUse, before, b :: rest =>
    searchBy better requested
      (if b.fits requested && b.wins better toUse then some ⟨before, b, rest⟩ else toUse) (b :: before) rest

def searchBest (requested : Nat) : Option Cursor → List MemoryList → List MemoryList → Option Cursor :=
  searchBy (fun size best => decide (size < best)) requested

def searchWorst (requested : Nat) : Option Cursor → List MemoryList → List MemoryList → Option Cursor :=
  searchBy (fun size worst => decide (worst < size)) requested

/-- `while(next->alloc) next = next->next;`, which fails at the end of the list. -/
def searchNext (m : Mem) : Option Cursor :=
  match seek (fun b => m.next == some b.node) [] m.head with
  | none => none
  | some c => seek (fun b => !b.alloc) c.before (c.block :: c.after)

/-- The block to use gets the requested size; what is left over becomes a free
block after it. Its address is not wrapped: `ptr + requested` leaves the range of
a pointer only for a request near 2^64 that next fit gives a smaller block. -/
def MemoryList.carve (requested fresh : Nat) (b : MemoryList) : List MemoryList :=
  if toSize b.size = requested then [{ b with alloc := true }]
  else
    let extra := toInt (toSize ((toSize b.size : Int) - requested))
    [{ b with alloc := true, size := toInt requested },
      { node := fresh, size := extra, alloc := false, ptr := b.ptr + requested }]

/-- The loop that moves `next` to a free block or back to the block just used.
`rest` is the list from `next` on, empty for a null pointer. -/
def walkNext (head : List MemoryList) (toUse : Nat) : (fuel : Nat) → (rest : List MemoryList) → Option Nat
  | 0, _ => none
  | fuel + 1, [] => walkNext head toUse fuel head
  | fuel + 1, b :: rest =>
    if b.alloc && b.node != toUse then walkNext head toUse fuel rest else some b.node

/-- `next` after an allocation; two rounds over the list are fuel enough. -/
def updateNext (head : List MemoryList) (toUse : Nat) (rest : List MemoryList) : Option Nat :=
  match walkNext head toUse (2 * head.length + 2) rest with
  | none => none
  | some n => if n = toUse then head.head?.map (·.node) else some n

def placeBlock (m : Mem) (requested : Nat) (toUse : Cursor) : Mem :=
  let carved := toUse.block.carve requested m.fresh
  { m with
    head := toUse.before.reverse ++ carved ++ toUse.after
    fresh := m.fresh + carved.tail.length }

/-- The second half of `mymalloc`, for the block that the search found. -/
def useBlock (m : Mem) (requested : Nat) (toUse : Cursor) : Option (Mem × Nat) :=
  let m' := placeBlock m requested toUse
  if m.myStrategy = .next then
    match updateNext m'.head toUse.block.node ((toUse.block.carve requested m.fresh).tail ++ toUse.after) with
    | none => none
    | some n => some ({ m' with next := some n }, toUse.block.ptr)
  else some (m', toUse.block.ptr)

def orNull (m : Mem) (requested : Nat) : Option Cursor → Option (Mem × Nat)
  | none => some (m, null)
  | some toUse => useBlock m requested toUse

def mymalloc (m : Mem) (requested : Nat) : Option (Mem × Nat) :=
  match m.myStrategy with
  | .notSet => none
  | .first => orNull m requested (searchFirst requested [] m.head)
  | .best => orNull m requested (searchBest requested none [] m.head)
  | .worst => orNull m requested (searchWorst requested none [] m.head)
  | .next =>
    match searchNext m with
    | none => none
    | some toUse => useBlock m requested toUse

/-! ## Release of a block -/

/-- `while(block->prev && !block->prev->alloc) block = block->prev;` -/
def moveBack : List MemoryList → MemoryList → List MemoryList → Cursor
  | [], block, after => ⟨[], block, after⟩
  | p :: before, block, after =>
    if p.alloc then ⟨p :: before, block, after⟩ else moveBack before p (block :: after)

/-- The loop that adds the free nodes after `block` to it and frees them. -/
def mergeForward (next : Option Nat) (block : MemoryList) :
    List MemoryList → Option Nat × MemoryList × List MemoryList
  | [] => (next, block, [])
  | tmp :: rest =>
    if tmp.alloc then (next, block, tmp :: rest)
    else mergeForward (if next = some tmp.node then some block.node else next)
      { block with size := toInt (block.size + tmp.size) } rest

def mergeBlocks (m : Mem) (c : Cursor) : Mem :=
  if c.block.alloc then { m with head := c.list }
  else
    let s := moveBack c.before c.block c.after
    let (next, block, after) := mergeForward m.next s.block s.after
    { m with head := s.before.reverse ++ block :: after, next := next }

def myfree (m : Mem) (block : Nat) : Mem :=
  match seek (fun b => b.ptr == block) [] m.head with
  | none => m
  | some c => mergeBlocks m { c with block := { c.block with alloc := false } }

/-! ## Status of the memory -/

/-- The counting and adding loops: `acc += w(b)` at each block with `p`. -/
def tally (p : MemoryList → Bool) (w : MemoryList → Int) (acc : Int) : List MemoryList → Int
  | [] => acc
  | b :: rest => tally p w (if p b then toInt (acc + w b) else acc) rest

def memHoles (m : Mem) : Int := tally (fun b => !b.alloc) (fun _ => 1) 0 m.head

def memAllocated (m : Mem) : Int := tally (fun b => b.alloc) (fun b => b.size) 0 m.head

def memFree (m : Mem) : Int := tally (fun b => !b.alloc) (fun b => b.size) 0 m.head

def memSmallFree (m : Mem) (size : Int) : Int :=
  tally (fun b => !b.alloc && decide (b.size ≤ size)) (fun _ => 1) 0 m.head

def largestFree (freeBytes : Int) : List MemoryList → Int
  | [] => freeBytes
  | b :: rest => largestFree (if !b.alloc && decide (freeBytes < b.size) then b.size else freeBytes) rest

def memLargestFree (m : Mem) : Int := largestFree 0 m.head

/-- The loop looks for a block that starts at `ptr`. -/
def memIsAlloc (m : Mem) (ptr : Nat) : Bool :=
  match seek (fun b => b.ptr == ptr) [] m.head with
  | none => false
  | some c => c.block.alloc

def memPool (m : Mem) : Nat := m.myMemory

/-! ## Clients -/

/-- A run of calls, with the allocations (address and requested size) that
`mymalloc` has returned and that have not been passed to `myfree` since. -/
structure Client where
  mem : Mem
  live : List (Nat × Nat)

inductive Call
  | malloc (requested : Nat)
  | free (block : Nat)
  deriving DecidableEq

def call : StepFn Client Call Nat
  | c, .malloc requested =>
    match mymalloc c.mem requested with
    | none => none
    | some (m, p) => some ({ mem := m, live := if p = null then c.live else (p, requested) :: c.live }, p)
  | c, .free block => some ({ mem := myfree c.mem block, live := c.live.filter fun q => q.1 != block }, null)

/-- The requests `mymalloc` is specified for: a `size_t` of at least 1. -/
def Call.Valid : Call → Prop
  | .malloc requested => 1 ≤ requested ∧ requested < 2 ^ 64
  | .free _ => True

instance (c : Call) : Decidable c.Valid :=
  match c with
  | .malloc requested => inferInstanceAs (Decidable (1 ≤ requested ∧ requested < 2 ^ 64))
  | .free _ => .isTrue trivial

def start (m : Mem) (strategy : Strategies) (sz pool : Nat) : Client :=
  { mem := initmem m strategy sz pool, live := [] }

def MemoryList.seg (b : MemoryList) : Seg := ⟨b.ptr, b.size, b.alloc⟩

def Mem.blocks (m : Mem) : List Seg := m.head.map MemoryList.seg

end OsLabs.Mymem
