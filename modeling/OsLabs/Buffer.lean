import Mathlib.Data.List.Basic
import OsLabs.Machine

/-!
# The shared buffer of the producers and consumers

`buffer.c` keeps up to `bufferSize` items in an array whose unused cells hold
`-1`; `p3.c` adds and takes items in critical sections under one semaphore.
A read or a store outside the array is `none`.
-/

namespace OsLabs.P3

def bufferSize : Nat := 10

structure Buffer where
  stack : Int
  data : List Int
  cells : data.length = bufferSize

def store (data : List Int) (i : Nat) (v : Int) : Option (List Int) :=
  if i < data.length then some (data.set i v) else none

/-- `for(i = n; i > 0; i--) data[i] = data[i - 1];` -/
def shiftUp (data : List Int) : Nat → Option (List Int)
  | 0 => some data
  | i + 1 =>
    match data[i]? with
    | none => none
    | some v =>
      match store data (i + 1) v with
      | none => none
      | some data' => shiftUp data' i

/-- `for(; data[i] != -1; i++);` from the cell `i`, where `rest` starts. -/
def firstFree : (rest : List Int) → (i : Nat) → Option Nat
  | [], _ => none
  | c :: rest, i => if c ≠ -1 then firstFree rest (i + 1) else some i

/-- `n` rounds of `data[i] = data[i + 1]; i++`. -/
def shiftDown (data : List Int) (i : Nat) : Nat → Option (List Int)
  | 0 => some data
  | n + 1 =>
    match data[i + 1]? with
    | none => none
    | some v =>
      match store data i v with
      | none => none
      | some data' => shiftDown data' (i + 1) n

def addData (stack : Int) (data : List Int) (value : Int) : Option (List Int) :=
  if stack ≠ 0 then
    match shiftUp data (bufferSize - 1) with
    | none => none
    | some data' => store data' 0 value
  else
    match firstFree data 0 with
    | none => none
    | some i => store data i value

def popData (data : List Int) : Option (List Int × Int) :=
  match data[0]? with
  | none => none
  | some retval =>
    match shiftDown data 0 (bufferSize - 1) with
    | none => none
    | some data' =>
      match store data' (bufferSize - 1) (-1) with
      | none => none
      | some data'' => some (data'', retval)

theorem store_length {data data' : List Int} {i : Nat} {v : Int} (h : store data i v = some data') :
    data'.length = data.length := by
  unfold store at h
  split at h
  · cases h; simp
  · cases h

theorem shiftUp_length : ∀ {i : Nat} {data data' : List Int}, shiftUp data i = some data' →
    data'.length = data.length
  | 0, _, _, h => by cases h; rfl
  | i + 1, data, data', h => by
    simp only [shiftUp] at h
    split at h
    · cases h
    · split at h
      · cases h
      · rename_i hs
        rw [shiftUp_length h, store_length hs]

theorem shiftDown_length : ∀ {n i : Nat} {data data' : List Int}, shiftDown data i n = some data' →
    data'.length = data.length
  | 0, _, _, _, h => by cases h; rfl
  | n + 1, i, data, data', h => by
    simp only [shiftDown] at h
    split at h
    · cases h
    · split at h
      · cases h
      · rename_i hs
        rw [shiftDown_length h, store_length hs]

theorem addData_length {stack value : Int} {data data' : List Int}
    (h : addData stack data value = some data') : data'.length = data.length := by
  unfold addData at h
  split at h
  · split at h
    · cases h
    · rename_i hs
      rw [store_length h, shiftUp_length hs]
  · split at h
    · cases h
    · exact store_length h

theorem popData_length {data data' : List Int} {v : Int} (h : popData data = some (data', v)) :
    data'.length = data.length := by
  unfold popData at h
  split at h
  · cases h
  · split at h
    · cases h
    · rename_i hd
      split at h
      · cases h
      · rename_i hs
        cases h
        rw [store_length hs, shiftDown_length hd]

def addTo (buff : Buffer) (value : Int) : Option Buffer :=
  match h : addData buff.stack buff.data value with
  | none => none
  | some data => some { buff with data := data, cells := (addData_length h).trans buff.cells }

def pop (buff : Buffer) : Option (Buffer × Int) :=
  match h : popData buff.data with
  | none => none
  | some (data, retval) =>
    some ({ buff with data := data, cells := (popData_length h).trans buff.cells }, retval)

def isEmpty (buff : Buffer) : Bool := buff.data[0]? == some (-1)

def isFull (buff : Buffer) : Bool := buff.data[bufferSize - 1]? != some (-1)

/-! ## Critical sections -/

/-- What a thread does between `sem_wait` and `sem_post`, with the number
`rand_r` gave the producer. -/
inductive Section (producers consumers : Nat)
  | producer (threadNum : Fin producers) (toBuffer : Int)
  | consumer (threadNum : Fin consumers)
  deriving DecidableEq

/-- The line a critical section prints. -/
inductive Line
  | added (item : Int)
  | full
  | taken (item : Int)
  | empty
  deriving DecidableEq

def Section.NonNeg {P C : Nat} : Section P C → Prop
  | .producer _ toBuffer => 0 ≤ toBuffer
  | .consumer _ => True

instance {P C : Nat} (s : Section P C) : Decidable s.NonNeg :=
  match s with
  | .producer _ toBuffer => inferInstanceAs (Decidable (0 ≤ toBuffer))
  | .consumer _ => .isTrue trivial

def critical (P C : Nat) : StepFn Buffer (Section P C) Line
  | buff, .producer _ toBuffer =>
    if isFull buff then some (buff, .full)
    else (addTo buff toBuffer).map fun b => (b, .added toBuffer)
  | buff, .consumer _ =>
    if isEmpty buff then some (buff, .empty)
    else (pop buff).map fun p => (p.1, .taken p.2)

def mainBuffer (stack : Int) : Buffer :=
  { stack := stack, data := List.replicate bufferSize (-1), cells := List.length_replicate }

end OsLabs.P3
