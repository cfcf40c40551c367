import Mathlib.Algebra.BigOperators.Group.Finset.Basic
import OsLabs.Fs

/-!
# Files as lists of bytes

What the file system is for, within one session: a slot holds a name and a list
of bytes, a descriptor holds a slot and a cursor, and a file of `n` bytes takes
as many of the 4096 data blocks as `n` bytes need.
-/

namespace OsLabs.Fs

structure ByteFile where
  name : List Byte
  content : List Byte

structure ByteFiles where
  files : Nat → Option ByteFile
  descriptors : Nat → Option (Nat × Nat)

/-- The first 15 bytes of a name, up to NUL. -/
def nameKey (name : Nat → Byte) : List Byte := (bytes name nameLen).takeWhile (· ≠ 0)

def blocksFor (n : Nat) : Nat := (n + 4095) / 4096

def overwrite (l : List Byte) (c : Nat) (data : List Byte) : List Byte := l.take c ++ data ++ l.drop (c + data.length)

namespace ByteFiles

def empty : ByteFiles := ⟨fun _ => none, fun _ => none⟩

def used (a : ByteFiles) (i : Nat) : Nat :=
  match a.files i with
  | none => 0
  | some f => blocksFor f.content.length

def free (a : ByteFiles) : Nat := 4096 - ∑ i ∈ Finset.range numFiles, a.used i

def setFile (a : ByteFiles) (i : Nat) (f : ByteFile) : ByteFiles := { a with files := Function.update a.files i (some f) }

def setDescriptor (a : ByteFiles) (d : Nat) (desc : Option (Nat × Nat)) : ByteFiles :=
  { a with descriptors := Function.update a.descriptors d desc }

def createFile (a : ByteFiles) (name : Nat → Byte) : ByteFiles × Int :=
  match firstIndex (fun i => (a.files i).isNone) numFiles with
  | none => (a, -1)
  | some i => (a.setFile i ⟨nameKey name, []⟩, 0)

def openFile (a : ByteFiles) (name : Nat → Byte) : ByteFiles × Int :=
  match firstIndex (fun i => (a.files i).any fun f => f.name = nameKey name) numFiles with
  | none => (a, -1)
  | some i =>
    match firstIndex (fun d => (a.descriptors d).isNone) openFiles with
    | none => (a, -1)
    | some d => (a.setDescriptor d (some (i, 0)), d)

/-- `n` bytes from the cursor on, or fewer at the end of the file. -/
def readFile (a : ByteFiles) (d i c : Nat) (f : ByteFile) (n : Nat) : ByteFiles × List Byte :=
  let data := (f.content.drop c).take n
  (a.setDescriptor d (some (i, c + data.length)), data)

/-- How many of `n` bytes find a place when they are written at `c`. -/
def fitting (a : ByteFiles) (c : Nat) (f : ByteFile) (n : Nat) : Nat :=
  min n (4096 * (a.free + blocksFor f.content.length) - c)

def writeFile (a : ByteFiles) (d i c : Nat) (f : ByteFile) (data : List Byte) : ByteFiles :=
  (a.setFile i { f with content := overwrite f.content c data }).setDescriptor d (some (i, c + data.length))

def call : StepFn ByteFiles Call (Int × List Byte)
  | a, .fsCreate _ name => let (a, r) := a.createFile name; some (a, r, [])
  | a, .fsOpen name => let (a, r) := a.openFile name; some (a, r, [])
  | a, .fsClose d => do
    let _ ← a.descriptors d
    some (a.setDescriptor d none, 0, [])
  | a, .fsLseek d offset => do
    let (i, _) ← a.descriptors d
    let f ← a.files i
    if offset < 0 ∨ (f.content.length : Int) < offset then some (a, -1, [])
    else some (a.setDescriptor d (some (i, offset.toNat)), 0, [])
  | a, .fsGetFilesize d => do
    let (i, _) ← a.descriptors d
    let f ← a.files i
    some (a, f.content.length, [])
  | a, .fsRead _ d _ nbyte => do
    let (i, c) ← a.descriptors d
    let f ← a.files i
    let (a, data) := a.readFile d i c f nbyte
    some (a, data.length, data)
  | a, .fsWrite _ _ d buf nbyte => do
    let (i, c) ← a.descriptors d
    let f ← a.files i
    let m := a.fitting c f nbyte
    some (a.writeFile d i c f (bytes buf m), m, [])
  | _, .mount _ | _, .umount | _, .fsDelete _ _ | _, .fsTruncate _ _ _ => none

end ByteFiles

/-! ## Bytes -/

@[simp] theorem bytes_length (buf : Nat → Byte) (n : Nat) : (bytes buf n).length = n := by
  unfold bytes
  rw [List.length_map, List.length_range]

@[simp] theorem bytes_getElem (buf : Nat → Byte) (n j : Nat) (h : j < (bytes buf n).length) :
    (bytes buf n)[j] = buf j := by
  simp [bytes]

theorem bytes_congr {buf buf' : Nat → Byte} {n : Nat} (h : ∀ j < n, buf j = buf' j) :
    bytes buf n = bytes buf' n :=
  List.map_congr_left fun j hj => h j (List.mem_range.mp hj)

theorem bytes_succ (buf : Nat → Byte) (n : Nat) :
    bytes buf (n + 1) = buf 0 :: bytes (fun j => buf (j + 1)) n := by
  unfold bytes
  rw [List.range_succ_eq_map, List.map_cons, List.map_map]
  rfl

theorem bytes_drop_take (buf : Nat → Byte) (len c n : Nat) :
    ((bytes buf len).drop c).take n = bytes (fun j => buf (c + j)) (min n (len - c)) := by
  apply List.ext_getElem
  · simp
  · intro j h₁ h₂
    simp

theorem bytes_overwrite {g g' buf : Nat → Byte} {len c m : Nat} (hc : c ≤ len)
    (hg : ∀ j < max len (c + m), g' j = if c ≤ j ∧ j < c + m then buf (j - c) else g j) :
    bytes g' (max len (c + m)) = overwrite (bytes g len) c (bytes buf m) := by
  unfold overwrite
  apply List.ext_getElem
  · simp only [List.length_append, List.length_take, List.length_drop, bytes_length]
    omega
  · intro j h₁ h₂
    have hj : j < max len (c + m) := by simpa using h₁
    rw [bytes_getElem, hg j hj]
    by_cases hlt : j < c + m
    · rw [List.getElem_append_left (by simp; omega)]
      by_cases hcj : j < c
      · rw [List.getElem_append_left (by simp; omega), List.getElem_take, bytes_getElem, if_neg (by omega)]
      · rw [List.getElem_append_right (by simp; omega), bytes_getElem, if_pos (by omega)]
        congr 1
        simp
        omega
    · rw [List.getElem_append_right (by simp; omega), List.getElem_drop, bytes_getElem, if_neg (by omega)]
      congr 1
      simp
      omega

theorem strncmpEq_iff : ∀ (n : Nat) (s t : Nat → Byte),
    strncmpEq n s t = true ↔ (bytes s n).takeWhile (· ≠ 0) = (bytes t n).takeWhile (· ≠ 0)
  | 0, _, _ => ⟨fun _ => rfl, fun _ => rfl⟩
  | n + 1, s, t => by
    have ih := strncmpEq_iff n (fun j => s (j + 1)) (fun j => t (j + 1))
    unfold strncmpEq
    rw [bytes_succ, bytes_succ, List.takeWhile_cons, List.takeWhile_cons]
    simp only [Bool.and_eq_true, Bool.or_eq_true, beq_iff_eq, decide_eq_true_eq, ih]
    by_cases hs : s 0 = 0
    · rw [if_neg (not_not_intro hs)]
      by_cases ht : t 0 = 0
      · rw [if_neg (not_not_intro ht)]
        exact ⟨fun _ => rfl, fun _ => ⟨hs.trans ht.symm, .inl hs⟩⟩
      · rw [if_pos ht]
        exact ⟨fun h => absurd (h.1.symm.trans hs) ht, fun h => by cases h⟩
    · rw [if_pos hs]
      by_cases ht : t 0 = 0
      · rw [if_neg (not_not_intro ht)]
        exact ⟨fun h => absurd (h.1.trans ht) hs, fun h => by cases h⟩
      · rw [if_pos ht, List.cons.injEq]
        exact and_congr_right fun _ => ⟨fun h => h.resolve_left hs, .inr⟩

end OsLabs.Fs
