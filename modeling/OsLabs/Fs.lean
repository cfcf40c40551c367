import OsLabs.CInt
import OsLabs.Machine
import Mathlib.Logic.Function.Basic

/-!
# The file system of `disk.c`, `fsutil.c` and `fs.c`

Arrays and memory blocks are functions of the index, and an access to an array
checks its bound. `none` is an access out of bounds, the use of freed memory or
a loop that does not end. What `malloc` leaves in a block of memory is an
argument `heap` or `junk` of the operation. All system calls succeed.
-/

namespace OsLabs.Fs

abbrev diskBlocks : Nat := 8192

abbrev blockSize : Nat := 4096

abbrev numFiles : Nat := 64

abbrev openFiles : Nat := 32

abbrev nameLen : Nat := 15

/-- Plain `char`, a signed type. -/
abbrev Byte := BitVec 8

abbrev Block := Nat → Byte

structure FileMeta where
  inUse : Byte
  name : Nat → Byte
  numBlocks : Int
  sizeLast : Int
  blocks : Nat → Int

structure Descriptor where
  file : Int
  cursor : Int

/-- The disk and the variables of `fs.c`. -/
structure FileSystem where
  active : Bool
  disk : Nat → Block
  usage : Nat → Byte
  fileMetas : Nat → FileMeta
  descriptors : Nat → Descriptor

/-! ## Memory and disk -/

def toByte (x : Int) : Byte := BitVec.ofInt 8 x

def memcpy (dst : Nat → Byte) (off : Nat) (src : Nat → Byte) (n : Nat) : Nat → Byte :=
  fun j => if off ≤ j ∧ j < off + n then src (j - off) else dst j

def strncmpEq : (n : Nat) → (s t : Nat → Byte) → Bool
  | 0, _, _ => true
  | n + 1, s, t => s 0 == t 0 && (s 0 == 0 || strncmpEq n (fun j => s (j + 1)) fun j => t (j + 1))

/-- The first `i` of `for(i = 0; i < n; i++)` with `p`. -/
def firstIndex (p : Nat → Bool) (n : Nat) : Option Nat := (List.range n).find? p

namespace FileSystem

def blockWrite (fs : FileSystem) (block : Int) (buf : Block) : FileSystem :=
  if fs.active ∧ 0 ≤ block ∧ block < diskBlocks then { fs with disk := Function.update fs.disk block.toNat buf }
  else fs

def blockRead (fs : FileSystem) (block : Int) (buf : Block) : Block :=
  if fs.active ∧ 0 ≤ block ∧ block < diskBlocks then fs.disk block.toNat else buf

def descriptor (fs : FileSystem) (fildes : Nat) : Option Descriptor :=
  if fildes < openFiles then some (fs.descriptors fildes) else none

def fileMeta (fs : FileSystem) (file : Int) : Option FileMeta :=
  if 0 ≤ file ∧ file < numFiles then some (fs.fileMetas file.toNat) else none

def setMeta (fs : FileSystem) (file : Int) (f : FileMeta) : FileSystem :=
  { fs with fileMetas := Function.update fs.fileMetas file.toNat f }

def setDescriptor (fs : FileSystem) (fildes : Nat) (desc : Descriptor) : FileSystem :=
  { fs with descriptors := Function.update fs.descriptors fildes desc }

end FileSystem

def FileMeta.blockAt (f : FileMeta) (k : Int) : Option Int :=
  if 0 ≤ k ∧ k < (diskBlocks / 2 : Nat) then some (f.blocks k.toNat) else none

/-! ## Metadata on the disk -/

/-- The two bytes of a short, the high one first. -/
def putShort (data : Block) (j : Nat) (x : Int) : Block :=
  Function.update (Function.update data j (toByte (x.tdiv 256))) (j + 1) (toByte (x.tmod 256))

def getShort (data : Block) (j : Nat) : Int := toShort (256 * (data j).toInt + (data (j + 1)).toInt)

def infoBlock (heap : Block) (f : FileMeta) : Block :=
  let data := Function.update heap 0 f.inUse
  let data := memcpy data 1 f.name nameLen
  let data := putShort data (nameLen + 2) f.numBlocks
  putShort data (nameLen + 4) f.sizeLast

/-- Half of the block numbers, from `k` on. -/
def listBlock (f : FileMeta) (k : Nat) : Block := fun j =>
  if j % 2 = 0 then toByte ((f.blocks (j / 2 + k)).tdiv 256) else toByte ((f.blocks (j / 2 + k)).tmod 256)

def saveFileMeta (heap : Block) (fs : FileSystem) (filenum : Int) : Option FileSystem :=
  if fs.active then do
    let f ← fs.fileMeta filenum
    let fs := fs.blockWrite (3 * filenum + 1) (infoBlock heap f)
    let fs := fs.blockWrite (3 * filenum + 2) (listBlock f 0)
    some (fs.blockWrite (3 * filenum + 3) (listBlock f (diskBlocks / 4)))
  else some fs

/-- The part of `mount_fs` that loads one file; `junk` is in the blocks that it does not set. -/
def loadFileMeta (junk : Nat → Int) (disk : Nat → Block) (i : Nat) : FileMeta :=
  let data := disk (3 * i + 1)
  if data 0 ≠ 0 then
    { inUse := data 0
      name := fun j => data (j + 1)
      numBlocks := getShort data (nameLen + 2)
      sizeLast := getShort data (nameLen + 4)
      blocks := fun k =>
        if k < diskBlocks / 4 then getShort (disk (3 * i + 2)) (2 * k)
        else getShort (disk (3 * i + 3)) (2 * (k - diskBlocks / 4)) }
  else
    { inUse := 0
      name := fun _ => 0
      numBlocks := 0
      sizeLast := 0
      blocks := fun k => if k < diskBlocks / 4 then 0 else junk k }

/-! ## File system management -/

/-- `make_fs`, with no disk open: whatever was on the disk, it is zero now. -/
def makeFs (fs : FileSystem) : FileSystem := { fs with active := false, disk := fun _ _ => 0 }

def mountFs (junk : Nat → Nat → Int) (fs : FileSystem) : FileSystem × Int :=
  if fs.active then (fs, -1)
  else
    ({ active := true
       disk := fs.disk
       usage := fs.disk 0
       fileMetas := fun i => loadFileMeta (junk i) fs.disk i
       descriptors := fun _ => ⟨-1, 0⟩ }, 0)

/-- The arrays are freed; using them when no disk is mounted is undefined. -/
def umountFs (fs : FileSystem) : Option (FileSystem × Int) :=
  if fs.active then
    if (firstIndex (fun i => (fs.descriptors i).file != -1) openFiles).isSome then some (fs, -1)
    else some ({ fs with active := false }, 0)
  else none

/-! ## File functions -/

def fsOpen (fs : FileSystem) (name : Nat → Byte) : FileSystem × Int :=
  if fs.active then
    match firstIndex (fun i => (fs.fileMetas i).inUse != 0 && strncmpEq nameLen (fs.fileMetas i).name name) numFiles with
    | none => (fs, -1)
    | some fileNum =>
      match firstIndex (fun i => (fs.descriptors i).file == -1) openFiles with
      | none => (fs, -1)
      | some i => (fs.setDescriptor i ⟨fileNum, 0⟩, i)
  else (fs, -1)

def fsClose (fs : FileSystem) (fildes : Nat) : Option (FileSystem × Int) :=
  if fs.active then do
    let desc ← fs.descriptor fildes
    if desc.file = -1 then some (fs, -1) else some (fs.setDescriptor fildes { desc with file := -1 }, 0)
  else some (fs, -1)

def fsCreate (heap : Block) (fs : FileSystem) (name : Nat → Byte) : Option (FileSystem × Int) :=
  if fs.active then
    match firstIndex (fun i => (fs.fileMetas i).inUse == 0) numFiles with
    | none => some (fs, -1)
    | some i => do
      let f := fs.fileMetas i
      let fs := fs.setMeta i { f with inUse := 1, name := memcpy f.name 0 name nameLen, numBlocks := 0, sizeLast := 0 }
      let fs ← saveFileMeta heap fs i
      some (fs, 0)
  else some (fs, -1)

/-- `usage` after the first `n` blocks of the file have been marked as free. -/
def freeBlocks (f : FileMeta) (usage : Nat → Byte) : Nat → Option (Nat → Byte)
  | 0 => some usage
  | n + 1 => do
    let usage ← freeBlocks f usage n
    let block ← f.blockAt n
    if 0 ≤ block - (diskBlocks / 2 : Nat) ∧ block - (diskBlocks / 2 : Nat) < (diskBlocks / 2 : Nat) then
      some (Function.update usage (block - (diskBlocks / 2 : Nat)).toNat 0)
    else none

/-- The name is not looked at: the first file in use is deleted. -/
def fsDelete (heap : Block) (fs : FileSystem) (_name : Nat → Byte) : Option (FileSystem × Int) :=
  if fs.active then
    match firstIndex (fun i => (fs.fileMetas i).inUse != 0) numFiles with
    | none => some (fs, -1)
    | some i => do
      let f := { fs.fileMetas i with inUse := 0 }
      let usage ← freeBlocks f fs.usage f.numBlocks.toNat
      let fs ← saveFileMeta heap ({ fs with usage := usage }.setMeta i f) i
      some (fs, 0)
  else some (fs, -1)

def FileMeta.size (f : FileMeta) : Int :=
  if f.numBlocks = 0 then 0 else (f.numBlocks - 1) * blockSize + f.sizeLast

def fsGetFilesize (fs : FileSystem) (fildes : Nat) : Option Int :=
  if fs.active then do
    let desc ← fs.descriptor fildes
    if desc.file = -1 then some (-1)
    else do
      let f ← fs.fileMeta desc.file
      some f.size
  else some (-1)

def moveCursor (fs : FileSystem) (fildes : Nat) (desc : Descriptor) (dist : Int) : FileSystem :=
  fs.setDescriptor fildes { desc with cursor := toInt (desc.cursor + dist) }

structure Reading where
  fs : FileSystem
  data : Block
  buf : Nat → Byte
  nbyte : Nat
  read : Nat

def readLoop (fildes : Nat) : (fuel : Nat) → Reading → Option Reading
  | 0, _ => none
  | fuel + 1, r => do
    let desc ← r.fs.descriptor fildes
    let size ← fsGetFilesize r.fs fildes
    if desc.cursor < size ∧ 0 < r.nbyte then do
      let offset := desc.cursor.tmod blockSize
      let dist := min (blockSize - offset) (size - desc.cursor)
      let dist := if r.nbyte < toSize dist then (r.nbyte : Int) else dist
      let f ← r.fs.fileMeta desc.file
      let block ← f.blockAt (desc.cursor.tdiv blockSize)
      let data := r.fs.blockRead block r.data
      readLoop fildes fuel
        { fs := moveCursor r.fs fildes desc dist
          data := data
          buf := memcpy r.buf r.read (fun j => data (j + offset.toNat)) dist.toNat
          nbyte := r.nbyte - dist.toNat
          read := r.read + dist.toNat }
    else some r

/-- The new contents of `buf`, and the number of bytes read. -/
def fsRead (heap : Block) (fs : FileSystem) (fildes : Nat) (buf : Nat → Byte) (nbyte : Nat) :
    Option (FileSystem × (Nat → Byte) × Int) :=
  if fs.active then do
    let r ← readLoop fildes (nbyte + 1) { fs := fs, data := heap, buf := buf, nbyte := nbyte, read := 0 }
    some (r.fs, r.buf, r.read)
  else some (fs, buf, -1)

def findEmptyBlock (fs : FileSystem) : Option Nat :=
  if fs.active then firstIndex (fun i => fs.usage i == 0) (diskBlocks / 2) else none

structure Writing where
  fs : FileSystem
  data : Block
  buf : Nat → Byte
  nbyte : Nat
  written : Nat

/-- The part of one block that both loops of `fs_write` write. -/
def writeChunk (fildes : Nat) (w : Writing) : Option Writing := do
  let desc ← w.fs.descriptor fildes
  let offset := desc.cursor.tmod blockSize
  let dist := blockSize - offset
  let dist := if w.nbyte < toSize dist then (w.nbyte : Int) else dist
  let f ← w.fs.fileMeta desc.file
  let block ← f.blockAt (desc.cursor.tdiv blockSize)
  let data := memcpy (w.fs.blockRead block w.data) offset.toNat w.buf dist.toNat
  let fs := moveCursor (w.fs.blockWrite block data) fildes desc dist
  let fs :=
    if f.size < toInt (desc.cursor + dist) then fs.setMeta desc.file { f with sizeLast := toShort (f.sizeLast + dist) }
    else fs
  some
    { fs := fs
      data := data
      buf := fun j => w.buf (j + dist.toNat)
      nbyte := w.nbyte - dist.toNat
      written := w.written + dist.toNat }

/-- `newblock` becomes the last block of the file. -/
def addBlock (fs : FileSystem) (file : Int) (newblock : Nat) : Option FileSystem := do
  let f ← fs.fileMeta file
  let _ ← f.blockAt f.numBlocks
  some { fs.setMeta file { f with
    blocks := Function.update f.blocks f.numBlocks.toNat (toShort (newblock + (diskBlocks / 2 : Nat)))
    numBlocks := toShort (f.numBlocks + 1)
    sizeLast := 0 } with usage := Function.update fs.usage newblock 1 }

def writeInside (fildes : Nat) : (fuel : Nat) → Writing → Option Writing
  | 0, _ => none
  | fuel + 1, w => do
    let desc ← w.fs.descriptor fildes
    let size ← fsGetFilesize w.fs fildes
    if desc.cursor < size ∧ 0 < w.nbyte then do
      let w ← writeChunk fildes w
      writeInside fildes fuel w
    else some w

/-- "write past former end" -/
def writePast (fildes : Nat) : (fuel : Nat) → Writing → Option Writing
  | 0, _ => none
  | fuel + 1, w =>
    if 0 < w.nbyte then do
      let desc ← w.fs.descriptor fildes
      let f ← w.fs.fileMeta desc.file
      if f.sizeLast = blockSize ∨ f.numBlocks = 0 then
        match findEmptyBlock w.fs with
        | none => some w
        | some newblock => do
          let fs ← addBlock w.fs desc.file newblock
          let w ← writeChunk fildes { w with fs := fs }
          writePast fildes fuel w
      else do
        let w ← writeChunk fildes w
        writePast fildes fuel w
    else some w

def fsWrite (heap heap' : Block) (fs : FileSystem) (fildes : Nat) (buf : Nat → Byte) (nbyte : Nat) :
    Option (FileSystem × Int) :=
  if fs.active then do
    let w ← writeInside fildes (nbyte + 1) { fs := fs, data := heap, buf := buf, nbyte := nbyte, written := 0 }
    let w ← writePast fildes (w.nbyte + 1) w
    let desc ← w.fs.descriptor fildes
    let fs ← saveFileMeta heap' w.fs desc.file
    some (fs, w.written)
  else some (fs, -1)

def fsLseek (fs : FileSystem) (fildes : Nat) (offset : Int) : Option (FileSystem × Int) :=
  if fs.active then do
    let desc ← fs.descriptor fildes
    let size ← fsGetFilesize fs fildes
    if desc.file = -1 ∨ offset < 0 ∨ size < offset then some (fs, -1)
    else some (fs.setDescriptor fildes { desc with cursor := toInt offset }, 0)
  else some (fs, -1)

/-- `while(target_blocks < f->num_blocks)`, for a loop that runs `n` times. -/
def dropBlocks : (n : Nat) → FileMeta → (Nat → Byte) → Option (FileMeta × (Nat → Byte))
  | 0, f, usage => some (f, usage)
  | n + 1, f, usage => do
    let block ← f.blockAt f.numBlocks
    if 0 ≤ block - (diskBlocks / 2 : Nat) ∧ block - (diskBlocks / 2 : Nat) < (diskBlocks / 2 : Nat) then
      dropBlocks n { f with numBlocks := f.numBlocks - 1 }
        (Function.update usage (block - (diskBlocks / 2 : Nat)).toNat 0)
    else none

def fsTruncate (heap : Block) (fs : FileSystem) (fildes : Nat) (length : Int) : Option (FileSystem × Int) :=
  if fs.active then do
    let desc ← fs.descriptor fildes
    let size ← fsGetFilesize fs fildes
    if desc.file = -1 ∨ size < length then some (fs, -1)
    else do
      let f ← fs.fileMeta desc.file
      let targetBlocks := toInt (length.tdiv blockSize)
      let targetBlocks := if 0 < length.tmod blockSize then targetBlocks + 1 else targetBlocks
      let (f, usage) ← dropBlocks (f.numBlocks - targetBlocks).toNat f fs.usage
      let f := { f with sizeLast := toShort (length.tmod blockSize) }
      let fs ← saveFileMeta heap ({ fs with usage := usage }.setMeta desc.file f) desc.file
      some (fs, 0)
  else some (fs, -1)

/-! ## Calls -/

inductive Call
  | mount (junk : Nat → Nat → Int)
  | umount
  | fsOpen (name : Nat → Byte)
  | fsClose (fildes : Nat)
  | fsCreate (heap : Block) (name : Nat → Byte)
  | fsDelete (heap : Block) (name : Nat → Byte)
  | fsRead (heap : Block) (fildes : Nat) (buf : Nat → Byte) (nbyte : Nat)
  | fsWrite (heap heap' : Block) (fildes : Nat) (buf : Nat → Byte) (nbyte : Nat)
  | fsGetFilesize (fildes : Nat)
  | fsLseek (fildes : Nat) (offset : Int)
  | fsTruncate (heap : Block) (fildes : Nat) (length : Int)

def bytes (buf : Nat → Byte) (n : Nat) : List Byte := (List.range n).map buf

/-- A call gives its return value and the bytes that it has put in the buffer. -/
def call : StepFn FileSystem Call (Int × List Byte)
  | fs, .mount junk =>
    let (fs, r) := mountFs junk fs
    some (fs, r, [])
  | fs, .umount => (umountFs fs).map fun (fs, r) => (fs, r, [])
  | fs, .fsOpen name =>
    let (fs, r) := Fs.fsOpen fs name
    some (fs, r, [])
  | fs, .fsClose fildes => (Fs.fsClose fs fildes).map fun (fs, r) => (fs, r, [])
  | fs, .fsCreate heap name => (Fs.fsCreate heap fs name).map fun (fs, r) => (fs, r, [])
  | fs, .fsDelete heap name => (Fs.fsDelete heap fs name).map fun (fs, r) => (fs, r, [])
  | fs, .fsRead heap fildes buf nbyte =>
    (Fs.fsRead heap fs fildes buf nbyte).map fun (fs, buf, r) => (fs, r, bytes buf r.toNat)
  | fs, .fsWrite heap heap' fildes buf nbyte => (Fs.fsWrite heap heap' fs fildes buf nbyte).map fun (fs, r) => (fs, r, [])
  | fs, .fsGetFilesize fildes => (Fs.fsGetFilesize fs fildes).map fun r => (fs, r, [])
  | fs, .fsLseek fildes offset => (Fs.fsLseek fs fildes offset).map fun (fs, r) => (fs, r, [])
  | fs, .fsTruncate heap fildes length => (Fs.fsTruncate heap fs fildes length).map fun (fs, r) => (fs, r, [])

end OsLabs.Fs
