import OsLabs.FsFrame
import OsLabs.FsSession

/-!
# The blocks that a read or a write takes

The loops of `fs_read` and `fs_write` take `blocks[cursor / BLOCK_SIZE]` without
looking at `num_blocks`. The spots of a call are the file systems in which it
does so. Here the blocks may be any, and the sizes need to be in range only.
-/

namespace OsLabs.Fs

/-! ## Spots -/

def readSpots (fildes : Nat) : (fuel : Nat) → FileSystem → (nbyte : Nat) → List FileSystem
  | 0, _, _ => []
  | fuel + 1, fs, nbyte =>
    (fs.descriptor fildes).elim [] fun desc => (fsGetFilesize fs fildes).elim [] fun size =>
      if desc.cursor < size ∧ 0 < nbyte then
        let offset := desc.cursor.tmod blockSize
        let dist := min (blockSize - offset) (size - desc.cursor)
        let dist := if nbyte < toSize dist then (nbyte : Int) else dist
        fs :: readSpots fildes fuel (moveCursor fs fildes desc dist) (nbyte - dist.toNat)
      else []

def insideSpots (fildes : Nat) : (fuel : Nat) → Writing → List FileSystem
  | 0, _ => []
  | fuel + 1, w =>
    (w.fs.descriptor fildes).elim [] fun desc => (fsGetFilesize w.fs fildes).elim [] fun size =>
      if desc.cursor < size ∧ 0 < w.nbyte then w.fs :: (writeChunk fildes w).elim [] (insideSpots fildes fuel)
      else []

/-- A file that needs a new block has it before the block is taken. -/
def pastSpots (fildes : Nat) : (fuel : Nat) → Writing → List FileSystem
  | 0, _ => []
  | fuel + 1, w =>
    if 0 < w.nbyte then
      (w.fs.descriptor fildes).elim [] fun desc => (w.fs.fileMeta desc.file).elim [] fun f =>
        if f.sizeLast = blockSize ∨ f.numBlocks = 0 then
          (findEmptyBlock w.fs).elim [] fun newblock => (addBlock w.fs desc.file newblock).elim [] fun fs =>
            fs :: (writeChunk fildes { w with fs := fs }).elim [] (pastSpots fildes fuel)
        else w.fs :: (writeChunk fildes w).elim [] (pastSpots fildes fuel)
    else []

def writeSpots (heap : Block) (fs : FileSystem) (fildes : Nat) (buf : Nat → Byte) (nbyte : Nat) : List FileSystem :=
  let w : Writing := { fs := fs, data := heap, buf := buf, nbyte := nbyte, written := 0 }
  if fs.active then
    insideSpots fildes (nbyte + 1) w ++
      (writeInside fildes (nbyte + 1) w).elim [] fun w => pastSpots fildes (w.nbyte + 1) w
  else []

/-! ## Sizes -/

structure FileMeta.Sized (f : FileMeta) : Prop where
  nonneg : 0 ≤ f.numBlocks
  le : f.numBlocks ≤ 4096
  sizeLast : 0 < f.numBlocks → 0 ≤ f.sizeLast ∧ f.sizeLast ≤ 4096

/-- A write of `n` bytes at `c` that starts before the end of the file and goes
over it stops in the last block, where `size_last` has room for all that is
written of this block. -/
def FileMeta.Admits (f : FileMeta) (c : Int) (n : Nat) : Prop :=
  let stop := min (c + n) (f.numBlocks * blockSize)
  c < f.size → f.size < stop → f.sizeLast + (stop - max c ((f.numBlocks - 1) * blockSize)) ≤ blockSize

theorem FileMeta.Admits.chunk {f : FileMeta} {c n : Nat} (h : f.Admits c n) :
    f.Admits (c + chunk c n : Nat) (n - chunk c n) := by
  have hle := chunk_le c n
  unfold FileMeta.Admits at *
  simp only [blockSize] at *
  intro h1 h2
  have := h (by omega) (by omega)
  omega

theorem FileMeta.Ok.sized {f : FileMeta} (h : f.Ok) : f.Sized := ⟨h.nonneg, h.le, h.sizeLast⟩

section
variable {f : FileMeta} (h : f.Sized)
include h

theorem FileMeta.Sized.size_bounds : 0 ≤ f.size ∧ f.size ≤ f.numBlocks * 4096 ∧ f.size ≤ 16777216 := by
  have h1 := h.nonneg
  have h2 := h.le
  have h3 := h.sizeLast
  unfold FileMeta.size
  simp only [blockSize]
  split <;> omega

theorem FileMeta.Sized.length_eq : (f.length : Int) = f.size := Int.toNat_of_nonneg h.size_bounds.1

theorem FileMeta.Sized.grown {d : Nat} (hpos : 0 < f.numBlocks) (hd : f.sizeLast + d ≤ 4096) :
    FileMeta.Sized { f with sizeLast := f.sizeLast + d } ∧
      FileMeta.size { f with sizeLast := f.sizeLast + d } = f.size + d := by
  have hsl := h.sizeLast hpos
  refine ⟨⟨h.nonneg, h.le, fun _ => ?_⟩, ?_⟩
  · simp only
    omega
  · unfold FileMeta.size
    simp only
    rw [if_neg (by omega), if_neg (by omega)]
    omega

/-- A chunk that goes over the end is the last one. -/
theorem FileMeta.Sized.admits_over {c n : Nat} (ha : f.Admits c n) (hlt : c < f.size)
    (hc : f.size < (c + chunk c n : Nat)) :
    0 < f.numBlocks ∧ f.sizeLast + (chunk c n : Nat) ≤ 4096 ∧ n - chunk c n = 0 := by
  have h1 := h.nonneg
  have h3 := h.sizeLast
  have h4 := h.size_bounds
  have hle := chunk_le c n
  have hblock := chunk_block c n
  have hpos : 0 < f.numBlocks := by omega
  have hsize : f.size = (f.numBlocks - 1) * 4096 + f.sizeLast := by
    unfold FileMeta.size
    simp only [blockSize]
    omega
  have hroom := ha hlt (by simp only [blockSize]; omega)
  simp only [blockSize] at hroom
  refine ⟨hpos, ?_, ?_⟩
  · omega
  · unfold chunk at *
    omega

end

/-! ## One chunk -/

section
variable {fildes i c d : Nat} {fs : FileSystem}

variable (fildes) in
theorem chunked_size (hs : (fs.fileMetas i).Sized) (buf : Nat → Byte)
    (hd : (fs.fileMetas i).size < (c + d : Nat) → 0 < (fs.fileMetas i).numBlocks ∧ (fs.fileMetas i).sizeLast + d ≤ 4096) :
    ((fs.chunked fildes i c d buf).fileMetas i).Sized ∧ ((fs.chunked fildes i c d buf).fileMetas i).size =
      if (fs.fileMetas i).size < (c + d : Nat) then (fs.fileMetas i).size + d else (fs.fileMetas i).size := by
  have hlen := hs.length_eq
  simp only [FileSystem.chunked]
  by_cases hlt : (fs.fileMetas i).size < (c + d : Nat)
  · obtain ⟨hpos, hle⟩ := hd hlt
    rw [if_pos hlt, if_pos (by omega), Function.update_self]
    exact hs.grown hpos hle
  · rw [if_neg hlt, if_neg (by omega)]
    exact ⟨hs, rfl⟩

/-- A chunk whose block is one of the file's is written, whatever the number of the block. -/
theorem writeChunk_chunked {w : Writing} (hfd : fildes < 32) (hd : w.fs.descriptors fildes = ⟨i, c⟩)
    (hi : i < 64) (hs : (w.fs.fileMetas i).Sized) (hc : (c : Int) < (w.fs.fileMetas i).numBlocks * 4096) :
    ∃ w' disk, writeChunk fildes w = some w' ∧ w'.nbyte = w.nbyte - chunk c w.nbyte ∧
      w'.fs = { w.fs.chunked fildes i c (chunk c w.nbyte) w.buf with disk := disk } := by
  have hle := hs.le
  have hsl := hs.sizeLast (by omega)
  have hlt : (w.fs.fileMetas i).size < (c + chunk c w.nbyte : Nat) ↔
      (w.fs.fileMetas i).length < c + chunk c w.nbyte := by
    rw [← hs.length_eq]
    exact Int.ofNat_lt
  unfold writeChunk
  simp only [descriptor_eq hfd, hd, Option.bind_eq_bind, Option.bind_some, fileMeta_eq hi, block_eq,
    blockAt_eq _ (show c / 4096 < 4096 by omega), offset_eq, dist_eq, Int.toNat_natCast]
  generalize memcpy (w.fs.blockRead ((w.fs.fileMetas i).blocks (c / 4096)) w.data)
    (c % 4096) w.buf (chunk c w.nbyte) = data
  obtain ⟨disk, hdisk⟩ := blockWrite_disk w.fs ((w.fs.fileMetas i).blocks (c / 4096)) data
  refine ⟨_, disk, rfl, rfl, ?_⟩
  rw [hdisk]
  unfold FileSystem.chunked moveCursor FileSystem.setDescriptor FileSystem.setMeta
  simp only [cursor_add (show c < 16777216 by omega), sizeLast_add hsl, Int.toNat_natCast, hlt]
  split <;> rfl

end

theorem addBlock_some {fs fs' : FileSystem} {i b : Nat} (hi : i < 64)
    (hnonneg : 0 ≤ (fs.fileMetas i).numBlocks) (h : addBlock fs i b = some fs') :
    (fs.fileMetas i).numBlocks < 4096 ∧ ∃ f : FileMeta, fs'.fileMetas = Function.update fs.fileMetas i f ∧
      f.inUse = (fs.fileMetas i).inUse ∧ f.numBlocks = (fs.fileMetas i).numBlocks + 1 ∧ f.sizeLast = 0 ∧
      fs'.active = fs.active ∧ fs'.descriptors = fs.descriptors := by
  unfold addBlock at h
  simp only [Option.bind_eq_bind, fileMeta_eq hi, Option.bind_some, Option.bind_eq_some_iff] at h
  obtain ⟨old, hold, h⟩ := h
  have hlt : (fs.fileMetas i).numBlocks < 4096 := by
    unfold FileMeta.blockAt at hold
    split at hold
    · rename_i hrange
      exact hrange.2
    · cases hold
  cases h
  exact ⟨hlt, _, rfl, rfl, toShort_of_bounds (by omega) (by omega), rfl, rfl, rfl⟩

/-! ## A write that is under way -/

/-- A write through `fildes` to file `i`, begun in `fs`, has come to `c`. -/
structure Underway (fildes i c : Nat) (fs s : FileSystem) : Prop where
  active : s.active = true
  sized : (s.fileMetas i).Sized
  inUse : (s.fileMetas i).inUse = (fs.fileMetas i).inUse
  others : ∀ k, k ≠ i → s.fileMetas k = fs.fileMetas k
  descriptors : s.descriptors = Function.update fs.descriptors fildes ⟨i, c⟩
  grows : (fs.fileMetas i).size ≤ (s.fileMetas i).size
  owned : Owned fs → i < 64 → (fs.fileMetas i).inUse ≠ 0 → Owned s

/-- The block that is taken in `s` is one of the file's. -/
def Spot (fildes i : Nat) (fs s : FileSystem) : Prop :=
  ∃ c : Nat, Underway fildes i c fs s ∧ c < (s.fileMetas i).numBlocks * 4096

section
variable {fildes i c d : Nat} {fs s s' : FileSystem}

theorem Underway.start (ha : fs.active = true) (hs : (fs.fileMetas i).Sized) (hd : fs.descriptors fildes = ⟨i, c⟩) :
    Underway fildes i c fs fs where
  active := ha
  sized := hs
  inUse := rfl
  others _ _ := rfl
  descriptors := by rw [← hd, Function.update_eq_self]
  grows := le_refl _
  owned h _ _ := h

section
variable (h : Underway fildes i c fs s)
include h

theorem Underway.descriptor : s.descriptors fildes = ⟨i, c⟩ := by
  rw [h.descriptors, Function.update_self]

theorem Underway.chunk (disk : Nat → Block) (buf : Nat → Byte)
    (hd : (s.fileMetas i).size < (c + d : Nat) → 0 < (s.fileMetas i).numBlocks ∧ (s.fileMetas i).sizeLast + d ≤ 4096) :
    Underway fildes i (c + d) fs { s.chunked fildes i c d buf with disk := disk } := by
  have hmetas := chunked_metas s fildes i c d buf
  obtain ⟨hsized, hsize⟩ := chunked_size fildes h.sized buf hd
  refine ⟨h.active, hsized, (hmetas i).1.trans h.inUse, ?_, ?_, ?_, ?_⟩
  · intro k hk
    exact ((hmetas k).2.2.2.2 hk).trans (h.others k hk)
  · simp only [FileSystem.chunked]
    rw [h.descriptors, Function.update_idem]
  · have hgrows := h.grows
    simp only [hsize]
    split <;> omega
  · intro ho hi hu
    have hso := h.owned ho hi hu
    refine hso.of_same rfl (fun k => ⟨(hmetas k).1, (hmetas k).2.2.1, (hmetas k).2.2.2.1⟩) ?_
    intro k hk
    by_cases hki : k = i
    · subst hki
      refine ⟨hsized.nonneg, hsized.le, ?_, hsized.sizeLast⟩
      simp only [(hmetas k).2.2.1, (hmetas k).2.2.2.1]
      exact (hso.ok k hk).blocks
    · simp only [(hmetas k).2.2.2.2 hki]
      exact hso.ok k hk

theorem Underway.add {b : Nat} (hi : i < 64) (hb : findEmptyBlock s = some b)
    (hadd : addBlock s i b = some s')
    (hfull : (s.fileMetas i).sizeLast = 4096 ∨ (s.fileMetas i).numBlocks = 0) :
    Underway fildes i c fs s' ∧ 0 < (s'.fileMetas i).numBlocks ∧ (s'.fileMetas i).sizeLast = 0 ∧
      (s'.fileMetas i).size = (s.fileMetas i).size := by
  obtain ⟨hb4, hz⟩ := findEmptyBlock_some h.active hb
  have hnonneg := h.sized.nonneg
  have howned : Owned fs → i < 64 → (fs.fileMetas i).inUse ≠ 0 → Owned s' := by
    intro ho _ hu
    have hso := h.owned ho hi hu
    have hsu : (s.fileMetas i).inUse ≠ 0 := by rwa [h.inUse]
    rw [addBlock_eq hb4 hz hso hi hsu] at hadd
    cases hadd
    exact added_owned hb4 hz hso hi hsu
  obtain ⟨hlt, f, hmetas, hinUse, hnum, hsl, hactive, hdesc⟩ := addBlock_some hi hnonneg hadd
  have hself : s'.fileMetas i = f := by rw [hmetas, Function.update_self]
  have hsize : f.size = (s.fileMetas i).size := by
    unfold FileMeta.size
    rw [hnum, hsl]
    simp only [blockSize]
    omega
  rw [hself]
  refine ⟨?_, by omega, hsl, hsize⟩
  constructor
  · rw [hactive, h.active]
  · rw [hself]
    exact ⟨by omega, by omega, fun _ => by omega⟩
  · rw [hself, hinUse, h.inUse]
  · intro k hk
    rw [hmetas, Function.update_of_ne hk, h.others k hk]
  · rw [hdesc, h.descriptors]
  · rw [hself, hsize]
    exact h.grows
  · exact howned

theorem Underway.seek (c' : Nat) : Underway fildes i c' fs (s.setDescriptor fildes ⟨i, c'⟩) where
  active := h.active
  sized := h.sized
  inUse := h.inUse
  others := h.others
  descriptors := by
    unfold FileSystem.setDescriptor
    rw [h.descriptors, Function.update_idem]
  grows := h.grows
  owned ho hi hu := ⟨(h.owned ho hi hu).ok, (h.owned ho hi hu).inj, (h.owned ho hi hu).usage⟩

theorem Underway.disk (disk : Nat → Block) : Underway fildes i c fs { s with disk := disk } where
  active := h.active
  sized := h.sized
  inUse := h.inUse
  others := h.others
  descriptors := h.descriptors
  grows := h.grows
  owned ho hi hu := ⟨(h.owned ho hi hu).ok, (h.owned ho hi hu).inj, (h.owned ho hi hu).usage⟩

theorem Underway.fsGetFilesize (hfd : fildes < 32) (hi : i < 64) :
    fsGetFilesize s fildes = some (s.fileMetas i).size :=
  fsGetFilesize_file h.active hfd hi (congrArg Descriptor.file h.descriptor)

end

variable (hfd : fildes < 32) (hi : i < 64)
include hfd hi

theorem Underway.step {w : Writing} (h : Underway fildes i c fs w.fs)
    (hc : (c : Int) < (w.fs.fileMetas i).numBlocks * 4096)
    (hd : (w.fs.fileMetas i).size < (c + Fs.chunk c w.nbyte : Nat) →
      (w.fs.fileMetas i).sizeLast + (Fs.chunk c w.nbyte : Nat) ≤ 4096) :
    ∃ w', writeChunk fildes w = some w' ∧ w'.nbyte = w.nbyte - Fs.chunk c w.nbyte ∧
      Underway fildes i (c + Fs.chunk c w.nbyte) fs w'.fs ∧
      (w'.fs.fileMetas i).size = (if (w.fs.fileMetas i).size < (c + Fs.chunk c w.nbyte : Nat)
        then (w.fs.fileMetas i).size + (Fs.chunk c w.nbyte : Nat) else (w.fs.fileMetas i).size) ∧
      ((c + Fs.chunk c w.nbyte : Nat) ≤ (w.fs.fileMetas i).size → w'.fs.fileMetas i = w.fs.fileMetas i) := by
  have hgrow := fun hlt => And.intro (show 0 < (w.fs.fileMetas i).numBlocks by omega) (hd hlt)
  obtain ⟨w', disk, hw, hn, hfs⟩ := writeChunk_chunked hfd h.descriptor hi h.sized hc
  refine ⟨w', hw, hn, hfs ▸ h.chunk disk w.buf hgrow, ?_, ?_⟩
  · rw [hfs]
    exact (chunked_size fildes h.sized w.buf hgrow).2
  · intro hle
    have hlen := h.sized.length_eq
    rw [hfs]
    simp only [FileSystem.chunked]
    rw [if_neg (by omega)]

/-! ## The loops -/

theorem inside_underway : ∀ (fuel : Nat) {c : Nat} {w : Writing}, Underway fildes i c fs w.fs →
    c ≤ (w.fs.fileMetas i).size → (w.fs.fileMetas i).Admits c w.nbyte →
      (∀ s ∈ insideSpots fildes fuel w, Spot fildes i fs s) ∧
      ∀ w', writeInside fildes fuel w = some w' → ∃ c' : Nat, Underway fildes i c' fs w'.fs ∧
        c' ≤ (w'.fs.fileMetas i).size ∧ (0 < w'.nbyte → c' = (w'.fs.fileMetas i).size)
  | 0, _, _, _, _, _ => ⟨by simp [insideSpots], nofun⟩
  | fuel + 1, c, w, h, hc, ha => by
    unfold insideSpots writeInside
    rw [descriptor_eq hfd, h.descriptor, h.fsGetFilesize hfd hi]
    simp only [Option.elim_some, Option.bind_eq_bind, Option.bind_some]
    by_cases hgo : (c : Int) < (w.fs.fileMetas i).size ∧ 0 < w.nbyte
    · have hbounds := h.sized.size_bounds
      have hlt : (c : Int) < (w.fs.fileMetas i).numBlocks * 4096 := by omega
      obtain ⟨w₁, hw₁, hn₁, hu₁, hsize, hsame⟩ := h.step hfd hi hlt fun hover => (h.sized.admits_over ha hgo.1 hover).2.1
      have hnext : (c + Fs.chunk c w.nbyte : Nat) ≤ (w₁.fs.fileMetas i).size ∧
          (w₁.fs.fileMetas i).Admits (c + Fs.chunk c w.nbyte : Nat) w₁.nbyte := by
        by_cases hover : (w.fs.fileMetas i).size < (c + Fs.chunk c w.nbyte : Nat)
        · obtain ⟨-, -, hz⟩ := h.sized.admits_over ha hgo.1 hover
          rw [if_pos hover] at hsize
          refine ⟨by omega, ?_⟩
          unfold FileMeta.Admits
          intro h1 h2
          omega
        · rw [hsame (by omega), hn₁]
          exact ⟨by omega, ha.chunk⟩
      obtain ⟨hspots, hend⟩ := inside_underway fuel hu₁ hnext.1 hnext.2
      rw [if_pos hgo, if_pos hgo, hw₁]
      simp only [Option.elim_some, Option.bind_some, List.forall_mem_cons]
      exact ⟨⟨⟨c, h, hlt⟩, hspots⟩, hend⟩
    · rw [if_neg hgo, if_neg hgo]
      refine ⟨by simp, ?_⟩
      rintro w' ⟨⟩
      exact ⟨c, h, hc, fun hn => by omega⟩

/-- What holds of the second loop when it has this much fuel. -/
def PastSound (fildes i : Nat) (fs : FileSystem) (fuel : Nat) : Prop :=
  ∀ (c : Nat) (w : Writing), Underway fildes i c fs w.fs → c ≤ (w.fs.fileMetas i).size →
    (0 < w.nbyte → c = (w.fs.fileMetas i).size) →
      (∀ s ∈ pastSpots fildes fuel w, Spot fildes i fs s) ∧
      ∀ w', writePast fildes fuel w = some w' → ∃ c' : Nat, Underway fildes i c' fs w'.fs ∧ c' ≤ (w'.fs.fileMetas i).size

theorem past_spot {fuel : Nat} (ih : PastSound fildes i fs fuel) {w : Writing}
    (h : Underway fildes i c fs w.fs) (hc : c = (w.fs.fileMetas i).size)
    (hpos : 0 < (w.fs.fileMetas i).numBlocks) (hsl : (w.fs.fileMetas i).sizeLast < 4096) (hn : 0 < w.nbyte) :
    (∀ s ∈ w.fs :: (writeChunk fildes w).elim [] (pastSpots fildes fuel), Spot fildes i fs s) ∧
      ∀ w', (writeChunk fildes w).bind (writePast fildes fuel) = some w' →
        ∃ c' : Nat, Underway fildes i c' fs w'.fs ∧ c' ≤ (w'.fs.fileMetas i).size := by
  have hrange := h.sized.sizeLast hpos
  have hblock := chunk_block c w.nbyte
  have hchunk := chunk_pos (c := c) hn
  have hsize : (w.fs.fileMetas i).size = ((w.fs.fileMetas i).numBlocks - 1) * 4096 + (w.fs.fileMetas i).sizeLast := by
    unfold FileMeta.size
    simp only [blockSize]
    omega
  have hlt : (c : Int) < (w.fs.fileMetas i).numBlocks * 4096 := by omega
  obtain ⟨w₁, hw₁, -, hu₁, hsize₁, -⟩ := h.step hfd hi hlt fun _ => by omega
  rw [if_pos (by omega)] at hsize₁
  obtain ⟨hspots, hend⟩ := ih _ w₁ hu₁ (by omega) fun _ => by omega
  rw [hw₁]
  simp only [Option.elim_some, Option.bind_some, List.forall_mem_cons]
  exact ⟨⟨⟨c, h, hlt⟩, hspots⟩, hend⟩

theorem past_underway : ∀ fuel, PastSound fildes i fs fuel
  | 0, _, _, _, _, _ => ⟨by simp [pastSpots], nofun⟩
  | fuel + 1, c, w, h, hc, hn => by
    have ih := past_underway fuel
    unfold pastSpots writePast
    by_cases hgo : 0 < w.nbyte
    · rw [if_pos hgo, if_pos hgo, descriptor_eq hfd, h.descriptor]
      simp only [Option.elim_some, Option.bind_eq_bind, Option.bind_some, fileMeta_eq hi]
      by_cases hfull : (w.fs.fileMetas i).sizeLast = blockSize ∨ (w.fs.fileMetas i).numBlocks = 0
      · rw [if_pos hfull, if_pos hfull]
        cases hb : findEmptyBlock w.fs with
        | none =>
          refine ⟨by simp, ?_⟩
          rintro w' ⟨⟩
          exact ⟨c, h, hc⟩
        | some b =>
          simp only [Option.elim_some]
          cases hadd : addBlock w.fs i b with
          | none => exact ⟨by simp, nofun⟩
          | some fs₁ =>
            obtain ⟨hu, hpos, hsl, hsize⟩ := h.add hi hb hadd hfull
            exact past_spot hfd hi ih (w := { w with fs := fs₁ }) hu (by rw [hsize, hn hgo]) hpos
              (by rw [hsl]; decide) hgo
      · rw [if_neg hfull, if_neg hfull]
        obtain ⟨hsl, hpos⟩ := not_or.mp hfull
        have hnonneg := h.sized.nonneg
        have hrange := h.sized.sizeLast
        simp only [blockSize] at hsl
        exact past_spot hfd hi ih h (hn hgo) (by omega) (by omega) hgo
    · rw [if_neg hgo, if_neg hgo]
      refine ⟨by simp, ?_⟩
      rintro w' ⟨⟩
      exact ⟨c, h, hc⟩

theorem read_underway :
    ∀ (fuel : Nat) {c : Nat} {r : Reading}, Underway fildes i c fs r.fs → c ≤ (r.fs.fileMetas i).size →
      (∀ s ∈ readSpots fildes fuel r.fs r.nbyte, Spot fildes i fs s) ∧
      ∀ r', readLoop fildes fuel r = some r' → ∃ c' : Nat, Underway fildes i c' fs r'.fs ∧
      c' ≤ (r'.fs.fileMetas i).size
  | 0, _, _, _, _ => ⟨by simp [readSpots], nofun⟩
  | fuel + 1, c, r, h, hc => by
    unfold readSpots readLoop
    rw [descriptor_eq hfd, h.descriptor, h.fsGetFilesize hfd hi]
    simp only [Option.elim_some, Option.bind_eq_bind, Option.bind_some]
    by_cases hgo : (c : Int) < (r.fs.fileMetas i).size ∧ 0 < r.nbyte
    · have hbounds := h.sized.size_bounds
      have hle := h.sized.le
      have hlen := h.sized.length_eq
      have hd := chunk_le c (min r.nbyte ((r.fs.fileMetas i).length - c))
      rw [if_pos hgo, if_pos hgo, offset_eq, ← hlen, read_dist_eq (by omega), block_eq, fileMeta_eq hi, Option.bind_some,
        blockAt_eq _ (show c / 4096 < 4096 by omega), Option.bind_some]
      unfold moveCursor
      simp only [cursor_add (show c < 16777216 by omega), Int.toNat_natCast, List.forall_mem_cons]
      have hu := h.seek (c + Fs.chunk c (min r.nbyte ((r.fs.fileMetas i).length - c)))
      have hc' : (c + Fs.chunk c (min r.nbyte ((r.fs.fileMetas i).length - c)) : Nat) ≤ (r.fs.fileMetas i).size := by omega
      refine ⟨⟨⟨c, h, by omega⟩, ?_⟩, ?_⟩
      · exact (read_underway fuel (r := ⟨_, r.data, r.buf, _, r.read⟩) hu hc').1
      · intro r' hr'
        refine (read_underway fuel (c := c + Fs.chunk c (min r.nbyte ((r.fs.fileMetas i).length - c))) ?_ ?_).2 r' hr'
        · exact hu
        · exact hc'
    · rw [if_neg hgo, if_neg hgo]
      refine ⟨by simp, ?_⟩
      rintro r' ⟨⟩
      exact ⟨c, h, hc⟩

/-! ## The calls -/

theorem fsWrite_underway {n : Nat} {heap : Block} {buf : Nat → Byte} (ha : fs.active = true)
    (hs : (fs.fileMetas i).Sized) (hd : fs.descriptors fildes = ⟨i, c⟩) (hc : c ≤ (fs.fileMetas i).size)
    (hn : (fs.fileMetas i).Admits c n) :
    (∀ s ∈ writeSpots heap fs fildes buf n, Spot fildes i fs s) ∧
      ∀ heap' fs' r, fsWrite heap heap' fs fildes buf n = some (fs', r) →
        ∃ c' : Nat, Underway fildes i c' fs fs' ∧ c' ≤ (fs'.fileMetas i).size := by
  obtain ⟨hspots, hinside⟩ := inside_underway hfd hi (n + 1) (w := ⟨fs, heap, buf, n, 0⟩)
    (.start ha hs hd) hc hn
  have hpast : ∀ w₁, writeInside fildes (n + 1) ⟨fs, heap, buf, n, 0⟩ = some w₁ →
      (∀ s ∈ pastSpots fildes (w₁.nbyte + 1) w₁, Spot fildes i fs s) ∧
        ∀ w₂, writePast fildes (w₁.nbyte + 1) w₁ = some w₂ →
          ∃ c' : Nat, Underway fildes i c' fs w₂.fs ∧ c' ≤ (w₂.fs.fileMetas i).size := by
    intro w₁ hw₁
    obtain ⟨c₁, hu₁, hc₁, hn₁⟩ := hinside w₁ hw₁
    exact past_underway hfd hi (w₁.nbyte + 1) c₁ w₁ hu₁ hc₁ hn₁
  refine ⟨?_, ?_⟩
  · intro s hs
    unfold writeSpots at hs
    rw [if_pos ha] at hs
    rcases List.mem_append.mp hs with hs | hs
    · exact hspots s hs
    · cases hw₁ : writeInside fildes (n + 1) ⟨fs, heap, buf, n, 0⟩ with
      | none =>
        rw [hw₁] at hs
        exact absurd hs List.not_mem_nil
      | some w₁ =>
        rw [hw₁] at hs
        exact (hpast w₁ hw₁).1 s hs
  · intro heap' fs' r h
    obtain ⟨-, w₁, w₂, disk, hw₁, hw₂, rfl⟩ := fsWrite_some ha h
    obtain ⟨c₂, hu₂, hc₂⟩ := (hpast w₁ hw₁).2 w₂ hw₂
    exact ⟨c₂, hu₂.disk disk, hc₂⟩

theorem fsRead_underway {n : Nat} (ha : fs.active = true)
    (hs : (fs.fileMetas i).Sized) (hd : fs.descriptors fildes = ⟨i, c⟩) (hc : c ≤ (fs.fileMetas i).size) :
    (∀ s ∈ readSpots fildes (n + 1) fs n, Spot fildes i fs s) ∧
      ∀ heap buf fs' buf' r, fsRead heap fs fildes buf n = some (fs', buf', r) →
        ∃ c' : Nat, Underway fildes i c' fs fs' ∧ c' ≤ (fs'.fileMetas i).size := by
  have hread := fun heap buf => read_underway hfd hi (n + 1) (r := ⟨fs, heap, buf, n, 0⟩) (.start ha hs hd) hc
  refine ⟨(hread (fun _ => 0) fun _ => 0).1, ?_⟩
  intro heap buf fs' buf' r h
  obtain ⟨r₁, hr₁, rfl, -⟩ := fsRead_some ha h
  exact (hread heap buf).2 r₁ hr₁

end

end OsLabs.Fs
