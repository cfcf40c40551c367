import OsLabs.FsCursor

/-!
# What `fs_read` delivers

The bytes between the cursor and the end of the file, at most as many as are
asked for, wherever the cursor is: a cursor beyond the end reads nothing.
-/

namespace OsLabs.Fs

/-- The entries and the size of the file are in range, and its last block is not empty. -/
structure FileMeta.Readable (f : FileMeta) : Prop where
  nonneg : 0 ≤ f.numBlocks
  le : f.numBlocks ≤ 4096
  blocks : ∀ k : Nat, (k : Int) < f.numBlocks → 4096 ≤ f.blocks k ∧ f.blocks k < 8192
  sizeLast : 0 < f.numBlocks → 1 ≤ f.sizeLast ∧ f.sizeLast ≤ 4096

theorem FileMeta.Readable.ok {f : FileMeta} (h : f.Readable) : f.Ok where
  nonneg := h.nonneg
  le := h.le
  blocks := h.blocks
  sizeLast hpos := by
    have := h.sizeLast hpos
    omega

section
variable {fs : FileSystem} {d i c : Nat}

theorem readSpots_beyond (hd : d < 32) (hi : i < 64) (ha : fs.active = true) (hdesc : fs.descriptors d = ⟨i, c⟩)
    (hc : (fs.fileMetas i).size < c) (fuel n : Nat) : readSpots d (fuel + 1) fs n = [] := by
  rw [readSpots, descriptor_eq hd, fsGetFilesize_file ha hd hi (congrArg Descriptor.file hdesc)]
  simp only [Option.elim_some, hdesc]
  rw [if_neg (by omega)]

theorem readSpots_within (hd : d < 32) (hi : i < 64) (ha : fs.active = true) (hf : (fs.fileMetas i).Sized)
    (hdesc : fs.descriptors d = ⟨i, c⟩) (n : Nat) : ∀ s ∈ readSpots d (n + 1) fs n, BlockWithin s d := by
  intro s hs
  by_cases hc : c ≤ (fs.fileMetas i).size
  · obtain ⟨c', hw, hlt⟩ := (fsRead_underway hd hi ha hf hdesc hc).1 s hs
    unfold BlockWithin FileSystem.opened
    rw [hw.descriptor, block_eq]
    simp only [Int.toNat_natCast]
    omega
  · rw [readSpots_beyond hd hi ha hdesc (by omega)] at hs
    exact absurd hs List.not_mem_nil

/-- The loop ends with the whole part of the file that was asked for, and every
block it reads is one of the first `num_blocks`. -/
theorem fsRead_delivers (hd : d < 32) (hi : i < 64) (ha : fs.active = true) (hdesc : fs.descriptors d = ⟨i, c⟩)
    (hf : (fs.fileMetas i).Readable) (heap : Block) (buf : Nat → Byte) (n : Nat) :
    ∃ (r : Nat) (buf' : Nat → Byte), (r : Int) = min (n : Int) (max 0 ((fs.fileMetas i).size - c)) ∧
      fsRead heap fs d buf n = some (fs.setDescriptor d ⟨i, (c + r : Nat)⟩, buf', (r : Int)) ∧
      (∀ j < r, buf' j = fs.disk ((fs.fileMetas i).blocks ((c + j) / 4096)).toNat ((c + j) % 4096)) ∧
      (∀ j, r ≤ j → buf' j = buf j) ∧ ∀ s ∈ readSpots d (n + 1) fs n, BlockWithin s d := by
  have hlen := hf.ok.length_eq
  refine ⟨_, _, ?_, fsRead_ok ha hf.ok heap buf n hd hi hdesc, ?_, ?_, readSpots_within hd hi ha hf.ok.sized hdesc n⟩
  · omega
  · intro j hj
    unfold memcpy
    rw [if_pos (by omega)]
    rfl
  · intro j hj
    unfold memcpy
    rw [if_neg (by omega)]

end

/-- Blocks 4096 and 4097 are a file of 4099 bytes, and the cursor is at the last byte of the first one. -/
def acrossBlocks : FileSystem :=
  { unmounted with
    active := true
    disk := fun b _ => toByte b
    fileMetas := fun _ => ⟨1, fun _ => 65, 2, 3, fun k => 4096 + k⟩
    descriptors := fun _ => ⟨0, 4095⟩ }

theorem fsRead_across :
    ∃ (r : Nat) (buf' : Nat → Byte), (r : Int) = min (10 : Nat) (max 0 (4099 - (4095 : Nat))) ∧
      fsRead (fun _ => 0) acrossBlocks 0 (fun _ => 0) 10 =
        some (acrossBlocks.setDescriptor 0 ⟨(0 : Nat), (4095 + r : Nat)⟩, buf', (r : Int)) ∧
      (∀ j < r, buf' j = acrossBlocks.disk ((acrossBlocks.fileMetas 0).blocks ((4095 + j) / 4096)).toNat
        ((4095 + j) % 4096)) ∧
      (∀ j, r ≤ j → buf' j = 0) ∧ ∀ s ∈ readSpots 0 (10 + 1) acrossBlocks 10, BlockWithin s 0 := by
  have hreadable : (acrossBlocks.fileMetas 0).Readable := by
    refine ⟨by decide, by decide, ?_, fun _ => by decide⟩
    intro k hk
    have : (k : Int) < 2 := hk
    exact ⟨show (4096 : Int) ≤ 4096 + k by omega, show (4096 + k : Int) < 8192 by omega⟩
  exact fsRead_delivers (d := 0) (i := 0) (by decide) (by decide) rfl rfl hreadable (fun _ => 0) (fun _ => 0) 10

end OsLabs.Fs
