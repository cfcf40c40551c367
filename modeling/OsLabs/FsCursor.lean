import OsLabs.FsOwn
import OsLabs.FsSpots

/-!
# Cursors and sizes

A session without deletions: every open descriptor refers to a file in use with
its cursor inside it, as long as no call to `fs_truncate` cuts the file below a
cursor and no write goes over the end of the file and out of its last block.
-/

namespace OsLabs.Fs

/-- The size that a file has after it has been truncated to `length`: `size_last`
becomes `length % BLOCK_SIZE`, also when the last block is full. -/
def keptSize (length : Int) : Int :=
  if length ≤ 0 then 0 else if length % blockSize = 0 then length - blockSize else length

/-- What the cursors need of a call. -/
def SparesCursors (fs : FileSystem) : Call → Prop
  | .fsOpen _ | .fsClose _ | .fsCreate _ _ | .fsRead _ _ _ _ | .fsGetFilesize _ | .fsLseek _ _ => True
  | .fsWrite _ _ fildes _ nbyte => IsOpen fs fildes → (fs.opened fildes).Admits (fs.descriptors fildes).cursor nbyte
  | .fsTruncate _ fildes length => IsOpen fs fildes → length ≤ (fs.opened fildes).size →
      -blockSize < length ∧ ∀ e < openFiles, (fs.descriptors e).file = (fs.descriptors fildes).file →
        (fs.descriptors e).cursor ≤ keptSize length
  | .fsDelete _ _ | .mount _ | .umount => False

instance (f : FileMeta) (c : Int) (n : Nat) : Decidable (f.Admits c n) := inferInstanceAs (Decidable (_ → _ → _))

instance (fs : FileSystem) : ∀ c, Decidable (SparesCursors fs c)
  | .fsOpen _ | .fsClose _ | .fsCreate _ _ | .fsRead _ _ _ _ | .fsGetFilesize _ | .fsLseek _ _ => .isTrue trivial
  | .fsWrite _ _ fildes _ nbyte =>
    inferInstanceAs (Decidable (IsOpen fs fildes → (fs.opened fildes).Admits (fs.descriptors fildes).cursor nbyte))
  | .fsTruncate _ fildes length => inferInstanceAs (Decidable (IsOpen fs fildes → length ≤ (fs.opened fildes).size →
      -blockSize < length ∧ ∀ e < openFiles, (fs.descriptors e).file = (fs.descriptors fildes).file →
        (fs.descriptors e).cursor ≤ keptSize length))
  | .fsDelete _ _ | .mount _ | .umount => .isFalse id

/-- The cursor of an open descriptor is inside its file. -/
def CursorWithin (fs : FileSystem) (d : Nat) : Prop :=
  0 ≤ (fs.descriptors d).cursor ∧ (fs.descriptors d).cursor ≤ (fs.opened d).size

/-- `blocks[cursor / BLOCK_SIZE]` is one of the first `num_blocks`. -/
def BlockWithin (fs : FileSystem) (d : Nat) : Prop :=
  0 ≤ (fs.descriptors d).cursor.tdiv blockSize ∧ (fs.descriptors d).cursor.tdiv blockSize < (fs.opened d).numBlocks

structure Within (fs : FileSystem) : Prop where
  active : fs.active = true
  sized : ∀ i < 64, (fs.fileMetas i).Sized
  descriptors : ∀ d < 32, ∃ c : Nat, fs.descriptors d = ⟨-1, c⟩ ∨
    ∃ i < 64, fs.descriptors d = ⟨(i : Nat), c⟩ ∧ (fs.fileMetas i).inUse ≠ 0 ∧ c ≤ (fs.fileMetas i).size

section
variable {fs fs' : FileSystem} (h : Within fs)
include h

theorem Within.opened {d : Nat} (ho : IsOpen fs d) : ∃ i c : Nat, i < 64 ∧ fs.descriptors d = ⟨i, c⟩ ∧
    fs.opened d = fs.fileMetas i ∧ (fs.fileMetas i).inUse ≠ 0 ∧ c ≤ (fs.fileMetas i).size := by
  obtain ⟨c, hc | ⟨i, hi, hc, hu, hle⟩⟩ := h.descriptors d ho.1
  · exact absurd (congrArg Descriptor.file hc) ho.2
  · exact ⟨i, c, hi, hc, opened_eq (congrArg Descriptor.file hc), hu, hle⟩

theorem Within.cursor {d : Nat} (ho : IsOpen fs d) : CursorWithin fs d := by
  obtain ⟨i, c, hi, hdesc, hopened, -, hle⟩ := h.opened ho
  unfold CursorWithin
  rw [hopened, hdesc]
  exact ⟨Int.natCast_nonneg c, hle⟩

theorem Within.setDescriptor (d : Nat) {desc : Descriptor} {c : Nat}
    (hd : desc = ⟨-1, c⟩ ∨ ∃ i < 64, desc = ⟨(i : Nat), c⟩ ∧ (fs.fileMetas i).inUse ≠ 0 ∧ c ≤ (fs.fileMetas i).size) :
    Within (fs.setDescriptor d desc) := by
  refine ⟨h.active, h.sized, ?_⟩
  intro e he
  unfold FileSystem.setDescriptor
  by_cases hed : e = d
  · simp only [hed, Function.update_self]
    exact ⟨c, hd⟩
  · simp only [Function.update_of_ne hed]
    exact h.descriptors e he

theorem Within.setMeta (usage : Nat → Byte) (disk : Nat → Block) {i : Nat} {f : FileMeta} (hf : f.Sized)
    (hd : ∀ d < 32, ∀ c : Nat, fs.descriptors d = ⟨i, c⟩ → (fs.fileMetas i).inUse ≠ 0 → f.inUse ≠ 0 ∧ c ≤ f.size) :
    Within { ({ fs with usage := usage } : FileSystem).setMeta i f with disk := disk } := by
  refine ⟨h.active, ?_, ?_⟩
  · intro k hk
    by_cases hki : k = i
    · simpa [FileSystem.setMeta, hki] using hf
    · simpa [FileSystem.setMeta, hki] using h.sized k hk
  · intro d hd32
    obtain ⟨c, hc | ⟨k, hk, hc, hu, hle⟩⟩ := h.descriptors d hd32
    · exact ⟨c, Or.inl hc⟩
    · refine ⟨c, Or.inr ⟨k, hk, hc, ?_⟩⟩
      by_cases hki : k = i
      · subst hki
        simpa [FileSystem.setMeta] using hd d hd32 c hc hu
      · simpa [FileSystem.setMeta, hki] using ⟨hu, hle⟩

end

/-! ## Truncation -/

theorem cut_fields (f : FileMeta) (length : Int) :
    (f.cut length).numBlocks = min f.numBlocks
      (if 0 < length.tmod blockSize then toInt (length.tdiv blockSize) + 1 else toInt (length.tdiv blockSize)) ∧
      (f.cut length).sizeLast = length.tmod blockSize := ⟨rfl, rfl⟩

section
variable {f : FileMeta} {length : Int}

theorem cut_size (hs : f.Sized) (hlow : -blockSize < length) (hle : length ≤ f.size) :
    (f.cut length).Sized ∧ (f.cut length).size = keptSize length := by
  obtain ⟨hn, hl⟩ := cut_fields f length
  generalize f.cut length = f' at *
  have hnonneg := hs.nonneg
  have hmax := hs.le
  have hbounds := hs.size_bounds
  unfold keptSize FileMeta.size
  by_cases hpos : 0 < length
  · rw [Int.tmod_eq_emod_of_nonneg hpos.le] at hn hl
    rw [Int.tdiv_eq_ediv_of_nonneg hpos.le] at hn
    simp only [blockSize] at hn hl ⊢
    rw [toInt_of_bounds (by omega) (by omega)] at hn
    have hnum : f'.numBlocks = if length % 4096 = 0 then length / 4096 else length / 4096 + 1 := by
      split <;> split at hn <;> omega
    refine ⟨⟨?_, ?_, fun _ => ?_⟩, ?_⟩
    · split at hnum <;> omega
    · omega
    · omega
    · rw [if_neg (by omega)]
      split <;> split at hnum <;> omega
  · obtain ⟨n, rfl⟩ : ∃ n : Nat, length = -n := ⟨length.natAbs, by omega⟩
    simp only [blockSize] at hlow
    have hdiv : (-(n : Int)).tdiv blockSize = 0 := by
      rw [Int.neg_tdiv, block_eq]
      omega
    have hmod : ¬ 0 < (-(n : Int)).tmod blockSize := by
      rw [Int.neg_tmod, offset_eq]
      omega
    rw [if_neg hmod, hdiv, toInt_of_bounds (by decide) (by decide)] at hn
    have hz : f'.numBlocks = 0 := by omega
    rw [if_pos hz, if_pos (by omega)]
    exact ⟨⟨by omega, by omega, fun h => by omega⟩, rfl⟩

/-- A length of a block or more below zero leaves a negative number of blocks. -/
theorem cut_negative (f : FileMeta) (hlow : length ≤ -blockSize) (hint : -2147483648 ≤ length.tdiv blockSize) :
    (f.cut length).size < 0 := by
  obtain ⟨hn, hl⟩ := cut_fields f length
  generalize f.cut length = f' at *
  obtain ⟨n, rfl⟩ : ∃ n : Nat, length = -n := ⟨length.natAbs, by simp only [blockSize] at hlow; omega⟩
  simp only [blockSize] at hlow
  rw [Int.neg_tdiv, block_eq] at hint
  have hmod : ¬ 0 < (-(n : Int)).tmod blockSize := by
    rw [Int.neg_tmod, offset_eq]
    omega
  rw [if_neg hmod, Int.neg_tdiv, block_eq, toInt_of_bounds hint (by omega)] at hn
  unfold FileMeta.size
  simp only [blockSize] at *
  rw [if_neg (by omega)]
  omega

end

/-! ## One call -/

/-- A read or a write through `d` goes from `fs` to `fs'`, and its cursor stays inside the file. -/
def Passes (d : Nat) (fs fs' : FileSystem) : Prop :=
  ∃ i c c' : Nat, i < 64 ∧ fs.descriptors d = ⟨i, c⟩ ∧ (fs.fileMetas i).inUse ≠ 0 ∧ Underway d i c' fs fs' ∧
    c' ≤ (fs'.fileMetas i).size

section
variable {fs fs' : FileSystem} (h : Within fs)
include h

theorem within_open (name : Nat → Byte) : Within (fsOpen fs name).1 := by
  rcases fsOpen_eq fs name with heq | ⟨i, d, hi, -, hu, -, heq⟩
  · rw [heq]
    exact h
  · rw [heq]
    exact h.setDescriptor d (c := 0) (Or.inr ⟨i, hi, rfl, hu, (h.sized i hi).size_bounds.1⟩)

theorem within_close {d : Nat} {r : Int} (hs : fsClose fs d = some (fs', r)) : Within fs' := by
  rcases fsClose_some hs with rfl | ⟨hd, rfl⟩
  · exact h
  · obtain ⟨c, hc⟩ := h.descriptors d hd
    have hcur : (fs.descriptors d).cursor = c := by
      rcases hc with hc | ⟨i, -, hc, -⟩
      · rw [hc]
      · rw [hc]
    exact h.setDescriptor d (Or.inl (congrArg (Descriptor.mk (-1)) hcur))

theorem within_create {heap : Block} {name : Nat → Byte} {r : Int}
    (hs : fsCreate heap fs name = some (fs', r)) : Within fs' := by
  rcases fsCreate_some hs with ⟨rfl, -⟩ | ⟨i, disk, hf, -, rfl⟩
  · exact h
  · obtain ⟨hi, hfree, -⟩ := firstIndex_some hf
    have hz : (fs.fileMetas i).inUse = 0 := by simpa using hfree
    refine h.setMeta fs.usage disk (created_ok _ name).1.sized ?_
    intro d _ c _ hu
    exact absurd hz hu

theorem within_lseek {d : Nat} {offset r : Int} (hs : fsLseek fs d offset = some (fs', r)) : Within fs' := by
  rcases fsLseek_some h.active hs with rfl | ⟨i, hi, hd, hfile, hpos, hle, rfl⟩
  · exact h
  · obtain ⟨c, hc | ⟨k, hk, hc, hu, -⟩⟩ := h.descriptors d hd
    · rw [hc] at hfile
      simp only at hfile
      omega
    · obtain rfl : k = i := by
        rw [hc] at hfile
        exact Int.ofNat_inj.mp hfile
      have hbounds := (h.sized k hi).size_bounds
      refine h.setDescriptor d (c := offset.toNat) (Or.inr ⟨k, hi, ?_, hu, by omega⟩)
      rw [toInt_of_bounds (by omega) (by omega), Int.toNat_of_nonneg hpos]

theorem Within.cursor_nonneg {d : Nat} (hd : d < 32) : 0 ≤ (fs.descriptors d).cursor := by
  obtain ⟨c, hc | ⟨i, -, hc, -⟩⟩ := h.descriptors d hd
  · rw [hc]
    exact Int.natCast_nonneg c
  · rw [hc]
    exact Int.natCast_nonneg c

theorem Within.read {d n : Nat} {heap : Block} {buf buf' : Nat → Byte} {r : Int}
    (hs : fsRead heap fs d buf n = some (fs', buf', r)) : fs' = fs ∨ Passes d fs fs' := by
  have hd : d < openFiles := by
    by_contra hd
    unfold fsRead readLoop FileSystem.descriptor at hs
    simp [h.active, hd] at hs
  by_cases ho : (fs.descriptors d).file = -1
  · rw [fsRead_closed h.active (h.cursor_nonneg hd) heap buf n hd ho] at hs
    cases hs
    exact Or.inl rfl
  · obtain ⟨i, c, hi, hdesc, -, hu, hle⟩ := h.opened ⟨hd, ho⟩
    obtain ⟨c', hw, hc'⟩ := (fsRead_underway hd hi h.active (h.sized i hi) hdesc hle).2 heap buf fs' buf' r hs
    exact Or.inr ⟨i, c, c', hi, hdesc, hu, hw, hc'⟩

theorem Within.write {d n : Nat} {heap heap' : Block} {buf : Nat → Byte} {r : Int}
    (hk : SparesCursors fs (.fsWrite heap heap' d buf n)) (hs : fsWrite heap heap' fs d buf n = some (fs', r)) :
    Passes d fs fs' := by
  have ho : IsOpen fs d := by
    obtain ⟨⟨hd, i, -, hfile⟩, -⟩ := fsWrite_some h.active hs
    refine ⟨hd, ?_⟩
    rw [hfile]
    omega
  obtain ⟨i, c, hi, hdesc, hopened, hu, hle⟩ := h.opened ho
  have hadm := hk ho
  rw [hopened, hdesc] at hadm
  obtain ⟨c', hw, hc'⟩ := (fsWrite_underway ho.1 hi h.active (h.sized i hi) hdesc hle hadm).2 heap' fs' r hs
  exact ⟨i, c, c', hi, hdesc, hu, hw, hc'⟩

theorem Within.passes {d : Nat} (hp : Passes d fs fs') : Within fs' := by
  obtain ⟨i, c, c', hi, hdesc, hu, hw, hc⟩ := hp
  have hin : (fs'.fileMetas i).inUse ≠ 0 := by rwa [hw.inUse]
  refine ⟨hw.active, ?_, ?_⟩
  · intro k hk
    by_cases hki : k = i
    · exact hki ▸ hw.sized
    · rw [hw.others k hki]
      exact h.sized k hk
  · intro e he
    rw [hw.descriptors]
    by_cases hed : e = d
    · rw [hed, Function.update_self]
      exact ⟨c', Or.inr ⟨i, hi, rfl, hin, hc⟩⟩
    · rw [Function.update_of_ne hed]
      obtain ⟨x, hx | ⟨k, hk, hx, hku, hle⟩⟩ := h.descriptors e he
      · exact ⟨x, Or.inl hx⟩
      · refine ⟨x, Or.inr ⟨k, hk, hx, ?_⟩⟩
        by_cases hki : k = i
        · subst hki
          exact ⟨hin, hle.trans hw.grows⟩
        · rw [hw.others k hki]
          exact ⟨hku, hle⟩

theorem within_truncate {d : Nat} {heap : Block} {length r : Int}
    (hk : SparesCursors fs (.fsTruncate heap d length)) (hs : fsTruncate heap fs d length = some (fs', r)) :
    Within fs' := by
  obtain ⟨hd, ⟨-, rfl⟩ | ⟨i, hi, hfile, ⟨-, rfl⟩ | ⟨hle, usage, rfl⟩⟩⟩ := fsTruncate_some h.active hs
  · exact h
  · exact h
  · have ho : IsOpen fs d := ⟨hd, by rw [hfile]; omega⟩
    obtain ⟨hlow, hcur⟩ := hk ho (by rwa [opened_eq hfile])
    obtain ⟨hsized, hsize⟩ := cut_size (h.sized i hi) hlow hle
    refine h.setMeta usage _ hsized ?_
    intro e he c hdesc hin
    rw [hsize]
    refine ⟨hin, ?_⟩
    have := hcur e he (by rw [hdesc, hfile])
    rwa [hdesc] at this

theorem within_delete {heap : Block} {name : Nat → Byte} {r : Int} (hun : Unopened fs)
    (hs : fsDelete heap fs name = some (fs', r)) : Within fs' := by
  rcases fsDelete_some hs with ⟨rfl, -⟩ | ⟨i, -, hf, rfl⟩
  · exact h
  · obtain ⟨hi, -, -⟩ := firstIndex_some hf
    unfold Unopened at hun
    rw [hf] at hun
    have hsized := h.sized i hi
    refine h.setMeta _ _ ⟨hsized.nonneg, hsized.le, hsized.sizeLast⟩ ?_
    intro d hd c hdesc _
    exact absurd (congrArg Descriptor.file hdesc) (hun d hd)

theorem within_step {c : Call} {r : Int × List Byte} (hk : SparesCursors fs c)
    (hs : call fs c = some (fs', r)) : Within fs' := by
  cases c with
  | fsOpen name =>
    cases hs
    exact within_open h name
  | fsClose d => exact within_close h (call_some hs)
  | fsCreate heap name => exact within_create h (call_some hs)
  | fsRead heap d buf n =>
    obtain ⟨buf', hread⟩ := call_read_some hs
    rcases h.read hread with rfl | hp
    · exact h
    · exact h.passes hp
  | fsWrite heap heap' d buf n =>
    have hwrite := call_some hs
    exact h.passes (h.write hk hwrite)
  | fsGetFilesize d => exact fsGetFilesize_fs hs ▸ h
  | fsLseek d offset => exact within_lseek h (call_some hs)
  | fsTruncate heap d length => exact within_truncate h hk (call_some hs)
  | fsDelete | mount | umount => cases hk

end

/-! ## Runs -/

theorem mountFs_closed {fs : FileSystem} (junk : Nat → Nat → Int) (ha : fs.active = false) :
    (mountFs junk fs).1.active = true ∧ ∀ d, (mountFs junk fs).1.descriptors d = ⟨-1, 0⟩ := by
  unfold mountFs
  rw [if_neg (by simp [ha])]
  exact ⟨rfl, fun _ => rfl⟩

theorem Within.start {fs : FileSystem} {junk : Nat → Nat → Int} (ha : fs.active = false)
    (hm : ∀ i < 64, ((mountFs junk fs).1.fileMetas i).Sized) : Within (mountFs junk fs).1 := by
  obtain ⟨hactive, hclosed⟩ := mountFs_closed junk ha
  exact ⟨hactive, hm, fun d _ => ⟨0, Or.inl (hclosed d)⟩⟩

theorem Within.spots {fs : FileSystem} (h : Within fs) {heap heap' : Block} {d n : Nat} {buf : Nat → Byte}
    (ho : IsOpen fs d) (hk : SparesCursors fs (.fsWrite heap heap' d buf n)) :
    ∀ s ∈ writeSpots heap fs d buf n, BlockWithin s d := by
  obtain ⟨i, c, hi, hdesc, hopened, -, hle⟩ := h.opened ho
  have hadm := hk ho
  rw [hopened, hdesc] at hadm
  intro s hs
  obtain ⟨c', hw, hlt⟩ := (fsWrite_underway ho.1 hi h.active (h.sized i hi) hdesc hle hadm).1 s hs
  unfold BlockWithin FileSystem.opened
  rw [hw.descriptor, block_eq]
  simp only [Int.toNat_natCast]
  omega

theorem Within.truncate_iff {fs fs' : FileSystem} (h : Within fs) {heap : Block} {d : Nat} {length r : Int}
    (hint : -2147483648 ≤ length.tdiv blockSize) (hs : fsTruncate heap fs d length = some (fs', r)) :
    (∀ e, IsOpen fs' e → CursorWithin fs' e) ↔ SparesCursors fs (.fsTruncate heap d length) := by
  constructor
  · intro hw ho hle
    obtain ⟨-, ⟨hclosed, -⟩ | ⟨i, hi, hfile, hcases⟩⟩ := fsTruncate_some h.active hs
    · exact absurd hclosed ho.2
    rw [opened_eq hfile] at hle
    obtain ⟨-, usage, rfl⟩ := hcases.resolve_left fun hbeyond => by omega
    have hcur : ∀ e < openFiles, (fs.descriptors e).file = (fs.descriptors d).file →
        0 ≤ (fs.descriptors e).cursor ∧ (fs.descriptors e).cursor ≤ ((fs.fileMetas i).cut length).size := by
      intro e he heq
      have hwithin := hw e ⟨he, fun hclosed => ho.2 (heq.symm.trans hclosed)⟩
      unfold CursorWithin FileSystem.opened at hwithin
      simpa [FileSystem.truncated, FileSystem.setMeta, heq, hfile] using hwithin
    have hlow : -blockSize < length := by
      by_contra hlow
      have hneg := cut_negative (fs.fileMetas i) (by omega) hint
      have := hcur d ho.1 rfl
      omega
    refine ⟨hlow, ?_⟩
    intro e he heq
    rw [← (cut_size (h.sized i hi) hlow hle).2]
    exact (hcur e he heq).2
  · intro hk e he
    exact (within_truncate h hk hs).cursor he

/-- In a session without deletions whose calls spare the cursors, every cursor is
inside its file, and a write takes blocks of the file only. A truncation leaves
the cursors inside if and only if it spares them. -/
theorem cursors_within (junk : Nat → Nat → Int) (fs : FileSystem) (ha : fs.active = false)
    (hm : ∀ i < 64, ((mountFs junk fs).1.fileMetas i).Sized) (es : List Call) (t : FileSystem)
    (tr : List (Call × (Int × List Byte))) (hr : run call (mountFs junk fs).1 es = some (t, tr))
    (hg : Guarded call SparesCursors (mountFs junk fs).1 es) :
    (∀ d, IsOpen t d → CursorWithin t d) ∧
    (∀ heap heap' d buf n, IsOpen t d → SparesCursors t (.fsWrite heap heap' d buf n) →
      ∀ s ∈ writeSpots heap t d buf n, BlockWithin s d) ∧
    ∀ heap d length t' r, -2147483648 ≤ length.tdiv blockSize → fsTruncate heap t d length = some (t', r) →
      ((∀ e, IsOpen t' e → CursorWithin t' e) ↔ SparesCursors t (.fsTruncate heap d length)) := by
  have h : Within t := run_inv (fun _ _ _ _ h hk hs => within_step h hk hs) (Within.start ha hm) hg hr
  exact ⟨fun _ => h.cursor, fun _ _ _ _ _ => h.spots, fun _ _ _ _ _ => h.truncate_iff⟩

/-- A file with two descriptors is written, read from the start and truncated behind both cursors. -/
def behindRun : List Call :=
  [.fsCreate (fun _ => 0) fun _ => 65, .fsOpen fun _ => 65, .fsOpen fun _ => 65,
    .fsWrite (fun _ => 0) (fun _ => 0) 0 (fun _ => 66) 5, .fsRead (fun _ => 0) 1 (fun _ => 0) 2, .fsLseek 0 1,
    .fsTruncate (fun _ => 0) 0 3]

theorem cursors_within_behind :
    ∃ t tr, run call (started (fun _ _ => 0) unmounted) behindRun = some (t, tr) ∧
      (t.descriptors 0).cursor = 1 ∧ (t.descriptors 1).cursor = 2 ∧
      (∀ d, IsOpen t d → CursorWithin t d) ∧
      (∀ heap heap' d buf n, IsOpen t d → SparesCursors t (.fsWrite heap heap' d buf n) →
        ∀ s ∈ writeSpots heap t d buf n, BlockWithin s d) ∧
      ∀ heap d length t' r, -2147483648 ≤ length.tdiv blockSize → fsTruncate heap t d length = some (t', r) →
        ((∀ e, IsOpen t' e → CursorWithin t' e) ↔ SparesCursors t (.fsTruncate heap d length)) := by
  have hbehind : (run call (started (fun _ _ => 0) unmounted) behindRun).map
      (fun p => ((p.1.descriptors 0).cursor, (p.1.descriptors 1).cursor)) = some (1, 2) := by decide +kernel
  obtain ⟨⟨t, tr⟩, hrun, heq⟩ := Option.map_eq_some_iff.mp hbehind
  obtain ⟨h0, h1⟩ := Prod.mk.inj heq
  have hsized : ∀ i < 64, ((started (fun _ _ => 0) unmounted).fileMetas i).Sized :=
    fun _ _ => ⟨le_refl 0, show (0 : Int) ≤ 4096 by decide, fun h => absurd h (lt_irrefl 0)⟩
  exact ⟨t, tr, hrun, h0, h1, cursors_within (fun _ _ => 0) (makeFs unmounted) rfl hsized behindRun t tr hrun (by decide +kernel)⟩

/-- A file of one block is truncated to 50 bytes while its cursor is at the end. -/
def cutRun : List Call :=
  [.fsCreate (fun _ => 0) fun _ => 65, .fsOpen fun _ => 65, .fsWrite (fun _ => 0) (fun _ => 0) 0 (fun _ => 66) 4096,
    .fsTruncate (fun _ => 0) 0 50]

/-- The cursor is past the end then, and the next write takes `blocks[1]` of a file with one block. -/
theorem cursors_cut :
    ∃ t tr, run call (started (fun _ _ => 0) unmounted) cutRun = some (t, tr) ∧ IsOpen t 0 ∧ ¬ CursorWithin t 0 ∧
      (writeSpots (fun _ => 0) t 0 (fun _ => 67) 1).map
        (fun s => ((s.descriptors 0).cursor.tdiv blockSize, (s.opened 0).numBlocks)) = [(1, 1)] := by
  have hcut : (run call (started (fun _ _ => 0) unmounted) cutRun).map (fun p => ((p.1.descriptors 0).file,
      (p.1.descriptors 0).cursor, (p.1.opened 0).size, (writeSpots (fun _ => 0) p.1 0 (fun _ => 67) 1).map
        fun s => ((s.descriptors 0).cursor.tdiv blockSize, (s.opened 0).numBlocks))) =
      some (0, 4096, 50, [(1, 1)]) := by decide +kernel
  obtain ⟨⟨t, tr⟩, hrun, heq⟩ := Option.map_eq_some_iff.mp hcut
  simp only [Prod.mk.injEq] at heq
  obtain ⟨hfile, hcursor, hsize, hspots⟩ := heq
  refine ⟨t, tr, hrun, ⟨by decide, by rw [hfile]; decide⟩, ?_, hspots⟩
  intro h
  have hle := h.2
  rw [hcursor, hsize] at hle
  exact absurd hle (by decide)

end OsLabs.Fs
