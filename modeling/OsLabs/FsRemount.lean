import OsLabs.FsOwn

/-!
# Over a remount

`mount_fs` takes the usage map from block 0 of the disk, and nothing writes it
there. So a session may end only without any data block in use, or the next one
starts with all blocks free. The metadata come back when their low bytes are
below 128, and then so do the files.
-/

namespace OsLabs.Fs

/-! ## Runs of several sessions -/

/-- `umount_fs` succeeds, and then `mount_fs` of the same disk. -/
def Remounts (junk : Nat → Nat → Int) (fs fs' : FileSystem) : Prop :=
  ∃ fs₁, umountFs fs = some (fs₁, 0) ∧ mountFs junk fs₁ = (fs', 0)

def NoData (fs : FileSystem) : Prop := ∀ i < numFiles, (fs.fileMetas i).inUse ≠ 0 → (fs.fileMetas i).numBlocks = 0

/-- Data block `b + 4096` is one of the blocks of a file in use. -/
def Listed (fs : FileSystem) (b : Nat) : Prop :=
  ∃ i < numFiles, (fs.fileMetas i).inUse ≠ 0 ∧
    ∃ k : Nat, (k : Int) < (fs.fileMetas i).numBlocks ∧ (fs.fileMetas i).blocks k = b + (diskBlocks / 2 : Nat)

/-- A session ends without data only; during a session every write is as `Careful` has it. -/
def Kept (fs : FileSystem) : Call → Prop
  | .mount _ => True
  | .umount => fs.active = true ∧ ((∀ d < openFiles, (fs.descriptors d).file = -1) → NoData fs)
  | .fsTruncate _ _ _ => False
  | c => fs.active = true → Careful fs c

/-- Between sessions no file on the disk has a block. -/
def Sessions (fs : FileSystem) : Prop := (fs.active = true → Session fs) ∧ (fs.active = false → Blank fs.disk)

theorem blank_of_noData {fs : FileSystem} (h : Session fs) (hn : NoData fs) : Blank fs.disk where
  unsaved := h.unsaved
  files i hi := by
    have hs := h.stored i hi
    by_cases hu : (fs.fileMetas i).inUse = 0
    · exact ⟨{ fs.fileMetas i with numBlocks := 0, sizeLast := 0 },
        ⟨hs.inUse, hs.name, fun hne => absurd hu hne, fun hne => absurd hu hne, fun hne => absurd hu hne⟩, rfl, rfl⟩
    · exact ⟨fs.fileMetas i, hs, hn i hi hu, (h.tight i hi).mpr (hn i hi hu)⟩

theorem inactive_call {fs : FileSystem} (ha : fs.active = false) {c : Call} (hc : Kept fs c)
    (hm : ∀ junk, c ≠ .mount junk) : ∃ r, call fs c = some (fs, r) := by
  cases c with
  | mount junk => exact absurd rfl (hm junk)
  | umount => exact absurd (ha.symm.trans hc.1) (by decide)
  | fsOpen name => exact ⟨(-1, []), by simp [call, fsOpen, ha]⟩
  | fsClose d => exact ⟨(-1, []), by simp [call, fsClose, ha]⟩
  | fsCreate heap name => exact ⟨(-1, []), by simp [call, fsCreate, ha]⟩
  | fsDelete heap name => exact ⟨(-1, []), by simp [call, fsDelete, ha]⟩
  | fsRead heap d buf n => exact ⟨(-1, []), by simp [call, fsRead, ha, bytes]⟩
  | fsWrite heap heap' d buf n => exact ⟨(-1, []), by simp [call, fsWrite, ha]⟩
  | fsGetFilesize d => exact ⟨(-1, []), by simp [call, fsGetFilesize, ha]⟩
  | fsLseek d offset => exact ⟨(-1, []), by simp [call, fsLseek, ha]⟩
  | fsTruncate heap d length => exact absurd hc id

theorem kept_careful {fs : FileSystem} (ha : fs.active = true) {c : Call} (hc : Kept fs c)
    (hm : ∀ junk, c ≠ .mount junk) (hu : c ≠ .umount) : Careful fs c := by
  cases c with
  | mount junk => exact absurd rfl (hm junk)
  | umount => exact absurd rfl hu
  | fsTruncate heap d length => exact absurd hc id
  | fsOpen name => exact hc ha
  | fsClose d => exact hc ha
  | fsCreate heap name => exact hc ha
  | fsDelete heap name => exact hc ha
  | fsRead heap d buf n => exact hc ha
  | fsWrite heap heap' d buf n => exact hc ha
  | fsGetFilesize d => exact hc ha
  | fsLseek d offset => exact hc ha

theorem mount_step {fs : FileSystem} (h : Sessions fs) (junk : Nat → Nat → Int) :
    Sessions (mountFs junk fs).1 := by
  cases ha : fs.active with
  | true =>
    have hsame : mountFs junk fs = (fs, -1) := if_pos ha
    rw [hsame]
    exact h
  | false =>
    have hs := mountFs_session fs ha (h.2 ha) junk
    exact ⟨fun _ => hs, fun hf => absurd (hs.active.symm.trans hf) (by decide)⟩

theorem umount_step {fs : FileSystem} (h : Sessions fs) (ha : fs.active = true)
    (hn : (∀ d < openFiles, (fs.descriptors d).file = -1) → NoData fs) :
    ∃ fs' r, umountFs fs = some (fs', r) ∧ Sessions fs' := by
  unfold umountFs
  rw [if_pos ha]
  cases hopen : firstIndex (fun i => (fs.descriptors i).file != -1) openFiles with
  | some d => exact ⟨fs, -1, rfl, h⟩
  | none =>
    have hclosed : ∀ d < openFiles, (fs.descriptors d).file = -1 := fun d hd => by simpa using firstIndex_none hopen d hd
    have hblank := blank_of_noData (h.1 ha) (hn hclosed)
    exact ⟨_, 0, rfl, fun hf => absurd hf Bool.false_ne_true, fun _ => hblank⟩

theorem kept_step {fs : FileSystem} {c : Call} (h : Sessions fs) (hc : Kept fs c) :
    ∃ fs' r, call fs c = some (fs', r) ∧ Sessions fs' := by
  by_cases hm : ∃ junk, c = .mount junk
  · obtain ⟨junk, rfl⟩ := hm
    exact ⟨_, _, rfl, mount_step h junk⟩
  have hm' : ∀ junk, c ≠ .mount junk := fun junk heq => hm ⟨junk, heq⟩
  cases ha : fs.active with
  | false =>
    obtain ⟨r, heq⟩ := inactive_call ha hc hm'
    exact ⟨fs, r, heq, h⟩
  | true =>
    by_cases hu : c = .umount
    · subst hu
      obtain ⟨fs', r, heq, hs⟩ := umount_step h ha hc.2
      exact ⟨fs', _, congrArg (Option.map _) heq, hs⟩
    · obtain ⟨fs', r, heq, hs, _⟩ := session_step (h.1 ha) (kept_careful ha hc hm' hu)
      exact ⟨fs', r, heq, fun _ => hs, fun hf => absurd (hs.active.symm.trans hf) (by decide)⟩

theorem kept_run {fs : FileSystem} {es : List Call} (hg : Guarded call Kept (makeFs fs) es) :
    ∃ t tr, run call (makeFs fs) es = some (t, tr) ∧ Sessions t :=
  run_total (fun _ _ h hc => kept_step h hc)
    ⟨fun ha => absurd ha Bool.false_ne_true, fun _ => blank_makeFs fs⟩ hg

/-! ## The usage map -/

theorem remounts_eq {junk : Nat → Nat → Int} {fs fs' : FileSystem} (h : Remounts junk fs fs') :
    fs.active = true ∧
      fs' = ⟨true, fs.disk, fs.disk 0, fun i => loadFileMeta (junk i) fs.disk i, fun _ => ⟨-1, 0⟩⟩ := by
  obtain ⟨fs₁, hu, hm⟩ := h
  unfold umountFs at hu
  split at hu
  · rename_i ha
    refine ⟨ha, ?_⟩
    split at hu
    · cases hu
    · cases hu
      exact (congrArg Prod.fst hm).symm
  · cases hu

theorem umount_inactive {fs fs₁ : FileSystem} (h : umountFs fs = some (fs₁, 0)) : fs₁.active = false := by
  unfold umountFs at h
  split at h
  · split at h <;> cases h
    rfl
  · cases h

theorem mount_succeeds {fs : FileSystem} (ha : fs.active = false) (junk : Nat → Nat → Int) :
    mountFs junk fs = ((mountFs junk fs).1, 0) := by
  unfold mountFs
  rw [ha]
  rfl

theorem Owned.usage_iff {fs : FileSystem} (h : Owned fs) {b : Nat} (hb : b < 4096) :
    fs.usage b ≠ 0 ↔ Listed fs b := by
  rw [h.usage b hb]
  constructor
  · intro ⟨⟨i, k⟩, ⟨hi, hu, hk⟩, heq⟩
    have hcount := (h.ok i hi).count_eq
    exact ⟨i, hi, hu, k, by simp only at hk; omega, heq⟩
  · intro ⟨i, hi, hu, k, hk, heq⟩
    have hcount := (h.ok i hi).count_eq
    exact ⟨(i, k), ⟨hi, hu, show k < (fs.fileMetas i).count by omega⟩, heq⟩

theorem NoData.not_listed {fs : FileSystem} (hn : NoData fs) (b : Nat) : ¬ Listed fs b := by
  intro ⟨i, hi, hu, k, hk, _⟩
  rw [hn i hi hu] at hk
  omega

theorem noData_of_usage {fs : FileSystem} (h : Session fs) (hz : ∀ b < 4096, fs.usage b = 0) : NoData fs := by
  intro i hi hu
  have hok := h.owned.ok i hi
  have hnn := hok.nonneg
  by_cases hpos : 0 < (fs.fileMetas i).numBlocks
  · have hb := hok.blocks 0 hpos
    have hlisted : Listed fs ((fs.fileMetas i).blocks 0 - 4096).toNat :=
      ⟨i, hi, hu, 0, hpos, by simp only [diskBlocks]; omega⟩
    exact absurd (hz _ (by omega)) ((h.owned.usage_iff (by omega)).mpr hlisted)
  · omega

/-- During a session `usage` marks the blocks that the files list, no block is listed twice, and the block that
`find_empty_block` takes is not listed. `umount_fs` never writes block 0, so only a session that ends without data
finds the map right after a remount. -/
theorem usage_survives_remount (fs : FileSystem) (es : List Call) (hg : Guarded call Kept (makeFs fs) es) :
    ∃ t tr, run call (makeFs fs) es = some (t, tr) ∧
      (t.active = true → (∀ b < diskBlocks / 2, t.usage b ≠ 0 ↔ Listed t b) ∧
        (∀ p q, t.Entry p → t.Entry q → t.place p = t.place q → p = q) ∧ ∀ b, findEmptyBlock t = some b → ¬ Listed t b) ∧
      ∀ junk t', Remounts junk t t' →
        ((∀ b < diskBlocks / 2, t'.usage b ≠ 0 ↔ Listed t' b) ∧ (∀ b < diskBlocks / 2, t'.usage b ≠ 0 ↔ t.usage b ≠ 0) ↔
          NoData t) := by
  obtain ⟨t, tr, hrun, ht⟩ := kept_run hg
  refine ⟨t, tr, hrun, fun ha => ⟨fun b hb => (ht.1 ha).owned.usage_iff hb, (ht.1 ha).owned.inj, ?_⟩, ?_⟩
  · intro b hb
    obtain ⟨hlt, hz⟩ := findEmptyBlock_some ha hb
    exact fun hl => ((ht.1 ha).owned.usage_iff hlt).mpr hl hz
  · intro junk t' hr
    obtain ⟨ha, rfl⟩ := remounts_eq hr
    have hs := ht.1 ha
    constructor
    · intro ⟨_, hbefore⟩
      apply noData_of_usage hs
      intro b hb
      have hiff := hbefore b hb
      exact not_not.mp fun hne => hiff.mpr hne (hs.unsaved b hb)
    · intro hn
      have hblank := blank_of_noData hs hn
      have hs' := mountFs_session { t with active := false } rfl hblank junk
      refine ⟨fun b hb => hs'.owned.usage_iff hb, ?_⟩
      intro b hb
      exact ⟨fun hne => absurd (hs.unsaved b hb) hne, fun hne => absurd ((hs.owned.usage_iff hb).mp hne) (hn.not_listed b)⟩

def remountRun : List Call :=
  [.mount fun _ _ => 0, .fsCreate (fun _ => 0) fun _ => 65, .fsOpen fun _ => 65, .fsClose 0, .umount, .mount fun _ _ => 0,
    .fsOpen fun _ => 65, .fsWrite (fun _ => 0) (fun _ => 0) 0 (fun _ => 66) 5]

instance (fs : FileSystem) : Decidable (NoData fs) := inferInstanceAs (Decidable (∀ i < numFiles, _ → _))

instance (fs : FileSystem) : ∀ c, Decidable (Careful fs c)
  | .fsOpen _ | .fsCreate _ _ | .fsDelete _ _ => .isTrue trivial
  | .fsClose fildes | .fsRead _ fildes _ _ | .fsGetFilesize fildes
  | .fsLseek fildes _ => inferInstanceAs (Decidable (fildes < openFiles))
  | .fsWrite _ _ fildes _ nbyte =>
    inferInstanceAs (Decidable (IsOpen fs fildes ∧ (fs.opened fildes).inUse ≠ 0 ∧ Fits fs fildes nbyte))
  | .mount _ | .umount | .fsTruncate _ _ _ => .isFalse id

instance (fs : FileSystem) : ∀ c, Decidable (Kept fs c)
  | .mount _ => .isTrue trivial
  | .umount => inferInstanceAs (Decidable (fs.active = true ∧ ((∀ d < openFiles, (fs.descriptors d).file = -1) → NoData fs)))
  | .fsTruncate _ _ _ => .isFalse id
  | .fsOpen name => inferInstanceAs (Decidable (fs.active = true → Careful fs (.fsOpen name)))
  | .fsClose fildes => inferInstanceAs (Decidable (fs.active = true → Careful fs (.fsClose fildes)))
  | .fsCreate heap name => inferInstanceAs (Decidable (fs.active = true → Careful fs (.fsCreate heap name)))
  | .fsDelete heap name => inferInstanceAs (Decidable (fs.active = true → Careful fs (.fsDelete heap name)))
  | .fsRead heap fildes buf n => inferInstanceAs (Decidable (fs.active = true → Careful fs (.fsRead heap fildes buf n)))
  | .fsWrite heap heap' fildes buf n =>
    inferInstanceAs (Decidable (fs.active = true → Careful fs (.fsWrite heap heap' fildes buf n)))
  | .fsGetFilesize fildes => inferInstanceAs (Decidable (fs.active = true → Careful fs (.fsGetFilesize fildes)))
  | .fsLseek fildes offset => inferInstanceAs (Decidable (fs.active = true → Careful fs (.fsLseek fildes offset)))

theorem usage_survives_remount_empty :
    ∃ t tr, run call (makeFs unmounted) remountRun = some (t, tr) ∧
      (t.active = true → ∀ b < diskBlocks / 2, t.usage b ≠ 0 ↔ Listed t b) := by
  obtain ⟨t, tr, hrun, hmap, _⟩ := usage_survives_remount unmounted remountRun (by decide +kernel)
  exact ⟨t, tr, hrun, fun ha => (hmap ha).1⟩

/-- A byte is written to file A, and after a remount a byte to file B. -/
def lostRun : List Call :=
  [.mount fun _ _ => 0, .fsCreate (fun _ => 0) fun _ => 65, .fsOpen fun _ => 65,
    .fsWrite (fun _ => 0) (fun _ => 0) 0 (fun _ => 66) 1, .fsClose 0, .umount, .mount fun _ _ => 0]

def sharedRun : List Call :=
  lostRun ++ [.fsCreate (fun _ => 0) fun _ => 66, .fsOpen fun _ => 66, .fsWrite (fun _ => 0) (fun _ => 0) 0 (fun _ => 67) 1]

/-- Every call succeeds, but the block of file A is free after the remount, and then belongs to file B too. -/
theorem usage_lost :
    (∃ t tr, run call (makeFs unmounted) lostRun = some (t, tr) ∧ (tr.map fun e => e.2.1) = [0, 0, 0, 1, 0, 0, 0] ∧
      t.usage 0 = 0 ∧ Listed t 0) ∧
    ∃ t tr, run call (makeFs unmounted) sharedRun = some (t, tr) ∧ (tr.map fun e => e.2.1) = [0, 0, 0, 1, 0, 0, 0, 0, 0, 1] ∧
      (t.fileMetas 0).inUse ≠ 0 ∧ (t.fileMetas 0).numBlocks = 1 ∧ (t.fileMetas 1).inUse ≠ 0 ∧
      (t.fileMetas 1).numBlocks = 1 ∧ (t.fileMetas 0).blocks 0 = (t.fileMetas 1).blocks 0 := by
  constructor
  · have hlost : (run call (makeFs unmounted) lostRun).map (fun p => (p.2.map fun e => e.2.1, p.1.usage 0,
        (p.1.fileMetas 0).inUse, (p.1.fileMetas 0).numBlocks, (p.1.fileMetas 0).blocks 0)) =
        some ([0, 0, 0, 1, 0, 0, 0], 0, 1, 1, 4096) := by decide +kernel
    obtain ⟨⟨t, tr⟩, hrun, heq⟩ := Option.map_eq_some_iff.mp hlost
    simp only [Prod.mk.injEq] at heq
    obtain ⟨htr, hz, hu, hnb, hb⟩ := heq
    exact ⟨t, tr, hrun, htr, hz, 0, by decide, by rw [hu]; decide, 0, by rw [hnb]; decide, hb⟩
  · have hshared : (run call (makeFs unmounted) sharedRun).map (fun p => (p.2.map fun e => e.2.1,
        ((p.1.fileMetas 0).inUse, (p.1.fileMetas 0).numBlocks, (p.1.fileMetas 0).blocks 0),
        (p.1.fileMetas 1).inUse, (p.1.fileMetas 1).numBlocks, (p.1.fileMetas 1).blocks 0)) =
        some ([0, 0, 0, 1, 0, 0, 0, 0, 0, 1], (1, 1, 4096), 1, 1, 4096) := by decide +kernel
    obtain ⟨⟨t, tr⟩, hrun, heq⟩ := Option.map_eq_some_iff.mp hshared
    simp only [Prod.mk.injEq] at heq
    obtain ⟨htr, ⟨hu, hnb, hb⟩, hu', hnb', hb'⟩ := heq
    exact ⟨t, tr, hrun, htr, by rw [hu]; decide, hnb, by rw [hu']; decide, hnb', by rw [hb, hb']⟩

/-! ## The files -/

theorem Session.holdable {fs : FileSystem} (h : Session fs) {i : Nat} (hi : i < 64) :
    Holdable (fs.fileMetas i) := by
  have hok := h.owned.ok i hi
  refine ⟨⟨hok.nonneg, hok.le⟩, ?_, hok.blocks⟩
  by_cases hz : (fs.fileMetas i).numBlocks = 0
  · have hsl := (h.tight i hi).mpr hz
    omega
  · exact hok.sizeLast (by have := hok.nonneg; omega)

theorem Holdable.ok {f : FileMeta} (h : Holdable f) : f.Ok :=
  ⟨h.numBlocks.1, h.numBlocks.2, h.blocks, fun _ => h.sizeLast⟩

theorem SameMeta.size {f g : FileMeta} (h : SameMeta f g) : g.size = f.size := by
  unfold FileMeta.size
  rw [h.numBlocks, h.sizeLast]

def SameFile (i : Nat) (fs fs' : FileSystem) : Prop :=
  (fs'.fileMetas i).size = (fs.fileMetas i).size ∧
    ∀ j : Nat, (j : Int) < (fs.fileMetas i).size → fs'.byteAt i j = fs.byteAt i j

theorem SameMeta.sameFile {fs fs' : FileSystem} {i : Nat} (h : SameMeta (fs.fileMetas i) (fs'.fileMetas i))
    (hok : (fs.fileMetas i).Ok) (hd : ∀ b, 4096 ≤ b → fs'.disk b = fs.disk b) : SameFile i fs fs' := by
  refine ⟨h.size, ?_⟩
  intro j hj
  have hlen := hok.length_eq
  have hle := hok.length_le
  have hcount := hok.count_eq
  have hb := hok.block (k := j / 4096) (by omega)
  unfold FileSystem.byteAt
  rw [h.blocks (j / 4096) (by omega), hd _ (by omega)]

section
variable {junk : Nat → Nat → Int} {i : Nat}

theorem Stored.remount {fs fs' : FileSystem} {f : FileMeta} (h : Stored fs.disk i f) (hf : Holdable f)
    (hu : f.inUse ≠ 0) (hr : Remounts junk fs fs') : SameMeta f (fs'.fileMetas i) ↔ LowBytes f := by
  obtain ⟨_, rfl⟩ := remounts_eq hr
  exact h.sameMeta_iff hf hu (junk i)

theorem Remounts.disk_eq {fs fs' : FileSystem} (hr : Remounts junk fs fs') : fs'.disk = fs.disk := by
  obtain ⟨_, rfl⟩ := remounts_eq hr
  rfl

end

/-- A saved file comes back exactly if `mount_fs` takes no low byte as negative,
whatever state saves it, and at the end of a run. -/
theorem metadata_round_trip (heap : Block) (junk : Nat → Nat → Int) (fs : FileSystem) :
    (∀ i < numFiles, fs.active = true → (fs.fileMetas i).inUse ≠ 0 → Holdable (fs.fileMetas i) →
      ∃ fs', saveFileMeta heap fs i = some fs' ∧
        (SameMeta (fs.fileMetas i) (loadFileMeta (junk i) fs'.disk i) ↔ LowBytes (fs.fileMetas i)) ∧
        ∀ t, Remounts junk fs' t → LowBytes (fs.fileMetas i) → SameFile i fs t) ∧
    ∀ es : List Call, Guarded call Kept (makeFs fs) es →
      ∃ t tr, run call (makeFs fs) es = some (t, tr) ∧
        ∀ t' i, Remounts junk t t' → i < numFiles → (t.fileMetas i).inUse ≠ 0 →
          (SameMeta (t.fileMetas i) (t'.fileMetas i) ↔ LowBytes (t.fileMetas i)) ∧
          (LowBytes (t.fileMetas i) → SameFile i t t') := by
  constructor
  · intro i hi ha hu hf
    have hst : Stored (savedDisk heap fs.disk i (fs.fileMetas i)) i (fs.fileMetas i) := stored_saved hf.ok.count_le
    refine ⟨_, saveFileMeta_eq fs ha hi, hst.sameMeta_iff hf hu (junk i), ?_⟩
    intro t hr hl
    apply SameMeta.sameFile ((Stored.remount hst hf hu hr).mpr hl) hf.ok
    intro b hb
    simp only [numFiles] at hi
    rw [hr.disk_eq]
    exact savedDisk_of_ne (by omega)
  · intro es hg
    obtain ⟨t, tr, hrun, ht⟩ := kept_run hg
    refine ⟨t, tr, hrun, ?_⟩
    intro t' i hr hi hu
    have hs := ht.1 (remounts_eq hr).1
    have hiff := (hs.stored i hi).remount (hs.holdable hi) hu hr
    refine ⟨hiff, ?_⟩
    intro hl
    exact (hiff.mpr hl).sameFile (hs.owned.ok i hi) fun b _ => by rw [hr.disk_eq]

def lowMeta : FileMeta := ⟨1, fun _ => 65, 1, 100, fun _ => 4096⟩

theorem lowMeta_holdable : Holdable lowMeta ∧ LowBytes lowMeta :=
  ⟨⟨by decide, by decide, fun _ _ => (by decide : (4096 : Int) ≤ 4096 ∧ (4096 : Int) < 8192)⟩,
    ⟨by decide, by decide, fun _ _ => (by decide : (4096 : Int) % 256 < 128)⟩⟩

def fiveRun : List Call :=
  [.mount fun _ _ => 0, .fsCreate (fun _ => 0) fun _ => 65, .fsOpen fun _ => 65,
    .fsWrite (fun _ => 0) (fun _ => 0) 0 (fun _ => 66) 5, .fsClose 0]

theorem metadata_round_trip_low :
    (∃ fs', saveFileMeta (fun _ => 0) { unmounted with active := true, fileMetas := fun _ => lowMeta } 0 = some fs' ∧
      SameMeta lowMeta (loadFileMeta (fun _ => 0) fs'.disk 0)) ∧
    ∃ t tr t', run call (makeFs unmounted) fiveRun = some (t, tr) ∧ Remounts (fun _ _ => 0) t t' ∧
      (t.fileMetas 0).size = 5 ∧ SameFile 0 t t' := by
  constructor
  · obtain ⟨fs', hsave, hiff, _⟩ := (metadata_round_trip (fun _ => 0) (fun _ _ => 0)
      { unmounted with active := true, fileMetas := fun _ => lowMeta }).1 0 (by decide) rfl (by decide : (1 : Byte) ≠ 0)
      lowMeta_holdable.1
    exact ⟨fs', hsave, hiff.mpr lowMeta_holdable.2⟩
  · obtain ⟨t, tr, hrun, hback⟩ := (metadata_round_trip (fun _ => 0) (fun _ _ => 0) unmounted).2 fiveRun (by decide +kernel)
    have hstate : (run call (makeFs unmounted) fiveRun).map (fun p => ((umountFs p.1).map Prod.snd, (p.1.fileMetas 0).inUse,
        (p.1.fileMetas 0).numBlocks, (p.1.fileMetas 0).sizeLast, (p.1.fileMetas 0).blocks 0)) =
        some (some 0, 1, 1, 5, 4096) := by decide +kernel
    rw [hrun, Option.map_some, Option.some.injEq] at hstate
    simp only [Prod.mk.injEq] at hstate
    obtain ⟨hu, hin, hnb, hsl, hb⟩ := hstate
    obtain ⟨⟨t₁, r⟩, humount, rfl⟩ := Option.map_eq_some_iff.mp hu
    have hactive : t₁.active = false := umount_inactive humount
    have hr : Remounts (fun _ _ => 0) t (mountFs (fun _ _ => 0) t₁).1 := ⟨t₁, humount, mount_succeeds hactive _⟩
    have hlow : LowBytes (t.fileMetas 0) := by
      refine ⟨by rw [hnb]; decide, by rw [hsl]; decide, ?_⟩
      intro k hk
      rw [hnb] at hk
      have hk0 : k = 0 := by omega
      rw [hk0, hb]
      decide
    have hsize : (t.fileMetas 0).size = 5 := by
      unfold FileMeta.size
      rw [hnb, hsl]
      rfl
    obtain ⟨_, hsame⟩ := hback _ 0 hr (by decide) (by rw [hin]; decide)
    exact ⟨t, tr, _, hrun, hr, hsize, hsame hlow⟩

/-- 200 bytes are written to file A; after a remount its size is asked for. -/
def sizeRun : List Call :=
  [.mount fun _ _ => 0, .fsCreate (fun _ => 0) fun _ => 65, .fsOpen fun _ => 65,
    .fsWrite (fun _ => 0) (fun _ => 0) 0 (fun _ => 66) 200, .fsGetFilesize 0, .fsClose 0, .umount, .mount fun _ _ => 0,
    .fsOpen fun _ => 65, .fsGetFilesize 0]

/-- A file of 200 bytes has -56 of them when it is read back. -/
theorem size_lost :
    (∃ t tr, run call (makeFs unmounted) sizeRun = some (t, tr) ∧
      (tr.map fun e => e.2.1) = [0, 0, 0, 200, 200, 0, 0, 0, 0, -56]) ∧
    ∃ f fs', Holdable f ∧ f.inUse ≠ 0 ∧
      saveFileMeta (fun _ => 0) { unmounted with active := true, fileMetas := fun _ => f } 0 = some fs' ∧
      ¬ SameMeta f (loadFileMeta (fun _ => 0) fs'.disk 0) := by
  constructor
  · have hsize : (run call (makeFs unmounted) sizeRun).map (fun p => p.2.map fun e => e.2.1) =
        some [0, 0, 0, 200, 200, 0, 0, 0, 0, -56] := by decide +kernel
    obtain ⟨⟨t, tr⟩, hrun, heq⟩ := Option.map_eq_some_iff.mp hsize
    exact ⟨t, tr, hrun, heq⟩
  · refine ⟨⟨1, fun _ => 65, 1, 200, fun _ => 4096⟩, _, ?_, (by decide : (1 : Byte) ≠ 0),
      saveFileMeta_eq { unmounted with active := true, fileMetas := fun _ => ⟨1, fun _ => 65, 1, 200, fun _ => 4096⟩ } rfl
        (by decide), ?_⟩
    · exact ⟨by decide, by decide, fun _ _ => (by decide : (4096 : Int) ≤ 4096 ∧ (4096 : Int) < 8192)⟩
    · intro hs
      exact absurd hs.sizeLast (by decide +kernel)

end OsLabs.Fs
