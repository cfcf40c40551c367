import OsLabs.FsSession

/-!
# What the calls on a descriptor leave alone

Closing, seeking, reading, writing and truncating do not change which slots are
in use nor the names in them, and none of them makes a descriptor refer to
another file. This holds in every state, whatever the cursors and the metadata are.
-/

namespace OsLabs.Fs

structure SameFiles (fs fs' : FileSystem) : Prop where
  active : fs'.active = fs.active
  inUse : ∀ k, (fs'.fileMetas k).inUse = (fs.fileMetas k).inUse
  file : ∀ d, (fs'.descriptors d).file = (fs.descriptors d).file

structure SameNames (fs fs' : FileSystem) : Prop extends SameFiles fs fs' where
  name : ∀ k, (fs'.fileMetas k).name = (fs.fileMetas k).name

theorem SameNames.refl (fs : FileSystem) : SameNames fs fs := ⟨⟨rfl, fun _ => rfl, fun _ => rfl⟩, fun _ => rfl⟩

theorem SameNames.trans {fs₁ fs₂ fs₃ : FileSystem} (h : SameNames fs₁ fs₂) (h' : SameNames fs₂ fs₃) :
    SameNames fs₁ fs₃ where
  active := h'.active.trans h.active
  inUse k := (h'.inUse k).trans (h.inUse k)
  file d := (h'.file d).trans (h.file d)
  name k := (h'.name k).trans (h.name k)

/-- A call that succeeds is its function, where that gives a state and a number. -/
theorem call_some {x : Option (FileSystem × Int)} {fs' : FileSystem} {r : Int} {bs : List Byte}
    (h : (x.map fun (fs, r) => (fs, r, ([] : List Byte))) = some (fs', r, bs)) : x = some (fs', r) := by
  obtain ⟨⟨fs₁, r₁⟩, hx, heq⟩ := Option.map_eq_some_iff.mp h
  cases heq
  exact hx

theorem call_read_some {x : Option (FileSystem × (Nat → Byte) × Int)} {fs' : FileSystem} {r : Int}
    {bs : List Byte} (h : (x.map fun (fs, buf, r) => (fs, r, bytes buf r.toNat)) = some (fs', r, bs)) :
    ∃ buf, x = some (fs', buf, r) := by
  obtain ⟨⟨fs₁, buf, r₁⟩, hx, heq⟩ := Option.map_eq_some_iff.mp h
  cases heq
  exact ⟨buf, hx⟩

section
variable {fs fs' : FileSystem}

theorem descriptor_some {d : Nat} {desc : Descriptor} (h : fs.descriptor d = some desc) :
    d < openFiles ∧ desc = fs.descriptors d := by
  unfold FileSystem.descriptor at h
  split at h
  · cases h
    exact ⟨by assumption, rfl⟩
  · cases h

theorem fileMeta_some {file : Int} {f : FileMeta} (h : fs.fileMeta file = some f) :
    ∃ i : Nat, i < numFiles ∧ file = i ∧ f = fs.fileMetas i := by
  unfold FileSystem.fileMeta at h
  split at h
  · cases h
    exact ⟨file.toNat, by omega, by omega, rfl⟩
  · cases h

theorem fsGetFilesize_some {d : Nat} {size : Int} (ha : fs.active = true) (h : fsGetFilesize fs d = some size) :
    d < openFiles ∧ ((fs.descriptors d).file = -1 ∧ size = -1 ∨
      ∃ i : Nat, i < numFiles ∧ (fs.descriptors d).file = i ∧ size = (fs.fileMetas i).size) := by
  unfold fsGetFilesize at h
  rw [if_pos ha] at h
  simp only [Option.bind_eq_bind, Option.bind_eq_some_iff] at h
  obtain ⟨desc, hd, h⟩ := h
  obtain ⟨hlt, rfl⟩ := descriptor_some hd
  refine ⟨hlt, ?_⟩
  split at h
  · rename_i hclosed
    cases h
    exact Or.inl ⟨hclosed, rfl⟩
  · simp only [Option.bind_eq_some_iff] at h
    obtain ⟨f, hf, h⟩ := h
    obtain ⟨i, hi, hfile, rfl⟩ := fileMeta_some hf
    cases h
    exact Or.inr ⟨i, hi, hfile, rfl⟩

theorem blockWrite_disk (fs : FileSystem) (block : Int) (buf : Block) :
    ∃ disk, fs.blockWrite block buf = { fs with disk := disk } := by
  unfold FileSystem.blockWrite
  split
  · exact ⟨_, rfl⟩
  · exact ⟨fs.disk, rfl⟩

theorem saveFileMeta_disk {heap : Block} {file : Int} (h : saveFileMeta heap fs file = some fs') :
    ∃ disk, fs' = { fs with disk := disk } := by
  unfold saveFileMeta at h
  split at h
  · simp only [Option.bind_eq_bind, Option.bind_eq_some_iff] at h
    obtain ⟨f, hf, h⟩ := h
    obtain ⟨disk₁, h₁⟩ := blockWrite_disk fs (3 * file + 1) (infoBlock heap f)
    obtain ⟨disk₂, h₂⟩ := blockWrite_disk { fs with disk := disk₁ } (3 * file + 2) (listBlock f 0)
    obtain ⟨disk₃, h₃⟩ := blockWrite_disk { fs with disk := disk₂ } (3 * file + 3)
      (listBlock f (diskBlocks / 4))
    rw [h₁, h₂, h₃] at h
    cases h
    exact ⟨disk₃, rfl⟩
  · cases h
    exact ⟨fs.disk, rfl⟩

theorem same_disk (fs : FileSystem) (disk : Nat → Block) : SameNames fs { fs with disk := disk } :=
  ⟨⟨rfl, fun _ => rfl, fun _ => rfl⟩, fun _ => rfl⟩

theorem same_cursor {d : Nat} {desc : Descriptor} (h : desc.file = (fs.descriptors d).file) :
    SameNames fs (fs.setDescriptor d desc) := by
  refine ⟨⟨rfl, fun _ => rfl, ?_⟩, fun _ => rfl⟩
  intro e
  unfold FileSystem.setDescriptor
  by_cases he : e = d
  · rw [he]
    simpa using h
  · simp [he]

theorem same_meta {file : Int} {f : FileMeta} (h : f.inUse = (fs.fileMetas file.toNat).inUse)
    (hn : f.name = (fs.fileMetas file.toNat).name) : SameNames fs (fs.setMeta file f) := by
  refine ⟨⟨rfl, ?_, fun _ => rfl⟩, ?_⟩
  · intro k
    unfold FileSystem.setMeta
    by_cases hk : k = file.toNat
    · rw [hk]
      simpa using h
    · simp [hk]
  · intro k
    unfold FileSystem.setMeta
    by_cases hk : k = file.toNat
    · rw [hk]
      simpa using hn
    · simp [hk]

theorem same_usage (fs : FileSystem) (usage : Nat → Byte) : SameNames fs { fs with usage := usage } :=
  ⟨⟨rfl, fun _ => rfl, fun _ => rfl⟩, fun _ => rfl⟩

end

/-! ## The loops -/

theorem readLoop_same {fildes : Nat} :
    ∀ {fuel : Nat} {r r' : Reading}, readLoop fildes fuel r = some r' → SameNames r.fs r'.fs
  | 0, _, _, h => by cases h
  | fuel + 1, r, r', h => by
    unfold readLoop at h
    simp only [Option.bind_eq_bind, Option.bind_eq_some_iff] at h
    obtain ⟨desc, hd, size, -, h⟩ := h
    split at h
    · simp only [Option.bind_eq_some_iff] at h
      obtain ⟨f, -, block, -, h⟩ := h
      obtain ⟨-, rfl⟩ := descriptor_some hd
      refine SameNames.trans ?_ (readLoop_same h)
      exact same_cursor rfl
    · cases h
      exact SameNames.refl r.fs

theorem writeChunk_same {fildes : Nat} {w w' : Writing} (h : writeChunk fildes w = some w') :
    SameNames w.fs w'.fs := by
  unfold writeChunk at h
  simp only [Option.bind_eq_bind, Option.bind_eq_some_iff] at h
  obtain ⟨desc, hd, f, hf, block, -, h⟩ := h
  obtain ⟨-, rfl⟩ := descriptor_some hd
  obtain ⟨i, -, hi, rfl⟩ := fileMeta_some hf
  generalize (if w.nbyte < toSize _ then (w.nbyte : Int) else _) = dist at h
  generalize memcpy _ _ _ _ = data at h
  obtain ⟨disk, hdisk⟩ := blockWrite_disk w.fs block data
  rw [hdisk] at h
  cases h
  have hmove : SameNames w.fs (moveCursor { w.fs with disk := disk } fildes (w.fs.descriptors fildes) dist) :=
    (same_disk w.fs disk).trans (same_cursor rfl)
  simp only
  split
  · refine hmove.trans (same_meta ?_ ?_) <;> rw [hi] <;> rfl
  · exact hmove

theorem addBlock_same {fs fs' : FileSystem} {file : Int} {newblock : Nat}
    (h : addBlock fs file newblock = some fs') : SameNames fs fs' := by
  unfold addBlock at h
  simp only [Option.bind_eq_bind, Option.bind_eq_some_iff] at h
  obtain ⟨f, hf, -, -, h⟩ := h
  obtain ⟨i, -, rfl, rfl⟩ := fileMeta_some hf
  cases h
  exact (same_meta (by rfl) (by rfl)).trans (same_usage _ _)

theorem writeInside_same {fildes : Nat} :
    ∀ {fuel : Nat} {w w' : Writing}, writeInside fildes fuel w = some w' → SameNames w.fs w'.fs
  | 0, _, _, h => by cases h
  | fuel + 1, w, w', h => by
    unfold writeInside at h
    simp only [Option.bind_eq_bind, Option.bind_eq_some_iff] at h
    obtain ⟨desc, -, size, -, h⟩ := h
    split at h
    · simp only [Option.bind_eq_some_iff] at h
      obtain ⟨w₁, h₁, h⟩ := h
      exact (writeChunk_same h₁).trans (writeInside_same h)
    · cases h
      exact SameNames.refl w.fs

theorem writePast_same {fildes : Nat} :
    ∀ {fuel : Nat} {w w' : Writing}, writePast fildes fuel w = some w' → SameNames w.fs w'.fs
  | 0, _, _, h => by cases h
  | fuel + 1, w, w', h => by
    unfold writePast at h
    split at h
    · simp only [Option.bind_eq_bind, Option.bind_eq_some_iff] at h
      obtain ⟨desc, -, f, -, h⟩ := h
      split at h
      · split at h
        · cases h
          exact SameNames.refl w.fs
        · simp only [Option.bind_eq_some_iff] at h
          obtain ⟨fs, hadd, w₁, h₁, h⟩ := h
          exact (addBlock_same hadd).trans ((writeChunk_same h₁).trans (writePast_same h))
      · simp only [Option.bind_eq_some_iff] at h
        obtain ⟨w₁, h₁, h⟩ := h
        exact (writeChunk_same h₁).trans (writePast_same h)
    · cases h
      exact SameNames.refl w.fs

/-! ## The calls -/

section
variable {fs fs' : FileSystem} {d : Nat} {r : Int}

theorem fsClose_some (h : fsClose fs d = some (fs', r)) :
    fs' = fs ∨ d < openFiles ∧ fs' = fs.setDescriptor d { fs.descriptors d with file := -1 } := by
  unfold fsClose at h
  split at h
  · simp only [Option.bind_eq_bind, Option.bind_eq_some_iff] at h
    obtain ⟨desc, hd, h⟩ := h
    obtain ⟨hlt, rfl⟩ := descriptor_some hd
    split at h
    · cases h
      exact Or.inl rfl
    · cases h
      exact Or.inr ⟨hlt, rfl⟩
  · cases h
    exact Or.inl rfl

theorem fsCreate_some {heap : Block} {name : Nat → Byte} (h : fsCreate heap fs name = some (fs', r)) :
    fs' = fs ∧ r = -1 ∧ (fs.active = true → firstIndex (fun i => (fs.fileMetas i).inUse == 0) numFiles = none) ∨
      ∃ i disk, firstIndex (fun i => (fs.fileMetas i).inUse == 0) numFiles = some i ∧
        r = 0 ∧ fs' = { fs.setMeta i ((fs.fileMetas i).created name) with disk := disk } := by
  unfold fsCreate at h
  split at h
  · split at h
    · rename_i hnone
      cases h
      exact Or.inl ⟨rfl, rfl, fun _ => hnone⟩
    · rename_i i hi
      simp only [Option.bind_eq_bind, Option.bind_eq_some_iff] at h
      obtain ⟨fs₁, hsave, h⟩ := h
      cases h
      obtain ⟨disk, rfl⟩ := saveFileMeta_disk hsave
      exact Or.inr ⟨i, disk, hi, rfl, rfl⟩
  · rename_i ha
    cases h
    exact Or.inl ⟨rfl, rfl, fun hact => absurd hact ha⟩

theorem fsDelete_some {heap : Block} {name : Nat → Byte} (h : fsDelete heap fs name = some (fs', r)) :
    fs' = fs ∧ (fs.active = true → firstIndex (fun i => (fs.fileMetas i).inUse != 0) numFiles = none) ∨
      ∃ i, fs.active = true ∧ firstIndex (fun i => (fs.fileMetas i).inUse != 0) numFiles = some i ∧
        fs' = fs.deleted heap i := by
  by_cases ha : fs.active = true
  · cases hi : firstIndex (fun i => (fs.fileMetas i).inUse != 0) numFiles with
    | none =>
      rw [fsDelete_none ha hi] at h
      cases h
      exact Or.inl ⟨rfl, fun _ => rfl⟩
    | some i =>
      obtain ⟨-, heq⟩ := (fsDelete_first ha hi).mp h
      exact Or.inr ⟨i, ha, rfl, (Prod.mk.inj heq).1⟩
  · unfold fsDelete at h
    rw [if_neg ha] at h
    cases h
    exact Or.inl ⟨rfl, fun hact => absurd hact ha⟩

theorem fsGetFilesize_fs {n : Nat} {fs' : FileSystem} {q : Int × List Byte}
    (h : call fs (.fsGetFilesize n) = some (fs', q)) : fs' = fs := by
  obtain ⟨x, -, hx⟩ := Option.map_eq_some_iff.mp h
  cases hx
  rfl

theorem fsRead_some {heap : Block} {buf buf' : Nat → Byte} {n : Nat} (ha : fs.active = true)
    (h : fsRead heap fs d buf n = some (fs', buf', r)) :
    ∃ r₁, readLoop d (n + 1) ⟨fs, heap, buf, n, 0⟩ = some r₁ ∧ fs' = r₁.fs ∧ r = r₁.read := by
  unfold fsRead at h
  rw [if_pos ha] at h
  simp only [Option.bind_eq_bind, Option.bind_eq_some_iff] at h
  obtain ⟨r₁, hloop, h⟩ := h
  cases h
  exact ⟨r₁, hloop, rfl, rfl⟩

theorem fsRead_same {heap : Block} {buf buf' : Nat → Byte} {n : Nat}
    (h : fsRead heap fs d buf n = some (fs', buf', r)) : SameNames fs fs' := by
  by_cases ha : fs.active = true
  · obtain ⟨r₁, hloop, rfl, -⟩ := fsRead_some ha h
    exact readLoop_same hloop
  · unfold fsRead at h
    rw [if_neg ha] at h
    cases h
    exact SameNames.refl fs

/-- A write that is defined has gone through an open descriptor. -/
theorem fsWrite_some {heap heap' : Block} {buf : Nat → Byte} {n : Nat} (ha : fs.active = true)
    (h : fsWrite heap heap' fs d buf n = some (fs', r)) :
    (d < openFiles ∧ ∃ i : Nat, i < numFiles ∧ (fs.descriptors d).file = i) ∧
      ∃ w₁ w₂ disk, writeInside d (n + 1) ⟨fs, heap, buf, n, 0⟩ = some w₁ ∧ writePast d (w₁.nbyte + 1) w₁ = some w₂ ∧
        fs' = { w₂.fs with disk := disk } := by
  unfold fsWrite at h
  rw [if_pos ha] at h
  simp only [Option.bind_eq_bind, Option.bind_eq_some_iff] at h
  obtain ⟨w₁, h₁, w₂, h₂, desc, hd, fs₃, hsave, h⟩ := h
  cases h
  have hsame := (writeInside_same h₁).trans (writePast_same h₂)
  obtain ⟨hlt, rfl⟩ := descriptor_some hd
  obtain ⟨disk, rfl⟩ := saveFileMeta_disk hsave
  refine ⟨⟨hlt, ?_⟩, w₁, w₂, disk, h₁, h₂, rfl⟩
  unfold saveFileMeta at hsave
  rw [if_pos (hsame.active.trans ha)] at hsave
  simp only [Option.bind_eq_bind, Option.bind_eq_some_iff] at hsave
  obtain ⟨f, hf, -⟩ := hsave
  obtain ⟨i, hi, hfile, -⟩ := fileMeta_some hf
  exact ⟨i, hi, (hsame.file d).symm.trans hfile⟩

theorem fsWrite_same {heap heap' : Block} {buf : Nat → Byte} {n : Nat}
    (h : fsWrite heap heap' fs d buf n = some (fs', r)) : SameNames fs fs' := by
  by_cases ha : fs.active = true
  · obtain ⟨-, w₁, w₂, disk, h₁, h₂, rfl⟩ := fsWrite_some ha h
    exact (writeInside_same h₁).trans ((writePast_same h₂).trans (same_disk w₂.fs disk))
  · unfold fsWrite at h
    rw [if_neg ha] at h
    cases h
    exact SameNames.refl fs

theorem fsLseek_some {offset : Int} (ha : fs.active = true) (h : fsLseek fs d offset = some (fs', r)) :
    fs' = fs ∨ ∃ i : Nat, i < numFiles ∧ d < openFiles ∧ (fs.descriptors d).file = i ∧ 0 ≤ offset ∧
      offset ≤ (fs.fileMetas i).size ∧ fs' = fs.setDescriptor d ⟨i, toInt offset⟩ := by
  unfold fsLseek at h
  rw [if_pos ha] at h
  simp only [Option.bind_eq_bind, Option.bind_eq_some_iff] at h
  obtain ⟨desc, hd, size, hsize, h⟩ := h
  obtain ⟨hlt, rfl⟩ := descriptor_some hd
  split at h
  · cases h
    exact Or.inl rfl
  · rename_i hgo
    cases h
    rcases (fsGetFilesize_some ha hsize).2 with ⟨hclosed, -⟩ | ⟨i, hi, hfile, rfl⟩
    · exact absurd (Or.inl hclosed) hgo
    · refine Or.inr ⟨i, hi, hlt, hfile, by omega, by omega, ?_⟩
      rw [hfile]

theorem fsLseek_same {offset : Int} (h : fsLseek fs d offset = some (fs', r)) : SameNames fs fs' := by
  by_cases ha : fs.active = true
  · rcases fsLseek_some ha h with rfl | ⟨i, -, -, hfile, -, -, rfl⟩
    · exact SameNames.refl fs'
    · exact same_cursor hfile.symm
  · unfold fsLseek at h
    rw [if_neg ha] at h
    cases h
    exact SameNames.refl fs

end

/-! ## Truncating -/

def targetBlocks (length : Int) : Int :=
  if 0 < length.tmod blockSize then toInt (length.tdiv blockSize) + 1 else toInt (length.tdiv blockSize)

def FileMeta.cut (f : FileMeta) (length : Int) : FileMeta :=
  { f with numBlocks := min f.numBlocks (targetBlocks length), sizeLast := length.tmod blockSize }

def FileSystem.truncated (heap : Block) (fs : FileSystem) (i : Nat) (f : FileMeta) (usage : Nat → Byte) : FileSystem :=
  { ({ fs with usage := usage } : FileSystem).setMeta i f with disk := savedDisk heap fs.disk i f }

theorem toShort_tmod (length : Int) : toShort (length.tmod blockSize) = length.tmod blockSize := by
  have h1 := Int.tmod_lt_of_pos length (show (0 : Int) < blockSize by decide)
  have h2 := Int.lt_tmod_of_pos length (show (0 : Int) < blockSize by decide)
  simp only [blockSize] at h1 h2
  exact toShort_of_bounds (by simp only [blockSize]; omega) (by simp only [blockSize]; omega)

theorem dropBlocks_meta : ∀ {n : Nat} {f f' : FileMeta} {usage usage' : Nat → Byte},
    dropBlocks n f usage = some (f', usage') → f' = { f with numBlocks := f.numBlocks - n }
  | 0, f, f', _, _, h => by
    cases h
    simp
  | n + 1, f, f', _, _, h => by
    unfold dropBlocks at h
    simp only [Option.bind_eq_bind, Option.bind_eq_some_iff] at h
    obtain ⟨block, -, h⟩ := h
    split at h
    · rw [dropBlocks_meta h]
      simp
      omega
    · cases h

section
variable {fs fs' : FileSystem} {d : Nat} {r : Int}

theorem fsTruncate_closed (ha : fs.active = true) (hd : d < 32) (hc : (fs.descriptors d).file = -1) (heap : Block)
    (length : Int) : fsTruncate heap fs d length = some (fs, -1) := by
  unfold fsTruncate
  rw [if_pos ha, descriptor_eq hd, fsGetFilesize_closed ha hd hc]
  simp only [Option.bind_eq_bind, Option.bind_some]
  rw [if_pos (Or.inl hc)]

theorem fsTruncate_eq (ha : fs.active = true) (hd : d < 32) {i : Nat} (hi : i < 64)
    (hfile : (fs.descriptors d).file = (i : Nat)) (heap : Block) (length : Int) :
    fsTruncate heap fs d length = if (fs.fileMetas i).size < length then some (fs, -1)
      else (dropBlocks ((fs.fileMetas i).numBlocks - targetBlocks length).toNat (fs.fileMetas i) fs.usage).map
        fun p => (fs.truncated heap i { p.1 with sizeLast := length.tmod blockSize } p.2, 0) := by
  unfold fsTruncate
  rw [if_pos ha, descriptor_eq hd, fsGetFilesize_file ha hd hi hfile]
  simp only [Option.bind_eq_bind, Option.bind_some, hfile]
  by_cases hlt : (fs.fileMetas i).size < length
  · rw [if_pos (Or.inr hlt), if_pos hlt]
  · rw [if_neg (by omega), if_neg hlt, fileMeta_eq hi, Option.bind_some, toShort_tmod]
    change (dropBlocks ((fs.fileMetas i).numBlocks - targetBlocks length).toNat (fs.fileMetas i) fs.usage).bind _ = _
    cases dropBlocks ((fs.fileMetas i).numBlocks - targetBlocks length).toNat (fs.fileMetas i) fs.usage with
    | none => rfl
    | some p =>
      obtain ⟨f, usage⟩ := p
      simp only [Option.bind_some, Option.map_some]
      rw [saveFileMeta_eq _ (by exact ha) hi, setMeta_self]
      rfl

theorem fsTruncate_some {heap : Block} {length : Int} (ha : fs.active = true)
    (h : fsTruncate heap fs d length = some (fs', r)) :
    d < openFiles ∧ ((fs.descriptors d).file = -1 ∧ fs' = fs ∨ ∃ i : Nat, i < numFiles ∧ (fs.descriptors d).file = i ∧
      ((fs.fileMetas i).size < length ∧ fs' = fs ∨ length ≤ (fs.fileMetas i).size ∧
        ∃ usage, fs' = fs.truncated heap i ((fs.fileMetas i).cut length) usage)) := by
  have hsome := h
  unfold fsTruncate at hsome
  rw [if_pos ha] at hsome
  simp only [Option.bind_eq_bind, Option.bind_eq_some_iff] at hsome
  obtain ⟨-, -, size, hsize, -⟩ := hsome
  obtain ⟨hd, ⟨hclosed, -⟩ | ⟨i, hi, hfile, -⟩⟩ := fsGetFilesize_some ha hsize
  · rw [fsTruncate_closed ha hd hclosed] at h
    cases h
    exact ⟨hd, Or.inl ⟨hclosed, rfl⟩⟩
  · refine ⟨hd, Or.inr ⟨i, hi, hfile, ?_⟩⟩
    rw [fsTruncate_eq ha hd hi hfile] at h
    split at h
    · rename_i hlt
      cases h
      exact Or.inl ⟨hlt, rfl⟩
    · rename_i hle
      obtain ⟨⟨f, usage⟩, hdrop, heq⟩ := Option.map_eq_some_iff.mp h
      cases heq
      have hnum : (fs.fileMetas i).numBlocks - ((fs.fileMetas i).numBlocks - targetBlocks length).toNat =
          min (fs.fileMetas i).numBlocks (targetBlocks length) := by omega
      refine Or.inr ⟨by omega, usage, ?_⟩
      rw [dropBlocks_meta hdrop, hnum]
      rfl

theorem fsTruncate_same {heap : Block} {length : Int} (h : fsTruncate heap fs d length = some (fs', r)) :
    SameNames fs fs' := by
  by_cases ha : fs.active = true
  · obtain ⟨-, ⟨-, rfl⟩ | ⟨i, -, -, ⟨-, rfl⟩ | ⟨-, usage, rfl⟩⟩⟩ := fsTruncate_some ha h
    · exact SameNames.refl fs'
    · exact SameNames.refl fs'
    · have hmeta : SameNames { fs with usage := usage }
          (({ fs with usage := usage } : FileSystem).setMeta i ((fs.fileMetas i).cut length)) := same_meta rfl rfl
      exact (same_usage fs usage).trans (hmeta.trans (same_disk _ _))
  · unfold fsTruncate at h
    rw [if_neg ha] at h
    cases h
    exact SameNames.refl fs

end

end OsLabs.Fs
