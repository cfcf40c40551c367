import OsLabs.FsClosed
import OsLabs.FsCursor
import OsLabs.FsDelete

/-!
# Metadata written through

At the end of every call the info block and the list blocks of a slot hold what
the slot holds in memory, read as unsigned bytes. Saving the metadata of a file
keeps to the three blocks of its slot, and the data of a write go to data blocks.
-/

namespace OsLabs.Fs

def pair (data : Block) (j : Nat) : Int := 256 * (data j).toNat + (data (j + 1)).toNat

/-- The disk has of slot `i` what the memory has. -/
structure WrittenThrough (fs : FileSystem) (i : Nat) : Prop where
  inUse : fs.disk (3 * i + 1) 0 = (fs.fileMetas i).inUse
  name : (fs.fileMetas i).inUse ≠ 0 → ∀ j < nameLen, fs.disk (3 * i + 1) (j + 1) = (fs.fileMetas i).name j
  numBlocks : (fs.fileMetas i).inUse ≠ 0 → pair (fs.disk (3 * i + 1)) (nameLen + 2) = (fs.fileMetas i).numBlocks
  sizeLast : (fs.fileMetas i).inUse ≠ 0 → pair (fs.disk (3 * i + 1)) (nameLen + 4) = (fs.fileMetas i).sizeLast
  blocks : (fs.fileMetas i).inUse ≠ 0 → ∀ k : Nat, (k : Int) < (fs.fileMetas i).numBlocks →
    pair (fs.disk (3 * i + 2 + k / 2048)) (2 * (k % 2048)) = (fs.fileMetas i).blocks k

/-- The metadata and the data of file `k` are on `disk` as they are in `fs`. -/
structure SparesFile (fs : FileSystem) (k : Nat) (disk : Nat → Block) : Prop where
  group : ∀ b, 3 * k + 1 ≤ b → b ≤ 3 * k + 3 → disk b = fs.disk b
  data : (fs.fileMetas k).inUse ≠ 0 → ∀ e : Nat, (e : Int) < (fs.fileMetas k).numBlocks →
    disk ((fs.fileMetas k).blocks e).toNat = fs.disk ((fs.fileMetas k).blocks e).toNat

/-- A write of `nbyte` bytes starts before the end of the file and goes over it. -/
def Straddles (fs : FileSystem) (fildes nbyte : Nat) : Prop :=
  (fs.descriptors fildes).cursor < (fs.opened fildes).size ∧
    (fs.opened fildes).size < (fs.descriptors fildes).cursor + nbyte

/-- The calls that keep the metadata on the disk in step. -/
def Steady (fs : FileSystem) : Call → Prop
  | .fsOpen _ | .fsClose _ | .fsCreate _ _ | .fsRead _ _ _ _ | .fsGetFilesize _ | .fsLseek _ _ => True
  | .fsDelete _ _ => Unopened fs
  | .fsWrite _ _ fildes _ nbyte => ¬ Straddles fs fildes nbyte
  | .mount _ | .umount | .fsTruncate _ _ _ => False

instance (fs : FileSystem) (d n : Nat) : Decidable (Straddles fs d n) := inferInstanceAs (Decidable (_ ∧ _))

instance (fs : FileSystem) : ∀ c, Decidable (Steady fs c)
  | .fsOpen _ | .fsClose _ | .fsCreate _ _ | .fsRead _ _ _ _ | .fsGetFilesize _ | .fsLseek _ _ => .isTrue trivial
  | .fsDelete _ _ => inferInstanceAs (Decidable (Unopened fs))
  | .fsWrite _ _ fildes _ nbyte => inferInstanceAs (Decidable (¬ Straddles fs fildes nbyte))
  | .mount _ | .umount | .fsTruncate _ _ _ => .isFalse id

/-! ## Unsigned shorts -/

theorem IsShort.pair_eq {data : Block} {j : Nat} {x : Int} (h : IsShort data j x) (h0 : 0 ≤ x) (h1 : x < 65536) :
    pair data j = x := by
  have hhigh : ((toByte (x.tdiv 256)).toNat : Int) = x / 256 := by
    unfold toByte
    rw [BitVec.toNat_ofInt, Int.tdiv_eq_ediv_of_nonneg h0]
    omega
  have hlow : ((toByte (x.tmod 256)).toNat : Int) = x % 256 := by
    unfold toByte
    rw [BitVec.toNat_ofInt, Int.tmod_eq_emod_of_nonneg h0]
    omega
  unfold pair
  rw [h.1, h.2, hhigh, hlow]
  omega

theorem Session.writtenThrough {fs : FileSystem} (h : Session fs) {i : Nat} (hi : i < 64) : WrittenThrough fs i := by
  have hstored := h.stored i hi
  have hok := h.owned.ok i hi
  have hcount := hok.count_eq
  have hle := hok.le
  have hlast : 0 ≤ (fs.fileMetas i).sizeLast ∧ (fs.fileMetas i).sizeLast ≤ 4096 := by
    by_cases hz : (fs.fileMetas i).numBlocks = 0
    · rw [(h.tight i hi).mpr hz]
      decide
    · have := hok.nonneg
      exact hok.sizeLast (by omega)
  refine ⟨hstored.inUse, hstored.name, ?_, ?_, ?_⟩
  · intro hu
    exact (hstored.numBlocks hu).pair_eq hok.nonneg (by omega)
  · intro hu
    exact (hstored.sizeLast hu).pair_eq hlast.1 (by omega)
  · intro hu k hk
    have hb := hok.blocks k hk
    exact (hstored.blocks hu k (by omega)).pair_eq (by omega) (by omega)

/-! ## Saving -/

theorem saveFileMeta_outside {fs fs' : FileSystem} {heap : Block} {i b : Nat} (hi : i < 64)
    (h : saveFileMeta heap fs i = some fs') (hb : b < 3 * i + 1 ∨ 3 * i + 3 < b) : fs'.disk b = fs.disk b := by
  by_cases ha : fs.active = true
  · rw [saveFileMeta_eq fs ha hi] at h
    cases h
    exact savedDisk_of_ne hb
  · unfold saveFileMeta at h
    rw [if_neg ha] at h
    cases h
    rfl

theorem Owned.save_spares {t s s' : FileSystem} (ht : Owned t) {heap : Block} {i k : Nat} (hi : i < 64) (hk : k < 64)
    (hne : k ≠ i) (hs : s.fileMetas k = t.fileMetas k) (h : saveFileMeta heap s i = some s') :
    SparesFile s k s'.disk := by
  constructor
  · intro b hb hb'
    exact saveFileMeta_outside hi h (by omega)
  · rw [hs]
    intro _ e he
    have hb := (ht.ok k hk).blocks e he
    exact saveFileMeta_outside hi h (by omega)

/-! ## The blocks that a write changes -/

/-- At the spot `s` the descriptor takes block `b` of the disk. -/
def Takes (fildes b : Nat) (s : FileSystem) : Prop :=
  (s.opened fildes).blockAt ((s.descriptors fildes).cursor.tdiv blockSize) = some (b : Int)

section
variable {d b : Nat}

theorem blockWrite_other (fs : FileSystem) {block : Int} (data : Block) (hb : block ≠ b) :
    (fs.blockWrite block data).disk b = fs.disk b := by
  unfold FileSystem.blockWrite
  split
  · have hne : b ≠ block.toNat := by omega
    exact Function.update_of_ne hne data fs.disk
  · rfl

theorem writeChunk_disk {w w' : Writing} (h : writeChunk d w = some w') (hb : ¬ Takes d b w.fs) :
    w'.fs.disk b = w.fs.disk b := by
  unfold writeChunk at h
  simp only [Option.bind_eq_bind, Option.bind_eq_some_iff] at h
  obtain ⟨desc, hd, f, hf, block, hblock, h⟩ := h
  obtain ⟨-, rfl⟩ := descriptor_some hd
  obtain ⟨i, -, hi, rfl⟩ := fileMeta_some hf
  have hne : block ≠ b := by
    rintro rfl
    rw [Takes, opened_eq hi] at hb
    exact hb hblock
  generalize (if w.nbyte < toSize _ then (w.nbyte : Int) else _) = dist at h
  cases h
  simp only
  split
  · exact blockWrite_other w.fs _ hne
  · exact blockWrite_other w.fs _ hne

theorem addBlock_disk {fs fs' : FileSystem} {file : Int} {newblock : Nat} (h : addBlock fs file newblock = some fs') :
    fs'.disk = fs.disk := by
  unfold addBlock at h
  simp only [Option.bind_eq_bind, Option.bind_eq_some_iff] at h
  obtain ⟨f, -, -, -, h⟩ := h
  cases h
  rfl

theorem writeInside_disk : ∀ {fuel : Nat} {w w' : Writing}, writeInside d fuel w = some w' →
    (∀ s ∈ insideSpots d fuel w, ¬ Takes d b s) → w'.fs.disk b = w.fs.disk b
  | 0, _, _, h, _ => by cases h
  | fuel + 1, w, w', h, hs => by
    unfold writeInside at h
    simp only [Option.bind_eq_bind, Option.bind_eq_some_iff] at h
    obtain ⟨desc, hd, size, hsize, h⟩ := h
    split at h
    · rename_i hgo
      simp only [Option.bind_eq_some_iff] at h
      obtain ⟨w₁, h₁, h⟩ := h
      simp only [insideSpots, hd, hsize, Option.elim_some, if_pos hgo, h₁, List.forall_mem_cons] at hs
      exact (writeInside_disk h hs.2).trans (writeChunk_disk h₁ hs.1)
    · cases h
      rfl

theorem writePast_disk : ∀ {fuel : Nat} {w w' : Writing}, writePast d fuel w = some w' →
    (∀ s ∈ pastSpots d fuel w, ¬ Takes d b s) → w'.fs.disk b = w.fs.disk b
  | 0, _, _, h, _ => by cases h
  | fuel + 1, w, w', h, hs => by
    unfold writePast at h
    unfold pastSpots at hs
    split at h
    · rename_i hn
      simp only [Option.bind_eq_bind, Option.bind_eq_some_iff] at h
      obtain ⟨desc, hd, f, hf, h⟩ := h
      simp only [if_pos hn, hd, hf, Option.elim_some] at hs
      split at h
      · rename_i hfull
        rw [if_pos hfull] at hs
        cases hempty : findEmptyBlock w.fs with
        | none =>
          rw [hempty] at h
          cases h
          rfl
        | some newblock =>
          simp only [hempty, Option.bind_eq_some_iff] at h
          obtain ⟨fs, hadd, w₁, h₁, h⟩ := h
          simp only [hempty, hadd, h₁, Option.elim_some, List.forall_mem_cons] at hs
          have hchunk := writeChunk_disk h₁ hs.1
          rw [addBlock_disk hadd] at hchunk
          exact (writePast_disk h hs.2).trans hchunk
      · rename_i hroom
        simp only [Option.bind_eq_some_iff] at h
        obtain ⟨w₁, h₁, h⟩ := h
        simp only [if_neg hroom, h₁, Option.elim_some, List.forall_mem_cons] at hs
        exact (writePast_disk h hs.2).trans (writeChunk_disk h₁ hs.1)
    · cases h
      rfl

/-- A write changes the blocks that its spots name and those of the slot that it saves. -/
theorem fsWrite_disk {fs fs' : FileSystem} {heap heap' : Block} {buf : Nat → Byte} {n : Nat} {r : Int}
    (ha : fs.active = true) (h : fsWrite heap heap' fs d buf n = some (fs', r))
    (hs : ∀ s ∈ writeSpots heap fs d buf n, ¬ Takes d b s)
    (hb : b < 3 * (fs.descriptors d).file.toNat + 1 ∨ 3 * (fs.descriptors d).file.toNat + 3 < b) :
    fs'.disk b = fs.disk b := by
  obtain ⟨-, i, hi, hfile⟩ := (fsWrite_some ha h).1
  unfold fsWrite at h
  rw [if_pos ha] at h
  simp only [Option.bind_eq_bind, Option.bind_eq_some_iff] at h
  obtain ⟨w₁, h₁, w₂, h₂, desc, hd, fs₃, hsave, h⟩ := h
  cases h
  obtain ⟨-, rfl⟩ := descriptor_some hd
  have hsame := ((writeInside_same h₁).trans (writePast_same h₂)).file d
  rw [hsame, hfile] at hsave
  rw [hfile, Int.toNat_natCast] at hb
  simp only [writeSpots, if_pos ha, h₁, Option.elim_some, List.forall_mem_append] at hs
  exact (saveFileMeta_outside hi hsave hb).trans ((writePast_disk h₂ hs.2).trans (writeInside_disk h₁ hs.1))

end

/-! ## One call -/

theorem call_descriptor {fs fs' : FileSystem} {c : Call} {q : Int × List Byte} {d : Nat} (ha : fs.active = true)
    (hs : call fs c = some (fs', q)) (hd : c.OnDescriptor d) : d < openFiles := by
  by_contra hlt
  have hnone : fs.descriptor d = none := if_neg hlt
  have hsize : fsGetFilesize fs d = none := by simp [fsGetFilesize, ha, hnone]
  cases c with
  | fsClose e =>
    obtain rfl : e = d := hd
    simp [call, fsClose, ha, hnone] at hs
  | fsGetFilesize e =>
    obtain rfl : e = d := hd
    simp [call, hsize] at hs
  | fsLseek e offset =>
    obtain rfl : e = d := hd
    simp [call, fsLseek, ha, hnone] at hs
  | fsTruncate heap e length =>
    obtain rfl : e = d := hd
    simp [call, fsTruncate, ha, hnone] at hs
  | fsRead heap e buf n =>
    obtain rfl : e = d := hd
    simp [call, fsRead, readLoop, ha, hnone] at hs
  | fsWrite heap heap' e buf n =>
    obtain rfl : e = d := hd
    simp [call, fsWrite, writeInside, ha, hnone] at hs
  | mount junk => exact absurd hd id
  | umount => exact absurd hd id
  | fsOpen name => exact absurd hd id
  | fsCreate heap name => exact absurd hd id
  | fsDelete heap name => exact absurd hd id

section
variable {fs fs' : FileSystem} {c : Call} {q : Int × List Byte}

theorem fits_of_steady (h : Within fs) {d n : Nat} (ho : IsOpen fs d) (hn : ¬ Straddles fs d n) : Fits fs d n := by
  have hcur := (h.cursor ho).2
  unfold Straddles at hn
  unfold Fits
  omega

theorem admits_of_fits {d n : Nat} (hf : Fits fs d n) : (fs.opened d).Admits (fs.descriptors d).cursor n := by
  unfold Fits at hf
  unfold FileMeta.Admits
  intro h1 h2
  omega

theorem allowed_of_steady (h : Within fs) (hk : Steady fs c) (hs : call fs c = some (fs', q)) : Allowed fs c := by
  cases c with
  | fsOpen name => trivial
  | fsCreate heap name => trivial
  | fsDelete heap name => exact hk
  | fsClose d => exact call_descriptor h.active hs rfl
  | fsRead heap d buf n => exact call_descriptor h.active hs rfl
  | fsGetFilesize d => exact call_descriptor h.active hs rfl
  | fsLseek d offset => exact call_descriptor h.active hs rfl
  | fsWrite heap heap' d buf n =>
    obtain ⟨r, bs⟩ := q
    obtain ⟨⟨hd, i, -, hfile⟩, -⟩ := fsWrite_some h.active (call_some hs)
    have ho : IsOpen fs d := ⟨hd, by rw [hfile]; omega⟩
    exact ⟨ho, fits_of_steady h ho hk⟩
  | mount junk => exact absurd hk id
  | umount => exact absurd hk id
  | fsTruncate heap d length => exact absurd hk id

theorem steady_within (h : Within fs) (hk : Steady fs c) (hs : call fs c = some (fs', q)) : Within fs' := by
  cases c with
  | fsDelete heap name => exact within_delete h hk (call_some hs)
  | fsWrite heap heap' d buf n =>
    have hspares : SparesCursors fs (.fsWrite heap heap' d buf n) := fun ho => admits_of_fits (fits_of_steady h ho hk)
    exact within_step h hspares hs
  | fsOpen name => exact within_step h (by trivial) hs
  | fsCreate heap name => exact within_step h (by trivial) hs
  | fsClose d => exact within_step h (by trivial) hs
  | fsRead heap d buf n => exact within_step h (by trivial) hs
  | fsGetFilesize d => exact within_step h (by trivial) hs
  | fsLseek d offset => exact within_step h (by trivial) hs
  | mount junk => exact absurd hk id
  | umount => exact absurd hk id
  | fsTruncate heap d length => exact absurd hk id

/-- The blocks that a write takes are data blocks, those it adds to the file included. -/
theorem steady_spots (h : Session fs) (hw : Within fs) {heap : Block} {d n : Nat} {buf : Nat → Byte} (ho : IsOpen fs d)
    (hn : ¬ Straddles fs d n) {s : FileSystem} (hs : s ∈ writeSpots heap fs d buf n) :
    ∃ block, (s.opened d).blockAt ((s.descriptors d).cursor.tdiv blockSize) = some block ∧ IsData block := by
  obtain ⟨i, c, hi, hdesc, hopened, hu, hle⟩ := hw.opened ho
  have hadm := admits_of_fits (fits_of_steady hw ho hn)
  rw [hopened, hdesc] at hadm
  obtain ⟨c', hway, hlt⟩ := (fsWrite_underway ho.1 hi h.active (hw.sized i hi) hdesc hle hadm).1 s hs
  have howned := hway.owned h.owned hi hu
  have hcount := (howned.ok i hi).count_eq
  have hmax := (howned.ok i hi).count_le
  have hb := (howned.ok i hi).block (k := c' / 4096) (by omega)
  refine ⟨_, ?_, hb⟩
  rw [hway.descriptor, opened_eq (congrArg Descriptor.file hway.descriptor), block_eq]
  exact blockAt_eq _ (by omega)

end

/-! ## Runs -/

structure Through (fs : FileSystem) : Prop where
  session : Session fs
  linked : Linked fs
  within : Within fs

theorem started_through (junk : Nat → Nat → Int) (fs : FileSystem) : Through (started junk fs) := by
  obtain ⟨hs, hl⟩ := started_session junk fs
  exact ⟨hs, hl, hs.active, fun i hi => (hs.owned.ok i hi).sized, fun _ _ => ⟨0, Or.inl rfl⟩⟩

theorem Through.step {fs fs' : FileSystem} {c : Call} {q : Int × List Byte} (h : Through fs) (hk : Steady fs c)
    (hs : call fs c = some (fs', q)) : Through fs' := by
  have hallowed := allowed_of_steady h.within hk hs
  obtain ⟨fs₁, r, heq, hsession, hlinked⟩ := session_step h.session (allowed_careful h.linked hallowed)
  rw [hs] at heq
  cases heq
  exact ⟨hsession, hlinked h.linked hallowed, steady_within h.within hk hs⟩

/-- At the end of every call of a steady session all slots are written through, a save leaves the
other files alone, and the data of a write go to data blocks: it changes nothing else but the
three blocks of its slot. -/
theorem metadata_through (junk : Nat → Nat → Int) (fs : FileSystem) (es : List Call) (t : FileSystem)
    (tr : List (Call × (Int × List Byte))) (hg : Guarded call Steady (started junk fs) es)
    (hr : run call (started junk fs) es = some (t, tr)) :
    (∀ i < numFiles, WrittenThrough t i) ∧
    (∀ s s' heap, ∀ i < numFiles, ∀ k < numFiles, k ≠ i → s.fileMetas k = t.fileMetas k →
      saveFileMeta heap s i = some s' → SparesFile s k s'.disk) ∧
    (∀ heap d buf n, IsOpen t d → ¬ Straddles t d n → ∀ s ∈ writeSpots heap t d buf n,
      ∃ block, (s.opened d).blockAt ((s.descriptors d).cursor.tdiv blockSize) = some block ∧ IsData block) ∧
    ∀ heap heap' d buf n t' r, IsOpen t d → ¬ Straddles t d n → fsWrite heap heap' t d buf n = some (t', r) →
      ∀ b, t'.disk b ≠ t.disk b → (IsData b ∧ ∃ s ∈ writeSpots heap t d buf n, Takes d b s) ∨
        3 * (t.descriptors d).file.toNat + 1 ≤ b ∧ b ≤ 3 * (t.descriptors d).file.toNat + 3 := by
  have h : Through t := run_inv (fun _ _ _ _ h hk hs => h.step hk hs) (started_through junk fs) hg hr
  have hspots : ∀ heap d buf n, IsOpen t d → ¬ Straddles t d n → ∀ s ∈ writeSpots heap t d buf n,
      ∃ block, (s.opened d).blockAt ((s.descriptors d).cursor.tdiv blockSize) = some block ∧ IsData block :=
    fun _ _ _ _ ho hn _ hs => steady_spots h.session h.within ho hn hs
  refine ⟨?_, ?_, hspots, ?_⟩
  · intro i hi
    exact h.session.writtenThrough hi
  · intro s s' heap i hi k hk hne hsame hsave
    exact h.session.owned.save_spares hi hk hne hsame hsave
  · intro heap heap' d buf n t' r ho hn hwrite b hne
    by_contra hout
    rw [not_or] at hout
    refine hne (fsWrite_disk h.session.active hwrite ?_ (by omega))
    intro s hs htakes
    obtain ⟨block, hblock, hdata⟩ := hspots heap d buf n ho hn s hs
    obtain rfl := Option.some_inj.mp (htakes.symm.trans hblock)
    exact hout.1 ⟨hdata, s, hs, htakes⟩

/-- A file is written, closed and deleted once there is a second one, and that is written. -/
def throughRun : List Call :=
  [.fsCreate (fun _ => 0) fun _ => 65, .fsOpen fun _ => 65, .fsWrite (fun _ => 0) (fun _ => 0) 0 (fun _ => 66) 5,
    .fsClose 0, .fsCreate (fun _ => 0) fun _ => 67, .fsDelete (fun _ => 0) fun _ => 65, .fsOpen fun _ => 67,
    .fsWrite (fun _ => 0) (fun _ => 0) 0 (fun _ => 68) 7]

theorem metadata_through_two : ∃ t tr, run call (started (fun _ _ => 0) unmounted) throughRun = some (t, tr) ∧
    ∀ i < numFiles, WrittenThrough t i := by
  have hallowed : Guarded call Allowed (started (fun _ _ => 0) unmounted) throughRun := by decide +kernel
  obtain ⟨t, tr, hrun, -⟩ := started_run _ _ hallowed
  exact ⟨t, tr, hrun, (metadata_through (fun _ _ => 0) unmounted throughRun t tr (by decide +kernel) hrun).1⟩

end OsLabs.Fs
