import OsLabs.FsCursor
import OsLabs.FsFocus
import OsLabs.FsRefine

/-!
# Writes over the end of a file

Where the first loop of `fs_write` goes over the end it adds to `size_last` all
that it writes of the block, also what the file had of it before. No chunk goes
over the end of a file whose last block is full, and then the second loop goes on.
-/

namespace OsLabs.Fs

/-- The write succeeds as a whole, the file ends where it ends, and no block but those
that the file lists is written. -/
def WritesOver (heap heap' : Block) (fs : FileSystem) (fildes : Nat) (buf : Nat → Byte) (nbyte : Nat) : Prop :=
  (∃ fs', fsWrite heap heap' fs fildes buf nbyte = some (fs', (nbyte : Int)) ∧
    fsGetFilesize fs' fildes = some ((fs.descriptors fildes).cursor + nbyte) ∧
    ∀ j : Nat, (j : Int) < (fs.descriptors fildes).cursor + nbyte →
      fs'.byteAt (fs.descriptors fildes).file.toNat j =
        if (j : Int) < (fs.descriptors fildes).cursor then fs.byteAt (fs.descriptors fildes).file.toNat j
        else buf (j - (fs.descriptors fildes).cursor.toNat)) ∧
  ∀ s ∈ writeSpots heap fs fildes buf nbyte, BlockWithin s fildes

theorem blockWithin_iff {fs : FileSystem} {d i c : Nat} (hdesc : fs.descriptors d = ⟨i, c⟩) :
    BlockWithin fs d ↔ ((c / 4096 : Nat) : Int) < (fs.fileMetas i).numBlocks := by
  unfold BlockWithin
  rw [opened_eq (congrArg Descriptor.file hdesc), hdesc, block_eq]
  exact ⟨And.right, fun h => ⟨Int.natCast_nonneg _, h⟩⟩

/-! ## The loops -/

section
variable {fildes i c d : Nat}

theorem writeInside_done {fuel : Nat} {w w' : Writing} (hn : w.nbyte = 0)
    (h : writeInside fildes fuel w = some w') : w' = w := by
  cases fuel with
  | zero => cases h
  | succ fuel =>
    unfold writeInside at h
    simp only [Option.bind_eq_bind, Option.bind_eq_some_iff] at h
    obtain ⟨desc, -, size, -, h⟩ := h
    rw [if_neg (by omega)] at h
    cases h
    rfl

theorem writePast_done {fuel : Nat} {w w' : Writing} (hn : w.nbyte = 0)
    (h : writePast fildes fuel w = some w') : w' = w := by
  cases fuel with
  | zero => cases h
  | succ fuel =>
    unfold writePast at h
    rw [if_neg (by omega)] at h
    cases h
    rfl

variable (fildes c d) in
theorem chunked_file {fs : FileSystem} (hs : (fs.fileMetas i).Sized) (buf : Nat → Byte) :
    (fs.chunked fildes i c d buf).fileMetas i =
      if (fs.fileMetas i).size < (c + d : Nat) then { fs.fileMetas i with sizeLast := (fs.fileMetas i).sizeLast + d }
      else fs.fileMetas i := by
  have hlen := hs.length_eq
  simp only [FileSystem.chunked]
  by_cases hover : (fs.fileMetas i).size < (c + d : Nat)
  · rw [if_pos hover, if_pos (by omega), Function.update_self]
  · rw [if_neg hover, if_neg (by omega)]

variable (hfd : fildes < 32) (hi : i < 64)
include hfd hi

/-- The chunk that goes over the end makes the size greater than the cursor, so that the loop
goes on with a block that is not the file's if there is anything left. -/
theorem inside_over : ∀ (fuel : Nat) {c : Nat} {w : Writing}, w.fs.active = true → w.fs.descriptors fildes = ⟨i, c⟩ →
    (w.fs.fileMetas i).Sized → 0 < (w.fs.fileMetas i).sizeLast → (w.fs.fileMetas i).sizeLast < 4096 →
    c < (w.fs.fileMetas i).size → (w.fs.fileMetas i).size < c + w.nbyte →
      (∃ s ∈ insideSpots fildes fuel w, ¬ BlockWithin s fildes) ∨
      ∀ w', writeInside fildes fuel w = some w' → w'.nbyte = 0 ∧ (c : Int) + w.nbyte < (w'.fs.fileMetas i).size
  | 0, _, _, _, _, _, _, _, _, _ => Or.inr nofun
  | fuel + 1, c, w, ha, hd, hs, hlow, hhigh, hc, hn => by
    have hfile : (w.fs.descriptors fildes).file = (i : Nat) := congrArg Descriptor.file hd
    have hbounds := hs.size_bounds
    have hnonneg := hs.nonneg
    have hpos := chunk_pos (c := c) (n := w.nbyte) (by omega)
    have hle := chunk_le c w.nbyte
    have hblock := chunk_block c w.nbyte
    have hsize : (w.fs.fileMetas i).size = ((w.fs.fileMetas i).numBlocks - 1) * 4096 + (w.fs.fileMetas i).sizeLast := by
      unfold FileMeta.size
      simp only [blockSize]
      unfold FileMeta.size at hc
      simp only [blockSize] at hc
      omega
    have hgo : (c : Int) < (w.fs.fileMetas i).size ∧ 0 < w.nbyte := ⟨hc, by omega⟩
    obtain ⟨w₁, disk, hw₁, hn₁, hfs₁⟩ := writeChunk_chunked hfd hd hi hs (by omega)
    have ha₁ : w₁.fs.active = true := by
      rw [hfs₁]
      exact ha
    have hd₁ : w₁.fs.descriptors fildes = ⟨i, (c + chunk c w.nbyte : Nat)⟩ := by
      rw [hfs₁]
      exact Function.update_self _ _ _
    have hfile₁ := chunked_file fildes c (chunk c w.nbyte) hs w.buf
    rw [show (w.fs.chunked fildes i c (chunk c w.nbyte) w.buf).fileMetas i = w₁.fs.fileMetas i by rw [hfs₁]] at hfile₁
    unfold insideSpots writeInside
    rw [descriptor_eq hfd, fsGetFilesize_file ha hfd hi hfile, hd]
    simp only [Option.elim_some, Option.bind_eq_bind, Option.bind_some]
    rw [if_pos hgo, if_pos hgo, hw₁]
    simp only [Option.elim_some, Option.bind_some]
    by_cases hover : (w.fs.fileMetas i).size < (c + chunk c w.nbyte : Nat)
    · rw [if_pos hover] at hfile₁
      have hsize₁ : (w₁.fs.fileMetas i).size = (w.fs.fileMetas i).size + (chunk c w.nbyte : Nat) := by
        rw [hfile₁]
        unfold FileMeta.size
        simp only
        split <;> omega
      by_cases hrest : w₁.nbyte = 0
      · refine Or.inr ?_
        intro w' hw'
        rw [writeInside_done hrest hw']
        exact ⟨hrest, by omega⟩
      · cases fuel with
        | zero => exact Or.inr nofun
        | succ fuel =>
          refine Or.inl ⟨w₁.fs, List.mem_cons_of_mem _ ?_, ?_⟩
          · unfold insideSpots
            rw [descriptor_eq hfd, fsGetFilesize_file ha₁ hfd hi (congrArg Descriptor.file hd₁), hd₁]
            simp only [Option.elim_some]
            rw [if_pos (by omega)]
            exact List.mem_cons_self
          · rw [blockWithin_iff hd₁, hfile₁]
            simp only
            unfold chunk at *
            omega
    · rw [if_neg hover] at hfile₁
      have hnext : ((c + chunk c w.nbyte : Nat) : Int) < (w.fs.fileMetas i).size := by
        unfold chunk at *
        omega
      rcases inside_over fuel ha₁ hd₁ (hfile₁ ▸ hs) (hfile₁ ▸ hlow) (hfile₁ ▸ hhigh) (hfile₁ ▸ hnext)
        (by rw [hfile₁]; omega) with ⟨s, hmem, hout⟩ | hend
      · exact Or.inl ⟨s, List.mem_cons_of_mem _ hmem, hout⟩
      · refine Or.inr ?_
        intro w' hw'
        obtain ⟨hz, hlt⟩ := hend w' hw'
        exact ⟨hz, by omega⟩

end

/-! ## Files that end with their last block -/

theorem writeInside_whole {fildes i : Nat} : ∀ (fuel : Nat) {c : Nat} {w : Writing}, w.nbyte < fuel →
    Ready fildes i c w.fs → c ≤ (w.fs.fileMetas i).length → (w.fs.fileMetas i).length ≤ c + w.nbyte →
    (w.fs.fileMetas i).length % 4096 = 0 → (w.fs.fileMetas i).Tight →
      ∃ w', writeInside fildes fuel w = some w' ∧ Wrote fildes i c ((w.fs.fileMetas i).length - c) w w' ∧
        (w'.fs.fileMetas i).Tight
  | 0, _, _, hfuel, _, _, _, _, _ => absurd hfuel (Nat.not_lt_zero _)
  | fuel + 1, c, w, hfuel, h, hc, hn, hwhole, ht => by
    by_cases hend : c = (w.fs.fileMetas i).length
    · rw [← hend, Nat.sub_self]
      exact ⟨w, writeInside_end fuel h hend, Wrote.refl h hc, ht⟩
    · have hle := h.ok.length_le
      have hd := chunk_le c w.nbyte
      have hpos := chunk_pos (c := c) (n := w.nbyte) (by omega)
      have hblock := chunk_block c w.nbyte
      obtain ⟨w₁, hw₁, hwrote, ht₁⟩ := writeChunk_wrote h (by omega) (.inl (by omega)) (by omega) (.inl ht)
      have hlen : (w₁.fs.fileMetas i).length = (w.fs.fileMetas i).length := by
        rw [hwrote.files.length]
        omega
      have hnb := hwrote.nbyte
      obtain ⟨w₂, hw₂, hwrote₂, ht₂⟩ := writeInside_whole fuel (by omega) (hwrote.ready h) (by omega) (by omega)
        (hlen ▸ hwhole) ht₁
      unfold writeInside
      rw [descriptor_eq h.bound, h.descriptor, h.fsGetFilesize]
      simp only [Option.bind_eq_bind, Option.bind_some]
      rw [if_pos (by omega), hw₁, Option.bind_some]
      refine ⟨w₂, hw₂, ?_, ht₂⟩
      have htrans := hwrote.trans hwrote₂ hc
      rwa [hlen, show chunk c w.nbyte + ((w.fs.fileMetas i).length - (c + chunk c w.nbyte)) =
        (w.fs.fileMetas i).length - c by omega] at htrans

theorem fsWrite_whole {fildes i c n : Nat} {fs : FileSystem} (buf : Nat → Byte) (heap heap' : Block)
    (h : Ready fildes i c fs) (hc : c ≤ (fs.fileMetas i).length) (hn : (fs.fileMetas i).length ≤ c + n)
    (hroom : c + n ≤ 4096 * ((fs.fileMetas i).count + fs.free)) (hwhole : (fs.fileMetas i).length % 4096 = 0)
    (ht : (fs.fileMetas i).Tight) :
    ∃ fs₁, Written fildes i c n buf fs fs₁ ∧
      fsWrite heap heap' fs fildes buf n =
        some ({ fs₁ with disk := savedDisk heap' fs₁.disk i (fs₁.fileMetas i) }, (n : Int)) := by
  obtain ⟨w₁, hw₁, hwrote, ht₁⟩ := writeInside_whole (n + 1) (w := ⟨fs, heap, buf, n, 0⟩) (Nat.lt_succ_self n) h hc hn
    hwhole ht
  have hready := hwrote.ready h
  have hlen := hwrote.files.length
  have hfree := hwrote.files.free
  have hnb := hwrote.nbyte
  simp only at hlen hfree hnb hready hwrote
  obtain ⟨w₂, hw₂, hwrote₂, -⟩ := writePast_wrote (w₁.nbyte + 1) _ w₁ (Nat.lt_succ_self _) hready (by omega) ht₁
  -- the second loop is left with what goes over the end
  have hall : min w₁.nbyte (w₁.fs.room i) = n - ((fs.fileMetas i).length - c) := by
    unfold FileSystem.room
    omega
  rw [hall] at hwrote₂
  have htrans := hwrote.trans hwrote₂ hc
  rw [show (fs.fileMetas i).length - c + (n - ((fs.fileMetas i).length - c)) = n by omega] at htrans
  refine ⟨w₂.fs, htrans.files, ?_⟩
  rw [fsWrite_of_wrote heap' h hw₁ hw₂ htrans, saveFileMeta_eq _ htrans.files.active h.slot, Option.map_some]

/-! ## The size and the blocks -/

theorem Owns.full_file {fs : FileSystem} {i : Nat} (h : Owns fs) (hi : i < 64) (hu : (fs.fileMetas i).inUse ≠ 0)
    (hfull : (fs.fileMetas i).sizeLast = 4096) (hpos : 0 < (fs.fileMetas i).size) :
    (fs.fileMetas i).Ok ∧ (fs.fileMetas i).Tight ∧ (fs.fileMetas i).length = 4096 * (fs.fileMetas i).count := by
  have hmax := h.count_add_free hi hu
  have hnum : 0 < (fs.fileMetas i).numBlocks := by
    unfold FileMeta.size at hpos
    simp only [blockSize] at hpos
    split at hpos <;> omega
  have hcount : ((fs.fileMetas i).count : Int) = (fs.fileMetas i).numBlocks := Int.toNat_of_nonneg (by omega)
  have hok : (fs.fileMetas i).Ok :=
    ⟨by omega, by omega, fun k hk => (h.block hi hu (by omega)).1, fun _ => ⟨by omega, by omega⟩⟩
  exact ⟨hok, ⟨fun hz => by omega, fun hz => by omega⟩, hok.full_iff.mp (Or.inl hfull)⟩

section
variable {fs : FileSystem} {d i c n : Nat} (ha : fs.active = true) (hd : d < 32) (hi : i < 64)
  (hdesc : fs.descriptors d = ⟨i, c⟩) (hc : c < (fs.fileMetas i).size) (hn : (fs.fileMetas i).size < c + n)
include ha hd hi hdesc hc hn

theorem spots_first (heap : Block) (buf : Nat → Byte) : fs ∈ writeSpots heap fs d buf n := by
  unfold writeSpots
  rw [if_pos ha]
  refine List.mem_append_left _ ?_
  unfold insideSpots
  rw [descriptor_eq hd, fsGetFilesize_file ha hd hi (congrArg Descriptor.file hdesc), hdesc]
  simp only [Option.elim_some]
  rw [if_pos ⟨hc, by omega⟩]
  exact List.mem_cons_self

theorem over_short (hs : (fs.fileMetas i).Sized) (hlow : 0 < (fs.fileMetas i).sizeLast)
    (hhigh : (fs.fileMetas i).sizeLast < 4096) (heap heap' : Block) (buf : Nat → Byte) :
    ¬ WritesOver heap heap' fs d buf n := by
  rintro ⟨⟨fs', hwrite, hsize, -⟩, hspots⟩
  obtain ⟨-, w₁, w₂, disk, hw₁, hw₂, rfl⟩ := fsWrite_some ha hwrite
  rcases inside_over hd hi (n + 1) (w := ⟨fs, heap, buf, n, 0⟩) ha hdesc hs hlow hhigh hc hn with ⟨s, hmem, hout⟩ | hend
  · refine hout (hspots s ?_)
    unfold writeSpots
    rw [if_pos ha]
    exact List.mem_append_left _ hmem
  · obtain ⟨hz, hlt⟩ := hend w₁ hw₁
    rw [writePast_done hz hw₂] at hsize
    have hsame := (writeInside_same hw₁).toSameFiles
    have hfile : (w₁.fs.descriptors d).file = (i : Nat) := (hsame.file d).trans (congrArg Descriptor.file hdesc)
    have hsize' : fsGetFilesize { w₁.fs with disk := disk } d = some (w₁.fs.fileMetas i).size :=
      fsGetFilesize_file (by exact hsame.active.trans ha) hd hi (by exact hfile)
    rw [hsize', hdesc] at hsize
    have heq := Option.some.inj hsize
    simp only at heq hlt
    omega

section
variable (h : Owns fs) (hu : (fs.fileMetas i).inUse ≠ 0) (hfull : (fs.fileMetas i).sizeLast = 4096)
include h hu hfull

/-- The other slots are exchanged for such as own what file `i` does not list. -/
theorem over_whole (hroom : c + n ≤ 4096 * ((fs.fileMetas i).count + fs.free)) (heap heap' : Block) (buf : Nat → Byte) :
    ∃ fs', fsWrite heap heap' fs d buf n = some (fs', (n : Int)) ∧ fsGetFilesize fs' d = some ((c : Int) + n) ∧
      ∀ k < c + n, fs'.byteAt i k = if k < c then fs.byteAt i k else buf (k - c) := by
  obtain ⟨hok, ht, hwhole⟩ := h.full_file hi hu hfull (by omega)
  have hlen := hok.length_eq
  obtain ⟨j, hj, hne⟩ : ∃ j < 64, j ≠ i := ⟨if i = 0 then 1 else 0, by split <;> omega, by split <;> omega⟩
  have hmeta := among_self fs (fs.keepers i j) (i := i)
  have hready : Ready d i c (fs.among i (fs.keepers i j)) :=
    ⟨ha, h.completed hi hj hne hu hok, hd, hi, by rwa [hmeta], hdesc⟩
  obtain ⟨fs₁, hwritten, heq⟩ := fsWrite_whole (n := n) buf heap heap' hready (by rw [hmeta]; omega)
    (by rw [hmeta]; omega) (by rw [hmeta]; exact hroom) (by rw [hmeta]; omega) (by rwa [hmeta])
  rw [fsWrite_among (fs.keepers i j) (congrArg Descriptor.file hdesc), Option.map_eq_some_iff] at heq
  obtain ⟨⟨fs', r⟩, hwrite, hpair⟩ := heq
  obtain ⟨hfs, rfl⟩ := Prod.mk.inj hpair
  have hfile₁ : (fs₁.descriptors d).file = (i : Nat) := by rw [hwritten.descriptors, Function.update_self]
  have hdescs := congrArg FileSystem.descriptors hfs
  have hfile' : (fs'.descriptors d).file = (i : Nat) := (congrArg (fun g => (g d).file) hdescs).trans hfile₁
  have hlen₁ : (fs₁.fileMetas i).length = c + n := by
    rw [hwritten.length, hmeta]
    omega
  have hu₁ : (fs₁.fileMetas i).inUse ≠ 0 := by
    rw [hwritten.inUse, hmeta]
    exact hu
  refine ⟨fs', hwrite, ?_, ?_⟩
  · have hsize : fsGetFilesize { fs₁ with disk := savedDisk heap' fs₁.disk i (fs₁.fileMetas i) } d =
        some (fs₁.fileMetas i).size :=
      fsGetFilesize_file (by exact hwritten.active) hd hi (by exact hfile₁)
    rw [← among_fsGetFilesize fs' (fs.keepers i j) hfile', hfs, hsize, ← (hwritten.owned.ok i hi).length_eq, hlen₁,
      Int.natCast_add]
  · intro k hk
    rw [← hlen₁] at hk
    rw [← among_byteAt fs' (fs.keepers i j), hfs, byteAt_saved heap' hwritten.owned hi hi hu₁ hk,
      hwritten.bytes i hi hu₁ k hk, among_byteAt]
    by_cases hold : k < c
    · rw [if_neg (by omega), if_pos hold]
    · rw [if_pos (by omega), if_neg hold]

theorem over_whole_spots (heap : Block) (buf : Nat → Byte) : ∀ s ∈ writeSpots heap fs d buf n, BlockWithin s d := by
  obtain ⟨hok, -, hwhole⟩ := h.full_file hi hu hfull (by omega)
  have hlen := hok.length_eq
  have hcount := hok.count_eq
  have hadmits : (fs.fileMetas i).Admits c n := by
    unfold FileMeta.Admits
    simp only [blockSize]
    omega
  intro s hs
  obtain ⟨hspots, -⟩ := fsWrite_underway hd hi ha hok.sized hdesc (by omega) hadmits
  obtain ⟨c', hunder, hlt⟩ := hspots s hs
  rw [blockWithin_iff hunder.descriptor]
  omega

end

end

/-- Where the file of the descriptor is in use and enough blocks are free, a write over the end
of the file succeeds exactly if the last block of the file is full. -/
theorem write_over {fs : FileSystem} {d i c n : Nat} (ha : fs.active = true) (h : Owns fs)
    (hlast : ∀ k < 64, (fs.fileMetas k).inUse ≠ 0 → 0 < (fs.fileMetas k).numBlocks →
      1 ≤ (fs.fileMetas k).sizeLast ∧ (fs.fileMetas k).sizeLast ≤ 4096)
    (hd : d < 32) (hi : i < 64) (hdesc : fs.descriptors d = ⟨i, c⟩) (hu : (fs.fileMetas i).inUse ≠ 0)
    (hc : c < (fs.fileMetas i).size) (hn : (fs.fileMetas i).size < c + n)
    (hroom : c + n ≤ 4096 * ((fs.fileMetas i).count + fs.free)) (heap heap' : Block) (buf : Nat → Byte) :
    WritesOver heap heap' fs d buf n ↔ (fs.fileMetas i).sizeLast = 4096 := by
  constructor
  · intro hover
    by_contra hshort
    by_cases hpos : 0 < (fs.fileMetas i).numBlocks
    · have hbounds := hlast i hi hu hpos
      have hmax := h.count_add_free hi hu
      have hcount : ((fs.fileMetas i).count : Int) = (fs.fileMetas i).numBlocks := Int.toNat_of_nonneg (by omega)
      have hs : (fs.fileMetas i).Sized := ⟨by omega, by omega, fun _ => by omega⟩
      exact over_short ha hd hi hdesc hc hn hs (by omega) (by omega) heap heap' buf hover
    · -- there is no block at the cursor
      have hwithin := (blockWithin_iff hdesc).mp (hover.2 fs (spots_first ha hd hi hdesc hc hn heap buf))
      omega
  · intro hfull
    obtain ⟨fs', hwrite, hsize, hbytes⟩ := over_whole ha hd hi hdesc hc hn h hu hfull hroom heap heap' buf
    refine ⟨⟨fs', hwrite, ?_, ?_⟩, over_whole_spots ha hd hi hdesc hc hn h hu hfull heap buf⟩
    · rw [hdesc]
      exact hsize
    · intro j hj
      rw [hdesc] at hj ⊢
      simp only [Int.toNat_natCast, Int.ofNat_lt] at hj ⊢
      exact hbytes j (by omega)

def overFullRun : List Call := fullRun ++ [.fsLseek 0 4000]

theorem write_over_full : ∃ t tr, run call (started (fun _ _ => 0) unmounted) overFullRun = some (t, tr) ∧
    (WritesOver (fun _ => 0) (fun _ => 0) t 0 (fun _ => 67) 200 ↔ (t.fileMetas 0).sizeLast = 4096) := by
  have hstate : (run call (started (fun _ _ => 0) unmounted) overFullRun).map (fun p => ((p.1.descriptors 0).file,
      (p.1.descriptors 0).cursor, (p.1.fileMetas 0).size,
      decide (4200 ≤ 4096 * ((p.1.fileMetas 0).count + p.1.free)))) = some (0, 4000, 4096, true) := by decide +kernel
  have hallowed : Guarded call Allowed (started (fun _ _ => 0) unmounted) overFullRun := by decide +kernel
  obtain ⟨t, tr, hrun, ht, hlink⟩ := started_run _ _ hallowed
  rw [hrun, Option.map_some, Option.some_inj] at hstate
  simp only [Prod.mk.injEq, decide_eq_true_eq] at hstate
  obtain ⟨hfile, hcursor, hsize, hroom⟩ := hstate
  have hdesc : t.descriptors 0 = ⟨(0 : Nat), (4000 : Nat)⟩ := congrArg₂ Descriptor.mk hfile hcursor
  have hu : (t.fileMetas 0).inUse ≠ 0 := opened_eq hfile ▸ hlink 0 (by decide) (by rw [hfile]; decide)
  exact ⟨t, tr, hrun, write_over ht.active ht.owned.owns ht.sizeLast_bounds (by decide) (by decide) hdesc hu
    (by rw [hsize]; decide) (by rw [hsize]; decide) hroom (fun _ => 0) (fun _ => 0) fun _ => 67⟩

def overShortRun : List Call :=
  [.fsCreate (fun _ => 0) fun _ => 65, .fsOpen fun _ => 65, .fsWrite (fun _ => 0) (fun _ => 0) 0 (fun _ => 66) 5,
    .fsLseek 0 0]

/-- Seven bytes written over the five make a file of twelve. -/
theorem write_over_five : ∃ t tr, run call (started (fun _ _ => 0) unmounted) overShortRun = some (t, tr) ∧ Owns t ∧
    (∀ k < 64, (t.fileMetas k).inUse ≠ 0 → 0 < (t.fileMetas k).numBlocks →
      1 ≤ (t.fileMetas k).sizeLast ∧ (t.fileMetas k).sizeLast ≤ 4096) ∧
    IsOpen t 0 ∧ t.descriptors 0 = ⟨0, 0⟩ ∧ (t.opened 0).size = 5 ∧ 7 ≤ 4096 * ((t.opened 0).count + t.free) ∧
    (fsWrite (fun _ => 0) (fun _ => 0) t 0 (fun _ => 67) 7).map (fun x => (x.2, fsGetFilesize x.1 0)) =
      some (7, some 12) ∧
    ¬ WritesOver (fun _ => 0) (fun _ => 0) t 0 (fun _ => 67) 7 := by
  have hstate : (run call (started (fun _ _ => 0) unmounted) overShortRun).map (fun p => ((p.1.descriptors 0).file,
      (p.1.descriptors 0).cursor,
      decide (IsOpen p.1 0 ∧ (p.1.opened 0).size = 5 ∧ 7 ≤ 4096 * ((p.1.opened 0).count + p.1.free)),
      (fsWrite (fun _ => 0) (fun _ => 0) p.1 0 (fun _ => 67) 7).map fun x => (x.2, fsGetFilesize x.1 0))) =
      some (0, 0, true, some (7, some 12)) := by decide +kernel
  have hallowed : Guarded call Allowed (started (fun _ _ => 0) unmounted) overShortRun := by decide +kernel
  obtain ⟨t, tr, hrun, ht, -⟩ := started_run _ _ hallowed
  rw [hrun, Option.map_some, Option.some_inj] at hstate
  simp only [Prod.mk.injEq, decide_eq_true_eq] at hstate
  obtain ⟨hfile, hcursor, ⟨ho, hsize, hroom⟩, hwrite⟩ := hstate
  have hdesc : t.descriptors 0 = ⟨0, 0⟩ := congrArg₂ Descriptor.mk hfile hcursor
  refine ⟨t, tr, hrun, ht.owned.owns, ht.sizeLast_bounds, ho, hdesc, hsize, hroom, hwrite, ?_⟩
  rintro ⟨⟨fs', heq, hget, -⟩, -⟩
  rw [heq] at hwrite
  have htwelve := (Prod.mk.inj (Option.some_inj.mp hwrite)).2
  rw [hget, hdesc] at htwelve
  exact absurd htwelve (by decide)

end OsLabs.Fs
