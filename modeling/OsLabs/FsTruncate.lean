import OsLabs.ByteFiles
import OsLabs.FsThrough

/-!
# What truncation frees and keeps

The loop of `fs_truncate` frees `blocks[num_blocks]` before it counts down. Where
it should free the entries from `m` to `n - 1` it frees those from `m + 1` to `n`,
and the last of them is no entry of the file. The size that is left is the length
asked for unless that is a whole number of blocks.
-/

namespace OsLabs.Fs

/-! ## Blocks of the files in use -/

/-- The blocks that the files in use list are data blocks, marked as used and all different. -/
structure Owns (fs : FileSystem) : Prop where
  data : ∀ p, fs.Entry p → IsData (fs.place p)
  used : ∀ p, fs.Entry p → fs.usage (fs.place p - 4096).toNat ≠ 0
  inj : ∀ p q, fs.Entry p → fs.Entry q → fs.place p = fs.place q → p = q

section
variable {fs : FileSystem}

theorem Owned.owns (h : Owned fs) : Owns fs := by
  refine ⟨fun p hp => h.place_bounds hp, ?_, h.inj⟩
  intro p hp
  have hb := h.place_bounds hp
  exact (h.usage _ (by omega)).mpr ⟨p, hp, by omega⟩

theorem Owns.block (h : Owns fs) {i k : Nat} (hi : i < 64) (hu : (fs.fileMetas i).inUse ≠ 0)
    (hk : k < (fs.fileMetas i).count) :
    IsData ((fs.fileMetas i).blocks k) ∧ fs.usage ((fs.fileMetas i).blocks k - 4096).toNat ≠ 0 :=
  ⟨h.data (i, k) ⟨hi, hu, hk⟩, h.used (i, k) ⟨hi, hu, hk⟩⟩

theorem Owns.count_add_free (h : Owns fs) {i : Nat} (hi : i < 64) (hu : (fs.fileMetas i).inUse ≠ 0) :
    (fs.fileMetas i).count + fs.free ≤ 4096 := by
  have hsplit := Finset.card_filter_add_card_filter_not (s := Finset.range 4096) fun b => fs.usage b = 0
  have hused : (Finset.range (fs.fileMetas i).count).card ≤
      ((Finset.range 4096).filter fun b => ¬ fs.usage b = 0).card := by
    refine Finset.card_le_card_of_injOn (fun k => ((fs.fileMetas i).blocks k - 4096).toNat) ?_ ?_
    · intro k hk
      obtain ⟨⟨h1, h2⟩, hused⟩ := h.block hi hu (Finset.mem_range.mp hk)
      have hlt : ((fs.fileMetas i).blocks k - 4096).toNat < 4096 := by omega
      exact Finset.mem_filter.mpr ⟨Finset.mem_range.mpr hlt, hused⟩
    · intro k hk l hl heq
      have hk' := Finset.mem_range.mp hk
      have hl' := Finset.mem_range.mp hl
      obtain ⟨⟨h1, _⟩, -⟩ := h.block hi hu hk'
      obtain ⟨⟨h2, _⟩, -⟩ := h.block hi hu hl'
      simp only at heq
      have hblocks : (fs.fileMetas i).blocks k = (fs.fileMetas i).blocks l := by omega
      exact (Prod.mk.inj (h.inj (i, k) (i, l) ⟨hi, hu, hk'⟩ ⟨hi, hu, hl'⟩ hblocks)).2
  rw [Finset.card_range] at hused hsplit
  unfold FileSystem.free
  omega

end

/-! ## The call -/

/-- The fields `num_blocks` and `size_last` are within the range of their type. -/
def FileMeta.InShorts (f : FileMeta) : Prop :=
  (-32768 ≤ f.numBlocks ∧ f.numBlocks ≤ 32767) ∧ -32768 ≤ f.sizeLast ∧ f.sizeLast ≤ 32767

/-- The file after a truncation to `length`. -/
def FileMeta.kept (f : FileMeta) (length : Int) : FileMeta :=
  { f with
    numBlocks := min f.numBlocks (blocksFor length.toNat : Nat)
    sizeLast := length.tmod blockSize }

theorem targetBlocks_eq {length : Int} (h0 : 0 ≤ length) (h1 : length ≤ 2147483647) :
    targetBlocks length = (blocksFor length.toNat : Nat) := by
  unfold targetBlocks blocksFor
  rw [Int.tmod_eq_emod_of_nonneg h0, Int.tdiv_eq_ediv_of_nonneg h0]
  simp only [blockSize]
  rw [toInt_of_bounds (by omega) (by omega)]
  split <;> omega

theorem FileMeta.Ok.inShorts {f : FileMeta} (h : f.Ok) (ht : f.Tight) : f.InShorts := by
  have h1 := h.nonneg
  have h2 := h.le
  have h3 := h.sizeLast
  have hz := ht.mpr
  exact ⟨⟨by omega, by omega⟩, by omega, by omega⟩

theorem FileMeta.InShorts.size_le {f : FileMeta} (h : f.InShorts) : f.size ≤ 2147483647 := by
  obtain ⟨⟨h1, h2⟩, h3, h4⟩ := h
  unfold FileMeta.size
  simp only [blockSize]
  split <;> omega

section
variable {fs : FileSystem} (ha : fs.active = true) {d i : Nat} (hd : d < 32) (hi : i < 64)
  (hfile : (fs.descriptors d).file = (i : Nat))
include ha hd hi hfile

theorem fsTruncate_within (hs : (fs.fileMetas i).InShorts) {length : Int} (h0 : 0 ≤ length)
    (hle : length ≤ (fs.fileMetas i).size) (heap : Block) {x : FileSystem × Int} :
    fsTruncate heap fs d length = some x ↔
      (∀ k : Nat, blocksFor length.toNat < k → (k : Int) ≤ (fs.fileMetas i).numBlocks →
        k < 4096 ∧ IsData ((fs.fileMetas i).blocks k)) ∧
      x = (fs.truncated heap i ((fs.fileMetas i).kept length)
        (unuse (blocksDown (fs.fileMetas i).blocks (blocksFor length.toNat)
          ((fs.fileMetas i).numBlocks - (blocksFor length.toNat : Nat)).toNat) fs.usage), 0) := by
  have htarget := targetBlocks_eq h0 (hle.trans hs.size_le)
  rw [fsTruncate_eq ha hd hi hfile, if_neg (by omega), htarget]
  unfold FileMeta.kept
  generalize blocksFor length.toNat = m
  by_cases hm : (fs.fileMetas i).numBlocks ≤ m
  · rw [show ((fs.fileMetas i).numBlocks - (m : Int)).toNat = 0 by omega, min_eq_left hm]
    simp only [dropBlocks, Option.map_some, Option.some.injEq, blocksDown, unuse_nil]
    exact ⟨fun h => ⟨fun k h1 h2 => absurd h1 (by omega), h.symm⟩, fun h => h.2.symm⟩
  · obtain ⟨n, hn⟩ : ∃ n : Nat, (fs.fileMetas i).numBlocks = (m + n : Nat) :=
      ⟨((fs.fileMetas i).numBlocks - m).toNat, by omega⟩
    rw [show ((fs.fileMetas i).numBlocks - (m : Int)).toNat = n by omega, min_eq_right (by omega),
      Option.map_eq_some_iff]
    have hbounds : (∀ k : Nat, m < k → (k : Int) ≤ (fs.fileMetas i).numBlocks →
        k < 4096 ∧ IsData ((fs.fileMetas i).blocks k)) ↔
        ∀ k, m < k → k ≤ m + n → k < 4096 ∧ IsData ((fs.fileMetas i).blocks k) := by
      rw [hn]
      exact forall_congr' fun k => imp_congr_right fun _ => imp_congr_left Int.ofNat_le
    rw [hbounds]
    constructor
    · intro h
      obtain ⟨⟨f, usage⟩, hdrop, hx⟩ := h
      obtain ⟨hdata, rfl, rfl⟩ := (dropBlocks_iff hn).mp hdrop
      exact ⟨hdata, hx.symm⟩
    · rintro ⟨hdata, rfl⟩
      exact ⟨_, (dropBlocks_iff hn).mpr ⟨hdata, rfl, rfl⟩, rfl⟩

end

/-! ## What is freed -/

/-- Data block `b` is one of the entries of the file from `m` on. -/
def FileMeta.CutOff (f : FileMeta) (m b : Nat) : Prop :=
  ∃ k : Nat, m ≤ k ∧ (k : Int) < f.numBlocks ∧ f.blocks k = (b : Int) + 4096

/-- The truncation frees the blocks that it cuts off, and no others. -/
def FreesCutOff (heap : Block) (fs : FileSystem) (fildes : Nat) (length : Int) : Prop :=
  ∃ fs', fsTruncate heap fs fildes length = some (fs', 0) ∧ ∀ b < 4096,
    ((fs.opened fildes).CutOff (blocksFor length.toNat) b → fs'.usage b = 0) ∧
    (¬ (fs.opened fildes).CutOff (blocksFor length.toNat) b → fs'.usage b = fs.usage b)

/-- The entries after the one at `m`, up to the first that is not the file's, are data
blocks, and those among them that are used are the used ones from `m` on. -/
def FileMeta.Shifts (f : FileMeta) (usage : Nat → Byte) (m : Nat) : Prop :=
  (∀ k : Nat, m < k → (k : Int) ≤ f.numBlocks → k < 4096 ∧ IsData (f.blocks k)) ∧
  ∀ b < 4096, usage b ≠ 0 →
    (f.CutOff m b ↔ ∃ k : Nat, m < k ∧ (k : Int) ≤ f.numBlocks ∧ f.blocks k = (b : Int) + 4096)

theorem unuse_blocksDown (f : FileMeta) (usage : Nat → Byte) (m b : Nat) :
    ((∃ k : Nat, m < k ∧ (k : Int) ≤ f.numBlocks ∧ f.blocks k = (b : Int) + 4096) →
      unuse (blocksDown f.blocks m (f.numBlocks - (m : Int)).toNat) usage b = 0) ∧
    ((¬ ∃ k : Nat, m < k ∧ (k : Int) ≤ f.numBlocks ∧ f.blocks k = (b : Int) + 4096) →
      unuse (blocksDown f.blocks m (f.numBlocks - (m : Int)).toNat) usage b = usage b) := by
  have hmem : (b : Int) + 4096 ∈ blocksDown f.blocks m (f.numBlocks - (m : Int)).toNat ↔
      ∃ k : Nat, m < k ∧ (k : Int) ≤ f.numBlocks ∧ f.blocks k = (b : Int) + 4096 := by
    rw [mem_blocksDown]
    constructor
    · intro ⟨k, h1, h2, h3⟩
      exact ⟨k, h1, by omega, h3⟩
    · intro ⟨k, h1, h2, h3⟩
      exact ⟨k, h1, by omega, h3⟩
  exact ⟨fun h => if_pos (hmem.mpr h), fun h => if_neg fun hb => h (hmem.mp hb)⟩

section
variable {fs : FileSystem} (ha : fs.active = true) {d i : Nat} (hd : d < 32) (hi : i < 64)
  (hfile : (fs.descriptors d).file = (i : Nat)) (hs : (fs.fileMetas i).InShorts) {length : Int} (h0 : 0 ≤ length)
  (hle : length ≤ (fs.fileMetas i).size)
include ha hd hi hfile hs h0 hle

theorem frees_iff_shifts (heap : Block) :
    FreesCutOff heap fs d length ↔ (fs.fileMetas i).Shifts fs.usage (blocksFor length.toNat) := by
  have hun := unuse_blocksDown (fs.fileMetas i) fs.usage (blocksFor length.toNat)
  unfold FreesCutOff FileMeta.Shifts
  simp only [fsTruncate_within ha hd hi hfile hs h0 hle, opened_eq hfile]
  constructor
  · intro ⟨fs', ⟨hdata, hx⟩, hfrees⟩
    obtain rfl := (Prod.mk.inj hx).1
    refine ⟨hdata, ?_⟩
    intro b hb hused
    obtain ⟨hcut, hkeep⟩ := hfrees b hb
    constructor
    · intro h
      by_contra hno
      exact hused (((hun b).2 hno).symm.trans (hcut h))
    · intro h
      by_contra hno
      exact hused ((hkeep hno).symm.trans ((hun b).1 h))
  · intro ⟨hdata, hshift⟩
    refine ⟨_, ⟨hdata, rfl⟩, ?_⟩
    intro b hb
    by_cases hused : fs.usage b = 0
    · have hz : unuse (blocksDown (fs.fileMetas i).blocks (blocksFor length.toNat)
          ((fs.fileMetas i).numBlocks - (blocksFor length.toNat : Nat)).toNat) fs.usage b = 0 := by
        unfold unuse
        rw [hused, ite_self]
      exact ⟨fun _ => hz, fun _ => hz.trans hused.symm⟩
    · have hiff := hshift b hb hused
      exact ⟨fun h => (hun b).1 (hiff.mp h), fun h => (hun b).2 fun hk => h (hiff.mpr hk)⟩

omit ha hd hfile hs h0 hle in
/-- For a file in use the entry after its last one has to be the one at `m` again. -/
theorem Owns.shifts_iff (h : Owns fs) (hu : (fs.fileMetas i).inUse ≠ 0) (m : Nat) :
    (fs.fileMetas i).Shifts fs.usage m ↔ (fs.fileMetas i).numBlocks ≤ m ∨ (fs.fileMetas i).numBlocks < 4096 ∧
      (fs.fileMetas i).blocks (fs.fileMetas i).numBlocks.toNat = (fs.fileMetas i).blocks m := by
  have hmax := h.count_add_free hi hu
  by_cases hm : (fs.fileMetas i).numBlocks ≤ m
  · refine ⟨fun _ => Or.inl hm, fun _ => ⟨fun k h1 h2 => absurd h1 (by omega), ?_⟩⟩
    intro b _ _
    exact ⟨fun ⟨k, h1, h2, _⟩ => absurd h1 (by omega), fun ⟨k, h1, h2, _⟩ => absurd h1 (by omega)⟩
  obtain ⟨n, hn⟩ : ∃ n : Nat, (fs.fileMetas i).numBlocks = n := ⟨(fs.fileMetas i).numBlocks.toNat, by omega⟩
  have hcount : (fs.fileMetas i).count = n := by
    unfold FileMeta.count
    rw [hn, Int.toNat_natCast]
  have hblock : ∀ k < n, IsData ((fs.fileMetas i).blocks k) ∧ fs.usage ((fs.fileMetas i).blocks k - 4096).toNat ≠ 0 :=
    fun k hk => h.block hi hu (hcount ▸ hk)
  rw [hn] at hm ⊢
  rw [Int.toNat_natCast]
  unfold FileMeta.Shifts FileMeta.CutOff
  rw [hn]
  constructor
  · intro ⟨hdata, hshift⟩
    obtain ⟨⟨h1, h2⟩, hused⟩ := hblock m (by omega)
    have hcut := hshift ((fs.fileMetas i).blocks m - 4096).toNat (by omega) hused
    obtain ⟨k, hmk, hkn, hk⟩ := hcut.mp ⟨m, le_refl m, by omega, by omega⟩
    have hkm : (fs.fileMetas i).blocks k = (fs.fileMetas i).blocks m := by omega
    have hlast : k = n := by
      by_contra hne
      have hplaces := h.inj (i, k) (i, m) ⟨hi, hu, show k < (fs.fileMetas i).count by omega⟩
        ⟨hi, hu, show m < (fs.fileMetas i).count by omega⟩ hkm
      have := (Prod.mk.inj hplaces).2
      omega
    have hlt := (hdata n (by omega) (le_refl _)).1
    exact Or.inr ⟨by omega, hlast ▸ hkm⟩
  · intro hcases
    obtain ⟨hlt, hsame⟩ := hcases.resolve_left hm
    refine ⟨?_, ?_⟩
    · intro k h1 h2
      by_cases hk : k = n
      · rw [hk, hsame]
        exact ⟨by omega, (hblock m (by omega)).1⟩
      · exact ⟨by omega, (hblock k (by omega)).1⟩
    · intro b _ _
      constructor
      · intro ⟨k, h1, h2, h3⟩
        by_cases hk : k = m
        · exact ⟨n, by omega, le_refl _, hsame.trans (hk ▸ h3)⟩
        · exact ⟨k, by omega, by omega, h3⟩
      · intro ⟨k, h1, h2, h3⟩
        by_cases hk : k = n
        · exact ⟨m, le_refl m, by omega, hsame.symm.trans (hk ▸ h3)⟩
        · exact ⟨k, by omega, by omega, h3⟩

/-- Truncation frees the right blocks of a file in use exactly if it cuts off none, or if the
entry after the last one is the first that is cut off. -/
theorem truncate_frees (h : Owns fs) (heap : Block) :
    ((fs.fileMetas i).inUse ≠ 0 → (FreesCutOff heap fs d length ↔
      (fs.fileMetas i).numBlocks ≤ (blocksFor length.toNat : Nat) ∨ (fs.fileMetas i).numBlocks < 4096 ∧
        (fs.fileMetas i).blocks (fs.fileMetas i).numBlocks.toNat = (fs.fileMetas i).blocks (blocksFor length.toNat))) ∧
    ((fs.fileMetas i).inUse = 0 →
      (FreesCutOff heap fs d length ↔ (fs.fileMetas i).Shifts fs.usage (blocksFor length.toNat))) := by
  have hiff := frees_iff_shifts ha hd hi hfile hs h0 hle heap
  exact ⟨fun hu => hiff.trans (h.shifts_iff hi hu _), fun _ => hiff⟩

end

def longRun : List Call :=
  [.fsCreate (fun _ => 0) fun _ => 65, .fsOpen fun _ => 65, .fsWrite (fun _ => 0) (fun _ => 0) 0 (fun _ => 66) 4097]

theorem long_run : ∃ t tr, run call (started (fun _ _ => 0) unmounted) longRun = some (t, tr) ∧ Session t ∧ Linked t ∧
    (t.descriptors 0).file = (0 : Nat) ∧ (t.fileMetas 0).size = 4097 ∧ (t.fileMetas 0).numBlocks = 2 ∧
    (t.fileMetas 0).blocks 2 = 0 := by
  have hlong : (run call (started (fun _ _ => 0) unmounted) longRun).map (fun p => ((p.1.descriptors 0).file,
      (p.1.fileMetas 0).size, (p.1.fileMetas 0).numBlocks, (p.1.fileMetas 0).blocks 2)) = some (0, 4097, 2, 0) := by
    decide +kernel
  have hallowed : Guarded call Allowed (started (fun _ _ => 0) unmounted) longRun := by decide +kernel
  obtain ⟨t, tr, hrun, ht, hlink⟩ := started_run _ _ hallowed
  rw [hrun, Option.map_some, Option.some_inj] at hlong
  simp only [Prod.mk.injEq] at hlong
  exact ⟨t, tr, hrun, ht, hlink, hlong⟩

theorem truncate_frees_two : ∃ t tr, run call (started (fun _ _ => 0) unmounted) longRun = some (t, tr) ∧
    (FreesCutOff (fun _ => 0) t 0 1 ↔
      (t.fileMetas 0).numBlocks ≤ (blocksFor (1 : Int).toNat : Nat) ∨ (t.fileMetas 0).numBlocks < 4096 ∧
        (t.fileMetas 0).blocks (t.fileMetas 0).numBlocks.toNat = (t.fileMetas 0).blocks (blocksFor (1 : Int).toNat)) := by
  obtain ⟨t, tr, hrun, ht, hl, hfile, hsize, hnum, -⟩ := long_run
  have ho : IsOpen t 0 := ⟨by decide, by rw [hfile]; decide⟩
  have hu : (t.fileMetas 0).inUse ≠ 0 := opened_eq hfile ▸ hl 0 ho.1 ho.2
  have hshorts := (ht.owned.ok 0 (by decide)).inShorts (ht.tight 0 (by decide))
  exact ⟨t, tr, hrun, (truncate_frees ht.active ho.1 (by decide) hfile hshorts (by decide) (by rw [hsize]; decide)
    ht.owned.owns fun _ => 0).1 hu⟩

/-- Cut down to one byte, the file of two blocks has `blocks[2]` taken, which is 0. -/
theorem truncate_out_of_range : ∃ t tr, run call (started (fun _ _ => 0) unmounted) longRun = some (t, tr) ∧ Owns t ∧
    IsOpen t 0 ∧ (t.opened 0).size = 4097 ∧ fsTruncate (fun _ => 0) t 0 1 = none ∧ ¬ FreesCutOff (fun _ => 0) t 0 1 := by
  obtain ⟨t, tr, hrun, ht, hl, hfile, hsize, hnum, hblock⟩ := long_run
  have ho : IsOpen t 0 := ⟨by decide, by rw [hfile]; decide⟩
  have hshorts := (ht.owned.ok 0 (by decide)).inShorts (ht.tight 0 (by decide))
  have hnone : fsTruncate (fun _ => 0) t 0 1 = none := by
    refine Option.eq_none_iff_forall_ne_some.mpr ?_
    intro x hx
    have hdata := ((fsTruncate_within ht.active ho.1 (by decide) hfile hshorts (by decide) (by rw [hsize]; decide)
      fun _ => 0).mp hx).1
    have hd := (hdata 2 (by decide) (by rw [hnum]; decide)).2
    rw [hblock] at hd
    exact absurd hd (by decide)
  refine ⟨t, tr, hrun, ht.owned.owns, ho, (congrArg FileMeta.size (opened_eq hfile)).trans hsize, hnone, ?_⟩
  intro ⟨fs', heq, _⟩
  rw [hnone] at heq
  cases heq

/-! ## What size is set -/

/-- Slot `k` and the bytes of its file are as they were. -/
def FileUnchanged (fs fs' : FileSystem) (k : Nat) : Prop :=
  fs'.fileMetas k = fs.fileMetas k ∧
    ((fs.fileMetas k).inUse ≠ 0 → ∀ j < (fs.fileMetas k).length, fs'.byteAt k j = fs.byteAt k j)

/-- The truncation sets the size to a length within the file and keeps what is before it;
with any other length it fails and changes nothing. -/
def SetsSize (heap : Block) (fs : FileSystem) (fildes : Nat) (length : Int) : Prop :=
  (0 ≤ length ∧ length ≤ (fs.opened fildes).size → ∃ fs', fsTruncate heap fs fildes length = some (fs', 0) ∧
    fsGetFilesize fs' fildes = some length ∧
    (∀ j : Nat, (j : Int) < length →
      fs'.byteAt (fs.descriptors fildes).file.toNat j = fs.byteAt (fs.descriptors fildes).file.toNat j) ∧
    ∀ k < numFiles, k ≠ (fs.descriptors fildes).file.toNat → FileUnchanged fs fs' k) ∧
  (¬ (0 ≤ length ∧ length ≤ (fs.opened fildes).size) → fsTruncate heap fs fildes length = some (fs, -1))

/-- The length is beyond the end, or a length within the file that is 0 or no whole number of blocks,
and no block is cut off or the entry after the last one is a data block. -/
def Settable (f : FileMeta) (length : Int) : Prop :=
  f.size < length ∨ 0 ≤ length ∧ length ≤ f.size ∧ (length = 0 ∨ length % blockSize ≠ 0) ∧
    (f.numBlocks ≤ (blocksFor length.toNat : Nat) ∨ f.numBlocks < 4096 ∧ IsData (f.blocks f.numBlocks.toNat))

theorem kept_size_iff {f : FileMeta} (h : f.Sized) {length : Int} (h0 : 0 ≤ length) (hle : length ≤ f.size) :
    (f.kept length).size = length ↔ length = 0 ∨ length % blockSize ≠ 0 := by
  have hbounds := h.size_bounds
  have hcut : f.kept length = f.cut length := by
    unfold FileMeta.kept FileMeta.cut
    rw [targetBlocks_eq h0 (by omega)]
  rw [hcut, (cut_size h (by simp only [blockSize]; omega) hle).2]
  unfold keptSize
  simp only [blockSize]
  split
  · omega
  · split <;> omega

section
variable {fs : FileSystem} {i : Nat}

theorem truncated_byteAt (h : Owned fs) (heap : Block) (hi : i < 64) {k j : Nat} (hk : k < 64)
    (hu : (fs.fileMetas k).inUse ≠ 0) (hj : j < (fs.fileMetas k).length) {f : FileMeta} (usage : Nat → Byte)
    (hf : f.blocks = (fs.fileMetas i).blocks) : (fs.truncated heap i f usage).byteAt k j = fs.byteAt k j := by
  have hblocks : ((fs.truncated heap i f usage).fileMetas k).blocks = (fs.fileMetas k).blocks := by
    by_cases hki : k = i
    · rw [hki]
      exact (congrArg FileMeta.blocks (setMeta_self { fs with usage := usage } i f)).trans hf
    · exact congrArg FileMeta.blocks (setMeta_ne { fs with usage := usage } f hki)
  have hb : 4096 ≤ (fs.fileMetas k).blocks (j / 4096) ∧ (fs.fileMetas k).blocks (j / 4096) < 8192 :=
    h.place_bounds (h.entry hk hu hj)
  unfold FileSystem.byteAt
  rw [hblocks]
  have hdata : 3 * i + 3 < ((fs.fileMetas k).blocks (j / 4096)).toNat := by omega
  exact congrFun (savedDisk_of_ne (Or.inr hdata)) _

theorem Session.truncated (h : Session fs) {d c : Nat} (hd : d < 32) (hi : i < 64) (hdesc : fs.descriptors d = ⟨i, c⟩)
    (hu : (fs.fileMetas i).inUse ≠ 0) {length : Int} (hle : length ≤ (fs.fileMetas i).size) (heap : Block)
    (usage : Nat → Byte) :
    fsGetFilesize (fs.truncated heap i ((fs.fileMetas i).kept length) usage) d =
      some ((fs.fileMetas i).kept length).size ∧
    (∀ j : Nat, (j : Int) < length →
      (fs.truncated heap i ((fs.fileMetas i).kept length) usage).byteAt i j = fs.byteAt i j) ∧
    ∀ k < numFiles, k ≠ i → FileUnchanged fs (fs.truncated heap i ((fs.fileMetas i).kept length) usage) k := by
  have hself := setMeta_self { fs with usage := usage } i ((fs.fileMetas i).kept length)
  have hlen := (h.owned.ok i hi).length_eq
  refine ⟨?_, ?_, ?_⟩
  · refine (fsGetFilesize_file (by exact h.active) hd hi (by exact congrArg Descriptor.file hdesc)).trans ?_
    exact congrArg (fun f => some (FileMeta.size f)) hself
  · intro j hj
    exact truncated_byteAt h.owned heap hi hi hu (by omega) usage rfl
  · intro k hk hki
    refine ⟨setMeta_ne _ _ hki, ?_⟩
    intro huk j hj
    exact truncated_byteAt h.owned heap hi hk huk hj usage rfl

theorem Session.sets_size_iff (h : Session fs) (hl : Linked fs) {d : Nat} (ho : IsOpen fs d) (heap : Block) (length : Int) :
    SetsSize heap fs d length ↔ Settable (fs.opened d) length := by
  obtain ⟨i, c, hi, hdesc, hopened⟩ := h.opened ho
  have hu : (fs.fileMetas i).inUse ≠ 0 := hopened ▸ hl d ho.1 ho.2
  have hok := h.owned.ok i hi
  have hfile : (fs.descriptors d).file = (i : Nat) := congrArg Descriptor.file hdesc
  have hcall := fsTruncate_eq h.active ho.1 hi hfile heap length
  have hbounds := hok.sized.size_bounds
  unfold SetsSize Settable
  rw [hopened, hfile, Int.toNat_natCast]
  by_cases hbeyond : (fs.fileMetas i).size < length
  · rw [if_pos hbeyond] at hcall
    exact ⟨fun _ => Or.inl hbeyond, fun _ => ⟨fun hin => absurd hin.2 (by omega), fun _ => hcall⟩⟩
  rw [if_neg hbeyond] at hcall
  by_cases hneg : length < 0
  · -- a negative length is not refused
    constructor
    · intro hset
      have hfail := hset.2 (by omega)
      rw [hcall, Option.map_eq_some_iff] at hfail
      obtain ⟨p, -, hp⟩ := hfail
      exact absurd (Prod.mk.inj hp).2 (by decide)
    · intro hcases
      omega
  have hle : length ≤ (fs.fileMetas i).size := by omega
  have h0 : 0 ≤ length := by omega
  have hwithin := fun x => fsTruncate_within h.active ho.1 hi hfile (hok.inShorts (h.tight i hi)) h0 hle heap (x := x)
  constructor
  · intro hset
    obtain ⟨fs', heq, hsize, -⟩ := hset.1 ⟨h0, hle⟩
    obtain ⟨hdata, hx⟩ := (hwithin _).mp heq
    obtain rfl := (Prod.mk.inj hx).1
    rw [(h.truncated ho.1 hi hdesc hu hle heap _).1, Option.some_inj, kept_size_iff hok.sized h0 hle] at hsize
    refine Or.inr ⟨h0, hle, hsize, ?_⟩
    by_cases hm : (fs.fileMetas i).numBlocks ≤ (blocksFor length.toNat : Nat)
    · exact Or.inl hm
    · have := hdata (fs.fileMetas i).numBlocks.toNat (by omega) (by omega)
      exact Or.inr ⟨by omega, this.2⟩
  · intro hcases
    obtain ⟨-, -, hwhole, hentry⟩ := hcases.resolve_left hbeyond
    refine ⟨fun _ => ?_, fun hout => absurd ⟨h0, hle⟩ hout⟩
    refine ⟨_, (hwithin _).mpr ⟨?_, rfl⟩, ?_⟩
    · intro k h1 h2
      by_cases hk : (k : Int) < (fs.fileMetas i).numBlocks
      · have := hok.le
        exact ⟨by omega, hok.blocks k hk⟩
      · obtain ⟨hlt, hdata⟩ := hentry.resolve_left (by omega)
        rw [show (fs.fileMetas i).numBlocks.toNat = k by omega] at hdata
        exact ⟨by omega, hdata⟩
    · obtain ⟨hsize, hrest⟩ := h.truncated ho.1 hi hdesc hu hle heap
        (unuse (blocksDown (fs.fileMetas i).blocks (blocksFor length.toNat)
          ((fs.fileMetas i).numBlocks - (blocksFor length.toNat : Nat)).toNat) fs.usage)
      refine ⟨hsize.trans ?_, hrest⟩
      rw [(kept_size_iff hok.sized h0 hle).mpr hwhole]

end

/-- In every state of a steady session `fs_truncate` sets the size it is asked for exactly if that
is settable. -/
theorem truncate_sets_size (junk : Nat → Nat → Int) (fs : FileSystem) (es : List Call) (t : FileSystem)
    (tr : List (Call × (Int × List Byte))) (hg : Guarded call Steady (started junk fs) es)
    (hr : run call (started junk fs) es = some (t, tr)) (heap : Block) (d : Nat) (ho : IsOpen t d) (length : Int) :
    SetsSize heap t d length ↔ Settable (t.opened d) length := by
  have h : Through t := run_inv (fun _ _ _ _ h hk hs => h.step hk hs) (started_through junk fs) hg hr
  exact h.session.sets_size_iff h.linked ho heap length

def fullRun : List Call :=
  [.fsCreate (fun _ => 0) fun _ => 65, .fsOpen fun _ => 65, .fsWrite (fun _ => 0) (fun _ => 0) 0 (fun _ => 66) 4096]

theorem full_run : ∃ t tr, run call (started (fun _ _ => 0) unmounted) fullRun = some (t, tr) ∧ IsOpen t 0 ∧
    (t.opened 0).size = 4096 ∧
    (fsTruncate (fun _ => 0) t 0 4096).map (fun x => (x.2, fsGetFilesize x.1 0)) = some (0, some 0) := by
  have hfull : (run call (started (fun _ _ => 0) unmounted) fullRun).map (fun p => (decide (IsOpen p.1 0),
      (p.1.opened 0).size, (fsTruncate (fun _ => 0) p.1 0 4096).map fun x => (x.2, fsGetFilesize x.1 0))) =
      some (true, 4096, some (0, some 0)) := by decide +kernel
  obtain ⟨⟨t, tr⟩, hrun, heq⟩ := Option.map_eq_some_iff.mp hfull
  simp only [Prod.mk.injEq] at heq
  exact ⟨t, tr, hrun, of_decide_eq_true heq.1, heq.2⟩

theorem truncate_sets_size_full : ∃ t tr, run call (started (fun _ _ => 0) unmounted) fullRun = some (t, tr) ∧
    (SetsSize (fun _ => 0) t 0 1000 ↔ Settable (t.opened 0) 1000) := by
  obtain ⟨t, tr, hrun, ho, -⟩ := full_run
  exact ⟨t, tr, hrun,
    truncate_sets_size (fun _ _ => 0) unmounted fullRun t tr (by decide +kernel) hrun (fun _ => 0) 0 ho 1000⟩

/-- Truncated to the size that it has, the file of one block is empty. -/
theorem truncate_to_block : ∃ t tr, run call (started (fun _ _ => 0) unmounted) fullRun = some (t, tr) ∧ IsOpen t 0 ∧
    (t.opened 0).size = 4096 ∧
    (fsTruncate (fun _ => 0) t 0 4096).map (fun x => (x.2, fsGetFilesize x.1 0)) = some (0, some 0) ∧
    ¬ SetsSize (fun _ => 0) t 0 4096 := by
  obtain ⟨t, tr, hrun, ho, hsize, hcut⟩ := full_run
  refine ⟨t, tr, hrun, ho, hsize, hcut, ?_⟩
  intro hset
  obtain ⟨fs', heq, hget, -⟩ := hset.1 ⟨by decide, by rw [hsize]⟩
  rw [heq] at hcut
  have hzero := (Prod.mk.inj (Option.some_inj.mp hcut)).2
  rw [hget] at hzero
  cases hzero

end OsLabs.Fs
