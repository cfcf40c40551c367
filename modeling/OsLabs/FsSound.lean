import Mathlib.Algebra.BigOperators.Group.Finset.Sigma
import Mathlib.Data.List.Find
import OsLabs.Fs

/-!
# Blocks and the files that own them

A data block is marked as used exactly when it is one of the blocks of one file
in use. A write inside a file touches the bytes it covers only, and a write at
the end extends the file by blocks that nobody owns, as far as there are any.
-/

namespace OsLabs.Fs

/-! ## Memory -/

theorem firstIndex_some {p : Nat → Bool} {n i : Nat} (h : firstIndex p n = some i) :
    i < n ∧ p i = true ∧ ∀ j < i, p j = false := by
  obtain ⟨hp, hi, hj⟩ := List.find?_range_eq_some.mp h
  exact ⟨List.mem_range.mp hi, hp, fun j hlt => by simpa using hj j hlt⟩

theorem firstIndex_none {p : Nat → Bool} {n : Nat} (h : firstIndex p n = none) : ∀ i < n, p i = false := by
  intro i hi
  have := List.find?_eq_none.mp h i (List.mem_range.mpr hi)
  simpa using this

theorem firstIndex_congr {p q : Nat → Bool} {n : Nat} (h : ∀ i < n, p i = q i) :
    firstIndex p n = firstIndex q n :=
  List.find?_congr fun i hi => h i (List.mem_range.mp hi)

section
variable {fs : FileSystem} (ha : fs.active = true)

theorem descriptor_eq {fildes : Nat} (h : fildes < 32) :
    fs.descriptor fildes = some (fs.descriptors fildes) :=
  if_pos h

theorem fileMeta_eq {i : Nat} (h : i < 64) : fs.fileMeta i = some (fs.fileMetas i) :=
  if_pos ⟨Int.natCast_nonneg i, Int.ofNat_lt.mpr h⟩

theorem blockAt_eq (f : FileMeta) {k : Nat} (h : k < 4096) : f.blockAt k = some (f.blocks k) :=
  if_pos ⟨Int.natCast_nonneg k, Int.ofNat_lt.mpr h⟩

include ha

theorem blockWrite_eq {b : Int} (hb : 0 ≤ b ∧ b < 8192) (buf : Block) :
    fs.blockWrite b buf = { fs with disk := Function.update fs.disk b.toNat buf } :=
  if_pos ⟨ha, hb.1, hb.2⟩

theorem blockRead_eq {b : Int} (hb : 0 ≤ b ∧ b < 8192) (buf : Block) : fs.blockRead b buf = fs.disk b.toNat :=
  if_pos ⟨ha, hb.1, hb.2⟩

theorem fsGetFilesize_file {d i : Nat} (hd : d < 32) (hi : i < 64) (hfile : (fs.descriptors d).file = (i : Nat)) :
    fsGetFilesize fs d = some (fs.fileMetas i).size := by
  unfold fsGetFilesize
  rw [if_pos ha, descriptor_eq hd]
  simp only [Option.bind_eq_bind, Option.bind_some]
  rw [hfile, if_neg (by omega), fileMeta_eq hi, Option.bind_some]

theorem fsGetFilesize_closed {d : Nat} (hd : d < 32) (hdesc : (fs.descriptors d).file = -1) :
    fsGetFilesize fs d = some (-1) := by
  unfold fsGetFilesize
  rw [if_pos ha, descriptor_eq hd]
  simp only [Option.bind_eq_bind, Option.bind_some]
  rw [if_pos hdesc]

end

/-! ## Files -/

/-- The fields of a file, in use or not. While `fs_write` extends a file, its last block is empty. -/
structure FileMeta.Ok (f : FileMeta) : Prop where
  nonneg : 0 ≤ f.numBlocks
  le : f.numBlocks ≤ 4096
  blocks : ∀ k : Nat, (k : Int) < f.numBlocks → 4096 ≤ f.blocks k ∧ f.blocks k < 8192
  sizeLast : 0 < f.numBlocks → 0 ≤ f.sizeLast ∧ f.sizeLast ≤ 4096

/-- The last block is not empty. -/
def FileMeta.Tight (f : FileMeta) : Prop := f.sizeLast = 0 ↔ f.numBlocks = 0

def FileMeta.count (f : FileMeta) : Nat := f.numBlocks.toNat

def FileMeta.length (f : FileMeta) : Nat := f.size.toNat

def FileSystem.byteAt (fs : FileSystem) (i j : Nat) : Byte :=
  fs.disk ((fs.fileMetas i).blocks (j / 4096)).toNat (j % 4096)

section
variable {f : FileMeta} (h : f.Ok)
include h

theorem FileMeta.Ok.count_eq : (f.count : Int) = f.numBlocks := Int.toNat_of_nonneg h.nonneg

theorem FileMeta.Ok.length_eq : (f.length : Int) = f.size := by
  have h1 := h.nonneg
  have h2 := h.sizeLast
  apply Int.toNat_of_nonneg
  unfold FileMeta.size
  simp only [blockSize]
  split <;> omega

theorem FileMeta.Ok.length_le : f.length ≤ 4096 * f.count := by
  have h1 := h.length_eq
  have h2 := h.count_eq
  have h3 := h.sizeLast
  have h4 := h.nonneg
  unfold FileMeta.size at h1
  simp only [blockSize] at h1
  split at h1 <;> omega

theorem FileMeta.Ok.count_le : f.count ≤ 4096 := by
  have h1 := h.count_eq
  have h2 := h.le
  omega

theorem FileMeta.Ok.block {k : Nat} (hk : k < f.count) : 4096 ≤ f.blocks k ∧ f.blocks k < 8192 :=
  h.blocks k (by have := h.count_eq; omega)

end

/-- The pair of a file in use and an index of one of its blocks. -/
def FileSystem.Entry (fs : FileSystem) (p : Nat × Nat) : Prop :=
  p.1 < 64 ∧ (fs.fileMetas p.1).inUse ≠ 0 ∧ p.2 < (fs.fileMetas p.1).count

def FileSystem.place (fs : FileSystem) (p : Nat × Nat) : Int := (fs.fileMetas p.1).blocks p.2

structure Owned (fs : FileSystem) : Prop where
  ok : ∀ i < 64, (fs.fileMetas i).Ok
  inj : ∀ p q, fs.Entry p → fs.Entry q → fs.place p = fs.place q → p = q
  usage : ∀ b < 4096, fs.usage b ≠ 0 ↔ ∃ p, fs.Entry p ∧ fs.place p = (b : Int) + 4096

section
variable {fs : FileSystem} (h : Owned fs)
include h

theorem Owned.place_bounds {p : Nat × Nat} (hp : fs.Entry p) : 4096 ≤ fs.place p ∧ fs.place p < 8192 :=
  (h.ok p.1 hp.1).block hp.2.2

/-- A write to the block of one entry leaves the blocks of the others alone. -/
theorem Owned.disk_update {p q : Nat × Nat} (hp : fs.Entry p) (hq : fs.Entry q) (buf : Block) :
    Function.update fs.disk (fs.place p).toNat buf (fs.place q).toNat =
      if q = p then buf else fs.disk (fs.place q).toNat := by
  by_cases heq : q = p
  · rw [heq, if_pos rfl, Function.update_self]
  · rw [if_neg heq, Function.update_of_ne]
    intro hplace
    have h1 := h.place_bounds hp
    have h2 := h.place_bounds hq
    exact heq (h.inj q p hq hp (by omega))

theorem Owned.entry {i j : Nat} (hi : i < 64) (hu : (fs.fileMetas i).inUse ≠ 0)
    (hj : j < (fs.fileMetas i).length) : fs.Entry (i, j / 4096) := by
  have := (h.ok i hi).length_le
  exact ⟨hi, hu, show j / 4096 < (fs.fileMetas i).count by omega⟩

theorem Owned.congr {fs' : FileSystem} (hu : fs'.usage = fs.usage) (hentry : ∀ p, fs'.Entry p ↔ fs.Entry p)
    (hplace : ∀ p, fs.Entry p → fs'.place p = fs.place p) (hok : ∀ i < 64, (fs'.fileMetas i).Ok) :
    Owned fs' := by
  refine ⟨hok, ?_, ?_⟩
  · intro p q hp hq heq
    have hp' := (hentry p).mp hp
    have hq' := (hentry q).mp hq
    rw [hplace p hp', hplace q hq'] at heq
    exact h.inj p q hp' hq' heq
  · intro b hb
    rw [hu, h.usage b hb]
    constructor
    · intro ⟨p, hp, heq⟩
      exact ⟨p, (hentry p).mpr hp, (hplace p hp).trans heq⟩
    · intro ⟨p, hp, heq⟩
      have hp' := (hentry p).mp hp
      exact ⟨p, hp', (hplace p hp').symm.trans heq⟩

theorem Owned.of_same {fs' : FileSystem} (hu : fs'.usage = fs.usage)
    (hm : ∀ i, (fs'.fileMetas i).inUse = (fs.fileMetas i).inUse ∧
      (fs'.fileMetas i).numBlocks = (fs.fileMetas i).numBlocks ∧ (fs'.fileMetas i).blocks = (fs.fileMetas i).blocks)
    (hok : ∀ i < 64, (fs'.fileMetas i).Ok) : Owned fs' := by
  refine h.congr hu ?_ ?_ hok
  · intro p
    unfold FileSystem.Entry FileMeta.count
    rw [(hm p.1).1, (hm p.1).2.1]
  · intro p _
    unfold FileSystem.place
    rw [(hm p.1).2.2]

end

/-! ## Free space -/

def FileSystem.free (fs : FileSystem) : Nat := ((Finset.range 4096).filter fun b => fs.usage b = 0).card

def FileSystem.inUseCount (fs : FileSystem) (i : Nat) : Nat :=
  if (fs.fileMetas i).inUse ≠ 0 then (fs.fileMetas i).count else 0

theorem card_of_numbering {N M : Nat} {nb : Nat → Nat} {P : Nat → Prop} [DecidablePred P]
    (g : Nat × Nat → Nat) (hmaps : ∀ i < N, ∀ k < nb i, g (i, k) < M ∧ P (g (i, k)))
    (hinj : ∀ i < N, ∀ k < nb i, ∀ j < N, ∀ l < nb j, g (i, k) = g (j, l) → i = j ∧ k = l)
    (hsurj : ∀ b < M, P b → ∃ i < N, ∃ k < nb i, g (i, k) = b) :
    ((Finset.range M).filter P).card = ∑ i ∈ Finset.range N, nb i := by
  have hmem : ∀ x : (_ : Nat) × Nat, x ∈ (Finset.range N).sigma (fun i => Finset.range (nb i)) ↔
      x.1 < N ∧ x.2 < nb x.1 := fun x => by simp
  have hcard : ((Finset.range N).sigma fun i => Finset.range (nb i)).card = ∑ i ∈ Finset.range N, nb i := by
    simp [Finset.card_sigma]
  rw [← hcard]
  symm
  refine Finset.card_bij (fun x _ => g (x.1, x.2)) ?_ ?_ ?_
  · intro x hx
    obtain ⟨h1, h2⟩ := (hmem x).mp hx
    obtain ⟨hlt, hp⟩ := hmaps _ h1 _ h2
    exact Finset.mem_filter.mpr ⟨Finset.mem_range.mpr hlt, hp⟩
  · intro x hx y hy heq
    obtain ⟨h1, h2⟩ := (hmem x).mp hx
    obtain ⟨h3, h4⟩ := (hmem y).mp hy
    obtain ⟨h5, h6⟩ := hinj _ h1 _ h2 _ h3 _ h4 heq
    exact Sigma.ext h5 (heq_of_eq h6)
  · intro b hb
    obtain ⟨hlt, hp⟩ := Finset.mem_filter.mp hb
    obtain ⟨i, hi, k, hk, hg⟩ := hsurj b (Finset.mem_range.mp hlt) hp
    exact ⟨⟨i, k⟩, (hmem _).mpr ⟨hi, hk⟩, hg⟩

theorem entry_iff {fs : FileSystem} {i k : Nat} (hi : i < 64) : fs.Entry (i, k) ↔ k < fs.inUseCount i := by
  unfold FileSystem.Entry FileSystem.inUseCount
  by_cases hu : (fs.fileMetas i).inUse ≠ 0
  · rw [if_pos hu]
    exact ⟨fun he => he.2.2, fun hk => ⟨hi, hu, hk⟩⟩
  · rw [if_neg hu]
    exact ⟨fun he => absurd he.2.1 hu, fun hk => absurd hk (Nat.not_lt_zero k)⟩

/-- Every data block is free or belongs to one file. -/
theorem Owned.free_add {fs : FileSystem} (h : Owned fs) :
    fs.free + ∑ i ∈ Finset.range 64, fs.inUseCount i = 4096 := by
  have hused : ((Finset.range 4096).filter fun b => ¬ fs.usage b = 0).card = ∑ i ∈ Finset.range 64, fs.inUseCount i := by
    refine card_of_numbering (fun p => (fs.place p).toNat - 4096) ?_ ?_
      ?_
    · intro i hi k hk
      have he := (entry_iff hi).mpr hk
      have hb := h.place_bounds he
      exact ⟨by omega, (h.usage _ (by omega)).mpr ⟨_, he, by omega⟩⟩
    · intro i hi k hk j hj l hl heq
      have hp := (entry_iff hi).mpr hk
      have hq := (entry_iff hj).mpr hl
      have h1 := h.place_bounds hp
      have h2 := h.place_bounds hq
      exact Prod.mk.inj (h.inj _ _ hp hq (by omega))
    · intro b hb hu
      obtain ⟨⟨i, k⟩, hp, hplace⟩ := (h.usage b hb).mp hu
      exact ⟨i, hp.1, k, (entry_iff hp.1).mp hp, by simp only [hplace]; omega⟩
  have hsplit := Finset.card_filter_add_card_filter_not (s := Finset.range 4096) fun b => fs.usage b = 0
  rw [hused, Finset.card_range] at hsplit
  exact hsplit

end OsLabs.Fs
