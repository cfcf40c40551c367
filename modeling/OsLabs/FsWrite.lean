import OsLabs.FsSound
import Mathlib.Algebra.Order.BigOperators.Group.Finset

/-!
# What a write does to the files

`Written` says what has changed once some bytes are written at a cursor: the
bytes that the write covers, the length of the file and the free space, and
nothing else. The parts of a write compose, so each loop needs its step only.
-/

namespace OsLabs.Fs

def FileSystem.room (fs : FileSystem) (i : Nat) : Nat :=
  4096 * fs.free + 4096 * (fs.fileMetas i).count - (fs.fileMetas i).length

/-- `m` bytes of `buf` have been written to file `i` from `c` on, through `fildes`. -/
structure Written (fildes i c m : Nat) (buf : Nat → Byte) (fs fs' : FileSystem) : Prop where
  active : fs'.active = true
  owned : Owned fs'
  inUse : ∀ k, (fs'.fileMetas k).inUse = (fs.fileMetas k).inUse
  name : ∀ k, (fs'.fileMetas k).name = (fs.fileMetas k).name
  others : ∀ k, k ≠ i → fs'.fileMetas k = fs.fileMetas k
  length : (fs'.fileMetas i).length = max (fs.fileMetas i).length (c + m)
  free : fs'.free + (fs'.fileMetas i).count = fs.free + (fs.fileMetas i).count
  descriptors : fs'.descriptors = Function.update fs.descriptors fildes ⟨i, (c + m : Nat)⟩
  bytes : ∀ k < 64, (fs'.fileMetas k).inUse ≠ 0 → ∀ j < (fs'.fileMetas k).length,
    fs'.byteAt k j = if k = i ∧ c ≤ j ∧ j < c + m then buf (j - c) else fs.byteAt k j
  low : ∀ b < 4096, fs'.disk b = fs.disk b

section
variable {fildes i c m n : Nat} {buf : Nat → Byte} {fs fs₁ fs₂ : FileSystem}

theorem Written.refl (ha : fs.active = true) (ho : Owned fs) (hd : fs.descriptors fildes = ⟨i, c⟩)
    (hc : c ≤ (fs.fileMetas i).length) : Written fildes i c 0 buf fs fs where
  active := ha
  owned := ho
  inUse _ := rfl
  name _ := rfl
  others _ _ := rfl
  length := (Nat.max_eq_left hc).symm
  free := rfl
  descriptors := by
    rw [Nat.add_zero, ← hd, Function.update_eq_self]
  bytes k _ _ j _ := by
    rw [if_neg]
    omega
  low _ _ := rfl

theorem Written.trans (h₁ : Written fildes i c m buf fs fs₁)
    (h₂ : Written fildes i (c + m) n (fun j => buf (j + m)) fs₁ fs₂) (hc : c ≤ (fs.fileMetas i).length) :
    Written fildes i c (m + n) buf fs fs₂ where
  active := h₂.active
  owned := h₂.owned
  inUse k := (h₂.inUse k).trans (h₁.inUse k)
  name k := (h₂.name k).trans (h₁.name k)
  others k hk := (h₂.others k hk).trans (h₁.others k hk)
  length := by
    rw [h₂.length, h₁.length]
    omega
  free := h₂.free.trans h₁.free
  descriptors := by
    rw [h₂.descriptors, h₁.descriptors, Function.update_idem, Nat.add_assoc]
  low b hb := (h₂.low b hb).trans (h₁.low b hb)
  bytes k hk hu j hj := by
    rw [h₂.bytes k hk hu j hj]
    by_cases hnew : k = i ∧ c + m ≤ j ∧ j < c + m + n
    · rw [if_pos hnew, if_pos ⟨hnew.1, by omega, by omega⟩]
      congr 1
      omega
    · have hlt : j < (fs₁.fileMetas k).length := by
        by_cases hki : k = i
        · subst hki
          have := h₂.length
          have := h₁.length
          omega
        · rwa [h₂.others k hki] at hj
      rw [if_neg hnew, h₁.bytes k hk (by rwa [← h₂.inUse k]) j hlt]
      by_cases hold : k = i ∧ c ≤ j ∧ j < c + m
      · rw [if_pos hold, if_pos ⟨hold.1, hold.2.1, by omega⟩]
      · rw [if_neg hold, if_neg]
        omega

theorem Written.room (h : Written fildes i c m buf fs fs₁) (hi : i < 64) (hc : c = (fs.fileMetas i).length) :
    fs₁.room i = fs.room i - m := by
  have h1 := h.length
  have h2 := h.free
  have h3 := (h.owned.ok i hi).length_le
  unfold FileSystem.room at *
  omega

end

/-! ## One chunk -/

/-- What is left of a block after `c`, as far as `n` goes. -/
def chunk (c n : Nat) : Nat := min n (4096 - c % 4096)

theorem chunk_pos {c n : Nat} (hn : 0 < n) : 0 < chunk c n := by
  unfold chunk
  omega

theorem chunk_le (c n : Nat) : chunk c n ≤ n := Nat.min_le_left _ _

theorem chunk_block (c n : Nat) : c % 4096 + chunk c n ≤ 4096 := by
  unfold chunk
  omega

theorem offset_eq (c : Nat) : (c : Int).tmod blockSize = (c % 4096 : Nat) := by
  rw [Int.tmod_eq_emod_of_nonneg (Int.natCast_nonneg c)]
  simp only [blockSize]
  omega

theorem block_eq (c : Nat) : (c : Int).tdiv blockSize = (c / 4096 : Nat) := by
  rw [Int.tdiv_eq_ediv_of_nonneg (Int.natCast_nonneg c)]
  simp only [blockSize]
  omega

theorem dist_eq (c n : Nat) :
    (if n < toSize ((blockSize : Int) - (c % 4096 : Nat)) then (n : Int) else (blockSize : Int) - (c % 4096 : Nat)) =
      (chunk c n : Nat) := by
  have hsize : toSize ((blockSize : Int) - (c % 4096 : Nat)) = 4096 - c % 4096 := by
    have := toSize_of_bounds (x := (blockSize : Int) - (c % 4096 : Nat)) (by simp only [blockSize]; omega)
      (by simp only [blockSize]; omega)
    simp only [blockSize] at this ⊢
    omega
  rw [hsize]
  unfold chunk
  simp only [blockSize]
  split <;> omega

def FileSystem.chunked (fs : FileSystem) (fildes i c d : Nat) (buf : Nat → Byte) : FileSystem :=
  let f := fs.fileMetas i
  let b := (f.blocks (c / 4096)).toNat
  { fs with
    disk := Function.update fs.disk b (memcpy (fs.disk b) (c % 4096) buf d)
    descriptors := Function.update fs.descriptors fildes ⟨i, (c + d : Nat)⟩
    fileMetas := if f.length < c + d then Function.update fs.fileMetas i { f with sizeLast := f.sizeLast + d }
      else fs.fileMetas }

theorem cursor_add {c n : Nat} (hc : c < 16777216) :
    toInt ((c : Int) + (chunk c n : Nat)) = (c + chunk c n : Nat) := by
  have := chunk_block c n
  rw [toInt_of_bounds (by omega) (by omega)]
  omega

theorem sizeLast_add {x : Int} (hx : 0 ≤ x ∧ x ≤ 4096) (c n : Nat) :
    toShort (x + (chunk c n : Nat)) = x + (chunk c n : Nat) := by
  have := chunk_block c n
  exact toShort_of_bounds (by omega) (by omega)

theorem writeChunk_eq {fildes i c : Nat} {w : Writing} (ha : w.fs.active = true) (hfd : fildes < 32)
    (hd : w.fs.descriptors fildes = ⟨i, c⟩) (hi : i < 64) (hok : (w.fs.fileMetas i).Ok)
    (hc : c < 4096 * (w.fs.fileMetas i).count) :
    writeChunk fildes w = some
      { fs := w.fs.chunked fildes i c (chunk c w.nbyte) w.buf
        data := memcpy (w.fs.disk ((w.fs.fileMetas i).blocks (c / 4096)).toNat)
          (c % 4096) w.buf (chunk c w.nbyte)
        buf := fun j => w.buf (j + chunk c w.nbyte)
        nbyte := w.nbyte - chunk c w.nbyte
        written := w.written + chunk c w.nbyte } := by
  have hcount := hok.count_le
  have hk : c / 4096 < 4096 := by omega
  have hb := hok.block (k := c / 4096) (by omega)
  have hsl := hok.sizeLast (by have := hok.count_eq; omega)
  have hlt : (w.fs.fileMetas i).size < (c + chunk c w.nbyte : Nat) ↔
      (w.fs.fileMetas i).length < c + chunk c w.nbyte := by
    rw [← hok.length_eq]
    exact Int.ofNat_lt
  unfold writeChunk
  simp only [descriptor_eq hfd, hd, Option.bind_eq_bind, Option.bind_some, fileMeta_eq hi, block_eq,
    blockAt_eq _ hk, offset_eq, dist_eq, Int.toNat_natCast]
  rw [blockRead_eq ha (by omega), blockWrite_eq ha (by omega)]
  unfold FileSystem.chunked moveCursor FileSystem.setDescriptor FileSystem.setMeta
  simp only [cursor_add (show c < 16777216 by omega), sizeLast_add hsl, Int.toNat_natCast, hlt]
  split <;> rfl

theorem FileMeta.Ok.sizeLast_eq {f : FileMeta} (h : f.Ok) (hlt : f.length < 4096 * f.count) :
    f.sizeLast = (f.length % 4096 : Nat) ∧ f.numBlocks ≠ 0 := by
  have h1 := h.length_eq
  have h2 := h.count_eq
  have h3 := h.sizeLast
  have hne : f.numBlocks ≠ 0 := by omega
  unfold FileMeta.size at h1
  rw [if_neg hne] at h1
  simp only [blockSize] at h1
  exact ⟨by omega, hne⟩

theorem FileMeta.Ok.extend {f : FileMeta} (h : f.Ok) (hlt : f.length < 4096 * f.count) {d : Nat}
    (hd : f.length % 4096 + d ≤ 4096) :
    FileMeta.Ok { f with sizeLast := f.sizeLast + d } ∧
      FileMeta.length { f with sizeLast := f.sizeLast + d } = f.length + d := by
  obtain ⟨hsl, hne⟩ := h.sizeLast_eq hlt
  have hok : FileMeta.Ok { f with sizeLast := f.sizeLast + d } := ⟨h.nonneg, h.le, h.blocks, fun _ => by
    simp only [hsl]
    omega⟩
  have h1 := h.length_eq
  have h2 := hok.length_eq
  unfold FileMeta.size at h1 h2
  simp only [if_neg hne] at h1 h2
  exact ⟨hok, by omega⟩

section
variable {fs : FileSystem} {fildes i c d : Nat} {buf : Nat → Byte}

variable (fs fildes i c d buf) in
theorem chunked_metas (k : Nat) :
    ((fs.chunked fildes i c d buf).fileMetas k).inUse = (fs.fileMetas k).inUse ∧
      ((fs.chunked fildes i c d buf).fileMetas k).name = (fs.fileMetas k).name ∧
      ((fs.chunked fildes i c d buf).fileMetas k).numBlocks = (fs.fileMetas k).numBlocks ∧
      ((fs.chunked fildes i c d buf).fileMetas k).blocks = (fs.fileMetas k).blocks ∧
      (k ≠ i → (fs.chunked fildes i c d buf).fileMetas k = fs.fileMetas k) := by
  simp only [FileSystem.chunked]
  split
  · by_cases hk : k = i
    · subst hk
      simp only [Function.update_self]
      exact ⟨trivial, trivial, trivial, trivial, fun hne => absurd rfl hne⟩
    · simp only [Function.update_of_ne hk]
      exact ⟨trivial, trivial, trivial, trivial, fun _ => trivial⟩
  · exact ⟨rfl, rfl, rfl, rfl, fun _ => rfl⟩

variable (ho : Owned fs) (hi : i < 64) (hu : (fs.fileMetas i).inUse ≠ 0) (hc : c < 4096 * (fs.fileMetas i).count)
include ho hi hc

variable (fildes buf) in
theorem chunked_meta (hblock : c % 4096 + d ≤ 4096)
    (hend : c + d ≤ (fs.fileMetas i).length ∨ c = (fs.fileMetas i).length) :
    ((fs.chunked fildes i c d buf).fileMetas i).Ok ∧
      ((fs.chunked fildes i c d buf).fileMetas i).length = max (fs.fileMetas i).length (c + d) := by
  have hok := ho.ok i hi
  simp only [FileSystem.chunked]
  split
  · rename_i hlt
    have heq : c = (fs.fileMetas i).length := by omega
    rw [Function.update_self]
    obtain ⟨h1, h2⟩ := hok.extend (heq ▸ hc) (d := d) (heq ▸ hblock)
    exact ⟨h1, by rw [h2]; omega⟩
  · exact ⟨hok, by omega⟩

include hu

theorem chunked_bytes (hblock : c % 4096 + d ≤ 4096) {k j : Nat} (hk : k < 64)
    (huk : (fs.fileMetas k).inUse ≠ 0) (hj : j < 4096 * (fs.fileMetas k).count) :
    (fs.chunked fildes i c d buf).byteAt k j = if k = i ∧ c ≤ j ∧
      j < c + d then buf (j - c) else fs.byteAt k j := by
  have hp : fs.Entry (i, c / 4096) := ⟨hi, hu, show c / 4096 < (fs.fileMetas i).count by omega⟩
  have hq : fs.Entry (k, j / 4096) := ⟨hk, huk, show j / 4096 < (fs.fileMetas k).count by omega⟩
  have hblocks := (chunked_metas fs fildes i c d buf k).2.2.2.1
  unfold FileSystem.byteAt
  rw [hblocks]
  have hupd := ho.disk_update hp hq (memcpy (fs.disk (fs.place (i, c / 4096)).toNat) (c % 4096) buf d)
  simp only [FileSystem.place] at hupd
  simp only [FileSystem.chunked]
  rw [hupd]
  by_cases hpq : (k, j / 4096) = (i, c / 4096)
  · obtain ⟨hki, hjc⟩ := Prod.mk.inj hpq
    subst hki
    rw [if_pos hpq, hjc]
    unfold memcpy
    by_cases hin : c ≤ j ∧ j < c + d
    · rw [if_pos (by omega), if_pos ⟨rfl, hin⟩]
      congr 1
      omega
    · rw [if_neg (by omega), if_neg (by simpa using hin)]
  · rw [if_neg hpq, if_neg]
    rintro ⟨rfl, hin⟩
    exact hpq (Prod.ext rfl (show j / 4096 = c / 4096 by omega))

theorem chunked_written (ha : fs.active = true) (hblock : c % 4096 + d ≤ 4096)
    (hend : c + d ≤ (fs.fileMetas i).length ∨ c = (fs.fileMetas i).length) :
    Written fildes i c d buf fs (fs.chunked fildes i c d buf) := by
  have hmetas := chunked_metas fs fildes i c d buf
  obtain ⟨hok, hlen⟩ := chunked_meta fildes buf ho hi hc hblock hend
  have hcount : ∀ k, ((fs.chunked fildes i c d buf).fileMetas k).count = (fs.fileMetas k).count := fun k => by
    unfold FileMeta.count
    rw [(hmetas k).2.2.1]
  have hoks : ∀ k < 64, ((fs.chunked fildes i c d buf).fileMetas k).Ok := by
    intro k hk
    by_cases hki : k = i
    · exact hki ▸ hok
    · rw [(hmetas k).2.2.2.2 hki]
      exact ho.ok k hk
  refine
    { active := ha
      owned := ho.of_same rfl (fun k => ⟨(hmetas k).1, (hmetas k).2.2.1, (hmetas k).2.2.2.1⟩) hoks
      inUse := fun k => (hmetas k).1
      name := fun k => (hmetas k).2.1
      others := fun k => (hmetas k).2.2.2.2
      length := hlen
      free := congrArg _ (hcount i)
      descriptors := rfl
      bytes := ?_
      low := ?_ }
  · intro k hk huk j hj
    have hle := (hoks k hk).length_le
    rw [hcount] at hle
    exact chunked_bytes ho hi hu hc hblock hk (by rwa [← (hmetas k).1]) (by omega)
  · intro b hb
    have := (ho.ok i hi).block (k := c / 4096) (by omega)
    simp only [FileSystem.chunked]
    rw [Function.update_of_ne (by omega)]

end

/-! ## A new block -/

def FileMeta.added (f : FileMeta) (b : Nat) : FileMeta :=
  { f with blocks := Function.update f.blocks f.count (b + 4096), numBlocks := f.numBlocks + 1, sizeLast := 0 }

def FileSystem.added (fs : FileSystem) (i b : Nat) : FileSystem :=
  { fs with
    fileMetas := Function.update fs.fileMetas i ((fs.fileMetas i).added b)
    usage := Function.update fs.usage b 1 }

theorem findEmptyBlock_some {fs : FileSystem} (ha : fs.active = true) {b : Nat}
    (h : findEmptyBlock fs = some b) : b < 4096 ∧ fs.usage b = 0 := by
  unfold findEmptyBlock at h
  rw [if_pos ha] at h
  obtain ⟨hb, hz, _⟩ := firstIndex_some h
  exact ⟨hb, by simpa using hz⟩

theorem findEmptyBlock_none {fs : FileSystem} (ha : fs.active = true) (h : findEmptyBlock fs = none) :
    fs.free = 0 := by
  unfold findEmptyBlock at h
  rw [if_pos ha] at h
  refine Finset.card_eq_zero.mpr (Finset.filter_eq_empty_iff.mpr ?_)
  intro b hb
  simpa using firstIndex_none h b (Finset.mem_range.mp hb)

theorem card_filter_update {N b : Nat} {g : Nat → Byte} (hb : b < N) (hz : g b = 0) :
    ((Finset.range N).filter fun x => Function.update g b 1 x = 0).card + 1 =
      ((Finset.range N).filter fun x => g x = 0).card := by
  have hmem : b ∈ (Finset.range N).filter fun x => g x = 0 := Finset.mem_filter.mpr ⟨Finset.mem_range.mpr hb, hz⟩
  have herase : ((Finset.range N).filter fun x => Function.update g b 1 x = 0) =
      ((Finset.range N).filter fun x => g x = 0).erase b := by
    ext x
    rw [Finset.mem_erase, Finset.mem_filter, Finset.mem_filter]
    by_cases hx : x = b
    · subst hx
      simp
    · rw [Function.update_of_ne hx]
      exact ⟨fun h => ⟨hx, h⟩, And.right⟩
  rw [herase, Finset.card_erase_of_mem hmem]
  have := Finset.card_pos.mpr ⟨b, hmem⟩
  omega

section
variable {fs : FileSystem} {b : Nat} (hb : b < 4096) (hz : fs.usage b = 0)
include hb hz

theorem free_added (i : Nat) : (fs.added i b).free + 1 = fs.free := card_filter_update hb hz

variable {i : Nat} (ho : Owned fs) (hi : i < 64) (hu : (fs.fileMetas i).inUse ≠ 0)
include ho hi hu

theorem Owned.count_lt : (fs.fileMetas i).count < 4096 := by
  have hfree := ho.free_add
  have hpos := free_added hb hz i
  have hle := Finset.single_le_sum (f := fs.inUseCount) (fun _ _ => Nat.zero_le _) (Finset.mem_range.mpr hi)
  have hcount : fs.inUseCount i = (fs.fileMetas i).count := if_pos hu
  omega

theorem addBlock_eq : addBlock fs i b = some (fs.added i b) := by
  have hlt := ho.count_lt hb hz hi hu
  have hcount := (ho.ok i hi).count_eq
  have hblock : (fs.fileMetas i).blockAt (fs.fileMetas i).numBlocks = some ((fs.fileMetas i).blocks (fs.fileMetas i).count) := by
    rw [← hcount]
    exact blockAt_eq _ hlt
  have h1 : toShort ((b : Int) + 4096) = b + 4096 := toShort_of_bounds (by omega) (by omega)
  have h2 : toShort ((fs.fileMetas i).numBlocks + 1) = (fs.fileMetas i).numBlocks + 1 :=
    toShort_of_bounds (by omega) (by omega)
  unfold addBlock
  simp only [fileMeta_eq hi, hblock, Option.bind_eq_bind, Option.bind_some]
  have h3 : ((diskBlocks / 2 : Nat) : Int) = 4096 := rfl
  rw [h3, h1, h2]
  rfl

omit hb hz in
theorem added_entry (p : Nat × Nat) :
    (fs.added i b).Entry p ↔ fs.Entry p ∨ p = (i, (fs.fileMetas i).count) := by
  obtain ⟨k, l⟩ := p
  have hcount := (ho.ok i hi).count_eq
  by_cases hk : k = i
  · subst hk
    have hnew : ((fs.added k b).fileMetas k).count = (fs.fileMetas k).count + 1 := by
      simp only [FileSystem.added, Function.update_self, FileMeta.added, FileMeta.count]
      unfold FileMeta.count at hcount
      omega
    have hin : ((fs.added k b).fileMetas k).inUse = (fs.fileMetas k).inUse := by
      simp only [FileSystem.added, Function.update_self, FileMeta.added]
    unfold FileSystem.Entry
    rw [hnew, hin, Prod.mk.injEq]
    constructor
    · intro ⟨_, _, hl⟩
      by_cases hlt : l < (fs.fileMetas k).count
      · exact .inl ⟨hi, hu, hlt⟩
      · exact .inr ⟨rfl, by simp only at hl; omega⟩
    · rintro (⟨_, _, hl⟩ | ⟨_, rfl⟩)
      · exact ⟨hi, hu, by simp only at hl ⊢; omega⟩
      · exact ⟨hi, hu, by simp only; omega⟩
  · have hsame : (fs.added i b).fileMetas k = fs.fileMetas k := Function.update_of_ne hk _ _
    unfold FileSystem.Entry
    rw [hsame]
    constructor
    · exact .inl
    · rintro (h | h)
      · exact h
      · exact absurd (Prod.mk.inj h).1 hk

omit hb hz ho hi hu in
theorem added_place (p : Nat × Nat) :
    (fs.added i b).place p = if p = (i, (fs.fileMetas i).count) then (b : Int) + 4096 else fs.place p := by
  obtain ⟨k, l⟩ := p
  unfold FileSystem.place FileSystem.added
  by_cases hk : k = i
  · subst hk
    by_cases hl : l = (fs.fileMetas k).count
    · subst hl
      simp [FileMeta.added]
    · simp [FileMeta.added, hl]
  · simp [hk]

theorem added_owned : Owned (fs.added i b) := by
  have hlt := ho.count_lt hb hz hi hu
  have hfree : ∀ p, fs.Entry p → fs.place p ≠ (b : Int) + 4096 := fun p hp heq =>
    (ho.usage b hb).mpr ⟨p, hp, heq⟩ hz
  have hold : ∀ p, fs.Entry p → p ≠ (i, (fs.fileMetas i).count) := by
    rintro p hp rfl
    exact absurd hp.2.2 (Nat.lt_irrefl _)
  have hplace : ∀ p, fs.Entry p → (fs.added i b).place p = fs.place p := fun p hp => by
    rw [added_place, if_neg (hold p hp)]
  have hnew : (fs.added i b).place (i, (fs.fileMetas i).count) = (b : Int) + 4096 := by
    rw [added_place, if_pos rfl]
  refine ⟨?_, ?_, ?_⟩
  · intro k hk
    by_cases hki : k = i
    · subst hki
      have hok := ho.ok k hi
      have hcount := hok.count_eq
      simp only [FileSystem.added, Function.update_self, FileMeta.added]
      refine ⟨by simp only; omega, by simp only; omega, ?_, fun _ => ⟨le_refl _, by simp only; omega⟩⟩
      intro l hl
      simp only at hl ⊢
      by_cases hlc : l = (fs.fileMetas k).count
      · subst hlc
        rw [Function.update_self]
        omega
      · rw [Function.update_of_ne hlc]
        exact hok.block (by omega)
    · rw [show (fs.added i b).fileMetas k = fs.fileMetas k from Function.update_of_ne hki _ _]
      exact ho.ok k hk
  · intro p q hp hq heq
    rcases (added_entry ho hi hu p).mp hp with hp' | rfl
    · rcases (added_entry ho hi hu q).mp hq with hq' | rfl
      · rw [hplace p hp', hplace q hq'] at heq
        exact ho.inj p q hp' hq' heq
      · rw [hplace p hp', hnew] at heq
        exact absurd heq (hfree p hp')
    · rcases (added_entry ho hi hu q).mp hq with hq' | rfl
      · rw [hplace q hq', hnew] at heq
        exact absurd heq.symm (hfree q hq')
      · rfl
  · intro x hx
    by_cases hxb : x = b
    · subst hxb
      refine ⟨fun _ => ⟨_, (added_entry ho hi hu _).mpr (.inr rfl), hnew⟩, ?_⟩
      intro _
      simp [FileSystem.added]
    · rw [show (fs.added i b).usage x = fs.usage x from Function.update_of_ne hxb _ _, ho.usage x hx]
      constructor
      · intro ⟨p, hp, heq⟩
        exact ⟨p, (added_entry ho hi hu p).mpr (.inl hp), by rw [hplace p hp, heq]⟩
      · intro ⟨p, hp, heq⟩
        rcases (added_entry ho hi hu p).mp hp with hp' | rfl
        · exact ⟨p, hp', by rw [← hplace p hp', heq]⟩
        · rw [hnew] at heq
          omega

theorem added_length (hfull : (fs.fileMetas i).length = 4096 * (fs.fileMetas i).count) :
    ((fs.added i b).fileMetas i).length = (fs.fileMetas i).length ∧
      ((fs.added i b).fileMetas i).count = (fs.fileMetas i).count + 1 := by
  have hok := ho.ok i hi
  have hok' := (added_owned hb hz ho hi hu).ok i hi
  have h1 := hok.count_eq
  have h2 := hok'.count_eq
  have h3 := hok'.length_eq
  have hnum : ((fs.added i b).fileMetas i).numBlocks = (fs.fileMetas i).numBlocks + 1 := by
    simp only [FileSystem.added, Function.update_self, FileMeta.added]
  have hsl : ((fs.added i b).fileMetas i).sizeLast = 0 := by
    simp only [FileSystem.added, Function.update_self, FileMeta.added]
  unfold FileMeta.size at h3
  rw [if_neg (by omega), hnum, hsl] at h3
  simp only [blockSize] at h3
  omega

theorem added_written (ha : fs.active = true) {fildes c : Nat} {buf : Nat → Byte}
    (hd : fs.descriptors fildes = ⟨i, c⟩) (hc : c = (fs.fileMetas i).length)
    (hfull : (fs.fileMetas i).length = 4096 * (fs.fileMetas i).count) :
    Written fildes i c 0 buf fs (fs.added i b) := by
  obtain ⟨hlen, hcount⟩ := added_length hb hz ho hi hu hfull
  have hfree := free_added hb hz i
  refine
    { active := ha
      owned := added_owned hb hz ho hi hu
      inUse := fun k => ?_
      name := fun k => ?_
      others := fun k hk => Function.update_of_ne hk _ _
      length := by omega
      free := by omega
      descriptors := by
        rw [Nat.add_zero, ← hd, Function.update_eq_self]
        rfl
      bytes := fun k hk huk j hj => ?_
      low := fun _ _ => rfl }
  · by_cases hk : k = i
    · subst hk
      simp only [FileSystem.added, Function.update_self, FileMeta.added]
    · simp only [FileSystem.added, Function.update_of_ne hk]
  · by_cases hk : k = i
    · subst hk
      simp only [FileSystem.added, Function.update_self, FileMeta.added]
    · simp only [FileSystem.added, Function.update_of_ne hk]
  · rw [if_neg (by omega)]
    by_cases hki : k = i
    · subst hki
      have hne : j / 4096 ≠ (fs.fileMetas k).count := by omega
      simp only [FileSystem.byteAt, FileSystem.added, Function.update_self, FileMeta.added, Function.update_of_ne hne]
    · simp only [FileSystem.byteAt, FileSystem.added, Function.update_of_ne hki]

end

/-! ## The loops -/

/-- `fildes` is open on file `i`, with its cursor at `c`. -/
structure Ready (fildes i c : Nat) (fs : FileSystem) : Prop where
  active : fs.active = true
  owned : Owned fs
  bound : fildes < 32
  slot : i < 64
  inUse : (fs.fileMetas i).inUse ≠ 0
  descriptor : fs.descriptors fildes = ⟨i, c⟩

structure Wrote (fildes i c m : Nat) (w w' : Writing) : Prop where
  files : Written fildes i c m w.buf w.fs w'.fs
  buf : w'.buf = fun j => w.buf (j + m)
  nbyte : w'.nbyte = w.nbyte - m
  written : w'.written = w.written + m

section
variable {fildes i c m n : Nat} {w w₁ w₂ : Writing}

theorem Ready.ok (h : Ready fildes i c w.fs) : (w.fs.fileMetas i).Ok := h.owned.ok i h.slot

theorem Wrote.refl (h : Ready fildes i c w.fs) (hc : c ≤ (w.fs.fileMetas i).length) :
    Wrote fildes i c 0 w w :=
  ⟨Written.refl h.active h.owned h.descriptor hc, rfl, rfl, rfl⟩

theorem Wrote.trans (h₁ : Wrote fildes i c m w w₁) (h₂ : Wrote fildes i (c + m) n w₁ w₂)
    (hc : c ≤ (w.fs.fileMetas i).length) : Wrote fildes i c (m + n) w w₂ where
  files := h₁.files.trans (h₁.buf ▸ h₂.files) hc
  buf := by
    rw [h₂.buf, h₁.buf]
    funext j
    simp only [Nat.add_assoc, Nat.add_comm n m]
  nbyte := by
    rw [h₂.nbyte, h₁.nbyte, Nat.sub_sub]
  written := by
    rw [h₂.written, h₁.written, Nat.add_assoc]

theorem Wrote.ready (h : Wrote fildes i c m w w₁) (hr : Ready fildes i c w.fs) : Ready fildes i (c + m) w₁.fs where
  active := h.files.active
  owned := h.files.owned
  bound := hr.bound
  slot := hr.slot
  inUse := by
    rw [h.files.inUse]
    exact hr.inUse
  descriptor := by
    rw [h.files.descriptors, Function.update_self]

theorem chunk_end {k : Nat} (hc : c < 4096 * k) : c + chunk c n ≤ 4096 * k := by
  have := chunk_block c n
  omega

theorem writeChunk_wrote (h : Ready fildes i c w.fs) (hc : c < 4096 * (w.fs.fileMetas i).count)
    (hend : c + chunk c w.nbyte ≤ (w.fs.fileMetas i).length ∨ c = (w.fs.fileMetas i).length)
    (hn : 0 < w.nbyte) (ht : (w.fs.fileMetas i).Tight ∨ c = (w.fs.fileMetas i).length) :
    ∃ w', writeChunk fildes w = some w' ∧ Wrote fildes i c (chunk c w.nbyte) w w' ∧
      (w'.fs.fileMetas i).Tight := by
  have hblock := chunk_block c w.nbyte
  have hmetas := chunked_metas w.fs fildes i c (chunk c w.nbyte) w.buf i
  refine ⟨_, writeChunk_eq h.active h.bound h.descriptor h.slot h.ok hc,
    ⟨chunked_written h.owned h.slot h.inUse hc h.active hblock hend, rfl, rfl, rfl⟩, ?_⟩
  have hcount := h.ok.count_eq
  have hsl := h.ok.sizeLast (by omega)
  have hpos := chunk_pos (c := c) hn
  unfold FileMeta.Tight
  rw [hmetas.2.2.1]
  have hne : ((w.fs.chunked fildes i c (chunk c w.nbyte) w.buf).fileMetas i).sizeLast ≠ 0 := by
    simp only [FileSystem.chunked]
    split
    · rw [Function.update_self]
      simp only
      omega
    · intro hz
      rcases ht with ht | ht
      · have := ht.mp hz
        omega
      · omega
  exact ⟨fun hz => absurd hz hne, fun hz => by omega⟩

theorem Ready.fsGetFilesize {fs : FileSystem} (h : Ready fildes i c fs) :
    fsGetFilesize fs fildes = some ((fs.fileMetas i).length : Int) := by
  rw [fsGetFilesize_file h.active h.bound h.slot (congrArg Descriptor.file h.descriptor), (h.owned.ok i h.slot).length_eq]

theorem writeInside_wrote : ∀ (fuel : Nat) {c : Nat} {w : Writing}, w.nbyte < fuel → Ready fildes i c w.fs →
    c + w.nbyte ≤ (w.fs.fileMetas i).length → (w.fs.fileMetas i).Tight →
      ∃ w', writeInside fildes fuel w = some w' ∧ Wrote fildes i c w.nbyte w w' ∧ (w'.fs.fileMetas i).Tight
  | 0, _, _, hfuel, _, _, _ => absurd hfuel (Nat.not_lt_zero _)
  | fuel + 1, c, w, hfuel, h, hc, ht => by
    unfold writeInside
    rw [descriptor_eq h.bound, h.descriptor, h.fsGetFilesize]
    simp only [Option.bind_eq_bind, Option.bind_some]
    by_cases hn : w.nbyte = 0
    · rw [if_neg (by omega), hn]
      exact ⟨w, rfl, Wrote.refl h (by omega), ht⟩
    · have hle := h.ok.length_le
      have hd := chunk_le c w.nbyte
      have hpos := chunk_pos (c := c) (Nat.pos_of_ne_zero hn)
      obtain ⟨w₁, hw₁, hwrote, ht₁⟩ := writeChunk_wrote h (by omega) (.inl (by omega))
        (Nat.pos_of_ne_zero hn) (.inl ht)
      have hlen := hwrote.files.length
      have hnb := hwrote.nbyte
      obtain ⟨w₂, hw₂, hwrote₂, ht₂⟩ := writeInside_wrote fuel (by omega) (hwrote.ready h) (by omega) ht₁
      rw [if_pos (by omega), hw₁, Option.bind_some]
      refine ⟨w₂, hw₂, ?_, ht₂⟩
      have htrans := hwrote.trans hwrote₂ (by omega)
      rwa [show chunk c w.nbyte + w₁.nbyte = w.nbyte by omega] at htrans

theorem writeInside_end (fuel : Nat) (h : Ready fildes i c w.fs) (hc : c = (w.fs.fileMetas i).length) :
    writeInside fildes (fuel + 1) w = some w := by
  unfold writeInside
  rw [descriptor_eq h.bound, h.descriptor, h.fsGetFilesize]
  simp only [Option.bind_eq_bind, Option.bind_some]
  exact if_neg (by omega)

theorem FileMeta.Ok.full_iff {f : FileMeta} (h : f.Ok) :
    f.sizeLast = blockSize ∨ f.numBlocks = 0 ↔ f.length = 4096 * f.count := by
  have h1 := h.length_eq
  have h2 := h.count_eq
  have h3 := h.sizeLast
  unfold FileMeta.size at h1
  simp only [blockSize] at h1 ⊢
  split at h1 <;> omega

/-- What `writePast` does when it has this much fuel. -/
def Past (fildes i fuel : Nat) : Prop :=
  ∀ (c : Nat) (w : Writing), w.nbyte < fuel → Ready fildes i c w.fs → c = (w.fs.fileMetas i).length →
    (w.fs.fileMetas i).Tight →
      ∃ w', writePast fildes fuel w = some w' ∧ Wrote fildes i c (min w.nbyte (w.fs.room i)) w w' ∧
        (w'.fs.fileMetas i).Tight

theorem past_chunk {fuel : Nat} (ih : Past fildes i fuel) (hfuel : w.nbyte < fuel + 1)
    (h : Ready fildes i c w.fs) (hc : c = (w.fs.fileMetas i).length)
    (hlt : c < 4096 * (w.fs.fileMetas i).count) (hn : 0 < w.nbyte) :
    ∃ w', (writeChunk fildes w).bind (writePast fildes fuel) = some w' ∧
      Wrote fildes i c (min w.nbyte (w.fs.room i)) w w' ∧ (w'.fs.fileMetas i).Tight := by
  have hd := chunk_le c w.nbyte
  have hpos := chunk_pos (c := c) hn
  have hend := chunk_end (n := w.nbyte) hlt
  obtain ⟨w₁, hw₁, hwrote, ht₁⟩ := writeChunk_wrote h hlt (.inr hc) hn (.inr hc)
  have hlen := hwrote.files.length
  have hnb := hwrote.nbyte
  obtain ⟨w₂, hw₂, hwrote₂, ht₂⟩ := ih (c + chunk c w.nbyte) w₁ (by omega) (hwrote.ready h) (by omega) ht₁
  rw [hw₁, Option.bind_some]
  refine ⟨w₂, hw₂, ?_, ht₂⟩
  have htrans := hwrote.trans hwrote₂ (by omega)
  have hroom := hwrote.files.room h.slot hc
  have hdroom : chunk c w.nbyte ≤ w.fs.room i := by
    unfold FileSystem.room
    omega
  rwa [show chunk c w.nbyte + min w₁.nbyte (w₁.fs.room i) = min w.nbyte (w.fs.room i) by omega] at htrans

theorem writePast_wrote : ∀ fuel, Past fildes i fuel
  | 0, _, _, hfuel, _, _, _ => absurd hfuel (Nat.not_lt_zero _)
  | fuel + 1, c, w, hfuel, h, hc, ht => by
    have ih := writePast_wrote fuel
    have hle := h.ok.length_le
    unfold writePast
    by_cases hn : w.nbyte = 0
    · rw [if_neg (by omega), hn, Nat.zero_min]
      exact ⟨w, rfl, Wrote.refl h (by omega), ht⟩
    rw [if_pos (Nat.pos_of_ne_zero hn), descriptor_eq h.bound, h.descriptor]
    simp only [Option.bind_eq_bind, Option.bind_some, fileMeta_eq h.slot]
    by_cases hfull : (w.fs.fileMetas i).length = 4096 * (w.fs.fileMetas i).count
    · rw [if_pos (h.ok.full_iff.mpr hfull)]
      cases hb : findEmptyBlock w.fs with
      | none =>
        have hroom : w.fs.room i = 0 := by
          unfold FileSystem.room
          rw [findEmptyBlock_none h.active hb, hfull]
          omega
        rw [hroom, Nat.min_zero]
        exact ⟨w, rfl, Wrote.refl h (by omega), ht⟩
      | some b =>
        obtain ⟨hlt, hz⟩ := findEmptyBlock_some h.active hb
        simp only [addBlock_eq hlt hz h.owned h.slot h.inUse, Option.bind_some]
        have hadd : Wrote fildes i c 0 w { w with fs := w.fs.added i b } :=
          ⟨added_written hlt hz h.owned h.slot h.inUse h.active h.descriptor hc hfull, rfl, rfl, rfl⟩
        obtain ⟨hlen, hcount⟩ := added_length hlt hz h.owned h.slot h.inUse hfull
        obtain ⟨w', hw', hwrote, ht'⟩ := past_chunk (w := { w with fs := w.fs.added i b }) ih hfuel (hadd.ready h)
          (show c + 0 = ((w.fs.added i b).fileMetas i).length by omega)
          (show c + 0 < 4096 * ((w.fs.added i b).fileMetas i).count by omega) (Nat.pos_of_ne_zero hn)
        refine ⟨w', hw', ?_, ht'⟩
        have htrans := hadd.trans hwrote (by omega)
        rwa [hadd.files.room h.slot hc, Nat.zero_add] at htrans
    · rw [if_neg fun hor => hfull (h.ok.full_iff.mp hor)]
      exact past_chunk ih hfuel h hc (by omega) (Nat.pos_of_ne_zero hn)

end

theorem fsWrite_of_wrote {fildes i c n m : Nat} {fs : FileSystem} {buf : Nat → Byte} {heap : Block} (heap' : Block)
    {w₁ w₂ : Writing} (h : Ready fildes i c fs) (hw₁ : writeInside fildes (n + 1) ⟨fs, heap, buf, n, 0⟩ = some w₁)
    (hw₂ : writePast fildes (w₁.nbyte + 1) w₁ = some w₂) (hwrote : Wrote fildes i c m ⟨fs, heap, buf, n, 0⟩ w₂) :
    fsWrite heap heap' fs fildes buf n = (saveFileMeta heap' w₂.fs i).map fun fs' => (fs', (m : Int)) := by
  have hready := hwrote.ready h
  unfold fsWrite
  rw [if_pos h.active, hw₁]
  simp only [Option.bind_eq_bind, Option.bind_some]
  rw [hw₂]
  simp only [Option.bind_some, descriptor_eq h.bound, hready.descriptor, hwrote.written, Nat.zero_add]
  cases saveFileMeta heap' w₂.fs i <;> rfl

/-- How many bytes a write of `n` bytes at `c` writes to file `i`. -/
def FileSystem.writable (fs : FileSystem) (i c n : Nat) : Nat :=
  if c + n ≤ (fs.fileMetas i).length then n else min n (fs.room i)

theorem fsWrite_eq {fildes i c n : Nat} {fs : FileSystem} (buf : Nat → Byte) (heap heap' : Block)
    (h : Ready fildes i c fs) (hc : c = (fs.fileMetas i).length ∨ c + n ≤ (fs.fileMetas i).length)
    (ht : (fs.fileMetas i).Tight) :
    ∃ fs₁, Written fildes i c (fs.writable i c n) buf fs fs₁ ∧ (fs₁.fileMetas i).Tight ∧
      fsWrite heap heap' fs fildes buf n = (saveFileMeta heap' fs₁ i).map fun fs' => (fs', (fs.writable i c n : Int)) := by
  have hsplit : ∃ w₁ w₂ : Writing, writeInside fildes (n + 1) ⟨fs, heap, buf, n, 0⟩ = some w₁ ∧
      writePast fildes (w₁.nbyte + 1) w₁ = some w₂ ∧
      Wrote fildes i c (fs.writable i c n) ⟨fs, heap, buf, n, 0⟩ w₂ ∧ (w₂.fs.fileMetas i).Tight := by
    unfold FileSystem.writable
    by_cases hle : c + n ≤ (fs.fileMetas i).length
    · obtain ⟨w₁, hw₁, hwrote, ht₁⟩ := writeInside_wrote (w := ⟨fs, heap, buf, n, 0⟩) (n + 1)
        (Nat.lt_succ_self n) h hle ht
      have hz : w₁.nbyte = 0 := by simpa using hwrote.nbyte
      rw [if_pos hle]
      refine ⟨w₁, w₁, hw₁, ?_, hwrote, ht₁⟩
      unfold writePast
      exact if_neg (by omega)
    · have hend : c = (fs.fileMetas i).length := by omega
      obtain ⟨w₂, hw₂, hwrote, ht₂⟩ := writePast_wrote (n + 1) c ⟨fs, heap, buf, n, 0⟩
        (Nat.lt_succ_self n) h hend ht
      rw [if_neg hle]
      exact ⟨_, w₂, writeInside_end n h hend, hw₂, hwrote, ht₂⟩
  obtain ⟨w₁, w₂, hw₁, hw₂, hwrote, ht₂⟩ := hsplit
  exact ⟨w₂.fs, hwrote.files, ht₂, fsWrite_of_wrote heap' h hw₁ hw₂ hwrote⟩

end OsLabs.Fs
