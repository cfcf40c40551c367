import OsLabs.FsCodec
import OsLabs.FsFree
import OsLabs.FsWrite

/-!
# A session

`Session` holds from `mount_fs` to `umount_fs`: every block has one owner, the
metadata on the disk are those in memory, and block 0 is still zero. Each call
keeps it; what it does beyond that is stated call by call.
-/

namespace OsLabs.Fs

structure Session (fs : FileSystem) : Prop where
  active : fs.active = true
  owned : Owned fs
  tight : ∀ i < 64, (fs.fileMetas i).Tight
  stored : ∀ i < 64, Stored fs.disk i (fs.fileMetas i)
  unsaved : ∀ j < 4096, fs.disk 0 j = 0
  descriptors : ∀ d < 32, ∃ c : Nat, fs.descriptors d = ⟨-1, c⟩ ∨ ∃ i < 64, fs.descriptors d = ⟨(i : Nat), c⟩

section
variable {fs : FileSystem} (h : Session fs)
include h

theorem Session.setDescriptor (d : Nat) {desc : Descriptor} {c : Nat}
    (hd : desc = ⟨-1, c⟩ ∨ ∃ i < 64, desc = ⟨(i : Nat), c⟩) : Session (fs.setDescriptor d desc) where
  active := h.active
  owned := ⟨h.owned.ok, h.owned.inj, h.owned.usage⟩
  tight := h.tight
  stored := h.stored
  unsaved := h.unsaved
  descriptors e he := by
    unfold FileSystem.setDescriptor
    by_cases hde : e = d
    · subst hde
      simp only [Function.update_self]
      exact ⟨c, hd⟩
    · simp only [Function.update_of_ne hde]
      exact h.descriptors e he

theorem Session.saved (fs₁ : FileSystem) {i : Nat} (heap : Block) (hi : i < 64) (ha : fs₁.active = true) (ho : Owned fs₁)
    (hm : ∀ k, k ≠ i → fs₁.fileMetas k = fs.fileMetas k) (ht : (fs₁.fileMetas i).Tight)
    (hlow : ∀ b < 4096, fs₁.disk b = fs.disk b)
    (hd : ∀ d < 32, ∃ c : Nat, fs₁.descriptors d = ⟨-1, c⟩ ∨ ∃ i < 64, fs₁.descriptors d = ⟨(i : Nat), c⟩) :
    Session { fs₁ with disk := savedDisk heap fs₁.disk i (fs₁.fileMetas i) } where
  active := ha
  owned := ⟨ho.ok, ho.inj, ho.usage⟩
  tight k hk := by
    by_cases hki : k = i
    · exact hki ▸ ht
    · rw [hm k hki]
      exact h.tight k hk
  stored k hk := by
    by_cases hki : k = i
    · subst hki
      exact stored_saved (ho.ok k hi).count_le
    · rw [hm k hki]
      exact (h.stored k hk).of_same (h.owned.ok k hk).count_le fun b h1 h2 =>
        (savedDisk_of_ne (by omega)).trans (hlow b (by omega))
  unsaved j hj := by
    have hzero : savedDisk heap fs₁.disk i (fs₁.fileMetas i) 0 = fs.disk 0 :=
      (savedDisk_of_ne (by omega)).trans (hlow 0 (by omega))
    exact (congrFun hzero j).trans (h.unsaved j hj)
  descriptors := hd

omit h in
theorem byteAt_saved (heap : Block) (ho : Owned fs) {i k j : Nat} {f : FileMeta} (hi : i < 64) (hk : k < 64)
    (hu : (fs.fileMetas k).inUse ≠ 0) (hj : j < (fs.fileMetas k).length) :
    ({ fs with disk := savedDisk heap fs.disk i f } : FileSystem).byteAt k j = fs.byteAt k j := by
  have hb : 4096 ≤ (fs.fileMetas k).blocks (j / 4096) ∧ (fs.fileMetas k).blocks (j / 4096) < 8192 :=
    ho.place_bounds (ho.entry hk hu hj)
  have hdata : 3 * i + 3 < ((fs.fileMetas k).blocks (j / 4096)).toNat := by omega
  exact congrFun (savedDisk_of_ne (.inr hdata)) _

/-! ## Descriptors -/

theorem Session.ready {d i c : Nat} (hd : d < 32) (hi : i < 64) (hdesc : fs.descriptors d = ⟨i, c⟩)
    (hu : (fs.fileMetas i).inUse ≠ 0) : Ready d i c fs :=
  ⟨h.active, h.owned, hd, hi, hu, hdesc⟩

omit h in
variable (fs) in
theorem fsOpen_eq (name : Nat → Byte) :
    (fsOpen fs name = (fs, -1)) ∨ ∃ i d, i < 64 ∧ d < 32 ∧ (fs.fileMetas i).inUse ≠ 0 ∧
      (fs.descriptors d).file = -1 ∧ fsOpen fs name = (fs.setDescriptor d ⟨i, 0⟩, (d : Int)) := by
  unfold fsOpen
  by_cases ha : fs.active
  · rw [if_pos ha]
    cases hi : firstIndex (fun i => (fs.fileMetas i).inUse != 0 && strncmpEq nameLen (fs.fileMetas i).name name) numFiles with
    | none => exact .inl rfl
    | some i =>
      cases hd : firstIndex (fun i => (fs.descriptors i).file == -1) openFiles with
      | none => exact .inl rfl
      | some d =>
        obtain ⟨hi64, hip, _⟩ := firstIndex_some hi
        obtain ⟨hd32, hdp, _⟩ := firstIndex_some hd
        refine .inr ⟨i, d, hi64, hd32, ?_, by simpa using hdp, rfl⟩
        intro hz
        rw [hz] at hip
        simp at hip
  · rw [if_neg ha]
    exact .inl rfl

theorem fsClose_eq {d : Nat} (hd : d < 32) :
    fsClose fs d = some (if (fs.descriptors d).file = -1 then (fs, -1)
      else (fs.setDescriptor d { fs.descriptors d with file := -1 }, 0)) := by
  unfold fsClose
  rw [if_pos h.active, descriptor_eq hd]
  simp only [Option.bind_eq_bind, Option.bind_some]
  split <;> rfl

theorem fsGetFilesize_eq {d i c : Nat} (hd : d < 32) (hi : i < 64) (hdesc : fs.descriptors d = ⟨i, c⟩) :
    fsGetFilesize fs d = some ((fs.fileMetas i).length : Int) := by
  rw [fsGetFilesize_file h.active hd hi (congrArg Descriptor.file hdesc), (h.owned.ok i hi).length_eq]

omit h in
theorem fsLseek_closed (ha : fs.active = true) {d : Nat} (hd : d < 32) (hdesc : (fs.descriptors d).file = -1)
    (offset : Int) : fsLseek fs d offset = some (fs, -1) := by
  unfold fsLseek
  rw [if_pos ha, descriptor_eq hd, fsGetFilesize_closed ha hd hdesc]
  simp only [Option.bind_eq_bind, Option.bind_some]
  rw [if_pos (.inl hdesc)]

theorem fsLseek_eq {d i c : Nat} (hd : d < 32) (hi : i < 64) (hdesc : fs.descriptors d = ⟨i, c⟩)
    (offset : Int) :
    fsLseek fs d offset = some (if offset < 0 ∨ ((fs.fileMetas i).length : Int) < offset then (fs, -1)
      else (fs.setDescriptor d ⟨i, offset.toNat⟩, 0)) := by
  have hlen := (h.owned.ok i hi).length_le
  have hcount := (h.owned.ok i hi).count_le
  unfold fsLseek
  rw [if_pos h.active, descriptor_eq hd, hdesc, fsGetFilesize_eq h hd hi hdesc]
  simp only [Option.bind_eq_bind, Option.bind_some]
  by_cases hout : offset < 0 ∨ ((fs.fileMetas i).length : Int) < offset
  · rw [if_pos hout, if_pos (.inr hout)]
  · rw [if_neg hout, if_neg (by omega), toInt_of_bounds (by omega) (by omega), Int.toNat_of_nonneg (by omega)]

end

/-! ## Reading -/

section
variable (fs : FileSystem) (d : Nat) (desc desc' : Descriptor)

theorem setDescriptor_fileMetas : (fs.setDescriptor d desc).fileMetas = fs.fileMetas := rfl

theorem setDescriptor_byteAt (i j : Nat) : (fs.setDescriptor d desc).byteAt i j = fs.byteAt i j := rfl

theorem setDescriptor_setDescriptor :
    (fs.setDescriptor d desc).setDescriptor d desc' = fs.setDescriptor d desc' := by
  unfold FileSystem.setDescriptor
  rw [Function.update_idem]

end

theorem memcpy_zero (dst : Nat → Byte) (off : Nat) (src : Nat → Byte) : memcpy dst off src 0 = dst := by
  funext j
  exact if_neg (by omega)

theorem memcpy_memcpy (dst : Nat → Byte) (off m n : Nat) {src src' : Nat → Byte} (h : ∀ j < m, src j = src' j) :
    memcpy (memcpy dst off src m) (off + m) (fun j => src' (m + j)) n = memcpy dst off src' (m + n) := by
  funext j
  unfold memcpy
  by_cases hsnd : off + m ≤ j ∧ j < off + m + n
  · rw [if_pos hsnd, if_pos (by omega)]
    exact congrArg src' (by omega)
  · rw [if_neg hsnd]
    by_cases hfst : off ≤ j ∧ j < off + m
    · rw [if_pos hfst, if_pos (by omega), h _ (by omega)]
    · rw [if_neg hfst, if_neg (by omega)]

theorem read_dist_eq {c n len : Nat} (hlt : c < len) :
    (if n < toSize (min ((blockSize : Int) - (c % 4096 : Nat)) ((len : Int) - c)) then (n : Int)
      else min ((blockSize : Int) - (c % 4096 : Nat)) ((len : Int) - c)) = (chunk c (min n (len - c)) : Nat) := by
  have hmin : min ((blockSize : Int) - (c % 4096 : Nat)) ((len : Int) - c) =
      (min (4096 - c % 4096) (len - c) : Nat) := by
    simp only [blockSize]
    omega
  have hsize := toSize_of_bounds (x := (min (4096 - c % 4096) (len - c) : Nat)) (by omega) (by omega)
  rw [hmin]
  unfold chunk
  split <;> omega

theorem readLoop_eq {fildes i : Nat} (hfd : fildes < 32) (hi : i < 64) : ∀ (fuel : Nat) {c : Nat} {r : Reading},
    r.nbyte < fuel → r.fs.active = true → (r.fs.fileMetas i).Ok → r.fs.descriptors fildes = ⟨i, c⟩ →
      ∃ data, readLoop fildes fuel r = some
        { fs := r.fs.setDescriptor fildes ⟨i, (c + min r.nbyte ((r.fs.fileMetas i).length - c) : Nat)⟩
          data := data
          buf := memcpy r.buf r.read (fun j => r.fs.byteAt i (c + j))
            (min r.nbyte ((r.fs.fileMetas i).length - c))
          nbyte := r.nbyte - min r.nbyte ((r.fs.fileMetas i).length - c)
          read := r.read + min r.nbyte ((r.fs.fileMetas i).length - c) }
  | 0, _, _, hfuel, _, _, _ => absurd hfuel (Nat.not_lt_zero _)
  | fuel + 1, c, r, hfuel, ha, hok, hd => by
    have hsize : fsGetFilesize r.fs fildes = some ((r.fs.fileMetas i).length : Int) := by
      rw [fsGetFilesize_file ha hfd hi (congrArg Descriptor.file hd), hok.length_eq]
    unfold readLoop
    rw [descriptor_eq hfd, hd, hsize]
    simp only [Option.bind_eq_bind, Option.bind_some]
    by_cases hgo : c < (r.fs.fileMetas i).length ∧ 0 < r.nbyte
    · have hle := hok.length_le
      have hcount := hok.count_le
      have hb := hok.block (k := c / 4096) (by omega)
      have hk : c / 4096 < 4096 := by omega
      have hpos := chunk_pos (c := c) (n := min r.nbyte ((r.fs.fileMetas i).length - c)) (by omega)
      have hd' := chunk_le c (min r.nbyte ((r.fs.fileMetas i).length - c))
      have hblock := chunk_block c (min r.nbyte ((r.fs.fileMetas i).length - c))
      rw [if_pos (by omega), offset_eq, read_dist_eq hgo.1, block_eq, fileMeta_eq hi, Option.bind_some, blockAt_eq _ hk,
        Option.bind_some, blockRead_eq ha (by omega)]
      unfold moveCursor
      simp only [cursor_add (show c < 16777216 by omega), Int.toNat_natCast]
      generalize hm : min r.nbyte ((r.fs.fileMetas i).length - c) = m at *
      obtain ⟨data, hloop⟩ := readLoop_eq hfd hi fuel
        (r := { fs := r.fs.setDescriptor fildes ⟨i, (c + chunk c m : Nat)⟩
                data := r.fs.disk ((r.fs.fileMetas i).blocks (c / 4096)).toNat
                buf := memcpy r.buf r.read
                  (fun j => r.fs.disk ((r.fs.fileMetas i).blocks (c / 4096)).toNat (j + c % 4096)) (chunk c m)
                nbyte := r.nbyte - chunk c m
                read := r.read + chunk c m })
        (by simp only; omega) ha hok (Function.update_self _ _ _)
      refine ⟨data, hloop.trans (congrArg some ?_)⟩
      have hrest : min (r.nbyte - chunk c m) ((r.fs.fileMetas i).length - (c + chunk c m)) = m - chunk c m := by
        omega
      have hdata : ∀ j < chunk c m,
          r.fs.disk ((r.fs.fileMetas i).blocks (c / 4096)).toNat (j + c % 4096) = r.fs.byteAt i (c + j) := by
        intro j hj
        unfold FileSystem.byteAt
        rw [show (c + j) / 4096 = c / 4096 by omega, show (c + j) % 4096 = j + c % 4096 by omega]
      have hbuf := memcpy_memcpy r.buf r.read (chunk c m) (m - chunk c m) hdata
      simp only [setDescriptor_fileMetas, setDescriptor_byteAt, setDescriptor_setDescriptor, hrest, Nat.add_assoc] at hbuf ⊢
      rw [hbuf, show chunk c m + (m - chunk c m) = m by omega, Nat.sub_sub, show chunk c m + (m - chunk c m) = m by omega]
    · have hz : min r.nbyte ((r.fs.fileMetas i).length - c) = 0 := by omega
      refine ⟨r.data, ?_⟩
      rw [if_neg (by omega), hz, Nat.add_zero, ← hd, memcpy_zero]
      unfold FileSystem.setDescriptor
      rw [Function.update_eq_self]
      rfl

theorem fsRead_ok {fs : FileSystem} (ha : fs.active = true) {d i c : Nat} (hf : (fs.fileMetas i).Ok) (heap : Block)
    (buf : Nat → Byte) (n : Nat) (hd : d < 32) (hi : i < 64) (hdesc : fs.descriptors d = ⟨i, c⟩) :
    fsRead heap fs d buf n = some
      (fs.setDescriptor d ⟨i, (c + min n ((fs.fileMetas i).length - c) : Nat)⟩,
        memcpy buf 0 (fun j => fs.byteAt i (c + j)) (min n ((fs.fileMetas i).length - c)),
        ((min n ((fs.fileMetas i).length - c) : Nat) : Int)) := by
  obtain ⟨data, hloop⟩ := readLoop_eq hd hi (n + 1) (r := ⟨fs, heap, buf, n, 0⟩) (Nat.lt_succ_self n) ha hf hdesc
  unfold fsRead
  rw [if_pos ha, hloop]
  simp only [Option.bind_eq_bind, Option.bind_some, Nat.zero_add]

section
variable {fs : FileSystem} (h : Session fs)
include h

theorem fsRead_eq {d i c : Nat} (heap : Block) (buf : Nat → Byte) (n : Nat) (hd : d < 32) (hi : i < 64)
    (hdesc : fs.descriptors d = ⟨i, c⟩) :
    fsRead heap fs d buf n = some
      (fs.setDescriptor d ⟨i, (c + min n ((fs.fileMetas i).length - c) : Nat)⟩,
        memcpy buf 0 (fun j => fs.byteAt i (c + j)) (min n ((fs.fileMetas i).length - c)),
        ((min n ((fs.fileMetas i).length - c) : Nat) : Int)) :=
  fsRead_ok h.active (h.owned.ok i hi) heap buf n hd hi hdesc

omit h in
theorem fsRead_closed (ha : fs.active = true) {d : Nat} (hcur : 0 ≤ (fs.descriptors d).cursor) (heap : Block)
    (buf : Nat → Byte) (n : Nat) (hd : d < 32) (hdesc : (fs.descriptors d).file = -1) :
    fsRead heap fs d buf n = some (fs, buf, 0) := by
  unfold fsRead readLoop
  rw [if_pos ha, descriptor_eq hd, fsGetFilesize_closed ha hd hdesc]
  simp only [Option.bind_eq_bind, Option.bind_some]
  rw [if_neg (by omega)]
  rfl

theorem Session.cursor {d : Nat} (hd : d < 32) : 0 ≤ (fs.descriptors d).cursor := by
  obtain ⟨c, hc⟩ := h.descriptors d hd
  rcases hc with hc | ⟨i, _, hc⟩ <;> rw [hc] <;> exact Int.natCast_nonneg c

end

/-! ## Creating -/

theorem setMeta_self (fs : FileSystem) (i : Nat) (f : FileMeta) : (fs.setMeta i f).fileMetas i = f :=
  Function.update_self _ _ _

theorem setMeta_ne (fs : FileSystem) {i k : Nat} (f : FileMeta) (hk : k ≠ i) :
    (fs.setMeta i f).fileMetas k = fs.fileMetas k := Function.update_of_ne hk _ _

def FileMeta.created (f : FileMeta) (name : Nat → Byte) : FileMeta :=
  { f with inUse := 1, name := memcpy f.name 0 name nameLen, numBlocks := 0, sizeLast := 0 }

theorem created_ok (f : FileMeta) (name : Nat → Byte) :
    (f.created name).Ok ∧ (f.created name).Tight ∧ (f.created name).count = 0 :=
  ⟨⟨le_refl 0, show (0 : Int) ≤ 4096 by decide, fun k hk => absurd hk (by simp only [FileMeta.created]; omega),
    fun hpos => absurd hpos (Int.lt_irrefl 0)⟩, ⟨fun _ => rfl, fun _ => rfl⟩, rfl⟩

theorem created_owned {fs : FileSystem} (h : Owned fs) {i : Nat} (hu : (fs.fileMetas i).inUse = 0) (name : Nat → Byte) :
    Owned (fs.setMeta i ((fs.fileMetas i).created name)) := by
  refine h.congr rfl ?_ ?_ ?_
  · intro p
    unfold FileSystem.Entry
    by_cases hp : p.1 = i
    · rw [hp, setMeta_self, (created_ok _ name).2.2]
      exact ⟨fun he => absurd he.2.2 (Nat.not_lt_zero _), fun he => absurd hu he.2.1⟩
    · rw [setMeta_ne _ _ hp]
  · intro p hp
    have hne : p.1 ≠ i := fun heq => hp.2.1 (heq ▸ hu)
    unfold FileSystem.place
    rw [setMeta_ne _ _ hne]
  · intro k hk
    by_cases hki : k = i
    · rw [hki, setMeta_self]
      exact (created_ok _ name).1
    · rw [setMeta_ne _ _ hki]
      exact h.ok k hk

theorem fsCreate_eq {fs : FileSystem} (h : Session fs) (heap : Block) (name : Nat → Byte) :
    (fsCreate heap fs name = some (fs, -1) ∧ firstIndex (fun i => (fs.fileMetas i).inUse == 0) numFiles = none) ∨
      ∃ i fs', firstIndex (fun i => (fs.fileMetas i).inUse == 0) numFiles = some i ∧
        fsCreate heap fs name = some (fs', 0) ∧ Session fs' ∧ fs'.descriptors = fs.descriptors ∧ fs'.usage = fs.usage ∧
        fs'.fileMetas = Function.update fs.fileMetas i ((fs.fileMetas i).created name) ∧
        ∀ k < 64, k ≠ i → (fs.fileMetas k).inUse ≠ 0 → ∀ j < (fs.fileMetas k).length, fs'.byteAt k j = fs.byteAt k j := by
  unfold fsCreate
  rw [if_pos h.active]
  cases hf : firstIndex (fun i => (fs.fileMetas i).inUse == 0) numFiles with
  | none => exact .inl ⟨rfl, rfl⟩
  | some i =>
    obtain ⟨hi, hu, _⟩ := firstIndex_some hf
    have hz : (fs.fileMetas i).inUse = 0 := by simpa using hu
    have ho := created_owned h.owned hz name
    have htight : ((fs.setMeta i ((fs.fileMetas i).created name)).fileMetas i).Tight := by
      rw [setMeta_self]
      exact (created_ok _ name).2.1
    have hsession := h.saved (fs.setMeta i ((fs.fileMetas i).created name)) heap hi h.active ho
      (fun k hk => setMeta_ne _ _ hk) htight (fun _ _ => rfl) h.descriptors
    refine .inr ⟨i, _, rfl, ?_, hsession, rfl, rfl, rfl, ?_⟩
    · exact congrArg (fun o => o.bind fun fs => some (fs, (0 : Int)))
        (saveFileMeta_eq (fs.setMeta i _) h.active hi)
    · intro k hk hki huk j hj
      have hsame := setMeta_ne fs ((fs.fileMetas i).created name) hki
      have hsaved := byteAt_saved heap ho (f := (fs.setMeta i ((fs.fileMetas i).created name)).fileMetas i) hi hk
        (hsame.symm ▸ huk) (hsame.symm ▸ hj)
      apply hsaved.trans
      unfold FileSystem.byteAt
      rw [hsame]
      rfl

/-! ## Deleting -/

def FileMeta.deleted (f : FileMeta) : FileMeta := { f with inUse := 0 }

/-- The state after the file in slot `i` has been deleted. -/
def FileSystem.deleted (heap : Block) (fs : FileSystem) (i : Nat) : FileSystem :=
  { ({ fs with usage := unuse ((fs.fileMetas i).firstBlocks (fs.fileMetas i).count) fs.usage } : FileSystem).setMeta i
      (fs.fileMetas i).deleted with
    disk := savedDisk heap fs.disk i (fs.fileMetas i).deleted }

section
variable {fs : FileSystem} {heap : Block} {name : Nat → Byte}

variable (fs heap) in
theorem deleted_self (i : Nat) : (fs.deleted heap i).fileMetas i = (fs.fileMetas i).deleted :=
  Function.update_self _ _ _

variable (fs heap) in
theorem deleted_ne {i k : Nat} (hk : k ≠ i) : (fs.deleted heap i).fileMetas k = fs.fileMetas k :=
  Function.update_of_ne hk _ _

theorem fsDelete_none (ha : fs.active = true)
    (hi : firstIndex (fun i => (fs.fileMetas i).inUse != 0) numFiles = none) :
    fsDelete heap fs name = some (fs, -1) := by
  unfold fsDelete
  rw [if_pos ha, hi]

theorem fsDelete_first (ha : fs.active = true) {i : Nat}
    (hi : firstIndex (fun i => (fs.fileMetas i).inUse != 0) numFiles = some i) {x : FileSystem × Int} :
    fsDelete heap fs name = some x ↔ (fs.fileMetas i).ListsData ∧ x = (fs.deleted heap i, 0) := by
  have hi64 := (firstIndex_some hi).1
  have hdata : (∀ k < (fs.fileMetas i).count, k < 4096 ∧ IsData ((fs.fileMetas i).deleted.blocks k)) ↔
      (fs.fileMetas i).ListsData := forall_congr' fun k => by rw [lt_count_iff]; rfl
  unfold fsDelete
  rw [if_pos ha, hi]
  simp only [Option.bind_eq_bind, Option.bind_eq_some_iff]
  constructor
  · intro ⟨usage, hfree, fs₁, hsave, hx⟩
    obtain ⟨hd, rfl⟩ := freeBlocks_iff.mp hfree
    rw [saveFileMeta_eq _ (by exact ha) hi64, setMeta_self] at hsave
    cases hsave
    cases hx
    exact ⟨hdata.mp hd, rfl⟩
  · intro ⟨hd, hx⟩
    refine ⟨_, freeBlocks_iff.mpr ⟨hdata.mpr hd, rfl⟩, _, saveFileMeta_eq _ (by exact ha) hi64, ?_⟩
    rw [setMeta_self, hx]
    rfl

variable (heap) in
theorem deleted_owned (h : Owned fs) {i : Nat} (hi : i < 64) (hu : (fs.fileMetas i).inUse ≠ 0) :
    Owned (fs.deleted heap i) := by
  have hentry : ∀ p, (fs.deleted heap i).Entry p ↔ fs.Entry p ∧ p.1 ≠ i := by
    intro p
    unfold FileSystem.Entry
    by_cases hp : p.1 = i
    · rw [hp, deleted_self]
      exact ⟨fun he => absurd rfl he.2.1, fun he => absurd rfl he.2⟩
    · rw [deleted_ne fs heap hp]
      exact ⟨fun he => ⟨he, hp⟩, And.left⟩
  have hplace : ∀ p, p.1 ≠ i → (fs.deleted heap i).place p = fs.place p := by
    intro p hp
    unfold FileSystem.place
    rw [deleted_ne fs heap hp]
  refine ⟨?_, ?_, ?_⟩
  · intro k hk
    have hok := h.ok k hk
    by_cases hki : k = i
    · rw [hki, deleted_self]
      exact hki ▸ ⟨hok.nonneg, hok.le, hok.blocks, hok.sizeLast⟩
    · rw [deleted_ne fs heap hki]
      exact hok
  · intro p q hp hq heq
    obtain ⟨hp', hpi⟩ := (hentry p).mp hp
    obtain ⟨hq', hqi⟩ := (hentry q).mp hq
    rw [hplace p hpi, hplace q hqi] at heq
    exact h.inj p q hp' hq' heq
  · intro b hb
    refine unuse_firstBlocks.trans ?_
    rw [h.usage b hb]
    constructor
    · intro ⟨⟨p, hp, heq⟩, hfree⟩
      have hpi : p.1 ≠ i := by
        rintro rfl
        exact hfree p.2 hp.2.2 heq
      exact ⟨p, (hentry p).mpr ⟨hp, hpi⟩, (hplace p hpi).trans heq⟩
    · intro ⟨p, hp, heq⟩
      obtain ⟨hp', hpi⟩ := (hentry p).mp hp
      rw [hplace p hpi] at heq
      refine ⟨⟨p, hp', heq⟩, fun k hk hbk => hpi ?_⟩
      have hik : fs.Entry (i, k) := ⟨hi, hu, hk⟩
      rw [h.inj p (i, k) hp' hik (heq.trans hbk.symm)]

end

section
variable {fs : FileSystem} (h : Session fs)
include h

theorem fsDelete_eq (heap : Block) (name : Nat → Byte) :
    (fsDelete heap fs name = some (fs, -1)) ∨
      ∃ i fs', firstIndex (fun i => (fs.fileMetas i).inUse != 0) numFiles = some i ∧
        fsDelete heap fs name = some (fs', 0) ∧ Session fs' ∧ fs'.descriptors = fs.descriptors ∧
        fs'.fileMetas = Function.update fs.fileMetas i (fs.fileMetas i).deleted := by
  cases hf : firstIndex (fun i => (fs.fileMetas i).inUse != 0) numFiles with
  | none => exact .inl (fsDelete_none h.active hf)
  | some i =>
    obtain ⟨hi, hp, _⟩ := firstIndex_some hf
    have hok := h.owned.ok i hi
    have hdata : (fs.fileMetas i).ListsData := by
      intro k hk
      have := hok.le
      exact ⟨by omega, hok.blocks k hk⟩
    have ho := deleted_owned heap h.owned hi (by simpa using hp)
    have htight : ((fs.deleted heap i).fileMetas i).Tight := by
      rw [deleted_self]
      exact h.tight i hi
    have hsession := h.saved
      (({ fs with usage := unuse ((fs.fileMetas i).firstBlocks (fs.fileMetas i).count) fs.usage } : FileSystem).setMeta i
        (fs.fileMetas i).deleted) heap hi h.active ⟨ho.ok, ho.inj, ho.usage⟩ (fun k hk => setMeta_ne _ _ hk) htight
      (fun _ _ => rfl) h.descriptors
    rw [setMeta_self] at hsession
    exact .inr ⟨i, _, rfl, (fsDelete_first h.active hf).mpr ⟨hdata, rfl⟩, hsession, rfl, rfl⟩

/-! ## Writing -/

theorem fsWrite_session {d i c n : Nat} (buf : Nat → Byte) (heap heap' : Block) (hr : Ready d i c fs)
    (hn : c = (fs.fileMetas i).length ∨ c + n ≤ (fs.fileMetas i).length) :
    ∃ fs₁, Written d i c (fs.writable i c n) buf fs fs₁ ∧ (fs₁.fileMetas i).Tight ∧
      Session { fs₁ with disk := savedDisk heap' fs₁.disk i (fs₁.fileMetas i) } ∧
      fsWrite heap heap' fs d buf n =
        some ({ fs₁ with disk := savedDisk heap' fs₁.disk i (fs₁.fileMetas i) }, (fs.writable i c n : Int)) := by
  obtain ⟨fs₁, hwritten, htight, hwrite⟩ := fsWrite_eq buf heap heap' hr hn (h.tight i hr.slot)
  rw [saveFileMeta_eq fs₁ hwritten.active hr.slot] at hwrite
  refine ⟨fs₁, hwritten, htight, ?_, hwrite⟩
  apply h.saved fs₁ heap' hr.slot hwritten.active hwritten.owned hwritten.others htight hwritten.low
  intro e he
  rw [hwritten.descriptors]
  by_cases hed : e = d
  · subst hed
    rw [Function.update_self]
    exact ⟨_, .inr ⟨i, hr.slot, rfl⟩⟩
  · rw [Function.update_of_ne hed]
    exact h.descriptors e he

end

/-! ## Mounting -/

/-- Block 0 is zero, and no file on the disk has a block. -/
structure Blank (disk : Nat → Block) : Prop where
  unsaved : ∀ j < 4096, disk 0 j = 0
  files : ∀ i < 64, ∃ f : FileMeta, Stored disk i f ∧ f.numBlocks = 0 ∧ f.sizeLast = 0

theorem blank_makeFs (fs : FileSystem) : Blank (makeFs fs).disk where
  unsaved _ _ := rfl
  files _ _ := ⟨⟨0, fun _ => 0, 0, 0, fun _ => 0⟩,
    ⟨rfl, fun hu => absurd rfl hu, fun hu => absurd rfl hu, fun hu => absurd rfl hu, fun hu => absurd rfl hu⟩, rfl, rfl⟩

theorem load_blank {disk : Nat → Block} {i : Nat} {f : FileMeta} (junk : Nat → Int) (h : Stored disk i f)
    (hb : f.numBlocks = 0) (hs : f.sizeLast = 0) :
    Stored disk i (loadFileMeta junk disk i) ∧ (loadFileMeta junk disk i).numBlocks = 0 ∧
      (loadFileMeta junk disk i).sizeLast = 0 := by
  by_cases hu : f.inUse = 0
  · obtain ⟨h1, h2, h3⟩ := load_unused junk h hu
    have hz : ¬ (loadFileMeta junk disk i).inUse ≠ 0 := fun hne => hne h1
    exact ⟨⟨by rw [h1, h.inUse, hu], fun hne => absurd hne hz, fun hne => absurd hne hz, fun hne => absurd hne hz,
      fun hne => absurd hne hz⟩, h2, h3⟩
  · have hcount : f.count = 0 := by
      unfold FileMeta.count
      rw [hb]
      rfl
    obtain ⟨h1, h2, h3, h4, _⟩ := load_inUse junk h (by omega) hu
    have hzero : reread 0 = 0 := (reread_iff (le_refl 0) (by decide)).mpr (by decide)
    rw [hb, hzero] at h3
    rw [hs, hzero] at h4
    have hnone : ¬ 0 < (loadFileMeta junk disk i).count := by
      unfold FileMeta.count
      rw [h3]
      exact Nat.lt_irrefl 0
    exact ⟨⟨by rw [h1, h.inUse], fun _ j hj => by rw [h2 j hj, h.name hu j hj], fun _ => by rw [h3, ← hb]; exact h.numBlocks hu,
      fun _ => by rw [h4, ← hs]; exact h.sizeLast hu, fun _ k hk => absurd (Nat.zero_lt_of_lt hk) hnone⟩, h3, h4⟩

theorem mountFs_session (fs : FileSystem) (ha : fs.active = false) (hb : Blank fs.disk)
    (junk : Nat → Nat → Int) : Session (mountFs junk fs).1 := by
  have hload : ∀ i < 64, Stored fs.disk i (loadFileMeta (junk i) fs.disk i) ∧
      (loadFileMeta (junk i) fs.disk i).numBlocks = 0 ∧ (loadFileMeta (junk i) fs.disk i).sizeLast = 0 := by
    intro i hi
    obtain ⟨f, hf, hnb, hsl⟩ := hb.files i hi
    exact load_blank (junk i) hf hnb hsl
  have hok : ∀ i < 64, (loadFileMeta (junk i) fs.disk i).Ok := by
    intro i hi
    obtain ⟨_, h2, _⟩ := hload i hi
    exact ⟨by omega, by omega, fun k hk => by omega, fun hpos => by omega⟩
  unfold mountFs
  rw [if_neg (by rw [ha]; decide)]
  have hentry : ∀ p, ¬ (⟨true, fs.disk, fs.disk 0, fun i => loadFileMeta (junk i) fs.disk i,
      fun _ => ⟨-1, 0⟩⟩ : FileSystem).Entry p := by
    rintro ⟨i, k⟩ ⟨hi, _, hk⟩
    have := (hload i hi).2.1
    simp only [FileMeta.count] at hk
    omega
  exact
    { active := rfl
      owned := ⟨hok, fun p _ hp => absurd hp (hentry p),
        fun b hb' => ⟨fun hne => absurd (hb.unsaved b hb') hne, fun he => he.elim fun p hp => absurd hp.1 (hentry p)⟩⟩
      tight := fun i hi => ⟨fun _ => (hload i hi).2.1, fun _ => (hload i hi).2.2⟩
      stored := fun i hi => (hload i hi).1
      unsaved := hb.unsaved
      descriptors := fun _ _ => ⟨0, .inl rfl⟩ }

end OsLabs.Fs
