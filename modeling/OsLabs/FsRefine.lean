import OsLabs.ByteFiles
import OsLabs.FsOwn

/-!
# One session refines files of bytes

Along every run of a session the return values and the bytes that are read are
those of `ByteFiles`. A slot in use stands for its name up to NUL and the bytes
of its blocks; a descriptor for the slot and the cursor it holds.
-/

namespace OsLabs.Fs

/-! ## Abstraction -/

def FileSystem.byteFile (fs : FileSystem) (i : Nat) : Option ByteFile :=
  if (fs.fileMetas i).inUse ≠ 0 then
    some ⟨nameKey (fs.fileMetas i).name, bytes (fs.byteAt i) (fs.fileMetas i).length⟩
  else none

def Descriptor.slot (desc : Descriptor) : Option (Nat × Nat) :=
  if desc.file = -1 then none else some (desc.file.toNat, desc.cursor.toNat)

/-- `a` shows the files and descriptors of `fs`. -/
structure Shows (a : ByteFiles) (fs : FileSystem) : Prop where
  files : ∀ i < 64, a.files i = fs.byteFile i
  descriptors : ∀ d < 32, a.descriptors d = (fs.descriptors d).slot

structure Refines (a : ByteFiles) (fs : FileSystem) : Prop extends Shows a fs where
  session : Session fs
  linked : Linked fs

theorem byteFile_inUse {fs : FileSystem} {i : Nat} (hu : (fs.fileMetas i).inUse ≠ 0) :
    fs.byteFile i = some ⟨nameKey (fs.fileMetas i).name, bytes (fs.byteAt i) (fs.fileMetas i).length⟩ := if_pos hu

theorem byteFile_unused {fs : FileSystem} {i : Nat} (hu : (fs.fileMetas i).inUse = 0) :
    fs.byteFile i = none :=
  if_neg (not_not_intro hu)

theorem byteFile_congr {fs fs' : FileSystem} {i : Nat} (hm : fs'.fileMetas i = fs.fileMetas i)
    (hb : (fs.fileMetas i).inUse ≠ 0 → ∀ j < (fs.fileMetas i).length, fs'.byteAt i j = fs.byteAt i j) :
    fs'.byteFile i = fs.byteFile i := by
  by_cases hu : (fs.fileMetas i).inUse = 0
  · rw [byteFile_unused hu, byteFile_unused (hm ▸ hu)]
  · rw [byteFile_inUse hu, byteFile_inUse (hm ▸ hu), hm, bytes_congr (hb hu)]

/-! ## Space -/

theorem FileMeta.Ok.count_eq_blocksFor {f : FileMeta} (h : f.Ok) (ht : f.Tight) :
    f.count = blocksFor f.length := by
  have h1 := h.length_eq
  have h2 := h.count_eq
  have h3 := h.sizeLast
  unfold FileMeta.Tight at ht
  unfold FileMeta.size at h1
  unfold blocksFor
  simp only [blockSize] at h1
  split at h1
  · omega
  · have hne : f.sizeLast ≠ 0 := fun hz => by
      have := ht.mp hz
      contradiction
    omega

section
variable {a : ByteFiles} {fs : FileSystem} (h : Refines a fs)
include h

theorem Refines.used {i : Nat} (hi : i < 64) : a.used i = fs.inUseCount i := by
  unfold ByteFiles.used FileSystem.inUseCount
  rw [h.files i hi]
  by_cases hu : (fs.fileMetas i).inUse = 0
  · rw [byteFile_unused hu, if_neg (not_not_intro hu)]
  · rw [byteFile_inUse hu, if_pos hu, (h.session.owned.ok i hi).count_eq_blocksFor (h.session.tight i hi)]
    exact congrArg blocksFor (bytes_length _ _)

theorem Refines.free : a.free = fs.free := by
  have hfree := h.session.owned.free_add
  have hsum := Finset.sum_congr (rfl : Finset.range 64 = Finset.range 64) fun i hi => h.used (Finset.mem_range.mp hi)
  unfold ByteFiles.free
  simp only [numFiles]
  omega

/-! ## Calls -/

theorem Refines.opened {d : Nat} (ho : IsOpen fs d) :
    ∃ i c : Nat, d < 32 ∧ i < 64 ∧ fs.descriptors d = ⟨i, c⟩ ∧ (fs.fileMetas i).inUse ≠ 0 ∧
      fs.opened d = fs.fileMetas i ∧ a.descriptors d = some (i, c) ∧
      a.files i = some ⟨nameKey (fs.fileMetas i).name, bytes (fs.byteAt i) (fs.fileMetas i).length⟩ := by
  obtain ⟨i, c, hi, hd, hopened⟩ := h.session.opened ho
  have hu : (fs.fileMetas i).inUse ≠ 0 := hopened ▸ h.linked d ho.1 ho.2
  refine ⟨i, c, ho.1, hi, hd, hu, hopened, ?_, ?_⟩
  · rw [h.descriptors d ho.1, hd]
    unfold Descriptor.slot
    rw [if_neg (by simp only; omega)]
    rfl
  · rw [h.files i hi, byteFile_inUse hu]

omit h in
theorem slot_open (i c : Nat) : (⟨i, c⟩ : Descriptor).slot = some (i, c) := by
  unfold Descriptor.slot
  rw [if_neg (by simp only; omega)]
  rfl

omit h in
theorem slot_closed (x : Int) : (⟨-1, x⟩ : Descriptor).slot = none := if_pos rfl

theorem Refines.setDescriptor (d : Nat) (desc : Descriptor) :
    Shows (a.setDescriptor d desc.slot) (fs.setDescriptor d desc) where
  files := h.files
  descriptors e he := by
    unfold ByteFiles.setDescriptor FileSystem.setDescriptor
    by_cases hed : e = d
    · subst hed
      simp only [Function.update_self]
    · simp only [Function.update_of_ne hed]
      exact h.descriptors e he

theorem open_shows (name : Nat → Byte) :
    Shows (a.openFile name).1 (fsOpen fs name).1 ∧ (a.openFile name).2 = (fsOpen fs name).2 := by
  have hfile : firstIndex (fun i => (a.files i).any fun f => f.name = nameKey name) numFiles =
      firstIndex (fun i => (fs.fileMetas i).inUse != 0 && strncmpEq nameLen (fs.fileMetas i).name name) numFiles := by
    apply firstIndex_congr
    intro i hi
    rw [h.files i hi]
    by_cases hu : (fs.fileMetas i).inUse = 0
    · rw [byteFile_unused hu, Option.any_none, bne_eq_false_iff_eq.mpr hu, Bool.false_and]
    · rw [byteFile_inUse hu, Option.any_some, bne_iff_ne.mpr hu, Bool.true_and, Bool.eq_iff_iff, strncmpEq_iff,
        decide_eq_true_eq]
      rfl
  have hdesc : firstIndex (fun d => (a.descriptors d).isNone) openFiles =
      firstIndex (fun i => (fs.descriptors i).file == -1) openFiles := by
    apply firstIndex_congr
    intro d hd
    rw [h.descriptors d hd]
    unfold Descriptor.slot
    by_cases hclosed : (fs.descriptors d).file = -1
    · rw [if_pos hclosed, beq_iff_eq.mpr hclosed, Option.isNone_none]
    · rw [if_neg hclosed, beq_eq_false_iff_ne.mpr hclosed, Option.isNone_some]
  unfold ByteFiles.openFile fsOpen
  rw [if_pos h.session.active, hfile, hdesc]
  cases firstIndex (fun i => (fs.fileMetas i).inUse != 0 && strncmpEq nameLen (fs.fileMetas i).name name) numFiles with
  | none => exact ⟨h.toShows, rfl⟩
  | some i =>
    cases firstIndex (fun i => (fs.descriptors i).file == -1) openFiles with
    | none => exact ⟨h.toShows, rfl⟩
    | some d =>
      have hset := h.setDescriptor d ⟨i, (0 : Nat)⟩
      rw [slot_open] at hset
      exact ⟨hset, rfl⟩

theorem create_shows (heap : Block) (name : Nat → Byte) :
    ∃ fs', fsCreate heap fs name = some (fs', (a.createFile name).2) ∧ Shows (a.createFile name).1 fs' := by
  have hfile : firstIndex (fun i => (a.files i).isNone) numFiles =
      firstIndex (fun i => (fs.fileMetas i).inUse == 0) numFiles := by
    apply firstIndex_congr
    intro i hi
    rw [h.files i hi]
    by_cases hu : (fs.fileMetas i).inUse = 0
    · rw [byteFile_unused hu, beq_iff_eq.mpr hu, Option.isNone_none]
    · rw [byteFile_inUse hu, beq_eq_false_iff_ne.mpr hu, Option.isNone_some]
  unfold ByteFiles.createFile
  rw [hfile]
  rcases fsCreate_eq h.session heap name with ⟨heq, hnone⟩ | ⟨i, fs', hsome, heq, _, hd, _, hm, hbytes⟩
  · rw [hnone]
    exact ⟨fs, heq, h.toShows⟩
  · rw [hsome]
    refine ⟨fs', heq, ?_, ?_⟩
    · intro k hk
      by_cases hki : k = i
      · subst hki
        have hself : fs'.fileMetas k = (fs.fileMetas k).created name := by rw [hm, Function.update_self]
        have hname : bytes ((fs.fileMetas k).created name).name nameLen = bytes name nameLen :=
          bytes_congr fun j hj => if_pos ⟨Nat.zero_le j, by omega⟩
        have hkey : nameKey ((fs.fileMetas k).created name).name = nameKey name := by
          unfold nameKey
          rw [hname]
        have hfile : fs'.byteFile k = some ⟨nameKey name, []⟩ := by
          rw [byteFile_inUse (hself ▸ (by decide : (1 : Byte) ≠ 0)), hself, hkey]
          rfl
        rw [hfile]
        exact Function.update_self _ _ _
      · have hsame : fs'.fileMetas k = fs.fileMetas k := by rw [hm, Function.update_of_ne hki]
        rw [byteFile_congr hsame (hbytes k hk hki)]
        exact (Function.update_of_ne hki _ _).trans (h.files k hk)
    · intro d hd32
      rw [hd]
      exact h.descriptors d hd32

theorem fitting_eq {i c n : Nat} (hi : i < 64)
    (hn : c = (fs.fileMetas i).length ∨ c + n ≤ (fs.fileMetas i).length) :
    a.fitting c ⟨nameKey (fs.fileMetas i).name, bytes (fs.byteAt i) (fs.fileMetas i).length⟩ n = fs.writable i c n := by
  have hle := (h.session.owned.ok i hi).length_le
  unfold ByteFiles.fitting FileSystem.writable FileSystem.room
  simp only [bytes_length]
  rw [h.free, ← (h.session.owned.ok i hi).count_eq_blocksFor (h.session.tight i hi)]
  split <;> omega

theorem write_shows {d i c m : Nat} {buf : Nat → Byte} {fs₁ fs' : FileSystem} (hu : (fs.fileMetas i).inUse ≠ 0)
    (hc : c ≤ (fs.fileMetas i).length) (hw : Written d i c m buf fs fs₁) (hm : fs'.fileMetas = fs₁.fileMetas)
    (hd : fs'.descriptors = fs₁.descriptors)
    (hb : ∀ k < 64, (fs₁.fileMetas k).inUse ≠ 0 → ∀ j < (fs₁.fileMetas k).length, fs'.byteAt k j = fs₁.byteAt k j) :
    Shows (a.writeFile d i c ⟨nameKey (fs.fileMetas i).name, bytes (fs.byteAt i) (fs.fileMetas i).length⟩
      (bytes buf m)) fs' where
  files k hk := by
    by_cases hki : k = i
    · subst hki
      have huk : (fs₁.fileMetas k).inUse ≠ 0 := by rwa [hw.inUse]
      have hcontent : bytes (fs'.byteAt k) (fs₁.fileMetas k).length =
          overwrite (bytes (fs.byteAt k) (fs.fileMetas k).length) c (bytes buf m) := by
        rw [hw.length]
        apply bytes_overwrite hc
        intro j hj
        rw [← hw.length] at hj
        rw [hb k hk huk j hj, hw.bytes k hk huk j hj]
        simp only [true_and]
      have hfile : fs'.byteFile k =
          some ⟨nameKey (fs.fileMetas k).name, overwrite (bytes (fs.byteAt k) (fs.fileMetas k).length) c (bytes buf m)⟩ := by
        rw [byteFile_inUse (hm ▸ huk), hm, hw.name, hcontent]
      rw [hfile]
      exact Function.update_self _ _ _
    · have hsame : fs'.fileMetas k = fs.fileMetas k := by rw [hm, hw.others k hki]
      have hfile : fs'.byteFile k = fs.byteFile k := by
        apply byteFile_congr hsame
        intro huk j hj
        rw [← hw.others k hki] at huk hj
        rw [hb k hk huk j hj, hw.bytes k hk huk j hj, if_neg fun hand => hki hand.1]
      rw [hfile]
      exact (Function.update_of_ne hki _ _).trans (h.files k hk)
  descriptors e he := by
    unfold ByteFiles.writeFile ByteFiles.setDescriptor
    rw [hd, hw.descriptors, bytes_length]
    by_cases hed : e = d
    · subst hed
      rw [Function.update_self, slot_open]
      exact Function.update_self _ _ _
    · rw [Function.update_of_ne hed, ← h.descriptors e he]
      exact Function.update_of_ne hed _ _

end

/-- The calls of one session, on open descriptors. -/
def InSession (fs : FileSystem) : Call → Prop
  | .fsOpen _ | .fsCreate _ _ => True
  | .fsClose fildes | .fsRead _ fildes _ _ | .fsGetFilesize fildes | .fsLseek fildes _ => IsOpen fs fildes
  | .fsWrite _ _ fildes _ nbyte => IsOpen fs fildes ∧ Fits fs fildes nbyte
  | .mount _ | .umount | .fsDelete _ _ | .fsTruncate _ _ _ => False

instance (fs : FileSystem) : ∀ c, Decidable (InSession fs c)
  | .fsOpen _ | .fsCreate _ _ => .isTrue trivial
  | .fsClose fildes | .fsRead _ fildes _ _ | .fsGetFilesize fildes
  | .fsLseek fildes _ => inferInstanceAs (Decidable (IsOpen fs fildes))
  | .fsWrite _ _ fildes _ nbyte => inferInstanceAs (Decidable (IsOpen fs fildes ∧ Fits fs fildes nbyte))
  | .mount _ | .umount | .fsDelete _ _ | .fsTruncate _ _ _ => .isFalse id

theorem inSession_allowed {fs : FileSystem} {c : Call} (h : InSession fs c) : Allowed fs c := by
  cases c with
  | fsOpen name => trivial
  | fsCreate heap name => trivial
  | fsWrite heap heap' d buf n => exact h
  | fsClose d => exact h.1
  | fsRead heap d buf n => exact h.1
  | fsGetFilesize d => exact h.1
  | fsLseek d offset => exact h.1
  | fsDelete heap name => exact absurd h id
  | mount junk => exact h
  | umount => exact h
  | fsTruncate heap d length => exact h

theorem call_shows {a : ByteFiles} {fs : FileSystem} {c : Call} (h : Refines a fs) (hc : InSession fs c) :
    ∃ a' fs' r, a.call c = some (a', r) ∧ call fs c = some (fs', r) ∧ Shows a' fs' := by
  cases c with
  | fsOpen name =>
    obtain ⟨hshows, hr⟩ := open_shows h name
    refine ⟨(a.openFile name).1, (fsOpen fs name).1, ((a.openFile name).2, []), rfl, ?_, hshows⟩
    rw [hr]
    rfl
  | fsCreate heap name =>
    obtain ⟨fs', heq, hshows⟩ := create_shows h heap name
    exact ⟨_, fs', _, rfl, congrArg (Option.map _) heq, hshows⟩
  | fsClose d =>
    obtain ⟨i, c, hd, _, hdesc, _, _, hda, _⟩ := h.opened hc
    have hclose := fsClose_eq h.session hd
    rw [if_neg hc.2] at hclose
    have hset := h.setDescriptor d ⟨-1, (fs.descriptors d).cursor⟩
    rw [slot_closed] at hset
    refine ⟨a.setDescriptor d none, _, (0, []), ?_, congrArg (Option.map _) hclose, hset⟩
    simp only [ByteFiles.call, hda, Option.bind_eq_bind, Option.bind_some]
  | fsLseek d offset =>
    obtain ⟨i, c, hd, hi, hdesc, _, _, hda, hfa⟩ := h.opened hc
    have hlseek := fsLseek_eq h.session hd hi hdesc offset
    simp only [ByteFiles.call, hda, Option.bind_eq_bind, Option.bind_some, hfa, bytes_length]
    split
    · rename_i hout
      rw [if_pos hout] at hlseek
      exact ⟨_, _, _, rfl, congrArg (Option.map _) hlseek, h.toShows⟩
    · rename_i hin
      rw [if_neg hin] at hlseek
      exact ⟨_, _, _, rfl, congrArg (Option.map _) hlseek, slot_open i _ ▸ h.setDescriptor d ⟨i, offset.toNat⟩⟩
  | fsGetFilesize d =>
    obtain ⟨i, c, hd, hi, hdesc, _, _, hda, hfa⟩ := h.opened hc
    simp only [ByteFiles.call, hda, Option.bind_eq_bind, Option.bind_some, hfa, bytes_length]
    exact ⟨_, _, _, rfl, congrArg (Option.map _) (fsGetFilesize_eq h.session hd hi hdesc), h.toShows⟩
  | fsRead heap d buf n =>
    obtain ⟨i, c, hd, hi, hdesc, _, _, hda, hfa⟩ := h.opened hc
    have hread := fsRead_eq h.session heap buf n hd hi hdesc
    have hbytes : bytes (memcpy buf 0 (fun j => fs.byteAt i (c + j)) (min n ((fs.fileMetas i).length - c)))
        (min n ((fs.fileMetas i).length - c)) =
          bytes (fun j => fs.byteAt i (c + j)) (min n ((fs.fileMetas i).length - c)) :=
      bytes_congr fun j hj => if_pos ⟨Nat.zero_le j, by omega⟩
    simp only [ByteFiles.call, ByteFiles.readFile, hda, Option.bind_eq_bind, Option.bind_some, hfa, bytes_drop_take,
      bytes_length]
    refine ⟨_, _, _, rfl, ?_, slot_open i _ ▸ h.setDescriptor d _⟩
    rw [← hbytes]
    exact congrArg (Option.map _) hread
  | fsWrite heap heap' d buf n =>
    obtain ⟨i, c, hd, hi, hdesc, hu, hopened, hda, hfa⟩ := h.opened hc.1
    have hfits := h.session.fits hi hdesc hopened hc.2
    obtain ⟨fs₁, hwritten, _, _, heq⟩ := fsWrite_session h.session buf heap heap' (h.session.ready hd hi hdesc hu) hfits
    simp only [ByteFiles.call, hda, Option.bind_eq_bind, Option.bind_some, hfa, fitting_eq h hi hfits]
    exact ⟨_, _, _, rfl, congrArg (Option.map _) heq, write_shows h hu (by omega) hwritten rfl rfl
      fun k hk huk j hj => byteAt_saved heap' hwritten.owned hi hk huk hj⟩
  | fsDelete heap name => exact absurd hc id
  | mount junk => exact absurd hc id
  | umount => exact absurd hc id
  | fsTruncate heap d length => exact absurd hc id

theorem call_refines {a : ByteFiles} {fs : FileSystem} {c : Call} (h : Refines a fs) (hc : InSession fs c) :
    ∃ a' fs' r, a.call c = some (a', r) ∧ call fs c = some (fs', r) ∧ Refines a' fs' := by
  obtain ⟨a', fs', r, ha, heq, hshows⟩ := call_shows h hc
  have hallowed := inSession_allowed hc
  obtain ⟨fs'', r', heq', hs, hl⟩ := session_step h.session (allowed_careful h.linked hallowed)
  rw [heq] at heq'
  cases heq'
  exact ⟨a', fs', r, ha, heq, { toShows := hshows, session := hs, linked := hl h.linked hallowed }⟩

theorem started_refines (junk : Nat → Nat → Int) (fs : FileSystem) : Refines ByteFiles.empty (started junk fs) where
  session := (started_session junk fs).1
  linked := (started_session junk fs).2
  files _ _ := (byteFile_unused rfl).symm
  descriptors _ _ := rfl

/-- A session that only uses valid arguments answers as the byte files do, also when the disk is full and a write is cut. -/
theorem session_refines_byte_files (junk : Nat → Nat → Int) (fs : FileSystem) (es : List Call)
    (hg : Guarded call InSession (started junk fs) es) :
    ∃ a t tr, run ByteFiles.call ByteFiles.empty es = some (a, tr) ∧ run call (started junk fs) es = some (t, tr) := by
  have hstep : ∀ a s c, Refines a s → InSession s c →
      ∃ a' s' r, a.call c = some (a', r) ∧ call s c = some (s', r) ∧ Refines a' s' :=
    fun _ _ _ => call_refines
  obtain ⟨a, t, tr, ha, ht, _⟩ := run_sim hstep (started_refines junk fs) hg
  exact ⟨a, t, tr, ha, ht⟩

/-- A file of two blocks, less than two and more than one of them written, and read back over the boundary. -/
def twoBlockRun : List Call :=
  [.fsCreate (fun _ => 0) fun _ => 65, .fsOpen fun _ => 65, .fsWrite (fun _ => 0) (fun _ => 0) 0 (fun j => BitVec.ofNat 8 j) 5000, .fsLseek 0 4095,
    .fsRead (fun _ => 0) 0 (fun _ => 0) 3, .fsGetFilesize 0, .fsClose 0]

theorem session_refines_byte_files_two :
    ∃ a t tr, run ByteFiles.call ByteFiles.empty twoBlockRun = some (a, tr) ∧
      run call (started (fun _ _ => 0) unmounted) twoBlockRun = some (t, tr) :=
  session_refines_byte_files (fun _ _ => 0) unmounted twoBlockRun (by decide +kernel)

end OsLabs.Fs
