import OsLabs.FsCursor

/-!
# The file behind a descriptor

Descriptors refer to slots, and `fs_delete` does not look at them. Beside the
file system, `Ids` numbers the files in the order of their creation, so that a
later file in the same slot has another number.
-/

namespace OsLabs.Fs

/-! ## Numbers for files -/

structure Ids where
  next : Nat
  file : Nat → Nat
  /-- The file that each descriptor was opened on. -/
  opened : Nat → Nat

def Ids.start : Ids := { next := numFiles, file := id, opened := fun _ => 0 }

def Ids.create (g : Ids) (slot : Nat) : Ids :=
  { g with next := g.next + 1, file := Function.update g.file slot g.next }

def Ids.open (g : Ids) (d slot : Nat) : Ids := { g with opened := Function.update g.opened d (g.file slot) }

/-- The numbers after a call that goes from `fs` to `fs'` and returns `r`. -/
def Ids.after (g : Ids) (fs fs' : FileSystem) (r : Int) : Call → Ids
  | .fsCreate _ _ =>
    if r = 0 then ((firstIndex (fun i => (fs.fileMetas i).inUse == 0) numFiles).map g.create).getD g else g
  | .fsOpen _ => if 0 ≤ r then g.open r.toNat (fs'.descriptors r.toNat).file.toNat else g
  | .mount _ | .umount | .fsClose _ | .fsDelete _ _ | .fsRead _ _ _ _ | .fsWrite _ _ _ _ _ | .fsGetFilesize _ | .fsLseek _ _
    | .fsTruncate _ _ _ => g

def numbered : StepFn (FileSystem × Ids) Call (Int × List Byte) := fun s c =>
  (call s.1 c).map fun p => ((p.1, s.2.after s.1 p.1 p.2.1 c), p.2)

/-- Every open descriptor refers to a slot in use with the file that it was opened on. -/
def Denotes (s : FileSystem × Ids) : Prop :=
  ∀ d < openFiles, (s.1.descriptors d).file ≠ -1 → ∃ i : Nat, i < numFiles ∧ (s.1.descriptors d).file = i ∧
    (s.1.fileMetas i).inUse ≠ 0 ∧ s.2.file i = s.2.opened d

/-- A file is deleted only while it is closed. -/
def DeletesClosed (s : FileSystem × Ids) : Call → Prop
  | .fsDelete _ _ => s.1.active = true → Unopened s.1
  | .mount _ | .umount | .fsOpen _ | .fsClose _ | .fsCreate _ _ | .fsRead _ _ _ _ | .fsWrite _ _ _ _ _ | .fsGetFilesize _
    | .fsLseek _ _ | .fsTruncate _ _ _ => True

theorem numbered_some {s s' : FileSystem × Ids} {c : Call} {r : Int × List Byte}
    (h : numbered s c = some (s', r)) : call s.1 c = some (s'.1, r) ∧ s'.2 = s.2.after s.1 s'.1 r.1 c := by
  obtain ⟨⟨fs', q⟩, hcall, heq⟩ := Option.map_eq_some_iff.mp h
  cases heq
  exact ⟨hcall, rfl⟩

section
variable {fs fs' : FileSystem} {g : Ids}

theorem Denotes.same (h : Denotes (fs, g)) (hs : SameFiles fs fs') : Denotes (fs', g) := by
  intro d hd hopen
  rw [hs.file] at hopen
  obtain ⟨i, hi, hfile, hu, hid⟩ := h d hd hopen
  exact ⟨i, hi, (hs.file d).trans hfile, by rwa [hs.inUse], hid⟩

theorem Denotes.open (h : Denotes (fs, g)) {i d : Nat} (hi : i < numFiles) (hu : (fs.fileMetas i).inUse ≠ 0) :
    Denotes (fs.setDescriptor d ⟨i, 0⟩, g.open d i) := by
  intro e he hopen
  by_cases hed : e = d
  · subst hed
    refine ⟨i, hi, ?_, hu, ?_⟩
    · simp [FileSystem.setDescriptor]
    · simp [Ids.open]
  · simp only [FileSystem.setDescriptor, Function.update_of_ne hed] at hopen ⊢
    simpa [Ids.open, Function.update_of_ne hed] using h e he hopen

theorem Denotes.close (h : Denotes (fs, g)) {d : Nat} {c : Int} :
    Denotes (fs.setDescriptor d ⟨-1, c⟩, g) := by
  intro e he hopen
  by_cases hed : e = d
  · subst hed
    simp [FileSystem.setDescriptor] at hopen
  · simp only [FileSystem.setDescriptor, Function.update_of_ne hed] at hopen ⊢
    exact h e he hopen

/-- The slot of a new file was not in use, so that no descriptor refers to it. -/
theorem Denotes.create (h : Denotes (fs, g)) {i : Nat} {f : FileMeta} {disk : Nat → Block}
    (hz : (fs.fileMetas i).inUse = 0) : Denotes ({ fs.setMeta i f with disk := disk }, g.create i) := by
  intro d hd hopen
  obtain ⟨k, hk, hfile, hu, hid⟩ := h d hd hopen
  have hki : k ≠ i := by
    rintro rfl
    exact hu hz
  refine ⟨k, hk, hfile, ?_, ?_⟩
  · simpa [FileSystem.setMeta, hki] using hu
  · simpa [Ids.create, hki] using hid

/-- A deletion leaves the descriptors right if and only if none was open on the file. -/
theorem Denotes.delete_iff (h : Denotes (fs, g)) (heap : Block) {i : Nat} :
    (∀ d < openFiles, (fs.descriptors d).file ≠ i) ↔ Denotes (fs.deleted heap i, g) := by
  constructor
  · intro hun d hd hopen
    obtain ⟨k, hk, hfile, hu, hid⟩ := h d hd hopen
    have hki : k ≠ i := by
      rintro rfl
      exact hun d hd hfile
    refine ⟨k, hk, hfile, ?_, hid⟩
    rw [deleted_ne fs heap hki]
    exact hu
  · intro hden d hd heq
    obtain ⟨k, -, hfile, hu, -⟩ := hden d hd (show (fs.descriptors d).file ≠ -1 by omega)
    obtain rfl : k = i := Int.ofNat_inj.mp (hfile.symm.trans heq)
    rw [deleted_self] at hu
    exact hu rfl

end

/-- Only a deletion of an open file takes a descriptor from its file. -/
theorem denotes_step {s s' : FileSystem × Ids} {c : Call} {r : Int × List Byte} (h : Denotes s)
    (hs : numbered s c = some (s', r)) : DeletesClosed s c ↔ Denotes s' := by
  obtain ⟨fs, g⟩ := s
  obtain ⟨fs', g'⟩ := s'
  obtain ⟨r, bs⟩ := r
  obtain ⟨hcall, hg⟩ := numbered_some hs
  simp only at hcall hg
  subst hg
  -- a call that is not a deletion meets the guard
  have hkeeps : DeletesClosed (fs, g) c → Denotes (fs', g.after fs fs' r c) →
      (DeletesClosed (fs, g) c ↔ Denotes (fs', g.after fs fs' r c)) := fun hd hn => ⟨fun _ => hn, fun _ => hd⟩
  cases c with
  | mount junk =>
    have hfs : fs' = (mountFs junk fs).1 := (congrArg Prod.fst (Option.some.inj hcall)).symm
    refine hkeeps trivial ?_
    rw [show g.after fs fs' r (.mount junk) = g from rfl, hfs]
    unfold mountFs
    split
    · exact h
    · intro d _ hopen
      exact absurd rfl hopen
  | umount =>
    have hum := call_some hcall
    refine hkeeps trivial ?_
    unfold umountFs at hum
    split at hum
    · split at hum
      · cases hum
        exact h
      · cases hum
        exact h
    · cases hum
  | fsOpen name =>
    refine hkeeps trivial ?_
    rcases fsOpen_eq fs name with heq | ⟨i, d, hi, hd, hu, -, heq⟩
    · simp only [call, heq] at hcall
      cases hcall
      exact h
    · simp only [call, heq] at hcall
      cases hcall
      have hafter : g.after fs (fs.setDescriptor d ⟨i, 0⟩) d (.fsOpen name) = g.open d i := by
        simp [Ids.after, FileSystem.setDescriptor]
      simp only [hafter]
      exact h.open hi hu
  | fsClose d =>
    refine hkeeps trivial ?_
    rcases fsClose_some (call_some hcall) with rfl | ⟨-, rfl⟩
    · exact h
    · exact h.close
  | fsCreate heap name =>
    have hcreate := call_some hcall
    refine hkeeps trivial ?_
    rcases fsCreate_some hcreate with ⟨rfl, rfl, -⟩ | ⟨i, disk, hf, rfl, rfl⟩
    · exact h
    · obtain ⟨-, hfree, -⟩ := firstIndex_some hf
      have hafter : ∀ t, g.after fs t 0 (.fsCreate heap name) = g.create i := by
        intro t
        unfold Ids.after
        rw [if_pos rfl, hf]
        rfl
      simp only [hafter]
      exact h.create (by simpa using hfree)
  | fsDelete heap name =>
    rcases fsDelete_some (call_some hcall) with ⟨rfl, hnone⟩ | ⟨i, ha, hf, rfl⟩
    · refine hkeeps (fun ha => ?_) h
      unfold Unopened
      rw [hnone ha]
      trivial
    · rw [show g.after fs _ r (.fsDelete heap name) = g from rfl, ← h.delete_iff heap]
      unfold DeletesClosed Unopened
      simp only [ha, hf, forall_const]
  | fsRead heap d buf n =>
    obtain ⟨buf', hread⟩ := call_read_some hcall
    exact hkeeps trivial (h.same (fsRead_same hread).toSameFiles)
  | fsWrite heap heap' d buf n =>
    have hwrite := call_some hcall
    exact hkeeps trivial (h.same (fsWrite_same hwrite).toSameFiles)
  | fsGetFilesize d =>
    obtain rfl := fsGetFilesize_fs hcall
    exact hkeeps trivial h
  | fsLseek d offset =>
    have hlseek := call_some hcall
    exact hkeeps trivial (h.same (fsLseek_same hlseek).toSameFiles)
  | fsTruncate heap d length =>
    have htruncate := call_some hcall
    exact hkeeps trivial (h.same (fsTruncate_same htruncate).toSameFiles)

/-! ## The blocks behind a descriptor -/

/-- The block that is taken in `s` through `d` is marked as used, and it is a block of the file of `d` and of no other. -/
def OwnBlock (s : FileSystem) (d : Nat) : Prop :=
  let p := ((s.descriptors d).file.toNat, ((s.descriptors d).cursor.tdiv blockSize).toNat)
  s.Entry p ∧ s.usage (s.place p - (diskBlocks / 2 : Nat)).toNat ≠ 0 ∧ ∀ q, s.Entry q → s.place q = s.place p → q = p

/-- What the blocks of the open files need of a call. -/
def SparesBlocks (fs : FileSystem) : Call → Prop
  | .fsOpen _ | .fsClose _ | .fsCreate _ _ | .fsRead _ _ _ _ | .fsGetFilesize _ | .fsLseek _ _ => True
  | .fsDelete _ _ => Unopened fs
  | .fsWrite _ _ fildes _ nbyte => IsOpen fs fildes → (fs.opened fildes).Admits (fs.descriptors fildes).cursor nbyte
  | .fsTruncate _ _ _ | .mount _ | .umount => False

instance (fs : FileSystem) : ∀ c, Decidable (SparesBlocks fs c)
  | .fsOpen _ | .fsClose _ | .fsCreate _ _ | .fsRead _ _ _ _ | .fsGetFilesize _ | .fsLseek _ _ => .isTrue trivial
  | .fsDelete _ _ => inferInstanceAs (Decidable (Unopened fs))
  | .fsWrite _ _ fildes _ nbyte =>
    inferInstanceAs (Decidable (IsOpen fs fildes → (fs.opened fildes).Admits (fs.descriptors fildes).cursor nbyte))
  | .fsTruncate _ _ _ | .mount _ | .umount => .isFalse id

theorem Spot.own {d i : Nat} {fs s : FileSystem} (h : Spot d i fs s) (ho : Owned fs) (hi : i < 64)
    (hu : (fs.fileMetas i).inUse ≠ 0) : OwnBlock s d := by
  obtain ⟨c, hw, hlt⟩ := h
  have hso := hw.owned ho hi hu
  have hcount := (hso.ok i hi).count_eq
  have hentry : s.Entry (i, c / 4096) := ⟨hi, by rwa [hw.inUse], show c / 4096 < (s.fileMetas i).count by omega⟩
  have hplace := hso.place_bounds hentry
  have hdata : ((diskBlocks / 2 : Nat) : Int) = 4096 := rfl
  unfold OwnBlock
  rw [hw.descriptor, block_eq, hdata]
  simp only [Int.toNat_natCast]
  refine ⟨hentry, ?_, fun q hq heq => hso.inj q _ hq hentry heq⟩
  exact (hso.usage _ (by omega)).mpr ⟨_, hentry, by omega⟩

theorem Owned.sameBlocks {fs : FileSystem} (h : Owned fs) (descriptors : Nat → Descriptor) (disk : Nat → Block) :
    Owned { fs with descriptors := descriptors, disk := disk } := ⟨h.ok, h.inj, h.usage⟩

section
variable {fs fs' : FileSystem} (h : Within fs) (ho : Owned fs)
include h ho

omit h in
theorem owned_delete {heap : Block} {name : Nat → Byte} {r : Int}
    (hs : fsDelete heap fs name = some (fs', r)) : Owned fs' := by
  rcases fsDelete_some hs with ⟨rfl, -⟩ | ⟨i, -, hf, rfl⟩
  · exact ho
  · obtain ⟨hi, hp, -⟩ := firstIndex_some hf
    exact deleted_owned heap ho hi (by simpa using hp)

omit ho in
theorem within_sparing {c : Call} {r : Int × List Byte} (hk : SparesBlocks fs c)
    (hs : call fs c = some (fs', r)) : Within fs' := by
  cases c with
  | fsOpen | fsClose | fsCreate | fsRead | fsGetFilesize | fsLseek =>
    refine within_step h ?_ hs
    trivial
  | fsWrite =>
    refine within_step h ?_ hs
    exact hk
  | fsDelete heap name =>
    exact within_delete h hk (call_some hs)
  | fsTruncate | mount | umount => cases hk

omit h in
theorem Passes.owned {d : Nat} (hp : Passes d fs fs') : Owned fs' := by
  obtain ⟨i, c, c', hi, -, hu, hw, -⟩ := hp
  exact hw.owned ho hi hu

theorem owned_step {c : Call} {r : Int × List Byte} (hk : SparesBlocks fs c)
    (hs : call fs c = some (fs', r)) : Owned fs' := by
  cases c with
  | fsOpen name =>
    rcases fsOpen_eq fs name with heq | ⟨i, d, -, -, -, -, heq⟩
    · simp only [call, heq] at hs
      cases hs
      exact ho
    · simp only [call, heq] at hs
      cases hs
      exact ho.sameBlocks _ fs.disk
  | fsClose d =>
    rcases fsClose_some (call_some hs) with rfl | ⟨-, rfl⟩
    · exact ho
    · exact ho.sameBlocks _ fs.disk
  | fsCreate heap name =>
    rcases fsCreate_some (call_some hs) with ⟨rfl, -⟩ | ⟨i, disk, hf, -, rfl⟩
    · exact ho
    · obtain ⟨-, hfree, -⟩ := firstIndex_some hf
      exact (created_owned ho (by simpa using hfree) name).sameBlocks _ disk
  | fsDelete heap name =>
    exact owned_delete ho (call_some hs)
  | fsRead heap d buf n =>
    obtain ⟨buf', hread⟩ := call_read_some hs
    rcases h.read hread with rfl | hp
    · exact ho
    · exact hp.owned ho
  | fsWrite heap heap' d buf n =>
    have hwrite := call_some hs
    exact (h.write hk hwrite).owned ho
  | fsGetFilesize d => exact fsGetFilesize_fs hs ▸ ho
  | fsLseek d offset =>
    rcases fsLseek_some h.active (call_some hs) with rfl | ⟨i, -, -, -, -, -, rfl⟩
    · exact ho
    · exact ho.sameBlocks _ fs.disk
  | fsTruncate | mount | umount => cases hk

end

theorem sparing_deletes {s : FileSystem × Ids} {c : Call} (hk : SparesBlocks s.1 c) : DeletesClosed s c := by
  cases c with
  | fsDelete => exact fun _ => hk
  | mount | umount | fsOpen | fsClose | fsCreate | fsRead | fsWrite | fsGetFilesize | fsLseek | fsTruncate => trivial

/-- Every block that a read or a write through an open descriptor takes is one of its file's own. -/
theorem Within.own {fs : FileSystem} (h : Within fs) (ho : Owned fs) {d : Nat} (hd : IsOpen fs d)
    (heap : Block) (buf : Nat → Byte) (n : Nat) :
    (∀ s ∈ readSpots d (n + 1) fs n, OwnBlock s d) ∧
    ((fs.opened d).Admits (fs.descriptors d).cursor n → ∀ s ∈ writeSpots heap fs d buf n, OwnBlock s d) := by
  obtain ⟨i, c, hi, hdesc, hopened, hu, hle⟩ := h.opened hd
  rw [hopened, hdesc]
  constructor
  · intro s hs
    exact ((fsRead_underway hd.1 hi h.active (h.sized i hi) hdesc hle).1 s hs).own ho hi hu
  · intro hadm s hs
    exact ((fsWrite_underway hd.1 hi h.active (h.sized i hi) hdesc hle hadm).1 s hs).own ho hi hu

/-- In every run, the descriptors keep denoting their files in all states if and
only if files are deleted only while they are closed. Where the writes stop in
the last block too, reads and writes take blocks of their own file only. -/
theorem open_files_kept (junk : Nat → Nat → Int) (fs : FileSystem) (ha : fs.active = false) (es : List Call)
    (s : FileSystem × Ids) (tr : List (Call × (Int × List Byte)))
    (hr : run numbered ((mountFs junk fs).1, Ids.start) es = some (s, tr)) :
    (Guarded numbered DeletesClosed ((mountFs junk fs).1, Ids.start) es ↔
      Throughout numbered Denotes ((mountFs junk fs).1, Ids.start) es) ∧
    (Owned (mountFs junk fs).1 → Guarded numbered (fun s c => SparesBlocks s.1 c) ((mountFs junk fs).1, Ids.start) es →
      Denotes s ∧ ∀ d heap buf n, IsOpen s.1 d → (∀ x ∈ readSpots d (n + 1) s.1 n, OwnBlock x d) ∧
        ((s.1.opened d).Admits (s.1.descriptors d).cursor n → ∀ x ∈ writeSpots heap s.1 d buf n, OwnBlock x d)) := by
  have h0 : Denotes ((mountFs junk fs).1, Ids.start) := fun d _ hopen =>
    absurd (congrArg Descriptor.file ((mountFs_closed junk ha).2 d)) hopen
  constructor
  · exact guarded_iff_throughout (I := fun _ => True) (fun _ _ _ _ _ _ => trivial)
      (fun _ _ _ _ _ h hs => denotes_step h hs)
      trivial h0 hr
  · intro ho hg
    have hw0 : Within (mountFs junk fs).1 := Within.start ha fun i hi => (ho.ok i hi).sized
    have hI : Denotes s ∧ Within s.1 ∧ Owned s.1 := by
      refine run_inv (I := fun s => Denotes s ∧ Within s.1 ∧ Owned s.1) ?_ ⟨h0, hw0, ho⟩ hg hr
      rintro s c s' r ⟨hden, hw, ho⟩ hk hs
      have hcall := (numbered_some hs).1
      exact ⟨(denotes_step hden hs).mp (sparing_deletes hk), within_sparing hw hk hcall, owned_step hw ho hk hcall⟩
    exact ⟨hI.1, fun d heap buf n hd => hI.2.1.own hI.2.2 hd heap buf n⟩

def reuseRun : List Call :=
  [.fsCreate (fun _ => 0) fun _ => 65, .fsOpen fun _ => 65, .fsWrite (fun _ => 0) (fun _ => 0) 0 (fun _ => 67) 5, .fsClose 0,
    .fsDelete (fun _ => 0) fun _ => 65, .fsCreate (fun _ => 0) fun _ => 66, .fsOpen fun _ => 66]

theorem open_files_kept_reuse :
    ∃ s tr, run numbered (started (fun _ _ => 0) unmounted, Ids.start) reuseRun = some (s, tr) ∧
      s.2.file 0 = 65 ∧ s.2.opened 0 = 65 ∧
      (Guarded numbered DeletesClosed (started (fun _ _ => 0) unmounted, Ids.start) reuseRun ↔
        Throughout numbered Denotes (started (fun _ _ => 0) unmounted, Ids.start) reuseRun) ∧
      Denotes s ∧ ∀ d heap buf n, IsOpen s.1 d → (∀ x ∈ readSpots d (n + 1) s.1 n, OwnBlock x d) ∧
        ((s.1.opened d).Admits (s.1.descriptors d).cursor n → ∀ x ∈ writeSpots heap s.1 d buf n, OwnBlock x d) := by
  have hreuse : (run numbered (started (fun _ _ => 0) unmounted, Ids.start) reuseRun).map
      (fun p => (p.1.2.file 0, p.1.2.opened 0)) = some (65, 65) := by decide +kernel
  obtain ⟨⟨s, tr⟩, hrun, heq⟩ := Option.map_eq_some_iff.mp hreuse
  obtain ⟨hfile, hopened⟩ := Prod.mk.inj heq
  obtain ⟨hiff, hblocks⟩ := open_files_kept (fun _ _ => 0) (makeFs unmounted) rfl reuseRun s tr hrun
  exact ⟨s, tr, hrun, hfile, hopened, hiff,
    hblocks (started_session (fun _ _ => 0) unmounted).1.owned (by decide +kernel)⟩

/-- File A is deleted while it is open, and a byte is written through its descriptor after file B has been created. -/
def strayRun : List Call :=
  [.fsCreate (fun _ => 0) fun _ => 65, .fsOpen fun _ => 65, .fsDelete (fun _ => 0) fun _ => 65,
    .fsCreate (fun _ => 0) fun _ => 66, .fsWrite (fun _ => 0) (fun _ => 0) 0 (fun _ => 67) 1]

/-- The descriptor was opened on file 64, and its slot holds file 65, to which the byte goes. -/
theorem open_file_lost :
    ∃ s tr, run numbered (started (fun _ _ => 0) unmounted, Ids.start) strayRun = some (s, tr) ∧
      (tr.map fun e => e.2.1) = [0, 0, 0, 0, 1] ∧ (s.1.descriptors 0).file = 0 ∧ s.2.opened 0 = 64 ∧ s.2.file 0 = 65 ∧
      (s.1.fileMetas 0).name 0 = 66 ∧ (s.1.fileMetas 0).size = 1 ∧ ¬ Denotes s := by
  have hstray : (run numbered (started (fun _ _ => 0) unmounted, Ids.start) strayRun).map
      (fun p => (p.2.map fun e => e.2.1, (p.1.1.descriptors 0).file, p.1.2.opened 0, p.1.2.file 0, (p.1.1.fileMetas 0).name 0,
        (p.1.1.fileMetas 0).size)) = some ([0, 0, 0, 0, 1], 0, 64, 65, 66, 1) := by decide +kernel
  obtain ⟨⟨s, tr⟩, hrun, heq⟩ := Option.map_eq_some_iff.mp hstray
  simp only [Prod.mk.injEq] at heq
  obtain ⟨htr, hfd, hopened, hfile, hname, hsize⟩ := heq
  refine ⟨s, tr, hrun, htr, hfd, hopened, hfile, hname, hsize, ?_⟩
  intro h
  obtain ⟨i, -, hi, -, hid⟩ := h 0 (by decide) (by rw [hfd]; decide)
  obtain rfl : i = 0 := by omega
  rw [hopened, hfile] at hid
  cases hid

end OsLabs.Fs
