import OsLabs.ByteFiles
import OsLabs.FsDelete

/-!
# Names that identify files

`fs_create` does not look whether a file has the name already. While no call
creates a file under a name that is taken, the names of the files in use differ,
`fs_open` opens the file that was created, and goes on opening that file.
-/

namespace OsLabs.Fs

/-! ## Directories -/

section
variable {κ : Type*} {n : Nat} {dir : Nat → Option κ}

/-- No key stands at two of the first `n` places. -/
def Distinct (n : Nat) (dir : Nat → Option κ) : Prop :=
  ∀ i < n, ∀ j < n, ∀ key, dir i = some key → dir j = some key → i = j

theorem Distinct.update_none (h : Distinct n dir) (i : Nat) : Distinct n (Function.update dir i none) := by
  have hof : ∀ j key, Function.update dir i none j = some key → dir j = some key := by
    intro j key hj
    by_cases hji : j = i
    · rw [hji, Function.update_self] at hj
      cases hj
    · rwa [Function.update_of_ne hji] at hj
  intro j hj k hk key hjk hkk
  exact h j hj k hk key (hof j key hjk) (hof k key hkk)

theorem distinct_update_some (h : Distinct n dir) {i : Nat} (hi : i < n) (hnone : dir i = none) (key : κ) :
    Distinct n (Function.update dir i (some key)) ↔ ∀ k < n, dir k ≠ some key := by
  constructor
  · intro hd k hk hkey
    have hki : k ≠ i := by
      rintro rfl
      rw [hnone] at hkey
      cases hkey
    refine hki (hd k hk i hi key ?_ ?_)
    · rwa [Function.update_of_ne hki]
    · rw [Function.update_self]
  · intro hnew j hj k hk key' hjk hkk
    by_cases hji : j = i
    · by_cases hki : k = i
      · rw [hji, hki]
      · rw [hji, Function.update_self] at hjk
        rw [Function.update_of_ne hki, ← hjk] at hkk
        exact absurd hkk (hnew k hk)
    · rw [Function.update_of_ne hji] at hjk
      by_cases hki : k = i
      · rw [hki, Function.update_self] at hkk
        rw [← hkk] at hjk
        exact absurd hjk (hnew j hj)
      · rw [Function.update_of_ne hki] at hkk
        exact h j hj k hk key' hjk hkk

theorem Distinct.firstIndex_iff [DecidableEq κ] (h : Distinct n dir) {i : Nat} {key : κ} :
    firstIndex (fun k => decide (dir k = some key)) n = some i ↔ i < n ∧ dir i = some key := by
  constructor
  · intro hi
    obtain ⟨hlt, hkey, -⟩ := firstIndex_some hi
    exact ⟨hlt, of_decide_eq_true hkey⟩
  · intro ⟨hlt, hkey⟩
    cases hk : firstIndex (fun k => decide (dir k = some key)) n with
    | none => exact absurd hkey (of_decide_eq_false (firstIndex_none hk i hlt))
    | some k =>
      obtain ⟨hkn, hkk, -⟩ := firstIndex_some hk
      rw [h k hkn i hlt key (of_decide_eq_true hkk) hkey]

end

/-- The names of the slots in use, as far as `fs_open` compares them. -/
def FileSystem.directory (fs : FileSystem) (i : Nat) : Option (List Byte) :=
  if (fs.fileMetas i).inUse ≠ 0 then some (nameKey (fs.fileMetas i).name) else none

/-- The slot that `fs_open` opens under the name. -/
def FileSystem.found (fs : FileSystem) (name : Nat → Byte) : Option Nat :=
  firstIndex (fun i => (fs.fileMetas i).inUse != 0 && strncmpEq nameLen (fs.fileMetas i).name name) numFiles

def UniqueNames (fs : FileSystem) : Prop :=
  ∀ i < numFiles, ∀ j < numFiles, (fs.fileMetas i).inUse ≠ 0 → (fs.fileMetas j).inUse ≠ 0 →
    strncmpEq nameLen (fs.fileMetas i).name (fs.fileMetas j).name = true → i = j

section
variable {fs fs' : FileSystem} {i : Nat} {name : Nat → Byte}

theorem directory_inUse (hu : (fs.fileMetas i).inUse ≠ 0) :
    fs.directory i = some (nameKey (fs.fileMetas i).name) := if_pos hu

theorem directory_none_iff : fs.directory i = none ↔ (fs.fileMetas i).inUse = 0 := by
  unfold FileSystem.directory
  split
  · rename_i hu
    exact ⟨nofun, fun hz => absurd hz hu⟩
  · rename_i hu
    exact ⟨fun _ => not_not.mp hu, fun _ => rfl⟩

theorem directory_iff : fs.directory i = some (nameKey name) ↔
    (fs.fileMetas i).inUse ≠ 0 ∧ strncmpEq nameLen (fs.fileMetas i).name name = true := by
  by_cases hu : (fs.fileMetas i).inUse = 0
  · rw [directory_none_iff.mpr hu]
    exact ⟨nofun, fun h => absurd hu h.1⟩
  · rw [directory_inUse hu, Option.some_inj, strncmpEq_iff]
    exact ⟨fun h => ⟨hu, h⟩, And.right⟩

theorem named_iff : Named fs name i ↔ i < numFiles ∧ fs.directory i = some (nameKey name) :=
  and_congr_right fun _ => directory_iff.symm

theorem found_eq (fs : FileSystem) (name : Nat → Byte) :
    fs.found name = firstIndex (fun i => decide (fs.directory i = some (nameKey name))) numFiles := by
  apply firstIndex_congr
  intro i _
  rw [Bool.eq_iff_iff, Bool.and_eq_true, bne_iff_ne, decide_eq_true_eq]
  exact directory_iff.symm

theorem uniqueNames_iff : UniqueNames fs ↔ Distinct numFiles fs.directory := by
  constructor
  · intro h i hi j hj key hik hjk
    have hui : (fs.fileMetas i).inUse ≠ 0 := fun hz => by
      rw [directory_none_iff.mpr hz] at hik
      cases hik
    have huj : (fs.fileMetas j).inUse ≠ 0 := fun hz => by
      rw [directory_none_iff.mpr hz] at hjk
      cases hjk
    rw [directory_inUse huj] at hjk
    rw [← hjk] at hik
    exact h i hi j hj hui huj (directory_iff.mp hik).2
  · intro h i hi j hj hui huj heq
    exact h i hi j hj _ (directory_iff.mpr ⟨hui, heq⟩) (directory_inUse huj)

theorem SameNames.directory (h : SameNames fs fs') : fs'.directory = fs.directory := by
  funext i
  unfold FileSystem.directory
  rw [h.inUse, h.name]

end

/-! ## One call -/

def Call.InMount : Call → Prop
  | .mount _ | .umount => False
  | .fsOpen _ | .fsClose _ | .fsCreate _ _ | .fsDelete _ _ | .fsRead _ _ _ _ | .fsWrite _ _ _ _ _ | .fsGetFilesize _
  | .fsLseek _ _ | .fsTruncate _ _ _ => True

/-- A file is created under a name that no file has, if there is a slot for it. -/
def NewName (fs : FileSystem) : Call → Prop
  | .fsCreate _ name => (∃ i < numFiles, (fs.fileMetas i).inUse = 0) → ∀ i < numFiles, ¬ Named fs name i
  | .mount _ | .umount | .fsOpen _ | .fsClose _ | .fsDelete _ _ | .fsRead _ _ _ _ | .fsWrite _ _ _ _ _
  | .fsGetFilesize _ | .fsLseek _ _ | .fsTruncate _ _ _ => True

def Call.Deletes (i : Nat) (fs : FileSystem) : Call → Prop
  | .fsDelete _ _ => firstIndex (fun k => (fs.fileMetas k).inUse != 0) numFiles = some i
  | .mount _ | .umount | .fsOpen _ | .fsClose _ | .fsCreate _ _ | .fsRead _ _ _ _ | .fsWrite _ _ _ _ _
  | .fsGetFilesize _ | .fsLseek _ _ | .fsTruncate _ _ _ => False

/-- How a call changes the directory. -/
inductive Enters (fs : FileSystem) (c : Call) (fs' : FileSystem) : Prop
  | nothing (hdir : fs'.directory = fs.directory) (hnew : NewName fs c)
  | name (i : Nat) (heap : Block) (name : Nat → Byte) (hc : c = .fsCreate heap name) (hi : i < numFiles)
      (hnone : fs.directory i = none) (hdir : fs'.directory = Function.update fs.directory i (some (nameKey name)))
  | removal (i : Nat) (heap : Block) (name : Nat → Byte) (hc : c = .fsDelete heap name)
      (hi : firstIndex (fun k => (fs.fileMetas k).inUse != 0) numFiles = some i)
      (hdir : fs'.directory = Function.update fs.directory i none)

section
variable {fs fs' : FileSystem} {i : Nat} {c : Call} {q : Int × List Byte}

theorem directory_setMeta {f : FileMeta} (hm : fs'.fileMetas = Function.update fs.fileMetas i f) :
    fs'.directory = Function.update fs.directory i (if f.inUse ≠ 0 then some (nameKey f.name) else none) := by
  funext k
  unfold FileSystem.directory
  rw [hm]
  by_cases hk : k = i
  · rw [hk, Function.update_self, Function.update_self]
  · rw [Function.update_of_ne hk, Function.update_of_ne hk]

theorem nameKey_created (f : FileMeta) (name : Nat → Byte) : nameKey (f.created name).name = nameKey name := by
  have hbytes : bytes (f.created name).name nameLen = bytes name nameLen :=
    bytes_congr fun j hj => if_pos ⟨Nat.zero_le j, by omega⟩
  unfold nameKey
  rw [hbytes]

theorem create_enters {heap : Block} {name : Nat → Byte} {r : Int} (ha : fs.active = true)
    (h : fsCreate heap fs name = some (fs', r)) : fs'.active = true ∧ Enters fs (.fsCreate heap name) fs' := by
  rcases fsCreate_some h with ⟨rfl, -, hnone⟩ | ⟨i, disk, hf, -, rfl⟩
  · refine ⟨ha, .nothing rfl ?_⟩
    intro ⟨i, hi, hu⟩
    have := firstIndex_none (hnone ha) i hi
    rw [hu, beq_self_eq_true] at this
    cases this
  · obtain ⟨hi, hu, -⟩ := firstIndex_some hf
    refine ⟨ha, .name i heap name rfl hi (directory_none_iff.mpr (by simpa using hu)) ?_⟩
    rw [directory_setMeta (f := (fs.fileMetas i).created name) rfl, nameKey_created]
    rfl

theorem delete_enters {heap : Block} {name : Nat → Byte} {r : Int} (ha : fs.active = true)
    (h : fsDelete heap fs name = some (fs', r)) : fs'.active = true ∧ Enters fs (.fsDelete heap name) fs' := by
  rcases fsDelete_some h with ⟨rfl, -⟩ | ⟨i, -, hf, rfl⟩
  · exact ⟨ha, .nothing rfl trivial⟩
  · exact ⟨ha, .removal i heap name rfl hf (directory_setMeta (f := (fs.fileMetas i).deleted) rfl)⟩

theorem SameNames.enters (h : SameNames fs fs') (ha : fs.active = true) (hnew : NewName fs c) :
    fs'.active = true ∧ Enters fs c fs' :=
  ⟨h.active.trans ha, .nothing h.directory hnew⟩

theorem enters_step (ha : fs.active = true) (hc : c.InMount) (hs : call fs c = some (fs', q)) :
    fs'.active = true ∧ Enters fs c fs' := by
  obtain ⟨r, bs⟩ := q
  cases c with
  | mount junk => exact absurd hc id
  | umount => exact absurd hc id
  | fsOpen name =>
    rcases fsOpen_eq fs name with heq | ⟨i, d, -, -, -, -, heq⟩
    · simp only [call, heq] at hs
      cases hs
      exact ⟨ha, .nothing rfl trivial⟩
    · simp only [call, heq] at hs
      cases hs
      exact ⟨ha, .nothing rfl trivial⟩
  | fsClose d =>
    rcases fsClose_some (call_some hs) with rfl | ⟨-, rfl⟩
    · exact ⟨ha, .nothing rfl trivial⟩
    · exact ⟨ha, .nothing rfl trivial⟩
  | fsCreate heap name => exact create_enters ha (call_some hs)
  | fsDelete heap name => exact delete_enters ha (call_some hs)
  | fsRead heap d buf n =>
    obtain ⟨buf', hread⟩ := call_read_some hs
    exact (fsRead_same hread).enters ha trivial
  | fsWrite heap heap' d buf n => exact (fsWrite_same (call_some hs)).enters ha trivial
  | fsGetFilesize d =>
    obtain rfl := fsGetFilesize_fs hs
    exact ⟨ha, .nothing rfl trivial⟩
  | fsLseek d offset => exact (fsLseek_same (call_some hs)).enters ha trivial
  | fsTruncate heap d length => exact (fsTruncate_same (call_some hs)).enters ha trivial

theorem newName_iff (ha : fs.active = true) (hc : c.InMount) (hu : UniqueNames fs)
    (hs : call fs c = some (fs', q)) : NewName fs c ↔ UniqueNames fs' := by
  have hd := uniqueNames_iff.mp hu
  rw [uniqueNames_iff]
  cases (enters_step ha hc hs).2 with
  | nothing hdir hnew =>
    rw [hdir]
    exact ⟨fun _ => hd, fun _ => hnew⟩
  | name i heap name heq hi hnone hdir =>
    have hfree : ∃ i < numFiles, (fs.fileMetas i).inUse = 0 := ⟨i, hi, directory_none_iff.mp hnone⟩
    rw [hdir, distinct_update_some hd hi hnone, heq]
    constructor
    · intro hnew k hk hkey
      exact hnew hfree k hk (named_iff.mpr ⟨hk, hkey⟩)
    · intro hnew _ k hk hnamed
      exact hnew k hk (named_iff.mp hnamed).2
  | removal i heap name heq hi hdir =>
    rw [hdir, heq]
    exact ⟨fun _ => hd.update_none i, fun _ => trivial⟩

theorem found_iff (hu : UniqueNames fs) {name : Nat → Byte} :
    fs.found name = some i ↔ i < numFiles ∧ fs.directory i = some (nameKey name) := by
  rw [found_eq]
  exact (uniqueNames_iff.mp hu).firstIndex_iff

theorem found_step {key : List Byte} (ha : fs.active = true) (hc : c.InMount) (hkeep : ¬ c.Deletes i fs)
    (hkey : fs.directory i = some key) (hs : call fs c = some (fs', q)) : fs'.directory i = some key := by
  cases (enters_step ha hc hs).2 with
  | nothing hdir _ => rwa [hdir]
  | name k heap name heq hk hnone hdir =>
    have hik : i ≠ k := by
      rintro rfl
      rw [hnone] at hkey
      cases hkey
    rwa [hdir, Function.update_of_ne hik]
  | removal k heap name heq hk hdir =>
    have hik : i ≠ k := by
      rintro rfl
      rw [heq] at hkeep
      exact hkeep hk
    rwa [hdir, Function.update_of_ne hik]

theorem fsOpen_found {name : Nat → Byte} (ha : fs.active = true) (hi : fs.found name = some i)
    (hfree : ∃ d < openFiles, (fs.descriptors d).file = -1) :
    ∃ d < openFiles, fsOpen fs name = (fs.setDescriptor d ⟨i, 0⟩, (d : Int)) := by
  unfold FileSystem.found at hi
  unfold fsOpen
  rw [if_pos ha, hi]
  cases hd : firstIndex (fun d => (fs.descriptors d).file == -1) openFiles with
  | none =>
    obtain ⟨d, hlt, hclosed⟩ := hfree
    have := firstIndex_none hd d hlt
    rw [hclosed, beq_self_eq_true] at this
    cases this
  | some d => exact ⟨d, (firstIndex_some hd).1, rfl⟩

theorem create_found {heap : Block} {name : Nat → Byte} (ha : fs.active = true) (hu : UniqueNames fs)
    (hnew : NewName fs (.fsCreate heap name)) (h : fsCreate heap fs name = some (fs', 0)) :
    fs'.active = true ∧ ∃ i < numFiles, (fs.fileMetas i).inUse = 0 ∧ fs'.found name = some i ∧
      fs'.fileMetas i = (fs.fileMetas i).created name := by
  have hcall : call fs (.fsCreate heap name) = some (fs', 0, []) := congrArg (Option.map _) h
  have hu' := (newName_iff ha (by trivial) hu hcall).mp hnew
  rcases fsCreate_some h with ⟨-, hr, -⟩ | ⟨i, disk, hf, -, rfl⟩
  · exact absurd hr (by decide)
  · obtain ⟨hi, hz, -⟩ := firstIndex_some hf
    have hself := setMeta_self fs i ((fs.fileMetas i).created name)
    refine ⟨ha, i, hi, by simpa using hz, (found_iff hu').mpr ⟨hi, ?_⟩, hself⟩
    rw [directory_setMeta (i := i) (f := (fs.fileMetas i).created name) rfl, Function.update_self, nameKey_created]
    rfl

/-- The file that has been created is the one that is opened, and it is empty. -/
theorem create_opens {heap : Block} {name : Nat → Byte} (ha : fs.active = true) (hu : UniqueNames fs)
    (hnew : NewName fs (.fsCreate heap name)) (h : fsCreate heap fs name = some (fs', 0))
    (hfree : ∃ d < openFiles, (fs'.descriptors d).file = -1) :
    ∃ i d, i < numFiles ∧ (fs.fileMetas i).inUse = 0 ∧ d < openFiles ∧
      fsOpen fs' name = (fs'.setDescriptor d ⟨(i : Nat), 0⟩, ((d : Nat) : Int)) ∧
      fsGetFilesize (fsOpen fs' name).1 d = some 0 := by
  obtain ⟨ha', i, hi, hz, hfound, hself⟩ := create_found ha hu hnew h
  obtain ⟨d, hd, hopen⟩ := fsOpen_found ha' hfound hfree
  refine ⟨i, d, hi, hz, hd, hopen, ?_⟩
  rw [hopen]
  have hfile : ((fs'.setDescriptor d ⟨(i : Nat), 0⟩).descriptors d).file = (i : Nat) := by
    simp [FileSystem.setDescriptor]
  refine (fsGetFilesize_file (by exact ha') hd hi hfile).trans ?_
  exact congrArg some ((congrArg FileMeta.size hself).trans rfl)

end

/-! ## Runs -/

instance (fs : FileSystem) : ∀ c, Decidable (NewName fs c)
  | .fsCreate _ name =>
    inferInstanceAs (Decidable ((∃ i < numFiles, (fs.fileMetas i).inUse = 0) → ∀ i < numFiles, ¬ Named fs name i))
  | .mount _ | .umount | .fsOpen _ | .fsClose _ | .fsDelete _ _ | .fsRead _ _ _ _ | .fsWrite _ _ _ _ _
  | .fsGetFilesize _ | .fsLseek _ _ | .fsTruncate _ _ _ => .isTrue trivial

theorem found_run {t u : FileSystem} {i : Nat} {name : Nat → Byte} {es : List Call} {tr : List (Call × (Int × List Byte))}
    (ha : t.active = true) (hu : UniqueNames t) (hi : t.found name = some i) (hr : run call t es = some (u, tr))
    (hg : Guarded call (fun s c => c.InMount ∧ NewName s c ∧ ¬ c.Deletes i s) t es) : u.found name = some i := by
  obtain ⟨hlt, hkey⟩ := (found_iff hu).mp hi
  have hstep : ∀ s c s' q, s.active = true ∧ UniqueNames s ∧ s.directory i = some (nameKey name) →
      c.InMount ∧ NewName s c ∧ ¬ c.Deletes i s → call s c = some (s', q) →
      s'.active = true ∧ UniqueNames s' ∧ s'.directory i = some (nameKey name) := by
    intro s c s' q ⟨hact, hun, hdir⟩ ⟨hc, hnew, hkeep⟩ hs
    exact ⟨(enters_step hact hc hs).1, (newName_iff hact hc hun hs).mp hnew, found_step hact hc hkeep hdir hs⟩
  have hend := run_inv hstep ⟨ha, hu, hkey⟩ hg hr
  exact (found_iff hend.2.1).mpr ⟨hlt, hend.2.2⟩

/-- In a mount session the names stay different exactly if no file is created under
a name that is taken. Then a file that was created is the one that is opened, and a
file that is opened by a name is so until it is deleted. -/
theorem names_identify {fs t : FileSystem} {es : List Call} {tr : List (Call × (Int × List Byte))}
    (ha : fs.active = true) (hc : Guarded call (fun _ c => c.InMount) fs es) (hr : run call fs es = some (t, tr)) :
    (UniqueNames fs ∧ Guarded call NewName fs es ↔ Throughout call UniqueNames fs es) ∧
    (UniqueNames fs → Guarded call NewName fs es →
      (∀ heap name s, NewName t (.fsCreate heap name) → fsCreate heap t name = some (s, 0) →
        (∃ d < openFiles, (s.descriptors d).file = -1) →
        ∃ i d, i < numFiles ∧ (t.fileMetas i).inUse = 0 ∧ d < openFiles ∧
          fsOpen s name = (s.setDescriptor d ⟨(i : Nat), 0⟩, ((d : Nat) : Int)) ∧
          fsGetFilesize (fsOpen s name).1 d = some 0) ∧
      ∀ name i es' u tr', t.found name = some i → run call t es' = some (u, tr') →
        Guarded call (fun s c => c.InMount ∧ NewName s c ∧ ¬ c.Deletes i s) t es' → u.found name = some i) := by
  have hiff : UniqueNames fs → (Guarded call NewName fs es ↔ Throughout call UniqueNames fs es) := by
    intro hu
    exact guarded_iff_throughout_of (I := fun s => s.active = true)
      (fun _ _ _ _ hact hadm hs => (enters_step hact hadm hs).1)
      (fun _ _ _ _ hact hadm hun hs => newName_iff hact hadm hun hs) ha hc hu hr
  refine ⟨⟨fun h => (hiff h.1).mp h.2, fun h => ⟨h.head, (hiff h.head).mpr h⟩⟩, ?_⟩
  intro hu hg
  have hstep : ∀ s c s' q, s.active = true ∧ UniqueNames s → c.InMount ∧ NewName s c → call s c = some (s', q) →
      s'.active = true ∧ UniqueNames s' := by
    intro s c s' q ⟨hact, hun⟩ ⟨hadm, hnew⟩ hs
    exact ⟨(enters_step hact hadm hs).1, (newName_iff hact hadm hun hs).mp hnew⟩
  have hend := run_inv hstep ⟨ha, hu⟩ (guarded_and hc hg) hr
  refine ⟨?_, ?_⟩
  · intro heap name s hnew hcreate hfree
    exact create_opens hend.1 hend.2 hnew hcreate hfree
  · intro name i es' u tr' hfound hrun hg'
    exact found_run hend.1 hend.2 hfound hrun hg'

theorem names_identify_two : ∃ t tr, run call (started (fun _ _ => 0) unmounted) twoNames = some (t, tr) ∧
    Throughout call UniqueNames (started (fun _ _ => 0) unmounted) twoNames := by
  have hnone : UniqueNames (started (fun _ _ => 0) unmounted) := fun _ _ _ _ hu => absurd rfl hu
  have hmount : Guarded call (fun _ c => c.InMount) (started (fun _ _ => 0) unmounted) twoNames :=
    guarded_of_forall _ (by simp [twoNames, Call.InMount])
  refine ⟨_, _, rfl, ?_⟩
  exact (names_identify rfl hmount rfl).1.mp ⟨hnone, by decide +kernel⟩

def takenRun : List Call :=
  [.fsCreate (fun _ => 0) fun _ => 65, .fsOpen fun _ => 65, .fsWrite (fun _ => 0) (fun _ => 0) 0 (fun _ => 66) 5,
    .fsCreate (fun _ => 0) fun _ => 65]

/-- Two slots in use have the name then, and `fs_open` goes on opening the older file. -/
theorem names_taken : ∃ t tr, run call (started (fun _ _ => 0) unmounted) takenRun = some (t, tr) ∧
    tr.map (fun x => x.2.1) = [0, 0, 5, 0] ∧ ¬ UniqueNames t ∧
    (fsOpen t fun _ => 65).2 = 1 ∧ fsGetFilesize (fsOpen t fun _ => 65).1 1 = some 5 := by
  have htaken : (run call (started (fun _ _ => 0) unmounted) takenRun).map (fun p => (p.2.map (fun x => x.2.1),
      decide (Named p.1 (fun _ => 65) 0 ∧ Named p.1 (fun _ => 65) 1), (fsOpen p.1 fun _ => 65).2,
      fsGetFilesize (fsOpen p.1 fun _ => 65).1 1)) = some ([0, 0, 5, 0], true, 1, some 5) := by decide +kernel
  obtain ⟨⟨t, tr⟩, hrun, heq⟩ := Option.map_eq_some_iff.mp htaken
  simp only [Prod.mk.injEq] at heq
  obtain ⟨hrets, hnamed, hopen, hsize⟩ := heq
  obtain ⟨h0, h1⟩ := of_decide_eq_true hnamed
  refine ⟨t, tr, hrun, hrets, ?_, hopen, hsize⟩
  intro h
  have heq := uniqueNames_iff.mp h 0 (by decide) 1 (by decide) _ (named_iff.mp h0).2 (named_iff.mp h1).2
  exact absurd heq (by decide)

end OsLabs.Fs
