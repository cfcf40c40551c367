import OsLabs.FsSession
import Mathlib.Data.Set.Function

/-!
# Who owns a block

In a session in which a file is deleted only while it is closed and no write
runs over the end of its file, the blocks of the files in use are, one by one,
the blocks marked as used.
-/

namespace OsLabs.Fs

/-! ## The calls of a session -/

def FileSystem.opened (fs : FileSystem) (fildes : Nat) : FileMeta := fs.fileMetas (fs.descriptors fildes).file.toNat

theorem opened_eq {fs : FileSystem} {fildes i : Nat} (h : (fs.descriptors fildes).file = i) :
    fs.opened fildes = fs.fileMetas i := by
  unfold FileSystem.opened
  rw [h, Int.toNat_natCast]

def IsOpen (fs : FileSystem) (fildes : Nat) : Prop := fildes < openFiles ∧ (fs.descriptors fildes).file ≠ -1

/-- A write of `nbyte` bytes starts at the end of the file or stays within it. -/
def Fits (fs : FileSystem) (fildes nbyte : Nat) : Prop :=
  (fs.descriptors fildes).cursor = (fs.opened fildes).size ∨ (fs.descriptors fildes).cursor + nbyte ≤ (fs.opened fildes).size

/-- The slot that `fs_delete` removes has no open descriptor. -/
def Unopened (fs : FileSystem) : Prop :=
  match firstIndex (fun i => (fs.fileMetas i).inUse != 0) numFiles with
  | none => True
  | some i => ∀ d < openFiles, (fs.descriptors d).file ≠ i

/-- What a session needs of a call: a write goes to a file in use and does not run over its end. -/
def Careful (fs : FileSystem) : Call → Prop
  | .fsOpen _ | .fsCreate _ _ | .fsDelete _ _ => True
  | .fsClose fildes | .fsRead _ fildes _ _ | .fsGetFilesize fildes | .fsLseek fildes _ => fildes < openFiles
  | .fsWrite _ _ fildes _ nbyte => IsOpen fs fildes ∧ (fs.opened fildes).inUse ≠ 0 ∧ Fits fs fildes nbyte
  | .mount _ | .umount | .fsTruncate _ _ _ => False

/-- The calls of a session that deletes closed files only. -/
def Allowed (fs : FileSystem) : Call → Prop
  | .fsOpen _ | .fsCreate _ _ => True
  | .fsClose fildes | .fsRead _ fildes _ _ | .fsGetFilesize fildes | .fsLseek fildes _ => fildes < openFiles
  | .fsDelete _ _ => Unopened fs
  | .fsWrite _ _ fildes _ nbyte => IsOpen fs fildes ∧ Fits fs fildes nbyte
  | .mount _ | .umount | .fsTruncate _ _ _ => False

instance (fs : FileSystem) (d : Nat) : Decidable (IsOpen fs d) := inferInstanceAs (Decidable (_ ∧ _))

instance (fs : FileSystem) (d n : Nat) : Decidable (Fits fs d n) := inferInstanceAs (Decidable (_ ∨ _))

instance (fs : FileSystem) : Decidable (Unopened fs) :=
  match hf : firstIndex (fun i => (fs.fileMetas i).inUse != 0) numFiles with
  | none => .isTrue (by unfold Unopened; rw [hf]; trivial)
  | some i => decidable_of_iff (∀ d < openFiles, (fs.descriptors d).file ≠ i) (by unfold Unopened; rw [hf])

instance (fs : FileSystem) : ∀ c, Decidable (Allowed fs c)
  | .fsOpen _ | .fsCreate _ _ => .isTrue trivial
  | .fsClose fildes | .fsRead _ fildes _ _ | .fsGetFilesize fildes
  | .fsLseek fildes _ => inferInstanceAs (Decidable (fildes < openFiles))
  | .fsDelete _ _ => inferInstanceAs (Decidable (Unopened fs))
  | .fsWrite _ _ fildes _ nbyte => inferInstanceAs (Decidable (IsOpen fs fildes ∧ Fits fs fildes nbyte))
  | .mount _ | .umount | .fsTruncate _ _ _ => .isFalse id

/-- Open descriptors are open on files in use. -/
def Linked (fs : FileSystem) : Prop := ∀ d < 32, (fs.descriptors d).file ≠ -1 → (fs.opened d).inUse ≠ 0

section
variable {fs : FileSystem} (h : Session fs)
include h

theorem Session.opened {d : Nat} (ho : IsOpen fs d) :
    ∃ i c : Nat, i < 64 ∧ fs.descriptors d = ⟨i, c⟩ ∧ fs.opened d = fs.fileMetas i := by
  obtain ⟨c, hc | ⟨i, hi, hc⟩⟩ := h.descriptors d ho.1
  · exact absurd (congrArg Descriptor.file hc) ho.2
  · exact ⟨i, c, hi, hc, opened_eq (congrArg Descriptor.file hc)⟩

theorem Session.fits {d i c n : Nat} (hi : i < 64) (hd : fs.descriptors d = ⟨i, c⟩)
    (ho : fs.opened d = fs.fileMetas i) (hf : Fits fs d n) :
    c = (fs.fileMetas i).length ∨ c + n ≤ (fs.fileMetas i).length := by
  have hlen := (h.owned.ok i hi).length_eq
  unfold Fits at hf
  rw [hd, ho] at hf
  simp only at hf
  omega

omit h in
theorem Linked.setDescriptor (hl : Linked fs) (d : Nat) {desc : Descriptor}
    (hd : desc.file ≠ -1 → (fs.fileMetas desc.file.toNat).inUse ≠ 0) : Linked (fs.setDescriptor d desc) := by
  intro e he hne
  unfold FileSystem.opened FileSystem.setDescriptor at *
  by_cases hed : e = d
  · subst hed
    simp only [Function.update_self] at hne ⊢
    exact hd hne
  · simp only [Function.update_of_ne hed] at hne ⊢
    exact hl e he hne

theorem Linked.of_metas {fs' : FileSystem} (hl : Linked fs) (hd : fs'.descriptors = fs.descriptors)
    (hm : ∀ d < 32, ∀ i : Nat, (fs.descriptors d).file = i → (fs.fileMetas i).inUse ≠ 0 → (fs'.fileMetas i).inUse ≠ 0) :
    Linked fs' := by
  intro d hd32 hne
  rw [hd] at hne
  obtain ⟨i, c, _, hdesc, hopened⟩ := h.opened ⟨hd32, hne⟩
  have hu := hl d hd32 hne
  rw [hopened] at hu
  unfold FileSystem.opened
  rw [hd, hdesc]
  exact hm d hd32 i (by rw [hdesc]) hu

/-! ## One call -/

theorem open_step (name : Nat → Byte) :
    Session (fsOpen fs name).1 ∧ (Linked fs → Linked (fsOpen fs name).1) := by
  rcases fsOpen_eq fs name with heq | ⟨i, d, hi, _, hu, _, heq⟩
  · rw [heq]
    exact ⟨h, id⟩
  · rw [heq]
    exact ⟨h.setDescriptor d (.inr ⟨i, hi, rfl⟩), fun hl => hl.setDescriptor d fun _ => hu⟩

theorem close_step {d : Nat} (hd : d < 32) :
    ∃ fs' r, fsClose fs d = some (fs', r) ∧ Session fs' ∧ (Linked fs → Linked fs') := by
  rw [fsClose_eq h hd]
  split
  · exact ⟨fs, -1, rfl, h, id⟩
  · obtain ⟨c, hc⟩ := h.descriptors d hd
    have hcur : (fs.descriptors d).cursor = c := by
      rcases hc with hc | ⟨i, _, hc⟩ <;> rw [hc]
    have hclosed : ({ fs.descriptors d with file := -1 } : Descriptor) = ⟨-1, c⟩ := congrArg (Descriptor.mk (-1)) hcur
    exact ⟨_, 0, rfl, h.setDescriptor d (.inl hclosed), fun hl => hl.setDescriptor d fun hne => absurd rfl hne⟩

theorem lseek_step {d : Nat} (hd : d < 32) (offset : Int) :
    ∃ fs' r, fsLseek fs d offset = some (fs', r) ∧ Session fs' ∧ (Linked fs → Linked fs') := by
  by_cases ho : (fs.descriptors d).file = -1
  · exact ⟨fs, -1, fsLseek_closed h.active hd ho offset, h, id⟩
  · obtain ⟨i, c, hi, hdesc, hopened⟩ := h.opened ⟨hd, ho⟩
    rw [fsLseek_eq h hd hi hdesc]
    split
    · exact ⟨fs, -1, rfl, h, id⟩
    · refine ⟨_, 0, rfl, h.setDescriptor d (.inr ⟨i, hi, rfl⟩), fun hl => hl.setDescriptor d ?_⟩
      intro _
      exact hopened ▸ hl d hd ho

theorem read_step {d : Nat} (hd : d < 32) (heap : Block) (buf : Nat → Byte) (n : Nat) :
    ∃ fs' buf' r, fsRead heap fs d buf n = some (fs', buf', r) ∧ Session fs' ∧ (Linked fs → Linked fs') := by
  by_cases ho : (fs.descriptors d).file = -1
  · exact ⟨fs, buf, 0, fsRead_closed h.active (h.cursor hd) heap buf n hd ho, h, id⟩
  · obtain ⟨i, c, hi, hdesc, hopened⟩ := h.opened ⟨hd, ho⟩
    refine ⟨_, _, _, fsRead_eq h heap buf n hd hi hdesc, h.setDescriptor d (.inr ⟨i, hi, rfl⟩),
      fun hl => hl.setDescriptor d ?_⟩
    intro _
    exact hopened ▸ hl d hd ho

theorem create_step (heap : Block) (name : Nat → Byte) :
    ∃ fs' r, fsCreate heap fs name = some (fs', r) ∧ Session fs' ∧ (Linked fs → Linked fs') := by
  rcases fsCreate_eq h heap name with ⟨heq, _⟩ | ⟨i, fs', _, heq, hs, hd, _, hm, _⟩
  · exact ⟨fs, -1, heq, h, id⟩
  · refine ⟨fs', 0, heq, hs, fun hl => hl.of_metas h hd ?_⟩
    intro d _ k _ hu
    rw [hm]
    by_cases hk : k = i
    · rw [hk, Function.update_self]
      exact (by decide : (1 : Byte) ≠ 0)
    · rwa [Function.update_of_ne hk]

theorem delete_step (heap : Block) (name : Nat → Byte) :
    ∃ fs' r, fsDelete heap fs name = some (fs', r) ∧ Session fs' ∧
      (Linked fs → Unopened fs → Linked fs') := by
  rcases fsDelete_eq h heap name with heq | ⟨i, fs', hf, heq, hs, hd, hm⟩
  · exact ⟨fs, -1, heq, h, fun hl _ => hl⟩
  · refine ⟨fs', 0, heq, hs, fun hl hun => hl.of_metas h hd ?_⟩
    intro d hd32 k hdk hu
    unfold Unopened at hun
    rw [hf] at hun
    have hk : k ≠ i := fun hki => hun d hd32 (hki ▸ hdk)
    rwa [hm, Function.update_of_ne hk]

theorem write_step {d n : Nat} (ho : IsOpen fs d) (hu : (fs.opened d).inUse ≠ 0) (hf : Fits fs d n)
    (heap heap' : Block) (buf : Nat → Byte) :
    ∃ fs' r, fsWrite heap heap' fs d buf n = some (fs', r) ∧ Session fs' ∧ (Linked fs → Linked fs') := by
  obtain ⟨i, c, hi, hdesc, hopened⟩ := h.opened ho
  rw [hopened] at hu
  obtain ⟨fs₁, hwritten, _, hs, heq⟩ := fsWrite_session h buf heap heap' (h.ready ho.1 hi hdesc hu)
    (h.fits hi hdesc hopened hf)
  refine ⟨_, _, heq, hs, fun hl => ?_⟩
  intro e he hne
  unfold FileSystem.opened at *
  simp only [hwritten.inUse, hwritten.descriptors] at hne ⊢
  by_cases hed : e = d
  · subst hed
    rw [Function.update_self]
    exact hu
  · rw [Function.update_of_ne hed] at hne ⊢
    exact hl e he hne

/-- Every call keeps the session; deleting a file that is not open keeps the files linked too. -/
theorem session_step {c : Call} (hc : Careful fs c) :
    ∃ fs' r, call fs c = some (fs', r) ∧ Session fs' ∧ (Linked fs → Allowed fs c → Linked fs') := by
  cases c with
  | fsOpen name => exact ⟨_, _, rfl, (open_step h name).1, fun hl _ => (open_step h name).2 hl⟩
  | fsClose d =>
    obtain ⟨fs', r, heq, hs, hl⟩ := close_step h hc
    exact ⟨fs', _, congrArg (Option.map _) heq, hs, fun hlink _ => hl hlink⟩
  | fsCreate heap name =>
    obtain ⟨fs', r, heq, hs, hl⟩ := create_step h heap name
    exact ⟨fs', _, congrArg (Option.map _) heq, hs, fun hlink _ => hl hlink⟩
  | fsDelete heap name =>
    obtain ⟨fs', r, heq, hs, hl⟩ := delete_step h heap name
    exact ⟨fs', _, congrArg (Option.map _) heq, hs, hl⟩
  | fsRead heap d buf n =>
    obtain ⟨fs', buf', r, heq, hs, hl⟩ := read_step h hc heap buf n
    exact ⟨fs', _, congrArg (Option.map _) heq, hs, fun hlink _ => hl hlink⟩
  | fsWrite heap heap' d buf n =>
    obtain ⟨fs', r, heq, hs, hl⟩ := write_step h hc.1 hc.2.1 hc.2.2 heap heap' buf
    exact ⟨fs', _, congrArg (Option.map _) heq, hs, fun hlink _ => hl hlink⟩
  | fsGetFilesize d =>
    by_cases ho : (fs.descriptors d).file = -1
    · exact ⟨fs, _, congrArg (Option.map _) (fsGetFilesize_closed h.active hc ho), h, fun hl _ => hl⟩
    · obtain ⟨i, c, hi, hdesc, _⟩ := h.opened ⟨hc, ho⟩
      exact ⟨fs, _, congrArg (Option.map _) (fsGetFilesize_eq h hc hi hdesc), h, fun hl _ => hl⟩
  | fsLseek d offset =>
    obtain ⟨fs', r, heq, hs, hl⟩ := lseek_step h hc offset
    exact ⟨fs', _, congrArg (Option.map _) heq, hs, fun hlink _ => hl hlink⟩
  | mount junk => exact absurd hc id
  | umount => exact absurd hc id
  | fsTruncate heap d length => exact absurd hc id

end

/-! ## Runs -/

theorem allowed_careful {fs : FileSystem} {c : Call} (hl : Linked fs) (ha : Allowed fs c) : Careful fs c := by
  cases c with
  | fsOpen name => trivial
  | fsCreate heap name => trivial
  | fsDelete heap name => trivial
  | fsWrite heap heap' d buf n => exact ⟨ha.1, hl d ha.1.1 ha.1.2, ha.2⟩
  | fsClose d => exact ha
  | fsRead heap d buf n => exact ha
  | fsGetFilesize d => exact ha
  | fsLseek d offset => exact ha
  | mount junk => exact ha
  | umount => exact ha
  | fsTruncate heap d length => exact ha

def started (junk : Nat → Nat → Int) (fs : FileSystem) : FileSystem := (mountFs junk (makeFs fs)).1

theorem started_session (junk : Nat → Nat → Int) (fs : FileSystem) :
    Session (started junk fs) ∧ Linked (started junk fs) :=
  ⟨mountFs_session (makeFs fs) rfl (blank_makeFs fs) junk, fun _ _ hne => absurd rfl hne⟩

theorem allowed_run {fs : FileSystem} {es : List Call} (hs : Session fs) (hl : Linked fs)
    (hg : Guarded call Allowed fs es) : ∃ t tr, run call fs es = some (t, tr) ∧ Session t ∧ Linked t := by
  refine run_total (I := fun s => Session s ∧ Linked s) ?_ ⟨hs, hl⟩ hg
  intro s e hi ho
  obtain ⟨s', r, heq, hs', hl'⟩ := session_step hi.1 (allowed_careful hi.2 ho)
  exact ⟨s', r, heq, hs', hl' hi.2 ho⟩

theorem started_run (junk : Nat → Nat → Int) (fs : FileSystem) {es : List Call}
    (hg : Guarded call Allowed (started junk fs) es) :
    ∃ t tr, run call (started junk fs) es = some (t, tr) ∧ Session t ∧ Linked t := by
  obtain ⟨hs, hl⟩ := started_session junk fs
  exact allowed_run hs hl hg

theorem Session.sizeLast_bounds {fs : FileSystem} (h : Session fs) : ∀ k < 64, (fs.fileMetas k).inUse ≠ 0 →
    0 < (fs.fileMetas k).numBlocks → 1 ≤ (fs.fileMetas k).sizeLast ∧ (fs.fileMetas k).sizeLast ≤ 4096 := by
  intro k hk _ hpos
  have hlast := (h.owned.ok k hk).sizeLast hpos
  have htight := h.tight k hk
  unfold FileMeta.Tight at htight
  omega

theorem Owned.bijOn {fs : FileSystem} (h : Owned fs) :
    Set.BijOn (fun p : Nat × Nat => (fs.fileMetas p.1).blocks p.2 - 4096)
      {p | p.1 < 64 ∧ (fs.fileMetas p.1).inUse ≠ 0 ∧ (p.2 : Int) < (fs.fileMetas p.1).numBlocks}
      (Nat.cast '' {b : Nat | b < 4096 ∧ fs.usage b ≠ 0}) := by
  have hentry : ∀ p : Nat × Nat, (p.1 < 64 ∧ (fs.fileMetas p.1).inUse ≠ 0 ∧ (p.2 : Int) < (fs.fileMetas p.1).numBlocks) ↔
      fs.Entry p := by
    intro p
    refine and_congr_right fun hi => and_congr_right ?_
    intro _
    rw [← (h.ok p.1 hi).count_eq]
    exact Int.ofNat_lt
  refine ⟨?_, ?_, ?_⟩
  · intro p hp
    have he := (hentry p).mp hp
    have hb : 4096 ≤ (fs.fileMetas p.1).blocks p.2 ∧ (fs.fileMetas p.1).blocks p.2 < 8192 := h.place_bounds he
    refine ⟨((fs.fileMetas p.1).blocks p.2 - 4096).toNat, ⟨by omega, ?_⟩, Int.toNat_of_nonneg (by omega)⟩
    exact (h.usage _ (by omega)).mpr ⟨p, he, show (fs.fileMetas p.1).blocks p.2 = _ by omega⟩
  · intro p hp q hq heq
    simp only at heq
    exact h.inj p q ((hentry p).mp hp) ((hentry q).mp hq) (show (fs.fileMetas p.1).blocks p.2 = _ by
      unfold FileSystem.place
      omega)
  · intro x hx
    obtain ⟨b, ⟨hb, hu⟩, rfl⟩ := hx
    obtain ⟨p, he, heq⟩ := (h.usage b hb).mp hu
    unfold FileSystem.place at heq
    exact ⟨p, (hentry p).mpr he, by simp only [heq]; omega⟩

/-- Over any session, the blocks in use on the second half of the disk are exactly
the listed ones, each by one file at one place. -/
theorem blocks_owned (junk : Nat → Nat → Int) (fs : FileSystem) (es : List Call)
    (hg : Guarded call Allowed (started junk fs) es) :
    ∃ t tr, run call (started junk fs) es = some (t, tr) ∧
      Set.BijOn (fun p : Nat × Nat => (t.fileMetas p.1).blocks p.2 - 4096)
        {p | p.1 < 64 ∧ (t.fileMetas p.1).inUse ≠ 0 ∧ (p.2 : Int) < (t.fileMetas p.1).numBlocks}
        (Nat.cast '' {b : Nat | b < 4096 ∧ t.usage b ≠ 0}) ∧
      ∀ i < 64, (t.fileMetas i).inUse ≠ 0 → (t.fileMetas i).numBlocks ≤ 4096 ∧
        (0 < (t.fileMetas i).numBlocks → 1 ≤ (t.fileMetas i).sizeLast ∧ (t.fileMetas i).sizeLast ≤ 4096) := by
  obtain ⟨t, tr, hrun, ht, _⟩ := started_run junk fs hg
  exact ⟨t, tr, hrun, ht.owned.bijOn, fun i hi hu => ⟨(ht.owned.ok i hi).le, ht.sizeLast_bounds i hi hu⟩⟩

def unmounted : FileSystem :=
  { active := false
    disk := fun _ _ => 0
    usage := fun _ => 0
    fileMetas := fun _ => ⟨0, fun _ => 0, 0, 0, fun _ => 0⟩
    descriptors := fun _ => ⟨0, 0⟩ }

/-- The block of a deleted file goes to the second block of the next one. -/
def shortRun : List Call :=
  [.fsCreate (fun _ => 0) fun _ => 65, .fsOpen fun _ => 65, .fsWrite (fun _ => 0) (fun _ => 0) 0 (fun _ => 66) 5, .fsClose 0,
    .fsCreate (fun _ => 0) fun _ => 66, .fsOpen fun _ => 66, .fsWrite (fun _ => 0) (fun _ => 0) 0 (fun _ => 67) 4096,
    .fsDelete (fun _ => 0) fun _ => 65, .fsWrite (fun _ => 0) (fun _ => 0) 0 (fun _ => 68) 5]

theorem blocks_owned_short :
    ∃ t tr, run call (started (fun _ _ => 0) unmounted) shortRun = some (t, tr) ∧
      [(t.fileMetas 0).numBlocks, (t.fileMetas 1).numBlocks, (t.fileMetas 1).blocks 0, (t.fileMetas 1).blocks 1] =
        [1, 2, 4097, 4096] ∧
      Set.BijOn (fun p : Nat × Nat => (t.fileMetas p.1).blocks p.2 - 4096)
        {p | p.1 < 64 ∧ (t.fileMetas p.1).inUse ≠ 0 ∧ (p.2 : Int) < (t.fileMetas p.1).numBlocks}
        (Nat.cast '' {b : Nat | b < 4096 ∧ t.usage b ≠ 0}) := by
  obtain ⟨t, tr, hrun, hbij, _⟩ := blocks_owned (fun _ _ => 0) unmounted shortRun (by decide +kernel)
  have hend : (run call (started (fun _ _ => 0) unmounted) shortRun).map (fun p =>
      [(p.1.fileMetas 0).numBlocks, (p.1.fileMetas 1).numBlocks, (p.1.fileMetas 1).blocks 0, (p.1.fileMetas 1).blocks 1]) =
      some [1, 2, 4097, 4096] := by decide +kernel
  rw [hrun, Option.map_some, Option.some_inj] at hend
  exact ⟨t, tr, hrun, hend, hbij⟩

end OsLabs.Fs
