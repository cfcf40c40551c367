import OsLabs.FsFrame
import OsLabs.FsTruncate

/-!
# A write and the other slots

`fs_write` looks at the slot of its file only, so the other slots may be replaced
by any that suit a proof. Where the files in use own their blocks, the other slots
can be such that every used block has an owner.
-/

namespace OsLabs.Fs

/-! ## Other slots -/

/-- The slots other than `i` are replaced by those of `others`. -/
def FileSystem.among (fs : FileSystem) (i : Nat) (others : Nat → FileMeta) : FileSystem :=
  { fs with fileMetas := Function.update others i (fs.fileMetas i) }

def Writing.among (w : Writing) (i : Nat) (others : Nat → FileMeta) : Writing := { w with fs := w.fs.among i others }

section
variable (fs : FileSystem) {i : Nat} (others : Nat → FileMeta)

theorem among_self : (fs.among i others).fileMetas i = fs.fileMetas i := Function.update_self _ _ _

theorem among_ne {k : Nat} (hk : k ≠ i) : (fs.among i others).fileMetas k = others k := Function.update_of_ne hk _ _

theorem among_fileMeta : (fs.among i others).fileMeta i = fs.fileMeta i := by
  unfold FileSystem.fileMeta
  rw [Int.toNat_natCast, among_self]

theorem among_setMeta (f : FileMeta) : (fs.among i others).setMeta i f = (fs.setMeta i f).among i others := by
  simp [FileSystem.setMeta, FileSystem.among]

theorem among_blockWrite (block : Int) (buf : Block) :
    (fs.among i others).blockWrite block buf = (fs.blockWrite block buf).among i others := by
  unfold FileSystem.blockWrite FileSystem.among
  split <;> rfl

theorem among_moveCursor (d : Nat) (desc : Descriptor) (dist : Int) :
    moveCursor (fs.among i others) d desc dist = (moveCursor fs d desc dist).among i others := rfl

theorem among_byteAt (j : Nat) : (fs.among i others).byteAt i j = fs.byteAt i j := by
  unfold FileSystem.byteAt
  rw [among_self]
  rfl

theorem among_fsGetFilesize {d : Nat} (hfile : (fs.descriptors d).file = (i : Nat)) :
    fsGetFilesize (fs.among i others) d = fsGetFilesize fs d := by
  have hdesc : (fs.among i others).descriptor d = fs.descriptor d := rfl
  unfold fsGetFilesize
  rw [hdesc]
  cases hd : fs.descriptor d with
  | none => rfl
  | some desc =>
    obtain ⟨-, rfl⟩ := descriptor_some hd
    simp only [Option.bind_eq_bind, Option.bind_some]
    rw [hfile, among_fileMeta]
    rfl

end

section
variable {i d : Nat} (others : Nat → FileMeta)

theorem writeChunk_among {w : Writing} (hfile : (w.fs.descriptors d).file = (i : Nat)) :
    writeChunk d (w.among i others) = (writeChunk d w).map fun w' => w'.among i others := by
  unfold writeChunk
  cases hd : w.fs.descriptor d with
  | none =>
    have hd' : (w.among i others).fs.descriptor d = none := hd
    rw [hd']
    rfl
  | some desc =>
    have hd' : (w.among i others).fs.descriptor d = some desc := hd
    obtain ⟨-, rfl⟩ := descriptor_some hd
    have hmeta : (w.among i others).fs.fileMeta i = w.fs.fileMeta i := among_fileMeta w.fs others
    rw [hd']
    simp only [Option.bind_eq_bind, Option.bind_some, hfile, hmeta]
    cases w.fs.fileMeta i with
    | none => rfl
    | some f =>
      simp only [Option.bind_some]
      cases f.blockAt ((w.fs.descriptors d).cursor.tdiv blockSize) with
      | none => rfl
      | some block =>
        have hread : ∀ buf, (w.among i others).fs.blockRead block buf = w.fs.blockRead block buf := fun _ => rfl
        have hrest : (w.among i others).nbyte = w.nbyte ∧ (w.among i others).buf = w.buf ∧
            (w.among i others).data = w.data ∧ (w.among i others).written = w.written := ⟨rfl, rfl, rfl, rfl⟩
        have hfs : (w.among i others).fs = w.fs.among i others := rfl
        simp only [Option.bind_some, Option.map_some, Option.some_inj, hread, hrest]
        generalize (if w.nbyte < toSize _ then (w.nbyte : Int) else _) = dist
        generalize memcpy _ _ _ _ = data
        rw [hfs, among_blockWrite, among_moveCursor, among_setMeta]
        by_cases hover : f.size < toInt ((w.fs.descriptors d).cursor + dist)
        · rw [if_pos hover, if_pos hover]
          rfl
        · rw [if_neg hover, if_neg hover]
          rfl

theorem addBlock_among (fs : FileSystem) (b : Nat) :
    addBlock (fs.among i others) i b = (addBlock fs i b).map fun fs' => fs'.among i others := by
  unfold addBlock
  rw [among_fileMeta]
  cases fs.fileMeta i with
  | none => rfl
  | some f =>
    simp only [Option.bind_eq_bind, Option.bind_some]
    cases f.blockAt f.numBlocks with
    | none => rfl
    | some block =>
      simp only [Option.bind_some, Option.map_some, Option.some_inj]
      rw [among_setMeta]
      rfl

theorem writeInside_among : ∀ (fuel : Nat) {w : Writing}, (w.fs.descriptors d).file = (i : Nat) →
    writeInside d fuel (w.among i others) = (writeInside d fuel w).map fun w' => w'.among i others
  | 0, _, _ => rfl
  | fuel + 1, w, hfile => by
    have hsize : fsGetFilesize (w.among i others).fs d = fsGetFilesize w.fs d := among_fsGetFilesize w.fs others hfile
    have hdesc : (w.among i others).fs.descriptor d = w.fs.descriptor d := rfl
    unfold writeInside
    rw [hdesc, hsize, writeChunk_among others hfile]
    simp only [Option.bind_eq_bind]
    cases w.fs.descriptor d with
    | none => rfl
    | some desc =>
      cases fsGetFilesize w.fs d with
      | none => rfl
      | some size =>
        simp only [Option.bind_some]
        by_cases hgo : desc.cursor < size ∧ 0 < w.nbyte
        · have hgo' : desc.cursor < size ∧ 0 < (w.among i others).nbyte := hgo
          rw [if_pos hgo, if_pos hgo']
          cases hw : writeChunk d w with
          | none => rfl
          | some w₁ =>
            simp only [Option.map_some, Option.bind_some]
            exact writeInside_among fuel (((writeChunk_same hw).file d).trans hfile)
        · have hgo' : ¬ (desc.cursor < size ∧ 0 < (w.among i others).nbyte) := hgo
          rw [if_neg hgo, if_neg hgo']
          rfl

theorem writePast_among : ∀ (fuel : Nat) {w : Writing}, (w.fs.descriptors d).file = (i : Nat) →
    writePast d fuel (w.among i others) = (writePast d fuel w).map fun w' => w'.among i others
  | 0, _, _ => rfl
  | fuel + 1, w, hfile => by
    have hchunk : ∀ w₁ : Writing, (w₁.fs.descriptors d).file = (i : Nat) →
        (writeChunk d (w₁.among i others)).bind (writePast d fuel) =
          ((writeChunk d w₁).bind (writePast d fuel)).map fun w' => w'.among i others := by
      intro w₁ hfile₁
      rw [writeChunk_among others hfile₁]
      cases hw : writeChunk d w₁ with
      | none => rfl
      | some w₂ => exact writePast_among fuel (((writeChunk_same hw).file d).trans hfile₁)
    have hdesc : (w.among i others).fs.descriptor d = w.fs.descriptor d := rfl
    have hempty : findEmptyBlock (w.among i others).fs = findEmptyBlock w.fs := rfl
    unfold writePast
    rw [hdesc, hempty]
    by_cases hgo : 0 < w.nbyte
    · have hgo' : 0 < (w.among i others).nbyte := hgo
      rw [if_pos hgo, if_pos hgo']
      cases hd : w.fs.descriptor d with
      | none => rfl
      | some desc =>
        obtain ⟨-, rfl⟩ := descriptor_some hd
        have hmeta : (w.among i others).fs.fileMeta i = w.fs.fileMeta i := among_fileMeta w.fs others
        simp only [Option.bind_eq_bind, Option.bind_some, hfile, hmeta]
        cases w.fs.fileMeta i with
        | none => rfl
        | some f =>
          simp only [Option.bind_some]
          by_cases hfull : f.sizeLast = blockSize ∨ f.numBlocks = 0
          · rw [if_pos hfull, if_pos hfull]
            cases findEmptyBlock w.fs with
            | none => rfl
            | some b =>
              have hadd : addBlock (w.among i others).fs i b = (addBlock w.fs i b).map fun fs' => fs'.among i others :=
                addBlock_among others w.fs b
              simp only [hadd]
              cases hb : addBlock w.fs i b with
              | none => rfl
              | some fs₁ => exact hchunk { w with fs := fs₁ } (((addBlock_same hb).file d).trans hfile)
          · rw [if_neg hfull, if_neg hfull]
            exact hchunk w hfile
    · have hgo' : ¬ 0 < (w.among i others).nbyte := hgo
      rw [if_neg hgo, if_neg hgo']
      rfl

theorem saveFileMeta_among (heap : Block) (fs : FileSystem) :
    saveFileMeta heap (fs.among i others) i = (saveFileMeta heap fs i).map fun fs' => fs'.among i others := by
  unfold saveFileMeta
  rw [among_fileMeta]
  by_cases ha : fs.active = true
  · rw [if_pos ha, if_pos (show (fs.among i others).active = true from ha)]
    cases fs.fileMeta i with
    | none => rfl
    | some f =>
      simp only [Option.bind_eq_bind, Option.bind_some, Option.map_some]
      rw [among_blockWrite, among_blockWrite, among_blockWrite]
  · rw [if_neg ha, if_neg (show ¬ (fs.among i others).active = true from ha)]
    rfl

theorem fsWrite_among {fs : FileSystem} (hfile : (fs.descriptors d).file = (i : Nat)) (heap heap' : Block)
    (buf : Nat → Byte) (n : Nat) :
    fsWrite heap heap' (fs.among i others) d buf n =
      (fsWrite heap heap' fs d buf n).map fun x => (x.1.among i others, x.2) := by
  unfold fsWrite
  by_cases ha : fs.active = true
  · rw [if_pos ha, if_pos (show (fs.among i others).active = true from ha)]
    have hinside := writeInside_among others (n + 1) (w := ⟨fs, heap, buf, n, 0⟩) hfile
    simp only [Writing.among] at hinside
    rw [hinside]
    cases hw : writeInside d (n + 1) ⟨fs, heap, buf, n, 0⟩ with
    | none => rfl
    | some w₁ =>
      have hfile₁ := ((writeInside_same hw).file d).trans hfile
      simp only [Option.bind_eq_bind, Option.map_some, Option.bind_some]
      have hpast := writePast_among others (w₁.nbyte + 1) hfile₁
      simp only [Writing.among] at hpast
      rw [hpast]
      cases hw₂ : writePast d (w₁.nbyte + 1) w₁ with
      | none => rfl
      | some w₂ =>
        have hfile₂ := ((writePast_same hw₂).file d).trans hfile₁
        have hdesc : (w₂.fs.among i others).descriptor d = w₂.fs.descriptor d := rfl
        simp only [Option.map_some, Option.bind_some, hdesc]
        cases hd : w₂.fs.descriptor d with
        | none => rfl
        | some desc =>
          obtain ⟨-, rfl⟩ := descriptor_some hd
          simp only [Option.bind_some, hfile₂, saveFileMeta_among]
          cases saveFileMeta heap' w₂.fs i <;> rfl
  · rw [if_neg ha, if_neg (show ¬ (fs.among i others).active = true from ha)]
    rfl

end

/-! ## An owner for every used block -/

/-- The used blocks that file `i` does not list. -/
def FileSystem.leftover (fs : FileSystem) (i : Nat) : List Nat :=
  (List.range 4096).filter fun b =>
    decide (fs.usage b ≠ 0 ∧ ∀ k < (fs.fileMetas i).count, (fs.fileMetas i).blocks k ≠ b + 4096)

def FileSystem.keeper (fs : FileSystem) (i : Nat) : FileMeta :=
  { inUse := 1
    name := fun _ => 0
    numBlocks := (fs.leftover i).length
    sizeLast := 1
    blocks := fun k => ((fs.leftover i).getD k 0 : Nat) + 4096 }

/-- Slot `j` keeps the leftover blocks, and all others are unused. -/
def FileSystem.keepers (fs : FileSystem) (i j : Nat) (k : Nat) : FileMeta :=
  if k = j then fs.keeper i else ⟨0, fun _ => 0, 0, 0, fun _ => 0⟩

section
variable {fs : FileSystem} {i j : Nat}

theorem mem_leftover {b : Nat} : b ∈ fs.leftover i ↔ b < 4096 ∧ fs.usage b ≠ 0 ∧
    ∀ k < (fs.fileMetas i).count, (fs.fileMetas i).blocks k ≠ b + 4096 := by
  unfold FileSystem.leftover
  rw [List.mem_filter, List.mem_range, decide_eq_true_eq]

theorem leftover_nodup (fs : FileSystem) (i : Nat) : (fs.leftover i).Nodup := List.nodup_range.filter _

theorem keeper_block {k : Nat} (hk : k < (fs.leftover i).length) :
    (fs.keeper i).blocks k = ((fs.leftover i)[k] : Nat) + 4096 := by
  have hget : (fs.leftover i).getD k 0 = (fs.leftover i)[k] := by
    rw [List.getD_eq_getElem?_getD, List.getElem?_eq_getElem hk, Option.getD_some]
  exact congrArg (fun b : Nat => (b : Int) + 4096) hget

theorem keeper_ok (fs : FileSystem) (i : Nat) : (fs.keeper i).Ok ∧ (fs.keeper i).count = (fs.leftover i).length := by
  have hcount : (fs.keeper i).count = (fs.leftover i).length := Int.toNat_natCast _
  have hlen : (fs.leftover i).length ≤ 4096 := by
    have := List.length_filter_le (fun b => decide (fs.usage b ≠ 0 ∧
      ∀ k < (fs.fileMetas i).count, (fs.fileMetas i).blocks k ≠ b + 4096)) (List.range 4096)
    rwa [List.length_range] at this
  have hlast : 0 ≤ (fs.keeper i).sizeLast ∧ (fs.keeper i).sizeLast ≤ 4096 := show (0 : Int) ≤ 1 ∧ (1 : Int) ≤ 4096 by decide
  refine ⟨⟨Int.natCast_nonneg _, Int.ofNat_le.mpr hlen, ?_, fun _ => hlast⟩, hcount⟩
  intro k hk
  have hlt : k < (fs.leftover i).length := Int.ofNat_lt.mp hk
  have hmem := (mem_leftover.mp (List.getElem_mem hlt)).1
  rw [keeper_block hlt]
  omega

theorem completed_entry (hi : i < 64) (hj : j < 64) (hne : j ≠ i) (hu : (fs.fileMetas i).inUse ≠ 0) (p : Nat × Nat) :
    (fs.among i (fs.keepers i j)).Entry p ↔
      p.1 = i ∧ p.2 < (fs.fileMetas i).count ∨ p.1 = j ∧ p.2 < (fs.leftover i).length := by
  unfold FileSystem.Entry
  by_cases hp : p.1 = i
  · rw [hp, among_self]
    exact ⟨fun h => Or.inl ⟨rfl, h.2.2⟩, fun h => ⟨hi, hu, (h.resolve_right fun hj' => hne hj'.1.symm).2⟩⟩
  · rw [among_ne _ _ hp]
    by_cases hpj : p.1 = j
    · rw [hpj, show fs.keepers i j j = fs.keeper i from if_pos rfl, (keeper_ok fs i).2]
      have hone : (1 : Byte) ≠ 0 := by decide
      exact ⟨fun h => Or.inr ⟨rfl, h.2.2⟩, fun h => ⟨hj, hone, (h.resolve_left fun h' => hne h'.1).2⟩⟩
    · rw [show fs.keepers i j p.1 = ⟨0, fun _ => 0, 0, 0, fun _ => 0⟩ from if_neg hpj]
      exact ⟨fun h => absurd rfl h.2.1, fun h => h.elim (fun h' => absurd h'.1 hp) fun h' => absurd h'.1 hpj⟩

theorem completed_place (hne : j ≠ i) {k : Nat} :
    (fs.among i (fs.keepers i j)).place (i, k) = (fs.fileMetas i).blocks k ∧
      (fs.among i (fs.keepers i j)).place (j, k) = (fs.keeper i).blocks k := by
  unfold FileSystem.place
  rw [among_self, among_ne _ _ hne, show fs.keepers i j j = fs.keeper i from if_pos rfl]
  exact ⟨rfl, rfl⟩

/-- Where the blocks of one file are its own, the other slots may be such that all used blocks have an owner. -/
theorem Owns.completed (h : Owns fs) (hi : i < 64) (hj : j < 64) (hne : j ≠ i) (hu : (fs.fileMetas i).inUse ≠ 0)
    (hok : (fs.fileMetas i).Ok) : Owned (fs.among i (fs.keepers i j)) := by
  have hentry : ∀ a k, (fs.among i (fs.keepers i j)).Entry (a, k) ↔
      a = i ∧ k < (fs.fileMetas i).count ∨ a = j ∧ k < (fs.leftover i).length :=
    fun a k => completed_entry hi hj hne hu (a, k)
  have hplace : ∀ k, (fs.among i (fs.keepers i j)).place (i, k) = (fs.fileMetas i).blocks k ∧
      (fs.among i (fs.keepers i j)).place (j, k) = (fs.keeper i).blocks k := fun k => completed_place hne
  refine ⟨?_, ?_, ?_⟩
  · intro k _
    by_cases hki : k = i
    · rw [hki, among_self]
      exact hok
    · rw [among_ne _ _ hki]
      by_cases hkj : k = j
      · rw [hkj, show fs.keepers i j j = fs.keeper i from if_pos rfl]
        exact (keeper_ok fs i).1
      · rw [show fs.keepers i j k = ⟨0, fun _ => 0, 0, 0, fun _ => 0⟩ from if_neg hkj]
        exact ⟨le_refl 0, show (0 : Int) ≤ 4096 by decide, fun l hl => absurd hl (by simp only; omega),
          fun hpos => absurd hpos (lt_irrefl 0)⟩
  · rintro ⟨a, k⟩ ⟨b, l⟩ hp hq heq
    rcases (hentry _ _).mp hp with ⟨rfl, hk⟩ | ⟨rfl, hk⟩
    · rcases (hentry _ _).mp hq with ⟨rfl, hl⟩ | ⟨rfl, hl⟩
      · rw [(hplace k).1, (hplace l).1] at heq
        exact h.inj (b, k) (b, l) ⟨hi, hu, hk⟩ ⟨hi, hu, hl⟩ heq
      · rw [(hplace k).1, (hplace l).2, keeper_block hl] at heq
        exact absurd heq ((mem_leftover.mp (List.getElem_mem hl)).2.2 k hk)
    · rcases (hentry _ _).mp hq with ⟨rfl, hl⟩ | ⟨rfl, hl⟩
      · rw [(hplace k).2, (hplace l).1, keeper_block hk] at heq
        exact absurd heq.symm ((mem_leftover.mp (List.getElem_mem hk)).2.2 l hl)
      · rw [(hplace k).2, (hplace l).2, keeper_block hk, keeper_block hl] at heq
        have hsame : (fs.leftover i)[k] = (fs.leftover i)[l] := by omega
        rw [(leftover_nodup fs i).getElem_inj_iff.mp hsame]
  · intro b hb
    have husage : (fs.among i (fs.keepers i j)).usage b = fs.usage b := rfl
    rw [husage]
    constructor
    · intro hused
      by_cases hown : ∃ k < (fs.fileMetas i).count, (fs.fileMetas i).blocks k = b + 4096
      · obtain ⟨k, hk, hblock⟩ := hown
        exact ⟨(i, k), (hentry _ _).mpr (Or.inl ⟨rfl, hk⟩), (hplace k).1.trans hblock⟩
      · have hmem : b ∈ fs.leftover i := mem_leftover.mpr ⟨hb, hused, fun k hk hblock => hown ⟨k, hk, hblock⟩⟩
        obtain ⟨k, hk, hkb⟩ := List.getElem_of_mem hmem
        refine ⟨(j, k), (hentry _ _).mpr (Or.inr ⟨rfl, hk⟩), (hplace k).2.trans ?_⟩
        rw [keeper_block hk, hkb]
    · rintro ⟨⟨a, k⟩, hp, heq⟩
      rcases (hentry _ _).mp hp with ⟨rfl, hk⟩ | ⟨rfl, hk⟩
      · rw [(hplace k).1] at heq
        have hused := (h.block hi hu hk).2
        rwa [heq, show ((b : Int) + 4096 - 4096).toNat = b by omega] at hused
      · rw [(hplace k).2, keeper_block hk] at heq
        have hused := (mem_leftover.mp (List.getElem_mem hk)).2.1
        rwa [show (fs.leftover i)[k] = b by omega] at hused

end

end OsLabs.Fs
