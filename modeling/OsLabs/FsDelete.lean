import OsLabs.FsFrame
import OsLabs.FsOwn

/-!
# Which file `fs_delete` removes

`fs_delete` takes the first slot in use, whatever the name. It removes that
file and nothing else, if the blocks that the file lists are data blocks, no
other file lists one of them, and no other file has bytes in the three blocks
where the metadata of the slot are saved.
-/

namespace OsLabs.Fs

/-- Slot `i` is in use and `fs_open` takes its name for the given one. -/
def Named (fs : FileSystem) (name : Nat → Byte) (i : Nat) : Prop :=
  i < numFiles ∧ (fs.fileMetas i).inUse ≠ 0 ∧ strncmpEq nameLen (fs.fileMetas i).name name = true

instance (fs : FileSystem) (name : Nat → Byte) (i : Nat) : Decidable (Named fs name i) :=
  inferInstanceAs (Decidable (_ ∧ _))

/-- Data block `b` of the disk is one of the first `num_blocks` that the file lists. -/
def FileMeta.Lists (f : FileMeta) (b : Nat) : Prop :=
  ∃ k : Nat, k < 4096 ∧ (k : Int) < f.numBlocks ∧ f.blocks k = (b : Int) + 4096

/-- Byte `j` of the file is in block `b` of the disk. -/
def FileMeta.Holds (f : FileMeta) (j b : Nat) : Prop := (j : Int) < f.size ∧ j / 4096 < 4096 ∧ f.blocks (j / 4096) = b

/-- Slot `k` is in use and is not slot `i`. -/
def FileSystem.Other (fs : FileSystem) (i k : Nat) : Prop := k < numFiles ∧ k ≠ i ∧ (fs.fileMetas k).inUse ≠ 0

/-- File `i` is removed and nothing else is touched: every other file keeps its
slot, its metadata, its blocks and its bytes. -/
structure Removes (i : Nat) (fs fs' : FileSystem) : Prop where
  unused : (fs'.fileMetas i).inUse = 0
  freed : ∀ b, (fs.fileMetas i).Lists b → fs'.usage b = 0
  kept : ∀ b, ¬ (fs.fileMetas i).Lists b → fs'.usage b = fs.usage b
  others : ∀ k, k ≠ i → fs'.fileMetas k = fs.fileMetas k
  blocks : ∀ k, fs.Other i k → ∀ b, (fs.fileMetas k).Lists b → fs'.usage b = fs.usage b
  content : ∀ k, fs.Other i k → ∀ j b, (fs.fileMetas k).Holds j b → fs'.disk b (j % 4096) = fs.disk b (j % 4096)
  disk : ∀ b, b < 3 * i + 1 ∨ 3 * i + 3 < b → fs'.disk b = fs.disk b
  descriptors : fs'.descriptors = fs.descriptors
  active : fs'.active = fs.active

/-- The file that has the name goes; where there is none, the call fails and changes nothing. -/
def DeletesNamed (heap : Block) (fs : FileSystem) (name : Nat → Byte) : Prop :=
  ((∃ i, Named fs name i) → ∃ i fs', Named fs name i ∧ fsDelete heap fs name = some (fs', 0) ∧ Removes i fs fs') ∧
  ((¬ ∃ i, Named fs name i) → fsDelete heap fs name = some (fs, -1))

/-- What `save_file_meta` writes in block `t` of the three blocks of a slot. -/
def FileMeta.savedBlock (heap : Block) (f : FileMeta) (t : Nat) : Block :=
  if t = 0 then infoBlock heap f else if t = 1 then listBlock f 0 else listBlock f 2048

/-- No block that is marked as used is listed by file `i` and another one, and
slot `i` is saved as unused over no byte of another file, unless with the same value. -/
structure Apart (heap : Block) (fs : FileSystem) (i : Nat) : Prop where
  blocks : ∀ k, fs.Other i k → ∀ b, (fs.fileMetas k).Lists b → (fs.fileMetas i).Lists b → fs.usage b = 0
  content : ∀ k, fs.Other i k → ∀ j t, t < 3 → (fs.fileMetas k).Holds j (3 * i + 1 + t) →
    (fs.fileMetas i).deleted.savedBlock heap t (j % 4096) = fs.disk (3 * i + 1 + t) (j % 4096)

def FileSystem.firstInUse (fs : FileSystem) : Option Nat := firstIndex (fun i => (fs.fileMetas i).inUse != 0) numFiles

/-- There is no file, or the first slot in use has the name, lists data blocks and is apart from the other files. -/
def FirstNamed (heap : Block) (fs : FileSystem) (name : Nat → Byte) : Prop :=
  ∀ i, fs.firstInUse = some i → Named fs name i ∧ (fs.fileMetas i).ListsData ∧ Apart heap fs i

section
variable {fs : FileSystem} {heap : Block} {name : Nat → Byte} {i : Nat}

theorem savedDisk_block (disk : Nat → Block) (f : FileMeta) {t : Nat} (ht : t < 3) :
    savedDisk heap disk i f (3 * i + 1 + t) = f.savedBlock heap t := by
  unfold FileMeta.savedBlock
  obtain rfl | rfl | rfl : t = 0 ∨ t = 1 ∨ t = 2 := by omega
  · exact savedDisk_info
  · exact savedDisk_list (show 0 < 4096 by decide)
  · exact savedDisk_list (show 2048 < 4096 by decide)

theorem mem_firstBlocks_iff (hdata : (fs.fileMetas i).ListsData) (b : Nat) :
    (b : Int) + 4096 ∈ (fs.fileMetas i).firstBlocks (fs.fileMetas i).count ↔ (fs.fileMetas i).Lists b := by
  simp only [FileMeta.firstBlocks, List.mem_map, List.mem_range, lt_count_iff]
  constructor
  · rintro ⟨k, hk, hb⟩
    exact ⟨k, (hdata k hk).1, hk, hb⟩
  · rintro ⟨k, -, hk, hb⟩
    exact ⟨k, hk, hb⟩

theorem deleted_removes (hdata : (fs.fileMetas i).ListsData) (h : Apart heap fs i) : Removes i fs (fs.deleted heap i) := by
  have hmem := mem_firstBlocks_iff hdata
  have hkept : ∀ b, ¬ (fs.fileMetas i).Lists b → (fs.deleted heap i).usage b = fs.usage b :=
    fun b hb => if_neg fun hin => hb ((hmem b).mp hin)
  have hfreed : ∀ b, (fs.fileMetas i).Lists b → (fs.deleted heap i).usage b = 0 := fun b hb => if_pos ((hmem b).mpr hb)
  refine ⟨?_, hfreed, hkept, fun k hk => deleted_ne fs heap hk, ?_, ?_, fun b hb => savedDisk_of_ne hb, rfl, rfl⟩
  · exact congrArg FileMeta.inUse (deleted_self fs heap i)
  · intro k hk b hb
    by_cases hi : (fs.fileMetas i).Lists b
    · rw [hfreed b hi, h.blocks k hk b hb hi]
    · exact hkept b hi
  · intro k hk j b hj
    by_cases hb : b < 3 * i + 1 ∨ 3 * i + 3 < b
    · exact congrFun (savedDisk_of_ne hb) _
    · obtain ⟨t, rfl⟩ := Nat.exists_eq_add_of_le (show 3 * i + 1 ≤ b by omega)
      have ht : t < 3 := by omega
      exact (congrFun (savedDisk_block fs.disk _ ht) _).trans (h.content k hk j t ht hj)

theorem Removes.apart (h : Removes i fs (fs.deleted heap i)) : Apart heap fs i where
  blocks k hk b hb hi := by rw [← h.blocks k hk b hb, h.freed b hi]
  content k hk j t ht hj := by
    rw [← h.content k hk j _ hj]
    exact (congrFun (savedDisk_block fs.disk _ ht) _).symm

/-- The ownership invariant keeps the files apart. -/
theorem Owned.apart (h : Owned fs) (heap : Block) (hi : i < 64) (hu : (fs.fileMetas i).inUse ≠ 0) : Apart heap fs i where
  blocks k hk b hb hib := by
    obtain ⟨m, -, hm, hmb⟩ := hb
    obtain ⟨n, -, hn, hnb⟩ := hib
    have heq := h.inj (k, m) (i, n) ⟨hk.1, hk.2.2, lt_count_iff.mpr hm⟩ ⟨hi, hu, lt_count_iff.mpr hn⟩ (hmb.trans hnb.symm)
    exact absurd (Prod.mk.inj heq).1 hk.2.1
  content k hk j t ht hj := by
    have hlt : j < (fs.fileMetas k).length := by
      have := (h.ok k hk.1).length_eq
      have := hj.1
      omega
    have hb : 4096 ≤ (fs.fileMetas k).blocks (j / 4096) := (h.place_bounds (h.entry hk.1 hk.2.2 hlt)).1
    have := hj.2.2
    omega

end

/-- `fs_delete` removes the named file exactly if that is the first file there
is, and saving its slot and freeing its blocks does nothing to another file. In
a state where the files own their blocks it is enough that it is the first. -/
theorem fsDelete_named (heap : Block) (fs : FileSystem) (name : Nat → Byte) (ha : fs.active = true) :
    (DeletesNamed heap fs name ↔ FirstNamed heap fs name) ∧
    (Owned fs → (DeletesNamed heap fs name ↔ ∀ i, fs.firstInUse = some i → Named fs name i)) := by
  have hiff : DeletesNamed heap fs name ↔ FirstNamed heap fs name := by
    unfold DeletesNamed FirstNamed
    cases hi : fs.firstInUse with
    | none =>
      have hno : ¬ ∃ i, Named fs name i := by
        intro ⟨i, h, hu, _⟩
        have := firstIndex_none hi i h
        simp only [bne_eq_false_iff_eq] at this
        exact hu this
      exact ⟨fun _ i h => (by cases h), fun _ => ⟨fun h => absurd h hno, fun _ => fsDelete_none ha hi⟩⟩
    | some i =>
      have hu : (fs.fileMetas i).inUse ≠ 0 := by simpa using (firstIndex_some hi).2.1
      constructor
      · rintro ⟨hnamed, hnone⟩ _ ⟨⟩
        by_cases hex : ∃ k, Named fs name k
        · obtain ⟨k, fs', hk, hdel, hrem⟩ := hnamed hex
          obtain ⟨hdata, heq⟩ := (fsDelete_first ha hi).mp hdel
          obtain rfl := (Prod.mk.inj heq).1
          -- the slot that has become unused is the first one
          by_cases hki : k = i
          · subst hki
            exact ⟨hk, hdata, hrem.apart⟩
          · have hun : ((fs.deleted heap i).fileMetas i).inUse = 0 := congrArg FileMeta.inUse (deleted_self fs heap i)
            rw [hrem.others i (Ne.symm hki)] at hun
            exact absurd hun hu
        · have hdel := (fsDelete_first ha hi).mp (hnone hex)
          exact absurd (Prod.mk.inj hdel.2).2 (by decide)
      · intro h
        obtain ⟨hn, hdata, hapart⟩ := h i rfl
        refine ⟨fun _ => ⟨i, _, hn, (fsDelete_first ha hi).mpr ⟨hdata, rfl⟩, deleted_removes hdata hapart⟩, ?_⟩
        exact fun hno => absurd ⟨i, hn⟩ hno
  refine ⟨hiff, fun ho => hiff.trans ⟨fun h i hi => (h i hi).1, fun h i hi => ?_⟩⟩
  obtain ⟨hi64, hu, -⟩ := h i hi
  have hok := ho.ok i hi64
  exact ⟨h i hi, fun k hk => ⟨by have := hok.le; omega, hok.blocks k hk⟩, ho.apart heap hi64 hu⟩

def twoFiles : List Call :=
  [.fsCreate (fun _ => 0) fun _ => 65, .fsCreate (fun _ => 0) fun _ => 66, .fsOpen fun _ => 65,
    .fsWrite (fun _ => 0) (fun _ => 0) 0 (fun _ => 1) 2, .fsClose 0, .fsOpen fun _ => 66,
    .fsWrite (fun _ => 0) (fun _ => 0) 0 (fun _ => 2) 3]

/-- Both files have a block, and the first one is to be deleted. -/
theorem fsDelete_named_first : ∃ fs tr, run call (started (fun _ _ => 0) unmounted) twoFiles = some (fs, tr) ∧
    Named fs (fun _ => 65) 0 ∧ Named fs (fun _ => 66) 1 ∧ [fs.usage 0, fs.usage 1] = [1, 1] ∧
    DeletesNamed (fun _ => 0) fs (fun _ => 65) ∧
    (fsDelete (fun _ => 0) fs fun _ => 65).map (fun x => (x.2, [x.1.usage 0, x.1.usage 1, x.1.disk 4097 0])) =
      some (0, [0, 1, 2]) := by
  have hallowed : Guarded call Allowed (started (fun _ _ => 0) unmounted) twoFiles := by decide +kernel
  obtain ⟨fs, tr, hrun, hsession, -⟩ := started_run _ _ hallowed
  have htwo : (run call (started (fun _ _ => 0) unmounted) twoFiles).map (fun p =>
      (decide (Named p.1 (fun _ => 65) 0 ∧ Named p.1 (fun _ => 66) 1), [p.1.usage 0, p.1.usage 1],
        (fsDelete (fun _ => 0) p.1 fun _ => 65).map fun x => (x.2, [x.1.usage 0, x.1.usage 1, x.1.disk 4097 0]))) =
      some (true, [1, 1], some (0, [0, 1, 2])) := by decide +kernel
  rw [hrun, Option.map_some, Option.some_inj] at htwo
  simp only [Prod.mk.injEq] at htwo
  obtain ⟨hnamed, hused, hdel⟩ := htwo
  obtain ⟨hfirst, hsecond⟩ := of_decide_eq_true hnamed
  refine ⟨fs, tr, hrun, hfirst, hsecond, hused, ?_, hdel⟩
  refine ((fsDelete_named _ fs _ hsession.active).2 hsession.owned).mpr fun i hi => ?_
  -- there is no slot in use before slot 0
  obtain rfl : i = 0 := by
    by_contra hne
    have hbefore := (firstIndex_some hi).2.2 0 (Nat.pos_of_ne_zero hne)
    simp only [bne_eq_false_iff_eq] at hbefore
    exact hfirst.2.1 hbefore
  exact hfirst

def twoNames : List Call := [.fsCreate (fun _ => 0) fun _ => 65, .fsCreate (fun _ => 0) fun _ => 66]

/-- The second one is to be deleted, but the first one goes. -/
theorem fsDelete_other_file : ∃ fs tr, run call (started (fun _ _ => 0) unmounted) twoNames = some (fs, tr) ∧
    Named fs (fun _ => 66) 1 ∧ ¬ Named fs (fun _ => 66) 0 ∧
    (fsDelete (fun _ => 0) fs fun _ => 66).map (fun x => (x.2, (x.1.fileMetas 0).inUse, (x.1.fileMetas 1).inUse)) =
      some (0, 0, 1) ∧ ¬ DeletesNamed (fun _ => 0) fs fun _ => 66 := by
  have htwo : (run call (started (fun _ _ => 0) unmounted) twoNames).map (fun p =>
      (decide (Named p.1 (fun _ => 66) 1 ∧ ¬ Named p.1 (fun _ => 66) 0), (p.1.fileMetas 0).inUse,
        (fsDelete (fun _ => 0) p.1 fun _ => 66).map fun x => (x.2, (x.1.fileMetas 0).inUse, (x.1.fileMetas 1).inUse))) =
      some (true, 1, some (0, 0, 1)) := by decide +kernel
  obtain ⟨⟨fs, tr⟩, hrun, heq⟩ := Option.map_eq_some_iff.mp htwo
  simp only [Prod.mk.injEq] at heq
  obtain ⟨hnamed, hfirst, hdel⟩ := heq
  obtain ⟨h1, h0⟩ := of_decide_eq_true hnamed
  refine ⟨fs, tr, hrun, h1, h0, hdel, ?_⟩
  intro ⟨hdeletes, _⟩
  obtain ⟨i, fs', hi, heq, hrem⟩ := hdeletes ⟨1, h1⟩
  rw [heq] at hdel
  have hgone := (Prod.mk.inj (Prod.mk.inj (Option.some_inj.mp hdel)).2).1
  have hne : 0 ≠ i := by
    rintro rfl
    exact h0 hi
  rw [hrem.others 0 hne, hfirst] at hgone
  exact absurd hgone (by decide)

end OsLabs.Fs
