import OsLabs.FsFrame
import OsLabs.FsOwn

/-!
# Calls on a descriptor that is closed

Four of the six calls on a descriptor test whether its file is -1. `fs_read`
and `fs_write` do not: the first ends its loop when it sees the size -1 and
returns 0, the second goes on to the metadata of file -1.
-/

namespace OsLabs.Fs

def Call.OnDescriptor (fildes : Nat) : Call → Prop
  | .fsClose d | .fsGetFilesize d | .fsLseek d _ | .fsTruncate _ d _ | .fsRead _ d _ _ | .fsWrite _ _ d _ _ => d = fildes
  | .mount _ | .umount | .fsOpen _ | .fsCreate _ _ | .fsDelete _ _ => False

/-- The call tests whether the descriptor is closed. -/
def Call.TestsFile : Call → Prop
  | .fsClose _ | .fsGetFilesize _ | .fsLseek _ _ | .fsTruncate _ _ _ => True
  | .fsRead _ _ _ _ | .fsWrite _ _ _ _ _ => False
  | .mount _ | .umount | .fsOpen _ | .fsCreate _ _ | .fsDelete _ _ => False

section
variable {fs : FileSystem} (ha : fs.active = true) {d : Nat} (hd : d < 32) (hc : (fs.descriptors d).file = -1)
include ha

theorem fsRead_nonneg {heap : Block} {buf buf' : Nat → Byte} {n : Nat} {fs' : FileSystem} {r : Int}
    (h : fsRead heap fs d buf n = some (fs', buf', r)) : 0 ≤ r := by
  obtain ⟨r₁, -, -, rfl⟩ := fsRead_some ha h
  exact Int.natCast_nonneg r₁.read

include hc

theorem fsWrite_closed (heap heap' : Block) (buf : Nat → Byte) (n : Nat) : fsWrite heap heap' fs d buf n = none := by
  cases h : fsWrite heap heap' fs d buf n with
  | none => rfl
  | some x =>
    obtain ⟨⟨-, i, -, hi⟩, -⟩ := fsWrite_some ha h
    rw [hc] at hi
    exact absurd hi (by omega)

include hd

theorem fsClose_closed : fsClose fs d = some (fs, -1) := by
  unfold fsClose
  rw [if_pos ha, descriptor_eq hd]
  simp only [Option.bind_eq_bind, Option.bind_some]
  rw [if_pos hc]

/-- A call on a closed descriptor fails cleanly exactly if it tests for this. -/
theorem closed_descriptor_fails {c : Call} (hcall : c.OnDescriptor d) :
    call fs c = some (fs, -1, []) ↔ c.TestsFile := by
  cases c with
  | fsClose e =>
    obtain rfl : e = d := hcall
    exact ⟨fun _ => trivial, fun _ => congrArg (Option.map _) (fsClose_closed ha hd hc)⟩
  | fsGetFilesize e =>
    obtain rfl : e = d := hcall
    exact ⟨fun _ => trivial, fun _ => congrArg (Option.map _) (fsGetFilesize_closed ha hd hc)⟩
  | fsLseek e offset =>
    obtain rfl : e = d := hcall
    exact ⟨fun _ => trivial, fun _ => congrArg (Option.map _) (fsLseek_closed ha hd hc offset)⟩
  | fsTruncate heap e length =>
    obtain rfl : e = d := hcall
    exact ⟨fun _ => trivial, fun _ => congrArg (Option.map _) (fsTruncate_closed ha hd hc heap length)⟩
  | fsRead heap e buf n =>
    refine ⟨fun h => ?_, fun h => absurd h id⟩
    obtain ⟨buf', hread⟩ := call_read_some h
    exact absurd (fsRead_nonneg ha hread) (by decide)
  | fsWrite heap heap' e buf n =>
    obtain rfl : e = d := hcall
    refine ⟨fun h => ?_, fun h => absurd h id⟩
    have hwrite := call_some h
    rw [fsWrite_closed ha hc] at hwrite
    cases hwrite
  | mount junk => exact absurd hcall id
  | umount => exact absurd hcall id
  | fsOpen name => exact absurd hcall id
  | fsCreate heap name => exact absurd hcall id
  | fsDelete heap name => exact absurd hcall id

end

theorem closed_descriptor_fails_lseek :
    call (started (fun _ _ => 0) unmounted) (.fsLseek 0 5) = some (started (fun _ _ => 0) unmounted, -1, []) ↔
      (Call.fsLseek 0 5).TestsFile :=
  closed_descriptor_fails rfl (by decide) rfl rfl

/-- After `mount_fs`, when all descriptors are closed: a read gives 0, a write
indexes `file_metas` with -1. -/
theorem closed_descriptor_used :
    ((started (fun _ _ => 0) unmounted).descriptors 0).file = -1 ∧
    (call (started (fun _ _ => 0) unmounted) (.fsRead (fun _ => 0) 0 (fun _ => 0) 1)).map (fun x => x.2.1) = some 0 ∧
    call (started (fun _ _ => 0) unmounted) (.fsWrite (fun _ => 0) (fun _ => 0) 0 (fun _ => 66) 1) = none := by
  have hread : fsRead (fun _ => 0) (started (fun _ _ => 0) unmounted) 0 (fun _ => 0) 1 =
      some (started (fun _ _ => 0) unmounted, fun _ => 0, 0) := fsRead_closed rfl (by decide) _ _ _ (by decide) rfl
  have hwrite : fsWrite (fun _ => 0) (fun _ => 0) (started (fun _ _ => 0) unmounted) 0 (fun _ => 66) 1 = none :=
    fsWrite_closed rfl rfl _ _ _ _
  refine ⟨rfl, ?_, ?_⟩
  · simp only [call, hread, Option.map_some]
  · simp only [call, hwrite, Option.map_none]

end OsLabs.Fs
