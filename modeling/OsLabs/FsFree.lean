import OsLabs.FsSound

/-!
# Freeing blocks

The loops of `fs_delete` and `fs_truncate` free one block after another. Each is
defined exactly if the entries that it takes are data blocks.
-/

namespace OsLabs.Fs

def IsData (block : Int) : Prop := 4096 ≤ block ∧ block < 8192

instance (block : Int) : Decidable (IsData block) := inferInstanceAs (Decidable (_ ∧ _))

/-- `usage` without the data blocks whose numbers are in the list. -/
def unuse (blocks : List Int) (usage : Nat → Byte) : Nat → Byte :=
  fun b => if (b : Int) + 4096 ∈ blocks then 0 else usage b

theorem unuse_nil (usage : Nat → Byte) : unuse [] usage = usage := by
  funext b
  simp [unuse]

theorem unuse_append (l l' : List Int) (usage : Nat → Byte) : unuse (l ++ l') usage = unuse l' (unuse l usage) := by
  funext b
  unfold unuse
  by_cases h' : (b : Int) + 4096 ∈ l' <;> by_cases h : (b : Int) + 4096 ∈ l <;> simp [h, h']

theorem unuse_single {block : Int} (h : IsData block) (usage : Nat → Byte) :
    Function.update usage (block - (diskBlocks / 2 : Nat)).toNat 0 = unuse [block] usage := by
  obtain ⟨h1, h2⟩ := h
  have hhalf : ((diskBlocks / 2 : Nat) : Int) = 4096 := rfl
  funext b
  rw [hhalf]
  unfold unuse
  by_cases hb : b = (block - 4096).toNat
  · rw [hb, Function.update_self, if_pos]
    exact List.mem_singleton.mpr (by omega)
  · rw [Function.update_of_ne hb, if_neg]
    intro hmem
    have := List.mem_singleton.mp hmem
    omega

theorem blockAt_some {f : FileMeta} {k block : Int} (h : f.blockAt k = some block) :
    0 ≤ k ∧ k < 4096 ∧ block = f.blocks k.toNat := by
  unfold FileMeta.blockAt at h
  split at h
  · rename_i hk
    cases h
    exact ⟨hk.1, hk.2, rfl⟩
  · cases h

theorem data_iff (block : Int) :
    (0 ≤ block - (diskBlocks / 2 : Nat) ∧ block - (diskBlocks / 2 : Nat) < (diskBlocks / 2 : Nat)) ↔ IsData block := by
  have hhalf : ((diskBlocks / 2 : Nat) : Int) = 4096 := rfl
  rw [hhalf]
  unfold IsData
  omega

/-! ## All blocks of a file -/

def FileMeta.ListsData (f : FileMeta) : Prop := ∀ k : Nat, (k : Int) < f.numBlocks → k < 4096 ∧ IsData (f.blocks k)

theorem lt_count_iff {f : FileMeta} {k : Nat} : k < f.count ↔ (k : Int) < f.numBlocks := Int.lt_toNat

def FileMeta.firstBlocks (f : FileMeta) (n : Nat) : List Int := (List.range n).map f.blocks

theorem firstBlocks_succ (f : FileMeta) (n : Nat) : f.firstBlocks (n + 1) = f.firstBlocks n ++ [f.blocks n] := by
  simp [FileMeta.firstBlocks, List.range_succ]

theorem freeBlocks_iff {f : FileMeta} {usage usage' : Nat → Byte} {n : Nat} :
    freeBlocks f usage n = some usage' ↔
      (∀ k < n, k < 4096 ∧ IsData (f.blocks k)) ∧ usage' = unuse (f.firstBlocks n) usage := by
  induction n generalizing usage' with
  | zero =>
    simp only [freeBlocks, Option.some.injEq, FileMeta.firstBlocks, List.range_zero, List.map_nil, unuse_nil]
    exact ⟨fun h => ⟨fun _ hk => absurd hk (Nat.not_lt_zero _), h.symm⟩, fun h => h.2.symm⟩
  | succ n ih =>
    unfold freeBlocks
    simp only [Option.bind_eq_bind, Option.bind_eq_some_iff, data_iff, firstBlocks_succ, unuse_append]
    constructor
    · intro ⟨usage₁, h₁, block, hblock, h⟩
      obtain ⟨hdata, rfl⟩ := ih.mp h₁
      obtain ⟨-, hn, rfl⟩ := blockAt_some hblock
      split at h
      · rename_i hd
        cases h
        refine ⟨fun k hk => ?_, unuse_single hd _⟩
        rcases Nat.lt_succ_iff_lt_or_eq.mp hk with hk | rfl
        · exact hdata k hk
        · exact ⟨by omega, hd⟩
      · cases h
    · intro ⟨hdata, h⟩
      obtain ⟨hn, hd⟩ := hdata n (Nat.lt_succ_self n)
      refine ⟨_, ih.mpr ⟨fun k hk => hdata k (Nat.lt_succ_of_lt hk), rfl⟩, f.blocks n, blockAt_eq f hn, ?_⟩
      rw [if_pos hd, unuse_single hd, h]

theorem unuse_firstBlocks {f : FileMeta} {usage : Nat → Byte} {n b : Nat} :
    unuse (f.firstBlocks n) usage b ≠ 0 ↔ usage b ≠ 0 ∧ ∀ k < n, f.blocks k ≠ (b : Int) + 4096 := by
  have hmem : (b : Int) + 4096 ∈ f.firstBlocks n ↔ ∃ k < n, f.blocks k = (b : Int) + 4096 := by
    simp only [FileMeta.firstBlocks, List.mem_map, List.mem_range]
  unfold unuse
  by_cases hb : (b : Int) + 4096 ∈ f.firstBlocks n
  · rw [if_pos hb]
    obtain ⟨k, hk, hblock⟩ := hmem.mp hb
    exact ⟨fun hne => absurd rfl hne, fun h => absurd hblock (h.2 k hk)⟩
  · rw [if_neg hb]
    exact ⟨fun hne => ⟨hne, fun k hk hblock => hb (hmem.mpr ⟨k, hk, hblock⟩)⟩, And.left⟩

/-! ## The last blocks of a file -/

/-- The entries from `m + n` down to `m + 1`. -/
def blocksDown (blocks : Nat → Int) (m : Nat) : Nat → List Int
  | 0 => []
  | n + 1 => blocks (m + (n + 1)) :: blocksDown blocks m n

theorem mem_blocksDown {blocks : Nat → Int} {m n : Nat} {x : Int} :
    x ∈ blocksDown blocks m n ↔ ∃ k, m < k ∧ k ≤ m + n ∧ blocks k = x := by
  induction n with
  | zero => exact ⟨nofun, fun ⟨k, h1, h2, _⟩ => absurd h1 (by omega)⟩
  | succ n ih =>
    unfold blocksDown
    rw [List.mem_cons, ih]
    constructor
    · rintro (rfl | ⟨k, h1, h2, h3⟩)
      · exact ⟨m + (n + 1), by omega, by omega, rfl⟩
      · exact ⟨k, h1, by omega, h3⟩
    · intro ⟨k, h1, h2, h3⟩
      by_cases hk : k = m + (n + 1)
      · exact Or.inl (by rw [← h3, hk])
      · exact Or.inr ⟨k, h1, by omega, h3⟩

theorem dropBlocks_iff {f f' : FileMeta} {usage usage' : Nat → Byte} {m n : Nat} (hnum : f.numBlocks = (m + n : Nat)) :
    dropBlocks n f usage = some (f', usage') ↔ (∀ k, m < k → k ≤ m + n → k < 4096 ∧ IsData (f.blocks k)) ∧
      f' = { f with numBlocks := m } ∧ usage' = unuse (blocksDown f.blocks m n) usage := by
  induction n generalizing f f' usage usage' with
  | zero =>
    simp only [dropBlocks, blocksDown, Option.some.injEq, Prod.mk.injEq, unuse_nil]
    constructor
    · rintro ⟨rfl, rfl⟩
      exact ⟨fun k h1 h2 => absurd h1 (by omega), by rw [← Nat.add_zero m, ← hnum], rfl⟩
    · rintro ⟨-, rfl, rfl⟩
      refine ⟨?_, rfl⟩
      rw [← Nat.add_zero m, ← hnum]
  | succ n ih =>
    unfold dropBlocks
    simp only [Option.bind_eq_bind, Option.bind_eq_some_iff, data_iff]
    have hdown : blocksDown f.blocks m (n + 1) = [f.blocks (m + (n + 1))] ++ blocksDown f.blocks m n := rfl
    have ih := fun f' usage' => @ih { f with numBlocks := f.numBlocks - 1 } f' (unuse [f.blocks (m + (n + 1))] usage) usage'
      (show f.numBlocks - 1 = (m + n : Nat) by omega)
    constructor
    · intro ⟨block, hblock, h⟩
      obtain ⟨-, hlt, hb⟩ := blockAt_some hblock
      rw [hnum, Int.toNat_natCast] at hb
      subst hb
      split at h
      · rename_i hd
        rw [unuse_single hd] at h
        obtain ⟨hdata, rfl, rfl⟩ := (ih _ _).mp h
        refine ⟨?_, rfl, ?_⟩
        · intro k h1 h2
          by_cases hk : k = m + (n + 1)
          · rw [hk]
            exact ⟨by omega, hd⟩
          · exact hdata k h1 (by omega)
        · rw [hdown, unuse_append]
      · cases h
    · rintro ⟨hdata, rfl, rfl⟩
      obtain ⟨hlt, hd⟩ := hdata (m + (n + 1)) (by omega) (by omega)
      refine ⟨f.blocks (m + (n + 1)), ?_, ?_⟩
      · rw [hnum]
        exact blockAt_eq f hlt
      · rw [if_pos hd, unuse_single hd, hdown, unuse_append]
        exact (ih _ _).mpr ⟨fun k h1 h2 => hdata k h1 (by omega), rfl, rfl⟩

end OsLabs.Fs
