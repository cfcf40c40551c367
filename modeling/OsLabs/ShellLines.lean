import OsLabs.Shell
import Mathlib.Data.List.Basic

/-!
# The lines that `fget_input` reads

The lines of a file are what its newlines end, and the bytes after the last
newline when there are any. `fget_input` gives back each line that a newline
ends, and drops the bytes after the last newline when it meets the end.
-/

namespace OsLabs.Shell

def lines (file : List Byte) : List (List Byte) :=
  let parts := file.splitOn newline
  if parts.getLast? = some [] then parts.dropLast else parts

def unlines (ls : List (List Byte)) : List Byte := (ls.map (· ++ [newline])).flatten

/-- The last line has its newline. -/
def Ended (file : List Byte) : Prop := file = [] ∨ file.getLast? = some newline

instance (file : List Byte) : Decidable (Ended file) :=
  inferInstanceAs (Decidable (file = [] ∨ file.getLast? = some newline))

/-- Neither NUL nor 0xFF, which a `char` cannot tell from EOF. -/
def Plain (file : List Byte) : Prop := ∀ c ∈ file, c ≠ 0 ∧ c ≠ 255

instance (file : List Byte) : Decidable (Plain file) := inferInstanceAs (Decidable (∀ c ∈ file, c ≠ 0 ∧ c ≠ 255))

/-- The strings are the lines of the file, each with its NUL inside its block,
and give back the file. -/
structure ReadsAs (file : List Byte) (strs : List (List Byte)) : Prop where
  lines_eq : strs.map (cstr · 0) = lines file
  joined : unlines (strs.map (cstr · 0)) = if Ended file then file else file ++ [newline]
  terminated : ∀ str ∈ strs, 0 ∈ str

/-! ## The lines of a file -/

theorem lines_line {line : List Byte} (h : newline ∉ line) (rest : List Byte) :
    lines (line ++ newline :: rest) = line :: lines rest := by
  have hne := List.splitOn_ne_nil newline rest
  simp only [lines, List.splitOn_append_cons_self_of_not_mem h, List.getLast?_cons, List.getLast?_eq_some_getLast hne,
    Option.getD_some]
  split
  · exact List.dropLast_cons_of_ne_nil hne
  · rfl

theorem lines_open {line : List Byte} (h : newline ∉ line) : lines line = if line = [] then [] else [line] := by
  simp only [lines, List.splitOn_eq_singleton h, List.getLast?_singleton, Option.some.injEq]
  split <;> rfl

/-- A file is one line after the other, with an unfinished one at its end. -/
theorem file_induction {P : List Byte → Prop} (hopen : ∀ line, newline ∉ line → P line)
    (hline : ∀ line rest, newline ∉ line → P rest → P (line ++ newline :: rest)) (file : List Byte) : P file := by
  induction hn : file.length using Nat.strongRecOn generalizing file with
  | ind n ih =>
    by_cases hf : newline ∈ file
    · obtain ⟨line, rest, rfl, hl⟩ := List.eq_append_cons_of_mem hf
      refine hline line rest hl (ih rest.length ?_ rest rfl)
      simp only [List.length_append, List.length_cons] at hn
      omega
    · exact hopen file hf

theorem ended_line (line rest : List Byte) : Ended (line ++ newline :: rest) ↔ Ended rest := by
  cases rest with
  | nil => simp [Ended]
  | cons c rest => simp [Ended, List.getLast?_append, List.getLast?_cons_cons]

theorem ended_open {line : List Byte} (h : newline ∉ line) : Ended line ↔ line = [] := by
  constructor
  · intro he
    rcases he with he | he
    · exact he
    · exact absurd (List.mem_of_getLast? he) h
  · exact Or.inl

theorem unlines_lines (file : List Byte) :
    unlines (lines file) = if Ended file then file else file ++ [newline] := by
  induction file using file_induction with
  | hopen line h =>
    rw [lines_open h]
    by_cases hl : line = []
    · simp [hl, unlines, Ended]
    · simp [hl, unlines, ended_open h]
  | hline line rest h ih =>
    rw [lines_line h]
    simp only [unlines, List.map_cons, List.flatten_cons, ended_line] at ih ⊢
    rw [ih]
    split <;> simp

theorem lines_ne_nil {file : List Byte} (h : ¬ Ended file) : lines file ≠ [] := by
  intro hl
  have := unlines_lines file
  rw [hl, if_neg h] at this
  simp [unlines] at this

/-- The lines that a newline ends. -/
def endedLines (file : List Byte) : List (List Byte) :=
  if Ended file then lines file else (lines file).dropLast

theorem endedLines_open {line : List Byte} (h : newline ∉ line) : endedLines line = [] := by
  rw [endedLines, lines_open h]
  split
  · rename_i he
    rw [if_pos ((ended_open h).mp he)]
  · split <;> rfl

theorem endedLines_line {line : List Byte} (h : newline ∉ line) (rest : List Byte) :
    endedLines (line ++ newline :: rest) = line :: endedLines rest := by
  simp only [endedLines, ended_line, lines_line h]
  split
  · rfl
  · rename_i he
    exact List.dropLast_cons_of_ne_nil (lines_ne_nil he)

theorem endedLines_eq_lines (file : List Byte) : endedLines file = lines file ↔ Ended file := by
  rw [endedLines]
  split
  · rename_i he
    exact ⟨fun _ => he, fun _ => rfl⟩
  · rename_i he
    refine ⟨fun h => ?_, fun h => absurd h he⟩
    have hlen := congrArg List.length h
    have := List.length_pos_iff.mpr (lines_ne_nil he)
    rw [List.length_dropLast] at hlen
    omega

/-! ## One call -/

section
variable (junk : Nat → Nat → Byte)

theorem toInt_eof (c : Byte) : c.toInt = -1 ↔ c = 255 := by
  revert c
  decide

theorem store_at (pre post : List Byte) (x c : Byte) {i : Int} (hi : i = pre.length) :
    store (pre ++ x :: post) i c = some (pre ++ c :: post) := by
  subst hi
  rw [store, if_pos ⟨Int.natCast_nonneg _, by rw [List.length_append, List.length_cons]; omega⟩]
  simp

/-- `str = realloc(str, ++length)`, which fails when `length` leaves the range of `int`. -/
theorem realloc_next (junk : Nat → Byte) (buf : List Byte) (h : buf.length ≤ intMax) :
    realloc junk buf (toSize (toInt (buf.length + 1))) =
      if buf.length < intMax then some (buf ++ [junk buf.length]) else none := by
  have hI : intMax = 2147483647 := rfl
  have hP : ptrdiffMax = 9223372036854775807 := rfl
  split
  · have hs : toSize (toInt (buf.length + 1)) = buf.length + 1 := by
      rw [toInt_of_bounds (by omega) (by omega)]
      unfold toSize
      omega
    rw [hs, realloc, if_pos (by omega), List.take_of_length_le (by omega)]
    simp
  · have hs : ptrdiffMax < toSize (toInt (buf.length + 1)) := by
      rw [show (buf.length : Int) + 1 = 2147483648 by omega]
      decide
    rw [realloc, if_neg (by omega)]

/-- A byte of a line moves into the string; the last byte of the new block is junk. -/
theorem fgetLoop_byte {c : Byte} (hn : c ≠ newline) (h0 : c ≠ 0) (h255 : c ≠ 255) (rest : File) {pre : List Byte}
    (x : Byte) {length : Int} (hlength : length = pre.length + 1) (hpre : pre.length < intMax) :
    ∃ y, fgetLoop junk (c :: rest) (pre ++ [x]) length =
      if pre.length + 1 < intMax then fgetLoop junk rest (pre ++ [c] ++ [y]) (length + 1) else none := by
  have hI : intMax = 2147483647 := rfl
  have hlen : (pre ++ [x]).length = pre.length + 1 := List.length_append
  have hr := realloc_next (junk rest.length) (pre ++ [x]) (by omega)
  rw [hlen, show ((pre.length + 1 : Nat) : Int) + 1 = length + 1 by omega] at hr
  refine ⟨junk rest.length (pre.length + 1), ?_⟩
  rw [fgetLoop, if_neg (not_or.mpr ⟨hn, h0⟩), if_neg ((toInt_eof c).not.mpr h255)]
  by_cases hl : pre.length + 1 < intMax
  · have hstore := store_at pre [junk rest.length (pre.length + 1)] x c (i := toInt (length + 1) - 2)
      (by rw [toInt_of_bounds (by omega) (by omega)]; omega)
    rw [if_pos hl, List.append_assoc, List.singleton_append] at hr
    rw [if_pos hl]
    simp only [hr, hstore, List.append_assoc, List.singleton_append]
    rw [toInt_of_bounds (by omega) (by omega)]
  · rw [if_neg hl] at hr
    rw [if_neg hl]
    simp only [hr]

/-- The loop over bytes that end neither the line nor the file. -/
theorem fgetLoop_bytes {line : List Byte} (hn : newline ∉ line) (hp : Plain line) (rest : File) :
    ∀ (pre : List Byte) (x : Byte) (length : Int), length = pre.length + 1 → pre.length < intMax →
      ∃ y, fgetLoop junk (line ++ rest) (pre ++ [x]) length =
        if pre.length + line.length < intMax then fgetLoop junk rest (pre ++ line ++ [y]) (length + line.length)
        else none := by
  induction line with
  | nil =>
    intro pre x length _ hpre
    exact ⟨x, by simp [hpre]⟩
  | cons c line ih =>
    intro pre x length hlength hpre
    rw [List.mem_cons, not_or] at hn
    obtain ⟨⟨h0, h255⟩, hp⟩ := List.forall_mem_cons.mp hp
    obtain ⟨y, hy⟩ := fgetLoop_byte junk (Ne.symm hn.1) h0 h255 (line ++ rest) x hlength hpre
    rw [List.cons_append, hy]
    by_cases hl : pre.length + 1 < intMax
    · obtain ⟨z, hz⟩ := ih hn.2 hp (pre ++ [c]) y (length + 1) (by simp; omega) (by simpa using hl)
      refine ⟨z, ?_⟩
      rw [if_pos hl, hz]
      simp [Nat.add_assoc, Nat.add_comm 1, Int.add_assoc, Int.add_comm 1]
    · exact ⟨x, by rw [if_neg hl, if_neg (by simp; omega)]⟩

theorem fgetInput_bytes {line : List Byte} (hn : newline ∉ line) (hp : Plain line) (rest : File) :
    ∃ y, fgetInput junk (line ++ rest) =
      if line.length < intMax then fgetLoop junk rest (line ++ [y]) (line.length + 1) else none := by
  obtain ⟨y, hy⟩ := fgetLoop_bytes junk hn hp rest [] 0 1 rfl (by simp [intMax])
  refine ⟨y, ?_⟩
  rw [fgetInput, getString, show ([0] : List Byte) = [] ++ [0] from rfl, hy]
  simp [Int.add_comm]

theorem fgetInput_line {line : List Byte} (hn : newline ∉ line) (hp : Plain line) (rest : File) :
    fgetInput junk (line ++ newline :: rest) =
      if line.length < intMax then some (some (line ++ [0]), rest) else none := by
  obtain ⟨y, hy⟩ := fgetInput_bytes junk hn hp (newline :: rest)
  rw [hy]
  split
  · rw [fgetLoop, if_pos (Or.inl rfl), store_at line [] y 0 (by omega)]
    rfl
  · rfl

/-- The end of the file ends the call without a string, also inside a line. -/
theorem fgetInput_open {line : List Byte} (hn : newline ∉ line) (hp : Plain line) :
    fgetInput junk line = if line.length < intMax then some (none, []) else none := by
  obtain ⟨y, hy⟩ := fgetInput_bytes junk hn hp []
  rw [List.append_nil] at hy
  rw [hy, fgetLoop]

/-! ## Successive calls -/

theorem batchLoop_line {line : List Byte} (hn : newline ∉ line) (hp : Plain line) (rest : File) (fuel : Nat) :
    batchLoop junk (fuel + 1) (line ++ newline :: rest) =
      if line.length < intMax then (batchLoop junk fuel rest).map ((line ++ [0]) :: ·) else none := by
  rw [batchLoop, fgetInput_line junk hn hp rest]
  by_cases hl : line.length < intMax
  · simp only [if_pos hl]
  · simp only [if_neg hl]

theorem batchLoop_open {line : List Byte} (hn : newline ∉ line) (hp : Plain line) (fuel : Nat) :
    batchLoop junk (fuel + 1) line = if line.length < intMax then some [] else none := by
  rw [batchLoop, fgetInput_open junk hn hp]
  by_cases hl : line.length < intMax
  · simp only [if_pos hl]
  · simp only [if_neg hl]

/-- What the calls read, when no line is too long for the `int` that counts its bytes. -/
theorem batchLoop_eq {file : List Byte} : ∀ {fuel}, Plain file → file.length < fuel →
    batchLoop junk fuel file =
      if ∀ line ∈ lines file, line.length < intMax then some ((endedLines file).map (· ++ [0])) else none := by
  induction file using file_induction with
  | hopen line hn =>
    intro fuel hp hfuel
    obtain ⟨fuel, rfl⟩ := Nat.exists_eq_add_one_of_ne_zero (show fuel ≠ 0 by omega)
    rw [batchLoop_open junk hn hp, lines_open hn, endedLines_open hn]
    by_cases hl : line = []
    · simp [hl, intMax]
    · simp [hl]
  | hline line rest hn ih =>
    intro fuel hp hfuel
    obtain ⟨fuel, rfl⟩ := Nat.exists_eq_add_one_of_ne_zero (show fuel ≠ 0 by omega)
    obtain ⟨hpl, hpr⟩ := List.forall_mem_append.mp hp
    rw [List.length_append, List.length_cons] at hfuel
    rw [batchLoop_line junk hn hpl, ih (List.forall_mem_cons.mp hpr).2 (by omega), lines_line hn, endedLines_line hn]
    simp only [List.forall_mem_cons]
    by_cases hl : line.length < intMax
    · rw [if_pos hl]
      by_cases hr : ∀ line ∈ lines rest, line.length < intMax
      · rw [if_pos hr, if_pos ⟨hl, hr⟩]
        rfl
      · rw [if_neg hr, if_neg (fun h => hr h.2)]
        rfl
    · rw [if_neg hl, if_neg (fun h => hl h.1)]

theorem batch_eq {file : List Byte} (hp : Plain file) :
    batch junk file =
      if ∀ line ∈ lines file, line.length < intMax then some ((endedLines file).map (· ++ [0])) else none :=
  batchLoop_eq junk hp (Nat.lt_succ_self _)

theorem cstr_append {line : List Byte} (h : 0 ∉ line) (rest : List Byte) : cstr (line ++ 0 :: rest) 0 = line := by
  have hall : ∀ c ∈ line, (c != 0) = true := by
    intro c hc
    exact bne_iff_ne.mpr fun h0 => h (h0 ▸ hc)
  rw [cstr, List.drop_zero, List.takeWhile_append_of_pos hall]
  simp

theorem mem_lines {file : List Byte} : ∀ {line}, line ∈ lines file → ∀ c ∈ line, c ∈ file := by
  induction file using file_induction with
  | hopen l hn =>
    intro line hl c hc
    rw [lines_open hn] at hl
    split at hl
    · simp at hl
    · rwa [List.mem_singleton.mp hl] at hc
  | hline l rest hn ih =>
    intro line hl c hc
    rw [lines_line hn, List.mem_cons] at hl
    obtain rfl | hl := hl
    · exact List.mem_append_left _ hc
    · exact List.mem_append_right _ (List.mem_cons_of_mem _ (ih hl c hc))

theorem mem_endedLines {file line : List Byte} (h : line ∈ endedLines file) : line ∈ lines file := by
  rw [endedLines] at h
  split at h
  · exact h
  · exact List.dropLast_subset _ h

theorem cstr_endedLines {file : List Byte} (hp : Plain file) :
    ((endedLines file).map (· ++ [0])).map (cstr · 0) = endedLines file := by
  rw [List.map_map]
  conv => rhs; rw [← List.map_id (endedLines file)]
  apply List.map_congr_left
  intro line hl
  exact cstr_append (fun h0 => (hp 0 (mem_lines (mem_endedLines hl) 0 h0)).1 rfl) []

/-- The calls give back the lines of the file exactly when the last line has its
newline and the size of each string is in the range of `int`. -/
theorem batch_reads_lines {file : List Byte} (hp : Plain file) :
    (∃ strs, batch junk file = some strs ∧ ReadsAs file strs) ↔
      Ended file ∧ ∀ line ∈ lines file, line.length < intMax := by
  constructor
  · rintro ⟨strs, hb, hr⟩
    rw [batch_eq junk hp] at hb
    split at hb
    · rename_i hshort
      cases hb
      have hl := hr.lines_eq
      rw [cstr_endedLines hp] at hl
      exact ⟨(endedLines_eq_lines file).mp hl, hshort⟩
    · cases hb
  · rintro ⟨he, hshort⟩
    have hl := (endedLines_eq_lines file).mpr he
    have hc := cstr_endedLines hp
    rw [hl] at hc
    refine ⟨(lines file).map (· ++ [0]), by rw [batch_eq junk hp, if_pos hshort, hl], hc, ?_, ?_⟩
    · rw [hc, unlines_lines]
    · intro str hstr
      obtain ⟨line, -, rfl⟩ := List.mem_map.mp hstr
      simp

end

/-- "ls", an empty line and "x" -/
theorem batch_reads_three :
    ∃ strs, batch (fun _ _ => 1) [108, 115, 10, 10, 120, 10] = some strs ∧ ReadsAs [108, 115, 10, 10, 120, 10] strs :=
  (batch_reads_lines _ (by decide)).mpr (by decide)

/-- "ls" without a newline is never run. -/
theorem batch_drops_ls : Plain [108, 115] ∧ lines [108, 115] = [[108, 115]] ∧
    ∀ junk, batch junk [108, 115] = some [] ∧ ¬ ∃ strs, batch junk [108, 115] = some strs ∧ ReadsAs [108, 115] strs := by
  refine ⟨by decide, by decide, fun junk => ?_⟩
  have hb : batch junk [108, 115] = some [] := by
    rw [batch_eq junk (by decide), if_pos (by decide)]
    rfl
  refine ⟨hb, ?_⟩
  rintro ⟨strs, hs, hr⟩
  cases hb.symm.trans hs
  exact absurd hr.lines_eq (by decide)

end OsLabs.Shell
