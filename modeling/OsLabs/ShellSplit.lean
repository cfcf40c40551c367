import OsLabs.Shell
import OsLabs.Words

/-!
# Splitting a line into commands and words

`strtok` writes a NUL after each token, so the tokens lie one after the other in
the buffer, each a string of its own. `run_cmd` splits a command inside its own
part of the buffer and leaves the commands after it alone.
-/

namespace OsLabs.Shell

/-- The words of each segment that has a byte other than a space. -/
def vectors (line : List Byte) : List (List (List Byte)) :=
  ((line.splitOn semicolon).filter fun seg => seg.any (· != space)).map (words space)

def wanted (forker : Int) (ws : List (List Byte)) : Command where
  argv := ws.map some ++ [none]
  answer := if ws.head? = some exitText ∨ ws.head? = some quitText then .exit else .forked forker

/-- The commands of the line are its vectors; the ones whose first word is exactly
"exit" or "quit" answer `exit`, and all others are forked. The block of the line
may be larger than the line. -/
def SplitsExactly (fork : Nat → Int) (line slack : List Byte) : Prop :=
  ∃ b, handleLine fork (line ++ 0 :: slack) = some (b, (vectors line).mapIdx fun k ws => wanted (fork k) ws)

/-- No segment has only spaces, no first word goes on after "exit" or "quit", and
the counts are in the range of `int`. -/
structure Splittable (line : List Byte) : Prop where
  nonblank : ∀ seg ∈ line.splitOn semicolon, seg ≠ [] → ∃ c ∈ seg, c ≠ space
  exits : ∀ ws ∈ vectors line, ∀ w ∈ ws.head?, (exitText <+: w → w = exitText) ∧ (quitText <+: w → w = quitText)
  segments : (vectors line).length ≤ intMax
  args : ∀ ws ∈ vectors line, ws.length < intMax

/-! ## One token -/

section
variable {d : Byte} {pre post w : List Byte} {s : Option Nat} {saved n : Nat} {c : Byte}

theorem drop_mid (hn : n = pre.length) : (pre ++ post).drop n = post := by
  rw [hn, List.drop_left]

theorem getElem?_mid (hn : n = pre.length) : (pre ++ c :: post)[n]? = some c := by
  simp [hn]

theorem takeWhile_gap (k : Nat) (hc : c ≠ d) :
    ((List.replicate k d ++ c :: post).takeWhile (· == d)).length = k := by
  rw [List.takeWhile_append_of_pos fun x hx => beq_iff_eq.mpr (List.eq_of_mem_replicate hx),
    List.takeWhile_cons_of_neg (by simpa using hc)]
  simp

theorem takeWhile_word (hd : d ∉ w) (h0 : 0 ∉ w) (hc : c = d ∨ c = 0) :
    ((w ++ c :: post).takeWhile fun c => c != d && c != 0).length = w.length := by
  rw [List.takeWhile_append_of_pos, List.takeWhile_cons_of_neg, List.append_nil]
  · obtain rfl | rfl := hc <;> simp
  · intro x hx
    rw [Bool.and_eq_true, bne_iff_ne, bne_iff_ne]
    exact ⟨fun h => hd (h ▸ hx), fun h => h0 (h ▸ hx)⟩

/-- Only delimiters are left. -/
theorem strtok_gap (hd : d ≠ 0) (pre post : List Byte) (s : Option Nat) (saved : Nat)
    (hs : s.getD saved = pre.length) (k : Nat) :
    strtok d s ⟨pre ++ (List.replicate k d ++ 0 :: post), saved⟩ =
      some (⟨pre ++ (List.replicate k d ++ 0 :: post), pre.length + k⟩, none) := by
  have htok : (pre ++ (List.replicate k d ++ 0 :: post))[pre.length + k]? = some 0 := by
    rw [← List.append_assoc]
    exact getElem?_mid (by simp)
  simp only [strtok, hs, drop_mid, takeWhile_gap k (Ne.symm hd), htok, if_pos]

/-- The two reads of the buffer around a token, which `c` ends. -/
theorem strtok_token (hs : s.getD saved = pre.length) (hw : w ≠ []) (hdw : d ∉ w) (h0w : 0 ∉ w) (k : Nat)
    (hc : c = d ∨ c = 0) (rest : List Byte) :
    strtok d s ⟨pre ++ (List.replicate k d ++ (w ++ c :: rest)), saved⟩ =
      if c = 0 then
        some (⟨pre ++ (List.replicate k d ++ (w ++ c :: rest)), pre.length + k + w.length⟩, some (pre.length + k))
      else
        some (⟨pre ++ (List.replicate k d ++ (w ++ 0 :: rest)), pre.length + k + w.length + 1⟩,
          some (pre.length + k)) := by
  obtain ⟨a, v, rfl⟩ := List.exists_cons_of_ne_nil hw
  have had : a ≠ d := fun h => hdw (h ▸ List.mem_cons_self)
  have ha0 : a ≠ 0 := fun h => h0w (h ▸ List.mem_cons_self)
  have hdrop : (pre ++ (List.replicate k d ++ (a :: v ++ c :: rest))).drop (pre.length + k) = a :: v ++ c :: rest := by
    rw [← List.append_assoc]
    exact drop_mid (by simp)
  have htok : (pre ++ (List.replicate k d ++ (a :: v ++ c :: rest)))[pre.length + k]? = some a := by
    rw [← List.append_assoc]
    exact getElem?_mid (by simp)
  have hfin : (pre ++ (List.replicate k d ++ (a :: v ++ c :: rest)))[pre.length + k + (a :: v).length]? = some c := by
    rw [← List.append_assoc, ← List.append_assoc]
    exact getElem?_mid (by simp; omega)
  have hset : (pre ++ (List.replicate k d ++ (a :: v ++ c :: rest))).set (pre.length + k + (a :: v).length) 0 =
      pre ++ (List.replicate k d ++ (a :: v ++ 0 :: rest)) := by
    rw [← List.append_assoc, ← List.append_assoc, List.set_append_right _ _ (by simp; omega)]
    simp [Nat.add_assoc]
  have hgap : ((List.replicate k d ++ (a :: v ++ c :: rest)).takeWhile (· == d)).length = k :=
    takeWhile_gap k had
  simp only [strtok, hs, drop_mid, hgap, htok, if_neg ha0, hdrop, takeWhile_word hdw h0w hc, hfin, hset]

end

/-! ## All tokens of a string -/

/-- The strings lie in the buffer one after the other, from `lo` on. -/
def Laid (buf : List Byte) : (lo : Nat) → List Nat → List (List Byte) → Prop
  | _, [], [] => True
  | lo, p :: ps, w :: ws =>
    lo ≤ p ∧ 0 ∉ w ∧ (∃ post, buf.drop p = w ++ 0 :: post) ∧ Laid buf (p + w.length + 1) ps ws
  | _, _, _ => False

theorem Laid.mono {buf : List Byte} {lo lo' : Nat} (hlo : lo ≤ lo') :
    ∀ {ps ws}, Laid buf lo' ps ws → Laid buf lo ps ws
  | [], [], _ => trivial
  | _ :: _, _ :: _, h => ⟨Nat.le_trans hlo h.1, h.2⟩

/-- Only the buffer from `lo` on matters. -/
theorem Laid.congr {buf buf' : List Byte} : ∀ {lo ps ws}, buf.drop lo = buf'.drop lo → Laid buf lo ps ws →
    Laid buf' lo ps ws
  | _, [], [], _, _ => trivial
  | lo, p :: ps, w :: ws, heq, h => by
    have hdrop : ∀ q, lo ≤ q → buf.drop q = buf'.drop q := by
      intro q hq
      obtain ⟨j, rfl⟩ := Nat.exists_eq_add_of_le hq
      rw [← List.drop_drop, ← List.drop_drop, heq]
    obtain ⟨hlo, h0, hstr, hrest⟩ := h
    refine ⟨hlo, h0, ?_, hrest.congr (hdrop _ (by omega))⟩
    rwa [← hdrop p hlo]

section
variable {d tok : Byte} {fuel : Nat} {s : Option Nat} {t t' : Line} {count : Int}

theorem growArray_next (h0 : 0 ≤ count) (h : count ≤ intMax) :
    growArray (toInt (count + 1)) = decide (count < intMax) := by
  have hI : (intMax : Int) = 2147483647 := rfl
  by_cases hc : count < intMax
  · have hcount : (toSize (count + 1) : Int) = count + 1 := toSize_of_bounds (by omega) (by omega)
    have hbytes : (toSize (toSize (count + 1) * 8) : Int) = toSize (count + 1) * 8 :=
      toSize_of_bounds (by omega) (by omega)
    rw [growArray, toInt_of_bounds (by omega) (by omega), decide_eq_true hc]
    refine decide_eq_true ?_
    unfold ptrdiffMax
    omega
  · rw [show count = 2147483647 by omega]
    decide

theorem splitLoop_end (h : strtok d s t = some (t', none)) :
    splitLoop d (fuel + 1) s t count = some (t', [], count) := by
  simp only [splitLoop, h]

theorem splitLoop_next {tok : Nat} (h : strtok d s t = some (t', some tok)) (h0 : 0 ≤ count) (hc : count ≤ intMax) :
    splitLoop d (fuel + 1) s t count =
      if count < intMax then (splitLoop d fuel none t' (count + 1)).map fun (t, toks, n) => (t, tok :: toks, n)
      else none := by
  have hI : (intMax : Int) = 2147483647 := rfl
  simp only [splitLoop, h, growArray_next h0 hc, decide_eq_true_eq]
  split
  · rw [toInt_of_bounds (by omega) (by omega)]
  · rfl

/-- The tokens of a string, and the string with a NUL after each of them. -/
theorem splitLoop_eq (hd : d ≠ 0) {seg : List Byte} : 0 ∉ seg → ∀ pre post : List Byte,
    ∃ seg' saved' toks, seg'.length = seg.length ∧ Laid (pre ++ (seg' ++ 0 :: post)) pre.length toks (words d seg) ∧
      ∀ (fuel : Nat) (s : Option Nat) (saved : Nat) (count : Int), s.getD saved = pre.length → seg.length < fuel →
        0 ≤ count → count ≤ intMax → splitLoop d fuel s ⟨pre ++ (seg ++ 0 :: post), saved⟩ count =
          if count + (words d seg).length ≤ intMax then
            some (⟨pre ++ (seg' ++ 0 :: post), saved'⟩, toks, count + (words d seg).length)
          else none := by
  induction seg using words_induction (d := d) with
  | gap k =>
    intro h0 pre post
    refine ⟨List.replicate k d, pre.length + k, [], rfl, by rw [words_replicate]; trivial, ?_⟩
    intro fuel s saved count hs hfuel hcount hc
    obtain ⟨fuel, rfl⟩ := Nat.exists_eq_add_one_of_ne_zero (show fuel ≠ 0 by omega)
    rw [splitLoop_end (strtok_gap hd pre post s saved hs k), words_replicate, if_pos (by simpa using hc)]
    simp
  | last k w hw hdw =>
    intro h0 pre post
    have h0w : 0 ∉ w := fun h => h0 (List.mem_append_right _ h)
    refine ⟨List.replicate k d ++ w, pre.length + k + w.length, [pre.length + k], rfl, ?_, ?_⟩
    · rw [words_gap, words_last hw hdw]
      refine ⟨Nat.le_add_right _ _, h0w, ⟨post, ?_⟩, trivial⟩
      rw [List.append_assoc, ← List.append_assoc]
      exact drop_mid (by simp)
    · intro fuel s saved count hs hfuel hcount hc
      have hpos := List.length_pos_iff.mpr hw
      rw [List.length_append] at hfuel
      obtain ⟨fuel, rfl⟩ := Nat.exists_eq_add_of_le' (show 2 ≤ fuel by omega)
      have hfirst := strtok_token hs hw hdw h0w k (Or.inr rfl) post
      have hend := strtok_gap hd (pre ++ (List.replicate k d ++ w)) post none (pre.length + k + w.length)
        (by simp [Nat.add_assoc]) 0
      simp only [if_pos] at hfirst
      simp only [List.replicate_zero, List.nil_append, List.append_assoc] at hend
      rw [List.append_assoc, splitLoop_next hfirst hcount hc, splitLoop_end hend, words_gap, words_last hw hdw]
      by_cases hlt : count < intMax
      · rw [if_pos hlt, if_pos (by simp; omega)]
        simp [Nat.add_assoc]
      · rw [if_neg hlt, if_neg (by simp; omega)]
  | cons k w rest hw hdw ih =>
    intro h0 pre post
    simp only [List.mem_append, List.mem_cons, not_or] at h0
    obtain ⟨rest', saved', toks, hlen, hlaid, hrun⟩ := ih h0.2.2.2 (pre ++ (List.replicate k d ++ (w ++ [0]))) post
    have hbuf : ∀ r, pre ++ (List.replicate k d ++ (w ++ [0])) ++ (r ++ 0 :: post) =
        pre ++ (List.replicate k d ++ (w ++ 0 :: (r ++ 0 :: post))) := by simp
    have hbuf' : pre ++ (List.replicate k d ++ (w ++ 0 :: rest') ++ 0 :: post) =
        pre ++ (List.replicate k d ++ (w ++ 0 :: (rest' ++ 0 :: post))) := by simp
    rw [hbuf] at hlaid
    refine ⟨List.replicate k d ++ (w ++ 0 :: rest'), saved', (pre.length + k) :: toks, by simp [hlen], ?_, ?_⟩
    · rw [hbuf', words_gap, words_cons hw hdw]
      refine ⟨Nat.le_add_right _ _, h0.2.1, ⟨rest' ++ 0 :: post, ?_⟩, hlaid.mono (by simp; omega)⟩
      rw [← List.append_assoc]
      exact drop_mid (by simp)
    · intro fuel s saved count hs hfuel hcount hc
      simp only [List.length_append, List.length_cons, List.length_replicate] at hfuel
      obtain ⟨fuel, rfl⟩ := Nat.exists_eq_add_one_of_ne_zero (show fuel ≠ 0 by omega)
      have hfirst := strtok_token hs hw hdw h0.2.1 k (Or.inl rfl) (rest ++ 0 :: post)
      rw [if_neg hd] at hfirst
      have hre : List.replicate k d ++ (w ++ d :: rest) ++ 0 :: post =
          List.replicate k d ++ (w ++ d :: (rest ++ 0 :: post)) := by simp
      rw [hre, splitLoop_next hfirst hcount hc, hbuf', words_gap, words_cons hw hdw, List.length_cons]
      by_cases hlt : count < intMax
      · have hrest := hrun fuel none (pre.length + k + w.length + 1) (count + 1)
          (by simp; omega) (by omega) (by omega) (by omega)
        rw [hbuf, hbuf, show count + 1 + (words d rest).length = count + ((words d rest).length + 1 : Nat) by omega]
          at hrest
        rw [if_pos hlt, hrest]
        split <;> rfl
      · rw [if_neg hlt, if_neg (by omega)]

end

/-! ## One command -/

theorem Laid.map_cstr {buf : List Byte} : ∀ {lo ps ws}, Laid buf lo ps ws → ps.map (cstr buf) = ws
  | _, [], [], _ => rfl
  | _, p :: ps, w :: ws, h => by
    obtain ⟨-, h0, ⟨post, hdrop⟩, hrest⟩ := h
    have hall : ∀ c ∈ w, (c != 0) = true := fun c hc => bne_iff_ne.mpr fun h => h0 (h ▸ hc)
    have hp : cstr buf p = w := by
      rw [cstr, hdrop, List.takeWhile_append_of_pos hall, List.takeWhile_cons_of_neg (by simp), List.append_nil]
    rw [List.map_cons, hp, hrest.map_cstr]

/-- `strncmp` with the length of `t` only sees whether `s` starts with `t`. -/
theorem strncmpEq_iff : ∀ s t : List Byte, strncmpEq t.length s t = true ↔ t <+: s
  | s, [] => by simp [strncmpEq]
  | [], b :: t => by simp [strncmpEq]
  | a :: s, b :: t => by
    rw [List.length_cons, strncmpEq, Bool.and_eq_true, strncmpEq_iff s t, List.cons_prefix_cons, beq_iff_eq,
      eq_comm]

/-- What `run_cmd` does with the words of a command that has any. -/
def ran (forker : Int) (ws : List (List Byte)) : Command where
  argv := ws.map some ++ [none]
  answer := if ∃ w ∈ ws.head?, exitText <+: w ∨ quitText <+: w then .exit else .forked forker

/-- A command that has a word, and not too many for the `int` that counts them. -/
def Runs (ws : List (List Byte)) : Prop := ws ≠ [] ∧ ws.length < intMax

instance (ws : List (List Byte)) : Decidable (Runs ws) := inferInstanceAs (Decidable (ws ≠ [] ∧ ws.length < intMax))

theorem runCmd_eq (forker : Int) {seg : List Byte} (h0 : 0 ∉ seg) (pre post : List Byte) {cmd : Nat}
    (saved : Nat) (hcmd : cmd = pre.length) :
    ∃ seg' saved', seg'.length = seg.length ∧ runCmd forker cmd ⟨pre ++ (seg ++ 0 :: post), saved⟩ =
      if Runs (words space seg) then some (⟨pre ++ (seg' ++ 0 :: post), saved'⟩, ran forker (words space seg))
      else none := by
  obtain ⟨seg', saved', toks, hlen, hlaid, hrun⟩ := splitLoop_eq (d := space) (by decide) h0 pre post
  refine ⟨seg', saved', hlen, ?_⟩
  have hsplit : split space cmd ⟨pre ++ (seg ++ 0 :: post), saved⟩ = _ :=
    hrun _ (some cmd) _ 0 hcmd (by simp only [List.length_append, List.length_cons]; omega) (Int.le_refl 0) (by decide)
  have hargv := hlaid.map_cstr
  generalize words space seg = ws at hsplit hargv
  have hargs : (toks.map some ++ [none]).map (Option.map (cstr (pre ++ (seg' ++ 0 :: post)))) =
      ws.map some ++ [none] := by
    rw [← hargv, List.map_append, List.map_map, List.map_map]
    rfl
  simp only [runCmd, hsplit, Int.zero_add]
  by_cases hn : (ws.length : Int) ≤ intMax
  · simp only [if_pos hn, growArray_next (Int.natCast_nonneg _) hn, hargs, decide_eq_true_eq]
    by_cases hlt : (ws.length : Int) < intMax
    · rw [if_pos hlt]
      cases ws with
      | nil => rw [if_neg fun h => h.1 rfl]; rfl
      | cons w ws =>
        have hexit : (strncmpEq 4 w exitText || strncmpEq 4 w quitText) = true ↔ exitText <+: w ∨ quitText <+: w := by
          rw [Bool.or_eq_true]
          exact or_congr (strncmpEq_iff w exitText) (strncmpEq_iff w quitText)
        rw [if_pos (show Runs (w :: ws) from ⟨by simp, by omega⟩)]
        simp only [List.map_cons, List.cons_append, ran, List.head?_cons, Option.mem_some_iff, exists_eq_left', hexit]
        split <;> rfl
    · rw [if_neg hlt, if_neg fun h => hlt (by have := h.2; omega)]
  · rw [if_neg hn, if_neg fun h => hn (by have := h.2; omega)]

/-! ## All commands of a line -/

section
variable {fork : Nat → Int}

theorem mapIdx_shift {α β : Type*} (f : Nat → α → β) (i : Nat) (x : α) (xs : List α) :
    (x :: xs).mapIdx (fun k => f (i + k)) = f i x :: xs.mapIdx fun k => f (i + 1 + k) := by
  simp [List.mapIdx_cons, Nat.add_assoc, Nat.add_comm 1]

theorem drop_string {pre seg post : List Byte} {c : Byte} {p n : Nat} (hp : p = pre.length) (hn : n = seg.length) :
    (pre ++ (seg ++ c :: post)).drop (p + n + 1) = post := by
  rw [← List.drop_drop, ← List.drop_drop, drop_mid hp, drop_mid hn, List.drop_one, List.tail_cons]

theorem ran_value {forker : Int} (h : forker ≠ 0) (ws : List (List Byte)) : (ran forker ws).answer.value ≠ 0 := by
  simp only [ran]
  split
  · exact (by decide : (-1 : Int) ≠ 0)
  · exact h

/-- `fork` never gives 0 in the process that reads the lines. -/
theorem runLoop_eq (hfork : ∀ k, fork k ≠ 0) : ∀ {segs : List (List Byte)} {cmds : List Nat} {lo i : Nat} {t : Line}
    {b : Bool}, Laid t.buf lo cmds segs → ∃ b', runLoop fork i cmds t b =
      if ∀ seg ∈ segs, Runs (words space seg) then
        some (b', segs.mapIdx fun k seg => ran (fork (i + k)) (words space seg))
      else none
  | [], [], _, _, _, b, _ => ⟨b, by simp [runLoop]⟩
  | seg :: segs, cmd :: cmds, lo, i, ⟨buf, saved⟩, b, h => by
    obtain ⟨hlo, h0, ⟨post, hdrop⟩, hrest⟩ := h
    have hlen : cmd = (buf.take cmd).length := by
      have := congrArg List.length hdrop
      simp only [List.length_drop, List.length_append, List.length_cons] at this
      rw [List.length_take]
      omega
    obtain ⟨seg', saved', hseg, hrun⟩ := runCmd_eq (fork i) h0 (buf.take cmd) post saved hlen
    rw [← hdrop, List.take_append_drop] at hrun
    have hlater : buf.drop (cmd + seg.length + 1) =
        (buf.take cmd ++ (seg' ++ 0 :: post)).drop (cmd + seg.length + 1) := by
      conv => lhs; rw [← List.take_append_drop cmd buf, hdrop]
      rw [drop_string hlen rfl, drop_string hlen hseg.symm]
    obtain ⟨b', hb'⟩ := runLoop_eq hfork (i := i + 1) (b := b && (ran (fork i) (words space seg)).answer.value != -1)
      (t := ⟨buf.take cmd ++ (seg' ++ 0 :: post), saved'⟩) (hrest.congr hlater)
    refine ⟨b', ?_⟩
    simp only [runLoop, List.forall_mem_cons]
    by_cases hr : Runs (words space seg)
    · rw [if_pos hr] at hrun
      simp only [hrun, if_neg (ran_value (hfork i) _), hb']
      by_cases hrs : ∀ seg ∈ segs, Runs (words space seg)
      · rw [if_pos hrs, if_pos ⟨hr, hrs⟩, mapIdx_shift (fun k seg => ran (fork k) (words space seg))]
        rfl
      · rw [if_neg hrs, if_neg fun h => hrs h.2]
        rfl
    · rw [if_neg hr] at hrun
      rw [if_neg fun h => hr h.1]
      simp only [hrun]

/-- The line is in a block that may be larger. -/
theorem handleLine_eq (hfork : ∀ k, fork k ≠ 0) {line : List Byte} (h0 : 0 ∉ line) (slack : List Byte) :
    ∃ b, handleLine fork (line ++ 0 :: slack) =
      if (words semicolon line).length ≤ intMax ∧ ∀ seg ∈ words semicolon line, Runs (words space seg) then
        some (b, (words semicolon line).mapIdx fun k seg => ran (fork k) (words space seg))
      else none := by
  obtain ⟨line', saved', cmds, hlen, hlaid, hrun⟩ := splitLoop_eq (d := semicolon) (by decide) h0 [] slack
  have hsplit : split semicolon 0 ⟨line ++ 0 :: slack, 0⟩ = _ :=
    hrun _ (some 0) _ 0 rfl (by simp only [List.length_append, List.length_cons]; omega) (Int.le_refl 0) (by decide)
  obtain ⟨b, hb⟩ := runLoop_eq hfork (i := 0) (t := ⟨[] ++ (line' ++ 0 :: slack), saved'⟩) (b := true) hlaid
  refine ⟨b, ?_⟩
  simp only [handleLine]
  simp only [Int.zero_add, Int.ofNat_le] at hsplit
  simp only [Nat.zero_add] at hb
  by_cases hn : (words semicolon line).length ≤ intMax
  · rw [if_pos hn] at hsplit
    simp only [hsplit, hb, hn, true_and]
  · rw [if_neg hn] at hsplit
    rw [if_neg fun h => hn h.1]
    simp only [hsplit]

theorem vectors_eq {line : List Byte} (h : ∀ seg ∈ line.splitOn semicolon, seg ≠ [] → ∃ c ∈ seg, c ≠ space) :
    vectors line = (words semicolon line).map (words space) := by
  rw [vectors, words]
  congr 1
  apply List.filter_congr
  intro seg hseg
  rw [Bool.eq_iff_iff, List.any_eq_true, decide_eq_true_eq]
  constructor
  · rintro ⟨c, hc, -⟩
    exact List.ne_nil_of_mem hc
  · intro hne
    obtain ⟨c, hc, hsp⟩ := h seg hseg hne
    exact ⟨c, hc, bne_iff_ne.mpr hsp⟩

theorem nonblank_iff {seg : List Byte} : words space seg ≠ [] ↔ ∃ c ∈ seg, c ≠ space := by
  rw [Ne, words_eq_nil]
  simp

theorem ran_eq_wanted {forker : Int} {ws : List (List Byte)} : ran forker ws = wanted forker ws ↔
    ∀ w ∈ ws.head?, (exitText <+: w → w = exitText) ∧ (quitText <+: w → w = quitText) := by
  have hanswer : ran forker ws = wanted forker ws ↔
      ((∃ w ∈ ws.head?, exitText <+: w ∨ quitText <+: w) ↔ ws.head? = some exitText ∨ ws.head? = some quitText) := by
    simp only [ran, wanted, Command.mk.injEq, true_and]
    split <;> split <;> simp_all
  rw [hanswer]
  cases ws.head? with
  | none => simp
  | some w =>
    simp only [Option.mem_some_iff, exists_eq_left', Option.some_inj, forall_eq']
    constructor
    · intro h
      constructor
      · intro hp
        obtain rfl | rfl := h.mp (Or.inl hp)
        · rfl
        · exact absurd hp (by decide)
      · intro hp
        obtain rfl | rfl := h.mp (Or.inr hp)
        · exact absurd hp (by decide)
        · rfl
    · rintro ⟨he, hq⟩
      refine ⟨Or.imp he hq, ?_⟩
      rintro (rfl | rfl)
      · exact Or.inl (List.prefix_refl _)
      · exact Or.inr (List.prefix_refl _)

/-- A line is split exactly when it has no blank segment, no longer word in the
place of "exit" or "quit", and no count over `INT_MAX`. -/
theorem splits_exactly (hfork : ∀ k, fork k ≠ 0) {line : List Byte} (h0 : 0 ∉ line) (slack : List Byte) :
    SplitsExactly fork line slack ↔ Splittable line := by
  obtain ⟨b, hb⟩ := handleLine_eq hfork h0 slack
  have hmade : (words semicolon line).mapIdx (fun k seg => ran (fork k) (words space seg)) =
      ((words semicolon line).map (words space)).mapIdx fun k ws => ran (fork k) ws := by
    exact List.ext_getElem (by simp) (by simp)
  constructor
  · rintro ⟨b', hs⟩
    rw [hb] at hs
    split at hs
    · rename_i hruns
      obtain ⟨hn, hruns⟩ := hruns
      have hblank : ∀ seg ∈ line.splitOn semicolon, seg ≠ [] → ∃ c ∈ seg, c ≠ space := by
        intro seg hseg hne
        exact nonblank_iff.mp (hruns seg (List.mem_filter.mpr ⟨hseg, by simpa using hne⟩)).1
      have hv := vectors_eq hblank
      simp only [Option.some_inj, Prod.mk.injEq, hmade, ← hv] at hs
      have heach := List.mapIdx_eq_mapIdx_iff.mp hs.2
      refine ⟨hblank, ?_, by rw [hv, List.length_map]; exact hn, ?_⟩
      · intro ws hws
        obtain ⟨i, hi, rfl⟩ := List.mem_iff_getElem.mp hws
        exact ran_eq_wanted.mp (heach i hi)
      · intro ws hws
        rw [hv, List.mem_map] at hws
        obtain ⟨seg, hseg, rfl⟩ := hws
        exact (hruns seg hseg).2
    · cases hs
  · intro h
    have hv := vectors_eq h.nonblank
    have hruns : (words semicolon line).length ≤ intMax ∧ ∀ seg ∈ words semicolon line, Runs (words space seg) := by
      refine ⟨by rw [← List.length_map (words space), ← hv]; exact h.segments, ?_⟩
      intro seg hseg
      obtain ⟨hmem, hne⟩ := List.mem_filter.mp hseg
      exact ⟨nonblank_iff.mpr (h.nonblank seg hmem (of_decide_eq_true hne)),
        h.args _ (by rw [hv]; exact List.mem_map_of_mem hseg)⟩
    refine ⟨b, ?_⟩
    rw [hb, if_pos hruns, hmade, ← hv]
    congr 2
    exact List.mapIdx_eq_mapIdx_iff.mpr fun i hi => ran_eq_wanted.mpr (h.exits _ (List.getElem_mem hi))

end

/-- "ls -l; exit" -/
theorem splits_ls_exit : SplitsExactly (fun k => k + 1) [108, 115, 32, 45, 108, 59, 32, 101, 120, 105, 116] [] :=
  (splits_exactly (by intro k; omega) (by decide) []).mpr ⟨by decide, by decide, by decide, by decide⟩

/-- "ls; " makes `run_cmd` read a null `args[0]`, and "exitfoo" is taken for "exit". -/
theorem blank_and_prefix :
    (0 ∉ ([108, 115, 59, 32] : List Byte) ∧ handleLine (fun k => k + 1) [108, 115, 59, 32, 0] = none ∧
      ¬ SplitsExactly (fun k => k + 1) [108, 115, 59, 32] []) ∧
    0 ∉ ([101, 120, 105, 116, 102, 111, 111] : List Byte) ∧
      ¬ SplitsExactly (fun k => k + 1) [101, 120, 105, 116, 102, 111, 111] [] := by
  have hblank : handleLine (fun k => k + 1) [108, 115, 59, 32, 0] = none := by decide +kernel
  have hprefix : (handleLine (fun k => k + 1) [101, 120, 105, 116, 102, 111, 111, 0]).map (fun p => p.2.map (·.answer)) =
      some [.exit] := by decide +kernel
  refine ⟨⟨by decide, hblank, ?_⟩, by decide, ?_⟩
  · rintro ⟨b, hb⟩
    cases hblank.symm.trans hb
  · rintro ⟨b, hb⟩
    rw [show [101, 120, 105, 116, 102, 111, 111] ++ [0] = ([101, 120, 105, 116, 102, 111, 111, 0] : List Byte) from rfl]
      at hb
    rw [hb, Option.map_some, Option.some_inj] at hprefix
    have hforks : ((vectors [101, 120, 105, 116, 102, 111, 111]).mapIdx fun k ws => wanted (k + 1) ws).map (·.answer) ≠
        [.exit] := by decide +kernel
    exact hforks hprefix

end OsLabs.Shell
