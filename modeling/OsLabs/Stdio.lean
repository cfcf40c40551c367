import OsLabs.CInt
import Mathlib.Data.List.Basic

/-!
# Text input in C

`sscanf` with the conversions `%lu`, `%d`, `%i` and `%c`, `fgets` and `feof` on a
stream, and numbers as `printf` writes them. No text has a NUL.
-/

namespace OsLabs.Stdio

/-! ## `sscanf` -/

def isSpace (c : Char) : Bool := c == ' ' || (9 ≤ c.toNat && c.toNat ≤ 13)

/-- 16 for what is not a digit in any base. -/
def digitValue (c : Char) : Nat :=
  if c.isDigit then c.toNat - 48
  else if 97 ≤ c.toNat ∧ c.toNat ≤ 102 then c.toNat - 87
  else if 65 ≤ c.toNat ∧ c.toNat ≤ 70 then c.toNat - 55
  else 16

def isDigitOf (base : Nat) (c : Char) : Bool := digitValue c < base

def readDigits (base : Nat) (cs : List Char) : Option (Nat × List Char) :=
  match cs.takeWhile (isDigitOf base) with
  | [] => none
  | ds => some (ds.foldl (fun v c => base * v + digitValue c) 0, cs.dropWhile (isDigitOf base))

/-- The digits of `%i`, in the base that they begin with. -/
def readPrefixed : List Char → Option (Nat × List Char)
  | '0' :: 'x' :: cs => readDigits 16 cs
  | '0' :: 'X' :: cs => readDigits 16 cs
  | '0' :: cs => readDigits 8 ('0' :: cs)
  | cs => readDigits 10 cs

def readSigned (read : List Char → Option (Nat × List Char)) : List Char → Option (Int × List Char)
  | '-' :: cs => (read cs).map fun r => (-(r.1 : Int), r.2)
  | '+' :: cs => (read cs).map fun r => ((r.1 : Int), r.2)
  | cs => (read cs).map fun r => ((r.1 : Int), r.2)

/-- `strtoul`, with `ULONG_MAX` for what is too large. -/
def toUlong (v : Int) : Int := if v.natAbs < 2 ^ 64 then v % 2 ^ 64 else 2 ^ 64 - 1

/-- `strtol` into an `int`. -/
def fromLong (v : Int) : Int := toInt (max (-2 ^ 63) (min v (2 ^ 63 - 1)))

inductive Directive
  | lit (c : Char)
  | blank
  | ulong
  | decimal
  | integer
  | char

def directives : List Char → List Directive
  | [] => []
  | '%' :: 'l' :: 'u' :: cs => .ulong :: directives cs
  | '%' :: 'd' :: cs => .decimal :: directives cs
  | '%' :: 'i' :: cs => .integer :: directives cs
  | '%' :: 'c' :: cs => .char :: directives cs
  | c :: cs => (if isSpace c then .blank else .lit c) :: directives cs

/-- The values of the conversions up to the first directive that fails. -/
def scan : List Directive → List Char → List Int
  | [], _ => []
  | .lit c :: fmt, cs =>
    match cs with
    | x :: cs => if x = c then scan fmt cs else []
    | [] => []
  | .blank :: fmt, cs => scan fmt (cs.dropWhile isSpace)
  | .ulong :: fmt, cs =>
    match readSigned (readDigits 10) (cs.dropWhile isSpace) with
    | some (v, cs) => toUlong v :: scan fmt cs
    | none => []
  | .decimal :: fmt, cs =>
    match readSigned (readDigits 10) (cs.dropWhile isSpace) with
    | some (v, cs) => fromLong v :: scan fmt cs
    | none => []
  | .integer :: fmt, cs =>
    match readSigned readPrefixed (cs.dropWhile isSpace) with
    | some (v, cs) => fromLong v :: scan fmt cs
    | none => []
  | .char :: fmt, cs =>
    match cs with
    | x :: cs => x.toNat :: scan fmt cs
    | [] => []

def sscanf (buf : List Char) (format : String) : List Int := scan (directives format.toList) buf

/-! ## Streams -/

/-- At most `n` characters, up to the end of the line; what is left, and whether the end has been met. -/
def fgets : (n : Nat) → (file : List Char) → List Char × List Char × Bool
  | 0, file => ([], file, false)
  | _ + 1, [] => ([], [], true)
  | n + 1, c :: file =>
    if c = '\n' then ([c], file, false)
    else (c :: (fgets n file).1, (fgets n file).2)

/-- The rounds of `while (!feof(in)) { fgets(buf, size, in); .. }`: what `buf` has
then, none as long as nothing has been read, and whether the end has been met. -/
def rounds (size : Nat) : (fuel : Nat) → (buf : Option (List Char)) → (file : List Char) →
    List (Option (List Char) × Bool)
  | 0, _, _ => []
  | fuel + 1, buf, file =>
    let r := fgets (size - 1) file
    let buf := if r.1 = [] then buf else some r.1
    (buf, r.2.2) :: if r.2.2 then [] else rounds size fuel buf r.2.1

/-- Each round does `body` with the buffer, until `body` returns from the function;
none where it reads a buffer that has nothing yet. -/
def eachRound {β : Type*} (body : β → List Char → Option β) : List (Option (List Char) × Bool) → β → Option (Option β)
  | [], s => some (some s)
  | (none, _) :: _, _ => none
  | (some buf, _) :: rest, s =>
    match body s buf with
    | none => some none
    | some s => eachRound body rest s

/-- The whole file, with a fuel that is enough for all its rounds. -/
def roundsOf (size : Nat) (file : List Char) : List (Option (List Char) × Bool) := rounds size (file.length + 1) none file

structure IsLine (size : Nat) (line : List Char) : Prop where
  ends : ∃ text, line = text ++ ['\n'] ∧ '\n' ∉ text
  fits : line.length < size

theorem IsLine.ne_nil {size : Nat} {line : List Char} (h : IsLine size line) : line ≠ [] := by
  obtain ⟨text, rfl, -⟩ := h.ends
  simp

theorem fgets_text (text rest : List Char) (h : '\n' ∉ text) : ∀ {n : Nat}, text.length < n →
    fgets n (text ++ '\n' :: rest) = (text ++ ['\n'], rest, false) := by
  induction text with
  | nil =>
    intro n hn
    obtain ⟨n, rfl⟩ := Nat.exists_eq_add_one_of_ne_zero (show n ≠ 0 by omega)
    simp [fgets]
  | cons c text ih =>
    intro n hn
    rw [List.length_cons] at hn
    obtain ⟨n, rfl⟩ := Nat.exists_eq_add_one_of_ne_zero (show n ≠ 0 by omega)
    obtain ⟨hc, htext⟩ := List.ne_and_not_mem_of_not_mem_cons h
    rw [List.cons_append, fgets, if_neg (Ne.symm hc), ih htext (by omega)]
    rfl

theorem fgets_line {size : Nat} {line : List Char} (h : IsLine size line) (rest : List Char) :
    fgets (size - 1) (line ++ rest) = (line, rest, false) := by
  have hfits := h.fits
  obtain ⟨text, rfl, htext⟩ := h.ends
  rw [List.length_append, List.length_singleton] at hfits
  rw [List.append_assoc]
  exact fgets_text text rest htext (by omega)

/-- The last line has two rounds: the second one meets the end. -/
theorem rounds_lines {size : Nat} (hsize : 1 < size) : ∀ {lines : List (List Char)}, (∀ line ∈ lines, IsLine size line) →
    ∀ {fuel : Nat} (buf : Option (List Char)), lines.length < fuel →
      rounds size fuel buf lines.flatten =
        lines.map (fun line => (some line, false)) ++ [(lines.getLast?.or buf, true)] := by
  intro lines
  induction lines with
  | nil =>
    intro _ fuel buf hfuel
    obtain ⟨fuel, rfl⟩ := Nat.exists_eq_add_one_of_ne_zero (show fuel ≠ 0 by omega)
    obtain ⟨n, hn⟩ := Nat.exists_eq_add_one_of_ne_zero (show size - 1 ≠ 0 by omega)
    simp [rounds, hn, fgets]
  | cons line lines ih =>
    intro h fuel buf hfuel
    obtain ⟨hline, hlines⟩ := List.forall_mem_cons.mp h
    rw [List.length_cons] at hfuel
    obtain ⟨fuel, rfl⟩ := Nat.exists_eq_add_one_of_ne_zero (show fuel ≠ 0 by omega)
    rw [List.flatten_cons, rounds, fgets_line hline]
    simp only [if_neg hline.ne_nil, ih hlines (some line) (show lines.length < fuel by omega), List.map_cons,
      List.cons_append, List.getLast?_cons, Bool.false_eq_true, if_false]
    cases lines.getLast? <;> rfl

theorem length_le_flatten {size : Nat} {lines : List (List Char)} (h : ∀ line ∈ lines, IsLine size line) :
    lines.length ≤ lines.flatten.length := by
  induction lines with
  | nil => simp
  | cons line lines ih =>
    obtain ⟨hline, hlines⟩ := List.forall_mem_cons.mp h
    have hpos := List.length_pos_iff.mpr hline.ne_nil
    have hrest := ih hlines
    rw [List.flatten_cons, List.length_append, List.length_cons]
    omega

theorem roundsOf_lines {size : Nat} (hsize : 1 < size) {lines : List (List Char)} (h : ∀ line ∈ lines, IsLine size line) :
    roundsOf size lines.flatten = lines.map (fun line => (some line, false)) ++ [(lines.getLast?, true)] := by
  have hlen := length_le_flatten h
  rw [roundsOf, rounds_lines hsize h none (by omega), Option.or_none]

theorem eachRound_append {β : Type*} (body : β → List Char → Option β) (lines : List (List Char)) (s : β)
    (rest : List (Option (List Char) × Bool)) :
    eachRound body (lines.map (fun line => (some line, false)) ++ rest) s =
      match lines.foldlM body s with
      | none => some none
      | some s => eachRound body rest s := by
  induction lines generalizing s with
  | nil => rfl
  | cons line lines ih =>
    rw [List.map_cons, List.cons_append, eachRound, List.foldlM_cons]
    cases body s line with
    | none => rfl
    | some s => exact ih s

/-- The rounds over whole lines do `body` for each line, and again for the last one. -/
theorem eachRound_lines {β : Type*} {size : Nat} (hsize : 1 < size) (body : β → List Char → Option β)
    {lines : List (List Char)} {last : List Char} (h : ∀ line ∈ lines ++ [last], IsLine size line) (s : β) :
    eachRound body (roundsOf size (lines ++ [last]).flatten) s = some ((lines ++ [last] ++ [last]).foldlM body s) := by
  have hlast : (lines ++ [last] ++ [last]).foldlM body s =
      ((lines ++ [last]).foldlM body s).bind fun s => [last].foldlM body s := List.foldlM_append
  rw [roundsOf_lines hsize h, eachRound_append, List.getLast?_concat, hlast]
  cases (lines ++ [last]).foldlM body s with
  | none => rfl
  | some s =>
    have hround : eachRound body [(some last, true)] s = some (body s last) := by
      simp only [eachRound]
      cases body s last <;> rfl
    rw [Option.bind_some, List.foldlM_cons]
    cases hs : body s last <;> simp [hround, hs]

/-! ## Numbers -/

/-- A number as `%d` and `%lu` of `printf` write it. -/
def decimal (n : Nat) : List Char := Nat.toDigits 10 n

theorem isDigit_decimal {n : Nat} {c : Char} (h : c ∈ decimal n) : c.isDigit = true :=
  Nat.isDigit_of_mem_toDigits (by decide) (by decide) h

theorem digit_range {c : Char} (h : c.isDigit = true) : 48 ≤ c.toNat ∧ c.toNat ≤ 57 := by
  rw [Char.isDigit, Bool.and_eq_true, decide_eq_true_eq, decide_eq_true_eq] at h
  exact ⟨h.1, h.2⟩

theorem digitValue_of_isDigit {c : Char} (h : c.isDigit = true) : digitValue c = c.toNat - '0'.toNat ∧
    isDigitOf 10 c = true := by
  have hv : digitValue c = c.toNat - 48 := if_pos h
  have hrange := digit_range h
  refine ⟨hv, ?_⟩
  simp only [isDigitOf, hv, decide_eq_true_eq]
  omega

theorem not_isSpace_digit {c : Char} (h : c.isDigit = true) : isSpace c = false := by
  have hrange := digit_range h
  have hne : c ≠ ' ' := by
    rintro rfl
    exact absurd hrange.1 (by decide)
  simp [isSpace, hne]
  omega

theorem digitValue_foldl {ds : List Char} (h : ∀ c ∈ ds, c.isDigit = true) (v : Nat) :
    ds.foldl (fun v c => 10 * v + digitValue c) v = Nat.ofDigitChars 10 ds v := by
  induction ds generalizing v with
  | nil => simp
  | cons c ds ih =>
    obtain ⟨hc, hds⟩ := List.forall_mem_cons.mp h
    rw [List.foldl_cons, Nat.ofDigitChars_cons, ih hds, (digitValue_of_isDigit hc).1]

/-- What comes after the number does not go on with it. -/
def Stops : List Char → Prop
  | [] => True
  | c :: _ => digitValue c = 16 ∧ c ≠ 'x' ∧ c ≠ 'X'

theorem readDigits_append {base : Nat} (hb : base ≤ 16) {ds rest : List Char} (hne : ds ≠ [])
    (hds : ∀ c ∈ ds, isDigitOf base c = true) (h : Stops rest) :
    readDigits base (ds ++ rest) = some (ds.foldl (fun v c => base * v + digitValue c) 0, rest) := by
  have hrest : rest.takeWhile (isDigitOf base) = [] ∧ rest.dropWhile (isDigitOf base) = rest := by
    cases rest with
    | nil => exact ⟨rfl, rfl⟩
    | cons c rest =>
      have hc : isDigitOf base c = false := by simpa [isDigitOf, h.1] using hb
      simp [hc]
  obtain ⟨d, ds, rfl⟩ := List.exists_cons_of_ne_nil hne
  have htake : (d :: ds ++ rest).takeWhile (isDigitOf base) = d :: ds := by
    rw [List.takeWhile_append_of_pos hds, hrest.1, List.append_nil]
  rw [readDigits, htake, List.dropWhile_append_of_pos hds, hrest.2]

theorem readDigits_decimal (n : Nat) {rest : List Char} (h : Stops rest) :
    readDigits 10 (decimal n ++ rest) = some (n, rest) := by
  have hne : decimal n ≠ [] := Nat.toDigits_ne_nil
  have hall : ∀ c ∈ decimal n, isDigitOf 10 c = true := fun c hc => (digitValue_of_isDigit (isDigit_decimal hc)).2
  rw [readDigits_append (by decide) hne hall h, digitValue_foldl fun c hc => isDigit_decimal hc]
  rw [decimal, Nat.ofDigitChars_toDigits (by decide) (by decide)]

theorem decimal_head (n : Nat) : ∃ d ds, decimal n = d :: ds ∧ d.isDigit = true := by
  obtain ⟨d, ds, hd⟩ := List.exists_cons_of_ne_nil (Nat.toDigits_ne_nil (n := n) (b := 10))
  exact ⟨d, ds, hd, isDigit_decimal (hd ▸ List.mem_cons_self)⟩

theorem head_not_zero (n : Nat) (hn : 0 < n) : ∀ ds, decimal n ≠ '0' :: ds := by
  induction n using Nat.strongRecOn with
  | ind n ih =>
    intro ds h
    rcases Nat.lt_or_ge n 10 with h10 | h10
    · have hlt : decimal n = [n.digitChar] := Nat.toDigits_of_lt_base h10
      rw [hlt] at h
      have hall : ∀ m, m < 10 → m.digitChar = '0' → m = 0 := by decide
      have h0 := hall n h10 (List.cons.inj h).1
      omega
    · have hge : decimal n = decimal (n / 10) ++ [(n % 10).digitChar] := Nat.toDigits_of_base_le (by decide) h10
      obtain ⟨d, ds', hd, -⟩ := decimal_head (n / 10)
      rw [hge, hd, List.cons_append] at h
      rw [(List.cons.inj h).1] at hd
      exact ih (n / 10) (by omega) (by omega) ds' hd

theorem readPrefixed_decimal (n : Nat) {rest : List Char} (h : Stops rest) :
    readPrefixed (decimal n ++ rest) = some (n, rest) := by
  rcases Nat.eq_zero_or_pos n with rfl | hn
  · have h0 : ∀ c ∈ ['0'], isDigitOf 8 c = true := by
      intro c hc
      rw [List.mem_singleton.mp hc]
      rfl
    have h8 : readDigits 8 ('0' :: rest) = some (0, rest) :=
      readDigits_append (by decide) (List.cons_ne_nil '0' []) h0 h
    show readPrefixed ('0' :: rest) = some (0, rest)
    cases rest with
    | nil => rfl
    | cons c rest =>
      rw [readPrefixed]
      · exact h8
      · rintro cs heq
        exact h.2.1 (List.cons.inj heq).1
      · rintro cs heq
        exact h.2.2 (List.cons.inj heq).1
  · obtain ⟨d, ds, hd, -⟩ := decimal_head n
    have hne : d ≠ '0' := fun h0 => head_not_zero n hn ds (h0 ▸ hd)
    have hread := readDigits_decimal n h
    rw [hd, List.cons_append] at hread ⊢
    rw [readPrefixed]
    · exact hread
    all_goals
      intros
      simp_all

theorem readSigned_decimal {read : List Char → Option (Nat × List Char)} {n : Nat} {rest : List Char}
    (h : read (decimal n ++ rest) = some (n, rest)) :
    readSigned read (decimal n ++ rest) = some ((n : Int), rest) := by
  obtain ⟨d, ds, hd, hdigit⟩ := decimal_head n
  have hminus : d ≠ '-' := by
    rintro rfl
    exact absurd hdigit (by decide)
  have hplus : d ≠ '+' := by
    rintro rfl
    exact absurd hdigit (by decide)
  rw [hd, List.cons_append] at h ⊢
  rw [readSigned, h]
  · rfl
  · intro cs heq
    exact hminus (List.cons.inj heq).1
  · intro cs heq
    exact hplus (List.cons.inj heq).1

@[simp]
theorem dropWhile_decimal (n : Nat) (rest : List Char) :
    (decimal n ++ rest).dropWhile isSpace = decimal n ++ rest := by
  obtain ⟨d, ds, hd, hdigit⟩ := decimal_head n
  rw [hd, List.cons_append, List.dropWhile_cons_of_neg]
  simp [not_isSpace_digit hdigit]

theorem toUlong_of_lt {n : Nat} (h : n < 2 ^ 64) : toUlong n = n := by
  rw [toUlong, Int.natAbs_natCast, if_pos h]
  omega

theorem fromLong_of_le {n : Nat} (h : n ≤ intMax) : fromLong n = n := by
  have hn : n ≤ 2147483647 := h
  have hclamp : max (-2 ^ 63) (min (n : Int) (2 ^ 63 - 1)) = n := by omega
  rw [fromLong, hclamp, toInt_of_bounds (by omega) (by omega)]

@[simp]
theorem scan_nil (cs : List Char) : scan [] cs = [] := rfl

@[simp]
theorem scan_lit (c x : Char) (fmt : List Directive) (cs : List Char) :
    scan (.lit c :: fmt) (x :: cs) = if x = c then scan fmt cs else [] := rfl

@[simp]
theorem scan_blank (fmt : List Directive) (cs : List Char) :
    scan (.blank :: fmt) cs = scan fmt (cs.dropWhile isSpace) := rfl

@[simp]
theorem scan_char (c : Char) (fmt : List Directive) (cs : List Char) :
    scan (.char :: fmt) (c :: cs) = (c.toNat : Int) :: scan fmt cs := rfl

/-- `%lu`, `%d` and `%i` read back what `printf` has written. -/
theorem scan_ulong {n : Nat} (hn : n < 2 ^ 64) (fmt : List Directive) {rest : List Char} (h : Stops rest) :
    scan (.ulong :: fmt) (decimal n ++ rest) = (n : Int) :: scan fmt rest := by
  simp only [scan, dropWhile_decimal, readSigned_decimal (readDigits_decimal n h), toUlong_of_lt hn]

theorem scan_decimal {n : Nat} (hn : n ≤ intMax) (fmt : List Directive) {rest : List Char} (h : Stops rest) :
    scan (.decimal :: fmt) (decimal n ++ rest) = (n : Int) :: scan fmt rest := by
  simp only [scan, dropWhile_decimal, readSigned_decimal (readDigits_decimal n h), fromLong_of_le hn]

theorem scan_integer {n : Nat} (hn : n ≤ intMax) (fmt : List Directive) {rest : List Char} (h : Stops rest) :
    scan (.integer :: fmt) (decimal n ++ rest) = (n : Int) :: scan fmt rest := by
  simp only [scan, dropWhile_decimal, readSigned_decimal (readPrefixed_decimal n h), fromLong_of_le hn]

theorem newline_not_mem_decimal (n : Nat) : '\n' ∉ decimal n := fun h =>
  absurd (isDigit_decimal h) (by decide)

theorem length_decimal {n k : Nat} (hk : 0 < k) (h : n < 10 ^ k) : (decimal n).length ≤ k :=
  (Nat.length_toDigits_le_iff (by decide) hk).mpr h

end OsLabs.Stdio
