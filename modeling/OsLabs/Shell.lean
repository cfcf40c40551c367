import OsLabs.CInt

/-!
# The shell of `shell.c`

A block of memory is the list of its bytes, and a pointer into the line is a
position in it. `none` is an access outside a block or through a null pointer,
a loop that does not end, or the end of the program after a failed `realloc`.
What `realloc` finds in the memory it adds, and what `fork` returns, are
arguments.
-/

namespace OsLabs.Shell

/-- Plain `char`, a signed type. -/
abbrev Byte := BitVec 8

def newline : Byte := 10

def space : Byte := 32

def semicolon : Byte := 59

/-- The largest block that can be allocated, `PTRDIFF_MAX`. -/
def ptrdiffMax : Nat := 9223372036854775807

/-- The string at a position, up to its NUL. -/
def cstr (buf : List Byte) (pos : Nat) : List Byte := (buf.drop pos).takeWhile (· != 0)

def store (buf : List Byte) (i : Int) (c : Byte) : Option (List Byte) :=
  if 0 ≤ i ∧ i < buf.length then some (buf.set i.toNat c) else none

/-- None for a size that cannot be allocated. -/
def realloc (junk : Nat → Byte) (buf : List Byte) (size : Nat) : Option (List Byte) :=
  if size ≤ ptrdiffMax then some (buf.take size ++ (List.range' buf.length (size - buf.length)).map junk)
  else none

/-! ## Reading a batch file -/

/-- The bytes of a file that have not been read yet. -/
abbrev File := List Byte

def getString : List Byte := [0]

/-- The loop of `fget_input`; the string it returns, none for `NULL`, and the
rest of the file. `junk n` is in memory when `n` bytes are left. -/
def fgetLoop (junk : Nat → Nat → Byte) : File → List Byte → Int → Option (Option (List Byte) × File)
  -- `fgetc` gives EOF
  | [], _, _ => some (none, [])
  | input :: rest, str, length =>
    if input = newline ∨ input = 0 then (store str (length - 1) 0).map fun str => (some str, rest)
    -- the byte 0xFF as a `char` equals EOF
    else if input.toInt = -1 then some (none, rest)
    else
      let length := toInt (length + 1)
      match realloc (junk rest.length) str (toSize length) with
      | none => none
      | some str =>
        match store str (length - 2) input with
        | none => none
        | some str => fgetLoop junk rest str length

def fgetInput (junk : Nat → Nat → Byte) (fp : File) : Option (Option (List Byte) × File) :=
  fgetLoop junk fp getString 1

/-- The strings that successive calls return before the first `NULL`. -/
def batchLoop (junk : Nat → Nat → Byte) : (fuel : Nat) → File → Option (List (List Byte))
  | 0, _ => none
  | fuel + 1, file =>
    match fgetInput junk file with
    | none => none
    | some (none, _) => some []
    | some (some str, rest) => (batchLoop junk fuel rest).map (str :: ·)

/-- A call takes at least one byte from the file or returns `NULL`. -/
def batch (junk : Nat → Nat → Byte) (file : File) : Option (List (List Byte)) :=
  batchLoop junk (file.length + 1) file

/-! ## Splitting a line -/

/-- The buffer of the line and the pointer that `strtok` keeps. -/
structure Line where
  buf : List Byte
  saved : Nat

/-- `strtok` with a single delimiter; a null `s` goes on from the saved pointer. -/
def strtok (delim : Byte) (s : Option Nat) (t : Line) : Option (Line × Option Nat) :=
  let s := s.getD t.saved
  let tok := s + ((t.buf.drop s).takeWhile (· == delim)).length
  match t.buf[tok]? with
  | none => none
  | some c =>
    if c = 0 then some ({ t with saved := tok }, none)
    else
      let fin := tok + ((t.buf.drop tok).takeWhile fun c => c != delim && c != 0).length
      match t.buf[fin]? with
      | none => none
      | some c =>
        if c = 0 then some ({ t with saved := fin }, some tok)
        else some ({ buf := t.buf.set fin 0, saved := fin + 1 }, some tok)

/-- `realloc` of an array to `count` pointers, which is written to unchecked. -/
def growArray (count : Int) : Bool := toSize (toSize count * 8) ≤ ptrdiffMax

/-- The loop over the tokens in `main` and in `run_cmd`; the array that it
builds, and the number of its elements. -/
def splitLoop (delim : Byte) : (fuel : Nat) → Option Nat → Line → Int → Option (Line × List Nat × Int)
  | 0, _, _, _ => none
  | fuel + 1, s, t, count =>
    match strtok delim s t with
    | none => none
    | some (t, none) => some (t, [], count)
    | some (t, some tok) =>
      let count := toInt (count + 1)
      if growArray count then
        (splitLoop delim fuel none t count).map fun (t, toks, count) => (t, tok :: toks, count)
      else none

def split (delim : Byte) (s : Nat) (t : Line) : Option (Line × List Nat × Int) :=
  splitLoop delim (t.buf.length + 1) (some s) t 0

/-! ## Running the commands -/

def exitText : List Byte := [101, 120, 105, 116]

def quitText : List Byte := [113, 117, 105, 116]

/-- `strncmp(s, t, n) == 0` -/
def strncmpEq : (n : Nat) → (s t : List Byte) → Bool
  | 0, _, _ => true
  | _ + 1, [], [] => true
  | n + 1, a :: s, b :: t => a == b && strncmpEq n s t
  | _ + 1, _, _ => false

/-- What `run_cmd` does with its argument vector. -/
inductive Answer
  | exit
  | forked (pid : Int)
  deriving DecidableEq

structure Command where
  argv : List (Option (List Byte))
  answer : Answer
  deriving DecidableEq

/-- The value that `run_cmd` returns. -/
def Answer.value : Answer → Int
  | .exit => -1
  | .forked pid => pid

def runCmd (forker : Int) (cmd : Nat) (t : Line) : Option (Line × Command) :=
  match split space cmd t with
  | none => none
  | some (t, toks, argc) =>
    if growArray (toInt (argc + 1)) then
      let args := toks.map some ++ [none]
      let argv := args.map fun arg => arg.map (cstr t.buf)
      match argv with
      -- `args[0]` is null, and `strncmp` reads through it
      | none :: _ => none
      | [] => none
      | some arg :: _ =>
        if strncmpEq 4 arg exitText || strncmpEq 4 arg quitText then some (t, ⟨argv, .exit⟩)
        else some (t, ⟨argv, .forked forker⟩)
    else none

/-- The loop of `main` over the commands, which a child process leaves; the new
value of `should_run`, and the commands. -/
def runLoop (fork : Nat → Int) : (i : Nat) → List Nat → Line → Bool → Option (Bool × List Command)
  | _, [], _, shouldRun => some (shouldRun, [])
  | i, cmd :: rest, t, shouldRun =>
    match runCmd (fork i) cmd t with
    | none => none
    | some (t, c) =>
      if c.answer.value = 0 then some (false, [c])
      else
        (runLoop fork (i + 1) rest t (shouldRun && c.answer.value != -1)).map fun (b, cs) => (b, c :: cs)

/-- One round of the loop of `main`, for the line that has been read. -/
def handleLine (fork : Nat → Int) (line : List Byte) : Option (Bool × List Command) :=
  match split semicolon 0 { buf := line, saved := 0 } with
  | none => none
  | some (t, commands, _) => runLoop fork 0 commands t true

end OsLabs.Shell
