import OsLabs.ShellLines
import OsLabs.ShellSplit

/-!
# A batch run of the shell

`main` of `shell.c` in the process that reads the batch file: each line is split,
its commands are started one after the other, and then waited for in the same
order. What `fork`, `waitpid` and `malloc(0)` answer is given by the world.
-/

namespace OsLabs.Shell

structure World where
  /-- What `fork` returns for a command of a line. -/
  fork : Nat → Nat → Int
  /-- The status that `waitpid` stores for a command of a line. -/
  status : Nat → Nat → Int
  /-- `malloc(0)` gives a block, and not null. -/
  zeroBlock : Bool
  junk : Nat → Nat → Byte

inductive Event
  | start (argv : List (Option (List Byte))) (pid : Int)
  | forkFailed
  | wait (pid : Int)
  | report (status pid : Int)
  deriving DecidableEq

/-- A pointer of `main`, as far as `free` is concerned. -/
inductive Ptr
  | null | live | freed
  deriving DecidableEq

/-! ## `main` -/

def Command.events (c : Command) : List Event :=
  match c.answer with
  | .exit => []
  | .forked pid => if 0 ≤ pid then [.start c.argv pid] else [.forkFailed]

/-- The loop over `pids` after the commands have been started. -/
def waitLoop (status : Nat → Int) : (i : Nat) → (pids : List Int) → List Event
  | _, [] => []
  | i, pid :: pids =>
    if pid < 0 then waitLoop status (i + 1) pids
    else .wait pid :: ((if status i ≠ 0 then [.report (status i) pid] else []) ++ waitLoop status (i + 1) pids)

def free : Ptr → Ptr
  | .null => .null
  | .live | .freed => .freed

def mallocPids (w : World) (cmdCount : Nat) : Ptr := if cmdCount = 0 ∧ w.zeroBlock = false then .null else .live

/-- The loop of `main` over the lines, with what it leaves in `in` and in `pids`. -/
def readLoop (w : World) : (fuel n : Nat) → File → (pids : Ptr) → Option (List Event × Ptr × Ptr)
  | 0, _, _, _ => none
  | fuel + 1, n, file, pids =>
    match fgetInput w.junk file with
    | none => none
    | some (none, _) => some ([], .null, pids)
    | some (some str, rest) =>
      match handleLine (w.fork n) str with
      | none => none
      | some (shouldRun, cs) =>
        let events := cs.flatMap Command.events ++ waitLoop (w.status n) 0 (cs.map (·.answer.value))
        let pids := free (mallocPids w cs.length)
        if shouldRun then (readLoop w fuel (n + 1) rest pids).map fun r => (events ++ r.1, r.2)
        else some (events, free .live, pids)

/-- What happens in a batch run, and whether it ends without a block freed twice. -/
def batchRun (w : World) (file : File) : Option (List Event × Bool) :=
  (readLoop w (file.length + 1) 0 file .null).map fun r => (r.1, r.2.1 != .freed && r.2.2 != .freed)

/-! ## What a run is for -/

/-- The commands of a line: one for each segment that is not empty. -/
def commandsOf (w : World) (n : Nat) (line : List Byte) : List Command :=
  (words semicolon line).mapIdx fun k seg => ran (w.fork n k) (words space seg)

/-- All segments of the line have a word, and the counts are in the range of `int`. -/
structure Regular (line : List Byte) : Prop where
  segments : (words semicolon line).length ≤ intMax
  runs : ∀ seg ∈ words semicolon line, Runs (words space seg)

/-- The shell stops after a line with an exit, or with a fork that has failed. -/
def stops (cs : List Command) : Bool := cs.any fun c => c.answer.value == -1

/-- The lines that are executed, each with its commands. -/
def executed (w : World) : (n : Nat) → List (List Byte) → List (List Command)
  | _, [] => []
  | n, line :: rest => commandsOf w n line :: if stops (commandsOf w n line) then [] else executed w (n + 1) rest

/-- Everything of a line is started before anything of it is waited for. -/
def lineEvents (w : World) (n : Nat) (cs : List Command) : List Event :=
  cs.flatMap Command.events ++ waitLoop (w.status n) 0 (cs.map (·.answer.value))

def runEvents (w : World) : (n : Nat) → List (List Command) → List Event
  | _, [] => []
  | n, cs :: rest => lineEvents w n cs ++ runEvents w (n + 1) rest

def startedPids (es : List Event) : List Int := es.filterMap fun | .start _ pid => some pid | _ => none

def waitedPids (es : List Event) : List Int := es.filterMap fun | .wait pid => some pid | _ => none

/-! ## One line -/

theorem runCmd_answer {forker : Int} {cmd : Nat} {t t' : Line} {c : Command} (h : runCmd forker cmd t = some (t', c)) :
    c.answer = .exit ∨ c.answer = .forked forker := by
  simp only [runCmd] at h
  split at h
  · cases h
  · split at h
    · split at h
      · cases h
      · cases h
      · split at h
        · cases h
          exact Or.inl rfl
        · cases h
          exact Or.inr rfl
    · cases h

theorem runLoop_flag {fork : Nat → Int} (hfork : ∀ k, fork k ≠ 0) : ∀ {cmds : List Nat} {i : Nat} {t : Line} {b b' : Bool}
    {cs : List Command}, runLoop fork i cmds t b = some (b', cs) → b' = (b && !stops cs)
  | [], i, t, b, b', cs, h => by
    cases h
    simp [stops]
  | cmd :: cmds, i, t, b, b', cs, h => by
    rw [runLoop] at h
    split at h
    · cases h
    · rename_i t' c hc
      have hvalue : c.answer.value ≠ 0 := by
        rcases runCmd_answer hc with ha | ha
        · rw [ha]
          decide
        · rw [ha]
          exact hfork i
      rw [if_neg hvalue] at h
      obtain ⟨⟨b₁, cs₁⟩, hrest, heq⟩ := Option.map_eq_some_iff.mp h
      cases heq
      rw [runLoop_flag hfork hrest]
      simp [stops, Bool.and_assoc, bne]

section
variable {w : World} (hfork : ∀ n k, w.fork n k ≠ 0)
include hfork

theorem handleLine_regular (n : Nat) {line : List Byte} (h0 : 0 ∉ line) (h : Regular line) (slack : List Byte) :
    handleLine (w.fork n) (line ++ 0 :: slack) = some (!stops (commandsOf w n line), commandsOf w n line) := by
  obtain ⟨b, hb⟩ := handleLine_eq (hfork n) h0 slack
  rw [if_pos ⟨h.segments, h.runs⟩] at hb
  have hflag := hb
  unfold handleLine at hflag
  split at hflag
  · cases hflag
  · rw [hb, runLoop_flag (hfork n) hflag]
    rfl

/-! ## All lines -/

/-- What the loop leaves in `in` and in `pids`, after the lines `css` and with `pids` before them. -/
def leftPids (w : World) (pids : Ptr) : List (List Command) → Ptr
  | [] => pids
  | cs :: rest => leftPids w (free (mallocPids w cs.length)) rest

def leftIn (css : List (List Command)) : Ptr := if css.any stops then .freed else .null

theorem readLoop_eq {file : List Byte} : ∀ {fuel n : Nat} {pids : Ptr}, Plain file → file.length < fuel →
    (∀ line ∈ lines file, line.length < intMax) → (∀ line ∈ endedLines file, Regular line) →
    readLoop w fuel n file pids = some (runEvents w n (executed w n (endedLines file)),
      leftIn (executed w n (endedLines file)), leftPids w pids (executed w n (endedLines file))) := by
  induction file using file_induction with
  | hopen line hn =>
    intro fuel n pids hp hfuel hshort hreg
    obtain ⟨fuel, rfl⟩ := Nat.exists_eq_add_one_of_ne_zero (show fuel ≠ 0 by omega)
    have hlen : line.length < intMax := by
      by_cases hl : line = []
      · simp [hl, intMax]
      · exact hshort line (by rw [lines_open hn, if_neg hl]; simp)
    rw [readLoop, fgetInput_open w.junk hn hp, if_pos hlen, endedLines_open hn]
    rfl
  | hline line rest hn ih =>
    intro fuel n pids hp hfuel hshort hreg
    obtain ⟨fuel, rfl⟩ := Nat.exists_eq_add_one_of_ne_zero (show fuel ≠ 0 by omega)
    obtain ⟨hpl, hpr⟩ := List.forall_mem_append.mp hp
    rw [List.length_append, List.length_cons] at hfuel
    rw [lines_line hn, List.forall_mem_cons] at hshort
    rw [endedLines_line hn, List.forall_mem_cons] at hreg
    have h0 : 0 ∉ line := fun h0 => (hpl 0 h0).1 rfl
    have hrest : readLoop w fuel (n + 1) rest (free (mallocPids w (commandsOf w n line).length)) = _ :=
      ih (List.forall_mem_cons.mp hpr).2 (by omega) hshort.2 hreg.2
    rw [readLoop, fgetInput_line w.junk hn hpl, if_pos hshort.1, endedLines_line hn, executed]
    simp only [handleLine_regular hfork n h0 hreg.1 []]
    cases hs : stops (commandsOf w n line) with
    | true => simp [hs, runEvents, lineEvents, leftIn, leftPids, free]
    | false => simp [hs, hrest, runEvents, lineEvents, leftIn, leftPids]

omit hfork in
theorem leftPids_last (css : List (List Command)) (pids : Ptr) :
    leftPids w pids css = (css.getLast?.map fun cs => free (mallocPids w cs.length)).getD pids := by
  induction css generalizing pids with
  | nil => rfl
  | cons cs css ih =>
    rw [leftPids, ih, List.getLast?_cons]
    cases css.getLast? <;> rfl

omit hfork in
theorem free_mallocPids (cs : List Command) :
    free (mallocPids w cs.length) ≠ .freed ↔ cs = [] ∧ w.zeroBlock = false := by
  by_cases h : cs.length = 0 ∧ w.zeroBlock = false
  · simp [mallocPids, h, free, List.length_eq_zero_iff.mp h.1]
  · rw [mallocPids, if_neg h]
    simpa [free, List.length_eq_zero_iff] using h

omit hfork in
theorem waited_waitLoop (status : Nat → Int) (i : Nat) (pids : List Int) :
    waitedPids (waitLoop status i pids) = pids.filter (0 ≤ ·) ∧ startedPids (waitLoop status i pids) = [] := by
  induction pids generalizing i with
  | nil => exact ⟨rfl, rfl⟩
  | cons pid pids ih =>
    obtain ⟨hw, hs⟩ := ih (i + 1)
    simp only [waitedPids, startedPids] at hw hs
    rw [waitLoop]
    by_cases hpid : pid < 0
    · rw [if_pos hpid, List.filter_cons_of_neg (by simpa using hpid)]
      exact ⟨hw, hs⟩
    · rw [if_neg hpid, List.filter_cons_of_pos (by simpa using hpid)]
      by_cases h0 : status i ≠ 0
      · simp [h0, waitedPids, startedPids, hw, hs]
      · simp [h0, waitedPids, startedPids, hw, hs]

omit hfork in
theorem started_events (cs : List Command) :
    startedPids (cs.flatMap Command.events) = (cs.map (·.answer.value)).filter (0 ≤ ·) ∧
      waitedPids (cs.flatMap Command.events) = [] := by
  induction cs with
  | nil => exact ⟨rfl, rfl⟩
  | cons c cs ih =>
    obtain ⟨hs, hw⟩ := ih
    simp only [waitedPids, startedPids] at hw hs
    cases ha : c.answer with
    | exit => simp [Command.events, ha, Answer.value, startedPids, waitedPids, hs, hw]
    | forked pid =>
      by_cases hpid : 0 ≤ pid
      · simp [Command.events, ha, Answer.value, hpid, startedPids, waitedPids, hs, hw]
      · simp [Command.events, ha, Answer.value, hpid, startedPids, waitedPids, hs, hw]

omit hfork in
/-- Every process that is started is waited for once, in the order of the starts. -/
theorem waited_eq_started (n : Nat) (css : List (List Command)) :
    waitedPids (runEvents w n css) = startedPids (runEvents w n css) := by
  induction css generalizing n with
  | nil => rfl
  | cons cs css ih =>
    have hrest := ih (n + 1)
    obtain ⟨hs, hw⟩ := started_events cs
    obtain ⟨hw', hs'⟩ := waited_waitLoop (w.status n) 0 (cs.map (·.answer.value))
    simp only [waitedPids, startedPids] at hrest hs hw hs' hw'
    simp only [runEvents, lineEvents, waitedPids, startedPids, List.filterMap_append, hs, hw, hs', hw', hrest]
    simp

/-- A batch run, in the process that reads the file: `fork` does not give it 0.
The file has no NUL and no 0xFF, its lines are shorter than `INT_MAX`, and each
ended line has a word in every command and no more than `INT_MAX` commands, with
fewer words each. The ended lines are executed up to the first one with an exit or
a failed fork. All commands of a line are started before they are waited for, and
every process that is started is waited for once. A block is freed twice at the
end, unless no line has an exit or a failed fork and the last one that is executed
has no command, for which `malloc(0)` has given null. -/
theorem batch_run (file : List Byte) (hp : Plain file) (hshort : ∀ line ∈ lines file, line.length < intMax)
    (hreg : ∀ line ∈ endedLines file, Regular line) :
    ∃ ok, batchRun w file = some (runEvents w 0 (executed w 0 (endedLines file)), ok) ∧
      waitedPids (runEvents w 0 (executed w 0 (endedLines file))) =
        startedPids (runEvents w 0 (executed w 0 (endedLines file))) ∧
      (ok = true ↔ (∀ cs ∈ executed w 0 (endedLines file), stops cs = false) ∧
        ∀ cs ∈ (executed w 0 (endedLines file)).getLast?, cs = [] ∧ w.zeroBlock = false) := by
  refine ⟨leftIn (executed w 0 (endedLines file)) != .freed &&
    leftPids w .null (executed w 0 (endedLines file)) != .freed, ?_, waited_eq_started 0 _, ?_⟩
  · rw [batchRun, readLoop_eq hfork hp (Nat.lt_succ_self _) hshort hreg, Option.map_some]
  · generalize executed w 0 (endedLines file) = css
    have hin : leftIn css ≠ .freed ↔ ∀ cs ∈ css, stops cs = false := by
      unfold leftIn
      split
      · rename_i hstop
        simpa using hstop
      · rename_i hstop
        simpa using hstop
    have hpids : leftPids w .null css ≠ .freed ↔ ∀ cs ∈ css.getLast?, cs = [] ∧ w.zeroBlock = false := by
      rw [leftPids_last]
      cases css.getLast? with
      | none => simp
      | some cs => simpa using free_mallocPids cs
    rw [Bool.and_eq_true, bne_iff_ne, bne_iff_ne, hin, hpids]

end

/-- Forks give 1, 2 and so on in each line, and all statuses are 0. -/
def plainWorld : World where
  fork _ k := k + 1
  status _ _ := 0
  zeroBlock := true
  junk _ _ := 1

/-- "ls;x", "x;exit" and "ls": the last line is not executed. -/
def threeLines : List Byte := [108, 115, 59, 120, 10, 120, 59, 101, 120, 105, 116, 10, 108, 115, 10]

theorem batch_run_exit :
    runEvents plainWorld 0 (executed plainWorld 0 (endedLines threeLines)) =
      [.start [some [108, 115], none] 1, .start [some [120], none] 2, .wait 1, .wait 2, .start [some [120], none] 1,
        .wait 1] ∧
    ∃ ok, batchRun plainWorld threeLines = some (runEvents plainWorld 0 (executed plainWorld 0 (endedLines threeLines)), ok) ∧
      waitedPids (runEvents plainWorld 0 (executed plainWorld 0 (endedLines threeLines))) =
        startedPids (runEvents plainWorld 0 (executed plainWorld 0 (endedLines threeLines))) ∧
      (ok = true ↔ (∀ cs ∈ executed plainWorld 0 (endedLines threeLines), stops cs = false) ∧
        ∀ cs ∈ (executed plainWorld 0 (endedLines threeLines)).getLast?, cs = [] ∧ plainWorld.zeroBlock = false) := by
  refine ⟨by decide +kernel, batch_run (fun _ k => ?_) threeLines (by decide) (by decide) ?_⟩
  · show ((k : Int) + 1) ≠ 0
    omega
  · have hlines : endedLines threeLines = [[108, 115, 59, 120], [120, 59, 101, 120, 105, 116], [108, 115]] := by
      decide +kernel
    rw [hlines]
    intro line hline
    have hregular : (words semicolon line).length ≤ intMax ∧ ∀ seg ∈ words semicolon line, Runs (words space seg) := by
      simp only [List.mem_cons, List.not_mem_nil, or_false] at hline
      obtain rfl | rfl | rfl := hline <;> decide +kernel
    exact ⟨hregular.1, hregular.2⟩

end OsLabs.Shell
