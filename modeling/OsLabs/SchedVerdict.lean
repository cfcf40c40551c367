import OsLabs.SchedChecks

/-!
# What the checks say of the program's log

Every log goes by the scripts of the workers. The checks are followed line by
line: `check_executed` never objects, and `compute_queue_size` finds how many
workers were between their first and their last line at once.
-/

namespace OsLabs.Sched

open Stdio

/-! ## Reading a log -/

/-- `body` for all lines of a log, one after the other. -/
def reads {β : Type*} (body : β → List Char → Option β) (ids : Ids) (log : List Line) (s : β) : Option β :=
  (log.map (Line.text ids)).foldlM body s

section
variable {β : Type*} {body : β → List Char → Option β} {ids : Ids} {log : List Line} {last : Line}

theorem foldlM_bind {α : Type*} (f : β → α → Option β) (xs ys : List α) (s : β) :
    (xs ++ ys).foldlM f s = (xs.foldlM f s).bind fun s => ys.foldlM f s := List.foldlM_append

theorem reads_bind (l : Line) (log : List Line) (s : β) :
    reads body ids (l :: log) s = (body s (l.text ids)).bind fun s => reads body ids log s := by
  rw [reads, List.map_cons, List.foldlM_cons]
  rfl

theorem reads_snoc (l : Line) (s : β) :
    reads body ids (log ++ [l]) s = (reads body ids log s).bind fun s => body s (l.text ids) := by
  have hlast : ∀ s, reads body ids [l] s = body s (l.text ids) := fun s => by
    rw [reads_bind]
    exact Option.bind_fun_some _
  rw [reads, List.map_append, foldlM_bind]
  exact congrArg _ (funext hlast)

variable (ids) in
theorem isLine_log (h : ∀ l ∈ log, l.InRange) : ∀ line ∈ log.map (Line.text ids), IsLine 1024 line := by
  intro line hline
  obtain ⟨l, hl, rfl⟩ := List.mem_map.mp hline
  exact isLine_text (h l hl)

/-- A check that begins at the start of the file reads the log, and its last line twice. -/
theorem eachRound_log (h : ∀ l ∈ log ++ [last], l.InRange) (s : β) :
    eachRound body (roundsOf 1024 (logText ids (log ++ [last]))) s = some (reads body ids (log ++ [last] ++ [last]) s) := by
  have hmap : (log ++ [last]).map (Line.text ids) = log.map (Line.text ids) ++ [last.text ids] := List.map_append
  have hlines := isLine_log ids h
  rw [hmap] at hlines
  rw [logText, hmap, eachRound_lines (by decide) body hlines, reads, List.map_append, hmap]
  rfl

theorem reads_cons {l : Line} {s s' : β} (h : body s (l.text ids) = some s') (log : List Line) :
    reads body ids (l :: log) s = reads body ids log s' := by
  rw [reads_bind, h, Option.bind_some]

/-- The header and the scheduler's last line are not what the later checks look for. -/
theorem eachRound_whole {n q k : Nat} {s : β} (hrunning : body s ((Line.running n q k).text ids) = some s)
    (hdone : ∀ s, body s (Line.done.text ids) = some s) (h : ∀ l ∈ Line.running n q k :: log, l.InRange)
    (hlast : log.getLast? = some .done) :
    eachRound body (roundsOf 1024 (logText ids (Line.running n q k :: log))) s = some (reads body ids log s) := by
  obtain ⟨log, rfl⟩ := List.getLast?_eq_some_iff.mp hlast
  rw [← List.cons_append, eachRound_log h, List.cons_append, List.cons_append, reads_cons hrunning, reads_snoc]
  cases reads body ids (log ++ [.done]) s with
  | none => rfl
  | some s => simp only [Option.bind_some, hdone]

theorem reads_inv {I : List Line → β → Prop} {P : List Line → Prop} (hinit : ∀ {log l}, P (log ++ [l]) → P log)
    (hstep : ∀ log l s, P (log ++ [l]) → I log s → ∃ s', body s (l.text ids) = some s' ∧ I (log ++ [l]) s') {s₀ : β}
    (h₀ : I [] s₀) (h : P log) : ∃ s, reads body ids log s₀ = some s ∧ I log s := by
  induction log using List.reverseRecOn with
  | nil => exact ⟨s₀, rfl, h₀⟩
  | append_singleton log l ih =>
    obtain ⟨s, hs, hi⟩ := ih (hinit h)
    obtain ⟨s', hs', hi'⟩ := hstep log l s h hi
    exact ⟨s', by rw [reads_snoc, hs, Option.bind_some, hs'], hi'⟩

end

/-! ## The header and the last line -/

section
variable {cfg : Config} {ids : Ids} {log : List Line}

theorem Follows.inRange (h : Follows cfg log) (hk : cfg.iterations ≤ intMax) {l : Line} (hl : l ∈ log) : l.InRange := by
  cases l with
  | running a b c => exact absurd rfl (h.header _ hl a b c)
  | loop w i =>
    have hmem : Line.loop w i ∈ linesOf w log := List.mem_filter.mpr ⟨hl, by simp [Line.speaker]⟩
    have hscript := (h.lines w).subset hmem
    simp only [script, List.mem_cons, List.mem_append, List.mem_map, List.mem_range] at hscript
    obtain heq | ⟨j, hj, heq⟩ | heq | hnil := hscript
    · cases heq
    · cases heq
      exact Nat.le_trans (Nat.le_of_lt hj) hk
    · cases heq
    · cases hnil
  | detaching | waiting | inQueue | exiting | done => trivial

theorem checkForDone_log (h : ∀ l ∈ log, l.InRange) :
    checkForDone (logText ids log) = decide (log.getLast? = some .done) := by
  rw [checkForDone, logText, roundsOf_lines (by decide) (isLine_log ids h), List.foldl_append]
  simp only [List.foldl_cons, List.foldl_nil, if_true]
  induction log using List.reverseRecOn with
  | nil => rfl
  | append_singleton log l ih =>
    rw [List.map_append, List.map_append, List.foldl_append, List.getLast?_concat]
    simp only [List.map_cons, List.map_nil, List.foldl_cons, List.foldl_nil, Bool.false_eq_true, if_false]
    rw [Bool.eq_iff_iff]
    simpa using text_eq_done

theorem headerLine_other {l : Line} (h : l.InRange) (hne : ∀ a b c, l ≠ .running a b c) (header : Int × Int × Int) :
    headerLine header (l.text ids) = header := by
  rw [headerLine, sscanf_header h]
  cases l with
  | running a b c => exact absurd rfl (hne a b c)
  | detaching | waiting | inQueue | loop | exiting | done => rfl

theorem header_kept (h : ∀ l ∈ log, l.InRange ∧ ∀ a b c, l ≠ .running a b c) (header : Int × Int × Int) :
    reads (fun header buf => some (headerLine header buf)) ids log header = some header := by
  induction log using List.reverseRecOn with
  | nil => rfl
  | append_singleton log l ih =>
    obtain ⟨hl, hne⟩ := h l (by simp)
    rw [reads_snoc, ih fun l hl => h l (List.mem_append_left _ hl), Option.bind_some, headerLine_other hl hne]

theorem readHeader_log {n q k : Nat} (h : ∀ l ∈ Line.running n q k :: log, l.InRange)
    (hlog : ∀ l ∈ log, ∀ a b c, l ≠ .running a b c) :
    readHeader (logText ids (Line.running n q k :: log)) = some ((n : Int), (q : Int), (k : Int)) := by
  have hfirst : ∀ header : Int × Int × Int, headerLine header ((Line.running n q k).text ids) = ((n : Int), (q : Int), (k : Int)) :=
    fun header => by rw [headerLine, sscanf_header (h _ (by simp))]
  induction log using List.reverseRecOn with
  | nil =>
    rw [readHeader, ← List.nil_append [Line.running n q k], eachRound_log h, List.nil_append, List.cons_append,
      reads_cons (congrArg some (hfirst _)), List.nil_append, reads_cons (congrArg some (hfirst _))]
    rfl
  | append_singleton log last _ =>
    have hkept : ∀ l ∈ log ++ [last] ++ [last], l.InRange ∧ ∀ a b c, l ≠ .running a b c := by
      intro l hl
      have hl : l ∈ log ++ [last] := by simpa using hl
      exact ⟨h l (List.mem_cons_of_mem _ hl), hlog l hl⟩
    rw [readHeader, ← List.cons_append, eachRound_log h, List.cons_append, List.cons_append,
      reads_cons (congrArg some (hfirst _)), header_kept hkept]
    rfl

end

/-! ## Who is between its first and its last line -/

def arrived (log : List Line) : List Nat := log.filterMap fun | .inQueue w => some w | _ => none

def departed (log : List Line) : List Nat := log.filterMap fun | .exiting w => some w | _ => none

/-- There are never more than `q` workers between their first and their last line. -/
def Fits (q : Nat) (log : List Line) : Prop := ∀ pre, pre <+: log → (arrived pre).length ≤ (departed pre).length + q

instance (q : Nat) (log : List Line) : Decidable (Fits q log) :=
  decidable_of_iff (∀ pre ∈ log.inits, (arrived pre).length ≤ (departed pre).length + q) (by simp only [List.mem_inits, Fits])

section
variable {cfg : Config} {ids : Ids} {log : List Line} {l : Line}

theorem arrived_snoc (log : List Line) (l : Line) :
    arrived (log ++ [l]) = arrived log ++ (match l with | .inQueue w => [w] | _ => []) := by
  rw [arrived, List.filterMap_append]
  cases l <;> rfl

theorem departed_snoc (log : List Line) (l : Line) :
    departed (log ++ [l]) = departed log ++ (match l with | .exiting w => [w] | _ => []) := by
  rw [departed, List.filterMap_append]
  cases l <;> rfl

theorem fits_snoc {q : Nat} : Fits q (log ++ [l]) ↔
    Fits q log ∧ (arrived (log ++ [l])).length ≤ (departed (log ++ [l])).length + q := by
  constructor
  · intro h
    exact ⟨fun pre hpre => h pre (hpre.trans (List.prefix_append _ _)), h _ List.prefix_rfl⟩
  · rintro ⟨h, hl⟩ pre hpre
    rcases List.prefix_concat_iff.mp hpre with rfl | hpre
    · exact hl
    · exact h pre hpre

theorem progress_self {w : Nat} (h : l.speaker = .worker w) : progress w (log ++ [l]) = progress w log + 1 := by
  rw [progress_append, if_pos h]

theorem progress_other {w : Nat} (h : l.speaker ≠ .worker w) : progress w (log ++ [l]) = progress w log := by
  rw [progress_append, if_neg h, Nat.add_zero]

theorem Follows.arrived (h : Follows cfg log) :
    (Sched.arrived log).Nodup ∧ ∀ w, w ∈ Sched.arrived log ↔ 1 ≤ progress w log := by
  induction log using List.reverseRecOn with
  | nil => simp [Sched.arrived, progress, linesOf]
  | append_singleton log l ih =>
    obtain ⟨hnd, hmem⟩ := ih h.init
    rw [arrived_snoc]
    cases l with
    | inQueue v =>
      have hv := h.inQueue.2
      have hnot : v ∉ Sched.arrived log := by
        rw [hmem, hv]
        omega
      refine ⟨List.nodup_append'.mpr ⟨hnd, List.nodup_singleton v, by simpa using hnot⟩, fun w => ?_⟩
      rw [progress_append, List.mem_append, hmem, List.mem_singleton]
      by_cases hw : w = v
      · simp [hw, Line.speaker]
      · simp [hw, Ne.symm hw, Line.speaker]
    | loop v i =>
      have hv := h.loop.2.2
      refine ⟨by simpa using hnd, fun w => ?_⟩
      simp only [progress_append, List.append_nil, hmem]
      by_cases hw : w = v
      · subst hw
        omega
      · simp [Ne.symm hw, Line.speaker]
    | exiting v =>
      have hv := h.exiting.2
      refine ⟨by simpa using hnd, fun w => ?_⟩
      simp only [progress_append, List.append_nil, hmem]
      by_cases hw : w = v
      · subst hw
        omega
      · simp [Ne.symm hw, Line.speaker]
    | running | detaching | waiting | done =>
      refine ⟨by simpa using hnd, fun w => ?_⟩
      simp [progress_append, hmem, Line.speaker]

theorem Follows.departed (h : Follows cfg log) :
    (Sched.departed log).Nodup ∧ ∀ w, w ∈ Sched.departed log ↔ progress w log = cfg.iterations + 2 := by
  induction log using List.reverseRecOn with
  | nil => simp [Sched.departed, progress, linesOf]
  | append_singleton log l ih =>
    obtain ⟨hnd, hmem⟩ := ih h.init
    rw [departed_snoc]
    cases l with
    | inQueue v =>
      have hv := h.inQueue.2
      refine ⟨by simpa using hnd, fun w => ?_⟩
      simp only [progress_append, List.append_nil, hmem]
      by_cases hw : w = v
      · subst hw
        simp [Line.speaker, hv]
      · simp [Ne.symm hw, Line.speaker]
    | loop v i =>
      have hv := h.loop.2
      refine ⟨by simpa using hnd, fun w => ?_⟩
      simp only [progress_append, List.append_nil, hmem]
      by_cases hw : w = v
      · subst hw
        simp only [Line.speaker, if_true]
        omega
      · simp [Ne.symm hw, Line.speaker]
    | exiting v =>
      have hv := h.exiting.2
      have hnot : v ∉ Sched.departed log := by
        rw [hmem, hv]
        omega
      refine ⟨List.nodup_append'.mpr ⟨hnd, List.nodup_singleton v, by simpa using hnot⟩, fun w => ?_⟩
      rw [progress_append, List.mem_append, hmem, List.mem_singleton]
      by_cases hw : w = v
      · simp [hw, Line.speaker, hv]
      · simp [hw, Ne.symm hw, Line.speaker]
    | running | detaching | waiting | done =>
      refine ⟨by simpa using hnd, fun w => ?_⟩
      simp [progress_append, hmem, Line.speaker]

theorem Follows.departed_le (h : Follows cfg log) : (Sched.departed log).length ≤ (Sched.arrived log).length := by
  apply (List.subperm_of_subset h.departed.1 fun w hw => ?_).length_le
  rw [h.arrived.2, (h.departed.2 w).mp hw]
  omega

/-! ## The counts -/

structure Tally (log : List Line) (c : Counts) : Prop where
  finalThreads : c.finalThreads = (arrived log).length - (departed log).length
  admittedThreads : c.admittedThreads = (arrived log).length
  threadsMin : c.threadsMin = 0
  threadsMax : ∀ q : Nat, c.threadsMax ≤ q ↔ Fits q log

theorem countLine_text {l : Line} (hl : l.InRange) (c : Counts) : countLine c (l.text ids) =
    match l with
    | .inQueue _ => c.enter
    | .exiting _ => c.exit
    | _ => c := by
  rw [countLine, sscanf_inQueue hl, sscanf_exiting hl]
  cases l <;> rfl

theorem tally_log (ids : Ids) (hk : cfg.iterations ≤ intMax) (h : Follows cfg log) :
    ∃ c, reads (fun c buf => some (countLine c buf)) ids log ⟨0, 0, 0, 0⟩ = some c ∧ Tally log c := by
  induction log using List.reverseRecOn with
  | nil =>
    refine ⟨_, rfl, rfl, rfl, rfl, fun q => ⟨fun _ pre hpre => ?_, fun _ => by simp⟩⟩
    rw [List.prefix_nil.mp hpre]
    simp [Sched.arrived]
  | append_singleton log l ih =>
    obtain ⟨c, hc, ht⟩ := ih h.init
    have hl := h.inRange hk (List.mem_append_right log (List.mem_singleton_self l))
    have hle := h.departed_le
    rw [reads_snoc, hc, Option.bind_some, countLine_text hl]
    refine ⟨_, rfl, ?_⟩
    obtain ⟨hfinal, hadmitted, hmin, hmax⟩ := ht
    have ha := arrived_snoc log l
    have hd := departed_snoc log l
    cases l with
    | inQueue w =>
      simp only [List.append_nil] at hd
      refine ⟨?_, ?_, hmin, fun q => ?_⟩
      · simp only [Counts.enter, hfinal, ha, hd, List.length_append, List.length_singleton]
        omega
      · simp only [Counts.enter, hadmitted, ha, List.length_append, List.length_singleton]
        omega
      · rw [fits_snoc, ← hmax q, ha, hd, List.length_append, List.length_singleton]
        simp only [Counts.enter, hfinal]
        split <;> omega
    | exiting w =>
      simp only [List.append_nil] at ha
      rw [ha, hd, List.length_append, List.length_singleton] at hle
      refine ⟨?_, ?_, ?_, fun q => ?_⟩
      · simp only [Counts.exit, hfinal, ha, hd, List.length_append, List.length_singleton]
        omega
      · simp only [Counts.exit, hadmitted, ha]
      · simp only [Counts.exit, hmin, hfinal]
        rw [if_neg (by omega)]
      · rw [fits_snoc, ← hmax q, ha, hd, List.length_append, List.length_singleton]
        have hinit := h.init.departed_le
        have hhere : Fits q log → _ := fun hf => hf log List.prefix_rfl
        rw [← hmax q] at hhere
        simp only [Counts.exit]
        omega
    | running | loop | detaching | waiting | done =>
      simp only [List.append_nil] at ha hd
      refine ⟨by rw [ha, hd]; exact hfinal, by rw [ha]; exact hadmitted, hmin, fun q => ?_⟩
      have hhere : Fits q log → _ := fun hf => hf log List.prefix_rfl
      rw [fits_snoc, ha, hd, hmax q]
      exact ⟨fun hf => ⟨hf, hhere hf⟩, And.left⟩

end

/-! ## The buckets -/

/-- `lookup_bucket` tells the workers apart. -/
def Ids.Distinct (ids : Ids) (cfg : Config) : Prop :=
  ∀ v w, v < cfg.threadCount → w < cfg.threadCount → toInt (ids.worker v) = toInt (ids.worker w) → v = w

def cell (ids : Ids) (value : Nat → Nat) (w : Nat) : Int × Nat := (toInt (ids.worker w), value w)

/-- There is a bucket for each of the workers `ws`, in this order, and none for another one. -/
structure Buckets.Holds (cfg : Config) (ids : Ids) (b : Buckets) (ws : List Nat) (value : Nat → Nat) : Prop where
  size : b.size = cfg.threadCount
  cells : b.cells = ws.map (cell ids value)
  nodup : ws.Nodup
  known : ∀ w ∈ ws, w < cfg.threadCount
  rest : ∀ w, w ∉ ws → value w = 0

/-- The workers with a bucket after `lookup_bucket` for `w`. -/
def seat (w : Nat) (ws : List Nat) : List Nat := if w ∈ ws then ws else ws ++ [w]

theorem findIdx?_middle {α : Type*} {p : α → Bool} {xs ys : List α} {a : α} (hxs : ∀ x ∈ xs, p x = false)
    (ha : p a = true) : (xs ++ a :: ys).findIdx? p = some xs.length := by
  induction xs with
  | nil => simp [List.findIdx?_cons, ha]
  | cons x xs ih =>
    obtain ⟨hx, hxs⟩ := List.forall_mem_cons.mp hxs
    simp [List.findIdx?_cons, hx, ih hxs]

theorem modify_middle {α : Type*} (f : α → α) (xs ys : List α) (a : α) :
    (xs ++ a :: ys).modify xs.length f = xs ++ f a :: ys := by
  induction xs with
  | nil => rfl
  | cons x xs ih => simp [ih]

section
variable {cfg : Config} {ids : Ids} {b : Buckets} {ws : List Nat} {value : Nat → Nat}

theorem cell_update {w : Nat} {xs : List Nat} (h : w ∉ xs) (v : Nat) :
    xs.map (cell ids (Function.update value w v)) = xs.map (cell ids value) := by
  apply List.map_congr_left
  intro u hu
  rw [cell, cell, Function.update_of_ne]
  rintro rfl
  exact h hu

theorem Buckets.Holds.lookup (h : b.Holds cfg ids ws value) (hid : ids.Distinct cfg) {w : Nat} (hw : w < cfg.threadCount) :
    ∃ b' i, lookupBucket b (toInt (ids.worker w)) = some (b', i) ∧ b'.value i = value w ∧
      b'.Holds cfg ids (seat w ws) value ∧
      ∀ v, (b'.set i v).Holds cfg ids (seat w ws) (Function.update value w v) := by
  have hne : ∀ u, u < cfg.threadCount → u ≠ w → ((cell ids value u).1 == toInt (ids.worker w)) = false := fun u hu hne => by
    simpa [cell] using fun heq => hne (hid u w hu hw heq)
  obtain ⟨xs, ys, hseat, hfind⟩ : ∃ xs ys, seat w ws = xs ++ w :: ys ∧
      lookupBucket b (toInt (ids.worker w)) =
        some ({ b with cells := (xs ++ w :: ys).map (cell ids value) }, xs.length) := by
    by_cases hmem : w ∈ ws
    · obtain ⟨xs, ys, rfl⟩ := List.append_of_mem hmem
      have hnot : w ∉ xs := fun hx => (List.nodup_append'.mp h.nodup).2.2 hx (by simp)
      refine ⟨xs, ys, by simp [seat], ?_⟩
      have hidx : b.cells.findIdx? (·.1 == toInt (ids.worker w)) = some xs.length := by
        rw [h.cells, List.map_append, List.map_cons, findIdx?_middle ?_ (by simp [cell]), List.length_map]
        intro x hx
        obtain ⟨u, hu, rfl⟩ := List.mem_map.mp hx
        exact hne u (h.known u (by simp [hu])) fun heq => hnot (heq ▸ hu)
      rw [lookupBucket, hidx, ← h.cells]
    · refine ⟨ws, [], by simp [seat, hmem], ?_⟩
      have hidx : b.cells.findIdx? (·.1 == toInt (ids.worker w)) = none := by
        rw [List.findIdx?_eq_none_iff, h.cells]
        intro x hx
        obtain ⟨u, hu, rfl⟩ := List.mem_map.mp hx
        exact hne u (h.known u hu) fun heq => hmem (heq ▸ hu)
      have hroom : b.cells.length < b.size := by
        have hsub : (w :: ws).Subperm (List.range cfg.threadCount) := by
          apply List.subperm_of_subset (List.nodup_cons.mpr ⟨hmem, h.nodup⟩)
          intro u hu
          rcases List.mem_cons.mp hu with rfl | hu
          · exact List.mem_range.mpr hw
          · exact List.mem_range.mpr (h.known u hu)
        have hlen := hsub.length_le
        rw [List.length_range, List.length_cons] at hlen
        rw [h.cells, List.length_map, h.size]
        omega
      simp only [lookupBucket, hidx]
      rw [if_pos hroom]
      simp only [h.cells, List.length_map, List.map_append, List.map_cons, List.map_nil, cell, h.rest w hmem]
  have hnodup : (xs ++ w :: ys).Nodup := by
    rw [← hseat, seat]
    split
    · exact h.nodup
    · rename_i hnot
      exact List.nodup_append'.mpr ⟨h.nodup, List.nodup_singleton w, by simpa using hnot⟩
  have hknown : ∀ u ∈ xs ++ w :: ys, u < cfg.threadCount := by
    intro u hu
    rw [← hseat, seat] at hu
    split at hu
    · exact h.known u hu
    · rcases List.mem_append.mp hu with hu | hu
      · exact h.known u hu
      · rwa [List.mem_singleton.mp hu]
  have hrest : ∀ u, u ∉ xs ++ w :: ys → u ∉ ws := by
    intro u hu hmem
    apply hu
    rw [← hseat, seat]
    split
    · exact hmem
    · exact List.mem_append_left _ hmem
  obtain ⟨-, hndys, hdis⟩ := List.nodup_append'.mp hnodup
  have hxs : w ∉ xs := fun hx => hdis hx (by simp)
  have hys : w ∉ ys := (List.nodup_cons.mp hndys).1
  rw [hseat]
  refine ⟨_, _, hfind, ?_, ⟨h.size, rfl, hnodup, hknown, fun u hu => h.rest u (hrest u hu)⟩, fun v => ?_⟩
  · simp [Buckets.value, cell]
  · refine ⟨h.size, ?_, hnodup, hknown, fun u hu => ?_⟩
    · have hmod := modify_middle (fun x : Int × Nat => (x.1, v)) (xs.map (cell ids value)) (ys.map (cell ids value))
        (cell ids value w)
      rw [List.length_map] at hmod
      simp only [Buckets.set, List.map_append, List.map_cons, hmod, cell_update hxs, cell_update hys]
      simp [cell]
    · rw [Function.update_of_ne (by rintro rfl; exact hu (by simp))]
      exact h.rest u (hrest u hu)

end

/-! ## `check_executed` -/

section
variable {cfg : Config} {ids : Ids} {log : List Line}

theorem seat_arrived {w : Nat} (h : w ∈ arrived log) : seat w (arrived log) = arrived log := if_pos h

theorem Buckets.Holds.congr {b : Buckets} {ws ws' : List Nat} {f g : Nat → Nat} (h : b.Holds cfg ids ws f)
    (hws : ws = ws') (hfg : ∀ w, f w = g w) : b.Holds cfg ids ws' g := by
  obtain rfl : f = g := funext hfg
  exact hws ▸ h

/-- Every worker's bucket has how many of its loops have been read. -/
theorem executed_log (hid : ids.Distinct cfg) (hk : cfg.iterations ≤ intMax) (h : Follows cfg log) :
    ∃ b, reads (executedLine cfg.iterations) ids log ⟨[], cfg.threadCount⟩ = some b ∧
      b.Holds cfg ids (arrived log) fun w => min (progress w log - 1) cfg.iterations := by
  refine reads_inv (I := fun log (b : Buckets) => b.Holds cfg ids (arrived log) fun w => min (progress w log - 1) cfg.iterations)
    Follows.init (fun log l b h hb => ?_) ⟨rfl, rfl, List.nodup_nil, nofun, fun _ _ => rfl⟩ h
  have hl := h.inRange hk (List.mem_append_right log (List.mem_singleton_self l))
  rw [executedLine, sscanf_inQueue hl, sscanf_loop hl, sscanf_exiting hl]
  cases l with
  | inQueue w =>
    obtain ⟨hw, hp⟩ := h.inQueue
    obtain ⟨b', i, hlookup, -, -, hset⟩ := hb.lookup hid hw
    have hnot : w ∉ arrived log := by
      rw [h.init.arrived.2, hp]
      omega
    simp only [hlookup]
    refine ⟨_, rfl, (hset 0).congr (by rw [arrived_snoc, seat, if_neg hnot]) fun u => ?_⟩
    by_cases hu : u = w
    · subst hu
      rw [Function.update_self, progress_self rfl, hp]
      exact (Nat.zero_min _).symm
    · rw [Function.update_of_ne hu, progress_other (by simpa [Line.speaker] using Ne.symm hu)]
  | loop w i =>
    obtain ⟨hw, hi, hp⟩ := h.loop
    obtain ⟨b', j, hlookup, hvalue, -, hset⟩ := hb.lookup hid hw
    have hmem : w ∈ arrived log := by
      rw [h.init.arrived.2, hp]
      omega
    have hval : b'.value j = i := by
      rw [hvalue, hp]
      omega
    have hlt : i + 1 < 2 ^ 64 := by
      have : intMax = 2147483647 := rfl
      omega
    have hsize : toSize (i : Int) = i ∧ toSize ((i : Int) + 1) = i + 1 := by
      unfold toSize
      omega
    simp only [hlookup, hval, hsize.1, hsize.2, ne_eq, not_true_eq_false, if_false]
    refine ⟨_, rfl, (hset (i + 1)).congr (by rw [arrived_snoc, seat_arrived hmem, List.append_nil]) fun u => ?_⟩
    by_cases hu : u = w
    · subst hu
      rw [Function.update_self, progress_self rfl, hp]
      omega
    · rw [Function.update_of_ne hu, progress_other (by simpa [Line.speaker] using Ne.symm hu)]
  | exiting w =>
    obtain ⟨hw, hp⟩ := h.exiting
    obtain ⟨b', j, hlookup, hvalue, hsame, -⟩ := hb.lookup hid hw
    have hmem : w ∈ arrived log := by
      rw [h.init.arrived.2, hp]
      omega
    have hval : b'.value j = cfg.iterations := by
      rw [hvalue, hp]
      omega
    simp only [hlookup, hval, ne_eq, not_true_eq_false, if_false]
    refine ⟨_, rfl, hsame.congr (by rw [arrived_snoc, seat_arrived hmem, List.append_nil]) fun u => ?_⟩
    by_cases hu : u = w
    · subst hu
      rw [progress_self rfl, hp]
      omega
    · rw [progress_other (by simpa [Line.speaker] using Ne.symm hu)]
  | running | detaching | waiting | done =>
    refine ⟨b, rfl, hb.congr (by rw [arrived_snoc, List.append_nil]) fun u => ?_⟩
    rw [progress_other (by simp [Line.speaker])]

/-! ## `check_rudimentary` -/

/-- The log of a run that is complete. -/
structure Whole (cfg : Config) (log : List Line) : Prop where
  follows : Follows cfg log
  all : ∀ w, w < cfg.threadCount → linesOf w log = script cfg w

theorem Whole.progress (h : Whole cfg log) {w : Nat} (hw : w < cfg.threadCount) : progress w log = cfg.iterations + 2 := by
  rw [Sched.progress, h.all w hw, length_script]

theorem Whole.perm (h : Whole cfg log) :
    (arrived log).Perm (List.range cfg.threadCount) ∧ (departed log).Perm (List.range cfg.threadCount) := by
  have hnone : ∀ w, cfg.threadCount ≤ w → Sched.progress w log = 0 := fun w hw => by
    rw [Sched.progress, h.follows.known w hw]
    rfl
  refine ⟨?_, ?_⟩
  · rw [List.perm_ext_iff_of_nodup h.follows.arrived.1 List.nodup_range]
    intro w
    rw [h.follows.arrived.2, List.mem_range]
    rcases Nat.lt_or_ge w cfg.threadCount with hw | hw
    · have := h.progress hw
      omega
    · have := hnone w hw
      omega
  · rw [List.perm_ext_iff_of_nodup h.follows.departed.1 List.nodup_range]
    intro w
    rw [h.follows.departed.2, List.mem_range]
    rcases Nat.lt_or_ge w cfg.threadCount with hw | hw
    · have := h.progress hw
      omega
    · have := hnone w hw
      omega

/-- The command line fits into `int`s, and so does one more than the iterations. -/
structure Config.InRange (cfg : Config) : Prop where
  threadCount : cfg.threadCount ≤ intMax
  queueSize : cfg.queueSize ≤ intMax
  iterations : cfg.iterations < intMax

theorem Whole.inRange (h : Whole cfg log) (hc : cfg.InRange) :
    ∀ l ∈ Line.running cfg.threadCount cfg.queueSize cfg.iterations :: log, l.InRange :=
  List.forall_mem_cons.mpr ⟨⟨hc.threadCount, hc.queueSize, hc.iterations.le⟩, fun _ => h.follows.inRange hc.iterations.le⟩

theorem checkRudimentary_log (hid : ids.Distinct cfg) (hc : cfg.InRange) (h : Whole cfg log) :
    ∃ b, checkRudimentary (logText ids (.running cfg.threadCount cfg.queueSize cfg.iterations :: log)) cfg.threadCount
        cfg.queueSize cfg.iterations = some b ∧
      (b = true ↔ log.getLast? = some .done ∧ Fits cfg.queueSize log) := by
  have hrange := h.inRange hc
  rw [checkRudimentary, readHeader_log hrange h.follows.header]
  simp only [ne_eq, not_true_eq_false, if_false, checkForDone_log hrange]
  by_cases hlast : log.getLast? = some .done
  · have hcons : (Line.running cfg.threadCount cfg.queueSize cfg.iterations :: log).getLast? = some .done := by
      rw [List.getLast?_cons, hlast]
      rfl
    obtain ⟨c, hreads, ht⟩ := tally_log ids hc.iterations.le h.follows
    have hcount : computeQueueSize (logText ids (.running cfg.threadCount cfg.queueSize cfg.iterations :: log)) = some c := by
      rw [computeQueueSize, eachRound_whole ?_ ?_ hrange hlast, hreads]
      · rfl
      · rw [countLine_text (hrange _ List.mem_cons_self)]
      · intro s
        rw [countLine_text (l := .done) trivial]
    have hperm := h.perm
    have hfinal : c.finalThreads = 0 ∧ c.admittedThreads = cfg.threadCount := by
      rw [ht.finalThreads, ht.admittedThreads, hperm.1.length_eq, hperm.2.length_eq, List.length_range]
      omega
    obtain ⟨b, hb, hholds⟩ := executed_log hid hc.iterations.le h.follows
    have hexec : checkExecuted (logText ids (.running cfg.threadCount cfg.queueSize cfg.iterations :: log)) cfg.threadCount
        cfg.iterations = some true := by
      rw [checkExecuted, eachRound_whole ?_ ?_ hrange hlast, hb]
      · simp only [verdict]
        rw [hholds.size, hholds.cells, List.length_map, hperm.1.length_eq, List.length_range]
        simp
      · have hl := hrange _ List.mem_cons_self
        rw [executedLine, sscanf_inQueue hl, sscanf_loop hl, sscanf_exiting hl]
      · intro s
        have hl : Line.done.InRange := trivial
        rw [executedLine, sscanf_inQueue hl, sscanf_loop hl, sscanf_exiting hl]
    have hcond : (c.threadsMin = 0 ∧ c.threadsMax ≤ cfg.queueSize ∧ c.finalThreads = 0 ∧
        c.admittedThreads = cfg.threadCount) ↔ Fits cfg.queueSize log := by
      simp only [ht.threadsMin, hfinal, ht.threadsMax, true_and, and_true]
    simp only [hcons, decide_true, Bool.true_eq_false, if_false, hcount, hlast, true_and, hexec]
    by_cases hfits : Fits cfg.queueSize log
    · exact ⟨true, by rw [if_pos (hcond.mpr hfits)], by simp [hfits]⟩
    · exact ⟨false, by rw [if_neg fun hall => hfits (hcond.mp hall)], by simp [hfits]⟩
  · have hcons : (Line.running cfg.threadCount cfg.queueSize cfg.iterations :: log).getLast? ≠ some .done := by
      rw [List.getLast?_cons]
      cases hl : log.getLast? with
      | none => simp
      | some l =>
        rw [hl] at hlast
        simpa using hlast
    simp [hcons, hlast]

end

end OsLabs.Sched
