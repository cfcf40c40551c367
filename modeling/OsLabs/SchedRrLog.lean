import OsLabs.SchedFifoLog

/-!
# The round robin test

With queue size 1 the log of a complete run has the turns in rounds, and
`check_executed_rr` follows it round by round: the workers wait in `rrq` in the
order of their arrival, and the buckets say in which round each has had its turn.
-/

namespace OsLabs.Sched

open Stdio

section
variable {cfg : Config} {ws : List Nat}

theorem wholeRounds_prefix (cfg : Config) (k d : Nat) (ws : List Nat) : wholeRounds cfg k ws <+: wholeRounds cfg (k + d) ws := by
  induction d with
  | zero => exact List.prefix_rfl
  | succ d ih =>
    rw [← Nat.add_assoc, wholeRounds_succ]
    exact ih.trans (List.prefix_append _ _)

/-- The next turn in the rounds. -/
theorem next_turn {r : Nat} {xs ys : List Nat} {ts : List (Nat × Turn)} {x : Nat × Turn} (hws : ws = ys ++ xs)
    (hts : ts = wholeRounds cfg r ws ++ ys.map fun w => (w, turnIn cfg r)) (hr : r ≤ cfg.iterations)
    (hopen : xs ≠ [] ∨ r = cfg.iterations) (h : ts ++ [x] <+: wholeRounds cfg (cfg.iterations + 1) ws) :
    ∃ w xs', xs = w :: xs' ∧ x = (w, turnIn cfg r) := by
  have hround : wholeRounds cfg (r + 1) ws = ts ++ xs.map fun w => (w, turnIn cfg r) := by
    rw [wholeRounds_succ, hts, List.append_assoc, ← List.map_append, ← hws]
  have hpre : wholeRounds cfg (r + 1) ws <+: wholeRounds cfg (cfg.iterations + 1) ws := by
    have := wholeRounds_prefix cfg (r + 1) (cfg.iterations - r) ws
    rwa [show r + 1 + (cfg.iterations - r) = cfg.iterations + 1 by omega] at this
  cases xs with
  | nil =>
    exfalso
    obtain rfl : r = cfg.iterations := hopen.resolve_left (by simp)
    have hlen := h.length_le
    rw [hround] at hlen
    simp at hlen
  | cons w xs' =>
    refine ⟨w, xs', rfl, ?_⟩
    have hw : ts ++ [(w, turnIn cfg r)] <+: wholeRounds cfg (cfg.iterations + 1) ws := by
      refine List.IsPrefix.trans ?_ hpre
      rw [hround, List.map_cons]
      exact ⟨_, List.append_assoc ..⟩
    have heq := (List.prefix_of_prefix_length_le h hw (by simp)).eq_of_length (by simp)
    exact List.singleton_injective (List.append_cancel_left heq)

end

/-! ## `check_executed_rr` in the rounds -/

/-- What the log of a run has come to in round `r`, when `ys` have had their turns and `xs` have not. -/
structure Rolling (cfg : Config) (ws : List Nat) (log : List Line) (r : Nat) (xs ys : List Nat) : Prop where
  order : ws = ys ++ xs
  turns : logTurns log = wholeRounds cfg r ws ++ ys.map fun w => (w, turnIn cfg r)
  round : r ≤ cfg.iterations
  isOpen : xs ≠ [] ∨ r = cfg.iterations
  ahead : ∀ w ∈ xs, progress w log = r + 1 ∨ r = 0 ∧ progress w log = 0
  behind : ∀ w ∈ ys, progress w log = r + 2

/-- The value in a worker's bucket. -/
def rrValue (cfg : Config) (log : List Line) (r : Nat) (ys : List Nat) (w : Nat) : Nat :=
  if w ∈ ys then if r < cfg.iterations then r + 2 else 0
  else if progress w log = 0 then 0 else r + 1

structure RrKeeps (cfg : Config) (ids : Ids) (log : List Line) (s : RrCheck) (r : Nat) (xs ys : List Nat) : Prop where
  buckets : s.buckets.Holds cfg ids (arrived log) (rrValue cfg log r ys)
  stepnum : r < cfg.iterations → s.stepnum = if r = 0 ∨ ys ≠ [] then r + 1 else r
  rrq : s.rrq = (if r = 0 then ys else if r < cfg.iterations then xs ++ ys else xs).map fun w => (ids.worker w : Int)

section
variable {cfg : Config} {ids : Ids} {ws : List Nat} {log : List Line} {s : RrCheck} {r : Nat} {xs ys : List Nat} {l : Line}

theorem rrLine_text (ids : Ids) (hl : l.InRange) (s : RrCheck) : rrLine s (l.text ids) =
    match l with
    | .inQueue w =>
      match lookupBucket s.buckets (toInt (ids.worker w)) with
      | none => none
      | some (b, i) => some { s with buckets := b.set i s.stepnum }
    | .loop w iter =>
      match lookupBucket s.buckets (toInt (ids.worker w)) with
      | none => none
      | some (b, i) =>
        if s.stepnum < b.value i ∧ bucketExists b s.stepnum = true then none
        else
          let stepnum := if s.stepnum < b.value i then s.stepnum + 1 else s.stepnum
          let b := b.set i (stepnum + 1)
          if (iter : Int) = 0 then some ⟨b, stepnum, s.rrq ++ [(ids.worker w : Int)]⟩
          else
            match s.rrq with
            | [] => none
            | elt :: rrq => if elt ≠ ids.worker w then none else some ⟨b, stepnum, rrq ++ [elt]⟩
    | .exiting w =>
      match lookupBucket s.buckets (toInt (ids.worker w)) with
      | none => none
      | some (b, i) =>
        match s.rrq with
        | [] => none
        | elt :: rrq => if elt ≠ ids.worker w then none else some { s with buckets := b.set i 0, rrq := rrq }
    | _ => some s := by
  rw [rrLine, sscanf_inQueue hl, sscanf_loop hl, sscanf_exiting hl]
  cases l <;> rfl

/-- A line that is about no worker changes nothing. -/
theorem RrKeeps.other (h : RrKeeps cfg ids log s r xs ys) (hroll : Rolling cfg ws log r xs ys)
    (hl : ∀ w, l.speaker ≠ .worker w) :
    RrKeeps cfg ids (log ++ [l]) s r xs ys ∧ Rolling cfg ws (log ++ [l]) r xs ys := by
  have hp : ∀ w, progress w (log ++ [l]) = progress w log := fun w => progress_other (hl w)
  have hx : l.turn? = none := by
    cases hx : l.turn? with
    | none => rfl
    | some x =>
      obtain ⟨w, hw⟩ := turn?_speaker hx
      exact absurd hw (hl w)
  have ha : arrived (log ++ [l]) = arrived log := by
    rw [arrived_snoc]
    cases l with
    | inQueue w => exact absurd rfl (hl w)
    | running | detaching | waiting | loop | exiting | done => exact List.append_nil _
  refine ⟨⟨h.buckets.congr ha.symm fun w => by simp only [rrValue, hp], h.stepnum, h.rrq⟩,
    ⟨hroll.order, ?_, hroll.round, hroll.isOpen, fun w hw => by rw [hp]; exact hroll.ahead w hw,
      fun w hw => by rw [hp]; exact hroll.behind w hw⟩⟩
  rw [logTurns_snoc, hx, hroll.turns]
  exact List.append_nil _

theorem Rolling.mem (h : Rolling cfg ws log r xs ys) {w : Nat} (hw : w ∈ ws) : w ∈ ys ∨ w ∈ xs := by
  rw [h.order] at hw
  exact List.mem_append.mp hw

theorem Rolling.inQueue (h : Rolling cfg ws log r xs ys) (hperm : ws.Perm (List.range cfg.threadCount)) {w : Nat}
    (hf : Follows cfg (log ++ [.inQueue w])) : r = 0 ∧ w ∉ ys := by
  obtain ⟨hw, hp⟩ := hf.inQueue
  have hys : w ∉ ys := fun hmem => by
    have := h.behind w hmem
    omega
  refine ⟨?_, hys⟩
  have hmem := hperm.mem_iff.mpr (List.mem_range.mpr hw)
  rcases h.ahead w ((h.mem hmem).resolve_left hys) with hp' | ⟨hr, -⟩
  · omega
  · exact hr

/-- A worker that has come gets the number of the first step. -/
theorem RrKeeps.inQueue (h : RrKeeps cfg ids log s r xs ys) (hroll : Rolling cfg ws log r xs ys)
    (hid : ids.Distinct cfg) (hK : 1 ≤ cfg.iterations) (hperm : ws.Perm (List.range cfg.threadCount)) {w : Nat}
    (hf : Follows cfg (log ++ [.inQueue w])) :
    ∃ s', rrLine s ((Line.inQueue w).text ids) = some s' ∧ RrKeeps cfg ids (log ++ [.inQueue w]) s' r xs ys ∧
      Rolling cfg ws (log ++ [.inQueue w]) r xs ys := by
  obtain ⟨hw, hp⟩ := hf.inQueue
  obtain ⟨hr, hys⟩ := hroll.inQueue hperm hf
  obtain ⟨b', i, hlookup, -, -, hset⟩ := h.buckets.lookup hid hw
  have hstep : s.stepnum = 1 := by rw [h.stepnum (by omega), if_pos (Or.inl hr), hr]
  have hnot : w ∉ arrived log := by
    rw [hf.init.arrived.2, hp]
    omega
  have hprog : ∀ u, u ≠ w → progress u (log ++ [.inQueue w]) = progress u log := fun u hu =>
    progress_other (by simpa [Line.speaker] using Ne.symm hu)
  have hself : progress w (log ++ [.inQueue w]) = 1 := by rw [progress_self rfl, hp]
  rw [rrLine_text ids (l := .inQueue w) trivial]
  simp only [hlookup]
  refine ⟨_, rfl, ⟨?_, h.stepnum, h.rrq⟩, ⟨hroll.order, ?_, hroll.round, hroll.isOpen, fun u hu => ?_, fun u hu => ?_⟩⟩
  · rw [hstep]
    refine (hset 1).congr (by rw [arrived_snoc, seat, if_neg hnot]) fun u => ?_
    by_cases hu : u = w
    · subst hu
      rw [Function.update_self, rrValue, if_neg hys, hself, hr]
      rfl
    · rw [Function.update_of_ne hu, rrValue, rrValue, hprog u hu]
  · rw [logTurns_snoc, hroll.turns]
    exact List.append_nil _
  · by_cases hu' : u = w
    · subst hu'
      exact Or.inl (by rw [hself, hr])
    · rw [hprog u hu']
      exact hroll.ahead u hu
  · rw [hprog u fun heq => hys (heq ▸ hu)]
    exact hroll.behind u hu

/-- The place in the rounds after the turn of `w`. -/
theorem Rolling.turn {w : Nat} {xs' : List Nat} {x : Nat × Turn} (h : Rolling cfg ws log r (w :: xs') ys)
    (hnodup : ws.Nodup) (hl : l.turn? = some x) (hx : x = (w, turnIn cfg r)) (hspeak : l.speaker = .worker w)
    (hp : progress w log = r + 1) :
    (logTurns (log ++ [l]) = wholeRounds cfg r ws ++ (ys ++ [w]).map fun w => (w, turnIn cfg r)) ∧
      (∀ u ∈ ys ++ [w], progress u (log ++ [l]) = r + 2) ∧
      ∀ u ∈ xs', progress u (log ++ [l]) = progress u log := by
  have horder := h.order
  rw [horder] at hnodup
  obtain ⟨-, hndx, hdis⟩ := List.nodup_append'.mp hnodup
  have hprog : ∀ u, u ≠ w → progress u (log ++ [l]) = progress u log := fun u hu =>
    progress_other (by simpa [hspeak] using Ne.symm hu)
  refine ⟨?_, fun u hu => ?_, fun u hu => ?_⟩
  · rw [logTurns_snoc, h.turns, hl, hx]
    simp
  · rcases List.mem_append.mp hu with hu | hu
    · rw [hprog u fun heq => hdis (heq ▸ hu) (by simp)]
      exact h.behind u hu
    · rw [List.mem_singleton.mp hu, progress_self hspeak, hp]
  · exact hprog u fun heq => (List.nodup_cons.mp hndx).1 (heq ▸ hu)

theorem arrived_turn {x : Nat × Turn} (hl : l.turn? = some x) (log : List Line) : arrived (log ++ [l]) = arrived log := by
  rw [arrived_snoc]
  cases l with
  | inQueue w => cases hl
  | running | detaching | waiting | loop | exiting | done => exact List.append_nil _

/-- A loop: the step number goes up with the first one of a round, and the worker goes to the end of `rrq`. -/
theorem RrKeeps.loop (h : RrKeeps cfg ids log s r xs ys) (hroll : Rolling cfg ws log r xs ys) (hid : ids.Distinct cfg)
    (hk : cfg.iterations ≤ intMax) (hperm : ws.Perm (List.range cfg.threadCount)) {w i : Nat}
    (hf : Follows cfg (log ++ [.loop w i])) {xs' : List Nat} (hxs : xs = w :: xs') (hr : r < cfg.iterations) :
    ∃ s', rrLine s ((Line.loop w i).text ids) = some s' ∧ ∃ r' xs' ys', RrKeeps cfg ids (log ++ [.loop w i]) s' r' xs' ys' ∧
      Rolling cfg ws (log ++ [.loop w i]) r' xs' ys' := by
  subst hxs
  obtain ⟨hw, hi, hp⟩ := hf.loop
  have hir : i = r := by
    rcases hroll.ahead w (by simp) with hp' | ⟨-, hp'⟩
    · omega
    · omega
  subst hir
  have hnodup : ws.Nodup := hperm.nodup_iff.mpr List.nodup_range
  have hturn : turnIn cfg i = .loop := if_pos hr
  obtain ⟨hturns, hbehind, hahead⟩ := hroll.turn hnodup (l := .loop w i) rfl (by rw [hturn]) rfl hp
  have horder := hroll.order
  have hnd := hnodup
  rw [horder] at hnd
  have hys : w ∉ ys := fun hmem => (List.nodup_append'.mp hnd).2.2 hmem (by simp)
  obtain ⟨b', j, hlookup, hvalue, hsame, hset⟩ := h.buckets.lookup hid hw
  have hmem : w ∈ arrived log := by
    rw [hf.init.arrived.2, hp]
    omega
  have hval : b'.value j = i + 1 := by
    rw [hvalue, rrValue, if_neg hys, if_neg (by omega)]
  have hstep := h.stepnum hr
  -- when the step number goes up, nobody's bucket still has it
  have hcheck : ¬ (s.stepnum < b'.value j ∧ bucketExists b' s.stepnum = true) := by
    rintro ⟨hlt, hex⟩
    rw [hval, hstep] at hlt
    split at hlt
    · omega
    · rename_i hfirst
      rw [if_neg hfirst] at hstep
      have hfirst : i ≠ 0 ∧ ys = [] := by
        simpa [not_or] using hfirst
      rw [bucketExists, List.any_eq_true] at hex
      obtain ⟨x, hx, hxv⟩ := hex
      rw [hsame.cells] at hx
      obtain ⟨u, hu, rfl⟩ := List.mem_map.mp hx
      have huw : u ∈ ws := hperm.mem_iff.mpr (List.mem_range.mpr (hsame.known u hu))
      have hup : progress u log = i + 1 := by
        rcases hroll.ahead u ((hroll.mem huw).resolve_left (by simp [hfirst.2])) with hp' | ⟨h0, -⟩
        · exact hp'
        · exact absurd h0 hfirst.1
      simp only [cell, rrValue, hfirst.2, List.not_mem_nil, if_false, hup, beq_iff_eq, hstep] at hxv
      rw [if_neg (by omega)] at hxv
      omega
  have hnew : (if s.stepnum < b'.value j then s.stepnum + 1 else s.stepnum) = i + 1 := by
    rw [hval, hstep]
    by_cases hfirst : i = 0 ∨ ys ≠ []
    · rw [if_pos hfirst, if_neg (by omega)]
    · rw [if_neg hfirst, if_pos (by omega)]
  have hrrq : s.rrq = (if i = 0 then ys else w :: xs' ++ ys).map fun w => (ids.worker w : Int) := by
    rw [h.rrq]
    by_cases h0 : i = 0
    · rw [if_pos h0, if_pos h0]
    · rw [if_neg h0, if_neg h0, if_pos hr]
  have hline : rrLine s ((Line.loop w i).text ids) = some ⟨b'.set j (i + 2), i + 1,
      (if i = 0 then ys ++ [w] else xs' ++ ys ++ [w]).map fun w => (ids.worker w : Int)⟩ := by
    rw [rrLine_text ids (l := .loop w i) (Nat.le_trans (Nat.le_of_lt hi) hk)]
    simp only [hlookup]
    rw [if_neg hcheck]
    simp only [hnew, hrrq]
    by_cases h0 : i = 0
    · subst h0
      simp
    · simp [h0]
  have hws : xs' = [] → ys ++ [w] = ws := fun hnil => by rw [horder, hnil]
  have hbuckets : (b'.set j (i + 2)).Holds cfg ids (arrived (log ++ [.loop w i]))
      (Function.update (rrValue cfg log i ys) w (i + 2)) :=
    (hset (i + 2)).congr (by rw [arrived_turn rfl, seat_arrived hmem]) fun _ => rfl
  have hpall : ∀ u, u ≠ w → progress u (log ++ [.loop w i]) = progress u log := fun u hu =>
    progress_other (by simpa [Line.speaker] using Ne.symm hu)
  refine ⟨_, hline, ?_⟩
  by_cases hnil : xs' = []
  · -- the round is over
    refine ⟨i + 1, ws, [], ⟨?_, ?_, ?_⟩, ⟨rfl, ?_, hr, ?_, fun u hu => ?_, List.forall_mem_nil _⟩⟩
    · refine hbuckets.congr rfl fun u => ?_
      rw [rrValue, if_neg List.not_mem_nil]
      by_cases hu : u = w
      · subst hu
        rw [Function.update_self, if_neg (by rw [progress_self rfl]; omega)]
      · rw [Function.update_of_ne hu, hpall u hu, rrValue]
        by_cases huy : u ∈ ys
        · rw [if_pos huy, if_pos hr, if_neg (by rw [hroll.behind u huy]; omega)]
        · have hout : u ∉ arrived log := by
            intro harr
            have huw := hperm.mem_iff.mpr (List.mem_range.mpr (h.buckets.known u harr))
            rw [← hws hnil] at huw
            simp [huy, hu] at huw
          have hp0 : progress u log = 0 := by
            have := (hf.init.arrived.2 u).not.mp hout
            omega
          rw [if_neg huy, if_pos hp0, if_pos hp0]
    · intro _
      simp
    · rw [if_neg (Nat.succ_ne_zero i), hnil]
      have heq : (if i = 0 then ys ++ [w] else [] ++ ys ++ [w]) = ws := by
        rw [List.nil_append, ite_self, hws hnil]
      rw [heq, List.append_nil, ite_self]
    · rw [hturns, hws hnil, wholeRounds_succ]
      simp
    · left
      rw [horder]
      simp
    · left
      rw [← hws hnil] at hu
      rw [hbehind u hu]
  · refine ⟨i, xs', ys ++ [w], ⟨?_, ?_, ?_⟩, ⟨by rw [horder]; simp, hturns, hroll.round, Or.inl hnil, fun u hu => ?_, hbehind⟩⟩
    · refine hbuckets.congr rfl fun u => ?_
      rw [rrValue]
      by_cases hu : u = w
      · subst hu
        rw [Function.update_self, if_pos (by simp), if_pos hr]
      · rw [Function.update_of_ne hu, hpall u hu, rrValue]
        simp [hu]
    · intro _
      simp
    · rw [if_pos hr]
      by_cases h0 : i = 0
      · rw [if_pos h0, if_pos h0]
      · rw [if_neg h0, if_neg h0, List.append_assoc]
    · rw [hahead u hu]
      exact hroll.ahead u (List.mem_cons_of_mem _ hu)

/-- An exit: the worker leaves `rrq` at its head. -/
theorem RrKeeps.exiting (h : RrKeeps cfg ids log s cfg.iterations xs ys) (hroll : Rolling cfg ws log cfg.iterations xs ys)
    (hid : ids.Distinct cfg) (hK : 1 ≤ cfg.iterations) (hperm : ws.Perm (List.range cfg.threadCount)) {w : Nat}
    (hf : Follows cfg (log ++ [.exiting w])) {xs' : List Nat} (hxs : xs = w :: xs') :
    ∃ s', rrLine s ((Line.exiting w).text ids) = some s' ∧
      RrKeeps cfg ids (log ++ [.exiting w]) s' cfg.iterations xs' (ys ++ [w]) ∧
      Rolling cfg ws (log ++ [.exiting w]) cfg.iterations xs' (ys ++ [w]) := by
  subst hxs
  obtain ⟨hw, hp⟩ := hf.exiting
  have hnodup : ws.Nodup := hperm.nodup_iff.mpr List.nodup_range
  have hturn : turnIn cfg cfg.iterations = .exit := if_neg (Nat.lt_irrefl _)
  obtain ⟨hturns, hbehind, hahead⟩ := hroll.turn hnodup (l := .exiting w) rfl (by rw [hturn]) rfl hp
  obtain ⟨b', j, hlookup, -, -, hset⟩ := h.buckets.lookup hid hw
  have hmem : w ∈ arrived log := by
    rw [hf.init.arrived.2, hp]
    omega
  have hrrq : s.rrq = (ids.worker w : Int) :: xs'.map fun w => (ids.worker w : Int) := by
    rw [h.rrq, if_neg (by omega), if_neg (Nat.lt_irrefl _)]
    rfl
  rw [rrLine_text ids (l := .exiting w) trivial]
  simp only [hlookup, hrrq, ne_eq, not_true_eq_false, if_false]
  refine ⟨_, rfl, ⟨?_, fun hlt => absurd hlt (Nat.lt_irrefl _), ?_⟩,
    ⟨by rw [hroll.order]; simp, hturns, Nat.le_refl _, Or.inr rfl, fun u hu => ?_, hbehind⟩⟩
  · refine (hset 0).congr (by rw [arrived_turn rfl, seat_arrived hmem]) fun u => ?_
    rw [rrValue]
    by_cases hu : u = w
    · subst hu
      rw [Function.update_self, if_pos (by simp), if_neg (Nat.lt_irrefl _)]
    · rw [Function.update_of_ne hu, progress_other (by simpa [Line.speaker] using Ne.symm hu), rrValue]
      simp [hu]
  · rw [if_neg (by omega), if_neg (Nat.lt_irrefl _)]
  · rw [hahead u hu]
    exact hroll.ahead u (List.mem_cons_of_mem _ hu)

/-- Before the first exit all workers are between their first and their last line. -/
theorem Rolling.crowded (h : Rolling cfg ws log cfg.iterations xs ys) (hf : Follows cfg log) (hK : 1 ≤ cfg.iterations)
    (hperm : ws.Perm (List.range cfg.threadCount)) (hd : departed log = []) : (arrived log).length = cfg.threadCount := by
  have hmem : (arrived log).Perm (List.range cfg.threadCount) := by
    rw [List.perm_ext_iff_of_nodup hf.arrived.1 List.nodup_range]
    intro w
    rw [hf.arrived.2, List.mem_range]
    constructor
    · intro hp
      by_contra hw
      rw [progress, hf.known w (Nat.not_lt.mp hw)] at hp
      cases hp
    · intro hw
      have hout : w ∉ departed log := by
        rw [hd]
        exact List.not_mem_nil
      rw [hf.departed.2] at hout
      rcases h.mem (hperm.mem_iff.mpr (List.mem_range.mpr hw)) with hy | hx
      · exact absurd (h.behind w hy) hout
      · rcases h.ahead w hx with hp | ⟨h0, -⟩
        · omega
        · omega
  rw [hmem.length_eq, List.length_range]

theorem rr_log (hid : ids.Distinct cfg) (hk : cfg.iterations ≤ intMax) (hK : 1 ≤ cfg.iterations) (hN : 1 ≤ cfg.threadCount)
    (hperm : ws.Perm (List.range cfg.threadCount)) (h : Follows cfg log)
    (hts : logTurns log <+: wholeRounds cfg (cfg.iterations + 1) ws) :
    ∃ s, reads rrLine ids log ⟨⟨[], cfg.threadCount⟩, 1, []⟩ = some s ∧
      ∃ r xs ys, RrKeeps cfg ids log s r xs ys ∧ Rolling cfg ws log r xs ys ∧
        (departed log ≠ [] → ∃ pre, pre <+: log ∧ departed pre = [] ∧ (arrived pre).length = cfg.threadCount) := by
  refine reads_inv (I := fun log s => ∃ r xs ys, RrKeeps cfg ids log s r xs ys ∧ Rolling cfg ws log r xs ys ∧
      (departed log ≠ [] → ∃ pre, pre <+: log ∧ departed pre = [] ∧ (arrived pre).length = cfg.threadCount))
    (P := fun log => Follows cfg log ∧ logTurns log <+: wholeRounds cfg (cfg.iterations + 1) ws) ?_ ?_ ?_ ⟨h, hts⟩
  · rintro log l ⟨hf, hts⟩
    rw [logTurns_snoc] at hts
    exact ⟨hf.init, (List.prefix_append _ _).trans hts⟩
  · rintro log l s ⟨hf, hts⟩ ⟨r, xs, ys, hkeeps, hroll, hcrowd⟩
    have hsame : departed (log ++ [l]) = departed log →
        (departed (log ++ [l]) ≠ [] → ∃ pre, pre <+: log ++ [l] ∧ departed pre = [] ∧ (arrived pre).length = cfg.threadCount) := by
      intro heq hne
      obtain ⟨pre, hpre, hrest⟩ := hcrowd (heq ▸ hne)
      exact ⟨pre, hpre.trans (List.prefix_append _ _), hrest⟩
    have hnext : ∀ x, l.turn? = some x → ∃ w xs', xs = w :: xs' ∧ x = (w, turnIn cfg r) := by
      intro x hx
      rw [logTurns_snoc, hx] at hts
      exact next_turn hroll.order hroll.turns hroll.round hroll.isOpen hts
    have hother : rrLine s (l.text ids) = some s → (∀ w, l.speaker ≠ .worker w) → departed (log ++ [l]) = departed log →
        ∃ s', rrLine s (l.text ids) = some s' ∧ ∃ r xs ys, RrKeeps cfg ids (log ++ [l]) s' r xs ys ∧
          Rolling cfg ws (log ++ [l]) r xs ys ∧ (departed (log ++ [l]) ≠ [] →
            ∃ pre, pre <+: log ++ [l] ∧ departed pre = [] ∧ (arrived pre).length = cfg.threadCount) := by
      intro hs hl heq
      obtain ⟨hk', hr'⟩ := hkeeps.other hroll hl
      exact ⟨s, hs, r, xs, ys, hk', hr', hsame heq⟩
    have hl := hf.inRange hk (List.mem_append_right log (List.mem_singleton_self l))
    cases l with
    | inQueue w =>
      obtain ⟨s', hs', hk', hr'⟩ := hkeeps.inQueue hroll hid hK hperm hf
      exact ⟨s', hs', r, xs, ys, hk', hr', hsame (by rw [departed_snoc, List.append_nil])⟩
    | loop w i =>
      obtain ⟨w', xs', hxs, heq⟩ := hnext _ rfl
      obtain ⟨rfl, hturn⟩ := Prod.mk.inj heq
      have hr : r < cfg.iterations := by
        by_contra hge
        rw [turnIn, if_neg hge] at hturn
        cases hturn
      obtain ⟨s', hs', r', xs'', ys', hk', hr'⟩ := hkeeps.loop hroll hid hk hperm hf hxs hr
      exact ⟨s', hs', r', xs'', ys', hk', hr', hsame (by rw [departed_snoc, List.append_nil])⟩
    | exiting w =>
      obtain ⟨w', xs', hxs, heq⟩ := hnext _ rfl
      obtain ⟨rfl, hturn⟩ := Prod.mk.inj heq
      have hr : r = cfg.iterations := by
        refine Nat.le_antisymm hroll.round (Nat.not_lt.mp fun hlt => ?_)
        rw [turnIn, if_pos hlt] at hturn
        cases hturn
      subst hr
      obtain ⟨s', hs', hk', hr'⟩ := hkeeps.exiting hroll hid hK hperm hf hxs
      refine ⟨s', hs', _, _, _, hk', hr', fun _ => ?_⟩
      by_cases hd : departed log = []
      · exact ⟨log, List.prefix_append _ _, hd, hroll.crowded hf.init hK hperm hd⟩
      · obtain ⟨pre, hpre, hrest⟩ := hcrowd hd
        exact ⟨pre, hpre.trans (List.prefix_append _ _), hrest⟩
    | running a b c | detaching w | waiting | done =>
      exact hother (rrLine_text ids hl s) (by simp [Line.speaker]) (by rw [departed_snoc, List.append_nil])
  · refine ⟨0, ws, [], ⟨⟨rfl, rfl, List.nodup_nil, List.forall_mem_nil _, fun w _ => rfl⟩, fun _ => rfl, rfl⟩,
      ⟨rfl, rfl, Nat.zero_le _, Or.inl ?_, fun w _ => Or.inr ⟨rfl, rfl⟩, List.forall_mem_nil _⟩, fun hne => absurd rfl hne⟩
    rintro rfl
    have hlen := hperm.length_eq
    rw [List.length_nil, List.length_range] at hlen
    omega

/-- Without iterations `rrq` is empty when the first worker exits. -/
theorem rr_rejects (hid : ids.Distinct cfg) (hK : cfg.iterations = 0) (h : Follows cfg log) :
    (departed log = [] → ∃ s, reads rrLine ids log ⟨⟨[], cfg.threadCount⟩, 1, []⟩ = some s ∧ s.rrq = [] ∧ s.stepnum = 1 ∧
      s.buckets.Holds cfg ids (arrived log) fun w => if w ∈ arrived log then 1 else 0) ∧
    (departed log ≠ [] → reads rrLine ids log ⟨⟨[], cfg.threadCount⟩, 1, []⟩ = none) := by
  induction log using List.reverseRecOn with
  | nil => exact ⟨fun _ => ⟨_, rfl, rfl, rfl, rfl, rfl, List.nodup_nil, List.forall_mem_nil _, fun _ _ => rfl⟩, fun hne => absurd rfl hne⟩
  | append_singleton log l ih =>
    obtain ⟨hgo, hstop⟩ := ih h.init
    have hl := h.inRange (by rw [hK]; exact Nat.zero_le _) (List.mem_append_right log (List.mem_singleton_self l))
    rw [reads_snoc]
    by_cases hd : departed log = []
    · obtain ⟨s, hs, hrrq, hstep, hb⟩ := hgo hd
      rw [hs, Option.bind_some, rrLine_text ids hl]
      cases l with
      | inQueue w =>
        obtain ⟨hw, hp⟩ := h.inQueue
        obtain ⟨b', i, hlookup, -, -, hset⟩ := hb.lookup hid hw
        have hnot : w ∉ arrived log := by
          rw [h.init.arrived.2, hp]
          omega
        refine ⟨fun _ => ?_, fun hne => absurd (by rw [departed_snoc, hd]; rfl) hne⟩
        simp only [hlookup]
        refine ⟨_, rfl, hrrq, hstep, (hset s.stepnum).congr (by rw [arrived_snoc, seat, if_neg hnot]) fun u => ?_⟩
        rw [hstep, arrived_snoc]
        by_cases hu : u = w
        · subst hu
          rw [Function.update_self, if_pos (by simp)]
        · rw [Function.update_of_ne hu]
          simp [hu]
      | loop w i =>
        have := h.loop.2.1
        omega
      | exiting w =>
        obtain ⟨b', i, hlookup, -, -, -⟩ := hb.lookup hid h.exiting.1
        refine ⟨fun hnil => ?_, fun _ => ?_⟩
        · rw [departed_snoc, hd] at hnil
          cases hnil
        · simp only [hlookup, hrrq]
      | running | detaching | waiting | done =>
        refine ⟨fun _ => ⟨s, rfl, hrrq, hstep, ?_⟩, fun hne => absurd (by rw [departed_snoc, hd]; rfl) hne⟩
        rw [arrived_snoc, List.append_nil]
        exact hb
    · rw [hstop hd]
      refine ⟨fun hnil => ?_, fun _ => rfl⟩
      rw [departed_snoc] at hnil
      exact absurd (List.append_eq_nil_iff.mp hnil).1 hd

end

/-! ## The test -/

theorem rr_rounds_run {cfg : Config} (hp : cfg.policy = .rr) (hq : cfg.queueSize = 1) (hN : 1 ≤ cfg.threadCount)
    {es : List Thread} {s : State} {tr : List (Thread × Option Event)}
    (hr : run (step cfg) (initSchedQueue cfg) es = some (s, tr)) (hx : s.main = .exit) :
    (inserted (events tr)).Perm (List.range cfg.threadCount) ∧
      turns (events tr) = wholeRounds cfg (cfg.iterations + 1) (inserted (events tr)) := by
  obtain ⟨hs, hh⟩ := states_of_run hr (f := fun n => (es[n]?).getD .main) fun n e he => by rw [he]; rfl
  have hover := rounds_over hp hq (fun n => (es[n]?).getD .main) hN (n := es.length) (by rw [after, hs]; exact hx)
  rw [eventsBy, hh] at hover
  exact hover.2.2

/-- The round robin test on what a complete run with queue size 1 has printed,
when the ids of all workers of the run differ as `int`s (none is used again) and
the command line is in the range of `int`, its iterations below `INT_MAX`:
`check_executed_rr` accepts if and only if there is an iteration, but the test as
a whole also wants no more workers than one, for all of them are in the queue
before the first one exits. -/
theorem check_rr_log (cfg : Config) (hp : cfg.policy = .rr) (hq : cfg.queueSize = 1) (ids : Ids) (hid : ids.Distinct cfg)
    (hc : cfg.InRange) (es : List Thread) (m : Talk State Thread Line) (tr : List (Thread × (Option Event ⊕ Line)))
    (hr : run (logStep cfg) (logStart cfg) es = some (m, tr)) (hm : Complete cfg m) :
    ((said tr).getLast? = some .done →
      checkExecutedRr (logText ids (logOf cfg tr)) cfg.threadCount = some (decide (1 ≤ cfg.iterations))) ∧
    ∃ b, checkRr (logText ids (logOf cfg tr)) cfg.queueSize cfg.threadCount cfg.iterations = some b ∧
      (b = true ↔ (said tr).getLast? = some .done ∧ cfg.threadCount = 1 ∧ 1 ≤ cfg.iterations) := by
  have hw := whole_log hr hm
  obtain ⟨es', hes⟩ := acted_run hr
  have hN : 1 ≤ cfg.threadCount := by
    by_contra h0
    exact never_done (by omega) hq hes ((started_run hes).2.joined (Or.inr hm.main))
  obtain ⟨hperm, hturns⟩ := rr_rounds_run hp hq hN hes hm.main
  have hts : logTurns (said tr) = wholeRounds cfg (cfg.iterations + 1) (inserted (events (acted tr))) :=
    (logTurns_run hq hr hm).trans hturns
  have hgone : departed (said tr) ≠ [] := by
    intro hnil
    have hlen := hw.perm.2.length_eq
    rw [hnil, List.length_nil, List.length_range] at hlen
    omega
  have hexec : (said tr).getLast? = some .done →
      checkExecutedRr (logText ids (logOf cfg tr)) cfg.threadCount = some (decide (1 ≤ cfg.iterations)) := by
    intro hlast
    have hrange := hw.inRange hc
    have hrunning := rrLine_text ids (hrange _ List.mem_cons_self) ⟨⟨[], cfg.threadCount⟩, 1, []⟩
    have hdone := fun s => rrLine_text ids (show Line.done.InRange from trivial) s
    rw [checkExecutedRr, logOf, eachRound_whole hrunning hdone hrange hlast]
    by_cases hK : 1 ≤ cfg.iterations
    · obtain ⟨s, hs, -⟩ := rr_log hid hc.iterations.le hK hN hperm hw.follows (hts ▸ List.prefix_rfl)
      rw [hs, decide_eq_true hK]
      rfl
    · rw [(rr_rejects hid (by omega) hw.follows).2 hgone, decide_eq_false hK]
      rfl
  refine ⟨hexec, ?_⟩
  obtain ⟨b, hb, hiff⟩ := checkRudimentary_log hid hc hw
  rw [checkRr, logOf, hb]
  cases b with
  | false =>
    refine ⟨false, rfl, ?_⟩
    simp only [Bool.false_eq_true, false_iff, not_and] at hiff ⊢
    intro hlast hone _
    refine absurd (fun pre hpre => ?_) (hiff hlast)
    have hlen := hw.perm.1.length_eq
    have hle : (arrived pre).length ≤ (arrived (said tr)).length := (hpre.filterMap _).length_le
    rw [List.length_range] at hlen
    rw [hq]
    omega
  | true =>
    obtain ⟨hlast, hfits⟩ := hiff.mp rfl
    refine ⟨_, hexec hlast, ?_⟩
    rw [decide_eq_true_iff]
    refine ⟨fun hK => ⟨hlast, ?_, hK⟩, fun h => h.2.2⟩
    obtain ⟨s, -, r, xs, ys, -, -, hcrowd⟩ := rr_log hid hc.iterations.le hK hN hperm hw.follows (hts ▸ List.prefix_rfl)
    obtain ⟨pre, hpre, hd, ha⟩ := hcrowd hgone
    have hle := hfits pre hpre
    rw [hd, ha, hq, List.length_nil] at hle
    omega

/-- Both workers come before one is put back. -/
def roundsSchedule : List Thread :=
  bursts [(.main, 10), (.worker 0, 2), (.worker 1, 2), (.sched, 6), (.worker 0, 6), (.sched, 6), (.worker 1, 6),
    (.sched, 6), (.worker 0, 9), (.sched, 6), (.worker 1, 9), (.sched, 3), (.main, 2)]

def roundsLog : List Line :=
  [.detaching 0, .detaching 1, .waiting, .inQueue 0, .inQueue 1, .loop 0 0, .loop 1 0, .exiting 0, .exiting 1, .done]

/-- Two rounds of two workers. -/
theorem check_rr_log_two :
    ∃ m tr, run (logStep (twoWorkers .rr)) (logStart (twoWorkers .rr)) roundsSchedule = some (m, tr) ∧ said tr = roundsLog ∧
      checkExecutedRr (logText twoIds (logOf (twoWorkers .rr) tr)) 2 = some true ∧
      checkRr (logText twoIds (logOf (twoWorkers .rr) tr)) 1 2 1 = some false := by
  have hend : (run (logStep (twoWorkers .rr)) (logStart (twoWorkers .rr)) roundsSchedule).map
      (fun r => (said r.2, decide (Complete (twoWorkers .rr) r.1))) = some (roundsLog, true) := by decide +kernel
  obtain ⟨m, tr, hr, hsaid, hm⟩ := complete_run hend
  obtain ⟨hexec, b, hb, hiff⟩ := check_rr_log (twoWorkers .rr) rfl rfl twoIds (twoIds_distinct .rr) (twoWorkers_inRange .rr)
    roundsSchedule m tr hr hm
  have hlast : (said tr).getLast? = some .done := by
    rw [hsaid]
    rfl
  have htwo : (twoWorkers .rr).threadCount ≠ 1 := by decide
  exact ⟨m, tr, hr, hsaid, hexec hlast, hb.trans (congrArg some (Bool.eq_false_iff.mpr fun htrue => htwo (hiff.mp htrue).2.1))⟩

end OsLabs.Sched
