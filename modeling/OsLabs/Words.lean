import Mathlib.Data.List.Basic

/-!
# The words of a list

The words of a list are its longest parts without the delimiter. A list is a gap
of delimiters, then a word, then what follows the next delimiter: a loop that
takes one word after the other is an induction on the list in this shape.
-/

namespace OsLabs

section
variable {α : Type*} [DecidableEq α] {d : α}

def words (d : α) (l : List α) : List (List α) := (l.splitOn d).filter (· ≠ [])

theorem words_delim (l : List α) : words d (d :: l) = words d l := by
  simp [words, List.splitOn_cons_eq_if_modifyHead]

theorem words_gap (k : Nat) (l : List α) : words d (List.replicate k d ++ l) = words d l := by
  induction k with
  | zero => rfl
  | succ k ih => rw [List.replicate_succ, List.cons_append, words_delim, ih]

theorem words_replicate (k : Nat) : words d (List.replicate k d) = [] := by
  have := words_gap (d := d) k []
  rw [List.append_nil] at this
  exact this

theorem words_last {w : List α} (hw : w ≠ []) (hd : d ∉ w) : words d w = [w] := by
  simp [words, List.splitOn_eq_singleton hd, hw]

theorem words_cons {w : List α} (hw : w ≠ []) (hd : d ∉ w) (rest : List α) :
    words d (w ++ d :: rest) = w :: words d rest := by
  simp [words, List.splitOn_append_cons_self_of_not_mem hd, hw]

/-- A list is a gap, a gap and a last word, or a gap, a word and a delimiter
before the rest. -/
theorem words_induction {P : List α → Prop} (gap : ∀ k, P (List.replicate k d))
    (last : ∀ k w, w ≠ [] → d ∉ w → P (List.replicate k d ++ w))
    (cons : ∀ k w rest, w ≠ [] → d ∉ w → P rest → P (List.replicate k d ++ (w ++ d :: rest))) (l : List α) : P l := by
  induction hn : l.length using Nat.strongRecOn generalizing l with
  | ind n ih =>
    have hgap : l = List.replicate (l.takeWhile (· == d)).length d ++ l.dropWhile (· == d) := by
      conv => lhs; rw [← List.takeWhile_append_dropWhile (p := (· == d)) (l := l)]
      congr 1
      exact List.eq_replicate_of_mem fun c hc => by simpa using List.all_eq_true.mp List.all_takeWhile c hc
    generalize (l.takeWhile (· == d)).length = k at hgap
    cases hl : l.dropWhile (· == d) with
    | nil =>
      rw [hgap, hl, List.append_nil]
      exact gap k
    | cons c l' =>
      have hc : c ≠ d := by
        have := List.head_dropWhile_not (· == d) (by simp [hl] : l.dropWhile (· == d) ≠ [])
        simpa [hl] using this
      rw [hl] at hgap
      by_cases hd : d ∈ l'
      · obtain ⟨w, rest, rfl, hw⟩ := List.eq_append_cons_of_mem hd
        rw [hgap]
        refine cons k (c :: w) rest (by simp) (by simp [hw, Ne.symm hc]) (ih rest.length ?_ rest rfl)
        rw [hgap] at hn
        simp only [List.length_append, List.length_cons] at hn
        omega
      · rw [hgap]
        exact last k (c :: l') (by simp) (by simp [hd, Ne.symm hc])

theorem words_eq_nil {l : List α} : words d l = [] ↔ ∀ c ∈ l, c = d := by
  induction l using words_induction (d := d) with
  | gap k => simp [words_replicate]
  | last k w hw hd =>
    rw [words_gap, words_last hw hd]
    obtain ⟨c, hc⟩ := List.exists_mem_of_ne_nil w hw
    exact ⟨fun h => by simp at h, fun h => absurd (h c (List.mem_append_right _ hc) ▸ hc) hd⟩
  | cons k w rest hw hd ih =>
    rw [words_gap, words_cons hw hd]
    obtain ⟨c, hc⟩ := List.exists_mem_of_ne_nil w hw
    refine ⟨fun h => by simp at h, fun h => absurd (h c ?_ ▸ hc) hd⟩
    exact List.mem_append_right _ (List.mem_append_left _ hc)

end

end OsLabs
