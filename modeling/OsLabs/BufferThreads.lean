import OsLabs.BufferSound
import OsLabs.Monitor

/-!
# The producers and consumers, one access at a time

`producer_func` and `consumer_func` of `p3.c` with the functions of `buffer.c`
that they call, as code that reads or writes one cell of the array at a step.
What a thread prints between `sem_wait` and `sem_post` is the result of its
section. `rand_r` gives a producer a number that is not negative.
-/

namespace OsLabs.P3

/-! ## The code between `sem_wait` and `sem_post` -/

/-- Without interruption the code stores `data` and gives `a`. -/
def Does {α : Type} (p : Prog Buffer α) (buff : Buffer) (data : List Int) (a : α) : Prop :=
  ∃ h, p.exec buff = some ({ buff with data := data, cells := h }, a)

section
variable {buff : Buffer} {data data' : List Int}

theorem Does.pure {α : Type} (a : α) : Does (Pure.pure a) buff buff.data a := ⟨buff.cells, rfl⟩

theorem Does.bind {α β : Type} {p : Prog Buffer α} {k : α → Prog Buffer β} {a : α} {b : β}
    (h : Does p buff data a) (hk : ∀ h, Does (k a) { buff with data := data, cells := h } data' b) :
    Does (p >>= k) buff data' b := by
  obtain ⟨hc, hp⟩ := h
  obtain ⟨hc', hk⟩ := hk hc
  exact ⟨hc', by rw [Prog.exec_bind, hp]; exact hk⟩

theorem Does.exec {α : Type} {p : Prog Buffer α} {b : Buffer} {a : α} (h : Does p buff b.data a)
    (hs : b.stack = buff.stack) : p.exec buff = some (b, a) := by
  obtain ⟨hc, hp⟩ := h
  obtain ⟨stack, data, cells⟩ := b
  cases hs
  exact hp

end

/-! ## All interleavings -/

section
variable {P C : Nat}

end

end OsLabs.P3
