import Mathlib.Algebra.Group.Int.Defs
import Mathlib.Algebra.Group.Nat.Defs

/-!
# Machine integers

A C integer is kept as the `Int` it denotes; a conversion to a type of `w` bits
wraps as two's complement does. A conversion that fits changes nothing.
-/

namespace OsLabs

def toSigned (w : Nat) (x : Int) : Int := x.bmod (2 ^ w)

def toInt (x : Int) : Int := toSigned 32 x

def toShort (x : Int) : Int := toSigned 16 x

def toSize (x : Int) : Nat := (x % 2 ^ 64).toNat

def intMax : Nat := 2147483647

theorem toSigned_of_bounds {w : Nat} {x : Int} (h : -(2 ^ w) ≤ x * 2) (h' : x * 2 < 2 ^ w) :
    toSigned w x = x := by
  unfold toSigned
  exact Int.bmod_eq_of_le_mul_two (by simpa using h) (by simpa using h')

theorem toInt_of_bounds {x : Int} (h : -2147483648 ≤ x) (h' : x ≤ 2147483647) : toInt x = x :=
  toSigned_of_bounds (by omega) (by omega)

theorem toInt_toInt (x : Int) : toInt (toInt x) = toInt x := Int.bmod_bmod

/-- A sum wraps at the end as it does at every step. -/
theorem toInt_add (x y : Int) : toInt (toInt x + y) = toInt (x + y) := Int.bmod_add_bmod

theorem toShort_of_bounds {x : Int} (h : -32768 ≤ x) (h' : x ≤ 32767) : toShort x = x :=
  toSigned_of_bounds (by omega) (by omega)

theorem toSize_of_bounds {x : Int} (h : 0 ≤ x) (h' : x < 18446744073709551616) : (toSize x : Int) = x := by
  unfold toSize
  omega

end OsLabs
