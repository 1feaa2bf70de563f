import Mathlib.Data.Int.Init
import Mathlib.Data.BitVec
import Mathlib.Tactic.Ring

/-! # Checked machine arithmetic

The operators of a language whose signed arithmetic is undefined on overflow, and
its division on zero: the exact result if it is a value of the type, else nothing.
-/
namespace OooCpu.Signed

variable {w : ℕ} {x y z : BitVec w} {n : ℤ}

/-- A value of the signed type of `w` bits. -/
def Fits (w : ℕ) (n : ℤ) : Prop := -2^(w - 1) ≤ n ∧ n < 2^(w - 1)

instance : Decidable (Fits w n) := inferInstanceAs (Decidable (_ ∧ _))

def ofExact (w : ℕ) (n : ℤ) : Option (BitVec w) := if Fits w n then some (.ofInt w n) else none

def sub (x y : BitVec w) : Option (BitVec w) := ofExact w (x.toInt - y.toInt)
def mul (x y : BitVec w) : Option (BitVec w) := ofExact w (x.toInt * y.toInt)
def div (x y : BitVec w) : Option (BitVec w) :=
  if y = 0 then none else ofExact w (x.toInt.tdiv y.toInt)

/-- A remainder is defined where the quotient is. -/
def mod (x y : BitVec w) : Option (BitVec w) :=
  (div x y).map fun _ => .ofInt w (x.toInt.tmod y.toInt)

/-- Unsigned division only has zero to fear. -/
def udiv (x y : BitVec w) : Option (BitVec w) := if y = 0 then none else some (x / y)
def umod (x y : BitVec w) : Option (BitVec w) := if y = 0 then none else some (x % y)

/-- A shift is defined below the width. -/
def shl (x : BitVec w) (k : ℕ) : Option (BitVec w) := if k < w then some (x <<< k) else none
def shr (x : BitVec w) (k : ℕ) : Option (BitVec w) := if k < w then some (x >>> k) else none

theorem ofExact_eq_some_iff : ofExact w n = some z ↔ Fits w n ∧ z = .ofInt w n := by
  rw [ofExact]
  split
  · rename_i h
    simp [h, eq_comm]
  · rename_i h
    simp [h]

/-- An operator is defined where wrapping around would not change its result. -/
theorem ofExact_eq_some (hz : z.toInt = n) : ofExact w n = some z := by
  rw [ofExact_eq_some_iff, ← hz]
  exact ⟨⟨z.le_toInt, z.toInt_lt⟩, BitVec.ofInt_toInt.symm⟩

/-- A product is exact if the sizes of its factors fit into the type together. -/
theorem toInt_mul_of_natAbs {p q : ℕ} (hw : 0 < w) (hp : 0 < p) (hx : x.toInt.natAbs ≤ p)
    (hy : y.toInt.natAbs < q)
    (hpq : p * q ≤ 2^(w - 1)) : (x * y).toInt = x.toInt * y.toInt := by
  have hsize : (x.toInt * y.toInt).natAbs < 2^(w - 1) := by
    rw [Int.natAbs_mul]
    calc x.toInt.natAbs * y.toInt.natAbs ≤ p * y.toInt.natAbs := Nat.mul_le_mul_right _ hx
      _ < p * q := Nat.mul_lt_mul_of_pos_left hy hp
      _ ≤ 2^(w - 1) := hpq
  have hcast : ((2^(w - 1) : ℕ) : ℤ) = 2^(w - 1) := by norm_cast
  have hprod : x * y = .ofInt w (x.toInt * y.toInt) := by
    rw [BitVec.ofInt_mul, BitVec.ofInt_toInt, BitVec.ofInt_toInt]
  rw [hprod]
  exact BitVec.toInt_ofInt_eq_self hw (by omega) (by omega)

theorem mul_eq_some (h : (x * y).toInt = x.toInt * y.toInt) : mul x y = some (x * y) :=
  ofExact_eq_some h

theorem div_eq_some (hy : y ≠ 0) (h : x ≠ .intMin w ∨ y ≠ -1#w) : div x y = some (x.sdiv y) := by
  rw [div, if_neg hy]
  exact ofExact_eq_some (BitVec.toInt_sdiv_of_ne_or_ne x y h)

theorem mod_eq_some (hy : y ≠ 0) (h : x ≠ .intMin w ∨ y ≠ -1#w) : mod x y = some (x.srem y) := by
  rw [mod, div_eq_some hy h, Option.map_some, ← BitVec.toInt_srem, BitVec.ofInt_toInt]

theorem udiv_eq_some (hy : y ≠ 0) : udiv x y = some (x / y) := if_neg hy

theorem umod_eq_some (hy : y ≠ 0) : umod x y = some (x % y) := if_neg hy

theorem shl_eq_some {k : ℕ} (hk : k < w) : shl x k = some (x <<< k) := if_pos hk

theorem shr_eq_some {k : ℕ} (hk : k < w) : shr x k = some (x >>> k) := if_pos hk

end OooCpu.Signed
