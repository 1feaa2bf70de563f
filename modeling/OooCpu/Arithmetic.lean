import OooCpu.Instruction
import OooCpu.SignedArithmetic

/-! # What the arithmetic primitives compute

Products, quotients, remainders and shifts as exact integers. Pipeline and
reference share the primitives, so this is where they are held to the
instruction set. `Checked` has them once more, over operators that answer only
where the source language defines them. -/
namespace OooCpu.Alu

variable (a b : Word)

namespace Checked

def sll : Option Word := Signed.shl a (b &&& 0x1F).toNat
def srl : Option Word := Signed.shr a (b &&& 0x1F).toNat

def sra : Option Word :=
  let sh := (b &&& 0x1F).toNat
  if sh = 0 then some a
  else do
    let signFill ← if a &&& 0x80000000 ≠ 0 then Signed.shl (~~~0 : Word) (32 - sh) else some 0
    let shifted ← Signed.shr a sh
    return shifted ||| signFill

def mulh : Option Word := do
  let p ← Signed.mul (a.signExtend 64) (b.signExtend 64)
  return (p >>> 32).setWidth 32

def mulhsu : Option Word := do
  let p ← Signed.mul (a.signExtend 64) (b.setWidth 64)
  return (p >>> 32).setWidth 32

def div : Option Word :=
  if b = 0 then some 0xFFFFFFFF
  else if a = 0x80000000 ∧ b = 0xFFFFFFFF then some a
  else Signed.div a b

def divu : Option Word := if b = 0 then some 0xFFFFFFFF else Signed.udiv a b

def rem : Option Word :=
  if b = 0 then some a
  else if a = 0x80000000 ∧ b = 0xFFFFFFFF then some 0
  else Signed.mod a b

def remu : Option Word := if b = 0 then some a else Signed.umod a b

end Checked

/-- Every operator a primitive applies to `a` and `b` is defined there. -/
structure Defined : Prop where
  sll : Checked.sll a b = some (sll a b)
  srl : Checked.srl a b = some (srl a b)
  sra : Checked.sra a b = some (sra a b)
  mulh : Checked.mulh a b = some (mulh a b)
  mulhsu : Checked.mulhsu a b = some (mulhsu a b)
  div : Checked.div a b = some (div a b)
  divu : Checked.divu a b = some (divu a b)
  rem : Checked.rem a b = some (rem a b)
  remu : Checked.remu a b = some (remu a b)

variable {a b}

theorem shamt_eq (b : Word) : (b &&& 0x1F).toNat = b.toNat % 32 := by
  rw [BitVec.toNat_and]
  exact Nat.and_two_pow_sub_one_eq_mod _ 5

/-- The factors of the products: a sign-extended word and a word extended either way. -/
theorem toInt_signExtend (a : Word) : (a.signExtend 64).toInt = a.toInt :=
  BitVec.toInt_signExtend_of_le (by decide)

theorem toNat_setWidth (b : Word) : (b.setWidth 64).toNat = b.toNat := by
  have hlt := b.isLt
  rw [BitVec.toNat_setWidth]
  exact Nat.mod_eq_of_lt (by omega)

theorem toInt_setWidth (b : Word) : (b.setWidth 64).toInt = b.toNat := by
  have hlt := b.isLt
  rw [BitVec.toInt_eq_toNat_of_lt (by rw [toNat_setWidth]; omega), toNat_setWidth]

/-- A signed word times anything of 32 bits fits into 64 bits. -/
theorem toInt_product {y : BitVec 64} (hy : y.toInt.natAbs < 2^32) :
    (a.signExtend 64 * y).toInt = a.toInt * y.toInt := by
  have hlow := a.le_toInt
  have hhigh := a.toInt_lt
  rw [← toInt_signExtend a]
  refine Signed.toInt_mul_of_natAbs (p := 2^31) (q := 2^32) (by decide) (by decide) ?_ hy
    (by decide)
  rw [toInt_signExtend]
  omega

theorem toInt_signed_product (a b : Word) :
    (a.signExtend 64 * b.signExtend 64).toInt = a.toInt * b.toInt := by
  have hlow := b.le_toInt
  have hhigh := b.toInt_lt
  rw [toInt_product (by rw [toInt_signExtend]; omega), toInt_signExtend]

theorem toInt_mixed_product (a b : Word) :
    (a.signExtend 64 * b.setWidth 64).toInt = a.toInt * b.toNat := by
  have hlt := b.isLt
  rw [toInt_product (by rw [toInt_setWidth]; omega), toInt_setWidth]

theorem defined (a b : Word) : Defined a b where
  sll := Signed.shl_eq_some (by rw [shamt_eq]; omega)
  srl := Signed.shr_eq_some (by rw [shamt_eq]; omega)
  sra := by
    have hlt : (b &&& 0x1F).toNat < 32 := by rw [shamt_eq]; omega
    simp only [Checked.sra, sra]
    split
    · rfl
    rename_i hsh
    rw [Signed.shl_eq_some (by omega), Signed.shr_eq_some hlt]
    split <;> rfl
  mulh := by
    have hexact : (a.signExtend 64 * b.signExtend 64).toInt =
        (a.signExtend 64).toInt * (b.signExtend 64).toInt := by
      rw [toInt_signed_product, toInt_signExtend, toInt_signExtend]
    rw [Checked.mulh, Signed.mul_eq_some hexact]
    rfl
  mulhsu := by
    have hexact : (a.signExtend 64 * b.setWidth 64).toInt =
        (a.signExtend 64).toInt * (b.setWidth 64).toInt := by
      rw [toInt_mixed_product, toInt_signExtend, toInt_setWidth]
    rw [Checked.mulhsu, Signed.mul_eq_some hexact]
    rfl
  div := by
    simp only [Checked.div, div]
    split
    · rfl
    rename_i hb
    split
    · rfl
    rename_i hover
    exact Signed.div_eq_some hb (not_and_or.mp hover)
  divu := by
    simp only [Checked.divu, divu]
    split
    · rfl
    · rename_i hb
      exact Signed.udiv_eq_some hb
  rem := by
    simp only [Checked.rem, rem]
    split
    · rfl
    rename_i hb
    split
    · rfl
    rename_i hover
    exact Signed.mod_eq_some hb (not_and_or.mp hover)
  remu := by
    simp only [Checked.remu, remu]
    split
    · rfl
    · rename_i hb
      exact Signed.umod_eq_some hb

/-- A double word is its upper and its lower half. -/
theorem toNat_halves (p : BitVec 64) :
    p.toNat = ((p >>> 32).setWidth 32 : Word).toNat * 2^32 + (p.setWidth 32 : Word).toNat := by
  have hlt := p.isLt
  simp only [BitVec.toNat_setWidth, BitVec.toNat_ushiftRight, Nat.shiftRight_eq_div_pow]
  omega

/-- The same for signed values: the upper half carries the sign. -/
theorem toInt_halves (p : BitVec 64) :
    p.toInt = ((p >>> 32).setWidth 32 : Word).toInt * 2^32 + (p.setWidth 32 : Word).toNat := by
  have hhalves := toNat_halves p
  have hlow := (p.setWidth 32 : Word).isLt
  have hhigh := ((p >>> 32).setWidth 32 : Word).isLt
  rw [BitVec.toInt_eq_toNat_cond, BitVec.toInt_eq_toNat_cond]
  split <;> split <;> omega

theorem setWidth_signExtend (a : Word) : (a.signExtend 64).setWidth 32 = a := by
  apply BitVec.eq_of_getLsbD_eq
  intro i hi
  rw [BitVec.getLsbD_setWidth, BitVec.getLsbD_signExtend, if_pos hi]
  simp [hi, show i < 64 by omega]

theorem setWidth_setWidth (b : Word) : (b.setWidth 64).setWidth 32 = b := by
  rw [BitVec.setWidth_setWidth_of_le _ (by decide), BitVec.setWidth_eq]

theorem mulh_mul (a b : Word) : a.toInt * b.toInt = (mulh a b).toInt * 2^32 + (mul a b).toNat := by
  have hlow : (a.signExtend 64 * b.signExtend 64).setWidth 32 = mul a b := by
    rw [BitVec.setWidth_mul _ _ (by decide), setWidth_signExtend, setWidth_signExtend, mul]
  rw [← toInt_signed_product, toInt_halves, hlow]
  rfl

theorem mulhsu_mul (a b : Word) :
    a.toInt * b.toNat = (mulhsu a b).toInt * 2^32 + (mul a b).toNat := by
  have hlow : (a.signExtend 64 * b.setWidth 64).setWidth 32 = mul a b := by
    rw [BitVec.setWidth_mul _ _ (by decide), setWidth_signExtend, setWidth_setWidth, mul]
  rw [← toInt_mixed_product, toInt_halves, hlow]
  rfl

theorem mulhu_mul (a b : Word) :
    a.toNat * b.toNat = (mulhu a b).toNat * 2^32 + (mul a b).toNat := by
  have ha := a.isLt
  have hb := b.isLt
  have hlow : (a.setWidth 64 * b.setWidth 64).setWidth 32 = mul a b := by
    rw [BitVec.setWidth_mul _ _ (by decide), setWidth_setWidth, setWidth_setWidth, mul]
  have hlt : a.toNat * b.toNat < 2^64 :=
    calc a.toNat * b.toNat ≤ a.toNat * 2^32 := Nat.mul_le_mul_left _ hb.le
      _ < 2^32 * 2^32 := Nat.mul_lt_mul_of_pos_right ha (by decide)
      _ = 2^64 := by decide
  have hexact : (a.setWidth 64 * b.setWidth 64).toNat = a.toNat * b.toNat := by
    rw [BitVec.toNat_mul, toNat_setWidth, toNat_setWidth, Nat.mod_eq_of_lt hlt]
  rw [← hexact, toNat_halves, hlow]
  rfl

theorem toNat_sll (a b : Word) : (sll a b).toNat = a.toNat * 2^(b.toNat % 32) % 2^32 := by
  rw [sll, BitVec.toNat_shiftLeft, Nat.shiftLeft_eq, shamt_eq]

theorem toNat_srl (a b : Word) : (srl a b).toNat = a.toNat / 2^(b.toNat % 32) := by
  rw [srl, BitVec.toNat_ushiftRight, Nat.shiftRight_eq_div_pow, shamt_eq]

theorem sign_bit (a : Word) : a &&& 0x80000000 ≠ 0 ↔ a.msb = true := by
  rw [show (0x80000000 : Word) = BitVec.twoPow 32 31 by decide, BitVec.and_twoPow,
    BitVec.msb_eq_getLsbD_last]
  cases a.getLsbD 31 <;> simp

/-- Filling in the sign bits by hand is the arithmetic shift. -/
theorem sra_eq_sshiftRight (a b : Word) : sra a b = a.sshiftRight (b.toNat % 32) := by
  rw [← shamt_eq]
  have hlt : (b &&& 0x1F).toNat < 32 := by rw [shamt_eq]; omega
  generalize hsh : (b &&& 0x1F).toNat = sh at hlt
  simp only [sra, hsh]
  split
  · rename_i h
    rw [h, BitVec.sshiftRight_zero]
  rename_i hne
  apply BitVec.eq_of_getLsbD_eq
  intro i hi
  rw [BitVec.getLsbD_or, BitVec.getLsbD_ushiftRight, BitVec.getLsbD_sshiftRight]
  by_cases hin : sh + i < 32
  · have hfill :
      ((if a &&& 0x80000000 ≠ 0 then (~~~0 : Word) <<< (32 - sh) else 0)).getLsbD i = false := by
      split
      · rw [BitVec.getLsbD_shiftLeft]
        simp [show i < 32 - sh by omega]
      · simp
    rw [hfill, if_pos hin]
    simp [show ¬32 ≤ i by omega]
  · rw [if_neg hin, BitVec.getLsbD_of_ge _ _ (by omega)]
    simp only [sign_bit]
    split
    · rename_i hmsb
      have hones : (~~~0 : Word) = BitVec.allOnes 32 := by decide
      rw [hones, BitVec.getLsbD_shiftLeft, BitVec.getLsbD_allOnes]
      simp [hi, hmsb, show ¬i < 32 - sh by omega, show i - (32 - sh) < 32 by omega]
    · rename_i hmsb
      simp [hmsb]

theorem toInt_sra (a b : Word) : (sra a b).toInt = a.toInt.fdiv (2^(b.toNat % 32)) := by
  have hpos : (0 : ℤ) ≤ 2^(b.toNat % 32) := Int.pow_nonneg (by decide)
  rw [sra_eq_sshiftRight, BitVec.toInt_sshiftRight, Int.shiftRight_eq_div_pow,
    Int.fdiv_eq_ediv_of_nonneg _ hpos]
  norm_cast

theorem toInt_div (hb : b ≠ 0) (hover : ¬(a = 0x80000000 ∧ b = 0xFFFFFFFF)) :
    (div a b).toInt = a.toInt.tdiv b.toInt := by
  rw [div, if_neg hb, if_neg hover]
  exact BitVec.toInt_sdiv_of_ne_or_ne a b (not_and_or.mp hover)

theorem toInt_rem (hb : b ≠ 0) (hover : ¬(a = 0x80000000 ∧ b = 0xFFFFFFFF)) :
    (rem a b).toInt = a.toInt.tmod b.toInt := by
  rw [rem, if_neg hb, if_neg hover]
  exact BitVec.toInt_srem a b

theorem toInt_ne_zero (hb : b ≠ 0) : b.toInt ≠ 0 :=
  fun h => hb (BitVec.eq_of_toInt_eq (h.trans rfl))

theorem div_add_rem (a b : Word) : a = div a b * b + rem a b := by
  by_cases hb : b = 0
  · simp [div, rem, hb]
  by_cases hover : a = 0x80000000 ∧ b = 0xFFFFFFFF
  · obtain ⟨rfl, rfl⟩ := hover
    decide
  · have hsplit : a.toInt = (div a b).toInt * b.toInt + (rem a b).toInt := by
      rw [toInt_div hb hover, toInt_rem hb hover, Int.tdiv_mul_add_tmod]
    have hwords := congrArg (BitVec.ofInt 32) hsplit
    rwa [BitVec.ofInt_add, BitVec.ofInt_mul, BitVec.ofInt_toInt, BitVec.ofInt_toInt,
      BitVec.ofInt_toInt, BitVec.ofInt_toInt] at hwords

theorem toNat_divu (hb : b ≠ 0) : (divu a b).toNat = a.toNat / b.toNat := by
  rw [divu, if_neg hb, BitVec.toNat_udiv]

theorem toNat_remu (hb : b ≠ 0) : (remu a b).toNat = a.toNat % b.toNat := by
  rw [remu, if_neg hb, BitVec.toNat_umod]

theorem divu_add_remu (a b : Word) : a = divu a b * b + remu a b := by
  by_cases hb : b = 0
  · simp [divu, remu, hb]
  · have hsplit : a.toNat = (divu a b).toNat * b.toNat + (remu a b).toNat := by
      rw [toNat_divu hb, toNat_remu hb, Nat.div_add_mod']
    have hwords := congrArg (BitVec.ofNat 32) hsplit
    rwa [BitVec.ofNat_add, BitVec.ofNat_mul, BitVec.ofNat_toNat, BitVec.ofNat_toNat,
      BitVec.ofNat_toNat, BitVec.ofNat_toNat, BitVec.setWidth_eq, BitVec.setWidth_eq,
      BitVec.setWidth_eq, BitVec.setWidth_eq] at hwords

/-- What the primitives compute, for one pair of operands. -/
structure Exact (a b : Word) : Prop extends Defined a b where
  mulh_mul : a.toInt * b.toInt = (Alu.mulh a b).toInt * 2^32 + (Alu.mul a b).toNat
  mulhsu_mul : a.toInt * b.toNat = (Alu.mulhsu a b).toInt * 2^32 + (Alu.mul a b).toNat
  mulhu_mul : a.toNat * b.toNat = (Alu.mulhu a b).toNat * 2^32 + (Alu.mul a b).toNat
  toNat_sll : (Alu.sll a b).toNat = a.toNat * 2^(b.toNat % 32) % 2^32
  toNat_srl : (Alu.srl a b).toNat = a.toNat / 2^(b.toNat % 32)
  toInt_sra : (Alu.sra a b).toInt = a.toInt.fdiv (2^(b.toNat % 32))
  slt : Alu.slt a b = if a.toInt < b.toInt then 1 else 0
  sltu : Alu.sltu a b = if a.toNat < b.toNat then 1 else 0
  toInt_div : b ≠ 0 → ¬(a = 0x80000000 ∧ b = 0xFFFFFFFF) →
    (Alu.div a b).toInt = a.toInt.tdiv b.toInt
  rem_sign : b ≠ 0 → ¬(a = 0x80000000 ∧ b = 0xFFFFFFFF) →
    (Alu.rem a b).toInt = 0 ∨ (Alu.rem a b).toInt.sign = a.toInt.sign
  rem_lt : b ≠ 0 → ¬(a = 0x80000000 ∧ b = 0xFFFFFFFF) → |(Alu.rem a b).toInt| < |b.toInt|
  toNat_divu : b ≠ 0 → (Alu.divu a b).toNat = a.toNat / b.toNat
  toNat_remu : b ≠ 0 → (Alu.remu a b).toNat = a.toNat % b.toNat
  div_add_rem : a = Alu.div a b * b + Alu.rem a b
  divu_add_remu : a = Alu.divu a b * b + Alu.remu a b

/-- The primitives compute the mathematical results on every pair of operands, and no operator they
use is undefined there. -/
theorem exact_results (a b : Word) : Exact a b where
  toDefined := defined a b
  mulh_mul := mulh_mul a b
  mulhsu_mul := mulhsu_mul a b
  mulhu_mul := mulhu_mul a b
  toNat_sll := toNat_sll a b
  toNat_srl := toNat_srl a b
  toInt_sra := toInt_sra a b
  slt := by simp only [slt, BitVec.slt, decide_eq_true_eq]
  sltu := by simp only [sltu, BitVec.ult, decide_eq_true_eq]
  toInt_div := toInt_div
  rem_sign hb hover := by
    rw [toInt_rem hb hover, Int.sign_tmod, ← Int.dvd_iff_tmod_eq_zero]
    by_cases hdvd : b.toInt ∣ a.toInt
    · exact .inl hdvd
    · rw [if_neg hdvd]
      exact .inr rfl
  rem_lt hb hover := by
    have hpos : 0 < b.toInt.natAbs := Int.natAbs_pos.mpr (toInt_ne_zero hb)
    rw [toInt_rem hb hover, Int.abs_eq_natAbs, Int.abs_eq_natAbs, Int.natAbs_tmod]
    exact Int.ofNat_lt.mpr (Nat.mod_lt _ hpos)
  toNat_divu := toNat_divu
  toNat_remu := toNat_remu
  div_add_rem := div_add_rem a b
  divu_add_remu := divu_add_remu a b

end OooCpu.Alu
