import OooCpu.Encodings
import Mathlib.Tactic.IntervalCases

/-! # The assembler

The emitters of the test assembler, its two-pass label resolution, and that
decoding undoes them. A branch is emitted with a zero offset and patched when
its label resolves. -/
namespace OooCpu.Asmc

def encR (op rd f3 rs1 rs2 f7 : Word) : Word :=
  (f7 <<< 25) ||| ((rs2 &&& 0x1F) <<< 20) ||| ((rs1 &&& 0x1F) <<< 15) ||| ((f3 &&& 0x7) <<< 12) |||
    ((rd &&& 0x1F) <<< 7) ||| (op &&& 0x7F)

def encI (op rd f3 rs1 imm : Word) : Word :=
  let u := imm &&& 0xFFF
  (u <<< 20) ||| ((rs1 &&& 0x1F) <<< 15) ||| ((f3 &&& 0x7) <<< 12) ||| ((rd &&& 0x1F) <<< 7) |||
    (op &&& 0x7F)

def encS (f3 rs1 rs2 imm : Word) : Word :=
  let u := imm &&& 0xFFF
  let hi := (u >>> 5) &&& 0x7F
  let lo := u &&& 0x1F
  (hi <<< 25) ||| ((rs2 &&& 0x1F) <<< 20) ||| ((rs1 &&& 0x1F) <<< 15) ||| ((f3 &&& 0x7) <<< 12) |||
    (lo <<< 7) ||| 0x23

/-- The bits a branch immediate occupies. -/
def kBmask : Word := (1 <<< 31) ||| (0x3F <<< 25) ||| (0xF <<< 8) ||| (1 <<< 7)

def bImmBits (imm : Word) : Word :=
  let u := imm &&& 0x1FFF
  (((u >>> 12) &&& 1) <<< 31) ||| (((u >>> 5) &&& 0x3F) <<< 25) ||| (((u >>> 1) &&& 0xF) <<< 8) |||
    (((u >>> 11) &&& 1) <<< 7)

def kJmask : Word := 0xFFFFF000

def jImmBits (imm : Word) : Word :=
  let u := imm &&& 0x1FFFFF
  (((u >>> 20) &&& 1) <<< 31) ||| (((u >>> 1) &&& 0x3FF) <<< 21) ||| (((u >>> 11) &&& 1) <<< 20) |||
    (((u >>> 12) &&& 0xFF) <<< 12)

def encB (f3 rs1 rs2 imm : Word) : Word :=
  0x63 ||| ((f3 &&& 0x7) <<< 12) ||| ((rs1 &&& 0x1F) <<< 15) ||| ((rs2 &&& 0x1F) <<< 20) |||
    bImmBits imm

def encU (op rd immHi20 : Word) : Word :=
  ((immHi20 &&& 0xFFFFF) <<< 12) ||| ((rd &&& 0x1F) <<< 7) ||| (op &&& 0x7F)

def encJ (rd imm : Word) : Word := 0x6F ||| ((rd &&& 0x1F) <<< 7) ||| jImmBits imm

/-- What the fixup of a branch leaves in place of `orig`. -/
def patchB (orig off : Word) : Word := (orig &&& ~~~kBmask) ||| bImmBits off

/-- What the fixup of a jump leaves in place of `orig`. -/
def patchJ (orig off : Word) : Word := (orig &&& ~~~kJmask) ||| jImmBits off

def lui (rd imm20 : Word) : Word := encU 0x37 rd imm20
def auipc (rd imm20 : Word) : Word := encU 0x17 rd imm20

def jal (rd imm : Word) : Word := encJ rd imm

/-- The jump emitted towards a label. -/
def jalTo (rd off : Word) : Word := patchJ (encJ rd 0) off

def jalr (rd rs1 imm : Word) : Word := encI 0x67 rd 0x0 rs1 imm

def branch (f3 r1 r2 off : Word) : Word := patchB (encB f3 r1 r2 0) off
def beq (r1 r2 off : Word) : Word := branch 0x0 r1 r2 off
def bne (r1 r2 off : Word) : Word := branch 0x1 r1 r2 off
def blt (r1 r2 off : Word) : Word := branch 0x4 r1 r2 off
def bge (r1 r2 off : Word) : Word := branch 0x5 r1 r2 off
def bltu (r1 r2 off : Word) : Word := branch 0x6 r1 r2 off
def bgeu (r1 r2 off : Word) : Word := branch 0x7 r1 r2 off

def lb (rd rs1 off : Word) : Word := encI 0x03 rd 0x0 rs1 off
def lh (rd rs1 off : Word) : Word := encI 0x03 rd 0x1 rs1 off
def lw (rd rs1 off : Word) : Word := encI 0x03 rd 0x2 rs1 off
def lbu (rd rs1 off : Word) : Word := encI 0x03 rd 0x4 rs1 off
def lhu (rd rs1 off : Word) : Word := encI 0x03 rd 0x5 rs1 off

def sb (rs2 rs1 off : Word) : Word := encS 0x0 rs1 rs2 off
def sh (rs2 rs1 off : Word) : Word := encS 0x1 rs1 rs2 off
def sw (rs2 rs1 off : Word) : Word := encS 0x2 rs1 rs2 off

def addi (rd rs1 imm : Word) : Word := encI 0x13 rd 0x0 rs1 imm
def slti (rd rs1 imm : Word) : Word := encI 0x13 rd 0x2 rs1 imm
def sltiu (rd rs1 imm : Word) : Word := encI 0x13 rd 0x3 rs1 imm
def xori (rd rs1 imm : Word) : Word := encI 0x13 rd 0x4 rs1 imm
def ori (rd rs1 imm : Word) : Word := encI 0x13 rd 0x6 rs1 imm
def andi (rd rs1 imm : Word) : Word := encI 0x13 rd 0x7 rs1 imm
def slli (rd rs1 sh : Word) : Word := encR 0x13 rd 0x1 rs1 (sh &&& 0x1F) 0x00
def srli (rd rs1 sh : Word) : Word := encR 0x13 rd 0x5 rs1 (sh &&& 0x1F) 0x00
def srai (rd rs1 sh : Word) : Word := encR 0x13 rd 0x5 rs1 (sh &&& 0x1F) 0x20

def add (rd rs1 rs2 : Word) : Word := encR 0x33 rd 0x0 rs1 rs2 0x00
def sub (rd rs1 rs2 : Word) : Word := encR 0x33 rd 0x0 rs1 rs2 0x20
def sll (rd rs1 rs2 : Word) : Word := encR 0x33 rd 0x1 rs1 rs2 0x00
def slt (rd rs1 rs2 : Word) : Word := encR 0x33 rd 0x2 rs1 rs2 0x00
def sltu (rd rs1 rs2 : Word) : Word := encR 0x33 rd 0x3 rs1 rs2 0x00
def xor_ (rd rs1 rs2 : Word) : Word := encR 0x33 rd 0x4 rs1 rs2 0x00
def srl (rd rs1 rs2 : Word) : Word := encR 0x33 rd 0x5 rs1 rs2 0x00
def sra (rd rs1 rs2 : Word) : Word := encR 0x33 rd 0x5 rs1 rs2 0x20
def or_ (rd rs1 rs2 : Word) : Word := encR 0x33 rd 0x6 rs1 rs2 0x00
def and_ (rd rs1 rs2 : Word) : Word := encR 0x33 rd 0x7 rs1 rs2 0x00

def fence : Word := 0x0000000F
def fenceI : Word := 0x0000100F
def ecall : Word := 0x00000073
def ebreak : Word := 0x00100073

def mul (rd rs1 rs2 : Word) : Word := encR 0x33 rd 0x0 rs1 rs2 0x01
def mulh (rd rs1 rs2 : Word) : Word := encR 0x33 rd 0x1 rs1 rs2 0x01
def mulhsu (rd rs1 rs2 : Word) : Word := encR 0x33 rd 0x2 rs1 rs2 0x01
def mulhu (rd rs1 rs2 : Word) : Word := encR 0x33 rd 0x3 rs1 rs2 0x01
def div_ (rd rs1 rs2 : Word) : Word := encR 0x33 rd 0x4 rs1 rs2 0x01
def divu (rd rs1 rs2 : Word) : Word := encR 0x33 rd 0x5 rs1 rs2 0x01
def rem (rd rs1 rs2 : Word) : Word := encR 0x33 rd 0x6 rs1 rs2 0x01
def remu (rd rs1 rs2 : Word) : Word := encR 0x33 rd 0x7 rs1 rs2 0x01

section Fields
variable {op rd f3 rs1 rs2 f7 imm w x : Word}

/-- The six fields of a register-register word. -/
structure Fields (w op rd f3 rs1 rs2 f7 : Word) : Prop where
  opcode : w.extractLsb' 0 7 = op.setWidth 7
  rd : w.extractLsb' 7 5 = rd.setWidth 5
  funct3 : w.extractLsb' 12 3 = f3.setWidth 3
  rs1 : w.extractLsb' 15 5 = rs1.setWidth 5
  rs2 : w.extractLsb' 20 5 = rs2.setWidth 5
  funct7 : w.extractLsb' 25 7 = f7.setWidth 7

theorem encR_fields (op rd f3 rs1 rs2 f7 : Word) :
    Fields (encR op rd f3 rs1 rs2 f7) op rd f3 rs1 rs2 f7 := by
  constructor
  all_goals
    apply BitVec.eq_of_getLsbD_eq
    intro i hi
    interval_cases i <;> simp [encR]

/-- Every other format is a register-register word whose spare fields hold the immediate. -/
theorem encI_eq (op rd f3 rs1 imm : Word) :
    encI op rd f3 rs1 imm = encR op rd f3 rs1 imm (imm >>> 5) := by
  apply BitVec.eq_of_getLsbD_eq
  intro i hi
  interval_cases i <;> simp [encI, encR]

theorem encS_eq (f3 rs1 rs2 imm : Word) :
    encS f3 rs1 rs2 imm = encR 0x23 imm f3 rs1 rs2 (imm >>> 5) := by
  apply BitVec.eq_of_getLsbD_eq
  intro i hi
  interval_cases i <;> simp [encS, encR]

theorem branch_eq (f3 r1 r2 off : Word) :
    branch f3 r1 r2 off = encR 0x63 ((off &&& 0x1E) ||| ((off >>> 11) &&& 1)) f3 r1 r2
      (((off >>> 5) &&& 0x3F) ||| (((off >>> 12) &&& 1) <<< 6)) := by
  apply BitVec.eq_of_getLsbD_eq
  intro i hi
  interval_cases i <;> simp [branch, patchB, encB, bImmBits, kBmask, encR]

theorem encU_eq (op rd imm20 : Word) :
    encU op rd imm20 = encR op rd imm20 (imm20 >>> 3) (imm20 >>> 8) (imm20 >>> 13) := by
  apply BitVec.eq_of_getLsbD_eq
  intro i hi
  interval_cases i <;> simp [encU, encR]

theorem encJ_eq (rd imm : Word) :
    encJ rd imm = encR 0x6F rd (imm >>> 12) (imm >>> 15) ((imm &&& 0x1E) ||| ((imm >>> 11) &&& 1))
      (((imm >>> 5) &&& 0x3F) ||| (((imm >>> 20) &&& 1) <<< 6)) := by
  apply BitVec.eq_of_getLsbD_eq
  intro i hi
  interval_cases i <;> simp [encJ, jImmBits, encR]

theorem jalTo_eq (rd off : Word) : jalTo rd off = jal rd off := by
  apply BitVec.eq_of_getLsbD_eq
  intro i hi
  interval_cases i <;> simp [jalTo, jal, patchJ, encJ, jImmBits, kJmask]

theorem xor_two_pow_of_lt {x k : ℕ} (h : x < 2 ^ k) : x ^^^ 2 ^ k = x + 2 ^ k := by
  have hor := Nat.two_pow_add_eq_or_of_lt h 1
  rw [Nat.mul_one] at hor
  rw [Nat.add_comm, hor]
  apply Nat.eq_of_testBit_eq
  intro i
  simp only [Nat.testBit_xor, Nat.testBit_or, Nat.testBit_two_pow]
  by_cases hi : k = i
  · subst hi
    simp [Nat.testBit_lt_two_pow h]
  · simp [hi]

/-- The xor-and-subtract trick recovers a value that fits in the field. -/
theorem sext_low {k : ℕ} (hk : k < 31) {x : Word} (hlo : -2 ^ k ≤ x.toInt) (hhi : x.toInt < 2 ^ k)
    {v : Word}
    (hv : v.toNat = x.toNat % 2 ^ (k + 1)) : sext v (k + 1) = x := by
  have hpow : 2 ^ k * 2 ≤ 2 ^ 31 := by
    rw [← Nat.pow_succ]
    exact Nat.pow_le_pow_right (by decide) hk
  have hmask : (((1 <<< k : ℕ) : Word)).toNat = 2 ^ k := by
    rw [Nat.one_shiftLeft]
    exact (BitVec.toNat_ofNat _ _).trans (Nat.mod_eq_of_lt (by omega))
  have hcast : (2 : ℤ) ^ k = ((2 ^ k : ℕ) : ℤ) := by norm_cast
  have hx := x.isLt
  have htoInt := BitVec.toInt_eq_toNat_cond x
  have hsucc : 2 ^ (k + 1) = 2 ^ k * 2 := Nat.pow_succ 2 k
  rw [hcast] at hlo hhi
  rw [hsucc] at hv
  apply BitVec.eq_of_toNat_eq
  simp only [sext, Nat.add_sub_cancel, BitVec.toNat_sub, BitVec.toNat_xor, hmask, hv]
  split at htoInt
  · have hlt : x.toNat < 2 ^ k := by omega
    rw [Nat.mod_eq_of_lt (show x.toNat < 2 ^ k * 2 by omega), xor_two_pow_of_lt hlt]
    omega
  · -- a negative value differs from its field by a multiple of the field's size
    obtain ⟨m, hm⟩ : 2 ^ k * 2 ∣ 2 ^ 32 := by
      rw [← hsucc]
      exact Nat.pow_dvd_pow 2 (by omega)
    obtain ⟨r, hr⟩ : ∃ r, x.toNat + 2 ^ k = 2 ^ 32 + r := ⟨x.toNat + 2 ^ k - 2 ^ 32, by omega⟩
    have hmod : x.toNat % (2 ^ k * 2) = r + 2 ^ k := by
      have hsum : x.toNat + 2 ^ k * 2 = 2 ^ k * 2 * m + (r + 2 ^ k) := by omega
      rw [← Nat.add_mod_right, hsum, Nat.mul_add_mod, Nat.mod_eq_of_lt (by omega)]
    have hxor : (r + 2 ^ k) ^^^ 2 ^ k = r := by
      rw [← xor_two_pow_of_lt (by omega), Nat.xor_assoc, Nat.xor_self, Nat.xor_zero]
    rw [hmod, hxor]
    omega

/-- A five-bit field names the register it was given. -/
theorem reg_of_extract {k : ℕ} (h : w.extractLsb' k 5 = x.setWidth 5) :
    Fin.ofNat 32 ((w >>> k) &&& 0x1F).toNat = Fin.ofNat 32 x.toNat := by
  rw [shift_and_mask w k (n := 5) (by decide) rfl, h]
  apply Fin.ext
  simp only [Fin.val_ofNat, BitVec.toNat_setWidth]
  omega

theorem immI_encI (hlo : -2048 ≤ imm.toInt) (hhi : imm.toInt < 2048) :
    immI (encI op rd f3 rs1 imm) = imm := by
  refine sext_low (k := 11) (by decide) hlo hhi ?_
  have hbits : (encI op rd f3 rs1 imm >>> 20) &&& 0xFFF = imm &&& 0xFFF := by
    apply BitVec.eq_of_getLsbD_eq
    intro i hi
    interval_cases i <;> simp [encI]
  rw [hbits, BitVec.toNat_and]
  exact Nat.and_two_pow_sub_one_eq_mod _ 12

theorem immS_encS (hlo : -2048 ≤ imm.toInt) (hhi : imm.toInt < 2048) :
    immS (encS f3 rs1 rs2 imm) = imm := by
  refine sext_low (k := 11) (by decide) hlo hhi ?_
  have hbits : (((encS f3 rs1 rs2 imm >>> 25) &&& 0x7F) <<< 5 |||
    ((encS f3 rs1 rs2 imm >>> 7) &&& 0x1F)) =
      imm &&& 0xFFF := by
    apply BitVec.eq_of_getLsbD_eq
    intro i hi
    interval_cases i <;> simp [encS]
  rw [hbits, BitVec.toNat_and]
  exact Nat.and_two_pow_sub_one_eq_mod _ 12

theorem immB_branch (hlo : -4096 ≤ imm.toInt) (hhi : imm.toInt < 4096) (heven : imm.toNat % 2 = 0) :
    immB (branch f3 rs1 rs2 imm) = imm := by
  refine sext_low (k := 12) (by decide) hlo hhi ?_
  have hbits : (((branch f3 rs1 rs2 imm >>> 31) &&& 0x01) <<< 12 |||
    ((branch f3 rs1 rs2 imm >>> 7) &&& 0x01) <<< 11 |||
      ((branch f3 rs1 rs2 imm >>> 25) &&& 0x3F) <<< 5 |||
        ((branch f3 rs1 rs2 imm >>> 8) &&& 0x0F) <<< 1) =
      imm &&& 0x1FFF := by
    apply BitVec.eq_of_getLsbD_eq
    intro i hi
    interval_cases i <;> simp [branch, patchB, encB, bImmBits, kBmask]
    simpa [BitVec.getElem_eq_testBit_toNat] using heven
  rw [hbits, BitVec.toNat_and]
  exact Nat.and_two_pow_sub_one_eq_mod _ 13

theorem immU_encU : immU (encU op rd imm) = imm <<< 12 := by
  apply BitVec.eq_of_getLsbD_eq
  intro i hi
  interval_cases i <;> simp [immU, encU]

theorem immJ_encJ (hlo : -1048576 ≤ imm.toInt) (hhi : imm.toInt < 1048576)
    (heven : imm.toNat % 2 = 0) : immJ (encJ rd imm) = imm := by
  refine sext_low (k := 20) (by decide) hlo hhi ?_
  have hbits : (((encJ rd imm >>> 31) &&& 0x0001) <<< 20 |||
    ((encJ rd imm >>> 12) &&& 0x00FF) <<< 12 |||
      ((encJ rd imm >>> 20) &&& 0x0001) <<< 11 ||| ((encJ rd imm >>> 21) &&& 0x03FF) <<< 1) =
        imm &&& 0x1FFFFF := by
    apply BitVec.eq_of_getLsbD_eq
    intro i hi
    interval_cases i <;> simp [encJ, jImmBits]
    simpa [BitVec.getElem_eq_testBit_toNat] using heven
  rw [hbits, BitVec.toNat_and]
  exact Nat.and_two_pow_sub_one_eq_mod _ 21

end Fields

/-- One instruction as it is written: a mnemonic with its operands, zero where the format has
none. -/
structure Insn where
  mnemonic : Mnemonic
  rd : Word := 0
  rs1 : Word := 0
  rs2 : Word := 0
  imm : Word := 0
  deriving DecidableEq

namespace Insn

def encoding (i : Insn) : Encoding := i.mnemonic.encoding

/-- The word its emitter leaves. -/
def word (i : Insn) : Word :=
  match i.mnemonic with
  | .lui => lui i.rd i.imm
  | .auipc => auipc i.rd i.imm
  | .jal => jal i.rd i.imm
  | .jalr => jalr i.rd i.rs1 i.imm
  | .beq => beq i.rs1 i.rs2 i.imm
  | .bne => bne i.rs1 i.rs2 i.imm
  | .blt => blt i.rs1 i.rs2 i.imm
  | .bge => bge i.rs1 i.rs2 i.imm
  | .bltu => bltu i.rs1 i.rs2 i.imm
  | .bgeu => bgeu i.rs1 i.rs2 i.imm
  | .lb => lb i.rd i.rs1 i.imm
  | .lh => lh i.rd i.rs1 i.imm
  | .lw => lw i.rd i.rs1 i.imm
  | .lbu => lbu i.rd i.rs1 i.imm
  | .lhu => lhu i.rd i.rs1 i.imm
  | .sb => sb i.rs2 i.rs1 i.imm
  | .sh => sh i.rs2 i.rs1 i.imm
  | .sw => sw i.rs2 i.rs1 i.imm
  | .addi => addi i.rd i.rs1 i.imm
  | .slti => slti i.rd i.rs1 i.imm
  | .sltiu => sltiu i.rd i.rs1 i.imm
  | .xori => xori i.rd i.rs1 i.imm
  | .ori => ori i.rd i.rs1 i.imm
  | .andi => andi i.rd i.rs1 i.imm
  | .slli => slli i.rd i.rs1 i.imm
  | .srli => srli i.rd i.rs1 i.imm
  | .srai => srai i.rd i.rs1 i.imm
  | .add => add i.rd i.rs1 i.rs2
  | .sub => sub i.rd i.rs1 i.rs2
  | .sll => sll i.rd i.rs1 i.rs2
  | .slt => slt i.rd i.rs1 i.rs2
  | .sltu => sltu i.rd i.rs1 i.rs2
  | .xor => xor_ i.rd i.rs1 i.rs2
  | .srl => srl i.rd i.rs1 i.rs2
  | .sra => sra i.rd i.rs1 i.rs2
  | .or => or_ i.rd i.rs1 i.rs2
  | .and => and_ i.rd i.rs1 i.rs2
  | .mul => mul i.rd i.rs1 i.rs2
  | .mulh => mulh i.rd i.rs1 i.rs2
  | .mulhsu => mulhsu i.rd i.rs1 i.rs2
  | .mulhu => mulhu i.rd i.rs1 i.rs2
  | .div => div_ i.rd i.rs1 i.rs2
  | .divu => divu i.rd i.rs1 i.rs2
  | .rem => rem i.rd i.rs1 i.rs2
  | .remu => remu i.rd i.rs1 i.rs2
  | .fence => fence
  | .fenceI => fenceI
  | .ecall => ecall
  | .ebreak => ebreak

/-- The immediate lies in the format's range. -/
def ImmInRange (imm : Word) : Format → Prop
  | .i | .s => -2048 ≤ imm.toInt ∧ imm.toInt < 2048
  | .shift => imm.toNat < 32
  | .b => -4096 ≤ imm.toInt ∧ imm.toInt < 4096 ∧ imm.toNat % 2 = 0
  | .u => imm.toNat < 1048576
  | .j => -1048576 ≤ imm.toInt ∧ imm.toInt < 1048576 ∧ imm.toNat % 2 = 0
  | .r | .bare => imm = 0

/-- Registers below 32 where the format has them, and an immediate that fits. -/
structure InRange (i : Insn) : Prop where
  rd_lt : i.rd.toNat < 32
  rs1_lt : i.rs1.toNat < 32
  rs2_lt : i.rs2.toNat < 32
  no_rd : i.encoding.format.hasRd = false → i.rd = 0
  no_rs1 : i.encoding.format.hasRs1 = false → i.rs1 = 0
  no_rs2 : i.encoding.format.hasRs2 = false → i.rs2 = 0
  imm : ImmInRange i.imm i.encoding.format

/-- What the instruction asks for. -/
def decoded (i : Insn) : Decoded where
  raw := i.word
  op := i.encoding.op
  kind := i.encoding.op.kind
  rd := Fin.ofNat 32 i.rd.toNat
  rs1 := Fin.ofNat 32 i.rs1.toNat
  rs2 := Fin.ofNat 32 i.rs2.toNat
  imm := if i.encoding.format = .u then i.imm <<< 12 else i.imm
  isBranch := i.encoding.op.kind == .branch
  isLoad := i.encoding.op.kind == .load
  isStore := i.encoding.op.kind == .store
  writesRd := i.encoding.op.producesResult && i.rd != 0

end Insn

/-- The word belongs to the row and holds the operands. -/
structure Carries (e : Encoding) (w : Word) (i : Insn) : Prop where
  row : e.Matches w
  rd : e.format.hasRd = true → w.extractLsb' 7 5 = i.rd.setWidth 5
  rs1 : e.format.hasRs1 = true → w.extractLsb' 15 5 = i.rs1.setWidth 5
  rs2 : e.format.hasRs2 = true → w.extractLsb' 20 5 = i.rs2.setWidth 5
  imm : e.format.imm w = if e.format = .u then i.imm <<< 12 else i.imm

section Carries
variable {e : Encoding} {i : Insn} {op g3 g7 w : Word}

private theorem matches_of_fields {rd rs1 rs2 : Word} (h : Fields w op rd g3 rs1 rs2 g7)
    (ho : e.opcode = op.setWidth 7)
    (h3 : ∀ f ∈ e.funct3, f = g3.setWidth 3) (h7 : ∀ f ∈ e.funct7, f = g7.setWidth 7)
    (hw : e.word = none) : e.Matches w where
  opcode := h.opcode.trans ho.symm
  funct3 f hf := h.funct3.trans (h3 f hf).symm
  funct7 f hf := h.funct7.trans (h7 f hf).symm
  word v hv := by simp [hw] at hv

private theorem carries_r (hf : e.format = .r) (hw : e.word = none) (ho : e.opcode = op.setWidth 7)
    (h3 : e.funct3 = some (g3.setWidth 3)) (h7 : e.funct7 = some (g7.setWidth 7)) (hi : i.imm = 0) :
    Carries e (encR op i.rd g3 i.rs1 i.rs2 g7) i := by
  have h := encR_fields op i.rd g3 i.rs1 i.rs2 g7
  refine ⟨matches_of_fields h ho (by simp [h3]) (by simp [h7]) hw, fun _ => h.rd, fun _ => h.rs1,
    fun _ => h.rs2, ?_⟩
  simp [hf, Format.imm, hi]

private theorem carries_shift (hf : e.format = .shift) (hw : e.word = none)
    (ho : e.opcode = op.setWidth 7)
    (h3 : e.funct3 = some (g3.setWidth 3)) (h7 : e.funct7 = some (g7.setWidth 7))
    (hi : i.imm.toNat < 32) : Carries e (encR op i.rd g3 i.rs1 (i.imm &&& 0x1F) g7) i := by
  have h := encR_fields op i.rd g3 i.rs1 (i.imm &&& 0x1F) g7
  refine ⟨matches_of_fields h ho (by simp [h3]) (by simp [h7]) hw, fun _ => h.rd, fun _ => h.rs1,
    by simp [hf, Format.hasRs2], ?_⟩
  have hreg : rs2Of _ = _ := reg_of_extract h.rs2
  have hand : (i.imm &&& 0x1F).toNat = i.imm.toNat % 2 ^ 5 := by
    rw [BitVec.toNat_and]
    exact Nat.and_two_pow_sub_one_eq_mod _ 5
  simp only [hf, Format.imm, hreg, reduceCtorEq, if_false]
  apply BitVec.eq_of_toNat_eq
  simp only [BitVec.toNat_ofNat, Fin.val_ofNat, hand]
  omega

private theorem carries_i (hf : e.format = .i) (hw : e.word = none) (ho : e.opcode = op.setWidth 7)
    (h3 : e.funct3 = some (g3.setWidth 3)) (h7 : e.funct7 = none) (hi : Insn.ImmInRange i.imm .i) :
    Carries e (encI op i.rd g3 i.rs1 i.imm) i := by
  have h := encI_eq op i.rd g3 i.rs1 i.imm ▸ encR_fields op i.rd g3 i.rs1 i.imm (i.imm >>> 5)
  refine ⟨matches_of_fields h ho (by simp [h3]) (by simp [h7]) hw, fun _ => h.rd, fun _ => h.rs1,
    by simp [hf, Format.hasRs2], ?_⟩
  simp only [hf, Format.imm, reduceCtorEq, if_false]
  exact immI_encI hi.1 hi.2

private theorem carries_s (hf : e.format = .s) (hw : e.word = none) (ho : e.opcode = 0x23)
    (h3 : e.funct3 = some (g3.setWidth 3)) (h7 : e.funct7 = none) (hi : Insn.ImmInRange i.imm .s) :
    Carries e (encS g3 i.rs1 i.rs2 i.imm) i := by
  have h := encS_eq g3 i.rs1 i.rs2 i.imm ▸ encR_fields 0x23 i.imm g3 i.rs1 i.rs2 (i.imm >>> 5)
  refine ⟨matches_of_fields h ho (by simp [h3]) (by simp [h7]) hw, by simp [hf, Format.hasRd],
    fun _ => h.rs1, fun _ => h.rs2, ?_⟩
  simp only [hf, Format.imm, reduceCtorEq, if_false]
  exact immS_encS hi.1 hi.2

private theorem carries_b (hf : e.format = .b) (hw : e.word = none) (ho : e.opcode = 0x63)
    (h3 : e.funct3 = some (g3.setWidth 3)) (h7 : e.funct7 = none) (hi : Insn.ImmInRange i.imm .b) :
    Carries e (branch g3 i.rs1 i.rs2 i.imm) i := by
  have h := branch_eq g3 i.rs1 i.rs2 i.imm ▸ encR_fields 0x63 _ g3 i.rs1 i.rs2 _
  refine ⟨matches_of_fields h ho (by simp [h3]) (by simp [h7]) hw, by simp [hf, Format.hasRd],
    fun _ => h.rs1, fun _ => h.rs2, ?_⟩
  simp only [hf, Format.imm, reduceCtorEq, if_false]
  exact immB_branch hi.1 hi.2.1 hi.2.2

private theorem carries_u (hf : e.format = .u) (hw : e.word = none) (ho : e.opcode = op.setWidth 7)
    (h3 : e.funct3 = none) (h7 : e.funct7 = none) : Carries e (encU op i.rd i.imm) i := by
  have h := encU_eq op i.rd i.imm ▸ encR_fields op i.rd _ _ _ _
  refine ⟨matches_of_fields h ho (by simp [h3]) (by simp [h7]) hw, fun _ => h.rd,
    by simp [hf, Format.hasRs1], by simp [hf, Format.hasRs2], ?_⟩
  simp only [hf, Format.imm, if_true]
  exact immU_encU

private theorem carries_j (hf : e.format = .j) (hw : e.word = none) (ho : e.opcode = 0x6F)
    (h3 : e.funct3 = none)
    (h7 : e.funct7 = none) (hi : Insn.ImmInRange i.imm .j) : Carries e (encJ i.rd i.imm) i := by
  have h := encJ_eq i.rd i.imm ▸ encR_fields 0x6F i.rd _ _ _ _
  refine ⟨matches_of_fields h ho (by simp [h3]) (by simp [h7]) hw, fun _ => h.rd,
    by simp [hf, Format.hasRs1], by simp [hf, Format.hasRs2], ?_⟩
  simp only [hf, Format.imm, reduceCtorEq, if_false]
  exact immJ_encJ hi.1 hi.2.1 hi.2.2

private theorem carries_bare (hf : e.format = .bare) (h : e.Matches w) (hi : i.imm = 0) :
    Carries e w i := by
  refine ⟨h, by simp [hf, Format.hasRd], by simp [hf, Format.hasRs1], by simp [hf, Format.hasRs2],
    ?_⟩
  simp [hf, Format.imm, hi]

private theorem bare_matches :
    Mnemonic.fence.encoding.Matches fence ∧ Mnemonic.fenceI.encoding.Matches fenceI ∧
      Mnemonic.ecall.encoding.Matches ecall ∧ Mnemonic.ebreak.encoding.Matches ebreak := by
  refine ⟨⟨?_, ?_, ?_, ?_⟩, ⟨?_, ?_, ?_, ?_⟩, ⟨?_, ?_, ?_, ?_⟩, ⟨?_, ?_, ?_, ?_⟩⟩
  all_goals simp [Mnemonic.encoding, fence, fenceI, ecall, ebreak]

/-- The decoder zeroes a register field the format does not have. -/
theorem reg_of_format {b : Bool} {k : ℕ} {x : Word}
    (hb : b = true → w.extractLsb' k 5 = x.setWidth 5)
    (h0 : b = false → x = 0) :
    (if b then Fin.ofNat 32 ((w >>> k) &&& 0x1F).toNat else 0) = Fin.ofNat 32 x.toNat := by
  cases b with
  | true => exact reg_of_extract (hb rfl)
  | false =>
    rw [h0 rfl]
    rfl

end Carries

variable {i j : Insn}

theorem Insn.word_carries (h : i.InRange) : Carries i.encoding i.word i := by
  obtain ⟨m, rd, rs1, rs2, imm⟩ := i
  have hi := h.imm
  cases m
  case lui | auipc => exact carries_u rfl rfl rfl rfl rfl
  case jal => exact carries_j rfl rfl rfl rfl rfl hi
  case jalr | lb | lh | lw | lbu | lhu | addi | slti | sltiu | xori | ori | andi =>
    exact carries_i rfl rfl rfl rfl rfl hi
  case beq | bne | blt | bge | bltu | bgeu => exact carries_b rfl rfl rfl rfl rfl hi
  case sb | sh | sw => exact carries_s rfl rfl rfl rfl rfl hi
  case slli | srli | srai => exact carries_shift rfl rfl rfl rfl rfl hi
  case fence => exact carries_bare rfl bare_matches.1 hi
  case fenceI => exact carries_bare rfl bare_matches.2.1 hi
  case ecall => exact carries_bare rfl bare_matches.2.2.1 hi
  case ebreak => exact carries_bare rfl bare_matches.2.2.2 hi
  all_goals exact carries_r rfl rfl rfl rfl rfl hi

theorem Insn.decode_word (h : i.InRange) : decode i.word = i.decoded := by
  have hc := word_carries h
  have hrd := reg_of_format hc.rd h.no_rd
  have hrs1 := reg_of_format hc.rs1 h.no_rs1
  have hrs2 := reg_of_format hc.rs2 h.no_rs2
  have hzero : Fin.ofNat 32 i.rd.toNat = 0 ↔ i.rd = 0 := by
    rw [Fin.ext_iff, ← BitVec.toNat_inj, Fin.val_ofNat, Nat.mod_eq_of_lt h.rd_lt]
    rfl
  have hwrites : (i.encoding.op.producesResult && i.encoding.format.hasRd && rdOf i.word != 0) =
      (i.encoding.op.producesResult && i.rd != 0) := by
    cases hb : i.encoding.format.hasRd with
    | true =>
      have hne : (Fin.ofNat 32 i.rd.toNat != 0) = (i.rd != 0) := by
        rw [Bool.eq_iff_iff, bne_iff_ne, bne_iff_ne]
        exact not_congr hzero
      rw [rdOf, reg_of_extract (hc.rd hb), Bool.and_true, hne]
    | false => simp [h.no_rd hb]
  rw [decode_of_matches i.mnemonic hc.row]
  simp only [Encoding.decoded, Insn.decoded, Decoded.mk.injEq]
  exact ⟨trivial, rfl, rfl, hrd, hrs1, hrs2, hc.imm, rfl, rfl, rfl, hwrites⟩

theorem usesImmediate_iff (w : Word) :
    usesImmediate (decode w) = true ↔ w.extractLsb' 0 7 = 0x13 := by
  have hop : w &&& 0x7F = (w.extractLsb' 0 7).setWidth 32 := opcodeOf_eq w
  rw [usesImmediate, decode_raw, decide_eq_true_iff, hop,
    show (0x13 : Word) = (0x13 : BitVec 7).setWidth 32 from rfl, setWidth_inj (by decide)]

/-- The instruction an operation comes from, told whether its second operand is the immediate. -/
def mnemonicOf (immediate : Bool) : Op → Option Mnemonic
  | .add => if immediate then some .addi else some .add
  | .sub => some .sub
  | .sll => if immediate then some .slli else some .sll
  | .srl => if immediate then some .srli else some .srl
  | .sra => if immediate then some .srai else some .sra
  | .and => if immediate then some .andi else some .and
  | .or => if immediate then some .ori else some .or
  | .xor => if immediate then some .xori else some .xor
  | .slt => if immediate then some .slti else some .slt
  | .sltu => if immediate then some .sltiu else some .sltu
  | .lui => some .lui
  | .auipc => some .auipc
  | .mul => some .mul
  | .mulh => some .mulh
  | .mulhsu => some .mulhsu
  | .mulhu => some .mulhu
  | .div => some .div
  | .divu => some .divu
  | .rem => some .rem
  | .remu => some .remu
  | .beq => some .beq
  | .bne => some .bne
  | .blt => some .blt
  | .bge => some .bge
  | .bltu => some .bltu
  | .bgeu => some .bgeu
  | .jal => some .jal
  | .jalr => some .jalr
  | .lb => some .lb
  | .lh => some .lh
  | .lw => some .lw
  | .lbu => some .lbu
  | .lhu => some .lhu
  | .sb => some .sb
  | .sh => some .sh
  | .sw => some .sw
  | .fence => some .fence
  | .fenceI => some .fenceI
  | .ecall => some .ecall
  | .ebreak => some .ebreak
  | .invalid => none

theorem mnemonicOf_encoding (m : Mnemonic) :
    mnemonicOf (m.encoding.opcode == 0x13) m.encoding.op = some m := by
  cases m <;> rfl

theorem Insn.word_injective (hi : i.InRange) (hj : j.InRange) (h : i.word = j.word) : i = j := by
  have hd : i.decoded = j.decoded := by rw [← decode_word hi, ← decode_word hj, h]
  have hop : i.encoding.op = j.encoding.op := congrArg Decoded.op hd
  have hclass : i.encoding.opcode = j.encoding.opcode := by
    rw [← (word_carries hi).row.opcode, ← (word_carries hj).row.opcode, h]
  have hm : i.mnemonic = j.mnemonic := by
    rw [← Option.some_inj, ← mnemonicOf_encoding i.mnemonic, ← mnemonicOf_encoding j.mnemonic]
    exact congrArg₂ (fun o => mnemonicOf (o == 0x13)) hclass hop
  have hreg {x y : Word} (hx : x.toNat < 32) (hy : y.toNat < 32) (hxy : Fin.ofNat 32 x.toNat =
    Fin.ofNat 32 y.toNat) :
      x = y := by
    rw [Fin.ext_iff, Fin.val_ofNat, Fin.val_ofNat, Nat.mod_eq_of_lt hx, Nat.mod_eq_of_lt hy] at hxy
    exact BitVec.eq_of_toNat_eq hxy
  have hshift : (if i.encoding.format = .u then i.imm <<< 12 else i.imm) =
      if j.encoding.format = .u then j.imm <<< 12 else j.imm := congrArg Decoded.imm hd
  have himm : i.imm = j.imm := by
    rw [show j.encoding = i.encoding from congrArg Mnemonic.encoding hm.symm] at hshift
    split at hshift
    · next hu =>
      have hi20 : i.imm.toNat < 1048576 := by simpa [hu, ImmInRange] using hi.imm
      have hj20 : j.imm.toNat < 1048576 := by
        have hj' := hj.imm
        rw [show j.encoding = i.encoding from congrArg Mnemonic.encoding hm.symm, hu] at hj'
        exact hj'
      have hnat := congrArg BitVec.toNat hshift
      rw [BitVec.toNat_shiftLeft, BitVec.toNat_shiftLeft, Nat.shiftLeft_eq,
        Nat.shiftLeft_eq] at hnat
      exact BitVec.eq_of_toNat_eq (by omega)
    · exact hshift
  obtain ⟨m, rd, rs1, rs2, imm⟩ := i
  obtain ⟨m', rd', rs1', rs2', imm'⟩ := j
  rw [Insn.mk.injEq]
  exact ⟨hm, hreg hi.rd_lt hj.rd_lt (congrArg Decoded.rd hd),
    hreg hi.rs1_lt hj.rs1_lt (congrArg Decoded.rs1 hd),
    hreg hi.rs2_lt hj.rs2_lt (congrArg Decoded.rs2 hd), himm⟩

/-- Decoding an emitted word gives back the instruction, and no other instruction has that word. -/
theorem Insn.decode_undoes_word (i : Insn) (h : i.InRange) :
    decode i.word = i.decoded ∧ (usesImmediate (decode i.word) = true ↔ i.encoding.opcode = 0x13) ∧
      (i.mnemonic = .jal → jalTo i.rd i.imm = i.word) ∧ ∀ j : Insn, j.InRange → j.word = i.word →
        j = i := by
  refine ⟨decode_word h, ?_, fun hm => ?_, fun j hj hw => word_injective hj h hw⟩
  · rw [usesImmediate_iff, (word_carries h).row.opcode]
  · rw [jalTo_eq, word, hm]

theorem Insn.decode_undoes_word_bne :
    decode (Insn.word { mnemonic := .bne, rs1 := 5, rs2 := 6, imm := 0xFFFFFFF8 }) =
      Insn.decoded { mnemonic := .bne, rs1 := 5, rs2 := 6, imm := 0xFFFFFFF8 } :=
  (decode_undoes_word { mnemonic := .bne, rs1 := 5, rs2 := 6, imm := 0xFFFFFFF8 }
    ⟨by decide, by decide, by decide, by decide, by decide, by decide,
      ⟨by decide, by decide, by decide⟩⟩).1

end OooCpu.Asmc
