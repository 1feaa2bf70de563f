import OooCpu.Config
import Mathlib.Data.Fin.Basic
import Mathlib.Data.BitVec

/-! # One RV32IM instruction

Identifier types and their sentinels, operation kinds, the decoded form,
`decode`, and the pure execution semantics. The pipeline and the reference
interpreter both build on this file. -/
namespace OooCpu

abbrev Word := BitVec 32
abbrev ArchReg := Fin 32

/-- A number names a register modulo 32. -/
instance ArchReg.neZero : NeZero 32 := ⟨by decide⟩

def INVALID_ARCHREG : ℕ := 4294967295
def INVALID_PHYSREG : ℕ := 4294967295
def INVALID_ROBINDEX : ℕ := 4294967295
def INVALID_SEQNUM : ℕ := 4294967295
def INVALID_CHECKPOINT : ℕ := 4294967295

/-- Wrap-around of a 32-bit unsigned counter. -/
def u32 (n : ℕ) : ℕ := n % 4294967296

theorem u32_of_lt {n : ℕ} (h : n < 4294967296) : u32 n = n := Nat.mod_eq_of_lt h

/-- Wrap-around of a 64-bit unsigned counter. -/
def u64 (n : ℕ) : ℕ := n % 18446744073709551616

theorem u64_of_lt {n : ℕ} (h : n < 18446744073709551616) : u64 n = n := Nat.mod_eq_of_lt h

inductive OpKind
  | alu | branch | mul | div | load | store | nop | trap
  deriving DecidableEq, Repr

inductive Op
  | add | sub | sll | srl | sra | and | or | xor | slt | sltu
  | lui | auipc
  | mul | mulh | mulhsu | mulhu
  | div | divu | rem | remu
  | beq | bne | blt | bge | bltu | bgeu
  | jal | jalr
  | lb | lh | lw | lbu | lhu
  | sb | sh | sw
  | fence | fenceI
  | ecall | ebreak
  | invalid
  deriving DecidableEq, Repr

structure Decoded where
  raw : Word := 0
  op : Op := .add
  kind : OpKind := .alu
  rd : ArchReg := 0
  rs1 : ArchReg := 0
  rs2 : ArchReg := 0
  imm : Word := 0
  isBranch : Bool := false
  isLoad : Bool := false
  isStore : Bool := false
  writesRd : Bool := false
  deriving DecidableEq, Repr, Inhabited

def opcodeOf (x : Word) : Word := x &&& 0x7F
def funct3Of (x : Word) : Word := (x >>> 12) &&& 0x07
def funct7Of (x : Word) : Word := (x >>> 25) &&& 0x7F
def rdOf (x : Word) : ArchReg := Fin.ofNat 32 ((x >>> 7) &&& 0x1F).toNat
def rs1Of (x : Word) : ArchReg := Fin.ofNat 32 ((x >>> 15) &&& 0x1F).toNat
def rs2Of (x : Word) : ArchReg := Fin.ofNat 32 ((x >>> 20) &&& 0x1F).toNat

/-- Extends the low `bits` of `v` by the xor-and-subtract trick. -/
def sext (v : Word) (bits : ℕ) : Word :=
  let mask : Word := 1 <<< (bits - 1)
  (v ^^^ mask) - mask

def immI (x : Word) : Word := sext ((x >>> 20) &&& 0xFFF) 12
def immS (x : Word) : Word := sext ((((x >>> 25) &&& 0x7F) <<< 5) ||| ((x >>> 7) &&& 0x1F)) 12
def immB (x : Word) : Word :=
  sext ((((x >>> 31) &&& 0x01) <<< 12) ||| (((x >>> 7) &&& 0x01) <<< 11) |||
    (((x >>> 25) &&& 0x3F) <<< 5) ||| (((x >>> 8) &&& 0x0F) <<< 1)) 13
def immU (x : Word) : Word := x &&& 0xFFFFF000
def immJ (x : Word) : Word :=
  sext ((((x >>> 31) &&& 0x0001) <<< 20) ||| (((x >>> 12) &&& 0x00FF) <<< 12) |||
    (((x >>> 20) &&& 0x0001) <<< 11) ||| (((x >>> 21) &&& 0x03FF) <<< 1)) 21

def invalidOf (raw : Word) : Decoded := { raw := raw, op := .invalid, kind := .trap }

/-- The register fields every class starts from. -/
def fieldsOf (raw : Word) : Decoded :=
  { raw := raw, rd := rdOf raw, rs1 := rs1Of raw, rs2 := rs2Of raw }

/-- LUI and AUIPC. -/
def decodeUpper (op : Op) (raw : Word) : Decoded :=
  { fieldsOf raw with
    op := op, kind := .alu, imm := immU raw, rs1 := 0, rs2 := 0, writesRd := rdOf raw != 0 }

def decodeJal (raw : Word) : Decoded :=
  { fieldsOf raw with
    op := .jal, kind := .branch, imm := immJ raw, rs1 := 0, rs2 := 0, isBranch := true
    writesRd := rdOf raw != 0 }

def decodeJalr (raw : Word) : Decoded :=
  if funct3Of raw ≠ 0 then invalidOf raw
  else { fieldsOf raw with
    op := .jalr, kind := .branch, imm := immI raw, rs2 := 0, isBranch := true
    writesRd := rdOf raw != 0 }

def decodeBranch (raw : Word) : Decoded :=
  let d := { fieldsOf raw with imm := immB raw, kind := .branch, rd := 0, isBranch := true }
  let f3 := funct3Of raw
  if f3 = 0x0 then { d with op := .beq }
  else if f3 = 0x1 then { d with op := .bne }
  else if f3 = 0x4 then { d with op := .blt }
  else if f3 = 0x5 then { d with op := .bge }
  else if f3 = 0x6 then { d with op := .bltu }
  else if f3 = 0x7 then { d with op := .bgeu }
  else invalidOf raw

def decodeLoad (raw : Word) : Decoded :=
  let d := { fieldsOf raw with
    imm := immI raw, kind := .load, rs2 := 0, isLoad := true, writesRd := rdOf raw != 0 }
  let f3 := funct3Of raw
  if f3 = 0x0 then { d with op := .lb }
  else if f3 = 0x1 then { d with op := .lh }
  else if f3 = 0x2 then { d with op := .lw }
  else if f3 = 0x4 then { d with op := .lbu }
  else if f3 = 0x5 then { d with op := .lhu }
  else invalidOf raw

def decodeStore (raw : Word) : Decoded :=
  let d := { fieldsOf raw with imm := immS raw, kind := .store, rd := 0, isStore := true }
  let f3 := funct3Of raw
  if f3 = 0x0 then { d with op := .sb }
  else if f3 = 0x1 then { d with op := .sh }
  else if f3 = 0x2 then { d with op := .sw }
  else invalidOf raw

/-- ALU operations with an immediate; shifts keep their amount in the rs2 field. -/
def decodeOpImm (raw : Word) : Decoded :=
  let d := { fieldsOf raw with imm := immI raw, kind := .alu, rs2 := 0, writesRd := rdOf raw != 0 }
  let shamt := BitVec.ofNat 32 (rs2Of raw).val
  let f3 := funct3Of raw
  let f7 := funct7Of raw
  if f3 = 0x0 then { d with op := .add }
  else if f3 = 0x2 then { d with op := .slt }
  else if f3 = 0x3 then { d with op := .sltu }
  else if f3 = 0x4 then { d with op := .xor }
  else if f3 = 0x6 then { d with op := .or }
  else if f3 = 0x7 then { d with op := .and }
  else if f3 = 0x1 then
    if f7 &&& 0x7E ≠ 0 then invalidOf raw else { d with op := .sll, imm := shamt }
  else if f3 = 0x5 then
    if f7 &&& 0x5F ≠ 0 then invalidOf raw
    else { d with op := if f7 &&& 0x20 ≠ 0 then .sra else .srl, imm := shamt }
  else invalidOf raw

/-- The whole M extension. -/
def decodeMulDiv (raw : Word) : Decoded :=
  let d := { fieldsOf raw with kind := .alu, imm := 0, writesRd := rdOf raw != 0 }
  let f3 := funct3Of raw
  if f3 = 0x0 then { d with op := .mul, kind := .mul }
  else if f3 = 0x1 then { d with op := .mulh, kind := .mul }
  else if f3 = 0x2 then { d with op := .mulhsu, kind := .mul }
  else if f3 = 0x3 then { d with op := .mulhu, kind := .mul }
  else if f3 = 0x4 then { d with op := .div, kind := .div }
  else if f3 = 0x5 then { d with op := .divu, kind := .div }
  else if f3 = 0x6 then { d with op := .rem, kind := .div }
  else if f3 = 0x7 then { d with op := .remu, kind := .div }
  else invalidOf raw

def decodeOp (raw : Word) : Decoded :=
  let d := { fieldsOf raw with kind := .alu, imm := 0, writesRd := rdOf raw != 0 }
  let f3 := funct3Of raw
  let f7 := funct7Of raw
  if f7 = 0x01 then decodeMulDiv raw
  else if f7 = 0x00 then
    if f3 = 0x0 then { d with op := .add }
    else if f3 = 0x1 then { d with op := .sll }
    else if f3 = 0x2 then { d with op := .slt }
    else if f3 = 0x3 then { d with op := .sltu }
    else if f3 = 0x4 then { d with op := .xor }
    else if f3 = 0x5 then { d with op := .srl }
    else if f3 = 0x6 then { d with op := .or }
    else if f3 = 0x7 then { d with op := .and }
    else invalidOf raw
  else if f7 = 0x20 then
    if f3 = 0x0 then { d with op := .sub }
    else if f3 = 0x5 then { d with op := .sra }
    else invalidOf raw
  else invalidOf raw

/-- FENCE and FENCE.I retire as no-ops. -/
def decodeMiscMem (raw : Word) : Decoded :=
  let d := { fieldsOf raw with kind := .nop, rd := 0, rs1 := 0, rs2 := 0, imm := 0 }
  let f3 := funct3Of raw
  if f3 = 0x0 then { d with op := .fence }
  else if f3 = 0x1 then { d with op := .fenceI }
  else invalidOf raw

def decodeSystem (raw : Word) : Decoded :=
  let d := { fieldsOf raw with kind := .trap, rd := 0, rs1 := 0, rs2 := 0, imm := 0 }
  let imm12 := (raw >>> 20) &&& 0xFFF
  if funct3Of raw = 0 then
    if imm12 = 0 then { d with op := .ecall }
    else if imm12 = 1 then { d with op := .ebreak }
    else invalidOf raw
  else invalidOf raw

/-- Decode one RV32IM instruction; an unknown encoding becomes a trap. -/
def decode (raw : Word) : Decoded :=
  if opcodeOf raw = 0x37 then decodeUpper .lui raw
  else if opcodeOf raw = 0x17 then decodeUpper .auipc raw
  else if opcodeOf raw = 0x6F then decodeJal raw
  else if opcodeOf raw = 0x67 then decodeJalr raw
  else if opcodeOf raw = 0x63 then decodeBranch raw
  else if opcodeOf raw = 0x03 then decodeLoad raw
  else if opcodeOf raw = 0x23 then decodeStore raw
  else if opcodeOf raw = 0x13 then decodeOpImm raw
  else if opcodeOf raw = 0x33 then decodeOp raw
  else if opcodeOf raw = 0x0F then decodeMiscMem raw
  else if opcodeOf raw = 0x73 then decodeSystem raw
  else invalidOf raw

/-- OP-IMM is the only class that takes its second operand from the immediate. -/
def usesImmediate (d : Decoded) : Bool := d.raw &&& 0x7F = 0x13

namespace Alu

def add (a b : Word) : Word := a + b
def sub (a b : Word) : Word := a - b
def sll (a b : Word) : Word := a <<< (b &&& 0x1F).toNat
def srl (a b : Word) : Word := a >>> (b &&& 0x1F).toNat

/-- Arithmetic shift with the sign bits filled in explicitly. -/
def sra (a b : Word) : Word :=
  let sh := (b &&& 0x1F).toNat
  if sh = 0 then a
  else
    let signFill : Word := if a &&& 0x80000000 ≠ 0 then (~~~0 : Word) <<< (32 - sh) else 0
    (a >>> sh) ||| signFill

def and_ (a b : Word) : Word := a &&& b
def or_ (a b : Word) : Word := a ||| b
def xor_ (a b : Word) : Word := a ^^^ b
def slt (a b : Word) : Word := if a.slt b then 1 else 0
def sltu (a b : Word) : Word := if a.ult b then 1 else 0

def beq (a b : Word) : Bool := a == b
def bne (a b : Word) : Bool := a != b
def blt (a b : Word) : Bool := a.slt b
def bge (a b : Word) : Bool := !a.slt b
def bltu (a b : Word) : Bool := a.ult b
def bgeu (a b : Word) : Bool := !a.ult b

def branchTaken (op : Op) (a b : Word) : Bool :=
  match op with
  | .beq => beq a b
  | .bne => bne a b
  | .blt => blt a b
  | .bge => bge a b
  | .bltu => bltu a b
  | .bgeu => bgeu a b
  | _ => false

def branchTarget (pc imm : Word) : Word := pc + imm
def jalrTarget (rs1 imm : Word) : Word := (rs1 + imm) &&& ~~~1
def linkAddress (pc : Word) : Word := pc + 4

def mul (a b : Word) : Word := a * b
def mulh (a b : Word) : Word :=
  let p : BitVec 64 := a.signExtend 64 * b.signExtend 64
  (p >>> 32).setWidth 32
def mulhu (a b : Word) : Word :=
  let p : BitVec 64 := a.setWidth 64 * b.setWidth 64
  (p >>> 32).setWidth 32
def mulhsu (a b : Word) : Word :=
  let p : BitVec 64 := a.signExtend 64 * b.setWidth 64
  (p >>> 32).setWidth 32

def div (a b : Word) : Word :=
  if b = 0 then 0xFFFFFFFF
  else if a = 0x80000000 ∧ b = 0xFFFFFFFF then a
  else a.sdiv b
def divu (a b : Word) : Word := if b = 0 then 0xFFFFFFFF else a / b
def rem (a b : Word) : Word :=
  if b = 0 then a
  else if a = 0x80000000 ∧ b = 0xFFFFFFFF then 0
  else a.srem b
def remu (a b : Word) : Word := if b = 0 then a else a % b

end Alu

end OooCpu
