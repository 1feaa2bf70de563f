import OooCpu.Memory

/-! # The in-order reference interpreter

One instruction at a time, no pipeline and no speculation. It shares `decode` and
the arithmetic primitives with the pipeline; the sequencing is its own. -/
namespace OooCpu.Ref

def SYS_EXIT : Word := 93
def REG_A0 : ArchReg := 10
def REG_A7 : ArchReg := 17

structure Result where
  regs : ArchReg → Word := fun _ => 0
  pc : Word := 0
  exitCode : Word := 0
  retired : ℕ := 0
  halted : Bool := false
  trapped : Bool := false

def Result.done (r : Result) : Bool := r.halted || r.trapped

/-- What the switch over the opcode computes. -/
structure Effect where
  nextPc : Word
  result : Option Word := none
  mem : Memory
  exitCode : Word
  halted : Bool
  trapped : Bool

/-- The switch over the opcode. -/
def execute (mem : Memory) (st : Result) (d : Decoded) : Effect :=
  let pc := st.pc
  let rs1 := st.regs d.rs1
  let rs2 := st.regs d.rs2
  let imm := d.imm
  let opb := if usesImmediate d then imm else rs2
  let e : Effect :=
    { nextPc := pc + 4, mem := mem, exitCode := st.exitCode, halted := st.halted,
      trapped := st.trapped }
  match d.op with
  | .add => { e with result := some (Alu.add rs1 opb) }
  | .sub => { e with result := some (Alu.sub rs1 rs2) }
  | .sll => { e with result := some (Alu.sll rs1 opb) }
  | .srl => { e with result := some (Alu.srl rs1 opb) }
  | .sra => { e with result := some (Alu.sra rs1 opb) }
  | .and => { e with result := some (Alu.and_ rs1 opb) }
  | .or => { e with result := some (Alu.or_ rs1 opb) }
  | .xor => { e with result := some (Alu.xor_ rs1 opb) }
  | .slt => { e with result := some (Alu.slt rs1 opb) }
  | .sltu => { e with result := some (Alu.sltu rs1 opb) }
  | .lui => { e with result := some imm }
  | .auipc => { e with result := some (pc + imm) }
  | .mul => { e with result := some (Alu.mul rs1 rs2) }
  | .mulh => { e with result := some (Alu.mulh rs1 rs2) }
  | .mulhsu => { e with result := some (Alu.mulhsu rs1 rs2) }
  | .mulhu => { e with result := some (Alu.mulhu rs1 rs2) }
  | .div => { e with result := some (Alu.div rs1 rs2) }
  | .divu => { e with result := some (Alu.divu rs1 rs2) }
  | .rem => { e with result := some (Alu.rem rs1 rs2) }
  | .remu => { e with result := some (Alu.remu rs1 rs2) }
  | .beq => { e with nextPc := if Alu.beq rs1 rs2 then pc + imm else pc + 4 }
  | .bne => { e with nextPc := if Alu.bne rs1 rs2 then pc + imm else pc + 4 }
  | .blt => { e with nextPc := if Alu.blt rs1 rs2 then pc + imm else pc + 4 }
  | .bge => { e with nextPc := if Alu.bge rs1 rs2 then pc + imm else pc + 4 }
  | .bltu => { e with nextPc := if Alu.bltu rs1 rs2 then pc + imm else pc + 4 }
  | .bgeu => { e with nextPc := if Alu.bgeu rs1 rs2 then pc + imm else pc + 4 }
  | .jal => { e with result := some (pc + 4), nextPc := pc + imm }
  | .jalr => { e with result := some (pc + 4), nextPc := (rs1 + imm) &&& ~~~1 }
  | .lb => { e with result := some ((mem.loadU8 (rs1 + imm)).signExtend 32) }
  | .lh => { e with result := some ((mem.loadU16 (rs1 + imm)).signExtend 32) }
  | .lw => { e with result := some (mem.loadU32 (rs1 + imm)) }
  | .lbu => { e with result := some ((mem.loadU8 (rs1 + imm)).setWidth 32) }
  | .lhu => { e with result := some ((mem.loadU16 (rs1 + imm)).setWidth 32) }
  | .sb => { e with mem := mem.storeU8 (rs1 + imm) (rs2.setWidth 8) }
  | .sh => { e with mem := mem.storeU16 (rs1 + imm) (rs2.setWidth 16) }
  | .sw => { e with mem := mem.storeU32 (rs1 + imm) rs2 }
  | .fence | .fenceI => e
  | .ecall =>
    if st.regs REG_A7 = SYS_EXIT then { e with exitCode := st.regs REG_A0, halted := true }
    else { e with trapped := true }
  | .ebreak | .invalid => { e with trapped := true }

/-- Execute one instruction; `x0` is hardwired. -/
def step (mem : Memory) (st : Result) : Memory × Result :=
  let d := decode (mem.loadU32 st.pc)
  let e := execute mem st d
  (e.mem,
    { regs := fun r =>
        if r = 0 then 0
        else match e.result with
          | some v => if d.writesRd ∧ r = d.rd then v else st.regs r
          | none => st.regs r
      pc := if e.halted || e.trapped then st.pc else e.nextPc
      exitCode := e.exitCode
      retired := st.retired + 1
      halted := e.halted
      trapped := e.trapped })

/-- `n` steps from an image and an entry point. -/
def steps (mem : Memory) (entryPc : Word) : ℕ → Memory × Result
  | 0 => (mem, { pc := entryPc })
  | n + 1 => step (steps mem entryPc n).1 (steps mem entryPc n).2

end OooCpu.Ref
