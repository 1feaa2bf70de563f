import OooCpu.Fixups
import OooCpu.Ref

/-! # Loading a constant

What `li` emits where its signed arithmetic is defined, and that the reference
interpreter then leaves the constant in the register.
-/
namespace OooCpu

namespace Ref

/-- A state that executes: `x0` is zero and no trap has been taken. -/
structure Result.Running (st : Result) : Prop where
  zero : st.regs 0 = 0
  live : st.done = false

/-- The words stand in memory from `pc` on. -/
def Placed (mem : Memory) : Word → List Word → Prop
  | _, [] => True
  | pc, w :: ws => mem.loadU32 pc = w ∧ Placed mem (pc + 4) ws

/-- One register written and the next instruction. -/
def Result.written (st : Result) (rd : ArchReg) (v : Word) : Result :=
  { st with regs := fun r => if r = rd then v else st.regs r, pc := st.pc + 4, retired := st.retired + 1 }

variable {mem : Memory} {st : Result} {rd : ArchReg}

@[simp] theorem Result.written_self (st : Result) (rd : ArchReg) (v : Word) :
    (st.written rd v).regs rd = v := if_pos rfl

theorem Result.Running.written (h : st.Running) (hrd : rd ≠ 0) (v : Word) :
    (st.written rd v).Running :=
  ⟨(if_neg (Ne.symm hrd)).trans h.zero, h.live⟩

/-- An instruction that only computes a result writes it to its register and goes on. -/
theorem step_written (h : st.Running) (hrd : rd ≠ 0) {d : Decoded} {v : Word}
    (hd : decode (mem.loadU32 st.pc) = d)
    (he : execute mem st d = ⟨st.pc + 4, some v, mem, st.exitCode, st.halted, st.trapped⟩)
    (hw : d.writesRd = true)
    (hdrd : d.rd = rd) :
    step mem st = (mem, st.written rd v) := by
  have hlive : (st.halted || st.trapped) = false := h.live
  have hregs : (fun r => if r = 0 then 0 else if d.writesRd = true ∧ r = d.rd then v
    else st.regs r) =
      fun r => if r = rd then v else st.regs r := by
    funext r
    by_cases h0 : r = 0
    · rw [if_pos h0, h0, if_neg (Ne.symm hrd), h.zero]
    · rw [if_neg h0]
      simp only [hw, hdrd, true_and]
  simp only [step, hd, he, hregs, hlive]
  rfl

end Ref

namespace Asmc
open Ref
variable {mem : Memory} {st : Result} {rd : ArchReg} {imm : Word}

theorem reg_lt (r : ArchReg) : (BitVec.ofNat 32 r : Word).toNat < 32 := by
  rw [BitVec.toNat_ofNat]
  omega

theorem reg_ofNat (r : ArchReg) : Fin.ofNat 32 (BitVec.ofNat 32 r : Word).toNat = r := by
  apply Fin.ext
  rw [Fin.val_ofNat, BitVec.toNat_ofNat]
  omega

theorem reg_ne_zero (h : rd ≠ 0) : ((BitVec.ofNat 32 rd : Word) != 0) = true := by
  rw [bne_iff_ne]
  intro h0
  apply h
  rw [← reg_ofNat rd, h0]
  rfl

theorem step_lui (h : st.Running) (hrd : rd ≠ 0) (himm : imm.toNat < 1048576)
    (hw : mem.loadU32 st.pc = Insn.word { mnemonic := .lui, rd := .ofNat 32 rd, imm := imm }) :
    step mem st = (mem, st.written rd (imm <<< 12)) := by
  have hrange : Insn.InRange { mnemonic := .lui, rd := .ofNat 32 rd, imm := imm } :=
    ⟨reg_lt rd, Nat.zero_lt_succ _, Nat.zero_lt_succ _, nofun, fun _ => rfl, fun _ => rfl, himm⟩
  have hd := Insn.decode_word hrange
  rw [← hw] at hd
  exact step_written h hrd hd rfl (reg_ne_zero hrd) (reg_ofNat rd)

theorem step_addi (rs1 : ArchReg) (h : st.Running) (hrd : rd ≠ 0) (himm : -2048 ≤ imm.toInt ∧ imm.toInt < 2048)
    (hw : mem.loadU32 st.pc = Insn.word { mnemonic := .addi, rd := .ofNat 32 rd, rs1 := .ofNat 32 rs1, imm := imm }) :
    step mem st = (mem, st.written rd (st.regs rs1 + imm)) := by
  have hrange : Insn.InRange { mnemonic := .addi, rd := .ofNat 32 rd, rs1 := .ofNat 32 rs1, imm := imm } :=
    ⟨reg_lt rd, reg_lt rs1, Nat.zero_lt_succ _, nofun, nofun, fun _ => rfl, himm⟩
  have hd := Insn.decode_word hrange
  have himmediate : usesImmediate (decode (mem.loadU32 st.pc)) = true := by
    rw [usesImmediate_iff, hw, (Insn.word_carries hrange).row.opcode]
    rfl
  rw [← hw] at hd
  rw [hd] at himmediate
  refine step_written h hrd hd ?_ (reg_ne_zero hrd) (reg_ofNat rd)
  have hrs1 : st.regs (Fin.ofNat 32 (BitVec.ofNat 32 rs1 : Word).toNat) = st.regs rs1 := by
    rw [reg_ofNat]
  rw [← hrs1]
  change Effect.mk _ (some (st.regs _ + if usesImmediate _ then imm else _)) _ _ _ _ = _
  rw [if_pos himmediate]
  rfl

/-- The instructions of `li`, if the subtraction of its split is defined. -/
def Checked.li (rd imm : Word) : Option (List Insn) :=
  if -2048 ≤ imm.toInt ∧
    imm.toInt ≤ 2047 then some [{ mnemonic := .addi, rd := rd, rs1 := 0, imm := imm }]
  else
    let hi := (imm + 0x800) >>> 12
    let hi20 := hi &&& 0xFFFFF
    (Signed.sub imm (hi20 <<< 12)).map fun lo12 =>
      [{ mnemonic := .lui, rd := rd, imm := hi20 },
        { mnemonic := .addi, rd := rd, rs1 := rd, imm := lo12 }]

/-- The effect of executing `n` instructions. -/
def stepped (n : ℕ) (mem : Memory) (st : Result) : Memory × Result :=
  (fun s => step s.1 s.2)^[n] (mem, st)

/-- `li rd, imm` stays within its types, and its words leave `imm` in `rd` and every other register
alone, wherever they stand and whatever the state. -/
def LoadsConstant (rd : ArchReg) (imm : Word) : Prop :=
  ∃ insns, Checked.li (.ofNat 32 rd) imm = some insns ∧
    li (.ofNat 32 rd) imm = insns.map Insn.word ∧
      (∀ i ∈ insns, i.mnemonic = .addi → -2048 ≤ i.imm.toInt ∧ i.imm.toInt ≤ 2047) ∧
    ∀ mem st, Result.Running st → Placed mem st.pc (insns.map Insn.word) →
      (stepped insns.length mem st).2.regs = fun r => if r = rd then imm else st.regs r

theorem li_hi20 (imm : Word) : (imm + 0x800) >>> 12 &&& 0xFFFFF = callHi20 imm := by
  change callHi20 imm &&& 0xFFFFF = callHi20 imm
  apply BitVec.eq_of_toNat_eq
  rw [BitVec.toNat_and]
  exact (Nat.and_two_pow_sub_one_eq_mod _ 20).trans (Nat.mod_eq_of_lt (callHi20_lt imm))

theorem loadsConstant_small (hrd : rd ≠ 0) (himm : -2048 ≤ imm.toInt ∧ imm.toInt ≤ 2047) :
    LoadsConstant rd imm := by
  refine ⟨_, if_pos himm, ?_, ?_, ?_⟩
  · rw [li, if_pos himm]
    rfl
  · intro i hi _
    obtain rfl := List.mem_singleton.mp hi
    exact himm
  · rintro mem st h ⟨hw, -⟩
    have hstep := step_addi 0 h hrd ⟨himm.1, by omega⟩ hw
    have hsum : st.regs 0 + imm = imm := by
      rw [h.zero]
      exact BitVec.zero_add imm
    change (step mem st).2.regs = _
    rw [hstep, hsum]
    rfl

theorem loadsConstant_large (hrd : rd ≠ 0) (hlarge : ¬(-2048 ≤ imm.toInt ∧ imm.toInt ≤ 2047))
    (hlt : imm.toInt < 2147481600) : LoadsConstant rd imm := by
  have hsub := callLo12_exact hlt
  have hrange := callLo12_range imm
  refine ⟨[{ mnemonic := .lui, rd := .ofNat 32 rd, imm := callHi20 imm },
    { mnemonic := .addi, rd := .ofNat 32 rd, rs1 := .ofNat 32 rd, imm := callLo12 imm }], ?_, ?_,
    ?_, ?_⟩
  · rw [Checked.li, if_neg hlarge]
    simp only [li_hi20, hsub, Option.map_some]
  · rw [li, if_neg hlarge]
    simp only [li_hi20]
    rfl
  · intro i hi haddi
    rcases List.mem_pair.mp hi with rfl | rfl
    · exact nomatch haddi
    · exact ⟨hrange.1, by simp only; omega⟩
  · rintro mem st h ⟨hw, hw', -⟩
    have hlui := step_lui h hrd (callHi20_lt imm) hw
    have haddi := step_addi rd (h.written hrd (callHi20 imm <<< 12)) hrd hrange hw'
    have hsum : (st.written rd (callHi20 imm <<< 12)).regs rd + callLo12 imm = imm := by
      rw [Result.written_self, callHi20_add]
    change (step (step mem st).1 (step mem st).2).2.regs = _
    rw [hlui, haddi, hsum]
    funext r
    by_cases hr : r = rd
    · simp only [Result.written, if_pos hr]
    · simp only [Result.written, if_neg hr]

/-- `li` loads the constants below the band in which its rounding carries into the sign bit. -/
theorem loadsConstant_iff (rd : ArchReg) (hrd : rd ≠ 0) (imm : Word) :
    LoadsConstant rd imm ↔ imm.toInt < 2147481600 := by
  constructor
  · rintro ⟨insns, hli, -⟩
    by_contra hge
    have hlarge : ¬(-2048 ≤ imm.toInt ∧ imm.toInt ≤ 2047) := by omega
    rw [Checked.li, if_neg hlarge] at hli
    simp only [li_hi20] at hli
    obtain ⟨lo, hlo, -⟩ := Option.map_eq_some_iff.mp hli
    exact hge ((callSplit_fits_iff imm).mp (Signed.ofExact_eq_some_iff.mp hlo).1)
  · intro hlt
    by_cases hsmall : -2048 ≤ imm.toInt ∧ imm.toInt ≤ 2047
    · exact loadsConstant_small hrd hsmall
    · exact loadsConstant_large hrd hsmall hlt

theorem loadsConstant_iff_carrying :
    LoadsConstant 5 0x12345800 ↔ (0x12345800 : Word).toInt < 2147481600 :=
  loadsConstant_iff 5 (by decide) 0x12345800

/-- The largest constant is not loaded: its split overflows. -/
theorem max_not_loaded : ¬LoadsConstant 5 0x7FFFFFFF := by
  rintro ⟨insns, hli, -⟩
  exact nomatch hli

end Asmc

end OooCpu
