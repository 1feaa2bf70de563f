import OooCpu.DecodeShape

/-! # The RV32IM encodings

The instruction table, row by row, and exactly which words `decode` accepts. -/
namespace OooCpu

/-- Every instruction of RV32I and M, with both fences. -/
inductive Mnemonic
  | lui | auipc
  | jal | jalr
  | beq | bne | blt | bge | bltu | bgeu
  | lb | lh | lw | lbu | lhu
  | sb | sh | sw
  | addi | slti | sltiu | xori | ori | andi
  | slli | srli | srai
  | add | sub | sll | slt | sltu | xor | srl | sra | or | and
  | mul | mulh | mulhsu | mulhu | div | divu | rem | remu
  | fence | fenceI
  | ecall | ebreak
  deriving DecidableEq, Repr

inductive Format
  | r | i | shift | s | b | u | j | bare
  deriving DecidableEq, Repr

namespace Format

def hasRd : Format → Bool
  | .r | .i | .shift | .u | .j => true
  | _ => false

def hasRs1 : Format → Bool
  | .r | .i | .shift | .s | .b => true
  | _ => false

def hasRs2 : Format → Bool
  | .r | .s | .b => true
  | _ => false

def imm : Format → Word → Word
  | .i, w => immI w
  | .shift, w => BitVec.ofNat 32 (rs2Of w).val
  | .s, w => immS w
  | .b, w => immB w
  | .u, w => immU w
  | .j, w => immJ w
  | _, _ => 0

end Format

/-- One row of the table: the fields an instruction fixes. -/
structure Encoding where
  op : Op
  format : Format
  opcode : BitVec 7
  funct3 : Option (BitVec 3) := none
  funct7 : Option (BitVec 7) := none
  word : Option Word := none

def Mnemonic.encoding : Mnemonic → Encoding
  | .lui => { op := .lui, format := .u, opcode := 0x37 }
  | .auipc => { op := .auipc, format := .u, opcode := 0x17 }
  | .jal => { op := .jal, format := .j, opcode := 0x6F }
  | .jalr => { op := .jalr, format := .i, opcode := 0x67, funct3 := some 0x0 }
  | .beq => { op := .beq, format := .b, opcode := 0x63, funct3 := some 0x0 }
  | .bne => { op := .bne, format := .b, opcode := 0x63, funct3 := some 0x1 }
  | .blt => { op := .blt, format := .b, opcode := 0x63, funct3 := some 0x4 }
  | .bge => { op := .bge, format := .b, opcode := 0x63, funct3 := some 0x5 }
  | .bltu => { op := .bltu, format := .b, opcode := 0x63, funct3 := some 0x6 }
  | .bgeu => { op := .bgeu, format := .b, opcode := 0x63, funct3 := some 0x7 }
  | .lb => { op := .lb, format := .i, opcode := 0x03, funct3 := some 0x0 }
  | .lh => { op := .lh, format := .i, opcode := 0x03, funct3 := some 0x1 }
  | .lw => { op := .lw, format := .i, opcode := 0x03, funct3 := some 0x2 }
  | .lbu => { op := .lbu, format := .i, opcode := 0x03, funct3 := some 0x4 }
  | .lhu => { op := .lhu, format := .i, opcode := 0x03, funct3 := some 0x5 }
  | .sb => { op := .sb, format := .s, opcode := 0x23, funct3 := some 0x0 }
  | .sh => { op := .sh, format := .s, opcode := 0x23, funct3 := some 0x1 }
  | .sw => { op := .sw, format := .s, opcode := 0x23, funct3 := some 0x2 }
  | .addi => { op := .add, format := .i, opcode := 0x13, funct3 := some 0x0 }
  | .slti => { op := .slt, format := .i, opcode := 0x13, funct3 := some 0x2 }
  | .sltiu => { op := .sltu, format := .i, opcode := 0x13, funct3 := some 0x3 }
  | .xori => { op := .xor, format := .i, opcode := 0x13, funct3 := some 0x4 }
  | .ori => { op := .or, format := .i, opcode := 0x13, funct3 := some 0x6 }
  | .andi => { op := .and, format := .i, opcode := 0x13, funct3 := some 0x7 }
  | .slli => { op := .sll, format := .shift, opcode := 0x13, funct3 := some 0x1, funct7 := some 0x00 }
  | .srli => { op := .srl, format := .shift, opcode := 0x13, funct3 := some 0x5, funct7 := some 0x00 }
  | .srai => { op := .sra, format := .shift, opcode := 0x13, funct3 := some 0x5, funct7 := some 0x20 }
  | .add => { op := .add, format := .r, opcode := 0x33, funct3 := some 0x0, funct7 := some 0x00 }
  | .sub => { op := .sub, format := .r, opcode := 0x33, funct3 := some 0x0, funct7 := some 0x20 }
  | .sll => { op := .sll, format := .r, opcode := 0x33, funct3 := some 0x1, funct7 := some 0x00 }
  | .slt => { op := .slt, format := .r, opcode := 0x33, funct3 := some 0x2, funct7 := some 0x00 }
  | .sltu => { op := .sltu, format := .r, opcode := 0x33, funct3 := some 0x3, funct7 := some 0x00 }
  | .xor => { op := .xor, format := .r, opcode := 0x33, funct3 := some 0x4, funct7 := some 0x00 }
  | .srl => { op := .srl, format := .r, opcode := 0x33, funct3 := some 0x5, funct7 := some 0x00 }
  | .sra => { op := .sra, format := .r, opcode := 0x33, funct3 := some 0x5, funct7 := some 0x20 }
  | .or => { op := .or, format := .r, opcode := 0x33, funct3 := some 0x6, funct7 := some 0x00 }
  | .and => { op := .and, format := .r, opcode := 0x33, funct3 := some 0x7, funct7 := some 0x00 }
  | .mul => { op := .mul, format := .r, opcode := 0x33, funct3 := some 0x0, funct7 := some 0x01 }
  | .mulh => { op := .mulh, format := .r, opcode := 0x33, funct3 := some 0x1, funct7 := some 0x01 }
  | .mulhsu => { op := .mulhsu, format := .r, opcode := 0x33, funct3 := some 0x2, funct7 := some 0x01 }
  | .mulhu => { op := .mulhu, format := .r, opcode := 0x33, funct3 := some 0x3, funct7 := some 0x01 }
  | .div => { op := .div, format := .r, opcode := 0x33, funct3 := some 0x4, funct7 := some 0x01 }
  | .divu => { op := .divu, format := .r, opcode := 0x33, funct3 := some 0x5, funct7 := some 0x01 }
  | .rem => { op := .rem, format := .r, opcode := 0x33, funct3 := some 0x6, funct7 := some 0x01 }
  | .remu => { op := .remu, format := .r, opcode := 0x33, funct3 := some 0x7, funct7 := some 0x01 }
  | .fence => { op := .fence, format := .bare, opcode := 0x0F, funct3 := some 0x0 }
  | .fenceI => { op := .fenceI, format := .bare, opcode := 0x0F, funct3 := some 0x1 }
  | .ecall => { op := .ecall, format := .bare, opcode := 0x73, word := some 0x00000073 }
  | .ebreak => { op := .ebreak, format := .bare, opcode := 0x73, word := some 0x00100073 }

namespace Encoding

/-- The word has the row's fields where the manual places them. -/
structure Matches (e : Encoding) (w : Word) : Prop where
  opcode : w.extractLsb' 0 7 = e.opcode
  funct3 : ∀ f ∈ e.funct3, w.extractLsb' 12 3 = f
  funct7 : ∀ f ∈ e.funct7, w.extractLsb' 25 7 = f
  word : ∀ v ∈ e.word, w = v

/-- What a word of this row means. -/
def decoded (e : Encoding) (w : Word) : Decoded where
  raw := w
  op := e.op
  kind := e.op.kind
  rd := if e.format.hasRd then rdOf w else 0
  rs1 := if e.format.hasRs1 then rs1Of w else 0
  rs2 := if e.format.hasRs2 then rs2Of w else 0
  imm := e.format.imm w
  isBranch := e.op.kind == .branch
  isLoad := e.op.kind == .load
  isStore := e.op.kind == .store
  writesRd := e.op.producesResult && e.format.hasRd && rdOf w != 0

end Encoding

/-- The manual assigns the word to an instruction. -/
def Assigned (w : Word) : Prop := ∃ m : Mnemonic, m.encoding.Matches w

variable {w : Word}

theorem shift_and_mask (w : Word) (k : ℕ) {n : ℕ} (hn : n ≤ 32) {mask : Word}
    (hm : mask.toNat = 2 ^ n - 1) : (w >>> k) &&& mask = (w.extractLsb' k n).setWidth 32 := by
  have hpow : 2 ^ n ≤ 2 ^ 32 := Nat.pow_le_pow_right (by omega) hn
  have hlt : (w.toNat >>> k) % 2 ^ n < 2 ^ 32 := (Nat.mod_lt _ (Nat.two_pow_pos n)).trans_le hpow
  apply BitVec.eq_of_toNat_eq
  rw [BitVec.toNat_and, BitVec.toNat_ushiftRight, hm, Nat.and_two_pow_sub_one_eq_mod,
    BitVec.toNat_setWidth, BitVec.extractLsb'_toNat, Nat.mod_eq_of_lt hlt]

theorem opcodeOf_eq (w : Word) : opcodeOf w = (w.extractLsb' 0 7).setWidth 32 := by
  rw [← shift_and_mask w 0 (by decide) (show (0x7F : Word).toNat = 2 ^ 7 - 1 from rfl),
    BitVec.ushiftRight_zero]
  rfl

theorem funct3Of_eq (w : Word) : funct3Of w = (w.extractLsb' 12 3).setWidth 32 :=
  shift_and_mask w 12 (by decide) rfl

theorem funct7Of_eq (w : Word) : funct7Of w = (w.extractLsb' 25 7).setWidth 32 :=
  shift_and_mask w 25 (by decide) rfl

/-- A word of the table decodes to its row. -/
theorem decode_of_matches (m : Mnemonic) (h : m.encoding.Matches w) :
    decode w = m.encoding.decoded w := by
  obtain ⟨ho, h3, h7, hw⟩ := h
  cases m <;> simp [Mnemonic.encoding] at ho h3 h7 hw
  all_goals try subst hw
  all_goals
    simp [decode, decodeUpper, decodeJal, decodeJalr, decodeBranch, decodeLoad, decodeStore,
      decodeOpImm, decodeOp, decodeMulDiv, decodeMiscMem, decodeSystem, fieldsOf, opcodeOf_eq, ho,
      funct3Of_eq, h3, funct7Of_eq, h7, Encoding.decoded, Mnemonic.encoding, Op.kind,
      Op.producesResult, Format.hasRd, Format.hasRs1, Format.hasRs2, Format.imm]

theorem Mnemonic.encoding_valid (m : Mnemonic) : m.encoding.op ≠ .invalid := by cases m <;> decide

/-- The mask on a left shift's funct7 misses its lowest bit. -/
def SlipsShift (w : Word) : Prop :=
  w.extractLsb' 0 7 = 0x13 ∧ w.extractLsb' 12 3 = 0x1 ∧ w.extractLsb' 25 7 = 0x01

/-- A SYSTEM word is told by its immediate alone. -/
def SlipsSystem (w : Word) : Prop :=
  w.extractLsb' 0 7 = 0x73 ∧ w.extractLsb' 12 3 = 0x0 ∧
    (w.extractLsb' 20 12 = 0x0 ∨ w.extractLsb' 20 12 = 0x1) ∧
      (w.extractLsb' 7 5 ≠ 0 ∨ w.extractLsb' 15 5 ≠ 0)

/-- The word is taken for an instruction only when the manual assigns it one, and is a trap
otherwise. -/
structure Judged (w : Word) : Prop where
  accepts : Assigned w ↔ (decode w).op ≠ .invalid
  rejects : ¬Assigned w → decode w = invalidOf w

theorem slipsShift_decode (h : SlipsShift w) : decode w = Mnemonic.slli.encoding.decoded w := by
  obtain ⟨ho, h3, h7⟩ := h
  simp [decode, decodeOpImm, fieldsOf, opcodeOf_eq, ho, funct3Of_eq, h3, funct7Of_eq, h7,
    Encoding.decoded, Mnemonic.encoding, Op.kind, Op.producesResult, Format.hasRd, Format.hasRs1,
    Format.hasRs2, Format.imm]

theorem slipsShift_accepted (h : SlipsShift w) : (decode w).op = .sll ∧ ¬Assigned w := by
  constructor
  · rw [slipsShift_decode h]
    rfl
  · obtain ⟨ho, h3, h7⟩ := h
    rintro ⟨m, ho', h3', h7', -⟩
    cases m <;> simp [Mnemonic.encoding, ho, h3, h7] at ho' h3' h7'

theorem imm12_eq (w : Word) : (w >>> 20) &&& 0xFFF#32 = (w.extractLsb' 20 12).setWidth 32 :=
  shift_and_mask w 20 (by decide) rfl

theorem slipsSystem_decode (h : SlipsSystem w) :
    ∃ m : Mnemonic, m.encoding.opcode = 0x73 ∧ decode w = m.encoding.decoded w := by
  obtain ⟨ho, h3, him, -⟩ := h
  rcases him with him | him
  · refine ⟨.ecall, rfl, ?_⟩
    simp [decode, decodeSystem, fieldsOf, opcodeOf_eq, ho, funct3Of_eq, h3, imm12_eq, him,
      Encoding.decoded, Mnemonic.encoding, Op.kind, Op.producesResult, Format.hasRd, Format.hasRs1,
      Format.hasRs2, Format.imm]
  · refine ⟨.ebreak, rfl, ?_⟩
    simp [decode, decodeSystem, fieldsOf, opcodeOf_eq, ho, funct3Of_eq, h3, imm12_eq, him,
      Encoding.decoded, Mnemonic.encoding, Op.kind, Op.producesResult, Format.hasRd, Format.hasRs1,
      Format.hasRs2, Format.imm]

theorem slipsSystem_accepted (h : SlipsSystem w) : (decode w).op ≠ .invalid ∧ ¬Assigned w := by
  constructor
  · obtain ⟨m, -, hd⟩ := slipsSystem_decode h
    rw [hd]
    exact m.encoding_valid
  · obtain ⟨ho, -, -, hne⟩ := h
    rintro ⟨m, ho', -, -, hw⟩
    cases m <;> simp [Mnemonic.encoding, ho] at ho' hw
    all_goals
      subst hw
      revert hne
      decide

theorem setWidth_inj {n : ℕ} (hn : n ≤ 32) {x y : BitVec n} :
    x.setWidth 32 = y.setWidth 32 ↔ x = y := by
  refine ⟨fun h => ?_, congrArg _⟩
  have h' := congrArg (BitVec.setWidth n) h
  rwa [BitVec.setWidth_setWidth_of_le _ hn, BitVec.setWidth_setWidth_of_le _ hn, BitVec.setWidth_eq,
    BitVec.setWidth_eq] at h'

/-- The row's fields as the decoder reads them. -/
theorem Encoding.matches_iff {e : Encoding} :
    e.Matches w ↔ opcodeOf w = e.opcode.setWidth 32 ∧ (∀ f ∈ e.funct3, funct3Of w = f.setWidth 32) ∧
      (∀ f ∈ e.funct7, funct7Of w = f.setWidth 32) ∧ ∀ v ∈ e.word, w = v := by
  simp only [opcodeOf_eq, funct3Of_eq, funct7Of_eq, setWidth_inj (show 7 ≤ 32 by decide),
    setWidth_inj (show 3 ≤ 32 by decide)]
  exact ⟨fun h => ⟨h.opcode, h.funct3, h.funct7, h.word⟩, fun h => ⟨h.1, h.2.1, h.2.2.1, h.2.2.2⟩⟩

/-- A word is its opcode, rd, funct3, rs1 and the twelve bits above. -/
theorem extract_ext {v : Word} (h1 : w.extractLsb' 0 7 = v.extractLsb' 0 7)
    (h2 : w.extractLsb' 7 5 = v.extractLsb' 7 5)
    (h3 : w.extractLsb' 12 3 = v.extractLsb' 12 3) (h4 : w.extractLsb' 15 5 = v.extractLsb' 15 5)
    (h5 : w.extractLsb' 20 12 = v.extractLsb' 20 12) : w = v := by
  have hbit {k n : ℕ} (h : w.extractLsb' k n = v.extractLsb' k n) {i : ℕ} (hk : k ≤ i)
    (hn : i < k + n) :
      w.getLsbD i = v.getLsbD i := by
    have hi := congrArg (fun x => x.getLsbD (i - k)) h
    simpa [show i - k < n by omega, show k + (i - k) = i by omega] using hi
  apply BitVec.eq_of_getLsbD_eq
  intro i hi
  by_cases hi1 : i < 7
  · exact hbit h1 (Nat.zero_le _) (by omega)
  by_cases hi2 : i < 12
  · exact hbit h2 (by omega) (by omega)
  by_cases hi3 : i < 15
  · exact hbit h3 (by omega) (by omega)
  by_cases hi4 : i < 20
  · exact hbit h4 (by omega) (by omega)
  · exact hbit h5 (by omega) (by omega)

section Unassigned
variable (hn : ¬Assigned w)
include hn

private theorem decodeJalr_unassigned (ho : opcodeOf w = 0x67) : decodeJalr w = invalidOf w := by
  have h : ¬Mnemonic.jalr.encoding.Matches w := fun hm => hn ⟨_, hm⟩
  simp [Encoding.matches_iff, Mnemonic.encoding, ho] at h
  simp [decodeJalr, h]

private theorem decodeBranch_unassigned (ho : opcodeOf w = 0x63) :
    decodeBranch w = invalidOf w := by
  have h : ∀ m ∈ [Mnemonic.beq, .bne, .blt, .bge, .bltu, .bgeu], ¬m.encoding.Matches w :=
    fun m _ hm => hn ⟨m, hm⟩
  simp [Encoding.matches_iff, Mnemonic.encoding, ho] at h
  simp [decodeBranch, h]

private theorem decodeLoad_unassigned (ho : opcodeOf w = 0x03) : decodeLoad w = invalidOf w := by
  have h : ∀ m ∈ [Mnemonic.lb, .lh, .lw, .lbu, .lhu], ¬m.encoding.Matches w :=
    fun m _ hm => hn ⟨m, hm⟩
  simp [Encoding.matches_iff, Mnemonic.encoding, ho] at h
  simp [decodeLoad, h]

private theorem decodeStore_unassigned (ho : opcodeOf w = 0x23) : decodeStore w = invalidOf w := by
  have h : ∀ m ∈ [Mnemonic.sb, .sh, .sw], ¬m.encoding.Matches w := fun m _ hm => hn ⟨m, hm⟩
  simp [Encoding.matches_iff, Mnemonic.encoding, ho] at h
  simp [decodeStore, h]

private theorem decodeMiscMem_unassigned (ho : opcodeOf w = 0x0F) :
    decodeMiscMem w = invalidOf w := by
  have h : ∀ m ∈ [Mnemonic.fence, .fenceI], ¬m.encoding.Matches w := fun m _ hm => hn ⟨m, hm⟩
  simp [Encoding.matches_iff, Mnemonic.encoding, ho] at h
  simp [decodeMiscMem, h]

private theorem decodeOpImm_unassigned (ho : opcodeOf w = 0x13) (hshift : ¬SlipsShift w) :
    decodeOpImm w = invalidOf w := by
  have h : ∀ m ∈ [Mnemonic.addi, .slti, .sltiu, .xori, .ori, .andi, .slli, .srli, .srai],
    ¬m.encoding.Matches w :=
    fun m _ hm => hn ⟨m, hm⟩
  have hleft : ∀ x : BitVec 7, x.setWidth 32 &&& 0x7E#32 = 0#32 → x = 0 ∨ x = 1 := by decide
  have hright : ∀ x : BitVec 7, x.setWidth 32 &&& 0x5F#32 = 0#32 → x = 0 ∨ x = 0x20 := by decide
  have hslip : ¬(w.extractLsb' 12 3 = 1 ∧ w.extractLsb' 25 7 = 1) := by
    rintro ⟨h3, h7⟩
    refine hshift ⟨?_, h3, h7⟩
    rwa [opcodeOf_eq, show (0x13 : Word) = (0x13 : BitVec 7).setWidth 32 from rfl,
      setWidth_inj (by decide)] at ho
  simp [Encoding.matches_iff, Mnemonic.encoding, ho] at h
  have hsll (h3 : funct3Of w = 1#32) : ¬funct7Of w &&& 0x7E#32 = 0#32 := by
    intro h7
    rw [funct7Of_eq] at h7
    cases hleft _ h7 with
    | inl h0 => exact h.2.2.2.2.2.2.1 h3 (by rw [funct7Of_eq, h0]; rfl)
    | inr h1 =>
      rw [funct3Of_eq, show (1#32 : Word) = (1 : BitVec 3).setWidth 32 from rfl,
        setWidth_inj (by decide)] at h3
      exact hslip ⟨h3, h1⟩
  have hsrx (h3 : funct3Of w = 5#32) : ¬funct7Of w &&& 0x5F#32 = 0#32 := by
    intro h7
    rw [funct7Of_eq] at h7
    cases hright _ h7 with
    | inl h0 => exact h.2.2.2.2.2.2.2.1 h3 (by rw [funct7Of_eq, h0]; rfl)
    | inr h1 => exact h.2.2.2.2.2.2.2.2 h3 (by rw [funct7Of_eq, h1]; rfl)
  by_cases h1 : funct3Of w = 1#32
  · simp [decodeOpImm, h1, hsll h1]
  by_cases h5 : funct3Of w = 5#32
  · simp [decodeOpImm, h5, hsrx h5]
  · simp [decodeOpImm, h, h1, h5]

private theorem decodeOp_unassigned (ho : opcodeOf w = 0x33) : decodeOp w = invalidOf w := by
  have h : ∀ m ∈ [Mnemonic.add, .sub, .sll, .slt, .sltu, .xor, .srl, .sra, .or, .and, .mul, .mulh,
    .mulhsu, .mulhu,
      .div, .divu, .rem, .remu], ¬m.encoding.Matches w := fun m _ hm => hn ⟨m, hm⟩
  simp [Encoding.matches_iff, Mnemonic.encoding, ho] at h
  by_cases h1 : funct7Of w = 1#32
  · simp [h1] at h
    simp [decodeOp, decodeMulDiv, h1, h]
  by_cases h0 : funct7Of w = 0#32
  · simp [h0] at h
    simp [decodeOp, h0, h]
  by_cases h20 : funct7Of w = 32#32
  · simp [h20] at h
    simp [decodeOp, h20, h]
  · simp [decodeOp, h1, h0, h20]

private theorem decodeSystem_unassigned (ho : opcodeOf w = 0x73) (hsys : ¬SlipsSystem w) :
    decodeSystem w = invalidOf w := by
  have h : ∀ m ∈ [Mnemonic.ecall, .ebreak], ¬m.encoding.Matches w := fun m _ hm => hn ⟨m, hm⟩
  simp [Encoding.matches_iff, Mnemonic.encoding, ho] at h
  rw [opcodeOf_eq, show (0x73 : Word) = (0x73 : BitVec 7).setWidth 32 from rfl,
    setWidth_inj (by decide)] at ho
  by_cases h3 : funct3Of w = 0#32
  · rw [funct3Of_eq, show (0#32 : Word) = (0 : BitVec 3).setWidth 32 from rfl,
      setWidth_inj (by decide)] at h3
    -- with the other fields clear the immediate leaves only the two assigned words
    have hzero (v : BitVec 12) (hv : v = 0 ∨ v = 1) (him : w.extractLsb' 20 12 = v) :
        w.extractLsb' 7 5 = 0 ∧ w.extractLsb' 15 5 = 0 := by
      by_contra hne
      rw [not_and_or] at hne
      exact hsys ⟨ho, h3, him ▸ hv, hne⟩
    have hcall : w.extractLsb' 20 12 ≠ 0 := by
      intro him
      obtain ⟨h5, h5'⟩ := hzero 0 (.inl rfl) him
      exact h.1 (extract_ext ho h5 h3 h5' him)
    have hbreak : w.extractLsb' 20 12 ≠ 1 := by
      intro him
      obtain ⟨h5, h5'⟩ := hzero 1 (.inr rfl) him
      exact h.2 (extract_ext ho h5 h3 h5' him)
    have hcall' : ¬(w >>> 20) &&& 0xFFF#32 = 0#32 := by
      rwa [imm12_eq, show (0#32 : Word) = (0 : BitVec 12).setWidth 32 from rfl,
        setWidth_inj (by decide)]
    have hbreak' : ¬(w >>> 20) &&& 0xFFF#32 = 1#32 := by
      rwa [imm12_eq, show (1#32 : Word) = (1 : BitVec 12).setWidth 32 from rfl,
        setWidth_inj (by decide)]
    simp [decodeSystem, hcall', hbreak']
  · simp [decodeSystem, h3]

theorem decode_unassigned (hshift : ¬SlipsShift w) (hsys : ¬SlipsSystem w) :
    decode w = invalidOf w := by
  have hplain : ∀ m ∈ [Mnemonic.lui, .auipc, .jal], ¬m.encoding.Matches w :=
    fun m _ hm => hn ⟨m, hm⟩
  simp [Encoding.matches_iff, Mnemonic.encoding] at hplain
  have hclass {c : Prop} [Decidable c] {a b : Decoded} (ha : c → a = invalidOf w)
    (hb : b = invalidOf w) :
      (if c then a else b) = invalidOf w := by
    split
    · exact ha ‹c›
    · exact hb
  unfold decode
  exact hclass (fun h => absurd h hplain.1) <| hclass (fun h => absurd h hplain.2.1) <|
    hclass (fun h => absurd h hplain.2.2) <| hclass (decodeJalr_unassigned hn) <|
    hclass (decodeBranch_unassigned hn) <| hclass (decodeLoad_unassigned hn) <|
    hclass (decodeStore_unassigned hn) <| hclass (fun h => decodeOpImm_unassigned hn h hshift) <|
    hclass (decodeOp_unassigned hn) <| hclass (decodeMiscMem_unassigned hn) <|
    hclass (fun h => decodeSystem_unassigned hn h hsys) rfl

end Unassigned

/-- Every word is judged as the manual has it, but for those that slip through the checks of the
immediate shifts and of the system instructions. -/
theorem judged_iff (w : Word) : Judged w ↔ ¬SlipsShift w ∧ ¬SlipsSystem w := by
  constructor
  · intro h
    constructor
    · intro hs
      obtain ⟨hop, hn⟩ := slipsShift_accepted hs
      rw [h.rejects hn] at hop
      contradiction
    · intro hs
      obtain ⟨hop, hn⟩ := slipsSystem_accepted hs
      exact hn (h.accepts.mpr hop)
  · rintro ⟨hshift, hsys⟩
    have hrejects (hn : ¬Assigned w) : decode w = invalidOf w := decode_unassigned hn hshift hsys
    refine ⟨⟨?_, fun hop => ?_⟩, hrejects⟩
    · rintro ⟨m, hm⟩
      rw [decode_of_matches m hm]
      exact m.encoding_valid
    · by_contra hn
      exact hop (congrArg Decoded.op (hrejects hn))

/-- A left shift by 32 and a call with a destination, both reserved. -/
theorem reserved_accepted : ¬Judged 0x02009093 ∧ ¬Judged 0x000000F3 := by
  constructor
  · intro h
    exact (slipsShift_accepted (w := 0x02009093) ⟨by decide, by decide, by decide⟩).2
      (h.accepts.mpr (by decide))
  · intro h
    exact (slipsSystem_accepted (w := 0x000000F3) ⟨by decide, by decide, by decide, by decide⟩).2
      (h.accepts.mpr (by decide))

end OooCpu
