import OooCpu.Encodings
import OooCpu.JsonWriter
import OooCpu.Loader

/-! # Disassembly

One decoded instruction as text, for traces. The decoder forgets the difference
between OP and OP-IMM, which the mnemonic shows, and targets are printed absolute.
Characters stand for bytes. -/
namespace OooCpu

/-- `%X`. -/
def formatHex (n : ℕ) : List Char := (Nat.toDigits 16 n).map Char.toUpper

namespace Disasm

def reg (r : ArchReg) : List Char := 'x' :: formatUnsigned r.val

def hex32 (v : Word) : List Char := "0x".toList ++ formatHex v.toNat

def dec (v : Word) : List Char := formatSigned v.toInt

def rrr (m : String) (d : Decoded) : List Char :=
  m.toList ++ [' '] ++ reg d.rd ++ [','] ++ reg d.rs1 ++ [','] ++ reg d.rs2

def rri (m : String) (d : Decoded) : List Char :=
  m.toList ++ [' '] ++ reg d.rd ++ [','] ++ reg d.rs1 ++ [','] ++ dec d.imm

def memForm (m : String) (data : ArchReg) (d : Decoded) : List Char :=
  m.toList ++ [' '] ++ reg data ++ [','] ++ dec d.imm ++ ['('] ++ reg d.rs1 ++ [')']

def br (m : String) (d : Decoded) (pc : Word) : List Char :=
  m.toList ++ [' '] ++ reg d.rs1 ++ [','] ++ reg d.rs2 ++ [','] ++ hex32 (pc + d.imm)

end Disasm

open Disasm in
/-- One decoded instruction as text; `pc` matters where the text names an address. -/
def disasm (d : Decoded) (pc : Word) : List Char :=
  let immForm := usesImmediate d
  match d.op with
  | .add => if immForm then rri "addi" d else rrr "add" d
  | .slt => if immForm then rri "slti" d else rrr "slt" d
  | .sltu => if immForm then rri "sltiu" d else rrr "sltu" d
  | .xor => if immForm then rri "xori" d else rrr "xor" d
  | .or => if immForm then rri "ori" d else rrr "or" d
  | .and => if immForm then rri "andi" d else rrr "and" d
  | .sll => if immForm then rri "slli" d else rrr "sll" d
  | .srl => if immForm then rri "srli" d else rrr "srl" d
  | .sra => if immForm then rri "srai" d else rrr "sra" d
  | .sub => rrr "sub" d
  | .lui => "lui ".toList ++ reg d.rd ++ [','] ++ hex32 (d.imm >>> 12)
  | .auipc => "auipc ".toList ++ reg d.rd ++ [','] ++ hex32 (d.imm >>> 12)
  | .mul => rrr "mul" d
  | .mulh => rrr "mulh" d
  | .mulhsu => rrr "mulhsu" d
  | .mulhu => rrr "mulhu" d
  | .div => rrr "div" d
  | .divu => rrr "divu" d
  | .rem => rrr "rem" d
  | .remu => rrr "remu" d
  | .beq => br "beq" d pc
  | .bne => br "bne" d pc
  | .blt => br "blt" d pc
  | .bge => br "bge" d pc
  | .bltu => br "bltu" d pc
  | .bgeu => br "bgeu" d pc
  | .jal => "jal ".toList ++ reg d.rd ++ [','] ++ hex32 (pc + d.imm)
  | .jalr => "jalr ".toList ++ reg d.rd ++ [','] ++ dec d.imm ++ ['('] ++ reg d.rs1 ++ [')']
  | .lb => memForm "lb" d.rd d
  | .lh => memForm "lh" d.rd d
  | .lw => memForm "lw" d.rd d
  | .lbu => memForm "lbu" d.rd d
  | .lhu => memForm "lhu" d.rd d
  -- a store names the register it reads, which the decoder keeps in rs2
  | .sb => memForm "sb" d.rs2 d
  | .sh => memForm "sh" d.rs2 d
  | .sw => memForm "sw" d.rs2 d
  | .fence => "fence".toList
  | .fenceI => "fence.i".toList
  | .ecall => "ecall".toList
  | .ebreak => "ebreak".toList
  | .invalid => "<invalid ".toList ++ hex32 d.raw ++ ['>']

/-- For callers that hold only the word. -/
def disasmWord (raw pc : Word) : List Char := disasm (decode raw) pc

theorem formatUnsigned_inj {m n : ℕ} (h : formatUnsigned m = formatUnsigned n) : m = n := by
  rw [← Nat.ofDigitChars_ten_toDigits (n := m), ← Nat.ofDigitChars_ten_toDigits (n := n)]
  exact congrArg (fun ds => Nat.ofDigitChars 10 ds 0) h

theorem isDigit_of_formatUnsigned {n : ℕ} {c : Char} (hc : c ∈ formatUnsigned n) :
    c.isDigit = true :=
  Nat.isDigit_of_mem_toDigits (by decide) (by decide) hc

theorem formatUnsigned_ne_minus {n : ℕ} {cs : List Char} : formatUnsigned n ≠ '-' :: cs := by
  intro h
  have hminus : '-'.isDigit = true := isDigit_of_formatUnsigned (n := n) (h ▸ List.mem_cons_self)
  contradiction

theorem formatSigned_inj {x y : ℤ} (h : formatSigned x = formatSigned y) : x = y := by
  simp only [formatSigned] at h
  split at h <;> split at h
  · have habs := formatUnsigned_inj (List.cons.inj h).2
    omega
  · exact absurd h.symm formatUnsigned_ne_minus
  · exact absurd h formatUnsigned_ne_minus
  · have habs := formatUnsigned_inj h
    omega

/-- What is printed in base 16 is read back by the loader. -/
theorem hexValue_formatHex (n : ℕ) : hexValue (formatHex n) = n := by
  have hdigit : ∀ m < 16, hexDigit (Nat.digitChar m).toUpper = m := by decide
  induction n using Nat.strongRecOn with
  | ind n ih =>
    by_cases hn : n < 16
    · rw [formatHex, Nat.toDigits_of_lt_base hn, hexValue]
      simp [hdigit n hn]
    · have hlast := hdigit (n % 16) (Nat.mod_lt _ (by decide))
      have hfront := ih (n / 16) (by omega)
      rw [formatHex, hexValue] at hfront
      rw [formatHex, Nat.toDigits_of_base_le (by decide) (Nat.le_of_not_lt hn), List.map_append,
        hexValue, List.foldl_append, hfront]
      simp only [List.map_cons, List.map_nil, List.foldl_cons, List.foldl_nil, hlast]
      omega

namespace Disasm

variable {a b : ArchReg} {v w : Word} {cs ds : List Char}

theorem reg_inj (h : reg a = reg b) : a = b := Fin.ext (formatUnsigned_inj (List.cons.inj h).2)

theorem hex32_inj (h : hex32 v = hex32 w) : v = w := by
  have hvalue := congrArg hexValue (List.append_cancel_left h)
  rw [hexValue_formatHex, hexValue_formatHex] at hvalue
  exact BitVec.eq_of_toNat_eq hvalue

theorem dec_inj (h : dec v = dec w) : v = w := BitVec.eq_of_toInt_eq (formatSigned_inj h)

theorem notMem_reg {c : Char} (hc : c.isDigit = false) (hx : c ≠ 'x') : c ∉ reg a := by
  intro hm
  cases List.mem_cons.mp hm with
  | inl he => exact hx he
  | inr hm =>
    rw [isDigit_of_formatUnsigned hm] at hc
    contradiction

theorem notMem_dec {c : Char} (hc : c.isDigit = false) (hminus : c ≠ '-') : c ∉ dec v := by
  intro hm
  have hdigits : ¬c ∈ formatUnsigned v.toInt.natAbs := by
    intro hm
    rw [isDigit_of_formatUnsigned hm] at hc
    contradiction
  rw [dec, formatSigned] at hm
  split at hm
  · cases List.mem_cons.mp hm with
    | inl he => exact hminus he
    | inr hm => exact hdigits hm
  · exact hdigits hm

/-- What stands in front of the first `sep`. -/
def upTo (sep : Char) (cs : List Char) : List Char := cs.takeWhile (· ≠ sep)

theorem upTo_append {sep : Char} (hcs : sep ∉ cs) (hds : ds = [] ∨ ds.head? = some sep) :
    upTo sep (cs ++ ds) = cs := by
  have hpos : ∀ c ∈ cs, decide (c ≠ sep) = true :=
    fun c hc => decide_eq_true fun he => hcs (he ▸ hc)
  rw [upTo, List.takeWhile_append_of_pos hpos]
  rcases hds with rfl | hds
  · simp
  · obtain ⟨ds, rfl⟩ := List.head?_eq_some_iff.mp hds
    simp

/-- A separator splits a text in one way only. -/
theorem split_inj {sep : Char} {xs ys : List Char} (hx : sep ∉ xs) (hy : sep ∉ ys)
    (h : xs ++ sep :: cs = ys ++ sep :: ds) : xs = ys ∧ cs = ds := by
  have hxs : upTo sep (xs ++ sep :: cs) = xs := upTo_append hx (.inr rfl)
  have hys : upTo sep (ys ++ sep :: ds) = ys := upTo_append hy (.inr rfl)
  have hfront : xs = ys := by rw [← hxs, h, hys]
  rw [hfront] at h
  exact ⟨hfront, (List.cons.inj (List.append_cancel_left h)).2⟩

theorem reg_comma (h : reg a ++ ',' :: cs = reg b ++ ',' :: ds) : a = b ∧ cs = ds := by
  have hcomma (r : ArchReg) : ',' ∉ reg r := notMem_reg rfl (by decide)
  obtain ⟨hreg, hrest⟩ := split_inj (hcomma a) (hcomma b) h
  exact ⟨reg_inj hreg, hrest⟩

/-- The address `dec(reg)`. -/
theorem address_inj (h : dec v ++ '(' :: (reg a ++ [')']) = dec w ++ '(' :: (reg b ++ [')'])) :
    v = w ∧ a = b := by
  have hparen (u : Word) : '(' ∉ dec u := notMem_dec rfl (by decide)
  obtain ⟨hdec, hrest⟩ := split_inj (hparen v) (hparen w) h
  exact ⟨dec_inj hdec, reg_inj (List.append_cancel_right hrest)⟩

end Disasm

def Mnemonic.text : Mnemonic → String
  | .lui => "lui" | .auipc => "auipc" | .jal => "jal" | .jalr => "jalr"
  | .beq => "beq" | .bne => "bne" | .blt => "blt" | .bge => "bge" | .bltu => "bltu" | .bgeu => "bgeu"
  | .lb => "lb" | .lh => "lh" | .lw => "lw" | .lbu => "lbu" | .lhu => "lhu"
  | .sb => "sb" | .sh => "sh" | .sw => "sw"
  | .addi => "addi" | .slti => "slti" | .sltiu => "sltiu" | .xori => "xori" | .ori => "ori" | .andi => "andi"
  | .slli => "slli" | .srli => "srli" | .srai => "srai"
  | .add => "add" | .sub => "sub" | .sll => "sll" | .slt => "slt" | .sltu => "sltu" | .xor => "xor" | .srl => "srl"
  | .sra => "sra" | .or => "or" | .and => "and"
  | .mul => "mul" | .mulh => "mulh" | .mulhsu => "mulhsu" | .mulhu => "mulhu"
  | .div => "div" | .divu => "divu" | .rem => "rem" | .remu => "remu"
  | .fence => "fence" | .fenceI => "fence.i" | .ecall => "ecall" | .ebreak => "ebreak"

namespace Encoding
open Disasm

/-- What stands behind the mnemonic. -/
def operands (e : Encoding) (d : Decoded) (pc : Word) : List Char :=
  match e.format with
  | .r => ' ' :: (reg d.rd ++ ',' :: (reg d.rs1 ++ ',' :: reg d.rs2))
  | .shift => ' ' :: (reg d.rd ++ ',' :: (reg d.rs1 ++ ',' :: dec d.imm))
  | .i =>
    if e.op.kind = .alu then ' ' :: (reg d.rd ++ ',' :: (reg d.rs1 ++ ',' :: dec d.imm))
    else ' ' :: (reg d.rd ++ ',' :: (dec d.imm ++ '(' :: (reg d.rs1 ++ [')'])))
  | .s => ' ' :: (reg d.rs2 ++ ',' :: (dec d.imm ++ '(' :: (reg d.rs1 ++ [')'])))
  | .b => ' ' :: (reg d.rs1 ++ ',' :: (reg d.rs2 ++ ',' :: hex32 (pc + d.imm)))
  | .u => ' ' :: (reg d.rd ++ ',' :: hex32 (d.imm >>> 12))
  | .j => ' ' :: (reg d.rd ++ ',' :: hex32 (pc + d.imm))
  | .bare => []

end Encoding

theorem disasm_decoded (m : Mnemonic) {w : Word} (ho : opcodeOf w = m.encoding.opcode.setWidth 32)
    (pc : Word) :
    disasm (m.encoding.decoded w) pc = m.text.toList ++ m.encoding.operands
      (m.encoding.decoded w) pc := by
  have himm : usesImmediate (m.encoding.decoded w) = decide (m.encoding.opcode = 0x13) := by
    change decide (opcodeOf w = (0x13 : BitVec 7).setWidth 32) = _
    rw [ho, decide_eq_decide]
    exact setWidth_inj (by decide)
  simp only [disasm, himm]
  cases m <;> simp [Mnemonic.encoding, Mnemonic.text, Encoding.decoded, Encoding.operands, Op.kind,
    Disasm.rrr, Disasm.rri, Disasm.memForm, Disasm.br]

/-- The twelve bits that the text leaves out are zero. -/
theorem immU_shift (w : Word) : (immU w >>> 12) <<< 12 = immU w := by
  have hmask : (0xFFFFF000 : Word) &&& BitVec.allOnes 32 <<< 12 = 0xFFFFF000 := by decide
  rw [BitVec.shiftLeft_ushiftRight, immU, BitVec.and_assoc, hmask]

namespace Encoding
variable {e : Encoding} {v w : Word}

theorem decoded_ext (hrd : (e.decoded v).rd = (e.decoded w).rd)
    (hrs1 : (e.decoded v).rs1 = (e.decoded w).rs1)
    (hrs2 : (e.decoded v).rs2 = (e.decoded w).rs2) (himm : (e.decoded v).imm = (e.decoded w).imm) :
    { e.decoded v with raw := 0 } = { e.decoded w with raw := 0 } := by
  have hwrites : (e.decoded v).writesRd = (e.decoded w).writesRd := by
    simp only [decoded] at hrd ⊢
    cases hr : e.format.hasRd with
    | false => simp
    | true =>
      simp only [hr, if_true] at hrd
      rw [hrd]
  simp only [decoded] at hrd hrs1 hrs2 himm hwrites ⊢
  rw [hrd, hrs1, hrs2, himm, hwrites]

open Disasm in
/-- The operands tell everything that decode keeps of a row's word. -/
theorem operands_inj {pc : Word} (h : e.operands (e.decoded v) pc = e.operands (e.decoded w) pc) :
    { e.decoded v with raw := 0 } = { e.decoded w with raw := 0 } := by
  cases hf : e.format with
  | r =>
    simp only [operands, hf] at h
    obtain ⟨hrd, h⟩ := reg_comma (List.cons.inj h).2
    obtain ⟨hrs1, h⟩ := reg_comma h
    exact decoded_ext hrd hrs1 (reg_inj h) (by simp [decoded, hf, Format.imm])
  | shift =>
    simp only [operands, hf] at h
    obtain ⟨hrd, h⟩ := reg_comma (List.cons.inj h).2
    obtain ⟨hrs1, h⟩ := reg_comma h
    exact decoded_ext hrd hrs1 (by simp [decoded, hf, Format.hasRs2]) (dec_inj h)
  | i =>
    have hrs2 : (e.decoded v).rs2 = (e.decoded w).rs2 := by simp [decoded, hf, Format.hasRs2]
    simp only [operands, hf] at h
    split at h
    · obtain ⟨hrd, h⟩ := reg_comma (List.cons.inj h).2
      obtain ⟨hrs1, h⟩ := reg_comma h
      exact decoded_ext hrd hrs1 hrs2 (dec_inj h)
    · obtain ⟨hrd, h⟩ := reg_comma (List.cons.inj h).2
      obtain ⟨himm, hrs1⟩ := address_inj h
      exact decoded_ext hrd hrs1 hrs2 himm
  | s =>
    simp only [operands, hf] at h
    obtain ⟨hrs2, h⟩ := reg_comma (List.cons.inj h).2
    obtain ⟨himm, hrs1⟩ := address_inj h
    exact decoded_ext (by simp [decoded, hf, Format.hasRd]) hrs1 hrs2 himm
  | b =>
    simp only [operands, hf] at h
    obtain ⟨hrs1, h⟩ := reg_comma (List.cons.inj h).2
    obtain ⟨hrs2, h⟩ := reg_comma h
    exact decoded_ext (by simp [decoded, hf, Format.hasRd]) hrs1 hrs2
      (add_left_cancel (hex32_inj h))
  | u =>
    simp only [operands, hf] at h
    obtain ⟨hrd, h⟩ := reg_comma (List.cons.inj h).2
    have himm : (e.decoded v).imm = (e.decoded w).imm := by
      simp only [decoded, hf, Format.imm] at h ⊢
      rw [← immU_shift v, ← immU_shift w, hex32_inj h]
    exact decoded_ext hrd (by simp [decoded, hf, Format.hasRs1])
      (by simp [decoded, hf, Format.hasRs2]) himm
  | j =>
    simp only [operands, hf] at h
    obtain ⟨hrd, h⟩ := reg_comma (List.cons.inj h).2
    exact decoded_ext hrd (by simp [decoded, hf, Format.hasRs1])
      (by simp [decoded, hf, Format.hasRs2])
      (add_left_cancel (hex32_inj h))
  | bare =>
    exact decoded_ext (by simp [decoded, hf, Format.hasRd]) (by simp [decoded, hf, Format.hasRs1])
      (by simp [decoded, hf, Format.hasRs2]) (by simp [decoded, hf, Format.imm])

theorem operands_delimited (e : Encoding) (d : Decoded) (pc : Word) :
    e.operands d pc = [] ∨ (e.operands d pc).head? = some ' ' := by
  cases hf : e.format <;> simp only [operands, hf]
  case i => split <;> exact .inr rfl
  case bare => exact .inl trivial
  all_goals exact .inr rfl

end Encoding

/-- A word decodes as one of its opcode's rows says, or is a trap. -/
theorem decode_cases (w : Word) :
    (∃ m : Mnemonic, opcodeOf w = m.encoding.opcode.setWidth 32 ∧ decode w = m.encoding.decoded w) ∨
      decode w = invalidOf w := by
  by_cases hassigned : Assigned w
  · obtain ⟨m, hm⟩ := hassigned
    exact .inl ⟨m, (Encoding.matches_iff.mp hm).1, decode_of_matches m hm⟩
  by_cases hshift : SlipsShift w
  · exact .inl ⟨.slli, by rw [opcodeOf_eq, hshift.1]; rfl, slipsShift_decode hshift⟩
  by_cases hsys : SlipsSystem w
  · obtain ⟨m, hm, hd⟩ := slipsSystem_decode hsys
    exact .inl ⟨m, by rw [opcodeOf_eq, hsys.1, hm], hd⟩
  · exact .inr (decode_unassigned hassigned hshift hsys)

namespace Mnemonic

def all : List Mnemonic :=
  [.lui, .auipc, .jal, .jalr, .beq, .bne, .blt, .bge, .bltu, .bgeu, .lb, .lh, .lw, .lbu, .lhu, .sb,
    .sh, .sw, .addi, .slti, .sltiu, .xori, .ori, .andi, .slli, .srli, .srai,
    .add, .sub, .sll, .slt, .sltu, .xor, .srl, .sra, .or, .and,
    .mul, .mulh, .mulhsu, .mulhu, .div, .divu, .rem, .remu, .fence, .fenceI, .ecall, .ebreak]

theorem mem_all (m : Mnemonic) : m ∈ all := by cases m <;> decide

theorem text_inj {m n : Mnemonic} (h : m.text = n.text) : m = n := by
  have hnodup : (all.map text).Nodup := by decide
  exact List.inj_on_of_nodup_map hnodup m.mem_all n.mem_all h

theorem text_word (m : Mnemonic) : ' ' ∉ m.text.toList ∧ m.text ≠ "<invalid" := by cases m <;> decide

end Mnemonic

open Disasm in
theorem disasm_valid {m : Mnemonic} {w : Word} (ho : opcodeOf w = m.encoding.opcode.setWidth 32)
    (hd : decode w = m.encoding.decoded w) (pc : Word) :
    disasmWord w pc = m.text.toList ++ m.encoding.operands (m.encoding.decoded w) pc ∧
      upTo ' ' (disasmWord w pc) = m.text.toList := by
  have htext : disasmWord w pc = m.text.toList ++ m.encoding.operands
      (m.encoding.decoded w) pc := by
    rw [disasmWord, hd, disasm_decoded m ho]
  refine ⟨htext, ?_⟩
  rw [htext, upTo_append m.text_word.1 (m.encoding.operands_delimited _ pc)]

open Disasm in
theorem disasm_invalid {w : Word} (hd : decode w = invalidOf w) (pc : Word) :
    disasmWord w pc = "<invalid ".toList ++ hex32 w ++ ['>'] ∧ upTo ' ' (disasmWord w pc) = "<invalid".toList := by
  have htext : disasmWord w pc = "<invalid ".toList ++ hex32 w ++ ['>'] := by rw [disasmWord, hd]; rfl
  have hsplit : "<invalid ".toList ++ hex32 w ++ ['>'] = "<invalid".toList ++ (' ' :: (hex32 w ++ ['>'])) := by simp
  refine ⟨htext, ?_⟩
  rw [htext, hsplit, upTo_append (by decide) (.inr rfl)]

/-- Two words with one text decode alike, and a word that is no instruction shares its text with no
other. -/
theorem disasm_separates (pc w₁ w₂ : Word) (h : disasmWord w₁ pc = disasmWord w₂ pc) :
    { decode w₁ with raw := 0 } = { decode w₂ with raw := 0 } ∧
      ((decode w₁).op = .invalid ∨ (decode w₂).op = .invalid → w₁ = w₂) := by
  have hword := congrArg (Disasm.upTo ' ') h
  rcases decode_cases w₁ with ⟨m₁, ho₁, hd₁⟩ | hd₁ <;> rcases decode_cases w₂ with ⟨m₂, ho₂,
    hd₂⟩ | hd₂
  · obtain ⟨htext₁, hword₁⟩ := disasm_valid ho₁ hd₁ pc
    obtain ⟨htext₂, hword₂⟩ := disasm_valid ho₂ hd₂ pc
    rw [hword₁, hword₂] at hword
    obtain rfl := Mnemonic.text_inj (String.toList_inj.mp hword)
    rw [htext₁, htext₂] at h
    have hvalid : (m₁.encoding.decoded w₁).op ≠ .invalid ∧ (m₁.encoding.decoded w₂).op ≠ .invalid :=
      ⟨m₁.encoding_valid, m₁.encoding_valid⟩
    rw [hd₁, hd₂]
    refine ⟨Encoding.operands_inj (List.append_cancel_left h), ?_⟩
    rintro (hop | hop)
    · exact absurd hop hvalid.1
    · exact absurd hop hvalid.2
  · rw [(disasm_valid ho₁ hd₁ pc).2, (disasm_invalid hd₂ pc).2] at hword
    exact absurd (String.toList_inj.mp hword) m₁.text_word.2
  · rw [(disasm_invalid hd₁ pc).2, (disasm_valid ho₂ hd₂ pc).2] at hword
    exact absurd (String.toList_inj.mp hword).symm m₂.text_word.2
  · rw [(disasm_invalid hd₁ pc).1, (disasm_invalid hd₂ pc).1] at h
    have heq : w₁ = w₂ := Disasm.hex32_inj (List.append_cancel_left (List.append_cancel_right h))
    exact ⟨by rw [heq], fun _ => heq⟩

/-- Two fences with different reserved fields. -/
theorem disasm_separates_fences :
    { decode 0x0000000F with raw := 0 } = { decode 0x0FF0000F with raw := 0 } ∧
      ((decode 0x0000000F).op = .invalid ∨ (decode 0x0FF0000F).op = .invalid →
        (0x0000000F : Word) = 0x0FF0000F) :=
  disasm_separates 0 0x0000000F 0x0FF0000F (by decide)

example : disasmWord 0xFE009EE3 0x1004 = "bne x1,x0,0x1000".toList := by decide

end OooCpu
