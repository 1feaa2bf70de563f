import OooCpu.Assembler
import OooCpu.SignedArithmetic

/-! # Labels and fixups

The assembler with its words, labels and fixups, the listing its calls spell out,
and that assembling puts the offsets the listing asks for into the words.
-/
namespace OooCpu.Asmc

inductive FixKind
  | b | j | call
  deriving DecidableEq

structure Fixup where
  wordIdx : ℕ
  name : String
  kind : FixKind

/-- What `assemble` throws. -/
inductive AsmError
  | undefinedLabel (name : String)
  | branchUnencodable (name : String)
  | jalUnencodable (name : String)
  deriving DecidableEq

def AsmError.what : AsmError → String
  | .undefinedLabel name => "asmc: undefined label '" ++ name ++ "'"
  | .branchUnencodable name => "asmc: branch offset unencodable for '" ++ name ++ "'"
  | .jalUnencodable name => "asmc: jal offset unencodable for '" ++ name ++ "'"

/-- The words of `li`; where its signed subtraction overflows, as if it wrapped. -/
def li (rd imm : Word) : List Word :=
  if -2048 ≤ imm.toInt ∧ imm.toInt ≤ 2047 then [addi rd 0 imm]
  else
    let hi := (imm + 0x800) >>> 12
    let hi20 := hi &&& 0xFFFFF
    let lo12 := imm - (hi20 <<< 12)
    [lui rd hi20, addi rd rd lo12]

/-- The upper part of a call's offset, rounded so that the rest is a signed immediate. -/
def callHi20 (off32 : Word) : Word := (off32 + 0x800) >>> 12
def callLo12 (off32 : Word) : Word := off32 - (callHi20 off32 <<< 12)

/-- What the fixup of a call leaves in place of its `auipc`. -/
def patchAuipc (orig off32 : Word) : Word :=
  (orig &&& ~~~(0xFFFFF000 : Word)) ||| ((callHi20 off32 &&& 0xFFFFF) <<< 12)

/-- What the fixup of a call leaves in place of its `jalr`. -/
def patchJalr (orig off32 : Word) : Word :=
  (orig &&& ~~~(0xFFF00000 : Word)) ||| ((callLo12 off32 &&& 0xFFF) <<< 20)

/-- The comparisons a branch can make. -/
inductive Cond
  | beq | bne | blt | bge | bltu | bgeu
  deriving DecidableEq

def Cond.funct3 : Cond → Word
  | .beq => 0x0
  | .bne => 0x1
  | .blt => 0x4
  | .bge => 0x5
  | .bltu => 0x6
  | .bgeu => 0x7

structure Assembler where
  words : List Word := []
  labels : String → Option ℕ := fun _ => none
  fixups : List Fixup := []

namespace Assembler

def label (a : Assembler) (name : String) : Assembler :=
  { a with labels := fun n => if n = name then some a.words.length else a.labels n }

def emit (a : Assembler) (w : Word) : Assembler := { a with words := a.words ++ [w] }

def addFixup (a : Assembler) (k : FixKind) (name : String) : Assembler :=
  { a with fixups := a.fixups ++ [⟨a.words.length, name, k⟩] }

def branch (a : Assembler) (c : Cond) (r1 r2 : Word) (lbl : String) : Assembler :=
  (a.addFixup .b lbl).emit (encB c.funct3 r1 r2 0)

def jal (a : Assembler) (rd : Word) (lbl : String) : Assembler :=
  (a.addFixup .j lbl).emit (encJ rd 0)

def call (a : Assembler) (lbl : String) : Assembler :=
  ((a.addFixup .call lbl).emit (encU 0x17 1 0)).emit (encI 0x67 1 0x0 1 0)

def resolve (labels : String → Option ℕ) (words : List Word) (f : Fixup) :
    Except AsmError (List Word) :=
  match labels f.name with
  | none => .error (.undefinedLabel f.name)
  | some idx =>
    let site : ℤ := f.wordIdx * 4
    let target : ℤ := idx * 4
    let off := target - site
    match f.kind with
    | .b =>
      if off < -4096 ∨ off > 4094 ∨ off % 2 ≠ 0 then .error (.branchUnencodable f.name)
      else .ok (words.modify f.wordIdx (patchB · (.ofInt 32 off)))
    | .j =>
      if off < -1048576 ∨ off > 1048574 ∨ off % 2 ≠ 0 then .error (.jalUnencodable f.name)
      else .ok (words.modify f.wordIdx (patchJ · (.ofInt 32 off)))
    | .call =>
      .ok ((words.modify f.wordIdx (patchAuipc · (.ofInt 32 off))).modify (f.wordIdx + 1)
        (patchJalr · (.ofInt 32 off)))

/-- The loop over the fixups; what was patched before an error stays patched. -/
def resolveAll (labels : String → Option ℕ) : List Fixup → List Word → Option AsmError × List Word
  | [], words => (none, words)
  | f :: fs, words =>
    match resolve labels words f with
    | .error e => (some e, words)
    | .ok words' => resolveAll labels fs words'

def assemble (a : Assembler) : Except AsmError (List Word) × Assembler :=
  let r := resolveAll a.labels a.fixups a.words
  (match r.1 with
    | some e => .error e
    | none => .ok r.2,
    { a with words := r.2 })

end Assembler

/-- The calls on an assembler. `insn` is every emitter of one word without a label. -/
inductive Call
  | label (name : String)
  | insn (i : Insn)
  | li (rd imm : Word)
  | branch (c : Cond) (r1 r2 : Word) (lbl : String)
  | jal (rd : Word) (lbl : String)
  | call (lbl : String)
  | assemble

namespace Assembler

def step (a : Assembler) : Call → Assembler
  | .label name => a.label name
  | .insn i => a.emit i.word
  | .li rd imm => (li rd imm).foldl emit a
  | .branch c r1 r2 lbl => a.branch c r1 r2 lbl
  | .jal rd lbl => a.jal rd lbl
  | .call lbl => a.call lbl
  | .assemble => a.assemble.2

def run (calls : List Call) : Assembler := calls.foldl step {}

end Assembler

/-- What a word of the program is meant to be. -/
inductive Line
  | word (w : Word)
  | branch (c : Cond) (r1 r2 : Word) (lbl : String)
  | jal (rd : Word) (lbl : String)
  /-- The first word of a call. -/
  | auipc (lbl : String)
  /-- The second word of a call. -/
  | jalr (lbl : String)

namespace Line

/-- The word as it is emitted. -/
def emitted : Line → Word
  | .word w => w
  | .branch c r1 r2 _ => encB c.funct3 r1 r2 0
  | .jal rd _ => encJ rd 0
  | .auipc _ => encU 0x17 1 0
  | .jalr _ => encI 0x67 1 0x0 1 0

/-- The label the word waits for. -/
def lbl? : Line → Option String
  | .word _ => none
  | .branch _ _ _ lbl | .jal _ lbl | .auipc lbl | .jalr lbl => some lbl

end Line

/-- The lines of a program and where its labels finally stand. -/
structure Listing where
  lines : List Line := []
  labels : String → Option ℕ := fun _ => none

namespace Listing

def append (s : Listing) (ls : List Line) : Listing := { s with lines := s.lines ++ ls }

def step (s : Listing) : Call → Listing
  | .label name =>
    { s with labels := fun n => if n = name then some s.lines.length else s.labels n }
  | .insn i => s.append [.word i.word]
  | .li rd imm => s.append ((li rd imm).map .word)
  | .branch c r1 r2 lbl => s.append [.branch c r1 r2 lbl]
  | .jal rd lbl => s.append [.jal rd lbl]
  | .call lbl => s.append [.auipc lbl, .jalr lbl]
  | .assemble => s

def run (calls : List Call) : Listing := calls.foldl step {}

/-- Every label that is referenced is defined. -/
def Defined (s : Listing) : Prop := ∀ line ∈ s.lines, ∀ lbl ∈ line.lbl?, (s.labels lbl).isSome

/-- Some branch or jump is too far from its label. -/
def TooFar (s : Listing) : Prop :=
  ∃ i t : ℕ,
    (∃ c r1 r2 lbl, s.lines[i]? = some (.branch c r1 r2 lbl) ∧ s.labels lbl = some t ∧
      ¬(-4096 ≤ 4 * ((t : ℤ) - i) ∧ 4 * ((t : ℤ) - i) ≤ 4094)) ∨
    ∃ rd lbl, s.lines[i]? = some (.jal rd lbl) ∧ s.labels lbl = some t ∧
      ¬(-1048576 ≤ 4 * ((t : ℤ) - i) ∧ 4 * ((t : ℤ) - i) ≤ 1048574)

/-- The word at index `i` of `words` is what its line asks for. -/
def Lands (s : Listing) (words : List Word) (i : ℕ) : Line → Prop
  | .word w => words[i]? = some w
  | .branch c r1 r2 lbl => ∃ t w, s.labels lbl = some t ∧ words[i]? = some w ∧
      decode w = { decode (encB c.funct3 r1 r2 0) with raw := w, imm := .ofInt 32 (4 * ((t : ℤ) - i)) }
  | .jal rd lbl => ∃ t w, s.labels lbl = some t ∧ words[i]? = some w ∧
      decode w = { decode (encJ rd 0) with raw := w, imm := .ofInt 32 (4 * ((t : ℤ) - i)) }
  | .auipc lbl => ∃ t w w' hi lo, s.labels lbl = some t ∧ words[i]? = some w ∧ words[i + 1]? = some w' ∧
      decode w = { raw := w, op := .auipc, kind := Op.auipc.kind, rd := 1, imm := hi, writesRd := true } ∧
      decode w' =
        { raw := w', op := .jalr, kind := Op.jalr.kind, rd := 1, rs1 := 1, imm := lo,
          isBranch := true, writesRd := true } ∧
      hi + lo = .ofInt 32 (4 * ((t : ℤ) - i)) ∧
        Signed.sub (.ofInt 32 (4 * ((t : ℤ) - i))) hi = some lo
  | .jalr lbl => 0 < i ∧ s.lines[i - 1]? = some (.auipc lbl)

end Listing

theorem repatch {m b : Word} (hb : b &&& ~~~m = 0) (w c : Word) :
    (((w &&& ~~~m) ||| b) &&& ~~~m) ||| c = (w &&& ~~~m) ||| c := by
  have hmask : ((w &&& ~~~m) ||| b) &&& ~~~m = w &&& ~~~m := by
    rw [BitVec.and_or_distrib_right, hb, BitVec.and_assoc, BitVec.and_self]
    exact BitVec.or_zero
  rw [hmask]

theorem bImmBits_masked (x : Word) : bImmBits x &&& ~~~kBmask = 0 := by
  apply BitVec.eq_of_getLsbD_eq
  intro i hi
  interval_cases i <;> simp [bImmBits, kBmask]

theorem jImmBits_masked (x : Word) : jImmBits x &&& ~~~kJmask = 0 := by
  apply BitVec.eq_of_getLsbD_eq
  intro i hi
  interval_cases i <;> simp [jImmBits, kJmask]

theorem upperBits_masked (x : Word) : ((x &&& 0xFFFFF) <<< 12) &&& ~~~(0xFFFFF000 : Word) = 0 := by
  apply BitVec.eq_of_getLsbD_eq
  intro i hi
  interval_cases i <;> simp

theorem lowerBits_masked (x : Word) : ((x &&& 0xFFF) <<< 20) &&& ~~~(0xFFF00000 : Word) = 0 := by
  apply BitVec.eq_of_getLsbD_eq
  intro i hi
  interval_cases i <;> simp

namespace Line

/-- What a fixup leaves in place of `orig`. -/
def patch : Line → Word → Word → Word
  | .word _, orig, _ => orig
  | .branch .., orig, off => patchB orig off
  | .jal .., orig, off => patchJ orig off
  | .auipc _, orig, off => patchAuipc orig off
  | .jalr _, orig, off => patchJalr orig off

/-- The last offset counts. -/
theorem patch_patch (line : Line) (w x y : Word) :
    line.patch (line.patch w x) y = line.patch w y := by
  cases line with
  | word w => rfl
  | branch c r1 r2 lbl => exact repatch (bImmBits_masked x) w _
  | jal rd lbl => exact repatch (jImmBits_masked x) w _
  | auipc lbl => exact repatch (upperBits_masked _) w _
  | jalr lbl => exact repatch (lowerBits_masked _) w _

/-- The word is the emitted one, but for an offset. -/
def Keeps (line : Line) (w : Word) : Prop := ∀ off, line.patch w off = line.patch line.emitted off

theorem Keeps.patch {line : Line} {w : Word} (h : line.Keeps w) (x : Word) :
    line.Keeps (line.patch w x) :=
  fun off => (line.patch_patch w x off).trans (h off)

end Line

/-- Splitting an offset in two loses nothing. -/
theorem callHi20_add (off : Word) : (callHi20 off <<< 12) + callLo12 off = off := by
  rw [callLo12, BitVec.add_comm]
  exact BitVec.sub_add_cancel off _

theorem callHi20_lt (off : Word) : (callHi20 off).toNat < 1048576 := by
  rw [callHi20, BitVec.toNat_ushiftRight, Nat.shiftRight_eq_div_pow]
  have hlt := (off + 0x800).isLt
  omega

theorem callHi20_shift (off : Word) :
    (callHi20 off <<< 12).toNat = (off.toNat + 2048) % 4294967296 / 4096 * 4096 := by
  have hhi : (callHi20 off).toNat = (off.toNat + 2048) % 4294967296 / 4096 := by
    rw [callHi20, BitVec.toNat_ushiftRight, Nat.shiftRight_eq_div_pow, BitVec.toNat_add]
    rfl
  rw [BitVec.toNat_shiftLeft, hhi, Nat.shiftLeft_eq]
  omega

theorem callLo12_toNat (off : Word) : (callLo12 off).toNat =
    (4294967296 - (off.toNat + 2048) % 4294967296 / 4096 * 4096 + off.toNat) % 4294967296 := by
  rw [callLo12, BitVec.toNat_sub, callHi20_shift]

/-- The rounding makes the lower part a signed number of twelve bits. -/
theorem callLo12_range (off : Word) :
    -2048 ≤ (callLo12 off).toInt ∧ (callLo12 off).toInt < 2048 := by
  have hlt := off.isLt
  rw [BitVec.toInt_eq_toNat_cond, callLo12_toNat]
  split <;> omega

/-- The subtraction overflows where the rounding carries into the sign bit. -/
theorem callSplit_fits_iff (off : Word) :
    Signed.Fits 32 (off.toInt - (callHi20 off <<< 12).toInt) ↔ off.toInt < 2147481600 := by
  have hlt := off.isLt
  have hoff := BitVec.toInt_eq_toNat_cond off
  have hhi := BitVec.toInt_eq_toNat_cond (callHi20 off <<< 12)
  rw [callHi20_shift] at hhi
  constructor
  · rintro ⟨-, hup⟩
    omega
  · intro h
    constructor <;> omega

theorem callLo12_exact {off : Word} (h : off.toInt < 2147481600) :
    Signed.sub off (callHi20 off <<< 12) = some (callLo12 off) := by
  have hlt := off.isLt
  have hoff := BitVec.toInt_eq_toNat_cond off
  have hhi := BitVec.toInt_eq_toNat_cond (callHi20 off <<< 12)
  have hlo := BitVec.toInt_eq_toNat_cond (callLo12 off)
  rw [callHi20_shift] at hhi
  rw [callLo12_toNat] at hlo
  apply Signed.ofExact_eq_some
  omega

def Cond.mnemonic : Cond → Mnemonic
  | .beq => .beq
  | .bne => .bne
  | .blt => .blt
  | .bge => .bge
  | .bltu => .bltu
  | .bgeu => .bgeu

theorem Cond.format (c : Cond) : c.mnemonic.encoding.format = .b := by
  cases c <;> rfl

theorem and_31_lt (x : Word) : (x &&& 0x1F).toNat < 32 := by
  rw [BitVec.toNat_and]
  exact Nat.and_lt_two_pow (n := 5) _ (by decide)

/-- A register operand is cut to five bits. -/
theorem and_31_and_31 (x : Word) : x &&& 0x1F &&& 0x1F = x &&& 0x1F := by
  rw [BitVec.and_assoc, BitVec.and_self]

/-- The placeholder of a branch is the branch to itself. -/
theorem patchB_placeholder (f3 r1 r2 : Word) : patchB (encB f3 r1 r2 0) 0 = encB f3 r1 r2 0 := by
  apply BitVec.eq_of_getLsbD_eq
  intro i hi
  interval_cases i <;> simp [patchB, encB, bImmBits, kBmask]

theorem decode_branch {off : Word} (c : Cond) (r1 r2 : Word) (h : Insn.ImmInRange off .b) :
    decode (patchB (encB c.funct3 r1 r2 0) off) =
      { decode (encB c.funct3 r1 r2 0) with raw := patchB (encB c.funct3 r1 r2 0) off, imm := off } := by
  have hdecode (x : Word) (hx : Insn.ImmInRange x .b) : decode (patchB (encB c.funct3 r1 r2 0) x) =
      { Insn.decoded { mnemonic := c.mnemonic, rs1 := r1 &&& 0x1F, rs2 := r2 &&& 0x1F, imm := 0 } with
        raw := patchB (encB c.funct3 r1 r2 0) x, imm := x } := by
    have hword : Insn.word { mnemonic := c.mnemonic, rs1 := r1 &&& 0x1F, rs2 := r2 &&& 0x1F, imm := x } =
        patchB (encB c.funct3 r1 r2 0) x := by
      have hmask : patchB (encB c.funct3 r1 r2 0) x = branch c.funct3 (r1 &&& 0x1F) (r2 &&& 0x1F) x := by
        rw [branch, encB, encB, and_31_and_31, and_31_and_31]
      rw [hmask]
      cases c <;> rfl
    have hrange : Insn.InRange { mnemonic := c.mnemonic, rs1 := r1 &&& 0x1F, rs2 := r2 &&& 0x1F, imm := x } := by
      refine ⟨Nat.zero_lt_succ _, and_31_lt r1, and_31_lt r2, fun _ => rfl, ?_, ?_, ?_⟩
      · cases c <;> simp [Insn.encoding, Cond.mnemonic, Mnemonic.encoding, Format.hasRs1]
      · cases c <;> simp [Insn.encoding, Cond.mnemonic, Mnemonic.encoding, Format.hasRs2]
      · rw [Insn.encoding, c.format]
        exact hx
    rw [← hword, Insn.decode_word hrange]
    cases c <;> rfl
  have hemitted := hdecode 0 ⟨by decide, by decide, by decide⟩
  rw [patchB_placeholder] at hemitted
  rw [hdecode off h, hemitted]

theorem decode_jal {off : Word} (rd : Word) (h : Insn.ImmInRange off .j) :
    decode (patchJ (encJ rd 0) off) = { decode (encJ rd 0) with raw := patchJ (encJ rd 0) off, imm := off } := by
  have hdecode (x : Word) (hx : Insn.ImmInRange x .j) : decode (jal rd x) =
      { Insn.decoded { mnemonic := .jal, rd := rd &&& 0x1F, imm := 0 } with raw := jal rd x, imm := x } := by
    have hword : Insn.word { mnemonic := .jal, rd := rd &&& 0x1F, imm := x } = jal rd x := by
      change jal (rd &&& 0x1F) x = jal rd x
      rw [jal, jal, encJ, encJ, and_31_and_31]
    have hrange : Insn.InRange { mnemonic := .jal, rd := rd &&& 0x1F, imm := x } :=
      ⟨and_31_lt rd, Nat.zero_lt_succ _, Nat.zero_lt_succ _,
        fun h => (Bool.false_ne_true h.symm).elim, fun _ => rfl, fun _ => rfl, hx⟩
    rw [← hword, Insn.decode_word hrange]
    rfl
  have hemitted := hdecode 0 ⟨by decide, by decide, by decide⟩
  have hpatched : patchJ (encJ rd 0) off = jal rd off := jalTo_eq rd off
  rw [hpatched, hdecode off h]
  change _ = { decode (jal rd 0) with raw := jal rd off, imm := off }
  rw [hemitted]

theorem one_lt_32 : (1 : Word).toNat < 32 := by decide

theorem decode_callAuipc (off : Word) : decode (patchAuipc (encU 0x17 1 0) off) =
    { raw := patchAuipc (encU 0x17 1 0) off, op := .auipc, kind := Op.auipc.kind, rd := 1,
      imm := callHi20 off <<< 12, writesRd := true } := by
  have hword : Insn.word { mnemonic := .auipc, rd := 1, imm := callHi20 off } =
      patchAuipc (encU 0x17 1 0) off := by
    change encU 0x17 1 (callHi20 off) = _
    apply BitVec.eq_of_getLsbD_eq
    intro i hi
    interval_cases i <;> simp [patchAuipc, encU]
  have hrange : Insn.InRange { mnemonic := .auipc, rd := 1, imm := callHi20 off } :=
    ⟨one_lt_32, Nat.zero_lt_succ _, Nat.zero_lt_succ _, fun h => (Bool.false_ne_true h.symm).elim,
      fun _ => rfl, fun _ => rfl, callHi20_lt off⟩
  rw [← hword, Insn.decode_word hrange]
  rfl

theorem decode_callJalr (off : Word) : decode (patchJalr (encI 0x67 1 0x0 1 0) off) =
    { raw := patchJalr (encI 0x67 1 0x0 1 0) off, op := .jalr, kind := Op.jalr.kind, rd := 1,
      rs1 := 1, imm := callLo12 off, isBranch := true, writesRd := true } := by
  have hword : Insn.word { mnemonic := .jalr, rd := 1, rs1 := 1, imm := callLo12 off } =
      patchJalr (encI 0x67 1 0x0 1 0) off := by
    change encI 0x67 1 0x0 1 (callLo12 off) = _
    apply BitVec.eq_of_getLsbD_eq
    intro i hi
    interval_cases i <;> simp [patchJalr, encI]
  have hrange : Insn.InRange { mnemonic := .jalr, rd := 1, rs1 := 1, imm := callLo12 off } :=
    ⟨one_lt_32, one_lt_32, Nat.zero_lt_succ _, fun h => (Bool.false_ne_true h.symm).elim,
      fun h => (Bool.false_ne_true h.symm).elim, fun _ => rfl, callLo12_range off⟩
  rw [← hword, Insn.decode_word hrange]
  rfl

/-- The bits of an offset between two words. -/
theorem immInRange_ofInt {m : ℤ} :
    (-4096 ≤ 4 * m ∧ 4 * m ≤ 4094 → Insn.ImmInRange (.ofInt 32 (4 * m)) .b) ∧
      (-1048576 ≤ 4 * m ∧ 4 * m ≤ 1048574 → Insn.ImmInRange (.ofInt 32 (4 * m)) .j) := by
  have heven : (BitVec.ofInt 32 (4 * m)).toNat % 2 = 0 := by
    rw [BitVec.toNat_ofInt]
    omega
  refine ⟨fun h => ?_, fun h => ?_⟩ <;>
  · have htoInt : (BitVec.ofInt 32 (4 * m)).toInt = 4 * m :=
      BitVec.toInt_ofInt_eq_self (by decide) (by omega) (by omega)
    refine ⟨?_, ?_, heven⟩ <;> omega

end OooCpu.Asmc
