import OooCpu.Memory
import Mathlib.Data.List.DropRight

/-! # Program loading

Hex words, raw blobs and little-endian ELF32 executables. A loader that throws
leaves behind what it had written so far. A text is a list of characters that
each stand for one byte. Sums of type `size_t` wrap at 64 bits. -/
namespace OooCpu

structure LoadResult where
  entry : Word := 0
  /-- Read-only ELF segments `[start, end)`, empty for hex and raw. -/
  roRanges : List (Word × Word) := []
  deriving DecidableEq, Repr

/-- How a loader fails: by an exception, or by a read outside its buffer. -/
inductive LoadError
  | thrown (what : String)
  | outOfBounds
  deriving DecidableEq, Repr

/-- The lines that repeated calls of `getline` read; `line` is the one being read. -/
def getlines (line : List Char) : List Char → List (List Char)
  | [] => if line = [] then [] else [line]
  | c :: rest => if c = '\n' then line :: getlines [] rest else getlines (line ++ [c]) rest

def dropReturn (line : List Char) : List Char :=
  if line.getLast? = some '\r' then line.dropLast else line

/-- What stands in front of the first `//`. -/
def beforeSlashes : List Char → List Char
  | [] => []
  | c :: rest => if c = '/' ∧ rest.head? = some '/' then [] else c :: beforeSlashes rest

def isWs (c : Char) : Bool := c == ' ' || c == '\t'

/-- A line without its carriage return, its comment and the blanks around it. -/
def stripLine (line : List Char) : List Char :=
  let line := dropReturn line
  let line := beforeSlashes line
  let line := line.takeWhile (· ≠ '#')
  (line.dropWhile isWs).rdropWhile isWs

/-- An optional `0x`. -/
def dropHexPrefix : List Char → List Char
  | '0' :: 'x' :: rest => rest
  | '0' :: 'X' :: rest => rest
  | line => line

def isHexDigit (c : Char) : Bool := "0123456789abcdefABCDEF".toList.contains c

def hexDigit (c : Char) : ℕ :=
  if c.isDigit then c.toNat - '0'.toNat
  else if c.isLower then c.toNat - 'a'.toNat + 10
  else c.toNat - 'A'.toNat + 10

def hexValue (digits : List Char) : ℕ := digits.foldl (fun n c => n * 16 + hexDigit c) 0

/-- Conversion to an `unsigned long` of 64 bits; out of range it throws. -/
def stoul (digits : List Char) : Except LoadError ℕ :=
  if hexValue digits < 18446744073709551616 then .ok (hexValue digits) else .error (.thrown "stoul")

/-- The word of a line that is not blank. -/
def hexWord (line : List Char) : Except LoadError Word :=
  let line := dropHexPrefix line
  if line = [] ∨ line.all isHexDigit = false
  then .error (.thrown ("load_hex: invalid hex word '" ++ String.ofList line ++ "'"))
  else (stoul line).map (BitVec.ofNat 32)

def loadHexLines : List (List Char) → Memory → Word → Memory × Except LoadError Unit
  | [], mem, _ => (mem, .ok ())
  | line :: rest, mem, addr =>
    if stripLine line = [] then loadHexLines rest mem addr
    else match hexWord (stripLine line) with
      | .error e => (mem, .error e)
      | .ok word => loadHexLines rest (mem.storeU32 addr word) (addr + 4)

/-- One hex word per line, loaded consecutively from `base`. -/
def loadHex (mem : Memory) (text : List Char) (base : Word) :
    Memory × Except LoadError LoadResult :=
  let r := loadHexLines (getlines [] text) mem base
  (r.1, r.2.map fun _ => { entry := base })

def loadRaw (mem : Memory) (buf : List Byte) (base : Word) : Memory × LoadResult :=
  (if buf = [] then mem else mem.writeBytes base buf, { entry := base })

def PT_LOAD : Word := 1
def PF_W : Word := 2
def PF_R : Word := 4

def readU8 (buf : List Byte) (off : ℕ) : Except LoadError Byte :=
  match buf[off]? with
  | some b => .ok b
  | none => .error .outOfBounds

def rdU16 (buf : List Byte) (off : ℕ) : Except LoadError (BitVec 16) := do
  let b0 ← readU8 buf off
  let b1 ← readU8 buf (off + 1)
  return (b0.setWidth 16) ||| ((b1.setWidth 16) <<< 8)

def rdU32 (buf : List Byte) (off : ℕ) : Except LoadError Word := do
  let b0 ← readU8 buf off
  let b1 ← readU8 buf (off + 1)
  let b2 ← readU8 buf (off + 2)
  let b3 ← readU8 buf (off + 3)
  return (b0.setWidth 32) ||| ((b1.setWidth 32) <<< 8) ||| ((b2.setWidth 32) <<< 16) |||
    ((b3.setWidth 32) <<< 24)

/-- The bytes a bulk write reads from the buffer. -/
def readBytes (buf : List Byte) (off len : ℕ) : Except LoadError (List Byte) :=
  if len = 0 ∨ off + len ≤ buf.length then .ok ((buf.drop off).take len) else .error .outOfBounds

/-- The fields of a program header that are looked at. -/
structure Phdr where
  type : Word
  offset : Word
  vaddr : Word
  filesz : Word
  memsz : Word
  flags : Word

def readPhdr (buf : List Byte) (baseOff : ℕ) : Except LoadError Phdr := do
  let type ← rdU32 buf (baseOff + 0)
  let offset ← rdU32 buf (baseOff + 4)
  let vaddr ← rdU32 buf (baseOff + 8)
  let filesz ← rdU32 buf (baseOff + 16)
  let memsz ← rdU32 buf (baseOff + 20)
  let flags ← rdU32 buf (baseOff + 24)
  return { type, offset, vaddr, filesz, memsz, flags }

/-- Place the segment of one header, if it is a `PT_LOAD`. -/
def loadSegment (buf : List Byte) (ph : Phdr) (mem : Memory) (ro : List (Word × Word)) :
    Memory × Except LoadError (List (Word × Word)) :=
  if ph.type ≠ PT_LOAD then (mem, .ok ro)
  else if buf.length < u64 (ph.offset.toNat + ph.filesz.toNat)
  then (mem, .error (.thrown "load_elf: PT_LOAD segment past EOF"))
  else match readBytes buf ph.offset.toNat ph.filesz.toNat with
    | .error e => (mem, .error e)
    | .ok data => (mem.writeBytes ph.vaddr data,
        .ok (if ph.flags &&& PF_R ≠ 0 ∧ ph.flags &&& PF_W = 0
          then ro ++ [(ph.vaddr, ph.vaddr + ph.memsz)] else ro))

def loadSegments (buf : List Byte) (phoff : Word) (phentsize : BitVec 16) :
    List ℕ → Memory → List (Word × Word) → Memory × Except LoadError (List (Word × Word))
  | [], mem, ro => (mem, .ok ro)
  | i :: rest, mem, ro =>
    let baseOff := u64 (phoff.toNat + u64 (i * phentsize.toNat))
    if buf.length < u64 (baseOff + 32) then (mem, .error (.thrown "load_elf: Elf32_Phdr past EOF"))
    else match readPhdr buf baseOff with
      | .error e => (mem, .error e)
      | .ok ph => match loadSegment buf ph mem ro with
        | (mem, .error e) => (mem, .error e)
        | (mem, .ok ro) => loadSegments buf phoff phentsize rest mem ro

/-- The checks in front of the header fields. -/
def checkIdent (buf : List Byte) : Except LoadError Unit := do
  if buf.length < 52 then throw (.thrown "load_elf: file too small for Elf32_Ehdr")
  if (← readU8 buf 0) ≠ 0x7F ∨ (← readU8 buf 1) ≠ 0x45 ∨ (← readU8 buf 2) ≠ 0x4C ∨
    (← readU8 buf 3) ≠ 0x46 then
    throw (.thrown "load_elf: bad ELF magic")
  if (← readU8 buf 4) ≠ 1 then throw (.thrown "load_elf: not ELFCLASS32")
  if (← readU8 buf 5) ≠ 1 then throw (.thrown "load_elf: not ELFDATA2LSB")

/-- The fields of the file header that are looked at. -/
structure Ehdr where
  entry : Word
  phoff : Word
  phentsize : BitVec 16
  phnum : BitVec 16

def readEhdr (buf : List Byte) : Except LoadError Ehdr := do
  checkIdent buf
  let entry ← rdU32 buf 24
  let phoff ← rdU32 buf 28
  let phentsize ← rdU16 buf 42
  let phnum ← rdU16 buf 44
  return { entry, phoff, phentsize, phnum }

/-- Load every `PT_LOAD` at its address and record the read-only ones. -/
def loadElf (mem : Memory) (buf : List Byte) : Memory × Except LoadError LoadResult :=
  match readEhdr buf with
  | .error e => (mem, .error e)
  | .ok eh =>
    let r := loadSegments buf eh.phoff eh.phentsize (List.range eh.phnum.toNat) mem []
    (r.1, r.2.map fun ro => { entry := eh.entry, roRanges := ro })

end OooCpu
