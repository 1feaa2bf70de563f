import Mathlib.Algebra.Group.Nat.Defs
import Mathlib.Data.Int.Init
import Mathlib.Data.List.Basic

/-! # The JSON writer

The streaming writer of the cycle trace, whose containers track whether they still
owe a comma, and the trees that are written with it. Characters stand for bytes.
-/
namespace OooCpu

/-- The file and the flags of the open containers, innermost first. -/
structure Json where
  file : List Char := []
  first : List Bool := [true]

/-- A value of one of the types `num` is overloaded for. -/
inductive JsonNum
  | u64 (v : BitVec 64)
  | i64 (v : BitVec 64)
  | u32 (v : BitVec 32)
  | int (v : BitVec 32)

/-- A call on the writer. -/
inductive JsonCall
  | objBegin | objEnd | arrBegin | arrEnd
  | key (k : List Char)
  | keyNum (k : BitVec 32)
  | num (v : JsonNum)
  | boolean (b : Bool)
  | null
  | str (s : List Char)
  | lineEnd

/-- `%llu` and `%u`. -/
def formatUnsigned (n : ℕ) : List Char := Nat.toDigits 10 n

/-- `%lld`. -/
def formatSigned (n : ℤ) : List Char :=
  if n < 0 then '-' :: Nat.toDigits 10 n.natAbs else Nat.toDigits 10 n.natAbs

def upperHexDigit (n : ℕ) : Char := "0123456789ABCDEF".toList.getD n '0'

/-- `%04X`. -/
def formatHex4 (n : ℕ) : List Char := [3, 2, 1, 0].map fun i => upperHexDigit (n / 16^i % 16)

namespace Json

def put (j : Json) (cs : List Char) : Json := { j with file := j.file ++ cs }

/-- One character of a string. -/
def quoteChar (c : Char) : List Char :=
  if c = '"' then ['\\', '"']
  else if c = '\\' then ['\\', '\\']
  else if c = '\n' then ['\\', 'n']
  else if c = '\r' then ['\\', 'r']
  else if c = '\t' then ['\\', 't']
  else if c.toNat < 0x20 then '\\' :: 'u' :: formatHex4 c.toNat
  else [c]

/-- The loop over a string, which ends at a NUL. -/
def quoteChars : List Char → List Char
  | [] => []
  | c :: cs => if c.toNat = 0 then [] else quoteChar c ++ quoteChars cs

def quote (s : List Char) : List Char := ['"'] ++ quoteChars s ++ ['"']

def sep (j : Json) : Option Json :=
  match j.first with
  | [] => none
  | first :: outer =>
    some { file := if first then j.file else j.file ++ [','], first := false :: outer }

def openWith (bracket : Char) (j : Json) : Option Json :=
  j.sep.map fun j => { file := j.file ++ [bracket], first := true :: j.first }

def closeWith (bracket : Char) (j : Json) : Option Json :=
  match j.first with
  | [] => none
  | _ :: outer => some { file := j.file ++ [bracket], first := outer }

/-- `first_.back() = true`. -/
def owesNone (j : Json) : Option Json :=
  match j.first with
  | [] => none
  | _ :: outer => some { j with first := true :: outer }

def objBegin (j : Json) : Option Json := j.openWith '{'
def objEnd (j : Json) : Option Json := j.closeWith '}'
def arrBegin (j : Json) : Option Json := j.openWith '['
def arrEnd (j : Json) : Option Json := j.closeWith ']'

/-- A key owes no comma from its value, so the value writes none. -/
def key (k : List Char) (j : Json) : Option Json :=
  j.sep.bind fun j => (j.put (quote k ++ [':'])).owesNone

def keyNum (k : BitVec 32) (j : Json) : Option Json :=
  j.sep.bind fun j => (j.put (['"'] ++ formatUnsigned k.toNat ++ ['"', ':'])).owesNone

def num (v : JsonNum) (j : Json) : Option Json :=
  j.sep.map fun j => j.put <|
    match v with
    | .u64 v => formatUnsigned v.toNat
    | .i64 v => formatSigned v.toInt
    | .u32 v => formatUnsigned (v.setWidth 64).toNat
    | .int v => formatSigned (v.signExtend 64).toInt

def boolean (b : Bool) (j : Json) : Option Json :=
  j.sep.map fun j => j.put (if b then "true".toList else "false".toList)

def null (j : Json) : Option Json := j.sep.map fun j => j.put "null".toList

def str (s : List Char) (j : Json) : Option Json := j.sep.map fun j => j.put (quote s)

def lineEnd (j : Json) : Option Json := (j.put ['\n']).owesNone

def step (j : Json) : JsonCall → Option Json
  | .objBegin => j.objBegin
  | .objEnd => j.objEnd
  | .arrBegin => j.arrBegin
  | .arrEnd => j.arrEnd
  | .key k => j.key k
  | .keyNum k => j.keyNum k
  | .num v => j.num v
  | .boolean b => j.boolean b
  | .null => j.null
  | .str s => j.str s
  | .lineEnd => j.lineEnd

def run : List JsonCall → Json → Option Json
  | [], j => some j
  | call :: calls, j => (j.step call).bind (run calls)

end Json

/-- A string of ASCII characters without a NUL. -/
structure AsciiText where
  chars : List Char
  ascii : ∀ c ∈ chars, c.toNat ≠ 0 ∧ c.toNat < 128

inductive JsonKey
  | name (k : AsciiText)
  | num (k : BitVec 32)

/-- What a record says. -/
inductive JsonTree
  | obj (members : List (JsonKey × JsonTree))
  | arr (items : List JsonTree)
  | num (v : JsonNum)
  | bool (b : Bool)
  | null
  | str (s : AsciiText)

def JsonKey.call : JsonKey → JsonCall
  | .name k => .key k.chars
  | .num k => .keyNum k

mutual

/-- The calls that write a tree. -/
def JsonTree.calls : JsonTree → List JsonCall
  | .obj members => [.objBegin] ++ memberCalls members ++ [.objEnd]
  | .arr items => [.arrBegin] ++ itemCalls items ++ [.arrEnd]
  | .num v => [.num v]
  | .bool b => [.boolean b]
  | .null => [.null]
  | .str s => [.str s.chars]

def memberCalls : List (JsonKey × JsonTree) → List JsonCall
  | [] => []
  | (k, t) :: members => [k.call] ++ t.calls ++ memberCalls members

def itemCalls : List JsonTree → List JsonCall
  | [] => []
  | t :: items => t.calls ++ itemCalls items

end

/-- The calls that write records, one a line. -/
def recordCalls (records : List JsonTree) : List JsonCall :=
  records.flatMap fun t => t.calls ++ [.lineEnd]

end OooCpu
