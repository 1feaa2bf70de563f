import OooCpu.Config
import OooCpu.JsonText
import OooCpu.Memory

/-! # The command line

Every knob of the machine is an option. Options are read from the left and the
last of a kind wins; a value follows its flag after an equals sign or as the next
argument. -/
namespace OooCpu.Cli

/-- Arguments and messages are strings of characters. -/
abbrev Text := List Char

structure CliOpts where
  hexPath : Text := []
  rawPath : Text := []
  elfPath : Text := []
  base : Word := 0
  hasBase : Bool := false
  printRegs : Bool := false
  trace : Bool := false
  tracePath : Text := []
  traceFrom : ℕ := 0
  traceMax : ℕ := 50000
  showHelp : Bool := false
  useRef : Bool := false
  showStats : Bool := false
  ipcTable : Bool := false
  maxInsts : ℕ := 100000000
  maxCycles : ℕ := 1000000000
  cfg : Config := {}
  deriving DecidableEq, Repr

/-- One entry for each field of the configuration. -/
structure ConfigKnob where
  flag : Text
  get : Config → ℕ
  set : ℕ → Config → Config

def KNOBS : List ConfigKnob :=
  [⟨"--width".toList, Config.width, fun n c => { c with width := n }⟩,
    ⟨"--rob".toList, Config.robSize, fun n c => { c with robSize := n }⟩,
    ⟨"--prf".toList, Config.prfSize, fun n c => { c with prfSize := n }⟩,
    ⟨"--iq".toList, Config.iqSize, fun n c => { c with iqSize := n }⟩,
    ⟨"--lq".toList, Config.lqSize, fun n c => { c with lqSize := n }⟩,
    ⟨"--sq".toList, Config.sqSize, fun n c => { c with sqSize := n }⟩,
    ⟨"--cdb".toList, Config.numCdb, fun n c => { c with numCdb := n }⟩,
    ⟨"--alu".toList, Config.numAlu, fun n c => { c with numAlu := n }⟩,
    ⟨"--branch".toList, Config.numBranch, fun n c => { c with numBranch := n }⟩,
    ⟨"--mul".toList, Config.numMul, fun n c => { c with numMul := n }⟩,
    ⟨"--div".toList, Config.numDiv, fun n c => { c with numDiv := n }⟩,
    ⟨"--mem".toList, Config.numMem, fun n c => { c with numMem := n }⟩,
    ⟨"--alu-lat".toList, Config.aluLatency, fun n c => { c with aluLatency := n }⟩,
    ⟨"--branch-lat".toList, Config.branchLatency, fun n c => { c with branchLatency := n }⟩,
    ⟨"--mul-lat".toList, Config.mulLatency, fun n c => { c with mulLatency := n }⟩,
    ⟨"--div-lat".toList, Config.divLatency, fun n c => { c with divLatency := n }⟩,
    ⟨"--mem-lat".toList, Config.memLatency, fun n c => { c with memLatency := n }⟩,
    ⟨"--ghr".toList, Config.ghrBits, fun n c => { c with ghrBits := n }⟩,
    ⟨"--pht".toList, Config.phtSize, fun n c => { c with phtSize := n }⟩,
    ⟨"--btb-sets".toList, Config.btbSets, fun n c => { c with btbSets := n }⟩,
    ⟨"--btb-ways".toList, Config.btbWays, fun n c => { c with btbWays := n }⟩,
    ⟨"--ras".toList, Config.rasSize, fun n c => { c with rasSize := n }⟩,
    ⟨"--chkpt".toList, Config.numCheckpoints, fun n c => { c with numCheckpoints := n }⟩]

def isSpace (c : Char) : Bool := c == ' ' || (9 ≤ c.toNat && c.toNat ≤ 13)

/-- The value of a digit in bases up to 36; other characters have no value below that. -/
def digitValue (c : Char) : ℕ :=
  if c.isDigit then c.toNat - '0'.toNat
  else if 'a' ≤ c ∧ c ≤ 'z' then c.toNat - 'a'.toNat + 10
  else if 'A' ≤ c ∧ c ≤ 'Z' then c.toNat - 'A'.toNat + 10
  else 36

def splitSign : Text → Bool × Text
  | '-' :: cs => (true, cs)
  | '+' :: cs => (false, cs)
  | cs => (false, cs)

/-- The base a number is written in, and the digits on. -/
def splitBase : Text → ℕ × Text
  | '0' :: x :: c :: cs =>
    if (x = 'x' ∨ x = 'X') ∧ digitValue c < 16 then (16, c :: cs) else (8, '0' :: x :: c :: cs)
  | '0' :: cs => (8, '0' :: cs)
  | cs => (10, cs)

def value (base : ℕ) (digits : Text) : ℕ := digits.foldl (fun n c => base * n + digitValue c) 0

/-- An unsigned number of 64 bits in the base its prefix says, after blanks and a sign, and what is
left behind it. A minus sign negates modulo 2^64; no digits and too many digits are errors. -/
def stoull (s : Text) : Option (ℕ × Text) :=
  let (negative, body) := splitSign (s.dropWhile isSpace)
  let (base, body) := splitBase body
  let digits := body.takeWhile fun c => digitValue c < base
  let rest := body.dropWhile fun c => digitValue c < base
  if digits = [] then none
  else
    let n := value base digits
    if 2^64 ≤ n then none else some (if negative then (2^64 - n) % 2^64 else n, rest)

def parseUint (s : Text) : Option ℕ :=
  match stoull s with
  | some (n, []) => if n ≤ 0xFFFFFFFF then some n else none
  | _ => none

def parseU64 (s : Text) : Option ℕ :=
  match stoull s with
  | some (n, []) => some n
  | _ => none

def flagOf (tok : Text) : Text := tok.takeWhile (· ≠ '=')

/-- What stands behind the equals sign, if there is one. -/
def valueOf (tok : Text) : Option Text :=
  if '=' ∈ tok then some (tok.dropWhile (· ≠ '=')).tail else none

/-- The value of an option, and whether it took the next argument. -/
def takeValue (tok : Text) (next : Option Text) : Except Text (Text × Bool) :=
  match valueOf tok, next with
  | some v, _ => .ok (v, false)
  | none, some v => .ok (v, true)
  | none, none => .error ("oooc: ".toList ++ flagOf tok ++ " requires a value".toList)

/-- What one argument does. -/
inductive Reading
  | stop (o : CliOpts)
  | fail (message : Text)
  | goOn (o : CliOpts) (took : Bool)

/-- An option with a value, which has to be a good one. -/
def valued (tok : Text) (next : Option Text) (assign : Text → Option CliOpts) : Reading :=
  match takeValue tok next with
  | .error message => .fail message
  | .ok (v, took) =>
    match assign v with
    | some o => .goOn o took
    | none => .fail ("oooc: bad ".toList ++ flagOf tok ++ " '".toList ++ v ++ "'".toList)

def readArg (tok : Text) (next : Option Text) (o : CliOpts) : Reading :=
  let flag := flagOf tok
  if flag = "--help".toList ∨ flag = "-h".toList then .stop { o with showHelp := true }
  else if flag = "--regs".toList then .goOn { o with printRegs := true } false
  -- only the spelling with an equals sign supplies a path: the next argument may be the program
  else if flag = "--trace".toList then
    .goOn { o with trace := true, tracePath := (valueOf tok).getD o.tracePath } false
  else if flag = "--ref".toList then .goOn { o with useRef := true } false
  else if flag = "--stats".toList then .goOn { o with showStats := true } false
  else if flag = "--ipc-table".toList then .goOn { o with ipcTable := true } false
  else if flag = "--hex".toList then valued tok next fun v => some { o with hexPath := v }
  else if flag = "--raw".toList then valued tok next fun v => some { o with rawPath := v }
  else if flag = "--base".toList then
    valued tok next fun v => (parseUint v).map fun n =>
      { o with base := BitVec.ofNat 32 n, hasBase := true }
  else if flag = "--max-insts".toList then
    valued tok next fun v => (parseU64 v).map fun n => { o with maxInsts := n }
  else if flag = "--trace-from".toList then
    valued tok next fun v => (parseU64 v).map fun n => { o with traceFrom := n }
  else if flag = "--trace-max".toList then
    valued tok next fun v => (parseU64 v).map fun n => { o with traceMax := n }
  else if flag = "--max-cycles".toList then
    valued tok next fun v => (parseU64 v).map fun n => { o with maxCycles := n }
  else match KNOBS.find? fun k => flag = k.flag with
    | some k => valued tok next fun v => (parseUint v).map fun n => { o with cfg := k.set n o.cfg }
    | none =>
      if tok ≠ [] ∧ tok.head? ≠ some '-' then
        if o.elfPath ≠ [] then .fail "oooc: multiple positional arguments".toList
        else .goOn { o with elfPath := tok } false
      else .fail ("oooc: unknown flag '".toList ++ flag ++ "'".toList)

def parseArgs : List Text → CliOpts → Except Text CliOpts
  | [], o => .ok o
  | tok :: rest, o =>
    match readArg tok rest.head? o with
    | .stop o => .ok o
    | .fail message => .error message
    | .goOn o false => parseArgs rest o
    | .goOn o true =>
      match rest with
      | [] => .ok o
      | _ :: rest => parseArgs rest o

end OooCpu.Cli
