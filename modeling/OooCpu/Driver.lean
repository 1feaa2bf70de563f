import OooCpu.CommandLineRoundTrip
import OooCpu.JsonWriter
import OooCpu.Loader
import OooCpu.RunEnd
import OooCpu.Tracing

/-! # The driver

From a command line and the files it names to what is printed and the exit
status. Programs run on the pipeline, or on the reference interpreter when the
command line asks for it. -/
namespace OooCpu.Cli

/-- The files that can be read, and the paths that can be written. -/
structure Files where
  read : Text → Option (List Byte)
  writable : Text → Bool

/-- What a run reports about the program. -/
structure Outcome where
  regs : ArchReg → Word
  halted : Bool
  trapped : Bool
  budget : Bool
  retired : ℕ
  exitCode : Word

/-- How the driver ends. -/
inductive Ending
  | help
  /-- A message on the error stream. -/
  | failed (message : Text) (status : ℕ)
  /-- Cycles and retired instructions of each machine in the table. -/
  | table (rows : List (Text × ℕ × ℕ))
  /-- The statistics if asked for, what else goes to the output stream, and the exit status. -/
  | ran (stats : Option Stats) (out : Text) (status : Word)
  /-- A loader reads outside its buffer. -/
  | undefined

def inputsGiven (o : CliOpts) : ℕ :=
  (if o.hexPath ≠ [] then 1 else 0) + (if o.rawPath ≠ [] then 1 else 0) + (if o.elfPath ≠ [] then 1
    else 0)

def cannotOpen (path : Text) : Ending := .failed ("oooc: cannot open ".toList ++ path) 2

/-- The image and the entry point, or how loading failed. -/
def loaded : Memory × Except LoadError LoadResult → Except Ending (Memory × Word)
  | (mem, .ok r) => .ok (mem, r.entry)
  | (_, .error (.thrown what)) => .error (.failed ("oooc: load failed: ".toList ++ what.toList) 2)
  | (_, .error .outOfBounds) => .error .undefined

/-- The characters of a text file stand for its bytes. -/
def textOf (bytes : List Byte) : List Char := bytes.map fun b => Char.ofNat b.toNat

def loadProgram (files : Files) (o : CliOpts) : Except Ending (Memory × Word) :=
  if o.hexPath ≠ [] then
    match files.read o.hexPath with
    | none => .error (cannotOpen o.hexPath)
    | some bytes => loaded (loadHex .empty (textOf bytes) o.base)
  else if o.rawPath ≠ [] then
    match files.read o.rawPath with
    | none => .error (cannotOpen o.rawPath)
    | some bytes => .ok ((loadRaw .empty bytes o.base).1, (loadRaw .empty bytes o.base).2.entry)
  else
    match files.read o.elfPath with
    | none => .error (cannotOpen o.elfPath)
    | some bytes => loaded (loadElf .empty bytes)

/-- A failed write of the trace. -/
def cannotWrite (path : Text) : Ending := .failed ("oooc: cannot write ".toList ++ path) 2

def DEFAULT_TRACE_PATH : Text := "trace.ndjson".toList

def tracePathOf (o : CliOpts) : Text := if o.tracePath = [] then DEFAULT_TRACE_PATH else o.tracePath

/-- The reference interpreter; its trace goes to the error stream unless it has a path. -/
def runRef (files : Files) (o : CliOpts) (mem : Memory) (entry : Word) :
    Except Ending (Option Stats × Outcome) :=
  if o.trace ∧ o.tracePath ≠ [] ∧
    files.writable o.tracePath = false then .error (cannotWrite o.tracePath)
  else
    let r := (Ref.run mem entry o.maxInsts).1.2
    .ok (none,
      { regs := r.regs
        halted := r.halted
        trapped := r.trapped
        budget := (Ref.run mem entry o.maxInsts).2
        retired := r.retired
        exitCode := r.exitCode })

/-- What the pipeline reports. -/
def outcomeOf (s : Cpu) : Outcome where
  regs := s.reg
  halted := s.halted
  trapped := s.trapped
  budget := !s.done
  retired := s.stats.retired
  exitCode := s.exitCode

/-- The pipeline; a trace is taken first and the run finished without it. -/
def runCpu (files : Files) (o : CliOpts) (mem : Memory) (entry : Word) :
    Except Ending (Option Stats × Outcome) :=
  if o.trace ∧ files.writable (tracePathOf o) = false then .error (cannotWrite (tracePathOf o))
  else
    let cpu := Cpu.reset mem o.cfg entry
    let cpu := if o.trace then (Cpu.runWithTrace cpu o.traceFrom o.traceMax o.maxCycles).cpu
      else cpu
    let cpu := cpu.run o.maxCycles
    .ok (if o.showStats then some cpu.stats else none, outcomeOf cpu)

/-- The machines of the table. -/
def tableMachines : List (Text × Config) :=
  [("1-wide".toList, { width := 1 }),
    ("2-wide".toList, {}),
    ("4-wide".toList, { width := 4, robSize := 128, prfSize := 160, iqSize := 32, numAlu := 4, numCdb := 4 }),
    ("ROB=4, IQ=2".toList, { robSize := 4, prfSize := 40, iqSize := 2 })]

/-- The same program on four machines. -/
def ipcTable (mem : Memory) (entry : Word) (maxCycles : ℕ) : List (Text × ℕ × ℕ) :=
  tableMachines.map fun m =>
    let cpu := (Cpu.reset mem m.2 entry).run maxCycles
    (m.1, cpu.stats.cycles, cpu.stats.retired)

/-- `%08X`. -/
def hex8 (w : Word) : Text :=
  [7, 6, 5, 4, 3, 2, 1, 0].map fun i => upperHexDigit (w.toNat / 16^i % 16)

/-- `x%-2d = 0x%08X` and what separates it from the next. -/
def registerText (w : Word) (i : ℕ) : Text :=
  ['x'] ++ formatUnsigned i ++ (if i < 10 then [' '] else []) ++ " = 0x".toList ++ hex8 w
    ++ (if i % 4 = 3 then ['\n'] else "  ".toList)

def flagText (b : Bool) : Text := if b then ['1'] else ['0']

def report (o : CliOpts) (r : Outcome) : Text :=
  (if o.printRegs then (List.finRange 32).flatMap fun i => registerText (r.regs i) i else [])
    ++ "halted=".toList ++ flagText r.halted ++ " trapped=".toList ++ flagText r.trapped
    ++ " budget=".toList ++ flagText r.budget ++ " retired=".toList ++ formatUnsigned r.retired
    ++ " exit=".toList ++ formatUnsigned r.exitCode.toNat ++ ['\n']

def exitStatus (r : Outcome) : Word := if r.trapped then 1 else r.exitCode

/-- What happens once the program is in memory. -/
def runProgram (files : Files) (o : CliOpts) (mem : Memory) (entry : Word) : Ending :=
  if o.ipcTable then .table (ipcTable mem entry o.maxCycles)
  else match if o.useRef then runRef files o mem entry else runCpu files o mem entry with
    | .error e => e
    | .ok (stats, r) => .ran stats (report o r) (exitStatus r)

/-- What the options ask for. -/
def runOpts (files : Files) (o : CliOpts) : Ending :=
  if o.showHelp then .help
  else if inputsGiven o ≠ 1 then .failed "oooc: give exactly one of --hex, --raw, or a positional ELF".toList 2
  else if o.rawPath ≠ [] ∧ o.hasBase = false then .failed "oooc: --raw requires --base".toList 2
  else match loadProgram files o with
    | .error e => e
    | .ok (mem, entry) => runProgram files o mem entry

def main (files : Files) (args : List Text) : Ending :=
  match parseArgs args {} with
  | .error message => .failed message 1
  | .ok o => runOpts files o

section Append
variable {tok : Text} {next next' : Option Text} {o o' : CliOpts} {args rest : List Text}
    {took : Bool}

private theorem valued_ne_stop {assign : Text → Option CliOpts} :
    valued tok next assign ≠ .stop o' := by
  intro h
  rw [valued] at h
  split at h
  · contradiction
  · split at h <;> contradiction

/-- Only a request for help stops the reading early. -/
theorem showHelp_of_stop (h : readArg tok next o = .stop o') : o'.showHelp = true := by
  by_cases hvalued : flagOf tok ∈ valuedFlags
  · obtain ⟨assign, hread⟩ := readArg_valued hvalued
    rw [hread tok next o rfl] at h
    exact absurd h valued_ne_stop
  · obtain ⟨-, hshort⟩ : readArg tok next o = readArg tok next o ∧ (readArg tok next o).Short :=
      readArg_alone hvalued
    rw [h] at hshort
    exact hshort

/-- What was read without a next argument is read the same with one. -/
theorem readArg_last (h : readArg tok none o = .goOn o' took) :
    took = false ∧ readArg tok next o = .goOn o' false := by
  by_cases hvalued : tok ∈ valuedFlags
  · obtain ⟨assign, hread⟩ := readArg_valued hvalued
    have hplain := valuedFlags_plain tok hvalued
    have hnone : valueOf tok = none := if_neg hplain
    rw [hread tok none o (flagOf_of_plain hplain)] at h
    simp only [valued, takeValue, hnone] at h
    contradiction
  · obtain ⟨heq, hshort⟩ : readArg tok none o = readArg tok next o ∧ (readArg tok none o).Short :=
      readArg_next hvalued
    rw [h] at heq hshort
    obtain rfl : took = false := hshort
    exact ⟨rfl, heq.symm⟩

/-- More arguments are read behind a command line that was accepted. -/
theorem parseArgs_append (hread : parseArgs args o = .ok o') (hhelp : o'.showHelp = false) :
    parseArgs (args ++ rest) o = parseArgs rest o' := by
  fun_induction parseArgs args o with
  | case1 =>
    obtain rfl := Except.ok.inj hread
    rfl
  | case2 _ _ _ _ hone =>
    obtain rfl := Except.ok.inj hread
    rw [showHelp_of_stop hone] at hhelp
    contradiction
  | case3 => contradiction
  | case4 tok more o o'' hone ih =>
    rw [List.cons_append, parseArgs]
    cases more with
    | nil =>
      rw [(readArg_last hone).2]
      exact ih hread
    | cons v more =>
      rw [List.cons_append, List.head?_cons,
        show readArg tok (some v) o = .goOn o'' false from hone]
      exact ih hread
  | case5 tok o o'' hone =>
    obtain ⟨htook, -⟩ : true = false ∧ readArg tok none o = .goOn o'' false := readArg_last hone
    contradiction
  | case6 tok o o'' v more hone ih =>
    rw [List.cons_append, List.cons_append, parseArgs, List.head?_cons,
      show readArg tok (some v) o = .goOn o'' true from hone]
    exact ih hread

end Append

section Agree
variable {files : Files} {o : CliOpts} {mem : Memory} {entry : Word}

/-- A run that is traced first ends where the plain one does. -/
theorem runWithTrace_alike (cfg : Config) (traceFrom traceMax maxCycles : ℕ) :
    Cpu.Alike ((Cpu.reset mem cfg entry).run maxCycles)
      ((Cpu.runWithTrace (Cpu.reset mem cfg entry) traceFrom traceMax maxCycles).cpu.run
        maxCycles) := by
  have hstart : Cpu.Traced.Faithful mem cfg entry traceFrom traceMax maxCycles
    { cpu := Cpu.reset mem cfg entry } := .reset
  have hreset : Cpu.Reached mem cfg entry (Cpu.reset mem cfg entry) := .reset
  obtain ⟨hend, -⟩ := hstart.loop (Nat.le_refl (maxCycles - (Cpu.reset mem cfg entry).cycle))
  obtain ⟨hp, hpon, hpoff⟩ :=
    hreset.runLoop (Nat.le_refl (maxCycles - (Cpu.reset mem cfg entry).cycle)) fun c hc =>
    absurd hc (Nat.not_lt_zero c)
  obtain ⟨ht, hton, htoff⟩ :=
    (hend.reached.observe false).runLoop (Nat.le_refl (maxCycles - _)) hend.goesOn
  have hsame := Cpu.goesOn_unique hpon hpoff hton htoff
  exact hp.symm.trans (hsame ▸ ht)

theorem outcomeOf_alike {s t : Cpu} (h : Cpu.Alike s t) : outcomeOf t = outcomeOf s := by
  obtain ⟨obs, rfl⟩ := h
  rfl

/-- The interpreter reports what a finished run of the pipeline reports. -/
theorem outcome_eq (o : CliOpts) (hcfg : o.cfg.Admissible)
    (hb : ((Cpu.reset mem o.cfg entry).run o.maxCycles).stats.renamed < 4294967296)
    (htame : Ref.Tame mem entry ((Cpu.reset mem o.cfg entry).run o.maxCycles).stats.retired)
    (hdone : ((Cpu.reset mem o.cfg entry).run o.maxCycles).done = true)
    (hbudget : ((Cpu.reset mem o.cfg entry).run o.maxCycles).stats.retired ≤ o.maxInsts)
    (hwrite : o.tracePath ≠ [] → o.trace = true → files.writable o.tracePath = true) :
    runRef files o mem entry =
      .ok (none, outcomeOf ((Cpu.reset mem o.cfg entry).run o.maxCycles)) := by
  have hreset : Cpu.Reached mem o.cfg entry (Cpu.reset mem o.cfg entry) := .reset
  obtain ⟨hreached, -⟩ :=
    hreset.runLoop (Nat.le_refl (o.maxCycles - (Cpu.reset mem o.cfg entry).cycle)) fun c hc =>
    absurd hc (Nat.not_lt_zero c)
  change Cpu.Reached mem o.cfg entry ((Cpu.reset mem o.cfg entry).run o.maxCycles) at hreached
  generalize (Cpu.reset mem o.cfg entry).run o.maxCycles = s at *
  have hticked (k : ℕ) := @Cpu.ended_ticked mem entry o.cfg k hcfg
  obtain ⟨obs, hobs⟩ := hreached
  specialize hticked s.cycle
  generalize Cpu.ticked mem o.cfg entry s.cycle = t at *
  subst hobs
  obtain ⟨hruns, hlast, hagrees, -⟩ := hticked hb htame hdone
  have hrun := Ref.run_eq hruns hlast hbudget
  rw [runRef, if_neg
    (by rintro ⟨htrace, hpath, hno⟩; rw [hwrite hpath htrace] at hno; contradiction), hrun]
  refine congrArg (fun r => Except.ok (none, r)) ?_
  rw [outcomeOf_alike (s := t) ⟨obs, rfl⟩]
  have hends : t.done = true := hdone
  simp only [outcomeOf, hends,
    Ref.retired_steps, ← hagrees.halted, ← hagrees.trapped, ← hagrees.exitCode, Bool.not_true]
  rw [funext hagrees.regs]

/-- Asking for the interpreter changes nothing of what is printed and of the exit status, for a
program that the pipeline finishes. -/
theorem main_ref (files : Files) (args : List Text) (o : CliOpts) (mem : Memory) (entry : Word)
    (hparse : parseArgs args {} = .ok o) (hhelp : o.showHelp = false) (hstats : o.showStats = false)
    (hload : loadProgram files o = .ok (mem, entry))
    (hwrite : o.trace = true → files.writable (tracePathOf o) = true) (hcfg : o.cfg.Admissible)
    (hb : ((Cpu.reset mem o.cfg entry).run o.maxCycles).stats.renamed < 4294967296)
    (htame : Ref.Tame mem entry ((Cpu.reset mem o.cfg entry).run o.maxCycles).stats.retired)
    (hdone : ((Cpu.reset mem o.cfg entry).run o.maxCycles).done = true)
    (hbudget : ((Cpu.reset mem o.cfg entry).run o.maxCycles).stats.retired ≤ o.maxInsts) :
    main files (args ++ ["--ref".toList]) = main files args := by
  have hparse' : parseArgs (args ++ ["--ref".toList]) {} = .ok { o with useRef := true } := by
    rw [parseArgs_append hparse hhelp]
    rfl
  have hpath (hne : o.tracePath ≠ []) (htrace : o.trace = true) :
      files.writable o.tracePath = true := by
    have hw := hwrite htrace
    rwa [tracePathOf, if_neg hne] at hw
  have href : runRef files { o with useRef := true } mem entry =
      .ok (none, outcomeOf ((Cpu.reset mem o.cfg entry).run o.maxCycles)) :=
    outcome_eq { o with useRef := true } hcfg hb htame hdone hbudget hpath
  have hcpu : runCpu files o mem entry =
      .ok (none, outcomeOf ((Cpu.reset mem o.cfg entry).run o.maxCycles)) := by
    rw [runCpu, if_neg (by rintro ⟨htrace, hno⟩; rw [hwrite htrace] at hno; contradiction), hstats]
    refine congrArg (fun r => Except.ok (none, r)) ?_
    cases o.trace with
    | true => exact outcomeOf_alike (runWithTrace_alike o.cfg o.traceFrom o.traceMax o.maxCycles)
    | false => rfl
  by_cases huse : o.useRef = true
  · have hsame : { o with useRef := true } = o := by rw [← huse]
    rw [main, main, hparse', hparse, hsame]
  · have hprogram :
      runProgram files { o with useRef := true } mem entry = runProgram files o mem entry := by
      rw [runProgram, runProgram, if_pos rfl, href, if_neg huse, hcpu]
      rfl
    have hload' : loadProgram files { o with useRef := true } = .ok (mem, entry) := hload
    rw [main, main, hparse', hparse]
    dsimp only
    rw [runOpts, runOpts, hload', hload]
    dsimp only
    rw [hprogram]
    rfl

/-- A program that exits with 7. -/
def exiting : List Byte := [0x93, 0x08, 0xD0, 0x05, 0x13, 0x05, 0x70, 0x00, 0x73, 0x00, 0x00, 0x00]

theorem main_ref_exiting :
    main ⟨fun _ => some exiting, fun _ => true⟩
        (["--raw=p".toList, "--base=0".toList, "--max-cycles=40".toList, "--trace".toList] ++ ["--ref".toList]) =
      main ⟨fun _ => some exiting, fun _ => true⟩
        ["--raw=p".toList, "--base=0".toList, "--max-cycles=40".toList, "--trace".toList] :=
  main_ref _ _ { rawPath := "p".toList, hasBase := true, trace := true, maxCycles := 40 } (loadRaw .empty exiting 0).1 0
    (by decide +kernel) rfl rfl rfl (fun _ => rfl) OooCpu.Cpu.admissible_default (by decide +kernel)
      (by decide +kernel)
    (by decide +kernel) (by decide +kernel)

end Agree

end OooCpu.Cli
