import OooCpu.CommandLine
import Mathlib.Data.List.TakeWhile

/-! # Every setting can be asked for, and only those

A command line written out for a setting of the options reads back as that
setting. Whatever is accepted is such a setting, and it makes no difference
whether a value follows an equals sign or comes as the next argument. -/
namespace OooCpu.Cli
variable {tok v : Text} {next next' : Option Text} {o o' : CliOpts} {n : ℕ} {took : Bool}
    {rest args : List Text}
  {k : ConfigKnob}

private theorem digitValue_of_isDigit {c : Char} (h : c.isDigit = true) :
    digitValue c = c.toNat - '0'.toNat := if_pos h

private theorem digitValue_lt_of_isDigit {c : Char} (h : c.isDigit = true) : digitValue c < 10 := by
  rw [digitValue_of_isDigit h]
  simp only [Char.isDigit, Bool.and_eq_true, decide_eq_true_eq, UInt32.le_iff_toNat_le] at h
  change c.val.toNat - 48 < 10
  have hhigh : c.val.toNat ≤ 57 := h.2
  omega

private theorem isSpace_of_isDigit {c : Char} (h : c.isDigit = true) : isSpace c = false := by
  simp only [Char.isDigit, Bool.and_eq_true, decide_eq_true_eq, UInt32.le_iff_toNat_le] at h
  have hlow : 48 ≤ c.toNat := h.1
  have hne : c ≠ ' ' := by
    rintro rfl
    exact absurd hlow (by decide)
  simp only [isSpace, beq_eq_false_iff_ne.mpr hne, Bool.false_or, Bool.and_eq_false_iff,
    decide_eq_false_iff_not]
  omega

private theorem value_toDigits : value 10 (Nat.toDigits 10 n) = n := by
  have hvalue (ds : Text) (m : ℕ) (h : ∀ c ∈ ds, c.isDigit = true) :
      ds.foldl (fun n c => 10 * n + digitValue c) m = Nat.ofDigitChars 10 ds m := by
    induction ds generalizing m with
    | nil => rfl
    | cons c ds ih =>
      rw [List.foldl_cons, digitValue_of_isDigit (h c List.mem_cons_self),
        ih _ fun d hd => h d (List.mem_cons_of_mem _ hd)]
      rfl
  rw [value, hvalue _ _ JsonText.isDigit_of_toDigits, Nat.ofDigitChars_ten_toDigits]

/-- A decimal numeral reads back as its number. -/
theorem stoull_toDigits (h : n < 2^64) : stoull (Nat.toDigits 10 n) = some (n, []) := by
  have hdigits : ∀ c ∈ Nat.toDigits 10 n, c.isDigit = true := JsonText.isDigit_of_toDigits
  have hvalue := value_toDigits (n := n)
  have hhead := JsonText.toDigits_head (n := n)
  obtain ⟨d, ds, hds⟩ := List.exists_cons_of_ne_nil (Nat.toDigits_ne_nil (n := n) (b := 10))
  rw [hds] at hdigits hvalue hhead ⊢
  have hd := hdigits d List.mem_cons_self
  have hblank : (d :: ds).dropWhile isSpace = d :: ds :=
    List.dropWhile_cons_of_neg (by simp [isSpace_of_isDigit hd])
  have hsign : splitSign (d :: ds) = (false, d :: ds) := by
    rw [splitSign]
    · rintro cs ⟨rfl, -⟩
      exact absurd hd (by decide)
    · rintro cs ⟨rfl, -⟩
      exact absurd hd (by decide)
  by_cases hzero : d = '0'
  · subst hzero
    obtain rfl : ds = [] := (List.cons.inj (hhead rfl)).2
    have : n = 0 := hvalue.symm
    subst this
    rfl
  · have hbase : splitBase (d :: ds) = (10, d :: ds) := by
      rw [splitBase]
      · rintro x c cs ⟨rfl, -⟩
        exact hzero rfl
      · rintro cs ⟨rfl, -⟩
        exact hzero rfl
    have hall : ∀ c ∈ d :: ds, decide (digitValue c < 10) = true := fun c hc =>
      decide_eq_true (digitValue_lt_of_isDigit (hdigits c hc))
    rw [stoull, hblank, hsign]
    dsimp only
    rw [hbase]
    dsimp only
    rw [List.takeWhile_eq_self_iff.mpr hall, List.dropWhile_eq_nil_iff.mpr hall, hvalue,
      if_neg (by simp), if_neg (Nat.not_le.mpr h)]
    rfl

theorem parseU64_toDigits (h : n < 2^64) : parseU64 (Nat.toDigits 10 n) = some n := by
  rw [parseU64, stoull_toDigits h]

theorem parseUint_toDigits (h : n < 2^32) : parseUint (Nat.toDigits 10 n) = some n := by
  rw [parseUint, stoull_toDigits (by omega)]
  exact if_pos (by omega)

theorem lt_of_parseUint (h : parseUint v = some n) : n < 2^32 := by
  rw [parseUint] at h
  split at h
  · split at h
    · obtain rfl := Option.some.inj h
      omega
    · contradiction
  · contradiction

theorem lt_of_parseU64 (h : parseU64 v = some n) : n < 2^64 := by
  rw [parseU64] at h
  split at h
  · rename_i m hm
    obtain rfl := Option.some.inj h
    rw [stoull] at hm
    dsimp only at hm
    split at hm
    · contradiction
    split at hm
    · contradiction
    · rename_i hlt
      obtain ⟨rfl, -⟩ := Prod.mk.inj (Option.some.inj hm)
      split <;> omega
  · contradiction

/-- The flags that are not in the table. -/
def plainFlags : List Text :=
  ["--help".toList, "-h".toList, "--regs".toList, "--trace".toList, "--ref".toList, "--stats".toList,
    "--ipc-table".toList, "--hex".toList, "--raw".toList, "--base".toList, "--max-insts".toList,
    "--trace-from".toList, "--trace-max".toList, "--max-cycles".toList]

theorem knobFlags_distinct : (KNOBS.map ConfigKnob.flag).Nodup := by decide

theorem knobFlags_plain :
    ∀ k ∈ KNOBS, k.flag ∉ plainFlags ∧ '=' ∉ k.flag ∧ k.flag.head? = some '-' := by decide

theorem find_knob (hk : k ∈ KNOBS) : KNOBS.find? (fun k' => k.flag = k'.flag) = some k := by
  have hdistinct := knobFlags_distinct
  generalize KNOBS = ks at *
  induction ks with
  | nil => contradiction
  | cons k' ks ih =>
    rw [List.map_cons, List.nodup_cons] at hdistinct
    cases List.mem_cons.mp hk with
    | inl he => rw [he, List.find?_cons_of_pos (by simp)]
    | inr hk =>
      have hne : k.flag ≠ k'.flag := fun he => hdistinct.1 (he ▸ List.mem_map_of_mem hk)
      rw [List.find?_cons_of_neg (by simpa using hne)]
      exact ih hk hdistinct.2

/-- An argument that is none of the other flags is looked up in the table. -/
private theorem readArg_found (h : flagOf tok ∉ plainFlags)
    (hfind : KNOBS.find? (fun k => flagOf tok = k.flag) = some k) :
    readArg tok next o = valued tok next fun v => (parseUint v).map fun n =>
      { o with cfg := k.set n o.cfg } := by
  simp only [plainFlags, List.mem_cons, List.not_mem_nil, or_false, not_or] at h
  simp only [readArg, h, or_self, if_false, hfind]

private theorem readArg_unfound (h : flagOf tok ∉ plainFlags)
    (hfind : KNOBS.find? (fun k => flagOf tok = k.flag) = none) :
    readArg tok next o = if tok ≠ [] ∧ tok.head? ≠ some '-' then
        if o.elfPath ≠ [] then .fail "oooc: multiple positional arguments".toList
        else .goOn { o with elfPath := tok } false
      else .fail ("oooc: unknown flag '".toList ++ flagOf tok ++ "'".toList) := by
  simp only [plainFlags, List.mem_cons, List.not_mem_nil, or_false, not_or] at h
  simp only [readArg, h, or_self, if_false, hfind]

theorem readArg_knob (hk : k ∈ KNOBS) (hflag : flagOf tok = k.flag) : readArg tok next o =
    valued tok next fun v => (parseUint v).map fun n => { o with cfg := k.set n o.cfg } := by
  refine readArg_found (hflag ▸ (knobFlags_plain k hk).1) ?_
  rw [hflag, find_knob hk]

/-- A flag with its value behind an equals sign. -/
def joined (flag v : Text) : Text := flag ++ '=' :: v

private theorem ne_equals {flag : Text} (h : '=' ∉ flag) : ∀ c ∈ flag, decide (c ≠ '=') = true :=
  fun _ hc =>
  decide_eq_true fun he => h (he ▸ hc)

theorem flagOf_joined {flag : Text} (h : '=' ∉ flag) : flagOf (joined flag v) = flag := by
  rw [flagOf, joined, List.takeWhile_append_of_pos (ne_equals h),
    List.takeWhile_cons_of_neg (by simp), List.append_nil]

theorem valueOf_joined {flag : Text} (h : '=' ∉ flag) : valueOf (joined flag v) = some v := by
  rw [valueOf, joined, if_pos (by simp), List.dropWhile_append_of_pos (ne_equals h),
    List.dropWhile_cons_of_neg (by simp)]
  rfl

theorem valued_joined {flag : Text} (h : '=' ∉ flag) {assign : Text → Option CliOpts}
    (ha : assign v = some o) : valued (joined flag v) next assign = .goOn o false := by
  simp only [valued, takeValue, valueOf_joined h, ha]

/-- An argument that is read by itself and sets `f`. -/
def Sets (tok : Text) (f : CliOpts → CliOpts) : Prop :=
  ∀ next o, readArg tok next o = .goOn (f o) false

theorem sets_regs : Sets "--regs".toList fun o => { o with printRegs := true } := fun _ _ => rfl
theorem sets_ref : Sets "--ref".toList fun o => { o with useRef := true } := fun _ _ => rfl
theorem sets_stats : Sets "--stats".toList fun o => { o with showStats := true } := fun _ _ => rfl
theorem sets_ipcTable : Sets "--ipc-table".toList fun o => { o with ipcTable := true } := fun _ _ => rfl

theorem sets_trace (path : Text) : Sets (joined "--trace".toList path) fun o => { o with trace := true, tracePath := path } := by
  intro next o
  have hflag : flagOf (joined "--trace".toList path) = "--trace".toList := flagOf_joined (by decide)
  have hvalue : valueOf (joined "--trace".toList path) = some path := valueOf_joined (by decide)
  rw [readArg, hflag, hvalue]
  rfl

/-- An option with a value, written with an equals sign. -/
theorem sets_valued {flag : Text} {assign : CliOpts → Text → Option CliOpts} {f : CliOpts → CliOpts}
    (hplain : '=' ∉ flag)
    (hread : ∀ tok next o, flagOf tok = flag → readArg tok next o = valued tok next (assign o))
    (hassign : ∀ o, assign o v = some (f o)) : Sets (joined flag v) f := by
  intro next o
  rw [hread _ _ _ (flagOf_joined hplain)]
  exact valued_joined hplain (hassign o)

private theorem read_hex (tok : Text) (next : Option Text) (o : CliOpts) (h : flagOf tok = "--hex".toList) :
    readArg tok next o = valued tok next fun v => some { o with hexPath := v } := by
  rw [readArg, h]
  rfl

theorem sets_hex (path : Text) : Sets (joined "--hex".toList path) fun o => { o with hexPath := path } :=
  sets_valued (by decide) read_hex fun _ => rfl

private theorem read_raw (tok : Text) (next : Option Text) (o : CliOpts) (h : flagOf tok = "--raw".toList) :
    readArg tok next o = valued tok next fun v => some { o with rawPath := v } := by
  rw [readArg, h]
  rfl

theorem sets_raw (path : Text) : Sets (joined "--raw".toList path) fun o => { o with rawPath := path } :=
  sets_valued (by decide) read_raw fun _ => rfl

private theorem read_base (tok : Text) (next : Option Text) (o : CliOpts) (h : flagOf tok = "--base".toList) :
    readArg tok next o =
      valued tok next fun v => (parseUint v).map fun n =>
        { o with base := BitVec.ofNat 32 n, hasBase := true } := by
  rw [readArg, h]
  rfl

theorem sets_base (b : Word) :
    Sets (joined "--base".toList (Nat.toDigits 10 b.toNat)) fun o => { o with base := b, hasBase := true } := by
  refine sets_valued (by decide) read_base fun o => ?_
  rw [parseUint_toDigits b.isLt, Option.map_some, BitVec.ofNat_toNat, BitVec.setWidth_eq]

/-- A flag that sets a number of 64 bits. -/
private theorem sets_counter {flag : Text} {f : ℕ → CliOpts → CliOpts} (hplain : '=' ∉ flag)
    (hn : n < 2^64)
    (hread : ∀ tok next o, flagOf tok = flag → readArg tok next o = valued tok next fun v =>
      (parseU64 v).map fun n => f n o) : Sets (joined flag (Nat.toDigits 10 n)) (f n) := by
  refine sets_valued hplain hread fun o => ?_
  rw [parseU64_toDigits hn, Option.map_some]

private theorem read_maxInsts (tok : Text) (next : Option Text) (o : CliOpts) (h : flagOf tok = "--max-insts".toList) :
    readArg tok next o = valued tok next fun v => (parseU64 v).map fun n =>
      { o with maxInsts := n } := by
  rw [readArg, h]
  rfl

private theorem read_traceFrom (tok : Text) (next : Option Text) (o : CliOpts) (h : flagOf tok = "--trace-from".toList) :
    readArg tok next o = valued tok next fun v => (parseU64 v).map fun n =>
      { o with traceFrom := n } := by
  rw [readArg, h]
  rfl

private theorem read_traceMax (tok : Text) (next : Option Text) (o : CliOpts) (h : flagOf tok = "--trace-max".toList) :
    readArg tok next o = valued tok next fun v => (parseU64 v).map fun n =>
      { o with traceMax := n } := by
  rw [readArg, h]
  rfl

private theorem read_maxCycles (tok : Text) (next : Option Text) (o : CliOpts) (h : flagOf tok = "--max-cycles".toList) :
    readArg tok next o = valued tok next fun v => (parseU64 v).map fun n =>
      { o with maxCycles := n } := by
  rw [readArg, h]
  rfl

theorem sets_knob (hk : k ∈ KNOBS) (hn : n < 2^32) :
    Sets (joined k.flag (Nat.toDigits 10 n)) fun o => { o with cfg := k.set n o.cfg } := by
  intro next o
  obtain ⟨-, hplain, -⟩ := knobFlags_plain k hk
  rw [readArg_knob hk (flagOf_joined hplain)]
  refine valued_joined hplain ?_
  rw [parseUint_toDigits hn, Option.map_some]

/-- Arguments that are read by themselves and together do `f`. -/
def Applies (toks : List Text) (f : CliOpts → CliOpts) : Prop :=
  ∀ rest o, parseArgs (toks ++ rest) o = parseArgs rest (f o)

variable {f g : CliOpts → CliOpts} {toks toks' : List Text} {b : Bool}

theorem Sets.applies (h : Sets tok f) : Applies [tok] f := by
  intro rest o
  rw [List.singleton_append, parseArgs, h]

theorem Applies.append (h : Applies toks f) (h' : Applies toks' g) :
    Applies (toks ++ toks') fun o => g (f o) := by
  intro rest o
  rw [List.append_assoc, h, h']

/-- An argument that is there or not. -/
theorem applies_if (ht : b = true → Sets tok f) (hf : b = false → ∀ o, f o = o) :
    Applies (if b then [tok] else []) f := by
  cases b with
  | true => exact (ht rfl).applies
  | false => exact fun rest o => congrArg (parseArgs rest) (hf rfl o).symm

theorem applies_regs (b : Bool) : Applies (if b then ["--regs".toList] else []) fun o => { o with printRegs := b || o.printRegs } :=
  applies_if (by rintro rfl; exact sets_regs) (by rintro rfl o; rfl)

theorem applies_ref (b : Bool) : Applies (if b then ["--ref".toList] else []) fun o => { o with useRef := b || o.useRef } :=
  applies_if (by rintro rfl; exact sets_ref) (by rintro rfl o; rfl)

theorem applies_stats (b : Bool) : Applies (if b then ["--stats".toList] else []) fun o => { o with showStats := b || o.showStats } :=
  applies_if (by rintro rfl; exact sets_stats) (by rintro rfl o; rfl)

theorem applies_ipcTable (b : Bool) :
    Applies (if b then ["--ipc-table".toList] else []) fun o => { o with ipcTable := b || o.ipcTable } :=
  applies_if (by rintro rfl; exact sets_ipcTable) (by rintro rfl o; rfl)

theorem applies_trace (b : Bool) (path : Text) : Applies (if b then [joined "--trace".toList path] else [])
    fun o => { o with trace := b || o.trace, tracePath := if b then path else o.tracePath } :=
  applies_if (by rintro rfl; exact sets_trace path) (by rintro rfl o; rfl)

theorem applies_base (b : Bool) (w : Word) : Applies (if b then [joined "--base".toList (Nat.toDigits 10 w.toNat)] else [])
    fun o => { o with base := if b then w else o.base, hasBase := b || o.hasBase } :=
  applies_if (by rintro rfl; exact sets_base w) (by rintro rfl o; rfl)

theorem applies_knobs {ks : List ConfigKnob} (c : Config) (hks : ∀ k ∈ ks, k ∈ KNOBS)
    (hc : ∀ k ∈ ks, k.get c < 2^32) :
    Applies (ks.map fun k => joined k.flag (Nat.toDigits 10 (k.get c)))
      fun o => { o with cfg := ks.foldl (fun c' k => k.set (k.get c) c') o.cfg } := by
  induction ks with
  | nil => exact fun _ _ => rfl
  | cons k ks ih =>
    have hk := sets_knob (hks k List.mem_cons_self) (hc k List.mem_cons_self)
    exact hk.applies.append (ih (fun k' hk' => hks k' (List.mem_cons_of_mem _ hk')) fun k' hk' =>
      hc k' (List.mem_cons_of_mem _ hk'))

/-- The knobs reach every field of the configuration. -/
theorem set_knobs (c c' : Config) : KNOBS.foldl (fun c' k => k.set (k.get c) c') c' = c := rfl

/-- What options can be asked for. -/
structure CliOpts.Settable (o : CliOpts) : Prop where
  knobs : ∀ k ∈ KNOBS, k.get o.cfg < 2^32
  counters : o.maxInsts < 2^64 ∧ o.traceFrom < 2^64 ∧ o.traceMax < 2^64 ∧ o.maxCycles < 2^64
  base : o.hasBase = false → o.base = 0
  tracePath : o.trace = false → o.tracePath = []
  elfPath : o.elfPath.head? ≠ some '-'

/-- Everything but the program and the request for help. -/
def CliOpts.settings (o : CliOpts) : List Text :=
  [joined "--hex".toList o.hexPath] ++ [joined "--raw".toList o.rawPath]
    ++ (if o.hasBase then [joined "--base".toList (Nat.toDigits 10 o.base.toNat)] else [])
    ++ (if o.printRegs then ["--regs".toList] else [])
    ++ (if o.trace then [joined "--trace".toList o.tracePath] else [])
    ++ [joined "--trace-from".toList (Nat.toDigits 10 o.traceFrom)]
    ++ [joined "--trace-max".toList (Nat.toDigits 10 o.traceMax)]
    ++ (if o.useRef then ["--ref".toList] else [])
    ++ (if o.showStats then ["--stats".toList] else [])
    ++ (if o.ipcTable then ["--ipc-table".toList] else [])
    ++ [joined "--max-insts".toList (Nat.toDigits 10 o.maxInsts)]
    ++ [joined "--max-cycles".toList (Nat.toDigits 10 o.maxCycles)]
    ++ KNOBS.map fun k => joined k.flag (Nat.toDigits 10 (k.get o.cfg))

/-- A command line that asks for these options. -/
def CliOpts.render (o : CliOpts) : List Text :=
  o.settings ++ ((if o.elfPath ≠ [] then [o.elfPath] else []) ++ if o.showHelp then ["--help".toList] else [])

theorem parseArgs_settings (h : o.Settable) :
    parseArgs (o.settings ++ rest) {} =
      parseArgs rest { o with elfPath := [], showHelp := false } := by
  obtain ⟨hinsts, hfrom, hmax, hcycles⟩ := h.counters
  have happlies := (sets_hex o.hexPath).applies
    |>.append (sets_raw o.rawPath).applies
    |>.append (applies_base o.hasBase o.base)
    |>.append (applies_regs o.printRegs)
    |>.append (applies_trace o.trace o.tracePath)
    |>.append (sets_counter (by decide) hfrom read_traceFrom).applies
    |>.append (sets_counter (by decide) hmax read_traceMax).applies
    |>.append (applies_ref o.useRef)
    |>.append (applies_stats o.showStats)
    |>.append (applies_ipcTable o.ipcTable)
    |>.append (sets_counter (by decide) hinsts read_maxInsts).applies
    |>.append (sets_counter (by decide) hcycles read_maxCycles).applies
    |>.append (applies_knobs o.cfg (fun _ hk => hk) h.knobs)
  have hbase : (if o.hasBase then o.base else 0) = o.base := by
    cases hb : o.hasBase with
    | true => rfl
    | false => exact (h.base hb).symm
  have hpath : (if o.trace then o.tracePath else []) = o.tracePath := by
    cases ht : o.trace with
    | true => rfl
    | false => exact (h.tracePath ht).symm
  rw [CliOpts.settings, happlies]
  dsimp only
  rw [set_knobs, hbase, hpath]
  simp only [Bool.or_false]

/-- A flag in the table or out of it starts with a dash. -/
theorem head_of_flag : ∀ flag ∈ plainFlags ++ KNOBS.map ConfigKnob.flag, flag.head? = some '-' := by
  decide

/-- What does not start with a dash is the program. -/
theorem readArg_elf (hne : tok ≠ []) (hhead : tok.head? ≠ some '-') (ho : o.elfPath = []) :
    readArg tok next o = .goOn { o with elfPath := tok } false := by
  have hflag : (flagOf tok).head? ≠ some '-' := by
    cases tok with
    | nil => contradiction
    | cons c cs =>
      rw [flagOf]
      by_cases hc : c = '='
      · simp [hc]
      · rw [List.takeWhile_cons_of_pos (by simpa using hc)]
        exact hhead
  have hplain : flagOf tok ∉ plainFlags :=
    fun h => hflag (head_of_flag _ (List.mem_append_left _ h))
  have hknobs : KNOBS.find? (fun k => flagOf tok = k.flag) = none := by
    rw [List.find?_eq_none]
    intro k hk he
    obtain he : flagOf tok = k.flag := of_decide_eq_true he
    exact hflag (head_of_flag _ (List.mem_append_right _ (he ▸ List.mem_map_of_mem hk)))
  rw [readArg_unfound hplain hknobs]
  simp only [hne, hhead, ho, ne_eq, not_false_eq_true, and_self, if_true, not_true_eq_false,
    if_false]

/-- The rendered options are read back. -/
theorem parseArgs_render (h : o.Settable) : parseArgs o.render {} = .ok o := by
  have hhelp (o' : CliOpts) (h : o' = { o with showHelp := false }) :
      parseArgs (if o.showHelp then ["--help".toList] else []) o' = .ok o := by
    subst h
    cases hs : o.showHelp with
    | true => exact congrArg Except.ok (congrArg (fun b => { o with showHelp := b }) hs.symm)
    | false => exact congrArg Except.ok (congrArg (fun b => { o with showHelp := b }) hs.symm)
  rw [CliOpts.render, parseArgs_settings h]
  by_cases he : o.elfPath = []
  · rw [if_neg (not_not.mpr he), List.nil_append]
    refine hhelp _ ?_
    rw [← he]
  · rw [if_pos he, List.singleton_append, parseArgs, readArg_elf he h.elfPath rfl]
    exact hhelp _ rfl

/-- A knob sets one value and leaves those of the others: a row for each knob that is set. -/
theorem get_set (c : Config) (n : ℕ) : KNOBS.map (fun k => KNOBS.map fun k' => k'.get (k.set n c)) =
    (List.range KNOBS.length).map fun i => (KNOBS.map fun k' => k'.get c).set i n := rfl

theorem knobs_set {c : Config} (hc : ∀ k ∈ KNOBS, k.get c < 2^32) (hk : k ∈ KNOBS) (hn : n < 2^32) :
    ∀ k' ∈ KNOBS, k'.get (k.set n c) < 2^32 := by
  intro k' hk'
  have hrow : KNOBS.map (fun k' => k'.get (k.set n c)) ∈ KNOBS.map fun k => KNOBS.map fun k' =>
    k'.get (k.set n c) :=
    List.mem_map_of_mem hk
  rw [get_set] at hrow
  obtain ⟨i, -, hi⟩ := List.mem_map.mp hrow
  have hmem : k'.get (k.set n c) ∈ KNOBS.map fun k' => k'.get (k.set n c) := List.mem_map_of_mem hk'
  rw [← hi] at hmem
  cases List.mem_or_eq_of_mem_set hmem with
  | inl h =>
    obtain ⟨k'', hk'', he⟩ := List.mem_map.mp h
    exact he ▸ hc k'' hk''
  | inr h =>
    rw [h]
    exact hn

theorem settable_default : CliOpts.Settable {} where
  knobs := by decide
  counters := by decide
  base := fun _ => rfl
  tracePath := fun _ => rfl
  elfPath := by decide

/-- Whatever options an argument leads to can be asked for. -/
def Reading.Good : Reading → Prop
  | .stop o => o.Settable
  | .fail _ => True
  | .goOn o _ => o.Settable

private theorem valued_good {assign : Text → Option CliOpts}
    (h : ∀ v o', assign v = some o' → o'.Settable) : (valued tok next assign).Good := by
  rw [valued]
  split
  · trivial
  · split
    · rename_i hassign
      exact h _ _ hassign
    · trivial

private theorem parsed_good {parse : Text → Option ℕ} {set : ℕ → CliOpts}
    (h : ∀ v n, parse v = some n → (set n).Settable) :
    (valued tok next fun v => (parse v).map set).Good := by
  refine valued_good fun v o' hv => ?_
  obtain ⟨n, hn, rfl⟩ := Option.map_eq_some_iff.mp hv
  exact h v n hn

/-- Reading one more argument leaves options that can be asked for. -/
theorem CliOpts.Settable.readArg (h : o.Settable) : (Cli.readArg tok next o).Good := by
  obtain ⟨hinsts, hfrom, hmax, hcycles⟩ := h.counters
  unfold Cli.readArg
  refine iteInduction (fun _ => ?_) fun _ => ?_
  · exact { h with }
  refine iteInduction (fun _ => ?_) fun _ => ?_
  · exact { h with }
  refine iteInduction (fun _ => ?_) fun _ => ?_
  · exact { h with tracePath := Bool.noConfusion }
  refine iteInduction (fun _ => ?_) fun _ => ?_
  · exact { h with }
  refine iteInduction (fun _ => ?_) fun _ => ?_
  · exact { h with }
  refine iteInduction (fun _ => ?_) fun _ => ?_
  · exact { h with }
  refine iteInduction (fun _ => ?_) fun _ => ?_
  · exact valued_good fun v o' hv => Option.some.inj hv ▸ { h with }
  refine iteInduction (fun _ => ?_) fun _ => ?_
  · exact valued_good fun v o' hv => Option.some.inj hv ▸ { h with }
  refine iteInduction (fun _ => ?_) fun _ => ?_
  · exact parsed_good fun v n hn => { h with base := Bool.noConfusion }
  refine iteInduction (fun _ => ?_) fun _ => ?_
  · exact parsed_good fun v n hn => { h with counters := ⟨lt_of_parseU64 hn, hfrom, hmax, hcycles⟩ }
  refine iteInduction (fun _ => ?_) fun _ => ?_
  · exact parsed_good fun v n hn =>
      { h with counters := ⟨hinsts, lt_of_parseU64 hn, hmax, hcycles⟩ }
  refine iteInduction (fun _ => ?_) fun _ => ?_
  · exact parsed_good fun v n hn =>
      { h with counters := ⟨hinsts, hfrom, lt_of_parseU64 hn, hcycles⟩ }
  refine iteInduction (fun _ => ?_) fun _ => ?_
  · exact parsed_good fun v n hn => { h with counters := ⟨hinsts, hfrom, hmax, lt_of_parseU64 hn⟩ }
  cases hfind : KNOBS.find? fun k => flagOf tok = k.flag with
  | some k =>
    exact parsed_good fun v n hn =>
      { h with knobs := knobs_set h.knobs (List.mem_of_find?_eq_some hfind) (lt_of_parseUint hn) }
  | none =>
    refine iteInduction (fun hpath => ?_) fun _ => trivial
    refine iteInduction (fun _ => trivial) fun _ => ?_
    exact { h with elfPath := hpath.2 }

private theorem settable_of_goOn (h : o.Settable) (hone : readArg tok next o = .goOn o' took) :
    o'.Settable := by
  have hgood : (readArg tok next o).Good := h.readArg
  rwa [hone] at hgood

private theorem settable_of_stop (h : o.Settable) (hone : readArg tok next o = .stop o') :
    o'.Settable := by
  have hgood : (readArg tok next o).Good := h.readArg
  rwa [hone] at hgood

theorem CliOpts.Settable.parseArgs (h : o.Settable) (hread : parseArgs args o = .ok o') :
    o'.Settable := by
  fun_induction Cli.parseArgs args o with
  | case1 =>
    obtain rfl := Except.ok.inj hread
    exact h
  | case2 _ _ _ _ hone =>
    obtain rfl := Except.ok.inj hread
    exact settable_of_stop h hone
  | case3 => contradiction
  | case4 _ _ _ _ hone ih => exact ih (settable_of_goOn h hone) hread
  | case5 _ _ _ hone =>
    obtain rfl := Except.ok.inj hread
    exact settable_of_goOn h hone
  | case6 _ _ _ _ _ hone ih => exact ih (settable_of_goOn h hone) hread

/-- The options a command line can ask for are the settings with 32-bit knobs and 64-bit counters,
with a base only if one is given and a trace path only if there is a trace, and with a program whose
path does not start with a dash. -/
theorem settable_iff : (∃ args, Cli.parseArgs args {} = .ok o) ↔ o.Settable := by
  constructor
  · rintro ⟨args, hread⟩
    exact settable_default.parseArgs hread
  · intro h
    exact ⟨o.render, parseArgs_render h⟩

/-- The flags that need a value. -/
def valuedFlags : List Text :=
  ["--hex".toList, "--raw".toList, "--base".toList, "--max-insts".toList, "--trace-from".toList, "--trace-max".toList,
    "--max-cycles".toList] ++ KNOBS.map ConfigKnob.flag

/-- Each flag that needs a value has one thing to do with it. -/
theorem readArg_valued {flag : Text} (h : flag ∈ valuedFlags) :
    ∃ assign : CliOpts → Text → Option CliOpts, ∀ tok next o, flagOf tok = flag →
      readArg tok next o = valued tok next (assign o) := by
  cases List.mem_append.mp h with
  | inl h =>
    simp only [List.mem_cons, List.not_mem_nil, or_false] at h
    rcases h with rfl | rfl | rfl | rfl | rfl | rfl | rfl
    exacts [⟨_, read_hex⟩, ⟨_, read_raw⟩, ⟨_, read_base⟩, ⟨_, read_maxInsts⟩, ⟨_, read_traceFrom⟩,
      ⟨_, read_traceMax⟩, ⟨_, read_maxCycles⟩]
  | inr h =>
    obtain ⟨k, hk, rfl⟩ := List.mem_map.mp h
    exact ⟨_, fun _ _ _ hflag => readArg_knob hk hflag⟩

/-- Only a request for help stops the reading, and the next argument is left. -/
def Reading.Short : Reading → Prop
  | .stop o => o.showHelp = true
  | .fail _ => True
  | .goOn _ took => took = false

theorem find_knob_none (h : flagOf tok ∉ valuedFlags) :
    KNOBS.find? (fun k => flagOf tok = k.flag) = none := by
  rw [List.find?_eq_none]
  intro k hk he
  obtain he : flagOf tok = k.flag := of_decide_eq_true he
  exact h (List.mem_append_right _ (he ▸ List.mem_map_of_mem hk))

theorem readArg_alone (h : flagOf tok ∉ valuedFlags) :
    readArg tok next o = readArg tok next' o ∧ (readArg tok next o).Short := by
  have hknobs := find_knob_none h
  simp only [valuedFlags, List.cons_append, List.nil_append, List.mem_cons, not_or] at h
  obtain ⟨h1, h2, h3, h4, h5, h6, h7, -⟩ := h
  simp only [readArg, if_neg h1, if_neg h2, if_neg h3, if_neg h4, if_neg h5, if_neg h6, if_neg h7,
    hknobs]
  refine ⟨trivial, ?_⟩
  refine iteInduction (fun _ => rfl) fun _ => ?_
  refine iteInduction (fun _ => rfl) fun _ => ?_
  refine iteInduction (fun _ => rfl) fun _ => ?_
  refine iteInduction (fun _ => rfl) fun _ => ?_
  refine iteInduction (fun _ => rfl) fun _ => ?_
  refine iteInduction (fun _ => rfl) fun _ => ?_
  refine iteInduction (fun _ => ?_) fun _ => trivial
  exact iteInduction (fun _ => trivial) fun _ => rfl

/-- Every value moved behind an equals sign. -/
def join : List Text → List Text
  | [] => []
  | [tok] => [tok]
  | tok :: v :: rest =>
    if tok ∈ valuedFlags then joined tok v :: join rest else tok :: join (v :: rest)

theorem flagOf_of_plain (h : '=' ∉ tok) : flagOf tok = tok :=
  List.takeWhile_eq_self_iff.mpr (ne_equals h)

theorem valuedFlags_plain : ∀ flag ∈ valuedFlags, '=' ∉ flag := by decide

/-- A value behind an equals sign is taken without the next argument. -/
theorem valued_alone {assign : Text → Option CliOpts} (h : '=' ∈ tok) :
    valued tok next assign = valued tok next' assign ∧ (valued tok next assign).Short := by
  have htake (next : Option Text) :
      takeValue tok next = .ok ((tok.dropWhile (· ≠ '=')).tail, false) := by
    simp only [takeValue, valueOf, if_pos h]
  rw [valued, valued, htake, htake]
  refine ⟨rfl, ?_⟩
  dsimp only
  split
  · rfl
  · trivial

/-- An argument that is no flag with its value missing is read the same whatever comes next. -/
theorem readArg_next (h : tok ∉ valuedFlags) :
    readArg tok next o = readArg tok next' o ∧ (readArg tok next o).Short := by
  by_cases hvalued : flagOf tok ∈ valuedFlags
  · obtain ⟨assign, hread⟩ := readArg_valued hvalued
    have heq : '=' ∈ tok := by
      by_contra hne
      rw [flagOf_of_plain hne] at hvalued
      exact h hvalued
    rw [hread tok next o rfl, hread tok next' o rfl]
    exact valued_alone heq
  · exact readArg_alone hvalued

/-- It makes no difference to a command line, its errors included, whether the values stand behind
equals signs. -/
theorem parseArgs_join : parseArgs (join args) o = parseArgs args o := by
  fun_induction join args generalizing o with
  | case1 => rfl
  | case2 => rfl
  | case3 tok v rest hvalued ih =>
    obtain ⟨assign, hread⟩ := readArg_valued hvalued
    have hplain := valuedFlags_plain tok hvalued
    have hflag : flagOf tok = tok := flagOf_of_plain hplain
    have hnone : valueOf tok = none := if_neg hplain
    rw [parseArgs, parseArgs, hread tok _ o hflag, hread (joined tok v) _ o (flagOf_joined hplain)]
    simp only [valued, takeValue, valueOf_joined hplain, hnone, List.head?_cons,
      flagOf_joined hplain, hflag]
    cases assign o v with
    | none => rfl
    | some o' => exact ih
  | case4 tok v rest hplain ih =>
    obtain ⟨heq, hshort⟩ : readArg tok (some v) o = readArg tok (join (v :: rest)).head? o ∧
      (readArg tok (some v) o).Short :=
      readArg_next hplain
    rw [parseArgs, parseArgs, List.head?_cons, ← heq]
    generalize readArg tok (some v) o = r at hshort
    cases r with
    | stop o' => rfl
    | fail message => rfl
    | goOn o' took =>
      obtain rfl : took = false := hshort
      exact ih

end OooCpu.Cli
