import OooCpu.Loader
import OooCpu.MemoryBytes

/-! # What the hex loader accepts and what it stores

Line by line the loader takes hex digits of up to 64 bits and keeps 32 of them.
It is exact where no line has a value in between. -/
namespace OooCpu.Hex

/-- A line up to the first `//` or `#`. -/
def uncomment : List Char → List Char
  | [] => []
  | c :: rest => if c = '#' ∨ c = '/' ∧ rest.head? = some '/' then [] else c :: uncomment rest

def trim (line : List Char) : List Char := (line.dropWhile isWs).rdropWhile isWs

/-- The lines that hold something, without comments and blanks. -/
def dataLinesOf (lines : List (List Char)) : List (List Char) :=
  (lines.map fun line => trim (uncomment (dropReturn line))).filter (· ≠ [])

def dataLines (text : List Char) : List (List Char) := dataLinesOf (getlines [] text)

/-- Hex digits behind an optional prefix, of a value below `bound`. -/
def IsHexWord (bound : ℕ) (line : List Char) : Prop :=
  dropHexPrefix line ≠ [] ∧ (∀ c ∈ dropHexPrefix line, isHexDigit c = true) ∧
    hexValue (dropHexPrefix line) < bound

instance (bound : ℕ) (line : List Char) : Decidable (IsHexWord bound line) :=
  decidable_of_iff (dropHexPrefix line ≠ [] ∧ (dropHexPrefix line).all isHexDigit = true ∧
    hexValue (dropHexPrefix line) < bound) (by rw [List.all_eq_true, IsHexWord])

def lineValue (line : List Char) : Word := BitVec.ofNat 32 (hexValue (dropHexPrefix line))

theorem takeWhile_beforeSlashes (line : List Char) :
    (beforeSlashes line).takeWhile (· ≠ '#') = uncomment line := by
  induction line with
  | nil => rfl
  | cons c rest ih =>
    simp only [beforeSlashes, uncomment]
    by_cases hslash : c = '/' ∧ rest.head? = some '/'
    · rw [if_pos hslash, if_pos (.inr hslash)]
      rfl
    · rw [if_neg hslash]
      by_cases hhash : c = '#'
      · rw [if_pos (.inl hhash), List.takeWhile_cons_of_neg (by simp [hhash])]
      · rw [if_neg (by tauto), List.takeWhile_cons_of_pos (by simp [hhash]), ih]

theorem stripLine_eq (line : List Char) : stripLine line = trim (uncomment (dropReturn line)) := by
  simp only [stripLine, takeWhile_beforeSlashes]
  rfl

theorem hexWord_cases (line : List Char) :
    IsHexWord (2^64) line ∧ hexWord line = .ok (lineValue line) ∨
      ¬IsHexWord (2^64) line ∧ ∃ what, hexWord line = .error (.thrown what) := by
  simp only [hexWord, stoul]
  by_cases hdigits : dropHexPrefix line = [] ∨ (dropHexPrefix line).all isHexDigit = false
  · rw [if_pos hdigits]
    refine .inr ⟨fun h => ?_, _, rfl⟩
    cases hdigits with
    | inl hnil => exact h.1 hnil
    | inr hall =>
      rw [List.all_eq_true.mpr h.2.1] at hall
      contradiction
  · rw [if_neg hdigits]
    obtain ⟨hnil, hall⟩ := not_or.mp hdigits
    have hall' : ∀ c ∈ dropHexPrefix line, isHexDigit c = true := by simpa using hall
    by_cases hlt : hexValue (dropHexPrefix line) < 18446744073709551616
    · rw [if_pos hlt]
      exact .inl ⟨⟨hnil, hall', hlt⟩, rfl⟩
    · rw [if_neg hlt]
      exact .inr ⟨fun h => hlt h.2.2, _, rfl⟩

/-- Words stored one after the other. -/
def storeWords (mem : Memory) (addr : Word) : List Word → Memory
  | [] => mem
  | w :: ws => storeWords (mem.storeU32 addr w) (addr + 4) ws

theorem loadHexLines_ok {lines : List (List Char)}
    (h : ∀ line ∈ dataLinesOf lines, IsHexWord (2^64) line) (mem : Memory)
    (addr : Word) :
    loadHexLines lines mem addr = (storeWords mem addr ((dataLinesOf lines).map lineValue),
      .ok ()) := by
  induction lines generalizing mem addr with
  | nil => rfl
  | cons line lines ih =>
    simp only [loadHexLines, stripLine_eq]
    by_cases hblank : trim (uncomment (dropReturn line)) = []
    · have hcons : dataLinesOf (line :: lines) = dataLinesOf lines := by simp [dataLinesOf, hblank]
      rw [hcons] at h ⊢
      rw [if_pos hblank, ih h]
    · have hcons :
        dataLinesOf (line :: lines) = trim (uncomment (dropReturn line)) :: dataLinesOf lines := by
        simp [dataLinesOf, hblank]
      rw [hcons] at h ⊢
      obtain ⟨hline, hlines⟩ := List.forall_mem_cons.mp h
      rcases hexWord_cases (trim (uncomment (dropReturn line))) with ⟨-, hword⟩ | ⟨hnot, -⟩
      · rw [if_neg hblank, hword]
        exact ih hlines _ _
      · exact absurd hline hnot

theorem loadHexLines_throws {lines : List (List Char)}
    (h : ¬∀ line ∈ dataLinesOf lines, IsHexWord (2^64) line)
    (mem : Memory) (addr : Word) :
    ∃ what, (loadHexLines lines mem addr).2 = .error (.thrown what) := by
  induction lines generalizing mem addr with
  | nil => exact absurd (by simp [dataLinesOf]) h
  | cons line lines ih =>
    simp only [loadHexLines, stripLine_eq]
    by_cases hblank : trim (uncomment (dropReturn line)) = []
    · have hcons : dataLinesOf (line :: lines) = dataLinesOf lines := by simp [dataLinesOf, hblank]
      rw [hcons] at h
      rw [if_pos hblank]
      exact ih h _ _
    · have hcons :
        dataLinesOf (line :: lines) = trim (uncomment (dropReturn line)) :: dataLinesOf lines := by
        simp [dataLinesOf, hblank]
      rw [hcons, List.forall_mem_cons] at h
      rw [if_neg hblank]
      rcases hexWord_cases (trim (uncomment (dropReturn line))) with ⟨hline, hword⟩ | ⟨-, what,
        hword⟩
      · rw [hword]
        exact ih (fun hlines => h ⟨hline, hlines⟩) _ _
      · rw [hword]
        exact ⟨what, rfl⟩

/-- Where the words end up: byte `k` of word `n` at offset `4 * n + k`. -/
theorem loadU8_storeWords (mem : Memory) (addr : Word) {ws : List Word} (hlen : ws.length ≤ 2^30)
    (a : Word) : (storeWords mem addr ws).loadU8 a =
      ((ws[(a - addr).toNat / 4]?).map fun w => byteOf w ((a - addr).toNat % 4)).getD
        (mem.loadU8 a) := by
  induction ws generalizing mem addr with
  | nil => simp [storeWords]
  | cons w ws ih =>
    rw [List.length_cons] at hlen
    have hoff : (a - (addr + 4)).toNat = ((a - addr).toNat + 4294967292) % 4294967296 := by
      rw [← sub_sub, BitVec.toNat_sub, Nat.add_comm]
      rfl
    have hstore : (mem.storeU32 addr w).loadU8 a =
        if Covers addr 4 a then byteAt addr w a else mem.loadU8 a :=
      loadU8_storeBytes mem addr w a (.inr (.inr rfl))
    have hlt := (a - addr).isLt
    rw [storeWords, ih _ _ (by omega), hoff, hstore]
    by_cases hfirst : Covers addr 4 a
    · have hlow : (a - addr).toNat < 4 := hfirst
      rw [if_pos hfirst, List.getElem?_eq_none (by omega), show (a - addr).toNat / 4 = 0 by omega,
        List.getElem?_cons_zero, byteAt, show (a - addr).toNat % 4 = (a - addr).toNat by
          omega, Option.map_none, Option.getD_none,
        Option.map_some, Option.getD_some]
    · have hhigh : ¬(a - addr).toNat < 4 := hfirst
      obtain ⟨n, hn⟩ : ∃ n, (a - addr).toNat / 4 = n + 1 := ⟨(a - addr).toNat / 4 - 1, by omega⟩
      rw [if_neg hfirst, hn, List.getElem?_cons_succ,
        show ((a - addr).toNat + 4294967292) % 4294967296 / 4 = n by
          omega, show ((a - addr).toNat + 4294967292) % 4294967296 % 4 = (a - addr).toNat % 4 by
            omega]

/-- The words stand little-endian from `base` on, and nothing else has changed since `old`. -/
structure Holds (m old : Memory) (base : Word) (ws : List Word) : Prop where
  words : ∀ n (hn : n < ws.length), ∀ k < 4, m.loadU8 (base + BitVec.ofNat 32 (4 * n + k)) =
    byteOf ws[n] k
  frame : ∀ a, 4 * ws.length ≤ (a - base).toNat → m.loadU8 a = old.loadU8 a

theorem holds_storeWords (mem : Memory) (base : Word) {ws : List Word} (hlen : ws.length ≤ 2^30) :
    Holds (storeWords mem base ws) mem base ws := by
  constructor
  · intro n hn k hk
    have hoff : (base + BitVec.ofNat 32 (4 * n + k) - base).toNat = 4 * n + k := by
      rw [add_sub_cancel_left, BitVec.toNat_ofNat, Nat.mod_eq_of_lt (by omega)]
    rw [loadU8_storeWords _ _ hlen, hoff, show (4 * n + k) / 4 = n by omega,
      show (4 * n + k) % 4 = k by omega, List.getElem?_eq_getElem hn]
    rfl
  · intro a ha
    rw [loadU8_storeWords _ _ hlen, List.getElem?_eq_none (by omega)]
    rfl

theorem Holds.loadU32 {m old : Memory} {base : Word} {ws : List Word} (h : Holds m old base ws)
    {n : ℕ}
    (hn : n < ws.length) : m.loadU32 (base + BitVec.ofNat 32 (4 * n)) = ws[n] := by
  apply byteOf_ext
  intro k hk
  have hbyte := byteOf_loadBytes m (base + BitVec.ofNat 32 (4 * n))
    (.inr (.inr rfl) : IsAccessSize 4) hk
  rw [if_pos hk, add_assoc, ← BitVec.ofNat_add, h.words n hn k hk] at hbyte
  exact hbyte

/-- Loading the text takes exactly 32-bit words and stores all of each. -/
structure LosesNoDigit (mem : Memory) (text : List Char) (base : Word) : Prop where
  returns : (∃ r, (loadHex mem text base).2 = .ok r) ↔
    ∀ line ∈ dataLines text, IsHexWord (2^32) line
  throws : (¬∀ line ∈ dataLines text, IsHexWord (2^32) line) →
    ∃ what, (loadHex mem text base).2 = .error (.thrown what)
  entry : ∀ r, (loadHex mem text base).2 = .ok r → r.entry = base
  stored : (∀ line ∈ dataLines text, IsHexWord (2^32) line) → (dataLines text).length < 2^30 →
    Holds (loadHex mem text base).1 mem base ((dataLines text).map lineValue)

/-- A text is loaded as it should be unless all its lines fit in 64 bits and one does not fit in
32. -/
theorem losesNoDigit_iff (mem : Memory) (text : List Char) (base : Word) :
    LosesNoDigit mem text base ↔ (∀ line ∈ dataLines text, IsHexWord (2^32) line) ∨
      ∃ line ∈ dataLines text, ¬IsHexWord (2^64) line := by
  by_cases haccepted : ∀ line ∈ dataLines text, IsHexWord (2^64) line
  · have hload :
      loadHex mem text base = (storeWords mem base ((dataLines text).map lineValue),
        .ok { entry := base }) := by
      simp only [loadHex, loadHexLines_ok haccepted]
      rfl
    have hex : ¬∃ line ∈ dataLines text, ¬IsHexWord (2^64) line := by
      rintro ⟨line, hline, hnot⟩
      exact hnot (haccepted line hline)
    rw [or_iff_left hex]
    refine ⟨fun h => h.returns.mp ⟨_, by rw [hload]⟩,
      fun h => ⟨⟨fun _ => h, fun _ => ⟨_, by rw [hload]⟩⟩, fun hnot => absurd h hnot,
        fun r hr => ?_, fun _ hlen => ?_⟩⟩
    · rw [hload] at hr
      rw [← Except.ok.inj hr]
    · rw [hload]
      exact holds_storeWords mem base (by rw [List.length_map]; exact hlen.le)
  · obtain ⟨what, hwhat⟩ := loadHexLines_throws haccepted mem base
    have hload : (loadHex mem text base).2 = .error (.thrown what) := by
      simp only [loadHex, hwhat]
      rfl
    have hnot : ¬∀ line ∈ dataLines text, IsHexWord (2^32) line := fun h =>
      haccepted fun line hline => ⟨(h line hline).1, (h line hline).2.1,
        (h line hline).2.2.trans (by decide)⟩
    refine iff_of_true ⟨⟨fun ⟨r, hr⟩ => ?_, fun h => absurd h hnot⟩, fun _ => ⟨what, hload⟩,
      fun r hr => ?_, fun h => absurd h hnot⟩
      (.inr ?_)
    · rw [hload] at hr
      contradiction
    · rw [hload] at hr
      contradiction
    · simpa using haccepted

/-- The hex digit of a value below 16. -/
def upperDigit (n : ℕ) : Char := "0123456789ABCDEF".toList.getD n '0'

/-- The eight digits of a word, as the format `%08X` prints them. -/
def hex8 (w : Word) : List Char :=
  [7, 6, 5, 4, 3, 2, 1, 0].map fun i => upperDigit (w.toNat / 16^i % 16)

def toHexText (words : List Word) : List Char := words.flatMap fun w => hex8 w ++ ['\n']

/-- The workloads that are shipped. -/
def WANTED : List String := ["sieve", "matmul", "bubble_sort", "fib", "crc32"]

/-- The two comment lines in front of a shipped workload. -/
def headerLines (name : String) (size : ℕ) (expectExit : Option Word) : List (List Char) :=
  -- the dash is three bytes long
  ["# ".toList ++ name.toList ++ " \u00e2\u0080\u0094 ".toList ++ Nat.toDigits 10 size ++ " words, load at 0x1000".toList,
    "# run: oooc --hex examples/".toList ++ name.toList ++ ".hex --base 0x1000".toList ++
      match expectExit with
      | some code => "   (exits ".toList ++ Nat.toDigits 10 code.toNat ++ ")".toList
      | none => []]

def writeHex (name : String) (words : List Word) (expectExit : Option Word) : List Char :=
  (headerLines name words.length expectExit).flatMap (· ++ ['\n']) ++ toHexText words

theorem upperDigit_spec {n : ℕ} (hn : n < 16) :
    isHexDigit (upperDigit n) = true ∧ hexDigit (upperDigit n) = n := by
  have hall : ∀ m < 16, isHexDigit (upperDigit m) = true ∧ hexDigit (upperDigit m) = m := by decide
  exact hall n hn

theorem hex8_digits (w : Word) : ∀ c ∈ hex8 w, isHexDigit c = true := by
  intro c hc
  obtain ⟨i, -, rfl⟩ := List.mem_map.mp hc
  exact (upperDigit_spec (Nat.mod_lt _ (by decide))).1

theorem hexValue_hex8 (w : Word) : hexValue (hex8 w) = w.toNat := by
  have hdigit (n : ℕ) : hexDigit (upperDigit (n % 16)) = n % 16 :=
    (upperDigit_spec (Nat.mod_lt _ (by decide))).2
  have hstep (k : ℕ) : w.toNat / 16^(k + 1) * 16 + w.toNat / 16^k % 16 = w.toNat / 16^k := by
    rw [pow_succ, ← Nat.div_div_eq_div_mul, Nat.div_add_mod']
  -- the leading digit has nothing above it
  have htop : 0 * 16 + w.toNat / 16^7 % 16 = w.toNat / 16^7 := by
    rw [← Nat.div_eq_of_lt (w.isLt.trans_eq (show 2^32 = 16^(7 + 1) by norm_num)), hstep]
  simp only [hexValue, hex8, List.map_cons, List.map_nil, List.foldl_cons, List.foldl_nil, hdigit]
  rw [htop, hstep 6, hstep 5, hstep 4, hstep 3, hstep 2, hstep 1, hstep 0, pow_zero, Nat.div_one]

/-- A line that is written is read back. -/
theorem getlines_line {line : List Char} (h : '\n' ∉ line) (pre rest : List Char) :
    getlines pre (line ++ '\n' :: rest) = (pre ++ line) :: getlines [] rest := by
  induction line generalizing pre with
  | nil => simp [getlines]
  | cons c line ih =>
    obtain ⟨hc, hline⟩ := not_or.mp (mt List.mem_cons.mpr h)
    rw [List.cons_append, getlines, if_neg (Ne.symm hc), ih hline, List.append_assoc]
    rfl

theorem getlines_lines {lines : List (List Char)} (h : ∀ line ∈ lines, '\n' ∉ line)
    (rest : List Char) :
    getlines [] (lines.flatMap (· ++ ['\n']) ++ rest) = lines ++ getlines [] rest := by
  induction lines with
  | nil => rfl
  | cons line lines ih =>
    obtain ⟨hline, hlines⟩ := List.forall_mem_cons.mp h
    rw [List.flatMap_cons, List.append_assoc, List.append_assoc, List.singleton_append,
      getlines_line hline, ih hlines]
    rfl

theorem uncomment_digits {line : List Char} (h : ∀ c ∈ line, isHexDigit c = true) :
    uncomment line = line := by
  induction line with
  | nil => rfl
  | cons c line ih =>
    obtain ⟨hc, hline⟩ := List.forall_mem_cons.mp h
    have hplain : ¬(c = '#' ∨ c = '/' ∧ line.head? = some '/') := by
      rintro (rfl | ⟨rfl, -⟩) <;> exact absurd hc (by decide)
    rw [uncomment, if_neg hplain, ih hline]

/-- Digits alone are neither comment nor blank nor prefix. -/
theorem trim_digits {line : List Char} (h : ∀ c ∈ line, isHexDigit c = true) :
    trim (uncomment (dropReturn line)) = line := by
  have hdigit {c : Char} (hc : isHexDigit c = true) : c ≠ '\r' ∧ isWs c = false := by
    refine ⟨fun heq => absurd (heq ▸ hc) (by decide), ?_⟩
    by_contra hws
    simp only [isWs, Bool.not_eq_false, Bool.or_eq_true, beq_iff_eq] at hws
    rcases hws with rfl | rfl <;> exact absurd hc (by decide)
  have hreturn : dropReturn line = line := by
    apply if_neg
    intro hlast
    exact (hdigit (h _ (List.mem_of_getLast? hlast))).1 rfl
  have hfront : line.dropWhile isWs = line := by
    cases line with
    | nil => rfl
    | cons c line =>
      exact List.dropWhile_cons_of_neg (by simp [(hdigit (h c List.mem_cons_self)).2])
  rw [hreturn, uncomment_digits h, trim, hfront, List.rdropWhile_eq_self_iff]
  intro hne
  simp [(hdigit (h _ (List.getLast_mem hne))).2]

theorem dropHexPrefix_digits {line : List Char} (h : ∀ c ∈ line, isHexDigit c = true) :
    dropHexPrefix line = line := by
  unfold dropHexPrefix
  split
  · exact absurd (h 'x' (by simp)) (by decide)
  · exact absurd (h 'X' (by simp)) (by decide)
  · rfl

/-- A line that starts with `#` holds nothing. -/
theorem trim_comment (line : List Char) : trim (uncomment (dropReturn ('#' :: line))) = [] := by
  have hhash : ∃ rest, dropReturn ('#' :: line) = '#' :: rest := by
    unfold dropReturn
    split
    · rename_i hlast
      cases line with
      | nil => simp at hlast
      | cons c line => exact ⟨_, rfl⟩
    · exact ⟨_, rfl⟩
  obtain ⟨rest, hrest⟩ := hhash
  rw [hrest, uncomment, if_pos (.inl rfl)]
  rfl

theorem dataLinesOf_append (lines lines' : List (List Char)) :
    dataLinesOf (lines ++ lines') = dataLinesOf lines ++ dataLinesOf lines' := by
  rw [dataLinesOf, List.map_append, List.filter_append]
  rfl

theorem dataLinesOf_comments {lines : List (List Char)}
    (h : ∀ line ∈ lines, line.head? = some '#') : dataLinesOf lines = [] := by
  apply List.filter_eq_nil_iff.mpr
  intro line hline
  obtain ⟨line, hmem, rfl⟩ := List.mem_map.mp hline
  obtain ⟨rest, rfl⟩ := List.head?_eq_some_iff.mp (h line hmem)
  simp [trim_comment]

theorem dataLinesOf_hex8 (words : List Word) : dataLinesOf (words.map hex8) = words.map hex8 := by
  have htrim : (words.map hex8).map (fun line => trim (uncomment (dropReturn line))) =
      words.map hex8 := by
    rw [List.map_map]
    apply List.map_congr_left
    intro w _
    rw [Function.comp_apply, trim_digits (hex8_digits w)]
  rw [dataLinesOf, htrim, List.filter_eq_self]
  intro line hline
  obtain ⟨w, -, rfl⟩ := List.mem_map.mp hline
  simp [hex8]

/-- A text of comment lines and words loads back to the words. -/
theorem loadHex_written {header : List (List Char)} (hhash : ∀ line ∈ header, line.head? = some '#')
    (hend : ∀ line ∈ header, '\n' ∉ line) (words : List Word) (mem : Memory) (base : Word) :
    loadHex mem (header.flatMap (· ++ ['\n']) ++ toHexText words) base =
      (storeWords mem base words, .ok { entry := base }) := by
  have htext : toHexText words = (words.map hex8).flatMap (· ++ ['\n']) := by
    rw [toHexText, List.flatMap_map]
  have hwords : ∀ line ∈ words.map hex8, '\n' ∉ line := by
    intro line hline hmem
    obtain ⟨w, -, rfl⟩ := List.mem_map.mp hline
    exact absurd (hex8_digits w _ hmem) (by decide)
  have hlines : getlines [] (header.flatMap (· ++ ['\n']) ++ toHexText words) =
      header ++ words.map hex8 := by
    have hgot := getlines_lines hwords []
    rw [List.append_nil] at hgot
    rw [getlines_lines hend, htext, hgot]
    simp [getlines]
  have hdata : dataLinesOf (header ++ words.map hex8) = words.map hex8 := by
    rw [dataLinesOf_append, dataLinesOf_comments hhash, dataLinesOf_hex8, List.nil_append]
  have hvalue (w : Word) : lineValue (hex8 w) = w := by
    rw [lineValue, dropHexPrefix_digits (hex8_digits w), hexValue_hex8, BitVec.ofNat_toNat,
      BitVec.setWidth_eq]
  have hfits : ∀ line ∈ dataLinesOf (header ++ words.map hex8), IsHexWord (2^64) line := by
    rw [hdata]
    intro line hline
    obtain ⟨w, -, rfl⟩ := List.mem_map.mp hline
    have hlt := w.isLt
    rw [IsHexWord, dropHexPrefix_digits (hex8_digits w), hexValue_hex8]
    exact ⟨by simp [hex8], hex8_digits w, by omega⟩
  have hback : words.map (lineValue ∘ hex8) = words :=
    (List.map_congr_left fun w _ => hvalue w).trans (List.map_id words)
  simp only [loadHex, hlines, loadHexLines_ok hfits, hdata, List.map_map, hback]
  rfl

theorem headerLines_comments (name : String) (size : ℕ) (expectExit : Option Word) :
    ∀ line ∈ headerLines name size expectExit, line.head? = some '#' := by
  intro line hline
  rcases List.mem_cons.mp hline with rfl | hline
  · rfl
  · rw [List.mem_singleton.mp hline]
    rfl

theorem headerLines_ends {name : String} (hname : name ∈ WANTED) (size : ℕ)
    (expectExit : Option Word) : ∀ line ∈ headerLines name size expectExit, '\n' ∉ line := by
  have hplain : '\n' ∉ name.toList := by
    have hall : ∀ wanted ∈ WANTED, '\n' ∉ wanted.toList := by decide
    exact hall name hname
  have hnumber (n : ℕ) : '\n' ∉ Nat.toDigits 10 n := fun hmem =>
    absurd (Nat.isDigit_of_mem_toDigits (by decide) (by decide) hmem) (by decide)
  intro line hline
  rcases List.mem_cons.mp hline with rfl | hline
  · simp [hplain, hnumber]
  · rw [List.mem_singleton.mp hline]
    cases expectExit <;> simp [hplain, hnumber]

/-- The loader stores exactly the words of a text where no line has a value between 32 and 64 bits,
or another line is refused, and what the tools write loads back. -/
theorem loadHex_exact (mem : Memory) (base : Word) :
    (∀ text, LosesNoDigit mem text base ↔
      (∀ line ∈ dataLines text, IsHexWord (2^32) line) ∨
        ∃ line ∈ dataLines text, ¬IsHexWord (2^64) line) ∧
    ∀ words : List Word, words.length ≤ 2^30 →
      ∀ text, (text = toHexText words ∨
        ∃ name ∈ WANTED, ∃ expectExit, text = writeHex name words expectExit) →
          (loadHex mem text base).2 = .ok { entry := base } ∧
            Holds (loadHex mem text base).1 mem base words := by
  refine ⟨fun text => losesNoDigit_iff mem text base, fun words hlen text htext => ?_⟩
  have hload : loadHex mem text base = (storeWords mem base words, .ok { entry := base }) := by
    rcases htext with rfl | ⟨name, hname, expectExit, rfl⟩
    · exact loadHex_written (List.forall_mem_nil _) (List.forall_mem_nil _) words mem base
    · exact loadHex_written (headerLines_comments _ _ _) (headerLines_ends hname _ _) words mem base
  rw [hload]
  exact ⟨rfl, holds_storeWords mem base hlen⟩

/-- A word of 33 bits is stored as the zero its low half is. -/
theorem loadHex_truncates : ¬LosesNoDigit .empty "100000000".toList 0 := by
  intro h
  have hload : (loadHex .empty "100000000".toList 0).2 = .ok { entry := 0 } := by decide
  have hlines := h.returns.mp ⟨_, hload⟩
  have hline := hlines "100000000".toList (by decide)
  exact absurd hline.2.2 (by decide)

end OooCpu.Hex
