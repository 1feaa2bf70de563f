import Mathlib.Data.List.Basic
import Mathlib.Data.Int.Init

/-! # JSON texts

Values, and a reader that accepts the JSON grammar. Escaped surrogates are the one
thing it refuses, so what it accepts is well formed.
-/
namespace OooCpu.JsonText

/-- Members keep their order; a number is its mantissa times a power of ten. -/
inductive Value
  | null
  | bool (b : Bool)
  | num (mantissa exponent : ℤ)
  | str (s : List Char)
  | arr (items : List Value)
  | obj (members : List (List Char × Value))

def isBlank (c : Char) : Bool := c == ' ' || c == '\t' || c == '\n' || c == '\r'

def skipBlanks (cs : List Char) : List Char := cs.dropWhile isBlank

/-- One or more digits. -/
def readDigits (cs : List Char) : Option (List Char × List Char) :=
  if cs.takeWhile Char.isDigit = [] then none
    else some (cs.takeWhile Char.isDigit, cs.dropWhile Char.isDigit)

/-- Digits without a leading zero. -/
def readInt (cs : List Char) : Option (List Char × List Char) := do
  let (ds, cs) ← readDigits cs
  if ds.head? = some '0' ∧ ds ≠ ['0'] then none else some (ds, cs)

def readFraction : List Char → Option (List Char × List Char)
  | '.' :: cs => readDigits cs
  | cs => some ([], cs)

def readSigned : List Char → Option (ℤ × List Char)
  | '-' :: cs => (readDigits cs).map fun r => (-Nat.ofDigitChars 10 r.1 0, r.2)
  | '+' :: cs => (readDigits cs).map fun r => (Nat.ofDigitChars 10 r.1 0, r.2)
  | cs => (readDigits cs).map fun r => (Nat.ofDigitChars 10 r.1 0, r.2)

def readExponent : List Char → Option (ℤ × List Char)
  | 'e' :: cs => readSigned cs
  | 'E' :: cs => readSigned cs
  | cs => some (0, cs)

/-- A number without its sign. -/
def readUnsigned (sign : ℤ) (cs : List Char) : Option (Value × List Char) := do
  let (int, cs) ← readInt cs
  let (fraction, cs) ← readFraction cs
  let (exponent, cs) ← readExponent cs
  some (.num (sign * Nat.ofDigitChars 10 (int ++ fraction) 0) (exponent - fraction.length), cs)

def hexDigit? (c : Char) : Option ℕ :=
  if c.isDigit then some (c.toNat - '0'.toNat)
  else if 'a' ≤ c ∧ c ≤ 'f' then some (c.toNat - 'a'.toNat + 10)
  else if 'A' ≤ c ∧ c ≤ 'F' then some (c.toNat - 'A'.toNat + 10)
  else none

/-- The character with this number, which is no surrogate. -/
def unescaped? (n : ℕ) : Option Char := if n.isValidChar then some (.ofNat n) else none

/-- What follows a backslash. -/
def readEscape : List Char → Option (Char × List Char)
  | 'u' :: a :: b :: c :: d :: cs => do
    let c ← unescaped? ((((← hexDigit? a) * 16 + (← hexDigit? b)) * 16 + (← hexDigit? c)) * 16 +
      (← hexDigit? d))
    some (c, cs)
  | '"' :: cs => some ('"', cs)
  | '\\' :: cs => some ('\\', cs)
  | '/' :: cs => some ('/', cs)
  | 'b' :: cs => some (.ofNat 8, cs)
  | 'f' :: cs => some (.ofNat 12, cs)
  | 'n' :: cs => some ('\n', cs)
  | 'r' :: cs => some ('\r', cs)
  | 't' :: cs => some ('\t', cs)
  | _ => none

/-- The rest of a string and its closing quote; every turn takes a character. -/
def readString : ℕ → List Char → Option (List Char × List Char)
  | 0, _ => none
  | _ + 1, [] => none
  | n + 1, c :: cs =>
    if c = '"' then some ([], cs)
    else if c = '\\' then do
      let (c, cs) ← readEscape cs
      let (s, cs) ← readString n cs
      some (c :: s, cs)
    else if c.toNat < 0x20 then none
    else (readString n cs).map fun r => (c :: r.1, r.2)

mutual

def readValue : ℕ → List Char → Option (Value × List Char)
  | 0, _ => none
  | n + 1, cs =>
    match skipBlanks cs with
    | '{' :: cs =>
      match skipBlanks cs with
      | '}' :: cs => some (.obj [], cs)
      | cs => (readMembers n cs).map fun r => (.obj r.1, r.2)
    | '[' :: cs =>
      match skipBlanks cs with
      | ']' :: cs => some (.arr [], cs)
      | cs => (readItems n cs).map fun r => (.arr r.1, r.2)
    | '"' :: cs => (readString n cs).map fun r => (.str r.1, r.2)
    | 't' :: 'r' :: 'u' :: 'e' :: cs => some (.bool true, cs)
    | 'f' :: 'a' :: 'l' :: 's' :: 'e' :: cs => some (.bool false, cs)
    | 'n' :: 'u' :: 'l' :: 'l' :: cs => some (.null, cs)
    | '-' :: cs => readUnsigned (-1) cs
    | cs => readUnsigned 1 cs

/-- The members of an object, after its brace or a comma. -/
def readMembers : ℕ → List Char → Option (List (List Char × Value) × List Char)
  | 0, _ => none
  | n + 1, cs =>
    match skipBlanks cs with
    | '"' :: cs => do
      let (k, cs) ← readString n cs
      match skipBlanks cs with
      | ':' :: cs =>
        let (v, cs) ← readValue n cs
        match skipBlanks cs with
        | ',' :: cs => (readMembers n cs).map fun r => ((k, v) :: r.1, r.2)
        | '}' :: cs => some ([(k, v)], cs)
        | _ => none
      | _ => none
    | _ => none

/-- The items of an array, after its bracket or a comma. -/
def readItems : ℕ → List Char → Option (List Value × List Char)
  | 0, _ => none
  | n + 1, cs => do
    let (v, cs) ← readValue n cs
    match skipBlanks cs with
    | ',' :: cs => (readItems n cs).map fun r => (v :: r.1, r.2)
    | ']' :: cs => some ([v], cs)
    | _ => none

end

/-- The value of a whole text. Every turn of the reader takes a character. -/
def parse (text : List Char) : Option Value := do
  let (v, rest) ← readValue (text.length + 1) text
  if skipBlanks rest = [] then some v else none

theorem skipBlanks_cons {c : Char} {cs : List Char} (h : isBlank c = false) :
    skipBlanks (c :: cs) = c :: cs :=
  List.dropWhile_cons_of_neg (by simp [h])

/-- What may stand behind a value that was written without blanks. -/
def Delimited (cs : List Char) : Prop := ∀ c ∈ cs.head?, c = ',' ∨ c = ']' ∨ c = '}'

theorem delimited_cons {c : Char} {cs : List Char} (h : c = ',' ∨ c = ']' ∨ c = '}') :
    Delimited (c :: cs) := by
  rintro d hd
  rw [← Option.some_inj.mp hd]
  exact h

section Numbers
variable {c d : Char} {cs : List Char} {n : ℕ}

theorem ne_of_isDigit (hc : c.isDigit = true) (hd : d.isDigit = false) : c ≠ d := by
  rintro rfl
  exact absurd hc (by simp [hd])

theorem isBlank_of_isDigit (h : c.isDigit = true) : isBlank c = false := by
  simp [isBlank, ne_of_isDigit (d := ' ') h rfl, ne_of_isDigit (d := '\t') h rfl,
    ne_of_isDigit (d := '\n') h rfl, ne_of_isDigit (d := '\r') h rfl]

theorem isDigit_of_toDigits : ∀ c ∈ Nat.toDigits 10 n, c.isDigit = true :=
  fun _ hc => Nat.isDigit_of_mem_toDigits (by decide) (by decide) hc

theorem readDigits_append {ds : List Char} (hne : ds ≠ []) (hds : ∀ c ∈ ds, c.isDigit = true)
    (hcs : Delimited cs) : readDigits (ds ++ cs) = some (ds, cs) := by
  have hstop : cs.takeWhile Char.isDigit = [] ∧ cs.dropWhile Char.isDigit = cs := by
    cases cs with
    | nil => exact ⟨rfl, rfl⟩
    | cons c cs =>
      have hc : c.isDigit = false := by
        rcases hcs c rfl with rfl | rfl | rfl <;> rfl
      exact ⟨List.takeWhile_cons_of_neg (by simp [hc]), List.dropWhile_cons_of_neg (by simp [hc])⟩
  rw [readDigits, List.takeWhile_append_of_pos hds, List.dropWhile_append_of_pos hds, hstop.1,
    hstop.2, List.append_nil, if_neg hne]

/-- A decimal numeral has no leading zero. -/
theorem toDigits_head (h : (Nat.toDigits 10 n).head? = some '0') : Nat.toDigits 10 n = ['0'] := by
  induction n using Nat.strongRecOn with
  | _ n ih =>
    by_cases hn : n < 10
    · rw [Nat.toDigits_of_lt_base hn] at h ⊢
      exact congrArg ([·]) (Option.some_inj.mp h)
    · rw [Nat.toDigits_of_base_le (by decide) (by omega),
        List.head?_append_of_ne_nil _ Nat.toDigits_ne_nil] at h
      have hzero := congrArg (Nat.ofDigitChars 10 · 0) (ih (n / 10) (by omega) h)
      simp only [Nat.ofDigitChars_ten_toDigits] at hzero
      have : n / 10 = 0 := hzero
      omega

theorem readUnsigned_toDigits (sign : ℤ) (hcs : Delimited cs) :
    readUnsigned sign (Nat.toDigits 10 n ++ cs) = some (.num (sign * n) 0, cs) := by
  have hdigits : readDigits (Nat.toDigits 10 n ++ cs) = some (Nat.toDigits 10 n, cs) :=
    readDigits_append Nat.toDigits_ne_nil isDigit_of_toDigits hcs
  have hint : readInt (Nat.toDigits 10 n ++ cs) = some (Nat.toDigits 10 n, cs) := by
    rw [readInt, hdigits]
    exact if_neg fun h => h.2 (toDigits_head h.1)
  have hfraction : readFraction cs = some ([], cs) := by
    rw [readFraction]
    rintro cs' rfl
    rcases hcs '.' rfl with h | h | h <;> exact absurd h (by decide)
  have hexponent : readExponent cs = some (0, cs) := by
    rw [readExponent]
    · rintro cs' rfl
      rcases hcs 'e' rfl with h | h | h <;> exact absurd h (by decide)
    · rintro cs' rfl
      rcases hcs 'E' rfl with h | h | h <;> exact absurd h (by decide)
  simp only [readUnsigned, hint, hfraction, hexponent, Option.bind_eq_bind, Option.bind_some,
    List.append_nil, Nat.ofDigitChars_ten_toDigits, List.length_nil, Int.natCast_zero, Int.sub_zero]

end Numbers

section Strings
variable {n : ℕ} {c : Char} {cs cs' : List Char}

theorem readString_quote : readString (n + 1) ('"' :: cs) = some ([], cs) := if_pos rfl

theorem readString_escape (h : readEscape cs = some (c, cs')) :
    readString (n + 1) ('\\' :: cs) = (readString n cs').map fun r => (c :: r.1, r.2) := by
  rw [readString, if_neg (by decide), if_pos rfl, h]
  simp only [Option.bind_eq_bind, Option.bind_some]
  cases readString n cs' <;> rfl

theorem readString_plain (hquote : c ≠ '"') (hslash : c ≠ '\\') (hc : 0x20 ≤ c.toNat) :
    readString (n + 1) (c :: cs) = (readString n cs).map fun r => (c :: r.1, r.2) := by
  rw [readString, if_neg hquote, if_neg hslash, if_neg (by omega)]

end Strings

section Values
variable {n : ℕ} {c : Char} {cs cs' : List Char} {v : Value}

theorem readValue_string {s : List Char} (h : readString n cs = some (s, cs')) :
    readValue (n + 1) ('"' :: cs) = some (.str s, cs') := by
  change (readString n cs).map _ = _
  rw [h]
  rfl

theorem readValue_true :
    readValue (n + 1) ('t' :: 'r' :: 'u' :: 'e' :: cs) = some (.bool true, cs) := rfl

theorem readValue_false :
    readValue (n + 1) ('f' :: 'a' :: 'l' :: 's' :: 'e' :: cs) = some (.bool false, cs) := rfl

theorem readValue_null : readValue (n + 1) ('n' :: 'u' :: 'l' :: 'l' :: cs) = some (.null, cs) :=
  rfl

theorem readValue_negative : readValue (n + 1) ('-' :: cs) = readUnsigned (-1) cs := rfl

theorem readValue_digit (h : c.isDigit = true) :
    readValue (n + 1) (c :: cs) = readUnsigned 1 (c :: cs) := by
  rw [readValue, skipBlanks_cons (isBlank_of_isDigit h)]
  split
  all_goals first | rfl | skip
  all_goals
    rename_i heq
    exact absurd (List.cons.inj heq).1 (ne_of_isDigit h rfl)

theorem readValue_obj_nil : readValue (n + 1) ('{' :: '}' :: cs) = some (.obj [], cs) := rfl

theorem readValue_obj {members : List (List Char × Value)} (h : readMembers n ('"' :: cs) = some (members, cs')) :
    readValue (n + 1) ('{' :: '"' :: cs) = some (.obj members, cs') := by
  change (readMembers n ('"' :: cs)).map _ = _
  rw [h]
  rfl

theorem readValue_arr_nil : readValue (n + 1) ('[' :: ']' :: cs) = some (.arr [], cs) := rfl

theorem readValue_arr {items : List Value} (hblank : isBlank c = false) (hc : c ≠ ']')
    (h : readItems n (c :: cs) = some (items, cs')) :
    readValue (n + 1) ('[' :: c :: cs) = some (.arr items, cs') := by
  rw [readValue, skipBlanks_cons rfl]
  simp only [skipBlanks_cons hblank]
  split
  · rename_i heq
    exact absurd (List.cons.inj heq).1 hc
  · exact congrArg (Option.map _) h

theorem readMembers_last {k cs₁ : List Char} (hk : readString n cs = some (k, ':' :: cs₁))
    (hv : readValue n cs₁ = some (v, '}' :: cs')) : readMembers (n + 1) ('"' :: cs) = some ([(k, v)], cs') := by
  rw [readMembers, skipBlanks_cons rfl]
  simp only [hk, Option.bind_eq_bind, Option.bind_some, skipBlanks_cons (c := ':') rfl, hv,
    skipBlanks_cons (c := '}') rfl]

theorem readMembers_more {k cs₁ : List Char} (hk : readString n cs = some (k, ':' :: cs₁))
    (hv : readValue n cs₁ = some (v, ',' :: cs')) :
    readMembers (n + 1) ('"' :: cs) = (readMembers n cs').map fun r => ((k, v) :: r.1, r.2) := by
  rw [readMembers, skipBlanks_cons rfl]
  simp only [hk, Option.bind_eq_bind, Option.bind_some, skipBlanks_cons (c := ':') rfl, hv,
    skipBlanks_cons (c := ',') rfl]

theorem readItems_last (hv : readValue n cs = some (v, ']' :: cs')) :
    readItems (n + 1) cs = some ([v], cs') := by
  rw [readItems]
  simp only [hv, Option.bind_eq_bind, Option.bind_some, skipBlanks_cons (c := ']') rfl]

theorem readItems_more (hv : readValue n cs = some (v, ',' :: cs')) :
    readItems (n + 1) cs = (readItems n cs').map fun r => (v :: r.1, r.2) := by
  rw [readItems]
  simp only [hv, Option.bind_eq_bind, Option.bind_some, skipBlanks_cons (c := ',') rfl]

end Values

end OooCpu.JsonText
