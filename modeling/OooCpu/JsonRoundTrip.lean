import OooCpu.JsonText
import OooCpu.JsonWriter

/-! # JSON records read back

The text the writer leaves for a tree, by composing what its calls write, and that
reading the text gives back the tree.
-/
namespace OooCpu

def JsonNum.value : JsonNum → ℤ
  | .u64 v => v.toNat
  | .i64 v => v.toInt
  | .u32 v => v.toNat
  | .int v => v.toInt

def JsonKey.chars : JsonKey → List Char
  | .name k => k.chars
  | .num k => formatUnsigned k.toNat

/-- The comma owed to what came before. -/
def comma (first : Bool) : List Char := if first then [] else [',']

mutual

/-- What the tree means. -/
def JsonTree.value : JsonTree → JsonText.Value
  | .obj members => .obj (memberValues members)
  | .arr items => .arr (itemValues items)
  | .num v => .num v.value 0
  | .bool b => .bool b
  | .null => .null
  | .str s => .str s.chars

def memberValues : List (JsonKey × JsonTree) → List (List Char × JsonText.Value)
  | [] => []
  | (k, t) :: members => (k.chars, t.value) :: memberValues members

def itemValues : List JsonTree → List JsonText.Value
  | [] => []
  | t :: items => t.value :: itemValues items

end

mutual

/-- What is written for the tree. -/
def JsonTree.text : JsonTree → List Char
  | .obj members => '{' :: membersText true members ++ ['}']
  | .arr items => '[' :: itemsText true items ++ [']']
  | .num v => formatSigned v.value
  | .bool b => if b then "true".toList else "false".toList
  | .null => "null".toList
  | .str s => Json.quote s.chars

def membersText (first : Bool) : List (JsonKey × JsonTree) → List Char
  | [] => []
  | (k, t) :: members =>
    comma first ++ Json.quote k.chars ++ ':' :: t.text ++ membersText false members

def itemsText (first : Bool) : List JsonTree → List Char
  | [] => []
  | t :: items => comma first ++ t.text ++ itemsText false items

end

namespace Json

/-- With `first` on top of its flags the writer writes `out` and leaves `first'` on top. -/
def Writes (calls : List JsonCall) (first : Bool) (out : List Char) (first' : Bool) : Prop :=
  ∀ file outer, run calls { file := file, first := first :: outer } =
    some { file := file ++ out, first := first' :: outer }

theorem run_append (calls calls' : List JsonCall) (j : Json) :
    run (calls ++ calls') j = (run calls j).bind (run calls') := by
  induction calls generalizing j with
  | nil => rfl
  | cons call calls ih =>
    rw [List.cons_append, run, run]
    cases j.step call with
    | none => rfl
    | some j' => exact ih j'

namespace Writes
variable {calls calls' : List JsonCall} {out out' : List Char} {a b c first : Bool}

theorem nil : Writes [] a [] a := fun file outer => by rw [List.append_nil, run]

theorem append (h : Writes calls a out b) (h' : Writes calls' b out' c) :
    Writes (calls ++ calls') a (out ++ out') c :=
  fun file outer => by rw [run_append, h, Option.bind_some, h', List.append_assoc]

theorem sep_eq (first : Bool) (file : List Char) (outer : List Bool) :
    sep { file := file, first := first :: outer } =
      some { file := file ++ comma first, first := false :: outer } := by
  cases first with
  | true => simp [sep, comma]
  | false => rfl

/-- A call that leaves a value. -/
theorem leaf {call : JsonCall} {cs : List Char}
    (h : ∀ j : Json, j.step call = j.sep.map fun j => j.put cs) :
    Writes [call] first (comma first ++ cs) false := by
  intro file outer
  rw [run, h, sep_eq]
  exact congrArg (fun f => some (Json.mk f _)) (List.append_assoc _ _ _)

/-- A call that leaves a key. -/
theorem label {call : JsonCall} {cs : List Char}
    (h : ∀ j : Json, j.step call = j.sep.bind fun j => (j.put cs).owesNone) :
    Writes [call] first (comma first ++ cs) true := by
  intro file outer
  rw [run, h, sep_eq]
  exact congrArg (fun f => some (Json.mk f _)) (List.append_assoc _ _ _)

/-- A container around what its calls write. -/
theorem nested {opening closing : JsonCall} {l r : Char}
    (hl : ∀ j : Json, j.step opening = j.openWith l)
    (hr : ∀ j : Json, j.step closing = j.closeWith r) (h : Writes calls true out b) :
    Writes ([opening] ++ calls ++ [closing]) first (comma first ++ (l :: out ++ [r])) false := by
  intro file outer
  have hopen : run [opening] { file := file, first := first :: outer } =
      some { file := file ++ comma first ++ [l], first := true :: false :: outer } := by
    rw [run, hl, openWith, sep_eq]
    rfl
  rw [run_append, run_append, hopen, Option.bind_some, h, Option.bind_some, run, hr]
  apply congrArg (fun f => some (Json.mk f _))
  simp only [List.append_assoc, List.cons_append, List.nil_append]

end Writes

theorem formatSigned_ofNat (n : ℕ) : formatSigned n = formatUnsigned n := by
  rw [formatSigned, if_neg (by omega), Int.natAbs_natCast, formatUnsigned]

theorem num_writes (v : JsonNum) (first : Bool) :
    Writes [.num v] first (comma first ++ formatSigned v.value) false := by
  apply Writes.leaf
  intro j
  cases v with
  | u64 v => rw [JsonNum.value, formatSigned_ofNat, step, num]
  | i64 v => rw [JsonNum.value, step, num]
  | u32 v =>
    have hwide : (v.setWidth 64).toNat = v.toNat := BitVec.toNat_setWidth_of_le (by decide)
    rw [JsonNum.value, formatSigned_ofNat, step, num, ← hwide]
  | int v =>
    have hwide : (v.signExtend 64).toInt = v.toInt := BitVec.toInt_signExtend_of_le (by decide)
    rw [JsonNum.value, step, num, ← hwide]

theorem le_toNat_of_isDigit {c : Char} (h : c.isDigit = true) : 48 ≤ c.toNat :=
  (Char.isDigit_iff_toNat.mp h).1

/-- Digits stand for themselves. -/
theorem quoteChars_digits {s : List Char} (hs : ∀ c ∈ s, c.isDigit = true) : quoteChars s = s := by
  induction s with
  | nil => rfl
  | cons c s ih =>
    have hne {d : Char} : d.isDigit = false → c ≠ d :=
      JsonText.ne_of_isDigit (hs c List.mem_cons_self)
    have hlow : ¬c.toNat < 0x20 := by
      have hdigit := le_toNat_of_isDigit (hs c List.mem_cons_self)
      omega
    rw [quoteChars, if_neg (by omega), ih fun d hd => hs d (List.mem_cons_of_mem _ hd), quoteChar,
      if_neg (hne rfl), if_neg (hne rfl), if_neg (hne rfl), if_neg (hne rfl), if_neg (hne rfl),
      if_neg hlow]
    rfl

theorem key_writes (k : JsonKey) (first : Bool) :
    Writes [k.call] first (comma first ++ (quote k.chars ++ [':'])) true := by
  apply Writes.label
  intro j
  cases k with
  | name k => rfl
  | num k =>
    have hdigits : quoteChars (formatUnsigned k.toNat) = formatUnsigned k.toNat :=
      quoteChars_digits JsonText.isDigit_of_toDigits
    rw [JsonKey.chars, quote, hdigits, List.append_assoc]
    rfl

mutual

/-- A tree's calls leave its text and the comma owed before it. -/
theorem calls_write :
    ∀ (t : JsonTree) (first : Bool), Writes t.calls first (comma first ++ t.text) false
  | .obj members, first => by
    obtain ⟨b, h⟩ := memberCalls_write members true
    rw [JsonTree.calls, JsonTree.text]
    exact Writes.nested (fun _ => rfl) (fun _ => rfl) h
  | .arr items, first => by
    obtain ⟨b, h⟩ := itemCalls_write items true
    rw [JsonTree.calls, JsonTree.text]
    exact Writes.nested (fun _ => rfl) (fun _ => rfl) h
  | .num v, first => num_writes v first
  | .bool b, first => Writes.leaf fun _ => rfl
  | .null, first => Writes.leaf fun _ => rfl
  | .str s, first => Writes.leaf fun _ => rfl

theorem memberCalls_write : ∀ (members : List (JsonKey × JsonTree)) (first : Bool),
    ∃ b, Writes (memberCalls members) first (membersText first members) b
  | [], first => ⟨first, Writes.nil⟩
  | (k, t) :: members, first => by
    obtain ⟨b, h⟩ := memberCalls_write members false
    have hmember := ((key_writes k first).append (calls_write t true)).append h
    refine ⟨b, ?_⟩
    rw [memberCalls, membersText]
    simpa only [comma, if_true, List.append_assoc, List.cons_append, List.nil_append] using hmember

theorem itemCalls_write :
    ∀ (items : List JsonTree) (first : Bool), ∃ b, Writes (itemCalls items) first
      (itemsText first items) b
  | [], first => ⟨first, Writes.nil⟩
  | t :: items, first => by
    obtain ⟨b, h⟩ := itemCalls_write items false
    exact ⟨b, (calls_write t first).append h⟩

end

theorem lineEnd_writes (first : Bool) : Writes [.lineEnd] first ['\n'] true := fun _ _ => rfl

/-- Each record becomes one line. -/
theorem recordCalls_write (records : List JsonTree) :
    Writes (recordCalls records) true (records.flatMap fun t => t.text ++ ['\n']) true := by
  induction records with
  | nil => exact Writes.nil
  | cons t records ih => exact ((calls_write t true).append (lineEnd_writes false)).append ih

theorem quoteChar_length (c : Char) : 0 < (quoteChar c).length := by
  unfold quoteChar
  split_ifs <;> exact Nat.succ_pos _

/-- The four digits of a control character are read back. -/
theorem readEscape_formatHex4 {c : Char} (hc : c.toNat < 0x20) (cs : List Char) :
    JsonText.readEscape ('u' :: (formatHex4 c.toNat ++ cs)) = some (c, cs) := by
  have hdigits : ∀ n < 32, JsonText.hexDigit? (upperHexDigit (n / 16^3 % 16)) = some 0 ∧
      JsonText.hexDigit? (upperHexDigit (n / 16^2 % 16)) = some 0 ∧
      JsonText.hexDigit? (upperHexDigit (n / 16^1 % 16)) = some (n / 16) ∧
      JsonText.hexDigit? (upperHexDigit (n / 16^0 % 16)) = some (n % 16) := by decide
  obtain ⟨h₃, h₂, h₁, h₀⟩ := hdigits c.toNat hc
  have hchar : JsonText.unescaped? c.toNat = some c := by
    rw [JsonText.unescaped?, if_pos (Or.inl (by omega)), Char.ofNat_toNat]
  have hsum : ((0 * 16 + 0) * 16 + c.toNat / 16) * 16 + c.toNat % 16 = c.toNat := by omega
  simp only [formatHex4, List.map_cons, List.map_nil, List.cons_append, List.nil_append,
    JsonText.readEscape, h₃, h₂, h₁, h₀, Option.bind_eq_bind, Option.bind_some, hsum, hchar]

theorem readString_quoteChar {c : Char} (n : ℕ) (cs : List Char) :
    JsonText.readString (n + 1) (quoteChar c ++ cs) = (JsonText.readString n cs).map fun r =>
      (c :: r.1, r.2) := by
  unfold quoteChar
  split_ifs with hquote hslash hnewline hreturn htab hlow
  · rw [hquote]
    exact JsonText.readString_escape rfl
  · rw [hslash]
    exact JsonText.readString_escape rfl
  · rw [hnewline]
    exact JsonText.readString_escape rfl
  · rw [hreturn]
    exact JsonText.readString_escape rfl
  · rw [htab]
    exact JsonText.readString_escape rfl
  · exact JsonText.readString_escape (readEscape_formatHex4 hlow cs)
  · exact JsonText.readString_plain hquote hslash (by omega)

theorem readString_quoteChars {s : List Char} (hs : ∀ c ∈ s, c.toNat ≠ 0) {n : ℕ}
    (hn : (quoteChars s).length < n)
    (cs : List Char) :
    JsonText.readString n (quoteChars s ++ '"' :: cs) = some (s, cs) := by
  induction s generalizing n with
  | nil =>
    obtain ⟨n, rfl⟩ := Nat.exists_eq_succ_of_ne_zero (by omega : n ≠ 0)
    exact JsonText.readString_quote
  | cons c s ih =>
    have hpos := quoteChar_length c
    rw [quoteChars, if_neg (hs c List.mem_cons_self)] at hn ⊢
    rw [List.length_append] at hn
    obtain ⟨n, rfl⟩ := Nat.exists_eq_succ_of_ne_zero (by omega : n ≠ 0)
    rw [List.append_assoc, readString_quoteChar,
      ih (fun d hd => hs d (List.mem_cons_of_mem _ hd)) (by omega)]
    rfl

theorem key_chars_ne (k : JsonKey) : ∀ c ∈ k.chars, c.toNat ≠ 0 := by
  intro c hc
  cases k with
  | name k => exact (k.ascii c hc).1
  | num k =>
    have hlow := le_toNat_of_isDigit (JsonText.isDigit_of_toDigits c hc)
    omega

theorem formatSigned_eq (z : ℤ) : (z < 0 ∧ formatSigned z = '-' :: Nat.toDigits 10 z.natAbs) ∨
    (0 ≤ z ∧ formatSigned z = Nat.toDigits 10 z.natAbs) := by
  by_cases hz : z < 0
  · exact .inl ⟨hz, if_pos hz⟩
  · exact .inr ⟨Int.not_lt.mp hz, if_neg hz⟩

theorem toDigits_cons (n : ℕ) : ∃ d ds, Nat.toDigits 10 n = d :: ds ∧ d.isDigit = true := by
  obtain ⟨d, ds, h⟩ := List.exists_cons_of_ne_nil (Nat.toDigits_ne_nil (n := n) (b := 10))
  refine ⟨d, ds, h, JsonText.isDigit_of_toDigits (n := n) d ?_⟩
  rw [h]
  exact List.mem_cons_self

theorem readValue_formatSigned (z : ℤ) (n : ℕ) {cs : List Char} (hcs : JsonText.Delimited cs) :
    JsonText.readValue (n + 1) (formatSigned z ++ cs) = some (.num z 0, cs) := by
  rcases formatSigned_eq z with ⟨hz, h⟩ | ⟨hz, h⟩
  · have hneg : -1 * (z.natAbs : ℤ) = z := by omega
    rw [h, List.cons_append, JsonText.readValue_negative, JsonText.readUnsigned_toDigits _ hcs,
      hneg]
  · have hpos : 1 * (z.natAbs : ℤ) = z := by omega
    obtain ⟨d, ds, hds, hd⟩ := toDigits_cons z.natAbs
    rw [h, hds, List.cons_append, JsonText.readValue_digit hd, ← List.cons_append, ← hds,
      JsonText.readUnsigned_toDigits _ hcs, hpos]

/-- The text of a tree starts with neither a blank nor a closing bracket. -/
theorem text_head (t : JsonTree) :
    ∃ c cs, t.text = c :: cs ∧ JsonText.isBlank c = false ∧ c ≠ ']' := by
  cases t with
  | obj members => exact ⟨'{', _, rfl, rfl, by decide⟩
  | arr items => exact ⟨'[', _, rfl, rfl, by decide⟩
  | num v =>
    rcases formatSigned_eq v.value with ⟨-, h⟩ | ⟨-, h⟩
    · exact ⟨'-', _, h, rfl, by decide⟩
    · obtain ⟨d, ds, hds, hd⟩ := toDigits_cons v.value.natAbs
      exact ⟨d, ds, h.trans hds, JsonText.isBlank_of_isDigit hd, JsonText.ne_of_isDigit hd rfl⟩
  | bool b => cases b <;> exact ⟨_, _, rfl, rfl, by decide⟩
  | null => exact ⟨'n', _, rfl, rfl, by decide⟩
  | str s => exact ⟨'"', _, rfl, rfl, by decide⟩

theorem membersText_cons (first : Bool) (k : JsonKey) (t : JsonTree)
    (members : List (JsonKey × JsonTree)) : membersText first ((k, t) :: members) =
      comma first ++ '"' :: (quoteChars k.chars ++ '"' :: ':' :: (t.text ++ membersText false members)) := by
  simp only [membersText, quote, List.append_assoc, List.cons_append, List.nil_append]

theorem itemsText_cons (first : Bool) (t : JsonTree) (items : List JsonTree) :
    itemsText first (t :: items) = comma first ++ (t.text ++ itemsText false items) := by
  rw [itemsText, List.append_assoc]

/-- Behind the first member stands a comma and the text of the others. -/
theorem membersText_false (m : JsonKey × JsonTree) (members : List (JsonKey × JsonTree)) :
    membersText false (m :: members) = ',' :: membersText true (m :: members) := by
  rw [membersText_cons, membersText_cons]
  rfl

theorem itemsText_false (t : JsonTree) (items : List JsonTree) :
    itemsText false (t :: items) = ',' :: itemsText true (t :: items) := by
  rw [itemsText_cons, itemsText_cons]
  rfl

theorem container_append (l r : Char) (body cs : List Char) :
    (l :: body ++ [r]) ++ cs = l :: (body ++ r :: cs) := by
  rw [List.append_assoc]
  rfl

mutual

/-- Enough fuel is the length of the text. -/
theorem readValue_text : ∀ (t : JsonTree) (n : ℕ) (cs : List Char), t.text.length ≤ n →
    JsonText.Delimited cs → JsonText.readValue n (t.text ++ cs) = some (t.value, cs)
  | t, 0, cs, hn, _ => by
    obtain ⟨c, cs', h, -⟩ := text_head t
    rw [h, List.length_cons] at hn
    omega
  | .obj [], n + 1, cs, _, _ => JsonText.readValue_obj_nil
  | .obj ((k, t) :: members), n + 1, cs, hn, _ => by
    simp only [JsonTree.text, List.length_append, List.length_cons, List.length_nil] at hn
    have h := readMembers_text k t members n cs (by omega)
    rw [JsonTree.text, JsonTree.value, container_append]
    rw [membersText_cons] at h ⊢
    exact JsonText.readValue_obj h
  | .arr [], n + 1, cs, _, _ => JsonText.readValue_arr_nil
  | .arr (t :: items), n + 1, cs, hn, _ => by
    simp only [JsonTree.text, List.length_append, List.length_cons, List.length_nil] at hn
    have h := readItems_text t items n cs (by omega)
    obtain ⟨c, cs', htext, hblank, hc⟩ := text_head t
    rw [JsonTree.text, JsonTree.value, container_append]
    rw [itemsText_cons, htext] at h ⊢
    exact JsonText.readValue_arr hblank hc h
  | .num v, n + 1, cs, _, hcs => readValue_formatSigned v.value n hcs
  | .bool true, n + 1, cs, _, _ => JsonText.readValue_true
  | .bool false, n + 1, cs, _, _ => JsonText.readValue_false
  | .null, n + 1, cs, _, _ => JsonText.readValue_null
  | .str s, n + 1, cs, hn, _ => by
    simp only [JsonTree.text, quote, List.length_append, List.length_cons, List.length_nil] at hn
    rw [JsonTree.text, quote, JsonTree.value, List.append_assoc, List.append_assoc]
    exact JsonText.readValue_string
      (readString_quoteChars (fun c hc => (s.ascii c hc).1) (by omega) cs)

theorem readMembers_text :
    ∀ (k : JsonKey) (t : JsonTree) (members : List (JsonKey × JsonTree)) (n : ℕ)
      (cs : List Char), (membersText true ((k, t) :: members)).length < n →
        JsonText.readMembers n (membersText true ((k, t) :: members) ++ '}' :: cs) =
          some (memberValues ((k, t) :: members), cs)
  | k, t, members, 0, cs, hn => absurd hn (Nat.not_lt_zero _)
  | k, t, [], n + 1, cs, hn => by
    simp only [membersText_cons, comma, if_true, List.nil_append, List.length_append,
      List.length_cons] at hn
    have hk := readString_quoteChars (key_chars_ne k) (by omega : _ < n)
      (':' :: (t.text ++ '}' :: cs))
    have hv := readValue_text t n ('}' :: cs) (by omega) (JsonText.delimited_cons (by decide))
    rw [membersText_cons, membersText, List.append_nil, memberValues, memberValues]
    simp only [comma, if_true, List.nil_append, List.cons_append, List.append_assoc]
    exact JsonText.readMembers_last hk hv
  | k, t, (k', t') :: members, n + 1, cs, hn => by
    rw [membersText_cons, membersText_false] at hn
    simp only [comma, if_true, List.nil_append, List.length_append, List.length_cons] at hn
    have hk := readString_quoteChars (key_chars_ne k) (by omega : _ < n)
      (':' :: (t.text ++ ',' :: (membersText true ((k', t') :: members) ++ '}' :: cs)))
    have hv := readValue_text t n (',' :: (membersText true ((k', t') :: members) ++ '}' :: cs))
      (by omega)
      (JsonText.delimited_cons (by decide))
    have hrest := readMembers_text k' t' members n cs (by omega)
    rw [membersText_cons, membersText_false, memberValues]
    simp only [comma, if_true, List.nil_append, List.cons_append, List.append_assoc]
    rw [JsonText.readMembers_more hk hv, hrest]
    rfl

theorem readItems_text : ∀ (t : JsonTree) (items : List JsonTree) (n : ℕ) (cs : List Char),
    (itemsText true (t :: items)).length < n →
    JsonText.readItems n (itemsText true (t :: items) ++ ']' :: cs) = some (itemValues (t :: items),
      cs)
  | t, items, 0, cs, hn => absurd hn (Nat.not_lt_zero _)
  | t, [], n + 1, cs, hn => by
    rw [itemsText_cons, itemsText, List.append_nil] at hn ⊢
    have hv := readValue_text t n (']' :: cs) (by simpa [comma] using Nat.lt_succ_iff.mp hn)
      (JsonText.delimited_cons (by decide))
    exact JsonText.readItems_last hv
  | t, t' :: items, n + 1, cs, hn => by
    rw [itemsText_cons, itemsText_false] at hn
    simp only [comma, if_true, List.nil_append, List.length_append, List.length_cons] at hn
    have hv := readValue_text t n (',' :: (itemsText true (t' :: items) ++ ']' :: cs)) (by omega)
      (JsonText.delimited_cons (by decide))
    have hrest := readItems_text t' items n cs (by omega)
    rw [itemsText_cons, itemsText_false, itemValues]
    simp only [comma, if_true, List.nil_append, List.cons_append, List.append_assoc]
    rw [JsonText.readItems_more hv, hrest]
    rfl

end

theorem parse_text (t : JsonTree) : JsonText.parse t.text = some t.value := by
  have h := readValue_text t (t.text.length + 1) [] (Nat.le_succ _) nofun
  rw [List.append_nil] at h
  rw [JsonText.parse, h]
  rfl

/-- Nothing below the blank. -/
def Printable (cs : List Char) : Prop := ∀ c ∈ cs, 0x20 ≤ c.toNat

instance (cs : List Char) : Decidable (Printable cs) :=
  decidable_of_iff (cs.all fun c => decide (0x20 ≤ c.toNat) = true) (by simp [Printable])

theorem Printable.nil : Printable [] := nofun

theorem Printable.append {cs cs' : List Char} (h : Printable cs) (h' : Printable cs') :
    Printable (cs ++ cs') :=
  List.forall_mem_append.mpr ⟨h, h'⟩

theorem Printable.cons {c : Char} {cs : List Char} (hc : 0x20 ≤ c.toNat) (h : Printable cs) :
    Printable (c :: cs) :=
  List.forall_mem_cons.mpr ⟨hc, h⟩

theorem printable_toDigits (n : ℕ) : Printable (Nat.toDigits 10 n) := by
  intro c hc
  have hlow := le_toNat_of_isDigit (JsonText.isDigit_of_toDigits c hc)
  omega

theorem printable_formatSigned (z : ℤ) : Printable (formatSigned z) := by
  rcases formatSigned_eq z with ⟨-, h⟩ | ⟨-, h⟩ <;> rw [h]
  · exact .cons (by decide) (printable_toDigits _)
  · exact printable_toDigits _

theorem printable_quoteChar (c : Char) : Printable (quoteChar c) := by
  have hhex : ∀ n < 32, Printable (formatHex4 n) := by decide
  unfold quoteChar
  split_ifs with hquote hslash hnewline hreturn htab hlow
  · decide
  · decide
  · decide
  · decide
  · decide
  · exact .cons (by decide) (.cons (by decide) (hhex _ hlow))
  · exact .cons (by omega) .nil

theorem printable_quote (s : List Char) : Printable (quote s) := by
  have hchars : Printable (quoteChars s) := by
    induction s with
    | nil => exact .nil
    | cons c s ih =>
      rw [quoteChars]
      split
      · exact .nil
      · exact (printable_quoteChar c).append ih
  exact (Printable.append (.cons (by decide) .nil) hchars).append (.cons (by decide) .nil)

theorem printable_comma (first : Bool) : Printable (comma first) := by
  cases first with
  | true => exact .nil
  | false => exact .cons (by decide) .nil

mutual

theorem printable_text : ∀ t : JsonTree, Printable t.text
  | .obj members =>
    (Printable.cons (by decide) (printable_membersText true members)).append
      (.cons (by decide) .nil)
  | .arr items =>
    (Printable.cons (by decide) (printable_itemsText true items)).append (.cons (by decide) .nil)
  | .num v => printable_formatSigned v.value
  | .bool true => by decide
  | .bool false => by decide
  | .null => by decide
  | .str s => printable_quote s.chars

theorem printable_membersText :
    ∀ (first : Bool) (members : List (JsonKey × JsonTree)), Printable (membersText first members)
  | _, [] => .nil
  | first, (k, t) :: members =>
    ((printable_comma first).append (printable_quote k.chars)).append
      (.cons (by decide) (printable_text t)) |>.append
      (printable_membersText false members)

theorem printable_itemsText :
    ∀ (first : Bool) (items : List JsonTree), Printable (itemsText first items)
  | _, [] => .nil
  | first, t :: items =>
    ((printable_comma first).append (printable_text t)).append (printable_itemsText false items)

end

/-- Any records on one writer become lines without control characters, and each line is read back as
its record. -/
theorem records_readBack (records : List JsonTree) :
    ∃ lines : List (List Char),
      run (recordCalls records) {} =
        some { file := lines.flatMap fun line => line ++ ['\n'], first := [true] } ∧
          (∀ line ∈ lines, ∀ c ∈ line, 0x20 ≤ c.toNat) ∧
            lines.map JsonText.parse = records.map fun t => some t.value := by
  refine ⟨records.map JsonTree.text, ?_, ?_, ?_⟩
  · rw [List.flatMap_map]
    exact recordCalls_write records [] []
  · intro line hline
    obtain ⟨t, -, rfl⟩ := List.mem_map.mp hline
    exact printable_text t
  · rw [List.map_map]
    exact List.map_congr_left fun t _ => parse_text t

end Json

end OooCpu
