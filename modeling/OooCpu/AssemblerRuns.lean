import OooCpu.Fixups

/-! # Runs of the assembler

The words and fixups of an assembler follow the listing of its calls, and
resolving the fixups puts every offset the listing asks for in its place. -/
namespace OooCpu.Asmc

namespace Line

/-- The fixup that is recorded for the line at index `i`. -/
def fixup (i : ℕ) : Line → Option Fixup
  | .word _ | .jalr _ => none
  | .branch _ _ _ lbl => some ⟨i, lbl, .b⟩
  | .jal _ lbl => some ⟨i, lbl, .j⟩
  | .auipc lbl => some ⟨i, lbl, .call⟩

/-- The index of the fixup that patches the line at index `k`. -/
def site (k : ℕ) : Line → Option ℕ
  | .word _ => none
  | .branch .. | .jal .. | .auipc _ => some k
  | .jalr _ => some (k - 1)

end Line

/-- Both words of a call stand together. -/
structure Paired (ls : List Line) : Prop where
  iff_next : ∀ i lbl, ls[i]? = some (.auipc lbl) ↔ ls[i + 1]? = some (.jalr lbl)
  not_first : ∀ lbl, ls[0]? ≠ some (.jalr lbl)

namespace Paired
variable {ls ms : List Line}

theorem append (hl : Paired ls) (hm : Paired ms) : Paired (ls ++ ms) := by
  constructor
  · intro i lbl
    rcases Nat.lt_trichotomy (i + 1) ls.length with h | h | h
    · rw [List.getElem?_append_left (by omega), List.getElem?_append_left h]
      exact hl.iff_next i lbl
    · rw [List.getElem?_append_left (by omega), List.getElem?_append_right (by omega), h,
        Nat.sub_self]
      refine ⟨fun hi => ?_, fun hi => absurd hi (hm.not_first lbl)⟩
      have hnext := (hl.iff_next i lbl).mp hi
      rw [h, List.getElem?_eq_none le_rfl] at hnext
      exact nomatch hnext
    · rw [List.getElem?_append_right (by omega), List.getElem?_append_right (by omega),
        Nat.sub_add_comm (by omega)]
      exact hm.iff_next _ lbl
  · intro lbl
    by_cases h : 0 < ls.length
    · rw [List.getElem?_append_left h]
      exact hl.not_first lbl
    · rw [List.getElem?_append_right (by omega), Nat.zero_sub]
      exact hm.not_first lbl

theorem words (ws : List Word) : Paired (ws.map .word) := by
  refine ⟨fun i lbl => ?_, fun lbl => ?_⟩ <;> simp

theorem singleton {line : Line} (ha : ∀ lbl, line ≠ .auipc lbl) (hj : ∀ lbl, line ≠ .jalr lbl) :
    Paired [line] := by
  constructor
  · intro i lbl
    cases i <;> simp [ha lbl]
  · intro lbl
    simp [hj lbl]

theorem call (lbl : String) : Paired [.auipc lbl, .jalr lbl] := by
  constructor
  · intro i lbl'
    rcases i with _ | _ | i <;> simp
  · intro lbl'
    simp

end Paired

namespace Listing

/-- The offset of a fixup at index `i`. -/
def off (s : Listing) (lbl : String) (i : ℕ) : Word :=
  .ofInt 32 (4 * (((s.labels lbl).getD 0 : ℤ) - i))

structure WellFormed (s : Listing) : Prop where
  paired : Paired s.lines
  labels_le : ∀ lbl t, s.labels lbl = some t → t ≤ s.lines.length

/-- The words are those of the listing, and the fixups in `done` have been resolved. -/
structure Holds (s : Listing) (done : Set ℕ) (words : List Word) : Prop where
  length : words.length = s.lines.length
  keeps : ∀ (k : ℕ) (line : Line) (w : Word), s.lines[k]? = some line → words[k]? = some w →
    line.Keeps w
  landed : ∀ (k : ℕ) (line : Line) (w : Word) (lbl : String) (i : ℕ), s.lines[k]? = some line →
    words[k]? = some w → line.lbl? = some lbl → line.site k = some i → i ∈ done →
      w = line.patch line.emitted (s.off lbl i)

variable {s : Listing} {done : Set ℕ} {words : List Word}

theorem WellFormed.append (h : s.WellFormed) {ls : List Line} (hl : Paired ls) :
    (s.append ls).WellFormed := by
  refine ⟨h.paired.append hl, fun lbl t ht => ?_⟩
  rw [Listing.append, List.length_append]
  exact (h.labels_le lbl t ht).trans (Nat.le_add_right _ _)

theorem WellFormed.step (h : s.WellFormed) (call : Call) : (s.step call).WellFormed := by
  cases call with
  | label name =>
    refine ⟨h.paired, fun lbl t ht => ?_⟩
    simp only [Listing.step] at ht
    split at ht
    · exact (Option.some_inj.mp ht).ge
    · exact h.labels_le lbl t ht
  | insn i => exact h.append (Paired.words [i.word])
  | li rd imm => exact h.append (Paired.words _)
  | branch c r1 r2 lbl => exact h.append (Paired.singleton (fun _ => nofun) fun _ => nofun)
  | jal rd lbl => exact h.append (Paired.singleton (fun _ => nofun) fun _ => nofun)
  | call lbl => exact h.append (Paired.call lbl)
  | assemble => exact h

theorem run_wellFormed (calls : List Call) : (run calls).WellFormed := by
  have hrun : ∀ s : Listing, s.WellFormed → (calls.foldl Listing.step s).WellFormed := by
    induction calls with
    | nil => exact fun s h => h
    | cons call calls ih => exact fun s h => ih _ (h.step call)
  refine hrun {} ⟨⟨fun i lbl => ?_, fun lbl => nofun⟩, fun lbl t => nofun⟩
  simp

end Listing

namespace Fixup

/-- What resolving the fixup throws. -/
def verdict (labels : String → Option ℕ) (f : Fixup) : Option AsmError :=
  match labels f.name with
  | none => some (.undefinedLabel f.name)
  | some t =>
    let off : ℤ := 4 * ((t : ℤ) - f.wordIdx)
    match f.kind with
    | .b => if -4096 ≤ off ∧ off ≤ 4094 then none else some (.branchUnencodable f.name)
    | .j => if -1048576 ≤ off ∧ off ≤ 1048574 then none else some (.jalUnencodable f.name)
    | .call => none

/-- The words with the offset in place. -/
def patch (f : Fixup) (off : Word) (words : List Word) : List Word :=
  match f.kind with
  | .b => words.modify f.wordIdx (patchB · off)
  | .j => words.modify f.wordIdx (patchJ · off)
  | .call => (words.modify f.wordIdx (patchAuipc · off)).modify (f.wordIdx + 1) (patchJalr · off)

theorem patch_length (f : Fixup) (off : Word) (words : List Word) :
    (f.patch off words).length = words.length := by
  rw [patch]
  cases f.kind <;> simp

end Fixup

namespace Listing
variable {s : Listing} {done : Set ℕ} {words : List Word} {f : Fixup} {line : Line} {i : ℕ}

theorem resolve_eq (s : Listing) (words : List Word) (f : Fixup) :
    Assembler.resolve s.labels words f = match f.verdict s.labels with
    | some e => .error e
    | none => .ok (f.patch (s.off f.name f.wordIdx) words) := by
  rw [Assembler.resolve, Fixup.verdict, Fixup.patch, Listing.off]
  cases hlabel : s.labels f.name with
  | none => rfl
  | some t =>
    have hoff : (t : ℤ) * 4 - f.wordIdx * 4 = 4 * ((t : ℤ) - f.wordIdx) := by ring
    simp only [Option.getD_some, hoff]
    cases f.kind with
    | b =>
      dsimp only
      by_cases h : -4096 ≤ 4 * ((t : ℤ) - f.wordIdx) ∧ 4 * ((t : ℤ) - f.wordIdx) ≤ 4094
      · rw [if_pos h, if_neg (by omega)]
      · rw [if_neg h, if_pos (by omega)]
    | j =>
      dsimp only
      by_cases h : -1048576 ≤ 4 * ((t : ℤ) - f.wordIdx) ∧ 4 * ((t : ℤ) - f.wordIdx) ≤ 1048574
      · rw [if_pos h, if_neg (by omega)]
      · rw [if_neg h, if_pos (by omega)]
    | call => rfl

/-- A fixup patches the word it stands at, and the second word of a call. -/
theorem site_cases (hs : Paired s.lines) {k : ℕ} (hk : s.lines[k]? = some line)
    (h : line.site k = some i) :
    k = i ∨ ∃ lbl, k = i + 1 ∧ line = .jalr lbl ∧ s.lines[i]? = some (.auipc lbl) := by
  cases line with
  | word w => exact nomatch h
  | branch c r1 r2 lbl => exact .inl (Option.some_inj.mp h)
  | jal rd lbl => exact .inl (Option.some_inj.mp h)
  | auipc lbl => exact .inl (Option.some_inj.mp h)
  | jalr lbl =>
    cases k with
    | zero => exact absurd hk (hs.not_first lbl)
    | succ k =>
      obtain rfl : k = i := Option.some_inj.mp h
      exact .inr ⟨lbl, rfl, rfl, (hs.iff_next k lbl).mpr hk⟩

/-- A fixup patches the words it is the site of and no others. -/
theorem patch_getElem? (hs : Paired s.lines) (hline : s.lines[i]? = some line)
    (hf : line.fixup i = some f) (off : Word)
    {k : ℕ} {line' : Line} {w : Word} (hk : s.lines[k]? = some line') (hw : words[k]? = some w) :
    (line'.site k = some f.wordIdx ∧ line'.lbl? = some f.name ∧
      (f.patch off words)[k]? = some (line'.patch w off)) ∨
        (line'.site k ≠ some f.wordIdx ∧ (f.patch off words)[k]? = some w) := by
  by_cases hki : k = i
  · subst hki
    obtain rfl : line' = line := Option.some_inj.mp (hk.symm.trans hline)
    left
    cases line' with
    | word w => exact nomatch hf
    | branch c r1 r2 lbl | jal rd lbl =>
      obtain rfl := Option.some_inj.mp hf
      refine ⟨rfl, rfl, ?_⟩
      simp only [Fixup.patch, List.getElem?_modify_eq, hw]
      rfl
    | auipc lbl =>
      obtain rfl := Option.some_inj.mp hf
      refine ⟨rfl, rfl, ?_⟩
      simp only [Fixup.patch]
      rw [List.getElem?_modify_ne _ _ (by omega), List.getElem?_modify_eq, hw]
      rfl
    | jalr lbl => exact nomatch hf
  · cases line with
    | word w => exact nomatch hf
    | branch c r1 r2 lbl | jal rd lbl =>
      obtain rfl := Option.some_inj.mp hf
      refine .inr ⟨fun hsite => ?_, ?_⟩
      · obtain hsame | ⟨lbl', -, -, hother⟩ := site_cases hs hk hsite
        · exact hki hsame
        · exact nomatch hline.symm.trans hother
      · simp only [Fixup.patch]
        rw [List.getElem?_modify_ne _ _ (Ne.symm hki), hw]
    | auipc lbl =>
      obtain rfl := Option.some_inj.mp hf
      have hnext := (hs.iff_next i lbl).mp hline
      by_cases hki' : k = i + 1
      · subst hki'
        obtain rfl := Option.some_inj.mp (hk.symm.trans hnext)
        refine .inl ⟨rfl, rfl, ?_⟩
        simp only [Fixup.patch]
        rw [List.getElem?_modify_eq, List.getElem?_modify_ne _ _ (by omega), hw]
        rfl
      · refine .inr ⟨fun hsite => ?_, ?_⟩
        · obtain hsame | ⟨lbl', hafter, -⟩ := site_cases hs hk hsite
          · exact hki hsame
          · exact hki' hafter
        · simp only [Fixup.patch]
          rw [List.getElem?_modify_ne _ _ (Ne.symm hki'), List.getElem?_modify_ne _ _ (Ne.symm hki),
            hw]
    | jalr lbl => exact nomatch hf

theorem Holds.patch (h : s.Holds done words) (hs : Paired s.lines) (hline : s.lines[i]? = some line)
    (hf : line.fixup i = some f) :
    s.Holds (insert f.wordIdx done) (f.patch (s.off f.name f.wordIdx) words) := by
  have hword : ∀ (k : ℕ) (line' : Line) (w' : Word), s.lines[k]? = some line' →
    (f.patch (s.off f.name f.wordIdx) words)[k]? = some w' →
      ∃ w, words[k]? = some w := by
    intro k line' w' hk hw'
    have hlt := (List.getElem?_eq_some_iff.mp hk).1
    exact ⟨_, List.getElem?_eq_getElem (h.length ▸ hlt)⟩
  refine ⟨(Fixup.patch_length _ _ _).trans h.length, fun k line' w' hk hw' => ?_,
    fun k line' w' lbl j hk hw' hl hsite hj => ?_⟩
  · obtain ⟨w, hw⟩ := hword k line' w' hk hw'
    rcases patch_getElem? hs hline hf (s.off f.name f.wordIdx) hk hw with ⟨-, -, hnew⟩ | ⟨-, hsame⟩
    · rw [hnew, Option.some_inj] at hw'
      rw [← hw']
      exact (h.keeps k line' w hk hw).patch _
    · rw [hsame, Option.some_inj] at hw'
      rw [← hw']
      exact h.keeps k line' w hk hw
  · obtain ⟨w, hw⟩ := hword k line' w' hk hw'
    rcases patch_getElem? hs hline hf (s.off f.name f.wordIdx) hk hw with ⟨hown, hname,
      hnew⟩ | ⟨hother, hsame⟩
    · rw [hnew, Option.some_inj] at hw'
      rw [← hw', h.keeps k line' w hk hw, Option.some_inj.mp (hsite.symm.trans hown),
        Option.some_inj.mp (hl.symm.trans hname)]
    · rw [hsame, Option.some_inj] at hw'
      rw [← hw']
      apply h.landed k line' w lbl j hk hw hl hsite
      rcases hj with rfl | hj
      · exact absurd hsite hother
      · exact hj

/-- Some line asks for the fixup. -/
def Asks (s : Listing) (f : Fixup) : Prop :=
  ∃ (i : ℕ) (line : Line), s.lines[i]? = some line ∧ line.fixup i = some f

theorem Holds.mono {done' : Set ℕ} (h : s.Holds done words) (hsub : done' ⊆ done) :
    s.Holds done' words :=
  ⟨h.length, h.keeps, fun k line w lbl i hk hw hl hsite hi => h.landed k line w lbl i hk hw hl hsite
    (hsub hi)⟩

theorem resolveAll_fst (s : Listing) (fs : List Fixup) (words : List Word) :
    (Assembler.resolveAll s.labels fs words).1 = fs.findSome? (·.verdict s.labels) := by
  induction fs generalizing words with
  | nil => rfl
  | cons f fs ih =>
    rw [Assembler.resolveAll, resolve_eq, List.findSome?_cons]
    cases f.verdict s.labels with
    | some e => rfl
    | none => exact ih _

theorem Holds.resolveAll (hs : Paired s.lines) {fs : List Fixup} (hfs : ∀ f ∈ fs, s.Asks f)
    (h : s.Holds done words) : s.Holds done (Assembler.resolveAll s.labels fs words).2 ∧
      ((Assembler.resolveAll s.labels fs words).1 = none →
        s.Holds (done ∪ {i | ∃ f ∈ fs, f.wordIdx = i})
          (Assembler.resolveAll s.labels fs words).2) := by
  induction fs generalizing words done with
  | nil =>
    refine ⟨h, fun _ => h.mono ?_⟩
    rintro i (hi | ⟨f, hf, -⟩)
    · exact hi
    · exact nomatch hf
  | cons f fs ih =>
    rw [Assembler.resolveAll, resolve_eq]
    cases f.verdict s.labels with
    | some e => exact ⟨h, nofun⟩
    | none =>
      obtain ⟨i, line, hline, hf⟩ := hfs f List.mem_cons_self
      obtain ⟨hheld, hdone⟩ :=
        ih (fun g hg => hfs g (List.mem_cons_of_mem _ hg)) (h.patch hs hline hf)
      refine ⟨hheld.mono (Set.subset_insert _ _), fun hnone => (hdone hnone).mono ?_⟩
      rintro j (hj | ⟨g, hg, rfl⟩)
      · exact .inl (.inr hj)
      · rcases List.mem_cons.mp hg with rfl | hg
        · exact .inl (.inl rfl)
        · exact .inr ⟨g, hg, rfl⟩

/-- The word at index `k` when its fixup has been resolved. -/
def final (s : Listing) (k : ℕ) (line : Line) : Word :=
  match line.site k, line.lbl? with
  | some i, some lbl => line.patch line.emitted (s.off lbl i)
  | _, _ => line.emitted

theorem Holds.final_eq (h : s.Holds done words) (hs : Paired s.lines)
    (hdone : ∀ f, s.Asks f → f.wordIdx ∈ done) {k : ℕ}
    {w : Word} (hk : s.lines[k]? = some line) (hw : words[k]? = some w) : w = s.final k line := by
  cases line with
  | word v => exact h.keeps k _ w hk hw 0
  | branch c r1 r2 lbl =>
    exact h.landed k _ w lbl k hk hw rfl rfl (hdone ⟨k, lbl, .b⟩ ⟨k, _, hk, rfl⟩)
  | jal rd lbl => exact h.landed k _ w lbl k hk hw rfl rfl (hdone ⟨k, lbl, .j⟩ ⟨k, _, hk, rfl⟩)
  | auipc lbl => exact h.landed k _ w lbl k hk hw rfl rfl (hdone ⟨k, lbl, .call⟩ ⟨k, _, hk, rfl⟩)
  | jalr lbl =>
    apply h.landed k _ w lbl (k - 1) hk hw rfl rfl
    cases k with
    | zero => exact absurd hk (hs.not_first lbl)
    | succ k => exact hdone ⟨k, lbl, .call⟩ ⟨k, _, (hs.iff_next k lbl).mpr hk, rfl⟩

/-- With every fixup resolved the listing leaves no choice. -/
theorem Holds.unique (h : s.Holds done words) {words' : List Word} (h' : s.Holds done words')
    (hs : Paired s.lines)
    (hdone : ∀ f, s.Asks f → f.wordIdx ∈ done) : words = words' := by
  apply List.ext_getElem (h.length.trans h'.length.symm)
  intro k hk hk'
  have hline := List.getElem?_eq_getElem (h.length ▸ hk : k < s.lines.length)
  exact (h.final_eq hs hdone hline (List.getElem?_eq_getElem hk)).trans
    (h'.final_eq hs hdone hline (List.getElem?_eq_getElem hk')).symm

theorem asks_append {ls : List Line} : (s.append ls).Asks f ↔
    s.Asks f ∨ ∃ (j : ℕ) (line : Line), ls[j]? = some line ∧
      line.fixup (s.lines.length + j) = some f := by
  constructor
  · rintro ⟨i, line, hi, hf⟩
    rw [append] at hi
    by_cases hlt : i < s.lines.length
    · rw [List.getElem?_append_left hlt] at hi
      exact .inl ⟨i, line, hi, hf⟩
    · rw [List.getElem?_append_right (by omega)] at hi
      refine .inr ⟨i - s.lines.length, line, hi, ?_⟩
      rw [Nat.add_sub_cancel' (by omega)]
      exact hf
  · rintro (⟨i, line, hi, hf⟩ | ⟨j, line, hj, hf⟩)
    · refine ⟨i, line, ?_, hf⟩
      rw [append, List.getElem?_append_left (List.getElem?_eq_some_iff.mp hi).1]
      exact hi
    · refine ⟨s.lines.length + j, line, ?_, hf⟩
      rw [append, List.getElem?_append_right (by omega), Nat.add_sub_cancel_left]
      exact hj

theorem Holds.append (h : s.Holds ∅ words) (ls : List Line) :
    (s.append ls).Holds ∅ (words ++ ls.map Line.emitted) := by
  refine ⟨?_, fun k line w hk hw => ?_,
    fun k line w lbl i _ _ _ _ hi => absurd hi (Set.notMem_empty i)⟩
  · rw [Listing.append, List.length_append, List.length_append, List.length_map, h.length]
  · rw [Listing.append] at hk
    by_cases hlt : k < s.lines.length
    · rw [List.getElem?_append_left hlt] at hk
      rw [List.getElem?_append_left (h.length ▸ hlt)] at hw
      exact h.keeps k line w hk hw
    · rw [List.getElem?_append_right (by omega)] at hk
      rw [List.getElem?_append_right (h.length ▸ Nat.le_of_not_lt hlt), h.length, List.getElem?_map,
        hk] at hw
      obtain rfl := Option.some_inj.mp hw
      exact fun off => rfl

end Listing

/-- The assembler holds what the listing says. -/
structure Assembler.Follows (a : Assembler) (s : Listing) : Prop where
  labels : a.labels = s.labels
  fixups : ∀ f, f ∈ a.fixups ↔ s.Asks f
  holds : s.Holds ∅ a.words

namespace Assembler
variable {a a' : Assembler} {s : Listing}

theorem Follows.append (h : a.Follows s) {ls : List Line} (fs : List Fixup)
    (hlabels : a'.labels = a.labels)
    (hwords : a'.words = a.words ++ ls.map Line.emitted) (hfixups : a'.fixups = a.fixups ++ fs)
    (hfs : ∀ f, f ∈ fs ↔ ∃ (j : ℕ) (line : Line), ls[j]? = some line ∧
      line.fixup (s.lines.length + j) = some f) : a'.Follows (s.append ls) := by
  refine ⟨hlabels.trans h.labels, fun f => ?_, ?_⟩
  · rw [hfixups, List.mem_append, h.fixups, hfs, Listing.asks_append]
  · rw [hwords]
    exact h.holds.append ls

theorem foldl_emit (a : Assembler) (ws : List Word) :
    ws.foldl emit a = { a with words := a.words ++ ws } := by
  induction ws generalizing a with
  | nil => simp
  | cons w ws ih =>
    rw [List.foldl_cons, ih, emit]
    simp

/-- One emitted word with one fixup for it. -/
theorem Follows.fixed (h : a.Follows s) {line : Line} {f : Fixup} (hlabels : a'.labels = a.labels)
    (hwords : a'.words = a.words ++ [line.emitted]) (hfixups : a'.fixups = a.fixups ++ [f])
    (hf : line.fixup a.words.length = some f) : a'.Follows (s.append [line]) := by
  refine h.append [f] hlabels hwords hfixups fun g => ?_
  rw [List.mem_singleton, ← h.holds.length]
  constructor
  · rintro rfl
    exact ⟨0, line, rfl, hf⟩
  · rintro ⟨j, line', hj, hg⟩
    cases j with
    | zero =>
      obtain rfl := Option.some_inj.mp hj
      exact Option.some_inj.mp (hg.symm.trans hf)
    | succ j => exact nomatch hj

theorem Follows.plain (h : a.Follows s) (ws : List Word) :
    Follows { a with words := a.words ++ ws } (s.append (ws.map .word)) := by
  refine h.append [] rfl ?_ (List.append_nil _).symm fun f => ?_
  · rw [List.map_map]
    exact congrArg (a.words ++ ·) (List.map_id ws).symm
  · refine ⟨nofun, ?_⟩
    rintro ⟨j, line, hj, hf⟩
    rw [List.getElem?_map, Option.map_eq_some_iff] at hj
    obtain ⟨w, -, rfl⟩ := hj
    exact nomatch hf

theorem Follows.step (h : a.Follows s) (hs : s.WellFormed) (call : Call) :
    (a.step call).Follows (s.step call) := by
  cases call with
  | label name =>
    refine ⟨?_, h.fixups, h.holds.length, h.holds.keeps,
      fun k line w lbl i _ _ _ _ hi => absurd hi (Set.notMem_empty i)⟩
    simp only [Assembler.step, label, Listing.step, h.labels, h.holds.length]
  | insn i => exact h.plain [i.word]
  | li rd imm =>
    simp only [Assembler.step, Listing.step, foldl_emit]
    exact h.plain (Asmc.li rd imm)
  | branch c r1 r2 lbl => exact h.fixed rfl rfl rfl rfl
  | jal rd lbl => exact h.fixed rfl rfl rfl rfl
  | call lbl =>
    refine h.append [⟨a.words.length, lbl, .call⟩] rfl ?_ rfl fun f => ?_
    · exact List.append_assoc _ _ _
    · rw [List.mem_singleton, ← h.holds.length]
      constructor
      · rintro rfl
        exact ⟨0, .auipc lbl, rfl, rfl⟩
      · rintro ⟨j, line, hj, hf⟩
        rcases j with _ | _ | j
        · obtain rfl := Option.some_inj.mp hj
          exact (Option.some_inj.mp hf).symm
        · obtain rfl := Option.some_inj.mp hj
          exact nomatch hf
        · exact nomatch hj
  | assemble =>
    have hwords := (h.holds.resolveAll hs.paired fun f hf => (h.fixups f).mp hf).1
    refine ⟨h.labels, h.fixups, ?_⟩
    rw [Assembler.step, assemble, h.labels]
    exact hwords

theorem run_follows (calls : List Call) : (run calls).Follows (Listing.run calls) := by
  have hrun : ∀ (a : Assembler) (s : Listing), a.Follows s → s.WellFormed →
      (calls.foldl Assembler.step a).Follows (calls.foldl Listing.step s) := by
    induction calls with
    | nil => exact fun a s h _ => h
    | cons call calls ih => exact fun a s h hs => ih _ _ (h.step hs call) (hs.step call)
  refine hrun {} {} ⟨rfl, fun f => ⟨nofun, ?_⟩, rfl, ?_, ?_⟩ (Listing.run_wellFormed [])
  · rintro ⟨i, line, hi, -⟩
    exact nomatch hi
  · exact fun k line w hk => nomatch hk
  · exact fun k line w lbl i hk => nomatch hk

theorem assemble_holds (h : a.Follows s) (hs : s.WellFormed) {words : List Word}
    (hok : a.assemble.1 = .ok words) :
    (∀ f, s.Asks f → f.verdict s.labels = none) ∧
      s.Holds {i | ∃ f ∈ a.fixups, f.wordIdx = i} words := by
  have hall := (h.holds.resolveAll hs.paired fun f hf => (h.fixups f).mp hf).2
  rw [Listing.resolveAll_fst] at hall
  rw [assemble, h.labels, Listing.resolveAll_fst] at hok
  cases hverdict : a.fixups.findSome? (·.verdict s.labels) with
  | some e =>
    rw [hverdict] at hok
    exact nomatch hok
  | none =>
    rw [hverdict] at hok
    rw [← Except.ok.inj hok]
    refine ⟨fun f hf => ?_, (hall hverdict).mono Set.subset_union_right⟩
    exact List.findSome?_eq_none_iff.mp hverdict f ((h.fixups f).mpr hf)

theorem assemble_throws_iff (h : a.Follows s) (hdef : s.Defined) :
    (∃ e, a.assemble.1 = .error e) ↔ s.TooFar := by
  have hthrows : (∃ e, a.assemble.1 = .error e) ↔ ∃ f, s.Asks f ∧ f.verdict s.labels ≠ none := by
    rw [assemble, h.labels, Listing.resolveAll_fst]
    cases hverdict : a.fixups.findSome? (·.verdict s.labels) with
    | some e =>
      obtain ⟨f, hf, hfe⟩ := List.exists_of_findSome?_eq_some hverdict
      exact ⟨fun _ => ⟨f, (h.fixups f).mp hf, by rw [hfe]; exact nofun⟩, fun _ => ⟨e, rfl⟩⟩
    | none =>
      refine ⟨nofun, ?_⟩
      rintro ⟨f, hf, hne⟩
      exact absurd (List.findSome?_eq_none_iff.mp hverdict f ((h.fixups f).mpr hf)) hne
  rw [hthrows]
  constructor
  · rintro ⟨f, ⟨i, line, hi, hf⟩, hne⟩
    obtain ⟨t, ht⟩ : ∃ t, s.labels f.name = some t := by
      refine Option.isSome_iff_exists.mp (hdef line (List.mem_of_getElem? hi) f.name ?_)
      cases line with
      | word w => exact nomatch hf
      | jalr lbl => exact nomatch hf
      | branch c r1 r2 lbl | jal rd lbl | auipc lbl =>
        obtain rfl := Option.some_inj.mp hf
        rfl
    rw [Fixup.verdict, ht] at hne
    cases line with
    | word w => exact nomatch hf
    | branch c r1 r2 lbl =>
      obtain rfl := Option.some_inj.mp hf
      refine ⟨i, t, .inl ⟨c, r1, r2, lbl, hi, ht, fun hin => hne (if_pos hin)⟩⟩
    | jal rd lbl =>
      obtain rfl := Option.some_inj.mp hf
      refine ⟨i, t, .inr ⟨rd, lbl, hi, ht, fun hin => hne (if_pos hin)⟩⟩
    | auipc lbl =>
      obtain rfl := Option.some_inj.mp hf
      exact absurd rfl hne
    | jalr lbl => exact nomatch hf
  · rintro ⟨i, t, ⟨c, r1, r2, lbl, hi, ht, hout⟩ | ⟨rd, lbl, hi, ht, hout⟩⟩
    · refine ⟨⟨i, lbl, .b⟩, ⟨i, _, hi, rfl⟩, ?_⟩
      simp only [Fixup.verdict, ht]
      rw [if_neg hout]
      exact nofun
    · refine ⟨⟨i, lbl, .j⟩, ⟨i, _, hi, rfl⟩, ?_⟩
      simp only [Fixup.verdict, ht]
      rw [if_neg hout]
      exact nofun

theorem assemble_again (h : a.Follows s) (hs : s.WellFormed) :
    a.assemble.2.assemble.1 = a.assemble.1 := by
  have hasks : ∀ f ∈ a.fixups, s.Asks f := fun f hf => (h.fixups f).mp hf
  have hfirst := (h.holds.resolveAll hs.paired hasks).2
  rw [assemble, assemble, h.labels]
  simp only [Listing.resolveAll_fst] at hfirst ⊢
  cases hverdict : a.fixups.findSome? (·.verdict s.labels) with
  | some e => rfl
  | none =>
    have hdone := hfirst hverdict
    have htwice := (hdone.resolveAll hs.paired hasks).1
    exact congrArg Except.ok (htwice.unique hdone hs.paired fun f hf => .inr ⟨f,
      (h.fixups f).mpr hf, rfl⟩)

end Assembler

theorem Listing.off_eq {s : Listing} {lbl : String} {t : ℕ} (ht : s.labels lbl = some t) (i : ℕ) :
    s.off lbl i = .ofInt 32 (4 * ((t : ℤ) - i)) := by
  rw [Listing.off, ht, Option.getD_some]

/-- The words that hold with every fixup resolved are what their lines ask for. -/
theorem Listing.Holds.lands {s : Listing} {done : Set ℕ} {words : List Word}
    (h : s.Holds done words) (hs : s.WellFormed)
    (hdone : ∀ f, s.Asks f → f.wordIdx ∈ done) (hdef : s.Defined)
    (hverdict : ∀ f, s.Asks f → f.verdict s.labels = none)
    (hshort : s.lines.length < 2 ^ 28) {i : ℕ} {line : Line} (hi : s.lines[i]? = some line) :
    s.Lands words i line := by
  have hword {k : ℕ} {line' : Line} (hk : s.lines[k]? = some line') :
      words[k]? = some (s.final k line') := by
    have hlt : k < words.length := h.length ▸ (List.getElem?_eq_some_iff.mp hk).1
    have hw := List.getElem?_eq_getElem hlt
    rw [hw, ← h.final_eq hs.paired hdone hk hw]
  have hlabel {lbl : String} (hl : line.lbl? = some lbl) : ∃ t, s.labels lbl = some t :=
    Option.isSome_iff_exists.mp (hdef line (List.mem_of_getElem? hi) lbl hl)
  cases line with
  | word w => exact hword hi
  | branch c r1 r2 lbl =>
    obtain ⟨t, ht⟩ := hlabel rfl
    have hoff := Listing.off_eq ht i
    have hin := hverdict ⟨i, lbl, .b⟩ ⟨i, _, hi, rfl⟩
    simp only [Fixup.verdict, ht, ite_eq_left_iff, reduceCtorEq, imp_false, not_not] at hin
    refine ⟨t, _, ht, hword hi, ?_⟩
    rw [← hoff]
    apply decode_branch c r1 r2
    rw [hoff]
    exact immInRange_ofInt.1 hin
  | jal rd lbl =>
    obtain ⟨t, ht⟩ := hlabel rfl
    have hoff := Listing.off_eq ht i
    have hin := hverdict ⟨i, lbl, .j⟩ ⟨i, _, hi, rfl⟩
    simp only [Fixup.verdict, ht, ite_eq_left_iff, reduceCtorEq, imp_false, not_not] at hin
    refine ⟨t, _, ht, hword hi, ?_⟩
    rw [← hoff]
    apply decode_jal rd
    rw [hoff]
    exact immInRange_ofInt.2 hin
  | auipc lbl =>
    obtain ⟨t, ht⟩ := hlabel rfl
    have hoff := Listing.off_eq ht i
    have hlt := (List.getElem?_eq_some_iff.mp hi).1
    have hle := hs.labels_le lbl t ht
    have htoInt : (BitVec.ofInt 32 (4 * ((t : ℤ) - i))).toInt = 4 * ((t : ℤ) - i) :=
      BitVec.toInt_ofInt_eq_self (by decide) (by omega) (by omega)
    refine ⟨t, _, _, _, _, ht, hword hi, hword ((hs.paired.iff_next i lbl).mp hi),
      decode_callAuipc (s.off lbl i), decode_callJalr (s.off lbl i), ?_, ?_⟩
    · rw [callHi20_add, hoff]
    · rw [← hoff]
      apply callLo12_exact
      rw [hoff, htoInt]
      omega
  | jalr lbl =>
    cases i with
    | zero => exact absurd hi (hs.paired.not_first lbl)
    | succ i => exact ⟨Nat.succ_pos i, (hs.paired.iff_next i lbl).mpr hi⟩

/-- Assembling throws just where a branch or jump cannot reach its label; otherwise each word is
what its line asks for, and assembling again changes nothing. -/
theorem assemble_lands (calls : List Call) (hshort : (Listing.run calls).lines.length < 2 ^ 28)
    (hdef : (Listing.run calls).Defined) :
    let a := Assembler.run calls
    let s := Listing.run calls
    ((∃ e, a.assemble.1 = .error e) ↔ s.TooFar) ∧
      (∀ words, a.assemble.1 = .ok words → words.length = s.lines.length ∧
        ∀ (i : ℕ) (line : Line), s.lines[i]? = some line → s.Lands words i line) ∧
      a.assemble.2.assemble.1 = a.assemble.1 := by
  have h := Assembler.run_follows calls
  have hs := Listing.run_wellFormed calls
  refine ⟨Assembler.assemble_throws_iff h hdef, fun words hok => ?_, Assembler.assemble_again h hs⟩
  obtain ⟨hverdict, hholds⟩ := Assembler.assemble_holds h hs hok
  refine ⟨hholds.length, fun i line hi => ?_⟩
  exact hholds.lands hs (fun f hf => ⟨f, (h.fixups f).mpr hf, rfl⟩) hdef hverdict hshort hi

/-- A loop that calls backwards and jumps forwards. -/
def looping : List Call :=
  [.label "top", .insn { mnemonic := .addi, rd := 5, rs1 := 5, imm := 1 }, .branch .bne 5 6 "top", .call "top", .assemble,
    .jal 0 "end", .label "end"]

theorem looping_defined : (Listing.run looping).Defined := by
  intro line hline lbl hlbl
  simp only [looping, Listing.run, Listing.step, Listing.append, List.foldl_cons, List.foldl_nil,
    List.nil_append, List.cons_append, List.mem_cons, List.not_mem_nil, or_false] at hline
  rcases hline with rfl | rfl | rfl | rfl | rfl
  · exact nomatch hlbl
  all_goals
    obtain rfl := Option.some_inj.mp hlbl
    rfl

theorem assemble_lands_looping :
    (Assembler.run looping).assemble.2.assemble.1 = (Assembler.run looping).assemble.1 ∧
    (Listing.run looping).Lands (Assembler.run looping).assemble.2.words 1 (.branch .bne 5 6 "top") :=
  have h := assemble_lands looping (by decide) looping_defined
  ⟨h.2.2, (h.2.1 _ rfl).2 1 _ rfl⟩

end OooCpu.Asmc
