import OooCpu.Driver
import OooCpu.ElfLoading
import OooCpu.HexLoading

/-! # One program in three formats

A text of hex words, the bytes of these words, and an ELF file whose segments hold
these bytes one behind the other leave the same image, so the driver does the same
with all of them. -/
namespace OooCpu

namespace Memory

theorem writeBytes_concat (m : Memory) (addr : Word) (data : List Byte) (b : Byte) :
    m.writeBytes addr (data ++ [b]) =
      (m.writeBytes addr data).storeU8 (addr + BitVec.ofNat 32 data.length) b := by
  simp [writeBytes, List.zipIdx_append]

theorem writeBytes_append (m : Memory) (addr : Word) (xs ys : List Byte) :
    m.writeBytes addr (xs ++ ys) =
      (m.writeBytes addr xs).writeBytes (addr + BitVec.ofNat 32 xs.length) ys := by
  induction ys using List.reverseRecOn with
  | nil => rw [List.append_nil]; rfl
  | append_singleton ys b ih =>
    rw [← List.append_assoc, writeBytes_concat, writeBytes_concat, ih, List.length_append,
      BitVec.ofNat_add, add_assoc]

end Memory

/-- The bytes of a word as memory holds them. -/
def wordBytes (w : Word) : List Byte := (List.range 4).map (byteOf w)

theorem Hex.storeWords_eq (mem : Memory) (addr : Word) (ws : List Word) :
    storeWords mem addr ws = mem.writeBytes addr (ws.flatMap wordBytes) := by
  induction ws generalizing mem addr with
  | nil => rfl
  | cons w ws ih =>
    have hword : mem.storeU32 addr w = mem.writeBytes addr (wordBytes w) := by
      simp [Memory.storeU32, Memory.writeBytes, wordBytes, byteOf, List.range_succ]
    rw [storeWords, ih, hword, List.flatMap_cons, Memory.writeBytes_append]
    rfl

namespace Elf
variable {buf : List Byte} {base : Word}

/-- Each segment starts where the one before it ends. -/
def Adjacent (buf : List Byte) : Word → List Phdr → Prop
  | _, [] => True
  | a, p :: rest => p.vaddr = a ∧ Adjacent buf (a + BitVec.ofNat 32 (contents buf p).length) rest

instance decidableAdjacent (buf : List Byte) :
    (a : Word) → (segs : List Phdr) → Decidable (Adjacent buf a segs)
  | _, [] => .isTrue trivial
  | a, p :: rest =>
    have := decidableAdjacent buf (a + BitVec.ofNat 32 (contents buf p).length) rest
    inferInstanceAs (Decidable (_ ∧ _))

instance (buf : List Byte) (i : ℕ) : Decidable (HeaderFits buf i) :=
  inferInstanceAs (Decidable (_ ≤ _))
instance (buf : List Byte) (p : Phdr) : Decidable (SegmentFits buf p) :=
  inferInstanceAs (Decidable (_ ≤ _))

theorem placeAll_adjacent {segs : List Phdr} (h : Adjacent buf base segs) (mem : Memory) :
    placeAll buf mem segs = mem.writeBytes base (segs.flatMap (contents buf)) := by
  induction segs generalizing base mem with
  | nil => rfl
  | cons p segs ih =>
    obtain ⟨hp, hrest⟩ := h
    rw [List.flatMap_cons, Memory.writeBytes_append, ← ih hrest, ← hp]
    rfl

theorem loadElf_ok (h : WellFormed buf) (mem : Memory) :
    loadElf mem buf = (placeAll buf mem (segments buf),
      .ok ⟨entry buf, roRanges (segments buf)⟩) := by
  have hident : IdentOk buf := ⟨h.size, h.magic, h.class32, h.littleEndian⟩
  rcases checkIdent_cases buf with ⟨-, hcheck⟩ | ⟨hnot, -⟩
  · obtain ⟨eh, heh, hentry, hoff, hentsize, hnum⟩ := readEhdr_eq hident hcheck
    have his : ∀ i ∈ List.range (phnum buf), i < 2^16 := fun i hi => by
      have hlt := eh.phnum.isLt
      rw [hnum] at hlt
      exact (List.mem_range.mp hi).trans hlt
    simp only [loadElf, heh, hnum]
    rw [loadSegments_ok hoff hentsize his
      (fun i hi => h.headers i (List.mem_range.mp hi)) h.segments, hentry]
    rfl
  · exact absurd hident hnot

end Elf

namespace Cli
variable {files : Files} {args : List Text} {o o' : CliOpts} {mem : Memory} {entry : Word}
    {tok : Text}

/-- The files hold the same program, which starts where it is loaded. -/
structure SameProgram (base : Word) (text raw elf : List Byte) : Prop where
  accepted : ∀ line ∈ Hex.dataLines (textOf text), Hex.IsHexWord (2^64) line
  words : ((Hex.dataLines (textOf text)).map Hex.lineValue).flatMap wordBytes = raw
  wellFormed : Elf.WellFormed elf
  adjacent : Elf.Adjacent elf base (Elf.segments elf)
  segments : (Elf.segments elf).flatMap (Elf.contents elf) = raw
  entry : Elf.entry elf = base

theorem loadRaw_eq (mem : Memory) (base : Word) (raw : List Byte) :
    (loadRaw mem raw base).1 = mem.writeBytes base raw := by
  rw [loadRaw]
  split
  · next hnil => rw [hnil]; rfl
  · rfl

section Load
variable {base : Word} {text raw elf : List Byte} (h : SameProgram base text raw elf)
include h

theorem SameProgram.loadHex_eq :
    loaded (loadHex .empty (textOf text) base) = .ok (Memory.empty.writeBytes base raw, base) := by
  simp only [loadHex, Hex.loadHexLines_ok h.accepted, Hex.storeWords_eq]
  rw [← h.words]
  rfl

theorem SameProgram.loadElf_eq :
    loaded (loadElf .empty elf) = .ok (Memory.empty.writeBytes base raw, base) := by
  rw [Elf.loadElf_ok h.wellFormed, Elf.placeAll_adjacent h.adjacent, h.segments, h.entry]
  rfl

end Load

/-- Options that name no program yet. -/
structure CliOpts.Bare (o : CliOpts) : Prop where
  help : o.showHelp = false
  hex : o.hexPath = []
  raw : o.rawPath = []
  elf : o.elfPath = []

/-- One more argument settles what is run. -/
theorem main_append (hparse : parseArgs args {} = .ok o) (hhelp : o.showHelp = false)
    (hlast : parseArgs [tok] o = .ok o') : main files (args ++ [tok]) = runOpts files o' := by
  have hall : parseArgs (args ++ [tok]) {} = .ok o' := (parseArgs_append hparse hhelp).trans hlast
  simp only [main, hall]

theorem runOpts_loaded (hhelp : o.showHelp = false) (hone : inputsGiven o = 1)
    (hbase : o.hasBase = true)
    (hload : loadProgram files o = .ok (mem, entry)) :
    runOpts files o = runProgram files o mem entry := by
  have hone' : ¬inputsGiven o ≠ 1 := not_not.mpr hone
  simp [runOpts, hhelp, hone', hbase, hload]

/-- It makes no difference which of the three formats the program is in. -/
theorem main_formats (files : Files) (args : List Text) (o : CliOpts) (hex raw prog : Text)
    (text bytes elf : List Byte)
    (hparse : parseArgs args {} = .ok o) (hbare : o.Bare) (hbase : o.hasBase = true)
    (hhex : hex ≠ []) (hraw : raw ≠ []) (hprog : prog ≠ []) (hdash : prog.head? ≠ some '-')
    (htext : files.read hex = some text) (hbytes : files.read raw = some bytes)
    (helf : files.read prog = some elf)
    (hsame : SameProgram o.base text bytes elf) :
    main files (args ++ [joined "--hex".toList hex]) = main files (args ++ [joined "--raw".toList raw]) ∧
      main files (args ++ [prog]) = main files (args ++ [joined "--raw".toList raw]) := by
  have hlast {tok : Text} {f : CliOpts → CliOpts} (hsets : Sets tok f) :
      parseArgs [tok] o = .ok (f o) := by
    have happly := hsets.applies [] o
    rw [List.append_nil] at happly
    rw [happly, parseArgs]
  let image := Memory.empty.writeBytes o.base bytes
  have hfromHex : main files (args ++ [joined "--hex".toList hex]) = runProgram files o image o.base := by
    have hone : inputsGiven { o with hexPath := hex } = 1 := by
      simp [inputsGiven, hhex, hbare.raw, hbare.elf]
    have hload : loadProgram files { o with hexPath := hex } = .ok (image, o.base) := by
      rw [loadProgram, if_pos hhex]
      simp only [htext]
      exact hsame.loadHex_eq
    rw [main_append hparse hbare.help (hlast (sets_hex hex))]
    exact runOpts_loaded hbare.help hone hbase hload
  have hfromRaw : main files (args ++ [joined "--raw".toList raw]) = runProgram files o image o.base := by
    have hone : inputsGiven { o with rawPath := raw } = 1 := by
      simp [inputsGiven, hraw, hbare.hex, hbare.elf]
    have hload : loadProgram files { o with rawPath := raw } = .ok (image, o.base) := by
      rw [loadProgram, if_neg (not_not.mpr hbare.hex), if_pos hraw]
      simp only [hbytes, loadRaw_eq]
      rfl
    rw [main_append hparse hbare.help (hlast (sets_raw raw))]
    exact runOpts_loaded hbare.help hone hbase hload
  have hfromElf : main files (args ++ [prog]) = runProgram files o image o.base := by
    have hone : inputsGiven { o with elfPath := prog } = 1 := by
      simp [inputsGiven, hprog, hbare.hex, hbare.raw]
    have hload : loadProgram files { o with elfPath := prog } = .ok (image, o.base) := by
      rw [loadProgram, if_neg (not_not.mpr hbare.hex), if_neg (not_not.mpr hbare.raw)]
      simp only [helf]
      exact hsame.loadElf_eq
    have hread : parseArgs [prog] o = .ok { o with elfPath := prog } := by
      rw [parseArgs, readArg_elf hprog hdash hbare.elf]
      rfl
    rw [main_append hparse hbare.help hread]
    exact runOpts_loaded hbare.help hone hbase hload
  exact ⟨hfromHex.trans hfromRaw.symm, hfromElf.trans hfromRaw.symm⟩

/-- The three instructions of `exiting`, one a line. -/
def exitingText : List Byte := "05D00893\n00700513\n00000073\n".toList.map fun c => BitVec.ofNat 8 c.toNat

/-- A file header, one program header and `exiting`. -/
def exitingElf : List Byte :=
  [0x7F, 0x45, 0x4C, 0x46, 1, 1, 1, 0, 0, 0, 0, 0, 0, 0, 0, 0, 2, 0, 0xF3, 0, 1, 0, 0, 0, 0, 0, 0,
    0, 52, 0, 0, 0, 0, 0, 0, 0, 0, 0, 0, 0, 52, 0, 32, 0, 1, 0, 0, 0, 0, 0, 0, 0] ++
  [1, 0, 0, 0, 84, 0, 0, 0, 0, 0, 0, 0, 0, 0, 0, 0, 12, 0, 0, 0, 12, 0, 0, 0, 5, 0, 0, 0, 4, 0, 0,
    0] ++ exiting

def exitingFiles : Files where
  read path := if path = ['h'] then some exitingText else if path = ['r'] then some exiting
    else some exitingElf
  writable _ := true

theorem main_formats_exiting :
    main exitingFiles (["--base=0".toList] ++ [joined "--hex".toList ['h']]) =
        main exitingFiles (["--base=0".toList] ++ [joined "--raw".toList ['r']]) ∧
      main exitingFiles (["--base=0".toList] ++ [['e']]) =
        main exitingFiles (["--base=0".toList] ++ [joined "--raw".toList ['r']]) :=
  main_formats exitingFiles _ { hasBase := true } ['h'] ['r'] ['e'] exitingText exiting exitingElf
    (by decide +kernel)
    ⟨rfl, rfl, rfl, rfl⟩ rfl (by decide) (by decide) (by decide) (by decide) rfl rfl rfl
    { accepted := by decide +kernel
      words := by decide +kernel
      wellFormed := ⟨by decide, rfl, rfl, rfl, by decide +kernel, by decide +kernel⟩
      adjacent := by decide +kernel
      segments := by decide +kernel
      entry := by decide +kernel }

end Cli

end OooCpu
