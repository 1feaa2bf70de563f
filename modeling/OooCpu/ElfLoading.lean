import OooCpu.Loader
import OooCpu.MemoryRuns

/-! # What the ELF loader accepts and what it places

The loader reads nothing outside the file, throws exactly at files that are not
well formed, and places exactly the bytes of the loadable segments. -/
namespace OooCpu.Elf

/-- The little-endian value of the `len` bytes at `off`. -/
def field (buf : List Byte) (off len : ℕ) : ℕ :=
  ((buf.drop off).take len).foldr (fun b n => b.toNat + 256 * n) 0

def word (buf : List Byte) (off : ℕ) : Word := BitVec.ofNat 32 (field buf off 4)

def entry (buf : List Byte) : Word := word buf 24
def phoff (buf : List Byte) : ℕ := field buf 28 4
def phentsize (buf : List Byte) : ℕ := field buf 42 2
def phnum (buf : List Byte) : ℕ := field buf 44 2

/-- Where program header `i` stands. -/
def headerOffset (buf : List Byte) (i : ℕ) : ℕ := phoff buf + i * phentsize buf

def header (buf : List Byte) (i : ℕ) : Phdr where
  type := word buf (headerOffset buf i)
  offset := word buf (headerOffset buf i + 4)
  vaddr := word buf (headerOffset buf i + 8)
  filesz := word buf (headerOffset buf i + 16)
  memsz := word buf (headerOffset buf i + 20)
  flags := word buf (headerOffset buf i + 24)

/-- The loadable segments among the given headers. -/
def segmentsOf (buf : List Byte) (is : List ℕ) : List Phdr :=
  (is.map (header buf)).filter fun p => p.type = PT_LOAD

def segments (buf : List Byte) : List Phdr := segmentsOf buf (List.range (phnum buf))

def HeaderFits (buf : List Byte) (i : ℕ) : Prop := headerOffset buf i + 32 ≤ buf.length

def SegmentFits (buf : List Byte) (p : Phdr) : Prop := p.offset.toNat + p.filesz.toNat ≤ buf.length

structure WellFormed (buf : List Byte) : Prop where
  size : 52 ≤ buf.length
  magic : buf.take 4 = [0x7F, 0x45, 0x4C, 0x46]
  class32 : buf[4]? = some 1
  littleEndian : buf[5]? = some 1
  headers : ∀ i < phnum buf, HeaderFits buf i
  segments : ∀ p ∈ segments buf, SegmentFits buf p

/-- The file byte a segment puts at `a`. -/
def segmentByte (buf : List Byte) (a : Word) (p : Phdr) : Byte :=
  buf.getD (p.offset.toNat + (a - p.vaddr).toNat) 0

/-- The byte of the last segment that covers `a`. -/
def byteAt (buf : List Byte) (segs : List Phdr) (a : Word) : Byte :=
  ((segs.reverse.find? fun p => Covers p.vaddr p.filesz.toNat a).map (segmentByte buf a)).getD 0

/-- The ranges of the segments that can be read but not written. -/
def roRanges (segs : List Phdr) : List (Word × Word) :=
  (segs.filter fun p => p.flags &&& PF_R ≠ 0 ∧ p.flags &&& PF_W = 0).map fun p =>
    (p.vaddr, p.vaddr + p.memsz)

variable {buf : List Byte} {off : ℕ}

theorem readU8_eq (h : off < buf.length) : readU8 buf off = .ok (buf.getD off 0) := by
  simp [readU8, List.getElem?_eq_getElem h, List.getD]

theorem field_succ (h : off < buf.length) (len : ℕ) :
    field buf off (len + 1) = (buf.getD off 0).toNat + 256 * field buf (off + 1) len := by
  have hget : buf.getD off 0 = buf[off] := by simp [List.getD, List.getElem?_eq_getElem h]
  rw [field, List.drop_eq_getElem_cons h, List.take_succ_cons, List.foldr_cons, hget]
  rfl

theorem field_zero (buf : List Byte) (off : ℕ) : field buf off 0 = 0 := rfl

theorem field_four (h : off + 4 ≤ buf.length) : field buf off 4 = (buf.getD off 0).toNat +
    256 * ((buf.getD (off + 1) 0).toNat +
      256 * ((buf.getD (off + 2) 0).toNat + 256 * (buf.getD (off + 3) 0).toNat)) := by
  rw [field_succ (by omega), field_succ (by omega), field_succ (by omega), field_succ (by omega),
    field_zero]
  rfl

theorem toNat_word (h : off + 4 ≤ buf.length) : (word buf off).toNat = field buf off 4 := by
  rw [word, BitVec.toNat_ofNat, field_four h]
  have h0 := (buf.getD off 0).isLt
  have h1 := (buf.getD (off + 1) 0).isLt
  have h2 := (buf.getD (off + 2) 0).isLt
  have h3 := (buf.getD (off + 3) 0).isLt
  omega

theorem rdU32_eq (h : off + 4 ≤ buf.length) : rdU32 buf off = .ok (word buf off) := by
  rw [rdU32, readU8_eq (by omega), readU8_eq (by omega), readU8_eq (by omega), readU8_eq (by omega)]
  apply congrArg Except.ok
  apply BitVec.eq_of_toNat_eq
  rw [Memory.toNat_join, toNat_word h, field_four h]
  omega

theorem toNat_join16 (b0 b1 : Byte) :
    (b0.setWidth 16 ||| b1.setWidth 16 <<< 8).toNat = b0.toNat + b1.toNat * 2^8 := by
  have h0 := b0.isLt
  have h1 := b1.isLt
  rw [BitVec.toNat_or, BitVec.toNat_shiftLeft, BitVec.toNat_setWidth, BitVec.toNat_setWidth,
    Nat.mod_eq_of_lt (by omega : b0.toNat < 2^16), Nat.mod_eq_of_lt (by omega : b1.toNat < 2^16),
    Nat.or_comm]
  have hshift : b1.toNat <<< 8 % 2^16 = b1.toNat <<< 8 :=
    Nat.mod_eq_of_lt (by rw [Nat.shiftLeft_eq]; omega)
  rw [hshift, ← Nat.shiftLeft_add_eq_or_of_lt h0, Nat.shiftLeft_eq]
  omega

theorem rdU16_eq (h : off + 2 ≤ buf.length) :
    ∃ v, rdU16 buf off = .ok v ∧ v.toNat = field buf off 2 := by
  rw [rdU16, readU8_eq (by omega), readU8_eq (by omega)]
  refine ⟨_, rfl, ?_⟩
  rw [toNat_join16, field_succ (by omega), field_succ (by omega), field_zero]
  omega

/-- The identification the loader checks. -/
def IdentOk (buf : List Byte) : Prop :=
  52 ≤ buf.length ∧ buf.take 4 = [0x7F, 0x45, 0x4C, 0x46] ∧ buf[4]? = some 1 ∧ buf[5]? = some 1

theorem checkIdent_cases (buf : List Byte) :
    IdentOk buf ∧ checkIdent buf = .ok () ∨ ¬IdentOk buf ∧
      ∃ what, checkIdent buf = .error (.thrown what) := by
  by_cases hlen : buf.length < 52
  · refine .inr ⟨fun h => by have := h.1; omega, "load_elf: file too small for Elf32_Ehdr", ?_⟩
    simp only [checkIdent, hlen, if_true]
    rfl
  -- the first six bytes exist
  rcases buf with _ | ⟨b0, _ | ⟨b1, _ | ⟨b2, _ | ⟨b3, _ | ⟨b4, _ | ⟨b5, rest⟩⟩⟩⟩⟩⟩
  iterate 6 simp at hlen
  have hread : checkIdent (b0 :: b1 :: b2 :: b3 :: b4 :: b5 :: rest) =
      if b0 ≠ 0x7F ∨ b1 ≠ 0x45 ∨ b2 ≠ 0x4C ∨ b3 ≠ 0x46 then .error (.thrown "load_elf: bad ELF magic")
      else if b4 ≠ 1 then .error (.thrown "load_elf: not ELFCLASS32")
      else if b5 ≠ 1 then .error (.thrown "load_elf: not ELFDATA2LSB") else .ok () := by
    simp only [checkIdent, hlen, if_false]
    rfl
  rw [hread]
  have hsize : 52 ≤ (b0 :: b1 :: b2 :: b3 :: b4 :: b5 :: rest).length := by omega
  have hident : IdentOk (b0 :: b1 :: b2 :: b3 :: b4 :: b5 :: rest) ↔
      (b0 = 0x7F ∧ b1 = 0x45 ∧ b2 = 0x4C ∧ b3 = 0x46) ∧ b4 = 1 ∧ b5 = 1 := by
    rw [IdentOk, and_iff_right hsize]
    simp [and_assoc]
  rw [hident]
  by_cases hmagic : b0 = 0x7F ∧ b1 = 0x45 ∧ b2 = 0x4C ∧ b3 = 0x46
  · rw [if_neg (by tauto)]
    by_cases hclass : b4 = 1
    · rw [if_neg (by simpa using hclass)]
      by_cases hdata : b5 = 1
      · rw [if_neg (by simpa using hdata)]
        exact .inl ⟨⟨hmagic, hclass, hdata⟩, rfl⟩
      · rw [if_pos hdata]
        exact .inr ⟨fun h => hdata h.2.2, _, rfl⟩
    · rw [if_pos hclass]
      exact .inr ⟨fun h => hclass h.2.1, _, rfl⟩
  · rw [if_pos (by tauto)]
    exact .inr ⟨fun h => hmagic h.1, _, rfl⟩

theorem readEhdr_eq (h : IdentOk buf) (hcheck : checkIdent buf = .ok ()) :
    ∃ eh, readEhdr buf = .ok eh ∧ eh.entry = entry buf ∧ eh.phoff.toNat = phoff buf ∧
      eh.phentsize.toNat = phentsize buf ∧ eh.phnum.toNat = phnum buf := by
  have hsize := h.1
  obtain ⟨entsize, hentsize, hes⟩ := rdU16_eq (by omega : 42 + 2 ≤ buf.length)
  obtain ⟨num, hnum, hn⟩ := rdU16_eq (by omega : 44 + 2 ≤ buf.length)
  refine ⟨⟨word buf 24, word buf 28, entsize, num⟩, ?_, rfl, toNat_word (by omega), hes, hn⟩
  rw [readEhdr, hcheck, rdU32_eq (by omega), rdU32_eq (by omega), hentsize, hnum]
  rfl

/-- The bytes of a segment. -/
def contents (buf : List Byte) (p : Phdr) : List Byte :=
  (buf.drop p.offset.toNat).take p.filesz.toNat

def placeAll (buf : List Byte) (mem : Memory) (segs : List Phdr) : Memory :=
  segs.foldl (fun m p => m.writeBytes p.vaddr (contents buf p)) mem

theorem readPhdr_eq {i : ℕ} (h : HeaderFits buf i) :
    readPhdr buf (headerOffset buf i) = .ok (header buf i) := by
  unfold HeaderFits at h
  rw [readPhdr, rdU32_eq (by omega), rdU32_eq (by omega), rdU32_eq (by omega), rdU32_eq (by omega),
    rdU32_eq (by omega), rdU32_eq (by omega)]
  rfl

theorem loadSegment_other {p : Phdr} (h : p.type ≠ PT_LOAD) (mem : Memory)
    (ro : List (Word × Word)) : loadSegment buf p mem ro = (mem, .ok (ro ++ roRanges [])) := by
  rw [loadSegment, if_pos h]
  simp [roRanges]

theorem roRanges_append (segs segs' : List Phdr) :
    roRanges (segs ++ segs') = roRanges segs ++ roRanges segs' := by
  rw [roRanges, List.filter_append, List.map_append]
  rfl

theorem roRanges_singleton (p : Phdr) :
    roRanges [p] = if p.flags &&& PF_R ≠ 0 ∧
      p.flags &&& PF_W = 0 then [(p.vaddr, p.vaddr + p.memsz)] else [] := by
  by_cases hro : p.flags &&& PF_R ≠ 0 ∧ p.flags &&& PF_W = 0
  · rw [if_pos hro, roRanges, List.filter_cons_of_pos (by simpa using hro)]
    rfl
  · rw [if_neg hro, roRanges, List.filter_cons_of_neg (by simpa using hro)]
    rfl

theorem segment_end (p : Phdr) :
    u64 (p.offset.toNat + p.filesz.toNat) = p.offset.toNat + p.filesz.toNat := by
  have hoffset := p.offset.isLt
  have hfilesz := p.filesz.isLt
  exact Nat.mod_eq_of_lt (by omega)

theorem loadSegment_load {p : Phdr} (h : p.type = PT_LOAD) (hfits : SegmentFits buf p)
    (mem : Memory) (ro : List (Word × Word)) :
    loadSegment buf p mem ro = (placeAll buf mem [p], .ok (ro ++ roRanges [p])) := by
  have hpast : ¬buf.length < u64 (p.offset.toNat + p.filesz.toNat) := by
    rw [segment_end]
    exact Nat.not_lt.mpr hfits
  rw [loadSegment, if_neg (by simpa using h), if_neg hpast, readBytes, if_pos (.inr hfits)]
  rw [roRanges_singleton]
  by_cases hro : p.flags &&& PF_R ≠ 0 ∧ p.flags &&& PF_W = 0
  · simp only [if_pos hro]
    rfl
  · simp only [if_neg hro, List.append_nil]
    rfl

theorem loadSegment_past {p : Phdr} (h : p.type = PT_LOAD) (hfits : ¬SegmentFits buf p)
    (mem : Memory) (ro : List (Word × Word)) :
    ∃ what, loadSegment buf p mem ro = (mem, .error (.thrown what)) := by
  have hpast : buf.length < u64 (p.offset.toNat + p.filesz.toNat) := by
    rw [segment_end]
    exact Nat.lt_of_not_le hfits
  rw [loadSegment, if_neg (by simpa using h), if_pos hpast]
  exact ⟨_, rfl⟩

section
variable {off : Word} {entsize : BitVec 16} (hoff : off.toNat = phoff buf)
    (hentsize : entsize.toNat = phentsize buf)
include hoff hentsize

/-- No sum of the header arithmetic wraps. -/
theorem header_offset {i : ℕ} (hi : i < 2^16) :
    u64 (off.toNat + u64 (i * entsize.toNat)) = headerOffset buf i ∧
      u64 (headerOffset buf i + 32) = headerOffset buf i + 32 := by
  have hlt : i * entsize.toNat < 2^16 * 2^16 := Nat.mul_lt_mul'' hi entsize.isLt
  have hofflt := off.isLt
  rw [headerOffset, ← hoff, ← hentsize]
  simp only [u64]
  omega

theorem loadSegments_ok {is : List ℕ} (his : ∀ i ∈ is, i < 2^16)
    (hheaders : ∀ i ∈ is, HeaderFits buf i)
    (hsegs : ∀ p ∈ segmentsOf buf is, SegmentFits buf p) (mem : Memory) (ro : List (Word × Word)) :
    loadSegments buf off entsize is mem ro =
      (placeAll buf mem (segmentsOf buf is), .ok (ro ++ roRanges (segmentsOf buf is))) := by
  induction is generalizing mem ro with
  | nil => simp [loadSegments, segmentsOf, placeAll, roRanges]
  | cons i is ih =>
    obtain ⟨hi, his⟩ := List.forall_mem_cons.mp his
    obtain ⟨hheader, hheaders⟩ := List.forall_mem_cons.mp hheaders
    obtain ⟨hbase, hend⟩ := header_offset hoff hentsize hi
    have hin : ¬buf.length < headerOffset buf i + 32 := Nat.not_lt.mpr hheader
    simp only [loadSegments, hbase, hend, hin, if_false, readPhdr_eq hheader]
    by_cases htype : (header buf i).type = PT_LOAD
    · have hcons : segmentsOf buf (i :: is) = header buf i :: segmentsOf buf is := by simp [segmentsOf, htype]
      rw [hcons] at hsegs ⊢
      obtain ⟨hseg, hsegs⟩ := List.forall_mem_cons.mp hsegs
      rw [loadSegment_load htype hseg]
      dsimp only
      rw [ih his hheaders hsegs, List.append_assoc, ← roRanges_append]
      rfl
    · have hcons : segmentsOf buf (i :: is) = segmentsOf buf is := by simp [segmentsOf, htype]
      rw [hcons] at hsegs ⊢
      rw [loadSegment_other htype]
      dsimp only
      rw [ih his hheaders hsegs]
      simp [roRanges]

theorem loadSegments_throws {is : List ℕ} (his : ∀ i ∈ is, i < 2^16)
    (hbad : ¬((∀ i ∈ is, HeaderFits buf i) ∧ ∀ p ∈ segmentsOf buf is, SegmentFits buf p))
    (mem : Memory)
    (ro : List (Word × Word)) :
    ∃ what, (loadSegments buf off entsize is mem ro).2 = .error (.thrown what) := by
  induction is generalizing mem ro with
  | nil => exact absurd ⟨by simp, by simp [segmentsOf]⟩ hbad
  | cons i is ih =>
    obtain ⟨hi, his⟩ := List.forall_mem_cons.mp his
    obtain ⟨hbase, hend⟩ := header_offset hoff hentsize hi
    simp only [loadSegments, hbase, hend]
    split
    · exact ⟨_, rfl⟩
    rename_i hin
    have hheader : HeaderFits buf i := Nat.le_of_not_lt hin
    rw [readPhdr_eq hheader]
    dsimp only
    by_cases htype : (header buf i).type = PT_LOAD
    · have hcons : segmentsOf buf (i :: is) = header buf i :: segmentsOf buf is := by simp [segmentsOf, htype]
      by_cases hseg : SegmentFits buf (header buf i)
      · rw [loadSegment_load htype hseg]
        refine ih his (fun hrest => hbad ?_) _ _
        rw [hcons, List.forall_mem_cons, List.forall_mem_cons]
        exact ⟨⟨hheader, hrest.1⟩, hseg, hrest.2⟩
      · obtain ⟨what, hwhat⟩ := loadSegment_past htype hseg mem ro
        rw [hwhat]
        exact ⟨what, rfl⟩
    · have hcons : segmentsOf buf (i :: is) = segmentsOf buf is := by simp [segmentsOf, htype]
      rw [loadSegment_other htype]
      refine ih his (fun hrest => hbad ?_) _ _
      rw [hcons, List.forall_mem_cons]
      exact ⟨⟨hheader, hrest.1⟩, hrest.2⟩

end

theorem loadU8_placeAll {segs : List Phdr} (hsegs : ∀ p ∈ segs, SegmentFits buf p) (a : Word) :
    (placeAll buf .empty segs).loadU8 a = byteAt buf segs a := by
  induction segs using List.reverseRecOn with
  | nil => rfl
  | append_singleton segs p ih =>
    have hp := hsegs p (by simp)
    have hlen : (contents buf p).length = p.filesz.toNat := by
      unfold SegmentFits at hp
      rw [contents, List.length_take, List.length_drop]
      omega
    have hplace : placeAll buf .empty (segs ++ [p]) = (placeAll buf .empty segs).writeBytes p.vaddr
        (contents buf p) := by
      simp [placeAll]
    rw [hplace, Memory.loadU8_writeBytes _ _ (by rw [hlen]; exact p.filesz.isLt.le),
      ih fun q hq => hsegs q (by simp [hq])]
    rw [byteAt, byteAt, List.reverse_append, List.reverse_singleton, List.singleton_append]
    by_cases hcov : Covers p.vaddr p.filesz.toNat a
    · have hin : p.offset.toNat + (a - p.vaddr).toNat < buf.length := by
        unfold SegmentFits at hp
        unfold Covers at hcov
        omega
      rw [List.find?_cons_of_pos (by simpa using hcov), contents, List.getElem?_take_of_lt hcov,
        List.getElem?_drop, Option.map_some, segmentByte, List.getD_eq_getElem?_getD,
        List.getElem?_eq_getElem hin]
      rfl
    · rw [List.find?_cons_of_neg (by simpa using hcov),
        List.getElem?_eq_none (by rw [hlen]; exact Nat.le_of_not_lt hcov)]
      rfl

/-- The loader never reads outside the file, throws exactly at a file that is not well formed, and
otherwise returns what the file says. -/
theorem loadElf_exact (buf : List Byte) :
    (loadElf .empty buf).2 ≠ .error .outOfBounds ∧
      ((∃ what, (loadElf .empty buf).2 = .error (.thrown what)) ↔ ¬WellFormed buf) ∧
      ∀ r, (loadElf .empty buf).2 = .ok r → r = ⟨entry buf, roRanges (segments buf)⟩ ∧
        ∀ a, (loadElf .empty buf).1.loadU8 a = byteAt buf (segments buf) a := by
  rcases checkIdent_cases buf with ⟨hident, hcheck⟩ | ⟨hident, what, hcheck⟩
  · obtain ⟨eh, heh, hentry, hoff, hentsize, hnum⟩ := readEhdr_eq hident hcheck
    have his : ∀ i ∈ List.range (phnum buf), i < 2^16 := fun i hi => by
      have hlt := eh.phnum.isLt
      rw [hnum] at hlt
      exact (List.mem_range.mp hi).trans hlt
    have hwf : WellFormed buf ↔
        (∀ i ∈ List.range (phnum buf), HeaderFits buf i) ∧
          ∀ p ∈ segments buf, SegmentFits buf p := by
      obtain ⟨hsize, hmagic, hclass, hdata⟩ := hident
      exact ⟨fun h => ⟨fun i hi => h.headers i (List.mem_range.mp hi), h.segments⟩,
        fun h => ⟨hsize, hmagic, hclass, hdata, fun i hi => h.1 i (List.mem_range.mpr hi), h.2⟩⟩
    simp only [loadElf, heh, hnum]
    by_cases hfits : WellFormed buf
    · obtain ⟨hheaders, hsegs⟩ := hwf.mp hfits
      rw [loadSegments_ok hoff hentsize his hheaders hsegs, hentry]
      refine ⟨by simp [Except.map], by simp [Except.map, hfits], fun r hr => ?_⟩
      exact ⟨(Except.ok.inj hr).symm, loadU8_placeAll hsegs⟩
    · obtain ⟨what, hwhat⟩ :=
        loadSegments_throws hoff hentsize his (fun h => hfits (hwf.mpr h)) .empty []
      rw [hwhat]
      exact ⟨by simp [Except.map], by simp [Except.map, hfits], by simp [Except.map]⟩
  · have hnot : ¬WellFormed buf := fun h => hident ⟨h.size, h.magic, h.class32, h.littleEndian⟩
    have heh : readEhdr buf = .error (.thrown what) := by
      rw [readEhdr, hcheck]
      rfl
    simp only [loadElf, heh]
    exact ⟨by simp, by simp [hnot], by simp⟩

end OooCpu.Elf
