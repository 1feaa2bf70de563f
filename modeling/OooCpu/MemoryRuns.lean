import OooCpu.LastWrite
import OooCpu.MemoryBytes

/-! # Memory as a flat array of bytes

Whatever sequence of accesses a memory has seen, it is the array of the bytes
last stored, and has the pages of these bytes. -/
namespace OooCpu

namespace Memory
variable {m : Memory}

theorem pageBase_eq (a : Word) : pageBase a = (a >>> 12) <<< 12 := by
  have hmask : (~~~PAGE_MASK : Word) = BitVec.allOnes 32 <<< 12 := by decide
  apply BitVec.eq_of_getLsbD_eq
  intro i hi
  rw [pageBase, hmask, BitVec.getLsbD_and, BitVec.getLsbD_shiftLeft, BitVec.getLsbD_shiftLeft,
    BitVec.getLsbD_ushiftRight, BitVec.getLsbD_allOnes]
  by_cases hlow : i < 12
  · simp [hlow]
  · simp [hlow, hi, show i - 12 < 32 by omega, show 12 + (i - 12) = i by omega]

/-- A page is a block of 4 KiB. -/
theorem pageBase_eq_iff (a b : Word) :
    pageBase a = pageBase b ↔ a.toNat / 4096 = b.toNat / 4096 := by
  have ha := a.isLt
  have hb := b.isLt
  rw [pageBase_eq, pageBase_eq, ← BitVec.toNat_inj]
  simp only [BitVec.toNat_shiftLeft, BitVec.toNat_ushiftRight, Nat.shiftLeft_eq,
    Nat.shiftRight_eq_div_pow]
  omega

theorem hasPage_storeU8 (m : Memory) (a b : Word) (v : Byte) :
    (m.storeU8 a v).hasPage b ↔ m.hasPage b ∨ a.toNat / 4096 = b.toNat / 4096 := by
  rw [← pageBase_eq_iff]
  simp only [hasPage, storeU8]
  by_cases hp : pageBase b = pageBase a
  · simp [hp]
  · simp [hp, Ne.symm hp]

/-- A call on the memory. -/
inductive Access
  | loadU8 (addr : Word)
  | loadU16 (addr : Word)
  | loadU32 (addr : Word)
  | storeU8 (addr : Word) (v : Byte)
  | storeU16 (addr : Word) (v : BitVec 16)
  | storeU32 (addr : Word) (v : Word)
  | writeBytes (addr : Word) (data : List Byte)
  deriving DecidableEq

namespace Access

def isLoad : Access → Bool
  | .loadU8 _ | .loadU16 _ | .loadU32 _ => true
  | _ => false

/-- The bytes an access stores, in the order it stores them. -/
def writes : Access → List (Word × Byte)
  | .loadU8 _ | .loadU16 _ | .loadU32 _ => []
  | .storeU8 addr v => [(addr, v)]
  | .storeU16 addr v => [(addr, v.setWidth 8), (addr + 1, (v >>> 8).setWidth 8)]
  | .storeU32 addr v =>
    [(addr, byteOf v 0), (addr + 1, byteOf v 1), (addr + 2, byteOf v 2), (addr + 3, byteOf v 3)]
  | .writeBytes addr data => data.zipIdx.map fun p => (addr + BitVec.ofNat 32 p.2, p.1)

end Access

/-- The memory after a call, and what a load has answered. -/
def perform (m : Memory) : Access → Memory × Option Word
  | .loadU8 addr => (m, some ((m.loadU8 addr).setWidth 32))
  | .loadU16 addr => (m, some ((m.loadU16 addr).setWidth 32))
  | .loadU32 addr => (m, some (m.loadU32 addr))
  | .storeU8 addr v => (m.storeU8 addr v, none)
  | .storeU16 addr v => (m.storeU16 addr v, none)
  | .storeU32 addr v => (m.storeU32 addr v, none)
  | .writeBytes addr data => (m.writeBytes addr data, none)

def storeAll (m : Memory) (ws : List (Word × Byte)) : Memory :=
  ws.foldl (fun m w => m.storeU8 w.1 w.2) m

theorem perform_eq (m : Memory) (a : Access) : (m.perform a).1 = m.storeAll a.writes := by
  cases a with
  | storeU32 addr v => simp [perform, Access.writes, storeAll, storeU32, byteOf]
  | writeBytes addr data => simp only [perform, Access.writes, storeAll, writeBytes, List.foldl_map]
  | _ => rfl

theorem loadU8_storeAll (m : Memory) (ws : List (Word × Byte)) (a : Word) :
    (m.storeAll ws).loadU8 a = (lastWrite ws a).getD (m.loadU8 a) :=
  foldl_read (fun s a b v => loadU8_storeU8 s a b v) ws m a

theorem hasPage_storeAll (m : Memory) (ws : List (Word × Byte)) (b : Word) :
    (m.storeAll ws).hasPage b ↔ m.hasPage b ∨ ∃ w ∈ ws, w.1.toNat / 4096 = b.toNat / 4096 := by
  induction ws generalizing m with
  | nil => simp [storeAll]
  | cons w ws ih =>
    rw [storeAll, List.foldl_cons, ← storeAll, ih, hasPage_storeU8, or_assoc]
    simp

/-- What a bulk write of no more than the whole address space leaves. -/
theorem loadU8_writeBytes (m : Memory) (addr : Word) {data : List Byte} (hlen : data.length ≤ 2^32)
    (a : Word) :
    (m.writeBytes addr data).loadU8 a = (data[(a - addr).toNat]?).getD (m.loadU8 a) := by
  induction data using List.reverseRecOn with
  | nil => simp [writeBytes]
  | append_singleton data b ih =>
    rw [List.length_append, List.length_singleton] at hlen
    have hplace : a = addr + BitVec.ofNat 32 data.length ↔ (a - addr).toNat = data.length := by
      rw [← sub_eq_iff_eq_add', ← BitVec.toNat_inj, BitVec.toNat_ofNat, Nat.mod_eq_of_lt (by omega)]
    have hstep : m.writeBytes addr (data ++ [b]) =
        (m.writeBytes addr data).storeU8 (addr + BitVec.ofNat 32 data.length) b := by
      simp [writeBytes, List.zipIdx_append]
    rw [hstep, loadU8_storeU8, ih (by omega)]
    by_cases hat : (a - addr).toNat = data.length
    · rw [if_pos (hplace.mpr hat), hat]
      simp
    · rw [if_neg (mt hplace.mp hat)]
      cases Nat.lt_or_gt_of_ne hat with
      | inl hlt => rw [List.getElem?_append_left hlt]
      | inr hgt =>
        rw [List.getElem?_eq_none (by omega),
          List.getElem?_eq_none (by rw [List.length_append, List.length_singleton]; omega)]

/-- The memory after a sequence of calls. -/
def performAll (m : Memory) (accesses : List Access) : Memory :=
  accesses.foldl (fun m a => (m.perform a).1) m

theorem performAll_eq (m : Memory) (accesses : List Access) :
    m.performAll accesses = m.storeAll (accesses.flatMap Access.writes) := by
  induction accesses generalizing m with
  | nil => rfl
  | cons a accesses ih =>
    rw [performAll, List.foldl_cons, ← performAll, ih, perform_eq, List.flatMap_cons, storeAll,
      storeAll, storeAll, List.foldl_append]

theorem toNat_bytes (w : Word) :
    w.toNat = (byteOf w 0).toNat + (byteOf w 1).toNat * 2^8 + (byteOf w 2).toNat * 2^16 +
      (byteOf w 3).toNat * 2^24 := by
  have hlt := w.isLt
  simp only [byteOf, BitVec.toNat_setWidth, BitVec.toNat_ushiftRight, Nat.shiftRight_eq_div_pow]
  omega

/-- Bytes shifted to their places and joined add up. -/
theorem toNat_join (b0 b1 b2 b3 : Byte) :
    (b0.setWidth 32 ||| (b1.setWidth 32 <<< 8) ||| (b2.setWidth 32 <<< 16) |||
      (b3.setWidth 32 <<< 24) : Word).toNat =
        b0.toNat + b1.toNat * 2^8 + b2.toNat * 2^16 + b3.toNat * 2^24 := by
  have hplace (b : Byte) (j : ℕ) {k : ℕ} (hk : k < 4) := byteOf_setWidth_shiftLeft b (j := j) hk
  have h1 (b : Byte) {k : ℕ} (hk : k < 4) := hplace b 1 hk
  have h2 (b : Byte) {k : ℕ} (hk : k < 4) := hplace b 2 hk
  have h3 (b : Byte) {k : ℕ} (hk : k < 4) := hplace b 3 hk
  simp only [Nat.reduceMul] at h1 h2 h3
  rw [toNat_bytes]
  simp [byteOf_or, byteOf_setWidth, h1, h2, h3]

theorem toNat_loadU16 (m : Memory) (a : Word) :
    (m.loadU16 a).toNat = (m.loadU8 a).toNat + (m.loadU8 (a + 1)).toNat * 2^8 := by
  rw [loadU16]
  generalize m.loadU8 a = b0, m.loadU8 (a + 1) = b1
  have hjoin := toNat_join b0 b1 0 0
  have hlow := b0.isLt
  have hhigh := b1.isLt
  simp only [BitVec.ofNat_eq_ofNat, BitVec.setWidth_zero, BitVec.zero_shiftLeft, BitVec.or_zero,
    BitVec.toNat_zero] at hjoin
  rw [BitVec.toNat_setWidth, hjoin]
  omega

theorem toNat_loadU32 (m : Memory) (a : Word) : (m.loadU32 a).toNat = (m.loadU8 a).toNat +
    (m.loadU8 (a + 1)).toNat * 2^8 + (m.loadU8 (a + 2)).toNat * 2^16 +
      (m.loadU8 (a + 3)).toNat * 2^24 :=
  toNat_join _ _ _ _

/-- The value of the byte last stored at `a`. -/
def byteIn (ws : List (Word × Byte)) (a : Word) : ℕ := ((lastWrite ws a).getD 0).toNat

/-- The memory is the array the writes leave: every load is the little-endian value of the bytes
last stored from its address on, zero where nothing was stored, and a block has a page exactly if
a byte of it was stored. -/
structure IsArray (m : Memory) (ws : List (Word × Byte)) : Prop where
  loadU8 (a : Word) : (m.loadU8 a).toNat = byteIn ws a
  loadU16 (a : Word) : (m.loadU16 a).toNat = byteIn ws a + byteIn ws (a + 1) * 2^8
  loadU32 (a : Word) : (m.loadU32 a).toNat =
    byteIn ws a + byteIn ws (a + 1) * 2^8 + byteIn ws (a + 2) * 2^16 + byteIn ws (a + 3) * 2^24
  hasPage (a : Word) : m.hasPage a ↔ ∃ w ∈ ws, w.1.toNat / 4096 = a.toNat / 4096

theorem isArray_storeAll (ws : List (Word × Byte)) : (empty.storeAll ws).IsArray ws := by
  have hbyte (a : Word) : ((empty.storeAll ws).loadU8 a).toNat = byteIn ws a := by
    rw [loadU8_storeAll]
    rfl
  refine ⟨hbyte, fun a => ?_, fun a => ?_, fun a => ?_⟩
  · rw [toNat_loadU16, hbyte, hbyte]
  · rw [toNat_loadU32, hbyte, hbyte, hbyte, hbyte]
  · rw [hasPage_storeAll]
    exact or_iff_right (by simp [hasPage, empty])

/-- A load stores nothing. -/
theorem writes_of_isLoad {a : Access} (h : a.isLoad = true) : a.writes = [] := by
  cases a <;> first | rfl | contradiction

theorem flatMap_writes_filter (accesses : List Access) :
    (accesses.filter fun a => !a.isLoad).flatMap Access.writes =
      accesses.flatMap Access.writes := by
  induction accesses with
  | nil => rfl
  | cons a accesses ih =>
    cases hload : a.isLoad with
    | true =>
      rw [List.filter_cons_of_neg (by simp [hload]), List.flatMap_cons, ih, writes_of_isLoad hload,
        List.nil_append]
    | false =>
      rw [List.filter_cons_of_pos (by simp [hload]), List.flatMap_cons, List.flatMap_cons, ih]

/-- After any calls the memory is the array of the bytes they stored, and the loads among them might
as well not have been there. -/
theorem performAll_isArray (accesses : List Access) :
    (empty.performAll accesses).IsArray (accesses.flatMap Access.writes) ∧
      empty.performAll accesses = empty.performAll (accesses.filter fun a => !a.isLoad) := by
  rw [performAll_eq, performAll_eq, flatMap_writes_filter]
  exact ⟨isArray_storeAll _, rfl⟩

end Memory

end OooCpu
