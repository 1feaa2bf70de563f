import OooCpu.Memory
import OooCpu.Lsq

/-! # Words and accesses byte by byte

A word is its four little-endian bytes. Accesses of one, two and four bytes,
which wrap modulo `2^32`, read and write their bytes one at a time. -/
namespace OooCpu

/-- Little-endian byte `k` of a word. -/
def byteOf (w : Word) (k : ℕ) : Byte := (w >>> (8 * k)).setWidth 8

theorem byteOf_getLsbD (w : Word) (k j : ℕ) :
    (byteOf w k).getLsbD j = (decide (j < 8) && w.getLsbD (8 * k + j)) := by
  simp [byteOf]

theorem byteOf_ext {v w : Word} (h : ∀ k < 4, byteOf v k = byteOf w k) : v = w := by
  apply BitVec.eq_of_getLsbD_eq
  intro i hi
  have hk := congrArg (fun b : Byte => b.getLsbD (i % 8)) (h (i / 8) (by omega))
  simp only [byteOf_getLsbD, show 8 * (i / 8) + i % 8 = i by omega, show i % 8 < 8 by omega,
    decide_true, Bool.true_and] at hk
  exact hk

theorem byteOf_or (v w : Word) (k : ℕ) : byteOf (v ||| w) k = byteOf v k ||| byteOf w k := by
  simp [byteOf, BitVec.ushiftRight_or_distrib]

/-- A byte moved to place `j` shows up there and nowhere else. -/
theorem byteOf_setWidth_shiftLeft (b : Byte) {j k : ℕ} (hk : k < 4) :
    byteOf ((b.setWidth 32 : Word) <<< (8 * j)) k = if k = j then b else 0 := by
  apply BitVec.eq_of_getLsbD_eq
  intro i hi
  rw [byteOf_getLsbD, BitVec.getLsbD_shiftLeft, BitVec.getLsbD_setWidth]
  by_cases hkj : k = j
  · subst k
    simp only [if_true, hi, decide_true, Bool.true_and, show 8 * j + i < 32 by omega,
      show ¬ 8 * j + i < 8 * j by omega, decide_false, Bool.not_false, Nat.add_sub_cancel_left,
      show i < 32 by omega]
  · rw [if_neg hkj]
    by_cases hlt : 8 * k + i < 8 * j
    · simp [hlt]
    · have hge : 8 ≤ 8 * k + i - 8 * j := by omega
      simp [BitVec.getLsbD_of_ge b _ hge]

theorem byteOf_setWidth (b : Byte) {k : ℕ} (hk : k < 4) :
    byteOf (b.setWidth 32) k = if k = 0 then b else 0 := by
  simpa using byteOf_setWidth_shiftLeft b (j := 0) hk

namespace Memory

/-- The zero-extended value of an access of `size` bytes. -/
def loadBytes (m : Memory) (addr : Word) (size : ℕ) : Word :=
  if size = 1 then (m.loadU8 addr).setWidth 32
  else if size = 2 then (m.loadU16 addr).setWidth 32
  else m.loadU32 addr

/-- Store the low `size` bytes of `data`. -/
def storeBytes (m : Memory) (addr : Word) (size : ℕ) (data : Word) : Memory :=
  if size = 1 then m.storeU8 addr (data.setWidth 8)
  else if size = 2 then m.storeU16 addr (data.setWidth 16)
  else m.storeU32 addr data

end Memory

/-- The access sizes of the instruction set. -/
def IsAccessSize (size : ℕ) : Prop := size = 1 ∨ size = 2 ∨ size = 4

private theorem byteOf_low16 (w : Word) (k : ℕ) :
    byteOf ((w.setWidth 16).setWidth 32) k = if k < 2 then byteOf w k else 0 := by
  apply BitVec.eq_of_getLsbD_eq
  intro i hi
  rw [byteOf_getLsbD, BitVec.getLsbD_setWidth, BitVec.getLsbD_setWidth]
  by_cases hk : k < 2
  · rw [if_pos hk, byteOf_getLsbD]
    simp [show 8 * k + i < 32 by omega, show 8 * k + i < 16 by omega]
  · simp [hk, show ¬ 8 * k + i < 16 by omega]

theorem byteOf_loadBytes (m : Memory) (addr : Word) {size k : ℕ} (hs : IsAccessSize size)
    (hk : k < 4) :
    byteOf (m.loadBytes addr size) k = if k < size then m.loadU8 (addr + BitVec.ofNat 32 k)
      else 0 := by
  have h0 := fun b : Byte => byteOf_setWidth b hk
  have h1 := fun b : Byte => byteOf_setWidth_shiftLeft b (j := 1) hk
  have h2 := fun b : Byte => byteOf_setWidth_shiftLeft b (j := 2) hk
  have h3 := fun b : Byte => byteOf_setWidth_shiftLeft b (j := 3) hk
  simp only [Nat.reduceMul] at h1 h2 h3
  rcases hs with rfl | rfl | rfl
  · simp only [Memory.loadBytes, if_true, h0]
    rcases (by omega : k = 0 ∨ k = 1 ∨ k = 2 ∨ k = 3) with rfl | rfl | rfl | rfl <;> simp
  · simp only [Memory.loadBytes, Nat.reduceEqDiff, if_false, if_true, Memory.loadU16, byteOf_low16,
      byteOf_or, h0, h1]
    rcases (by omega : k = 0 ∨ k = 1 ∨ k = 2 ∨ k = 3) with rfl | rfl | rfl | rfl <;> simp
  · simp only [Memory.loadBytes, Nat.reduceEqDiff, if_false, Memory.loadU32, byteOf_or, h0, h1, h2,
      h3]
    rcases (by omega : k = 0 ∨ k = 1 ∨ k = 2 ∨ k = 3) with rfl | rfl | rfl | rfl <;> simp

/-- Two accesses return the same value exactly when they see the same bytes. -/
theorem loadBytes_eq_iff (m m' : Memory) (addr : Word) {size : ℕ} (hs : IsAccessSize size) :
    m.loadBytes addr size = m'.loadBytes addr size ↔
      ∀ k < size, m.loadU8 (addr + BitVec.ofNat 32 k) = m'.loadU8 (addr + BitVec.ofNat 32 k) := by
  have h4 : size ≤ 4 := by rcases hs with rfl | rfl | rfl <;> omega
  constructor
  · intro h k hk
    have hb := congrArg (byteOf · k) h
    simpa [byteOf_loadBytes _ _ hs (by omega : k < 4), hk] using hb
  · intro h
    apply byteOf_ext
    intro k hk
    rw [byteOf_loadBytes _ _ hs hk, byteOf_loadBytes _ _ hs hk]
    split
    · rename_i hlt
      exact h k hlt
    · rfl

/-- Whether a store to `addr` covers the byte at `a`. -/
def Covers (addr : Word) (size : ℕ) (a : Word) : Prop := (a - addr).toNat < size

instance (addr : Word) (size : ℕ) (a : Word) : Decidable (Covers addr size a) :=
  inferInstanceAs (Decidable (_ < _))

/-- Two byte ranges share a byte exactly when one of them starts inside the other. -/
theorem covers_overlap_iff {p q : Word} {n m : ℕ} (hn : 0 < n) (hm : 0 < m) :
    (∃ a, Covers p n a ∧ Covers q m a) ↔ Covers p n q ∨ Covers q m p := by
  constructor
  · rintro ⟨a, hp, hq⟩
    simp only [Covers, BitVec.toNat_sub] at *
    omega
  · rintro (h | h)
    · exact ⟨q, h, by simpa [Covers] using hm⟩
    · exact ⟨p, by simpa [Covers] using hn, h⟩

/-- The byte a store of `data` to `addr` leaves at `a`. -/
def byteAt (addr data a : Word) : Byte := byteOf data (a - addr).toNat

theorem covers_add (addr : Word) {size k : ℕ} (hk : k < 2^32) :
    Covers addr size (addr + BitVec.ofNat 32 k) ↔ k < size := by
  simp only [Covers, add_sub_cancel_left, BitVec.toNat_ofNat, Nat.mod_eq_of_lt hk]

private theorem low16_bytes (v : Word) :
    ((v.setWidth 16).setWidth 8, ((v.setWidth 16) >>> 8).setWidth 8) =
      (byteOf v 0, byteOf v 1) := by
  refine Prod.ext (BitVec.eq_of_getLsbD_eq fun i hi => ?_) (BitVec.eq_of_getLsbD_eq fun i hi => ?_)
  · simp only [byteOf_getLsbD]
    simp [hi]
  · simp only [byteOf_getLsbD]
    simp [hi, show 8 + i < 16 by omega]

/-- A store changes exactly the bytes it covers. -/
theorem loadU8_storeBytes (m : Memory) (addr : Word) {size : ℕ} (data a : Word)
    (hs : IsAccessSize size) :
    (m.storeBytes addr size data).loadU8 a = if Covers addr size a then byteAt addr data a
      else m.loadU8 a := by
  obtain ⟨o, rfl⟩ : ∃ o, a = addr + o := ⟨a - addr, by simp⟩
  have hmove (c : Word) : addr + o = addr + c ↔ o = c := add_right_inj addr
  have hzero : addr + o = addr ↔ o = 0 := by simp
  have hnat (c : Word) : o = c ↔ o.toNat = c.toNat := BitVec.toNat_inj.symm
  have hoff : addr + o - addr = o := by simp
  obtain ⟨hb0, hb1⟩ := Prod.mk.inj (low16_bytes data)
  have h0 : data.setWidth 8 = byteOf data 0 := by simp [byteOf]
  have hbyte (k : ℕ) : (data >>> (8 * k)).setWidth 8 = byteOf data k := rfl
  have h1 := hbyte 1
  have h2 := hbyte 2
  have h3 := hbyte 3
  simp only [Nat.reduceMul] at h1 h2 h3
  simp only [Covers, byteAt, hoff]
  rcases hs with rfl | rfl | rfl
  · simp only [Memory.storeBytes, if_true, Memory.loadU8_storeU8, hzero, hnat, h0]
    generalize o.toNat = n
    rcases n with _ | n <;> simp
  · simp only [Memory.storeBytes, Nat.reduceEqDiff, if_false, if_true, Memory.storeU16,
      Memory.loadU8_storeU8, hzero, hmove, hnat, hb0, hb1]
    generalize o.toNat = n
    rcases n with _ | _ | n <;> simp
  · simp only [Memory.storeBytes, Nat.reduceEqDiff, if_false, Memory.storeU32,
      Memory.loadU8_storeU8, hzero, hmove, hnat, h0, h1, h2, h3]
    generalize o.toNat = n
    rcases n with _ | _ | _ | _ | n <;> simp

end OooCpu
