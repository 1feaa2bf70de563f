import OooCpu.Instruction

/-! # Flat, paged, always-hit memory

4 KiB pages appear on the first write; a read of an unmapped page is zero and
allocates nothing. Little-endian, misaligned accesses allowed, byte addresses
wrap modulo `2^32`. -/
namespace OooCpu

abbrev Byte := BitVec 8
abbrev Page := Fin 4096 → Byte

structure Memory where
  pages : Word → Option Page

namespace Memory

def PAGE_MASK : Word := 4095

def empty : Memory := ⟨fun _ => none⟩

def pageBase (addr : Word) : Word := addr &&& ~~~PAGE_MASK
def pageOffset (addr : Word) : Fin 4096 := Fin.ofNat 4096 (addr &&& PAGE_MASK).toNat

def hasPage (m : Memory) (addr : Word) : Bool := (m.pages (pageBase addr)).isSome

def loadU8 (m : Memory) (addr : Word) : Byte :=
  match m.pages (pageBase addr) with
  | none => 0
  | some page => page (pageOffset addr)

def loadU16 (m : Memory) (addr : Word) : BitVec 16 :=
  let b0 : Word := (m.loadU8 addr).setWidth 32
  let b1 : Word := (m.loadU8 (addr + 1)).setWidth 32
  (b0 ||| (b1 <<< 8)).setWidth 16

def loadU32 (m : Memory) (addr : Word) : Word :=
  let b0 : Word := (m.loadU8 addr).setWidth 32
  let b1 : Word := (m.loadU8 (addr + 1)).setWidth 32
  let b2 : Word := (m.loadU8 (addr + 2)).setWidth 32
  let b3 : Word := (m.loadU8 (addr + 3)).setWidth 32
  b0 ||| (b1 <<< 8) ||| (b2 <<< 16) ||| (b3 <<< 24)

/-- A freshly inserted page is all zero. -/
def storeU8 (m : Memory) (addr : Word) (v : Byte) : Memory :=
  let page := (m.pages (pageBase addr)).getD (fun _ => 0)
  let page' : Page := fun o => if o = pageOffset addr then v else page o
  ⟨fun b => if b = pageBase addr then some page' else m.pages b⟩

def storeU16 (m : Memory) (addr : Word) (v : BitVec 16) : Memory :=
  (m.storeU8 addr (v.setWidth 8)).storeU8 (addr + 1) ((v >>> 8).setWidth 8)

def storeU32 (m : Memory) (addr : Word) (v : Word) : Memory :=
  let m := m.storeU8 addr (v.setWidth 8)
  let m := m.storeU8 (addr + 1) ((v >>> 8).setWidth 8)
  let m := m.storeU8 (addr + 2) ((v >>> 16).setWidth 8)
  m.storeU8 (addr + 3) ((v >>> 24).setWidth 8)

/-- Bulk write, used by the program loaders. -/
def writeBytes (m : Memory) (addr : Word) (data : List Byte) : Memory :=
  data.zipIdx.foldl (fun m p => m.storeU8 (addr + BitVec.ofNat 32 p.2) p.1) m

private theorem pageBase_eq_offset_eq {a b : Word} (hb : pageBase a = pageBase b)
    (ho : pageOffset a = pageOffset b) : a = b := by
  have hlow : a &&& PAGE_MASK = b &&& PAGE_MASK := by
    have h := congrArg Fin.val ho
    simp only [pageOffset, Fin.ofNat, BitVec.toNat_and, PAGE_MASK] at h
    have ha : a.toNat &&& 4095 < 4096 := Nat.lt_of_le_of_lt Nat.and_le_right (by decide)
    have hb' : b.toNat &&& 4095 < 4096 := Nat.lt_of_le_of_lt Nat.and_le_right (by decide)
    apply BitVec.eq_of_toNat_eq
    simp only [BitVec.toNat_and, PAGE_MASK]
    simpa [Nat.mod_eq_of_lt ha, Nat.mod_eq_of_lt hb'] using h
  have hsplit (x : Word) : x = (x &&& ~~~PAGE_MASK) ||| (x &&& PAGE_MASK) := by
    rw [← BitVec.and_or_distrib_left, show (~~~PAGE_MASK ||| PAGE_MASK : Word) =
      BitVec.allOnes 32 by decide, BitVec.and_allOnes]
  rw [hsplit a, hsplit b, hlow]
  exact congrArg (· ||| (b &&& PAGE_MASK)) hb

/-- A byte store changes exactly the byte at its address. -/
@[simp] theorem loadU8_storeU8 (m : Memory) (a b : Word) (v : Byte) :
    (m.storeU8 a v).loadU8 b = if b = a then v else m.loadU8 b := by
  by_cases hba : b = a
  · subst b
    simp [loadU8, storeU8]
  · by_cases hp : pageBase b = pageBase a
    · have ho : pageOffset b ≠ pageOffset a := fun ho => hba (pageBase_eq_offset_eq hp ho)
      simp only [loadU8, storeU8, hp, if_true, ho, if_false, hba]
      cases m.pages (pageBase a) <;> rfl
    · simp [loadU8, storeU8, hp, hba]

end Memory

end OooCpu
