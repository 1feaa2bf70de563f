import OooCpu.BranchPredictor

/-! # Register renaming

Every structure that maps architectural registers onto the physical register
file: the values with their ready bits, the free list, the alias table, and the
bounded pool of per-branch checkpoints. -/
namespace OooCpu

structure PhysicalRegisterFile where
  capacity : ℕ
  values : ℕ → Word
  ready : ℕ → Bool

namespace PhysicalRegisterFile

def reset (cfg : Config) : PhysicalRegisterFile where
  capacity := cfg.prfSize
  values := fun _ => 0
  ready := fun _ => true

def read (p : PhysicalRegisterFile) (r : ℕ) : Word := if r = 0 then 0 else p.values r

/-- Writes the value and flips ready on; a no-op for `p0`. -/
def write (p : PhysicalRegisterFile) (r : ℕ) (value : Word) : PhysicalRegisterFile :=
  if r = 0 then p
  else { p with values := fun i => if i = r then value else p.values i
                ready := fun i => if i = r then true else p.ready i }

def isReady (p : PhysicalRegisterFile) (r : ℕ) : Bool := r == 0 || p.ready r

def markPending (p : PhysicalRegisterFile) (r : ℕ) : PhysicalRegisterFile :=
  if r = 0 then p else { p with ready := fun i => if i = r then false else p.ready i }

theorem isReady_write (p : PhysicalRegisterFile) (r i : ℕ) (v : Word) :
    (p.write r v).isReady i = (i == r || p.isReady i) := by
  by_cases hr : r = 0
  · subst r
    by_cases hi : i = 0 <;> simp [write, isReady, hi]
  · by_cases hi : i = r <;> simp [write, isReady, hr, hi]

theorem isReady_markPending (p : PhysicalRegisterFile) (r i : ℕ) :
    (p.markPending r).isReady i = (i == 0 || (i != r && p.isReady i)) := by
  grind [markPending, isReady]

theorem read_write (p : PhysicalRegisterFile) (r i : ℕ) (v : Word) (hr : r ≠ 0) :
    (p.write r v).read i = if i = r then v else p.read i := by
  by_cases hi : i = r
  · subst i
    simp [write, read, hr]
  · by_cases h0 : i = 0
    · simp [read, h0, Ne.symm hr]
    · simp [write, read, hr, hi, h0]

@[simp] theorem read_markPending (p : PhysicalRegisterFile) (r i : ℕ) :
    (p.markPending r).read i = p.read i := by
  unfold markPending
  split <;> rfl

@[simp] theorem read_zero (p : PhysicalRegisterFile) : p.read 0 = 0 := rfl

@[simp] theorem isReady_zero (p : PhysicalRegisterFile) : p.isReady 0 = true := rfl

@[simp] theorem capacity_write (p : PhysicalRegisterFile) (r : ℕ) (v : Word) :
    (p.write r v).capacity = p.capacity := by
  unfold write
  split <;> rfl

@[simp] theorem capacity_markPending (p : PhysicalRegisterFile) (r : ℕ) :
    (p.markPending r).capacity = p.capacity := by
  unfold markPending
  split <;> rfl

end PhysicalRegisterFile

structure FreeList where
  capacity : ℕ
  regs : List ℕ

namespace FreeList

def reset (cfg : Config) : FreeList := ⟨cfg.prfSize, List.range' 32 (cfg.prfSize - 32)⟩

def numFree (f : FreeList) : ℕ := f.regs.length

/-- Pop the next free register; callers stall rename on `none`. -/
def alloc (f : FreeList) : Option (ℕ × FreeList) :=
  match f.regs with
  | [] => none
  | r :: rest => some (r, { f with regs := rest })

/-- Push a register back, ignoring `p0`, the sentinel and out-of-range indices. -/
def free (f : FreeList) (r : ℕ) : FreeList :=
  if r = 0 ∨ f.capacity ≤ r ∨ r = INVALID_PHYSREG then f else { f with regs := f.regs ++ [r] }

theorem capacity_foldl_free {ε : Type*} (reg : ε → ℕ) (es : List ε) (f : FreeList) :
    (es.foldl (fun f e => f.free (reg e)) f).capacity = f.capacity := by
  induction es generalizing f with
  | nil => rfl
  | cons e es ih =>
    rw [List.foldl_cons, ih, free]
    split <;> rfl

end FreeList

abbrev RegisterMap := ArchReg → ℕ

structure RegisterAliasTable where
  rat : RegisterMap

namespace RegisterAliasTable

def reset : RegisterAliasTable := ⟨fun a => a.val⟩

def map (t : RegisterAliasTable) (a : ArchReg) : ℕ := t.rat a

/-- Rewrite one mapping; a no-op on `x0`. -/
def set (t : RegisterAliasTable) (a : ArchReg) (p : ℕ) : RegisterAliasTable :=
  if a = 0 then t else ⟨fun b => if b = a then p else t.rat b⟩

def mapping (t : RegisterAliasTable) : RegisterMap := t.rat

def adopt (_ : RegisterAliasTable) (m : RegisterMap) : RegisterAliasTable := ⟨m⟩

end RegisterAliasTable

/-- What one in-flight branch must be able to restore. -/
structure Checkpoint where
  rat : RegisterMap := fun _ => 0
  frontEnd : Snapshot := default
  deriving Inhabited

structure CheckpointPool where
  capacity : ℕ
  slots : ℕ → Checkpoint
  freeSlots : List ℕ

namespace CheckpointPool

def reset (cfg : Config) : CheckpointPool :=
  ⟨cfg.numCheckpoints, fun _ => default, List.range cfg.numCheckpoints⟩

def numFree (c : CheckpointPool) : ℕ := c.freeSlots.length

def alloc (c : CheckpointPool) : Option (ℕ × CheckpointPool) :=
  match c.freeSlots with
  | [] => none
  | id :: rest => some (id, { c with freeSlots := rest })

/-- What slot `id` holds (`at` in the source). -/
def read (c : CheckpointPool) (id : ℕ) : Checkpoint := c.slots id

/-- Fill a slot the caller has just taken. -/
def fill (c : CheckpointPool) (id : ℕ) (k : Checkpoint) : CheckpointPool :=
  { c with slots := fun i => if i = id then k else c.slots i }

/-- Push a slot back; a no-op on the sentinel and out-of-range ids. -/
def free (c : CheckpointPool) (id : ℕ) : CheckpointPool :=
  if c.capacity ≤ id then c else { c with freeSlots := c.freeSlots ++ [id] }

theorem capacity_foldl_free {ε : Type*} (slot : ε → ℕ) (es : List ε) (c : CheckpointPool) :
    (es.foldl (fun c e => c.free (slot e)) c).capacity = c.capacity := by
  induction es generalizing c with
  | nil => rfl
  | cons e es ih =>
    rw [List.foldl_cons, ih, free]
    split <;> rfl

end CheckpointPool

end OooCpu
