import OooCpu.Instruction

/-! # The front end's prediction apparatus

Direction from gshare, target from a PC-tagged BTB, return targets from a small
stack. History and the return stack advance speculatively at fetch and are saved
in a `Snapshot`; the counters and the BTB learn at commit only. -/
namespace OooCpu

inductive BranchKind
  | none | conditional | jump | call | return
  deriving DecidableEq, Repr

def isLinkReg (r : ArchReg) : Bool := r == 1 || r == 5

/-- What sort of control transfer a decoded instruction is. -/
def classify (d : Decoded) : BranchKind :=
  if !d.isBranch then .none
  else if d.op = .jal then (if isLinkReg d.rd then .call else .jump)
  else if d.op = .jalr then
    if isLinkReg d.rd then .call
    else if isLinkReg d.rs1 then .return
    else .jump
  else .conditional

structure Gshare where
  pht : ℕ → ℕ
  size : ℕ
  ghr : Word := 0
  ghrMask : Word

namespace Gshare

def reset (cfg : Config) : Gshare where
  pht := fun _ => 1
  size := if cfg.phtSize = 0 then 1 else cfg.phtSize
  ghrMask := if 32 ≤ cfg.ghrBits then ~~~0 else (1 <<< cfg.ghrBits) - 1

def setGhr (g : Gshare) (v : Word) : Gshare := { g with ghr := v &&& g.ghrMask }

/-- The history register after shifting in one outcome. -/
def shifted (mask ghr : Word) (taken : Bool) : Word :=
  ((ghr <<< 1) ||| (if taken then 1 else 0)) &&& mask

def shift (g : Gshare) (taken : Bool) : Gshare := { g with ghr := shifted g.ghrMask g.ghr taken }

/-- The counter a PC selects under a given history. -/
def indexOf (size : ℕ) (ghr pc : Word) : ℕ :=
  ((ghr ^^^ (pc >>> 2)) &&& (BitVec.ofNat 32 size - 1)).toNat

def index (g : Gshare) (pc : Word) : ℕ := indexOf g.size g.ghr pc

def predictAt (g : Gshare) (idx : ℕ) : Bool := 2 ≤ g.pht idx

def update (g : Gshare) (idx : ℕ) (taken : Bool) : Gshare :=
  let c := g.pht idx
  let c' := if taken then (if c < 3 then c + 1 else c) else (if 0 < c then c - 1 else c)
  { g with pht := fun i => if i = idx then c' else g.pht i }

end Gshare

structure Btb.Hit where
  valid : Bool := false
  target : Word := 0
  kind : BranchKind := .none

structure Btb.Entry where
  valid : Bool := false
  tag : Word := 0
  target : Word := 0
  kind : BranchKind := .none
  used : ℕ := 0

structure Btb where
  sets : ℕ
  ways : ℕ
  entries : ℕ → Btb.Entry
  clock : ℕ := 0

namespace Btb

def reset (cfg : Config) : Btb where
  sets := if cfg.btbSets = 0 then 1 else cfg.btbSets
  ways := if cfg.btbWays = 0 then 1 else cfg.btbWays
  entries := fun _ => {}

def setOf (b : Btb) (pc : Word) : ℕ := (pc >>> 2).toNat % b.sets

/-- Slot of way `w` of the set `pc` maps to. -/
def slot (b : Btb) (pc : Word) (w : ℕ) : ℕ := u32 (u32 (b.setOf pc * b.ways) + w)

def lookup (b : Btb) (pc : Word) : Hit :=
  match (List.range b.ways).find? fun w =>
      (b.entries (b.slot pc w)).valid && (b.entries (b.slot pc w)).tag == pc with
  | some w => ⟨true, (b.entries (b.slot pc w)).target, (b.entries (b.slot pc w)).kind⟩
  | none => {}

/-- The way `update` fills: the matching one, else the first invalid one, else
the least recently installed. -/
def victim (b : Btb) (pc : Word) : List ℕ → ℕ → ℕ → ℕ
  | [], best, _ => best
  | w :: ws, best, oldest =>
    let e := b.entries (b.slot pc w)
    if e.valid && e.tag == pc then w
    else if !e.valid then w
    else if e.used < oldest then b.victim pc ws w e.used
    else b.victim pc ws best oldest

def update (b : Btb) (pc target : Word) (kind : BranchKind) : Btb :=
  let i := b.slot pc (b.victim pc (List.range b.ways) 0 18446744073709551615)
  { b with
    clock := u64 (b.clock + 1)
    entries := fun j => if j = i then ⟨true, pc, target, kind, u64 (b.clock + 1)⟩ else b.entries j }

end Btb

structure Ras where
  stack : ℕ → Word := fun _ => 0
  size : ℕ
  top : ℕ := 0
  count : ℕ := 0

namespace Ras

def MAX_ENTRIES : ℕ := 32

def reset (size : ℕ) : Ras where
  size := if size = 0 then 1 else if MAX_ENTRIES < size then MAX_ENTRIES else size

instance : Inhabited Ras := ⟨reset 1⟩

def depth (r : Ras) : ℕ := r.count
def isEmpty (r : Ras) : Bool := r.count == 0

/-- Overwrites the deepest entry once full. -/
def push (r : Ras) (addr : Word) : Ras :=
  let top := (r.top + 1) % r.size
  { r with
    top := top
    stack := fun i => if i = top then addr else r.stack i
    count := if r.count < r.size then r.count + 1 else r.count }

/-- Empty is a valid state, not an error. -/
def pop (r : Ras) : Word × Ras :=
  if r.count = 0 then (0, r)
  else (r.stack r.top, { r with top := (r.top + r.size - 1) % r.size, count := r.count - 1 })

def peek (r : Ras) : Word := if r.count = 0 then 0 else r.stack r.top

def peekAt (r : Ras) (k : ℕ) : Word :=
  if r.count ≤ k then 0 else r.stack ((r.top + r.size - k % r.size) % r.size)

def entries (r : Ras) : List Word := (List.range r.count).map r.peekAt

end Ras

structure Prediction where
  taken : Bool := false
  target : Word := 0
  btbHit : Bool := false
  kind : BranchKind := .none
  phtIndex : ℕ := 0
  fromRas : Bool := false

/-- The speculative front-end state a checkpoint must save. -/
structure Snapshot where
  ghr : Word := 0
  ras : Ras := default
  deriving Inhabited

structure BranchPredictor where
  gshare : Gshare
  btb : Btb
  ras : Ras

namespace BranchPredictor

def reset (cfg : Config) : BranchPredictor where
  gshare := .reset cfg
  btb := .reset cfg
  ras := .reset cfg.rasSize

def ghr (b : BranchPredictor) : Word := b.gshare.ghr

def snapshot (b : BranchPredictor) : Snapshot := ⟨b.ghr, b.ras⟩

def restore (b : BranchPredictor) (s : Snapshot) : BranchPredictor :=
  { b with gshare := b.gshare.setGhr s.ghr, ras := s.ras }

def shiftHistory (b : BranchPredictor) (taken : Bool) : BranchPredictor :=
  { b with gshare := b.gshare.shift taken }

/-- One PC in, the next PC out. Only a BTB hit redirects the front end. -/
def predict (b : BranchPredictor) (pc : Word) : Prediction × BranchPredictor :=
  let idx := b.gshare.index pc
  let hit := b.btb.lookup pc
  if !hit.valid then ({ phtIndex := idx }, b)
  else
    let p : Prediction := { btbHit := true, kind := hit.kind, phtIndex := idx }
    match hit.kind with
    | .conditional =>
      let taken := b.gshare.predictAt idx
      ({ p with taken := taken, target := if taken then hit.target else 0 }, b.shiftHistory taken)
    | .call =>
      ({ p with taken := true, target := hit.target }, { b with ras := b.ras.push (pc + 4) })
    | .return =>
      if b.ras.isEmpty then ({ p with taken := true, target := hit.target }, b)
      else ({ p with taken := true, target := b.ras.pop.1, fromRas := true },
        { b with ras := b.ras.pop.2 })
    | _ => ({ p with taken := true, target := hit.target }, b)

/-- Everything the tables learn, applied in commit order. -/
def commit (b : BranchPredictor) (pc : Word) (phtIndex : ℕ) (kind : BranchKind) (taken : Bool)
    (target : Word) : BranchPredictor :=
  { b with
    gshare := if kind = .conditional then b.gshare.update phtIndex taken else b.gshare
    btb := if taken then b.btb.update pc target kind else b.btb }

end BranchPredictor

end OooCpu
