import OooCpu.BoundedLoop
import OooCpu.Memory
import OooCpu.Rename
import OooCpu.Stats
import OooCpu.Rob
import OooCpu.IssueQueue
import OooCpu.Lsq

/-! # The seven-stage out-of-order pipeline

State and stages of the machine. `tick` runs the stages in reverse order, so each
drains what its producer left in the cycle before; writeback runs before issue,
so a result can wake a dependent in the same cycle. Cycle numbers and statistics
are 64-bit counters and are taken as naturals. -/
namespace OooCpu

inductive TrapCause
  | none | illegal | ebreak | ecallUnknown
  deriving DecidableEq, Repr

/-- The cycle each stage handled a uop, 0 meaning "has not happened". -/
structure StageCycles where
  fetch : ℕ := 0
  decode : ℕ := 0
  rename : ℕ := 0
  dispatch : ℕ := 0
  issue : ℕ := 0
  complete : ℕ := 0

/-- One in-flight instruction, gaining fields as it moves down the pipeline. -/
structure Uop where
  seq : ℕ := INVALID_SEQNUM
  rob : ℕ := INVALID_ROBINDEX
  pc : Word := 0
  raw : Word := 0
  dec : Decoded := {}
  uid : ℕ := 0
  stageAt : StageCycles := {}
  src1 : ℕ := 0
  src2 : ℕ := 0
  dest : ℕ := INVALID_PHYSREG
  stale : ℕ := INVALID_PHYSREG
  val1 : Word := 0
  val2 : Word := 0
  result : Word := 0
  hasResult : Bool := false
  nextPc : Word := 0
  memAddr : Word := 0
  storeData : Word := 0
  lsqIdx : ℕ := 0
  -- cycles have 64 bits in the source and are counted without end here
  wbCycle : ℕ := 0
  trap : TrapCause := .none
  predTaken : Bool := false
  predTarget : Word := 0
  btbHit : Bool := false
  fromRas : Bool := false
  phtIndex : ℕ := 0
  bkind : BranchKind := .none
  ckpt : ℕ := INVALID_CHECKPOINT
  feSnap : Snapshot := default

/-- Where the front end went after this uop. -/
def Uop.predicted (u : Uop) : Word := if u.predTaken then u.predTarget else u.pc + 4

inductive Fu
  | alu | branch | mul | div | mem | none
  deriving DecidableEq, Repr

structure DecodeRecord where
  cycle : ℕ
  pc : Word
  raw : Word

structure RenameRecord where
  cycle : ℕ
  seq : ℕ
  pc : Word
  rd : ℕ
  dest : ℕ
  stale : ℕ
  src1 : ℕ
  src2 : ℕ

structure IssueRecord where
  cycle : ℕ
  seq : ℕ
  pc : Word
  dest : ℕ
  wbCycle : ℕ

/-- What a cycle did, kept only while somebody asks for it. -/
structure Observer where
  observing : Bool := false
  events : List String := []
  squashedSeqs : List ℕ := []
  retiredSeqs : List ℕ := []
  recordDecode : Bool := false
  recordRename : Bool := false
  recordIssue : Bool := false
  decodeLog : List DecodeRecord := []
  renameLog : List RenameRecord := []
  issueLog : List IssueRecord := []

namespace Observer

/-- An event line is a label of at most 159 characters. -/
def event (o : Observer) (line : String) : Observer :=
  if o.observing then { o with events := o.events ++ [(line.take 159).toString] } else o

def squashed (o : Observer) (seqs : List ℕ) : Observer :=
  if o.observing then { o with squashedSeqs := o.squashedSeqs ++ seqs } else o

def retired (o : Observer) (seq : ℕ) : Observer :=
  if o.observing then { o with retiredSeqs := o.retiredSeqs ++ [seq] } else o

def beginCycle (o : Observer) : Observer :=
  { o with events := [], squashedSeqs := [], retiredSeqs := [] }

end Observer

def hexDigits (w : Word) : String := "0x" ++ String.ofList ((Nat.toDigits 16 w.toNat).map Char.toUpper)

structure Cpu where
  mem : Memory
  cfg : Config
  rob : Rob
  prf : PhysicalRegisterFile
  freeList : FreeList
  rat : RegisterAliasTable
  ckpts : CheckpointPool
  iq : IssueQueue
  lsq : Lsq
  bpred : BranchPredictor
  inflight : ℕ → Uop
  archRat : RegisterMap
  pc : Word
  archPc : Word
  fetchQ : List Uop := []
  decodeQ : List Uop := []
  renameQ : List Uop := []
  executing : List Uop := []
  wbFast : List Uop := []
  wbSlow : List Uop := []
  -- 64 bits in the source, as is the cycle below
  fuFreeAt : Fu → List ℕ
  cdbBooked : ℕ → ℕ := fun _ => 0
  cdbWindow : ℕ
  queueCap : ℕ
  fetchStalled : Bool := false
  cycle : ℕ := 0
  halted : Bool := false
  trapped : Bool := false
  exitCode : Word := 0
  trapCause : TrapCause := .none
  commitInOrder : Bool := true
  lastCommittedSeq : ℕ := INVALID_SEQNUM
  stats : Stats := {}
  nextUid : ℕ := 0
  obs : Observer := {}

namespace Cpu

def SYS_EXIT : Word := 93
def REG_A0 : ArchReg := 10
def REG_A7 : ArchReg := 17

/-- Bytes touched by a memory op. -/
def accessSize : Op → ℕ
  | .lb | .lbu | .sb => 1
  | .lh | .lhu | .sh => 2
  | _ => 4

/-- Widen loaded bytes the way the opcode asks. -/
def extendLoad (op : Op) (v : Word) : Word :=
  match op with
  | .lb => (v.setWidth 8).signExtend 32
  | .lh => (v.setWidth 16).signExtend 32
  | _ => v

def reset (mem : Memory) (cfg : Config) (entryPc : Word) : Cpu where
  mem := mem
  cfg := cfg
  rob := .reset cfg
  prf := .reset cfg
  freeList := .reset cfg
  rat := .reset
  ckpts := .reset cfg
  iq := .reset cfg
  lsq := .reset cfg
  bpred := .reset cfg
  inflight := fun _ => {}
  archRat := fun a => a.val
  pc := entryPc
  archPc := entryPc
  fuFreeAt
    | .alu => List.replicate cfg.numAlu 0
    | .branch => List.replicate cfg.numBranch 0
    | .mul => List.replicate cfg.numMul 0
    | .div => List.replicate cfg.numDiv 0
    | .mem => List.replicate cfg.numMem 0
    | .none => []
  cdbWindow := u32 (cfg.longest + 2)
  queueCap := u32 (max 1 cfg.width * 2)

/-- Architectural reads go through the committed mapping. -/
def reg (s : Cpu) (r : ArchReg) : Word := s.prf.read (s.archRat r)

def done (s : Cpu) : Bool := s.halted || s.trapped

def stall (s : Cpu) (c : Stall) : Cpu := { s with stats := s.stats.stall c }

def fetched (s : Cpu) : Uop :=
  let pr := (s.bpred.predict s.pc).1
  let after := (s.bpred.predict s.pc).2
  { uid := s.nextUid
    stageAt := { fetch := s.cycle }
    pc := s.pc
    raw := s.mem.loadU32 s.pc
    predTaken := pr.taken
    predTarget := pr.target
    btbHit := pr.btbHit
    fromRas := pr.fromRas
    phtIndex := pr.phtIndex
    feSnap := ⟨s.bpred.ghr, after.ras⟩ }

def fetchOne (s : Cpu) : Flow Cpu :=
  if s.queueCap ≤ s.fetchQ.length then .stop s
  else
    let pr := (s.bpred.predict s.pc).1
    let s' := { s with
      nextUid := u32 (s.nextUid + 1)
      bpred := (s.bpred.predict s.pc).2
      pc := if pr.taken then pr.target else s.pc + 4
      fetchQ := s.fetchQ ++ [s.fetched]
      stats := { s.stats with fetched := s.stats.fetched + 1 } }
    let line := "predict taken " ++ hexDigits s.pc ++ " -> " ++ hexDigits pr.target ++
      if pr.fromRas then " (RAS)" else ""
    -- one redirect per cycle: the rest of this bundle lives somewhere else
    if pr.taken then .stop { s' with obs := s'.obs.event line } else .more s'

def fetch (s : Cpu) : Cpu := if s.fetchStalled then s else forLoop fetchOne s.cfg.width s

def decoded (s : Cpu) (u : Uop) : Uop :=
  let dec := decode u.raw
  { u with
    stageAt := { u.stageAt with decode := s.cycle }
    dec := dec
    nextPc := u.pc + 4
    bkind := classify dec
    trap := if dec.op = .invalid then .illegal else u.trap }

def decodeOne (s : Cpu) : Flow Cpu :=
  match s.fetchQ with
  | [] => .stop s
  | f :: rest =>
    if s.queueCap ≤ s.decodeQ.length then .stop s
    else
      let u := s.decoded f
      let s' := { s with
        fetchQ := rest
        decodeQ := s.decodeQ ++ [u]
        stats := { s.stats with decoded := s.stats.decoded + 1 }
        obs := if s.obs.recordDecode
          then { s.obs with decodeLog := s.obs.decodeLog ++ [⟨s.cycle, u.pc, u.raw⟩] } else s.obs }
      -- nothing past a trap is worth fetching
      if u.dec.kind = .trap then .stop { s' with fetchQ := [], fetchStalled := true } else .more s'

def decodeStage (s : Cpu) : Cpu := forLoop decodeOne s.cfg.width s

/-- The uop as rename leaves it: tags from the alias table, destination `dest`,
the checkpoint slot and ROB slot it is given. -/
def renamed (s : Cpu) (u : Uop) (dest : ℕ) (ckpt : ℕ) : Uop :=
  { u with
    stageAt := { u.stageAt with rename := s.cycle }
    src1 := s.rat.map u.dec.rs1
    src2 := s.rat.map u.dec.rs2
    stale := if u.dec.writesRd then s.rat.map u.dec.rd else u.stale
    dest := if u.dec.writesRd then dest else u.dest
    ckpt := ckpt
    rob := s.rob.tail
    seq := s.rob.nextSeq }

def robEntry (u : Uop) : RobEntry :=
  { pc := u.pc
    nextPc := u.nextPc
    destArch := if u.dec.writesRd then u.dec.rd.val else INVALID_ARCHREG
    destPhys := u.dest
    stalePhys := u.stale
    isBranch := u.dec.isBranch
    isStore := u.dec.isStore
    ckpt := u.ckpt }

/-- Move the oldest decoded uop `u` into the window. The free list has been
asked already: `freeList` is what it left, `dest` what it gave. -/
def renameUop (s : Cpu) (u : Uop) (rest : List Uop) (dest : ℕ) (freeList : FreeList) : Cpu :=
  let rat := if u.dec.writesRd then s.rat.set u.dec.rd dest else s.rat
  let slot := if u.dec.isBranch then (s.ckpts.alloc.map Prod.fst).getD INVALID_CHECKPOINT
    else u.ckpt
  let pool := if u.dec.isBranch then (s.ckpts.alloc.map Prod.snd).getD s.ckpts else s.ckpts
  let v := s.renamed u dest slot
  let line := "rename seq" ++ toString v.seq ++ " " ++ hexDigits v.pc ++
    if u.dec.writesRd then ": x" ++ toString v.dec.rd.val ++ " -> p" ++ toString v.dest ++
      " (stale p" ++ toString v.stale ++ ")"
    else ""
  let obs := s.obs.event line
  { s with
    decodeQ := rest
    freeList := freeList
    rat := rat
    prf := if u.dec.writesRd then s.prf.markPending dest else s.prf
    -- snapshotted after its own destination is mapped, so the result survives with the branch
    ckpts := if u.dec.isBranch then pool.fill slot ⟨rat.mapping, u.feSnap⟩ else pool
    rob := (s.rob.allocate (robEntry v)).2
    inflight := fun i => if i = v.rob then v else s.inflight i
    renameQ := s.renameQ ++ [v]
    stats := { s.stats with renamed := s.stats.renamed + 1 }
    obs := if obs.recordRename
      then { obs with renameLog := obs.renameLog ++ [⟨s.cycle, v.seq, v.pc,
        if u.dec.writesRd then v.dec.rd.val else INVALID_ARCHREG, v.dest, v.stale, v.src1,
        v.src2⟩] }
      else obs }

def renameOne (s : Cpu) : Flow Cpu :=
  match s.decodeQ with
  | [] => .stop s
  | u :: rest =>
    if s.queueCap ≤ s.renameQ.length then .stop s
    else if s.rob.full then .stop (s.stall .robFull)
    -- a branch that cannot be checkpointed waits for a slot
    else if u.dec.isBranch && s.ckpts.numFree == 0 then .stop (s.stall .checkpoint)
    else if u.dec.writesRd then
      match s.freeList.alloc with
      | none => .stop (s.stall .physreg)
      | some (dest, freeList) => .more (s.renameUop u rest dest freeList)
    else .more (s.renameUop u rest INVALID_PHYSREG s.freeList)

def rename (s : Cpu) : Cpu := forLoop renameOne s.cfg.width s

def latencyOf (cfg : Config) (d : Decoded) : ℕ :=
  max 1 (match d.kind with
    | .alu => cfg.aluLatency
    | .branch => cfg.branchLatency
    | .mul => cfg.mulLatency
    | .div => cfg.divLatency
    | .load => cfg.memLatency
    | .store | .nop | .trap => 1)

/-- The issue-queue entry of a uop; ready bits are sampled from the register file. -/
def iqEntry (s : Cpu) (u : Uop) : IssueQueue.Entry :=
  { seq := u.seq
    rob := u.rob
    kind := u.dec.kind
    src1 := u.src1
    src2 := u.src2
    dest := u.dest
    src1Ready := s.prf.isReady u.src1
    src2Ready := s.prf.isReady u.src2
    latency := latencyOf s.cfg u.dec }

/-- Seat the oldest renamed uop; `lsqIdx` and `lsq` are what the load/store queues answered. -/
def dispatchUop (s : Cpu) (u : Uop) (rest : List Uop) (lsqIdx : ℕ) (lsq : Lsq) : Cpu :=
  let v := { u with lsqIdx := lsqIdx, stageAt := { u.stageAt with dispatch := s.cycle } }
  { s with
    renameQ := rest
    lsq := lsq
    inflight := fun i => if i = v.rob then v else s.inflight i
    iq := s.iq.insert (s.iqEntry v)
    stats := { s.stats with dispatched := s.stats.dispatched + 1 } }

def dispatchOne (s : Cpu) : Flow Cpu :=
  match s.renameQ with
  | [] => .stop s
  | u :: rest =>
    if s.iq.full then .stop (s.stall .iqFull)
    else if u.dec.isLoad then
      match s.lsq.allocLoad u.seq (accessSize u.dec.op) with
      | none => .stop (s.stall .lqFull)
      | some (idx, lsq) => .more (s.dispatchUop u rest idx lsq)
    else if u.dec.isStore then
      match s.lsq.allocStore u.seq (accessSize u.dec.op) with
      | none => .stop (s.stall .sqFull)
      | some (idx, lsq) => .more (s.dispatchUop u rest idx lsq)
    else .more (s.dispatchUop u rest u.lsqIdx s.lsq)

def dispatch (s : Cpu) : Cpu := forLoop dispatchOne s.cfg.width s

def unitOf (d : Decoded) : Fu :=
  match d.kind with
  | .alu => .alu
  | .branch => .branch
  | .mul => .mul
  | .div => .div
  | .load | .store => .mem
  | .nop | .trap => .none

def fuClassName : Fu → String
  | .alu => "ALU"
  | .branch => "BRANCH"
  | .mul => "MUL"
  | .div => "DIV"
  | .mem => "MEM"
  | .none => "NONE"

def portStall : Fu → Stall
  | .alu => .aluPort
  | .branch => .branchPort
  | .mul => .mulPort
  | .div => .divPort
  | .mem => .memPort
  | .none => .memPort

def pipelined (f : Fu) : Bool := f = .mul

/-- A unit free this cycle; `Fu.none` always has one. -/
def freeUnit (s : Cpu) (f : Fu) : Option ℕ :=
  if f = .none then some 0 else (s.fuFreeAt f).findIdx? fun t => t ≤ s.cycle

/-- Unit `unit` of class `f` is busy until cycle `t`. -/
def occupy (s : Cpu) (f : Fu) (unit t : ℕ) : Fu → List ℕ :=
  fun g => if g = f then (s.fuFreeAt f).set unit t else s.fuFreeAt g

def reserveCdb (s : Cpu) (atCycle : ℕ) : Option Cpu :=
  let slot := atCycle % s.cdbWindow
  if s.cfg.numCdb ≤ s.cdbBooked slot then none
  else some { s with cdbBooked := fun i => if i = slot then s.cdbBooked i + 1 else s.cdbBooked i }

/-- Pure computation: operand values in; result, target or store payload out. -/
def executeUop (u : Uop) : Uop :=
  let d := u.dec
  let rs1 := u.val1
  let rs2 := u.val2
  let opb := if usesImmediate d then d.imm else rs2
  match d.op with
  | .add => { u with result := Alu.add rs1 opb, hasResult := true }
  | .sub => { u with result := Alu.sub rs1 rs2, hasResult := true }
  | .sll => { u with result := Alu.sll rs1 opb, hasResult := true }
  | .srl => { u with result := Alu.srl rs1 opb, hasResult := true }
  | .sra => { u with result := Alu.sra rs1 opb, hasResult := true }
  | .and => { u with result := Alu.and_ rs1 opb, hasResult := true }
  | .or => { u with result := Alu.or_ rs1 opb, hasResult := true }
  | .xor => { u with result := Alu.xor_ rs1 opb, hasResult := true }
  | .slt => { u with result := Alu.slt rs1 opb, hasResult := true }
  | .sltu => { u with result := Alu.sltu rs1 opb, hasResult := true }
  | .lui => { u with result := d.imm, hasResult := true }
  | .auipc => { u with result := u.pc + d.imm, hasResult := true }
  | .mul => { u with result := Alu.mul rs1 rs2, hasResult := true }
  | .mulh => { u with result := Alu.mulh rs1 rs2, hasResult := true }
  | .mulhsu => { u with result := Alu.mulhsu rs1 rs2, hasResult := true }
  | .mulhu => { u with result := Alu.mulhu rs1 rs2, hasResult := true }
  | .div => { u with result := Alu.div rs1 rs2, hasResult := true }
  | .divu => { u with result := Alu.divu rs1 rs2, hasResult := true }
  | .rem => { u with result := Alu.rem rs1 rs2, hasResult := true }
  | .remu => { u with result := Alu.remu rs1 rs2, hasResult := true }
  | .beq | .bne | .blt | .bge | .bltu | .bgeu =>
    if Alu.branchTaken d.op rs1 rs2 then { u with nextPc := Alu.branchTarget u.pc d.imm } else u
  | .jal =>
    { u with result := Alu.linkAddress u.pc, hasResult := true, nextPc := Alu.branchTarget u.pc d.imm }
  | .jalr =>
    { u with result := Alu.linkAddress u.pc, hasResult := true, nextPc := Alu.jalrTarget rs1 d.imm }
  | .lb | .lh | .lw | .lbu | .lhu => u
  | .sb | .sh | .sw => { u with memAddr := rs1 + d.imm, storeData := rs2 }
  | .fence | .fenceI | .ecall | .ebreak => u
  | .invalid => { u with trap := .illegal }

/-- What a load that goes to memory reads. -/
def loadMemory (m : Memory) (op : Op) (addr : Word) : Word :=
  match op with
  | .lb => extendLoad .lb ((m.loadU8 addr).setWidth 32)
  | .lh => extendLoad .lh ((m.loadU16 addr).setWidth 32)
  | .lbu => (m.loadU8 addr).setWidth 32
  | .lhu => (m.loadU16 addr).setWidth 32
  | _ => m.loadU32 addr

/-- Resolve a load's address and search the store queue; `none` is a replay. -/
def executeLoad (s : Cpu) (u : Uop) (latency : ℕ) : Cpu × Option (Uop × ℕ) :=
  let addr := u.val1 + u.dec.imm
  let s := { s with lsq := s.lsq.resolveLoadAddr u.lsqIdx addr }
  let f := s.lsq.searchOlderStores u.lsqIdx
  match f.kind with
  | .replay => (s, none)
  | .forward =>
    let result := extendLoad u.dec.op f.data
    let line := "forward seq" ++ toString u.seq ++ " <- store queue, [" ++ hexDigits addr ++ "] = " ++
      hexDigits result
    ({ s with stats := { s.stats with loadForwards := s.stats.loadForwards + 1 }
              obs := s.obs.event line },
      some ({ u with memAddr := addr, hasResult := true, result := result }, 1))
  | .noMatch =>
    ({ s with stats := { s.stats with loadMemory := s.stats.loadMemory + 1 } },
      some ({ u with memAddr := addr, hasResult := true, result := loadMemory s.mem u.dec.op addr },
        latency))

/-- What became of one candidate. -/
inductive Attempt
  | turnedAway (s : Cpu) (why : Stall)
  | launched (s : Cpu) (u : Uop) (latency : ℕ) (f : Fu) (unit : ℕ)

def attempt (s : Cpu) (e : IssueQueue.Entry) : Attempt :=
  let u := s.inflight e.rob
  let f := unitOf u.dec
  match s.freeUnit f with
  | none => .turnedAway s (portStall f)
  | some unit =>
    let u := { u with val1 := s.prf.read u.src1, val2 := s.prf.read u.src2 }
    if u.dec.isLoad then
      match s.executeLoad u e.latency with
      -- address generation already happened, so the unit is spent either way
      | (s, none) => .turnedAway { s with
          fuFreeAt := s.occupy .mem unit (s.cycle + 1)
          stats := { s.stats with loadReplays := s.stats.loadReplays + 1 }
          obs := s.obs.event ("replay seq" ++ toString u.seq ++ " - older store address unknown") }
          .storeOrder
      | (s, some (u, latency)) => .launched s u latency f unit
    else
      match if u.dec.writesRd then s.reserveCdb (s.cycle + e.latency) else some s with
      | none => .turnedAway s .cdb
      | some s =>
        let u := if u.trap = .none then executeUop u else u
        .launched { s with lsq := if u.dec.isStore
          then (s.lsq.resolveAddr u.lsqIdx u.memAddr).resolveData u.lsqIdx u.storeData else s.lsq }
          u e.latency f unit

/-- The issue pass: the machine and the locals of the select loop. -/
structure IssuePass where
  cpu : Cpu
  issued : ℕ := 0
  offender : Option Uop := none
  blocked : List Stall := []

/-- Hand an accepted uop over: unit, timestamps, queues and counters. -/
def launch (s : Cpu) (e : IssueQueue.Entry) (u : Uop) (latency : ℕ) (f : Fu) (unit : ℕ) : Cpu :=
  let unitName := if f = .none then "no unit" else fuClassName f ++ toString unit
  let line := "issue seq" ++ toString u.seq ++ " -> " ++ unitName ++ ", wb@" ++ toString u.wbCycle
  let obs := s.obs.event line
  { s with
    fuFreeAt := if f = .none then s.fuFreeAt
      else s.occupy f unit (s.cycle + if pipelined f then 1 else latency)
    rob := if u.nextPc = u.predicted then s.rob
      else s.rob.modify u.rob fun e => { e with mispredicted := true }
    inflight := fun i => if i = u.rob then u else s.inflight i
    iq := s.iq.erase e.seq
    executing := if 1 < latency then s.executing ++ [u] else s.executing
    wbSlow := if latency ≤ 1 ∧ u.dec.isLoad then s.wbSlow ++ [u] else s.wbSlow
    wbFast := if latency ≤ 1 ∧ ¬u.dec.isLoad then s.wbFast ++ [u] else s.wbFast
    stats := { s.stats with
      issued := s.stats.issued + 1
      loads := if u.dec.isLoad then s.stats.loads + 1 else s.stats.loads
      stores := if u.dec.isStore then s.stats.stores + 1 else s.stats.stores }
    obs := if obs.recordIssue
      then { obs with issueLog := obs.issueLog ++ [⟨s.cycle, u.seq, u.pc, u.dest, u.wbCycle⟩] }
      else obs }

/-- The oldest misprediction of the cycle so far. -/
def offender (old : Option Uop) (u : Uop) : Option Uop :=
  if u.nextPc = u.predicted then old
  else match old with
    | none => some u
    | some v => if u.seq < v.seq then some u else some v

def issueOne (p : IssuePass) (e : IssueQueue.Entry) : IssuePass :=
  match p.cpu.attempt e with
  | .turnedAway s why => { p with cpu := s, blocked := p.blocked ++ [why] }
  | .launched s u latency f unit =>
    let u := { u with wbCycle := s.cycle + latency, stageAt := { u.stageAt with issue := s.cycle } }
    { p with
      cpu := s.launch e u latency f unit
      issued := p.issued + 1
      offender := offender p.offender u }

def issueLoop : List IssueQueue.Entry → IssuePass → IssuePass
  | [], p => p
  | e :: rest, p => if p.cpu.cfg.width ≤ p.issued then p else issueLoop rest (issueOne p e)

/-- Oldest-ready select: the state of the select loop when it ends. -/
def issueScan (s : Cpu) : IssuePass := issueLoop (s.iq.select s.iq.size) { cpu := s }

/-- Charge unused slots: first the reasons candidates were turned away, oldest
first, then waiting on operands unless the queue is empty. -/
def chargeSlots (p : IssuePass) : Cpu :=
  let lost := p.cpu.cfg.width - p.issued
  let why := p.blocked.take lost
  let rest := if p.cpu.iq.entries.isEmpty then 0 else lost - why.length
  let stats := why.foldl Stats.stall p.cpu.stats
  { p.cpu with stats := (List.replicate rest Stall.operands).foldl Stats.stall stats }

/-- Give back the writeback port of a squashed uop. -/
def releaseCdb (cycle window : ℕ) (booked : ℕ → ℕ) (u : Uop) : ℕ → ℕ :=
  if !u.dec.writesRd || u.dec.isLoad then booked
  else if u.wbCycle ≤ cycle then booked
  else fun i => if i = u.wbCycle % window then booked i - 1 else booked i

/-- Unwind to just after `br`, which mispredicted. -/
def recover (s : Cpu) (br : Uop) : Cpu :=
  let killed := (s.rob.truncateTo br.rob).1
  let dropped := (s.executing ++ s.wbFast ++ s.wbSlow).filter fun u => br.seq < u.seq
  let bpred := s.bpred.restore (s.ckpts.read br.ckpt).frontEnd
  let line := "MISPREDICT seq" ++ toString br.seq ++ " - squashed " ++ toString killed.length ++
    " younger, PC->" ++ hexDigits br.nextPc
  { s with
    rob := (s.rob.truncateTo br.rob).2
    freeList := killed.foldl (fun f e => f.free e.destPhys) s.freeList
    ckpts := killed.foldl (fun c e => c.free e.ckpt) s.ckpts
    iq := s.iq.squashAfter br.seq
    lsq := s.lsq.squashAfter br.seq
    executing := s.executing.filter fun u => u.seq ≤ br.seq
    wbFast := s.wbFast.filter fun u => u.seq ≤ br.seq
    wbSlow := s.wbSlow.filter fun u => u.seq ≤ br.seq
    cdbBooked := dropped.foldl (releaseCdb s.cycle s.cdbWindow) s.cdbBooked
    rat := s.rat.adopt (s.ckpts.read br.ckpt).rat
    -- the speculative history bit becomes the resolved outcome
    bpred := if br.btbHit && br.bkind == .conditional
      then bpred.shiftHistory (br.nextPc != br.pc + 4) else bpred
    fetchQ := []
    decodeQ := []
    renameQ := []
    fetchStalled := false
    pc := br.nextPc
    stats := { s.stats with
      squashed := s.stats.squashed + killed.length
      mispredicts := s.stats.mispredicts + 1 }
    obs := (s.obs.squashed (killed.map RobEntry.seq)).event line }

def issue (s : Cpu) : Cpu :=
  let p := s.issueScan
  match p.offender with
  | none => chargeSlots p
  | some br => (chargeSlots p).recover br

/-- Multi-cycle units hand their result over on the cycle it appears. -/
def execute (s : Cpu) : Cpu :=
  { s with
    executing := s.executing.filter fun u => s.cycle + 1 < u.wbCycle
    wbSlow := s.wbSlow ++ s.executing.filter fun u => u.wbCycle ≤ s.cycle + 1 && u.dec.isLoad
    wbFast := s.wbFast ++ s.executing.filter fun u => u.wbCycle ≤ s.cycle + 1 && !u.dec.isLoad }

/-- Land a result: value into the register file, tag onto the queue, entry marked done. -/
def complete (s : Cpu) (u : Uop) : Cpu :=
  let v := { u with stageAt := { u.stageAt with complete := s.cycle } }
  let line := "writeback seq" ++ toString u.seq ++
    if u.hasResult && u.dest != INVALID_PHYSREG
    then " p" ++ toString u.dest ++ " = " ++ hexDigits u.result else ""
  { s with
    prf := if u.trap = .none ∧ u.hasResult ∧ u.dest ≠ INVALID_PHYSREG
      then s.prf.write u.dest u.result else s.prf
    iq := s.iq.wakeup u.dest
    rob := s.rob.modify u.rob fun e => { e with complete := true }
    inflight := fun i => if i = u.rob then v else s.inflight i
    stats := { s.stats with wroteBack := s.stats.wroteBack + 1 }
    obs := s.obs.event line }

/-- Fast ops booked their port at issue. -/
def writebackFastOne : Cpu × ℕ → Flow (Cpu × ℕ)
  | (s, ports) => match s.wbFast with
    | [] => .stop (s, ports)
    | u :: rest =>
      if u.dec.writesRd && ports == 0 then .stop (s, ports)
      else .more ({ s.complete u with wbFast := rest }, if u.dec.writesRd then ports - 1 else ports)

/-- Loads take the bandwidth that is left. -/
def writebackSlowOne : Cpu × ℕ → Flow (Cpu × ℕ)
  | (s, ports) => match s.wbSlow with
    | [] => .stop (s, ports)
    | u :: rest =>
      if ports = 0 then .stop (s, ports)
      else .more ({ s.complete u with wbSlow := rest }, ports - 1)

def writeback (s : Cpu) : Cpu :=
  let fast := forLoop writebackFastOne s.wbFast.length (s, s.cfg.numCdb)
  let slow := (forLoop writebackSlowOne fast.1.wbSlow.length fast).1
  { slow with cdbBooked := fun i => if i = slow.cycle % slow.cdbWindow then 0 else slow.cdbBooked i }

/-- The trap a committing uop raises, if any. -/
def commitCause (s : Cpu) (u : Uop) : TrapCause :=
  if u.trap ≠ .none then u.trap
  else match u.dec.op with
    | .ecall => if s.reg REG_A7 = SYS_EXIT then .none else .ecallUnknown
    | .ebreak => .ebreak
    | _ => .none

/-- The exit system call. -/
def commitHalts (s : Cpu) (u : Uop) : Bool :=
  u.trap = .none && u.dec.op = .ecall && s.reg REG_A7 = SYS_EXIT

/-- A store leaves the queue and becomes globally visible in the same instant. -/
def drainStore (m : Memory) (op : Op) (st : LsqEntry) : Memory :=
  match op with
  | .sb => m.storeU8 st.addr (st.data.setWidth 8)
  | .sh => m.storeU16 st.addr (st.data.setWidth 16)
  | .sw => m.storeU32 st.addr st.data
  | _ => m

def drains (u : Uop) : Bool :=
  u.trap = .none && (u.dec.op = .sb || u.dec.op = .sh || u.dec.op = .sw)

/-- Retire the uop at the head; `rob` is the buffer without it. -/
def retire (s : Cpu) (rob : Rob) (u : Uop) : Cpu :=
  let cause := s.commitCause u
  let halted := s.halted || s.commitHalts u
  let trapped := s.trapped || cause != .none
  let exitCode := if s.commitHalts u then s.reg REG_A0 else s.exitCode
  let taken := u.nextPc != u.pc + 4
  let obs := (s.obs.retired u.seq).event ("retire seq" ++ toString u.seq ++ " " ++ hexDigits u.pc)
  { s with
    rob := rob
    commitInOrder := s.commitInOrder && !(0 < s.stats.retired && u.seq ≤ s.lastCommittedSeq)
    lastCommittedSeq := u.seq
    lsq :=
      { loads := if u.dec.isLoad then s.lsq.loads.popHead else s.lsq.loads
        stores := if drains u then s.lsq.stores.popHead else s.lsq.stores }
    mem := if drains u then drainStore s.mem u.dec.op (s.lsq.stores.nth 0) else s.mem
    bpred := if u.dec.isBranch then s.bpred.commit u.pc u.phtIndex u.bkind taken u.nextPc
      else s.bpred
    ckpts := if u.dec.isBranch then s.ckpts.free u.ckpt else s.ckpts
    halted := halted
    trapped := trapped
    exitCode := exitCode
    trapCause := if cause ≠ .none then cause else s.trapCause
    -- the mapping becomes architectural and the displaced one returns to the free list
    archRat := if u.dest ≠ INVALID_PHYSREG
      then fun a => if a = u.dec.rd then u.dest else s.archRat a else s.archRat
    freeList := if u.dest ≠ INVALID_PHYSREG then s.freeList.free u.stale else s.freeList
    archPc := if halted || trapped then u.pc else u.nextPc
    stats := { s.stats with
      retired := s.stats.retired + 1
      branches := if u.dec.isBranch then s.stats.branches + 1 else s.stats.branches
      btbLookups := if u.dec.isBranch then s.stats.btbLookups + 1 else s.stats.btbLookups
      btbHits := if u.dec.isBranch && u.btbHit then s.stats.btbHits + 1 else s.stats.btbHits
      rasPops := if u.dec.isBranch && u.fromRas then s.stats.rasPops + 1 else s.stats.rasPops
      rasHits := if u.dec.isBranch && u.fromRas && u.predTarget == u.nextPc
        then s.stats.rasHits + 1 else s.stats.rasHits }
    obs := if cause ≠ .none then obs.event ("TRAP at " ++ hexDigits u.pc)
      else if halted then obs.event ("HALT exit=" ++ toString exitCode.toNat) else obs }

/-- Drop everything in flight behind a halting instruction. -/
def squashInFlight (s : Cpu) : Cpu :=
  let killed := s.rob.squashAll.1
  let line := "squashed " ++ toString killed.length ++ " in flight behind the halt"
  { s with
    rob := s.rob.squashAll.2
    freeList := killed.foldl (fun f e => f.free e.destPhys) s.freeList
    ckpts := killed.foldl (fun c e => c.free e.ckpt) s.ckpts
    stats := { s.stats with squashed := s.stats.squashed + killed.length }
    rat := s.rat.adopt s.archRat
    lsq := s.lsq.clear
    fetchQ := []
    decodeQ := []
    renameQ := []
    iq := s.iq.clear
    executing := []
    wbFast := []
    wbSlow := []
    cdbBooked := fun _ => 0
    fetchStalled := false
    obs := if killed.length = 0 then s.obs
      else (s.obs.squashed (killed.map RobEntry.seq)).event line }

def commitOne (s : Cpu) : Flow Cpu :=
  match s.rob.popHeadIfComplete with
  | none => .stop s
  | some (_, rob) =>
    let s' := s.retire rob (s.inflight s.rob.head)
    -- the halting instruction retires; anything behind it does not
    if s'.done then .stop s'.squashInFlight else .more s'

def commit (s : Cpu) : Cpu := forLoop commitOne s.cfg.width s

def beginCycle (s : Cpu) : Cpu :=
  { s with
    cycle := s.cycle + 1
    stats := { s.stats with cycles := s.stats.cycles + 1 }
    obs := s.obs.beginCycle }

/-- Stages run in reverse order, so each drains its input before the producer refills it. -/
def tick (s : Cpu) : Cpu :=
  if s.done then s
  else
    let s := s.beginCycle.commit
    if s.done then s
    else s.writeback.execute.issue.dispatch.rename.decodeStage.fetch

/-- Tick until finished or out of cycles. -/
def runLoop (maxCycles : ℕ) : ℕ → Cpu → Cpu
  | 0, s => s
  | n + 1, s => if s.done || maxCycles ≤ s.cycle then s else runLoop maxCycles n s.tick

def run (s : Cpu) (maxCycles : ℕ) : Cpu := s.runLoop maxCycles (maxCycles - s.cycle)

end Cpu

end OooCpu
