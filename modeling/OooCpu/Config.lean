import Mathlib.Algebra.Group.Nat.Defs
import Mathlib.Data.Nat.Basic

/-! # Structural knobs

One field for each knob of the simulator. Every structure reads its size off a
`Config`, so a statement over all of them covers every machine shape. -/
namespace OooCpu

structure Config where
  width : ℕ := 2
  robSize : ℕ := 32
  prfSize : ℕ := 64
  iqSize : ℕ := 16
  lqSize : ℕ := 8
  sqSize : ℕ := 8
  numCdb : ℕ := 2
  numAlu : ℕ := 2
  numBranch : ℕ := 1
  numMul : ℕ := 1
  numDiv : ℕ := 1
  numMem : ℕ := 1
  aluLatency : ℕ := 1
  branchLatency : ℕ := 1
  mulLatency : ℕ := 3
  divLatency : ℕ := 20
  memLatency : ℕ := 2
  ghrBits : ℕ := 12
  phtSize : ℕ := 4096
  btbSets : ℕ := 128
  btbWays : ℕ := 4
  rasSize : ℕ := 16
  numCheckpoints : ℕ := 16
  deriving DecidableEq, Repr

/-- Fewer physical registers than this can stall rename. -/
def Config.prfCanStarve (c : Config) : Bool := c.prfSize < c.robSize + 32

/-- The longest latency any function unit has; a unit takes at least one cycle. -/
def Config.longest (c : Config) : ℕ :=
  max c.aluLatency (max c.branchLatency (max c.mulLatency (max c.divLatency (max c.memLatency 1))))

/-- The machine shapes the results are about: the committed registers fit into
the register file, no index reaches the out-of-band sentinels, and no latency
makes the booking window wrap. -/
structure Config.Admissible (c : Config) : Prop where
  prf_ge : 32 ≤ c.prfSize
  prf_lt : c.prfSize < 2^32
  rob_lt : c.robSize < 2^31
  iq_lt : c.iqSize < 2^31
  lq_lt : c.lqSize < 2^31
  sq_lt : c.sqSize < 2^31
  checkpoints_lt : c.numCheckpoints < 2^31
  alu_lt : c.aluLatency + 2 < 2^32
  branch_lt : c.branchLatency + 2 < 2^32
  mul_lt : c.mulLatency + 2 < 2^32
  div_lt : c.divLatency + 2 < 2^32
  mem_lt : c.memLatency + 2 < 2^32

end OooCpu
