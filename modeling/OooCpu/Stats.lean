import Mathlib.Data.Nat.Basic

/-! # Aggregate counters of a run -/
namespace OooCpu

/-- Why an otherwise ready uop did not move this cycle. -/
inductive Stall
  | robFull | physreg | checkpoint | iqFull | lqFull | sqFull
  | aluPort | branchPort | mulPort | divPort | memPort
  | cdb | operands | storeOrder
  deriving DecidableEq, Repr

/-- Counters of 64 bits in the source, natural numbers here. -/
structure Stats where
  cycles : ℕ := 0
  fetched : ℕ := 0
  decoded : ℕ := 0
  renamed : ℕ := 0
  dispatched : ℕ := 0
  issued : ℕ := 0
  wroteBack : ℕ := 0
  retired : ℕ := 0
  squashed : ℕ := 0
  branches : ℕ := 0
  mispredicts : ℕ := 0
  btbLookups : ℕ := 0
  btbHits : ℕ := 0
  rasPops : ℕ := 0
  rasHits : ℕ := 0
  loads : ℕ := 0
  stores : ℕ := 0
  loadForwards : ℕ := 0
  loadReplays : ℕ := 0
  loadMemory : ℕ := 0
  stalls : Stall → ℕ := fun _ => 0

def Stats.stall (s : Stats) (c : Stall) : Stats :=
  { s with stalls := fun d => if d = c then s.stalls d + 1 else s.stalls d }

end OooCpu
