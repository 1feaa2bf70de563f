import OooCpu.Instruction

/-! # The issue queue

Entries hold physical tags and ready bits, never values, and stay in dispatch
order. Wakeup is a tag compare; select is a forward scan. -/
namespace OooCpu

structure IssueQueue.Entry where
  seq : ℕ := INVALID_SEQNUM
  rob : ℕ := INVALID_ROBINDEX
  kind : OpKind := .alu
  src1 : ℕ := 0
  src2 : ℕ := 0
  dest : ℕ := INVALID_PHYSREG
  src1Ready : Bool := true
  src2Ready : Bool := true
  latency : ℕ := 1
  deriving DecidableEq, Repr

def IssueQueue.Entry.ready (e : IssueQueue.Entry) : Bool := e.src1Ready && e.src2Ready

structure IssueQueue where
  capacity : ℕ
  entries : List IssueQueue.Entry := []

namespace IssueQueue

def reset (cfg : Config) : IssueQueue := { capacity := cfg.iqSize }

def size (q : IssueQueue) : ℕ := q.entries.length
def full (q : IssueQueue) : Bool := q.capacity ≤ q.size

def insert (q : IssueQueue) (e : Entry) : IssueQueue := { q with entries := q.entries ++ [e] }

/-- What one entry learns from a broadcast of `p`. -/
def Entry.hear (p : ℕ) (e : Entry) : Entry :=
  { e with src1Ready := e.src1Ready || e.src1 == p, src2Ready := e.src2Ready || e.src2 == p }

/-- A result was broadcast: every entry waiting on that tag is now ready. -/
def wakeup (q : IssueQueue) (p : ℕ) : IssueQueue :=
  if p = INVALID_PHYSREG then q else { q with entries := q.entries.map (Entry.hear p) }

/-- Ready entries, oldest first, at most `limit`. -/
def select (q : IssueQueue) (limit : ℕ) : List Entry := (q.entries.filter Entry.ready).take limit

/-- Drop an entry that has issued. -/
def erase (q : IssueQueue) (seq : ℕ) : IssueQueue :=
  { q with entries := q.entries.eraseP fun e => e.seq == seq }

def squashAfter (q : IssueQueue) (seq : ℕ) : IssueQueue :=
  { q with entries := q.entries.filter fun e => e.seq ≤ seq }

def clear (q : IssueQueue) : IssueQueue := { q with entries := [] }

end IssueQueue

end OooCpu
