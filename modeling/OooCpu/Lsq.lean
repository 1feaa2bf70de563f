import OooCpu.Instruction
import OooCpu.CircularBuffer
import OooCpu.FifoList

/-! # Load and store queues

Two rings filled in program order at dispatch. Stores reach memory at commit, so
a load that has its address asks the older stores: forward, no match, or replay. -/
namespace OooCpu

structure LsqEntry where
  seq : ℕ := INVALID_SEQNUM
  addr : Word := 0
  data : Word := 0
  size : ℕ := 4
  addrReady : Bool := false
  dataReady : Bool := false
  deriving DecidableEq, Repr, Inhabited

inductive Forward
  | noMatch | forward | replay
  deriving DecidableEq, Repr

structure ForwardResult where
  kind : Forward := .noMatch
  data : Word := 0
  deriving DecidableEq, Repr

structure LsqQueue where
  capacity : ℕ
  slots : ℕ → LsqEntry := fun _ => {}
  headSlot : ℕ := 0
  count : ℕ := 0

namespace LsqQueue

def reset (capacity : ℕ) : LsqQueue := { capacity := capacity }

/-- Storage is never empty, so the wrap never divides by zero. -/
def slotCount (q : LsqQueue) : ℕ := if q.capacity = 0 then 1 else q.capacity

def wrap (q : LsqQueue) (v : ℕ) : ℕ := u32 v % q.slotCount
def isEmpty (q : LsqQueue) : Bool := q.count == 0
def full (q : LsqQueue) : Bool := q.capacity ≤ q.count

def alloc (q : LsqQueue) (seq : ℕ) (size : ℕ) : Option (ℕ × LsqQueue) :=
  if q.full then none
  else
    let idx := q.wrap (q.headSlot + q.count)
    some (idx, { q with
      slots := fun i => if i = idx then { seq := seq, size := size } else q.slots i
      count := q.count + 1 })

/-- The k-th oldest entry, `k = 0` being the head. -/
def nth (q : LsqQueue) (k : ℕ) : LsqEntry := q.slots (q.wrap (q.headSlot + k))

def popHead (q : LsqQueue) : LsqQueue :=
  if q.count = 0 then q
  else { q with headSlot := q.wrap (q.headSlot + 1), count := q.count - 1 }

/-- How many of the `n` oldest entries survive a squash of everything younger than `seq`. -/
def keepCount (q : LsqQueue) (seq : ℕ) : ℕ → ℕ
  | 0 => 0
  | n + 1 => if seq < (q.nth n).seq then q.keepCount seq n else n + 1

def squashAfter (q : LsqQueue) (seq : ℕ) : LsqQueue :=
  { q with count := q.keepCount seq q.count }

def clear (q : LsqQueue) : LsqQueue := { q with headSlot := 0, count := 0 }

/-- Rewrite one slot in place. -/
def modify (q : LsqQueue) (idx : ℕ) (f : LsqEntry → LsqEntry) : LsqQueue :=
  { q with slots := fun i => if i = idx then f (q.slots idx) else q.slots i }

/-- The live slots, oldest first. -/
def live (q : LsqQueue) : List ℕ := CircularBuffer.positions q.slotCount q.headSlot q.count

/-- The entries the forward scan walks, oldest first. -/
def entries (q : LsqQueue) : List LsqEntry := (List.range q.count).map q.nth

/-- The shape every reachable queue has: no index arithmetic overflows 32 bits. -/
structure Wf (q : LsqQueue) : Prop where
  capacity_le : q.capacity ≤ 2^31
  head_lt : q.headSlot < q.slotCount
  count_le : q.count ≤ q.capacity

variable {q : LsqQueue}

theorem wf_reset {capacity : ℕ} (h : capacity ≤ 2^31) : (reset capacity).Wf := by
  refine ⟨h, ?_, Nat.zero_le _⟩
  by_cases h0 : capacity = 0
  · simp [reset, slotCount, h0]
  · simpa [reset, slotCount, h0] using Nat.pos_of_ne_zero h0

theorem slotCount_bounds (hq : q.Wf) :
    0 < q.slotCount ∧ q.slotCount ≤ 2^31 ∧ q.count ≤ q.slotCount := by
  have hc := hq.capacity_le
  have hle := hq.count_le
  simp only [slotCount]
  split <;> omega

theorem wrap_add (hq : q.Wf) {k : ℕ} (hk : k ≤ q.slotCount) :
    q.wrap (q.headSlot + k) = (q.headSlot + k) % q.slotCount := by
  have hh := hq.head_lt
  have hs := slotCount_bounds hq
  rw [wrap, u32_of_lt (by omega)]

theorem live_nodup (hq : q.Wf) : q.live.Nodup :=
  CircularBuffer.positions_nodup (slotCount_bounds hq).2.2

/-- The scan walks the live slots. -/
theorem entries_eq (hq : q.Wf) : q.entries = q.live.map q.slots := by
  rw [entries, live, CircularBuffer.positions, List.map_map]
  apply List.map_congr_left
  intro k hk
  have hs := slotCount_bounds hq
  have hk' := List.mem_range.mp hk
  simp only [Function.comp_apply, nth]
  rw [wrap_add hq (by omega)]

theorem alloc_some (hq : q.Wf) {seq size idx : ℕ} {q' : LsqQueue}
    (h : q.alloc seq size = some (idx, q')) :
    q'.live = q.live ++ [idx] ∧ idx ∉ q.live ∧ q'.Wf ∧ q'.capacity = q.capacity ∧
      q'.slots = fun i => if i = idx then { seq := seq, size := size } else q.slots i := by
  simp only [alloc] at h
  split at h
  · contradiction
  rename_i hf
  simp only [full, decide_eq_true_eq, Nat.not_le] at hf
  simp only [Option.some.injEq, Prod.mk.injEq] at h
  obtain ⟨rfl, rfl⟩ := h
  have hs := slotCount_bounds hq
  have hlive : CircularBuffer.positions q.slotCount q.headSlot (q.count + 1) =
      q.live ++ [q.wrap (q.headSlot + q.count)] := by
    rw [wrap_add hq hs.2.2, CircularBuffer.positions_succ, live]
  have hwf : LsqQueue.Wf { q with count := q.count + 1 } := ⟨hq.capacity_le, hq.head_lt, hf⟩
  have hnodup : (q.live ++ [q.wrap (q.headSlot + q.count)]).Nodup := by
    rw [← hlive]
    exact live_nodup hwf
  refine ⟨hlive, ?_, ⟨hq.capacity_le, hq.head_lt, hf⟩, rfl, rfl⟩
  intro hm
  exact (List.nodup_append.mp hnodup).2.2 _ hm _ List.mem_cons_self rfl

theorem live_popHead (hq : q.Wf) (h : q.live ≠ []) :
    ∃ i, q.live = i :: q.popHead.live ∧ q.nth 0 = q.slots i := by
  have h0 : q.count ≠ 0 := fun h0 => h (by simp [live, h0])
  have hs := slotCount_bounds hq
  obtain ⟨n, hn⟩ : ∃ n, q.count = n + 1 := ⟨q.count - 1, by omega⟩
  refine ⟨q.headSlot, ?_, ?_⟩
  · rw [live, hn, CircularBuffer.positions_pop, Nat.mod_eq_of_lt hq.head_lt, live, popHead,
      if_neg h0]
    simp only [hn, Nat.add_sub_cancel]
    rw [wrap_add hq (by omega : 1 ≤ q.slotCount)]
    rfl
  · rw [nth, wrap_add hq (Nat.zero_le _), Nat.add_zero, Nat.mod_eq_of_lt hq.head_lt]

theorem wf_popHead (hq : q.Wf) : q.popHead.Wf := by
  have hs := slotCount_bounds hq
  have hle := hq.count_le
  rw [popHead]
  split
  · exact hq
  · exact ⟨hq.capacity_le, Nat.mod_lt _ hs.1, by simp only; omega⟩

private theorem keepCount_le (seq n : ℕ) : q.keepCount seq n ≤ n := by
  induction n with
  | zero => simp [keepCount]
  | succ n ih =>
    simp only [keepCount]
    split <;> omega

theorem wf_squashAfter (hq : q.Wf) (seq : ℕ) : (q.squashAfter seq).Wf :=
  ⟨hq.capacity_le, hq.head_lt, (keepCount_le seq q.count).trans hq.count_le⟩

private theorem positions_keepCount (hq : q.Wf) (seq : ℕ) {n : ℕ} (hn : n ≤ q.slotCount) :
    CircularBuffer.positions q.slotCount q.headSlot (q.keepCount seq n) =
      (CircularBuffer.positions q.slotCount q.headSlot n).rdropWhile fun i => seq <
        (q.slots i).seq := by
  induction n with
  | zero => simp [keepCount]
  | succ n ih =>
    have hnth : q.nth n = q.slots ((q.headSlot + n) % q.slotCount) := by
      rw [nth, wrap_add hq (by omega)]
    rw [CircularBuffer.positions_succ, List.rdropWhile_concat, ← hnth, keepCount]
    by_cases hy : seq < (q.nth n).seq
    · rw [if_pos hy, if_pos (decide_eq_true hy), ih (by omega)]
    · rw [if_neg hy, if_neg (by simpa using hy), CircularBuffer.positions_succ]

/-- The tail loop cuts off the end while it is younger. -/
theorem live_squashAfter_eq (hq : q.Wf) (seq : ℕ) :
    (q.squashAfter seq).live = q.live.rdropWhile fun i => seq < (q.slots i).seq :=
  positions_keepCount hq seq (slotCount_bounds hq).2.2

/-- The tail loop keeps exactly the entries that are not younger. -/
theorem live_squashAfter (hq : q.Wf) (seq : ℕ)
    (hsorted : (q.live.map q.slots).Pairwise fun a b => a.seq < b.seq) :
    (q.squashAfter seq).live = q.live.filter fun i => (q.slots i).seq ≤ seq := by
  have hup : q.live.Pairwise fun i j => decide (seq < (q.slots i).seq) = true →
      decide (seq < (q.slots j).seq) = true := by
    refine (List.pairwise_map.mp hsorted).imp fun hlt hi => ?_
    rw [decide_eq_true_iff] at hi ⊢
    exact hi.trans hlt
  rw [live_squashAfter_eq hq, rdropWhile_eq_filter hup]
  apply List.filter_congr
  intro i _
  rw [← decide_not, decide_eq_decide, Nat.not_lt]

theorem wf_modify (hq : q.Wf) (idx : ℕ) (f : LsqEntry → LsqEntry) : (q.modify idx f).Wf :=
  ⟨hq.capacity_le, hq.head_lt, hq.count_le⟩

theorem wf_clear (hq : q.Wf) : q.clear.Wf := by
  have hs := slotCount_bounds hq
  exact ⟨hq.capacity_le, hs.1, Nat.zero_le _⟩

end LsqQueue

structure Lsq where
  loads : LsqQueue
  stores : LsqQueue

namespace Lsq

def reset (cfg : Config) : Lsq := ⟨.reset cfg.lqSize, .reset cfg.sqSize⟩

def allocLoad (l : Lsq) (seq : ℕ) (size : ℕ) : Option (ℕ × Lsq) :=
  (l.loads.alloc seq size).map fun r => (r.1, { l with loads := r.2 })

def allocStore (l : Lsq) (seq : ℕ) (size : ℕ) : Option (ℕ × Lsq) :=
  (l.stores.alloc seq size).map fun r => (r.1, { l with stores := r.2 })

def resolveLoadAddr (l : Lsq) (idx : ℕ) (addr : Word) : Lsq :=
  { l with loads := l.loads.modify idx fun e => { e with addr := addr, addrReady := true } }

def resolveAddr (l : Lsq) (idx : ℕ) (addr : Word) : Lsq :=
  { l with stores := l.stores.modify idx fun e => { e with addr := addr, addrReady := true } }

def resolveData (l : Lsq) (idx : ℕ) (data : Word) : Lsq :=
  { l with stores := l.stores.modify idx fun e => { e with data := data, dataReady := true } }

/-- The load's bytes out of the store's word, zero-extended. -/
def extract (st ld : LsqEntry) : Word :=
  let off := ld.addr - st.addr
  let v := st.data >>> (8 * off).toNat
  if ld.size < 4 then v &&& ((1 <<< (8 * ld.size)) - 1) else v

/-- The mutable part of the forward scan. -/
structure Scan where
  out : ForwardResult := {}
  ambiguous : Bool := false

/-- One older store, on unwrapped 64-bit intervals. -/
def Scan.visit (ld : LsqEntry) (s : Scan) (st : LsqEntry) : Scan :=
  let lo := ld.addr.toNat
  let hi := lo + ld.size
  if !st.addrReady then { s with ambiguous := true }
  else
    let slo := st.addr.toNat
    let shi := slo + st.size
    if shi ≤ lo ∨ hi ≤ slo then s
    else if (slo ≤ lo ∧ hi ≤ shi) ∧ st.dataReady then ⟨⟨.forward, extract st ld⟩, false⟩
    else ⟨{ s.out with kind := .noMatch }, true⟩

/-- Oldest to youngest, stopping at the first store younger than the load. -/
def Scan.run (ld : LsqEntry) : Scan → List LsqEntry → Scan
  | s, [] => s
  | s, st :: rest => if ld.seq < st.seq then s else Scan.run ld (s.visit ld st) rest

/-- What a load with entry `ld` learns from the store queue contents `stores`. -/
def searchStores (ld : LsqEntry) (stores : List LsqEntry) : ForwardResult :=
  if !ld.addrReady then { kind := .replay }
  else
    let s := Scan.run ld {} stores
    if s.ambiguous then { kind := .replay, data := 0 } else s.out

def searchOlderStores (l : Lsq) (loadIdx : ℕ) : ForwardResult :=
  searchStores (l.loads.slots loadIdx) l.stores.entries

def squashAfter (l : Lsq) (seq : ℕ) : Lsq :=
  ⟨l.loads.squashAfter seq, l.stores.squashAfter seq⟩

def clear (l : Lsq) : Lsq := ⟨l.loads.clear, l.stores.clear⟩

end Lsq

end OooCpu
