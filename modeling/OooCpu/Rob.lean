import OooCpu.Instruction
import OooCpu.CircularBuffer

/-! # The reorder buffer

A circular buffer of in-flight instructions, oldest at the head. Completion
sets a flag; commit pops the head; recovery truncates the tail. Sequence
numbers are stamped at allocation from a 32-bit counter. -/
namespace OooCpu

structure RobEntry where
  seq : ℕ := INVALID_SEQNUM
  pc : Word := 0
  nextPc : Word := 0
  destArch : ℕ := INVALID_ARCHREG
  destPhys : ℕ := INVALID_PHYSREG
  stalePhys : ℕ := INVALID_PHYSREG
  isBranch : Bool := false
  isStore : Bool := false
  complete : Bool := false
  mispredicted : Bool := false
  ckpt : ℕ := INVALID_CHECKPOINT
  deriving Inhabited

structure Rob where
  capacity : ℕ
  slots : ℕ → RobEntry := fun _ => {}
  headSlot : ℕ := 0
  count : ℕ := 0
  nextSeq : ℕ := 0

namespace Rob

def reset (cfg : Config) : Rob := { capacity := cfg.robSize }

def wrap (r : Rob) (v : ℕ) : ℕ := u32 v % r.capacity
def isEmpty (r : Rob) : Bool := r.count == 0
def full (r : Rob) : Bool := r.count == r.capacity

def head (r : Rob) : ℕ := if r.isEmpty then INVALID_ROBINDEX else r.headSlot
def tail (r : Rob) : ℕ := r.wrap (r.headSlot + r.count)
def nth (r : Rob) (k : ℕ) : ℕ := if k < r.count then r.wrap (r.headSlot + k) else INVALID_ROBINDEX

/-- Distance from the head, or an out-of-range value for a slot that does not exist. -/
def ageOf (r : Rob) (idx : ℕ) : ℕ :=
  if r.capacity ≤ idx then r.capacity else r.wrap (idx + r.capacity - r.headSlot)

def inFlight (r : Rob) (idx : ℕ) : Bool := r.ageOf idx < r.count

/-- Append in program order, stamping the sequence number. -/
def allocate (r : Rob) (e : RobEntry) : ℕ × Rob :=
  let idx := r.tail
  (idx, { r with
    slots := fun i => if i = idx then { e with seq := r.nextSeq } else r.slots i
    count := r.count + 1
    nextSeq := u32 (r.nextSeq + 1) })

/-- Rewrite one slot in place. -/
def modify (r : Rob) (idx : ℕ) (f : RobEntry → RobEntry) : Rob :=
  { r with slots := fun i => if i = idx then f (r.slots idx) else r.slots i }

/-- Retire the oldest entry, once writeback has marked it complete. -/
def popHeadIfComplete (r : Rob) : Option (RobEntry × Rob) :=
  if r.isEmpty || !(r.slots r.headSlot).complete then none
  else some (r.slots r.headSlot,
    { r with headSlot := r.wrap (r.headSlot + 1), count := r.count - 1 })

/-- Shrink to the `keep` oldest entries, returning the rest youngest first. -/
def dropTo (r : Rob) (keep : ℕ) : List RobEntry × Rob :=
  ((List.range' keep (r.count - keep)).reverse.map fun k => r.slots (r.wrap (r.headSlot + k)),
    { r with count := min keep r.count })

/-- Squash everything younger than `idx`; an index that is not live squashes nothing. -/
def truncateTo (r : Rob) (idx : ℕ) : List RobEntry × Rob :=
  if r.inFlight idx then r.dropTo (r.ageOf idx + 1) else ([], r)

def squashAll (r : Rob) : List RobEntry × Rob := r.dropTo 0

/-- The live slots, oldest first. -/
def live (r : Rob) : List ℕ := CircularBuffer.positions r.capacity r.headSlot r.count

/-- The live entries, oldest first. -/
def entries (r : Rob) : List RobEntry := r.live.map r.slots

/-- The shape every reachable buffer has: no index arithmetic overflows 32 bits. -/
structure Wf (r : Rob) : Prop where
  capacity_le : r.capacity ≤ 2^31
  head_lt : 0 < r.capacity → r.headSlot < r.capacity
  count_le : r.count ≤ r.capacity

variable {r : Rob}

theorem wf_reset {cfg : Config} (h : cfg.robSize ≤ 2^31) : (reset cfg).Wf :=
  ⟨h, fun h => h, Nat.zero_le _⟩

theorem wrap_add (hr : r.Wf) {k : ℕ} (h0 : 0 < r.capacity) (hk : k ≤ r.capacity) :
    r.wrap (r.headSlot + k) = (r.headSlot + k) % r.capacity := by
  have hc := hr.capacity_le
  have hh := hr.head_lt h0
  rw [wrap, u32_of_lt (by omega)]

theorem live_nodup (hr : r.Wf) : r.live.Nodup := CircularBuffer.positions_nodup hr.count_le

theorem live_length : r.live.length = r.count := by simp [live]

theorem lt_of_mem_live (hr : r.Wf) {i : ℕ} (h : i ∈ r.live) : i < r.capacity := by
  have hl : 0 < r.count := by
    have := List.length_pos_of_mem h
    rwa [live_length] at this
  exact CircularBuffer.lt_of_mem_positions (by have := hr.count_le; omega) h

@[simp] theorem modify_id (idx : ℕ) : r.modify idx id = r := by
  simp only [modify, id_eq]
  congr 1
  funext i
  split
  · rename_i hi
    rw [hi]
  · rfl

theorem wf_allocate (hr : r.Wf) (hf : r.full = false) (e : RobEntry) : (r.allocate e).2.Wf := by
  have hne : r.count ≠ r.capacity := by simpa [full] using hf
  have hc := hr.count_le
  exact ⟨hr.capacity_le, hr.head_lt, by simp only [allocate]; omega⟩

theorem live_allocate (hr : r.Wf) (hf : r.full = false) (e : RobEntry) :
    (r.allocate e).2.live = r.live ++ [r.tail] := by
  have hne : r.count ≠ r.capacity := by simpa [full] using hf
  have hc := hr.count_le
  rw [tail, wrap_add hr (by omega) hc]
  exact CircularBuffer.positions_succ _ _ _

theorem tail_notMem_live (hr : r.Wf) (hf : r.full = false) : r.tail ∉ r.live := by
  have hn := live_nodup (wf_allocate hr hf default)
  rw [live_allocate hr hf] at hn
  intro hm
  exact (List.nodup_append.mp hn).2.2 _ hm _ List.mem_cons_self rfl

/-- Popping succeeds exactly on a complete head, which leaves the front of the list. -/
theorem pop_some (hr : r.Wf) {e : RobEntry} {r' : Rob} (h : r.popHeadIfComplete = some (e, r')) :
    r.live = r.head :: r'.live ∧ (r.slots r.head).complete = true ∧
      r' = { r with headSlot := r'.headSlot, count := r.count - 1 } ∧ r'.Wf := by
  simp only [popHeadIfComplete] at h
  split at h
  · contradiction
  rename_i hc
  simp only [isEmpty, Bool.or_eq_true, beq_iff_eq, Bool.not_eq_true', not_or,
    Bool.not_eq_false] at hc
  obtain ⟨hcount, hcomplete⟩ := hc
  simp only [Option.some.injEq, Prod.mk.injEq] at h
  obtain ⟨-, rfl⟩ := h
  have hle := hr.count_le
  have hh := hr.head_lt (by omega)
  have hhead : r.head = r.headSlot := by simp [head, isEmpty, hcount]
  refine ⟨?_, by rw [hhead]; exact hcomplete, rfl, hr.capacity_le, ?_, by simp only; omega⟩
  · obtain ⟨n, hn⟩ : ∃ n, r.count = n + 1 := ⟨r.count - 1, by omega⟩
    simp only [live, wrap_add hr (by omega : 0 < r.capacity) (by omega : 1 ≤ r.capacity), hhead, hn,
      Nat.add_sub_cancel]
    rw [CircularBuffer.positions_pop, Nat.mod_eq_of_lt hh]
  · intro h0
    exact Nat.mod_lt _ h0

/-- Nothing is popped when the buffer is empty or its head is still running. -/
theorem pop_none (h : r.popHeadIfComplete = none) :
    r.count = 0 ∨ (r.slots r.head).complete = false := by
  simp only [popHeadIfComplete] at h
  split at h
  · rename_i hc
    by_cases h0 : r.count = 0
    · exact .inl h0
    · right
      simpa [isEmpty, h0, head] using hc
  · contradiction

/-- The live slots of a buffer that is not empty start at its head. -/
theorem live_eq_cons (hr : r.Wf) (h0 : r.count ≠ 0) : ∃ rest, r.live = r.head :: rest := by
  have hle := hr.count_le
  have hh := hr.head_lt (by omega)
  have hhead : r.head = r.headSlot := by simp [head, isEmpty, h0]
  obtain ⟨n, hn⟩ : ∃ n, r.count = n + 1 := ⟨r.count - 1, by omega⟩
  exact ⟨_, by rw [live, hn, CircularBuffer.positions_pop, hhead, Nat.mod_eq_of_lt hh]⟩

theorem ageOf_eq (hr : r.Wf) {i : ℕ} (hi : i < r.capacity) :
    r.ageOf i = CircularBuffer.age r.capacity r.headSlot i := by
  have hc := hr.capacity_le
  have hh := hr.head_lt (by omega)
  rw [ageOf, if_neg (by omega), wrap, u32_of_lt (by omega), CircularBuffer.age]

theorem inFlight_iff (hr : r.Wf) (i : ℕ) : r.inFlight i = true ↔ i ∈ r.live := by
  have hle := hr.count_le
  by_cases hi : i < r.capacity
  · rw [inFlight, decide_eq_true_iff, ageOf_eq hr hi, live,
      CircularBuffer.mem_positions_iff (hr.head_lt (by omega)) hle hi]
  · constructor
    · intro h
      simp only [inFlight, decide_eq_true_iff, ageOf, if_pos (Nat.le_of_not_lt hi)] at h
      omega
    · intro h
      exact absurd (lt_of_mem_live hr h) hi

theorem wf_dropTo (hr : r.Wf) (keep : ℕ) : (r.dropTo keep).2.Wf :=
  ⟨hr.capacity_le, hr.head_lt, (Nat.min_le_right _ _).trans hr.count_le⟩

/-- Dropping to `keep` entries keeps the front and returns the rest youngest first. -/
theorem dropTo_live (hr : r.Wf) {keep : ℕ} (h : keep ≤ r.count) :
    ∃ post, r.live = (r.dropTo keep).2.live ++ post ∧ (r.dropTo keep).2.live.length = keep ∧
      (r.dropTo keep).1 = (post.map r.slots).reverse := by
  have hle := hr.count_le
  refine ⟨(List.range' keep (r.count - keep)).map fun k => (r.headSlot + k) % r.capacity, ?_, ?_,
    ?_⟩
  · simp only [dropTo, live, Nat.min_eq_left h]
    exact CircularBuffer.positions_append_drop h
  · simp [dropTo, live, Nat.min_eq_left h]
  · simp only [dropTo, List.map_reverse, List.map_map]
    congr 1
    apply List.map_congr_left
    intro k hk
    obtain ⟨j, hj, rfl⟩ := List.mem_range'.mp hk
    simp only [Function.comp_apply]
    rw [wrap_add hr (by omega) (by omega)]

/-- Truncating behind a live slot keeps everything up to that slot. -/
theorem truncateTo_live (hr : r.Wf) {pre post : List ℕ} {i : ℕ}
    (h : r.live = pre ++ i :: post) :
    (r.truncateTo i).2.live = pre ++ [i] ∧ (r.truncateTo i).1 = (post.map r.slots).reverse ∧
      (r.truncateTo i).2.Wf := by
  have hm : i ∈ r.live := by simp [h]
  have hi := lt_of_mem_live hr hm
  have hage : r.ageOf i < r.count := by simpa [inFlight] using (inFlight_iff hr i).mpr hm
  have hpre : pre.length = r.ageOf i := by
    have hget : r.live[pre.length]? = some i := by simp [h]
    have hlen : pre.length < r.count := by
      have := congrArg List.length h
      simp only [live_length, List.length_append, List.length_cons] at this
      omega
    rw [live, CircularBuffer.positions_getElem? hlen] at hget
    rw [ageOf_eq hr hi, ← Option.some.inj hget,
      CircularBuffer.age_position (hr.head_lt (by omega)) (by have := hr.count_le; omega)]
  obtain ⟨post', hsplit, hlen, hkilled⟩ := dropTo_live hr (Nat.succ_le_of_lt hage)
  have heq : (r.dropTo (r.ageOf i + 1)).2.live ++ post' = (pre ++ [i]) ++ post := by
    rw [← hsplit, h]
    simp
  obtain ⟨hl, hp⟩ := List.append_inj heq (by rw [hlen]; simp [hpre])
  rw [truncateTo, if_pos ((inFlight_iff hr i).mpr hm)]
  exact ⟨hl, by rw [hkilled, hp], wf_dropTo hr _⟩

theorem squashAll_live (hr : r.Wf) :
    r.squashAll.2.live = [] ∧ r.squashAll.1 = (r.live.map r.slots).reverse ∧ r.squashAll.2.Wf := by
  obtain ⟨post, hsplit, hlen, hkilled⟩ := dropTo_live hr (Nat.zero_le r.count)
  have hnil := List.length_eq_zero_iff.mp hlen
  rw [hnil, List.nil_append] at hsplit
  exact ⟨hnil, by rw [squashAll, hkilled, hsplit], wf_dropTo hr 0⟩

end Rob

end OooCpu
