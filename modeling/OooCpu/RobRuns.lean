import OooCpu.Along
import OooCpu.Rob

/-! # How long sequence numbers stay unique

Any run of the buffer's operations. The counter has 32 bits and survives every
squash, so numbers follow age until it has gone around once, and not beyond. -/
namespace OooCpu.Rob

/-- What the pipeline asks of the buffer. -/
inductive Action
  | allocate (e : RobEntry)
  | complete (idx : ℕ)
  | popHeadIfComplete
  | truncateTo (idx : ℕ)
  | squashAll

namespace Action

def isAllocate : Action → Bool
  | .allocate _ => true
  | _ => false

end Action

/-- The buffer and every number it has stamped, first one first. -/
structure Stamped where
  rob : Rob
  stamps : List ℕ := []

namespace Stamped

def apply (s : Stamped) : Action → Stamped
  | .allocate e => ⟨(s.rob.allocate e).2, s.stamps ++ [s.rob.nextSeq]⟩
  | .complete idx => { s with rob := s.rob.modify idx fun e => { e with complete := true } }
  | .popHeadIfComplete => { s with rob := (s.rob.popHeadIfComplete.map Prod.snd).getD s.rob }
  | .truncateTo idx => { s with rob := (s.rob.truncateTo idx).2 }
  | .squashAll => { s with rob := s.rob.squashAll.2 }

/-- A caller asks `full()` before it allocates. -/
def Admits (s : Stamped) (a : Action) : Prop := a.isAllocate = true → s.rob.full = false

end Stamped

/-- A fresh buffer after a sequence of operations. -/
def run (capacity : ℕ) (acts : List Action) : Stamped :=
  acts.foldl Stamped.apply { rob := { capacity := capacity } }

/-- No operation of the sequence allocates in a full buffer. -/
def Admitted (capacity : ℕ) (acts : List Action) : Prop :=
  Along Stamped.apply Stamped.Admits { rob := { capacity := capacity } } acts

/-- The live sequence numbers, from head to tail. -/
def seqs (r : Rob) : List ℕ := (List.range r.count).map fun k => (r.slots (r.nth k)).seq

/-- Numbers are never reused, and comparing them compares ages. -/
structure Stamped.Ordered (s : Stamped) : Prop where
  unique : s.stamps.Nodup
  sorted : s.rob.seqs.Pairwise (· < ·)

variable {capacity : ℕ} {acts : List Action} {s : Stamped} {a : Action} {r : Rob}

theorem seqs_eq (h : r.headSlot + r.count ≤ 4294967296) : r.seqs = r.entries.map RobEntry.seq := by
  rw [seqs, entries, live, CircularBuffer.positions, List.map_map, List.map_map]
  apply List.map_congr_left
  intro k hk
  have hlt := List.mem_range.mp hk
  simp only [Function.comp_apply, nth, if_pos hlt, wrap]
  rw [u32_of_lt (by omega)]

theorem seqs_allocate (h : r.headSlot + r.count < 4294967296) (hle : r.count < r.capacity)
    (e : RobEntry) : (r.allocate e).2.seqs = r.seqs ++ [r.nextSeq] := by
  have htail : r.tail = (r.headSlot + r.count) % r.capacity := by rw [tail, wrap, u32_of_lt h]
  have hlive : (r.allocate e).2.live = r.live ++ [r.tail] := by
    rw [htail]
    exact CircularBuffer.positions_succ _ _ _
  have hfresh : r.tail ∉ r.live := by
    have hnodup : (r.allocate e).2.live.Nodup := CircularBuffer.positions_nodup hle
    rw [hlive] at hnodup
    exact fun hm => (List.nodup_append.mp hnodup).2.2 _ hm _ List.mem_cons_self rfl
  rw [seqs_eq (by exact h), seqs_eq h.le, entries, hlive, entries, List.map_append, List.map_append]
  congr 1
  · rw [List.map_map, List.map_map]
    apply List.map_congr_left
    intro i hi
    have hne : i ≠ r.tail := fun he => hfresh (he ▸ hi)
    simp only [Function.comp_apply, allocate, if_neg hne]
  · simp [allocate]

theorem seqs_modify {idx : ℕ} {f : RobEntry → RobEntry} (hf : ∀ e, (f e).seq = e.seq) :
    (r.modify idx f).seqs = r.seqs := by
  apply List.map_congr_left
  intro k _
  change ((r.modify idx f).slots (r.nth k)).seq = _
  simp only [modify]
  split
  · rename_i hi
    rw [hf, hi]
  · rfl

theorem seqs_pop {e : RobEntry} {r' : Rob} (h : r.headSlot + r.count ≤ 4294967296)
    (hh : r.headSlot < r.capacity)
    (hc : r.capacity < 4294967296) (hp : r.popHeadIfComplete = some (e, r')) :
    r'.headSlot ≤ r.headSlot + 1 ∧ r'.headSlot < r.capacity ∧ r'.count + 1 = r.count ∧
      r'.capacity = r.capacity ∧ r'.nextSeq = r.nextSeq ∧ r'.seqs = r.seqs.tail := by
  simp only [popHeadIfComplete] at hp
  split at hp
  · contradiction
  rename_i hne
  simp only [isEmpty, Bool.or_eq_true, beq_iff_eq, not_or] at hne
  obtain ⟨-, rfl⟩ := Prod.mk.inj (Option.some.inj hp)
  have hcount : r.count - 1 + 1 = r.count := by omega
  have hhead : r.wrap (r.headSlot + 1) = (r.headSlot + 1) % r.capacity := by
    rw [wrap, u32_of_lt (by omega)]
  have hle : r.wrap (r.headSlot + 1) ≤ r.headSlot + 1 := by
    rw [hhead]
    exact Nat.mod_le _ _
  refine ⟨hle, by rw [hhead]; exact Nat.mod_lt _ (by omega), hcount, rfl, rfl, ?_⟩
  rw [seqs_eq h, seqs_eq (by change r.wrap (r.headSlot + 1) + (r.count - 1) ≤ _; omega), entries,
    entries, live, live, ← hcount, CircularBuffer.positions_pop]
  simp only [hhead, Nat.add_sub_cancel, List.map_cons, List.tail_cons]

theorem seqs_dropTo (r : Rob) (keep : ℕ) : (r.dropTo keep).2.seqs = r.seqs.take keep := by
  rw [seqs, seqs, ← List.map_take, List.take_range]
  apply List.map_congr_left
  intro k hk
  have hlt := List.mem_range.mp hk
  have hnth : (r.dropTo keep).2.nth k = r.nth k := by
    rw [nth, nth, if_pos hlt, if_pos (hlt.trans_le (Nat.min_le_right _ _))]
    rfl
  rw [hnth]
  rfl

/-- A buffer whose counter has not gone around. -/
structure Stamped.Aged (s : Stamped) : Prop where
  capacity_lt : s.rob.capacity < 4294967296
  head_lt : s.rob.headSlot < s.rob.capacity
  count_le : s.rob.count ≤ s.rob.capacity
  head_count_le : s.rob.headSlot + s.rob.count ≤ s.stamps.length
  nextSeq : s.rob.nextSeq = u32 s.stamps.length
  sorted : s.rob.seqs.Pairwise (· < ·)
  below : ∀ q ∈ s.rob.seqs, q < s.stamps.length

namespace Stamped.Aged
variable (h : s.Aged)
include h

/-- Cutting the tail off keeps a buffer in order. -/
theorem dropTo (keep : ℕ) : ({ s with rob := (s.rob.dropTo keep).2 } : Stamped).Aged := by
  have hmin : min keep s.rob.count ≤ s.rob.count := Nat.min_le_right _ _
  have htake : (s.rob.seqs.take keep).Sublist s.rob.seqs := List.take_sublist _ _
  refine ⟨h.capacity_lt, h.head_lt, hmin.trans h.count_le,
    (Nat.add_le_add_left hmin _).trans h.head_count_le, h.nextSeq, ?_, ?_⟩
  · change (s.rob.dropTo keep).2.seqs.Pairwise (· < ·)
    rw [seqs_dropTo]
    exact h.sorted.sublist htake
  · change ∀ q ∈ (s.rob.dropTo keep).2.seqs, _
    rw [seqs_dropTo]
    exact fun q hq => h.below q (htake.subset hq)

theorem apply (ha : s.Admits a) (hlen : (s.apply a).stamps.length ≤ 4294967296) :
    (s.apply a).Aged := by
  have hbound := h.head_count_le
  have hcount := h.count_le
  cases a with
  | allocate e =>
    simp only [Stamped.apply, List.length_append, List.length_cons, List.length_nil] at hlen
    have hne : s.rob.count ≠ s.rob.capacity := by simpa [full] using ha rfl
    have hseqs := seqs_allocate (r := s.rob) (by omega) (by omega) e
    have hnext : s.rob.nextSeq = s.stamps.length := by rw [h.nextSeq, u32_of_lt (by omega)]
    refine ⟨h.capacity_lt, h.head_lt, ?_, ?_, ?_, ?_, ?_⟩
    · change s.rob.count + 1 ≤ s.rob.capacity
      omega
    · change s.rob.headSlot + (s.rob.count + 1) ≤ (s.stamps ++ [s.rob.nextSeq]).length
      rw [List.length_append, List.length_cons, List.length_nil]
      omega
    · change u32 (s.rob.nextSeq + 1) = u32 (s.stamps ++ [s.rob.nextSeq]).length
      rw [hnext, List.length_append, List.length_cons, List.length_nil]
    · change (s.rob.allocate e).2.seqs.Pairwise (· < ·)
      rw [hseqs, List.pairwise_append]
      refine ⟨h.sorted, List.pairwise_singleton _ _, fun q hq p hp => ?_⟩
      rw [List.mem_singleton.mp hp, hnext]
      exact h.below q hq
    · change ∀ q ∈ (s.rob.allocate e).2.seqs, q < (s.stamps ++ [s.rob.nextSeq]).length
      rw [hseqs, List.length_append, List.length_cons, List.length_nil]
      intro q hq
      cases List.mem_append.mp hq with
      | inl hq => exact (h.below q hq).trans (Nat.lt_succ_self _)
      | inr hq =>
        rw [List.mem_singleton.mp hq, hnext]
        exact Nat.lt_succ_self _
  | complete idx =>
    have hseqs : (s.rob.modify idx fun e => { e with complete := true }).seqs = s.rob.seqs :=
      seqs_modify fun _ => rfl
    exact ⟨h.capacity_lt, h.head_lt, h.count_le, h.head_count_le, h.nextSeq, hseqs.symm ▸ h.sorted,
      hseqs.symm ▸ h.below⟩
  | popHeadIfComplete =>
    simp only [Stamped.apply] at hlen ⊢
    cases hp : s.rob.popHeadIfComplete with
    | none => exact h
    | some p =>
      obtain ⟨hle, hlt, hc, hcap, hnext, hseqs⟩ := seqs_pop (by omega) h.head_lt h.capacity_lt hp
      refine ⟨hcap ▸ h.capacity_lt, hcap ▸ hlt, ?_, ?_, hnext.trans h.nextSeq, ?_, ?_⟩
      · change p.2.count ≤ p.2.capacity
        omega
      · change p.2.headSlot + p.2.count ≤ s.stamps.length
        omega
      · change p.2.seqs.Pairwise (· < ·)
        rw [hseqs]
        exact h.sorted.sublist (List.tail_sublist _)
      · change ∀ q ∈ p.2.seqs, _
        rw [hseqs]
        exact fun q hq => h.below q (List.mem_of_mem_tail hq)
  | truncateTo idx =>
    simp only [Stamped.apply, Rob.truncateTo]
    split
    · exact h.dropTo _
    · exact h
  | squashAll => exact h.dropTo 0

end Stamped.Aged

theorem stamps_apply (s : Stamped) (a : Action) :
    (s.apply a).stamps = s.stamps ++ (if a.isAllocate then [s.rob.nextSeq] else []) ∧
      (s.apply a).rob.nextSeq = (if a.isAllocate then u32 (s.rob.nextSeq + 1)
        else s.rob.nextSeq) := by
  cases a with
  | allocate e => exact ⟨rfl, rfl⟩
  | complete idx => exact ⟨(List.append_nil _).symm, rfl⟩
  | popHeadIfComplete =>
    refine ⟨(List.append_nil _).symm, ?_⟩
    simp only [Stamped.apply, popHeadIfComplete]
    split <;> rfl
  | truncateTo idx =>
    refine ⟨(List.append_nil _).symm, ?_⟩
    simp only [Stamped.apply, truncateTo]
    split <;> rfl
  | squashAll => exact ⟨(List.append_nil _).symm, rfl⟩

/-- The numbers stamped by a run count its allocations, modulo 2^32. -/
theorem run_stamps (capacity : ℕ) (acts : List Action) :
    (run capacity acts).stamps = (List.range (acts.countP Action.isAllocate)).map u32 ∧
      (run capacity acts).rob.nextSeq = u32 (acts.countP Action.isAllocate) := by
  induction acts using List.reverseRecOn with
  | nil => exact ⟨rfl, rfl⟩
  | append_singleton acts a ih =>
    obtain ⟨hstamps, hnext⟩ := ih
    obtain ⟨hstamps', hnext'⟩ := stamps_apply (run capacity acts) a
    have hrun : run capacity (acts ++ [a]) = (run capacity acts).apply a :=
      List.foldl_concat _ _ _ _
    rw [hrun, hstamps', hnext', hstamps, hnext, List.countP_append, List.countP_singleton]
    by_cases ha : a.isAllocate = true
    · simp only [ha, if_true, List.range_succ, List.map_append, List.map_cons, List.map_nil,
        true_and]
      simp only [u32, Nat.mod_add_mod]
    · simp [ha]

theorem run_length (capacity : ℕ) (acts : List Action) :
    (run capacity acts).stamps.length = acts.countP Action.isAllocate := by
  rw [(run_stamps capacity acts).1]
  simp

theorem run_aged (h0 : 0 < capacity) (hc : capacity < 4294967296) (hadm : Admitted capacity acts)
    (hlen : acts.countP Action.isAllocate ≤ 4294967296) : (run capacity acts).Aged := by
  induction acts using List.reverseRecOn with
  | nil => exact ⟨hc, h0, Nat.zero_le _, le_refl _, rfl, .nil, by simp [run, seqs]⟩
  | append_singleton acts a ih =>
    obtain ⟨hacts, ha⟩ := Along.concat_iff.mp hadm
    have hrun : run capacity (acts ++ [a]) = (run capacity acts).apply a :=
      List.foldl_concat _ _ _ _
    have hlen' : ((run capacity acts).apply a).stamps.length ≤ 4294967296 := by
      rwa [← hrun, run_length]
    rw [hrun]
    refine (ih hacts (le_trans ?_ hlen)).apply ha hlen'
    rw [List.countP_append]
    exact Nat.le_add_right _ _

/-- After 2^32 allocations the first number comes back. -/
theorem run_repeats (capacity : ℕ) (hlen : 4294967296 < acts.countP Action.isAllocate) :
    ¬(run capacity acts).stamps.Nodup := by
  rw [(run_stamps capacity acts).1]
  intro hnodup
  have hinj := List.inj_on_of_nodup_map hnodup (List.mem_range.mpr (show 0 < _ by omega))
    (List.mem_range.mpr hlen) rfl
  contradiction

/-- Sequence numbers order instructions by age exactly as long as at most 2^32 are handed out. -/
theorem run_ordered_iff (capacity : ℕ) (acts : List Action) (h0 : 0 < capacity)
    (hc : capacity < 4294967296)
    (hadm : Admitted capacity acts) :
    (run capacity acts).Ordered ↔ acts.countP Action.isAllocate ≤ 4294967296 := by
  constructor
  · intro h
    by_contra hlen
    exact run_repeats capacity (Nat.lt_of_not_le hlen) h.unique
  · intro hlen
    refine ⟨?_, (run_aged h0 hc hadm hlen).sorted⟩
    rw [(run_stamps capacity acts).1]
    apply (List.nodup_map_iff_inj_on List.nodup_range).mpr
    intro i hi j hj he
    rw [List.mem_range] at hi hj
    rwa [u32_of_lt (by omega), u32_of_lt (by omega)] at he

theorem run_ordered_iff_twice :
    (run 1 [.allocate {}, .squashAll, .allocate {}]).Ordered ↔
      [Action.allocate {}, .squashAll, .allocate {}].countP Action.isAllocate ≤ 4294967296 :=
  run_ordered_iff 1 _ (by decide) (by decide) ⟨fun _ => by decide, fun h => by contradiction,
    fun _ => by decide, trivial⟩

/-- One entry allocated and squashed, `n` times over. -/
def churning (n : ℕ) : List Action := (List.replicate n [Action.allocate {}, .squashAll]).flatten

private theorem churning_admitted (n : ℕ) (hs : s.rob.capacity = 1) (hs' : s.rob.count = 0) :
    Along Stamped.apply Stamped.Admits s (churning n) := by
  induction n generalizing s with
  | zero => exact .nil
  | succ n ih =>
    rw [churning, List.replicate_succ, List.flatten_cons]
    refine ⟨fun _ => by simp [full, hs, hs'], fun hfalse => by contradiction, ih hs ?_⟩
    simp [Stamped.apply, squashAll, dropTo]

/-- One allocation too many, in a buffer of a single entry. -/
theorem churning_not_ordered :
    Admitted 1 (churning 4294967297) ∧ ¬(run 1 (churning 4294967297)).Ordered := by
  refine ⟨churning_admitted _ rfl rfl, fun h => run_repeats 1 ?_ h.unique⟩
  have hcount (n : ℕ) : (churning n).countP Action.isAllocate = n := by
    induction n with
    | zero => rfl
    | succ n ih =>
      rw [churning, List.replicate_succ, List.flatten_cons, List.countP_append]
      rw [churning] at ih
      rw [ih]
      simp [List.countP_cons, Action.isAllocate]
      omega
  rw [hcount]
  omega

end OooCpu.Rob
