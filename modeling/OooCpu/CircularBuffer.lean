import Mathlib.Data.List.Nodup
import Mathlib.Data.List.Range
import Mathlib.Data.Nat.ModEq
import Mathlib.Tactic.Ring

/-! # Circular buffers as lists

The live positions of a ring of `cap` slots, oldest first: `count` slots from
`head` on, wrapping modulo `cap`. A ring that is appended to at its tail, popped
at its head and truncated from its tail behaves as the list of these positions. -/
namespace OooCpu.CircularBuffer

/-- The live slots from head to tail. -/
def positions (cap head count : ℕ) : List ℕ := (List.range count).map fun k => (head + k) % cap

@[simp] theorem positions_length (cap head count : ℕ) :
    (positions cap head count).length = count := by
  simp [positions]

@[simp] theorem positions_zero (cap head : ℕ) : positions cap head 0 = [] := rfl

/-- Appending takes the slot behind the youngest. -/
theorem positions_succ (cap head count : ℕ) :
    positions cap head (count + 1) = positions cap head count ++ [(head + count) % cap] := by
  simp [positions, List.range_succ]

/-- Popping removes the head and keeps every other entry in its slot. -/
theorem positions_pop (cap head count : ℕ) :
    positions cap head (count + 1) = head % cap :: positions cap ((head + 1) % cap) count := by
  simp only [positions, List.range_succ_eq_map, List.map_cons, List.map_map, Nat.add_zero]
  congr 1
  apply List.map_congr_left
  intro k _
  simp only [Function.comp_apply, Nat.succ_eq_add_one, Nat.mod_add_mod]
  congr 1
  ring

theorem positions_getElem? {cap head count k : ℕ} (h : k < count) :
    (positions cap head count)[k]? = some ((head + k) % cap) := by
  simp [positions, h]

theorem lt_of_mem_positions {cap head count i : ℕ} (hcap : 0 < cap)
    (h : i ∈ positions cap head count) : i < cap := by
  obtain ⟨k, _, rfl⟩ := List.mem_map.mp h
  exact Nat.mod_lt _ hcap

private theorem add_mod_injOn {cap head i j : ℕ} (hi : i < cap) (hj : j < cap)
    (h : (head + i) % cap = (head + j) % cap) : i = j := by
  have hm : i ≡ j [MOD cap] := Nat.ModEq.add_left_cancel' head h
  simpa [Nat.ModEq, Nat.mod_eq_of_lt hi, Nat.mod_eq_of_lt hj] using hm

/-- Distinct ages are distinct slots as long as the ring is not overfull. -/
theorem positions_nodup {cap head count : ℕ} (h : count ≤ cap) :
    (positions cap head count).Nodup := by
  apply (List.nodup_map_iff_inj_on List.nodup_range).mpr
  intro i hi j hj he
  exact add_mod_injOn (by have := List.mem_range.mp hi; omega)
    (by have := List.mem_range.mp hj; omega) he

/-- Distance of a slot from the head. -/
def age (cap head i : ℕ) : ℕ := (i + cap - head) % cap

theorem add_age {cap head i : ℕ} (hh : head < cap) (hi : i < cap) :
    (head + age cap head i) % cap = i := by
  rw [age, Nat.add_mod_mod, show head + (i + cap - head) = i + cap by omega, Nat.add_mod_right,
    Nat.mod_eq_of_lt hi]

theorem age_position {cap head k : ℕ} (hh : head < cap) (hk : k < cap) :
    age cap head ((head + k) % cap) = k := by
  have hlt : age cap head ((head + k) % cap) < cap := Nat.mod_lt _ (by omega)
  exact add_mod_injOn hlt hk (add_age hh (Nat.mod_lt _ (by omega)))

/-- A slot is live exactly when it is closer to the head than the live count. -/
theorem mem_positions_iff {cap head count i : ℕ} (hh : head < cap) (hc : count ≤ cap)
    (hi : i < cap) : i ∈ positions cap head count ↔ age cap head i < count := by
  constructor
  · intro h
    obtain ⟨k, hk, rfl⟩ := List.mem_map.mp h
    have hk' := List.mem_range.mp hk
    rwa [age_position hh (by omega)]
  · intro h
    exact List.mem_map.mpr ⟨_, List.mem_range.mpr h, add_age hh hi⟩

/-- Dropping entries from the tail leaves a front part of the list. -/
theorem positions_append_drop {cap head keep count : ℕ} (h : keep ≤ count) :
    positions cap head count =
      positions cap head keep ++ (List.range' keep (count - keep)).map fun k =>
        (head + k) % cap := by
  have hsplit : List.range count = List.range keep ++ List.range' keep (count - keep) := by
    have h' := @List.range'_append_1 0 keep (count - keep)
    rw [Nat.zero_add, Nat.add_sub_cancel' h] at h'
    rw [List.range_eq_range', List.range_eq_range', h']
  rw [positions, positions, hsplit, List.map_append]

end OooCpu.CircularBuffer
