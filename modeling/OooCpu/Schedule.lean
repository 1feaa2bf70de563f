import Mathlib.Algebra.BigOperators.Ring.Finset
import Mathlib.Algebra.Order.BigOperators.Group.Finset
import Mathlib.Order.Interval.Finset.Nat

/-! # Bounds on a schedule

Jobs that start and finish. Those that wait for each other take at least as long
as their members together, and those that share machines fill no more than the
machines have time for. -/
namespace OooCpu.Schedule
variable {α : Type*} {r : α → α → Prop} {cost start finish : α → ℕ} {a b : α} {jobs : List α}
    {n lo hi m t : ℕ}

/-- A chain from one job to another, each waiting for the one before, and what its members cost
together. -/
inductive Chain (r : α → α → Prop) (cost : α → ℕ) : α → α → ℕ → Prop
  | single (a : α) : Chain r cost a a (cost a)
  | cons {a b c : α} {n : ℕ} (first : r a b) (rest : Chain r cost b c n) :
      Chain r cost a c (cost a + n)

/-- When jobs take at least their cost and wait for those they depend on, a chain takes the sum of
its costs. -/
theorem Chain.start_add_le (hcost : ∀ a, start a + cost a ≤ finish a)
    (hr : ∀ a b, r a b → finish a ≤ start b)
    (h : Chain r cost a b n) : start a + n ≤ finish b := by
  induction h with
  | single a => exact hcost a
  | @cons a b c n hab _ ih =>
    have hfirst : start a + cost a ≤ start b := Nat.le_trans (hcost a) (hr a b hab)
    calc start a + (cost a + n) = start a + cost a + n := (Nat.add_assoc _ _ _).symm
      _ ≤ start b + n := Nat.add_le_add_right hfirst n
      _ ≤ finish c := ih

/-- How many jobs are under way at a time. -/
def load (start finish : α → ℕ) (jobs : List α) (t : ℕ) : ℕ :=
  jobs.countP fun a => start a ≤ t ∧ t < finish a

/-- The durations add up to the load over time. -/
theorem sum_durations (h : ∀ a ∈ jobs, lo ≤ start a ∧ finish a ≤ hi) :
    (jobs.map fun a => finish a - start a).sum = ∑ t ∈ Finset.Ico lo hi,
      load start finish jobs t := by
  induction jobs with
  | nil => simp [load]
  | cons a jobs ih =>
    obtain ⟨hlo, hhi⟩ := h a List.mem_cons_self
    have hspan : (Finset.Ico lo hi).filter (fun t => start a ≤ t ∧ t < finish a) =
        Finset.Ico (start a) (finish a) := by
      ext t
      simp only [Finset.mem_filter, Finset.mem_Ico]
      omega
    have hone : finish a - start a = ∑ t ∈ Finset.Ico lo hi, if start a ≤ t ∧ t < finish a then 1
        else 0 := by
      rw [← Finset.card_filter, hspan, Nat.card_Ico]
    rw [List.map_cons, List.sum_cons, ih fun b hb => h b (List.mem_cons_of_mem _ hb),
      hone, ← Finset.sum_add_distrib]
    refine Finset.sum_congr rfl fun t _ => ?_
    simp only [load, List.countP_cons, decide_eq_true_eq]
    exact Nat.add_comm _ _

/-- Jobs of which at most `m` are under way at a time add up to no more than `m` machines do in the
time there is. -/
theorem sum_durations_le (h : ∀ a ∈ jobs, lo ≤ start a ∧ finish a ≤ hi)
    (hload : ∀ t, load start finish jobs t ≤ m) :
    (jobs.map fun a => finish a - start a).sum ≤ m * (hi - lo) := by
  calc (jobs.map fun a => finish a - start a).sum
      = ∑ t ∈ Finset.Ico lo hi, load start finish jobs t := sum_durations h
    _ ≤ ∑ _t ∈ Finset.Ico lo hi, m := Finset.sum_le_sum fun t _ => hload t
    _ = m * (hi - lo) := by rw [Finset.sum_const, Nat.card_Ico, Nat.nsmul_eq_mul, Nat.mul_comm]

end OooCpu.Schedule
