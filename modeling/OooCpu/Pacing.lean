import Mathlib.Data.List.Count
import Mathlib.Data.List.Perm.Subperm

/-! # Deadlines set at a limited rate

At most `rate` deadlines are set in a moment, each at most `span` moments ahead.
However they are spread, fewer than `rate * span` are outstanding while the rate of
the moment is not used up. -/
namespace OooCpu.Pacing

variable {rate span now spent spent' n t d : ℕ} {ts us : List ℕ}

/-- What is outstanding at moment `now`, of which `spent` may have been set in this moment. -/
def Paced (rate span now spent : ℕ) (ts : List ℕ) : Prop :=
  ∀ d, ts.countP (fun t => now + d < t) ≤ rate * (span - (d + 1)) + if d < span then spent else 0

namespace Paced

theorem of_le (h : ∀ t ∈ ts, t ≤ now) : Paced rate span now spent ts := fun d => by
  rw [List.countP_eq_zero.mpr fun t ht => by have := h t ht; simp only [decide_eq_true_eq]; omega]
  exact Nat.zero_le _

variable (h : Paced rate span now spent ts)
include h

theorem mono (hle : spent ≤ spent') : Paced rate span now spent' ts := fun d => by
  have hd := h d
  split at hd <;> split <;> omega

/-- Deadlines may be given up. -/
theorem of_countP_le (hle : ∀ d, us.countP (fun t => now + d < t) ≤ ts.countP fun t => now + d <
    t) : Paced rate span now spent us := fun d => Nat.le_trans (hle d) (h d)

theorem subperm (hsub : us.Subperm ts) : Paced rate span now spent us :=
  h.of_countP_le fun _ => hsub.countP_le _

/-- One more deadline within the span. -/
theorem push (ht : t ≤ now + span)
    (hle : ∀ d, us.countP (fun t => now + d < t) ≤ ts.countP (fun t => now + d < t) + if now + d < t
      then 1 else 0) : Paced rate span now (spent + 1) us := fun d => by
  have hd := h d
  have hpush := hle d
  split at hd <;> split at hpush <;> split <;> omega

/-- The next moment has its whole rate left. -/
theorem next (hspent : spent ≤ rate) : Paced rate span (now + 1) 0 ts := fun d => by
  have hd := h (d + 1)
  have hmoment : now + (d + 1) = now + 1 + d := by omega
  rw [hmoment] at hd
  refine Nat.le_trans hd ?_
  split
  · rename_i hlt
    obtain ⟨m, hm⟩ : ∃ m, span - (d + 1) = m + 1 := ⟨span - (d + 2), by omega⟩
    rw [hm, show span - (d + 1 + 1) = m by omega, Nat.mul_succ]
    omega
  · rw [show span - (d + 1 + 1) = 0 by omega]
    omega

/-- While the rate is not used up, fewer deadlines are outstanding than the whole span may set. -/
theorem outstanding_lt (hspent : spent < rate) (hspan : 0 < span) :
    ts.countP (fun t => now < t) < rate * span := by
  have hzero := h 0
  obtain ⟨m, rfl⟩ := Nat.exists_eq_add_one.mpr hspan
  rw [if_pos (Nat.succ_pos m), show m + 1 - (0 + 1) = m by omega, Nat.add_zero] at hzero
  rw [Nat.mul_succ]
  omega

/-- Nor can all that is due at one moment use up the span. -/
theorem due_lt (hspent : spent < rate) (hd : d < span) : ts.count (now + d + 1) < rate * span := by
  have hdue : ts.count (now + d + 1) ≤ ts.countP fun t => now + d < t := by
    rw [List.count_eq_countP]
    exact List.countP_mono_left fun t _ ht => by
      rw [beq_iff_eq] at ht
      simp only [decide_eq_true_eq]
      omega
  have hcount := h d
  rw [if_pos hd] at hcount
  have hmul : rate * (span - (d + 1)) + rate ≤ rate * span := by
    rw [← Nat.mul_succ]
    exact Nat.mul_le_mul_left rate (by omega)
  omega

end Paced

end OooCpu.Pacing
