import Mathlib.Logic.Function.Iterate
import Mathlib.Order.Monotone.Basic

/-! # Work that is bounded comes to rest

A step that undoes no work and has only so much to do comes to rest, so a goal is
reached by every run that cannot rest short of it. -/
namespace OooCpu.BoundedWork

variable {σ : Type*} {step : σ → σ} {work : σ → ℕ} {goal : σ → Prop} {s : σ} {bound : ℕ}

variable (step work) in
/-- From here on no step does any work. -/
def Resting (s : σ) : Prop := ∀ j, work (step^[j] s) = work s

namespace Resting

theorem step_work (h : Resting step work s) : work (step s) = work s := h 1

theorem iterate (h : Resting step work s) (j : ℕ) : Resting step work (step^[j] s) := by
  intro i
  rw [← Function.iterate_add_apply, h, h]

end Resting

/-- A run whose work is bounded short of the goal reaches it unless it rests short of it. -/
theorem reaches (hmono : ∀ s, work s ≤ work (step s))
    (hbound : ∀ k, ¬goal (step^[k] s) → work (step^[k] s) ≤ bound)
    (hrest : ∀ k, Resting step work (step^[k] s) → ∃ j, goal (step^[j] s)) :
    ∃ k, goal (step^[k] s) := by
  by_contra hnever
  rw [not_exists] at hnever
  have hmono' : Monotone fun k => work (step^[k] s) := monotone_nat_of_le_succ fun k => by
    rw [Function.iterate_succ_apply']
    exact hmono _
  obtain ⟨b, n, hconst⟩ := converges_of_monotone_of_bounded hmono' fun k => hbound k (hnever k)
  have hresting : Resting step work (step^[n] s) := fun j => by
    rw [← Function.iterate_add_apply]
    exact (hconst _ (by omega)).trans (hconst n le_rfl).symm
  obtain ⟨j, hj⟩ := hrest n hresting
  exact hnever j hj

end OooCpu.BoundedWork
