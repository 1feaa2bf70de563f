import Mathlib.Data.List.Count

/-! # Bookings kept in a ring

A ring of `window` counters keeps appointments for the next `window` dates, the
counter of a date standing at its remainder. The ring is a census when every
counter says how many appointments are due. -/
namespace OooCpu.BookingRing

variable {booked due : ℕ → ℕ} {window now a b : ℕ} {dates : List ℕ}

/-- Dates less than a whole ring apart share a counter only if they are equal. -/
theorem slot_inj (ha : now ≤ a) (ha' : a < now + window) (hb : now ≤ b) (hb' : b < now + window)
    (h : a % window = b % window) : a = b := by
  wlog hab : a ≤ b generalizing a b
  · exact (this hb hb' ha ha' h.symm (by omega)).symm
  have hdiff : (b - a) % window = 0 := Nat.sub_mod_eq_zero_of_mod_eq h.symm
  rw [Nat.mod_eq_of_lt (by omega)] at hdiff
  omega

/-- Every counter within reach says how many appointments are due. -/
def Census (booked : ℕ → ℕ) (window now : ℕ) (due : ℕ → ℕ) : Prop :=
  ∀ c, now ≤ c → c < now + window → booked (c % window) = due c

namespace Census

theorem empty (hd : ∀ c, due c = 0) : Census (fun _ => 0) window now due := fun c _ _ => (hd c).symm

variable (h : Census booked window now due)
include h

theorem congr {due' : ℕ → ℕ} (hd : ∀ c, due' c = due c) : Census booked window now due' :=
  fun c hc hc' => (h c hc hc').trans (hd c).symm

theorem book (ha : now ≤ a) (ha' : a < now + window) :
    Census (fun i => if i = a % window then booked i + 1 else booked i) window now
      fun c => if c = a then due c + 1 else due c := by
  intro c hc hc'
  by_cases he : c = a
  · subst he
    simp [h c hc hc']
  · have hslot : c % window ≠ a % window := fun hs => he (slot_inj hc hc' ha ha' hs)
    simp [he, hslot, h c hc hc']

/-- The date that comes into reach takes over the counter of the one that goes by. -/
theorem advance (hold : due now = 0) (hnew : due (now + window) = 0) :
    Census booked window (now + 1) due := by
  intro c hc hc'
  by_cases he : c = now + window
  · subst he
    rw [Nat.add_mod_right, hnew, h now (Nat.le_refl _) (by omega), hold]
  · exact h c (by omega) (by omega)

theorem clear : Census (fun i => if i = now % window then 0 else booked i) window now
    fun c => if c = now then 0 else due c := by
  intro c hc hc'
  by_cases he : c = now
  · simp [he]
  · have hslot : c % window ≠ now % window :=
      fun hs => he (slot_inj hc hc' (Nat.le_refl _) (by omega) hs)
    simp [he, hslot, h c hc hc']

omit h in
private theorem countP_slot (hd : ∀ d ∈ dates, now ≤ d ∧ d < now + window) {c : ℕ} (hc : now ≤ c)
    (hc' : c < now + window) : (dates.countP fun d => d % window = c % window) = dates.count c := by
  apply List.countP_congr
  intro d hm
  obtain ⟨hlow, hhigh⟩ := hd d hm
  simp only [decide_eq_true_eq, beq_iff_eq]
  exact ⟨slot_inj hlow hhigh hc hc', fun he => he ▸ rfl⟩

/-- No counter is asked to give back more than it holds. -/
theorem countP_le (hd : ∀ d ∈ dates, now ≤ d ∧ d < now + window) (hdue : ∀ c, dates.count c ≤ due c)
    (i : ℕ) : (dates.countP fun d => d % window = i) ≤ booked i := by
  by_cases hex : ∃ d ∈ dates, d % window = i
  · obtain ⟨d, hm, rfl⟩ := hex
    obtain ⟨hlow, hhigh⟩ := hd d hm
    rw [countP_slot hd hlow hhigh, h d hlow hhigh]
    exact hdue d
  · have hzero : (dates.countP fun d => d % window = i) = 0 :=
      List.countP_eq_zero.mpr fun d hm hslot =>
      hex ⟨d, hm, by simpa using hslot⟩
    omega

theorem release (hd : ∀ d ∈ dates, now ≤ d ∧ d < now + window) :
    Census (fun i => booked i - dates.countP fun d => d % window = i) window now
      fun c => due c - dates.count c := by
  intro c hc hc'
  simp only [h c hc hc', countP_slot hd hc hc']

end Census

end OooCpu.BookingRing
