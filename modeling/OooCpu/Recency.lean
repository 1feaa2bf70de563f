import Mathlib.Data.List.Nodup

/-! # Recency

A history of uses, newest first. The stamp of an element is the number of its
last use, counted from one; what has never been used has stamp zero. -/
namespace OooCpu

variable {α : Type*} [DecidableEq α]

def stamp : List α → α → ℕ
  | [], _ => 0
  | b :: h, a => if b = a then h.length + 1 else stamp h a

@[simp] theorem stamp_cons_self (a : α) (h : List α) : stamp (a :: h) a = h.length + 1 := if_pos rfl

theorem stamp_cons_of_ne {a b : α} (hne : b ≠ a) (h : List α) : stamp (b :: h) a = stamp h a :=
  if_neg hne

theorem stamp_le_length (h : List α) (a : α) : stamp h a ≤ h.length := by
  induction h with
  | nil => exact Nat.le_refl _
  | cons b h ih =>
    rw [stamp, List.length_cons]
    split
    · exact Nat.le_refl _
    · exact Nat.le_trans ih (Nat.le_succ _)

theorem stamp_pos_iff {h : List α} {a : α} : 0 < stamp h a ↔ a ∈ h := by
  induction h with
  | nil => simp [stamp]
  | cons b h ih =>
    rw [stamp, List.mem_cons]
    by_cases hb : b = a
    · simp [hb]
    · rw [if_neg hb, ih]
      simp [Ne.symm hb]

/-- Different elements were last used at different times. -/
theorem stamp_inj {h : List α} {a b : α} (ha : 0 < stamp h a) (heq : stamp h a = stamp h b) :
    a = b := by
  induction h with
  | nil => simp [stamp] at ha
  | cons c h ih =>
    have hlea := stamp_le_length h a
    have hleb := stamp_le_length h b
    simp only [stamp] at ha heq
    by_cases hca : c = a
    · by_cases hcb : c = b
      · exact hca.symm.trans hcb
      · rw [if_pos hca, if_neg hcb] at heq
        omega
    · by_cases hcb : c = b
      · rw [if_neg hca, if_pos hcb] at heq
        omega
      · rw [if_neg hca] at ha heq
        rw [if_neg hcb] at heq
        exact ih ha heq

/-- What has been used since the last use of `a`. -/
theorem mem_takeWhile_iff {h : List α} {a b : α} :
    b ∈ h.takeWhile (· ≠ a) ↔ stamp h a < stamp h b := by
  induction h with
  | nil => simp [stamp]
  | cons c h ih =>
    have hle := stamp_le_length h b
    by_cases hca : c = a
    · subst hca
      rw [List.takeWhile_cons_of_neg (by simp), stamp_cons_self]
      by_cases hcb : c = b
      · simp [hcb]
      · rw [stamp_cons_of_ne hcb]
        simp only [List.not_mem_nil, false_iff]
        omega
    · rw [List.takeWhile_cons_of_pos (by simp [hca]), List.mem_cons, stamp_cons_of_ne hca, ih]
      by_cases hcb : c = b
      · subst hcb
        have hlea := stamp_le_length h a
        simp only [true_or, stamp_cons_self, true_iff]
        omega
      · rw [stamp_cons_of_ne hcb]
        simp [Ne.symm hcb]

end OooCpu
