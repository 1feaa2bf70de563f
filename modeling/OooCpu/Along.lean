import Mathlib.Data.List.Basic

/-! # Obligations along a fold

A list whose elements each meet an obligation in the state that the elements
before them lead to. Such a list can be extended, cut and patched in place. -/
namespace OooCpu

variable {σ α β : Type*} {step : σ → α → σ} {ok ok' : σ → α → Prop} {s : σ} {a b : α}
    {xs ys : List α}

/-- Every element of the list meets its obligation in the state the elements before it lead to. -/
def Along (step : σ → α → σ) (ok : σ → α → Prop) : σ → List α → Prop
  | _, [] => True
  | s, a :: rest => ok s a ∧ Along step ok (step s a) rest

namespace Along

@[simp] theorem nil : Along step ok s [] := trivial

theorem of_forall (h : ∀ s a, ok s a) : Along step ok s xs := by
  induction xs generalizing s with
  | nil => exact nil
  | cons a xs ih => exact ⟨h s a, ih⟩

theorem cons_iff : Along step ok s (a :: xs) ↔ ok s a ∧ Along step ok (step s a) xs := Iff.rfl

theorem append_iff :
    Along step ok s (xs ++ ys) ↔ Along step ok s xs ∧ Along step ok (xs.foldl step s) ys := by
  induction xs generalizing s with
  | nil => simp
  | cons a xs ih => simp only [List.cons_append, cons_iff, ih, List.foldl_cons, and_assoc]

theorem concat_iff : Along step ok s (xs ++ [a]) ↔ Along step ok s xs ∧ ok (xs.foldl step s) a := by
  simp [append_iff, cons_iff]

theorem map_iff {f : β → α} {bs : List β} : Along step ok s (bs.map f) ↔
    Along (fun s b => step s (f b)) (fun s b => ok s (f b)) s bs := by
  induction bs generalizing s with
  | nil => exact Iff.rfl
  | cons b bs ih => rw [List.map_cons, cons_iff, cons_iff, ih]

/-- Where an element stands, its obligation holds. -/
theorem at_split (h : Along step ok s (xs ++ a :: ys)) : ok (xs.foldl step s) a :=
  (append_iff.mp h).2.1

/-- An element may be replaced by one that meets the obligation and has the same effect. -/
theorem replace (h : Along step ok s (xs ++ a :: ys)) (hok : ok (xs.foldl step s) b)
    (hstep : step (xs.foldl step s) b = step (xs.foldl step s) a) :
    Along step ok s (xs ++ b :: ys) := by
  obtain ⟨hxs, -, hys⟩ := append_iff.mp h
  exact append_iff.mpr ⟨hxs, hok, by rw [hstep]; exact hys⟩

theorem mono (h : Along step ok s xs) (himp : ∀ t, ∀ a ∈ xs, ok t a → ok' t a) :
    Along step ok' s xs := by
  induction xs generalizing s with
  | nil => exact nil
  | cons a xs ih =>
    exact ⟨himp _ _ List.mem_cons_self h.1,
      ih h.2 fun t b hb => himp t b (List.mem_cons_of_mem _ hb)⟩

/-- Obligations carry over to a state related to the first, when every step keeps the relation. -/
theorem relate {R : σ → σ → Prop} {t : σ} (hstep : ∀ s t a, R s t → R (step s a) (step t a))
    (hok : ∀ s t a, R s t → ok s a → ok t a) (hst : R s t) (h : Along step ok s xs) :
    Along step ok t xs := by
  induction xs generalizing s t with
  | nil => exact nil
  | cons a xs ih => exact ⟨hok s t a hst h.1, ih (hstep s t a hst) h.2⟩

/-- Along a counter, what the obligation fixes of each element is a function of where it stands. -/
theorem map_eq {ok : ℕ → α → Prop} {f : α → β} {g : ℕ → β} {n : ℕ}
    (h : Along (fun m _ => m + 1) ok n xs)
    (hok : ∀ m a, ok m a → f a = g m) : xs.map f = (List.range' n xs.length).map g := by
  induction xs generalizing n with
  | nil => rfl
  | cons a xs ih =>
    rw [List.map_cons, List.length_cons, List.range'_succ, List.map_cons, hok n a h.1, ih h.2]

end Along

/-- An element with the same effect leaves the final state alone. -/
theorem foldl_replace (hstep : step (xs.foldl step s) b = step (xs.foldl step s) a) :
    (xs ++ b :: ys).foldl step s = (xs ++ a :: ys).foldl step s := by
  simp only [List.foldl_append, List.foldl_cons, hstep]

end OooCpu
