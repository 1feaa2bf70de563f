import Mathlib.Data.List.Forall2
import Mathlib.Data.List.Nodup
import Mathlib.Data.List.FinRange

/-! # Pointwise updates seen through lists of keys

A table is a function from keys; a list of keys lists some of its entries.
Overwriting one key replaces the one entry it lists, or none. -/
namespace OooCpu

variable {κ α : Type*} [DecidableEq κ]

/-- Overwriting a key that is not listed leaves the entries alone. -/
theorem map_update_of_notMem {xs : List κ} {k : κ} (f : κ → α) (a : α) (h : k ∉ xs) :
    xs.map (fun j => if j = k then a else f j) = xs.map f := by
  apply List.map_congr_left
  intro j hj
  have hne : j ≠ k := fun he => h (he ▸ hj)
  simp [hne]

/-- Overwriting a listed key replaces one entry and keeps the order. -/
theorem map_update_of_split {pre post : List κ} {k : κ} (f : κ → α) (a : α)
    (h : (pre ++ k :: post).Nodup) :
    (pre ++ k :: post).map (fun j => if j = k then a else f j) = pre.map f ++ a :: post.map f := by
  have hpre : k ∉ pre := fun hm => (List.nodup_append.mp h).2.2 k hm k List.mem_cons_self rfl
  have hpost : k ∉ post := (List.nodup_cons.mp (List.nodup_append.mp h).2.1).1
  rw [List.map_append, List.map_cons, map_update_of_notMem f a hpre, map_update_of_notMem f a hpost]
  simp

/-- Overwriting one key trades the old entry for the new one. -/
theorem map_update_perm {xs : List κ} {k : κ} (f : κ → α) (a : α) (hn : xs.Nodup) (hk : k ∈ xs) :
    (f k :: xs.map fun j => if j = k then a else f j).Perm (a :: xs.map f) := by
  obtain ⟨pre, post, rfl⟩ := List.append_of_mem hk
  rw [map_update_of_split f a hn, List.map_append, List.map_cons]
  calc (f k :: (pre.map f ++ a :: post.map f)).Perm (f k :: a :: (pre.map f ++ post.map f)) :=
        List.Perm.cons _ List.perm_middle
    _ |>.Perm (a :: f k :: (pre.map f ++ post.map f)) := List.Perm.swap _ _ _
    _ |>.Perm (a :: (pre.map f ++ f k :: post.map f)) := List.Perm.cons _ List.perm_middle.symm

/-- Overwriting a place that a filter passes over adds the new entry to what it keeps. -/
theorem filter_set_perm {xs : List α} {i : ℕ} {a : α} (b : α) {p : α → Bool} (h : xs[i]? = some a)
    (hp : p a = false) : ((xs.set i b).filter p).Perm ([b].filter p ++ xs.filter p) := by
  induction xs generalizing i with
  | nil => simp at h
  | cons x xs ih =>
    cases i with
    | zero =>
      obtain rfl : x = a := by simpa using h
      rw [List.set_cons_zero, ← List.singleton_append, List.filter_append,
        List.filter_cons_of_neg (a := x) (by simp [hp])]
    | succ i =>
      have hrest := ih (i := i) (by simpa using h)
      rw [List.set_cons_succ]
      by_cases hx : p x = true
      · rw [List.filter_cons_of_pos hx, List.filter_cons_of_pos hx]
        exact (hrest.cons x).trans List.perm_middle.symm
      · rwa [List.filter_cons_of_neg hx, List.filter_cons_of_neg hx]

section Members
variable {P : α → Prop} {xs pre post : List α} {a b : α}

theorem forall_mem_concat (h : ∀ x ∈ xs, P x) (hb : P b) : ∀ x ∈ xs ++ [b], P x :=
  List.forall_mem_append.mpr ⟨h, List.forall_mem_singleton.mpr hb⟩

theorem mem_of_split (hxs : xs = pre ++ a :: post) (hb : b ∈ pre ∨ b ∈ post) : b ∈ xs := by
  rw [hxs, List.mem_append, List.mem_cons]
  exact hb.imp_right .inr

/-- Cutting behind an element drops others only. -/
theorem mem_of_mem_front (hxs : xs = pre ++ a :: post) (hb : b ∈ pre ++ [a]) : b ∈ xs := by
  rw [hxs, List.append_cons]
  exact List.mem_append_left _ hb

theorem forall_mem_split (hrest : ∀ x, x ∈ pre ∨ x ∈ post → P x) (hb : P b) :
    ∀ x ∈ pre ++ b :: post, P x := by
  intro x hx
  rw [List.mem_append, List.mem_cons] at hx
  rcases hx with hx | rfl | hx
  · exact hrest x (.inl hx)
  · exact hb
  · exact hrest x (.inr hx)

/-- What holds of all elements still does when one is traded for another it holds of. -/
theorem forall_mem_replace (hxs : xs = pre ++ a :: post) (h : ∀ x ∈ xs, P x) (hb : P b) :
    ∀ x ∈ pre ++ b :: post, P x := forall_mem_split (fun x hx => h x (mem_of_split hxs hx)) hb

end Members

section Related
variable {β γ σ : Type*} {R : α → β → Prop} {xs : List α} {ys : List β}

/-- Related lists select and read alike when related elements do. -/
theorem map_filter_of_forall₂ {p : α → Bool} {q : β → Bool} {f : α → γ} {g : β → γ}
    (h : List.Forall₂ R xs ys)
    (hR : ∀ a ∈ xs, ∀ b, R a b → p a = q b ∧ (p a = true → f a = g b)) :
    (xs.filter p).map f = (ys.filter q).map g := by
  induction h with
  | nil => rfl
  | @cons a b xs ys hab _ ih =>
    obtain ⟨hp, hf⟩ := hR a List.mem_cons_self b hab
    have hrest := ih fun c hc => hR c (List.mem_cons_of_mem _ hc)
    by_cases ha : p a = true
    · rw [List.filter_cons_of_pos ha, List.filter_cons_of_pos (hp ▸ ha), List.map_cons,
        List.map_cons, hf ha, hrest]
    · rw [List.filter_cons_of_neg ha, List.filter_cons_of_neg (hp ▸ ha), hrest]

/-- Related lists lead a fold to the same state when related elements do. -/
theorem foldl_of_forall₂ {step : σ → α → σ} {step' : σ → β → σ} (h : List.Forall₂ R xs ys)
    (hR : ∀ a ∈ xs, ∀ b, R a b → ∀ s, step s a = step' s b) (s : σ) :
    xs.foldl step s = ys.foldl step' s := by
  induction h generalizing s with
  | nil => rfl
  | @cons a b xs ys hab _ ih =>
    rw [List.foldl_cons, List.foldl_cons, hR a List.mem_cons_self b hab,
      ih fun c hc => hR c (List.mem_cons_of_mem _ hc)]

/-- A place in one of two related lists is a place in the other. -/
theorem forall₂_split {pre post : List α} {a : α} (h : List.Forall₂ R (pre ++ a :: post) ys) :
    ∃ pre' b post', ys = pre' ++ b :: post' ∧ List.Forall₂ R pre pre' ∧ R a b ∧
      List.Forall₂ R post post' := by
  induction pre generalizing ys with
  | nil =>
    obtain ⟨b, post', hab, hpost, rfl⟩ := List.forall₂_cons_left_iff.mp h
    exact ⟨[], b, post', rfl, .nil, hab, hpost⟩
  | cons c pre ih =>
    obtain ⟨d, rest, hcd, hrest, rfl⟩ := List.forall₂_cons_left_iff.mp h
    obtain ⟨pre', b, post', rfl, hpre, hab, hpost⟩ := ih hrest
    exact ⟨d :: pre', b, post', rfl, .cons hcd hpre, hab, hpost⟩

end Related

end OooCpu
