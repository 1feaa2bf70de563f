import Mathlib.Data.List.Nodup

/-! # The last write to an address

A list of writes, oldest first, as a partial function from addresses to values:
each address holds what was last written to it. -/
namespace OooCpu

variable {α β σ : Type*} [DecidableEq α]

/-- The value the writes leave at `a`, if one of them is to `a`. -/
def lastWrite (ws : List (α × β)) (a : α) : Option β :=
  ws.foldl (fun old w => if w.1 = a then some w.2 else old) none

theorem foldl_lastWrite (ws : List (α × β)) (a : α) (old : Option β) :
    ws.foldl (fun old w => if w.1 = a then some w.2 else old) old = (lastWrite ws a).or old := by
  induction ws generalizing old with
  | nil => rfl
  | cons w ws ih =>
    rw [lastWrite, List.foldl_cons, List.foldl_cons, ih, ih]
    by_cases hw : w.1 = a <;> simp [hw]

@[simp] theorem lastWrite_nil (a : α) : lastWrite ([] : List (α × β)) a = none := rfl

theorem lastWrite_append (ws ws' : List (α × β)) (a : α) :
    lastWrite (ws ++ ws') a = (lastWrite ws' a).or (lastWrite ws a) := by
  rw [lastWrite, List.foldl_append, foldl_lastWrite ws']
  rfl

theorem lastWrite_singleton (w : α × β) (a : α) : lastWrite [w] a = if w.1 = a then some w.2
    else none := rfl

theorem lastWrite_cons (w : α × β) (ws : List (α × β)) (a : α) :
    lastWrite (w :: ws) a = (lastWrite ws a).or (if w.1 = a then some w.2 else none) := by
  rw [← List.singleton_append, lastWrite_append, lastWrite_singleton]

theorem lastWrite_eq_none {ws : List (α × β)} {a : α} (h : ¬∃ w ∈ ws, w.1 = a) :
    lastWrite ws a = none := by
  induction ws with
  | nil => rfl
  | cons w ws ih =>
    have hw : w.1 ≠ a := fun heq => h ⟨w, List.mem_cons_self, heq⟩
    have hrest : ¬∃ x ∈ ws, x.1 = a := fun ⟨x, hx, heq⟩ => h ⟨x, List.mem_cons_of_mem _ hx, heq⟩
    rw [lastWrite_cons, ih hrest, if_neg hw, Option.none_or]

/-- What is written to an address is left by one of the writes to it. -/
theorem exists_lastWrite {ws : List (α × β)} {a : α} (h : ∃ w ∈ ws, w.1 = a) :
    ∃ w ∈ ws, w.1 = a ∧ lastWrite ws a = some w.2 := by
  induction ws with
  | nil =>
    obtain ⟨w, hw, -⟩ := h
    exact absurd hw List.not_mem_nil
  | cons w ws ih =>
    rw [lastWrite_cons]
    by_cases hlater : ∃ x ∈ ws, x.1 = a
    · obtain ⟨x, hx, hxa, hlast⟩ := ih hlater
      exact ⟨x, List.mem_cons_of_mem _ hx, hxa, by rw [hlast, Option.some_or]⟩
    · obtain ⟨x, hx, hxa⟩ := h
      rcases List.mem_cons.mp hx with rfl | hx
      · have hnone : lastWrite ws a = none := lastWrite_eq_none hlater
        exact ⟨x, List.mem_cons_self, hxa, by rw [hnone, Option.none_or, if_pos hxa]⟩
      · exact absurd ⟨x, hx, hxa⟩ hlater

/-- Values that are translated address by address are found translated. -/
theorem lastWrite_map {γ : Type*} (f : α → β → γ) (ws : List (α × β)) (a : α) :
    lastWrite (ws.map fun w => (w.1, f w.1 w.2)) a = (lastWrite ws a).map (f a) := by
  induction ws with
  | nil => rfl
  | cons w ws ih =>
    rw [List.map_cons, lastWrite_cons, lastWrite_cons, ih, Option.map_or]
    by_cases hw : w.1 = a
    · rw [if_pos hw, if_pos hw, hw, Option.map_some]
    · rw [if_neg hw, if_neg hw, Option.map_none]

/-- A store whose writes change one address each holds the last write everywhere. -/
theorem foldl_read {read : σ → α → β} {write : σ → α → β → σ}
    (hstep : ∀ s a b v, read (write s a v) b = if b = a then v else read s b) (ws : List (α × β))
    (s : σ) (a : α) :
    read (ws.foldl (fun s w => write s w.1 w.2) s) a = (lastWrite ws a).getD (read s a) := by
  induction ws generalizing s with
  | nil => rfl
  | cons w ws ih =>
    rw [List.foldl_cons, ih, hstep, lastWrite_cons]
    by_cases hw : w.1 = a
    · rw [if_pos hw.symm, if_pos hw]
      cases lastWrite ws a <;> rfl
    · rw [if_neg (Ne.symm hw), if_neg hw, Option.or_none]

end OooCpu
