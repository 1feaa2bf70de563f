import Mathlib.Data.List.DropRight
import Mathlib.Data.List.Nodup
import OooCpu.Along

/-! # First-in first-out lists whose elements have places

The elements of a list are numbered as they arrive, and every number has a place
for good. A store that keeps its elements in slots holds the list when its live
slots, oldest first, are the places of the elements. -/
namespace OooCpu

section RdropWhile
variable {α β : Type*} {xs : List α} {p : α → Bool}

theorem map_rdropWhile {g : α → β} {q : β → Bool}
    (h : ∀ x ∈ xs, q (g x) = p x) :
    (xs.rdropWhile p).map g = (xs.map g).rdropWhile q := by
  induction xs using List.reverseRecOn with
  | nil => rfl
  | append_singleton xs x ih =>
    obtain ⟨hxs, hx⟩ := List.forall_mem_append.mp h
    rw [List.map_append, List.map_singleton, List.rdropWhile_concat, List.rdropWhile_concat,
      hx x List.mem_cons_self]
    split
    · exact ih hxs
    · rw [List.map_append, List.map_singleton]

/-- Where `p` never fails again behind an element of it, cutting its end off leaves the others. -/
theorem rdropWhile_eq_filter (h : xs.Pairwise fun a b => p a = true → p b = true) :
    xs.rdropWhile p = xs.filter fun a => !p a := by
  induction xs using List.reverseRecOn with
  | nil => rfl
  | append_singleton xs x ih =>
    obtain ⟨hxs, -, hlast⟩ := List.pairwise_append.mp h
    rw [List.rdropWhile_concat, List.filter_append]
    cases hx : p x with
    | true => simp [ih hxs, hx]
    | false =>
      have hkept : ∀ a ∈ xs, (!p a) = true := by
        intro a ha
        have hback := hlast a ha x List.mem_cons_self
        simp_all
      simp [List.filter_eq_self.mpr hkept, hx]

end RdropWhile

/-- Oldest first, each element with its number. -/
structure FifoList (α : Type*) where
  items : List (ℕ × α) := []
  arrived : ℕ := 0

namespace FifoList
variable {α : Type*} {place : ℕ → ℕ} {l : FifoList α} {live pre post : List ℕ} {slots : ℕ → α}
    {i : ℕ} {a : α}

def values (l : FifoList α) : List α := l.items.map Prod.snd

def places (place : ℕ → ℕ) (l : FifoList α) : List ℕ := l.items.map fun x => place x.1

def append (l : FifoList α) (a : α) : FifoList α :=
  { items := l.items ++ [(l.arrived, a)], arrived := l.arrived + 1 }

def removeFirst (l : FifoList α) : FifoList α := { l with items := l.items.tail }

/-- How many elements are not behind the one at place `i`; with none there, none is behind. -/
def upTo (place : ℕ → ℕ) (l : FifoList α) (i : ℕ) : ℕ := (l.places place).idxOf i + 1

def keepUpTo (place : ℕ → ℕ) (l : FifoList α) (i : ℕ) : FifoList α :=
  { l with items := l.items.take (l.upTo place i) }

/-- What `keepUpTo` removes, oldest first. -/
def behind (place : ℕ → ℕ) (l : FifoList α) (i : ℕ) : List α := l.values.drop (l.upTo place i)

/-- Cut off the end for as long as its last element is one of `p`. -/
def dropLastWhile (p : α → Bool) (l : FifoList α) : FifoList α :=
  { l with items := l.items.rdropWhile fun x => p x.2 }

def rewrite (place : ℕ → ℕ) (l : FifoList α) (i : ℕ) (f : α → α) : FifoList α :=
  { l with items := l.items.map fun x => if place x.1 = i then (x.1, f x.2) else x }

def clear (l : FifoList α) : FifoList α := { l with items := [] }

theorem values_dropLastWhile (p : α → Bool) (l : FifoList α) :
    (l.dropLastWhile p).values = l.values.rdropWhile p :=
  map_rdropWhile fun _ _ => rfl

/-- The live slots are the places of the elements, and the elements are in them. -/
structure HeldIn (place : ℕ → ℕ) (live : List ℕ) (slots : ℕ → α) (l : FifoList α) : Prop where
  places : l.places place = live
  values : ∀ x ∈ l.items, slots (place x.1) = x.2

namespace HeldIn
variable (h : HeldIn place live slots l)
include h

theorem map_slots : live.map slots = l.values := by
  rw [← h.places, FifoList.places, FifoList.values, List.map_map]
  exact List.map_congr_left h.values

theorem length_eq : l.items.length = live.length := by
  rw [← h.places, FifoList.places, List.length_map]

theorem append (hplace : place l.arrived = i) (hfresh : i ∉ live) :
    HeldIn place (live ++ [i]) (fun j => if j = i then a else slots j) (l.append a) := by
  refine ⟨?_, fun x hx => ?_⟩
  · simp [FifoList.places, FifoList.append, ← h.places, hplace]
  · cases List.mem_append.mp hx with
    | inl hx =>
      have hne : place x.1 ≠ i := by
        intro he
        refine hfresh (he ▸ ?_)
        rw [← h.places]
        exact List.mem_map_of_mem hx
      rw [if_neg hne]
      exact h.values x hx
    | inr hx => rw [List.mem_singleton.mp hx, if_pos hplace]

theorem take (n : ℕ) : HeldIn place (live.take n) slots { l with items := l.items.take n } := by
  refine ⟨?_, fun x hx => h.values x (List.mem_of_mem_take hx)⟩
  rw [← h.places, FifoList.places, List.map_take]
  rfl

theorem removeFirst (hlive : live = i :: post) : HeldIn place post slots l.removeFirst := by
  refine ⟨?_, fun x hx => h.values x (List.mem_of_mem_tail hx)⟩
  rw [FifoList.places, FifoList.removeFirst, List.map_tail]
  exact (congrArg List.tail h.places).trans (by rw [hlive, List.tail_cons])

theorem upTo_of_split (hlive : live = pre ++ i :: post) (hnodup : live.Nodup) :
    l.upTo place i = (pre ++ [i]).length := by
  have hpre : i ∉ pre := by
    rw [hlive] at hnodup
    exact fun hm => (List.nodup_append.mp hnodup).2.2 i hm i List.mem_cons_self rfl
  rw [upTo, h.places, hlive, List.idxOf_append_of_notMem hpre, List.idxOf_cons_self,
    List.length_append]
  rfl

/-- Cutting behind an element that is there. -/
theorem keepUpTo (hlive : live = pre ++ i :: post) (hnodup : live.Nodup) :
    HeldIn place (pre ++ [i]) slots (l.keepUpTo place i) ∧ l.behind place i = post.map slots := by
  have hsplit : live = (pre ++ [i]) ++ post := by rw [hlive, List.append_assoc]; rfl
  have hupTo := h.upTo_of_split hlive hnodup
  constructor
  · have htake := h.take (l.upTo place i)
    rwa [hupTo, hsplit, List.take_left, ← hupTo] at htake
  · rw [behind, hupTo, ← h.map_slots, hsplit, ← List.map_drop, List.drop_left]

/-- Cutting behind an element that is not there. -/
theorem keepUpTo_of_notMem (hi : i ∉ live) : l.keepUpTo place i = l ∧ l.behind place i = [] := by
  have hupTo : l.items.length ≤ l.upTo place i := by
    rw [upTo, h.places, List.idxOf_of_notMem hi, h.length_eq]
    exact Nat.le_succ _
  constructor
  · rw [FifoList.keepUpTo, List.take_of_length_le hupTo]
  · exact List.drop_of_length_le (by rwa [FifoList.values, List.length_map])

theorem dropLastWhile (p : α → Bool) :
    HeldIn place (live.rdropWhile fun i => p (slots i)) slots (l.dropLastWhile p) := by
  refine ⟨?_, fun x hx => h.values x ((List.rdropWhile_prefix _ _).subset hx)⟩
  rw [← h.places]
  exact map_rdropWhile fun x hx => by rw [h.values x hx]

theorem rewrite (i : ℕ) (f : α → α) :
    HeldIn place live (fun j => if j = i then f (slots i) else slots j) (l.rewrite place i f) := by
  refine ⟨?_, fun x hx => ?_⟩
  · rw [← h.places, FifoList.places, FifoList.rewrite, List.map_map]
    apply List.map_congr_left
    intro x _
    simp only [Function.comp_apply]
    split <;> rfl
  · obtain ⟨y, hy, rfl⟩ := List.mem_map.mp hx
    have hslot := h.values y hy
    split
    · rename_i hi
      rw [← hi, hslot]
    · rename_i hi
      exact hslot

end HeldIn

theorem heldIn_nil (hl : l.items = []) : HeldIn place [] slots l :=
  ⟨by rw [FifoList.places, hl, List.map_nil], by simp [hl]⟩

section Naming
variable {ρ κ : Type*} {step : ρ → κ → ρ} {given : ρ → κ → Option ℕ} {ok : ρ → κ → Prop}
  {holds : (ℕ → ℕ) → ρ → FifoList α → Prop} {agrees : (ℕ → ℕ) → ρ → FifoList α → κ → Prop}
  {plain : (ℕ → ℕ) → FifoList α → κ → FifoList α} {r : ρ} {calls : List κ}

/-- The places that a run hands out, first one first. -/
def handedOut (step : ρ → κ → ρ) (given : ρ → κ → Option ℕ) : ρ → List κ → List ℕ
  | _, [] => []
  | r, c :: calls => (given r c).toList ++ handedOut step given (step r c) calls

/-- A call on the store is the call on the list, whose next element goes to the place handed out. -/
def StepFollows (step : ρ → κ → ρ) (given : ρ → κ → Option ℕ) (ok : ρ → κ → Prop)
    (holds : (ℕ → ℕ) → ρ → FifoList α → Prop) (agrees : (ℕ → ℕ) → ρ → FifoList α → κ → Prop)
    (plain : (ℕ → ℕ) → FifoList α → κ → FifoList α) : Prop :=
  ∀ place r l c, holds place r l → ok r c → (∀ i ∈ given r c, place l.arrived = i) →
    holds place (step r c) (plain place l c) ∧ agrees place r l c ∧
      (plain place l c).arrived = l.arrived + (given r c).toList.length

theorem StepFollows.run (h : StepFollows step given ok holds agrees plain) (hr : holds place r l)
    (hok : Along step ok r calls)
    (hplace : ∀ k i, (handedOut step given r calls)[k]? = some i → place (l.arrived + k) = i) :
    ∀ past, past <+: calls → holds place (past.foldl step r) (past.foldl (plain place) l) ∧
      ∀ c, past ++ [c] <+: calls →
        agrees place (past.foldl step r) (past.foldl (plain place) l) c := by
  induction calls generalizing r l with
  | nil =>
    intro past hpast
    rw [List.prefix_nil.mp hpast]
    exact ⟨hr, fun c hc => by simp at hc⟩
  | cons c calls ih =>
    have hnow : ∀ i ∈ given r c, place l.arrived = i := by
      intro i hi
      apply hplace 0 i
      rw [handedOut, Option.mem_def.mp hi]
      rfl
    obtain ⟨hnext, hagrees, harrived⟩ := h place r l c hr hok.1 hnow
    have hlater : ∀ k i, (handedOut step given (step r c) calls)[k]? = some i →
        place ((plain place l c).arrived + k) = i := by
      intro k i hk
      rw [harrived, Nat.add_assoc]
      apply hplace _ i
      rw [handedOut, List.getElem?_append_right (Nat.le_add_right _ _), Nat.add_sub_cancel_left, hk]
    intro past hpast
    cases past with
    | nil =>
      refine ⟨hr, fun d hd => ?_⟩
      rw [List.nil_append, List.cons_prefix_cons] at hd
      rw [hd.1]
      exact hagrees
    | cons d past =>
      obtain ⟨rfl, htail⟩ := List.cons_prefix_cons.mp hpast
      obtain ⟨hheld, hanswers⟩ := ih hnext hok.2 hlater past htail
      refine ⟨hheld, fun c hc => hanswers c ?_⟩
      rw [List.cons_append, List.cons_prefix_cons] at hc
      exact hc.2

/-- One naming serves all of a run. -/
theorem StepFollows.exists_places (h : StepFollows step given ok holds agrees plain)
    (hr : ∀ place, holds place r {})
    (hok : Along step ok r calls) :
    ∃ place, ∀ past, past <+: calls →
      holds place (past.foldl step r) (past.foldl (plain place) {}) ∧ ∀ c, past ++ [c] <+: calls →
        agrees place (past.foldl step r) (past.foldl (plain place) {}) c := by
  refine ⟨fun n => (handedOut step given r calls).getD n 0, h.run (hr _) hok fun k i hk => ?_⟩
  rw [Nat.zero_add, List.getD_eq_getElem?_getD, hk]
  rfl

end Naming

end FifoList

end OooCpu
