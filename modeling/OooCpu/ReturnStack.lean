import Mathlib.Data.List.Forall2
import OooCpu.BranchPredictor

/-! # The return stack is a bounded list

The circular stack behaves as a list that is pushed at its head and forgets what
falls off its end, also across snapshots and restores. -/
namespace OooCpu

/-- A list of at most `n` elements, most recent first. -/
def boundedPush {α : Type*} (n : ℕ) (a : α) (l : List α) : List α := (a :: l).take n

/-- What happens to a return stack. -/
inductive RasCall
  | push (addr : Word)
  | pop
  | snapshot
  /-- Back to the snapshot with this number. -/
  | restore (i : ℕ)

/-- The ideal stack, the stacks that were saved and what the pops returned. -/
structure IdealRas where
  stack : List Word := []
  saved : List (List Word) := []
  popped : List Word := []

namespace IdealRas

def step (n : ℕ) (s : IdealRas) : RasCall → IdealRas
  | .push addr => { s with stack := boundedPush n addr s.stack }
  | .pop => { s with stack := s.stack.tail, popped := s.popped ++ [s.stack.headD 0] }
  | .snapshot => { s with saved := s.saved ++ [s.stack] }
  | .restore i => { s with stack := (s.saved[i]?).getD s.stack }

def run (n : ℕ) (calls : List RasCall) : IdealRas := calls.foldl (step n) {}

end IdealRas

/-- The predictor, the snapshots taken of it and what the pops returned. -/
structure RasRun where
  bpred : BranchPredictor
  saved : List Snapshot := []
  popped : List Word := []

namespace RasRun

def step (s : RasRun) : RasCall → RasRun
  | .push addr => { s with bpred := { s.bpred with ras := s.bpred.ras.push addr } }
  | .pop => { s with
      bpred := { s.bpred with ras := s.bpred.ras.pop.2 }
      popped := s.popped ++ [s.bpred.ras.pop.1] }
  | .snapshot => { s with saved := s.saved ++ [s.bpred.snapshot] }
  | .restore i => { s with bpred := ((s.saved[i]?).map s.bpred.restore).getD s.bpred }

def run (cfg : Config) (calls : List RasCall) : RasRun := calls.foldl step { bpred := .reset cfg }

end RasRun

/-- An index that has wrapped at most once. -/
theorem mod_of_lt_twice {x n : ℕ} (h : x < 2 * n) : x % n = if x < n then x else x - n := by
  split
  · rename_i hlt
    exact Nat.mod_eq_of_lt hlt
  · rename_i hge
    rw [Nat.mod_eq_sub_mod (by omega), Nat.mod_eq_of_lt (by omega)]

/-- Under a new top the old entries keep their slots, one deeper. -/
theorem below_top {top n k : ℕ} (htop : top < n) (hk : k + 1 < n) :
    ¬((top + 1) % n + n - (k + 1)) % n = (top + 1) % n ∧
      ((top + 1) % n + n - (k + 1)) % n = (top + n - k) % n := by
  rw [mod_of_lt_twice (by omega : top + 1 < 2 * n),
    mod_of_lt_twice (by omega : top + n - k < 2 * n)]
  split
  · rw [mod_of_lt_twice (by omega)]
    split <;> split <;> omega
  · rw [mod_of_lt_twice (by omega)]
    split <;> split <;> omega

/-- Without its top the stack is one less deep everywhere. -/
theorem above_bottom {top n k : ℕ} (htop : top < n) (hk : k + 1 < n + 1) :
    ((top + n - 1) % n + n - k) % n = (top + n - (k + 1)) % n := by
  rw [mod_of_lt_twice (by omega : top + n - 1 < 2 * n),
    mod_of_lt_twice (by omega : top + n - (k + 1) < 2 * n)]
  split
  · rw [mod_of_lt_twice (by omega)]
    split <;> split <;> omega
  · rw [mod_of_lt_twice (by omega)]
    split <;> split <;> omega

/-- The stack `r` of size `n` holds the list `l`, its head at the top. -/
structure Ras.Holds (n : ℕ) (r : Ras) (l : List Word) : Prop where
  size : r.size = n
  pos : 0 < n
  top_lt : r.top < n
  count : r.count = l.length
  fits : l.length ≤ n
  slots : ∀ k (hk : k < l.length), r.stack ((r.top + n - k) % n) = l[k]

namespace Ras.Holds
variable {n : ℕ} {r : Ras} {l : List Word} (h : r.Holds n l)
include h

theorem peekAt_eq (k : ℕ) : r.peekAt k = l.getD k 0 := by
  have hfits := h.fits
  simp only [peekAt, h.count, h.size]
  split
  · rename_i hk
    rw [List.getD_eq_getElem?_getD, List.getElem?_eq_none hk]
    rfl
  · rename_i hk
    rw [Nat.mod_eq_of_lt (show k < n by omega), h.slots k (by omega), List.getD_eq_getElem?_getD,
      List.getElem?_eq_getElem (by omega)]
    rfl

theorem peek_eq : r.peek = l.headD 0 := by
  have htop := h.top_lt
  simp only [peek, h.count]
  cases hl : l with
  | nil => rfl
  | cons a l' =>
    have hslot := h.slots 0 (by simp [hl])
    rw [mod_of_lt_twice (by omega), if_neg (by omega)] at hslot
    simp only [Nat.sub_zero, Nat.add_sub_cancel] at hslot
    rw [if_neg (by simp), hslot]
    simp [hl]

theorem entries_eq : r.entries = l := by
  rw [entries, h.count]
  apply List.ext_getElem (by simp)
  intro k hk hk'
  rw [List.getElem_map, List.getElem_range, h.peekAt_eq, List.getD_eq_getElem?_getD,
    List.getElem?_eq_getElem hk']
  rfl

theorem push (a : Word) : (r.push a).Holds n (boundedPush n a l) := by
  have htop := h.top_lt
  have hfits := h.fits
  have hpos := h.pos
  have hnew : (r.top + 1) % n < n := Nat.mod_lt _ hpos
  refine ⟨h.size, hpos, ?_, ?_, ?_, fun k hk => ?_⟩
  · simp only [Ras.push, h.size]
    exact hnew
  · simp only [Ras.push, boundedPush, h.size, h.count, List.length_take, List.length_cons]
    split <;> omega
  · simp only [boundedPush, List.length_take]
    exact Nat.min_le_left _ _
  · have hk' : k < n ∧ k ≤ l.length := by
      rw [boundedPush, List.length_take, List.length_cons] at hk
      omega
    have hget : (boundedPush n a l)[k] = (a :: l).get ⟨k, by rw [List.length_cons]; omega⟩ :=
      List.getElem_take
    rw [hget]
    simp only [Ras.push, h.size]
    cases k with
    | zero =>
      rw [Nat.sub_zero, Nat.add_mod_right, Nat.mod_eq_of_lt hnew, if_pos rfl]
      rfl
    | succ k =>
      obtain ⟨hother, hsame⟩ := below_top (k := k) htop (by omega)
      rw [if_neg hother, hsame, h.slots k (by omega)]
      rfl

theorem pop : r.pop.2.Holds n l.tail ∧ r.pop.1 = l.headD 0 := by
  have htop := h.top_lt
  have hfits := h.fits
  have hcount := h.count
  have hpos := h.pos
  cases hl : l with
  | nil =>
    rw [hl] at hcount h
    have hpop : r.pop = (0, r) := if_pos hcount
    rw [hpop]
    exact ⟨h, rfl⟩
  | cons a l' =>
    rw [hl, List.length_cons] at hcount hfits
    have hpop : r.pop =
      (r.stack r.top, { r with top := (r.top + r.size - 1) % r.size, count := r.count - 1 }) :=
      if_neg (by omega)
    have hhead := h.peek_eq
    rw [peek, if_neg (by omega), hl] at hhead
    rw [hpop]
    refine ⟨⟨h.size, hpos, ?_, ?_, ?_, fun k hk => ?_⟩, hhead⟩
    · simp only [h.size]
      exact Nat.mod_lt _ hpos
    · simp only [hcount, List.tail_cons]
      omega
    · simp only [List.tail_cons]
      omega
    · rw [List.tail_cons] at hk
      have hslot := h.slots (k + 1) (by rw [hl, List.length_cons]; omega)
      simp only [h.size, List.tail_cons]
      rw [above_bottom htop (by omega), hslot]
      simp [hl]

end Ras.Holds

/-- The run is the ideal run: the same stack, the same saved stacks, the same answers. -/
structure RasRun.Follows (n : ℕ) (s : RasRun) (i : IdealRas) : Prop where
  stack : s.bpred.ras.Holds n i.stack
  saved : List.Forall₂ (fun snap l => snap.ras.Holds n l) s.saved i.saved
  popped : s.popped = i.popped

theorem RasRun.Follows.step {n : ℕ} {s : RasRun} {i : IdealRas} (h : s.Follows n i)
    (call : RasCall) : (s.step call).Follows n (i.step n call) := by
  cases call with
  | push addr => exact ⟨h.stack.push addr, h.saved, h.popped⟩
  | pop =>
    exact ⟨h.stack.pop.1, h.saved,
      by simp only [RasRun.step, IdealRas.step, h.popped, h.stack.pop.2]⟩
  | snapshot => exact ⟨h.stack, List.rel_append h.saved (.cons h.stack .nil), h.popped⟩
  | restore k =>
    refine ⟨?_, h.saved, h.popped⟩
    have hlen := h.saved.length_eq
    simp only [RasRun.step, IdealRas.step]
    by_cases hk : k < s.saved.length
    · rw [List.getElem?_eq_getElem hk, List.getElem?_eq_getElem (by omega)]
      exact List.forall₂_iff_get.mp h.saved |>.2 k hk (by omega)
    · rw [List.getElem?_eq_none (by omega), List.getElem?_eq_none (by omega)]
      exact h.stack

/-- The capacity of a stack of the requested size. -/
def rasCapacity (size : ℕ) : ℕ := if size = 0 then 1 else min size 32

theorem ras_reset_holds (size : ℕ) : (Ras.reset size).Holds (rasCapacity size) [] := by
  have hpos : 0 < rasCapacity size := by
    unfold rasCapacity
    split <;> omega
  refine ⟨?_, hpos, hpos, rfl, Nat.zero_le _, by simp⟩
  rw [Ras.reset, rasCapacity]
  by_cases hzero : size = 0
  · rw [if_pos hzero, if_pos hzero]
  · rw [if_neg hzero, if_neg hzero]
    by_cases hbig : Ras.MAX_ENTRIES < size
    · rw [if_pos hbig]
      exact (Nat.min_eq_right hbig.le).symm
    · rw [if_neg hbig]
      exact (Nat.min_eq_left (Nat.le_of_not_lt hbig)).symm

/-- After any pushes, pops, snapshots and restores the return stack is the ideal bounded list, in
everything that can be asked of it. -/
theorem ras_isBoundedList (cfg : Config) (calls : List RasCall) :
    let r := (RasRun.run cfg calls).bpred.ras
    let i := IdealRas.run (rasCapacity cfg.rasSize) calls
    r.entries = i.stack ∧ r.depth = i.stack.length ∧ r.peek = i.stack.headD 0 ∧
      (∀ k, r.peekAt k = i.stack.getD k 0) ∧ (RasRun.run cfg calls).popped = i.popped := by
  have hstart : RasRun.Follows (rasCapacity cfg.rasSize) { bpred := .reset cfg } {} :=
    ⟨ras_reset_holds cfg.rasSize, .nil, rfl⟩
  have hrun : ∀ {s : RasRun} {i : IdealRas}, s.Follows (rasCapacity cfg.rasSize) i →
      (calls.foldl RasRun.step s).Follows (rasCapacity cfg.rasSize)
        (calls.foldl (IdealRas.step (rasCapacity cfg.rasSize)) i) := by
    induction calls with
    | nil => exact fun h => h
    | cons call calls ih => exact fun h => ih (h.step call)
  have hend := hrun hstart
  exact ⟨hend.stack.entries_eq, hend.stack.count, hend.stack.peek_eq, hend.stack.peekAt_eq,
    hend.popped⟩

end OooCpu
