import OooCpu.Moves
import OooCpu.TraceRecords

/-! # When each stage handled an instruction

Every uop carries the cycle in which each stage handled it. The stages run in
reverse order within a cycle, so a uop takes a cycle for each of them at least,
and up to dispatch no uop overtakes an older one. -/
namespace OooCpu

/-- The stamp of each stage, fetch first. -/
def StageCycles.stamp (a : StageCycles) : ℕ → ℕ
  | 0 => a.fetch
  | 1 => a.decode
  | 2 => a.rename
  | 3 => a.dispatch
  | 4 => a.issue
  | 5 => a.complete
  | _ => 0

namespace Cpu

/-- The phase of a cycle that sets the stamp of a stage. -/
def Phase.setting : ℕ → Phase
  | 0 => .fetch
  | 1 => .decode
  | 2 => .rename
  | 3 => .dispatch
  | 4 => .issue
  | _ => .writeback

/-- Stages run in reverse order. -/
theorem Phase.setting_lt {i : ℕ} (h : i < 5) : (setting (i + 1)).order < (setting i).order := by
  have hall : ∀ i < 5, (setting (i + 1)).order < (setting i).order := by decide
  exact hall i h

/-- Commit comes first. -/
theorem Phase.setting_pos (i : ℕ) : Phase.commit.order < (setting i).order := by
  unfold setting
  split <;> decide

end Cpu

namespace StageCycles
variable {a b : StageCycles} {now now' i : ℕ} {φ ψ : Cpu.Phase}

/-- Stamps are set stage by stage, in cycles that go up; in the phases before its own a stage has
not been reached in this cycle. -/
structure Climbs (φ : Cpu.Phase) (now : ℕ) (a : StageCycles) : Prop where
  first : a.stamp 0 ≠ 0
  next : ∀ i, a.stamp (i + 1) ≠ 0 → a.stamp i ≠ 0 ∧ a.stamp i < a.stamp (i + 1)
  past : ∀ i, a.stamp i ≤ now
  before : ∀ i, φ.order < (Cpu.Phase.setting i).order → a.stamp i < now

/-- One more stage handles the uop. -/
structure Reaches (i now : ℕ) (a b : StageCycles) : Prop where
  stage : i < 6
  unseen : a.stamp i = 0
  seen : ∀ j, j + 1 = i → a.stamp j ≠ 0
  sets : b.stamp i = now
  keeps : ∀ j, j ≠ i → b.stamp j = a.stamp j

theorem stamp_fetched (now i : ℕ) : (StageCycles.mk now 0 0 0 0 0).stamp (i + 1) = 0 := by
  unfold stamp
  split <;> first | rfl | omega

namespace Climbs

theorem pass (h : a.Climbs φ now) (hle : φ.order ≤ ψ.order) : a.Climbs ψ now :=
  ⟨h.first, h.next, h.past, fun i hi => h.before i (Nat.lt_of_le_of_lt hle hi)⟩

theorem nextCycle (h : a.Climbs φ now) : a.Climbs ψ (now + 1) :=
  ⟨h.first, h.next, fun i => (h.past i).trans (Nat.le_succ _),
    fun i _ => Nat.lt_succ_of_le (h.past i)⟩

theorem fetched (hpos : 0 < now) : (StageCycles.mk now 0 0 0 0 0).Climbs .fetch now := by
  have hzero := stamp_fetched now
  refine ⟨Nat.pos_iff_ne_zero.mp hpos, fun i hi => absurd (hzero i) hi, fun i => ?_, fun i hi => ?_⟩
  · cases i with
    | zero => exact le_rfl
    | succ i => exact (hzero i).symm ▸ Nat.zero_le _
  · cases i with
    | zero => exact absurd hi (Nat.lt_irrefl _)
    | succ i => exact (hzero i).symm ▸ hpos

theorem reaches (h : a.Climbs φ now) (hr : Reaches i now a b) (hφ : φ = Cpu.Phase.setting i)
    (hi : i ≠ 0) : b.Climbs φ now := by
  have hstamp (j : ℕ) : b.stamp j = if j = i then now else a.stamp j := by
    split
    · rename_i he
      rw [he, hr.sets]
    · exact hr.keeps j ‹_›
  refine ⟨?_, fun j => ?_, fun j => ?_, fun j hj => ?_⟩
  · rw [hr.keeps 0 (Ne.symm hi)]
    exact h.first
  · intro hne
    by_cases hj : j + 1 = i
    · have hlt : a.stamp j < now :=
        h.before j (by rw [hφ, ← hj]; exact Cpu.Phase.setting_lt (by have := hr.stage; omega))
      rw [hstamp, hstamp, if_pos hj, if_neg (by omega)]
      exact ⟨hr.seen j hj, hlt⟩
    · rw [hstamp, if_neg hj] at hne
      have hnext := h.next j hne
      by_cases he : j = i
      · rw [he] at hnext
        exact absurd hr.unseen hnext.1
      · rw [hstamp, hstamp, if_neg he, if_neg hj]
        exact hnext
  · rw [hstamp]
    split
    · exact le_rfl
    · exact h.past j
  · have hne : j ≠ i := fun he => by
      rw [he, ← hφ] at hj
      exact Nat.lt_irrefl _ hj
    rw [hstamp, if_neg hne]
    exact h.before j hj

/-- A stage not seen leaves all later ones unseen. -/
theorem unseen (h : a.Climbs φ now) {j : ℕ} (hi : a.stamp i = 0) (hle : i ≤ j) : a.stamp j = 0 := by
  induction hle with
  | refl => exact hi
  | @step j _ ih =>
    by_contra hne
    exact (h.next j hne).1 ih

theorem stamp_lt (h : a.Climbs φ now) {j : ℕ} (hij : i < j) (hj : a.stamp j ≠ 0) :
    a.stamp i < a.stamp j := by
  induction hij with
  | refl => exact (h.next i hj).2
  | @step j _ ih => exact (ih (h.next j hj).1).trans (h.next j hj).2

/-- A stage takes a cycle for itself and for each stage in front of it. -/
theorem lt_stamp (h : a.Climbs φ now) (hi : a.stamp i ≠ 0) : i < a.stamp i := by
  induction i with
  | zero => exact Nat.pos_of_ne_zero hi
  | succ i ih =>
    obtain ⟨hne, hlt⟩ := h.next i hi
    exact Nat.lt_of_le_of_lt (ih hne) hlt

/-- The stamps of the stages seen, as a trace shows them. -/
private theorem stamps_eq (h : a.Climbs φ now) {n : ℕ} (hn : n ≤ 6) (hseen : ∀ i < n, a.stamp i ≠ 0)
    (hnot : a.stamp n = 0) : a.stamps = (List.range n).map fun i => some (a.stamp i) := by
  have hsplit : [a.fetch, a.decode, a.rename, a.dispatch, a.issue, a.complete] =
      (List.range n).map a.stamp ++ List.replicate (6 - n) 0 := by
    have hall : [a.fetch, a.decode, a.rename, a.dispatch, a.issue, a.complete] =
      (List.range 6).map a.stamp := rfl
    have hrange : List.range 6 = List.range n ++ List.range' n (6 - n) := by
      have happend := List.range'_append_1 (s := 0) (m := n) (n := 6 - n)
      rw [List.range_eq_range', List.range_eq_range', ← Nat.add_sub_cancel' hn, ← happend,
        Nat.zero_add, Nat.add_sub_cancel' hn]
    have hzeros : (List.range' n (6 - n)).map a.stamp = List.replicate (6 - n) 0 := by
      rw [List.eq_replicate_iff]
      refine ⟨by simp, fun t ht => ?_⟩
      obtain ⟨i, hi, rfl⟩ := List.mem_map.mp ht
      exact h.unseen hnot (List.mem_range'_1.mp hi).1
    rw [hall, hrange, List.map_append, hzeros]
  have hkept : ((List.range n).map a.stamp).reverse.dropWhile (· == 0) =
      ((List.range n).map a.stamp).reverse := by
    cases n with
    | zero => rfl
    | succ n =>
      rw [List.range_succ, List.map_append, List.reverse_append]
      exact List.dropWhile_cons_of_neg (by simpa using hseen n (Nat.lt_succ_self n))
  have hdrop : (List.replicate (6 - n) 0 ++ ((List.range n).map a.stamp).reverse).dropWhile
    (· == 0) =
      ((List.range n).map a.stamp).reverse := by
    rw [List.dropWhile_append_of_pos, hkept]
    intro t ht
    rw [List.eq_of_mem_replicate ht]
    rfl
  simp only [StageCycles.stamps, hsplit, List.reverse_append, List.reverse_replicate, hdrop,
    List.reverse_reverse, List.map_map]
  apply List.map_congr_left
  intro i hi
  exact if_neg (hseen i (List.mem_range.mp hi))

/-- A trace shows a strictly increasing row of cycles without a gap, one for each stage seen. -/
theorem stamps (h : a.Climbs φ now) : ∃ ts : List ℕ, a.stamps = ts.map some ∧ ts.Pairwise (· < ·) ∧
    (∀ t ∈ ts, 0 < t ∧ ∃ i, t = a.stamp i) ∧ ∀ i < 6, a.stamp i ≠ 0 → i < ts.length := by
  have hex : ∃ n, a.stamp n = 0 := ⟨6, rfl⟩
  have hseen : ∀ i < Nat.find hex, a.stamp i ≠ 0 := fun i hi => Nat.find_min hex hi
  refine ⟨(List.range (Nat.find hex)).map a.stamp, ?_, ?_, fun t ht => ?_, fun i _ hne => ?_⟩
  · rw [h.stamps_eq (Nat.find_min' hex rfl) hseen (Nat.find_spec hex), List.map_map]
    rfl
  · rw [List.pairwise_map]
    exact List.pairwise_lt_range.imp_of_mem fun _ hj hij =>
      h.stamp_lt hij (hseen _ (List.mem_range.mp hj))
  · obtain ⟨i, hi, rfl⟩ := List.mem_map.mp ht
    exact ⟨Nat.pos_of_ne_zero (hseen i (List.mem_range.mp hi)), i, rfl⟩
  · rw [List.length_map, List.length_range]
    by_contra hle
    exact hne (h.unseen (Nat.find_spec hex) (Nat.le_of_not_lt hle))

end Climbs

end StageCycles

namespace Cpu
variable {cfg : Config} {entryPc : Word} {s s' t : Cpu} {log log' pend pre post rest : List Uop}
    {u v : Uop}
  {now i latency unit : ℕ} {φ : Phase} {e : IssueQueue.Entry} {f : Fu}

/-- Which stages the uops of each queue have seen. -/
structure Located (s : Cpu) : Prop where
  fetchQ : ∀ u ∈ s.fetchQ, u.stageAt.stamp 0 ≠ 0 ∧ u.stageAt.stamp 1 = 0 ∧ u.stageAt.stamp 2 = 0
  decodeQ : ∀ u ∈ s.decodeQ, u.stageAt.stamp 1 ≠ 0 ∧ u.stageAt.stamp 2 = 0
  window : ∀ u ∈ s.window, u.stageAt.stamp 1 ≠ 0 ∧ u.stageAt.stamp 2 ≠ 0

/-- What a move does to the pending uops and the history: one uop is taken on by its next stage,
retires or is fetched, or the youngest are dropped. Up to dispatch the uops in front have seen the
stage, those behind have not. -/
inductive Advance (now : ℕ) (φ : Phase) (pend log : List Uop) : List Uop → List Uop → Prop
  | same : Advance now φ pend log pend log
  | popped {u : Uop} {rest : List Uop} (phase : φ = .commit) (oldest : pend = u :: rest)
      (complete : u.isComplete = true) : Advance now φ pend log rest (log ++ [u])
  | reached {i : ℕ} {pre post post' : List Uop} {u v : Uop} (place : pend = pre ++ u :: post)
      (phase : φ = Phase.setting i) (reaches : u.stageAt.Reaches i now v.stageAt) (ne : i ≠ 0)
      (order : i ≤ 3 → (∀ w ∈ pre, w.stageAt.stamp i ≠ 0) ∧ ∀ w ∈ post, w.stageAt.stamp i = 0)
      (kept : post'.Sublist post) : Advance now φ pend log (pre ++ v :: post') log
  | cut {kept dropped : List Uop} (split : pend = kept ++ dropped) : Advance now φ pend log kept log
  | fetched {v : Uop} (phase : φ = .fetch) (stamps : v.stageAt = ⟨now, 0, 0, 0, 0, 0⟩) :
      Advance now φ pend log (pend ++ [v]) log

theorem isDispatched_iff : u.isDispatched = true ↔ u.stageAt.stamp 3 ≠ 0 := bne_iff_ne

theorem not_isDispatched_iff : u.isDispatched = false ↔ u.stageAt.stamp 3 = 0 := bne_eq_false_iff_eq

theorem attempt_stageAt (ha : s.attempt e = .launched s' v latency f unit) :
    v.stageAt = (s.inflight e.rob).stageAt := by
  by_cases hl : (s.inflight e.rob).dec.isLoad = true
  · obtain ⟨-, -, value, n, m, obs, -, -, rfl⟩ := attempt_load ha hl
    rfl
  · obtain ⟨-, -, booked, -, hv, -⟩ := attempt_other ha (by simpa using hl)
    rw [hv]
    split
    · exact (executeUop_advances _).2.1
    · rfl

/-- Each stage stamps a uop that the stage in front of it has seen. -/
theorem reaches_complete {a : StageCycles} (hi : a.issue ≠ 0) (hc : a.complete = 0) :
    a.Reaches 5 now { a with complete := now } := by
  refine ⟨by decide, hc, fun j hj => ?_, rfl, fun j hj => ?_⟩
  · obtain rfl : j = 4 := by omega
    exact hi
  · unfold StageCycles.stamp
    split <;> first | rfl | omega

theorem reaches_issue {a : StageCycles} (hd : a.dispatch ≠ 0) (hi : a.issue = 0) :
    a.Reaches 4 now { a with issue := now } := by
  refine ⟨by decide, hi, fun j hj => ?_, rfl, fun j hj => ?_⟩
  · obtain rfl : j = 3 := by omega
    exact hd
  · unfold StageCycles.stamp
    split <;> first | rfl | omega

theorem reaches_dispatch {a : StageCycles} (hr : a.rename ≠ 0) (hd : a.dispatch = 0) :
    a.Reaches 3 now { a with dispatch := now } := by
  refine ⟨by decide, hd, fun j hj => ?_, rfl, fun j hj => ?_⟩
  · obtain rfl : j = 2 := by omega
    exact hr
  · unfold StageCycles.stamp
    split <;> first | rfl | omega

theorem reaches_rename {a : StageCycles} (hd : a.decode ≠ 0) (hr : a.rename = 0) :
    a.Reaches 2 now { a with rename := now } := by
  refine ⟨by decide, hr, fun j hj => ?_, rfl, fun j hj => ?_⟩
  · obtain rfl : j = 1 := by omega
    exact hd
  · unfold StageCycles.stamp
    split <;> first | rfl | omega

theorem reaches_decode {a : StageCycles} (hf : a.fetch ≠ 0) (hd : a.decode = 0) :
    a.Reaches 1 now { a with decode := now } := by
  refine ⟨by decide, hd, fun j hj => ?_, rfl, fun j hj => ?_⟩
  · obtain rfl : j = 0 := by omega
    exact hf
  · unfold StageCycles.stamp
    split <;> first | rfl | omega

namespace Located
variable (h : Located s)
include h

theorem still (hw : t.window = s.window) (hqueues : t.decodeQ = s.decodeQ ∧ t.fetchQ = s.fetchQ) :
    Located t :=
  ⟨by rw [hqueues.2]; exact h.fetchQ, by rw [hqueues.1]; exact h.decodeQ,
    by rw [hw]; exact h.window⟩

theorem same (hw : t.window = s.window) (hqueues : t.decodeQ = s.decodeQ ∧ t.fetchQ = s.fetchQ) :
    Located t ∧ Advance now φ s.pending log t.pending log := by
  refine ⟨h.still hw hqueues, ?_⟩
  rw [pending_same hw hqueues]
  exact .same

/-- A move behind rename rewrites one uop of the window. -/
theorem replace (hw : s.window = pre ++ u :: post) (hw' : t.window = pre ++ v :: post)
    (hqueues : t.decodeQ = s.decodeQ ∧ t.fetchQ = s.fetchQ) (hr : u.stageAt.Reaches i now v.stageAt)
    (hi : 3 ≤ i) : Located t := by
  refine ⟨by rw [hqueues.2]; exact h.fetchQ, by rw [hqueues.1]; exact h.decodeQ, ?_⟩
  rw [hw']
  refine forall_mem_replace hw h.window ?_
  rw [hr.keeps 1 (by omega), hr.keeps 2 (by omega)]
  exact h.window u (by simp [hw])

/-- What such a move behind dispatch does to the pending uops. -/
theorem advance_replace (hw : s.window = pre ++ u :: post) (hw' : t.window = pre ++ v :: post)
    (hqueues : t.decodeQ = s.decodeQ ∧ t.fetchQ = s.fetchQ) (hr : u.stageAt.Reaches i now v.stageAt)
    (hφ : φ = Phase.setting i) (hi : 4 ≤ i) :
    Located t ∧ Advance now φ s.pending log t.pending log := by
  refine ⟨h.replace hw hw' hqueues hr (by omega), ?_⟩
  obtain ⟨hp, hp'⟩ := pending_replaced hw hw' hqueues
  rw [hp']
  exact .reached hp hφ hr (by omega) (fun hle => absurd hle (by omega)) (List.Sublist.refl _)

/-- Dispatch takes on the oldest uop it has not seen. -/
theorem dispatched (hcoh : s.Coherent cfg) (hw : s.window = pre ++ u :: post)
    (hw' : t.window = pre ++ v :: post)
    (hstamps : v.stageAt = { u.stageAt with dispatch := s.cycle })
    (holder : ∀ w ∈ pre, w.isDispatched = true)
    (hyounger : ∀ w ∈ u :: post, w.isDispatched = false)
    (hqueues : t.decodeQ = s.decodeQ ∧ t.fetchQ = s.fetchQ) :
    Located t ∧ Advance s.cycle .dispatch s.pending log t.pending log := by
  have hunseen : ∀ w ∈ u :: post, w.stageAt.stamp 3 = 0 :=
    fun w hmem => not_isDispatched_iff.mp (hyounger w hmem)
  have hr : u.stageAt.Reaches 3 s.cycle v.stageAt := by
    rw [hstamps]
    exact reaches_dispatch (h.window u (by simp [hw])).2 (hunseen u List.mem_cons_self)
  refine ⟨h.replace hw hw' hqueues hr le_rfl, ?_⟩
  obtain ⟨hp, hp'⟩ := pending_replaced hw hw' hqueues
  rw [hp']
  refine .reached hp rfl hr (by decide)
    (fun _ => ⟨fun w hmem => isDispatched_iff.mp (holder w hmem), fun w hmem => ?_⟩)
      (List.Sublist.refl _)
  rw [List.append_assoc, List.mem_append, List.mem_append] at hmem
  rcases hmem with hmem | hmem | hmem
  · exact hunseen w (List.mem_cons_of_mem _ hmem)
  · exact not_isDispatched_iff.mp (hcoh.decoded w hmem).2.dispatch
  · exact not_isDispatched_iff.mp (hcoh.fetched w hmem).2.dispatch

/-- Rename takes on the oldest decoded uop. -/
theorem renamed (hc : 0 < s.cycle) (hw : t.window = s.window ++ [v])
    (hstamps : v.stageAt = { u.stageAt with rename := s.cycle })
    (hqueues : s.decodeQ = u :: t.decodeQ ∧ t.fetchQ = s.fetchQ) :
    Located t ∧ Advance s.cycle .rename s.pending log t.pending log := by
  have hu := h.decodeQ u (by simp [hqueues.1])
  have hr : u.stageAt.Reaches 2 s.cycle v.stageAt := by
    rw [hstamps]
    exact reaches_rename hu.1 hu.2
  refine ⟨⟨by rw [hqueues.2]; exact h.fetchQ, fun w hmem => h.decodeQ w (by simp [hqueues.1, hmem]),
    ?_⟩, ?_⟩
  · rw [hw]
    refine forall_mem_concat h.window ⟨?_, ?_⟩
    · rw [hr.keeps 1 (by decide)]
      exact hu.1
    · rw [hr.sets]
      omega
  · obtain ⟨hp, hp'⟩ := pending_renamed hw hqueues
    rw [hp']
    refine .reached hp rfl hr (by decide) (fun _ => ⟨fun w hmem => (h.window w hmem).2,
      fun w hmem => ?_⟩)
      (List.Sublist.refl _)
    cases List.mem_append.mp hmem with
    | inl hmem => exact (h.decodeQ w (by simp [hqueues.1, hmem])).2
    | inr hmem => exact (h.fetchQ w hmem).2.2

/-- Decode takes on the oldest fetched uop, whatever is dropped behind it. -/
theorem decoded (hc : 0 < s.cycle) (hw : t.window = s.window) (hf : s.fetchQ = u :: rest)
    (hd : t.decodeQ = s.decodeQ ++ [s.decoded u]) (hkept : t.fetchQ.Sublist rest) :
    Located t ∧ Advance s.cycle .decode s.pending log t.pending log := by
  have hu := h.fetchQ u (by simp [hf])
  have hr : u.stageAt.Reaches 1 s.cycle (s.decoded u).stageAt := reaches_decode hu.1 hu.2.1
  refine ⟨⟨fun w hmem => h.fetchQ w ?_, ?_, by rw [hw]; exact h.window⟩, ?_⟩
  · rw [hf]
    exact List.mem_cons_of_mem _ (hkept.subset hmem)
  · rw [hd]
    refine forall_mem_concat h.decodeQ ⟨?_, ?_⟩
    · rw [hr.sets]
      omega
    · rw [hr.keeps 2 (by decide)]
      exact hu.2.2
  · obtain ⟨hp, hp'⟩ := pending_decoded hw hf hd
    rw [hp']
    refine .reached hp rfl hr (by decide) (fun _ => ⟨fun w hmem => ?_, fun w hmem => ?_⟩) hkept
    · cases List.mem_append.mp hmem with
      | inl hmem => exact (h.window w hmem).1
      | inr hmem => exact (h.decodeQ w hmem).1
    · exact (h.fetchQ w (by simp [hf, hmem])).2.1

/-- While history and window stay as they are, the front end takes its uops on. -/
theorem onward (hc : 0 < s.cycle) (hm : Onward s log φ t log') :
    Located t ∧ Advance s.cycle φ s.pending log t.pending log' := by
  cases hm with
  | still hw hqueues => exact h.same hw hqueues
  | retired holdest hqueues hcomplete =>
    refine ⟨⟨by rw [hqueues.2]; exact h.fetchQ, by rw [hqueues.1]; exact h.decodeQ,
      fun w hmem => h.window w ?_⟩, .popped rfl ?_ hcomplete⟩
    · rw [holdest]
      exact List.mem_cons_of_mem _ hmem
    · rw [pending, pending, holdest, hqueues.1, hqueues.2]
      rfl
  | decoded hw hf hd hkept => exact h.decoded hc hw hf hd hkept
  | fetched hw hd hf =>
    refine ⟨⟨?_, by rw [hd]; exact h.decodeQ, by rw [hw]; exact h.window⟩, ?_⟩
    · rw [hf]
      exact forall_mem_concat h.fetchQ ⟨Nat.pos_iff_ne_zero.mp hc, rfl, rfl⟩
    · rw [pending_fetched hw hd hf]
      exact .fetched rfl rfl

end Located

/-- Every move keeps the queues where they are and advances the pending uops. -/
theorem Edit.advance (hcoh : s.Coherent cfg) (hc : 0 < s.cycle) (h : Located s)
    (hm : Edit s log φ t log') : Located t ∧ Advance s.cycle φ s.pending log t.pending log' := by
  cases hm with
  | kept _ _ honward => exact h.onward hc honward
  | @cut _ _ dropped _ hsplit hqueues =>
    have hp : s.pending = t.pending ++ (dropped ++ s.decodeQ ++ s.fetchQ) := by
      rw [pending, pending, hsplit, hqueues.1, hqueues.2]
      simp
    refine ⟨⟨by simp [hqueues.2], by simp [hqueues.1], fun u hu => h.window u ?_⟩, .cut hp⟩
    rw [hsplit]
    exact List.mem_append_left _ hu
  | landed _ hw hw' hrun _ _ hqueues =>
    simp only [Uop.running, Uop.isIssued, Uop.isComplete, Bool.and_eq_true, bne_iff_ne,
      Bool.not_eq_true', bne_eq_false_iff_eq] at hrun
    exact h.advance_replace hw hw' hqueues (reaches_complete hrun.1 hrun.2) rfl (by omega)
  | turnedAway _ _ hw hqueues => exact h.same hw hqueues
  | @launched s' _ _ e v latency _ _ hw hw' he _ ha hqueues =>
    obtain ⟨-, hcyc⟩ := attempt_issues hc ha
    obtain ⟨-, hwait, -⟩ := hcoh.candidate he
    simp only [Uop.waiting, Uop.isDispatched, Uop.isIssued, Bool.and_eq_true, bne_iff_ne,
      Bool.not_eq_true', bne_eq_false_iff_eq] at hwait
    have hreaches :
        (s.inflight e.rob).stageAt.Reaches 4 s.cycle (stamped s' v latency).stageAt := by
      simp only [stamped, attempt_stageAt ha, hcyc]
      exact reaches_issue hwait.1 hwait.2
    exact h.advance_replace hw hw' hqueues hreaches rfl le_rfl
  | dispatched _ hw hw' holder hyounger hqueues =>
    exact h.dispatched hcoh hw hw' rfl holder hyounger hqueues
  | renamed _ _ hw hqueues => exact h.renamed hc hw rfl hqueues

/-- Up to dispatch, every stage that has seen the younger uop has seen the older one, and no
later. -/
def Trails (u v : Uop) : Prop :=
  ∀ i ≤ 3, v.stageAt.stamp i ≠ 0 → u.stageAt.stamp i ≠ 0 ∧ u.stageAt.stamp i ≤ v.stageAt.stamp i

/-- The stamps of everything in flight and everything retired. -/
structure Timed (φ : Phase) (now : ℕ) (pend log : List Uop) : Prop where
  climbs : ∀ u ∈ pend, u.stageAt.Climbs φ now
  retired : ∀ u ∈ log, u.stageAt.Climbs .commit now ∧ u.stageAt.stamp 5 ≠ 0
  inOrder : (log ++ pend).Pairwise Trails

namespace Timed
variable {pend' : List Uop} {ψ : Phase}

theorem pass (h : Timed φ now pend log) (hle : φ.order ≤ ψ.order) : Timed ψ now pend log :=
  ⟨fun u hu => (h.climbs u hu).pass hle, h.retired, h.inOrder⟩

theorem nextCycle (h : Timed φ now pend log) : Timed ψ (now + 1) pend log :=
  ⟨fun u hu => (h.climbs u hu).nextCycle, fun u hu => ⟨(h.retired u hu).1.nextCycle,
    (h.retired u hu).2⟩, h.inOrder⟩

/-- Everything older has been seen by every stage it can have been. -/
private theorem climbs_any (h : Timed φ now pend log) {w : Uop} (hw : w ∈ log ++ pend) :
    ∃ ψ, w.stageAt.Climbs ψ now := by
  cases List.mem_append.mp hw with
  | inl hlog => exact ⟨_, (h.retired w hlog).1⟩
  | inr hpend => exact ⟨_, h.climbs w hpend⟩

private theorem retired_seen (h : Timed φ now pend log) {w : Uop} (hw : w ∈ log) (hi : i ≤ 5) :
    w.stageAt.stamp i ≠ 0 := fun hz =>
  (h.retired w hw).2 ((h.retired w hw).1.unseen hz hi)

/-- One uop is taken on by its next stage. -/
private theorem reached {post' : List Uop} (h : Timed φ now pend log) (hp : pend = pre ++ u :: post)
    (hφ : φ = Phase.setting i) (hr : u.stageAt.Reaches i now v.stageAt) (hi : i ≠ 0)
    (horder : i ≤ 3 → (∀ w ∈ pre, w.stageAt.stamp i ≠ 0) ∧ ∀ w ∈ post, w.stageAt.stamp i = 0)
    (hkept : post'.Sublist post) : Timed φ now (pre ++ v :: post') log := by
  have hv : v.stageAt.Climbs φ now := (h.climbs u (by simp [hp])).reaches hr hφ hi
  refine ⟨fun w hw => ?_, h.retired, ?_⟩
  · rw [List.mem_append, List.mem_cons] at hw
    rcases hw with hw | rfl | hw
    · exact h.climbs w (by simp [hp, hw])
    · exact hv
    · exact h.climbs w (by simp [hp, hkept.subset hw])
  · have hpairs := h.inOrder
    rw [hp, ← List.append_assoc, List.pairwise_append, List.pairwise_cons] at hpairs
    obtain ⟨hfront, ⟨hbehind, hpost⟩, hcross⟩ := hpairs
    rw [← List.append_assoc, List.pairwise_append, List.pairwise_cons]
    refine ⟨hfront, ⟨fun w hw j hj hne => ?_, hpost.sublist hkept⟩, fun w hw x hx => ?_⟩
    · have hji : j ≠ i := fun he => by
        subst he
        exact hne ((horder hj).2 w (hkept.subset hw))
      rw [hr.keeps j hji]
      exact hbehind w (hkept.subset hw) j hj hne
    · cases List.mem_cons.mp hx with
      | inr hx => exact hcross w hw x (List.mem_cons_of_mem _ (hkept.subset hx))
      | inl hx =>
        subst hx
        intro j hj hne
        by_cases hji : j = i
        · subst hji
          have hseen : w.stageAt.stamp j ≠ 0 := by
            cases List.mem_append.mp hw with
            | inl hlog => exact h.retired_seen hlog (by omega)
            | inr hpre => exact (horder hj).1 w hpre
          have hmem : w ∈ log ++ pend := by
            rw [hp, ← List.append_assoc]
            exact List.mem_append_left _ hw
          obtain ⟨_, hclimbs⟩ := h.climbs_any hmem
          rw [hr.sets]
          exact ⟨hseen, hclimbs.past j⟩
        · rw [hr.keeps j hji] at hne ⊢
          exact hcross w hw u List.mem_cons_self j hj hne

/-- Whatever a move does to the pending uops, their stamps stay in order. -/
theorem advance (h : Timed φ now pend log) (hpos : 0 < now)
    (ha : Advance now φ pend log pend' log') : Timed φ now pend' log' := by
  cases ha with
  | same => exact h
  | @popped u rest hphase hold hc =>
    subst hphase hold
    refine ⟨fun w hw => h.climbs w (List.mem_cons_of_mem _ hw),
      forall_mem_concat h.retired ⟨h.climbs u List.mem_cons_self, bne_iff_ne.mp hc⟩, ?_⟩
    have hpairs := h.inOrder
    rwa [List.append_cons] at hpairs
  | reached hp hphase hr hi horder hkept => exact h.reached hp hphase hr hi horder hkept
  | cut hsplit =>
    subst hsplit
    refine ⟨fun w hw => h.climbs w (List.mem_append_left _ hw), h.retired, ?_⟩
    exact h.inOrder.sublist ((List.sublist_append_left _ _).append_left _)
  | @fetched v hphase hstamps =>
    subst hphase
    refine ⟨forall_mem_concat h.climbs (hstamps ▸ .fetched hpos), h.retired, ?_⟩
    rw [← List.append_assoc, List.pairwise_append]
    refine ⟨h.inOrder, List.pairwise_singleton _ _, fun w hw x hx i hi hne => ?_⟩
    rw [List.mem_singleton.mp hx, hstamps] at hne ⊢
    obtain ⟨_, hclimbs⟩ := h.climbs_any hw
    have hzero : i = 0 := by
      by_contra hi0
      obtain ⟨j, rfl⟩ := Nat.exists_eq_succ_of_ne_zero hi0
      exact hne (StageCycles.stamp_fetched now j)
    subst hzero
    exact ⟨hclimbs.first, hclimbs.past 0⟩

end Timed

/-- The rows of stamps a trace shows are strictly increasing and without a gap; what has retired has
been through every stage before this cycle; and no uop overtakes an older one on its way to
dispatch. -/
structure OnTime (s : Cpu) (log : List Uop) : Prop where
  traced : ∀ r ∈ s.emitRob, ∃ ts : List ℕ, r.stamps = ts.map some ∧ 3 ≤ ts.length ∧
    ts.Pairwise (· < ·) ∧ ∀ t ∈ ts, 0 < t ∧ t ≤ s.cycle
  retired : ∀ u ∈ log, ∃ ts : List ℕ, u.stageAt.stamps = ts.map some ∧ 6 ≤ ts.length ∧
    ts.Pairwise (· < ·) ∧ ∀ t ∈ ts, 0 < t ∧ t < s.cycle
  inOrder : (log ++ s.pending).Pairwise Trails

/-- A move keeps the stamps in order. -/
theorem Move.timed (hcoh : s.Coherent cfg) (hc : 0 < s.cycle) (hm : Move s log φ t log')
    (hlocated : Located s)
    (htimed : Timed φ s.cycle s.pending log) : Located t ∧ Timed φ t.cycle t.pending log' := by
  obtain ⟨hedit, hcyc⟩ := hm.edit hcoh hc
  obtain ⟨hlocated', hadvance⟩ := hedit.advance hcoh hc hlocated
  rw [hcyc]
  exact ⟨hlocated', htimed.advance hc hadvance⟩

theorem timed_reset (mem : Memory) :
    Located (reset mem cfg entryPc) ∧
      Timed .rest (reset mem cfg entryPc).cycle (reset mem cfg entryPc).pending [] := by
  have hnone : (reset mem cfg entryPc).window = [] := rfl
  have hempty : (reset mem cfg entryPc).pending = [] := rfl
  refine ⟨⟨by simp [reset], by simp [reset], by simp [hnone]⟩, ?_, by simp, ?_⟩
  · simp [hempty]
  · simp [hempty]

/-- A new cycle begins. -/
theorem Timed.beginCycle (hlocated : Located s) (htimed : Timed .rest s.cycle s.pending log) :
    Located s.beginCycle ∧ Timed .commit s.beginCycle.cycle s.beginCycle.pending log :=
  ⟨⟨hlocated.fetchQ, hlocated.decodeQ, hlocated.window⟩, htimed.nextCycle⟩

/-- After every tick of a run the stamps are in order. -/
theorem timed_ticked (mem : Memory) (h : cfg.Admissible) (entryPc : Word) (k : ℕ)
    (hb : (ticked mem cfg entryPc k).stats.renamed < 4294967296)
    (hself : NoSelfMod (committed mem cfg entryPc k)) :
    Located (ticked mem cfg entryPc k) ∧
      Timed .rest (ticked mem cfg entryPc k).cycle (ticked mem cfg entryPc k).pending
      (committed mem cfg entryPc k) := by
  exact run_preserves (P := fun φ t log => Located t ∧ Timed φ t.cycle t.pending log)
    (fun hcoh hc hm ht => hm.timed hcoh hc ht.1 ht.2) (fun hle ht => ⟨ht.1, ht.2.pass hle⟩)
    (fun _ ht => ht.2.beginCycle ht.1) mem h (timed_reset mem) k hb hself

/-- After every tick of a run the stamps of what is in flight and of what has retired go up from
stage to stage, and up to dispatch no instruction has overtaken an older one. -/
theorem onTime_ticked (mem : Memory) (cfg : Config) (entryPc : Word) (k : ℕ) (h : cfg.Admissible)
    (hb : (ticked mem cfg entryPc k).stats.renamed < 4294967296)
    (hself : NoSelfMod (committed mem cfg entryPc k)) :
    (ticked mem cfg entryPc k).OnTime (committed mem cfg entryPc k) := by
  obtain ⟨hlocated, htimed⟩ := timed_ticked mem h entryPc k hb hself
  have hcoh : (ticked mem cfg entryPc k).Coherent cfg := (steady_ticked h mem k hself hb).coherent
  generalize ticked mem cfg entryPc k = s at *
  refine ⟨fun r hr => ?_, fun u hu => ?_, htimed.inOrder⟩
  · obtain ⟨i, hi, rfl⟩ := (mem_emitRob hcoh.buffered.wf).mp hr
    have hmem : s.inflight i ∈ s.window := List.mem_map_of_mem hi
    have hclimbs := htimed.climbs (s.inflight i) (by simp [pending, hmem])
    obtain ⟨ts, hts, hsorted, hstamps, hlen⟩ := hclimbs.stamps
    refine ⟨ts, hts, hlen 2 (by decide) (hlocated.window _ hmem).2, hsorted, fun t ht => ?_⟩
    obtain ⟨hpos, j, rfl⟩ := hstamps t ht
    exact ⟨hpos, hclimbs.past j⟩
  · obtain ⟨hclimbs, hcomplete⟩ := htimed.retired u hu
    obtain ⟨ts, hts, hsorted, hstamps, hlen⟩ := hclimbs.stamps
    refine ⟨ts, hts, hlen 5 (by decide) hcomplete, hsorted, fun t ht => ?_⟩
    obtain ⟨hpos, j, rfl⟩ := hstamps t ht
    exact ⟨hpos, hclimbs.before j (Phase.setting_pos j)⟩

theorem onTime_ticked_skipping : (ticked skipping {} 0 9).OnTime (committed skipping {} 0 9) :=
  onTime_ticked skipping {} 0 9 admissible_default (by decide +kernel) (by decide +kernel)

end Cpu

end OooCpu
