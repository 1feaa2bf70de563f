import OooCpu.History
import OooCpu.RetireSteps
import Mathlib.Algebra.BigOperators.Group.List.Basic

/-! # Where the issue slots go

A cycle offers `width` issue slots. Each one is used, or charged to a reason, or
stays free because the queue has nothing left to offer. -/
namespace OooCpu

namespace Stall

/-- What rename charges. -/
def renameSide : List Stall := [.robFull, .physreg, .checkpoint]

/-- What dispatch charges. -/
def dispatchSide : List Stall := [.iqFull, .lqFull, .sqFull]

/-- What issue charges. -/
def issueSide : List Stall :=
  [.aluPort, .branchPort, .mulPort, .divPort, .memPort, .cdb, .operands, .storeOrder]

def all : List Stall := renameSide ++ dispatchSide ++ issueSide

theorem mem_all (c : Stall) : c ∈ all := by cases c <;> decide

end Stall

namespace Stats

/-- The stalls of one kind that have been counted. -/
def stalled (t : Stats) (side : List Stall) : ℕ := (side.map t.stalls).sum

theorem foldl_stall_stalls (cs : List Stall) (t : Stats) (d : Stall) :
    (cs.foldl stall t).stalls d = t.stalls d + cs.count d := by
  induction cs generalizing t with
  | nil => rfl
  | cons c cs ih =>
    rw [List.foldl_cons, ih, List.count_cons]
    simp only [stall]
    by_cases hd : d = c
    · rw [if_pos hd, if_pos (by simp [hd])]
      omega
    · rw [if_neg hd, if_neg (by simpa using Ne.symm hd)]
      omega

end Stats

/-- Counting the members of a list one by one counts the elements that are in it. -/
theorem count_add_countP {α : Type*} [DecidableEq α] {d : α} {side : List α} (hd : d ∉ side)
    (cs : List α) : cs.count d + cs.countP (· ∈ side) = cs.countP (· ∈ d :: side) := by
  induction cs with
  | nil => rfl
  | cons c cs ih =>
    rw [List.count_cons, List.countP_cons, List.countP_cons, ← ih]
    by_cases hc : c = d
    · subst hc
      simp only [beq_self_eq_true, if_true, hd, decide_false, Bool.false_eq_true, if_false,
        List.mem_cons, true_or, decide_true]
      omega
    · simp only [beq_iff_eq, hc, if_false, List.mem_cons, false_or]
      omega

theorem sum_map_count {α : Type*} [DecidableEq α] {side : List α} (hside : side.Nodup)
    (cs : List α) : (side.map fun d => cs.count d).sum = cs.countP (· ∈ side) := by
  induction side with
  | nil => simp
  | cons d side ih =>
    obtain ⟨hd, hside⟩ := List.nodup_cons.mp hside
    rw [List.map_cons, List.sum_cons, ih hside, count_add_countP hd]

namespace Cpu
variable {s t u : Cpu} {cfg : Config}

/-- From `s` to `t` the stalls `cs` have been counted, `n` instructions have issued, and no cycle
has begun. -/
structure Spends (n : ℕ) (cs : List Stall) (s t : Cpu) : Prop where
  cycles : t.stats.cycles = s.stats.cycles
  issued : t.stats.issued = s.stats.issued + n
  stalls : ∀ d, t.stats.stalls d = s.stats.stalls d + cs.count d

namespace Spends
variable {n m : ℕ} {cs ds : List Stall}

theorem refl (s : Cpu) : Spends 0 [] s s := ⟨rfl, rfl, fun _ => rfl⟩

theorem trans (h : Spends n cs s t) (h' : Spends m ds t u) : Spends (n + m) (cs ++ ds) s u where
  cycles := h'.cycles.trans h.cycles
  issued := by rw [h'.issued, h.issued, Nat.add_assoc]
  stalls d := by rw [h'.stalls, h.stalls, List.count_append, Nat.add_assoc]

/-- What leaves the three counters alone spends nothing. -/
theorem same (h : Spends n cs s t) (hcycles : u.stats.cycles = t.stats.cycles)
    (hissued : u.stats.issued = t.stats.issued)
    (hstalls : u.stats.stalls = t.stats.stalls) : Spends n cs s u where
  cycles := hcycles.trans h.cycles
  issued := hissued.trans h.issued
  stalls d := by rw [hstalls, h.stalls]

/-- What one kind of stall has gained. -/
theorem stalled (h : Spends n cs s t) {side : List Stall} (hside : side.Nodup) :
    t.stats.stalled side = s.stats.stalled side + cs.countP (· ∈ side) := by
  rw [← sum_map_count hside, Stats.stalled, Stats.stalled, ← List.sum_map_add]
  exact congrArg List.sum (List.map_congr_left fun d _ => h.stalls d)

end Spends

theorem commit_spends (s : Cpu) : Spends 0 [] s s.commit :=
  commitOne_preserves (P := Spends 0 [] s) (fun ht _ _ => ht.same rfl rfl rfl)
    (fun ht _ _ => ht.same rfl rfl rfl) _
    (.refl s)

theorem beforeIssue_spends (s : Cpu) : Spends 0 [] s.beginCycle s.beforeIssue := by
  have hwriteback : Spends 0 [] s.beginCycle s.beginCycle.commit.writeback :=
    writeback_preserves (P := Spends 0 [] s.beginCycle) (fun ht _ => ht.same rfl rfl rfl)
      (fun _ ht => ht.same rfl rfl rfl) (commit_spends s.beginCycle)
  exact hwriteback.same rfl rfl rfl

/-- A stage in front of issue counts one stall of its own kind at most. -/
def SpendsOne (side : List Stall) (s t : Cpu) : Prop :=
  ∃ cs : List Stall, Spends 0 cs s t ∧ cs.length ≤ 1 ∧ ∀ c ∈ cs, c ∈ side

theorem SpendsOne.of_stall {side : List Stall} {c : Stall} (hc : c ∈ side) (s : Cpu) :
    SpendsOne side s (s.stall c) := by
  refine ⟨[c], ⟨rfl, rfl, fun d => ?_⟩, le_rfl, by simpa using hc⟩
  exact Stats.foldl_stall_stalls [c] s.stats d

theorem forLoop_spendsOne {side : List Stall} {body : Cpu → Flow Cpu}
    (hmore : ∀ {s t}, body s = .more t → Spends 0 [] s t)
    (hstop : ∀ {s t}, body s = .stop t → t = s ∨ ∃ c ∈ side, t = s.stall c) (n : ℕ) (s : Cpu) :
    SpendsOne side s (forLoop body n s) := by
  have hnone (s : Cpu) : SpendsOne side s s := ⟨[], .refl s, Nat.zero_le _, by simp⟩
  refine forLoop_ends (Spends 0 []) (SpendsOne side) hnone (fun hab hbc => ?_) hmore
    (fun hbody => ?_) n s
  · obtain ⟨cs, hcs, hlen, hside⟩ := hbc
    exact ⟨cs, by simpa using hab.trans hcs, hlen, hside⟩
  · rcases hstop hbody with rfl | ⟨c, hc, rfl⟩
    · exact hnone _
    · exact .of_stall hc _

theorem rename_spends (s : Cpu) : SpendsOne Stall.renameSide s s.rename := by
  refine forLoop_spendsOne (fun {s t} hmore => ?_) (fun {s t} hstop => ?_) _ s
  · unfold renameOne at hmore
    repeat' split at hmore
    all_goals first | contradiction | skip
    all_goals
      obtain rfl := Flow.more.inj hmore
      exact (Spends.refl s).same rfl rfl rfl
  · unfold renameOne at hstop
    repeat' split at hstop
    all_goals first | contradiction | skip
    · exact .inl (Flow.stop.inj hstop).symm
    · exact .inl (Flow.stop.inj hstop).symm
    · exact .inr ⟨.robFull, by decide, (Flow.stop.inj hstop).symm⟩
    · exact .inr ⟨.checkpoint, by decide, (Flow.stop.inj hstop).symm⟩
    · exact .inr ⟨.physreg, by decide, (Flow.stop.inj hstop).symm⟩

theorem dispatch_spends (s : Cpu) : SpendsOne Stall.dispatchSide s s.dispatch := by
  refine forLoop_spendsOne (fun {s t} hmore => ?_) (fun {s t} hstop => ?_) _ s
  · unfold dispatchOne at hmore
    repeat' split at hmore
    all_goals first | contradiction | skip
    all_goals
      obtain rfl := Flow.more.inj hmore
      exact (Spends.refl s).same rfl rfl rfl
  · unfold dispatchOne at hstop
    repeat' split at hstop
    all_goals first | contradiction | skip
    · exact .inl (Flow.stop.inj hstop).symm
    · exact .inr ⟨.iqFull, by decide, (Flow.stop.inj hstop).symm⟩
    · exact .inr ⟨.lqFull, by decide, (Flow.stop.inj hstop).symm⟩
    · exact .inr ⟨.sqFull, by decide, (Flow.stop.inj hstop).symm⟩

theorem decodeStage_spends (s : Cpu) : Spends 0 [] s s.decodeStage := by
  refine forLoop_preserves (Spends 0 [] s) (fun t ht => ?_) _ (.refl s)
  have hstep := decodeOne_step t
  generalize t.decodeOne.state = t' at hstep ⊢
  cases hstep <;> exact ht.same rfl rfl rfl

theorem fetch_spends (s : Cpu) : Spends 0 [] s s.fetch := by
  unfold fetch
  split
  · exact .refl s
  refine forLoop_preserves (Spends 0 [] s) (fun t ht => ?_) _ (.refl s)
  have hstep := fetchOne_step t
  generalize t.fetchOne.state = t' at hstep ⊢
  cases hstep <;> exact ht.same rfl rfl rfl

/-- The candidates the select loop turns away, with the reasons, in the order it meets them. -/
def turnedAway : List IssueQueue.Entry → IssuePass → List (IssueQueue.Entry × Stall)
  | [], _ => []
  | e :: rest, p =>
    if p.cpu.cfg.width ≤ p.issued then []
    else match p.cpu.attempt e with
      | .turnedAway _ why => (e, why) :: turnedAway rest (issueOne p e)
      | .launched .. => turnedAway rest (issueOne p e)

variable {e : IssueQueue.Entry}

/-- The reasons the loop collects are those of the candidates it turned away. -/
theorem issueLoop_blocked (cands : List IssueQueue.Entry) (p : IssuePass) :
    (issueLoop cands p).blocked = p.blocked ++ (turnedAway cands p).map Prod.snd := by
  induction cands generalizing p with
  | nil => simp [issueLoop, turnedAway]
  | cons e rest ih =>
    simp only [issueLoop, turnedAway]
    split
    · simp
    · rw [ih]
      simp only [issueOne]
      cases p.cpu.attempt e <;> simp

theorem issueLoop_issued_le (cands : List IssueQueue.Entry) {p : IssuePass}
    (hp : p.issued ≤ p.cpu.cfg.width) :
    (issueLoop cands p).issued ≤ (issueLoop cands p).cpu.cfg.width := by
  induction cands generalizing p with
  | nil => exact hp
  | cons e rest ih =>
    simp only [issueLoop]
    split
    · exact hp
    rename_i hslot
    apply ih
    rw [(issueOne_keeps p e).cfg]
    simp only [issueOne]
    cases p.cpu.attempt e with
    | turnedAway s' why => exact hp
    | launched s' u latency f unit => exact Nat.lt_of_not_le hslot

/-- A candidate that is turned away keeps its seat. -/
theorem turnedAway_length_le (cands : List IssueQueue.Entry) {p : IssuePass} {n : ℕ}
    (hp : n + cands.length ≤ p.cpu.iq.entries.length) :
    n + (turnedAway cands p).length ≤ (issueLoop cands p).cpu.iq.entries.length := by
  induction cands generalizing p n with
  | nil => exact hp
  | cons e rest ih =>
    rw [List.length_cons] at hp
    simp only [turnedAway, issueLoop]
    split
    · exact (Nat.le_add_right _ _).trans hp
    cases ha : p.cpu.attempt e with
    | turnedAway s' why =>
      have hiq : (issueOne p e).cpu.iq = p.cpu.iq := by
        simp only [issueOne, ha]
        rcases attempt_turnedAway ha with rfl | ⟨_, _, _, _, rfl⟩ <;> rfl
      have hseats := ih (p := issueOne p e) (n := n + 1) (by rw [hiq]; omega)
      rw [List.length_cons]
      omega
    | launched s' u latency f unit =>
      have hiq : p.cpu.iq.entries.length - 1 ≤ (issueOne p e).cpu.iq.entries.length := by
        cases issueOne_iq p e with
        | inl hiq =>
          rw [hiq]
          omega
        | inr hiq =>
          rw [hiq]
          exact List.le_length_eraseP
      exact ih (by omega)

theorem attempt_turnedAway_side {why : Stall} (h : s.attempt e = .turnedAway t why) :
    why ∈ Stall.issueSide := by
  rcases attempt_turnedAway_cases h with ⟨-, rfl | rfl⟩ | ⟨-, rfl, -⟩
  · cases unitOf (s.inflight e.rob).dec <;> decide
  · decide
  · decide

theorem turnedAway_side (cands : List IssueQueue.Entry) (p : IssuePass) :
    ∀ why ∈ (turnedAway cands p).map Prod.snd, why ∈ Stall.issueSide := by
  induction cands generalizing p with
  | nil => simp [turnedAway]
  | cons e rest ih =>
    simp only [turnedAway]
    split
    · simp
    cases ha : p.cpu.attempt e with
    | turnedAway s' why =>
      rw [List.map_cons, List.forall_mem_cons]
      exact ⟨attempt_turnedAway_side ha, ih _⟩
    | launched s' u latency f unit => exact ih _

/-- What one call of issue turns away, oldest first. -/
def rejected (s : Cpu) : List (IssueQueue.Entry × Stall) :=
  turnedAway (s.iq.select s.iq.size) { cpu := s }

/-- What one call of issue charges for the slots it leaves unused: the reasons of the oldest
rejected candidates, then waiting for operands. An empty queue is charged nothing. -/
def slotCharges (s : Cpu) : List Stall :=
  let lost := s.cfg.width - s.issueScan.issued
  let why := (s.rejected.map Prod.snd).take lost
  if s.issueScan.cpu.iq.entries = [] then []
    else why ++ List.replicate (lost - why.length) .operands

theorem select_length_le (q : IssueQueue) (n : ℕ) : (q.select n).length ≤ q.entries.length :=
  ((List.take_sublist _ _).trans List.filter_sublist).length_le

/-- With the queue empty nothing has been turned away. -/
theorem rejected_of_empty (h : s.issueScan.cpu.iq.entries = []) : s.rejected = [] := by
  have hseats := turnedAway_length_le (s.iq.select s.iq.size) (p := { cpu := s }) (n := 0)
    (by simpa using select_length_le s.iq s.iq.size)
  rw [show issueLoop (s.iq.select s.iq.size) { cpu := s } = s.issueScan from rfl, h] at hseats
  simpa [rejected] using hseats

theorem slotCharges_side (s : Cpu) : ∀ c ∈ s.slotCharges, c ∈ Stall.issueSide := by
  intro c hc
  simp only [slotCharges] at hc
  split at hc
  · simp at hc
  cases List.mem_append.mp hc with
  | inl hc => exact turnedAway_side _ _ c (List.mem_of_mem_take hc)
  | inr hc =>
    rw [List.eq_of_mem_replicate hc]
    decide

theorem issueScan_spends (s : Cpu) : Spends s.issueScan.issued [] s s.issueScan.cpu := by
  refine issueScan_preserves (P := fun p => Spends p.issued [] s p.cpu) (fun p e hp _ _ => ?_)
    (.refl s)
  simp only [issueOne]
  cases ha : p.cpu.attempt e with
  | turnedAway s' why =>
    rcases attempt_turnedAway ha with rfl | ⟨_, _, _, _, rfl⟩
    · exact hp
    · exact hp.same rfl rfl rfl
  | launched s' u latency f unit =>
    obtain ⟨_, _, _, _, _, rfl, -, -⟩ := attempt_frame ha
    exact hp.trans (show Spends 1 [] p.cpu _ from ⟨rfl, rfl, fun _ => rfl⟩)

theorem chargeSlots_spends (s : Cpu) :
    Spends 0 s.slotCharges s.issueScan.cpu (chargeSlots s.issueScan) := by
  have hblocked : s.issueScan.blocked = s.rejected.map Prod.snd := issueLoop_blocked _ _
  have hcfg : s.issueScan.cpu.cfg = s.cfg := (issueScan_keeps s).cfg
  obtain ⟨stalls, hcharge⟩ := chargeSlots_stalls s.issueScan
  refine ⟨by rw [hcharge], by rw [hcharge]; rfl, fun d => ?_⟩
  simp only [chargeSlots, slotCharges, hblocked, hcfg, Stats.foldl_stall_stalls, List.isEmpty_iff]
  split
  · rename_i hempty
    simp [rejected_of_empty hempty]
  · rw [List.count_append]
    omega

theorem issue_spends (s : Cpu) : Spends s.issueScan.issued s.slotCharges s s.issue := by
  have hcharged : Spends s.issueScan.issued s.slotCharges s (chargeSlots s.issueScan) :=
    (issueScan_spends s).trans (chargeSlots_spends s)
  simp only [issue]
  split
  · exact hcharged
  · exact hcharged.same rfl rfl rfl

/-- Sequence numbers in the order of renaming: the instruction renamed after `n` others has the
number `n`, in 32 bits. -/
def InAgeOrder (seqs : List ℕ) (renamed : ℕ) : Prop :=
  ∃ ages : List ℕ, ages.Pairwise (· < ·) ∧ (∀ n ∈ ages, n < renamed) ∧ seqs = ages.map u32

namespace InAgeOrder
variable {seqs seqs' : List ℕ} {renamed : ℕ}

theorem nil (renamed : ℕ) : InAgeOrder [] renamed := ⟨[], .nil, by simp, rfl⟩

theorem sublist (h : InAgeOrder seqs renamed) (hsub : seqs'.Sublist seqs) :
    InAgeOrder seqs' renamed := by
  obtain ⟨ages, hages, hlt, rfl⟩ := h
  obtain ⟨ages', hsub', rfl⟩ := List.sublist_map_iff.mp hsub
  exact ⟨ages', hages.sublist hsub', fun n hn => hlt n (hsub'.subset hn), rfl⟩

theorem push (h : InAgeOrder seqs renamed) : InAgeOrder (seqs ++ [u32 renamed]) (renamed + 1) := by
  obtain ⟨ages, hages, hlt, rfl⟩ := h
  refine ⟨ages ++ [renamed], ?_, fun n hn => ?_, by simp⟩
  · rw [List.pairwise_append]
    exact ⟨hages, List.pairwise_singleton _ _, fun a ha b hb => by
      rw [List.mem_singleton.mp hb]
      exact hlt a ha⟩
  · rw [List.mem_append, List.mem_singleton] at hn
    rcases hn with hn | rfl
    · exact (hlt n hn).trans (Nat.lt_succ_self _)
    · exact Nat.lt_succ_self _

end InAgeOrder

/-- The issue queue and behind it the rename queue are in age order. -/
structure Aged (s : Cpu) : Prop where
  nextSeq : s.rob.nextSeq = u32 s.stats.renamed
  queued : InAgeOrder
    (s.iq.entries.map IssueQueue.Entry.seq ++ s.renameQ.map Uop.seq) s.stats.renamed

namespace Aged

theorem reset (mem : Memory) (cfg : Config) (entryPc : Word) : Aged (reset mem cfg entryPc) :=
  ⟨rfl, .nil 0⟩

variable (h : Aged s)
include h

theorem same (hseq : t.rob.nextSeq = s.rob.nextSeq) (hrenamed : t.stats.renamed = s.stats.renamed)
    (hiq : (t.iq.entries.map IssueQueue.Entry.seq).Sublist (s.iq.entries.map IssueQueue.Entry.seq))
    (hq : (t.renameQ.map Uop.seq).Sublist (s.renameQ.map Uop.seq)) : Aged t := by
  refine ⟨by rw [hseq, hrenamed, h.nextSeq], ?_⟩
  rw [hrenamed]
  exact h.queued.sublist (hiq.append hq)

theorem renameStep (hstep : RenameStep s t) : Aged t := by
  cases hstep with
  | idle => exact h
  | stalled c => exact h.same rfl rfl (.refl _) (.refl _)
  | renamed =>
    refine ⟨?_, ?_⟩
    · have hseq := h.nextSeq
      simp only [renameUop, Rob.allocate, hseq, u32]
      omega
    · have hpush := h.queued.push
      rw [← h.nextSeq] at hpush
      simp only [renameUop, List.map_append, ← List.append_assoc]
      exact hpush

theorem dispatchStep (hstep : DispatchStep s t) : Aged t := by
  cases hstep with
  | idle => exact h
  | stalled c => exact h.same rfl rfl (.refl _) (.refl _)
  | dispatched hq =>
    refine ⟨h.nextSeq, ?_⟩
    have hqueued := h.queued
    rw [hq] at hqueued
    simpa [dispatchUop, IssueQueue.insert, iqEntry] using hqueued

theorem turnAway {why : Stall} (ha : s.attempt e = .turnedAway t why) : Aged t := by
  rcases attempt_turnedAway ha with rfl | ⟨_, _, _, _, rfl⟩
  · exact h
  · exact h.same rfl rfl (.refl _) (.refl _)

theorem launch {v : Uop} {latency unit : ℕ} {f : Fu}
    (ha : s.attempt e = .launched t v latency f unit) (x : Uop) :
    Aged (t.launch e x latency f unit) := by
  obtain ⟨_, _, _, _, _, rfl, -, -⟩ := attempt_frame ha
  refine h.same ?_ rfl (List.eraseP_sublist.map _) (.refl _)
  simp only [Cpu.launch]
  split <;> rfl

theorem recover (br : Uop) : Aged (s.recover br) := by
  refine h.same ?_ rfl (List.filter_sublist.map _) (List.nil_sublist _)
  simp only [Cpu.recover, Rob.truncateTo]
  split <;> rfl

theorem issue : Aged s.issue := by
  have hscan : Aged s.issueScan.cpu := by
    refine issueScan_preserves (P := fun p => Aged p.cpu) (fun p e hp _ _ => ?_) h
    simp only [issueOne]
    cases ha : p.cpu.attempt e with
    | turnedAway s' why => exact hp.turnAway ha
    | launched s' u latency f unit => exact hp.launch ha _
  obtain ⟨stalls, hcharge⟩ := chargeSlots_stalls s.issueScan
  have hcharged : Aged (chargeSlots s.issueScan) := by
    rw [hcharge]
    exact hscan.same rfl rfl (.refl _) (.refl _)
  simp only [Cpu.issue]
  split
  · exact hcharged
  · exact hcharged.recover _

theorem complete (v : Uop) : Aged (s.complete v) := by
  refine h.same rfl rfl ?_ (.refl _)
  simp only [Cpu.complete, IssueQueue.wakeup]
  split
  · exact .refl _
  · rw [List.map_map]
    exact .refl _

theorem commit : Aged s.commit := by
  have hretire {t : Cpu} {r : RobEntry} {rob : Rob} (ht : Aged t) (hp : t.rob.popHeadIfComplete =
    some (r, rob)) :
      Aged (t.retire rob (t.inflight t.rob.head)) := by
    refine ht.same ?_ rfl (.refl _) (.refl _)
    simp only [Rob.popHeadIfComplete] at hp
    split at hp
    · contradiction
    · obtain ⟨-, rfl⟩ := Prod.mk.inj (Option.some.inj hp)
      rfl
  refine commitOne_preserves (P := Aged) (fun ht hp _ => hretire ht hp) (fun ht hp _ => ?_) _ h
  exact (hretire ht hp).same rfl rfl (List.nil_sublist _) (List.nil_sublist _)

theorem beforeIssue : Aged s.beforeIssue := by
  have hcommit : Aged s.beginCycle.commit :=
    commit (s := s.beginCycle) (h.same rfl rfl (.refl _) (.refl _))
  have hwriteback : Aged s.beginCycle.commit.writeback :=
    writeback_preserves (P := Aged) (fun {_ u _ _} ht _ => (ht.complete u).same rfl rfl (.refl _)
      (.refl _))
      (fun _ ht => ht.same rfl rfl (.refl _) (.refl _)) hcommit
  exact hwriteback.same rfl rfl (.refl _) (.refl _)

theorem tick : Aged s.tick := by
  refine tick_cases (P := Aged) (fun _ => h) (fun _ _ => ?_) fun _ _ => ?_
  · exact commit (s := s.beginCycle) (h.same rfl rfl (.refl _) (.refl _))
  · refine behindIssue_preserves (P := Aged) (fun ht hstep => ht.dispatchStep hstep)
      (fun ht hstep => ht.renameStep hstep)
      (fun ht hstep => ?_) (fun ht _ hstep => ?_) h.beforeIssue.issue <;>
      cases hstep <;> exact ht.same rfl rfl (.refl _) (.refl _)

end Aged

end Cpu

end OooCpu
