import OooCpu.BackEnd
import OooCpu.BoundedWork

/-! # What moves in a cycle

The counters of renamed, dispatched, issued, landed, retired and squashed
instructions never fall. A cycle that raises none of them has moved nothing, and
each stage raises one of them as soon as it can. -/
namespace OooCpu

/-- All the moves an instruction makes behind decode. -/
def Stats.work (t : Stats) : ℕ :=
  t.renamed + t.dispatched + t.issued + t.wroteBack + t.retired + t.squashed

namespace Cpu
variable {cfg : Config} {s s' t : Cpu} {u : Uop} {rest : List Uop} {e : IssueQueue.Entry}

def work (s : Cpu) : ℕ := s.stats.work

theorem FetchStep.work_eq (h : FetchStep s t) : t.work = s.work := by cases h <;> rfl

theorem DecodeStep.work_eq (h : DecodeStep s t) : t.work = s.work := by cases h <;> rfl

theorem renameUop_work (s : Cpu) (u : Uop) (rest : List Uop) (dest : ℕ) (freeList : FreeList) :
    (s.renameUop u rest dest freeList).work = s.work + 1 := by
  simp only [work, Stats.work, renameUop]
  omega

theorem dispatchUop_work (s : Cpu) (u : Uop) (rest : List Uop) (idx : ℕ) (lsq : Lsq) :
    (s.dispatchUop u rest idx lsq).work = s.work + 1 := by
  simp only [work, Stats.work, dispatchUop]
  omega

theorem RenameStep.work_le (h : RenameStep s t) : s.work ≤ t.work := by
  cases h with
  | idle => exact le_rfl
  | stalled c => exact le_rfl
  | renamed =>
    rw [renameUop_work]
    exact Nat.le_succ _

theorem DispatchStep.work_le (h : DispatchStep s t) : s.work ≤ t.work := by
  cases h with
  | idle => exact le_rfl
  | stalled c => exact le_rfl
  | dispatched =>
    rw [dispatchUop_work]
    exact Nat.le_succ _

theorem frontHalf_work (s : Cpu) :
    s.work ≤ s.dispatch.work ∧ s.dispatch.work ≤ s.dispatch.rename.work ∧
      s.dispatch.rename.decodeStage.fetch.work = s.dispatch.rename.work := by
  refine ⟨?_, ?_, ?_⟩
  · exact forLoop_relates (fun s t => s.work ≤ t.work) (fun _ => le_rfl) le_trans
      (fun t => (dispatchOne_step t).work_le) _ s
  · exact forLoop_relates (fun s t => s.work ≤ t.work) (fun _ => le_rfl) le_trans
      (fun t => (renameOne_step t).work_le) _ s.dispatch
  · have hdecode : s.dispatch.rename.work = s.dispatch.rename.decodeStage.work :=
      forLoop_relates (fun s t => s.work = t.work) (fun _ => rfl) Eq.trans
        (fun t => (decodeOne_step t).work_eq.symm) _ s.dispatch.rename
    rw [hdecode]
    generalize s.dispatch.rename.decodeStage = t
    unfold fetch
    split
    · rfl
    · exact (forLoop_relates (fun s t => s.work = t.work) (fun _ => rfl) Eq.trans
        (fun t => (fetchOne_step t).work_eq.symm) _ t).symm

/-- Dispatch seats the oldest renamed instruction if the queues it needs have room. -/
theorem dispatch_moves (hw : 0 < s.cfg.width) (hq : s.renameQ = u :: rest) (hiq : s.iq.full = false)
    (hloads : s.lsq.loads.full = false) (hstores : s.lsq.stores.full = false) :
    s.work < s.dispatch.work := by
  have hfirst := forLoop_first (fun s t : Cpu => s.work ≤ t.work) (fun _ => le_rfl) le_trans
    (fun t => (dispatchOne_step t).work_le) hw s
  refine Nat.lt_of_lt_of_le ?_ hfirst
  simp only [dispatchOne, hq, hiq, Lsq.allocLoad, Lsq.allocStore, LsqQueue.alloc, hloads, hstores]
  split
  · contradiction
  split
  · simp [dispatchUop_work]
  split
  · simp [dispatchUop_work]
  · simp [dispatchUop_work]

theorem dispatch_of_empty (hq : s.renameQ = []) : s.dispatch = s :=
  forLoop_stop (by simp only [dispatchOne, hq]) _

/-- Rename takes the oldest decoded instruction if every pool it needs has one left. -/
theorem rename_moves (hw : 0 < s.cfg.width) (hq : s.decodeQ = u :: rest)
    (hroom : s.renameQ.length < s.queueCap)
    (hrob : s.rob.full = false) (hckpt : s.ckpts.numFree ≠ 0) (hfree : s.freeList.regs ≠ []) :
    s.work < s.rename.work := by
  have hfirst := forLoop_first (fun s t : Cpu => s.work ≤ t.work) (fun _ => le_rfl) le_trans
    (fun t => (renameOne_step t).work_le) hw s
  refine Nat.lt_of_lt_of_le ?_ hfirst
  obtain ⟨r, regs, hregs⟩ := List.exists_cons_of_ne_nil hfree
  have hroom' : ¬s.queueCap ≤ s.renameQ.length := by omega
  have hckpt' : (u.dec.isBranch && s.ckpts.numFree == 0) = false := by simp [hckpt]
  simp only [renameOne, hq, hroom', hrob, hckpt', FreeList.alloc, hregs, if_false,
    Bool.false_eq_true]
  split <;> simp [renameUop_work]

theorem rename_of_empty (hq : s.decodeQ = []) : s.rename = s :=
  forLoop_stop (by simp only [renameOne, hq]) _

/-- Decode hands on the oldest fetched instruction if there is room for it. -/
theorem decodeStage_moves (hw : 0 < s.cfg.width) (hq : s.fetchQ = u :: rest)
    (hroom : s.decodeQ.length < s.queueCap) : s.decodeStage.decodeQ ≠ [] := by
  have hfirst :=
    forLoop_first (fun s t : Cpu => s.decodeQ.length ≤ t.decodeQ.length) (fun _ => le_rfl) le_trans
    (fun t => by
      have hstep := decodeOne_step t
      generalize t.decodeOne.state = t' at hstep ⊢
      cases hstep <;> simp) hw s
  have hroom' : ¬s.queueCap ≤ s.decodeQ.length := by omega
  refine List.ne_nil_of_length_pos (Nat.lt_of_lt_of_le ?_ hfirst)
  simp only [decodeOne, hq, hroom', if_false]
  split <;> simp

theorem decodeStage_of_empty (hq : s.fetchQ = []) : s.decodeStage = s :=
  forLoop_stop (by simp only [decodeOne, hq]) _

/-- Fetch brings an instruction in unless it waits behind a trap. -/
theorem fetch_moves (hw : 0 < s.cfg.width) (hst : s.fetchStalled = false)
    (hroom : s.fetchQ.length < s.queueCap) : s.fetch.fetchQ ≠ [] := by
  have hfirst :=
    forLoop_first (fun s t : Cpu => s.fetchQ.length ≤ t.fetchQ.length) (fun _ => le_rfl) le_trans
    (fun t => by
      have hstep := fetchOne_step t
      generalize t.fetchOne.state = t' at hstep ⊢
      cases hstep <;> simp) hw s
  have hroom' : ¬s.queueCap ≤ s.fetchQ.length := by omega
  rw [fetch, if_neg (by simp [hst])]
  refine List.ne_nil_of_length_pos (Nat.lt_of_lt_of_le ?_ hfirst)
  simp only [fetchOne, hroom', if_false]
  split <;> simp

theorem retire_work (s : Cpu) (rob : Rob) (u : Uop) : (s.retire rob u).work = s.work + 1 := by
  simp only [work, Stats.work, retire]
  omega

theorem squashInFlight_work (s : Cpu) : s.work ≤ s.squashInFlight.work := by
  simp only [work, Stats.work, squashInFlight]
  omega

theorem commitOne_moves {en : RobEntry} {rob : Rob}
    (hp : s.rob.popHeadIfComplete = some (en, rob)) : s.work < s.commitOne.state.work := by
  have hretire := s.retire_work rob (s.inflight s.rob.head)
  simp only [commitOne, hp]
  split
  · have hsquash := (s.retire rob (s.inflight s.rob.head)).squashInFlight_work
    simp only [Flow.state_stop]
    omega
  · simp only [Flow.state_more]
    omega

theorem commitOne_work (s : Cpu) : s.work ≤ s.commitOne.state.work := by
  cases hp : s.rob.popHeadIfComplete with
  | none =>
    simp only [commitOne, hp]
    exact le_rfl
  | some p => exact (commitOne_moves hp).le

theorem commit_work (s : Cpu) : s.work ≤ s.commit.work :=
  forLoop_relates (fun s t => s.work ≤ t.work) (fun _ => le_rfl) le_trans commitOne_work _ s

/-- Commit only rests while the oldest instruction is not complete. -/
theorem commit_of_rest (hw : 0 < s.cfg.width) (h : s.commit.work = s.work) :
    s.rob.popHeadIfComplete = none ∧ s.commit = s := by
  cases hp : s.rob.popHeadIfComplete with
  | none => exact ⟨rfl, forLoop_stop (by simp only [commitOne, hp]) _⟩
  | some p =>
    have hfirst : s.commitOne.state.work ≤ s.commit.work :=
      forLoop_first (fun s t => s.work ≤ t.work) (fun _ => le_rfl) le_trans commitOne_work hw s
    have hmoves := commitOne_moves hp
    omega

theorem complete_work (s : Cpu) (u : Uop) (fast slow : List Uop) :
    work { s.complete u with wbFast := fast, wbSlow := slow } = s.work + 1 := by
  simp only [work, Stats.work, complete]
  omega

theorem writeback_work (s : Cpu) : s.work ≤ s.writeback.work :=
  writeback_preserves (P := fun t => s.work ≤ t.work)
    (fun ht _ => ht.trans (by rw [complete_work]; exact Nat.le_succ _)) (fun _ ht => ht) le_rfl

private theorem writebackFastOne_work (p : Cpu × ℕ) :
    p.1.work ≤ (writebackFastOne p).state.1.work := by
  obtain ⟨t, ports⟩ := p
  simp only [writebackFastOne]
  split
  · exact le_rfl
  split
  · exact le_rfl
  · simp only [Flow.state_more]
    rw [complete_work]
    exact Nat.le_succ _

private theorem writebackSlowOne_work (p : Cpu × ℕ) :
    p.1.work ≤ (writebackSlowOne p).state.1.work := by
  obtain ⟨t, ports⟩ := p
  simp only [writebackSlowOne]
  split
  · exact le_rfl
  split
  · exact le_rfl
  · simp only [Flow.state_more]
    rw [complete_work]
    exact Nat.le_succ _

/-- With a port at all, a result that waits for one lands. -/
theorem writeback_moves (hcdb : 0 < s.cfg.numCdb) (h : s.wbFast ≠ [] ∨ s.wbSlow ≠ []) :
    s.work < s.writeback.work := by
  have hslow (n : ℕ) (p : Cpu × ℕ) : p.1.work ≤ (forLoop writebackSlowOne n p).1.work :=
    forLoop_relates (fun p q : Cpu × ℕ => p.1.work ≤ q.1.work)
      (fun _ => le_rfl) le_trans writebackSlowOne_work n p
  change s.work <
    (forLoop writebackSlowOne _ (forLoop writebackFastOne s.wbFast.length (s, s.cfg.numCdb))).1.work
  cases hf : s.wbFast with
  | cons u rest =>
    have hfirst :=
      forLoop_first (fun p q : Cpu × ℕ => p.1.work ≤ q.1.work) (fun _ => le_rfl) le_trans
      writebackFastOne_work (Nat.succ_pos rest.length) (s, s.cfg.numCdb)
    have hlands : s.work < (writebackFastOne (s, s.cfg.numCdb)).state.1.work := by
      have hports : ¬s.cfg.numCdb = 0 := by omega
      simp only [writebackFastOne, hf, beq_iff_eq, hports, Bool.and_eq_true, and_false, if_false,
        Flow.state_more]
      rw [complete_work]
      exact Nat.lt_succ_self _
    exact (hlands.trans_le hfirst).trans_le (hslow _ _)
  | nil =>
    obtain ⟨u, rest, hq⟩ := List.exists_cons_of_ne_nil (h.resolve_left fun hn => hn hf)
    simp only [List.length_nil, forLoop, hq, List.length_cons]
    have hfirst :=
      forLoop_first (fun p q : Cpu × ℕ => p.1.work ≤ q.1.work) (fun _ => le_rfl) le_trans
      writebackSlowOne_work (Nat.succ_pos rest.length) (s, s.cfg.numCdb)
    have hlands : s.work < (writebackSlowOne (s, s.cfg.numCdb)).state.1.work := by
      have hports : ¬s.cfg.numCdb = 0 := by omega
      simp only [writebackSlowOne, hq, hports, if_false, Flow.state_more]
      rw [complete_work]
      exact Nat.lt_succ_self _
    exact hlands.trans_le hfirst

theorem writeback_of_empty (hf : s.wbFast = []) (hs : s.wbSlow = []) :
    s.writeback = { s with cdbBooked := fun i => if i = s.cycle % s.cdbWindow then 0 else s.cdbBooked i } := by
  simp only [writeback, hf, hs, List.length_nil, forLoop]

theorem attempt_work_turnedAway {why : Stall} (h : s.attempt e = .turnedAway s' why) :
    s'.work = s.work := by
  rcases attempt_turnedAway h with rfl | ⟨_, _, _, _, rfl⟩ <;> rfl

theorem launch_work {latency unit : ℕ} {f : Fu} (h : s.attempt e = .launched s' u latency f unit)
    (v : Uop) : (s'.launch e v latency f unit).work = s.work + 1 := by
  obtain ⟨_, _, _, _, _, rfl, -, -⟩ := attempt_frame h
  simp only [work, Stats.work, launch]
  omega

theorem issueOne_work (p : IssuePass) (e : IssueQueue.Entry) :
    p.cpu.work ≤ (issueOne p e).cpu.work := by
  simp only [issueOne]
  cases ha : p.cpu.attempt e with
  | turnedAway s' why => exact (attempt_work_turnedAway ha).ge
  | launched s' u latency f unit =>
    dsimp only
    rw [launch_work ha]
    exact Nat.le_succ _

theorem issueLoop_work (cands : List IssueQueue.Entry) (p : IssuePass) :
    p.cpu.work ≤ (issueLoop cands p).cpu.work := by
  induction cands generalizing p with
  | nil => exact le_rfl
  | cons e rest ih =>
    simp only [issueLoop]
    split
    · exact le_rfl
    · exact (issueOne_work p e).trans (ih _)

theorem recover_work (s : Cpu) (br : Uop) : s.work ≤ (s.recover br).work := by
  simp only [work, Stats.work, recover]
  omega

theorem issue_work_scan (s : Cpu) : s.issueScan.cpu.work ≤ s.issue.work := by
  obtain ⟨stalls, hcharge⟩ := chargeSlots_stalls s.issueScan
  have hsame : (chargeSlots s.issueScan).work = s.issueScan.cpu.work := by rw [hcharge]; rfl
  simp only [issue]
  split
  · exact hsame.ge
  · exact hsame.ge.trans (recover_work _ _)

theorem issue_work (s : Cpu) : s.work ≤ s.issue.work :=
  (issueLoop_work (s.iq.select s.iq.size) { cpu := s }).trans s.issue_work_scan

/-- Issue launches something if the first candidate of the cycle finds all it needs. -/
theorem issue_moves {cands : List IssueQueue.Entry} {latency unit : ℕ} {f : Fu}
    (hw : 0 < s.cfg.width)
    (hsel : s.iq.select s.iq.size = e :: cands) (ha : s.attempt e = .launched s' u latency f unit) :
    s.work < s.issue.work := by
  refine Nat.lt_of_lt_of_le ?_ s.issue_work_scan
  simp only [issueScan, hsel, issueLoop]
  rw [if_neg (show ¬s.cfg.width ≤ 0 by omega)]
  refine Nat.lt_of_lt_of_le ?_ (issueLoop_work _ _)
  simp only [issueOne, ha]
  rw [launch_work ha]
  exact Nat.lt_succ_self _

/-- The machine after an issue stage that launched nothing: loads may have left their addresses
and spent the units that computed them. -/
structure Rests (s t : Cpu) : Prop where
  frame : t = { s with lsq := t.lsq, fuFreeAt := t.fuFreeAt, stats := t.stats, obs := t.obs }
  work : t.work = s.work
  units : ∀ f, (t.fuFreeAt f).length = (s.fuFreeAt f).length ∧
    ∀ x ∈ t.fuFreeAt f, x ∈ s.fuFreeAt f ∨ x = s.cycle + 1

theorem Rests.refl (s : Cpu) : s.Rests s := ⟨rfl, rfl, fun _ => ⟨rfl, fun _ hx => .inl hx⟩⟩

theorem Rests.trans {a b c : Cpu} (h : a.Rests b) (h' : b.Rests c) : a.Rests c := by
  have hcycle : b.cycle = a.cycle := by rw [h.frame]
  refine ⟨?_, h'.work.trans h.work, fun f => ⟨(h'.units f).1.trans (h.units f).1, fun x hx => ?_⟩⟩
  · rw [h'.frame, h.frame]
  · cases (h'.units f).2 x hx with
    | inl hx => exact (h.units f).2 x hx
    | inr hx => exact .inr (hcycle ▸ hx)

theorem attempt_turnedAway_rests {why : Stall} (h : s.attempt e = .turnedAway s' why) :
    s.Rests s' := by
  refine ⟨?_, attempt_work_turnedAway h, fun f => ?_⟩
  · rcases attempt_turnedAway h with rfl | ⟨_, _, _, _, rfl⟩ <;> rfl
  · rcases attempt_turnedAway_units h with hu | ⟨-, unit, -, hu⟩
    · rw [hu]
      exact ⟨rfl, fun x hx => .inl hx⟩
    · rw [hu, occupy]
      split
      · rename_i hf
        subst hf
        refine ⟨List.length_set, fun x hx => ?_⟩
        exact (List.mem_or_eq_of_mem_set hx)
      · exact ⟨rfl, fun x hx => .inl hx⟩

/-- An issue stage that has done no work has launched nothing and recovered from nothing. -/
theorem issue_of_rest (h : s.issue.work = s.work) : s.Rests s.issue := by
  have hscan : s.work ≤ s.issueScan.cpu.work ∧
      (s.issueScan.cpu.work = s.work → s.issueScan.offender = none ∧ s.Rests s.issueScan.cpu) := by
    refine issueScan_preserves (P := fun p => s.work ≤ p.cpu.work ∧
      (p.cpu.work = s.work → p.offender = none ∧ s.Rests p.cpu)) (fun p e hp _ _ => ?_)
      ⟨le_rfl, fun _ => ⟨rfl, .refl s⟩⟩
    simp only [issueOne]
    cases ha : p.cpu.attempt e with
    | turnedAway s' why =>
      have hsame := attempt_work_turnedAway ha
      refine ⟨hp.1.trans hsame.ge, fun he => ?_⟩
      obtain ⟨hnone, hrests⟩ := hp.2 (hsame.symm.trans he)
      exact ⟨hnone, hrests.trans (attempt_turnedAway_rests ha)⟩
    | launched s' u latency f unit =>
      have hmoves := launch_work ha (stamped s' u latency)
      refine ⟨?_, fun he => ?_⟩
      · exact hp.1.trans (hmoves.symm ▸ Nat.le_succ _)
      · have hle := hp.1
        have he' : (s'.launch e (stamped s' u latency) latency f unit).work = s.work := he
        omega
  have hle := s.issue_work_scan
  obtain ⟨hnone, hrests⟩ := hscan.2 (by omega)
  obtain ⟨stalls, hcharge⟩ := chargeSlots_stalls s.issueScan
  have hissue : s.issue = chargeSlots s.issueScan := by simp only [issue, hnone]
  rw [hissue, hcharge]
  refine hrests.trans ⟨rfl, rfl, fun f => ⟨rfl, fun x hx => .inl hx⟩⟩

theorem tick_work (s : Cpu) : s.work ≤ s.tick.work := by
  have hcommit : s.work ≤ s.beginCycle.commit.work := s.beginCycle.commit_work
  apply tick_cases (P := fun t => s.work ≤ t.work) (fun _ => le_rfl) (fun _ _ => hcommit)
  intro _ _
  obtain ⟨hdispatch, hrename, hfront⟩ := frontHalf_work s.beforeIssue.issue
  have hwriteback : s.beginCycle.commit.work ≤ s.beforeIssue.work :=
    s.beginCycle.commit.writeback_work
  have hissue := s.beforeIssue.issue_work
  omega

/-- What the stages do in a cycle in which nothing moves. -/
structure Still (s : Cpu) : Prop where
  head : s.rob.popHeadIfComplete = none
  landed : s.wbFast = [] ∧ s.wbSlow = []
  before : s.beforeIssue = { s.beginCycle with
    cdbBooked := fun i => if i = (s.cycle + 1) % s.cdbWindow then 0 else s.cdbBooked i
    executing := s.executing.filter fun u => s.cycle + 1 + 1 < u.wbCycle
    wbSlow := s.executing.filter fun u => u.wbCycle ≤ s.cycle + 1 + 1 && u.dec.isLoad
    wbFast := s.executing.filter fun u => u.wbCycle ≤ s.cycle + 1 + 1 && !u.dec.isLoad }
  running : s.beginCycle.commit.done = false
  issue : s.beforeIssue.Rests s.beforeIssue.issue
  dispatch : s.beforeIssue.issue.dispatch.work = s.beforeIssue.issue.work
  rename : s.beforeIssue.issue.dispatch.rename.work = s.beforeIssue.issue.dispatch.work
  tick : s.tick = s.beforeIssue.issue.dispatch.rename.decodeStage.fetch

/-- A cycle that neither ends the run nor does any work leaves every stage where it was. -/
theorem still_of_rest (hw : 0 < s.cfg.width) (hcdb : 0 < s.cfg.numCdb) (hd : s.tick.done = false)
    (h : s.tick.work = s.work) : s.Still := by
  have hrunning : s.done = false := by
    by_contra hn
    rw [tick_of_done (by simpa using hn)] at hd
    exact hn hd
  have hcommits : s.beginCycle.commit.done = false := by
    by_contra hn
    rw [tick_of_commit_done hrunning (by simpa using hn)] at hd
    exact hn hd
  have htick := tick_of_running hrunning hcommits
  obtain ⟨hdispatch, hrename, hfront⟩ := frontHalf_work s.beforeIssue.issue
  have hcommit : s.work ≤ s.beginCycle.commit.work := s.beginCycle.commit_work
  have hwriteback : s.beginCycle.commit.work ≤ s.beforeIssue.work :=
    s.beginCycle.commit.writeback_work
  have hissue := s.beforeIssue.issue_work
  rw [htick] at h
  obtain ⟨hhead, hsame⟩ :=
    commit_of_rest (s := s.beginCycle) hw (show s.beginCycle.commit.work = s.work by omega)
  have hlanded : s.wbFast = [] ∧ s.wbSlow = [] := by
    by_contra hn
    have hmoves := writeback_moves (s := s.beginCycle) hcdb (by
      rw [not_and_or] at hn
      exact hn)
    have hbefore : s.beforeIssue.work = s.beginCycle.writeback.work := by
      rw [beforeIssue, hsame]; rfl
    have hbegin : s.beginCycle.work = s.work := rfl
    omega
  refine ⟨hhead, hlanded, ?_, hcommits, issue_of_rest (by omega), by omega, by omega, htick⟩
  rw [beforeIssue, hsame, writeback_of_empty (s := s.beginCycle) hlanded.1 hlanded.2]
  simp only [execute, beginCycle, hlanded.1, hlanded.2, List.nil_append]

/-- How often instructions have moved on, and how many are about to. -/
structure Tallied (s : Cpu) : Prop where
  dispatched : s.stats.dispatched + s.renameQ.length ≤ s.stats.renamed
  issued : s.stats.issued + s.iq.entries.length ≤ s.stats.dispatched
  wroteBack : s.stats.wroteBack + s.onTheWay.length ≤ s.stats.issued

namespace Tallied

theorem reset (mem : Memory) (cfg : Config) (entryPc : Word) :
    Tallied (Cpu.reset mem cfg entryPc) :=
  ⟨Nat.zero_le _, Nat.zero_le _, Nat.zero_le _⟩

variable (h : Tallied s)
include h

theorem work_le (hcounted : s.stats.renamed = s.stats.retired + s.stats.squashed + s.rob.count) :
    s.work ≤ 5 * s.stats.renamed := by
  have hd := h.dispatched
  have hi := h.issued
  have hw := h.wroteBack
  simp only [work, Stats.work]
  omega

theorem fetchStep (hstep : FetchStep s t) : Tallied t := by
  cases hstep <;> exact ⟨h.dispatched, h.issued, h.wroteBack⟩

theorem decodeStep (hstep : DecodeStep s t) : Tallied t := by
  cases hstep <;> exact ⟨h.dispatched, h.issued, h.wroteBack⟩

theorem renameStep (hstep : RenameStep s t) : Tallied t := by
  cases hstep with
  | idle => exact h
  | stalled c => exact ⟨h.dispatched, h.issued, h.wroteBack⟩
  | renamed =>
    refine ⟨?_, h.issued, h.wroteBack⟩
    have hd := h.dispatched
    simp only [renameUop, List.length_append, List.length_singleton]
    omega

theorem dispatchStep (hstep : DispatchStep s t) : Tallied t := by
  cases hstep with
  | idle => exact h
  | stalled c => exact ⟨h.dispatched, h.issued, h.wroteBack⟩
  | dispatched hq =>
    have hd := h.dispatched
    have hi := h.issued
    rw [hq, List.length_cons] at hd
    refine ⟨?_, ?_, h.wroteBack⟩
    · simp only [dispatchUop]
      omega
    · simp only [dispatchUop, IssueQueue.insert, List.length_append, List.length_singleton]
      omega

theorem writeback : Tallied s.writeback :=
  writeback_preserves (P := Tallied) (fun {t u fast slow} ht hq => by
    have hw := ht.wroteBack
    have hlen := hq.length_eq
    refine ⟨ht.dispatched, ?_, ?_⟩
    · have hiq : (t.iq.wakeup u.dest).entries.length = t.iq.entries.length := by
        unfold IssueQueue.wakeup
        split
        · rfl
        · exact List.length_map _
      simp only [complete, hiq]
      exact ht.issued
    · simp only [onTheWay, complete, List.length_cons] at hw hlen ⊢
      omega) (fun _ ht => ⟨ht.dispatched, ht.issued, ht.wroteBack⟩) h

theorem execute : Tallied s.execute := by
  refine ⟨h.dispatched, h.issued, ?_⟩
  have hlen := (execute_queues s.executing s.wbFast s.wbSlow (s.cycle + 1)).length_eq
  have hw := h.wroteBack
  simp only [onTheWay, Cpu.execute] at hw ⊢
  rw [hlen]
  exact hw

theorem turnAway {why : Stall} (ha : s.attempt e = .turnedAway s' why) : Tallied s' := by
  rcases attempt_turnedAway ha with rfl | ⟨_, _, _, _, rfl⟩
  · exact h
  · exact ⟨h.dispatched, h.issued, h.wroteBack⟩

theorem launch {latency unit : ℕ} {f : Fu} (he : e ∈ s.iq.entries)
    (ha : s.attempt e = .launched s' u latency f unit)
    (v : Uop) : Tallied (s'.launch e v latency f unit) := by
  have hway := (launch_onTheWay ha v).length_eq
  have hd := h.dispatched
  have hi := h.issued
  have hw := h.wroteBack
  rw [List.length_cons] at hway
  obtain ⟨_, _, _, _, _, rfl, -, -⟩ := attempt_frame ha
  refine ⟨hd, ?_, ?_⟩
  · have herase : (s.iq.entries.eraseP fun x => x.seq == e.seq).length = s.iq.entries.length - 1 :=
      List.length_eraseP_of_mem he (by simp)
    have hpos := List.length_pos_of_mem he
    simp only [Cpu.launch, IssueQueue.erase, herase]
    omega
  · rw [hway]
    simp only [Cpu.launch]
    omega

theorem recover (br : Uop) : Tallied (s.recover br) := by
  have hd := h.dispatched
  have hi := h.issued
  have hw := h.wroteBack
  refine ⟨?_, ?_, ?_⟩
  · simp only [Cpu.recover, List.length_nil]
    omega
  · have hle := List.length_filter_le
      (fun e : IssueQueue.Entry => decide (e.seq ≤ br.seq)) s.iq.entries
    simp only [Cpu.recover, IssueQueue.squashAfter]
    omega
  · have hlen := (recover_onTheWay s br).length_eq
    rw [List.length_append] at hlen
    change s.stats.wroteBack + _ ≤ s.stats.issued
    omega

theorem issue : Tallied s.issue := by
  have hscan : Tallied s.issueScan.cpu := by
    refine issueScan_preserves (P := fun p => Tallied p.cpu) (fun p e hp he _ => ?_) h
    simp only [issueOne]
    cases ha : p.cpu.attempt e with
    | turnedAway s' why => exact hp.turnAway ha
    | launched s' u latency f unit => exact hp.launch he ha _
  obtain ⟨stalls, hcharge⟩ := chargeSlots_stalls s.issueScan
  have hcharged : Tallied (chargeSlots s.issueScan) := by
    rw [hcharge]
    exact ⟨hscan.dispatched, hscan.issued, hscan.wroteBack⟩
  simp only [Cpu.issue]
  split
  · exact hcharged
  · exact hcharged.recover _

theorem retire (rob : Rob) (u : Uop) : Tallied (s.retire rob u) :=
  ⟨h.dispatched, h.issued, h.wroteBack⟩

theorem squashInFlight : Tallied s.squashInFlight := by
  have hd := h.dispatched
  have hi := h.issued
  have hw := h.wroteBack
  refine ⟨?_, ?_, ?_⟩
  · simp only [Cpu.squashInFlight, List.length_nil]
    omega
  · simp only [Cpu.squashInFlight, IssueQueue.clear, List.length_nil]
    omega
  · simp only [onTheWay, Cpu.squashInFlight, List.append_nil, List.length_nil]
    omega

theorem commit : Tallied s.commit :=
  commitOne_preserves (P := Tallied) (fun ht _ _ => ht.retire _ _)
    (fun ht _ _ => (ht.retire _ _).squashInFlight) _ h

theorem tick : Tallied s.tick := by
  have hcommit : Tallied s.beginCycle.commit :=
    commit (s := s.beginCycle) ⟨h.dispatched, h.issued, h.wroteBack⟩
  apply tick_cases (P := Tallied) (fun _ => h) (fun _ _ => hcommit)
  intro _ _
  have hissue : Tallied s.beforeIssue.issue := hcommit.writeback.execute.issue
  exact behindIssue_preserves (P := Tallied) (fun ht hstep => ht.dispatchStep hstep)
    (fun ht hstep => ht.renameStep hstep) (fun ht hstep => ht.decodeStep hstep)
      (fun ht _ hstep => ht.fetchStep hstep)
    hissue

end Tallied

end Cpu

end OooCpu
