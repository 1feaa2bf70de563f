import OooCpu.Booking
import OooCpu.FetchStall
import OooCpu.Readiness
import OooCpu.Refinement
import Mathlib.Data.Set.Finite.Lattice

/-! # The machine never deadlocks

A run that neither ends nor renames its `2^32`nd instruction cannot rest: what is
executing lands, units and ports come free, and then the head of the window moves
or, with an empty window, the front end does. -/
namespace OooCpu.Cpu
variable {cfg : Config} {entryPc : Word} {image : Memory} {s t : Cpu} {u : Uop} {post : List Uop}

/-- A unit of every class and room in the queues of the front end. -/
structure Equipped (s : Cpu) : Prop where
  queueCap : 0 < s.queueCap
  units : ∀ f, f ≠ .none → 0 < (s.fuFreeAt f).length

namespace Equipped

theorem reset (hc : cfg.Serviceable) (mem : Memory) : Equipped (Cpu.reset mem cfg entryPc) where
  queueCap := by
    have hw := hc.width_lt
    have hpos := hc.width_pos
    change 0 < u32 (max 1 cfg.width * 2)
    simp only [u32]
    omega
  units f hf := by
    cases f
    case alu => simpa [Cpu.reset] using hc.alu_pos
    case branch => simpa [Cpu.reset] using hc.branch_pos
    case mul => simpa [Cpu.reset] using hc.mul_pos
    case div => simpa [Cpu.reset] using hc.div_pos
    case mem => simpa [Cpu.reset] using hc.mem_pos
    case none => exact absurd rfl hf

variable (h : Equipped s)
include h

theorem same (hq : t.queueCap = s.queueCap)
    (hu : ∀ f, (t.fuFreeAt f).length = (s.fuFreeAt f).length) : Equipped t :=
  ⟨hq ▸ h.queueCap, fun f hf => hu f ▸ h.units f hf⟩

theorem commit : Equipped s.commit :=
  commitOne_preserves (P := Equipped) (fun ht _ _ => ht.same rfl fun _ => rfl)
    (fun ht _ _ => ht.same rfl fun _ => rfl) _ h

theorem writeback : Equipped s.writeback :=
  writeback_preserves (P := Equipped) (fun ht _ => ht.same rfl fun _ => rfl)
    (fun _ ht => ht.same rfl fun _ => rfl) h

theorem issue : Equipped s.issue := by
  have hscan : Equipped s.issueScan.cpu := by
    refine issueScan_preserves (P := fun p => Equipped p.cpu) (fun p e hp _ _ => ?_) h
    apply hp.same (issueOne_keeps p e).queueCap
    intro g
    simp only [issueOne]
    cases ha : p.cpu.attempt e with
    | turnedAway s' why => exact ((attempt_turnedAway_rests ha).units g).1
    | launched s' u latency f unit =>
      have hunits : s'.fuFreeAt = p.cpu.fuFreeAt := (attempt_back ha).fuFreeAt
      simp only [launch, hunits]
      split
      · rfl
      simp only [occupy, hunits]
      split
      · rename_i hg
        rw [hg, List.length_set]
      · rfl
  have hcharged : Equipped (chargeSlots s.issueScan) :=
    hscan.same (chargeSlots_keeps _).queueCap fun f => by rw [(chargeSlots_sameBack _).fuFreeAt]
  simp only [Cpu.issue]
  split
  · exact hcharged
  · exact hcharged.same rfl fun _ => rfl

theorem tick : Equipped s.tick := by
  have hcommit : Equipped s.beginCycle.commit :=
    commit (s := s.beginCycle) (h.same rfl fun _ => rfl)
  apply tick_cases (P := Equipped) (fun _ => h) (fun _ _ => hcommit)
  intro _ _
  have hbefore : Equipped s.beforeIssue := hcommit.writeback.same rfl fun _ => rfl
  have hk := (dispatch_keeps s.beforeIssue.issue).trans <| (rename_keeps _).trans <|
    (decodeStage_keeps _).trans (fetch_keeps _)
  exact hbefore.issue.same hk.queueCap fun f => by
    rw [(frontHalf_sameBack s.beforeIssue.issue).fuFreeAt]

end Equipped

/-- The invariants of a run that progress rests on. -/
structure Provided (cfg : Config) (entryPc : Word) (s : Cpu) : Prop where
  steady : ∃ log, Steady False cfg entryPc (s, log)
  ledger : Ledger cfg (s.cycle + 1) s
  tallied : Tallied s
  awaited : TrapAwaited s
  equipped : Equipped s

theorem provided_ticked (hc : cfg.Serviceable) (htame : ∀ n, Ref.Tame image entryPc n) (k : ℕ)
    (hb : (ticked image cfg entryPc k).stats.renamed < 4294967296) :
    Provided cfg entryPc (ticked image cfg entryPc k) := by
  have hsteady (k : ℕ) (hb : (ticked image cfg entryPc k).stats.renamed < 4294967296) :
      Steady False cfg entryPc (ticked image cfg entryPc k, committed image cfg entryPc k) := by
    have htrack := (history_tracked hc.toAdmissible k ((htame _).spaced cfg.reach) le_rfl hb).1
    rwa [← history_fst]
  induction k with
  | zero =>
    refine ⟨⟨_, hsteady 0 hb⟩, .reset hc.toAdmissible image, .reset image cfg entryPc,
      .of_running rfl, .reset hc image⟩
  | succ k ih =>
    have hs' := hsteady (k + 1) hb
    have hrenamed := (tickLogged_extends (history image cfg entryPc k)).1
    rw [← history_succ, history_fst, history_fst] at hrenamed
    have hlt := hrenamed.trans_lt hb
    have hs := hsteady k hlt
    rw [ticked_succ] at hb hs' ⊢
    have hp := ih hlt
    exact ⟨⟨_, hs'⟩, hp.ledger.tick hs, hp.tallied.tick, hp.awaited.tick hs hb, hp.equipped.tick⟩

namespace Still
variable (h : s.Still)
include h

theorem sameBack : s.beforeIssue.issue.SameBack s.tick := by
  rw [h.tick]
  exact frontHalf_sameBack _

theorem cycle_before : s.beforeIssue.cycle = s.cycle + 1 := by rw [h.before]; rfl

theorem cycle : s.tick.cycle = s.cycle + 1 := by
  rw [h.sameBack.cycle, h.issue.frame]
  exact h.cycle_before

/-- What is executing goes on or is handed over. -/
theorem executing (hu : u ∈ s.executing) :
    s.cycle + 2 < u.wbCycle ∧ u ∈ s.tick.executing ∨ u ∈ s.tick.wbFast ∨ u ∈ s.tick.wbSlow := by
  rw [h.sameBack.executing, h.sameBack.wbFast, h.sameBack.wbSlow, h.issue.frame, h.before]
  by_cases hlate : s.cycle + 2 < u.wbCycle
  · exact .inl ⟨hlate, List.mem_filter.mpr ⟨hu, by simpa using hlate⟩⟩
  · have hdue : u.wbCycle ≤ s.cycle + 1 + 1 := by omega
    right
    cases hl : u.dec.isLoad with
    | true => exact .inr (List.mem_filter.mpr ⟨hu, by simp [hl, hdue]⟩)
    | false => exact .inl (List.mem_filter.mpr ⟨hu, by simp [hl, hdue]⟩)

/-- The only units taken are those of loads that left their addresses, for a cycle. -/
theorem units {f : Fu} {x : ℕ} (hx : x ∈ s.tick.fuFreeAt f) :
    x ∈ s.fuFreeAt f ∨ x = s.cycle + 2 := by
  rw [h.sameBack.fuFreeAt] at hx
  cases (h.issue.units f).2 x hx with
  | inl hx =>
    rw [h.before] at hx
    exact .inl hx
  | inr hx => exact .inr (by rw [hx, h.cycle_before])

theorem running_now : s.done = false := by
  by_contra hd
  have hcycle := h.cycle
  rw [tick_of_done (by simpa using hd)] at hcycle
  omega

theorem window_issued : s.beforeIssue.issue.window = s.window := by
  rw [h.issue.frame, h.before]
  rfl

theorem decodeQ_issued : s.beforeIssue.issue.decodeQ = s.decodeQ := by
  rw [h.issue.frame, h.before]
  rfl

theorem fetchQ_issued : s.beforeIssue.issue.fetchQ = s.fetchQ := by
  rw [h.issue.frame, h.before]
  rfl

theorem fetchStalled_issued : s.beforeIssue.issue.fetchStalled = s.fetchStalled := by
  rw [h.issue.frame, h.before]
  rfl

theorem queueCap_issued : s.beforeIssue.issue.queueCap = s.queueCap := by
  rw [h.issue.frame, h.before]
  rfl

end Still

/-- Fetch leaves the window and what is decoded alone. -/
theorem fetch_front (s : Cpu) : s.fetch.window = s.window ∧ s.fetch.decodeQ = s.decodeQ := by
  unfold fetch
  split
  · exact ⟨rfl, rfl⟩
  · refine forLoop_preserves (fun t : Cpu => t.window = s.window ∧ t.decodeQ = s.decodeQ)
      (fun t ht => ?_) _ ⟨rfl, rfl⟩
    have hstep := fetchOne_step t
    generalize t.fetchOne.state = t' at hstep ⊢
    cases hstep <;> exact ht

/-- A machine that is still and stays so. -/
structure Idle (cfg : Config) (entryPc : Word) (s : Cpu) : Prop where
  provided : ∀ j, Provided cfg entryPc (tick^[j] s)
  still : ∀ j, (tick^[j] s).Still

namespace Idle

theorem iterate (h : Idle cfg entryPc s) (i : ℕ) : Idle cfg entryPc (tick^[i] s) where
  provided j := by
    rw [← Function.iterate_add_apply]
    exact h.provided _
  still j := by
    rw [← Function.iterate_add_apply]
    exact h.still _

theorem now (h : Idle cfg entryPc s) : Provided cfg entryPc s ∧ s.Still := ⟨h.provided 0, h.still 0⟩

theorem cycle (h : Idle cfg entryPc s) (j : ℕ) : (tick^[j] s).cycle = s.cycle + j := by
  induction j with
  | zero => rfl
  | succ j ih =>
    rw [Function.iterate_succ_apply', (h.still j).cycle, ih]
    rfl

/-- What is executing is not due yet. -/
theorem executing_late (h : Idle cfg entryPc s) (hu : u ∈ s.executing) :
    s.cycle + 2 < u.wbCycle ∧ u ∈ s.tick.executing := by
  obtain ⟨hfast, hslow⟩ : s.tick.wbFast = [] ∧ s.tick.wbSlow = [] := (h.still 1).landed
  rcases h.now.2.executing hu with hlate | hu | hu
  · exact hlate
  · exact absurd (hfast ▸ hu) List.not_mem_nil
  · exact absurd (hslow ▸ hu) List.not_mem_nil

/-- Everything comes due some time, so nothing is executing. -/
theorem executing_nil (h : Idle cfg entryPc s) : s.executing = [] := by
  apply List.eq_nil_iff_forall_not_mem.mpr
  intro u hu
  have hstays (j : ℕ) : u ∈ (tick^[j] s).executing := by
    induction j with
    | zero => exact hu
    | succ j ih =>
      rw [Function.iterate_succ_apply']
      exact ((h.iterate j).executing_late ih).2
  have hlate := ((h.iterate u.wbCycle).executing_late (hstays _)).1
  rw [h.cycle] at hlate
  omega

theorem onTheWay_nil (h : Idle cfg entryPc s) : s.beforeIssue.onTheWay = [] := by
  rw [h.now.2.before]
  simp only [onTheWay, h.executing_nil, List.filter_nil, List.append_nil]

/-- Some time later every unit is free. -/
theorem units_free (h : Idle cfg entryPc s) :
    ∃ j, ∀ f, ∀ x ∈ (tick^[j] s).fuFreeAt f, x ≤ (tick^[j] s).cycle + 1 := by
  obtain ⟨last, hlast⟩ :=
    (List.finite_toSet ([Fu.alu, .branch, .mul, .div, .mem, .none].flatMap s.fuFreeAt)).bddAbove
  have hbound (j : ℕ) (f : Fu) :
      ∀ x ∈ (tick^[j] s).fuFreeAt f, x ≤ last ∨ x ≤ (tick^[j] s).cycle + 1 := by
    induction j with
    | zero => exact fun x hx => .inl (hlast (List.mem_flatMap.mpr ⟨f, by cases f <;> simp, hx⟩))
    | succ j ih =>
      intro x hx
      rw [Function.iterate_succ_apply'] at hx ⊢
      rw [(h.still j).cycle]
      cases (h.still j).units hx with
      | inl hx => exact (ih x hx).imp_right fun hle => hle.trans (Nat.le_succ _)
      | inr hx => exact .inr hx.le
  refine ⟨last, fun f x hx => ?_⟩
  have hcycle := h.cycle last
  rcases hbound last f x hx with hx | hx <;> omega

/-- The machine that dispatch finds. -/
theorem coherent_issued (h : Idle cfg entryPc s) :
    s.beforeIssue.Coherent cfg ∧ 0 < s.beforeIssue.cycle ∧ s.beforeIssue.issue.Coherent cfg := by
  obtain ⟨log, hs⟩ := h.now.1.steady
  obtain ⟨log', hbefore, hc, hrunning⟩ := hs.beforeIssue h.now.2.running
  exact ⟨hbefore.coherent, hc, (hbefore.issue hc hrunning).coherent⟩

/-- With an empty window neither dispatch nor rename does anything, for want of work. -/
theorem decodeQ_nil (hc : cfg.Serviceable) (h : Idle cfg entryPc s) (hw : s.window = []) :
    s.decodeQ = [] ∧ s.tick = s.beforeIssue.issue.decodeStage.fetch := by
  obtain ⟨hprovided, hstill⟩ := h.now
  have hcoh := h.coherent_issued.2.2
  have hwin := h.now.2.window_issued.trans hw
  obtain ⟨d, hfront, -⟩ := hcoh.staged.front
  have hrenameQ : s.beforeIssue.issue.renameQ = [] :=
    (List.append_eq_nil_iff.mp (hfront.symm.trans hwin)).2
  have hrename := hstill.rename
  have htick := hstill.tick
  rw [dispatch_of_empty hrenameQ] at hrename htick
  have hnil : s.beforeIssue.issue.decodeQ = [] := by
    by_contra hq
    have hmoves :=
      hcoh.empty_renames hc hwin
        (by rw [hstill.queueCap_issued]; exact hprovided.equipped.queueCap) hq
    omega
  rw [rename_of_empty hnil] at htick
  exact ⟨hstill.decodeQ_issued.symm.trans hnil, htick⟩

theorem tick_window (hc : cfg.Serviceable) (h : Idle cfg entryPc s) (hw : s.window = []) :
    s.tick.window = [] := by
  have hdecode : s.beforeIssue.issue.decodeStage.window = [] :=
    forLoop_preserves (fun t : Cpu => t.window = []) (fun t ht => by
      have hstep := decodeOne_step t
      generalize t.decodeOne.state = t' at hstep ⊢
      cases hstep <;> exact ht) _ (h.now.2.window_issued.trans hw)
  rw [(h.decodeQ_nil hc hw).2, (fetch_front _).1]
  exact hdecode

/-- What decode could hand on would be decoded in the next cycle. -/
theorem fetchQ_nil (hc : cfg.Serviceable) (h : Idle cfg entryPc s) (hw : s.window = []) :
    s.fetchQ = [] ∧ s.tick = s.beforeIssue.issue.fetch := by
  obtain ⟨hprovided, hstill⟩ := h.now
  obtain ⟨hdecodeQ, htick⟩ := h.decodeQ_nil hc hw
  have hnext : s.tick.decodeQ = [] := ((h.iterate 1).decodeQ_nil hc (h.tick_window hc hw)).1
  rw [htick, (fetch_front _).2] at hnext
  have hnil : s.beforeIssue.issue.fetchQ = [] := by
    by_contra hq
    obtain ⟨f, rest, hq⟩ := List.exists_cons_of_ne_nil hq
    refine decodeStage_moves ?_ hq ?_ hnext
    · rw [h.coherent_issued.2.2.sized.cfg_eq]
      exact hc.width_pos
    · rw [hstill.decodeQ_issued, hstill.queueCap_issued, hdecodeQ]
      exact hprovided.equipped.queueCap
  rw [decodeStage_of_empty hnil] at htick
  exact ⟨hstill.fetchQ_issued.symm.trans hnil, htick⟩

/-- An idle machine with an empty window waits behind a trap, but there is none. -/
theorem window_ne_nil (hc : cfg.Serviceable) (h : Idle cfg entryPc s) : s.window ≠ [] := by
  intro hw
  obtain ⟨hprovided, hstill⟩ := h.now
  obtain ⟨hfetchQ, htick⟩ := h.fetchQ_nil hc hw
  have hnext : s.tick.fetchQ = [] := ((h.iterate 1).fetchQ_nil hc (h.tick_window hc hw)).1
  rw [htick] at hnext
  cases hst : s.fetchStalled with
  | true =>
    obtain ⟨u, hu, -⟩ := hprovided.awaited hst
    rw [hw, (h.decodeQ_nil hc hw).1] at hu
    contradiction
  | false =>
    refine fetch_moves ?_ (hstill.fetchStalled_issued.trans hst) ?_ hnext
    · rw [h.coherent_issued.2.2.sized.cfg_eq]
      exact hc.width_pos
    · rw [hstill.fetchQ_issued, hstill.queueCap_issued, hfetchQ]
      exact hprovided.equipped.queueCap

/-- The head of the window is seated, since dispatch has room for it. -/
theorem head_dispatched (hc : cfg.Serviceable) (h : Idle cfg entryPc s)
    (hw : s.window = u :: post) : u.isDispatched = true := by
  by_contra hd
  have hmoves :=
    h.coherent_issued.2.2.head_dispatches hc (h.now.2.window_issued.trans hw) (by simpa using hd)
  have hrest := h.now.2.dispatch
  omega

/-- It waits in the issue queue, since nothing is on its way to writeback. -/
theorem head_waiting (hc : cfg.Serviceable) (h : Idle cfg entryPc s) (hw : s.window = u :: post) :
    u.waiting = true := by
  obtain ⟨log, hs⟩ := h.now.1.steady
  have hrunning := hs.coherent.staged.running
  rw [h.executing_nil, h.now.2.landed.1, h.now.2.landed.2] at hrunning
  have hnot := List.filter_eq_nil_iff.mp hrunning.symm.eq_nil u
    (by rw [hw]; exact List.mem_cons_self)
  have hcomplete := hs.coherent.head_running hw h.now.2.head
  simp only [Uop.running, hcomplete, Bool.not_false, Bool.and_true, Bool.not_eq_true] at hnot
  rw [Uop.waiting, h.head_dispatched hc hw, hnot]
  rfl

/-- With every unit free, the head would launch. -/
theorem not_units_free (hc : cfg.Serviceable) (h : Idle cfg entryPc s) :
    ¬∀ f, ∀ x ∈ s.fuFreeAt f, x ≤ s.cycle + 1 := by
  intro hfree
  obtain ⟨hprovided, hstill⟩ := h.now
  obtain ⟨hcoh, hpos, -⟩ := h.coherent_issued
  obtain ⟨u, post, hw⟩ := List.exists_cons_of_ne_nil (h.window_ne_nil hc)
  have hwin : s.beforeIssue.window = u :: post := by
    rw [hstill.before]
    exact hw
  have hwait := h.head_waiting hc hw
  obtain ⟨e, rest, hentries, hbare, hready, he⟩ := hcoh.head_ready hwin hwait
  have hunit : ∃ unit, s.beforeIssue.freeUnit (unitOf u.dec) = some unit := by
    rw [freeUnit]
    split
    · exact ⟨0, rfl⟩
    rename_i hf
    rw [← Option.isSome_iff_exists, List.findIdx?_isSome, List.any_eq_true]
    have hunits : s.beforeIssue.fuFreeAt = s.fuFreeAt := by rw [hstill.before]; rfl
    obtain ⟨x, hx⟩ := List.exists_mem_of_length_pos (hprovided.equipped.units _ hf)
    rw [hunits, hstill.cycle_before]
    exact ⟨x, hx, by simpa using hfree _ x hx⟩
  have hport : s.beforeIssue.cdbBooked
    ((s.beforeIssue.cycle + e.latency) % s.beforeIssue.cdbWindow) <
      s.beforeIssue.cfg.numCdb := by
    obtain ⟨log, hs⟩ := hprovided.steady
    have hled := hprovided.ledger.beforeIssue hs.coherent.beginCycle.commit hstill.running_now
      hstill.running
    have hlatency : e.latency = latencyOf cfg u.dec := congrArg IssueQueue.Entry.latency hbare
    obtain ⟨-, hle⟩ := Ledger.latencyOf_le cfg u.dec
    rw [hled.census _ (Nat.le_add_right _ _) (by rw [hled.window]; omega), h.onTheWay_nil,
      hcoh.sized.cfg_eq]
    exact hc.cdb_pos
  obtain ⟨s', v, latency, f, unit, ha⟩ := hcoh.head_launches hwin hwait he hunit hport
  have hselect :
      s.beforeIssue.iq.select s.beforeIssue.iq.size =
        e :: (rest.filter IssueQueue.Entry.ready).take rest.length := by
    rw [IssueQueue.select, IssueQueue.size, hentries, List.filter_cons_of_pos hready]
    rfl
  have hmoves := issue_moves (by rw [hcoh.sized.cfg_eq]; exact hc.width_pos) hselect ha
  have hrest := hstill.issue.work
  omega

theorem false (hc : cfg.Serviceable) (h : Idle cfg entryPc s) : False := by
  obtain ⟨j, hfree⟩ := h.units_free
  exact (h.iterate j).not_units_free hc hfree

end Idle

theorem runLoop_eq_iterate (maxCycles n : ℕ) (hn : s.cycle + n ≤ maxCycles) :
    s.runLoop maxCycles n = tick^[n] s := by
  induction n generalizing s with
  | zero => rfl
  | succ n ih =>
    cases hd : s.done with
    | true =>
      rw [Function.iterate_fixed (tick_of_done hd)]
      simp only [runLoop, hd, Bool.true_or, if_true]
    | false =>
      have hlt : ¬maxCycles ≤ s.cycle := by omega
      simp only [runLoop, hd, hlt, decide_false, Bool.or_self, Bool.false_eq_true, if_false]
      rw [Function.iterate_succ_apply]
      exact ih (by rw [tick_cycle hd]; omega)

theorem run_eq_ticked (image : Memory) (cfg : Config) (entryPc : Word) (k : ℕ) :
    (reset image cfg entryPc).run k = ticked image cfg entryPc k :=
  runLoop_eq_iterate k k (Nat.zero_add k).le

/-- A program the reference ends on ends on the pipeline too, unless it runs out of sequence numbers
first. -/
theorem run_ends (image : Memory) (cfg : Config) (entryPc : Word) (n : ℕ) (hc : cfg.Serviceable)
    (htame : Ref.Tame image entryPc n) (hdone : (Ref.steps image entryPc n).2.done = true) :
    ∃ k, ((reset image cfg entryPc).run k).done = true ∨
      4294967296 ≤ ((reset image cfg entryPc).run k).stats.renamed := by
  let ended : Cpu → Prop := fun t => t.done = true ∨ 4294967296 ≤ t.stats.renamed
  have hprovided (k : ℕ) (hk : ¬ended (ticked image cfg entryPc k)) :
    Provided cfg entryPc (ticked image cfg entryPc k) :=
    provided_ticked hc (htame.extend hdone) k (by
      rw [not_or] at hk
      omega)
  have hbound (k : ℕ) (hk : ¬ended (ticked image cfg entryPc k)) :
      (ticked image cfg entryPc k).work ≤ 5 * 4294967296 := by
    obtain ⟨log, hs⟩ := (hprovided k hk).steady
    have hwork := (hprovided k hk).tallied.work_le hs.coherent.counted
    rw [not_or] at hk
    omega
  have hrest (k : ℕ) (hk : BoundedWork.Resting tick work (ticked image cfg entryPc k)) :
      ∃ j, ended (ticked image cfg entryPc j) := by
    by_contra hnever
    rw [not_exists] at hnever
    have hlater (j : ℕ) :
      tick^[j] (ticked image cfg entryPc k) = ticked image cfg entryPc (j + k) :=
      (Function.iterate_add_apply tick j k _).symm
    have hidle : Idle cfg entryPc (ticked image cfg entryPc k) := by
      constructor
      · intro j
        rw [hlater]
        exact hprovided _ (hnever _)
      · intro j
        have hwork := (hk.iterate j).step_work
        rw [hlater] at hwork ⊢
        obtain ⟨log, hs⟩ := (hprovided _ (hnever (j + k))).steady
        have hcfg := hs.coherent.sized.cfg_eq
        have hgoes := hnever (j + k + 1)
        rw [ticked_succ, not_or] at hgoes
        exact still_of_rest (by rw [hcfg]; exact hc.width_pos) (by rw [hcfg]; exact hc.cdb_pos)
          (by simpa using hgoes.1) hwork
    exact hidle.false hc
  have hreaches : ∃ k, ended (ticked image cfg entryPc k) :=
    BoundedWork.reaches tick_work hbound hrest
  obtain ⟨k, hk⟩ := hreaches
  refine ⟨k, ?_⟩
  rw [run_eq_ticked]
  exact hk

theorem serviceable_default : Config.Serviceable {} where
  toAdmissible := admissible_default
  prf_spare := by decide
  width_pos := by decide
  width_lt := by decide
  rob_pos := by decide
  iq_pos := by decide
  lq_pos := by decide
  sq_pos := by decide
  cdb_pos := by decide
  checkpoints_pos := by decide
  alu_pos := by decide
  branch_pos := by decide
  mul_pos := by decide
  div_pos := by decide
  mem_pos := by decide

theorem run_ends_skipping : ∃ k, ((reset skipping {} 0).run k).done = true ∨
    4294967296 ≤ ((reset skipping {} 0).run k).stats.renamed :=
  run_ends skipping {} 0 5 serviceable_default (by decide +kernel) (by decide +kernel)

end OooCpu.Cpu
