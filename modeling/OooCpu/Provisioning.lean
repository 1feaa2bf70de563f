import OooCpu.Booking
import OooCpu.SlotAccounting

/-! # Knobs that are large enough

A structure with room for every user in a full reorder buffer never turns anybody
away, whatever the program does and however far it speculates. -/
namespace OooCpu

/-- The structures that could serve a whole reorder buffer. -/
def Config.Roomy (cfg : Config) : Stall → Prop
  | .physreg => cfg.prfCanStarve = false
  | .checkpoint => cfg.robSize ≤ cfg.numCheckpoints
  | .iqFull => cfg.robSize ≤ cfg.iqSize
  | .lqFull => cfg.robSize ≤ cfg.lqSize
  | .sqFull => cfg.robSize ≤ cfg.sqSize
  | _ => False

theorem Config.Roomy.in_front {cfg : Config} {c : Stall} (h : cfg.Roomy c) :
    c ∉ Stall.issueSide ∧ c ≠ .robFull := by
  cases c <;> first | exact absurd h id | decide

namespace Cpu
variable {kinds : Prop} {cfg : Config} {entryPc : Word} {s t : Cpu} {u : Uop} {rest : List Uop}
    {c : Stall}

namespace Coherent
variable (h : s.Coherent cfg)
include h

theorem window_le : s.window.length ≤ cfg.robSize := by
  rw [window, Buffered.window_length, ← h.sized.rob]
  exact h.buffered.wf.count_le

theorem window_lt (hfull : s.rob.full = false) : s.window.length < cfg.robSize := by
  have hle := h.buffered.wf.count_le
  have hne : s.rob.count ≠ s.rob.capacity := by simpa [Rob.full] using hfull
  rw [window, Buffered.window_length, ← h.sized.rob]
  omega

/-- A renamed uop that has no seat yet takes its place in the window all the same. -/
theorem seated_lt (hq : s.renameQ ≠ []) (p : Uop → Bool) :
    (s.window.filter fun u => p u && u.isDispatched).length < cfg.robSize := by
  obtain ⟨d, hw, -⟩ := h.staged.front
  have hnone : (s.renameQ.filter fun u => p u && u.isDispatched) = [] :=
    List.filter_eq_nil_iff.mpr fun u hu => by simp [h.staged.renamed u hu]
  have hle := h.window_le
  have hpos := List.length_pos_of_ne_nil hq
  have hfront := List.length_filter_le (fun u => p u && u.isDispatched) d
  rw [hw, List.length_append] at hle
  rw [hw, List.filter_append, hnone, List.append_nil]
  omega

theorem regs_ne_nil (hroomy : cfg.Roomy .physreg) (hfull : s.rob.full = false) :
    s.freeList.regs ≠ [] := by
  intro hnil
  have howned := h.mapped.owned.length_eq
  have hlt := h.window_lt hfull
  have husers := List.length_filter_le (fun u : Uop => u.dec.writesRd) s.window
  have hsize : cfg.robSize + 32 ≤ cfg.prfSize := by
    simpa [Config.Roomy, Config.prfCanStarve] using hroomy
  rw [hnil, h.sized.freeList] at howned
  simp only [dests, List.nil_append, List.length_append, List.length_ofFn, List.length_map,
    List.length_range] at howned
  omega

theorem slots_ne_zero (hroomy : cfg.Roomy .checkpoint) (hfull : s.rob.full = false) :
    s.ckpts.numFree ≠ 0 := by
  intro hzero
  have howned := h.checkpointed.owned.length_eq
  have hlt := h.window_lt hfull
  have husers := List.length_filter_le (fun u : Uop => u.dec.isBranch) s.window
  have hsize : cfg.robSize ≤ cfg.numCheckpoints := hroomy
  rw [CheckpointPool.numFree] at hzero
  rw [h.sized.ckpts] at howned
  simp only [ckptsOf, List.length_append, List.length_map, List.length_range] at howned
  omega

theorem iq_room (hroomy : cfg.Roomy .iqFull) (hq : s.renameQ ≠ []) : s.iq.full = false := by
  have hseats := congrArg List.length h.staged.seated
  have hlt := h.seated_lt hq fun u => !u.isIssued
  have hsize : cfg.robSize ≤ cfg.iqSize := hroomy
  have hwaiting : (s.window.filter Uop.waiting).length =
      (s.window.filter fun u => !u.isIssued && u.isDispatched).length :=
    congrArg List.length (List.filter_congr fun u _ => by rw [Uop.waiting, Bool.and_comm])
  simp only [List.length_map] at hseats
  simp only [IssueQueue.full, IssueQueue.size, h.sized.iq, decide_eq_false_iff_not]
  omega

private theorem lined_room {mine : Uop → Bool} {q : LsqQueue} (hlined : Lined mine s.window q)
    (hsize : cfg.robSize ≤ q.capacity) (hq : s.renameQ ≠ []) : q.full = false := by
  have hlive := congrArg List.length hlined.live
  have hlt := h.seated_lt hq mine
  rw [LsqQueue.live, CircularBuffer.positions_length, List.length_map] at hlive
  simp only [LsqQueue.full, decide_eq_false_iff_not]
  omega

theorem loads_room (hroomy : cfg.Roomy .lqFull) (hq : s.renameQ ≠ []) : s.lsq.loads.full = false :=
  h.lined_room h.queued.loads (h.sized.loads.symm ▸ hroomy) hq

theorem stores_room (hroomy : cfg.Roomy .sqFull) (hq : s.renameQ ≠ []) :
    s.lsq.stores.full = false :=
  h.lined_room h.queued.stores (h.sized.stores.symm ▸ hroomy) hq

end Coherent

theorem stall_stalls (s : Cpu) (c d : Stall) (hne : c ≠ d) :
    (s.stall d).stats.stalls c = s.stats.stalls c := if_neg hne

/-- Rename stalls for a structure only if that structure has nothing left. -/
theorem Coherent.renameOne_stalls (h : s.Coherent cfg) (hroomy : cfg.Roomy c) :
    s.renameOne.state.stats.stalls c = s.stats.stalls c := by
  unfold renameOne
  split
  · rfl
  split
  · rfl
  split
  · exact stall_stalls s c _ hroomy.in_front.2
  rename_i hfull
  have hfull' : s.rob.full = false := by simpa using hfull
  split
  · rename_i hck
    refine stall_stalls s c _ fun hc => ?_
    subst hc
    have hzero : s.ckpts.numFree = 0 := by
      rw [Bool.and_eq_true, beq_iff_eq] at hck
      exact hck.2
    exact h.slots_ne_zero hroomy hfull' hzero
  split
  · split
    · rename_i halloc
      refine stall_stalls s c _ fun hc => ?_
      subst hc
      obtain ⟨r, regs, hregs⟩ := List.exists_cons_of_ne_nil (h.regs_ne_nil hroomy hfull')
      rw [FreeList.alloc, hregs] at halloc
      contradiction
    · rfl
  · rfl

/-- So does dispatch. -/
theorem Coherent.dispatchOne_stalls (h : s.Coherent cfg) (hroomy : cfg.Roomy c) :
    s.dispatchOne.state.stats.stalls c = s.stats.stalls c := by
  unfold dispatchOne
  split
  · rfl
  rename_i hq
  have hne : s.renameQ ≠ [] := by simp [hq]
  split
  · rename_i hiq
    refine stall_stalls s c _ fun hc => ?_
    subst hc
    rw [h.iq_room hroomy hne] at hiq
    contradiction
  split
  · split
    · rename_i halloc
      refine stall_stalls s c _ fun hc => ?_
      subst hc
      rw [Lsq.allocLoad, LsqQueue.alloc, h.loads_room hroomy hne] at halloc
      contradiction
    · rfl
  split
  · split
    · rename_i halloc
      refine stall_stalls s c _ fun hc => ?_
      subst hc
      rw [Lsq.allocStore, LsqQueue.alloc, h.stores_room hroomy hne] at halloc
      contradiction
    · rfl
  · rfl

theorem Coherent.frontHalf_stalls (h : s.Coherent cfg) (hroomy : cfg.Roomy c) (hc : 0 < s.cycle)
    (hb : s.dispatch.rename.decodeStage.fetch.stats.renamed < 4294967296) :
    s.dispatch.rename.decodeStage.fetch.stats.stalls c = s.stats.stalls c := by
  have hbehind :
    s.dispatch.rename.stats.renamed ≤ s.dispatch.rename.decodeStage.fetch.stats.renamed :=
    ((decodeStage_keeps _).trans (fetch_keeps _)).renamed
  rw [(fetch_spends _).stalls, (decodeStage_spends _).stalls]
  have hdispatch :
      s.dispatch.Coherent cfg ∧ 0 < s.dispatch.cycle ∧
        s.dispatch.stats.stalls c = s.stats.stalls c := by
    refine forLoop_preserves (fun t : Cpu => t.Coherent cfg ∧ 0 < t.cycle ∧
      t.stats.stalls c = s.stats.stalls c)
      (fun t ht => ?_) _ ⟨h, hc, rfl⟩
    have hstep := dispatchOne_step t
    exact ⟨ht.1.dispatchStep ht.2.1 hstep, hstep.keeps.cycle.symm ▸ ht.2.1,
      (ht.1.dispatchOne_stalls hroomy).trans ht.2.2⟩
  -- rename is only known to keep the machine coherent while sequence numbers last
  have hrename : s.dispatch.rename.stats.renamed < 4294967296 →
      s.dispatch.rename.Coherent cfg ∧ s.dispatch.rename.stats.stalls c = s.stats.stalls c := by
    refine forLoop_preserves (fun t : Cpu => t.stats.renamed < 4294967296 →
      t.Coherent cfg ∧ t.stats.stalls c = s.stats.stalls c) (fun t ht hlt => ?_) _ fun _ =>
        ⟨hdispatch.1, hdispatch.2.2⟩
    have hstep := renameOne_step t
    have hlt' := hstep.keeps.renamed.trans_lt hlt
    obtain ⟨hcoh, hstalls⟩ := ht hlt'
    exact ⟨hcoh.renameStep hlt' hstep, (hcoh.renameOne_stalls hroomy).trans hstalls⟩
  exact (hrename (hbehind.trans_lt hb)).2

theorem commit_stalls (s : Cpu) (c : Stall) :
    s.beginCycle.commit.stats.stalls c = s.stats.stalls c := by
  rw [(commit_spends _).stalls]
  rfl

/-- Issue charges nothing for what lies in front of it. -/
theorem beforeDispatch_stalls (s : Cpu) (hc : c ∉ Stall.issueSide) :
    s.beforeIssue.issue.stats.stalls c = s.stats.stalls c := by
  have hnone : s.beforeIssue.slotCharges.count c = 0 :=
    List.count_eq_zero.mpr fun hmem => hc (slotCharges_side _ c hmem)
  rw [(issue_spends _).stalls, hnone, (beforeIssue_spends s).stalls]
  rfl

theorem Steady.tick_stalls {log : List Uop} (hs : Steady kinds cfg entryPc (s, log))
    (hroomy : cfg.Roomy c)
    (hb : s.tick.stats.renamed < 4294967296) : s.tick.stats.stalls c = s.stats.stalls c := by
  revert hb
  refine tick_cases (P := fun t => t.stats.renamed < 4294967296 →
    t.stats.stalls c = s.stats.stalls c)
    (fun _ _ => rfl) (fun _ _ _ => commit_stalls s c) fun hd hd' hb => ?_
  obtain ⟨log', hbefore, hc, hrunning⟩ := hs.beforeIssue hd'
  have hissue : s.beforeIssue.issue.Coherent cfg := (hbefore.issue hc hrunning).coherent
  have hc' : 0 < s.beforeIssue.issue.cycle := by rwa [(issue_keeps _).cycle]
  exact (hissue.frontHalf_stalls hroomy hc' hb).trans (beforeDispatch_stalls s hroomy.in_front.1)

/-- A structure with room for a whole reorder buffer never stalls a run. -/
theorem roomy_never_stalls (mem : Memory) (cfg : Config) (entryPc : Word) (k : ℕ) (c : Stall)
    (h : cfg.Admissible)
    (hroomy : cfg.Roomy c) (hb : (ticked mem cfg entryPc k).stats.renamed < 4294967296)
    (hself : NoSelfMod (committed mem cfg entryPc k)) :
    (ticked mem cfg entryPc k).stats.stalls c = 0 :=
  ticked_induct (P := fun _ t => t.stats.stalls c = 0) mem h rfl
    (fun _ hs hlt hzero => (hs.tick_stalls hroomy hlt).trans hzero) k hself hb

theorem roomy_never_stalls_skipping : (ticked skipping {} 0 9).stats.stalls .physreg = 0 :=
  roomy_never_stalls skipping {} 0 9 .physreg admissible_default rfl (by decide +kernel)
    (by decide +kernel)

end Cpu

end OooCpu
