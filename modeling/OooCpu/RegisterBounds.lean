import OooCpu.InFlight

/-! # Indices into the register file

Which registers the stages read, write and mark, and when they all exist. A file
too small for the committed mapping is read past its end before anything runs. -/
namespace OooCpu

/-- The bounds of an admissible shape that do not concern the register file. -/
structure Config.Sized (c : Config) : Prop where
  prf_lt : c.prfSize < 2^32
  rob_lt : c.robSize < 2^31
  iq_lt : c.iqSize < 2^31
  lq_lt : c.lqSize < 2^31
  sq_lt : c.sqSize < 2^31
  checkpoints_lt : c.numCheckpoints < 2^31
  alu_lt : c.aluLatency + 2 < 2^32
  branch_lt : c.branchLatency + 2 < 2^32
  mul_lt : c.mulLatency + 2 < 2^32
  div_lt : c.divLatency + 2 < 2^32
  mem_lt : c.memLatency + 2 < 2^32

theorem Config.Sized.admissible {c : Config} (h : c.Sized) (hprf : 32 ≤ c.prfSize) : c.Admissible :=
  ⟨hprf, h.prf_lt, h.rob_lt, h.iq_lt, h.lq_lt, h.sq_lt, h.checkpoints_lt, h.alu_lt, h.branch_lt,
    h.mul_lt, h.div_lt, h.mem_lt⟩

namespace Cpu
variable {kinds : Prop} {cfg : Config} {s t : Cpu} {u : Uop} {pre post : List Uop} {n : ℕ}

/-- Every index a stage may hand to the register file. -/
structure InBounds (cfg : Config) (s : Cpu) : Prop where
  /-- `reg()`, `regs()` and the registers commit reads -/
  committed : ∀ a, s.archRat a < cfg.prfSize
  /-- operands read at issue -/
  operands : ∀ e ∈ s.iq.entries, (s.inflight e.rob).src1 < cfg.prfSize ∧
    (s.inflight e.rob).src2 < cfg.prfSize
  /-- ready bits sampled at dispatch -/
  sampled : ∀ u ∈ s.renameQ, u.src1 < cfg.prfSize ∧ u.src2 < cfg.prfSize
  /-- results written back -/
  written : ∀ u ∈ s.executing ++ s.wbFast ++ s.wbSlow, u.dest ≠ INVALID_PHYSREG →
    u.dest < cfg.prfSize
  /-- destinations rename marks pending -/
  marked : ∀ p ∈ s.freeList.regs, p < cfg.prfSize

/-- The machines a cycle of `s` goes through wherever a stage uses the register file. -/
inductive Through (s : Cpu) : Cpu → Prop
  | start : Through s s
  | commit (n : ℕ) (hd : s.done = false) : Through s (forLoop commitOne n s.beginCycle)
  | writeback (hd : s.done = false) (hd' : s.beginCycle.commit.done = false) :
      Through s s.beginCycle.commit.writeback
  | execute (hd : s.done = false) (hd' : s.beginCycle.commit.done = false) : Through s s.beforeIssue
  | issue (hd : s.done = false) (hd' : s.beginCycle.commit.done = false) :
      Through s s.beforeIssue.issue
  | dispatch (n : ℕ) (hd : s.done = false) (hd' : s.beginCycle.commit.done = false) :
    Through s (forLoop dispatchOne n s.beforeIssue.issue)
  | rename (n : ℕ) (hd : s.done = false) (hd' : s.beginCycle.commit.done = false) :
    Through s (forLoop renameOne n s.beforeIssue.issue.dispatch)

namespace Coherent
variable (h : s.Coherent cfg)
include h

private theorem source_lt (hu : u ∈ s.window) : u.src1 < cfg.prfSize ∧ u.src2 < cfg.prfSize := by
  obtain ⟨pre, post, hw⟩ := List.append_of_mem hu
  have hrenamed := h.mapped.renamedUnder hw
  have hlt (a : ArchReg) : pre.foldl Uop.remap s.archRat a < cfg.prfSize := by
    rw [← h.sized.freeList]
    apply h.mapped.lt_capacity
    cases List.mem_append.mp (foldl_remap_mem pre s.archRat a) with
    | inl hm => exact List.mem_append_left _ (List.mem_append_right _ hm)
    | inr hm =>
      rw [hw, dests_append]
      exact List.mem_append_right _ (List.mem_append_left _ hm)
  rw [hrenamed.src1, hrenamed.src2]
  exact ⟨hlt _, hlt _⟩

theorem inBounds : s.InBounds cfg where
  committed a := by
    rw [← h.sized.freeList]
    exact h.mapped.lt_capacity
      (List.mem_append_left _ (List.mem_append_right _ (map_mem_ofFn s.archRat a)))
  operands e he := by
    obtain ⟨u, hu, -, hbare⟩ := h.staged.mem_iq he
    have hrob : e.rob = u.rob := congrArg IssueQueue.Entry.rob hbare
    rw [hrob, (h.buffered.mem_window hu).2.1]
    exact h.source_lt hu
  sampled u hu := by
    rw [h.renameQ_eq] at hu
    exact h.source_lt (List.mem_of_mem_filter hu)
  written u hu hd := by
    have huw := (h.staged.mem_running hu).1
    obtain ⟨pre, post, hw⟩ := List.append_of_mem huw
    have hwr : u.dec.writesRd = true := by
      by_contra hne
      exact hd ((h.mapped.renamedUnder hw).none (by simpa using hne)).1
    rw [← h.sized.freeList]
    exact (h.mapped.dest_spec huw hwr).2.2.2.1
  marked p hp := by
    rw [← h.sized.freeList]
    exact h.mapped.lt_capacity (List.mem_append_left _ (List.mem_append_left _ hp))

end Coherent

/-- A steady machine stays coherent all the way through its next cycle. -/
theorem Steady.through {entryPc : Word} {log : List Uop} (h : Steady kinds cfg entryPc (s, log))
    (ht : Through s t)
    (hb : t.stats.renamed < 4294967296) : t.Coherent cfg := by
  have hcommit := h.coherent.beginCycle.commitPasses
  have hc : 0 < s.beginCycle.commit.cycle := by
    rw [commit_cycle]
    exact Nat.succ_pos _
  have hissue (hd' : s.beginCycle.commit.done = false) :
      s.beforeIssue.issue.Coherent cfg ∧ 0 < s.beforeIssue.issue.cycle := by
    obtain ⟨log', hbefore, hcyc, hrunning⟩ := h.beforeIssue hd'
    exact ⟨(hbefore.issue hcyc hrunning).coherent, by rw [(issue_keeps _).cycle]; exact hcyc⟩
  have hdispatch (hd' : s.beginCycle.commit.done = false) (n : ℕ) :
      (forLoop dispatchOne n s.beforeIssue.issue).Coherent cfg ∧
        0 < (forLoop dispatchOne n s.beforeIssue.issue).cycle :=
    forLoop_preserves (fun t : Cpu => t.Coherent cfg ∧ 0 < t.cycle)
      (fun t ht => ⟨ht.1.dispatchStep ht.2 (dispatchOne_step t),
        by rw [(dispatchOne_step t).keeps.cycle]; exact ht.2⟩) n
      (hissue hd')
  cases ht with
  | start => exact h.coherent
  | commit n => exact hcommit n
  | writeback => exact (hcommit _).writeback hc
  | execute => exact h.coherent.beforeIssue.1
  | issue _ hd' => exact (hissue hd').1
  | dispatch n _ hd' => exact (hdispatch hd' n).1
  | rename n _ hd' =>
    exact forLoop_preserves (fun t : Cpu => t.stats.renamed < 4294967296 → t.Coherent cfg)
      (fun t ht hlt => by
        have hlt' := (renameOne_step t).keeps.renamed.trans_lt hlt
        exact (ht hlt').renameStep hlt' (renameOne_step t)) n (fun _ => (hdispatch hd' _).1) hb

private theorem commit_renamed (s : Cpu) (n : ℕ) :
    (forLoop commitOne n s).stats.renamed = s.stats.renamed :=
  commitOne_preserves (P := fun t => t.stats.renamed = s.stats.renamed) (fun ht _ _ => ht)
    (fun ht _ _ => ht) n rfl

private theorem Through.renamed_le (h : Through s t) : s.stats.renamed ≤ t.stats.renamed := by
  have hcommit (n : ℕ) : (forLoop commitOne n s.beginCycle).stats.renamed = s.stats.renamed :=
    commit_renamed _ n
  have hissue :=
    (writeback_keeps s.beginCycle.commit).trans <| (execute_keeps _).trans (issue_keeps _)
  have hdispatch (n : ℕ) :=
    forLoop_relates Keeps .refl Keeps.trans (fun t => (dispatchOne_step t).keeps) n
    s.beforeIssue.issue
  have hbegin : s.beginCycle.commit.stats.renamed = s.stats.renamed := hcommit _
  cases h with
  | start => exact le_refl _
  | commit n => exact (hcommit n).ge
  | writeback => exact hbegin.ge.trans (writeback_keeps _).renamed
  | execute => exact hbegin.ge.trans ((writeback_keeps _).trans (execute_keeps _)).renamed
  | issue => exact hbegin.ge.trans hissue.renamed
  | dispatch n => exact hbegin.ge.trans (hissue.trans (hdispatch n)).renamed
  | rename n =>
    have hrename := forLoop_relates Keeps .refl Keeps.trans (fun t => (renameOne_step t).keeps) n
      s.beforeIssue.issue.dispatch
    exact hbegin.ge.trans ((hissue.trans (dispatch_keeps _)).trans hrename).renamed

/-- The register file is used within its bounds over a whole run exactly when it holds the committed
mapping. -/
theorem inBounds_iff (mem : Memory) (cfg : Config) (entryPc : Word) (h : cfg.Sized) :
    (∀ k t, Through (ticked mem cfg entryPc k) t → t.stats.renamed < 4294967296 →
      NoSelfMod (committed mem cfg entryPc k) → t.InBounds cfg) ↔ 32 ≤ cfg.prfSize := by
  constructor
  · intro hall
    have hreset : (ticked mem cfg entryPc 0).InBounds cfg :=
      hall 0 _ .start (Nat.zero_lt_succ _) (fun _ hi => absurd hi (by simp [committed, history]))
    by_contra hprf
    -- the committed mapping starts out as the identity
    have hlast : (31 : ℕ) < cfg.prfSize := hreset.committed 31
    exact hprf hlast
  · intro hprf k t ht hb hself
    exact ((steady_ticked (h.admissible hprf) mem k hself (ht.renamed_le.trans_lt hb)).through ht
      hb).inBounds

theorem inBounds_iff_default :
    (∀ k t, Through (ticked skipping {} 0 k) t → t.stats.renamed < 4294967296 →
      NoSelfMod (committed skipping {} 0 k) → t.InBounds {}) ↔ 32 ≤ ({} : Config).prfSize :=
  inBounds_iff skipping {} 0 (by constructor <;> decide)

/-- With eight registers the mapping of `x31` lies outside the file from the start. -/
theorem small_prf_out_of_bounds :
    ¬(ticked skipping { prfSize := 8 } 0 0).InBounds { prfSize := 8 } :=
  fun h => absurd (h.committed 31) (by decide)

end Cpu

end OooCpu
