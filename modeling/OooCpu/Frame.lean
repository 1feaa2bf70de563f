import OooCpu.IssueSteps

/-! # What only commit changes

Memory, the committed mapping, the program counter of the last retired
instruction and the end of the run are commit's business. Every other stage
leaves them alone. -/
namespace OooCpu.Cpu
variable {s t : Cpu}

/-- From `s` to `t` no stage but rename, and never commit, has touched what retirement decides. -/
structure Keeps (s t : Cpu) : Prop where
  cfg : t.cfg = s.cfg
  mem : t.mem = s.mem
  archRat : t.archRat = s.archRat
  archPc : t.archPc = s.archPc
  halted : t.halted = s.halted
  trapped : t.trapped = s.trapped
  exitCode : t.exitCode = s.exitCode
  cycle : t.cycle = s.cycle
  queueCap : t.queueCap = s.queueCap
  retired : t.stats.retired = s.stats.retired
  renamed : s.stats.renamed ≤ t.stats.renamed

namespace Keeps

theorem refl (s : Cpu) : s.Keeps s := ⟨rfl, rfl, rfl, rfl, rfl, rfl, rfl, rfl, rfl, rfl, le_refl _⟩

theorem trans {a b c : Cpu} (h : a.Keeps b) (h' : b.Keeps c) : a.Keeps c :=
  ⟨h'.cfg.trans h.cfg, h'.mem.trans h.mem, h'.archRat.trans h.archRat, h'.archPc.trans h.archPc,
    h'.halted.trans h.halted, h'.trapped.trans h.trapped, h'.exitCode.trans h.exitCode,
    h'.cycle.trans h.cycle, h'.queueCap.trans h.queueCap, h'.retired.trans h.retired,
    h.renamed.trans h'.renamed⟩

theorem done (h : s.Keeps t) : t.done = s.done := by rw [Cpu.done, h.halted, h.trapped, Cpu.done]

end Keeps

theorem FetchStep.keeps (h : FetchStep s t) : s.Keeps t := by
  cases h <;> exact ⟨rfl, rfl, rfl, rfl, rfl, rfl, rfl, rfl, rfl, rfl, le_refl _⟩

theorem DecodeStep.keeps (h : DecodeStep s t) : s.Keeps t := by
  cases h <;> exact ⟨rfl, rfl, rfl, rfl, rfl, rfl, rfl, rfl, rfl, rfl, le_refl _⟩

theorem RenameStep.keeps (h : RenameStep s t) : s.Keeps t := by
  cases h with
  | idle => exact .refl s
  | stalled c => exact ⟨rfl, rfl, rfl, rfl, rfl, rfl, rfl, rfl, rfl, rfl, le_refl _⟩
  | renamed => exact ⟨rfl, rfl, rfl, rfl, rfl, rfl, rfl, rfl, rfl, rfl, Nat.le_succ _⟩

theorem DispatchStep.keeps (h : DispatchStep s t) : s.Keeps t := by
  cases h <;> exact ⟨rfl, rfl, rfl, rfl, rfl, rfl, rfl, rfl, rfl, rfl, le_refl _⟩

theorem fetch_keeps (s : Cpu) : s.Keeps s.fetch := by
  unfold fetch
  split
  · exact .refl s
  · exact forLoop_relates Keeps .refl Keeps.trans (fun t => (fetchOne_step t).keeps) _ s

theorem decodeStage_keeps (s : Cpu) : s.Keeps s.decodeStage :=
  forLoop_relates Keeps .refl Keeps.trans (fun t => (decodeOne_step t).keeps) _ s

theorem rename_keeps (s : Cpu) : s.Keeps s.rename :=
  forLoop_relates Keeps .refl Keeps.trans (fun t => (renameOne_step t).keeps) _ s

theorem dispatch_keeps (s : Cpu) : s.Keeps s.dispatch :=
  forLoop_relates Keeps .refl Keeps.trans (fun t => (dispatchOne_step t).keeps) _ s

theorem issueOne_keeps (p : IssuePass) (e : IssueQueue.Entry) : p.cpu.Keeps (issueOne p e).cpu := by
  simp only [issueOne]
  cases ha : p.cpu.attempt e with
  | turnedAway s' why =>
    rcases attempt_turnedAway ha with rfl | ⟨_, _, _, _, rfl⟩ <;>
      exact ⟨rfl, rfl, rfl, rfl, rfl, rfl, rfl, rfl, rfl, rfl, le_refl _⟩
  | launched s' u latency f unit =>
    obtain ⟨_, _, _, _, _, rfl, -, -⟩ := attempt_frame ha
    exact ⟨rfl, rfl, rfl, rfl, rfl, rfl, rfl, rfl, rfl, rfl, le_refl _⟩

theorem issueScan_keeps (s : Cpu) : s.Keeps s.issueScan.cpu :=
  issueScan_preserves (P := fun p => s.Keeps p.cpu)
    (fun p e hp _ _ => hp.trans (issueOne_keeps p e)) (.refl s)

theorem chargeSlots_keeps (p : IssuePass) : p.cpu.Keeps (chargeSlots p) := by
  obtain ⟨t, heq, h1, h2, -⟩ := chargeSlots_eq p
  rw [heq]
  exact ⟨rfl, rfl, rfl, rfl, rfl, rfl, rfl, rfl, rfl, h2, h1.ge⟩

theorem issue_keeps (s : Cpu) : s.Keeps s.issue := by
  have hcharged := (issueScan_keeps s).trans (chargeSlots_keeps s.issueScan)
  simp only [issue]
  cases s.issueScan.offender with
  | none => exact hcharged
  | some br => exact hcharged.trans ⟨rfl, rfl, rfl, rfl, rfl, rfl, rfl, rfl, rfl, rfl, le_refl _⟩

theorem execute_keeps (s : Cpu) : s.Keeps s.execute :=
  ⟨rfl, rfl, rfl, rfl, rfl, rfl, rfl, rfl, rfl, rfl, le_refl _⟩

theorem writeback_keeps (s : Cpu) : s.Keeps s.writeback := by
  have hfast : s.Keeps (forLoop writebackFastOne s.wbFast.length (s, s.cfg.numCdb)).1 := by
    refine forLoop_preserves (fun p : Cpu × ℕ => s.Keeps p.1) (fun p hp => ?_) _ (Keeps.refl s)
    obtain ⟨t, ports⟩ := p
    simp only [writebackFastOne]
    split
    · exact hp
    split
    · exact hp
    · exact hp.trans ⟨rfl, rfl, rfl, rfl, rfl, rfl, rfl, rfl, rfl, rfl, le_refl _⟩
  have hslow (n : ℕ) :
      s.Keeps (forLoop writebackSlowOne n (forLoop writebackFastOne s.wbFast.length (s,
        s.cfg.numCdb))).1 := by
    refine forLoop_preserves (fun p : Cpu × ℕ => s.Keeps p.1) (fun p hp => ?_) n hfast
    obtain ⟨t, ports⟩ := p
    simp only [writebackSlowOne]
    split
    · exact hp
    split
    · exact hp
    · exact hp.trans ⟨rfl, rfl, rfl, rfl, rfl, rfl, rfl, rfl, rfl, rfl, le_refl _⟩
  exact (hslow _).trans ⟨rfl, rfl, rfl, rfl, rfl, rfl, rfl, rfl, rfl, rfl, le_refl _⟩

/-- Everything a running cycle does behind commit. -/
theorem behindCommit_keeps (s : Cpu) :
    s.Keeps s.writeback.execute.issue.dispatch.rename.decodeStage.fetch :=
  (writeback_keeps s).trans <| (execute_keeps _).trans <| (issue_keeps _).trans <|
    (dispatch_keeps _).trans <| (rename_keeps _).trans <| (decodeStage_keeps _).trans
      (fetch_keeps _)

end OooCpu.Cpu
