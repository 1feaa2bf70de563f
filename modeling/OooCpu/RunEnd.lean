import OooCpu.Refinement

/-! # Where a program ends

The reference interpreter stops before the first step it does not need. The
pipeline retires nothing either once it has finished, so a finished run has
retired as many instructions as the interpreter executes, on any machine. -/
namespace OooCpu

namespace Ref

/-- Execute steps until the program halts, traps or runs out of budget, and say whether it ran
out. -/
def runLoop (maxInsts : ℕ) : ℕ → Memory × Result → (Memory × Result) × Bool
  | 0, p => (p, false)
  | n + 1, p =>
    if p.2.done then (p, false)
    else if maxInsts ≤ p.2.retired then (p, true)
    else runLoop maxInsts n (step p.1 p.2)

def run (mem : Memory) (entryPc : Word) (maxInsts : ℕ) : (Memory × Result) × Bool :=
  runLoop maxInsts (maxInsts + 1) (mem, { pc := entryPc })

/-- The program is still running before each of its first `n` steps. -/
def RunsFor (image : Memory) (entryPc : Word) (n : ℕ) : Prop :=
  ∀ i < n, (steps image entryPc i).2.done = false

variable {image : Memory} {entryPc : Word} {maxInsts n m : ℕ}

theorem retired_steps (n : ℕ) : (steps image entryPc n).2.retired = n := by
  induction n with
  | zero => rfl
  | succ n ih =>
    change (steps image entryPc n).2.retired + 1 = n + 1
    rw [ih]

/-- A program that has ended has done so after one number of steps. -/
theorem RunsFor.unique (hn : RunsFor image entryPc n) (hm : RunsFor image entryPc m)
    (hdone : (steps image entryPc n).2.done = true)
    (hdone' : (steps image entryPc m).2.done = true) : n = m := by
  rcases Nat.lt_trichotomy n m with hlt | heq | hlt
  · exact absurd hdone (by simp [hm n hlt])
  · exact heq
  · exact absurd hdone' (by simp [hn m hlt])

/-- From step `m` on the loop goes to the end of the program, if its budget lasts. -/
theorem runLoop_eq (hn : RunsFor image entryPc n) (hdone : (steps image entryPc n).2.done = true)
    (hle : n ≤ maxInsts)
    (fuel : ℕ) (hm : m ≤ n) (hfuel : n < m + fuel) :
    runLoop maxInsts fuel (steps image entryPc m) = (steps image entryPc n, false) := by
  induction fuel generalizing m with
  | zero => omega
  | succ fuel ih =>
    rw [runLoop]
    by_cases he : m = n
    · subst he
      rw [if_pos hdone]
    · have hrunning := hn m (by omega)
      rw [if_neg (by simp [hrunning]), retired_steps, if_neg (by omega)]
      exact ih (m := m + 1) (by omega) (by omega)

theorem run_eq (hn : RunsFor image entryPc n) (hdone : (steps image entryPc n).2.done = true)
    (hle : n ≤ maxInsts) : run image entryPc maxInsts = (steps image entryPc n, false) :=
  runLoop_eq hn hdone hle (maxInsts + 1) (Nat.zero_le n) (by omega)

end Ref

namespace Cpu
variable {kinds : Prop} {image : Memory} {entryPc : Word} {cfg : Config} {s : Cpu} {log : List Uop}
    {N k : ℕ}

namespace Tracked

theorem beginCycle (h : Tracked image entryPc N cfg (s, log)) :
    Tracked image entryPc N cfg (s.beginCycle, log) :=
  ⟨h.beside.same (fun _ => rfl) ⟨rfl, rfl, rfl, rfl, rfl, rfl, rfl⟩ rfl, h.archPc, h.halted,
    h.trapped, h.exitCode, h.queueCap, h.next, h.ran⟩

/-- What retires is a step the reference takes. -/
theorem commitOne_runsFor {q : Cpu × List Uop} (h : Tracked image entryPc N cfg (s, log))
    (hs : Steady kinds cfg entryPc (s, log))
    (hstep : CommitStep s log q) (hruns : Ref.RunsFor image entryPc log.length) :
    Ref.RunsFor image entryPc q.2.length := by
  have hretire {e : RobEntry} {rob : Rob} (hp : s.rob.popHeadIfComplete = some (e, rob)) (u : Uop) :
      Ref.RunsFor image entryPc (log ++ [u]).length := by
    have hrunning : s.done = false := by
      by_contra hd
      have hw := (hs.coherent.retire hp).2.1
      rw [hs.drained (by simpa using hd)] at hw
      contradiction
    intro i hi
    rw [List.length_append, List.length_singleton] at hi
    by_cases he : i = log.length
    · rw [he, Ref.Result.done, ← h.halted, ← h.trapped]
      exact hrunning
    · exact hruns i (by omega)
  cases hstep with
  | idle => exact hruns
  | retired hp => exact hretire hp _
  | finished hp => exact hretire hp _

theorem commit_runsFor (h : Tracked image entryPc N cfg (s, log))
    (hs : Steady kinds cfg entryPc (s, log))
    (hle : (commitLogged (s, log)).2.length ≤ N) (hruns : Ref.RunsFor image entryPc log.length) :
    Ref.RunsFor image entryPc (commitLogged (s, log)).2.length := by
  refine ((forLoop_preserves (fun q => Steady kinds cfg entryPc q ∧ (q.2.length ≤ N →
    Tracked image entryPc N cfg q ∧ Ref.RunsFor image entryPc q.2.length)) (fun q hq => ?_) _ ⟨hs,
    fun _ => ⟨h, hruns⟩⟩).2 hle).2
  have hstep := commitOneLogged_step q.1 q.2
  have hlen : q.2.length ≤ (commitOneLogged (q.1, q.2)).state.2.length := by
    generalize (commitOneLogged (q.1, q.2)).state = q' at hstep
    cases hstep <;> simp
  refine ⟨hq.1.commitOne hstep, fun hle => ?_⟩
  obtain ⟨htrack, hruns⟩ := hq.2 (hlen.trans hle)
  exact ⟨htrack.commitOne hq.1 hstep hle, htrack.commitOne_runsFor hq.1 hstep hruns⟩

end Tracked

/-- The pipeline retires only steps the reference takes. -/
theorem runsFor_committed (h : cfg.Admissible) (k : ℕ)
    (hspaced : Ref.Spaced image entryPc cfg.reach N)
    (hle : (committed image cfg entryPc k).length ≤ N)
    (hb : (ticked image cfg entryPc k).stats.renamed < 4294967296) :
    Ref.RunsFor image entryPc (committed image cfg entryPc k).length := by
  induction k with
  | zero => exact fun i hi => absurd hi (Nat.not_lt_zero i)
  | succ k ih =>
    obtain ⟨hrenamed, more, hmore, -⟩ := tickLogged_extends (history image cfg entryPc k)
    rw [← history_succ, history_fst, history_fst] at hrenamed
    have hshort : (committed image cfg entryPc k).length ≤
        (committed image cfg entryPc (k + 1)).length := by
      rw [committed, committed, history_succ, hmore]
      simp
    obtain ⟨hs, htrack⟩ := history_tracked h k hspaced (hshort.trans hle) (hrenamed.trans_lt hb)
    have hruns := ih (hshort.trans hle) (hrenamed.trans_lt hb)
    rw [committed] at hruns hle ⊢
    rw [history_succ] at hle ⊢
    generalize history image cfg entryPc k = p at *
    obtain ⟨s, log⟩ := p
    have hcommit := fun hle => htrack.beginCycle.commit_runsFor hs.beginCycle hle hruns
    revert hle
    refine tickLogged_cases (P := fun _ log => log.length ≤ N →
      Ref.RunsFor image entryPc log.length)
      (fun _ => hruns) hcommit fun t log' hq _ _ hle => ?_
    rw [hq] at hcommit
    exact hcommit hle

/-- What a finished run leaves, and the instructions it took. -/
structure SameRun (s t : Cpu) : Prop where
  retired : s.stats.retired = t.stats.retired
  regs : ∀ r, s.reg r = t.reg r
  mem : ∀ a, s.mem.loadU8 a = t.mem.loadU8 a
  archPc : s.archPc = t.archPc
  halted : s.halted = t.halted
  trapped : s.trapped = t.trapped
  exitCode : s.exitCode = t.exitCode

/-- A finished run has taken exactly the steps the reference takes to end. -/
theorem ended_ticked (h : cfg.Admissible)
    (hb : (ticked image cfg entryPc k).stats.renamed < 4294967296)
    (htame : Ref.Tame image entryPc (ticked image cfg entryPc k).stats.retired)
    (hdone : (ticked image cfg entryPc k).done = true) :
    Ref.RunsFor image entryPc (ticked image cfg entryPc k).stats.retired ∧
      (Ref.steps image entryPc (ticked image cfg entryPc k).stats.retired).2.done = true ∧
      Agrees image entryPc (ticked image cfg entryPc k).stats.retired (ticked image cfg entryPc k) ∧
      Along (fun m _ => m + 1) (Ran image entryPc) 0 (committed image cfg entryPc k) := by
  have hlen : (committed image cfg entryPc k).length = (ticked image cfg entryPc k).stats.retired :=
    committed_length _ _
  have htrack := (history_tracked h k (htame.spaced cfg.reach) hlen.le hb).2
  have hruns := runsFor_committed h k (htame.spaced cfg.reach) hlen.le hb
  have hagrees := htrack.agrees
  have hran : Along (fun m _ => m + 1) (Ran image entryPc) 0 (committed image cfg entryPc k) :=
    htrack.ran
  change Agrees image entryPc (committed image cfg entryPc k).length
    (history image cfg entryPc k).1 at hagrees
  rw [history_fst, hlen] at hagrees
  rw [hlen] at hruns
  refine ⟨hruns, ?_, hagrees, hran⟩
  rw [Ref.Result.done, ← hagrees.halted, ← hagrees.trapped]
  exact hdone

/-- A finished run leaves the same on every machine, and the instructions that retired are the same
ones in the same order, as many as the reference executes before it stops. -/
theorem machines_agree (image : Memory) (entryPc : Word) (cfg cfg' : Config) (k k' : ℕ)
    (h : cfg.Admissible)
    (h' : cfg'.Admissible) (hb : (ticked image cfg entryPc k).stats.renamed < 4294967296)
    (hb' : (ticked image cfg' entryPc k').stats.renamed < 4294967296)
    (htame : Ref.Tame image entryPc (ticked image cfg entryPc k).stats.retired)
    (hdone : (ticked image cfg entryPc k).done = true)
    (hdone' : (ticked image cfg' entryPc k').done = true) :
    SameRun (ticked image cfg entryPc k) (ticked image cfg' entryPc k') ∧
      (committed image cfg entryPc k).map (fun u => (u.pc, u.dec, u.nextPc)) =
        (committed image cfg' entryPc k').map (fun u => (u.pc, u.dec, u.nextPc)) ∧
      Ref.RunsFor image entryPc (ticked image cfg entryPc k).stats.retired ∧
      (Ref.steps image entryPc (ticked image cfg entryPc k).stats.retired).2.done = true := by
  obtain ⟨hruns, hends, hagrees, hran⟩ := ended_ticked h hb htame hdone
  have htame' := htame.extend hends (ticked image cfg' entryPc k').stats.retired
  obtain ⟨hruns', hends', hagrees', hran'⟩ := ended_ticked h' hb' htame' hdone'
  have hretired := hruns.unique hruns' hends hends'
  rw [← hretired] at hagrees'
  refine ⟨⟨hretired, fun r => ?_, fun a => ?_, ?_, ?_, ?_, ?_⟩, ?_, hruns, hends⟩
  · rw [hagrees.regs, hagrees'.regs]
  · rw [hagrees.mem, hagrees'.mem]
  · rw [hagrees.pc, hagrees'.pc]
  · rw [hagrees.halted, hagrees'.halted]
  · rw [hagrees.trapped, hagrees'.trapped]
  · rw [hagrees.exitCode, hagrees'.exitCode]
  · have hok (m : ℕ) (u : Uop) (hu : Ran image entryPc m u) : (u.pc, u.dec, u.nextPc) =
        (Ref.pcAt image entryPc m, Ref.insnAt image entryPc m,
          (Ref.effectAt image entryPc m).nextPc) := by
      rw [hu.pc, hu.dec, hu.nextPc]
    have hlen : (committed image cfg entryPc k).length =
      (ticked image cfg entryPc k).stats.retired := committed_length _ _
    have hlen' : (committed image cfg' entryPc k').length =
      (ticked image cfg' entryPc k').stats.retired := committed_length _ _
    rw [hran.map_eq hok, hran'.map_eq hok, hlen, hlen', hretired]

theorem machines_agree_skipping :
    SameRun (ticked skipping {} 0 20) (ticked skipping { width := 1 } 0 30) ∧
      (committed skipping {} 0 20).map (fun u => (u.pc, u.dec, u.nextPc)) =
        (committed skipping { width := 1 } 0 30).map (fun u => (u.pc, u.dec, u.nextPc)) ∧
    Ref.RunsFor skipping 0 (ticked skipping {} 0 20).stats.retired ∧
    (Ref.steps skipping 0 (ticked skipping {} 0 20).stats.retired).2.done = true :=
  machines_agree skipping 0 {} { width := 1 } 20 30 admissible_default { admissible_default with }
    (by decide +kernel)
    (by decide +kernel) (by decide +kernel) (by decide +kernel) (by decide +kernel)

end Cpu

end OooCpu
