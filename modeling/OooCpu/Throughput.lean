import OooCpu.Dataflow
import OooCpu.Ports

/-! # What the machine has time for

A unit serves one operation at a time, and commit retires no more than the width.
However independent its instructions are, a program takes at least the time its
units and its retirements take. -/
namespace OooCpu

/-- When a uop gives its unit back: a pipelined unit takes a new operation every cycle. -/
def Uop.leaves (u : Uop) : ℕ :=
  if Cpu.pipelined (Cpu.unitOf u.dec) then u.stageAt.issue + 1 else u.wbCycle

/-- A uop holds a unit of class `f` in cycle `c`. -/
def Uop.holds (f : Fu) (c : ℕ) (u : Uop) : Bool :=
  u.isIssued && decide (Cpu.unitOf u.dec = f) && decide (u.stageAt.issue ≤ c ∧ c < u.leaves)

namespace Cpu
variable {cfg : Config} {entryPc : Word} {s s' t : Cpu} {log log' us vs pre post : List Uop}
    {e : IssueQueue.Entry}
  {u v : Uop} {f g : Fu} {c unit latency : ℕ} {φ : Phase}

/-- No class serves more than it has units for, and what its units are taken for in the coming
cycles covers the uops that hold one. -/
structure Served (cfg : Config) (s : Cpu) (us : List Uop) : Prop where
  count : ∀ f, f ≠ .none → (s.fuFreeAt f).length = cfg.units f
  past : ∀ f, f ≠ .none → ∀ c < s.cycle, us.countP (Uop.holds f c) ≤ cfg.units f
  coming : ∀ f, f ≠ .none → ∀ c, s.cycle ≤ c →
    us.countP (Uop.holds f c) ≤ (s.fuFreeAt f).countP fun t => c < t

/-- A free unit counts from when it is taken. -/
theorem countP_taken (hunit : s.freeUnit f = some unit) (hf : f ≠ .none) (n : ℕ)
    (hc : s.cycle ≤ c) : ((s.fuFreeAt f).set unit n).countP (fun t => c < t) =
      (s.fuFreeAt f).countP (fun t => c < t) + if c < n then 1 else 0 := by
  rw [freeUnit, if_neg hf, List.findIdx?_eq_some_iff_getElem] at hunit
  obtain ⟨hlt, hfree, -⟩ := hunit
  have hfree' : ¬c < (s.fuFreeAt f)[unit] := by
    have := of_decide_eq_true hfree
    omega
  simp only [List.countP_set hlt, decide_eq_true_eq, if_neg hfree', Nat.sub_zero]

theorem holds_of_not_issued (h : u.isIssued = false) : u.holds f c = false := by simp [Uop.holds, h]

/-- Putting another uop in the place of one that holds a unit whenever it does. -/
theorem countP_replace_le (h : v.holds f c = true → u.holds f c = true) :
    (log ++ (pre ++ v :: post)).countP (Uop.holds f c) ≤
      (log ++ (pre ++ u :: post)).countP (Uop.holds f c) := by
  simp only [List.countP_append, List.countP_cons]
  split
  · rename_i hv
    rw [if_pos (h hv)]
  · omega

/-- A load goes to the memory units. -/
theorem unitOf_of_isLoad (h : u.Sound) (hl : u.dec.isLoad = true) : unitOf u.dec = .mem := by
  have hload := h.shaped.load_iff
  have hkind : u.dec.kind = .load := by
    rw [hl] at hload
    rw [h.shaped.kind_eq]
    simpa using hload.symm
  rw [unitOf, hkind]

namespace Served

theorem reset (mem : Memory) : Served cfg (Cpu.reset mem cfg entryPc) [] where
  count f _ := by cases f <;> simp [Cpu.reset, Config.units] at *
  past f _ c _ := Nat.zero_le _
  coming f _ c _ := Nat.zero_le _

variable (h : Served cfg s us)
include h

theorem mono (hcyc : t.cycle = s.cycle) (hu : t.fuFreeAt = s.fuFreeAt)
    (hle : ∀ f, f ≠ .none → ∀ c, vs.countP (Uop.holds f c) ≤ us.countP (Uop.holds f c)) :
    Served cfg t vs where
  count f hf := by rw [hu]; exact h.count f hf
  past f hf c hc := (hle f hf c).trans (h.past f hf c (hcyc ▸ hc))
  coming f hf c hc := by rw [hu]; exact (hle f hf c).trans (h.coming f hf c (hcyc ▸ hc))

/-- A class that spends a free unit until `n` may have one more uop until then. -/
theorem take {n : ℕ} (hcyc : t.cycle = s.cycle) (hunit : s.freeUnit f = some unit) (hf : f ≠ .none)
    (hu : t.fuFreeAt = s.occupy f unit n)
    (hle : ∀ g c, vs.countP (Uop.holds g c) ≤
      us.countP (Uop.holds g c) + if g = f ∧ s.cycle ≤ c ∧ c < n then 1 else 0) :
    Served cfg t vs where
  count g hg := by
    rw [hu, ← h.count g hg, occupy]
    split
    · rename_i he
      rw [he, List.length_set]
    · rfl
  past g hg c hc := by
    have hbound := hle g c
    rw [if_neg (by omega)] at hbound
    exact hbound.trans (h.past g hg c (hcyc ▸ hc))
  coming g hg c hc := by
    rw [hcyc] at hc
    have hbound := hle g c
    have hold := h.coming g hg c hc
    rw [hu, occupy]
    split
    · rename_i he
      subst he
      rw [countP_taken hunit hf n hc]
      simp only [true_and, hc] at hbound
      omega
    · rename_i he
      rw [if_neg fun hand => he hand.1] at hbound
      exact hbound.trans hold

/-- The next cycle begins. -/
theorem beginCycle : Served cfg s.beginCycle us where
  count := h.count
  past f hf c hc := by
    by_cases hlt : c < s.cycle
    · exact h.past f hf c hlt
    · calc us.countP (Uop.holds f c) ≤ (s.fuFreeAt f).countP fun t => c < t := h.coming f hf c (by omega)
        _ ≤ (s.fuFreeAt f).length := List.countP_le_length
        _ = cfg.units f := h.count f hf
  coming f hf c hc := h.coming f hf c (Nat.le_of_succ_le hc)

/-- At no time are more of a class at work than it has units. -/
theorem le_units (hf : f ≠ .none) (c : ℕ) : us.countP (Uop.holds f c) ≤ cfg.units f := by
  by_cases hlt : c < s.cycle
  · exact h.past f hf c hlt
  · calc us.countP (Uop.holds f c) ≤ (s.fuFreeAt f).countP fun t => c < t := h.coming f hf c (by omega)
      _ ≤ (s.fuFreeAt f).length := List.countP_le_length
      _ = cfg.units f := h.count f hf

end Served

/-- Every move keeps the units to one operation at a time. -/
theorem Edit.served (hcoh : s.Coherent cfg) (hc : 0 < s.cycle) (hcyc : t.cycle = s.cycle)
    (h : Served cfg s (log ++ s.window)) (hedit : Edit s log φ t log') :
    Served cfg t (log' ++ t.window) := by
  cases hedit with
  | kept hu hwhole _ =>
    rw [hwhole]
    exact h.mono hcyc hu fun _ _ _ => le_rfl
  | cut hu hsplit _ =>
    refine h.mono hcyc hu fun f _ c => List.Sublist.countP_le ?_
    rw [hsplit]
    exact (List.sublist_append_left _ _).append_left _
  | landed hu hw hw' _ _ _ _ =>
    rw [hw] at h
    rw [hw']
    exact h.mono hcyc hu fun f _ c => countP_replace_le fun hv => hv
  | @turnedAway _ e why he ha hwin _ =>
    rw [hwin]
    rcases attempt_turnedAway_cases ha with ⟨rfl, -⟩ | ⟨hl, -, unit, n, obs, hunit, rfl⟩
    · exact h
    · rw [unitOf_of_isLoad (hcoh.sound _ (hcoh.candidate he).1) hl] at hunit
      exact h.take hcyc hunit (by decide) rfl fun g c => Nat.le_add_right _ _
  | @launched s' pre post e v latency unit f hw hw' he hready ha _ =>
    obtain ⟨rfl, hunit⟩ := attempt_unit ha
    obtain ⟨hissues, hcyc'⟩ := attempt_issues hc ha
    have hback := attempt_back ha
    have hnew (g : Fu) (c : ℕ) (hv : (stamped s' v latency).holds g c = true) :
        g = unitOf (s.inflight e.rob).dec ∧ s.cycle ≤ c ∧
          c < s.cycle + if pipelined (unitOf (s.inflight e.rob).dec) then 1 else latency := by
      simp only [Uop.holds, Uop.leaves, hissues.dec, Bool.and_eq_true, decide_eq_true_eq] at hv
      obtain ⟨⟨-, hg⟩, hle, hlt⟩ := hv
      have hissue : (stamped s' v latency).stageAt.issue = s.cycle := hcyc'
      have hwb : (stamped s' v latency).wbCycle = s.cycle + latency := by rw [← hcyc']; rfl
      rw [hissue] at hle hlt
      rw [hwb] at hlt
      refine ⟨hg.symm, hle, ?_⟩
      split at hlt <;> rename_i hp <;> simpa [hp] using hlt
    have hocc (n : ℕ) : s'.occupy (unitOf (s.inflight e.rob).dec) unit n =
        s.occupy (unitOf (s.inflight e.rob).dec) unit n := by
      funext g
      simp only [occupy, hback.fuFreeAt]
    rw [hw] at h
    rw [hw']
    by_cases hf : unitOf (s.inflight e.rob).dec = .none
    · refine h.mono hcyc ?_ fun g hg c => countP_replace_le fun hv =>
        absurd ((hnew g c hv).1.trans hf) hg
      simp only [Cpu.launch, if_pos hf, hback.fuFreeAt]
    · have hunits :
        (s'.launch e (stamped s' v latency) latency (unitOf (s.inflight e.rob).dec) unit).fuFreeAt =
          s.occupy (unitOf (s.inflight e.rob).dec) unit
            (s.cycle + if pipelined (unitOf (s.inflight e.rob).dec) then 1 else latency) := by
        simp only [Cpu.launch, if_neg hf, hocc, hcyc']
      refine h.take hcyc hunit hf hunits fun g c => ?_
      simp only [List.countP_append, List.countP_cons]
      split
      · rename_i hv
        rw [if_pos (hnew g c hv)]
        omega
      · omega
  | dispatched hu hw hw' _ _ _ =>
    rw [hw] at h
    rw [hw']
    exact h.mono hcyc hu fun f _ c => countP_replace_le fun hv => hv
  | @renamed _ u dest slot hu hblank hwin _ =>
    rw [hwin, ← List.append_assoc]
    refine h.mono hcyc hu fun f _ c => ?_
    have hissued : (s.renamed u dest slot).isIssued = false := hblank.issue
    rw [List.countP_append, List.countP_singleton, holds_of_not_issued hissued]
    exact le_rfl

private theorem served_ticked (mem : Memory) (h : cfg.Admissible) (k : ℕ)
    (hb : (ticked mem cfg entryPc k).stats.renamed < 4294967296)
    (hself : NoSelfMod (committed mem cfg entryPc k)) :
    Served cfg (ticked mem cfg entryPc k)
      (committed mem cfg entryPc k ++ (ticked mem cfg entryPc k).window) := by
  refine run_preserves (P := fun _ t log => Served cfg t (log ++ t.window))
    (fun hcoh hc hm ht => ?_)
    (fun _ ht => ht) (fun _ ht => ht.beginCycle) mem h ?_ k hb hself
  · obtain ⟨hedit, hcyc⟩ := hm.edit hcoh hc
    exact hedit.served hcoh hc hcyc ht
  · have hnone : (reset mem cfg entryPc).window = [] := rfl
    rw [hnone]
    exact .reset mem

/-- Commit retires no more than the width. -/
theorem tickLogged_length (p : Cpu × List Uop) :
    (tickLogged p).2.length ≤ p.2.length + p.1.cfg.width := by
  have hcommit : (commitLogged (p.1.beginCycle, p.2)).2.length ≤ p.2.length + p.1.cfg.width := by
    refine forLoop_counts (fun q : Cpu × List Uop => q.2.length) (fun q => ?_) p.1.cfg.width
      (p.1.beginCycle, p.2)
    have hstep := commitOneLogged_step q.1 q.2
    obtain ⟨s, log⟩ := q
    generalize (commitOneLogged (s, log)).state = r at hstep ⊢
    cases hstep with
    | idle => exact Nat.le_succ _
    | retired hp => simp
    | finished hp => simp
  refine tickLogged_cases (P := fun _ log => log.length ≤ p.2.length + p.1.cfg.width)
    (Nat.le_add_right _ _) hcommit
    fun t log hq _ _ => ?_
  rwa [hq] at hcommit

/-- Nothing retires in the first six cycles, and no more than the width in any later one. -/
private theorem retired_in_time (mem : Memory) (h : cfg.Admissible) (k : ℕ)
    (hb : (ticked mem cfg entryPc k).stats.renamed < 4294967296)
    (hself : NoSelfMod (committed mem cfg entryPc k)) :
    (committed mem cfg entryPc k).length ≤ cfg.width * ((ticked mem cfg entryPc k).cycle - 6) := by
  induction k with
  | zero => exact Nat.zero_le _
  | succ k ih =>
    obtain ⟨-, htimed⟩ := timed_ticked mem h entryPc (k + 1) hb hself
    obtain ⟨hb', hself'⟩ := ticked_before hb hself
    have hbefore := ih hb' hself'
    have hcfg : (ticked mem cfg entryPc k).cfg = cfg :=
      (steady_ticked h mem k hself' hb').coherent.sized.cfg_eq
    cases hd : (ticked mem cfg entryPc k).done with
    | true =>
      rw [committed_succ, tickLogged, if_pos hd, ticked_succ, tick_of_done hd]
      exact hbefore
    | false =>
      have hcyc : (ticked mem cfg entryPc (k + 1)).cycle =
          (ticked mem cfg entryPc k).cycle + 1 := by
        rw [ticked_succ, tick_cycle hd]
      have hlen : (committed mem cfg entryPc (k + 1)).length ≤
          (committed mem cfg entryPc k).length + cfg.width := by
        have hpass := tickLogged_length (ticked mem cfg entryPc k, committed mem cfg entryPc k)
        rw [← committed_succ] at hpass
        dsimp only at hpass
        rwa [hcfg] at hpass
      cases hlog : committed mem cfg entryPc (k + 1) with
      | nil => exact Nat.zero_le _
      | cons u rest =>
        obtain ⟨hclimbs, hcomplete⟩ := htimed.retired u (by simp [hlog])
        have hsix := hclimbs.lt_stamp hcomplete
        have hpast := hclimbs.before 5 (Phase.setting_pos 5)
        rw [← hlog]
        have hsplit : (ticked mem cfg entryPc (k + 1)).cycle - 6 =
          (ticked mem cfg entryPc k).cycle - 6 + 1 := by omega
        rw [hsplit, Nat.mul_succ]
        omega

/-- How long an instruction keeps its unit at least. -/
def keeps (cfg : Config) (u : Uop) : ℕ := if pipelined (unitOf u.dec) then 1 else fastest cfg u

/-- What has retired by cycle `now` fits in the time commit and the units had, from the sixth cycle
on. -/
structure Affordable (cfg : Config) (now : ℕ) (log : List Uop) : Prop where
  width : log.length ≤ cfg.width * (now - 6)
  units : ∀ f, f ≠ .none →
    ((log.filter fun u => unitOf u.dec = f).map (keeps cfg)).sum ≤ cfg.units f * (now - 6)

/-- No run retires more than commit and the units had the cycles for. -/
theorem affordable_ticked (mem : Memory) (cfg : Config) (entryPc : Word) (k : ℕ)
    (h : cfg.Admissible)
    (hb : (ticked mem cfg entryPc k).stats.renamed < 4294967296)
    (hself : NoSelfMod (committed mem cfg entryPc k)) :
    Affordable cfg (ticked mem cfg entryPc k).cycle (committed mem cfg entryPc k) := by
  refine ⟨retired_in_time mem h k hb hself, fun f hf => ?_⟩
  have hserved : Served cfg (ticked mem cfg entryPc k) _ := served_ticked mem h k hb hself
  have hflows : Flows cfg (ticked mem cfg entryPc k) (committed mem cfg entryPc k) :=
    flows_ticked mem h k hb hself
  obtain ⟨-, htimed⟩ := timed_ticked mem h entryPc k hb hself
  generalize ticked mem cfg entryPc k = s at *
  generalize committed mem cfg entryPc k = log at *
  -- a retired instruction held its unit from its issue on, at most until it completed
  have hheld (u : Uop) (hu : u ∈ log) :
    u.isIssued = true ∧ 5 ≤ u.stageAt.issue ∧ u.leaves ≤ s.cycle - 1 ∧
      keeps cfg u ≤ u.leaves - u.stageAt.issue := by
    obtain ⟨hclimbs, hcomplete⟩ := htimed.retired u hu
    obtain ⟨hissued, hlt⟩ := hclimbs.next 4 hcomplete
    have hfirst : 4 < u.stageAt.issue := hclimbs.lt_stamp hissued
    have hlast : u.stageAt.complete < s.cycle := hclimbs.before 5 (Phase.setting_pos 5)
    have hlands := hflows.lands u (List.mem_append_left _ hu)
    have hdue := hlands.due (bne_iff_ne.mpr hcomplete)
    have hissued' : u.isIssued = true := bne_iff_ne.mpr hissued
    change u.stageAt.issue < u.stageAt.complete at hlt
    refine ⟨hissued', hfirst, ?_, ?_⟩
    · unfold Uop.leaves
      split <;> omega
    · unfold keeps Uop.leaves fastest
      split
      · omega
      split
      · rename_i hl
        have := (hlands.load hissued' hl).1
        omega
      · rename_i hl
        have := hlands.fixed hissued' (by simpa using hl)
        omega
  calc ((log.filter fun u => unitOf u.dec = f).map (keeps cfg)).sum
      ≤ ((log.filter fun u => unitOf u.dec = f).map fun u => u.leaves - u.stageAt.issue).sum :=
        List.sum_le_sum fun u hu => (hheld u (List.mem_of_mem_filter hu)).2.2.2
    _ ≤ cfg.units f * (s.cycle - 1 - 5) := by
        refine Schedule.sum_durations_le (fun u hu => ?_) fun c => ?_
        · obtain ⟨-, hlo, hhi, -⟩ := hheld u (List.mem_of_mem_filter hu)
          exact ⟨hlo, hhi⟩
        · refine le_trans ?_ (hserved.le_units hf c)
          rw [Schedule.load, List.countP_filter, List.countP_append]
          refine (List.countP_mono_left fun u hu => ?_).trans (Nat.le_add_right _ _)
          simp only [Bool.and_eq_true, decide_eq_true_eq, Uop.holds, (hheld u hu).1, true_and]
          exact And.symm
    _ = cfg.units f * (s.cycle - 6) := rfl

theorem affordable_ticked_squaring :
    Affordable {} (ticked squaring {} 0 13).cycle (committed squaring {} 0 13) :=
  affordable_ticked squaring {} 0 13 admissible_default (by decide +kernel) (by decide +kernel)

end Cpu

end OooCpu
