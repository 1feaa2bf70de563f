import OooCpu.Schedule
import OooCpu.Timeline

/-! # Operands before results

No uop issues before the results it reads have landed, and a result lands its
latency after the issue. A chain of dependent instructions therefore takes the
sum of its latencies, on however wide a machine. -/
namespace OooCpu

/-- When the youngest writer of each register completed. -/
abbrev Completions := ArchReg → Option ℕ

/-- A writer replaces what is known of its register. -/
def Uop.completes (w : Completions) (u : Uop) : Completions :=
  if u.dec.writesRd then fun a => if a = u.dec.rd then some u.stageAt.complete else w a else w

def Uop.reads (u : Uop) (a : ArchReg) : Prop := a = u.dec.rs1 ∨ a = u.dec.rs2

/-- A uop that has issued waited for its operands. -/
def Uop.Waited (w : Completions) (u : Uop) : Prop :=
  u.isIssued = true → ∀ a, u.reads a → ∀ c, w a = some c → c ≠ 0 ∧ c ≤ u.stageAt.issue

/-- A uop of fixed latency lands on its date, a load on its date or later. -/
structure Uop.Lands (cfg : Config) (u : Uop) : Prop where
  fixed : u.isIssued = true → u.dec.isLoad = false →
    u.wbCycle = u.stageAt.issue + Cpu.latencyOf cfg u.dec
  load : u.isIssued = true → u.dec.isLoad = true →
    u.stageAt.issue < u.wbCycle ∧ u.wbCycle ≤ u.stageAt.issue + Cpu.latencyOf cfg u.dec
  due : u.isComplete = true → u.wbCycle ≤ u.stageAt.complete
  onDate : u.isComplete = true → u.dec.isLoad = false → u.stageAt.complete = u.wbCycle

namespace Cpu
variable {cfg : Config} {entryPc : Word} {s t : Cpu} {log log' us pre post : List Uop} {u v : Uop}

/-- The uop at `j` reads what the uop at `i` writes. -/
def Feeds (us : List Uop) (i j : Fin us.length) : Prop :=
  i < j ∧ (us.get i).dec.writesRd = true ∧ (us.get j).reads (us.get i).dec.rd ∧
    ∀ m, i < m → m < j → (us.get m).dec.writesRd = true → (us.get m).dec.rd ≠ (us.get i).dec.rd

instance (u : Uop) (a : ArchReg) : Decidable (u.reads a) := inferInstanceAs (Decidable (_ ∨ _))

instance (us : List Uop) (i j : Fin us.length) : Decidable (Feeds us i j) :=
  inferInstanceAs (Decidable (_ ∧ _))

theorem completes_of_not_writes {w : Completions} {a : ArchReg}
    (h : u.dec.writesRd = true → u.dec.rd ≠ a) : u.completes w a = w a := by
  unfold Uop.completes
  split
  · rename_i hwr
    exact if_neg (Ne.symm (h hwr))
  · rfl

theorem foldl_completes_of_not_writes {w : Completions} {a : ArchReg}
    (h : ∀ u ∈ us, u.dec.writesRd = true → u.dec.rd ≠ a) : us.foldl Uop.completes w a = w a := by
  induction us generalizing w with
  | nil => rfl
  | cons u us ih =>
    rw [List.foldl_cons, ih fun v hv => h v (List.mem_cons_of_mem _ hv)]
    exact completes_of_not_writes (h u List.mem_cons_self)

/-- What is known of a register is known from its youngest writer, and the mapping names the same
one. -/
theorem foldl_completes_cases (w : Completions) (m : RegisterMap) (us : List Uop) (a : ArchReg) :
    (∃ p ∈ us, p.dec.writesRd = true ∧ us.foldl Uop.completes w a = some p.stageAt.complete ∧
      us.foldl Uop.remap m a = p.dest) ∨ us.foldl Uop.completes w a = w a ∧
        us.foldl Uop.remap m a = m a := by
  induction us generalizing w m with
  | nil => exact .inr ⟨rfl, rfl⟩
  | cons u us ih =>
    rcases ih (u.completes w) (u.remap m) with ⟨p, hp, hwr, hc, hd⟩ | ⟨hc, hd⟩
    · exact .inl ⟨p, List.mem_cons_of_mem _ hp, hwr, hc, hd⟩
    · rw [List.foldl_cons, List.foldl_cons, hc, hd]
      by_cases hwr : u.dec.writesRd = true ∧ a = u.dec.rd
      · refine .inl ⟨u, List.mem_cons_self, hwr.1, ?_, ?_⟩
        · simp [Uop.completes, hwr]
        · simp [Uop.remap, hwr]
      · refine .inr ⟨completes_of_not_writes fun h he => hwr ⟨h, he.symm⟩, ?_⟩
        unfold Uop.remap
        split
        · rename_i h
          exact if_neg fun he => hwr ⟨h, he⟩
        · rfl

/-- The dataflow invariant. -/
structure Flows (cfg : Config) (s : Cpu) (log : List Uop) : Prop where
  waited : Along Uop.completes Uop.Waited (fun _ => none) (log ++ s.window)
  lands : ∀ u ∈ log ++ s.window, u.Lands cfg

namespace Flows
variable (h : Flows cfg s log)
include h

/-- The youngest may go. -/
theorem cut (hw : s.window = t.window ++ post) : Flows cfg t log := by
  have hall := h.waited
  have hlands := h.lands
  rw [hw, ← List.append_assoc] at hall hlands
  exact ⟨(Along.append_iff.mp hall).1, fun u hu => hlands u (List.mem_append_left _ hu)⟩

/-- One uop of the window goes on without completing. -/
theorem replace (hw : s.window = pre ++ u :: post) (hw' : t.window = pre ++ v :: post)
    (hdec : v.dec = u.dec)
    (hc : v.stageAt.complete = u.stageAt.complete)
    (hwaited : v.Waited ((log ++ pre).foldl Uop.completes fun _ => none))
    (hlands : v.Lands cfg) : Flows cfg t log := by
  have hall := h.waited
  have hold := h.lands
  rw [hw, ← List.append_assoc] at hall hold
  refine ⟨?_, ?_⟩
  · rw [hw', ← List.append_assoc]
    exact hall.replace hwaited (by simp only [Uop.completes, hdec, hc])
  · rw [hw', ← List.append_assoc]
    exact forall_mem_replace rfl hold hlands

/-- One uop of the window completes. -/
theorem complete (hw : s.window = pre ++ u :: post) (hw' : t.window = pre ++ v :: post)
    (hdec : v.dec = u.dec)
    (hi : v.stageAt.issue = u.stageAt.issue) (hu : u.stageAt.complete = 0) (hlands : v.Lands cfg) :
    Flows cfg t log := by
  have hall := h.waited
  have hold := h.lands
  rw [hw, ← List.append_assoc] at hall hold
  obtain ⟨hfront, hwaited, hback⟩ := Along.append_iff.mp hall
  refine ⟨?_, ?_⟩
  · rw [hw', ← List.append_assoc]
    refine Along.append_iff.mpr ⟨hfront, ?_, ?_⟩
    · simpa only [Uop.Waited, Uop.isIssued, Uop.reads, hdec, hi] using hwaited
    -- a uop that has issued did not wait for this one, and learns nothing new about the others
    · refine hback.relate (R := fun w w' => ∀ a, w' a = w a ∨ w a = some 0) (fun w w' x hR a => ?_)
        (fun w w' x hR hx hissued a hreads c hc => ?_) fun a => ?_
      · unfold Uop.completes
        split
        · dsimp only
          split
          · exact .inl rfl
          · exact hR a
        · exact hR a
      · cases hR a with
        | inl he => exact hx hissued a hreads c (he ▸ hc)
        | inr hz => exact absurd rfl (hx hissued a hreads 0 hz).1
      · unfold Uop.completes
        rw [hdec]
        split
        · dsimp only
          split
          · exact .inr (congrArg some hu)
          · exact .inl rfl
        · exact .inl rfl
  · rw [hw', ← List.append_assoc]
    exact forall_mem_replace rfl hold hlands

end Flows

/-- The operands of a ready candidate have landed. -/
theorem Coherent.candidate_waited (hcoh : s.Coherent cfg) (hlog : ∀ p ∈ log, p.stageAt.complete ≠ 0)
    (hpast : ∀ p ∈ log ++ s.window, p.stageAt.complete ≤ s.cycle) {e : IssueQueue.Entry}
    (he : e ∈ s.iq.entries)
    (hready : e.ready = true) (hw : s.window = pre ++ s.inflight e.rob :: post) {a : ArchReg}
    (ha : (s.inflight e.rob).reads a) {c : ℕ}
    (hc : (log ++ pre).foldl Uop.completes (fun _ => none) a = some c) : c ≠ 0 ∧ c ≤ s.cycle := by
  obtain ⟨-, -, hbare⟩ := hcoh.candidate he
  have hrenamed := hcoh.mapped.renamedUnder hw
  obtain ⟨hheard1, hheard2⟩ := hcoh.woken.heard e he
  have hsrc1 : e.src1 = (s.inflight e.rob).src1 := congrArg IssueQueue.Entry.src1 hbare
  have hsrc2 : e.src2 = (s.inflight e.rob).src2 := congrArg IssueQueue.Entry.src2 hbare
  simp only [IssueQueue.Entry.ready, Bool.and_eq_true, hheard1, hheard2, hsrc1, hsrc2,
    hrenamed.src1, hrenamed.src2]
    at hready
  have hsource : s.prf.isReady (pre.foldl Uop.remap s.archRat a) = true := by
    rcases ha with rfl | rfl
    · exact hready.1
    · exact hready.2
  rw [List.foldl_append] at hc
  rcases foldl_completes_cases (log.foldl Uop.completes fun _ => none) s.archRat pre a with ⟨p, hp,
    hwr, hpc, hd⟩ | ⟨hpc, -⟩
  · obtain rfl : p.stageAt.complete = c := by rw [hpc] at hc; exact Option.some.inj hc
    have hpw : p ∈ s.window := by simp [hw, hp]
    rw [hd, hcoh.woken.writer p hpw hwr] at hsource
    exact ⟨bne_iff_ne.mp hsource, hpast p (List.mem_append_right _ hpw)⟩
  · rw [hpc] at hc
    rcases foldl_completes_cases (fun _ => none) s.archRat log a with ⟨p, hp, -, hpc', -⟩ | ⟨hnone,
      -⟩
    · obtain rfl : p.stageAt.complete = c := by rw [hpc'] at hc; exact Option.some.inj hc
      exact ⟨hlog p hp, hpast p (List.mem_append_left _ hp)⟩
    · rw [hnone] at hc
      contradiction

/-- A launched uop lands its latency later. -/
theorem Coherent.launched_lands (hcoh : s.Coherent cfg) (hc : 0 < s.cycle) {e : IssueQueue.Entry}
    {s' : Cpu}
    {latency unit : ℕ} {f : Fu} (he : e ∈ s.iq.entries)
    (ha : s.attempt e = .launched s' v latency f unit) : (stamped s' v latency).Lands cfg := by
  obtain ⟨hissues, hcyc⟩ := attempt_issues hc ha
  obtain ⟨hmem, hwait, hbare⟩ := hcoh.candidate he
  have hlat : e.latency = latencyOf cfg (s.inflight e.rob).dec :=
    congrArg IssueQueue.Entry.latency hbare
  have hone := (Ledger.latencyOf_le cfg (s.inflight e.rob).dec).1
  have hnot : (stamped s' v latency).isComplete ≠ true := by
    rw [hissues.complete]
    intro hcomplete
    have hissued := hcoh.staged.complete _ hmem hcomplete
    simp [Uop.waiting, hissued] at hwait
  refine ⟨fun _ hl => ?_, fun _ hl => ?_, fun h => absurd h hnot, fun h => absurd h hnot⟩
  · rw [hissues.dec] at hl ⊢
    have heq := (attempt_other ha hl).2.1
    change s'.cycle + latency = s'.cycle + _
    rw [heq, hlat]
  · rw [hissues.dec] at hl ⊢
    have hcases := (attempt_load ha hl).2.1
    change s'.cycle < s'.cycle + latency ∧ s'.cycle + latency ≤ s'.cycle + _
    omega

/-- Every move keeps the dataflow. -/
theorem Edit.flows {φ : Phase} (hcoh : s.Coherent cfg) (hc : 0 < s.cycle)
    (hlog : ∀ p ∈ log, p.stageAt.complete ≠ 0)
    (hpast : ∀ p ∈ log ++ s.window, p.stageAt.complete ≤ s.cycle) (h : Flows cfg s log)
    (hm : Edit s log φ t log') : Flows cfg t log' := by
  cases hm with
  | kept _ hwhole _ => exact ⟨hwhole ▸ h.waited, hwhole ▸ h.lands⟩
  | cut _ hsplit _ => exact h.cut hsplit
  | @landed _ pre post u _ hw hw' hrun hdue hpunctual _ =>
    simp only [Uop.running, Uop.isComplete, Bool.and_eq_true, Bool.not_eq_true',
      bne_eq_false_iff_eq] at hrun
    have hold := h.lands u (by simp [hw])
    exact h.complete hw hw' rfl rfl hrun.2
      ⟨fun hi => hold.fixed hi, fun hi => hold.load hi, fun _ => hdue,
        fun _ hl => (hpunctual hl).symm⟩
  | turnedAway _ _ hwin _ => exact ⟨hwin ▸ h.waited, hwin ▸ h.lands⟩
  | @launched s' pre post e v latency unit f hw hw' he hready ha _ =>
    obtain ⟨hissues, hcyc⟩ := attempt_issues hc ha
    refine h.replace hw hw' hissues.dec ?_ (fun _ a hreads c hcomp => ?_)
      (hcoh.launched_lands hc he ha)
    · simp only [stamped, attempt_stageAt ha]
    · change _ ∧ c ≤ s'.cycle
      rw [hcyc]
      refine hcoh.candidate_waited hlog hpast he hready hw ?_ hcomp
      rwa [Uop.reads, hissues.dec] at hreads
  | @dispatched _ pre post u idx _ hw hw' _ _ _ =>
    have hall := h.waited
    rw [hw, ← List.append_assoc] at hall
    have hold := h.lands u (by simp [hw])
    exact h.replace hw hw' rfl rfl hall.at_split ⟨hold.fixed, hold.load, hold.due, hold.onDate⟩
  | @renamed _ u dest slot _ hblank hwin _ =>
    have hissue : (s.renamed u dest slot).isIssued ≠ true := by
      rw [show (s.renamed u dest slot).isIssued = u.isIssued from rfl, hblank.issue]
      exact Bool.false_ne_true
    have hcomplete : (s.renamed u dest slot).isComplete ≠ true := by
      rw [show (s.renamed u dest slot).isComplete = u.isComplete from rfl, hblank.complete]
      exact Bool.false_ne_true
    refine ⟨?_, ?_⟩
    · rw [hwin, ← List.append_assoc]
      exact Along.concat_iff.mpr ⟨h.waited, fun hi => absurd hi hissue⟩
    · rw [hwin, ← List.append_assoc]
      exact forall_mem_concat h.lands ⟨fun hi => absurd hi hissue, fun hi => absurd hi hissue,
        fun hcm => absurd hcm hcomplete, fun hcm => absurd hcm hcomplete⟩

theorem flows_ticked (mem : Memory) (h : cfg.Admissible) (k : ℕ)
    (hb : (ticked mem cfg entryPc k).stats.renamed < 4294967296)
    (hself : NoSelfMod (committed mem cfg entryPc k)) :
    Flows cfg (ticked mem cfg entryPc k) (committed mem cfg entryPc k) := by
  refine (run_preserves (P := fun φ t log => (Located t ∧ Timed φ t.cycle t.pending log) ∧
    Flows cfg t log)
    (fun hcoh hc hm ht => ⟨hm.timed hcoh hc ht.1.1 ht.1.2, (hm.edit hcoh hc).1.flows hcoh hc
      (fun p hp => (ht.1.2.retired p hp).2) (fun p hp => ?_) ht.2⟩)
    (fun hle ht => ⟨⟨ht.1.1, ht.1.2.pass hle⟩, ht.2⟩) (fun _ ht => ⟨ht.1.2.beginCycle ht.1.1,
      ⟨ht.2.waited, ht.2.lands⟩⟩) mem h
    ⟨timed_reset mem, ?_⟩ k hb hself).2
  · cases List.mem_append.mp hp with
    | inl hlog => exact (ht.1.2.retired p hlog).1.past 5
    | inr hwin => exact (ht.1.2.climbs p (by simp [pending, hwin])).past 5
  · have hnone : (reset mem cfg entryPc).window = [] := rfl
    exact ⟨by rw [hnone]; exact Along.nil, by simp [hnone]⟩

/-- A consumer that has issued waited for its producer. -/
private theorem Feeds.waited {i j : Fin us.length} (hf : Feeds us i j)
    (hall : Along Uop.completes Uop.Waited (fun _ => none) us)
    (hissued : (us.get j).isIssued = true) :
    (us.get i).stageAt.complete ≠ 0 ∧ (us.get i).stageAt.complete ≤ (us.get j).stageAt.issue := by
  obtain ⟨hij, hwr, hreads, hbetween⟩ := hf
  have hsplit : us = us.take j ++ us.get j :: us.drop (j + 1) := by
    rw [List.get_eq_getElem, List.cons_getElem_drop_succ, List.take_append_drop]
  have hbefore : us.take j = us.take i ++ us.get i :: (us.take j).drop (i + 1) := by
    have hi : (i : ℕ) < (us.take j).length := by
      rw [List.length_take]
      exact lt_min hij i.isLt
    have hget : us.get i = (us.take j)[(i : ℕ)] := by simp
    rw [hget, List.cons_getElem_drop_succ]
    have hle : (i : ℕ) ≤ (j : ℕ) := Nat.le_of_lt hij
    have htake : us.take i = (us.take j).take i := by rw [List.take_take, min_eq_left hle]
    rw [htake, List.take_append_drop]
  rw [hsplit] at hall
  refine hall.at_split hissued _ hreads _ ?_
  rw [hbefore, List.foldl_append, List.foldl_cons, foldl_completes_of_not_writes]
  · rw [Uop.completes, if_pos hwr]
    exact if_pos rfl
  · intro u hu hw
    obtain ⟨m, hm, rfl⟩ := List.getElem_of_mem hu
    rw [List.length_drop, List.length_take] at hm
    have hmj : i + 1 + m < (j : ℕ) := by omega
    rw [List.getElem_drop, List.getElem_take] at hw ⊢
    exact hbetween ⟨i + 1 + m, hmj.trans j.isLt⟩ (Fin.lt_def.mpr (by simp only; omega))
      (Fin.lt_def.mpr hmj) hw

/-- Producers land before their consumers issue, and every result lands its latency after its
issue. -/
structure OperandsFirst (cfg : Config) (us : List Uop) : Prop where
  waited : ∀ i j, Feeds us i j → (us.get j).isIssued = true →
    (us.get i).isComplete = true ∧ (us.get i).stageAt.complete ≤ (us.get j).stageAt.issue
  lands : ∀ u ∈ us, u.Lands cfg

/-- In every run an instruction has issued only once the producers of its operands had landed, and
every result has landed its latency after its issue. -/
theorem operandsFirst_ticked (mem : Memory) (cfg : Config) (entryPc : Word) (k : ℕ)
    (h : cfg.Admissible)
    (hb : (ticked mem cfg entryPc k).stats.renamed < 4294967296)
    (hself : NoSelfMod (committed mem cfg entryPc k)) :
    OperandsFirst cfg (committed mem cfg entryPc k ++ (ticked mem cfg entryPc k).window) := by
  have hflows : Flows cfg (ticked mem cfg entryPc k) (committed mem cfg entryPc k) :=
    flows_ticked mem h k hb hself
  refine ⟨fun i j hf hissued => ?_, hflows.lands⟩
  obtain ⟨hne, hle⟩ := hf.waited hflows.waited hissued
  exact ⟨bne_iff_ne.mpr hne, hle⟩

theorem operandsFirst_ticked_skipping :
    OperandsFirst {} (committed skipping {} 0 9 ++ (ticked skipping {} 0 9).window) :=
  operandsFirst_ticked skipping {} 0 9 admissible_default (by decide +kernel) (by decide +kernel)

/-- The least time an instruction takes from its issue to its result: a load may be forwarded to in
a cycle. -/
def fastest (cfg : Config) (u : Uop) : ℕ := if u.dec.isLoad then 1 else latencyOf cfg u.dec

theorem fastest_le (h : u.Lands cfg) (hissued : u.isIssued = true)
    (hcomplete : u.isComplete = true) : u.stageAt.issue + fastest cfg u ≤ u.stageAt.complete := by
  have hdue := h.due hcomplete
  unfold fastest
  split
  · rename_i hl
    exact (h.load hissued hl).1.trans_le hdue
  · rename_i hl
    rw [← h.fixed hissued (by simpa using hl)]
    exact hdue

/-- No machine is faster than its dataflow: along any chain of dependent instructions that have
retired, the latencies add up to less than the cycles run, by the five stages in front of the first
result and the retirement of the last. -/
theorem chain_in_time (mem : Memory) (cfg : Config) (entryPc : Word) (k : ℕ) (h : cfg.Admissible)
    (hb : (ticked mem cfg entryPc k).stats.renamed < 4294967296)
    (hself : NoSelfMod (committed mem cfg entryPc k))
    (i j : Fin (committed mem cfg entryPc k).length) (n : ℕ)
    (hchain : Schedule.Chain (Feeds (committed mem cfg entryPc k))
      (fun i => fastest cfg ((committed mem cfg entryPc k).get i)) i j n) :
    n + 6 ≤ (ticked mem cfg entryPc k).cycle := by
  have hflows : Flows cfg (ticked mem cfg entryPc k) (committed mem cfg entryPc k) :=
    flows_ticked mem h k hb hself
  obtain ⟨-, htimed⟩ := timed_ticked mem h entryPc k hb hself
  have hall := (Along.append_iff.mp hflows.waited).1
  generalize ticked mem cfg entryPc k = s at *
  generalize committed mem cfg entryPc k = log at *
  have hclimbs (m : Fin log.length) : (log.get m).stageAt.Climbs .commit s.cycle :=
    (htimed.retired _ (log.get_mem m)).1
  have hcomplete (m : Fin log.length) : (log.get m).stageAt.stamp 5 ≠ 0 :=
    (htimed.retired _ (log.get_mem m)).2
  have hissued (m : Fin log.length) : (log.get m).stageAt.stamp 4 ≠ 0 :=
    ((hclimbs m).next 4 (hcomplete m)).1
  have hcost (m : Fin log.length) :
    (log.get m).stageAt.issue + fastest cfg (log.get m) ≤ (log.get m).stageAt.complete :=
    fastest_le (hflows.lands _ (List.mem_append_left _ (log.get_mem m)))
      (bne_iff_ne.mpr (hissued m))
      (bne_iff_ne.mpr (hcomplete m))
  have hwaits (a b : Fin log.length) (hf : Feeds log a b) :
    (log.get a).stageAt.complete ≤ (log.get b).stageAt.issue :=
    (hf.waited hall (bne_iff_ne.mpr (hissued b))).2
  have htime := Schedule.Chain.start_add_le hcost hwaits hchain
  have hfirst : 4 < (log.get i).stageAt.issue := (hclimbs i).lt_stamp (hissued i)
  have hlast : (log.get j).stageAt.complete < s.cycle := (hclimbs j).before 5 (Phase.setting_pos 5)
  omega

/-- A constant, its square and the square of that. -/
def squaring : Memory :=
  [(0, 0x00300293), (4, 0x02528333), (8, 0x026303B3), (12, 0x00100073)].foldl
    (fun m (p : Word × Word) => m.storeU32 p.1 p.2) .empty

/-- The bound is met: the last square retires in cycle 13. -/
theorem chain_in_time_squaring : 7 + 6 ≤ (ticked squaring {} 0 13).cycle := by
  let first : Fin (committed squaring {} 0 13).length := ⟨0, by decide +kernel⟩
  let second : Fin (committed squaring {} 0 13).length := ⟨1, by decide +kernel⟩
  let third : Fin (committed squaring {} 0 13).length := ⟨2, by decide +kernel⟩
  let cost (i : Fin (committed squaring {} 0 13).length) : ℕ :=
    fastest {} ((committed squaring {} 0 13).get i)
  have hsquare : Feeds (committed squaring {} 0 13) first second := by decide +kernel
  have hfourth : Feeds (committed squaring {} 0 13) second third := by decide +kernel
  have hseven : cost first + (cost second + cost third) = 7 := by decide +kernel
  have hchain : Schedule.Chain (Feeds (committed squaring {} 0 13)) cost first third 7 :=
    hseven ▸ .cons hsquare (.cons hfourth (.single _))
  exact chain_in_time squaring {} 0 13 admissible_default (by decide +kernel)
    (by decide +kernel) first third 7 hchain

end Cpu

end OooCpu
