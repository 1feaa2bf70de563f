import OooCpu.BackEnd

/-! # Who holds a function unit

A unit that is not pipelined is taken until the cycle its operation writes back.
No squash gives a unit back early, so the busy units stand for the operations in
flight and, beside them, for those that squashes have abandoned. -/
namespace OooCpu.Cpu
variable {kinds : Prop} {cfg : Config} {entryPc : Word} {s s' t : Cpu} {e : IssueQueue.Entry}
    {u v br : Uop} {us vs ghosts : List Uop}
  {late latency unit : ℕ} {f : Fu}

/-- A unit that serves one operation at a time. -/
def blocking (f : Fu) : Bool := f ≠ .none && !pipelined f

/-- The free times past cycle `late` of the units of a class. -/
def busyTimes (s : Cpu) (f : Fu) (late : ℕ) : List ℕ := (s.fuFreeAt f).filter fun t => late < t

/-- When the uops that need a unit of a class past cycle `late` write back. -/
def heldTimes (us : List Uop) (f : Fu) (late : ℕ) : List ℕ :=
  (us.filter fun u => unitOf u.dec = f && late < u.wbCycle).map Uop.wbCycle

/-- Busy units and their holders correspond, each free time being its holder's writeback cycle. -/
def Occupied (s : Cpu) : Prop :=
  ∀ f, blocking f = true →
    (s.busyTimes f (s.cycle + 1)).Perm (heldTimes (s.window.filter Uop.running) f (s.cycle + 1))

/-- The issued, unfinished uops that the squash of this cycle drops, if there is one. -/
def abandoned (s : Cpu) : List Uop :=
  if s.done then []
  else if s.beginCycle.commit.done then s.onTheWay
  else match s.beforeIssue.issueScan.offender with
    | none => []
    | some br => s.beforeIssue.issueScan.cpu.onTheWay.filter fun u => br.seq < u.seq

theorem heldTimes_append (us vs : List Uop) (f : Fu) (late : ℕ) :
    heldTimes (us ++ vs) f late = heldTimes us f late ++ heldTimes vs f late := by
  simp only [heldTimes, List.filter_append, List.map_append]

theorem heldTimes_perm (h : us.Perm vs) (f : Fu) (late : ℕ) :
    (heldTimes us f late).Perm (heldTimes vs f late) :=
  (h.filter _).map _

/-- Later on, only what is still pending counts. -/
theorem heldTimes_filter (us : List Uop) (f : Fu) {late late' : ℕ} (h : late ≤ late') :
    (heldTimes us f late).filter (fun t => late' < t) = heldTimes us f late' := by
  simp only [heldTimes, List.filter_map, List.filter_filter]
  congr 1
  apply List.filter_congr
  intro u _
  by_cases hlt : late' < u.wbCycle
  · simp [hlt, h.trans_lt hlt]
  · simp [hlt]

theorem heldTimes_singleton (u : Uop) (late : ℕ) :
    heldTimes [u] (unitOf u.dec) late = [u.wbCycle].filter fun t => late < t := by
  by_cases hlt : late < u.wbCycle <;> simp [heldTimes, hlt]

theorem heldTimes_eq_nil (h : ∀ u ∈ us, unitOf u.dec = f → u.wbCycle ≤ late) :
    heldTimes us f late = [] := by
  rw [heldTimes, List.map_eq_nil_iff, List.filter_eq_nil_iff]
  intro u hu hheld
  simp only [Bool.and_eq_true, decide_eq_true_eq] at hheld
  have := h u hu hheld.1
  omega

/-- The busy units stand for the uops on their way and for the abandoned ones. -/
structure Held (late : ℕ) (ghosts : List Uop) (s : Cpu) : Prop where
  units : ∀ f, blocking f = true →
    (s.busyTimes f late).Perm (heldTimes (s.onTheWay ++ ghosts) f late)
  landing : ∀ u ∈ s.wbFast ++ s.wbSlow, u.wbCycle ≤ late

namespace Held

theorem reset (mem : Memory) : Held late [] (Cpu.reset mem cfg entryPc) where
  units f _ := by
    have hzero : (Cpu.reset mem cfg entryPc).busyTimes f late = [] := by
      rw [busyTimes, List.filter_eq_nil_iff]
      intro t ht
      cases f <;> simp_all [Cpu.reset]
    rw [hzero]
    exact .nil
  landing u hu := by simp [Cpu.reset] at hu

variable (h : Held late ghosts s)
include h

theorem mono {late' : ℕ} (hle : late ≤ late') : Held late' ghosts s where
  units f hf := by
    have hperm := (h.units f hf).filter fun t => late' < t
    rw [heldTimes_filter _ _ hle, busyTimes, List.filter_filter] at hperm
    rw [busyTimes]
    refine List.Perm.trans (List.Perm.of_eq (List.filter_congr fun t _ => ?_)) hperm
    by_cases hlt : late' < t
    · simp [hlt, hle.trans_lt hlt]
    · simp [hlt]
  landing u hu := (h.landing u hu).trans hle

theorem same (hs : s.SameBack t) : Held late ghosts t := by
  refine ⟨fun f hf => ?_, fun u hu => h.landing u (by rwa [hs.wbFast, hs.wbSlow] at hu)⟩
  have hway : t.onTheWay = s.onTheWay := by
    rw [onTheWay, hs.executing, hs.wbFast, hs.wbSlow, onTheWay]
  rw [busyTimes, hs.fuFreeAt, hway]
  exact h.units f hf

/-- Results that land need no unit any more. -/
theorem complete {fast slow : List Uop}
    (hq : (s.executing ++ s.wbFast ++ s.wbSlow).Perm (u :: (s.executing ++ fast ++ slow))) :
    Held late ghosts { s.complete u with wbFast := fast, wbSlow := slow } := by
  have hland : (s.wbFast ++ s.wbSlow).Perm (u :: (fast ++ slow)) := by
    rw [List.append_assoc, List.append_assoc] at hq
    exact (List.perm_append_left_iff s.executing).mp (hq.trans List.perm_middle.symm)
  refine ⟨fun f hf => ?_, fun a ha => h.landing a (hland.symm.subset (List.mem_cons_of_mem _ ha))⟩
  have hu : heldTimes [u] f late = [] := heldTimes_eq_nil fun a ha _ => by
    rw [List.mem_singleton.mp ha]
    exact h.landing u (hland.symm.subset List.mem_cons_self)
  have hdrop := heldTimes_perm (hq.append_right ghosts) f late
  rw [List.cons_append, ← List.singleton_append, heldTimes_append [u], hu, List.nil_append] at hdrop
  exact (h.units f hf).trans hdrop

theorem writeback : Held late ghosts s.writeback :=
  writeback_preserves (P := Held late ghosts) (fun ht hq => ht.complete hq) (fun _ ht => ⟨ht.units,
    ht.landing⟩) h

theorem execute (hle : s.cycle + 1 ≤ late) : Held late ghosts s.execute where
  units f hf := (h.units f hf).trans
    (heldTimes_perm
      ((execute_queues s.executing s.wbFast s.wbSlow (s.cycle + 1)).symm.append_right ghosts) f
        late)
  landing u hu := by
    simp only [Cpu.execute, List.mem_append, List.mem_filter, Bool.and_eq_true,
      decide_eq_true_eq] at hu
    rcases hu with (hu | hu) | hu | hu
    · exact h.landing u (List.mem_append_left _ hu)
    · exact hu.2.1.trans hle
    · exact h.landing u (List.mem_append_right _ hu)
    · exact hu.2.1.trans hle

omit h in
/-- Taking a free unit adds its new free time to the busy ones. -/
private theorem occupy_perm (time : ℕ) (hle : s.cycle ≤ late) (hn : f ≠ .none)
    (hunit : s.freeUnit f = some unit) : ((s.occupy f unit time f).filter fun t => late < t).Perm
      (([time].filter fun t => late < t) ++ s.busyTimes f late) := by
  rw [freeUnit, if_neg hn, List.findIdx?_eq_some_iff_getElem] at hunit
  obtain ⟨hlt, hfree, -⟩ := hunit
  have hfree' : (s.fuFreeAt f)[unit] ≤ s.cycle := by simpa using hfree
  rw [occupy, if_pos rfl]
  exact filter_set_perm time (List.getElem?_eq_getElem hlt) (by simp; omega)

/-- A candidate that is turned away costs a unit one cycle at most. -/
theorem turnAway {why : Stall} (hcoh : s.Coherent cfg) (he : e ∈ s.iq.entries)
    (hle : s.cycle + 1 ≤ late)
    (ha : s.attempt e = .turnedAway s' why) : Held late ghosts s' := by
  have hsound := hcoh.sound _ (hcoh.candidate he).1
  obtain ⟨hway, hqueues⟩ :
      s'.onTheWay = s.onTheWay ∧ s'.wbFast ++ s'.wbSlow = s.wbFast ++ s.wbSlow := by
    rcases attempt_turnedAway ha with rfl | ⟨_, _, _, _, rfl⟩ <;> exact ⟨rfl, rfl⟩
  refine ⟨fun f hf => ?_, fun u hu => h.landing u (hqueues ▸ hu)⟩
  rw [hway]
  refine List.Perm.trans ?_ (h.units f hf)
  rcases attempt_turnedAway_units ha with hsame | ⟨hl, unit, hunit, hocc⟩
  · rw [busyTimes, hsame]
    exact .refl _
  rw [busyTimes, hocc]
  by_cases hmem : f = .mem
  · subst hmem
    have hkind : (s.inflight e.rob).dec.kind = .load := by
      have hload := hsound.shaped.load_iff
      rw [hl] at hload
      rw [hsound.shaped.kind_eq]
      simpa using hload.symm
    rw [unitOf, hkind] at hunit
    have hperm := occupy_perm (s.cycle + 1) (show s.cycle ≤ late by omega) (by decide) hunit
    rwa [List.filter_cons_of_neg (by simpa using hle), List.filter_nil, List.nil_append] at hperm
  · rw [occupy, if_neg hmem]
    exact .refl _

/-- A launched uop holds its unit until its result is due. -/
theorem launch (hc : 0 < s.cycle) (hle : late = s.cycle + 1)
    (ha : s.attempt e = .launched s' v latency f unit) :
    Held late ghosts (s'.launch e (stamped s' v latency) latency f unit) := by
  obtain ⟨hf, hunit⟩ := attempt_unit ha
  obtain ⟨hissues, hcyc⟩ := attempt_issues hc ha
  have hback := attempt_back ha
  have hdec : (stamped s' v latency).dec = (s.inflight e.rob).dec := hissues.dec
  have hwb : (stamped s' v latency).wbCycle = s.cycle + latency := by rw [← hcyc]; rfl
  generalize stamped s' v latency = x at *
  have hway := launch_onTheWay ha x
  have hocc (time : ℕ) : s'.occupy f unit time = s.occupy f unit time := by
    funext g
    simp only [occupy, hback.fuFreeAt]
  constructor
  · intro g hg
    have hheld := heldTimes_perm (hway.append_right ghosts) g late
    rw [List.cons_append, ← List.singleton_append, heldTimes_append [x]] at hheld
    refine List.Perm.trans ?_ (hheld.trans ((h.units g hg).symm.append_left _)).symm
    by_cases hgf : g = f
    · subst hgf
      simp only [blocking, Bool.and_eq_true, decide_eq_true_eq, Bool.not_eq_true'] at hg
      have hfu : (s'.launch e x latency g unit).fuFreeAt = s.occupy g unit (s.cycle + latency) := by
        simp only [Cpu.launch, if_neg hg.1, hg.2, hocc, hcyc]
        rfl
      have hx : heldTimes [x] g late = [s.cycle + latency].filter fun t => late < t := by
        rw [hf, ← hdec, heldTimes_singleton, hwb]
      rw [busyTimes, hfu, hx]
      exact occupy_perm _ (by omega) hg.1 hunit
    · have hfu : (s'.launch e x latency f unit).fuFreeAt g = s.fuFreeAt g := by
        simp only [Cpu.launch, hback.fuFreeAt, hocc]
        split
        · rfl
        · exact if_neg hgf
      have hx : heldTimes [x] g late = [] := heldTimes_eq_nil fun a ha hunit => by
        rw [List.mem_singleton.mp ha, hdec, ← hf] at hunit
        exact absurd hunit.symm hgf
      rw [busyTimes, hfu, hx]
      exact .refl _
  · intro u hu
    obtain ⟨-, hfast, hslow⟩ := mem_launch ha x
    cases List.mem_append.mp hu with
    | inl hu =>
      rcases hfast u hu with hold | ⟨rfl, hlat, -⟩
      · exact h.landing u (List.mem_append_left _ hold)
      · omega
    | inr hu =>
      rcases hslow u hu with hold | ⟨rfl, hlat, -⟩
      · exact h.landing u (List.mem_append_right _ hold)
      · omega

/-- A squash hands what it drops from the machine to the ghosts. -/
theorem recover (br : Uop) :
    Held late (ghosts ++ s.onTheWay.filter fun u => br.seq < u.seq) (s.recover br) where
  units f hf := by
    refine (h.units f hf).trans (heldTimes_perm ?_ f late)
    rw [← List.append_assoc]
    apply ((recover_onTheWay s br).append_right ghosts).trans
    rw [List.append_assoc, List.append_assoc]
    exact List.perm_append_comm.append_left _
  landing u hu := by
    simp only [Cpu.recover, ← List.filter_append] at hu
    exact h.landing u (List.mem_of_mem_filter hu)

/-- The halt squash drops everything. -/
theorem squashInFlight : Held late (ghosts ++ s.onTheWay) s.squashInFlight where
  units f hf := (h.units f hf).trans (heldTimes_perm List.perm_append_comm f late)
  landing u hu := by simp [Cpu.squashInFlight] at hu

end Held

theorem Held.issueScan (h : Held (s.cycle + 1) ghosts s) (hcoh : s.Coherent cfg)
    (hc : 0 < s.cycle) : Held (s.cycle + 1) ghosts s.issueScan.cpu := by
  refine (issueScan_preserves
    (P := fun p => p.Sane cfg ∧ p.cpu.cycle = s.cycle ∧ Held (s.cycle + 1) ghosts p.cpu)
    (fun p e hp he _ => ?_) ⟨⟨hcoh, hc, by simp⟩, rfl, h⟩).2.2
  obtain ⟨hsane, hcyc, hheld⟩ := hp
  refine ⟨hsane.issueOne he, (issueOne_keeps p e).cycle.trans hcyc, ?_⟩
  simp only [issueOne]
  cases ha : p.cpu.attempt e with
  | turnedAway s' why => exact hheld.turnAway hsane.coherent he (by omega) ha
  | launched s' u latency f unit => exact hheld.launch hsane.cycle_pos (by omega) ha

/-- The issue stage makes ghosts of what its recovery drops. -/
theorem Held.issue (h : Held (s.cycle + 1) ghosts s) (hcoh : s.Coherent cfg) (hc : 0 < s.cycle) :
    Held (s.cycle + 1) (ghosts ++ match s.issueScan.offender with
      | none => []
      | some br => s.issueScan.cpu.onTheWay.filter fun u => br.seq < u.seq) s.issue := by
  have hcharge := chargeSlots_sameBack s.issueScan
  have hscan := (h.issueScan hcoh hc).same hcharge
  have hway : (chargeSlots s.issueScan).onTheWay = s.issueScan.cpu.onTheWay := by
    rw [onTheWay, hcharge.executing, hcharge.wbFast, hcharge.wbSlow, onTheWay]
  simp only [Cpu.issue]
  cases s.issueScan.offender with
  | none => simpa using hscan
  | some br =>
    have hrecover := hscan.recover br
    rwa [hway] at hrecover

/-- A tick of a steady machine makes ghosts of what it abandons. -/
theorem Held.tick {log : List Uop} (h : Held (s.cycle + 1) ghosts s)
    (hs : Steady kinds cfg entryPc (s, log)) :
    Held (s.tick.cycle + 1) (ghosts ++ s.abandoned) s.tick := by
  have hbegin : Held (s.beginCycle.cycle) ghosts s.beginCycle := ⟨h.units, h.landing⟩
  cases hd : s.done with
  | true =>
    rw [tick_of_done hd, abandoned, if_pos hd, List.append_nil]
    exact h
  | false =>
    cases hd' : s.beginCycle.commit.done with
    | true =>
      obtain ⟨t, hback, heq⟩ := commit_squashes (show s.beginCycle.done = false from hd) hd'
      have hway : t.onTheWay = s.onTheWay := by
        rw [onTheWay, hback.executing, hback.wbFast, hback.wbSlow]
        rfl
      have hsquash := (hbegin.same hback).squashInFlight
      rw [hway, ← heq] at hsquash
      rw [tick_of_commit_done hd hd', commit_cycle, abandoned, if_neg (by simp [hd]), if_pos hd']
      exact hsquash.mono (Nat.le_succ _)
    | false =>
      have hback := commit_sameBack (show s.beginCycle.done = false from hd) hd'
      obtain ⟨log', hbefore, hc, -⟩ := hs.beforeIssue hd'
      have hk := (writeback_keeps s.beginCycle.commit).trans (execute_keeps _)
      have hcyc : s.beforeIssue.cycle = s.beginCycle.cycle := hk.cycle.trans hback.cycle
      have hwritten := ((hbegin.same hback).mono (Nat.le_succ _)).writeback
      have hexecuted : Held (s.beforeIssue.cycle + 1) ghosts s.beforeIssue := by
        rw [hcyc]
        exact hwritten.execute (by rw [(writeback_keeps _).cycle, hback.cycle])
      have hissued := hexecuted.issue hbefore.coherent hc
      have hfront := frontHalf_sameBack s.beforeIssue.issue
      rw [tick_of_running hd hd', hfront.cycle, (issue_keeps _).cycle, abandoned,
        if_neg (by simp [hd]), if_neg (by simp [hd'])]
      exact hissued.same hfront

/-- Everything the squashes of the first `k` ticks have dropped. -/
def allAbandoned (mem : Memory) (cfg : Config) (entryPc : Word) (k : ℕ) : List Uop :=
  (List.range k).flatMap fun j => (ticked mem cfg entryPc j).abandoned

theorem held_ticked (mem : Memory) (h : cfg.Admissible) (k : ℕ)
    (hself : NoSelfMod (committed mem cfg entryPc k))
    (hb : (ticked mem cfg entryPc k).stats.renamed < 4294967296) :
    Held ((ticked mem cfg entryPc k).cycle + 1) (allAbandoned mem cfg entryPc k)
      (ticked mem cfg entryPc k) := by
  refine ticked_induct (P := fun k t => Held (t.cycle + 1) (allAbandoned mem cfg entryPc k) t) mem h
    (.reset mem)
    (fun j hs _ hheld => ?_) k hself hb
  have htick := hheld.tick hs
  simpa only [allAbandoned, List.range_succ, List.flatMap_append,
    List.flatMap_singleton] using htick

/-- Units and holders correspond exactly until a squash drops an operation that still needs its
unit, and again once that operation would have written back. -/
theorem occupied_iff (mem : Memory) (cfg : Config) (entryPc : Word) (k : ℕ) (h : cfg.Admissible)
    (hb : (ticked mem cfg entryPc k).stats.renamed < 4294967296)
    (hself : NoSelfMod (committed mem cfg entryPc k)) : (ticked mem cfg entryPc k).Occupied ↔
      ∀ j < k, ∀ u ∈ (ticked mem cfg entryPc j).abandoned, blocking (unitOf u.dec) = true →
        u.wbCycle ≤ (ticked mem cfg entryPc k).cycle + 1 := by
  have hheld := held_ticked mem h k hself hb
  have hrunning :
    (ticked mem cfg entryPc k).onTheWay.Perm
      ((ticked mem cfg entryPc k).window.filter Uop.running) :=
    (steady_ticked h mem k hself hb).coherent.staged.running
  have hsplit (f : Fu) (hf : blocking f = true) := (hheld.units f hf).trans
    (heldTimes_perm (hrunning.append_right (allAbandoned mem cfg entryPc k)) f _)
  simp only [heldTimes_append] at hsplit
  constructor
  · intro hocc j hj u hu hf
    by_contra hlate
    have hlen := ((hocc _ hf).symm.trans (hsplit _ hf)).length_eq
    rw [List.length_append] at hlen
    have hnil : heldTimes (allAbandoned mem cfg entryPc k) (unitOf u.dec)
      ((ticked mem cfg entryPc k).cycle + 1) = [] :=
      List.length_eq_zero_iff.mp (by omega)
    rw [heldTimes, List.map_eq_nil_iff, List.filter_eq_nil_iff] at hnil
    apply hnil u (List.mem_flatMap.mpr ⟨j, List.mem_range.mpr hj, hu⟩)
    simp only [decide_true, Bool.true_and, decide_eq_true_eq]
    omega
  · intro hlate f hf
    have hnil : heldTimes (allAbandoned mem cfg entryPc k) f
        ((ticked mem cfg entryPc k).cycle + 1) = [] := by
      apply heldTimes_eq_nil
      intro u hu hunit
      obtain ⟨j, hj, hu⟩ := List.mem_flatMap.mp hu
      exact hlate j (List.mem_range.mp hj) u hu (hunit ▸ hf)
    have hperm := hsplit f hf
    rwa [hnil, List.append_nil] at hperm

theorem occupied_iff_skipping : (ticked skipping {} 0 9).Occupied ↔
    ∀ j < 9, ∀ u ∈ (ticked skipping {} 0 j).abandoned, blocking (unitOf u.dec) = true →
      u.wbCycle ≤ (ticked skipping {} 0 9).cycle + 1 :=
  occupied_iff skipping {} 0 9 admissible_default (by decide +kernel) (by decide +kernel)

/-- A taken branch, not yet in the target buffer, over a division. -/
def dividing : Memory :=
  [(0, 0x00000463), (4, 0x023140B3), (8, 0x00000073)].foldl
    (fun m (p : Word × Word) => m.storeU32 p.1 p.2) .empty

/-- The division issues beside the branch and is squashed at once, and its unit stays busy. -/
theorem dividing_not_occupied :
    Config.Admissible {} ∧ (ticked dividing {} 0 5).stats.renamed < 4294967296 ∧
      NoSelfMod (committed dividing {} 0 5) ∧ ¬(ticked dividing {} 0 5).Occupied := by
  refine ⟨admissible_default, by decide +kernel, by decide +kernel, fun hocc => ?_⟩
  have hlen := (hocc .div rfl).length_eq
  have hbusy : ((ticked dividing {} 0 5).busyTimes .div
      ((ticked dividing {} 0 5).cycle + 1)).length = 1 := by
    decide +kernel
  have hheld : (heldTimes ((ticked dividing {} 0 5).window.filter Uop.running) .div
      ((ticked dividing {} 0 5).cycle + 1)).length = 0 := by
    decide +kernel
  omega

end OooCpu.Cpu
