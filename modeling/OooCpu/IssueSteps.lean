import OooCpu.Coherence

/-! # The select loop keeps the machine coherent

Every candidate is turned away or launched. What each outcome does to the machine
is said once; the invariant of the whole loop follows. -/
namespace OooCpu.Cpu
variable {cfg : Config} {s s' : Cpu} {e : IssueQueue.Entry} {u v : Uop}

/-- A uop with its operands read. -/
def withOperands (s : Cpu) (u : Uop) : Uop :=
  { u with val1 := s.prf.read u.src1, val2 := s.prf.read u.src2 }

def loadAddr (u : Uop) : Word := u.val1 + u.dec.imm

/-- What the store queue answers a load that has its operands. -/
def forwardAnswer (s : Cpu) (u : Uop) : ForwardResult :=
  (s.lsq.resolveLoadAddr u.lsqIdx (loadAddr u)).searchOlderStores u.lsqIdx

/-- The value a load may return: forwarded, or from memory. -/
def Returns (s : Cpu) (u : Uop) (value : Word) : Prop :=
  (s.forwardAnswer u).kind = .forward ∧ value = extendLoad u.dec.op (s.forwardAnswer u).data ∨
    (s.forwardAnswer u).kind = .noMatch ∧ value = loadMemory s.mem u.dec.op (loadAddr u)

/-- The three ways to be turned away. A load has spent its unit when the search says to replay. -/
theorem attempt_turnedAway_cases {why : Stall} (h : s.attempt e = .turnedAway s' why) :
    (s' = s ∧ (why = portStall (unitOf (s.inflight e.rob).dec) ∨ why = .cdb)) ∨
      (s.inflight e.rob).dec.isLoad = true ∧ why = .storeOrder ∧
        ∃ unit n obs, s.freeUnit (unitOf (s.inflight e.rob).dec) = some unit ∧ s' = { s with
          lsq := s.lsq.resolveLoadAddr (s.inflight e.rob).lsqIdx
            (loadAddr (s.withOperands (s.inflight e.rob)))
          fuFreeAt := s.occupy .mem unit (s.cycle + 1)
          stats := { s.stats with loadReplays := n }, obs := obs } := by
  simp only [attempt] at h
  split at h
  · obtain ⟨rfl, rfl⟩ := Attempt.turnedAway.inj h
    exact .inl ⟨rfl, .inl rfl⟩
  rename_i unit hunit
  split at h
  · rename_i hl
    right
    simp only [executeLoad] at h
    split at h
    · rename_i hx
      split at hx <;> simp only [Prod.mk.injEq, reduceCtorEq, and_false] at hx
      obtain ⟨rfl, -⟩ := hx
      obtain ⟨rfl, rfl⟩ := Attempt.turnedAway.inj h
      exact ⟨hl, rfl, unit, _, _, hunit, rfl⟩
    · contradiction
  · split at h
    · obtain ⟨rfl, rfl⟩ := Attempt.turnedAway.inj h
      exact .inl ⟨rfl, .inr rfl⟩
    · contradiction

/-- A candidate that is turned away leaves a note of its address at most. -/
theorem attempt_turnedAway {why : Stall} (h : s.attempt e = .turnedAway s' why) :
    s' = s ∨ ∃ addr fu n obs, s' = { s with
      lsq := s.lsq.resolveLoadAddr (s.inflight e.rob).lsqIdx addr
      fuFreeAt := fu, stats := { s.stats with loadReplays := n }, obs := obs } := by
  rcases attempt_turnedAway_cases h with ⟨hs, -⟩ | ⟨-, -, unit, n, obs, -, hs⟩
  · exact .inl hs
  · exact .inr ⟨_, _, n, obs, hs⟩

/-- A launched load carries its address and the value its search returned. It books no port; its
latency is the memory's or a single cycle. -/
theorem attempt_load {latency unit : ℕ} {f : Fu} (h : s.attempt e = .launched s' v latency f unit)
    (hl : (s.inflight e.rob).dec.isLoad = true) :
    (f = unitOf (s.inflight e.rob).dec ∧ s.freeUnit f = some unit) ∧
      (latency = 1 ∨ latency = e.latency) ∧
        ∃ value n m obs, s.Returns (s.withOperands (s.inflight e.rob)) value ∧ s' = { s with
        lsq := s.lsq.resolveLoadAddr (s.inflight e.rob).lsqIdx
          (loadAddr (s.withOperands (s.inflight e.rob)))
        stats := { s.stats with loadForwards := n, loadMemory := m }, obs := obs } ∧
      v = { s.withOperands (s.inflight e.rob) with
        memAddr := loadAddr (s.withOperands (s.inflight e.rob)), hasResult := true,
        result := value } := by
  simp only [attempt] at h
  split at h
  · contradiction
  rename_i hunit
  rw [if_pos hl] at h
  simp only [executeLoad] at h
  split at h
  · contradiction
  rename_i hx
  split at hx
  · simp at hx
  · rename_i hk
    simp only [Prod.mk.injEq, Option.some.injEq] at hx
    obtain ⟨rfl, rfl, rfl⟩ := hx
    obtain ⟨rfl, rfl, rfl, rfl, rfl⟩ := Attempt.launched.inj h
    exact ⟨⟨rfl, hunit⟩, .inl rfl, _, _, _, _, .inl ⟨hk, rfl⟩, rfl, rfl⟩
  · rename_i hk
    simp only [Prod.mk.injEq, Option.some.injEq] at hx
    obtain ⟨rfl, rfl, rfl⟩ := hx
    obtain ⟨rfl, rfl, rfl, rfl, rfl⟩ := Attempt.launched.inj h
    exact ⟨⟨rfl, hunit⟩, .inr rfl, _, _, _, _, .inr ⟨hk, rfl⟩, rfl, rfl⟩

/-- Anything else executes on the spot, books a port if it has a result, and a store fills its queue
slot. -/
theorem attempt_other {latency unit : ℕ} {f : Fu} (h : s.attempt e = .launched s' v latency f unit)
    (hl : (s.inflight e.rob).dec.isLoad = false) :
    (f = unitOf (s.inflight e.rob).dec ∧ s.freeUnit f = some unit) ∧ latency = e.latency ∧
    ∃ booked,
      (if (s.inflight e.rob).dec.writesRd then
        s.cdbBooked ((s.cycle + latency) % s.cdbWindow) < s.cfg.numCdb ∧
          booked = fun i => if i = (s.cycle + latency) % s.cdbWindow then s.cdbBooked i + 1
            else s.cdbBooked i
        else booked = s.cdbBooked) ∧
      v = (if (s.inflight e.rob).trap = .none then executeUop (s.withOperands (s.inflight e.rob))
        else s.withOperands (s.inflight e.rob)) ∧
      s' = { s with
        cdbBooked := booked
        lsq := if v.dec.isStore
          then (s.lsq.resolveAddr v.lsqIdx v.memAddr).resolveData v.lsqIdx v.storeData
          else s.lsq } := by
  simp only [attempt] at h
  split at h
  · contradiction
  rename_i hunit
  rw [if_neg (by simp [hl])] at h
  split at h
  · contradiction
  rename_i s₁ hs₁
  obtain ⟨rfl, rfl, rfl, rfl, rfl⟩ := Attempt.launched.inj h
  refine ⟨⟨rfl, hunit⟩, rfl, ?_⟩
  split at hs₁
  · rename_i hwr
    simp only [reserveCdb] at hs₁
    split at hs₁
    · contradiction
    · rename_i hslot
      obtain rfl := Option.some.inj hs₁
      exact ⟨_, by rw [if_pos hwr]; exact ⟨Nat.lt_of_not_le hslot, rfl⟩, rfl, rfl⟩
  · rename_i hwr
    obtain rfl := Option.some.inj hs₁
    exact ⟨_, by rw [if_neg hwr], rfl, rfl⟩

theorem attempt_unit {latency unit : ℕ} {f : Fu} (h : s.attempt e = .launched s' v latency f unit) :
    f = unitOf (s.inflight e.rob).dec ∧ s.freeUnit f = some unit := by
  by_cases hl : (s.inflight e.rob).dec.isLoad = true
  · exact (attempt_load h hl).1
  · exact (attempt_other h (by simpa using hl)).1

/-- The uop as the issue pass stamps it. -/
def stamped (s : Cpu) (u : Uop) (latency : ℕ) : Uop :=
  { u with wbCycle := s.cycle + latency, stageAt := { u.stageAt with issue := s.cycle } }

/-- A candidate of the issue queue names the uop filed under its slot. -/
theorem Coherent.candidate (h : s.Coherent cfg) (he : e ∈ s.iq.entries) :
    s.inflight e.rob ∈ s.window ∧ (s.inflight e.rob).waiting = true ∧
      e.bare = (s.inflight e.rob).seat cfg := by
  obtain ⟨u, hu, hwait, hbare⟩ := h.staged.mem_iq he
  have hrob : e.rob = u.rob := congrArg IssueQueue.Entry.rob hbare
  obtain ⟨-, hfile, -⟩ := h.buffered.mem_window hu
  rw [hrob, hfile]
  exact ⟨hu, hwait, hbare⟩

/-- What the launched uop is, whichever way it went. -/
theorem attempt_issues {latency unit : ℕ} {f : Fu} (hc : 0 < s.cycle)
    (h : s.attempt e = .launched s' v latency f unit) :
    (s.inflight e.rob).Issues (stamped s' v latency) ∧ s'.cycle = s.cycle := by
  have hc' : s.cycle ≠ 0 := by omega
  by_cases hl : (s.inflight e.rob).dec.isLoad = true
  · obtain ⟨-, -, value, n, m, obs, -, rfl, rfl⟩ := attempt_load h hl
    exact ⟨loaded_issues hl hc', rfl⟩
  · obtain ⟨-, -, booked, -, rfl, rfl⟩ := attempt_other h (by simpa using hl)
    have hissues := @executeUop_issues (s.inflight e.rob) (s.prf.read (s.inflight e.rob).src1)
      (s.prf.read (s.inflight e.rob).src2) (s.cycle + latency) s.cycle (by simpa using hl) hc'
    exact ⟨hissues, rfl⟩

theorem launch_queues {latency : ℕ} {executing wbFast wbSlow : List Uop} (u : Uop) :
    ((if 1 < latency then executing ++ [u] else executing) ++
      (if latency ≤ 1 ∧ ¬u.dec.isLoad = true then wbFast ++ [u] else wbFast) ++
      (if latency ≤ 1 ∧ u.dec.isLoad = true then wbSlow ++ [u] else wbSlow)).Perm
      (u :: (executing ++ wbFast ++ wbSlow)) := by
  by_cases hlat : 1 < latency
  · rw [if_pos hlat, if_neg (by omega), if_neg (by omega), List.append_assoc, List.append_assoc,
      List.singleton_append, List.append_assoc]
    exact List.perm_middle
  · rw [if_neg hlat]
    by_cases hl : u.dec.isLoad = true
    · rw [if_neg (by simp [hl]), if_pos ⟨by omega, hl⟩, ← List.append_assoc]
      exact List.perm_append_singleton u _
    · rw [if_pos ⟨by omega, hl⟩, if_neg (by simp [hl]), ← List.append_assoc, List.append_assoc]
      exact List.perm_middle

/-- A launch touches the queues, the booking ring and statistics. -/
theorem attempt_frame {latency unit : ℕ} {f : Fu}
    (h : s.attempt e = .launched s' v latency f unit) : ∃ lsq booked n m obs, s' = { s with
      lsq := lsq, cdbBooked := booked
      stats := { s.stats with loadForwards := n, loadMemory := m }, obs := obs } ∧
      lsq.loads.capacity = s.lsq.loads.capacity ∧ lsq.stores.capacity = s.lsq.stores.capacity := by
  by_cases hl : (s.inflight e.rob).dec.isLoad = true
  · obtain ⟨-, -, value, n, m, obs, -, rfl, -⟩ := attempt_load h hl
    exact ⟨_, s.cdbBooked, _, _, _, rfl, rfl, rfl⟩
  · obtain ⟨-, -, booked, -, -, rfl⟩ := attempt_other h (by simpa using hl)
    refine ⟨_, _, s.stats.loadForwards, s.stats.loadMemory, s.obs, rfl, ?_, ?_⟩ <;> split <;> rfl

private theorem launch_queued {latency unit : ℕ} {f : Fu} {pre post : List Uop} (h : s.Coherent cfg)
    (hc : 0 < s.cycle) (ha : s.attempt e = .launched s' v latency f unit)
    (hw : s.window = pre ++ s.inflight e.rob :: post) (hwait : (s.inflight e.rob).waiting = true) :
    Queued (pre ++ stamped s' v latency :: post) s'.lsq := by
  obtain ⟨hissues, -⟩ := attempt_issues hc ha
  have hadv := hissues.toAdvances
  have hsound := h.sound (s.inflight e.rob) (by simp [hw])
  simp only [Uop.waiting, Bool.and_eq_true] at hwait
  by_cases hl : (s.inflight e.rob).dec.isLoad = true
  · have hns := hsound.shaped.load_not_store hl
    obtain ⟨-, -, value, n, m, obs, -, rfl, -⟩ := attempt_load ha hl
    apply (h.queued.resolveLoad _ _).replace hw hadv hissues.dispatched hissues.lsqIdx
    intro hs
    rw [hns] at hs
    contradiction
  · obtain ⟨-, -, booked, -, -, hs'⟩ := attempt_other ha (by simpa using hl)
    have hdec : v.dec = (s.inflight e.rob).dec := hadv.dec
    have hlsq := congrArg Cpu.lsq hs'
    simp only [hdec] at hlsq
    rw [hlsq]
    by_cases hs : (s.inflight e.rob).dec.isStore = true
    · rw [if_pos hs]
      exact h.queued.resolveStore hw hadv hs hwait.1
        (hissues.dispatched.trans hwait.1) hissues.issued hissues.lsqIdx
    · rw [if_neg hs]
      exact h.queued.replace hw hadv hissues.dispatched hissues.lsqIdx fun hs' => absurd hs' hs

/-- Handing an accepted uop over keeps every group of the invariant. -/
theorem Coherent.launch {latency unit : ℕ} {f : Fu} (h : s.Coherent cfg) (hc : 0 < s.cycle)
    (he : e ∈ s.iq.entries) (ha : s.attempt e = .launched s' v latency f unit) :
    (s'.launch e (stamped s' v latency) latency f unit).Coherent cfg ∧
      ∃ pre post, s.window = pre ++ s.inflight e.rob :: post ∧
        (s'.launch e (stamped s' v latency) latency f unit).window =
          pre ++ stamped s' v latency :: post := by
  obtain ⟨hmem, hwait, hbare⟩ := h.candidate he
  obtain ⟨hissues, -⟩ := attempt_issues hc ha
  obtain ⟨pre, post, hw⟩ := List.append_of_mem hmem
  obtain ⟨hpre, -⟩ := h.buffered.seq_split hw
  have hseq : e.seq = (s.inflight e.rob).seq := congrArg IssueQueue.Entry.seq hbare
  have hadv := hissues.toAdvances
  have hwait' := hwait
  simp only [Uop.waiting, Bool.and_eq_true, Bool.not_eq_true'] at hwait'
  have huc : (s.inflight e.rob).isComplete = false := by
    by_contra hne
    have := h.staged.complete _ hmem (by simpa using hne)
    rw [hwait'.2] at this
    contradiction
  have hvc := hissues.complete.trans huc
  obtain ⟨-, -, hmirror⟩ := h.buffered.mem_window hmem
  have hqueued := launch_queued h hc ha hw hwait
  obtain ⟨lsq, booked, n, m, obs, hs', hloads, hstores⟩ := attempt_frame ha
  generalize hx : stamped s' v latency = x at *
  subst hs'
  have hbase : Mirrors x (s.rob.slots (s.inflight e.rob).rob) :=
    ⟨hmirror.seq.trans hadv.seq.symm, hadv.dec ▸ hmirror.destArch,
      hmirror.destPhys.trans hadv.dest.symm, hmirror.stalePhys.trans hadv.stale.symm,
      hadv.dec ▸ hmirror.isBranch, hmirror.complete.trans hissues.complete.symm,
      hmirror.ckpt.trans hadv.ckpt.symm⟩
  -- the record changes in its misprediction mark at most
  let g : RobEntry → RobEntry := if x.nextPc = x.predicted then id
    else fun r => { r with mispredicted := true }
  have hg : Mirrors x (g (s.rob.slots (s.inflight e.rob).rob)) := by
    dsimp only [g]
    split
    · exact hbase
    · exact ⟨hbase.seq, hbase.destArch, hbase.destPhys, hbase.stalePhys, hbase.isBranch,
        hbase.complete, hbase.ckpt⟩
  obtain ⟨hwin, hbuffered⟩ := h.buffered.replace hw hadv hg
  have hrob : (if x.nextPc = x.predicted then s.rob
      else s.rob.modify x.rob fun e => { e with mispredicted := true }) = s.rob.modify x.rob g := by
    dsimp only [g]
    split
    · exact (Rob.modify_id _).symm
    · rfl
  rw [← hrob] at hwin hbuffered
  let t : Cpu := Cpu.launch { s with
    lsq := lsq, cdbBooked := booked
    stats := { s.stats with loadForwards := n, loadMemory := m }, obs := obs } e x latency f unit
  have hwindow : t.window = pre ++ x :: post := hwin
  have hiq : t.iq = s.iq.erase (s.inflight e.rob).seq := by rw [← hseq]; rfl
  have hshape : t.rob.count = s.rob.count ∧ t.rob.capacity = s.rob.capacity := by
    dsimp only [t, Cpu.launch]
    split <;> exact ⟨rfl, rfl⟩
  have hs := h.sized
  change t.Coherent cfg ∧ _
  refine ⟨⟨?_, hbuffered, ?_, ?_, ?_, ?_, ?_, ?_, h.decoded, h.fetched, ?_⟩, pre, post, hw, hwindow⟩
  · exact { hs with
      rob := hshape.2.trans hs.rob
      loads := hloads.trans hs.loads
      stores := hstores.trans hs.stores
      iq_le := (List.length_eraseP_le).trans hs.iq_le }
  · rw [hwindow, hiq]
    exact h.staged.issue hw hpre hwait (hissues.dispatched.trans hwait'.1) hissues.issued hvc
      (launch_queues x)
  · rw [hwindow]
    exact h.mapped.replace hw hadv
  · rw [hwindow]
    exact h.checkpointed.replace hw hadv
  · rw [hwindow]
    exact h.woken.replace hw hadv hissues.complete
      (fun hcomp => by rw [huc] at hcomp; contradiction)
      fun a hmem' => .inl (List.eraseP_subset hmem')
  · rw [hwindow]
    exact hqueued
  · rw [hwindow]
    exact forall_mem_replace hw h.sound (hissues.sound (h.sound _ hmem))
  · have hcounted := h.counted
    rw [hshape.1]
    exact hcounted

/-- Turning a candidate away changes no group of the invariant. -/
theorem Coherent.turnAway {why : Stall} (h : s.Coherent cfg)
    (ha : s.attempt e = .turnedAway s' why) :
    s'.Coherent cfg ∧ s'.window = s.window ∧ s'.iq = s.iq ∧ s'.cycle = s.cycle := by
  rcases attempt_turnedAway ha with rfl | ⟨addr, fu, n, obs, rfl⟩
  · exact ⟨h, rfl, rfl, rfl⟩
  · exact ⟨{ h with sized := { h.sized with }, queued := h.queued.resolveLoad _ _ }, rfl, rfl, rfl⟩

theorem issueOne_iq (p : IssuePass) (e : IssueQueue.Entry) :
    (issueOne p e).cpu.iq = p.cpu.iq ∨ (issueOne p e).cpu.iq = p.cpu.iq.erase e.seq := by
  simp only [issueOne]
  cases ha : p.cpu.attempt e with
  | turnedAway s' why =>
    left
    rcases attempt_turnedAway ha with rfl | ⟨_, _, _, _, rfl⟩ <;> rfl
  | launched s' u latency f unit =>
    right
    obtain ⟨_, _, _, _, _, rfl, -, -⟩ := attempt_frame ha
    rfl

/-- The candidates that are left are seated in their order. -/
theorem sublist_issueOne {cands : List IssueQueue.Entry} {p : IssuePass}
    (hsub : (e :: cands).Sublist p.cpu.iq.entries) :
    cands.Sublist (issueOne p e).cpu.iq.entries := by
  cases issueOne_iq p e with
  | inl hiq =>
    rw [hiq]
    exact (List.sublist_cons_self e cands).trans hsub
  | inr hiq =>
    rw [hiq]
    have herase := hsub.eraseP (p := fun a => a.seq == e.seq)
    rwa [List.eraseP_cons_of_pos (by simp)] at herase

/-- The invariant rule of the select loop: each candidate is still queued when its turn comes. -/
theorem issueLoop_preserves {P : IssuePass → Prop}
    (hstep : ∀ p e, P p → e ∈ p.cpu.iq.entries → e.ready = true → P (issueOne p e))
    {cands : List IssueQueue.Entry} {p : IssuePass} (hp : P p)
    (hsub : cands.Sublist p.cpu.iq.entries)
    (hready : ∀ e ∈ cands, e.ready = true) : P (issueLoop cands p) := by
  induction cands generalizing p with
  | nil => exact hp
  | cons e rest ih =>
    simp only [issueLoop]
    split
    · exact hp
    have hmem : e ∈ p.cpu.iq.entries := hsub.subset List.mem_cons_self
    have hnext := hstep p e hp hmem (hready e List.mem_cons_self)
    exact ih hnext (sublist_issueOne hsub) fun a ha => hready a (List.mem_cons_of_mem _ ha)

/-- The invariant rule of one issue scan. -/
theorem issueScan_preserves {P : IssuePass → Prop}
    (hstep : ∀ p e, P p → e ∈ p.cpu.iq.entries → e.ready = true → P (issueOne p e))
    (hp : P { cpu := s }) : P s.issueScan := by
  apply issueLoop_preserves hstep hp ((List.take_sublist _ _).trans List.filter_sublist)
  intro e he
  have hmem := (List.take_sublist _ _).subset he
  simpa using (List.mem_filter.mp hmem).2

/-- What holds between two passes of the select loop. -/
structure IssuePass.Sane (cfg : Config) (p : IssuePass) : Prop where
  coherent : p.cpu.Coherent cfg
  cycle_pos : 0 < p.cpu.cycle
  offender : ∀ br, p.offender = some br → br ∈ p.cpu.window ∧ br.isIssued = true ∧
    br.nextPc ≠ br.predicted

/-- The offender after one more launch is the old one or the launched uop. -/
theorem offender_cases {old : Option Uop} {br : Uop} (h : offender old u = some br) :
    old = some br ∨ br = u ∧ u.nextPc ≠ u.predicted := by
  simp only [offender] at h
  split at h
  · exact .inl h
  rename_i hne
  split at h
  · exact .inr ⟨(Option.some.inj h).symm, hne⟩
  · split at h
    · exact .inr ⟨(Option.some.inj h).symm, hne⟩
    · exact .inl h

theorem IssuePass.Sane.issueOne {p : IssuePass} (h : p.Sane cfg) (he : e ∈ p.cpu.iq.entries) :
    (issueOne p e).Sane cfg := by
  simp only [Cpu.issueOne]
  cases ha : p.cpu.attempt e with
  | turnedAway s' why =>
    obtain ⟨hcoh, hwin, -, hcyc⟩ := h.coherent.turnAway ha
    refine ⟨hcoh, hcyc ▸ h.cycle_pos, fun br hbr => ?_⟩
    change br ∈ s'.window ∧ _
    rw [hwin]
    exact h.offender br hbr
  | launched s' u latency f unit =>
    obtain ⟨hcoh, pre, post, hw, hwin⟩ := h.coherent.launch h.cycle_pos he ha
    obtain ⟨hissues, hcyc⟩ := attempt_issues h.cycle_pos ha
    obtain ⟨-, hwait, -⟩ := h.coherent.candidate he
    refine ⟨hcoh, ?_, fun br hbr => ?_⟩
    · change 0 < s'.cycle
      rw [hcyc]
      exact h.cycle_pos
    · change br ∈ (s'.launch e (stamped s' u latency) latency f unit).window ∧ _
      rw [hwin]
      rcases offender_cases (u := stamped s' u latency) hbr with hold | ⟨rfl, hne⟩
      · obtain ⟨hmem, hi, hne⟩ := h.offender br hold
        refine ⟨?_, hi, hne⟩
        rw [hw, List.mem_append, List.mem_cons] at hmem
        rw [List.mem_append, List.mem_cons]
        rcases hmem with hmem | rfl | hmem
        · exact .inl hmem
        · simp [Uop.waiting, hi] at hwait
        · exact .inr (.inr hmem)
      · exact ⟨by simp, hissues.issued, hne⟩

theorem Coherent.issueScan (h : s.Coherent cfg) (hc : 0 < s.cycle) : s.issueScan.Sane cfg :=
  issueScan_preserves (fun _ _ hp he _ => hp.issueOne he) ⟨h, hc, by simp⟩

private theorem foldl_stall (xs : List Stall) (t : Stats) :
    xs.foldl Stats.stall t = { t with stalls := (xs.foldl Stats.stall t).stalls } := by
  induction xs generalizing t with
  | nil => rfl
  | cons x xs ih =>
    rw [List.foldl_cons, ih]
    rfl

/-- Charging the unused slots counts stalls and nothing else. -/
theorem chargeSlots_stalls (p : IssuePass) :
    ∃ stalls, chargeSlots p = { p.cpu with stats := { p.cpu.stats with stalls := stalls } } := by
  refine ⟨(chargeSlots p).stats.stalls, ?_⟩
  simp only [chargeSlots]
  rw [foldl_stall, foldl_stall (p.blocked.take _)]

/-- Charging the unused slots changes nothing but statistics. -/
theorem chargeSlots_eq (p : IssuePass) : ∃ t : Stats, chargeSlots p = { p.cpu with stats := t } ∧
    t.renamed = p.cpu.stats.renamed ∧ t.retired = p.cpu.stats.retired ∧
      t.squashed = p.cpu.stats.squashed := by
  obtain ⟨stalls, hcharge⟩ := chargeSlots_stalls p
  exact ⟨_, hcharge, rfl, rfl, rfl⟩

theorem Coherent.chargeSlots {p : IssuePass} (h : p.cpu.Coherent cfg) :
    (chargeSlots p).Coherent cfg ∧ (Cpu.chargeSlots p).window = p.cpu.window := by
  obtain ⟨t, heq, h1, h2, h3⟩ := chargeSlots_eq p
  rw [heq]
  refine ⟨{ h with sized := { h.sized with }, buffered := ?_, counted := ?_ }, rfl⟩
  · change Buffered p.cpu.rob p.cpu.inflight t.renamed
    rw [h1]
    exact h.buffered
  · have hcounted := h.counted
    change t.renamed = t.retired + t.squashed + p.cpu.rob.count
    omega

/-- Recovery from a branch in flight keeps the window up to that branch and every group of the
invariant. -/
theorem Coherent.recover {br : Uop} {pre post : List Uop} (h : s.Coherent cfg)
    (hw : s.window = pre ++ br :: post)
    (hi : br.isIssued = true) (hb : br.dec.isBranch = true) :
    (s.recover br).Coherent cfg ∧ (s.recover br).window = pre ++ [br] := by
  obtain ⟨hpre, hpost⟩ := h.buffered.seq_split hw
  obtain ⟨hwin, hkilled, hbuffered⟩ := h.buffered.truncate hw
  have hw' : s.window = (pre ++ [br]) ++ post := by rw [hw]; simp
  let t := s.recover br
  have hwindow : t.window = pre ++ [br] := hwin
  have hrat : t.rat.rat = (pre ++ [br]).foldl Uop.remap s.archRat :=
    congrArg Checkpoint.rat (h.checkpointed.slot_eq hw hb)
  have hmapped := h.mapped.truncate hw' hkilled
  have hckpts := h.checkpointed.truncate hw' hkilled
  have hs := h.sized
  have hcapacity : t.rob.capacity = s.rob.capacity ∧ t.freeList.capacity = s.freeList.capacity ∧
      t.ckpts.capacity = s.ckpts.capacity := by
    refine ⟨?_, FreeList.capacity_foldl_free _ _ _, CheckpointPool.capacity_foldl_free _ _ _⟩
    change (s.rob.truncateTo br.rob).2.capacity = s.rob.capacity
    simp only [Rob.truncateTo]
    split <;> rfl
  change t.Coherent cfg ∧ _
  refine ⟨⟨?_, hbuffered, ?_, ?_, ?_, ?_, ?_, ?_, ?_, ?_, ?_⟩, hwindow⟩
  · exact { hs with
      rob := hcapacity.1.trans hs.rob
      freeList := hcapacity.2.1.trans hs.freeList
      ckpts := hcapacity.2.2.trans hs.ckpts
      fetchQ_le := Nat.zero_le _
      decodeQ_le := Nat.zero_le _
      renameQ_le := Nat.zero_le _
      iq_le := (List.length_filter_le _ _).trans hs.iq_le }
  · rw [hwindow]
    exact h.staged.truncate hw hpre hpost hi
  · rw [hwindow, hrat]
    exact hmapped
  · rw [hwindow]
    exact hckpts
  · rw [hwindow]
    exact h.woken.mono (fun a ha => mem_of_mem_front hw ha) fun e he => List.mem_of_mem_filter he
  · rw [hwindow]
    exact h.queued.truncate hw h.buffered.sorted hpre hpost
  · rw [hwindow]
    exact fun a ha => h.sound a (mem_of_mem_front hw ha)
  · exact fun a ha => absurd ha (by simp [t, Cpu.recover])
  · exact fun a ha => absurd ha (by simp [t, Cpu.recover])
  · have hlen := Buffered.window_length s.rob s.inflight
    have hlen' := Buffered.window_length t.rob t.inflight
    have hk := hkilled.length_eq
    have hcounted := h.counted
    rw [show windowOf s.rob s.inflight = pre ++ br :: post from hw] at hlen
    rw [show windowOf t.rob t.inflight = pre ++ [br] from hwindow] at hlen'
    simp only [List.length_append, List.length_cons, List.length_nil,
      List.length_reverse] at hlen hlen' hk
    change s.stats.renamed =
      s.stats.retired + (s.stats.squashed + (s.rob.truncateTo br.rob).1.length) + t.rob.count
    omega

end OooCpu.Cpu
