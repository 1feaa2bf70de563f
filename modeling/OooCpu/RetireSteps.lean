import OooCpu.Frame

/-! # Execution, writeback and commit keep the machine coherent

Results move between queues and land out of order, and uops leave the window at
its old end. A tick of the machine keeps the invariant as long as
recovery only ever starts from a branch. -/
namespace OooCpu.Cpu
variable {cfg : Config} {s : Cpu} {u : Uop}

theorem Coherent.beginCycle (h : s.Coherent cfg) : s.beginCycle.Coherent cfg :=
  { h with sized := { h.sized with } }

theorem execute_queues (executing wbFast wbSlow : List Uop) (c : ℕ) :
    (executing.filter (fun u => c < u.wbCycle) ++
      (wbFast ++ executing.filter fun u => u.wbCycle ≤ c && !u.dec.isLoad) ++
      (wbSlow ++ executing.filter fun u => u.wbCycle ≤ c && u.dec.isLoad)).Perm
        (executing ++ wbFast ++ wbSlow) := by
  induction executing with
  | nil => simp
  | cons u executing ih =>
    by_cases hlt : c < u.wbCycle
    · have hle : ¬u.wbCycle ≤ c := by omega
      simpa [List.filter_cons, hlt, hle] using ih.cons u
    · have hle : u.wbCycle ≤ c := by omega
      by_cases hl : u.dec.isLoad = true
      · simp only [List.filter_cons, hlt, hle, hl, decide_false, decide_true, Bool.not_true,
          Bool.and_false, Bool.and_self, Bool.false_eq_true, if_false, if_true]
        refine List.Perm.trans ?_ (ih.cons u)
        rw [← List.append_assoc, ← List.append_assoc]
        exact List.perm_middle.trans (by simp only [List.append_assoc]; exact List.Perm.refl _)
      · simp only [List.filter_cons, hlt, hle, hl, decide_false, decide_true, Bool.not_false,
          Bool.and_false, Bool.and_self, Bool.false_eq_true, if_false, if_true]
        refine List.Perm.trans ?_ (ih.cons u)
        simp only [List.append_assoc, List.cons_append]
        rw [← List.append_assoc]
        exact List.perm_middle.trans (by simp only [List.append_assoc]; exact List.Perm.refl _)

theorem Coherent.execute (h : s.Coherent cfg) : s.execute.Coherent cfg :=
  { h with sized := { h.sized with }, staged := h.staged.move (execute_queues _ _ _ _) }

/-- A uop that lands owns the register it writes. -/
theorem Coherent.running_dest (h : s.Coherent cfg) (hu : u ∈ s.executing ++ s.wbFast ++ s.wbSlow)
    (hd : u.dest ≠ INVALID_PHYSREG) : u.dest ∉ s.freeList.regs ∧ ∀ a, s.archRat a ≠ u.dest := by
  have huw := (h.staged.mem_running hu).1
  have hwr : u.dec.writesRd = true := by
    by_contra hne
    obtain ⟨pre, post, hw⟩ := List.append_of_mem huw
    exact hd ((h.mapped.renamedUnder hw).none (by simpa using hne)).1
  have hspec := h.mapped.dest_spec huw hwr
  exact ⟨hspec.1, hspec.2.1⟩

/-- The uop writeback leaves behind. -/
def landed (s : Cpu) (u : Uop) : Uop := { u with stageAt := { u.stageAt with complete := s.cycle } }

/-- A landing result completes its own entry. -/
theorem Coherent.complete {fast slow : List Uop} (h : s.Coherent cfg) (hc : 0 < s.cycle)
    (hq : (s.executing ++ s.wbFast ++ s.wbSlow).Perm (u :: (s.executing ++ fast ++ slow))) :
    ({ s.complete u with wbFast := fast, wbSlow := slow } : Cpu).Coherent cfg ∧
      ∃ pre post, s.window = pre ++ u :: post ∧
        ({ s.complete u with wbFast := fast, wbSlow := slow } : Cpu).window =
          pre ++ s.landed u :: post := by
  have hmem : u ∈ s.executing ++ s.wbFast ++ s.wbSlow := hq.symm.subset List.mem_cons_self
  obtain ⟨huw, hrun⟩ := h.staged.mem_running hmem
  obtain ⟨pre, post, hw⟩ := List.append_of_mem huw
  have hrun' := hrun
  simp only [Uop.running, Bool.and_eq_true, Bool.not_eq_true'] at hrun'
  have hadv : u.Advances (s.landed u) :=
    ⟨rfl, rfl, rfl, rfl, rfl, rfl, rfl, rfl, rfl, rfl, rfl, rfl, rfl, rfl, rfl, rfl⟩
  have hvc : (s.landed u).isComplete = true := by
    simpa [Uop.isComplete, landed] using Nat.pos_iff_ne_zero.mp hc
  obtain ⟨-, -, hmirror⟩ := h.buffered.mem_window huw
  obtain ⟨hwin, hbuffered⟩ := h.buffered.replace hw hadv (f := fun e => { e with complete := true })
    ⟨hmirror.seq, hmirror.destArch, hmirror.destPhys, hmirror.stalePhys, hmirror.isBranch, hvc.symm,
      hmirror.ckpt⟩
  have hsound := h.sound u huw
  let t : Cpu := { s.complete u with wbFast := fast, wbSlow := slow }
  have hwindow : t.window = pre ++ s.landed u :: post := hwin
  have hs := h.sized
  have hiq : t.iq.capacity = s.iq.capacity ∧ t.iq.entries.length = s.iq.entries.length := by
    dsimp only [t, Cpu.complete, IssueQueue.wakeup]
    split <;> simp
  change t.Coherent cfg ∧ _
  refine ⟨⟨?_, hbuffered, ?_, ?_, ?_, ?_, ?_, ?_, h.decoded, h.fetched, h.counted⟩, pre, post, hw,
    hwindow⟩
  · exact { hs with
      iq := hiq.1.trans hs.iq
      iq_le := by
        rw [hiq.1, hiq.2]
        exact hs.iq_le }
  · rw [hwindow]
    exact h.staged.land hw hrun rfl hrun'.1 hvc hq
  · rw [hwindow]
    exact h.mapped.replace hw hadv
  · rw [hwindow]
    exact h.checkpointed.replace hw hadv
  · rw [hwindow]
    exact h.woken.land h.mapped hw hadv hvc rfl fun hwr => ⟨hsound.writer_trap hwr,
      hsound.result hrun'.1 hwr⟩
  · rw [hwindow]
    exact h.queued.replace hw hadv rfl rfl fun _ => ⟨rfl, rfl, rfl⟩
  · rw [hwindow]
    exact forall_mem_replace hw h.sound (hsound.advance hadv rfl rfl rfl rfl)

/-- The invariant rule of writeback: results land one by one, out of either queue. -/
theorem writeback_preserves {P : Cpu → Prop}
    (hland : ∀ {t : Cpu} {u : Uop} {fast slow : List Uop}, P t →
      (t.executing ++ t.wbFast ++ t.wbSlow).Perm (u :: (t.executing ++ fast ++ slow)) →
      P { t.complete u with wbFast := fast, wbSlow := slow })
    (hclear : ∀ {t : Cpu} (booked : ℕ → ℕ), P t → P { t with cdbBooked := booked }) (h : P s) :
    P s.writeback := by
  have hfast : P (forLoop writebackFastOne s.wbFast.length (s, s.cfg.numCdb)).1 := by
    refine forLoop_preserves (fun p : Cpu × ℕ => P p.1) (fun p hp => ?_) _
      (s := (s, s.cfg.numCdb)) h
    obtain ⟨t, ports⟩ := p
    simp only [writebackFastOne]
    split
    · exact hp
    rename_i u rest hq
    split
    · exact hp
    apply @hland t u rest t.wbSlow hp
    rw [hq, List.append_assoc, List.append_assoc, List.cons_append]
    exact List.perm_middle
  have hslow (n : ℕ) :
      P (forLoop writebackSlowOne n (forLoop writebackFastOne s.wbFast.length (s,
        s.cfg.numCdb))).1 := by
    refine forLoop_preserves (fun p : Cpu × ℕ => P p.1) (fun p hp => ?_) n hfast
    obtain ⟨t, ports⟩ := p
    simp only [writebackSlowOne]
    split
    · exact hp
    rename_i u rest hq
    split
    · exact hp
    apply @hland t u t.wbFast rest hp
    rw [hq]
    exact List.perm_middle
  exact hclear _ (hslow _)

/-- The booking ring is no part of the invariant. -/
theorem Coherent.clearBooking (h : s.Coherent cfg) (booked : ℕ → ℕ) :
    ({ s with cdbBooked := booked } : Cpu).Coherent cfg :=
  { h with sized := { h.sized with } }

theorem Coherent.writeback (h : s.Coherent cfg) (hc : 0 < s.cycle) : s.writeback.Coherent cfg :=
  (writeback_preserves (P := fun t => t.Coherent cfg ∧ 0 < t.cycle)
    (fun ht hq => ⟨(ht.1.complete ht.2 hq).1, ht.2⟩)
    (fun _ ht => ⟨ht.1.clearBooking _, ht.2⟩) ⟨h, hc⟩).1

theorem drains_eq (h : u.Sound) : drains u = u.dec.isStore := by
  by_cases hs : u.dec.isStore = true
  · rw [drains, hs, h.store_trap hs]
    rcases h.shaped.store_op_iff.mp hs with ho | ho | ho <;> simp [ho]
  · have hop : ¬(u.dec.op = .sb ∨ u.dec.op = .sh ∨ u.dec.op = .sw) :=
      fun ho => hs (h.shaped.store_op_iff.mpr ho)
    simp only [not_or] at hop
    simp [drains, hop, hs]

/-- The committed mapping takes the retiring uop's destination over. -/
theorem Coherent.retire_archRat {rob : Rob} (h : s.Coherent cfg) (hu : u ∈ s.window) :
    (s.retire rob u).archRat = u.remap s.archRat := by
  by_cases hwr : u.dec.writesRd = true
  · have hd := (h.mapped.dest_spec hu hwr).2.2.2.2
    simp only [Cpu.retire, Uop.remap, hwr, if_true, if_pos hd]
  · obtain ⟨pre, post, hw⟩ := List.append_of_mem hu
    have hd := ((h.mapped.renamedUnder hw).none (by simpa using hwr)).1
    simp only [Cpu.retire, Uop.remap, hwr, hd]
    rfl

/-- The oldest uop leaves the window and what it owned changes hands. -/
theorem Coherent.retire {e : RobEntry} {rob : Rob} (h : s.Coherent cfg)
    (hp : s.rob.popHeadIfComplete = some (e, rob)) :
    (s.retire rob (s.inflight s.rob.head)).Coherent cfg ∧
      s.window = s.inflight s.rob.head :: (s.retire rob (s.inflight s.rob.head)).window ∧
      (s.inflight s.rob.head).isComplete = true := by
  obtain ⟨hw, hcomplete, hbuffered, hcount⟩ := h.buffered.pop hp
  generalize hu : s.inflight s.rob.head = u at *
  replace hw : s.window = u :: windowOf rob s.inflight := hw
  have hmem : u ∈ s.window := by simp [hw]
  have hsound := h.sound u hmem
  have hissued := h.staged.complete u hmem hcomplete
  have hdispatched := h.staged.issued u hmem hissued
  let t := s.retire rob u
  have hwindow : t.window = windowOf rob s.inflight := rfl
  have hremap : t.archRat = u.remap s.archRat := h.retire_archRat hmem
  have hlsq : t.lsq = ⟨if u.dec.isLoad then s.lsq.loads.popHead else s.lsq.loads,
      if u.dec.isStore then s.lsq.stores.popHead else s.lsq.stores⟩ := by
    simp only [t, Cpu.retire, drains_eq hsound]
  have hcaps : t.lsq.loads.capacity = s.lsq.loads.capacity ∧
      t.lsq.stores.capacity = s.lsq.stores.capacity := by
    rw [hlsq]
    simp only [LsqQueue.popHead]
    constructor <;> split <;> (try split) <;> rfl
  have hfree : t.freeList.capacity = s.freeList.capacity ∧ t.ckpts.capacity = s.ckpts.capacity := by
    simp only [t, Cpu.retire]
    constructor
    · split
      · exact FreeList.capacity_foldl_free id [u.stale] s.freeList
      · rfl
    · split
      · exact CheckpointPool.capacity_foldl_free id [u.ckpt] s.ckpts
      · rfl
  have hrob : rob.capacity = s.rob.capacity := by
    have := (Rob.pop_some h.buffered.wf hp).2.2.1
    rw [this]
  have hs := h.sized
  change t.Coherent cfg ∧ s.window = u :: t.window ∧ _
  rw [hwindow]
  refine ⟨⟨?_, hbuffered, ?_, ?_, ?_, ?_, ?_, ?_, h.decoded, h.fetched, ?_⟩, hw, hcomplete⟩
  · exact { hs with
      rob := hrob.trans hs.rob
      freeList := hfree.1.trans hs.freeList
      ckpts := hfree.2.trans hs.ckpts
      loads := hcaps.1.trans hs.loads
      stores := hcaps.2.trans hs.stores }
  · exact h.staged.pop hw hcomplete
  · rw [hremap]
    exact h.mapped.pop hw
  · rw [hremap]
    exact h.checkpointed.pop hw
  · rw [hremap]
    exact h.woken.pop hw hcomplete
  · rw [hlsq]
    exact (h.queued.pop hw hdispatched).1
  · exact fun a ha => h.sound a (by rw [hw]; exact List.mem_cons_of_mem _ ha)
  · have hcounted := h.counted
    change s.stats.renamed = s.stats.retired + 1 + s.stats.squashed + rob.count
    omega

/-- The halt squash empties the machine and gives everything back. -/
theorem Coherent.squashInFlight (h : s.Coherent cfg) :
    s.squashInFlight.Coherent cfg ∧ s.squashInFlight.window = [] := by
  obtain ⟨hwin, hkilled, hbuffered⟩ := h.buffered.squashAll
  let t := s.squashInFlight
  have hwindow : t.window = [] := hwin
  have hmapped := h.mapped.truncate (show s.window = [] ++ s.window from rfl) hkilled
  have hckpts := h.checkpointed.truncate (show s.window = [] ++ s.window from rfl) hkilled
  have hs := h.sized
  change t.Coherent cfg ∧ _
  refine ⟨⟨?_, hbuffered, ?_, ?_, ?_, ?_, ?_, ?_, ?_, ?_, ?_⟩, hwindow⟩
  · exact { hs with
      freeList := (FreeList.capacity_foldl_free _ _ _).trans hs.freeList
      ckpts := (CheckpointPool.capacity_foldl_free _ _ _).trans hs.ckpts
      fetchQ_le := Nat.zero_le _
      decodeQ_le := Nat.zero_le _
      renameQ_le := Nat.zero_le _
      iq_le := Nat.zero_le _ }
  · rw [hwindow]
    exact .clear
  · rw [hwindow]
    exact hmapped
  · rw [hwindow]
    exact hckpts
  · rw [hwindow]
    exact h.woken.mono (by simp) (by simp [t, Cpu.squashInFlight, IssueQueue.clear])
  · rw [hwindow]
    exact h.queued.clear
  · rw [hwindow]
    simp
  · exact fun a ha => absurd ha (by simp [t, Cpu.squashInFlight])
  · exact fun a ha => absurd ha (by simp [t, Cpu.squashInFlight])
  · have hlen := Buffered.window_length s.rob s.inflight
    have hlen' := Buffered.window_length t.rob t.inflight
    have hk := hkilled.length_eq
    have hcounted := h.counted
    rw [show windowOf t.rob t.inflight = [] from hwindow] at hlen'
    simp only [List.length_nil, List.length_reverse] at hlen' hk
    change s.stats.renamed =
      s.stats.retired + (s.stats.squashed + s.rob.squashAll.1.length) + t.rob.count
    omega

/-- The invariant rule of commit: it retires the head, and drops everything when that ends the
run. -/
theorem commitOne_preserves {P : Cpu → Prop}
    (hretire : ∀ {t : Cpu} {e : RobEntry} {rob : Rob}, P t → t.rob.popHeadIfComplete = some (e,
      rob) → (t.retire rob (t.inflight t.rob.head)).done = false →
        P (t.retire rob (t.inflight t.rob.head)))
    (hfinish : ∀ {t : Cpu} {e : RobEntry} {rob : Rob}, P t → t.rob.popHeadIfComplete = some (e,
      rob) → (t.retire rob (t.inflight t.rob.head)).done = true →
        P (t.retire rob (t.inflight t.rob.head)).squashInFlight)
    (n : ℕ) (h : P s) : P (forLoop commitOne n s) := by
  refine forLoop_preserves P (fun t ht => ?_) n h
  unfold commitOne
  split
  · exact ht
  rename_i hp
  dsimp only
  split
  · rename_i hd
    exact hfinish ht hp hd
  · rename_i hd
    exact hretire ht hp (by simpa using hd)

/-- Commit keeps the machine coherent after every pass. -/
theorem Coherent.commitPasses (h : s.Coherent cfg) (n : ℕ) :
    (forLoop Cpu.commitOne n s).Coherent cfg :=
  commitOne_preserves (P := fun t => t.Coherent cfg) (fun ht hp _ => (ht.retire hp).1)
    (fun ht hp _ => (ht.retire hp).1.squashInFlight.1) n h

theorem Coherent.commit (h : s.Coherent cfg) : s.commit.Coherent cfg := h.commitPasses _

/-- The machine as its issue stage finds it. -/
def beforeIssue (s : Cpu) : Cpu := s.beginCycle.commit.writeback.execute

theorem commit_cycle (s : Cpu) : s.commit.cycle = s.cycle :=
  commitOne_preserves (P := fun t => t.cycle = s.cycle) (fun ht _ _ => ht) (fun ht _ _ => ht) _ rfl

theorem Coherent.beforeIssue (h : s.Coherent cfg) :
    s.beforeIssue.Coherent cfg ∧ 0 < s.beforeIssue.cycle := by
  have hc : 0 < s.beginCycle.commit.cycle := by
    rw [commit_cycle]
    exact Nat.succ_pos _
  exact ⟨(h.beginCycle.commit.writeback hc).execute,
    by rw [← (writeback_keeps _).cycle] at hc; exact hc⟩

/-- The issue stage, given that what it recovers from is a branch. -/
theorem Coherent.issue (h : s.Coherent cfg) (hc : 0 < s.cycle)
    (hbr : ∀ br, s.issueScan.offender = some br → br.dec.isBranch = true) :
    s.issue.Coherent cfg ∧ s.issue.cycle = s.cycle := by
  have hsane := h.issueScan hc
  have hcyc : s.issueScan.cpu.cycle = s.cycle := (issueScan_keeps s).cycle
  obtain ⟨hcharged, hwin⟩ := hsane.coherent.chargeSlots
  have hcharge : (Cpu.chargeSlots s.issueScan).cycle = s.cycle := hcyc
  simp only [Cpu.issue]
  cases ho : s.issueScan.offender with
  | none => exact ⟨hcharged, hcharge⟩
  | some br =>
    obtain ⟨hmem, hi, -⟩ := hsane.offender br ho
    obtain ⟨pre, post, hw⟩ := List.append_of_mem (hwin.symm ▸ hmem)
    exact ⟨(hcharged.recover hw hi (hbr br ho)).1, hcharge⟩

/-- The invariant rule of the stages behind issue, pass by pass. -/
theorem behindIssue_preserves {P : Cpu → Prop}
    (hdispatch : ∀ {t t' : Cpu}, P t → DispatchStep t t' → P t')
    (hrename : ∀ {t t' : Cpu}, P t → RenameStep t t' → P t')
    (hdecode : ∀ {t t' : Cpu}, P t → DecodeStep t t' → P t')
    (hfetch : ∀ {t t' : Cpu}, P t → t.fetchStalled = false → FetchStep t t' → P t') (h : P s) :
    P s.dispatch.rename.decodeStage.fetch := by
  have h1 : P s.dispatch := forLoop_preserves P (fun t ht => hdispatch ht (dispatchOne_step t)) _ h
  have h2 : P s.dispatch.rename :=
    forLoop_preserves P (fun t ht => hrename ht (renameOne_step t)) _ h1
  have h3 : P s.dispatch.rename.decodeStage :=
    forLoop_preserves P (fun t ht => hdecode ht (decodeOne_step t)) _ h2
  unfold Cpu.fetch
  split
  · exact h3
  rename_i hst
  refine (forLoop_preserves (fun t => P t ∧ t.fetchStalled = false) (fun t ht => ?_) _ ⟨h3,
    by simpa using hst⟩).1
  refine ⟨hfetch ht.1 ht.2 (fetchOne_step t), ?_⟩
  have hstep := fetchOne_step t
  generalize t.fetchOne.state = t' at hstep ⊢
  cases hstep <;> exact ht.2

/-- The same rule while sequence numbers last. -/
theorem behindIssue_bounded {P : Cpu → Prop}
    (hdispatch : ∀ {t t' : Cpu}, P t → 0 < t.cycle → DispatchStep t t' → P t')
    (hrename : ∀ {t t' : Cpu}, P t → t.stats.renamed < 4294967296 → RenameStep t t' → P t')
    (hdecode : ∀ {t t' : Cpu}, P t → DecodeStep t t' → P t')
    (hfetch : ∀ {t t' : Cpu}, P t → t.fetchStalled = false → FetchStep t t' → P t')
    (hc : 0 < s.cycle)
    (hb : s.dispatch.rename.decodeStage.fetch.stats.renamed < 4294967296) (h : P s) :
    P s.dispatch.rename.decodeStage.fetch := by
  -- the bound on the renamed count is carried backwards, since a stage only raises it
  refine (behindIssue_preserves (P := fun t => t.stats.renamed < 4294967296 → P t ∧ 0 < t.cycle)
    (fun ht hstep hlt => ?_) (fun ht hstep hlt => ?_) (fun ht hstep hlt => ?_)
      (fun ht hst hstep hlt => ?_)
    (fun _ => ⟨h, hc⟩) hb).1 <;>
    have hlt' := hstep.keeps.renamed.trans_lt hlt <;>
    obtain ⟨hp, hcyc⟩ := ht hlt' <;>
    have hcyc' := hstep.keeps.cycle.symm ▸ hcyc
  · exact ⟨hdispatch hp hcyc hstep, hcyc'⟩
  · exact ⟨hrename hp hlt' hstep, hcyc'⟩
  · exact ⟨hdecode hp hstep, hcyc'⟩
  · exact ⟨hfetch hp hst hstep, hcyc'⟩

/-- The stages behind issue keep the machine coherent while sequence numbers last. -/
theorem Coherent.frontHalf (h : s.Coherent cfg) (hc : 0 < s.cycle)
    (hb : s.dispatch.rename.decodeStage.fetch.stats.renamed < 4294967296) :
    s.dispatch.rename.decodeStage.fetch.Coherent cfg :=
  behindIssue_bounded (P := fun t => t.Coherent cfg)
    (fun ht hcyc hstep => ht.dispatchStep hcyc hstep)
    (fun ht hlt hstep => ht.renameStep hlt hstep) (fun ht hstep => ht.decodeStep hstep)
    (fun ht _ hstep => ht.fetchStep hstep) hc hb h

theorem tick_of_done (h : s.done = true) : s.tick = s := if_pos h

theorem tick_of_commit_done (h : s.done = false) (hd : s.beginCycle.commit.done = true) :
    s.tick = s.beginCycle.commit := by
  rw [tick, if_neg (by simp [h])]
  exact if_pos hd

theorem tick_of_running (h : s.done = false) (hd : s.beginCycle.commit.done = false) :
    s.tick = s.beforeIssue.issue.dispatch.rename.decodeStage.fetch := by
  rw [tick, if_neg (by simp [h])]
  exact if_neg (by simp [hd])

/-- A tick does nothing, or ends the run in commit, or runs all its stages. -/
theorem tick_cases {P : Cpu → Prop} (hidle : s.done = true → P s)
    (hended : s.done = false → s.beginCycle.commit.done = true → P s.beginCycle.commit)
    (hruns : s.done = false → s.beginCycle.commit.done = false →
      P s.beforeIssue.issue.dispatch.rename.decodeStage.fetch) : P s.tick := by
  cases hd : s.done with
  | true =>
    rw [tick_of_done hd]
    exact hidle hd
  | false =>
    cases hd' : s.beginCycle.commit.done with
    | true =>
      rw [tick_of_commit_done hd hd']
      exact hended hd hd'
    | false =>
      rw [tick_of_running hd hd']
      exact hruns hd hd'

theorem tick_cycle (hd : s.done = false) : s.tick.cycle = s.cycle + 1 := by
  have hcommit : s.beginCycle.commit.cycle = s.cycle + 1 := commit_cycle s.beginCycle
  simp only [tick, hd, Bool.false_eq_true, if_false]
  split
  · exact hcommit
  · rw [(behindCommit_keeps _).cycle, hcommit]

/-- A tick keeps the machine coherent as long as it only recovers from branches. -/
theorem Coherent.tick (h : s.Coherent cfg) (hb : s.tick.stats.renamed < 4294967296)
    (hbr : s.done = false → s.beginCycle.commit.done = false →
      ∀ br, s.beforeIssue.issueScan.offender = some br → br.dec.isBranch = true) :
    s.tick.Coherent cfg := by
  revert hb
  refine tick_cases (P := fun t => t.stats.renamed < 4294967296 → t.Coherent cfg) (fun _ _ => h)
    (fun _ _ _ => h.beginCycle.commit) fun hd hd' hb => ?_
  obtain ⟨hcoh, hc⟩ := h.beforeIssue
  obtain ⟨hissue, hcyc⟩ := hcoh.issue hc (hbr hd hd')
  exact hissue.frontHalf (hcyc.symm ▸ hc) hb

end OooCpu.Cpu
