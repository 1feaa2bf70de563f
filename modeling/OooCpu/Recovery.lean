import OooCpu.Conservation

/-! # Who may start a recovery

Recovery reads the checkpoint of the instruction it unwinds to, and only branches
have one. What redirects is decided at fetch by a hit in the target buffer, so a
program that overwrites a trained branch can make something else redirect. -/
namespace OooCpu.Cpu
variable {cfg : Config} {s : Cpu} {u v br : Uop}

/-- Something other than falling through was predicted for branches only. -/
def GuidedRight (u : Uop) : Prop := u.predicted = u.pc + 4 ∨ u.dec.isBranch = true

/-- Whatever issue is offered this cycle and was predicted to go elsewhere is a branch. -/
def Guarded (s : Cpu) : Prop :=
  s.done = false → s.beginCycle.commit.done = false →
    ∀ e ∈ s.beforeIssue.iq.select s.beforeIssue.iq.size, GuidedRight (s.beforeIssue.inflight e.rob)

instance (u : Uop) : Decidable (GuidedRight u) := inferInstanceAs (Decidable (_ ∨ _))

instance (s : Cpu) : Decidable s.Guarded := inferInstanceAs (Decidable (_ → _ → _))

/-- The instruction is in flight and holds a checkpoint slot that is its own snapshot. -/
structure OwnsCheckpoint (s : Cpu) (br : Uop) : Prop where
  live : br.rob ∈ s.rob.live ∧ (s.rob.slots br.rob).seq = br.seq ∧
    (s.rob.slots br.rob).ckpt = br.ckpt
  bounds : br.ckpt < s.ckpts.capacity
  taken : br.ckpt ∉ s.ckpts.freeSlots
  own : ∀ pre e post, s.rob.entries = pre ++ e :: post → e.seq = br.seq →
    s.ckpts.read br.ckpt = ⟨(pre ++ [e]).foldl RobEntry.remap s.archRat, br.feSnap⟩

/-- Whenever this cycle's issue calls recovery, it does so for an instruction that holds a
checkpoint. -/
def RecoversOwn (s : Cpu) : Prop :=
  s.done = false → s.beginCycle.commit.done = false →
    ∀ br, s.beforeIssue.issueScan.offender = some br →
      (chargeSlots s.beforeIssue.issueScan).OwnsCheckpoint br

theorem GuidedRight.advances (h : GuidedRight u) (ha : u.Advances v) : GuidedRight v := by
  rw [GuidedRight, ha.predicted, ha.pc, ha.dec]
  exact h

theorem Coherent.ownsCheckpoint (h : s.Coherent cfg) (hbr : br ∈ s.window)
    (hb : br.dec.isBranch = true) : s.OwnsCheckpoint br := by
  obtain ⟨hlive, -, hmirror⟩ := h.buffered.mem_window hbr
  obtain ⟨hbounds, htaken⟩ := h.checkpointed.branch_spec hbr hb
  refine ⟨⟨hlive, hmirror.seq, hmirror.ckpt⟩, hbounds, htaken, fun pre e post he hseq => ?_⟩
  have hmirrors := h.buffered.entries_mirror.flip
  rw [he] at hmirrors
  obtain ⟨pre', u, post', hw, hpre, hue, -⟩ := forall₂_split hmirrors
  have hw' : s.window = pre' ++ u :: post' := hw
  have hsame : u = br := h.buffered.seq_inj (by rw [hw]; simp) hbr (hue.seq.symm.trans hseq)
  subst hsame
  have hes : List.Forall₂ Mirrors (pre' ++ [u]) (pre ++ [e]) :=
    List.rel_append hpre.flip (.cons hue .nil)
  have hsub : ∀ a ∈ pre' ++ [u], a ∈ s.window := fun a ha => by
    rw [show s.window = (pre' ++ [u]) ++ post' by rw [hw']; simp]
    exact List.mem_append_left _ ha
  rw [CheckpointPool.read, h.checkpointed.slot_eq hw' hb, h.remap_eq hsub hes]

/-- The scan of a guarded cycle only ever finds branches mispredicted. -/
theorem Coherent.offender_isBranch (h : s.Coherent cfg) (hc : 0 < s.cycle)
    (hguard : ∀ e ∈ s.iq.select s.iq.size, GuidedRight (s.inflight e.rob))
    (hbr : s.issueScan.offender = some br) : br.dec.isBranch = true := by
  let P : IssuePass → Prop := fun p => p.Sane cfg ∧
    (∀ e ∈ p.cpu.iq.entries, e.ready = true → GuidedRight (p.cpu.inflight e.rob)) ∧
    ∀ br, p.offender = some br → br.dec.isBranch = true
  have hselect : ∀ e ∈ s.iq.entries, e.ready = true → GuidedRight (s.inflight e.rob) := by
    intro e he hr
    apply hguard e
    rw [IssueQueue.select, IssueQueue.size, List.take_of_length_le (List.length_filter_le _ _)]
    exact List.mem_filter.mpr ⟨he, hr⟩
  refine (issueScan_preserves (P := P) (fun p e hp he hr => ?_) ⟨⟨h, hc, by simp⟩, hselect,
    by simp⟩).2.2 br hbr
  obtain ⟨hsane, hguided, hold⟩ := hp
  refine ⟨hsane.issueOne he, ?_⟩
  simp only [issueOne]
  cases ha : p.cpu.attempt e with
  | turnedAway s' why =>
    rcases attempt_turnedAway ha with rfl | ⟨_, _, _, _, rfl⟩ <;> exact ⟨hguided, hold⟩
  | launched s' x latency f unit =>
    obtain ⟨hissues, -⟩ := attempt_issues hsane.cycle_pos ha
    obtain ⟨hmem, -, -⟩ := hsane.coherent.candidate he
    have hright := (hguided e he hr).advances hissues.toAdvances
    obtain ⟨_, _, _, _, _, rfl, -, -⟩ := attempt_frame ha
    constructor
    · intro e' he' hr'
      change GuidedRight (ite _ _ _)
      split
      · exact hright
      · exact hguided e' (List.eraseP_subset he') hr'
    · intro br hbr
      rcases offender_cases hbr with hbr | ⟨rfl, hne⟩
      · exact hold br hbr
      · cases hright with
        | inl hstraight =>
          by_contra hb
          apply hne
          change (stamped _ x latency).nextPc = (stamped _ x latency).predicted
          rw [hstraight]
          exact (hissues.sound (hsane.coherent.sound _ hmem)).straight
            (.inl (show x.dec.isBranch = false by simpa using hb))
        | inr hbranch => exact hbranch

private theorem guarded_branch (h : s.Coherent cfg) (hguard : s.Guarded) (hd : s.done = false)
    (hd' : s.beginCycle.commit.done = false) (hbr : s.beforeIssue.issueScan.offender = some br) :
    br.dec.isBranch = true := by
  obtain ⟨hcoh, hc⟩ := h.beforeIssue
  exact hcoh.offender_isBranch hc (hguard hd hd') hbr

private theorem scanned (h : s.Coherent cfg) (hbr : s.beforeIssue.issueScan.offender = some br) :
    (chargeSlots s.beforeIssue.issueScan).Coherent cfg ∧
      br ∈ (chargeSlots s.beforeIssue.issueScan).window := by
  obtain ⟨hcoh, hc⟩ := h.beforeIssue
  have hsane := hcoh.issueScan hc
  obtain ⟨hcharged, hwin⟩ := hsane.coherent.chargeSlots
  rw [hwin]
  exact ⟨hcharged, (hsane.offender br hbr).1⟩

/-- A run stays coherent for as long as its cycles are guarded. -/
theorem coherent_of_guarded (h : cfg.Admissible) (mem : Memory) (entryPc : Word) (k : ℕ)
    (hb : (ticked mem cfg entryPc k).stats.renamed < 4294967296)
    (hguard : ∀ j < k, (ticked mem cfg entryPc j).Guarded) :
    (ticked mem cfg entryPc k).Coherent cfg := by
  induction k with
  | zero => exact .reset h mem entryPc
  | succ k ih =>
    have hmono := (tickLogged_extends (history mem cfg entryPc k)).1
    rw [tickLogged_fst, history_fst, ← ticked_succ] at hmono
    have hcoh := ih (hmono.trans_lt hb) fun j hj => hguard j (by omega)
    rw [ticked_succ] at hb ⊢
    exact hcoh.tick hb fun hd hd' br hbr => guarded_branch hcoh (hguard k (by omega)) hd hd' hbr

/-- As long as all cycles so far are guarded, recovery is only started by an instruction that holds
a checkpoint; what it must not be is something other than a branch. -/
theorem recoversOwn_of_guarded (mem : Memory) (cfg : Config) (entryPc : Word) (k : ℕ)
    (h : cfg.Admissible)
    (hb : (ticked mem cfg entryPc k).stats.renamed < 4294967296)
    (hguard : ∀ j < k, (ticked mem cfg entryPc j).Guarded) :
    ((ticked mem cfg entryPc k).Guarded → (ticked mem cfg entryPc k).RecoversOwn) ∧
      ∀ br, (ticked mem cfg entryPc k).beforeIssue.issueScan.offender = some br →
        br.dec.isBranch = false →
          ¬(chargeSlots (ticked mem cfg entryPc k).beforeIssue.issueScan).OwnsCheckpoint br := by
  have hcoh := coherent_of_guarded h mem entryPc k hb hguard
  constructor
  · intro hlast hd hd' br hbr
    obtain ⟨hcharged, hmem⟩ := scanned hcoh hbr
    exact hcharged.ownsCheckpoint hmem (guarded_branch hcoh hlast hd hd' hbr)
  · intro br hbr hnot howns
    obtain ⟨hcharged, hmem⟩ := scanned hcoh hbr
    have hckpt := hcharged.checkpointed.none br hmem hnot
    have hbounds := howns.bounds
    have hsmall := hcharged.checkpointed.small
    rw [hckpt] at hbounds
    simp only [INVALID_CHECKPOINT] at hbounds
    omega

theorem recoversOwn_of_guarded_skipping :
    ((ticked skipping {} 0 4).Guarded → (ticked skipping {} 0 4).RecoversOwn) ∧
      ∀ br, (ticked skipping {} 0 4).beforeIssue.issueScan.offender = some br →
        br.dec.isBranch = false →
          ¬(chargeSlots (ticked skipping {} 0 4).beforeIssue.issueScan).OwnsCheckpoint br :=
  recoversOwn_of_guarded skipping {} 0 4 admissible_default (by decide +kernel) (by decide +kernel)

/-- A jump trains the target buffer, is overwritten by a store in front of it and is fetched once
more. -/
def overwriting : Memory :=
  [(0, 0x0080006F), (8, 0x00002023), (12, 0xFF5FF06F)].foldl
    (fun m (p : Word × Word) => m.storeU32 p.1 p.2) .empty

/-- The word that is no longer a jump was predicted taken, and recovery reads a checkpoint that does
not exist. -/
theorem overwriting_not_recoversOwn : Config.Admissible {} ∧
    (ticked overwriting {} 0 17).stats.renamed < 4294967296 ∧
      ¬(ticked overwriting {} 0 17).RecoversOwn := by
  refine ⟨admissible_default, by decide +kernel, fun hown => ?_⟩
  have hckpt : (ticked overwriting {} 0 17).beforeIssue.issueScan.offender.map Uop.ckpt =
      some INVALID_CHECKPOINT := by
    decide +kernel
  obtain ⟨br, hbr, hinvalid⟩ := Option.map_eq_some_iff.mp hckpt
  have hbounds := (hown (by decide +kernel) (by decide +kernel) br hbr).bounds
  have hcapacity :
      (chargeSlots (ticked overwriting {} 0 17).beforeIssue.issueScan).ckpts.capacity = 16 := by
    decide +kernel
  rw [hinvalid, hcapacity] at hbounds
  simp [INVALID_CHECKPOINT] at hbounds

end OooCpu.Cpu
