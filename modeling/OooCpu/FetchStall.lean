import OooCpu.Steady

/-! # Fetch waits behind traps only

Decode stops fetch at a trap. Until that trap is squashed or commits, it is on its
way through the pipeline: fetch never waits for nothing. -/
namespace OooCpu.Cpu
variable {kinds : Prop} {cfg : Config} {entryPc : Word} {s t : Cpu} {log pre post : List Uop}
    {u v : Uop}

/-- While fetch is stalled, the trap it waits for is in the window or about to be renamed. -/
def TrapAwaited (s : Cpu) : Prop :=
  s.fetchStalled = true → ∃ u ∈ s.window ++ s.decodeQ, u.dec.kind = .trap

theorem retire_trap_done (hsound : u.Sound) (hk : u.dec.kind = .trap) (rob : Rob) :
    (s.retire rob u).done = true := by
  rw [hsound.shaped.kind_eq] at hk
  cases ho : u.dec.op <;> simp only [ho, Op.kind, reduceCtorEq] at hk
  all_goals simp only [done, retire, commitHalts, commitCause, hsound.trap, ho]
  case ecall => by_cases hexit : s.reg REG_A7 = SYS_EXIT <;> simp [hexit]
  case ebreak | invalid => simp

namespace TrapAwaited

theorem of_running (h : s.fetchStalled = false) : s.TrapAwaited := fun hst => by
  rw [h] at hst
  contradiction

variable (h : s.TrapAwaited)
include h

theorem same (hst : t.fetchStalled = s.fetchStalled) (hq : t.decodeQ = s.decodeQ)
    (hw : t.window = s.window) : t.TrapAwaited := by
  intro hstalled
  rw [hw, hq]
  exact h (hst ▸ hstalled)

theorem replace (hst : t.fetchStalled = s.fetchStalled) (hq : t.decodeQ = s.decodeQ)
    (hw : s.window = pre ++ u :: post) (hw' : t.window = pre ++ v :: post) (hdec : v.dec = u.dec) :
    t.TrapAwaited := by
  intro hstalled
  obtain ⟨a, ha, hk⟩ := h (hst ▸ hstalled)
  rw [hw, List.append_assoc, List.cons_append] at ha
  rw [hw', hq, List.append_assoc, List.cons_append]
  rcases List.mem_append.mp ha with ha | ha
  · exact ⟨a, List.mem_append_left _ ha, hk⟩
  rcases List.mem_cons.mp ha with rfl | ha
  · exact ⟨v, by simp, hdec ▸ hk⟩
  · exact ⟨a, List.mem_append_right _ (List.mem_cons_of_mem _ ha), hk⟩

theorem fetchStep (hstep : FetchStep s t) : t.TrapAwaited := by
  cases hstep with
  | idle => exact h
  | fetched => exact h.same rfl rfl rfl

theorem decodeStep (hstep : DecodeStep s t) : t.TrapAwaited := by
  cases hstep with
  | idle => exact h
  | decoded obs hq =>
    intro hstalled
    obtain ⟨a, ha, hk⟩ := h hstalled
    exact ⟨a, by rw [← List.append_assoc]; exact List.mem_append_left _ ha, hk⟩
  | @trapped f rest obs hq hroom hk => exact fun _ => ⟨s.decoded f, by simp, hk⟩

theorem renameStep (hcoh : s.Coherent cfg) (hb : s.stats.renamed < 4294967296)
    (hstep : RenameStep s t) : t.TrapAwaited := by
  cases hstep with
  | idle => exact h
  | stalled c => exact h.same rfl rfl rfl
  | @renamed u rest dest freeList hq hroom hfull hck halloc =>
    obtain ⟨-, slot, hwin⟩ := hcoh.renameUop hb hq hroom hfull hck halloc
    intro hstalled
    obtain ⟨a, ha, hk⟩ := h hstalled
    rw [hq] at ha
    rw [hwin, List.append_assoc]
    rcases List.mem_append.mp ha with ha | ha
    · exact ⟨a, List.mem_append_left _ ha, hk⟩
    rcases List.mem_cons.mp ha with rfl | ha
    · exact ⟨s.renamed a dest slot, by simp, hk⟩
    · exact ⟨a, List.mem_append_right _ (List.mem_append_right _ ha), hk⟩

theorem dispatchStep (hcoh : s.Coherent cfg) (hc : 0 < s.cycle) (hstep : DispatchStep s t) :
    t.TrapAwaited := by
  cases hstep with
  | idle => exact h
  | stalled c => exact h.same rfl rfl rfl
  | dispatched hq hseat hslot =>
    obtain ⟨-, d, hw, hw'⟩ := hcoh.dispatchUop hc hq hseat hslot
    exact h.replace rfl rfl hw hw' rfl

theorem writeback (hcoh : s.Coherent cfg) (hc : 0 < s.cycle) : s.writeback.TrapAwaited := by
  refine (writeback_preserves (P := fun t => t.Coherent cfg ∧ 0 < t.cycle ∧ t.TrapAwaited)
    (fun ht hq => ?_)
    (fun _ ht => ⟨ht.1.clearBooking _, ht.2.1, ht.2.2.same rfl rfl rfl⟩) ⟨hcoh, hc, h⟩).2.2
  obtain ⟨hcoh', pre, post, hw, hw'⟩ := ht.1.complete ht.2.1 hq
  exact ⟨hcoh', ht.2.1, ht.2.2.replace rfl rfl hw hw' rfl⟩

omit h in
theorem issueOne {p : IssuePass} {e : IssueQueue.Entry} (hp : p.cpu.TrapAwaited)
    (hsane : p.Sane cfg)
    (he : e ∈ p.cpu.iq.entries) : (issueOne p e).cpu.TrapAwaited := by
  simp only [Cpu.issueOne]
  cases ha : p.cpu.attempt e with
  | turnedAway s' why =>
    obtain ⟨-, hwin, -, -⟩ := hsane.coherent.turnAway ha
    have hf := attempt_sameFront ha
    exact same hp hf.fetchStalled hf.decodeQ hwin
  | launched s' x latency f unit =>
    obtain ⟨-, pre, post, hw, hwin⟩ := hsane.coherent.launch hsane.cycle_pos he ha
    have hf := launch_sameFront ha (stamped s' x latency)
    exact replace hp hf.fetchStalled hf.decodeQ hw hwin (attempt_issues hsane.cycle_pos ha).1.dec

theorem issue (hcoh : s.Coherent cfg) (hc : 0 < s.cycle) : s.issue.TrapAwaited := by
  obtain ⟨hsane, hscan⟩ := issueScan_preserves (P := fun p => p.Sane cfg ∧ p.cpu.TrapAwaited)
    (fun _ _ hp he _ => ⟨hp.1.issueOne he, issueOne hp.2 hp.1 he⟩) ⟨⟨hcoh, hc, by simp⟩, h⟩
  have hf := chargeSlots_sameFront s.issueScan
  have hcharged := hscan.same hf.fetchStalled hf.decodeQ hsane.coherent.chargeSlots.2
  simp only [Cpu.issue]
  split
  · exact hcharged
  · exact .of_running rfl

theorem commitOne {q : Cpu × List Uop} (hcoh : s.Coherent cfg) (hstep : CommitStep s log q) :
    q.1.TrapAwaited := by
  cases hstep with
  | idle => exact h
  | finished => exact .of_running rfl
  | retired hp hrunning =>
    obtain ⟨-, hw, -⟩ := hcoh.retire hp
    intro hstalled
    obtain ⟨a, ha, hk⟩ := h hstalled
    rw [hw, List.cons_append] at ha
    rcases List.mem_cons.mp ha with rfl | ha
    · rw [retire_trap_done (hcoh.sound _ (by rw [hw]; exact List.mem_cons_self)) hk] at hrunning
      contradiction
    · exact ⟨a, ha, hk⟩

theorem commit (hcoh : s.Coherent cfg) : s.commit.TrapAwaited := by
  rw [← commitLogged_fst (s, [])]
  refine (forLoop_preserves (fun q : Cpu × List Uop => q.1.Coherent cfg ∧ q.1.TrapAwaited)
    (fun q hq => ?_) _
    ⟨hcoh, h⟩).2
  have hstep := commitOneLogged_step q.1 q.2
  refine ⟨?_, hq.2.commitOne hq.1 hstep⟩
  generalize (commitOneLogged (q.1, q.2)).state = q' at hstep
  cases hstep with
  | idle => exact hq.1
  | retired hp => exact (hq.1.retire hp).1
  | finished hp => exact (hq.1.retire hp).1.squashInFlight.1

/-- The stages behind issue, while sequence numbers last. -/
theorem frontHalf (hcoh : s.Coherent cfg) (hc : 0 < s.cycle)
    (hb : s.dispatch.rename.decodeStage.fetch.stats.renamed < 4294967296) :
    s.dispatch.rename.decodeStage.fetch.TrapAwaited :=
  (behindIssue_bounded (P := fun t => t.Coherent cfg ∧ t.TrapAwaited)
    (fun ht hcyc hstep => ⟨ht.1.dispatchStep hcyc hstep, ht.2.dispatchStep ht.1 hcyc hstep⟩)
    (fun ht hlt hstep => ⟨ht.1.renameStep hlt hstep, ht.2.renameStep ht.1 hlt hstep⟩)
    (fun ht hstep => ⟨ht.1.decodeStep hstep, ht.2.decodeStep hstep⟩)
    (fun ht _ hstep => ⟨ht.1.fetchStep hstep, ht.2.fetchStep hstep⟩) hc hb ⟨hcoh, h⟩).2

theorem tick (hs : Steady kinds cfg entryPc (s, log)) (hb : s.tick.stats.renamed < 4294967296) :
    s.tick.TrapAwaited := by
  have hcommit : s.beginCycle.commit.TrapAwaited :=
    commit (s := s.beginCycle) (h.same rfl rfl rfl) hs.coherent.beginCycle
  revert hb
  refine tick_cases (P := fun t => t.stats.renamed < 4294967296 → t.TrapAwaited) (fun _ _ => h)
    (fun _ _ _ => hcommit) fun hd hd' hb => ?_
  have hc : 0 < s.beginCycle.commit.cycle := by
    rw [commit_cycle]
    exact Nat.succ_pos _
  obtain ⟨log', hbefore, hc', hrunning⟩ := hs.beforeIssue hd'
  have hwritten := hcommit.writeback hs.coherent.beginCycle.commit hc
  have hawaited : s.beforeIssue.TrapAwaited := hwritten.same rfl rfl rfl
  have hissue := hawaited.issue hbefore.coherent hc'
  have hcoh := (hbefore.issue hc' hrunning).coherent
  exact hissue.frontHalf hcoh (by rw [(issue_keeps _).cycle]; exact hc') hb

end TrapAwaited

end OooCpu.Cpu
