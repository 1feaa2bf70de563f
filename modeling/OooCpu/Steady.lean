import OooCpu.FrontEnd

/-! # The machine with its history

A run that stays within its sequence numbers and whose committed stores leave
committed code alone is steady after every tick: the machine is coherent and its
front end runs along one timeline with what has committed. -/
namespace OooCpu.Cpu
variable {kinds : Prop} {cfg : Config} {entryPc : Word} {log pre post : List Uop} {s t : Cpu}
    {u v : Uop}

/-- What has been fetched and has not committed, oldest first. -/
def pending (s : Cpu) : List Uop := s.window ++ s.decodeQ ++ s.fetchQ

/-- The front end of a machine, beside what has committed. -/
structure Led (kinds : Prop) (cfg : Config) (entryPc : Word) (log : List Uop) (s : Cpu) : Prop where
  frontEnd : FrontEnd kinds cfg entryPc log s.pending s.mem s.bpred
  follows : s.fetchStalled = false → s.done = false →
    Follows kinds cfg entryPc (log ++ s.pending) s.bpred s.pc

/-- Two machines with the same front end. -/
structure SameFront (s t : Cpu) : Prop where
  decodeQ : t.decodeQ = s.decodeQ
  fetchQ : t.fetchQ = s.fetchQ
  mem : t.mem = s.mem
  bpred : t.bpred = s.bpred
  pc : t.pc = s.pc
  fetchStalled : t.fetchStalled = s.fetchStalled
  done : t.done = s.done

namespace Led

theorem reset (mem : Memory) : Led kinds cfg entryPc [] (Cpu.reset mem cfg entryPc) where
  frontEnd := FrontEnd.reset mem entryPc
  follows := fun _ _ => FrontEnd.follows_reset

private theorem decoded_sameFetch (s : Cpu) (f : Uop) :
    f.SameFetch (s.decoded f) ∧ (f.isIssued = false → (s.decoded f).successor = f.successor) := by
  refine ⟨⟨rfl, rfl, rfl, rfl, rfl, rfl, rfl⟩, fun hi => ?_⟩
  have hi' : (s.decoded f).isIssued = false := hi
  simp only [Uop.successor, hi, hi', Bool.false_eq_true, if_false]
  rfl

variable (h : Led kinds cfg entryPc log s)
include h

theorem same (hf : SameFront s t) (hw : t.window = s.window) : Led kinds cfg entryPc log t := by
  have hp : t.pending = s.pending := by rw [pending, hw, hf.decodeQ, hf.fetchQ, pending]
  refine ⟨by rw [hp, hf.mem, hf.bpred]; exact h.frontEnd, fun hst hd => ?_⟩
  rw [hp, hf.bpred, hf.pc]
  exact h.follows (hf.fetchStalled ▸ hst) (hf.done ▸ hd)

/-- A uop of the window that still leads to the same place may advance. -/
theorem replace (hf : SameFront s t) (hw : s.window = pre ++ u :: post)
    (hw' : t.window = pre ++ v :: post)
    (ha : u.SameFetch v) (hsucc : v.successor = u.successor) : Led kinds cfg entryPc log t := by
  have hp : s.pending = pre ++ u :: (post ++ s.decodeQ ++ s.fetchQ) := by simp [pending, hw]
  have hp' : t.pending = pre ++ v :: (post ++ s.decodeQ ++ s.fetchQ) := by
    simp [pending, hw', hf.decodeQ, hf.fetchQ]
  refine ⟨by rw [hp', hf.mem, hf.bpred]; exact h.frontEnd.replace hp ha hsucc, fun hst hd => ?_⟩
  rw [hp', hf.bpred, hf.pc]
  exact FrontEnd.follows_replace (h.follows (hf.fetchStalled ▸ hst) (hf.done ▸ hd)) hp ha hsucc

theorem fetchStep (hkept : TransfersKept kinds log s.mem) (hd : s.done = false)
    (hst : s.fetchStalled = false)
    (hstep : FetchStep s t) : Led kinds cfg entryPc log t := by
  cases hstep with
  | idle => exact h
  | fetched obs hroom =>
    obtain ⟨hfront, hfollows⟩ :=
      h.frontEnd.fetch (f := s.fetched) hkept (h.follows hst hd) rfl rfl rfl rfl rfl rfl rfl
      rfl
    have hp : s.window ++ s.decodeQ ++ (s.fetchQ ++ [s.fetched]) = s.pending ++ [s.fetched] :=
      (List.append_assoc _ _ _).symm
    refine ⟨?_, fun _ _ => ?_⟩
    · change FrontEnd kinds cfg entryPc log
        (s.window ++ s.decodeQ ++ (s.fetchQ ++ [s.fetched])) s.mem _
      rw [hp]
      exact hfront
    · change Follows kinds cfg entryPc
        (log ++ (s.window ++ s.decodeQ ++ (s.fetchQ ++ [s.fetched]))) _ _
      rw [hp]
      exact hfollows

theorem decodeStep (hcoh : s.Coherent cfg) (hstep : DecodeStep s t) :
    Led kinds cfg entryPc log t := by
  cases hstep with
  | idle => exact h
  | @decoded f rest obs hq hroom hk =>
    obtain ⟨hsame, hsucc⟩ := decoded_sameFetch s f
    have hi : f.isIssued = false := (hcoh.fetched f (by simp [hq])).2.issue
    have hp : s.pending = (s.window ++ s.decodeQ) ++ f :: rest := by simp [pending, hq]
    have hfront := h.frontEnd.replace hp hsame (hsucc hi)
    have hp' : s.window ++ (s.decodeQ ++ [s.decoded f]) ++ rest =
        (s.window ++ s.decodeQ) ++ s.decoded f :: rest := by
      simp
    refine ⟨?_, fun hst hd => ?_⟩
    · change FrontEnd kinds cfg entryPc log
        (s.window ++ (s.decodeQ ++ [s.decoded f]) ++ rest) s.mem s.bpred
      rw [hp']
      exact hfront
    · change Follows kinds cfg entryPc
        (log ++ (s.window ++ (s.decodeQ ++ [s.decoded f]) ++ rest)) s.bpred s.pc
      rw [hp']
      exact FrontEnd.follows_replace (h.follows hst hd) hp hsame (hsucc hi)
  | @trapped f rest obs hq hroom hk =>
    obtain ⟨hsame, hsucc⟩ := decoded_sameFetch s f
    have hi : f.isIssued = false := (hcoh.fetched f (by simp [hq])).2.issue
    have hp : s.pending = (s.window ++ s.decodeQ) ++ f :: rest := by simp [pending, hq]
    have hfront := h.frontEnd.divert hp hsame
    have hp' : s.window ++ (s.decodeQ ++ [s.decoded f]) ++ [] =
      (s.window ++ s.decodeQ) ++ [s.decoded f] := by simp
    refine ⟨?_, fun hst => by contradiction⟩
    change FrontEnd kinds cfg entryPc log
      (s.window ++ (s.decodeQ ++ [s.decoded f]) ++ []) s.mem s.bpred
    rw [hp']
    exact hfront

theorem renameStep (hcoh : s.Coherent cfg) (hb : s.stats.renamed < 4294967296)
    (hstep : RenameStep s t) : Led kinds cfg entryPc log t := by
  cases hstep with
  | idle => exact h
  | stalled c => exact h.same ⟨rfl, rfl, rfl, rfl, rfl, rfl, rfl⟩ rfl
  | @renamed u rest dest freeList hq hroom hfull hck halloc =>
    obtain ⟨-, slot, hwin⟩ := hcoh.renameUop hb hq hroom hfull hck halloc
    have hsame : u.SameFetch (s.renamed u dest slot) := ⟨rfl, rfl, rfl, rfl, rfl, rfl, rfl⟩
    have hsucc : (s.renamed u dest slot).successor = u.successor := rfl
    have hp : s.pending = s.window ++ u :: (rest ++ s.fetchQ) := by simp [pending, hq]
    have hp' : (s.renameUop u rest dest freeList).pending =
        s.window ++ s.renamed u dest slot :: (rest ++ s.fetchQ) := by
      rw [pending, hwin]
      simp [renameUop]
    have hfront := h.frontEnd.replace hp hsame hsucc
    refine ⟨by rw [hp']; exact hfront, fun hst hd => ?_⟩
    rw [hp']
    exact FrontEnd.follows_replace (h.follows hst hd) hp hsame hsucc

theorem dispatchStep (hcoh : s.Coherent cfg) (hc : 0 < s.cycle) (hstep : DispatchStep s t) :
    Led kinds cfg entryPc log t := by
  cases hstep with
  | idle => exact h
  | stalled c => exact h.same ⟨rfl, rfl, rfl, rfl, rfl, rfl, rfl⟩ rfl
  | dispatched hq hseat hslot =>
    obtain ⟨-, d, hw, hw'⟩ := hcoh.dispatchUop hc hq hseat hslot
    exact h.replace ⟨rfl, rfl, rfl, rfl, rfl, rfl, rfl⟩ hw hw' ⟨rfl, rfl, rfl, rfl, rfl, rfl,
      rfl⟩ rfl

theorem complete {fast slow : List Uop} (hcoh : s.Coherent cfg) (hc : 0 < s.cycle)
    (hq : (s.executing ++ s.wbFast ++ s.wbSlow).Perm (u :: (s.executing ++ fast ++ slow))) :
    Led kinds cfg entryPc log { s.complete u with wbFast := fast, wbSlow := slow } := by
  obtain ⟨-, pre, post, hw, hw'⟩ := hcoh.complete hc hq
  exact h.replace ⟨rfl, rfl, rfl, rfl, rfl, rfl, rfl⟩ hw hw' ⟨rfl, rfl, rfl, rfl, rfl, rfl, rfl⟩ rfl

/-- A retirement takes the oldest pending uop into the history. -/
private theorem retired {e : RobEntry} {rob : Rob} (hcoh : s.Coherent cfg)
    (hp : s.rob.popHeadIfComplete = some (e, rob)) :
    s.pending = s.inflight s.rob.head :: (s.retire rob (s.inflight s.rob.head)).pending ∧
      FrontEnd kinds cfg entryPc (log ++ [s.inflight s.rob.head])
        (s.retire rob (s.inflight s.rob.head)).pending
        (s.retire rob (s.inflight s.rob.head)).mem
          (s.retire rob (s.inflight s.rob.head)).bpred := by
  obtain ⟨-, hw, hcomplete⟩ := hcoh.retire hp
  have hmem := hcoh.retire_mem hp
  generalize s.inflight s.rob.head = u at *
  have huw : u ∈ s.window := by rw [hw]; exact List.mem_cons_self
  have hpend : s.pending = u :: (s.retire rob u).pending := by
    rw [pending, hw]
    rfl
  rw [hmem]
  exact ⟨hpend, h.frontEnd.commit hpend (hcoh.sound u huw) (hcoh.staged.complete u huw hcomplete)⟩

/-- Commit shifts the oldest uop from the window into the history. -/
theorem commitStep {q : Cpu × List Uop} (hcoh : s.Coherent cfg) (hstep : CommitStep s log q) :
    Led kinds cfg entryPc q.2 q.1 := by
  cases hstep with
  | idle => exact h
  | @retired e rob hp hrunning =>
    obtain ⟨hpend, hfront⟩ := h.retired hcoh hp
    refine ⟨hfront, fun hst _ => ?_⟩
    have hd : s.done = false := by
      simp only [done, retire, Bool.or_eq_false_iff] at hrunning
      simp [done, hrunning]
    exact FrontEnd.follows_commit (h.follows hst hd) hpend
  | @finished e rob hp hdone =>
    obtain ⟨-, hempty⟩ := (hcoh.retire hp).1.squashInFlight
    obtain ⟨-, hfront⟩ := h.retired hcoh hp
    generalize s.inflight s.rob.head = u at *
    have hcut := hfront.cut (show (s.retire rob u).pending =
      [] ++ (s.retire rob u).pending from rfl)
    refine ⟨?_, fun _ hd => ?_⟩
    · rw [pending, hempty]
      exact hcut
    · exact absurd (show (s.retire rob u).squashInFlight.done = true from hdone) (by simp [hd])

end Led

/-- What holds between two passes of the select loop: the timeline is good up to the offender. -/
structure PassLed (kinds : Prop) (cfg : Config) (entryPc : Word) (log : List Uop) (p : IssuePass) :
    Prop where
  sane : p.Sane cfg
  running : p.offender = none → Led kinds cfg entryPc log p.cpu
  diverted : ∀ br, p.offender = some br → ∃ pre post, p.cpu.window = pre ++ br :: post ∧
    FrontEnd kinds cfg entryPc log (pre ++ [br]) p.cpu.mem p.cpu.bpred

/-- Two places in one list are the same or one is in front of the other. -/
private theorem split_cases {pre' post' : List Uop} (h : pre' ++ u :: post' = pre ++ v :: post) :
    u = v ∨ (∃ c, pre = pre' ++ u :: c ∧ post' = c ++ v :: post) ∨
      ∃ c, pre' = pre ++ v :: c ∧ post = c ++ u :: post' := by
  rcases List.append_eq_append_iff.mp h with ⟨a, rfl, ha⟩ | ⟨c, rfl, hc⟩
  · rcases a with _ | ⟨a, as⟩
    · exact .inl (List.cons.inj ha).1
    · obtain ⟨rfl, rfl⟩ := List.cons.inj ha
      exact .inr (.inl ⟨as, rfl, rfl⟩)
  · rcases c with _ | ⟨c, cs⟩
    · exact .inl (List.cons.inj hc).1.symm
    · obtain ⟨rfl, rfl⟩ := List.cons.inj hc
      exact .inr (.inr ⟨cs, rfl, rfl⟩)

theorem attempt_sameFront {e : IssueQueue.Entry} {why : Stall}
    (h : s.attempt e = .turnedAway t why) : SameFront s t := by
  rcases attempt_turnedAway h with rfl | ⟨_, _, _, _, rfl⟩ <;> exact ⟨rfl, rfl, rfl, rfl, rfl, rfl,
    rfl⟩

theorem launch_sameFront {e : IssueQueue.Entry} {latency unit : ℕ} {f : Fu}
    (h : s.attempt e = .launched t v latency f unit) (x : Uop) :
    SameFront s (t.launch e x latency f unit) := by
  obtain ⟨_, _, _, _, _, rfl, -, -⟩ := attempt_frame h
  exact ⟨rfl, rfl, rfl, rfl, rfl, rfl, rfl⟩

/-- Where the offender of a pass stands beside a uop that has not issued. -/
private theorem PassLed.place {p : IssuePass} {br : Uop} (h : PassLed kinds cfg entryPc log p)
    (hw : p.cpu.window = pre ++ u :: post) (hu : u.isIssued = false) (hbr : p.offender = some br) :
    ∃ a b, p.cpu.window = a ++ br :: b ∧
      FrontEnd kinds cfg entryPc log (a ++ [br]) p.cpu.mem p.cpu.bpred ∧
        ((u.seq < br.seq ∧ ∃ c, a = pre ++ u :: c ∧ post = c ++ br :: b) ∨
          (br.seq < u.seq ∧ ∃ c, pre = a ++ br :: c ∧ b = c ++ u :: post)) := by
  obtain ⟨a, b, hab, hfront⟩ := h.diverted br hbr
  obtain ⟨hbefore, hafter⟩ := h.sane.coherent.buffered.seq_split hab
  refine ⟨a, b, hab, hfront, ?_⟩
  rcases split_cases (hw.symm.trans hab) with he | ⟨c, rfl, hc⟩ | ⟨c, hc, rfl⟩
  · have hi := (h.sane.offender br hbr).2.1
    rw [← he, hu] at hi
    contradiction
  · exact .inl ⟨hbefore u (by simp), c, rfl, hc⟩
  · exact .inr ⟨hafter u (by simp), c, hc, rfl⟩

/-- A launch either leads where the uop did before or makes it the offender, unless an older one is
known. -/
private theorem PassLed.launched {p : IssuePass} (h : PassLed kinds cfg entryPc log p)
    (hf : SameFront p.cpu t)
    (hw : p.cpu.window = pre ++ u :: post) (hwin : t.window = pre ++ v :: post) (ha : u.Advances v)
    (hu : u.isIssued = false) (hv : v.isIssued = true) :
    (offender p.offender v = none → Led kinds cfg entryPc log t) ∧
      ∀ br, offender p.offender v = some br → ∃ a b, t.window = a ++ br :: b ∧
        FrontEnd kinds cfg entryPc log (a ++ [br]) t.mem t.bpred := by
  have hsame := ha.sameFetch
  rw [hf.mem, hf.bpred]
  by_cases hgood : v.nextPc = v.predicted
  · have hkeep : offender p.offender v = p.offender := if_pos hgood
    have hsucc : v.successor = u.successor := by simp [Uop.successor, hv, hu, hgood, ha.predicted]
    rw [hkeep]
    refine ⟨fun ho => (h.running ho).replace hf hw hwin hsame hsucc, fun br hbr => ?_⟩
    obtain ⟨a, b, -, hfront, ⟨-, c, rfl, rfl⟩ | ⟨-, c, rfl, -⟩⟩ := h.place hw hu hbr
    · have hfront' := hfront.replace
        (show (pre ++ u :: c) ++ [br] = pre ++ u :: (c ++ [br]) by simp) hsame hsucc
      exact ⟨pre ++ v :: c, b, by simp [hwin], by simpa using hfront'⟩
    · exact ⟨a, c ++ v :: post, by simp [hwin], hfront⟩
  · cases ho : p.offender with
    | none =>
      have hnew : offender none v = some v := if_neg hgood
      refine ⟨fun hn => by rw [hnew] at hn; contradiction, fun br hbr => ?_⟩
      obtain rfl := Option.some.inj (hnew.symm.trans hbr)
      exact ⟨pre, post, hwin, (h.running ho).frontEnd.divert
        (show p.cpu.pending =
          pre ++ u :: (post ++ p.cpu.decodeQ ++ p.cpu.fetchQ) by simp [pending, hw]) hsame⟩
    | some br₀ =>
      have hnew : offender (some br₀) v = if v.seq < br₀.seq then some v else some br₀ :=
        if_neg hgood
      rw [hnew, ha.seq]
      obtain ⟨a, b, -, hfront, ⟨hlt, c, rfl, -⟩ | ⟨hlt, c, rfl, -⟩⟩ := h.place hw hu ho
      · rw [if_pos hlt]
        refine ⟨by simp, fun br hbr => ?_⟩
        obtain rfl := Option.some.inj hbr
        exact ⟨pre, post, hwin, hfront.divert
          (show (pre ++ u :: c) ++ [br₀] = pre ++ u :: (c ++ [br₀]) by simp) hsame⟩
      · rw [if_neg (by omega)]
        refine ⟨by simp, fun br hbr => ?_⟩
        obtain rfl := Option.some.inj hbr
        exact ⟨a, c ++ v :: post, by simp [hwin], hfront⟩

theorem PassLed.issueOne {p : IssuePass} {e : IssueQueue.Entry}
    (h : PassLed kinds cfg entryPc log p)
    (he : e ∈ p.cpu.iq.entries) : PassLed kinds cfg entryPc log (issueOne p e) := by
  have hsane := h.sane.issueOne he
  simp only [Cpu.issueOne] at hsane ⊢
  cases ha : p.cpu.attempt e with
  | turnedAway s' why =>
    obtain ⟨-, hwin, -, -⟩ := h.sane.coherent.turnAway ha
    have hf := attempt_sameFront ha
    simp only [ha] at hsane
    refine ⟨hsane, fun ho => (h.running ho).same hf hwin, fun br hbr => ?_⟩
    obtain ⟨pre, post, hw, hfront⟩ := h.diverted br hbr
    refine ⟨pre, post, hwin.trans hw, ?_⟩
    change FrontEnd kinds cfg entryPc log (pre ++ [br]) s'.mem s'.bpred
    rw [hf.mem, hf.bpred]
    exact hfront
  | launched s' x latency f unit =>
    obtain ⟨-, pre, post, hw, hwin⟩ := h.sane.coherent.launch h.sane.cycle_pos he ha
    obtain ⟨hissues, -⟩ := attempt_issues h.sane.cycle_pos ha
    obtain ⟨-, hwait, -⟩ := h.sane.coherent.candidate he
    simp only [Uop.waiting, Bool.and_eq_true, Bool.not_eq_true'] at hwait
    obtain ⟨hrunning, hdiverted⟩ := h.launched (launch_sameFront ha (stamped s' x latency)) hw hwin
      hissues.toAdvances hwait.2 hissues.issued
    simp only [ha] at hsane
    exact ⟨hsane, hrunning, hdiverted⟩

/-- Recovery cuts the timeline behind the branch and goes on from its target. -/
private theorem recover_led {br : Uop} (hcoh : s.Coherent cfg) (hw : s.window = pre ++ br :: post)
    (hi : br.isIssued = true) (hb : br.dec.isBranch = true)
    (hfront : FrontEnd kinds cfg entryPc log (pre ++ [br]) s.mem s.bpred) :
    Led kinds cfg entryPc log (s.recover br) := by
  obtain ⟨-, hwin⟩ := hcoh.recover hw hi hb
  have hsnap : (s.ckpts.read br.ckpt).frontEnd = br.feSnap :=
    congrArg Checkpoint.frontEnd (hcoh.checkpointed.slot_eq hw hb)
  obtain ⟨hfront', hfollows⟩ := hfront.recover rfl (hcoh.sound br (by simp [hw])) hi
  have hp : (s.recover br).pending = pre ++ [br] := by rw [pending, hwin]; simp [recover]
  have hbpred : (s.recover br).bpred = if br.btbHit && br.bkind == .conditional
      then (s.bpred.restore br.feSnap).shiftHistory (br.nextPc != br.pc + 4)
        else s.bpred.restore br.feSnap := by
    simp only [recover, hsnap]
  refine ⟨?_, fun _ _ => ?_⟩
  · rw [hp, hbpred]
    exact hfront'
  · rw [hp, hbpred]
    exact hfollows

theorem chargeSlots_sameFront (p : IssuePass) : SameFront p.cpu (chargeSlots p) := by
  obtain ⟨stats, hcharge, -⟩ := chargeSlots_eq p
  rw [hcharge]
  exact ⟨rfl, rfl, rfl, rfl, rfl, rfl, rfl⟩

/-- The issue stage only recovers from branches, and the front end follows what it finds. -/
theorem Led.issue (h : Led kinds cfg entryPc log s) (hcoh : s.Coherent cfg) (hc : 0 < s.cycle) :
    Led kinds cfg entryPc log s.issue ∧ ∀ br, s.issueScan.offender = some br →
      br.dec.isBranch = true := by
  have hscan : PassLed kinds cfg entryPc log s.issueScan :=
    issueScan_preserves (fun _ _ hp he _ => hp.issueOne he) ⟨⟨hcoh, hc, by simp⟩, fun _ => h,
      by simp⟩
  obtain ⟨hcharged, hwin⟩ := hscan.sane.coherent.chargeSlots
  have hf := chargeSlots_sameFront s.issueScan
  have hbranch : ∀ br, s.issueScan.offender = some br → br.dec.isBranch = true := fun br ho => by
    obtain ⟨pre, post, hw, hfront⟩ := hscan.diverted br ho
    obtain ⟨hmem, -, hne⟩ := hscan.sane.offender br ho
    exact hfront.offender_isBranch (by simp) (hscan.sane.coherent.sound br hmem) hne
  refine ⟨?_, hbranch⟩
  simp only [Cpu.issue]
  cases ho : s.issueScan.offender with
  | none => exact (hscan.running ho).same hf hwin
  | some br =>
    obtain ⟨pre, post, hw, hfront⟩ := hscan.diverted br ho
    rw [← hf.mem, ← hf.bpred] at hfront
    exact recover_led hcharged (hwin.trans hw) (hscan.sane.offender br ho).2.1
      (hbranch br ho) hfront

/-- A running machine as the stages behind issue need it and keep it. -/
structure Upfront (kinds : Prop) (cfg : Config) (entryPc : Word) (log : List Uop) (s : Cpu) :
    Prop where
  coherent : s.Coherent cfg
  led : Led kinds cfg entryPc log s
  cycle_pos : 0 < s.cycle
  running : s.done = false

namespace Upfront
variable (h : Upfront kinds cfg entryPc log s)
include h

theorem dispatchStep (hstep : DispatchStep s t) : Upfront kinds cfg entryPc log t :=
  ⟨h.coherent.dispatchStep h.cycle_pos hstep, h.led.dispatchStep h.coherent h.cycle_pos hstep,
    by rw [hstep.keeps.cycle]; exact h.cycle_pos, hstep.keeps.done.trans h.running⟩

theorem renameStep (hb : s.stats.renamed < 4294967296) (hstep : RenameStep s t) :
    Upfront kinds cfg entryPc log t :=
  ⟨h.coherent.renameStep hb hstep, h.led.renameStep h.coherent hb hstep,
    by rw [hstep.keeps.cycle]; exact h.cycle_pos, hstep.keeps.done.trans h.running⟩

theorem decodeStep (hstep : DecodeStep s t) : Upfront kinds cfg entryPc log t :=
  ⟨h.coherent.decodeStep hstep, h.led.decodeStep h.coherent hstep,
    by rw [hstep.keeps.cycle]; exact h.cycle_pos, hstep.keeps.done.trans h.running⟩

theorem fetchStep (hkept : TransfersKept kinds log s.mem) (hst : s.fetchStalled = false)
    (hstep : FetchStep s t) : Upfront kinds cfg entryPc log t :=
  ⟨h.coherent.fetchStep hstep, h.led.fetchStep hkept h.running hst hstep,
    by rw [hstep.keeps.cycle]; exact h.cycle_pos, hstep.keeps.done.trans h.running⟩

end Upfront

/-- The machine and its history agree on everything. -/
structure Steady (kinds : Prop) (cfg : Config) (entryPc : Word) (p : Cpu × List Uop) : Prop where
  coherent : p.1.Coherent cfg
  led : Led kinds cfg entryPc p.2 p.1
  drained : p.1.done = true → p.1.window = []

namespace Steady

theorem reset (h : cfg.Admissible) (mem : Memory) :
    Steady kinds cfg entryPc (Cpu.reset mem cfg entryPc, []) :=
  ⟨.reset h mem entryPc, .reset mem, fun _ => rfl⟩

theorem beginCycle (h : Steady kinds cfg entryPc (s, log)) :
    Steady kinds cfg entryPc (s.beginCycle, log) :=
  ⟨h.coherent.beginCycle, h.led.same ⟨rfl, rfl, rfl, rfl, rfl, rfl, rfl⟩ rfl, h.drained⟩

theorem commitOne {q : Cpu × List Uop} (h : Steady kinds cfg entryPc (s, log))
    (hstep : CommitStep s log q) : Steady kinds cfg entryPc q := by
  have hled := h.led.commitStep h.coherent hstep
  cases hstep with
  | idle => exact h
  | retired hp hrunning =>
    exact ⟨(h.coherent.retire hp).1, hled, fun hd => by rw [hrunning] at hd; contradiction⟩
  | finished hp =>
    obtain ⟨hcoh, hempty⟩ := (h.coherent.retire hp).1.squashInFlight
    exact ⟨hcoh, hled, fun _ => hempty⟩

theorem commit (h : Steady kinds cfg entryPc (s, log)) :
    Steady kinds cfg entryPc (commitLogged (s, log)) :=
  forLoop_preserves (Steady kinds cfg entryPc)
    (fun p hp => hp.commitOne (commitOneLogged_step p.1 p.2)) _ h

private theorem not_drained (hk : s.Keeps t) (hd : s.done = false) :
    t.done = true → t.window = [] := by
  rw [hk.done, hd]
  exact fun hn => absurd hn (by simp)

/-- Results that land move neither the front end nor the history. -/
theorem writeback (h : Steady kinds cfg entryPc (s, log)) (hc : 0 < s.cycle) (hd : s.done = false) :
    Steady kinds cfg entryPc (s.writeback, log) := by
  have hboth := writeback_preserves (P := fun t => t.Coherent cfg ∧ Led kinds cfg entryPc log t ∧
    0 < t.cycle)
    (fun ht hq => ⟨(ht.1.complete ht.2.2 hq).1, ht.2.1.complete ht.1 ht.2.2 hq, ht.2.2⟩)
    (fun _ ht => ⟨ht.1.clearBooking _, ht.2.1.same ⟨rfl, rfl, rfl, rfl, rfl, rfl, rfl⟩ rfl, ht.2.2⟩)
    ⟨h.coherent, h.led, hc⟩
  exact ⟨hboth.1, hboth.2.1, not_drained (writeback_keeps s) hd⟩

theorem execute (h : Steady kinds cfg entryPc (s, log)) :
    Steady kinds cfg entryPc (s.execute, log) :=
  ⟨h.coherent.execute, h.led.same ⟨rfl, rfl, rfl, rfl, rfl, rfl, rfl⟩ rfl, h.drained⟩

theorem issue (h : Steady kinds cfg entryPc (s, log)) (hc : 0 < s.cycle) (hd : s.done = false) :
    Steady kinds cfg entryPc (s.issue, log) := by
  obtain ⟨hled, hbranch⟩ := h.led.issue h.coherent hc
  exact ⟨(h.coherent.issue hc hbranch).1, hled, not_drained (issue_keeps s) hd⟩

/-- The stages behind issue, while sequence numbers last. -/
theorem frontHalf (h : Steady kinds cfg entryPc (s, log)) (hkept : TransfersKept kinds log s.mem)
    (hc : 0 < s.cycle)
    (hd : s.done = false) (hb : s.dispatch.rename.decodeStage.fetch.stats.renamed < 4294967296) :
    Steady kinds cfg entryPc (s.dispatch.rename.decodeStage.fetch, log) := by
  have hall := behindIssue_preserves
    (P := fun t => s.Keeps t ∧ (t.stats.renamed < 4294967296 → Upfront kinds cfg entryPc log t))
    (fun ht hstep => ⟨ht.1.trans hstep.keeps,
      fun hlt => (ht.2 (hstep.keeps.renamed.trans_lt hlt)).dispatchStep hstep⟩)
    (fun ht hstep => ⟨ht.1.trans hstep.keeps, fun hlt =>
      (ht.2 (hstep.keeps.renamed.trans_lt hlt)).renameStep
        (hstep.keeps.renamed.trans_lt hlt) hstep⟩)
    (fun ht hstep => ⟨ht.1.trans hstep.keeps,
      fun hlt => (ht.2 (hstep.keeps.renamed.trans_lt hlt)).decodeStep hstep⟩)
    (fun ht hst hstep => ⟨ht.1.trans hstep.keeps, fun hlt =>
      (ht.2 (hstep.keeps.renamed.trans_lt hlt)).fetchStep (ht.1.mem.symm ▸ hkept) hst hstep⟩)
    ⟨.refl s, fun _ => ⟨h.coherent, h.led, hc, hd⟩⟩
  obtain ⟨hk, hup⟩ := hall
  exact ⟨(hup hb).coherent, (hup hb).led, not_drained hk hd⟩

/-- The machine that issue finds in a cycle that does not end the run. -/
theorem beforeIssue (h : Steady kinds cfg entryPc (s, log))
    (hd : s.beginCycle.commit.done = false) :
    ∃ log', Steady kinds cfg entryPc (s.beforeIssue, log') ∧ 0 < s.beforeIssue.cycle ∧
      s.beforeIssue.done = false := by
  have hcommit := h.beginCycle.commit
  rw [← commitLogged_fst (s.beginCycle, log)] at hd
  have hfst := commitLogged_fst (s.beginCycle, log)
  have hc : 0 < (commitLogged (s.beginCycle, log)).1.cycle := by
    rw [hfst, commit_cycle]
    exact Nat.succ_pos _
  have hk := (writeback_keeps (commitLogged (s.beginCycle, log)).1).trans (execute_keeps _)
  have hsteady := (hcommit.writeback hc hd).execute
  have hb : s.beforeIssue = (commitLogged (s.beginCycle, log)).1.writeback.execute := by
    rw [hfst]; rfl
  rw [hb]
  exact ⟨_, hsteady, by rw [hk.cycle]; exact hc, hk.done.trans hd⟩

/-- What a tick commits and writes to memory, commit has done before any other stage runs. -/
theorem committed {p : Cpu × List Uop} (h : Steady kinds cfg entryPc p) :
    ∃ q, Steady kinds cfg entryPc q ∧ q.2 = (tickLogged p).2 ∧ q.1.mem = (tickLogged p).1.mem := by
  obtain ⟨s, log⟩ := p
  have hcommit := h.beginCycle.commit
  refine tickLogged_cases (P := fun r log => ∃ q, Steady kinds cfg entryPc q ∧ q.2 = log ∧
    q.1.mem = r.mem)
    ⟨_, h, rfl, rfl⟩ ⟨_, hcommit, rfl, rfl⟩ fun t log' hq _ _ => ?_
  rw [hq] at hcommit
  exact ⟨_, hcommit, rfl, (behindCommit_keeps t).mem.symm⟩

/-- Stores that leave committed code alone still do so when the tick is over. -/
theorem transfersKept {p : Cpu × List Uop} (h : Steady kinds cfg entryPc p)
    (hself : NoSelfMod (tickLogged p).2) :
    TransfersKept kinds (tickLogged p).2 (tickLogged p).1.mem := by
  obtain ⟨q, hq, hlog, hmem⟩ := h.committed
  rw [← hlog, ← hmem]
  rw [← hlog] at hself
  exact hq.led.frontEnd.transfersKept hself

/-- One tick of the machine and its history. -/
theorem tick {p : Cpu × List Uop} (h : Steady kinds cfg entryPc p)
    (hkept : TransfersKept kinds (tickLogged p).2 (tickLogged p).1.mem)
    (hb : (tickLogged p).1.stats.renamed < 4294967296) :
    Steady kinds cfg entryPc (tickLogged p) := by
  obtain ⟨s, log⟩ := p
  revert hkept hb
  have hcommit := h.beginCycle.commit
  refine tickLogged_cases
    (P := fun r log => TransfersKept kinds log r.mem → r.stats.renamed < 4294967296 →
      Steady kinds cfg entryPc (r, log)) (fun _ _ => h)
    (fun _ _ => hcommit) fun t log' hq hc hrunning hkept hb => ?_
  rw [hq] at hcommit
  have hk := (writeback_keeps t).trans (execute_keeps _)
  have hissue :=
    ((hcommit.writeback hc hrunning).execute).issue (by rw [hk.cycle]; exact hc)
      (hk.done.trans hrunning)
  have hk' := hk.trans (issue_keeps _)
  rw [(behindCommit_keeps t).mem, ← hk'.mem] at hkept
  exact hissue.frontHalf hkept (by rw [hk'.cycle]; exact hc) (hk'.done.trans hrunning) hb

end Steady

/-- Commit adds to the history what it adds to the count of retired instructions. -/
private theorem commitLogged_extends (p : Cpu × List Uop) :
    (commitLogged p).1.stats.renamed = p.1.stats.renamed ∧
      ∃ more, (commitLogged p).2 = p.2 ++ more ∧
        (commitLogged p).1.stats.retired = p.1.stats.retired + more.length := by
  refine forLoop_relates (fun p q : Cpu × List Uop => q.1.stats.renamed = p.1.stats.renamed ∧
    ∃ more, q.2 = p.2 ++ more ∧ q.1.stats.retired = p.1.stats.retired + more.length)
    (fun p => ⟨rfl, [], by simp⟩) (fun h h' => ?_) (fun p => ?_) _ p
  · obtain ⟨h1, x, hx, hn⟩ := h
    obtain ⟨h2, y, hy, hm⟩ := h'
    exact ⟨h2.trans h1, x ++ y, by rw [hy, hx, List.append_assoc],
      by rw [hm, hn, List.length_append, Nat.add_assoc]⟩
  · have hstep := commitOneLogged_step p.1 p.2
    generalize (commitOneLogged (p.1, p.2)).state = q at hstep
    cases hstep with
    | idle => exact ⟨rfl, [], by simp⟩
    | retired => exact ⟨rfl, _, rfl, rfl⟩
    | finished => exact ⟨rfl, _, rfl, rfl⟩

/-- A tick only ever adds to the history and to the count of renamed instructions. -/
theorem tickLogged_extends (p : Cpu × List Uop) :
    p.1.stats.renamed ≤ (tickLogged p).1.stats.renamed ∧ ∃ more, (tickLogged p).2 = p.2 ++ more ∧
      (tickLogged p).1.stats.retired = p.1.stats.retired + more.length := by
  obtain ⟨hrenamed, more, hmore, hretired⟩ := commitLogged_extends (p.1.beginCycle, p.2)
  refine tickLogged_cases (P := fun r log => p.1.stats.renamed ≤ r.stats.renamed ∧
    ∃ more, log = p.2 ++ more ∧ r.stats.retired = p.1.stats.retired + more.length) ⟨le_refl _, [],
    by simp⟩ ⟨hrenamed.ge, more, hmore, hretired⟩
    fun t log hq _ _ => ?_
  rw [hq] at hrenamed hmore hretired
  have hk := behindCommit_keeps t
  exact ⟨hrenamed.ge.trans hk.renamed, more, hmore, hk.retired.trans hretired⟩

theorem committed_length (mem : Memory) (k : ℕ) :
    (committed mem cfg entryPc k).length = (ticked mem cfg entryPc k).stats.retired := by
  rw [← history_fst, committed]
  induction k with
  | zero => rfl
  | succ k ih =>
    obtain ⟨-, more, hmore, hretired⟩ := tickLogged_extends (history mem cfg entryPc k)
    rw [history_succ, hmore, hretired, List.length_append, ih]

/-- A run whose committed stores leave committed code alone is steady while sequence numbers
last. -/
theorem steady_history (h : cfg.Admissible) (mem : Memory) (k : ℕ)
    (hself : NoSelfMod (committed mem cfg entryPc k))
    (hb : (ticked mem cfg entryPc k).stats.renamed < 4294967296) :
    Steady True cfg entryPc (history mem cfg entryPc k) := by
  rw [← history_fst] at hb
  rw [committed] at hself
  induction k with
  | zero => exact .reset h mem
  | succ k ih =>
    rw [history_succ] at hself hb ⊢
    obtain ⟨hrenamed, more, hmore, -⟩ := tickLogged_extends (history mem cfg entryPc k)
    have hbefore := ih (hself.mono fun u hu => by
      rw [hmore]
      exact List.mem_append_left _ hu) (hrenamed.trans_lt hb)
    exact hbefore.tick (hbefore.transfersKept hself) hb

theorem steady_ticked (h : cfg.Admissible) (mem : Memory) (k : ℕ)
    (hself : NoSelfMod (committed mem cfg entryPc k))
    (hb : (ticked mem cfg entryPc k).stats.renamed < 4294967296) :
    Steady True cfg entryPc (ticked mem cfg entryPc k, committed mem cfg entryPc k) := by
  have hsteady := steady_history h mem k hself hb
  rwa [← history_fst]

/-- A jump over a word that is no instruction, a store, a load of the stored word, and the exit
call. -/
def skipping : Memory :=
  [(0, 0x0080006F), (8, 0x10002023), (12, 0x10002283), (16, 0x05D00893), (20, 0x00000073)].foldl
    (fun m (p : Word × Word) => m.storeU32 p.1 p.2) .empty

theorem admissible_default : Config.Admissible {} := by constructor <;> decide

end OooCpu.Cpu
