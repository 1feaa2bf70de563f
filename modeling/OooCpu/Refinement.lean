import OooCpu.Track

/-! # The pipeline refines the reference interpreter

After any number of ticks the committed state is the state of the reference
interpreter after as many steps as have retired. -/
namespace OooCpu.Cpu
variable {kinds : Prop} {image : Memory} {entryPc : Word} {N n : ℕ} {cfg : Config} {s t : Cpu}
    {log pre post : List Uop} {u v : Uop}

theorem fetches_same (hf : SameFront s t) (hw : t.window = s.window) : t.fetches = s.fetches := by
  rw [fetches, pending, hw, hf.decodeQ, hf.fetchQ, fetches, pending]

/-- A uop that advances is still the one that was fetched. -/
theorem fetches_replace (hf : SameFront s t) (hw : s.window = pre ++ u :: post)
    (hw' : t.window = pre ++ v :: post)
    (ha : u.SameFetch v) : t.fetches = s.fetches := by
  simp only [fetches, pending, hw, hw', hf.decodeQ, hf.fetchQ, List.map_append, List.map_cons,
    ha.pc, ha.raw]

namespace Beside

theorem reset (cfg : Config) : Beside image entryPc N 0 (Cpu.reset image cfg entryPc) where
  regs := fun r => by
    change (PhysicalRegisterFile.reset cfg).read r.val = 0
    simp [PhysicalRegisterFile.read, PhysicalRegisterFile.reset]
  mem := rfl
  tracks := trivial
  words := trivial

variable (h : Beside image entryPc N n s)
include h

theorem same (hreg : ∀ r, t.reg r = s.reg r) (hf : SameFront s t) (hw : t.window = s.window) :
    Beside image entryPc N n t :=
  ⟨fun r => (hreg r).trans (h.regs r), hf.mem.trans h.mem, hw ▸ h.tracks,
    fetches_same hf hw ▸ h.words⟩

/-- A uop of the window may advance if what it has computed by then is exact. -/
theorem replace (hreg : ∀ r, t.reg r = s.reg r) (hf : SameFront s t)
    (hw : s.window = pre ++ u :: post)
    (hw' : t.window = pre ++ v :: post) (ha : u.Advances v)
    (hv : Path image entryPc n pre → n + pre.length < N → OnStep image entryPc (n + pre.length) u →
      v.isIssued = true → Exact image entryPc (n + pre.length) v) : Beside image entryPc N n t := by
  refine ⟨fun r => (hreg r).trans (h.regs r), hf.mem.trans h.mem, ?_, ?_⟩
  · rw [hw']
    exact (hw ▸ h.tracks).replace ha.pc hv
  · rw [fetches_replace hf hw hw' ha.sameFetch]
    exact h.words

/-- What a uop has computed stays exact while it only changes its bookkeeping. -/
theorem keep (hreg : ∀ r, t.reg r = s.reg r) (hf : SameFront s t) (hw : s.window = pre ++ u :: post)
    (hw' : t.window = pre ++ v :: post) (ha : u.Advances v) (hi : v.isIssued = u.isIssued)
    (hv : ∀ m, Exact image entryPc m u → Exact image entryPc m v) : Beside image entryPc N n t :=
  h.replace hreg hf hw hw' ha fun hpath hlt hon hvi =>
    hv _ ((hw ▸ h.tracks).exact_at hpath hlt hon (hi ▸ hvi))

/-- What is squashed is the end of the window and everything behind it. -/
theorem cut (hreg : ∀ r, t.reg r = s.reg r) (hmem : t.mem = s.mem) (hw : s.window = pre ++ post)
    (hw' : t.window = pre) (hd : t.decodeQ = []) (hq : t.fetchQ = []) :
    Beside image entryPc N n t := by
  refine ⟨fun r => (hreg r).trans (h.regs r), hmem.trans h.mem, ?_, h.words.prefix ?_⟩
  · rw [hw']
    exact (hw ▸ h.tracks).cut
  · rw [fetches, fetches, pending, pending, hw, hw', hd, hq]
    simp [List.map_append]

/-- A result that lands is in the register of its writer, which nobody else reads yet. -/
theorem complete {fast slow : List Uop} (hcoh : s.Coherent cfg) (hc : 0 < s.cycle)
    (hq : (s.executing ++ s.wbFast ++ s.wbSlow).Perm (u :: (s.executing ++ fast ++ slow))) :
    Beside image entryPc N n { s.complete u with wbFast := fast, wbSlow := slow } := by
  obtain ⟨-, pre, post, hw, hw'⟩ := hcoh.complete hc hq
  have hmem : u ∈ s.executing ++ s.wbFast ++ s.wbSlow := hq.symm.subset List.mem_cons_self
  refine h.keep (fun r => ?_) ⟨rfl, rfl, rfl, rfl, rfl, rfl, rfl⟩ hw hw'
    ⟨rfl, rfl, rfl, rfl, rfl, rfl, rfl, rfl, rfl, rfl, rfl, rfl, rfl, rfl, rfl, rfl⟩ rfl
    fun m he => ⟨he.nextPc, he.result, he.store⟩
  change (ite _ _ _ : PhysicalRegisterFile).read (s.archRat r) = s.prf.read (s.archRat r)
  split
  · rename_i hwrite
    have hne := (hcoh.running_dest hmem hwrite.2.2).2
    rw [PhysicalRegisterFile.read_write _ _ _ _ fun h0 => hne 0 (hcoh.mapped.zero.trans h0.symm),
      if_neg (hne r)]
  · rfl

theorem writeback (hcoh : s.Coherent cfg) (hc : 0 < s.cycle) :
    Beside image entryPc N n s.writeback :=
  (writeback_preserves (P := fun t => t.Coherent cfg ∧ 0 < t.cycle ∧ Beside image entryPc N n t)
    (fun ht hq => ⟨(ht.1.complete ht.2.1 hq).1, ht.2.1, ht.2.2.complete ht.1 ht.2.1 hq⟩)
    (fun _ ht => ⟨ht.1.clearBooking _, ht.2.1, ht.2.2.same (fun _ => rfl) ⟨rfl, rfl, rfl, rfl, rfl,
      rfl, rfl⟩ rfl⟩)
    ⟨hcoh, hc, h⟩).2.2

theorem dispatchStep (hcoh : s.Coherent cfg) (hc : 0 < s.cycle) (hstep : DispatchStep s t) :
    Beside image entryPc N n t := by
  cases hstep with
  | idle => exact h
  | stalled c => exact h.same (fun _ => rfl) ⟨rfl, rfl, rfl, rfl, rfl, rfl, rfl⟩ rfl
  | dispatched hq hseat hslot =>
    obtain ⟨-, d, hw, hw'⟩ := hcoh.dispatchUop hc hq hseat hslot
    exact h.keep (fun _ => rfl) ⟨rfl, rfl, rfl, rfl, rfl, rfl, rfl⟩ hw hw'
      ⟨rfl, rfl, rfl, rfl, rfl, rfl, rfl, rfl, rfl, rfl, rfl, rfl, rfl, rfl, rfl, rfl⟩ rfl
      fun m he => ⟨he.nextPc, he.result, he.store⟩

/-- A renamed uop has computed nothing yet. -/
theorem renameStep (hcoh : s.Coherent cfg) (hb : s.stats.renamed < 4294967296)
    (hstep : RenameStep s t) : Beside image entryPc N n t := by
  cases hstep with
  | idle => exact h
  | stalled c => exact h.same (fun _ => rfl) ⟨rfl, rfl, rfl, rfl, rfl, rfl, rfl⟩ rfl
  | @renamed u rest dest freeList hq hroom hfull hck halloc =>
    obtain ⟨-, slot, hwin⟩ := hcoh.renameUop hb hq hroom hfull hck halloc
    have hblank := (hcoh.decoded u (by simp [hq])).2
    refine ⟨fun r => ?_, h.mem, ?_, ?_⟩
    · refine Eq.trans ?_ (h.regs r)
      change (ite _ _ _ : PhysicalRegisterFile).read (s.archRat r) = s.prf.read (s.archRat r)
      split
      · rw [PhysicalRegisterFile.read_markPending]
      · rfl
    · rw [hwin]
      exact h.tracks.push hblank.issue
    · have hsame : (s.renameUop u rest dest freeList).fetches = s.fetches := by
        rw [fetches, pending, hwin, fetches, pending, hq]
        simp [renameUop, renamed]
      rw [hsame]
      exact h.words

theorem decodeStep (hstep : DecodeStep s t) : Beside image entryPc N n t := by
  cases hstep with
  | idle => exact h
  | decoded obs hq =>
    refine ⟨h.regs, h.mem, h.tracks, h.words.prefix ?_⟩
    simp [fetches, pending, window, decoded, hq]
  | trapped obs hq =>
    refine ⟨h.regs, h.mem, h.tracks, h.words.prefix ?_⟩
    simp [fetches, pending, window, decoded, hq]

/-- The word fetched is the reference's if memory holds that already. -/
theorem fetchStep (hstep : FetchStep s t)
    (hword : ∀ m, m = n + s.pending.length → m < N → s.fetchQ.length < s.queueCap →
      Ref.wordAt image entryPc m = (Ref.steps image entryPc n).1.loadU32
        (Ref.pcAt image entryPc m)) :
    Beside image entryPc N n t := by
  cases hstep with
  | idle => exact h
  | fetched obs hroom =>
    refine ⟨h.regs, h.mem, h.tracks, ?_⟩
    have hfetches :
        fetches { s with fetchQ := s.fetchQ ++ [s.fetched] } =
          s.fetches ++ [(s.pc, s.mem.loadU32 s.pc)] := by
      simp [fetches, pending, window, fetched]
    change Words image entryPc N n (fetches { s with fetchQ := s.fetchQ ++ [s.fetched] })
    rw [hfetches]
    apply h.words.concat
    intro hlt hpc
    have hlen : s.fetches.length = s.pending.length := List.length_map _
    rw [hlen] at hlt hpc ⊢
    rw [hword _ rfl hlt hroom, ← hpc, h.mem]

end Beside

theorem Beside.issueOne {p : IssuePass} {e : IssueQueue.Entry}
    (hspaced : Ref.Spaced image entryPc reach N) (hsane : p.Sane cfg)
    (h : Beside image entryPc N n p.cpu) (he : e ∈ p.cpu.iq.entries) (hready : e.ready = true) :
    Beside image entryPc N n (issueOne p e).cpu := by
  simp only [Cpu.issueOne]
  cases ha : p.cpu.attempt e with
  | turnedAway s' why =>
    obtain ⟨-, hwin, -, -⟩ := hsane.coherent.turnAway ha
    rcases attempt_turnedAway ha with rfl | ⟨_, _, _, _, rfl⟩
    · exact h
    · exact h.same (fun _ => rfl) (attempt_sameFront ha) hwin
  | launched s' x latency f unit =>
    obtain ⟨-, pre, post, hw, hwin⟩ := hsane.coherent.launch hsane.cycle_pos he ha
    obtain ⟨hissues, -⟩ := attempt_issues hsane.cycle_pos ha
    have hexact := fun hpath hlt hon (_ : (stamped s' x latency).isIssued = true) =>
      h.launch_exact hspaced hsane.coherent he hready ha hw hpath hlt hon
    have hfront := launch_sameFront ha (stamped s' x latency)
    obtain ⟨_, _, _, _, _, rfl, -, -⟩ := attempt_frame ha
    exact h.replace (fun _ => rfl) hfront hw hwin hissues.toAdvances hexact

theorem Beside.issue (hspaced : Ref.Spaced image entryPc reach N) (hcoh : s.Coherent cfg)
    (hc : 0 < s.cycle)
    (hbranch : ∀ br, s.issueScan.offender = some br → br.dec.isBranch = true)
    (h : Beside image entryPc N n s) : Beside image entryPc N n s.issue := by
  obtain ⟨hsane, hscan⟩ :=
    issueScan_preserves (P := fun p => p.Sane cfg ∧ Beside image entryPc N n p.cpu)
    (fun _ _ hp he hready => ⟨hp.1.issueOne he, hp.2.issueOne hspaced hp.1 he hready⟩)
      ⟨⟨hcoh, hc, by simp⟩, h⟩
  obtain ⟨hcharged, hwin⟩ := hsane.coherent.chargeSlots
  have hside : Beside image entryPc N n (Cpu.chargeSlots s.issueScan) :=
    hscan.same (fun _ => rfl) (chargeSlots_sameFront s.issueScan) hwin
  simp only [Cpu.issue]
  cases ho : s.issueScan.offender with
  | none => exact hside
  | some br =>
    obtain ⟨hmem, hi, -⟩ := hsane.offender br ho
    obtain ⟨pre, post, hw⟩ := List.append_of_mem (hwin.symm ▸ hmem)
    obtain ⟨-, hcut⟩ := hcharged.recover hw hi (hbranch br ho)
    have hsplit : (Cpu.chargeSlots s.issueScan).window = (pre ++ [br]) ++ post := by simp [hw]
    exact hside.cut (t := (Cpu.chargeSlots s.issueScan).recover br)
      (fun _ => rfl) rfl hsplit hcut rfl rfl

/-- The uop is the instruction of step `m`, carried out. -/
structure Ran (image : Memory) (entryPc : Word) (m : ℕ) (u : Uop) :
    Prop extends OnStep image entryPc m u, Exact image entryPc m u where
  dec : u.dec = Ref.insnAt image entryPc m

/-- The machine and its history beside the first `N` steps of the reference run. -/
structure Tracked (image : Memory) (entryPc : Word) (N : ℕ) (cfg : Config) (p : Cpu × List Uop) :
    Prop where
  beside : Beside image entryPc N p.2.length p.1
  archPc : p.1.archPc = Ref.pcAt image entryPc p.2.length
  halted : p.1.halted = (Ref.steps image entryPc p.2.length).2.halted
  trapped : p.1.trapped = (Ref.steps image entryPc p.2.length).2.trapped
  exitCode : p.1.exitCode = (Ref.steps image entryPc p.2.length).2.exitCode
  queueCap : p.1.queueCap ≤ 2 * max 1 cfg.width
  next : p.1.done = false →
    (p.2.foldl (FrontState.advance cfg) (.reset cfg entryPc)).pc = p.1.archPc
  ran : Along (fun m _ => m + 1) (Ran image entryPc) 0 p.2

theorem commitHalts_eq (h : u.Sound) :
    s.commitHalts u = decide (u.dec.op = .ecall ∧ s.reg REG_A7 = SYS_EXIT) := by
  by_cases ho : u.dec.op = .ecall
  · simp [commitHalts, h.trap, ho]
  · simp [commitHalts, ho]

theorem commitCause_eq_none (h : u.Sound) : s.commitCause u = .none ↔
    ¬(u.dec.op = .ecall ∧ s.reg REG_A7 ≠ SYS_EXIT ∨ u.dec.op = .ebreak ∨ u.dec.op = .invalid) := by
  rw [commitCause, h.trap]
  cases ho : u.dec.op
  case ecall =>
    by_cases hexit : s.reg REG_A7 = SYS_EXIT <;> simp [hexit]
  all_goals simp

namespace Beside
variable (h : Beside image entryPc N n s)
include h

/-- Retirement is a step of the reference: what commits is its instruction, carried out, and takes
registers and memory one step further. -/
theorem retire {e : RobEntry} {rob : Rob} (hcoh : s.Coherent cfg)
    (hp : s.rob.popHeadIfComplete = some (e, rob))
    (hlt : n < N) (hon : OnStep image entryPc n (s.inflight s.rob.head)) :
    Ran image entryPc n (s.inflight s.rob.head) ∧
      Beside image entryPc N (n + 1) (s.retire rob (s.inflight s.rob.head)) := by
  obtain ⟨-, hw, hcomplete⟩ := hcoh.retire hp
  have hmem := hcoh.retire_mem hp
  generalize s.inflight s.rob.head = u at *
  have hu : u ∈ s.window := by rw [hw]; exact List.mem_cons_self
  have hinsn : u.dec = Ref.insnAt image entryPc n := by
    have hdecodes := h.decodes hcoh
    rw [hw] at hdecodes
    exact (Decodes.cons_iff.mp hdecodes).1 hlt hon
  have htracks := h.tracks
  rw [hw] at htracks
  obtain ⟨hexact, hrest⟩ := htracks hlt hon
  replace hexact := hexact (hcoh.staged.complete u hu hcomplete)
  refine ⟨⟨hon, hexact, hinsn⟩, fun r => ?_, ?_, hrest, ?_⟩
  · rw [Ref.regAt_succ, ← hinsn, Cpu.reg, hcoh.retire_archRat hu]
    change s.prf.read (u.remap s.archRat r) = _
    by_cases hwr : u.dec.writesRd = true
    · by_cases hr : r = u.dec.rd
      · rw [if_pos ⟨hwr, hr⟩, hexact.result hwr, Uop.remap, if_pos hwr]
        simp only [if_pos hr]
        exact hcoh.woken.value u hu hwr hcomplete
      · rw [if_neg (fun hc => hr hc.2), Uop.remap, if_pos hwr]
        simp only [if_neg hr]
        exact h.regs r
    · rw [if_neg (fun hc => hwr hc.1), Uop.remap, if_neg hwr]
      exact h.regs r
  · rw [hmem, Ref.mem_succ, commitMem, ← hinsn, h.mem]
    split
    · rename_i hst
      rw [(hexact.store hst).1, (hexact.store hst).2, Ref.sizeAt, ← hinsn]
    · rfl
  · have hfetches : s.fetches = (u.pc, u.raw) :: (s.retire rob u).fetches := by
      rw [fetches, pending, hw]
      rfl
    have hwords := h.words
    rw [hfetches] at hwords
    exact (Along.cons_iff.mp hwords).2

/-- Commit ends the run with a halt where the reference does. -/
theorem commitHalts (hsound : u.Sound) (hinsn : u.dec = Ref.insnAt image entryPc n)
    (hhalted : (Ref.steps image entryPc n).2.halted = false) :
    s.commitHalts u = (Ref.effectAt image entryPc n).halted := by
  rw [commitHalts_eq hsound, Ref.effectAt, Ref.execute_halted, hhalted, Bool.false_or, ← hinsn,
    h.regs]
  rfl

/-- Commit ends the run with a trap where the reference does. -/
theorem commitCause (hsound : u.Sound) (hinsn : u.dec = Ref.insnAt image entryPc n)
    (htrapped : (Ref.steps image entryPc n).2.trapped = false) :
    (s.commitCause u != .none) = (Ref.effectAt image entryPc n).trapped := by
  rw [Ref.effectAt, Ref.execute_trapped, htrapped, Bool.false_or, ← hinsn, Bool.eq_iff_iff,
    bne_iff_ne, decide_eq_true_iff, ne_eq, commitCause_eq_none hsound, not_not, h.regs]
  rfl

theorem commitExit (hsound : u.Sound) (hinsn : u.dec = Ref.insnAt image entryPc n)
    (hexit : s.exitCode = (Ref.steps image entryPc n).2.exitCode) :
    (if s.commitHalts u then s.reg REG_A0
      else s.exitCode) = (Ref.effectAt image entryPc n).exitCode := by
  rw [commitHalts_eq hsound, Ref.effectAt, Ref.execute_exitCode, ← hexit, ← hinsn, h.regs, h.regs]
  simp only [decide_eq_true_iff]
  rfl

end Beside

namespace Tracked

theorem reset (cfg : Config) : Tracked image entryPc N cfg (Cpu.reset image cfg entryPc, []) where
  beside := .reset cfg
  archPc := rfl
  halted := rfl
  trapped := rfl
  exitCode := rfl
  queueCap := by
    change u32 (max 1 cfg.width * 2) ≤ _
    have hle : u32 (max 1 cfg.width * 2) ≤ max 1 cfg.width * 2 := Nat.mod_le _ _
    omega
  next := fun _ => rfl
  ran := .nil

variable (h : Tracked image entryPc N cfg (s, log))
include h

theorem same (hk : s.Keeps t) (hb : Beside image entryPc N log.length t) :
    Tracked image entryPc N cfg (t, log) :=
  ⟨hb, hk.archPc.trans h.archPc, hk.halted.trans h.halted, hk.trapped.trans h.trapped,
    hk.exitCode.trans h.exitCode, hk.queueCap.trans_le h.queueCap,
    fun hd => (h.next (hk.done.symm.trans hd)).trans hk.archPc.symm, h.ran⟩

/-- The oldest uop in flight is the instruction the reference executes next. -/
theorem head {rest : List Uop} (hled : Led kinds cfg entryPc log s) (hd : s.done = false)
    (hp : s.pending = u :: rest) : OnStep image entryPc log.length u := by
  have halong := hled.frontEnd.along
  rw [hp] at halong
  refine ⟨halong.at_split.pc.trans ((h.next hd).trans h.archPc), ?_⟩
  rw [Ref.Result.done, ← h.halted, ← h.trapped]
  exact hd

/-- Retirement keeps the history beside the reference. -/
theorem retire {e : RobEntry} {rob : Rob} (hs : Steady kinds cfg entryPc (s, log))
    (hlt : log.length < N)
    (hp : s.rob.popHeadIfComplete = some (e, rob)) :
    Tracked image entryPc N cfg (s.retire rob (s.inflight s.rob.head),
      log ++ [s.inflight s.rob.head]) := by
  obtain ⟨-, hw, hcomplete⟩ := hs.coherent.retire hp
  have hbeside := h.beside.retire hs.coherent hp hlt
  generalize s.inflight s.rob.head = u at *
  have hu : u ∈ s.window := by rw [hw]; exact List.mem_cons_self
  have hd : s.done = false := by
    by_contra hd
    rw [hs.drained (by simpa using hd)] at hu
    contradiction
  have hissued := hs.coherent.staged.complete u hu hcomplete
  have hsound := hs.coherent.sound u hu
  obtain ⟨hran, hside⟩ := hbeside (h.head hs.led hd (by rw [pending, hw]; rfl))
  obtain ⟨hhalted, htrapped⟩ := Bool.or_eq_false_iff.mp hd
  have hhalts : (s.retire rob u).halted = (Ref.effectAt image entryPc log.length).halted := by
    rw [← h.beside.commitHalts hsound hran.dec (h.halted ▸ hhalted)]
    simp [Cpu.retire, hhalted]
  have htraps : (s.retire rob u).trapped = (Ref.effectAt image entryPc log.length).trapped := by
    rw [← h.beside.commitCause hsound hran.dec (h.trapped ▸ htrapped)]
    simp [Cpu.retire, htrapped]
  have hexits : (s.retire rob u).exitCode = (Ref.effectAt image entryPc log.length).exitCode :=
    h.beside.commitExit hsound hran.dec h.exitCode
  have hpc : (s.retire rob u).archPc = if (s.retire rob u).done then u.pc else u.nextPc := rfl
  have hlen : (log ++ [u]).length = log.length + 1 := List.length_append
  refine ⟨?_, ?_, ?_, ?_, ?_, h.queueCap, fun hrun => ?_, ?_⟩
  · rw [hlen]
    exact hside
  · rw [hlen, hpc, done, hhalts, htraps, hran.nextPc, hran.pc]
    rfl
  · rw [hlen]
    exact hhalts
  · rw [hlen]
    exact htraps
  · rw [hlen]
    exact hexits
  · rw [hpc, if_neg (by simp [hrun]), List.foldl_append]
    simp only [List.foldl_cons, List.foldl_nil, FrontState.advance, Uop.successor, hissued, if_true]
  · rw [Along.concat_iff, foldl_succ, Nat.zero_add]
    exact ⟨h.ran, hran⟩

/-- The halt squash leaves what has retired alone. -/
theorem squash (hcoh : s.Coherent cfg) : Tracked image entryPc N cfg (s.squashInFlight, log) := by
  obtain ⟨-, hempty⟩ := hcoh.squashInFlight
  have hcut := h.beside.cut (t := s.squashInFlight)
    (fun _ => rfl) rfl (List.nil_append _).symm hempty rfl rfl
  exact ⟨hcut, h.archPc, h.halted, h.trapped, h.exitCode, h.queueCap, h.next, h.ran⟩

theorem commitOne {q : Cpu × List Uop} (hs : Steady kinds cfg entryPc (s, log))
    (hstep : CommitStep s log q)
    (hle : q.2.length ≤ N) : Tracked image entryPc N cfg q := by
  cases hstep with
  | idle => exact h
  | retired hp => exact h.retire hs (by simpa [Nat.succ_le_iff] using hle) hp
  | finished hp =>
    exact (h.retire hs (by simpa [Nat.succ_le_iff] using hle) hp).squash (hs.coherent.retire hp).1

theorem commit (hs : Steady kinds cfg entryPc (s, log))
    (hle : (commitLogged (s, log)).2.length ≤ N) :
    Tracked image entryPc N cfg (commitLogged (s, log)) := by
  refine (forLoop_preserves (fun q => Steady kinds cfg entryPc q ∧
    (q.2.length ≤ N → Tracked image entryPc N cfg q))
    (fun q hq => ?_) _ ⟨hs, fun _ => h⟩).2 hle
  have hstep := commitOneLogged_step q.1 q.2
  have hlen : q.2.length ≤ (commitOneLogged (q.1, q.2)).state.2.length := by
    generalize (commitOneLogged (q.1, q.2)).state = q' at hstep
    cases hstep <;> simp
  exact ⟨hq.1.commitOne hstep, fun hle => (hq.2 (hlen.trans hle)).commitOne hq.1 hstep hle⟩

theorem ran_of_mem (hv : v ∈ log) : ∃ i < log.length, Ran image entryPc i v := by
  obtain ⟨xs, ys, rfl⟩ := List.append_of_mem hv
  have hran := h.ran.at_split
  rw [foldl_succ, Nat.zero_add] at hran
  exact ⟨xs.length, by simp, hran⟩

/-- Where a transfer has been taken, memory still holds one; its kind may have changed. -/
theorem transfersKept (hspaced : Ref.Spaced image entryPc reach N) (hle : log.length ≤ N) :
    TransfersKept False log s.mem := by
  intro v hv hbranch htaken
  obtain ⟨i, hi, hran⟩ := h.ran_of_mem hv
  rw [hran.nextPc, hran.pc] at htaken
  rw [h.beside.mem, hran.pc]
  exact ⟨hspaced.transfers log.length (by omega) i hi (hran.dec ▸ hbranch) htaken, False.elim⟩

/-- What is fetched next is executed soon enough to be in memory already. -/
theorem word_eq (hspaced : Ref.Spaced image entryPc cfg.reach N) (hcoh : t.Coherent cfg)
    (hk : s.Keeps t) {m : ℕ}
    (hm : m = log.length + t.pending.length) (hlt : m < N) (hroom : t.fetchQ.length < t.queueCap) :
    Ref.wordAt image entryPc m = (Ref.steps image entryPc log.length).1.loadU32
      (Ref.pcAt image entryPc m) := by
  have hcap : t.queueCap ≤ 2 * max 1 cfg.width := hk.queueCap.trans_le h.queueCap
  have hrob : t.window.length ≤ cfg.robSize := by
    rw [window, windowOf, List.length_map, Rob.live_length]
    exact hcoh.sized.rob ▸ hcoh.buffered.wf.count_le
  have hdecode := hcoh.sized.decodeQ_le
  have hpending : t.pending.length < cfg.reach := by
    simp only [pending, List.length_append, Config.reach]
    omega
  exact hspaced.wordAt_eq (by omega) hlt (by omega)

theorem frontHalf (hs : Upfront False cfg entryPc log s)
    (hspaced : Ref.Spaced image entryPc cfg.reach N)
    (hle : log.length ≤ N) (hb : s.dispatch.rename.decodeStage.fetch.stats.renamed < 4294967296) :
    Beside image entryPc N log.length s.dispatch.rename.decodeStage.fetch := by
  have hkept := h.transfersKept hspaced hle
  refine (behindIssue_preserves (P := fun t => t.stats.renamed < 4294967296 →
    Upfront False cfg entryPc log t ∧ s.Keeps t ∧ Beside image entryPc N log.length t)
    (fun ht hstep hlt => ?_) (fun ht hstep hlt => ?_) (fun ht hstep hlt => ?_)
      (fun ht hst hstep hlt => ?_)
    (fun _ => ⟨hs, .refl s, h.beside⟩) hb).2.2 <;>
    have hlt' := hstep.keeps.renamed.trans_lt hlt <;>
    obtain ⟨hup, hkeeps, hside⟩ := ht hlt' <;>
    have hkeeps' := hkeeps.trans hstep.keeps
  · exact ⟨hup.dispatchStep hstep, hkeeps', hside.dispatchStep hup.coherent hup.cycle_pos hstep⟩
  · exact ⟨hup.renameStep hlt' hstep, hkeeps', hside.renameStep hup.coherent hlt' hstep⟩
  · exact ⟨hup.decodeStep hstep, hkeeps', hside.decodeStep hstep⟩
  · refine ⟨hup.fetchStep (by rw [hkeeps.mem]; exact hkept) hst hstep, hkeeps',
      hside.fetchStep hstep ?_⟩
    exact fun m hm hlt hroom => h.word_eq hspaced hup.coherent hkeeps hm hlt hroom

/-- One tick of the machine and its history, beside as many steps of the reference as retire. -/
theorem tick (hs : Steady False cfg entryPc (s, log))
    (hspaced : Ref.Spaced image entryPc cfg.reach N)
    (hle : (tickLogged (s, log)).2.length ≤ N)
    (hb : (tickLogged (s, log)).1.stats.renamed < 4294967296) :
    Steady False cfg entryPc (tickLogged (s, log)) ∧
      Tracked image entryPc N cfg (tickLogged (s, log)) := by
  suffices htrack : Tracked image entryPc N cfg (tickLogged (s, log)) by
    exact ⟨hs.tick (htrack.transfersKept hspaced hle) hb, htrack⟩
  revert hle hb
  have hbegin : Tracked image entryPc N cfg (s.beginCycle, log) :=
    ⟨h.beside.same (fun _ => rfl) ⟨rfl, rfl, rfl, rfl, rfl, rfl, rfl⟩ rfl, h.archPc, h.halted,
      h.trapped, h.exitCode, h.queueCap, h.next, h.ran⟩
  have hsteady := hs.beginCycle.commit
  have htrack := hbegin.commit hs.beginCycle
  refine tickLogged_cases
    (P := fun r log => log.length ≤ N → r.stats.renamed < 4294967296 →
      Tracked image entryPc N cfg (r, log))
    (fun _ _ => h) (fun hle _ => htrack hle) fun t log' hq hc hrunning hle hb => ?_
  rw [hq] at hsteady htrack
  replace htrack := htrack hle
  have hk := (writeback_keeps t).trans (execute_keeps _)
  have hexec := (hsteady.writeback hc hrunning).execute
  have hc' : 0 < t.writeback.execute.cycle := by rw [hk.cycle]; exact hc
  have hbeside : Beside image entryPc N log'.length t := htrack.beside
  have hside := (hbeside.writeback hsteady.coherent hc).same (t := t.writeback.execute)
    (fun _ => rfl)
    ⟨rfl, rfl, rfl, rfl, rfl, rfl, rfl⟩ rfl
  have hside' := hside.issue hspaced hexec.coherent hc' (hexec.led.issue hexec.coherent hc').2
  have hk' := hk.trans (issue_keeps _)
  have hissue := hexec.issue hc' (hk.done.trans hrunning)
  have htrack' := htrack.same hk' hside'
  have hup : Upfront False cfg entryPc log' t.writeback.execute.issue :=
    ⟨hissue.coherent, hissue.led, by rw [hk'.cycle]; exact hc, hk'.done.trans hrunning⟩
  exact htrack.same (behindCommit_keeps t) (htrack'.frontHalf hup hspaced hle hb)

end Tracked

/-- The committed state is the reference's after `n` steps. -/
structure Agrees (image : Memory) (entryPc : Word) (n : ℕ) (s : Cpu) : Prop where
  regs : ∀ r, s.reg r = (Ref.steps image entryPc n).2.regs r
  mem : ∀ a, s.mem.loadU8 a = (Ref.steps image entryPc n).1.loadU8 a
  pc : s.archPc = (Ref.steps image entryPc n).2.pc
  halted : s.halted = (Ref.steps image entryPc n).2.halted
  trapped : s.trapped = (Ref.steps image entryPc n).2.trapped
  exitCode : s.exitCode = (Ref.steps image entryPc n).2.exitCode

theorem Tracked.agrees (h : Tracked image entryPc N cfg (s, log)) :
    Agrees image entryPc log.length s where
  regs := h.beside.regs
  mem := fun a => congrArg (fun m => m.loadU8 a) h.beside.mem
  pc := h.archPc
  halted := h.halted
  trapped := h.trapped
  exitCode := h.exitCode

theorem history_tracked (h : cfg.Admissible) (k : ℕ)
    (hspaced : Ref.Spaced image entryPc cfg.reach N)
    (hle : (committed image cfg entryPc k).length ≤ N)
    (hb : (ticked image cfg entryPc k).stats.renamed < 4294967296) :
    Steady False cfg entryPc (history image cfg entryPc k) ∧
      Tracked image entryPc N cfg (history image cfg entryPc k) := by
  rw [← history_fst] at hb
  rw [committed] at hle
  induction k with
  | zero => exact ⟨.reset h image, .reset cfg⟩
  | succ k ih =>
    rw [history_succ] at hle hb ⊢
    obtain ⟨hrenamed, more, hmore, -⟩ := tickLogged_extends (history image cfg entryPc k)
    have hshort : (history image cfg entryPc k).2.length ≤
        (tickLogged (history image cfg entryPc k)).2.length := by
      rw [hmore]
      simp
    obtain ⟨hs, ht⟩ := ih (hshort.trans hle) (hrenamed.trans_lt hb)
    exact ht.tick hs hspaced hle hb

/-- The pipeline refines the reference: after every tick it agrees with as many steps as it has
retired instructions, and these are the instructions of the steps, in order. -/
theorem agrees_ticked (image : Memory) (cfg : Config) (entryPc : Word) (k : ℕ) (h : cfg.Admissible)
    (hb : (ticked image cfg entryPc k).stats.renamed < 4294967296)
    (htame : Ref.Tame image entryPc (ticked image cfg entryPc k).stats.retired) :
    Agrees image entryPc (ticked image cfg entryPc k).stats.retired (ticked image cfg entryPc k) ∧
      Along (fun m _ => m + 1) (Ran image entryPc) 0 (committed image cfg entryPc k) := by
  have hlen := @committed_length cfg entryPc image k
  have htrack := (history_tracked h k (htame.spaced cfg.reach) hlen.le hb).2
  rw [← hlen, ← history_fst]
  exact ⟨htrack.agrees, htrack.ran⟩

theorem agrees_ticked_skipping :
    Agrees skipping 0 (ticked skipping {} 0 20).stats.retired (ticked skipping {} 0 20) ∧
      Along (fun m _ => m + 1) (Ran skipping 0) 0 (committed skipping {} 0 20) :=
  agrees_ticked skipping {} 0 20 admissible_default (by decide +kernel) (by decide +kernel)

end OooCpu.Cpu
