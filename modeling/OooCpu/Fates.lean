import OooCpu.Moves
import OooCpu.Tracing

/-! # What becomes of every instruction

A traced run writes down the sequence numbers that each cycle retires and those
it squashes. Over any window of a run the two lists and what is still in flight
account for each renamed instruction once. -/
namespace OooCpu

namespace Observer

/-- Two observers who have noted the same of what retires and what is squashed. -/
structure SameNotes (o o' : Observer) : Prop where
  observing : o'.observing = o.observing
  retiredSeqs : o'.retiredSeqs = o.retiredSeqs
  squashedSeqs : o'.squashedSeqs = o.squashedSeqs

namespace SameNotes

theorem refl (o : Observer) : o.SameNotes o := ⟨rfl, rfl, rfl⟩

theorem trans {a b c : Observer} (h : a.SameNotes b) (h' : b.SameNotes c) : a.SameNotes c :=
  ⟨h'.observing.trans h.observing, h'.retiredSeqs.trans h.retiredSeqs,
    h'.squashedSeqs.trans h.squashedSeqs⟩

/-- An event line is no such note. -/
theorem event (o : Observer) (line : String) : o.SameNotes (o.event line) := by
  unfold Observer.event
  split <;> exact ⟨rfl, rfl, rfl⟩

end SameNotes

end Observer

namespace Cpu
variable {kinds : Prop} {mem : Memory} {cfg : Config} {entryPc : Word} {s t : Cpu}
    {log log' pre post : List Uop} {u v : Uop}
  {old ret sq : List ℕ}

/-- What the photographs say has retired, and what has been squashed. -/
def Traced.retiredSeqs (r : Traced) : List ℕ := r.records.flatMap fun s => s.obs.retiredSeqs
def Traced.squashedSeqs (r : Traced) : List ℕ := r.records.flatMap fun s => s.obs.squashedSeqs

/-- The sequence numbers in flight. -/
def seqs (s : Cpu) : List ℕ := s.window.map Uop.seq

/-- From `start` on, the photographs account for each instruction once: those in flight at `start`
and those renamed since have retired, in program order, or have been squashed, or are in flight. -/
structure Traced.Accounts (start : Cpu) (history : List Uop) (r : Traced) : Prop where
  fates : (r.retiredSeqs ++ r.squashedSeqs ++ r.cpu.seqs).Perm
    (start.seqs ++ List.range' start.stats.renamed (r.cpu.stats.renamed - start.stats.renamed))
  retired : r.retiredSeqs = (history.drop start.stats.retired).map Uop.seq
  ordered : (r.retiredSeqs ++ r.cpu.seqs).Pairwise (· < ·)

/-- The account of a cycle: `old` were in flight or have been renamed, `ret` retired and `sq` were
squashed in the cycles before. -/
structure Account (old : List ℕ) (lo : ℕ) (ret sq : List ℕ) (before : List Uop) (s : Cpu)
    (log : List Uop) : Prop where
  observing : s.obs.observing = true
  since : lo ≤ s.stats.renamed
  fates : (ret ++ s.obs.retiredSeqs ++ (sq ++ s.obs.squashedSeqs) ++ s.seqs).Perm
    (old ++ List.range' lo (s.stats.renamed - lo))
  retired : ∃ more, log = before ++ more ∧ s.obs.retiredSeqs = more.map Uop.seq
  ordered : (log.map Uop.seq ++ s.seqs).Pairwise (· < ·)
  below : ∀ a ∈ log.map Uop.seq ++ s.seqs, a < s.stats.renamed

/-- Machines that show the same instructions in flight, and have noted the same. -/
structure SameSeqs (s t : Cpu) : Prop where
  notes : s.obs.SameNotes t.obs
  renamed : t.stats.renamed = s.stats.renamed
  seqs : t.seqs = s.seqs

theorem seqs_of_mirrors {us : List Uop} {es : List RobEntry} (h : List.Forall₂ Mirrors us es) :
    es.map RobEntry.seq = us.map Uop.seq := by
  induction h with
  | nil => rfl
  | cons he _ ih => rw [List.map_cons, List.map_cons, he.seq, ih]

theorem fetchOne_notes (s : Cpu) : s.obs.SameNotes s.fetchOne.state.obs := by
  unfold fetchOne
  split
  · exact .refl _
  dsimp only
  split
  · exact .event _ _
  · exact .refl _

theorem decodeOne_notes (s : Cpu) : s.obs.SameNotes s.decodeOne.state.obs := by
  unfold decodeOne
  split
  · exact .refl _
  split
  · exact .refl _
  dsimp only
  split <;> (dsimp only [Flow.state]; split <;> exact ⟨rfl, rfl, rfl⟩)

theorem renameUop_notes (s : Cpu) (u : Uop) (rest : List Uop) (dest : ℕ) (freeList : FreeList) :
    s.obs.SameNotes (s.renameUop u rest dest freeList).obs := by
  have hkept {c : Prop} [Decidable c] (o : Observer) (l : List RenameRecord) :
      o.SameNotes (if c then { o with renameLog := l } else o) := by
    split <;> exact ⟨rfl, rfl, rfl⟩
  exact (Observer.SameNotes.event _ _).trans (hkept _ _)

theorem dispatchOne_notes (s : Cpu) : s.obs.SameNotes s.dispatchOne.state.obs := by
  have hstep := dispatchOne_step s
  generalize s.dispatchOne.state = t at hstep ⊢
  cases hstep <;> exact .refl _

theorem executeLoad_notes (s : Cpu) (u : Uop) (latency : ℕ) :
    s.obs.SameNotes (s.executeLoad u latency).1.obs := by
  unfold executeLoad
  dsimp only
  split
  · exact .refl _
  · exact .event _ _
  · exact .refl _

theorem attempt_turnedAway_notes {e : IssueQueue.Entry} {s' : Cpu} {why : Stall}
    (h : s.attempt e = .turnedAway s' why) : s.obs.SameNotes s'.obs := by
  simp only [attempt] at h
  split at h
  · obtain ⟨rfl, -⟩ := Attempt.turnedAway.inj h
    exact .refl _
  split at h
  · split at h
    · rename_i hx
      obtain ⟨rfl, -⟩ := Attempt.turnedAway.inj h
      have hload := executeLoad_notes s (s.withOperands (s.inflight e.rob)) e.latency
      rw [show s.executeLoad (s.withOperands (s.inflight e.rob)) e.latency = _ from hx] at hload
      exact hload.trans (.event _ _)
    · contradiction
  · split at h
    · obtain ⟨rfl, -⟩ := Attempt.turnedAway.inj h
      exact .refl _
    · contradiction

theorem attempt_launched_notes {e : IssueQueue.Entry} {s' : Cpu} {v : Uop} {latency unit : ℕ}
    {f : Fu}
    (h : s.attempt e = .launched s' v latency f unit) : s.obs.SameNotes s'.obs := by
  by_cases hl : (s.inflight e.rob).dec.isLoad = true
  · simp only [attempt] at h
    split at h
    · contradiction
    rw [if_pos hl] at h
    split at h
    · contradiction
    rename_i hx
    obtain ⟨rfl, -⟩ := Attempt.launched.inj h
    have hload := executeLoad_notes s (s.withOperands (s.inflight e.rob)) e.latency
    rwa [show s.executeLoad (s.withOperands (s.inflight e.rob)) e.latency = _ from hx] at hload
  · obtain ⟨-, -, booked, -, -, rfl⟩ := attempt_other h (by simpa using hl)
    exact .refl _

theorem launch_notes (s : Cpu) (e : IssueQueue.Entry) (u : Uop) (latency : ℕ) (f : Fu) (unit : ℕ) :
    s.obs.SameNotes (s.launch e u latency f unit).obs := by
  have hkept {c : Prop} [Decidable c] (o : Observer) (l : List IssueRecord) :
      o.SameNotes (if c then { o with issueLog := l } else o) := by
    split <;> exact ⟨rfl, rfl, rfl⟩
  exact (Observer.SameNotes.event _ _).trans (hkept _ _)

theorem seqs_replace (hw : s.window = pre ++ u :: post) (hw' : t.window = pre ++ v :: post)
    (hseq : v.seq = u.seq) : t.seqs = s.seqs := by
  simp only [seqs, hw, hw', List.map_append, List.map_cons, hseq]

namespace Account
variable {lo : ℕ} {before : List Uop} (h : Account old lo ret sq before s log)
include h

theorem same (hs : SameSeqs s t) : Account old lo ret sq before t log where
  observing := hs.notes.observing.trans h.observing
  since := hs.renamed.symm ▸ h.since
  fates := by
    rw [hs.notes.retiredSeqs, hs.notes.squashedSeqs, hs.seqs, hs.renamed]
    exact h.fates
  retired := by
    rw [hs.notes.retiredSeqs]
    exact h.retired
  ordered := by
    rw [hs.seqs]
    exact h.ordered
  below := by
    rw [hs.seqs, hs.renamed]
    exact h.below

theorem retire {e : RobEntry} {rob : Rob} (hcoh : s.Coherent cfg)
    (hp : s.rob.popHeadIfComplete = some (e, rob)) :
    Account old lo ret sq before (s.retire rob (s.inflight s.rob.head))
      (log ++ [s.inflight s.rob.head]) := by
  obtain ⟨-, hw, -⟩ := hcoh.retire hp
  generalize s.inflight s.rob.head = u at *
  have hseqs : s.seqs = u.seq :: (s.retire rob u).seqs := by rw [seqs, hw]; rfl
  obtain ⟨hobserving, hretired, hsquashed⟩ :
      (s.obs.retired u.seq).SameNotes (s.retire rob u).obs := by
    simp only [Cpu.retire]
    split
    · exact (Observer.SameNotes.event _ _).trans (.event _ _)
    · split
      · exact (Observer.SameNotes.event _ _).trans (.event _ _)
      · exact .event _ _
  simp only [Observer.retired, h.observing, if_true] at hobserving hretired hsquashed
  have hfates := h.fates
  rw [hseqs] at hfates
  have hsame : (log ++ [u]).map Uop.seq ++ (s.retire rob u).seqs = log.map Uop.seq ++ s.seqs := by
    rw [hseqs]
    simp
  refine ⟨hobserving, h.since, ?_, ?_, hsame ▸ h.ordered, hsame ▸ h.below⟩
  · rw [hretired, hsquashed]
    refine List.Perm.trans ?_ hfates
    simp only [List.append_assoc, List.singleton_append]
    refine (List.Perm.append_left _ (List.Perm.append_left _ ?_))
    simp only [← List.append_assoc]
    exact List.perm_middle.symm
  · obtain ⟨more, hlog, hmore⟩ := h.retired
    exact ⟨more ++ [u], by rw [hlog, List.append_assoc],
      by rw [hretired, hmore, List.map_append]; rfl⟩

/-- What is squashed leaves the window and is noted, in whatever order. -/
theorem squash {killed : List ℕ} (hobs : t.obs.observing = true)
    (hret : t.obs.retiredSeqs = s.obs.retiredSeqs)
    (hsq : t.obs.squashedSeqs = s.obs.squashedSeqs ++ killed)
    (hren : t.stats.renamed = s.stats.renamed)
    (hsub : t.seqs.Sublist s.seqs) (hkilled : s.seqs.Perm (killed ++ t.seqs)) :
    Account old lo ret sq before t log where
  observing := hobs
  since := hren.symm ▸ h.since
  fates := by
    rw [hret, hsq, hren]
    refine List.Perm.trans ?_ h.fates
    simp only [List.append_assoc]
    exact List.Perm.append_left _
      (List.Perm.append_left _ (List.Perm.append_left _ (List.Perm.append_left _ hkilled.symm)))
  retired := by
    rw [hret]
    exact h.retired
  ordered := h.ordered.sublist (hsub.append_left _)
  below := by
    rw [hren]
    exact fun a ha => h.below a ((hsub.append_left _).subset ha)

theorem recover {br : Uop} (hcoh : s.Coherent cfg) (hw : s.window = pre ++ br :: post)
    (hi : br.isIssued = true)
    (hb : br.dec.isBranch = true) : Account old lo ret sq before (s.recover br) log := by
  obtain ⟨-, hwin⟩ := hcoh.recover hw hi hb
  obtain ⟨-, hkilled, -⟩ := hcoh.buffered.truncate hw
  have hseqs : ((s.rob.truncateTo br.rob).1).map RobEntry.seq = post.reverse.map Uop.seq :=
    seqs_of_mirrors hkilled
  have hleft : s.seqs = (s.recover br).seqs ++ post.map Uop.seq := by
    rw [seqs, hw, seqs, hwin]
    simp
  obtain ⟨hobserving, hretired, hsquashed⟩ :
      (s.obs.squashed ((s.rob.truncateTo br.rob).1.map RobEntry.seq)).SameNotes
        (s.recover br).obs := .event _ _
  simp only [Observer.squashed, h.observing, if_true] at hobserving hretired hsquashed
  have hnoted : (s.recover br).obs.squashedSeqs =
      s.obs.squashedSeqs ++ post.reverse.map Uop.seq := by
    rw [hsquashed, hseqs]
  refine h.squash hobserving hretired hnoted rfl ?_ ?_
  · rw [hleft]
    exact List.sublist_append_left _ _
  · rw [hleft, List.map_reverse]
    exact List.perm_append_comm.trans ((List.reverse_perm _).symm.append_right _)

theorem squashInFlight (hcoh : s.Coherent cfg) :
    Account old lo ret sq before s.squashInFlight log := by
  obtain ⟨-, hempty⟩ := hcoh.squashInFlight
  obtain ⟨-, hkilled, -⟩ := hcoh.buffered.squashAll
  have hseqs : (s.rob.squashAll.1).map RobEntry.seq = s.window.reverse.map Uop.seq :=
    seqs_of_mirrors hkilled
  have hnone : s.squashInFlight.seqs = [] := by rw [seqs, hempty]; rfl
  obtain ⟨hobserving, hretired, hsquashed⟩ :
      (s.obs.squashed (s.rob.squashAll.1.map RobEntry.seq)).SameNotes s.squashInFlight.obs := by
    simp only [Cpu.squashInFlight]
    split
    · rename_i hlen
      rw [List.length_eq_zero_iff.mp hlen]
      simp only [Observer.squashed, List.map_nil, List.append_nil]
      split <;> exact ⟨rfl, rfl, rfl⟩
    · exact .event _ _
  simp only [Observer.squashed, h.observing, if_true] at hobserving hretired hsquashed
  have hnoted : s.squashInFlight.obs.squashedSeqs =
      s.obs.squashedSeqs ++ s.window.reverse.map Uop.seq := by
    rw [hsquashed, hseqs]
  refine h.squash hobserving hretired hnoted rfl ?_ ?_
  · rw [hnone]
    exact List.nil_sublist _
  · rw [hnone, List.append_nil, List.map_reverse]
    exact (List.reverse_perm _).symm

theorem renameUop {rest : List Uop} {dest : ℕ} {freeList : FreeList} (hcoh : s.Coherent cfg)
    (hb : s.stats.renamed < 4294967296) (hq : s.decodeQ = u :: rest)
    (hroom : s.renameQ.length < s.queueCap)
    (hfull : s.rob.full = false) (hck : u.dec.isBranch = true → s.ckpts.numFree ≠ 0)
    (halloc : u.dec.writesRd = true ∧ s.freeList.alloc = some (dest, freeList) ∨
      u.dec.writesRd = false ∧ freeList = s.freeList) :
    Account old lo ret sq before (s.renameUop u rest dest freeList) log := by
  obtain ⟨-, slot, hwin⟩ := hcoh.renameUop hb hq hroom hfull hck halloc
  have hseqs : (s.renameUop u rest dest freeList).seqs = s.seqs ++ [s.stats.renamed] := by
    have hnext : (s.renamed u dest slot).seq = s.stats.renamed :=
      hcoh.buffered.next.trans (u32_of_lt hb)
    rw [seqs, hwin, List.map_append, List.map_singleton, hnext]
    rfl
  obtain ⟨hobserving, hretired, hsquashed⟩ := renameUop_notes s u rest dest freeList
  have hren : (s.renameUop u rest dest freeList).stats.renamed = s.stats.renamed + 1 := rfl
  have hsince := h.since
  refine ⟨hobserving.trans h.observing, by omega, ?_, ?_, ?_, ?_⟩
  · have hrange : List.range' lo (s.stats.renamed + 1 - lo) =
        List.range' lo (s.stats.renamed - lo) ++ [s.stats.renamed] := by
      rw [Nat.succ_sub hsince, List.range'_concat, one_mul, Nat.add_sub_cancel' hsince]
    have hfates := h.fates.append_right [s.stats.renamed]
    rw [hretired, hsquashed, hseqs, hren, hrange]
    simpa only [List.append_assoc] using hfates
  · rw [hretired]
    exact h.retired
  · rw [hseqs, ← List.append_assoc, List.pairwise_append]
    refine ⟨h.ordered, List.pairwise_singleton _ _, fun a ha b hb' => ?_⟩
    rw [List.mem_singleton.mp hb']
    exact h.below a ha
  · rw [hseqs, ← List.append_assoc, hren]
    exact forall_mem_concat (fun a ha => (h.below a ha).trans (Nat.lt_succ_self _))
      (Nat.lt_succ_self _)

/-- A move of one uop that keeps its number. -/
theorem replace (hnotes : s.obs.SameNotes t.obs) (hren : t.stats.renamed = s.stats.renamed)
    (hw : s.window = pre ++ u :: post) (hw' : t.window = pre ++ v :: post) (hseq : v.seq = u.seq) :
    Account old lo ret sq before t log :=
  h.same ⟨hnotes, hren, seqs_replace hw hw' hseq⟩

/-- Every move keeps the account. -/
theorem move {φ : Phase} (hcoh : s.Coherent cfg) (hc : 0 < s.cycle) (hm : Move s log φ t log') :
    Account old lo ret sq before t log' := by
  cases hm with
  | retired hp => exact h.retire hcoh hp
  | emptied => exact h.squashInFlight hcoh
  | landed hq =>
    obtain ⟨-, pre, post, hw, hw'⟩ := hcoh.complete hc hq
    exact h.replace (.event _ _) rfl hw hw' rfl
  | cleared booked => exact h.same ⟨.refl _, rfl, rfl⟩
  | executed => exact h.same ⟨.refl _, rfl, rfl⟩
  | turnedAway he hready ha =>
    obtain ⟨-, hwin, -, -⟩ := hcoh.turnAway ha
    refine h.same ⟨attempt_turnedAway_notes ha, ?_, by rw [seqs, hwin, seqs]⟩
    rcases attempt_turnedAway ha with rfl | ⟨_, _, _, _, rfl⟩ <;> rfl
  | @launched e s' u latency unit f he hready ha =>
    obtain ⟨-, pre, post, hw, hw'⟩ := hcoh.launch hc he ha
    obtain ⟨hissues, -⟩ := attempt_issues hc ha
    refine h.replace
      ((attempt_launched_notes ha).trans (launch_notes _ _ _ _ _ _)) ?_ hw hw' hissues.seq
    obtain ⟨_, _, _, _, _, rfl, -, -⟩ := attempt_frame ha
    rfl
  | charged stalls => exact h.same ⟨.refl _, rfl, rfl⟩
  | recovered hmem hi hb =>
    obtain ⟨pre, post, hw⟩ := List.append_of_mem hmem
    exact h.recover hcoh hw hi hb
  | dispatched =>
    have hstep := dispatchOne_step s
    have hnotes := dispatchOne_notes s
    generalize s.dispatchOne.state = t at hstep hnotes ⊢
    cases hstep with
    | idle => exact h
    | stalled c => exact h.same ⟨hnotes, rfl, rfl⟩
    | dispatched hq hseat hslot =>
      obtain ⟨-, d, hw, hw'⟩ := hcoh.dispatchUop hc hq hseat hslot
      exact h.replace hnotes rfl hw hw' rfl
  | renamed hb =>
    have hstep := renameOne_step s
    generalize s.renameOne.state = t at hstep ⊢
    cases hstep with
    | idle => exact h
    | stalled c => exact h.same ⟨.refl _, rfl, rfl⟩
    | renamed hq hroom hfull hck halloc => exact h.renameUop hcoh hb hq hroom hfull hck halloc
  | decoded =>
    have hstep := decodeOne_step s
    have hnotes := decodeOne_notes s
    generalize s.decodeOne.state = t at hstep hnotes ⊢
    cases hstep <;> exact h.same ⟨hnotes, rfl, rfl⟩
  | fetched hst =>
    have hstep := fetchOne_step s
    have hnotes := fetchOne_notes s
    generalize s.fetchOne.state = t at hstep hnotes ⊢
    cases hstep <;> exact h.same ⟨hnotes, rfl, rfl⟩

end Account

/-- The same machine, watched or not, commits the same. -/
theorem tickLogged_alike (h : Alike s t) :
    Alike (tickLogged (s, log)).1 (tickLogged (t, log)).1 ∧
      (tickLogged (t, log)).2 = (tickLogged (s, log)).2 := by
  let R (p q : Cpu × List Uop) : Prop := Alike p.1 q.1 ∧ q.2 = p.2
  have hpass (p q : Cpu × List Uop) (hpq : R p q) :
      (commitOneLogged p).Alike R (commitOneLogged q) := by
    obtain ⟨s, log⟩ := p
    obtain ⟨t, log'⟩ := q
    obtain ⟨⟨o, ho⟩, hlog⟩ := hpq
    dsimp only at ho hlog
    subst ho hlog
    simp only [commitOneLogged]
    split
    · exact .stop ⟨⟨o, rfl⟩, rfl⟩
    · next rob _ =>
      have hr : Alike (s.retire rob (s.inflight s.rob.head))
        (retire { s with obs := o } rob (s.inflight s.rob.head)) :=
        retire_alike rob _ ⟨o, rfl⟩
      rw [hr.done]
      split
      · exact .stop ⟨squashInFlight_alike hr, rfl⟩
      · exact .more ⟨hr, rfl⟩
  have hcommit : R (commitLogged (s.beginCycle, log)) (commitLogged (t.beginCycle, log)) := by
    have hbegin : R (s.beginCycle, log) (t.beginCycle, log) := by
      obtain ⟨o, rfl⟩ := h
      exact ⟨⟨_, rfl⟩, rfl⟩
    have hwidth : t.beginCycle.cfg.width = s.beginCycle.cfg.width := by
      obtain ⟨o, rfl⟩ := h
      rfl
    simp only [commitLogged, hwidth]
    exact forLoop_simulates R hpass _ hbegin
  refine ⟨by rw [tickLogged_fst, tickLogged_fst]; exact tick_alike h, ?_⟩
  simp only [tickLogged, h.done, hcommit.1.done]
  split
  · rfl
  split
  · exact hcommit.2
  · exact hcommit.2

theorem Steady.alike (h : Steady kinds cfg entryPc (s, log)) (ha : Alike s t) :
    Steady kinds cfg entryPc (t, log) := by
  obtain ⟨o, rfl⟩ := ha
  exact ⟨{ h.coherent with sized := { h.coherent.sized with } },
    h.led.same ⟨rfl, rfl, rfl, rfl, rfl, rfl, rfl⟩ rfl, h.drained⟩

/-- The account between two cycles: what was in flight or has been renamed since the history had
`from` entries. -/
structure Balance (old : List ℕ) (lo start : ℕ) (ret sq : List ℕ) (s : Cpu) (log : List Uop) :
    Prop where
  since : lo ≤ s.stats.renamed
  fates : (ret ++ sq ++ s.seqs).Perm (old ++ List.range' lo (s.stats.renamed - lo))
  start_le : start ≤ log.length
  retired : ret = (log.drop start).map Uop.seq
  ordered : (log.map Uop.seq ++ s.seqs).Pairwise (· < ·)
  below : ∀ a ∈ log.map Uop.seq ++ s.seqs, a < s.stats.renamed

namespace Balance
variable {lo start : ℕ} (h : Balance old lo start ret sq s log)
include h

theorem alike (ha : Alike s t) : Balance old lo start ret sq t log := by
  obtain ⟨o, rfl⟩ := ha
  exact ⟨h.since, h.fates, h.start_le, h.retired, h.ordered, h.below⟩

/-- The account may be opened anew at any time. -/
theorem opened : Balance s.seqs s.stats.renamed log.length [] [] s log where
  since := le_rfl
  fates := by simp
  start_le := le_rfl
  retired := by simp
  ordered := h.ordered
  below := h.below

/-- A cycle that is watched adds what it has noted. -/
theorem tick (hs : Steady kinds cfg entryPc (s, log)) (hled : Ledger cfg (s.cycle + 1) s)
    (hprompt : Prompt (s.cycle + 1) s)
    (hb : s.tick.stats.renamed < 4294967296) (hd : s.done = false) (ho : s.obs.observing = true) :
    Balance old lo start (ret ++ s.tick.obs.retiredSeqs) (sq ++ s.tick.obs.squashedSeqs) s.tick
      (tickLogged (s, log)).2 := by
  have hopen : Account old lo ret sq log s.beginCycle log := by
    refine ⟨ho, h.since, ?_, ⟨[], by simp, rfl⟩, h.ordered, h.below⟩
    change (ret ++ [] ++ (sq ++ []) ++ s.seqs).Perm (old ++ List.range' lo (s.stats.renamed - lo))
    rw [List.append_nil, List.append_nil]
    exact h.fates
  have hfst := tickLogged_fst (s, log)
  have hclosed : Account old lo ret sq log (tickLogged (s, log)).1 (tickLogged (s, log)).2 :=
    hs.tick_preserves (P := fun _ t log' => Account old lo ret sq log t log')
      (fun hcoh hc hm ht => ht.move hcoh hc hm) (fun _ ht => ht) hled hprompt
        (by rw [hfst]; exact hb) hd hopen
  rw [hfst] at hclosed
  obtain ⟨more, hlog, hmore⟩ := hclosed.retired
  refine ⟨hclosed.since, hclosed.fates, ?_, ?_, hclosed.ordered, hclosed.below⟩
  · rw [hlog, List.length_append]
    exact Nat.le_add_right_of_le h.start_le
  · rw [hmore, hlog, List.drop_append_of_le_length h.start_le, List.map_append, ← h.retired]

end Balance

/-- Sequence numbers last to cycle `c`, and committed stores have left committed code alone. -/
structure Lasting (mem : Memory) (cfg : Config) (entryPc : Word) (c : ℕ) : Prop where
  renamed : (ticked mem cfg entryPc c).stats.renamed < 4294967296
  kept : NoSelfMod (committed mem cfg entryPc c)

/-- Nothing is taken back from the history. -/
theorem committed_grows {c c' : ℕ} (hle : c ≤ c') :
    committed mem cfg entryPc c <+: committed mem cfg entryPc c' := by
  induction hle with
  | refl => exact List.prefix_rfl
  | @step c' _ ih =>
    obtain ⟨-, more, hmore, -⟩ := tickLogged_extends (history mem cfg entryPc c')
    refine ih.trans ⟨more, ?_⟩
    rw [committed, committed, history_succ, hmore]

theorem Lasting.mono {c c' : ℕ} (h : Lasting mem cfg entryPc c') (hle : c ≤ c') :
    Lasting mem cfg entryPc c := by
  refine ⟨?_, h.kept.mono fun u hu => (committed_grows hle).subset hu⟩
  replace h := h.renamed
  induction hle with
  | refl => exact h
  | @step c' _ ih =>
    obtain ⟨hrenamed, -⟩ := tickLogged_extends (history mem cfg entryPc c')
    rw [← history_succ, history_fst, history_fst] at hrenamed
    exact ih (hrenamed.trans_lt h)

variable {c traceFrom traceMax maxCycles n : ℕ} {r : Traced}

/-- A cycle of the run, watched. -/
theorem Balance.tick_watched {lo start : ℕ}
    (h : Balance old lo start ret sq s (committed mem cfg entryPc s.cycle))
    (hcfg : cfg.Admissible) (hr : Reached mem cfg entryPc s)
    (hlast : Lasting mem cfg entryPc (s.cycle + 1))
    (hd : s.done = false) :
    Balance old lo start (ret ++ (s.observe true).tick.obs.retiredSeqs)
      (sq ++ (s.observe true).tick.obs.squashedSeqs)
      (s.observe true).tick (committed mem cfg entryPc (s.cycle + 1)) := by
  have ha : Alike (ticked mem cfg entryPc s.cycle) (s.observe true) := hr.observe true
  have hnow := hlast.mono (Nat.le_succ s.cycle)
  have hs := (steady_ticked hcfg mem s.cycle hnow.kept hnow.renamed).alike ha
  obtain ⟨hled, hprompt⟩ := due_ticked mem hcfg s.cycle hnow.renamed hnow.kept
  have htick : Alike (ticked mem cfg entryPc (s.cycle + 1)) (s.observe true).tick := by
    rw [ticked_succ]
    exact tick_alike ha
  have hb : (s.observe true).tick.stats.renamed < 4294967296 := by
    obtain ⟨o, ho⟩ := htick
    rw [ho]
    exact hlast.renamed
  have hback : (ticked mem cfg entryPc s.cycle).SameBack (s.observe true) := by
    obtain ⟨o, ho⟩ := ha
    rw [ho]
    exact ⟨rfl, rfl, rfl, rfl, rfl, rfl, rfl, rfl⟩
  have hled' := hled.same hback
  have hprompt' := hprompt.sameBack hback
  rw [← hback.cycle] at hled' hprompt'
  rw [committed_succ, ← (tickLogged_alike ha).2]
  exact (h.alike (observe_alike s true)).tick hs hled' hprompt' hb hd rfl

theorem cycle_le_traceLoop (traceFrom traceMax maxCycles n : ℕ) (r : Traced) :
    r.cpu.cycle ≤ (traceLoop traceFrom traceMax maxCycles n r).cpu.cycle := by
  induction n generalizing r with
  | zero => exact le_rfl
  | succ n ih =>
    simp only [traceLoop]
    split
    · exact le_rfl
    · rename_i hgo
      simp only [Bool.or_eq_true, not_or, Bool.not_eq_true] at hgo
      have hcycle : (r.cycle traceFrom).cpu.cycle = r.cpu.cycle + 1 := tick_cycle hgo.1.1
      have hle := ih (r.cycle traceFrom)
      omega

theorem reached_traceLoop (h : Reached mem cfg entryPc r.cpu) :
    Reached mem cfg entryPc (traceLoop traceFrom traceMax maxCycles n r).cpu := by
  induction n generalizing r with
  | zero => exact h
  | succ n ih =>
    simp only [traceLoop]
    split
    · exact h
    · rename_i hgo
      simp only [Bool.or_eq_true, not_or, Bool.not_eq_true] at hgo
      exact ih ((h.observe _).tick hgo.1.1)

/-- What the traced loop keeps true of its notes. -/
structure Traced.Balanced (mem : Memory) (cfg : Config) (entryPc : Word) (traceFrom : ℕ)
    (r : Traced) : Prop where
  reached : Reached mem cfg entryPc r.cpu
  idle : r.cpu.cycle < traceFrom → r.records = []
  balance : Balance (ticked mem cfg entryPc (min (traceFrom - 1) r.cpu.cycle)).seqs
    (ticked mem cfg entryPc (min (traceFrom - 1) r.cpu.cycle)).stats.renamed
    (ticked mem cfg entryPc (min (traceFrom - 1) r.cpu.cycle)).stats.retired r.retiredSeqs
      r.squashedSeqs r.cpu
    (committed mem cfg entryPc r.cpu.cycle)

namespace Traced.Balanced

theorem cycle (h : r.Balanced mem cfg entryPc traceFrom) (hcfg : cfg.Admissible)
    (hlast : Lasting mem cfg entryPc (r.cpu.cycle + 1)) (hd : r.cpu.done = false) :
    (r.cycle traceFrom).Balanced mem cfg entryPc traceFrom := by
  have hw := h.reached.observe (traceFrom ≤ r.cpu.cycle + 1)
  have hcycle : (r.cpu.observe (traceFrom ≤ r.cpu.cycle + 1)).tick.cycle = r.cpu.cycle + 1 :=
    tick_cycle hd
  have hnext : Reached mem cfg entryPc (r.cpu.observe (traceFrom ≤ r.cpu.cycle + 1)).tick :=
    hw.tick hd
  have hwatched := h.balance.tick_watched hcfg h.reached hlast hd
  by_cases hfrom : traceFrom ≤ r.cpu.cycle + 1
  · have hdec : decide (traceFrom ≤ r.cpu.cycle + 1) = true := decide_eq_true hfrom
    simp only [hdec] at hcycle hnext
    have hstep : r.cycle traceFrom = ⟨(r.cpu.observe true).tick,
        r.records ++ [(r.cpu.observe true).tick]⟩ := by
      simp only [Traced.cycle, hdec, hcycle, if_pos hfrom]
    have hmin : min (traceFrom - 1) r.cpu.cycle = min (traceFrom - 1) (r.cpu.cycle + 1) := by omega
    rw [hstep]
    refine ⟨hnext, fun hlt => ?_, ?_⟩
    · rw [hcycle] at hlt
      omega
    · simp only [Traced.retiredSeqs, Traced.squashedSeqs, List.flatMap_append,
        List.flatMap_singleton, hcycle, ← hmin]
      exact hwatched
  · have hdec : decide (traceFrom ≤ r.cpu.cycle + 1) = false := decide_eq_false hfrom
    have hempty := h.idle (by omega)
    simp only [hdec] at hcycle hnext
    have hstep : r.cycle traceFrom = ⟨(r.cpu.observe false).tick, []⟩ := by
      simp only [Traced.cycle, hdec, hcycle, if_neg hfrom, hempty]
    have hmin : min (traceFrom - 1) (r.cpu.cycle + 1) = r.cpu.cycle + 1 := by omega
    rw [hstep]
    refine ⟨hnext, fun _ => rfl, ?_⟩
    simp only [hcycle, hmin]
    have hplain : Alike (r.cpu.observe true).tick (ticked mem cfg entryPc (r.cpu.cycle + 1)) := by
      rw [ticked_succ]
      exact tick_alike (h.reached.observe true).symm
    have hopened := (hwatched.alike hplain).opened
    rw [committed_length] at hopened
    refine hopened.alike ?_
    rw [← hcycle]
    exact hnext

theorem loop (h : r.Balanced mem cfg entryPc traceFrom) (hcfg : cfg.Admissible)
    (hlast : Lasting mem cfg entryPc (traceLoop traceFrom traceMax maxCycles n r).cpu.cycle) :
    (traceLoop traceFrom traceMax maxCycles n r).Balanced mem cfg entryPc traceFrom := by
  induction n generalizing r with
  | zero => exact h
  | succ n ih =>
    revert hlast
    simp only [traceLoop]
    split
    · exact fun _ => h
    · rename_i hgo
      intro hlast
      simp only [Bool.or_eq_true, not_or, Bool.not_eq_true] at hgo
      have hd : r.cpu.done = false := hgo.1.1
      have hcycle : (r.cycle traceFrom).cpu.cycle = r.cpu.cycle + 1 := tick_cycle hd
      have hle := cycle_le_traceLoop traceFrom traceMax maxCycles n (r.cycle traceFrom)
      exact ih (h.cycle hcfg (hlast.mono (hcycle ▸ hle)) hd) hlast

end Traced.Balanced

/-- Whichever window of a run is traced, the photographs account for every instruction once. -/
theorem traced_accounts (mem : Memory) (cfg : Config) (entryPc : Word)
    (traceFrom traceMax maxCycles : ℕ)
    (h : cfg.Admissible)
    (hb : (runWithTrace (reset mem cfg entryPc) traceFrom traceMax maxCycles).cpu.stats.renamed <
      4294967296)
    (hself : NoSelfMod (committed mem cfg entryPc
      (runWithTrace (reset mem cfg entryPc) traceFrom traceMax maxCycles).cpu.cycle)) :
    let r := runWithTrace (reset mem cfg entryPc) traceFrom traceMax maxCycles
    r.Accounts (ticked mem cfg entryPc (min (traceFrom - 1) r.cpu.cycle))
      (committed mem cfg entryPc r.cpu.cycle) := by
  intro r
  have hstart : Traced.Balanced mem cfg entryPc traceFrom { cpu := reset mem cfg entryPc } := by
    refine ⟨.reset, fun _ => rfl, ?_⟩
    have hzero : min (traceFrom - 1) (reset mem cfg entryPc).cycle = 0 := Nat.min_zero _
    have hnone : (reset mem cfg entryPc).seqs = [] := rfl
    rw [show Traced.cpu { cpu := reset mem cfg entryPc } = reset mem cfg entryPc from rfl, hzero]
    refine ⟨le_rfl, .refl _, le_rfl, rfl, ?_, fun a ha => ?_⟩
    · exact List.Pairwise.nil
    · exact absurd ha List.not_mem_nil
  let last := traceLoop traceFrom traceMax maxCycles (maxCycles - 0)
    { cpu := reset mem cfg entryPc }
  have hreached : Reached mem cfg entryPc last.cpu := reached_traceLoop .reset
  have hrenamed : (ticked mem cfg entryPc last.cpu.cycle).stats.renamed < 4294967296 := by
    obtain ⟨o, ho⟩ := hreached.symm
    rw [ho]
    exact hb
  have hend : last.Balanced mem cfg entryPc traceFrom := hstart.loop h ⟨hrenamed, hself⟩
  have hbalance := hend.balance.alike (observe_alike _ false)
  refine ⟨hbalance.fates, hbalance.retired, ?_⟩
  have hsuffix :
      r.retiredSeqs.Sublist ((committed mem cfg entryPc last.cpu.cycle).map Uop.seq) := by
    rw [show r.retiredSeqs = _ from hbalance.retired]
    exact (List.drop_sublist _ _).map _
  exact hbalance.ordered.sublist (hsuffix.append_right _)

theorem traced_accounts_skipping :
    let r := runWithTrace (reset skipping {} 0) 2 5 9
    r.Accounts (ticked skipping {} 0 (min (2 - 1) r.cpu.cycle))
      (committed skipping {} 0 r.cpu.cycle) :=
  traced_accounts skipping {} 0 2 5 9 admissible_default (by decide +kernel) (by decide +kernel)

end Cpu

end OooCpu
