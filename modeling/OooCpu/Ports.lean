import OooCpu.Pacing
import OooCpu.Provisioning

/-! # Units and ports that are always enough

A cycle starts at most `width` operations, so a class with a unit for each of them in
every cycle of its latency never refuses one, and neither do as many writeback ports.
Loads that are sent back take a unit as well, and may all be sent back at once. -/
namespace OooCpu

/-- How many units of a class one cycle may take. -/
def Config.rate (cfg : Config) : Fu → ℕ
  | .mem => cfg.iqSize
  | _ => cfg.width

/-- How many cycles an operation may keep its unit. -/
def Config.span (cfg : Config) : Fu → ℕ
  | .alu => max 1 cfg.aluLatency
  | .branch => max 1 cfg.branchLatency
  | .div => max 1 cfg.divLatency
  | .mem => max 1 cfg.memLatency
  | .mul | .none => 1

def Config.units (cfg : Config) : Fu → ℕ
  | .alu => cfg.numAlu
  | .branch => cfg.numBranch
  | .mul => cfg.numMul
  | .div => cfg.numDiv
  | .mem => cfg.numMem
  | .none => 0

/-- The units and ports that outlast the fastest supply of operations. -/
def Config.Wide (cfg : Config) : Stall → Prop
  | .aluPort => cfg.width * max 1 cfg.aluLatency ≤ cfg.numAlu
  | .branchPort => cfg.width * max 1 cfg.branchLatency ≤ cfg.numBranch
  | .mulPort => cfg.width ≤ cfg.numMul
  | .divPort => cfg.width * max 1 cfg.divLatency ≤ cfg.numDiv
  | .memPort => cfg.iqSize * max 1 cfg.memLatency ≤ cfg.numMem
  | .cdb => cfg.width * cfg.longest ≤ cfg.numCdb
  | _ => False

namespace Cpu
variable {kinds : Prop} {cfg : Config} {entryPc : Word} {s s' t : Cpu} {e : IssueQueue.Entry}
    {u v : Uop} {f g : Fu} {c why : Stall}
  {now issued tried latency unit : ℕ}

theorem wide_port (hf : f ≠ .none) (h : cfg.Wide (portStall f)) :
    cfg.rate f * cfg.span f ≤ cfg.units f := by
  cases f
  case none => exact absurd rfl hf
  case mul => simpa [Config.Wide, portStall, Config.rate, Config.span, Config.units] using h
  all_goals exact h

theorem span_pos (cfg : Config) (f : Fu) : 0 < cfg.span f := by
  cases f <;> simp [Config.span]

/-- Units taken and results on their way, when the cycle has started `issued` operations and tried
`tried`. -/
structure Supplied (cfg : Config) (now issued tried : ℕ) (s : Cpu) : Prop where
  count : ∀ f, f ≠ .none → (s.fuFreeAt f).length = cfg.units f
  units : ∀ f, f ≠ .none →
    Pacing.Paced (cfg.rate f) (cfg.span f) now (if f = .mem then tried else issued) (s.fuFreeAt f)
  ports : Pacing.Paced cfg.width cfg.longest now issued (dates s.onTheWay)

namespace Supplied

theorem reset (mem : Memory) : Supplied cfg 1 0 0 (Cpu.reset mem cfg entryPc) where
  count f _ := by cases f <;> simp [Cpu.reset, Config.units] at *
  units f _ := by
    refine .of_le fun t ht => ?_
    have hzero : t = 0 := by cases f <;> simp_all [Cpu.reset]
    omega
  ports := .of_le fun t ht => by simp [dates, onTheWay, Cpu.reset] at ht

variable (h : Supplied cfg now issued tried s)
include h

theorem same (hu : t.fuFreeAt = s.fuFreeAt) (hway : (dates t.onTheWay).Subperm (dates s.onTheWay)) :
    Supplied cfg now issued tried t :=
  ⟨fun f hf => by rw [hu]; exact h.count f hf, fun f hf => by rw [hu]; exact h.units f hf,
    h.ports.subperm hway⟩

theorem sameBack (hs : s.SameBack t) : Supplied cfg now issued tried t := by
  refine h.same hs.fuFreeAt ?_
  rw [onTheWay, onTheWay, hs.executing, hs.wbFast, hs.wbSlow]

/-- The next cycle starts over. -/
theorem next (hissued : issued ≤ cfg.width) (htried : tried ≤ cfg.iqSize) :
    Supplied cfg (now + 1) 0 0 s where
  count := h.count
  units f hf := by
    have hnext := (h.units f hf).next (by cases f <;> simpa [Config.rate])
    rwa [ite_self]
  ports := h.ports.next hissued

theorem writeback : Supplied cfg now issued tried s.writeback :=
  writeback_preserves (P := Supplied cfg now issued tried) (fun ht hq =>
    ht.same rfl ((((List.sublist_cons_self _ _).filter books).map Uop.wbCycle).subperm.trans
      (dates_perm hq).symm.subperm))
    (fun _ ht => ht.same rfl (List.Subperm.refl _)) h

theorem execute : Supplied cfg now issued tried s.execute :=
  h.same rfl (dates_perm (execute_queues s.executing s.wbFast s.wbSlow (s.cycle + 1))).subperm

theorem squashInFlight : Supplied cfg now issued tried s.squashInFlight :=
  h.same rfl (List.nil_subperm)

theorem recover (br : Uop) : Supplied cfg now issued tried (s.recover br) := by
  refine h.same rfl ?_
  have hsplit := dates_perm (recover_onTheWay s br)
  rw [dates_append] at hsplit
  exact (List.sublist_append_left _ _).subperm.trans hsplit.symm.subperm

end Supplied

/-- A refused candidate found no unit or no port, or is a load that has to wait for a store. -/
theorem attempt_refused (h : s.attempt e = .turnedAway s' why) :
    (why = portStall (unitOf (s.inflight e.rob).dec) ∧
      s.freeUnit (unitOf (s.inflight e.rob).dec) = none) ∨
        (why = .cdb ∧ s.cfg.numCdb ≤ s.cdbBooked ((s.cycle + e.latency) % s.cdbWindow)) ∨
          why = .storeOrder := by
  simp only [attempt] at h
  split at h
  · rename_i hunit
    obtain ⟨-, rfl⟩ := Attempt.turnedAway.inj h
    exact .inl ⟨rfl, hunit⟩
  split at h
  · split at h
    · obtain ⟨-, rfl⟩ := Attempt.turnedAway.inj h
      exact .inr (.inr rfl)
    · contradiction
  · split at h
    · rename_i hbook
      obtain ⟨-, rfl⟩ := Attempt.turnedAway.inj h
      refine .inr (.inl ⟨rfl, ?_⟩)
      split at hbook
      · by_contra hroom
        simp [reserveCdb, hroom] at hbook
      · contradiction
    · contradiction

/-- Without a free unit, every unit of the class is taken past this cycle. -/
theorem units_taken (h : s.freeUnit f = none) :
    f ≠ .none ∧ (s.fuFreeAt f).countP (fun t => s.cycle < t) = (s.fuFreeAt f).length := by
  simp only [freeUnit] at h
  split at h
  · contradiction
  rename_i hf
  refine ⟨hf, List.countP_eq_length.mpr fun t ht => ?_⟩
  have hbusy := List.findIdx?_eq_none_iff.mp h t ht
  simpa using hbusy

/-- With units and ports to spare, nobody is refused for want of one. -/
theorem Supplied.not_refused (h : Supplied cfg s.cycle issued tried s)
    (hled : Ledger cfg (s.cycle + 1) s)
    (hcoh : s.Coherent cfg) (he : e ∈ s.iq.entries) (hissued : issued < cfg.width)
    (htried : tried < cfg.iqSize)
    (ha : s.attempt e = .turnedAway s' why) : ¬cfg.Wide why := by
  intro hwide
  rcases attempt_refused ha with ⟨rfl, hunit⟩ | ⟨rfl, hbooked⟩ | rfl
  · obtain ⟨hf, htaken⟩ := units_taken hunit
    have hlt := (h.units _ hf).outstanding_lt (by split <;> rename_i hm <;> simp_all [Config.rate])
      (span_pos _ _)
    have hle := wide_port hf hwide
    rw [htaken, h.count _ hf] at hlt
    omega
  · have hlat : e.latency = latencyOf cfg (s.inflight e.rob).dec :=
      congrArg IssueQueue.Entry.latency (hcoh.candidate he).2.2
    obtain ⟨hone, hlong⟩ := Ledger.latencyOf_le cfg (s.inflight e.rob).dec
    rw [← hlat] at hone hlong
    have hwindow := hled.window
    have hle : cfg.width * cfg.longest ≤ cfg.numCdb := hwide
    have hlt := h.ports.due_lt (d := e.latency - 1) hissued (by omega)
    rw [hled.census _ (Nat.le_add_right _ _) (by omega), hcoh.sized.cfg_eq] at hbooked
    dsimp only at hbooked
    rw [show s.cycle + (e.latency - 1) + 1 = s.cycle + e.latency by omega] at hlt
    omega
  · exact hwide

theorem countP_occupy (s : Cpu) (f g : Fu) (i t d : ℕ) :
    (s.occupy f i t g).countP (fun t => s.cycle + d < t) ≤
      (s.fuFreeAt g).countP (fun t => s.cycle + d < t) + if s.cycle + d < t then 1 else 0 := by
  simp only [occupy]
  split
  · rename_i hg
    subst hg
    by_cases hi : i < (s.fuFreeAt g).length
    · rw [List.countP_set hi]
      simp only [decide_eq_true_eq]
      omega
    · rw [List.set_eq_of_length_le (Nat.le_of_not_lt hi)]
      exact Nat.le_add_right _ _
  · exact Nat.le_add_right _ _

theorem latencyOf_le_span (cfg : Config) (d : Decoded) (hp : pipelined (unitOf d) = false) :
    latencyOf cfg d ≤ cfg.span (unitOf d) := by
  simp only [unitOf, latencyOf, Config.span, pipelined] at *
  cases hk : d.kind <;> simp_all

/-- How far ahead a launch takes its unit. -/
theorem launched_until (hcoh : s.Coherent cfg) (he : e ∈ s.iq.entries)
    (ha : s.attempt e = .launched s' v latency f unit) :
    (if pipelined f then 1 else latency) ≤ cfg.span f := by
  have hspan := span_pos cfg f
  split
  · exact hspan
  rename_i hp
  have hlat : e.latency = latencyOf cfg (s.inflight e.rob).dec :=
    congrArg IssueQueue.Entry.latency (hcoh.candidate he).2.2
  obtain ⟨rfl, -⟩ := attempt_unit ha
  have hle := latencyOf_le_span cfg (s.inflight e.rob).dec (by simpa using hp)
  by_cases hl : (s.inflight e.rob).dec.isLoad = true
  · rcases (attempt_load ha hl).2.1 with h | h <;> omega
  · have := (attempt_other ha (by simpa using hl)).2.1
    omega

/-- What taking unit `i` of class `f` until cycle `n` leaves of the supply. -/
private theorem Supplied.take (h : Supplied cfg s.cycle issued tried s) {issued' i n : ℕ}
    (hcount : issued ≤ issued')
    (hgrows : f ≠ .mem → issued' = issued + 1) (hn : n ≤ s.cycle + cfg.span f) (hg : g ≠ .none) :
    (s.occupy f i n g).length = cfg.units g ∧
      Pacing.Paced (cfg.rate g) (cfg.span g) s.cycle (if g = .mem then tried + 1
        else issued') (s.occupy f i n g) := by
  have hold := h.units g hg
  constructor
  · rw [← h.count g hg, occupy]
    split
    · rename_i he
      rw [he, List.length_set]
    · rfl
  by_cases he : g = f
  · subst he
    have hpush := hold.push hn (countP_occupy s g g i n)
    split
    · rename_i hm
      rwa [if_pos hm] at hpush
    · rename_i hm
      rw [if_neg hm] at hpush
      rwa [hgrows hm]
  · rw [occupy, if_neg he]
    refine hold.mono ?_
    split <;> omega

theorem Supplied.turnAway (h : Supplied cfg s.cycle issued tried s)
    (ha : s.attempt e = .turnedAway s' why) : Supplied cfg s'.cycle issued (tried + 1) s' := by
  have hmore : Supplied cfg s.cycle issued (tried + 1) s :=
    ⟨h.count, fun f hf => (h.units f hf).mono (by split <;> omega), h.ports⟩
  rcases attempt_turnedAway_cases ha with ⟨rfl, -⟩ | ⟨-, -, unit, _, _, -, rfl⟩
  · exact hmore
  · have hn : s.cycle + 1 ≤ s.cycle + cfg.span .mem := Nat.add_le_add_left (span_pos cfg .mem) _
    have htake (g : Fu) (hg : g ≠ .none) :=
      h.take (i := unit) le_rfl (fun hm => absurd rfl hm) hn hg
    exact ⟨fun g hg => (htake g hg).1, fun g hg => (htake g hg).2, h.ports⟩

theorem Supplied.launch (h : Supplied cfg s.cycle issued tried s) (hcoh : s.Coherent cfg)
    (hc : 0 < s.cycle)
    (he : e ∈ s.iq.entries) (ha : s.attempt e = .launched s' v latency f unit) :
    Supplied cfg s.cycle (issued + 1) (tried + 1)
      (s'.launch e (stamped s' v latency) latency f unit) := by
  obtain ⟨-, hcyc⟩ := attempt_issues hc ha
  have hback := attempt_back ha
  have hn := Nat.add_le_add_left (launched_until hcoh he ha) s.cycle
  have htake (g : Fu) (hg : g ≠ .none) :=
    h.take (i := unit) (Nat.le_succ issued) (fun _ => rfl) hn hg
  have hunits : (s'.launch e (stamped s' v latency) latency f unit).fuFreeAt =
      if f = .none then s.fuFreeAt else s.occupy f unit (s.cycle + if pipelined f then 1
        else latency) := by
    have hocc (n : ℕ) : s'.occupy f unit n = s.occupy f unit n := by
      funext g
      simp only [occupy, hback.fuFreeAt]
    simp only [Cpu.launch, hcyc, hback.fuFreeAt, hocc]
  refine ⟨fun g hg => ?_, fun g hg => ?_, ?_⟩
  · rw [hunits]
    split
    · exact h.count g hg
    · exact (htake g hg).1
  · by_cases hf : f = .none
    · rw [hunits, if_pos hf]
      exact (h.units g hg).mono (by split <;> omega)
    · rw [hunits, if_neg hf]
      exact (htake g hg).2
  · have hlatency := Ledger.launched_latency hcoh he ha
    have hway := dates_perm (launch_onTheWay ha (stamped s' v latency))
    have hwb : (stamped s' v latency).wbCycle = s.cycle + latency := by
      rw [← hcyc]
      rfl
    refine h.ports.push (t := s.cycle + latency) (by omega) fun d => ?_
    rw [hway.countP_eq, dates, List.filter_cons]
    split
    · rw [List.map_cons, List.countP_cons, hwb]
      simp only [decide_eq_true_eq]
      exact le_rfl
    · exact Nat.le_add_right _ _

/-- What holds between two passes of the select loop. -/
structure PassSupplied (cfg : Config) (p : IssuePass) : Prop where
  sane : p.Sane cfg
  ledger : Ledger cfg (p.cpu.cycle + 1) p.cpu
  supplied : Supplied cfg p.cpu.cycle p.issued (p.issued + p.blocked.length) p.cpu
  blocked : ∀ c ∈ p.blocked, ¬cfg.Wide c

theorem PassSupplied.issueOne {p : IssuePass} (h : PassSupplied cfg p) (he : e ∈ p.cpu.iq.entries)
    (hissued : p.issued < cfg.width) (htried : p.issued + p.blocked.length < cfg.iqSize) :
    PassSupplied cfg (issueOne p e) ∧
      (Cpu.issueOne p e).issued + (Cpu.issueOne p e).blocked.length =
        p.issued + p.blocked.length + 1 := by
  have hsane := h.sane.issueOne he
  have hcyc := (issueOne_keeps p e).cycle
  have hkept := h.sane.coherent
  revert hsane hcyc
  simp only [Cpu.issueOne]
  cases ha : p.cpu.attempt e with
  | turnedAway s' why =>
    intro hsane hcyc
    have hled := h.ledger.turnAway ha
    have hnot := h.supplied.not_refused h.ledger hkept he hissued htried ha
    have hsupplied := h.supplied.turnAway ha
    refine ⟨⟨hsane, ?_, ?_, ?_⟩, ?_⟩
    · dsimp only at hcyc ⊢
      rwa [hcyc]
    · simpa only [List.length_append, List.length_singleton, Nat.add_assoc] using hsupplied
    · exact forall_mem_concat h.blocked hnot
    · rw [List.length_append, List.length_singleton, Nat.add_assoc]
  | launched s' u latency f unit =>
    intro hsane hcyc
    have hled := h.ledger.launch hkept h.sane.cycle_pos he ha
    have hsupplied := h.supplied.launch hkept h.sane.cycle_pos he ha
    refine ⟨⟨hsane, ?_, ?_, h.blocked⟩, Nat.add_right_comm _ _ _⟩
    · dsimp only at hcyc ⊢
      rw [hcyc]
      exact hled
    · dsimp only at hcyc ⊢
      rw [hcyc, Nat.add_right_comm]
      exact hsupplied

theorem PassSupplied.issueLoop {cands : List IssueQueue.Entry} {p : IssuePass}
    (h : PassSupplied cfg p)
    (hsub : cands.Sublist p.cpu.iq.entries)
    (hn : p.issued + p.blocked.length + cands.length ≤ cfg.iqSize) :
    PassSupplied cfg (issueLoop cands p) ∧
      (Cpu.issueLoop cands p).issued + (Cpu.issueLoop cands p).blocked.length ≤ cfg.iqSize := by
  induction cands generalizing p with
  | nil => exact ⟨h, hn⟩
  | cons e rest ih =>
    simp only [Cpu.issueLoop]
    rw [List.length_cons] at hn
    split
    · exact ⟨h, by omega⟩
    rename_i hslot
    rw [h.sane.coherent.sized.cfg_eq, not_le] at hslot
    obtain ⟨hnext, htried⟩ := h.issueOne (hsub.subset List.mem_cons_self) hslot (by omega)
    exact ih hnext (sublist_issueOne hsub) (by omega)

/-- Issue refuses nobody for want of what there is enough of. -/
theorem Supplied.issue (h : Supplied cfg s.cycle 0 0 s) (hled : Ledger cfg (s.cycle + 1) s)
    (hcoh : s.Coherent cfg)
    (hc : 0 < s.cycle) :
    Supplied cfg (s.issue.cycle + 1) 0 0 s.issue ∧ ∀ c ∈ s.slotCharges, ¬cfg.Wide c := by
  have hsize : (s.iq.select s.iq.size).length ≤ cfg.iqSize :=
    (select_length_le s.iq s.iq.size).trans (hcoh.sized.iq ▸ hcoh.sized.iq_le)
  obtain ⟨hscan, htried⟩ :
    PassSupplied cfg s.issueScan ∧ s.issueScan.issued + s.issueScan.blocked.length ≤ cfg.iqSize :=
    PassSupplied.issueLoop (p := { cpu := s }) ⟨⟨hcoh, hc, by simp⟩, hled, h, by simp⟩
      ((List.take_sublist _ _).trans List.filter_sublist) (by simpa using hsize)
  have hcfg : s.issueScan.cpu.cfg = cfg := hscan.sane.coherent.sized.cfg_eq
  have hissued : s.issueScan.issued ≤ cfg.width := hcfg ▸ issueLoop_issued_le _ (Nat.zero_le _)
  have hback := chargeSlots_sameBack s.issueScan
  have hcharged := (hscan.supplied.next hissued htried).sameBack hback
  rw [← hback.cycle] at hcharged
  refine ⟨?_, fun c hmem => ?_⟩
  · simp only [Cpu.issue]
    split
    · exact hcharged
    · exact hcharged.recover _
  · have hblocked : s.issueScan.blocked = s.rejected.map Prod.snd := issueLoop_blocked _ _
    simp only [slotCharges] at hmem
    split at hmem
    · simp at hmem
    cases List.mem_append.mp hmem with
    | inl hmem => exact hscan.blocked c (hblocked ▸ List.mem_of_mem_take hmem)
    | inr hmem =>
      rw [List.eq_of_mem_replicate hmem]
      exact id

theorem Config.Wide.behind {c : Stall} (h : cfg.Wide c) :
    c ∉ Stall.renameSide ∧ c ∉ Stall.dispatchSide := by
  cases c <;> first | exact absurd h id | decide

/-- The stages behind issue charge nothing to units and ports. -/
theorem frontHalf_stalls (s : Cpu) (h : cfg.Wide c) :
    s.dispatch.rename.decodeStage.fetch.stats.stalls c = s.stats.stalls c := by
  obtain ⟨hrename, hdispatch⟩ := Config.Wide.behind h
  obtain ⟨cs, hcs, -, hcside⟩ := dispatch_spends s
  obtain ⟨ds, hds, -, hdside⟩ := rename_spends s.dispatch
  rw [(fetch_spends _).stalls, (decodeStage_spends _).stalls, hds.stalls, hcs.stalls,
    List.count_eq_zero.mpr fun hmem => hdispatch (hcside c hmem),
    List.count_eq_zero.mpr fun hmem => hrename (hdside c hmem)]
  rfl

theorem Supplied.tick {log : List Uop} (h : Supplied cfg (s.cycle + 1) 0 0 s)
    (hled : Ledger cfg (s.cycle + 1) s)
    (hs : Steady kinds cfg entryPc (s, log)) :
    Supplied cfg (s.tick.cycle + 1) 0 0 s.tick ∧ ∀ c, cfg.Wide c →
      s.tick.stats.stalls c = s.stats.stalls c := by
  refine tick_cases (P := fun t => Supplied cfg (t.cycle + 1) 0 0 t ∧ ∀ c, cfg.Wide c →
    t.stats.stalls c = s.stats.stalls c)
    (fun _ => ⟨h, fun _ _ => rfl⟩) (fun hd hd' => ?_) fun hd hd' => ?_
  · obtain ⟨t, hback, hsquash⟩ := commit_squashes (show s.beginCycle.done = false from hd) hd'
    have hnext : Supplied cfg (s.cycle + 1 + 1) 0 0 s.beginCycle :=
      (h.next (Nat.zero_le _) (Nat.zero_le _)).same rfl (List.Subperm.refl _)
    refine ⟨?_, fun c _ => commit_stalls s c⟩
    rw [commit_cycle, hsquash]
    exact (hnext.sameBack hback).squashInFlight
  · have hback := commit_sameBack (show s.beginCycle.done = false from hd) hd'
    obtain ⟨log', hbefore, hc, -⟩ := hs.beforeIssue hd'
    have hcycle : s.beforeIssue.cycle = s.cycle + 1 := by
      rw [Cpu.beforeIssue, (execute_keeps _).cycle, (writeback_keeps _).cycle, hback.cycle]
      rfl
    have hbegin : Supplied cfg (s.cycle + 1) 0 0 s.beginCycle := h.same rfl (List.Subperm.refl _)
    have hsupplied : Supplied cfg s.beforeIssue.cycle 0 0 s.beforeIssue := by
      rw [hcycle]
      exact (hbegin.sameBack hback).writeback.execute
    have hledger := hled.beforeIssue hs.coherent.beginCycle.commit hd hd'
    obtain ⟨hissue, hcharges⟩ := hsupplied.issue hledger hbefore.coherent hc
    have hfront := frontHalf_sameBack s.beforeIssue.issue
    refine ⟨?_, fun c hwide => ?_⟩
    · rw [hfront.cycle]
      exact hissue.sameBack hfront
    · rw [frontHalf_stalls _ hwide, (issue_spends _).stalls, (beforeIssue_spends s).stalls,
        List.count_eq_zero.mpr fun hmem => hcharges c hmem hwide]
      rfl

/-- Units and ports that outlast the fastest supply of operations never stall a run. -/
theorem wide_never_stalls (mem : Memory) (cfg : Config) (entryPc : Word) (k : ℕ) (c : Stall)
    (h : cfg.Admissible)
    (hwide : cfg.Wide c) (hb : (ticked mem cfg entryPc k).stats.renamed < 4294967296)
    (hself : NoSelfMod (committed mem cfg entryPc k)) :
    (ticked mem cfg entryPc k).stats.stalls c = 0 :=
  (ticked_induct (P := fun _ t => Ledger cfg (t.cycle + 1) t ∧ Supplied cfg (t.cycle + 1) 0 0 t ∧
    t.stats.stalls c = 0)
    mem h ⟨.reset h mem, .reset mem, rfl⟩ (fun _ hs _ ⟨hled, hsupplied, hzero⟩ =>
      ⟨hled.tick hs, (hsupplied.tick hled hs).1,
        ((hsupplied.tick hled hs).2 c hwide).trans hzero⟩) k hself hb).2.2

theorem wide_never_stalls_skipping :
    (ticked skipping { numMul := 2 } 0 9).stats.stalls .mulPort = 0 :=
  wide_never_stalls skipping { numMul := 2 } 0 9 .mulPort (by constructor <;> decide)
    (Nat.le_of_ble_eq_true rfl)
    (by decide +kernel) (by decide +kernel)

end Cpu

end OooCpu
