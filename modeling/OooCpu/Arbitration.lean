import OooCpu.Readiness
import OooCpu.SlotAccounting
import OooCpu.Throughput

/-! # Oldest first, and no slot wasted

A ready instruction that issue leaves in the queue is one the machine could not have
started even now, or every slot of the cycle has gone to older ones. Commit retires
what is complete at the head of the window, as far as its slots go. -/
namespace OooCpu

namespace Lsq
variable {l : Lsq} {i j : ℕ} {f : LsqEntry → LsqEntry}

/-- The scan looks at a store that is younger than the load for its age only. -/
theorem Scan.run_congr {ld : LsqEntry} {is : List ℕ} {g g' : ℕ → LsqEntry}
    (h : ∀ k ∈ is, (g' k).seq = (g k).seq ∧ ((g k).seq ≤ ld.seq → g' k = g k)) (s : Scan) :
    Scan.run ld s (is.map g') = Scan.run ld s (is.map g) := by
  induction is generalizing s with
  | nil => rfl
  | cons k is ih =>
    obtain ⟨hseq, hsame⟩ := h k List.mem_cons_self
    simp only [List.map_cons, Scan.run, hseq]
    split
    · rfl
    · rw [hsame (by omega)]
      exact ih (fun m hm => h m (List.mem_cons_of_mem _ hm)) _

/-- What a younger store fills in is nothing to the load. -/
theorem search_modify_store (hyounger : (l.loads.slots i).seq < (l.stores.slots j).seq)
    (hf : ∀ x, (f x).seq = x.seq) :
    searchOlderStores { l with stores := l.stores.modify j f } i = l.searchOlderStores i := by
  have hrun (s : Scan) : Scan.run (l.loads.slots i) s (l.stores.modify j f).entries =
      Scan.run (l.loads.slots i) s l.stores.entries := by
    refine Scan.run_congr (fun k _ => ?_) s
    change (if l.stores.wrap (l.stores.headSlot + k) = j then f (l.stores.slots j)
      else l.stores.nth k).seq = _ ∧
        (_ → (if l.stores.wrap (l.stores.headSlot + k) = j then f (l.stores.slots j)
          else l.stores.nth k) = _)
    split
    · next hj =>
      rw [LsqQueue.nth, hj, hf]
      exact ⟨rfl, fun hle => absurd hle (by omega)⟩
    · exact ⟨rfl, fun _ => rfl⟩
  simp only [searchOlderStores, searchStores, hrun]

theorem search_resolve_store (hyounger : (l.loads.slots i).seq < (l.stores.slots j).seq)
    (addr data : Word) :
    ((l.resolveAddr j addr).resolveData j data).searchOlderStores i = l.searchOlderStores i := by
  have hstill : ((l.resolveAddr j addr).loads.slots i).seq <
      ((l.resolveAddr j addr).stores.slots j).seq := by
    simpa [resolveAddr, LsqQueue.modify] using hyounger
  calc ((l.resolveAddr j addr).resolveData j data).searchOlderStores i
      = (l.resolveAddr j addr).searchOlderStores i := search_modify_store hstill fun _ => rfl
    _ = l.searchOlderStores i := search_modify_store hyounger fun _ => rfl

/-- Nor is the address of another load. -/
theorem search_modify_load (hne : i ≠ j) :
    searchOlderStores { l with loads := l.loads.modify j f } i = l.searchOlderStores i := by
  have hslot : (l.loads.modify j f).slots i = l.loads.slots i := if_neg hne
  simp only [searchOlderStores, hslot]

end Lsq

namespace Cpu
variable {cfg : Config} {entryPc : Word} {s t : Cpu} {p : IssuePass} {a c e : IssueQueue.Entry}
  {pre post cands : List IssueQueue.Entry} {d : Decoded}

theorem mem_issueOne (ha : a ∈ p.cpu.iq.entries) (hne : a.seq ≠ e.seq) :
    a ∈ (issueOne p e).cpu.iq.entries := by
  rcases issueOne_iq p e with hiq | hiq
  · rw [hiq]
    exact ha
  · rw [hiq]
    exact (List.mem_eraseP_of_neg (by simpa using hne)).mpr ha

/-- Nobody takes a seat during a pass. -/
theorem issueOne_sublist (p : IssuePass) (e : IssueQueue.Entry) :
    (issueOne p e).cpu.iq.entries.Sublist p.cpu.iq.entries := by
  cases issueOne_iq p e with
  | inl hiq => rw [hiq]
  | inr hiq =>
    rw [hiq]
    exact List.eraseP_sublist

/-- Units are only taken and ports only booked. -/
structure Tighter (s t : Cpu) : Prop where
  cfg : t.cfg = s.cfg
  cycle : t.cycle = s.cycle
  window : t.cdbWindow = s.cdbWindow
  units : ∀ f, s.freeUnit f = none → t.freeUnit f = none
  ports : ∀ i, s.cdbBooked i ≤ t.cdbBooked i

theorem Tighter.refl (s : Cpu) : Tighter s s := ⟨rfl, rfl, rfl, fun _ h => h, fun _ => le_rfl⟩

theorem Tighter.trans {u : Cpu} (h : Tighter s t) (h' : Tighter t u) : Tighter s u :=
  ⟨h'.cfg.trans h.cfg, h'.cycle.trans h.cycle, h'.window.trans h.window,
    fun f hf => h'.units f (h.units f hf), fun i => (h.ports i).trans (h'.ports i)⟩

/-- A class without a free unit is not one of which a unit is taken. -/
theorem freeUnit_occupied {f g : Fu} {unit n : ℕ} (hunit : s.freeUnit f = some unit)
    (hcycle : t.cycle = s.cycle)
    (hfu : t.fuFreeAt = s.occupy f unit n) (hnone : s.freeUnit g = none) : t.freeUnit g = none := by
  have hne : g ≠ f := by
    rintro rfl
    rw [hunit] at hnone
    contradiction
  rw [freeUnit] at hnone ⊢
  rw [hfu, hcycle, occupy, if_neg hne]
  exact hnone

theorem issueOne_tighter (h : p.Sane cfg) (he : e ∈ p.cpu.iq.entries) :
    Tighter p.cpu (issueOne p e).cpu := by
  simp only [issueOne]
  cases ha : p.cpu.attempt e with
  | turnedAway s' why =>
    rcases attempt_turnedAway_cases ha with ⟨rfl, -⟩ | ⟨hl, -, unit, n, obs, hunit, rfl⟩
    · exact .refl _
    · obtain ⟨hmem, -⟩ := h.coherent.candidate he
      rw [unitOf_of_isLoad (h.coherent.sound _ hmem) hl] at hunit
      exact ⟨rfl, rfl, rfl, fun f hf => freeUnit_occupied hunit rfl rfl hf, fun _ => le_rfl⟩
  | launched s' v latency f unit =>
    have hbooked : s'.cfg = p.cpu.cfg ∧ s'.cycle = p.cpu.cycle ∧ s'.cdbWindow = p.cpu.cdbWindow ∧
        s'.fuFreeAt = p.cpu.fuFreeAt ∧ p.cpu.freeUnit f = some unit ∧
          ∀ i, p.cpu.cdbBooked i ≤ s'.cdbBooked i := by
      by_cases hl : (p.cpu.inflight e.rob).dec.isLoad = true
      · obtain ⟨⟨-, hunit⟩, -, value, n, m, obs, -, rfl, -⟩ := attempt_load ha hl
        exact ⟨rfl, rfl, rfl, rfl, hunit, fun _ => le_rfl⟩
      · obtain ⟨⟨-, hunit⟩, -, booked, hports, -, rfl⟩ := attempt_other ha (by simpa using hl)
        refine ⟨rfl, rfl, rfl, rfl, hunit, fun i => ?_⟩
        split at hports
        · rw [hports.2]
          dsimp only
          split <;> omega
        · exact (congrFun hports i).ge
    obtain ⟨hcfg, hcycle, hwindow, hfu, hunit, hports⟩ := hbooked
    refine ⟨hcfg, hcycle, hwindow, fun g hg => ?_, hports⟩
    by_cases hf : f = .none
    · have hsame : (s'.launch e (stamped s' v latency) latency f unit).fuFreeAt = s'.fuFreeAt :=
        if_pos hf
      change (s'.launch e (stamped s' v latency) latency f unit).freeUnit g = none
      rw [freeUnit] at hg ⊢
      rw [hsame, hfu]
      change (if g = .none then some 0 else (p.cpu.fuFreeAt g).findIdx? fun t => t ≤ s'.cycle) =
        none
      rw [hcycle]
      exact hg
    · have htaken : (s'.launch e (stamped s' v latency) latency f unit).fuFreeAt =
          p.cpu.occupy f unit (s'.cycle + if pipelined f then 1 else latency) := by
        refine (if_neg hf).trans ?_
        funext g
        simp only [occupy, hfu]
      exact freeUnit_occupied hunit hcycle htaken hg

/-- Why the machine, as it stands, cannot start an instruction that is not a load: no unit of its
class is free, or the writeback port it needs is booked out. -/
def Blocked (s : Cpu) (e : IssueQueue.Entry) (d : Decoded) : Prop :=
  s.freeUnit (unitOf d) = none ∨
    d.isLoad = false ∧ d.writesRd = true ∧
      s.cfg.numCdb ≤ s.cdbBooked ((s.cycle + e.latency) % s.cdbWindow)

theorem Blocked.tighter (h : Blocked s e d) (ht : Tighter s t) : Blocked t e d := by
  rcases h with hnone | ⟨hl, hw, hfull⟩
  · exact .inl (ht.units _ hnone)
  · refine .inr ⟨hl, hw, ?_⟩
    rw [ht.cfg, ht.cycle, ht.window]
    exact hfull.trans (ht.ports _)

/-- A candidate is turned away for cause. -/
theorem attempt_blocked {why : Stall} (h : s.attempt e = .turnedAway t why) :
    (t = s ∧ Blocked s e (s.inflight e.rob).dec) ∨
      (s.inflight e.rob).dec.isLoad = true ∧
        (t.lsq.searchOlderStores (s.inflight e.rob).lsqIdx).kind = .replay := by
  simp only [attempt] at h
  split at h
  · next hnone =>
    obtain ⟨rfl, -⟩ := Attempt.turnedAway.inj h
    exact .inl ⟨rfl, .inl hnone⟩
  split at h
  · next hl =>
    simp only [executeLoad] at h
    split at h
    · next hx =>
      split at hx <;> simp only [Prod.mk.injEq, reduceCtorEq, and_false] at hx
      next hk =>
        obtain ⟨rfl, -⟩ := hx
        obtain ⟨rfl, -⟩ := Attempt.turnedAway.inj h
        exact .inr ⟨hl, hk⟩
    · contradiction
  · next hl =>
    split at h
    · next hport =>
      obtain ⟨rfl, -⟩ := Attempt.turnedAway.inj h
      split at hport
      · next hw =>
        refine .inl ⟨rfl, .inr ⟨by simpa using hl, hw, ?_⟩⟩
        simp only [reserveCdb] at hport
        split at hport
        · assumption
        · contradiction
      · contradiction
    · contradiction

/-- Nothing becomes another instruction, or moves in the memory queues. -/
theorem issueOne_same (h : p.Sane cfg) (he : e ∈ p.cpu.iq.entries) (i : ℕ) :
    ((issueOne p e).cpu.inflight i).dec = (p.cpu.inflight i).dec ∧
      ((issueOne p e).cpu.inflight i).lsqIdx = (p.cpu.inflight i).lsqIdx := by
  simp only [issueOne]
  cases ha : p.cpu.attempt e with
  | turnedAway s' why =>
    rcases attempt_turnedAway ha with rfl | ⟨_, _, _, _, rfl⟩ <;> exact ⟨rfl, rfl⟩
  | launched s' v latency f unit =>
    obtain ⟨hissues, -⟩ := attempt_issues h.cycle_pos ha
    obtain ⟨hmem, -⟩ := h.coherent.candidate he
    obtain ⟨-, hfile, -⟩ := h.coherent.buffered.mem_window hmem
    obtain ⟨_, _, _, _, _, rfl, -, -⟩ := attempt_frame ha
    simp only [launch]
    split
    · next hi =>
      have hplace : i = (p.cpu.inflight e.rob).rob := hi.trans hissues.rob
      rw [hplace, hfile]
      exact ⟨hissues.dec, hissues.lsqIdx⟩
    · exact ⟨rfl, rfl⟩

/-- What the store queue answers a load is out of reach of everything younger. -/
theorem issueOne_search (h : p.Sane cfg) (hc : c ∈ p.cpu.iq.entries) (he : e ∈ p.cpu.iq.entries)
    (hl : (p.cpu.inflight e.rob).dec.isLoad = true) (hlt : e.seq < c.seq) :
    (issueOne p c).cpu.lsq.searchOlderStores (p.cpu.inflight e.rob).lsqIdx =
      p.cpu.lsq.searchOlderStores (p.cpu.inflight e.rob).lsqIdx := by
  obtain ⟨hmem, hwait, hbare⟩ := h.coherent.candidate he
  obtain ⟨hcmem, hcwait, hcbare⟩ := h.coherent.candidate hc
  simp only [Uop.waiting, Bool.and_eq_true] at hwait hcwait
  have hseq : e.seq = (p.cpu.inflight e.rob).seq := congrArg IssueQueue.Entry.seq hbare
  have hcseq : c.seq = (p.cpu.inflight c.rob).seq := congrArg IssueQueue.Entry.seq hcbare
  have hslot := (h.coherent.queued.loads.slot _ hmem hl hwait.1).1
  have hother (hcl : (p.cpu.inflight c.rob).dec.isLoad = true) (addr : Word) :
      (p.cpu.lsq.resolveLoadAddr (p.cpu.inflight c.rob).lsqIdx addr).searchOlderStores
        (p.cpu.inflight e.rob).lsqIdx =
          p.cpu.lsq.searchOlderStores (p.cpu.inflight e.rob).lsqIdx := by
    refine Lsq.search_modify_load fun hsame => ?_
    have hcslot := (h.coherent.queued.loads.slot _ hcmem hcl hcwait.1).1
    rw [← hsame, hslot] at hcslot
    omega
  simp only [issueOne]
  cases ha : p.cpu.attempt c with
  | turnedAway s' why =>
    rcases attempt_turnedAway_cases ha with ⟨rfl, -⟩ | ⟨hcl, -, unit, n, obs, -, rfl⟩
    · rfl
    · exact hother hcl _
  | launched s' v latency f unit =>
    change s'.lsq.searchOlderStores _ = _
    by_cases hcl : (p.cpu.inflight c.rob).dec.isLoad = true
    · obtain ⟨-, -, value, n, m, obs, -, rfl, -⟩ := attempt_load ha hcl
      exact hother hcl _
    · have hissues := (attempt_issues h.cycle_pos ha).1
      obtain ⟨-, -, booked, -, -, rfl⟩ := attempt_other ha (by simpa using hcl)
      change Lsq.searchOlderStores (if v.dec.isStore then _ else p.cpu.lsq) _ = _
      split
      · next hs =>
        have hidx : v.lsqIdx = (p.cpu.inflight c.rob).lsqIdx := hissues.lsqIdx
        have hdec : v.dec = (p.cpu.inflight c.rob).dec := hissues.dec
        have hcslot := (h.coherent.queued.stores.slot _ hcmem (by rw [← hdec]; exact hs) hcwait.1).1
        have hyounger : (p.cpu.lsq.loads.slots (p.cpu.inflight e.rob).lsqIdx).seq <
            (p.cpu.lsq.stores.slots v.lsqIdx).seq := by
          rw [hidx, hslot, hcslot]
          omega
        exact Lsq.search_resolve_store hyounger _ _
      · rfl

theorem issueLoop_search (h : p.Sane cfg) (hsub : cands.Sublist p.cpu.iq.entries)
    (he : e ∈ p.cpu.iq.entries)
    (hl : (p.cpu.inflight e.rob).dec.isLoad = true) (hlater : ∀ c ∈ cands, e.seq < c.seq) :
    (issueLoop cands p).cpu.lsq.searchOlderStores (p.cpu.inflight e.rob).lsqIdx =
      p.cpu.lsq.searchOlderStores (p.cpu.inflight e.rob).lsqIdx := by
  induction cands generalizing p with
  | nil => rfl
  | cons c rest ih =>
    have hc : c ∈ p.cpu.iq.entries := hsub.subset List.mem_cons_self
    have hlt : e.seq < c.seq := hlater c List.mem_cons_self
    obtain ⟨hdec, hidx⟩ := issueOne_same h hc e.rob
    rw [issueLoop]
    split
    · rfl
    have hrest := ih (h.issueOne hc) (sublist_issueOne hsub) (mem_issueOne he (by omega))
      (by rw [hdec]; exact hl)
      fun a ha => hlater a (List.mem_cons_of_mem _ ha)
    rw [hidx] at hrest
    exact hrest.trans (issueOne_search h hc he hl hlt)

/-- What became of a ready instruction in a pass that began in `s` and ended in `r`. -/
inductive Settled (s : Cpu) (r : IssuePass) (e : IssueQueue.Entry) : Prop
  | started (gone : e ∉ r.cpu.iq.entries)
  /-- All slots have gone to others, and to none that is younger. -/
  | crowdedOut (full : s.cfg.width ≤ r.issued)
      (oldest : ∀ a ∈ s.iq.entries, e.seq < a.seq → a ∈ r.cpu.iq.entries)
  | blocked (cause : Blocked r.cpu e (s.inflight e.rob).dec)
  /-- A store in front of the load is not known well enough. -/
  | sentBack (load : (s.inflight e.rob).dec.isLoad = true)
      (cause : (r.cpu.lsq.searchOlderStores (s.inflight e.rob).lsqIdx).kind = .replay)

theorem erase_gone {l : List IssueQueue.Entry} (hsorted : l.Pairwise fun a b => a.seq < b.seq)
    (he : e ∈ l) : e ∉ l.eraseP fun a => a.seq == e.seq := by
  induction l with
  | nil => exact absurd he List.not_mem_nil
  | cons a l ih =>
    obtain ⟨hhead, htail⟩ := List.pairwise_cons.mp hsorted
    by_cases hseq : a.seq = e.seq
    · rw [List.eraseP_cons_of_pos (by simpa using hseq)]
      intro hlater
      have hlt := hhead e hlater
      omega
    · rw [List.eraseP_cons_of_neg (by simpa using hseq)]
      rcases List.mem_cons.mp he with rfl | he
      · exact absurd rfl hseq
      · intro hmem
        rcases List.mem_cons.mp hmem with rfl | hmem
        · exact hseq rfl
        · exact ih htail he hmem

/-- One turn settles its candidate, and nothing later in the pass unsettles it. -/
theorem issueOne_settles (h : p.Sane cfg) (he : e ∈ p.cpu.iq.entries)
    (hsub : cands.Sublist (issueOne p e).cpu.iq.entries)
    (hready : ∀ a ∈ cands, a.ready = true) (hlater : ∀ a ∈ cands, e.seq < a.seq) :
    Settled p.cpu (issueLoop cands (issueOne p e)) e := by
  have hsane := h.issueOne he
  cases ha : p.cpu.attempt e with
  | turnedAway s' why =>
    have hcpu : (issueOne p e).cpu = s' := by simp only [issueOne, ha]
    rcases attempt_blocked ha with ⟨rfl, hcause⟩ | ⟨hl, hreplay⟩
    · have htight : Tighter p.cpu (issueLoop cands (issueOne p e)).cpu :=
        (issueLoop_preserves (P := fun r => r.Sane cfg ∧ Tighter p.cpu r.cpu)
          (fun r a hr ha _ => ⟨hr.1.issueOne ha, hr.2.trans (issueOne_tighter hr.1 ha)⟩)
          ⟨hsane, issueOne_tighter h he⟩ hsub hready).2
      exact .blocked (hcause.tighter htight)
    · have hseated : e ∈ (issueOne p e).cpu.iq.entries := by
        rw [hcpu]
        rcases attempt_turnedAway ha with rfl | ⟨_, _, _, _, rfl⟩ <;> exact he
      obtain ⟨hdec, hidx⟩ := issueOne_same h he e.rob
      have hsearch := issueLoop_search hsane hsub hseated (by rw [hdec]; exact hl) hlater
      rw [hidx, hcpu] at hsearch
      exact .sentBack hl ((congrArg ForwardResult.kind hsearch).trans hreplay)
  | launched s' v latency f unit =>
    refine .started fun hmem => ?_
    have hiq : (issueOne p e).cpu.iq = p.cpu.iq.erase e.seq := by
      obtain ⟨_, _, _, _, _, rfl, -, -⟩ := attempt_frame ha
      simp only [issueOne, ha]
      rfl
    have hseats :=
      issueLoop_preserves (P := fun r => r.cpu.iq.entries.Sublist (issueOne p e).cpu.iq.entries)
      (fun r a hr _ _ => (issueOne_sublist r a).trans hr) (.refl _) hsub hready
    have hleft := hseats.subset hmem
    rw [hiq] at hleft
    exact erase_gone (h.coherent.staged.iq_sorted h.coherent.buffered.sorted) he hleft

/-- Every candidate of a pass is settled. -/
theorem issueLoop_settles (h : p.Sane cfg) (hsub : cands.Sublist p.cpu.iq.entries)
    (hready : ∀ a ∈ cands, a.ready = true)
    (he : e ∈ cands) : Settled p.cpu (issueLoop cands p) e := by
  induction cands generalizing p with
  | nil => exact absurd he List.not_mem_nil
  | cons c rest ih =>
    have hc : c ∈ p.cpu.iq.entries := hsub.subset List.mem_cons_self
    have hrest := sublist_issueOne hsub
    have hready' : ∀ a ∈ rest, a.ready = true := fun a ha => hready a (List.mem_cons_of_mem _ ha)
    have hsorted := (h.coherent.staged.iq_sorted h.coherent.buffered.sorted).sublist hsub
    have hlater : ∀ a ∈ rest, c.seq < a.seq := (List.pairwise_cons.mp hsorted).1
    rw [issueLoop]
    split
    · next hfull => exact .crowdedOut hfull fun a ha _ => ha
    rcases List.mem_cons.mp he with rfl | he
    · exact issueOne_settles h hc hrest hready' hlater
    have hlt : c.seq < e.seq := hlater e he
    obtain ⟨hdec, hidx⟩ := issueOne_same h hc e.rob
    cases ih (h.issueOne hc) hrest hready' he with
    | started hgone => exact .started hgone
    | crowdedOut hfull holdest =>
      rw [(issueOne_keeps p c).cfg] at hfull
      exact .crowdedOut hfull fun a ha hage => holdest a (mem_issueOne ha (by omega)) hage
    | blocked hcause =>
      rw [hdec] at hcause
      exact .blocked hcause
    | sentBack hl hcause =>
      rw [hdec] at hl
      rw [hidx] at hcause
      exact .sentBack hl hcause

/-- Issue takes the oldest first and leaves no slot to waste. -/
structure Arbitrates (s : Cpu) : Prop where
  within : s.issueScan.issued ≤ s.cfg.width
  settled : ∀ e ∈ s.iq.entries, e.ready = true → Settled s s.issueScan e

theorem Coherent.arbitrates (h : s.Coherent cfg) (hc : 0 < s.cycle) : Arbitrates s := by
  refine ⟨?_, fun e he hready => ?_⟩
  · have hle := issueLoop_issued_le (s.iq.select s.iq.size) (p := { cpu := s }) (Nat.zero_le _)
    have hcfg : s.issueScan.cpu.cfg = s.cfg := (issueScan_keeps s).cfg
    change s.issueScan.issued ≤ s.issueScan.cpu.cfg.width at hle
    rwa [hcfg] at hle
  · have hall : s.iq.select s.iq.size = s.iq.entries.filter IssueQueue.Entry.ready :=
      List.take_of_length_le (List.length_filter_le _ _)
    rw [Cpu.issueScan, hall]
    exact issueLoop_settles (p := { cpu := s }) ⟨h, hc, by simp⟩ List.filter_sublist
      (fun a ha => (List.mem_filter.mp ha).2)
      (List.mem_filter.mpr ⟨he, hready⟩)

/-- In every cycle of every run. -/
theorem arbitrates_ticked (mem : Memory) (cfg : Config) (entryPc : Word) (k : ℕ)
    (h : cfg.Admissible)
    (hb : (ticked mem cfg entryPc k).stats.renamed < 4294967296)
    (hself : NoSelfMod (committed mem cfg entryPc k)) :
    (ticked mem cfg entryPc k).beforeIssue.Arbitrates := by
  obtain ⟨hcoh, hc⟩ := (steady_ticked h mem k hself hb).coherent.beforeIssue
  exact hcoh.arbitrates hc

theorem arbitrates_ticked_squaring : (ticked squaring {} 0 5).beforeIssue.Arbitrates :=
  arbitrates_ticked squaring {} 0 5 admissible_default (by decide +kernel) (by decide +kernel)

section Retirement
variable {u : Uop} {n : ℕ} {ready log log' : List Uop}

/-- What n slots of commit are for. -/
def due (s : Cpu) (n : ℕ) : List Uop := (s.window.takeWhile Uop.isComplete).take n

theorem due_cons (hw : s.window = u :: t.window) (hc : u.isComplete = true) :
    s.due (n + 1) = u :: t.due n := by
  rw [due, hw, List.takeWhile_cons_of_pos hc, List.take_succ_cons, due]

theorem Coherent.due_of_rest (h : s.Coherent cfg) (hp : s.rob.popHeadIfComplete = none) :
    s.due n = [] := by
  cases hw : s.window with
  | nil => rw [due, hw, List.takeWhile_nil, List.take_nil]
  | cons u post =>
    have hrunning := h.head_running hw hp
    rw [due, hw, List.takeWhile_cons_of_neg (by simp [hrunning]), List.take_nil]

/-- All that is due retires, or the machine stops at one of these and drops the rest. -/
inductive Retires (ready log : List Uop) : Cpu → List Uop → Prop
  | all {t : Cpu} (goes : t.done = false) : Retires ready log t (log ++ ready)
  | last {t : Cpu} {u : Uop} (pre : List Uop) {post : List Uop} (split : ready = pre ++ u :: post)
      (ended : t.done = true)
      (dropped : t.window = []) : Retires ready log t (log ++ (pre ++ [u]))

theorem Retires.cons (h : Retires ready (log ++ [u]) t log') : Retires (u :: ready) log t log' := by
  cases h with
  | all goes =>
    rw [List.append_assoc]
    exact .all goes
  | last pre split ended dropped =>
    rw [List.append_assoc]
    exact .last (u :: pre) (congrArg (u :: ·) split) ended dropped

/-- Pass by pass. -/
theorem Coherent.commitPasses_retires (h : s.Coherent cfg) (hd : s.done = false) (n : ℕ)
    (log : List Uop) :
    Retires (s.due n) log (forLoop commitOneLogged n (s, log)).1 (forLoop commitOneLogged n (s,
      log)).2 := by
  induction n generalizing s log with
  | zero =>
    have hall : Retires [] log s (log ++ []) := .all hd
    rwa [List.append_nil] at hall
  | succ n ih =>
    cases hp : s.rob.popHeadIfComplete with
    | none =>
      have hstop : forLoop commitOneLogged (n + 1) (s, log) = (s, log) :=
        forLoop_stop (by simp only [commitOneLogged, hp]) _
      have hall : Retires [] log s (log ++ []) := .all hd
      rw [hstop, h.due_of_rest hp]
      rwa [List.append_nil] at hall
    | some r =>
      obtain ⟨e, rob⟩ := r
      obtain ⟨hnext, hw, hcomplete⟩ := h.retire hp
      rw [due_cons hw hcomplete]
      simp only [forLoop, commitOneLogged, hp]
      cases hdone : (s.retire rob (s.inflight s.rob.head)).done with
      | true =>
        simp only [if_true]
        exact .last [] rfl (by rw [← hdone]; rfl) hnext.squashInFlight.2
      | false =>
        simp only [Bool.false_eq_true, if_false]
        exact (ih hnext hdone (log ++ [s.inflight s.rob.head])).cons

theorem Coherent.tick_retires (h : s.Coherent cfg) (hd : s.done = false) (log : List Uop) :
    Retires (s.due cfg.width) log (tickLogged (s, log)).1 (tickLogged (s, log)).2 := by
  have hcommit : Retires (s.due cfg.width) log (commitLogged (s.beginCycle, log)).1
      (commitLogged (s.beginCycle, log)).2 := by
    rw [← h.sized.cfg_eq]
    exact h.beginCycle.commitPasses_retires hd s.cfg.width log
  refine tickLogged_running
    (P := Retires (s.due cfg.width) log) hd hcommit fun t log' hq _ hgoes => ?_
  rw [hq] at hcommit
  cases hcommit with
  | all _ => exact .all ((behindCommit_keeps t).done.trans hgoes)
  | last _ _ hended _ =>
    rw [hgoes] at hended
    contradiction

/-- Cycle by cycle. -/
theorem retires_ticked (mem : Memory) (cfg : Config) (entryPc : Word) (k : ℕ) (h : cfg.Admissible)
    (hb : (ticked mem cfg entryPc k).stats.renamed < 4294967296)
    (hself : NoSelfMod (committed mem cfg entryPc k))
    (hgoes : (ticked mem cfg entryPc k).done = false) :
    Retires ((ticked mem cfg entryPc k).due cfg.width) (committed mem cfg entryPc k)
      (ticked mem cfg entryPc (k + 1))
      (committed mem cfg entryPc (k + 1)) := by
  have hcoh := (steady_ticked h mem k hself hb).coherent
  have htick := hcoh.tick_retires hgoes (committed mem cfg entryPc k)
  rwa [tickLogged_fst, ← committed_succ, ← ticked_succ] at htick

theorem retires_ticked_skipping :
    Retires ((ticked skipping {} 0 11).due ({} : Config).width) (committed skipping {} 0 11)
      (ticked skipping {} 0 12)
      (committed skipping {} 0 12) :=
  retires_ticked skipping {} 0 11 admissible_default (by decide +kernel) (by decide +kernel)
    (by decide +kernel)

end Retirement

end Cpu

end OooCpu
