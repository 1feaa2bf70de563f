import OooCpu.BackEnd
import OooCpu.BookingRing

/-! # The result bus is booked exactly

A result of fixed latency books its port when it issues, a cycle before every
date the ring can hold. The ring stays a census of such results on their way,
so each lands when it is due and loads share out what is left. -/
namespace OooCpu.Cpu
variable {kinds : Prop} {cfg : Config} {entryPc : Word} {s s' t : Cpu} {e : IssueQueue.Entry}
    {u v br : Uop} {us vs : List Uop}
  {late latency unit ports : ℕ} {f : Fu}

/-- A result that books its port at issue. -/
def books (u : Uop) : Bool := u.dec.writesRd && !u.dec.isLoad

/-- When the booked results among some uops are due. -/
def dates (us : List Uop) : List ℕ := (us.filter books).map Uop.wbCycle

/-- After a tick: what the ring says of the coming cycles, and of this one. -/
structure Booked (cfg : Config) (s : Cpu) : Prop where
  coming : ∀ k, 1 ≤ k → k ≤ cfg.longest + 1 →
    s.cdbBooked ((s.cycle + k) % s.cdbWindow) = (dates (s.executing ++ s.wbFast)).count
      (s.cycle + k) ∧ (dates (s.executing ++ s.wbFast)).count (s.cycle + k) ≤ cfg.numCdb
  current : s.cdbBooked (s.cycle % s.cdbWindow) = 0
  pending : ∀ u ∈ s.onTheWay, u.dec.isLoad = false → s.cycle < u.wbCycle

/-- What the writeback stage does with the bookings of its cycle. -/
structure HonoursBookings (s : Cpu) : Prop where
  emptied : s.writeback.wbFast = []
  onTime : ∀ u ∈ s.wbFast, u.dec.isLoad = false ∧ u.wbCycle = s.cycle ∧
    s.landed u ∈ s.writeback.window
  ports : (s.wbFast.countP fun u => u.dec.writesRd) +
    (s.wbSlow.length - s.writeback.wbSlow.length) ≤ s.cfg.numCdb

/-- Recovery from `br` gives back the bookings of what it squashes, and no others. -/
def ReturnsBookings (s : Cpu) (br : Uop) : Prop :=
  ∀ i, (s.recover br).cdbBooked i +
    ((dates ((s.executing ++ s.wbFast).filter fun u => br.seq < u.seq)).countP fun d =>
      d % s.cdbWindow = i) = s.cdbBooked i

theorem dates_append (us vs : List Uop) : dates (us ++ vs) = dates us ++ dates vs := by
  simp only [dates, List.filter_append, List.map_append]

theorem dates_perm (h : us.Perm vs) : (dates us).Perm (dates vs) := (h.filter _).map _

theorem mem_dates {d : ℕ} (hd : d ∈ dates us) : ∃ u ∈ us, books u = true ∧ u.wbCycle = d := by
  obtain ⟨u, hu, rfl⟩ := List.mem_map.mp hd
  exact ⟨u, List.mem_of_mem_filter hu, (List.mem_filter.mp hu).2, rfl⟩

/-- Loads book nothing. -/
theorem dates_loads (h : ∀ u ∈ us, u.dec.isLoad = true) : dates us = [] := by
  rw [dates, List.map_eq_nil_iff, List.filter_eq_nil_iff]
  intro u hu
  simp [books, h u hu]

/-- The booking invariant. All that is due in cycle `late` or before has reached its writeback
queue. -/
structure Ledger (cfg : Config) (late : ℕ) (s : Cpu) : Prop where
  window : s.cdbWindow = cfg.longest + 2
  census : BookingRing.Census s.cdbBooked s.cdbWindow s.cycle fun c => (dates s.onTheWay).count c
  room : ∀ c, (dates s.onTheWay).count c ≤ cfg.numCdb
  executing : ∀ u ∈ s.executing, late < u.wbCycle ∧ u.wbCycle ≤ s.cycle + cfg.longest
  fast : ∀ u ∈ s.wbFast, u.dec.isLoad = false ∧ u.wbCycle = late
  slow : ∀ u ∈ s.wbSlow, u.dec.isLoad = true

namespace Ledger

theorem reset (h : cfg.Admissible) (mem : Memory) : Ledger cfg 1 (Cpu.reset mem cfg entryPc) where
  window := by
    have hlt : cfg.longest + 2 < 2^32 := by
      have := h.alu_lt
      have := h.branch_lt
      have := h.mul_lt
      have := h.div_lt
      have := h.mem_lt
      simp only [Config.longest]
      omega
    exact Nat.mod_eq_of_lt hlt
  census := .empty fun _ => rfl
  room _ := Nat.zero_le _
  executing u hu := by simp [Cpu.reset] at hu
  fast u hu := by simp [Cpu.reset] at hu
  slow u hu := by simp [Cpu.reset] at hu

section Steps
variable (h : Ledger cfg late s)
include h

/-- Only the execution and fast queues hold booked results. -/
theorem dates_onTheWay : dates s.onTheWay = dates (s.executing ++ s.wbFast) := by
  rw [onTheWay, dates_append, dates_loads h.slow, List.append_nil]

theorem date_bounds {d : ℕ} (hd : d ∈ dates s.onTheWay) (hle : late ≤ s.cycle + cfg.longest) :
    late ≤ d ∧ d ≤ s.cycle + cfg.longest := by
  rw [h.dates_onTheWay] at hd
  obtain ⟨u, hu, -, rfl⟩ := mem_dates hd
  cases List.mem_append.mp hu with
  | inl hu =>
    have := h.executing u hu
    omega
  | inr hu =>
    have := (h.fast u hu).2
    omega

theorem same (hs : s.SameBack t) : Ledger cfg late t := by
  have hway : t.onTheWay = s.onTheWay := by
    rw [onTheWay, hs.executing, hs.wbFast, hs.wbSlow, onTheWay]
  refine ⟨hs.cdbWindow.trans h.window, ?_, fun c => ?_, fun u hu => ?_, fun u hu => ?_,
    fun u hu => ?_⟩
  · rw [hway, hs.cdbBooked, hs.cdbWindow, hs.cycle]
    exact h.census
  · rw [hway]
    exact h.room c
  · rw [hs.executing] at hu
    rw [hs.cycle]
    exact h.executing u hu
  · exact h.fast u (by rwa [hs.wbFast] at hu)
  · exact h.slow u (by rwa [hs.wbSlow] at hu)

/-- Nothing outside the reach of the ring is due. -/
theorem count_eq_zero {c : ℕ} (hle : late ≤ s.cycle + cfg.longest)
    (hc : c < late ∨ s.cycle + cfg.longest < c) : (dates s.onTheWay).count c = 0 :=
  List.count_eq_zero.mpr fun hd => by
    have := h.date_bounds hd hle
    omega

theorem squashInFlight : Ledger cfg late s.squashInFlight where
  window := h.window
  census := .empty fun _ => rfl
  room _ := Nat.zero_le _
  executing u hu := by simp [Cpu.squashInFlight] at hu
  fast u hu := by simp [Cpu.squashInFlight] at hu
  slow u hu := by simp [Cpu.squashInFlight] at hu

/-- What is due now fits through the ports. -/
theorem fast_le (hl : late = s.cycle) : (s.wbFast.countP fun u => u.dec.writesRd) ≤ cfg.numCdb := by
  refine le_trans ?_ (h.room s.cycle)
  have hfast : (s.wbFast.countP fun u => u.dec.writesRd) = (dates s.wbFast).count s.cycle := by
    rw [dates, List.count_eq_countP, List.countP_map, List.countP_filter]
    apply List.countP_congr
    intro u hu
    obtain ⟨hload, hwb⟩ := h.fast u hu
    simp [books, hload, hwb, hl]
  rw [hfast, h.dates_onTheWay, dates_append, List.count_append]
  exact Nat.le_add_left _ _

end Steps

theorem one_le_longest (cfg : Config) : 1 ≤ cfg.longest := by
  simp only [Config.longest]
  omega

theorem beginCycle (h : Ledger cfg (s.cycle + 1) s) : Ledger cfg (s.cycle + 1) s.beginCycle where
  window := h.window
  census := by
    have hone := one_le_longest cfg
    exact h.census.advance (h.count_eq_zero (by omega) (.inl (Nat.lt_succ_self _)))
      (h.count_eq_zero (by omega) (.inr (by rw [h.window]; omega)))
  room := h.room
  executing u hu := by
    have := h.executing u hu
    exact ⟨this.1, by change u.wbCycle ≤ s.cycle + 1 + cfg.longest; omega⟩
  fast := h.fast
  slow := h.slow

/-- With enough ports every result of the fast queue lands. -/
private theorem fast_loop (n : ℕ) (t : Cpu) (ports : ℕ) (hn : t.wbFast.length = n)
    (hp : (t.wbFast.countP fun u => u.dec.writesRd) ≤ ports) :
    ∃ r, forLoop writebackFastOne n (t, ports) =
      (r, ports - t.wbFast.countP fun u => u.dec.writesRd) ∧
        ({ t with wbFast := [] } : Cpu).SameBack r := by
  induction n generalizing t ports with
  | zero =>
    have hnil := List.length_eq_zero_iff.mp hn
    exact ⟨t, by simp [forLoop, hnil], rfl, rfl, rfl, hnil, rfl, rfl, rfl, rfl⟩
  | succ n ih =>
    obtain ⟨u, rest, hq⟩ := List.exists_cons_of_length_eq_add_one hn
    rw [hq, List.countP_cons] at hp ⊢
    have hport : (u.dec.writesRd && ports == 0) = false := by
      by_cases hwr : u.dec.writesRd = true
      · rw [if_pos hwr] at hp
        simp [hwr]
        omega
      · simp [hwr]
    have hleft : (rest.countP fun u => u.dec.writesRd) ≤ (if u.dec.writesRd then ports - 1
      else ports) ∧
        (if u.dec.writesRd then ports - 1 else ports) - (rest.countP fun u => u.dec.writesRd) =
          ports - ((rest.countP fun u => u.dec.writesRd) + if u.dec.writesRd then 1 else 0) := by
      by_cases hwr : u.dec.writesRd = true
      · simp only [if_pos hwr] at hp ⊢
        omega
      · simp only [if_neg hwr] at hp ⊢
        omega
    obtain ⟨r, hr, hback⟩ :=
      ih { t.complete u with wbFast := rest } (if u.dec.writesRd then ports - 1 else ports)
      (by simpa [hq] using hn) hleft.1
    refine ⟨r, ?_, hback.cfg, hback.cycle, hback.executing, hback.wbFast, hback.wbSlow,
      hback.fuFreeAt, hback.cdbBooked, hback.cdbWindow⟩
    simp only [forLoop, writebackFastOne, hq, hport, Bool.false_eq_true, if_false]
    rw [hr, ← hleft.2]

/-- Loads land while ports last, oldest first. -/
private theorem slow_loop (n : ℕ) (t : Cpu) (ports : ℕ) :
    ∃ slow, slow <:+ t.wbSlow ∧ t.wbSlow.length - slow.length ≤ ports ∧
      ({ t with wbSlow := slow } : Cpu).SameBack (forLoop writebackSlowOne n (t, ports)).1 := by
  let P : Cpu × ℕ → Prop := fun p => ∃ slow, slow <:+ t.wbSlow ∧ p.2 ≤ ports ∧
    t.wbSlow.length - slow.length ≤ ports - p.2 ∧ ({ t with wbSlow := slow } : Cpu).SameBack p.1
  have hpass (p : Cpu × ℕ) (hp : P p) : P (writebackSlowOne p).state := by
    obtain ⟨r, left⟩ := p
    obtain ⟨slow, hsuffix, hle, hlen, hback⟩ := hp
    simp only [writebackSlowOne]
    split
    · exact ⟨slow, hsuffix, hle, hlen, hback⟩
    rename_i u rest hq
    split
    · exact ⟨slow, hsuffix, hle, hlen, hback⟩
    rename_i hport
    obtain rfl : slow = u :: rest := hback.wbSlow.symm.trans hq
    simp only at hle hlen hport
    refine ⟨rest, (List.suffix_cons u rest).trans hsuffix, by simp only [Flow.state_more]; omega,
      ?_, hback.cfg, hback.cycle, hback.executing, hback.wbFast, rfl, hback.fuFreeAt,
      hback.cdbBooked, hback.cdbWindow⟩
    rw [List.length_cons] at hlen
    simp only [Flow.state_more]
    omega
  obtain ⟨slow, hsuffix, -, hlen, hback⟩ := forLoop_preserves P hpass n
    (show P (t, ports) from ⟨t.wbSlow, List.suffix_refl _, le_refl _, by simp, .refl t⟩)
  exact ⟨slow, hsuffix, hlen.trans (Nat.sub_le _ _), hback⟩

/-- What writeback leaves: nothing in the fast queue, the younger loads, and a free counter. -/
theorem writeback_back (h : Ledger cfg s.cycle s) (hcfg : s.cfg = cfg) :
    ∃ slow, slow <:+ s.wbSlow ∧
      (s.wbFast.countP fun u => u.dec.writesRd) + (s.wbSlow.length - slow.length) ≤ s.cfg.numCdb ∧
      ({ s with
        wbFast := [], wbSlow := slow
        cdbBooked := fun i => if i = s.cycle % s.cdbWindow then 0
          else s.cdbBooked i } : Cpu).SameBack s.writeback := by
  have hfits := h.fast_le rfl
  rw [← hcfg] at hfits
  obtain ⟨r, hr, hback⟩ := fast_loop s.wbFast.length s s.cfg.numCdb rfl hfits
  obtain ⟨slow, hsuffix, hlen, hback'⟩ := slow_loop r.wbSlow.length r
    (s.cfg.numCdb - s.wbFast.countP fun u => u.dec.writesRd)
  rw [hback.wbSlow] at hsuffix hlen
  refine ⟨slow, hsuffix, by dsimp only at hlen; omega, ?_⟩
  simp only [Cpu.writeback, hr]
  refine ⟨hback'.cfg.trans hback.cfg, hback'.cycle.trans hback.cycle,
    hback'.executing.trans hback.executing, hback'.wbFast.trans hback.wbFast, hback'.wbSlow,
    hback'.fuFreeAt.trans hback.fuFreeAt, ?_, hback'.cdbWindow.trans hback.cdbWindow⟩
  simp only [hback'.cycle, hback'.cdbWindow, hback'.cdbBooked, hback.cycle, hback.cdbWindow,
    hback.cdbBooked]

/-- Without the fast queue nothing is due in this cycle, and all else stays as it is. -/
private theorem count_executing (h : Ledger cfg s.cycle s) (c : ℕ) :
    (dates s.executing).count c = if c = s.cycle then 0 else (dates s.onTheWay).count c := by
  rw [h.dates_onTheWay, dates_append, List.count_append]
  split
  · rename_i hc
    apply List.count_eq_zero.mpr
    intro hd
    obtain ⟨u, hu, -, hwb⟩ := mem_dates hd
    have := (h.executing u hu).1
    omega
  · rename_i hc
    have hfast : (dates s.wbFast).count c = 0 := List.count_eq_zero.mpr fun hd => by
      obtain ⟨u, hu, -, hwb⟩ := mem_dates hd
      have := (h.fast u hu).2
      omega
    rw [hfast, Nat.add_zero]

theorem writeback (h : Ledger cfg s.cycle s) (hcfg : s.cfg = cfg) :
    Ledger cfg s.cycle s.writeback := by
  obtain ⟨slow, hsuffix, -, hback⟩ := h.writeback_back hcfg
  have hloads : ∀ u ∈ slow, u.dec.isLoad = true := fun u hu => h.slow u (hsuffix.subset hu)
  have hleft (c : ℕ) : (dates (s.executing ++ [] ++ slow)).count c =
      if c = s.cycle then 0 else (dates s.onTheWay).count c := by
    rw [dates_append, dates_loads hloads, List.append_nil, List.append_nil, h.count_executing]
  have hled : Ledger cfg s.cycle { s with
      wbFast := [], wbSlow := slow
      cdbBooked := fun i => if i = s.cycle % s.cdbWindow then 0 else s.cdbBooked i } := by
    refine ⟨h.window, h.census.clear.congr hleft, fun c => ?_, h.executing,
      fun u hu => absurd hu (by simp), hloads⟩
    apply (hleft c).trans_le
    split
    · exact Nat.zero_le _
    · exact h.room c
  exact hled.same hback

/-- Execution hands over what is due in the coming cycle. -/
theorem execute (h : Ledger cfg s.cycle s) (hempty : s.wbFast = []) :
    Ledger cfg (s.cycle + 1) s.execute := by
  have hway := dates_perm (execute_queues s.executing s.wbFast s.wbSlow (s.cycle + 1))
  have hcount (c : ℕ) : (dates s.execute.onTheWay).count c = (dates s.onTheWay).count c :=
    hway.count_eq c
  refine ⟨h.window, h.census.congr hcount, fun c => (hcount c).trans_le (h.room c), fun u hu => ?_,
    fun u hu => ?_, fun u hu => ?_⟩
  · obtain ⟨hu, hlate⟩ := List.mem_filter.mp hu
    exact ⟨by simpa using hlate, (h.executing u hu).2⟩
  · simp only [Cpu.execute, hempty, List.nil_append, List.mem_filter, Bool.and_eq_true,
      decide_eq_true_eq, Bool.not_eq_true'] at hu
    have := (h.executing u hu.1).1
    exact ⟨hu.2.2, by omega⟩
  · simp only [Cpu.execute, List.mem_append, List.mem_filter, Bool.and_eq_true] at hu
    cases hu with
    | inl hu => exact h.slow u hu
    | inr hu => exact hu.2.2

theorem turnAway {why : Stall} (h : Ledger cfg late s) (ha : s.attempt e = .turnedAway s' why) :
    Ledger cfg late s' := by
  rcases attempt_turnedAway ha with rfl | ⟨_, fu, _, _, rfl⟩
  · exact h
  · exact ⟨h.window, h.census, h.room, h.executing, h.fast, h.slow⟩

theorem latencyOf_le (cfg : Config) (d : Decoded) :
    1 ≤ latencyOf cfg d ∧ latencyOf cfg d ≤ cfg.longest := by
  simp only [latencyOf, Config.longest]
  cases d.kind <;> simp only <;> omega

theorem launched_latency (hcoh : s.Coherent cfg) (he : e ∈ s.iq.entries)
    (ha : s.attempt e = .launched s' v latency f unit) : 1 ≤ latency ∧ latency ≤ cfg.longest := by
  have hlat : e.latency = latencyOf cfg (s.inflight e.rob).dec :=
    congrArg IssueQueue.Entry.latency (hcoh.candidate he).2.2
  have hbounds := latencyOf_le cfg (s.inflight e.rob).dec
  have hone := one_le_longest cfg
  by_cases hl : (s.inflight e.rob).dec.isLoad = true
  · rcases (attempt_load ha hl).2.1 with h | h <;> omega
  · have := (attempt_other ha (by simpa using hl)).2.1
    omega

/-- A launch books a port that is free exactly when its result is one that books. -/
private theorem launched_booked (ha : s.attempt e = .launched s' v latency f unit) :
    if books (s.inflight e.rob) then
      s.cdbBooked ((s.cycle + latency) % s.cdbWindow) < s.cfg.numCdb ∧
        s'.cdbBooked = fun i => if i = (s.cycle + latency) % s.cdbWindow then s.cdbBooked i + 1
          else s.cdbBooked i
      else s'.cdbBooked = s.cdbBooked := by
  by_cases hl : (s.inflight e.rob).dec.isLoad = true
  · obtain ⟨-, -, _, _, _, _, -, rfl, -⟩ := attempt_load ha hl
    simp [books, hl]
  · obtain ⟨-, -, booked, hbooked, -, rfl⟩ := attempt_other ha (by simpa using hl)
    simpa [books, hl] using hbooked

/-- A launch adds its own date to those on their way, if it books one. -/
private theorem launched_dates (ha : s.attempt e = .launched s' v latency f unit) {x : Uop}
    (hbooks : books x = books (s.inflight e.rob)) (hwb : x.wbCycle = s.cycle + latency) (c : ℕ) :
    (dates (s'.launch e x latency f unit).onTheWay).count c =
      if books (s.inflight e.rob) = true ∧ c = s.cycle + latency then (dates s.onTheWay).count c + 1
      else (dates s.onTheWay).count c := by
  have hway := (dates_perm (launch_onTheWay ha x)).count_eq
  rw [hway, dates]
  by_cases hx : books x = true
  · rw [List.filter_cons_of_pos hx, List.map_cons, List.count_cons, hwb, ← hbooks]
    by_cases hcx : c = s.cycle + latency
    · simp [hx, hcx, dates]
    · have hcx' : ¬s.cycle + latency = c := fun hne => hcx hne.symm
      simp [hcx, hcx', dates]
  · rw [List.filter_cons_of_neg hx, ← hbooks, if_neg (by simp [hx]), dates]

private theorem launch_census (h : Ledger cfg (s.cycle + 1) s) (hcfg : s.cfg = cfg)
    (hlatency : 1 ≤ latency ∧ latency ≤ cfg.longest)
    (ha : s.attempt e = .launched s' v latency f unit) {x : Uop}
    (hbooks : books x = books (s.inflight e.rob)) (hwb : x.wbCycle = s.cycle + latency) :
    BookingRing.Census s'.cdbBooked s.cdbWindow s.cycle
        (fun c => (dates (s'.launch e x latency f unit).onTheWay).count c) ∧
      ∀ c, (dates (s'.launch e x latency f unit).onTheWay).count c ≤ cfg.numCdb := by
  have hcounts := launched_dates ha hbooks hwb
  have hbooked := launched_booked ha
  have hwindow := h.window
  by_cases hb : books (s.inflight e.rob) = true
  · rw [if_pos hb] at hbooked
    rw [hbooked.2]
    refine ⟨(h.census.book (a := s.cycle + latency) (by omega) (by omega)).congr fun c => ?_,
      fun c => ?_⟩
    · rw [hcounts]
      simp only [hb, true_and]
    · rw [hcounts]
      split
      · rename_i hc'
        have hdue := h.census (s.cycle + latency) (by omega) (by omega)
        rw [hc'.2]
        have hfree := hbooked.1
        rw [hdue, hcfg] at hfree
        exact hfree
      · exact h.room c
  · rw [if_neg hb] at hbooked
    rw [hbooked]
    refine ⟨h.census.congr fun c => ?_, fun c => ?_⟩
    · rw [hcounts, if_neg (by simp [hb])]
    · rw [hcounts, if_neg (by simp [hb])]
      exact h.room c

theorem launch (h : Ledger cfg (s.cycle + 1) s) (hcoh : s.Coherent cfg) (hc : 0 < s.cycle)
    (he : e ∈ s.iq.entries)
    (ha : s.attempt e = .launched s' v latency f unit) :
    Ledger cfg (s.cycle + 1) (s'.launch e (stamped s' v latency) latency f unit) := by
  have hlatency := launched_latency hcoh he ha
  obtain ⟨hissues, hcyc⟩ := attempt_issues hc ha
  have hback := attempt_back ha
  have hwb : (stamped s' v latency).wbCycle = s.cycle + latency := by rw [← hcyc]; rfl
  have hbooks : books (stamped s' v latency) = books (s.inflight e.rob) := by
    rw [books, hissues.dec, books]
  generalize stamped s' v latency = x at *
  obtain ⟨hexecuting, hfast, hslow⟩ := mem_launch ha x
  obtain ⟨hcensus, hroom⟩ := launch_census h hcoh.sized.cfg_eq hlatency ha hbooks hwb
  refine ⟨hback.cdbWindow.trans h.window, ?_, hroom, fun u hu => ?_, fun u hu => ?_, fun u hu => ?_⟩
  · change BookingRing.Census s'.cdbBooked s'.cdbWindow s'.cycle _
    rw [hback.cdbWindow, hcyc]
    exact hcensus
  · change _ ∧ u.wbCycle ≤ s'.cycle + _
    rw [hcyc]
    rcases hexecuting u hu with hold | ⟨rfl, hlat⟩
    · exact h.executing u hold
    · omega
  · rcases hfast u hu with hold | ⟨rfl, hlat, hl⟩
    · exact h.fast u hold
    · exact ⟨hl, by omega⟩
  · rcases hslow u hu with hold | ⟨rfl, -, hl⟩
    · exact h.slow u hold
    · exact hl

/-- Giving back booked results that are still to come takes each off its counter. -/
private theorem foldl_releaseCdb (cycle window : ℕ) (booked : ℕ → ℕ)
    (hus : ∀ u ∈ us, books u = true → cycle < u.wbCycle) :
    us.foldl (releaseCdb cycle window) booked = fun i => booked i - (dates us).countP fun d =>
      d % window = i := by
  induction us generalizing booked with
  | nil => rfl
  | cons u us ih =>
    rw [List.foldl_cons, ih _ fun v hv => hus v (List.mem_cons_of_mem _ hv)]
    funext i
    by_cases hb : books u = true
    · have hlate := hus u List.mem_cons_self hb
      simp only [books, Bool.and_eq_true, Bool.not_eq_true'] at hb
      simp only [releaseCdb, hb, Bool.not_true, Bool.or_self, Bool.false_eq_true, if_false,
        if_neg (not_le.mpr hlate)]
      rw [dates, dates, List.filter_cons_of_pos (by simp [books, hb]), List.map_cons,
        List.countP_cons]
      by_cases hi : i = u.wbCycle % window
      · simp [hi]
        omega
      · have hi' : ¬u.wbCycle % window = i := fun hne => hi hne.symm
        simp [hi, hi']
    · have hskip : (!u.dec.writesRd || u.dec.isLoad) = true := by
        simp only [books, Bool.and_eq_true, Bool.not_eq_true', not_and, Bool.not_eq_false] at hb
        by_cases hwr : u.dec.writesRd = true
        · simp [hb hwr]
        · simp [hwr]
      rw [dates, dates, List.filter_cons_of_neg hb, releaseCdb, if_pos hskip]

/-- A squash returns exactly the bookings of what it drops. -/
theorem recover (h : Ledger cfg (s.cycle + 1) s) (br : Uop) :
    Ledger cfg (s.cycle + 1) (s.recover br) ∧ s.ReturnsBookings br := by
  have hone := one_le_longest cfg
  have hsplit (c : ℕ) := (dates_perm (recover_onTheWay s br)).count_eq c
  simp only [dates_append, List.count_append] at hsplit
  have hrange : ∀ d ∈ dates (s.onTheWay.filter fun u => br.seq < u.seq), s.cycle ≤ d ∧
      d < s.cycle + s.cdbWindow := by
    intro d hd
    obtain ⟨u, hu, hb, rfl⟩ := mem_dates hd
    have hmem : u.wbCycle ∈ dates s.onTheWay :=
      List.mem_map_of_mem (List.mem_filter.mpr ⟨List.mem_of_mem_filter hu, hb⟩)
    have := h.date_bounds hmem (by omega)
    rw [h.window]
    omega
  have hring : (s.recover br).cdbBooked = fun i => s.cdbBooked i -
      (dates (s.onTheWay.filter fun u => br.seq < u.seq)).countP fun d => d % s.cdbWindow = i := by
    apply foldl_releaseCdb s.cycle s.cdbWindow s.cdbBooked
    intro u hu hb
    have hmem : u.wbCycle ∈ dates s.onTheWay :=
      List.mem_map_of_mem (List.mem_filter.mpr ⟨List.mem_of_mem_filter hu, hb⟩)
    have := h.date_bounds hmem (by omega)
    omega
  refine ⟨⟨h.window, ?_, fun c => ?_, fun u hu => ?_, fun u hu => ?_, fun u hu => ?_⟩, fun i => ?_⟩
  · rw [hring]
    apply (h.census.release hrange).congr
    intro c
    have := hsplit c
    omega
  · have := hsplit c
    have := h.room c
    omega
  · exact h.executing u (List.mem_of_mem_filter hu)
  · exact h.fast u (List.mem_of_mem_filter hu)
  · exact h.slow u (List.mem_of_mem_filter hu)
  · have hdropped : dates (s.onTheWay.filter fun u => br.seq < u.seq) =
        dates ((s.executing ++ s.wbFast).filter fun u => br.seq < u.seq) := by
      rw [onTheWay, List.filter_append, dates_append,
        dates_loads fun u hu => h.slow u (List.mem_of_mem_filter hu), List.append_nil]
    have hle := h.census.countP_le hrange (fun c => by have := hsplit c; omega) i
    rw [← hdropped, hring]
    dsimp only
    omega

theorem issueScan (h : Ledger cfg (s.cycle + 1) s) (hcoh : s.Coherent cfg) (hc : 0 < s.cycle) :
    Ledger cfg (s.cycle + 1) s.issueScan.cpu := by
  refine (issueScan_preserves
    (P := fun p => p.Sane cfg ∧ p.cpu.cycle = s.cycle ∧ Ledger cfg (s.cycle + 1) p.cpu)
    (fun p e hp he _ => ?_) ⟨⟨hcoh, hc, by simp⟩, rfl, h⟩).2.2
  obtain ⟨hsane, hcyc, hled⟩ := hp
  refine ⟨hsane.issueOne he, (issueOne_keeps p e).cycle.trans hcyc, ?_⟩
  simp only [issueOne]
  cases ha : p.cpu.attempt e with
  | turnedAway s' why => exact hled.turnAway ha
  | launched s' u latency f unit =>
    rw [← hcyc] at hled ⊢
    exact hled.launch hsane.coherent hsane.cycle_pos he ha

theorem issue (h : Ledger cfg (s.cycle + 1) s) (hcoh : s.Coherent cfg) (hc : 0 < s.cycle) :
    Ledger cfg (s.cycle + 1) s.issue ∧
      ∀ br, s.issueScan.offender = some br → (chargeSlots s.issueScan).ReturnsBookings br := by
  have hcyc : (chargeSlots s.issueScan).cycle = s.cycle :=
    (chargeSlots_sameBack s.issueScan).cycle.trans (issueScan_keeps s).cycle
  have hscan := (h.issueScan hcoh hc).same (chargeSlots_sameBack s.issueScan)
  rw [← hcyc] at hscan ⊢
  simp only [Cpu.issue]
  cases s.issueScan.offender with
  | none => exact ⟨hscan, by simp⟩
  | some br =>
    obtain ⟨hrecover, hreturns⟩ := hscan.recover br
    exact ⟨hrecover, fun br' hbr => (Option.some.inj hbr) ▸ hreturns⟩

/-- The machine writeback finds in a cycle that does not end the run. -/
theorem commit (h : Ledger cfg (s.cycle + 1) s) (hd : s.done = false)
    (hd' : s.beginCycle.commit.done = false) :
    Ledger cfg s.beginCycle.commit.cycle s.beginCycle.commit := by
  have hback := commit_sameBack (show s.beginCycle.done = false from hd) hd'
  rw [hback.cycle]
  exact h.beginCycle.same hback

/-- The machine issue finds in such a cycle. -/
theorem beforeIssue (h : Ledger cfg (s.cycle + 1) s) (hcoh : s.beginCycle.commit.Coherent cfg)
    (hd : s.done = false) (hd' : s.beginCycle.commit.done = false) :
    Ledger cfg (s.beforeIssue.cycle + 1) s.beforeIssue := by
  have hled := h.commit hd hd'
  have hcfg := hcoh.sized.cfg_eq
  obtain ⟨slow, -, -, hback⟩ := hled.writeback_back hcfg
  have hwritten := hled.writeback hcfg
  have hcyc : s.beginCycle.commit.writeback.cycle = s.beginCycle.commit.cycle := hback.cycle
  rw [← hcyc] at hwritten
  exact hwritten.execute hback.wbFast

theorem tick {log : List Uop} (h : Ledger cfg (s.cycle + 1) s)
    (hs : Steady kinds cfg entryPc (s, log)) : Ledger cfg (s.tick.cycle + 1) s.tick := by
  refine tick_cases (P := fun t => Ledger cfg (t.cycle + 1) t) (fun _ => h)
    (fun hd hd' => ?_) fun hd hd' => ?_
  · obtain ⟨t, hback, heq⟩ := commit_squashes (show s.beginCycle.done = false from hd) hd'
    rw [heq]
    have hsquash := (h.beginCycle.same hback).squashInFlight
    exact ⟨hsquash.window, hsquash.census, hsquash.room,
      fun u hu => absurd hu (by simp [Cpu.squashInFlight]),
      fun u hu => absurd hu (by simp [Cpu.squashInFlight]), hsquash.slow⟩
  · obtain ⟨log', hbefore, hc, -⟩ := hs.beforeIssue hd'
    have hissued := (h.beforeIssue hs.coherent.beginCycle.commit hd hd').issue hbefore.coherent hc
    have hfront := frontHalf_sameBack s.beforeIssue.issue
    rw [hfront.cycle, (issue_keeps _).cycle]
    exact hissued.1.same hfront

theorem booked (h : Ledger cfg (s.cycle + 1) s) : s.Booked cfg where
  coming k hk hk' := by
    have hslot := h.census (s.cycle + k) (by omega) (by rw [h.window]; omega)
    have hroom := h.room (s.cycle + k)
    simp only [h.dates_onTheWay] at hslot hroom
    exact ⟨hslot, hroom⟩
  current := by
    have hone := one_le_longest cfg
    rw [h.census s.cycle (le_refl _) (by rw [h.window]; omega)]
    exact h.count_eq_zero (by omega) (.inl (Nat.lt_succ_self _))
  pending u hu hl := by
    rw [onTheWay, List.append_assoc, List.mem_append, List.mem_append] at hu
    rcases hu with hu | hu | hu
    · have := (h.executing u hu).1
      omega
    · have := (h.fast u hu).2
      omega
    · rw [h.slow u hu] at hl
      contradiction

end Ledger

/-- A result on its way is still on its way after writeback, or has landed. -/
theorem Coherent.writeback_landed (hcoh : s.Coherent cfg) (hc : 0 < s.cycle) (hu : u ∈ s.onTheWay) :
    u ∈ s.writeback.onTheWay ∨ s.landed u ∈ s.writeback.window := by
  refine (writeback_preserves (P := fun t => t.Coherent cfg ∧ t.cycle = s.cycle ∧
    (u ∈ t.onTheWay ∨ s.landed u ∈ t.window)) (fun {t a fast slow} ht hq => ?_)
    (fun _ ht => ⟨ht.1.clearBooking _, ht.2⟩) ⟨hcoh, rfl, .inl hu⟩).2.2
  obtain ⟨ht, hcyc, hplace⟩ := ht
  obtain ⟨hcoh', pre, post, hw, hw'⟩ := ht.complete (hcyc ▸ hc) hq
  refine ⟨hcoh', hcyc, ?_⟩
  rw [hw']
  have hlanded : t.landed a = s.landed a := by rw [landed, hcyc, landed]
  cases hplace with
  | inl hplace =>
    rcases List.mem_cons.mp (hq.subset hplace) with rfl | hrest
    · rw [hlanded]
      exact .inr (by simp)
    · exact .inl hrest
  | inr hplace =>
    right
    rw [hw, List.mem_append, List.mem_cons] at hplace
    rw [List.mem_append, List.mem_cons]
    rcases hplace with hmem | hsame | hmem
    · exact .inl hmem
    · -- what lands now has not been complete before
      have hrun := (ht.staged.mem_running (hq.symm.subset List.mem_cons_self)).2
      rw [← hsame] at hrun
      simp [Uop.running, Uop.isComplete, landed] at hrun
      omega
    · exact .inr (.inr hmem)

/-- A writeback that finds an exact ledger lands every result in the cycle it is booked for. -/
theorem Ledger.honours (h : Ledger cfg s.cycle s) (hcoh : s.Coherent cfg) (hc : 0 < s.cycle) :
    s.HonoursBookings := by
  obtain ⟨slow, hsuffix, hports, hback⟩ := h.writeback_back hcoh.sized.cfg_eq
  refine ⟨hback.wbFast, fun u hu => ?_, ?_⟩
  · obtain ⟨hl, hwb⟩ := h.fast u hu
    refine ⟨hl, hwb, ?_⟩
    cases hcoh.writeback_landed hc (show u ∈ s.onTheWay by simp [onTheWay, hu]) with
    | inl hway =>
      rw [onTheWay, hback.executing, hback.wbFast, hback.wbSlow, List.append_nil,
        List.mem_append] at hway
      cases hway with
      | inl hway =>
        have := (h.executing u hway).1
        omega
      | inr hway =>
        rw [h.slow u (hsuffix.subset hway)] at hl
        contradiction
    | inr hlanded => exact hlanded
  · rw [hback.wbSlow]
    exact hports

/-- The ring of bookings is exact over every run, is honoured in every cycle, and a squash returns
what it took. -/
theorem booked_ticked (mem : Memory) (cfg : Config) (entryPc : Word) (k : ℕ) (h : cfg.Admissible)
    (hb : (ticked mem cfg entryPc k).stats.renamed < 4294967296)
    (hself : NoSelfMod (committed mem cfg entryPc k)) : (ticked mem cfg entryPc k).Booked cfg ∧
      ((ticked mem cfg entryPc k).done = false →
        (ticked mem cfg entryPc k).beginCycle.commit.done = false →
          (ticked mem cfg entryPc k).beginCycle.commit.HonoursBookings ∧
            ∀ br, (ticked mem cfg entryPc k).beforeIssue.issueScan.offender = some br →
              (chargeSlots (ticked mem cfg entryPc k).beforeIssue.issueScan).ReturnsBookings
                br) := by
  have hled : Ledger cfg ((ticked mem cfg entryPc k).cycle + 1) (ticked mem cfg entryPc k) :=
    ticked_induct (P := fun _ t => Ledger cfg (t.cycle + 1) t) mem h (.reset h mem)
      (fun _ hs _ ht => ht.tick hs) k hself hb
  have hsteady := steady_ticked h mem k hself hb
  refine ⟨hled.booked, fun hd hd' => ?_⟩
  have hcoh := hsteady.coherent.beginCycle.commit
  obtain ⟨log', hbefore, hc, -⟩ := hsteady.beforeIssue hd'
  refine ⟨(hled.commit hd hd').honours hcoh (by rw [commit_cycle]; exact Nat.succ_pos _), ?_⟩
  exact ((hled.beforeIssue hcoh hd hd').issue hbefore.coherent hc).2

theorem booked_ticked_skipping : (ticked skipping {} 0 9).Booked {} ∧
    ((ticked skipping {} 0 9).done = false →
      (ticked skipping {} 0 9).beginCycle.commit.done = false →
        (ticked skipping {} 0 9).beginCycle.commit.HonoursBookings ∧
          ∀ br, (ticked skipping {} 0 9).beforeIssue.issueScan.offender = some br →
            (chargeSlots (ticked skipping {} 0 9).beforeIssue.issueScan).ReturnsBookings br) :=
  booked_ticked skipping {} 0 9 admissible_default (by decide +kernel) (by decide +kernel)

end OooCpu.Cpu
