import OooCpu.Steady

/-! # Units, ports and results on their way

What issue hands to execution and what nothing in front of issue touches: the
queues of results, the function units and the booking ring of the result bus.
A launch takes a free unit and, for a result of fixed latency, a port. -/
namespace OooCpu.Cpu
variable {kinds : Prop} {cfg : Config} {entryPc : Word} {s s' t : Cpu} {e : IssueQueue.Entry}
    {u v : Uop} {latency unit : ℕ} {f : Fu}

/-- Issued and not yet written back, wherever the result is waiting. -/
def onTheWay (s : Cpu) : List Uop := s.executing ++ s.wbFast ++ s.wbSlow

/-- Two machines with the same work behind issue. -/
structure SameBack (s t : Cpu) : Prop where
  cfg : t.cfg = s.cfg
  cycle : t.cycle = s.cycle
  executing : t.executing = s.executing
  wbFast : t.wbFast = s.wbFast
  wbSlow : t.wbSlow = s.wbSlow
  fuFreeAt : t.fuFreeAt = s.fuFreeAt
  cdbBooked : t.cdbBooked = s.cdbBooked
  cdbWindow : t.cdbWindow = s.cdbWindow

namespace SameBack

theorem refl (s : Cpu) : s.SameBack s := ⟨rfl, rfl, rfl, rfl, rfl, rfl, rfl, rfl⟩

theorem trans {a b c : Cpu} (h : a.SameBack b) (h' : b.SameBack c) : a.SameBack c :=
  ⟨h'.cfg.trans h.cfg, h'.cycle.trans h.cycle, h'.executing.trans h.executing,
    h'.wbFast.trans h.wbFast, h'.wbSlow.trans h.wbSlow, h'.fuFreeAt.trans h.fuFreeAt,
    h'.cdbBooked.trans h.cdbBooked, h'.cdbWindow.trans h.cdbWindow⟩

end SameBack

theorem FetchStep.sameBack (h : FetchStep s t) : s.SameBack t := by
  cases h <;> exact ⟨rfl, rfl, rfl, rfl, rfl, rfl, rfl, rfl⟩

theorem DecodeStep.sameBack (h : DecodeStep s t) : s.SameBack t := by
  cases h <;> exact ⟨rfl, rfl, rfl, rfl, rfl, rfl, rfl, rfl⟩

theorem RenameStep.sameBack (h : RenameStep s t) : s.SameBack t := by
  cases h <;> exact ⟨rfl, rfl, rfl, rfl, rfl, rfl, rfl, rfl⟩

theorem DispatchStep.sameBack (h : DispatchStep s t) : s.SameBack t := by
  cases h <;> exact ⟨rfl, rfl, rfl, rfl, rfl, rfl, rfl, rfl⟩

theorem frontHalf_sameBack (s : Cpu) : s.SameBack s.dispatch.rename.decodeStage.fetch :=
  behindIssue_preserves (P := fun t => s.SameBack t) (fun ht hstep => ht.trans hstep.sameBack)
    (fun ht hstep => ht.trans hstep.sameBack) (fun ht hstep => ht.trans hstep.sameBack)
    (fun ht _ hstep => ht.trans hstep.sameBack) (.refl s)

theorem retire_sameBack (s : Cpu) (rob : Rob) (u : Uop) : s.SameBack (s.retire rob u) :=
  ⟨rfl, rfl, rfl, rfl, rfl, rfl, rfl, rfl⟩

private theorem squashInFlight_pop (s : Cpu) : s.squashInFlight.rob.popHeadIfComplete = none := by
  simp [squashInFlight, Rob.squashAll, Rob.dropTo, Rob.popHeadIfComplete, Rob.isEmpty]

/-- Commit leaves the work behind issue alone unless the run ends, and then drops all of it. -/
theorem commit_back (hd : s.done = false) : s.SameBack s.commit ∧ s.commit.done = false ∨
    s.commit.done = true ∧ ∃ t, s.SameBack t ∧ s.commit = t.squashInFlight := by
  have hgoes {r : Cpu} {e : RobEntry} {rob : Rob} (hr : s.SameBack r ∧ r.done = false ∨
      r.done = true ∧ ∃ t, s.SameBack t ∧ r = t.squashInFlight)
        (hp : r.rob.popHeadIfComplete = some (e, rob)) :
      s.SameBack (r.retire rob (r.inflight r.rob.head)) := by
    rcases hr with hr | ⟨-, t, -, rfl⟩
    · exact hr.1.trans (r.retire_sameBack rob _)
    · rw [squashInFlight_pop] at hp
      contradiction
  exact commitOne_preserves (P := fun r => s.SameBack r ∧ r.done = false ∨
    r.done = true ∧ ∃ t, s.SameBack t ∧ r = t.squashInFlight)
      (fun hr hp hrunning => .inl ⟨hgoes hr hp, hrunning⟩)
    (fun hr hp hdone => .inr ⟨hdone, _, hgoes hr hp, rfl⟩) _ (.inl ⟨.refl s, hd⟩)

theorem commit_sameBack (hd : s.done = false) (hd' : s.commit.done = false) :
    s.SameBack s.commit := by
  obtain ⟨hback, -⟩ | ⟨hdone, -⟩ := commit_back hd
  · exact hback
  · rw [hd'] at hdone
    contradiction

theorem commit_squashes (hd : s.done = false) (hd' : s.commit.done = true) :
    ∃ t, s.SameBack t ∧ s.commit = t.squashInFlight := by
  obtain ⟨-, hrunning⟩ | ⟨-, hsquashed⟩ := commit_back hd
  · rw [hd'] at hrunning
    contradiction
  · exact hsquashed

/-- A load that is turned away with its address has spent the unit that computed it. -/
theorem attempt_turnedAway_units {why : Stall} (h : s.attempt e = .turnedAway s' why) :
    s'.fuFreeAt = s.fuFreeAt ∨ (s.inflight e.rob).dec.isLoad = true ∧
      ∃ unit, s.freeUnit (unitOf (s.inflight e.rob).dec) = some unit ∧
        s'.fuFreeAt = s.occupy .mem unit (s.cycle + 1) := by
  rcases attempt_turnedAway_cases h with ⟨rfl, -⟩ | ⟨hl, -, unit, n, obs, hunit, rfl⟩
  · exact .inl rfl
  · exact .inr ⟨hl, unit, hunit, rfl⟩

/-- Before it is handed over, a launch has booked a port at most. -/
theorem attempt_back (h : s.attempt e = .launched s' v latency f unit) :
    ({ s with cdbBooked := s'.cdbBooked } : Cpu).SameBack s' := by
  obtain ⟨_, _, _, _, _, rfl, -, -⟩ := attempt_frame h
  exact ⟨rfl, rfl, rfl, rfl, rfl, rfl, rfl, rfl⟩

/-- A launched uop joins the results on their way. -/
theorem launch_onTheWay (h : s.attempt e = .launched s' v latency f unit) (x : Uop) :
    (s'.launch e x latency f unit).onTheWay.Perm (x :: s.onTheWay) := by
  have hback := attempt_back h
  have hperm := @launch_queues latency s'.executing s'.wbFast s'.wbSlow x
  rw [hback.executing, hback.wbFast, hback.wbSlow] at hperm
  simp only [onTheWay, launch, hback.executing, hback.wbFast, hback.wbSlow]
  exact hperm

/-- Where a launched uop goes, by its latency and kind. -/
theorem mem_launch (h : s.attempt e = .launched s' v latency f unit) (x : Uop) :
    (∀ u ∈ (s'.launch e x latency f unit).executing, u ∈ s.executing ∨ u = x ∧ 1 < latency) ∧
      (∀ u ∈ (s'.launch e x latency f unit).wbFast, u ∈ s.wbFast ∨ u = x ∧ latency ≤ 1 ∧
        x.dec.isLoad = false) ∧ ∀ u ∈ (s'.launch e x latency f unit).wbSlow, u ∈ s.wbSlow ∨ u = x ∧
          latency ≤ 1 ∧ x.dec.isLoad = true := by
  have hback := attempt_back h
  have hpush {us : List Uop} {c : Prop} [Decidable c] :
      ∀ u ∈ (if c then us ++ [x] else us), u ∈ us ∨ u = x ∧ c := by
    intro u hu
    split at hu
    · rename_i hc
      cases List.mem_append.mp hu with
      | inl hu => exact .inl hu
      | inr hu => exact .inr ⟨List.mem_singleton.mp hu, hc⟩
    · exact .inl hu
  simp only [launch, hback.executing, hback.wbFast, hback.wbSlow]
  refine ⟨hpush, fun u hu => ?_, hpush⟩
  simpa using hpush u hu

/-- Recovery keeps the older results on their way and drops the younger ones. -/
theorem recover_onTheWay (s : Cpu) (br : Uop) :
    s.onTheWay.Perm ((s.recover br).onTheWay ++ s.onTheWay.filter fun u => br.seq < u.seq) := by
  have hkept : (s.recover br).onTheWay = s.onTheWay.filter fun u => u.seq ≤ br.seq := by
    simp only [onTheWay, recover, List.filter_append]
  have hnot : (fun u : Uop => decide (br.seq < u.seq)) = fun u => !decide (u.seq ≤ br.seq) := by
    funext u
    rw [← decide_not]
    exact decide_eq_decide.mpr not_le.symm
  rw [hkept, hnot]
  exact (List.filter_append_perm _ _).symm

theorem chargeSlots_sameBack (p : IssuePass) : p.cpu.SameBack (chargeSlots p) := by
  obtain ⟨t, heq, -⟩ := chargeSlots_eq p
  rw [heq]
  exact ⟨rfl, rfl, rfl, rfl, rfl, rfl, rfl, rfl⟩

/-- What every tick of a steady machine preserves holds after every tick of a run. -/
theorem ticked_induct {P : ℕ → Cpu → Prop} (mem : Memory) (h : cfg.Admissible)
    (hreset : P 0 (reset mem cfg entryPc))
    (hstep : ∀ j, Steady True cfg entryPc (ticked mem cfg entryPc j, committed mem cfg entryPc j) →
      (ticked mem cfg entryPc j).tick.stats.renamed < 4294967296 →
      P j (ticked mem cfg entryPc j) → P (j + 1) (ticked mem cfg entryPc j).tick) (k : ℕ)
    (hself : NoSelfMod (committed mem cfg entryPc k))
    (hb : (ticked mem cfg entryPc k).stats.renamed < 4294967296) :
    P k (ticked mem cfg entryPc k) := by
  induction k with
  | zero => exact hreset
  | succ k ih =>
    obtain ⟨hrenamed, more, hmore, -⟩ := tickLogged_extends (history mem cfg entryPc k)
    rw [← history_succ, history_fst, history_fst] at hrenamed
    have hself' : NoSelfMod (committed mem cfg entryPc k) := hself.mono fun u hu => by
      rw [committed, history_succ, hmore]
      exact List.mem_append_left _ hu
    rw [ticked_succ] at hrenamed hb ⊢
    exact hstep k (steady_ticked h mem k hself' (hrenamed.trans_lt hb)) hb
      (ih hself' (hrenamed.trans_lt hb))

end OooCpu.Cpu
