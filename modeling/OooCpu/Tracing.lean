import OooCpu.RetireSteps
import OooCpu.History

/-! # Watching the machine

Observation is a field of the state that no stage reads except to add to it. Two
machines that differ only in it stay so for ever, whoever watches which. -/
namespace OooCpu.Cpu

/-- The same machine but for who is watching and what was recorded. -/
def Alike (s t : Cpu) : Prop := ∃ o : Observer, t = { s with obs := o }

namespace Alike
variable {s t u : Cpu}

theorem refl (s : Cpu) : Alike s s := ⟨s.obs, rfl⟩

theorem symm (h : Alike s t) : Alike t s := by
  obtain ⟨o, rfl⟩ := h
  exact ⟨s.obs, rfl⟩

theorem trans (h : Alike s t) (h' : Alike t u) : Alike s u := by
  obtain ⟨o, rfl⟩ := h
  obtain ⟨o', rfl⟩ := h'
  exact ⟨o', rfl⟩

theorem done (h : Alike s t) : t.done = s.done := by
  obtain ⟨o, rfl⟩ := h
  rfl

theorem cycle (h : Alike s t) : t.cycle = s.cycle := by
  obtain ⟨o, rfl⟩ := h
  rfl

end Alike

variable {s t : Cpu}

theorem fetchOne_alike (h : Alike s t) : (fetchOne s).Alike Alike (fetchOne t) := by
  obtain ⟨o, rfl⟩ := h
  simp only [fetchOne]
  split
  · exact .stop ⟨_, rfl⟩
  split
  · exact .stop ⟨_, rfl⟩
  · exact .more ⟨_, rfl⟩

theorem decodeOne_alike (h : Alike s t) : (decodeOne s).Alike Alike (decodeOne t) := by
  obtain ⟨o, rfl⟩ := h
  simp only [decodeOne]
  split
  · exact .stop ⟨_, rfl⟩
  split
  · exact .stop ⟨_, rfl⟩
  · next f rest _ _ =>
    change Flow.Alike Alike (if (s.decoded f).dec.kind = .trap then _ else _)
      (if (s.decoded f).dec.kind = .trap then _ else _)
    split
    · exact .stop ⟨_, rfl⟩
    · exact .more ⟨_, rfl⟩

theorem renameOne_alike (h : Alike s t) : (renameOne s).Alike Alike (renameOne t) := by
  obtain ⟨o, rfl⟩ := h
  simp only [renameOne]
  split
  · exact .stop ⟨_, rfl⟩
  split
  · exact .stop ⟨_, rfl⟩
  split
  · exact .stop ⟨_, rfl⟩
  split
  · exact .stop ⟨_, rfl⟩
  split
  · split
    · exact .stop ⟨_, rfl⟩
    · exact .more ⟨_, rfl⟩
  · exact .more ⟨_, rfl⟩

theorem dispatchOne_alike (h : Alike s t) : (dispatchOne s).Alike Alike (dispatchOne t) := by
  obtain ⟨o, rfl⟩ := h
  simp only [dispatchOne]
  split
  · exact .stop ⟨_, rfl⟩
  split
  · exact .stop ⟨_, rfl⟩
  split
  · split
    · exact .stop ⟨_, rfl⟩
    · exact .more ⟨_, rfl⟩
  split
  · split
    · exact .stop ⟨_, rfl⟩
    · exact .more ⟨_, rfl⟩
  · exact .more ⟨_, rfl⟩

theorem retire_alike (rob : Rob) (u : Uop) (h : Alike s t) :
    Alike (s.retire rob u) (t.retire rob u) := by
  obtain ⟨o, rfl⟩ := h
  exact ⟨_, rfl⟩

theorem squashInFlight_alike (h : Alike s t) : Alike s.squashInFlight t.squashInFlight := by
  obtain ⟨o, rfl⟩ := h
  exact ⟨_, rfl⟩

theorem commitOne_alike (h : Alike s t) : (commitOne s).Alike Alike (commitOne t) := by
  obtain ⟨o, rfl⟩ := h
  simp only [commitOne]
  split
  · exact .stop ⟨_, rfl⟩
  · next rob _ =>
    have hr : Alike (s.retire rob (s.inflight s.rob.head))
      (retire { s with obs := o } rob (s.inflight s.rob.head)) :=
      retire_alike rob _ ⟨o, rfl⟩
    rw [hr.done]
    split
    · exact .stop (squashInFlight_alike hr)
    · exact .more hr

/-- Writeback carries its remaining ports along. -/
def PortsAlike (p q : Cpu × ℕ) : Prop := Alike p.1 q.1 ∧ p.2 = q.2

theorem writebackFastOne_alike {p q : Cpu × ℕ} (h : PortsAlike p q) :
    (writebackFastOne p).Alike PortsAlike (writebackFastOne q) := by
  obtain ⟨s, ports⟩ := p
  obtain ⟨t, ports'⟩ := q
  obtain ⟨⟨o, ho⟩, hp⟩ := h
  dsimp only at ho hp
  subst ho hp
  simp only [writebackFastOne]
  split
  · exact .stop ⟨⟨_, rfl⟩, rfl⟩
  split
  · exact .stop ⟨⟨_, rfl⟩, rfl⟩
  · exact .more ⟨⟨_, rfl⟩, rfl⟩

theorem writebackSlowOne_alike {p q : Cpu × ℕ} (h : PortsAlike p q) :
    (writebackSlowOne p).Alike PortsAlike (writebackSlowOne q) := by
  obtain ⟨s, ports⟩ := p
  obtain ⟨t, ports'⟩ := q
  obtain ⟨⟨o, ho⟩, hp⟩ := h
  dsimp only at ho hp
  subst ho hp
  simp only [writebackSlowOne]
  split
  · exact .stop ⟨⟨_, rfl⟩, rfl⟩
  split
  · exact .stop ⟨⟨_, rfl⟩, rfl⟩
  · exact .more ⟨⟨_, rfl⟩, rfl⟩

/-- Attempts that end the same way. -/
inductive Attempt.Alike : Attempt → Attempt → Prop
  | turnedAway {s t : Cpu} {why : Stall} (h : Cpu.Alike s t) :
      Attempt.Alike (.turnedAway s why) (.turnedAway t why)
  | launched {s t : Cpu} {u : Uop} {latency : ℕ} {f : Fu} {unit : ℕ} (h : Cpu.Alike s t) :
    Attempt.Alike (.launched s u latency f unit) (.launched t u latency f unit)

theorem executeLoad_alike (u : Uop) (latency : ℕ) (h : Alike s t) :
    Alike (s.executeLoad u latency).1 (t.executeLoad u latency).1 ∧
      (t.executeLoad u latency).2 = (s.executeLoad u latency).2 := by
  obtain ⟨o, rfl⟩ := h
  simp only [executeLoad]
  split <;> exact ⟨⟨_, rfl⟩, rfl⟩

/-- Both reserve a port, or neither needs or finds one. -/
theorem reserveCdb_alike (c : Prop) [Decidable c] (atCycle : ℕ) (h : Alike s t) :
    Option.Rel Alike (if c then s.reserveCdb atCycle else some s) (if c then t.reserveCdb atCycle
      else some t) := by
  obtain ⟨o, rfl⟩ := h
  simp only [reserveCdb]
  split
  · split
    · exact .none
    · exact .some ⟨_, rfl⟩
  · exact .some ⟨_, rfl⟩

theorem attempt_alike (e : IssueQueue.Entry) (h : Alike s t) :
    (s.attempt e).Alike (t.attempt e) := by
  have hinf : t.inflight = s.inflight := by
    obtain ⟨o, rfl⟩ := h
    rfl
  have hprf : t.prf = s.prf := by
    obtain ⟨o, rfl⟩ := h
    rfl
  have hunit : t.freeUnit (unitOf (s.inflight e.rob).dec) =
      s.freeUnit (unitOf (s.inflight e.rob).dec) := by
    obtain ⟨o, rfl⟩ := h
    rfl
  simp only [attempt, hinf, hprf, hunit, h.cycle]
  split
  · exact .turnedAway h
  next unit _ =>
  split
  · obtain ⟨hs, hr⟩ := executeLoad_alike
      { s.inflight e.rob with
        val1 := s.prf.read (s.inflight e.rob).src1
        val2 := s.prf.read (s.inflight e.rob).src2 } e.latency h
    generalize s.executeLoad _ e.latency = a, t.executeLoad _ e.latency = b at hs hr
    obtain ⟨s', r⟩ := a
    obtain ⟨t', r'⟩ := b
    dsimp only at hs hr
    subst hr
    obtain ⟨o, rfl⟩ := hs
    cases r' with
    | none => exact .turnedAway ⟨_, rfl⟩
    | some r => exact .launched ⟨_, rfl⟩
  · have hbook := reserveCdb_alike ((s.inflight e.rob).dec.writesRd = true) (s.cycle + e.latency) h
    generalize (if (s.inflight e.rob).dec.writesRd = true then s.reserveCdb (s.cycle + e.latency)
      else some s) = a,
      (if (s.inflight e.rob).dec.writesRd = true then t.reserveCdb (s.cycle + e.latency)
        else some t) = b at hbook
    cases hbook with
    | none => exact .turnedAway h
    | some hs =>
      obtain ⟨o, rfl⟩ := hs
      exact .launched ⟨_, rfl⟩

/-- Issue passes with the same locals over machines alike. -/
structure PassAlike (p q : IssuePass) : Prop where
  cpu : Alike p.cpu q.cpu
  issued : q.issued = p.issued
  offender : q.offender = p.offender
  blocked : q.blocked = p.blocked

theorem launch_alike (e : IssueQueue.Entry) (u : Uop) (latency : ℕ) (f : Fu) (unit : ℕ)
    (h : Alike s t) : Alike (s.launch e u latency f unit) (t.launch e u latency f unit) := by
  obtain ⟨o, rfl⟩ := h
  exact ⟨_, rfl⟩

theorem issueOne_alike {p q : IssuePass} (e : IssueQueue.Entry) (h : PassAlike p q) :
    PassAlike (issueOne p e) (issueOne q e) := by
  have ha := attempt_alike e h.cpu
  simp only [issueOne]
  generalize p.cpu.attempt e = a, q.cpu.attempt e = b at ha
  cases ha with
  | turnedAway hs => exact ⟨hs, h.issued, h.offender, by rw [h.blocked]⟩
  | launched hs =>
    simp only [hs.cycle, h.offender, h.issued]
    exact ⟨launch_alike e _ _ _ _ hs, rfl, rfl, h.blocked⟩

theorem issueLoop_alike (es : List IssueQueue.Entry) {p q : IssuePass} (h : PassAlike p q) :
    PassAlike (issueLoop es p) (issueLoop es q) := by
  induction es generalizing p q with
  | nil => exact h
  | cons e rest ih =>
    have hwidth : q.cpu.cfg.width = p.cpu.cfg.width := by
      obtain ⟨o, ho⟩ := h.cpu
      rw [ho]
    simp only [issueLoop, hwidth, h.issued]
    split
    · exact h
    · exact ih (issueOne_alike e h)

theorem issueScan_alike (h : Alike s t) : PassAlike s.issueScan t.issueScan := by
  have hiq : t.iq = s.iq := by
    obtain ⟨o, rfl⟩ := h
    rfl
  rw [issueScan, issueScan, hiq]
  exact issueLoop_alike _ ⟨h, rfl, rfl, rfl⟩

theorem chargeSlots_alike {p q : IssuePass} (h : PassAlike p q) :
    Alike (chargeSlots p) (chargeSlots q) := by
  obtain ⟨o, ho⟩ := h.cpu
  simp only [chargeSlots, h.issued, h.blocked, ho]
  exact ⟨_, rfl⟩

theorem recover_alike (br : Uop) (h : Alike s t) : Alike (s.recover br) (t.recover br) := by
  obtain ⟨o, rfl⟩ := h
  exact ⟨_, rfl⟩

theorem fetch_alike (h : Alike s t) : Alike s.fetch t.fetch := by
  obtain ⟨o, rfl⟩ := h
  simp only [fetch]
  split
  · exact ⟨o, rfl⟩
  · exact forLoop_simulates Alike (fun _ _ => fetchOne_alike) _ ⟨o, rfl⟩

theorem decodeStage_alike (h : Alike s t) : Alike s.decodeStage t.decodeStage := by
  obtain ⟨o, rfl⟩ := h
  exact forLoop_simulates Alike (fun _ _ => decodeOne_alike) _ ⟨o, rfl⟩

theorem rename_alike (h : Alike s t) : Alike s.rename t.rename := by
  obtain ⟨o, rfl⟩ := h
  exact forLoop_simulates Alike (fun _ _ => renameOne_alike) _ ⟨o, rfl⟩

theorem dispatch_alike (h : Alike s t) : Alike s.dispatch t.dispatch := by
  obtain ⟨o, rfl⟩ := h
  exact forLoop_simulates Alike (fun _ _ => dispatchOne_alike) _ ⟨o, rfl⟩

theorem commit_alike (h : Alike s t) : Alike s.commit t.commit := by
  obtain ⟨o, rfl⟩ := h
  exact forLoop_simulates Alike (fun _ _ => commitOne_alike) _ ⟨o, rfl⟩

theorem issue_alike (h : Alike s t) : Alike s.issue t.issue := by
  have hp := issueScan_alike h
  simp only [issue, hp.offender]
  split
  · exact chargeSlots_alike hp
  · exact recover_alike _ (chargeSlots_alike hp)

theorem execute_alike (h : Alike s t) : Alike s.execute t.execute := by
  obtain ⟨o, rfl⟩ := h
  exact ⟨_, rfl⟩

theorem writeback_alike (h : Alike s t) : Alike s.writeback t.writeback := by
  have hfast : PortsAlike (forLoop writebackFastOne s.wbFast.length (s, s.cfg.numCdb))
      (forLoop writebackFastOne t.wbFast.length (t, t.cfg.numCdb)) := by
    obtain ⟨o, rfl⟩ := h
    exact forLoop_simulates PortsAlike (fun _ _ => writebackFastOne_alike) _ ⟨⟨o, rfl⟩, rfl⟩
  simp only [writeback]
  generalize forLoop writebackFastOne s.wbFast.length (s, s.cfg.numCdb) = p,
    forLoop writebackFastOne t.wbFast.length (t, t.cfg.numCdb) = q at hfast
  have hlen : q.1.wbSlow.length = p.1.wbSlow.length := by
    obtain ⟨⟨o, ho⟩, -⟩ := hfast
    rw [ho]
  have hslow : PortsAlike (forLoop writebackSlowOne p.1.wbSlow.length p)
      (forLoop writebackSlowOne q.1.wbSlow.length q) := by
    rw [hlen]
    exact forLoop_simulates PortsAlike (fun _ _ => writebackSlowOne_alike) _ hfast
  obtain ⟨⟨o, ho⟩, -⟩ := hslow
  rw [ho]
  exact ⟨_, rfl⟩

theorem tick_alike (h : Alike s t) : Alike s.tick t.tick := by
  have hbegin : Alike s.beginCycle t.beginCycle := by
    obtain ⟨o, rfl⟩ := h
    exact ⟨_, rfl⟩
  have hcommit := commit_alike hbegin
  simp only [tick, h.done, hcommit.done]
  split
  · exact h
  split
  · exact hcommit
  · exact fetch_alike <| decodeStage_alike <| rename_alike <| dispatch_alike <| issue_alike <|
      execute_alike <| writeback_alike hcommit

/-- The four switches an observer has. -/
structure Switches where
  observing : Bool
  recordDecode : Bool
  recordRename : Bool
  recordIssue : Bool

def observe (s : Cpu) (on : Bool) : Cpu := { s with obs := { s.obs with observing := on } }

def switch (s : Cpu) (w : Switches) : Cpu :=
  { s with
    obs := { s.obs with
      observing := w.observing
      recordDecode := w.recordDecode
      recordRename := w.recordRename
      recordIssue := w.recordIssue } }

/-- `n` cycles, the switches thrown before each as the schedule says. -/
def watched (schedule : ℕ → Switches) (s : Cpu) : ℕ → Cpu
  | 0 => s
  | n + 1 => ((watched schedule s n).switch (schedule n)).tick

theorem observe_alike (s : Cpu) (on : Bool) : Alike s (s.observe on) := ⟨_, rfl⟩

theorem switch_alike (s : Cpu) (w : Switches) : Alike s (s.switch w) := ⟨_, rfl⟩

theorem watched_alike (schedule schedule' : ℕ → Switches) (h : Alike s t) (n : ℕ) :
    Alike (watched schedule s n) (watched schedule' t n) := by
  induction n with
  | zero => exact h
  | succ n ih => exact tick_alike (((switch_alike _ _).symm.trans ih).trans (switch_alike _ _))

/-- A machine being traced, with the photographs taken so far. -/
structure Traced where
  cpu : Cpu
  records : List Cpu := []

/-- One cycle of the traced run: watched, and photographed, from `traceFrom` on. -/
def Traced.cycle (traceFrom : ℕ) (r : Traced) : Traced :=
  let s := (r.cpu.observe (traceFrom ≤ r.cpu.cycle + 1)).tick
  { cpu := s, records := if traceFrom ≤ s.cycle then r.records ++ [s] else r.records }

def traceLoop (traceFrom traceMax maxCycles : ℕ) : ℕ → Traced → Traced
  | 0, r => r
  | n + 1, r =>
    if r.cpu.done || maxCycles ≤ r.cpu.cycle || traceMax ≤ r.records.length then r
    else traceLoop traceFrom traceMax maxCycles n (r.cycle traceFrom)

/-- Trace a window of the run; the caller finishes it untraced. -/
def runWithTrace (s : Cpu) (traceFrom traceMax maxCycles : ℕ) : Traced :=
  let r := traceLoop traceFrom traceMax maxCycles (maxCycles - s.cycle) { cpu := s }
  { r with cpu := r.cpu.observe false }

variable {mem : Memory} {cfg : Config} {entryPc : Word} {traceFrom traceMax maxCycles n : ℕ}
    {r : Traced}

section Runs
variable (mem cfg entryPc)

/-- The machine is the one the plain run is in at that cycle, whoever watched it. -/
def Reached (s : Cpu) : Prop := Alike (ticked mem cfg entryPc s.cycle) s

/-- The plain run goes on after cycle `c`. -/
def GoesOn (maxCycles c : ℕ) : Prop := (ticked mem cfg entryPc c).done = false ∧ c < maxCycles

end Runs

namespace Reached

theorem reset : Reached mem cfg entryPc (Cpu.reset mem cfg entryPc) := .refl _

theorem observe (h : Reached mem cfg entryPc s) (on : Bool) :
    Reached mem cfg entryPc (s.observe on) :=
  h.trans (observe_alike s on)

theorem tick (h : Reached mem cfg entryPc s) (hd : s.done = false) :
    Reached mem cfg entryPc s.tick := by
  rw [Reached, tick_cycle hd, ticked_succ]
  exact tick_alike h

/-- The guard of both loops says whether the plain run goes on. -/
theorem guard (h : Reached mem cfg entryPc s) :
    (s.done || decide (maxCycles ≤ s.cycle)) = false ↔
      GoesOn mem cfg entryPc maxCycles s.cycle := by
  rw [GoesOn, ← h.done, Bool.or_eq_false_iff, decide_eq_false_iff_not, not_le]

theorem runLoop (h : Reached mem cfg entryPc s) (hfuel : maxCycles - s.cycle ≤ n)
    (hon : ∀ c < s.cycle, GoesOn mem cfg entryPc maxCycles c) :
    Reached mem cfg entryPc (s.runLoop maxCycles n) ∧
      (∀ c < (s.runLoop maxCycles n).cycle, GoesOn mem cfg entryPc maxCycles c) ∧
      ¬GoesOn mem cfg entryPc maxCycles (s.runLoop maxCycles n).cycle := by
  induction n generalizing s with
  | zero => exact ⟨h, hon, fun hgo => by have := hgo.2; simp only [Cpu.runLoop] at this; omega⟩
  | succ n ih =>
    simp only [Cpu.runLoop]
    split
    · next hstop => exact ⟨h, hon, fun hgo => by rw [h.guard.mpr hgo] at hstop; contradiction⟩
    · next hgo =>
      have hgo' := h.guard.mp (Bool.eq_false_of_not_eq_true hgo)
      have hd : s.done = false := h.done ▸ hgo'.1
      have hcycle := tick_cycle hd
      apply ih (h.tick hd) (by omega)
      intro c hc
      rcases Nat.lt_succ_iff_lt_or_eq.mp (hcycle ▸ hc) with hc | rfl
      · exact hon c hc
      · exact hgo'

end Reached

/-- What the traced loop keeps true. -/
structure Traced.Faithful (mem : Memory) (cfg : Config) (entryPc : Word)
    (traceFrom traceMax maxCycles : ℕ)
    (r : Traced) : Prop where
  reached : Reached mem cfg entryPc r.cpu
  goesOn : ∀ c < r.cpu.cycle, GoesOn mem cfg entryPc maxCycles c
  cycles : r.records.map Cpu.cycle =
    List.range' (max 1 traceFrom) (r.cpu.cycle + 1 - max 1 traceFrom)
  room : r.records.length ≤ traceMax
  photographs : ∀ s ∈ r.records, Reached mem cfg entryPc s

namespace Traced.Faithful

theorem cycle (h : r.Faithful mem cfg entryPc traceFrom traceMax maxCycles)
    (hgo : GoesOn mem cfg entryPc maxCycles r.cpu.cycle) (hroom : r.records.length < traceMax) :
    (r.cycle traceFrom).Faithful mem cfg entryPc traceFrom traceMax maxCycles ∧
      (r.cycle traceFrom).cpu.cycle = r.cpu.cycle + 1 := by
  have hw := h.reached.observe (traceFrom ≤ r.cpu.cycle + 1)
  have hd : (r.cpu.observe (traceFrom ≤ r.cpu.cycle + 1)).done = false := hw.done ▸ hgo.1
  have hcycle : (r.cpu.observe (traceFrom ≤ r.cpu.cycle + 1)).tick.cycle = r.cpu.cycle + 1 :=
    tick_cycle hd
  have hnext := hw.tick hd
  refine ⟨⟨hnext, fun c hc => ?_, ?_, ?_, ?_⟩, hcycle⟩
  · rcases Nat.lt_succ_iff_lt_or_eq.mp (hcycle ▸ hc) with hc | rfl
    · exact h.goesOn c hc
    · exact hgo
  · simp only [Traced.cycle, hcycle]
    split
    · have hlen : r.cpu.cycle + 1 + 1 - max 1 traceFrom =
        r.cpu.cycle + 1 - max 1 traceFrom + 1 := by omega
      have hnext : max 1 traceFrom + 1 * (r.cpu.cycle + 1 - max 1 traceFrom) = r.cpu.cycle + 1 := by
        omega
      rw [List.map_append, List.map_singleton, hcycle, h.cycles, hlen, List.range'_concat, hnext]
    · have hnone : r.cpu.cycle + 1 + 1 - max 1 traceFrom = 0 := by omega
      have hnone' : r.cpu.cycle + 1 - max 1 traceFrom = 0 := by omega
      rw [h.cycles, hnone, hnone']
  · simp only [Traced.cycle]
    split
    · rw [List.length_append, List.length_singleton]
      exact hroom
    · exact h.room
  · simp only [Traced.cycle]
    split
    · exact forall_mem_concat h.photographs hnext
    · exact h.photographs

theorem reset :
    ({ cpu := Cpu.reset mem cfg entryPc } : Traced).Faithful mem cfg entryPc traceFrom traceMax
      maxCycles := by
  refine ⟨.reset, fun c hc => absurd hc (Nat.not_lt_zero c), ?_, Nat.zero_le _, by simp⟩
  have hnone : 0 + 1 - max 1 traceFrom = 0 := by omega
  change [] = List.range' (max 1 traceFrom) (0 + 1 - max 1 traceFrom)
  rw [hnone, List.range'_zero]

theorem loop (h : r.Faithful mem cfg entryPc traceFrom traceMax maxCycles)
    (hfuel : maxCycles - r.cpu.cycle ≤ n) :
    (traceLoop traceFrom traceMax maxCycles n r).Faithful mem cfg entryPc traceFrom traceMax
      maxCycles ∧ ((traceLoop traceFrom traceMax maxCycles n r).records.length = traceMax ∨
        ¬GoesOn mem cfg entryPc maxCycles
          (traceLoop traceFrom traceMax maxCycles n r).cpu.cycle) := by
  induction n generalizing r with
  | zero =>
    refine ⟨h, .inr fun hgo => ?_⟩
    have := hgo.2
    simp only [traceLoop] at this
    omega
  | succ n ih =>
    simp only [traceLoop, Bool.or_eq_true, decide_eq_true_eq]
    split
    · next hstop =>
      refine ⟨h, ?_⟩
      cases hstop with
      | inl hstop =>
        refine .inr fun hgo => ?_
        have hguard := h.reached.guard.mpr hgo
        simp only [Bool.or_eq_false_iff, decide_eq_false_iff_not] at hguard
        cases hstop with
        | inl hd =>
          rw [hguard.1] at hd
          contradiction
        | inr hm => exact hguard.2 hm
      | inr hfull => exact .inl (le_antisymm h.room hfull)
    · next hgo =>
      rw [not_or, not_or, not_le, not_le] at hgo
      obtain ⟨⟨hd, hm⟩, hroom⟩ := hgo
      have hgo : GoesOn mem cfg entryPc maxCycles r.cpu.cycle :=
        ⟨h.reached.done ▸ Bool.eq_false_of_not_eq_true hd, hm⟩
      obtain ⟨hnext, hcycle⟩ := h.cycle hgo hroom
      exact ih hnext (by omega)

end Traced.Faithful

/-- The plain run ends where it stops going on. -/
theorem goesOn_unique {f g : ℕ} (hf : ∀ c < f, GoesOn mem cfg entryPc maxCycles c)
    (hf' : ¬GoesOn mem cfg entryPc maxCycles f) (hg : ∀ c < g, GoesOn mem cfg entryPc maxCycles c)
    (hg' : ¬GoesOn mem cfg entryPc maxCycles g) : f = g := by
  rcases lt_trichotomy f g with h | h | h
  · exact absurd (hg f h) hf'
  · exact h
  · exact absurd (hf g h) hg'

/-- Tracing never changes the run: neither for any two schedules of observation, nor for the traced
run of the command line, which photographs each cycle of its window once and in order. -/
theorem tracing_alike :
    (∀ (s t : Cpu), Alike s t → ∀ (schedule schedule' : ℕ → Switches) (n : ℕ),
      Alike (watched schedule s n) (watched schedule' t n)) ∧
    ∀ (mem : Memory) (cfg : Config) (entryPc : Word) (traceFrom traceMax maxCycles : ℕ),
      let plain := (reset mem cfg entryPc).run maxCycles
      let traced := runWithTrace (reset mem cfg entryPc) traceFrom traceMax maxCycles
      Alike plain (traced.cpu.run maxCycles) ∧
        (traced.records.map Cpu.cycle).Pairwise (· < ·) ∧
        (∀ c, c ∈ traced.records.map Cpu.cycle ↔
          max 1 traceFrom ≤ c ∧ c < max 1 traceFrom + traceMax ∧ c ≤ plain.cycle) ∧
        ∀ s ∈ traced.records, Alike (ticked mem cfg entryPc s.cycle) s := by
  refine ⟨fun s t h schedule schedule' n => watched_alike schedule schedule' h n, ?_⟩
  intro mem cfg entryPc traceFrom traceMax maxCycles plain traced
  have hstart : Traced.Faithful mem cfg entryPc traceFrom traceMax maxCycles
      { cpu := reset mem cfg entryPc } := by
    refine ⟨.reset, fun c hc => absurd hc (Nat.not_lt_zero c), ?_, Nat.zero_le _, by simp⟩
    have hnone : 0 + 1 - max 1 traceFrom = 0 := by omega
    change [] = List.range' (max 1 traceFrom) (0 + 1 - max 1 traceFrom)
    rw [hnone, List.range'_zero]
  obtain ⟨hend, hfull⟩ := hstart.loop (le_refl (maxCycles - (reset mem cfg entryPc).cycle))
  have hreset : Reached mem cfg entryPc (reset mem cfg entryPc) := .reset
  obtain ⟨hp, hpon, hpoff⟩ := hreset.runLoop
    (le_refl (maxCycles - (reset mem cfg entryPc).cycle)) fun c hc => absurd hc (Nat.not_lt_zero c)
  obtain ⟨ht, hton, htoff⟩ :=
    (hend.reached.observe false).runLoop (le_refl (maxCycles - _)) hend.goesOn
  have hsame : plain.cycle = (traced.cpu.run maxCycles).cycle := goesOn_unique hpon hpoff hton htoff
  have hcycles : traced.records.map Cpu.cycle =
      List.range' (max 1 traceFrom) (traced.cpu.cycle + 1 - max 1 traceFrom) := hend.cycles
  have hlen := congrArg List.length hcycles
  rw [List.length_map, List.length_range'] at hlen
  have hroom : traced.records.length ≤ traceMax := hend.room
  have hle : traced.cpu.cycle ≤ plain.cycle := by
    by_contra hlt
    exact hpoff (hend.goesOn _ (Nat.lt_of_not_le hlt))
  refine ⟨hp.symm.trans (hsame ▸ ht), ?_, fun c => ?_, hend.photographs⟩
  · rw [hcycles]
    exact List.pairwise_lt_range'
  · rw [hcycles, List.mem_range'_1]
    cases hfull with
    | inl hfull =>
      have hfull' : traced.records.length = traceMax := hfull
      omega
    | inr hoff =>
      have heq : traced.cpu.cycle = plain.cycle := goesOn_unique hend.goesOn hoff hpon hpoff
      omega

end OooCpu.Cpu
