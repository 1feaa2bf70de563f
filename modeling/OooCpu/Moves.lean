import OooCpu.Booking

/-! # A cycle, one move at a time

All that a cycle does, cut into the moves of one uop, one queue or one pass of a
stage, each in the phase of the cycle it belongs to. What every move preserves
holds after every cycle of a run. -/
namespace OooCpu.Cpu
variable {kinds : Prop} {cfg : Config} {entryPc : Word} {s t : Cpu} {log log' : List Uop}

/-- The phases of a cycle, in the order they run. -/
inductive Phase
  | commit | writeback | execute | issue | dispatch | rename | decode | fetch | rest
  deriving DecidableEq, Repr

def Phase.order : Phase → ℕ
  | .commit => 0
  | .writeback => 1
  | .execute => 2
  | .issue => 3
  | .dispatch => 4
  | .rename => 5
  | .decode => 6
  | .fetch => 7
  | .rest => 8

/-- One move of the machine and its history, with the guard it is made under. -/
inductive Move (s : Cpu) (log : List Uop) : Phase → Cpu → List Uop → Prop
  | retired {e : RobEntry} {rob : Rob} (pop : s.rob.popHeadIfComplete = some (e, rob)) :
      Move s log .commit (s.retire rob (s.inflight s.rob.head)) (log ++ [s.inflight s.rob.head])
  | emptied : Move s log .commit s.squashInFlight log
  | landed {u : Uop} {fast slow : List Uop}
      (queued : (s.executing ++ s.wbFast ++ s.wbSlow).Perm (u :: (s.executing ++ fast ++ slow)))
      (due : u.wbCycle ≤ s.cycle) (punctual : u.dec.isLoad = false → u.wbCycle = s.cycle) :
      Move s log .writeback { s.complete u with wbFast := fast, wbSlow := slow } log
  | cleared (booked : ℕ → ℕ) : Move s log .writeback { s with cdbBooked := booked } log
  | executed : Move s log .execute s.execute log
  | turnedAway {e : IssueQueue.Entry} {s' : Cpu} {why : Stall} (seated : e ∈ s.iq.entries)
      (ready : e.ready = true)
      (refused : s.attempt e = .turnedAway s' why) : Move s log .issue s' log
  | launched {e : IssueQueue.Entry} {s' : Cpu} {u : Uop} {latency unit : ℕ} {f : Fu}
      (seated : e ∈ s.iq.entries)
      (ready : e.ready = true) (accepted : s.attempt e = .launched s' u latency f unit) :
      Move s log .issue (s'.launch e (stamped s' u latency) latency f unit) log
  | charged (stalls : Stall → ℕ) :
      Move s log .issue { s with stats := { s.stats with stalls := stalls } } log
  | recovered {br : Uop} (flying : br ∈ s.window) (issued : br.isIssued = true)
      (branch : br.dec.isBranch = true) : Move s log .issue (s.recover br) log
  | dispatched : Move s log .dispatch s.dispatchOne.state log
  | renamed (room : s.stats.renamed < 4294967296) : Move s log .rename s.renameOne.state log
  | decoded : Move s log .decode s.decodeOne.state log
  | fetched (going : s.fetchStalled = false) : Move s log .fetch s.fetchOne.state log

/-- How a move goes on that leaves the history and the window as they are together: nothing is
passed on, or the oldest of the window retires, the oldest fetched is decoded, or one more is
fetched. -/
inductive Onward (s : Cpu) (log : List Uop) : Phase → Cpu → List Uop → Prop
  | still {φ : Phase} {t : Cpu} (window : t.window = s.window)
      (queues : t.decodeQ = s.decodeQ ∧ t.fetchQ = s.fetchQ) : Onward s log φ t log
  | retired {t : Cpu} {u : Uop} (oldest : s.window = u :: t.window)
      (queues : t.decodeQ = s.decodeQ ∧ t.fetchQ = s.fetchQ) (complete : u.isComplete = true) :
      Onward s log .commit t (log ++ [u])
  | decoded {t : Cpu} {f : Uop} {rest : List Uop} (window : t.window = s.window)
      (oldest : s.fetchQ = f :: rest)
      (decodeQ : t.decodeQ = s.decodeQ ++ [s.decoded f]) (kept : t.fetchQ.Sublist rest) :
      Onward s log .decode t log
  | fetched {t : Cpu} (window : t.window = s.window) (decodeQ : t.decodeQ = s.decodeQ)
      (fetchQ : t.fetchQ = s.fetchQ ++ [s.fetched]) : Onward s log .fetch t log

/-- The history, the window, the queues and the units, before and after a move: the youngest are
dropped, one uop lands, is turned away, launched or dispatched in its place, a new one is appended,
or the window stays. -/
inductive Edit (s : Cpu) (log : List Uop) : Phase → Cpu → List Uop → Prop
  | kept {φ : Phase} {t : Cpu} {log' : List Uop} (units : t.fuFreeAt = s.fuFreeAt)
      (whole : log' ++ t.window = log ++ s.window) (onward : Onward s log φ t log') :
      Edit s log φ t log'
  | cut {φ : Phase} {t : Cpu} {dropped : List Uop} (units : t.fuFreeAt = s.fuFreeAt)
      (split : s.window = t.window ++ dropped) (queues : t.decodeQ = [] ∧ t.fetchQ = []) :
      Edit s log φ t log
  | landed {t : Cpu} {pre post : List Uop} {u : Uop} (units : t.fuFreeAt = s.fuFreeAt)
      (place : s.window = pre ++ u :: post)
      (place' : t.window = pre ++ s.landed u :: post) (running : u.running = true)
      (due : u.wbCycle ≤ s.cycle)
      (punctual : u.dec.isLoad = false → u.wbCycle = s.cycle)
      (queues : t.decodeQ = s.decodeQ ∧ t.fetchQ = s.fetchQ) : Edit s log .writeback t log
  | turnedAway {t : Cpu} {e : IssueQueue.Entry} {why : Stall} (seated : e ∈ s.iq.entries)
      (refused : s.attempt e = .turnedAway t why) (same : t.window = s.window)
      (queues : t.decodeQ = s.decodeQ ∧ t.fetchQ = s.fetchQ) : Edit s log .issue t log
  | launched {s' : Cpu} {pre post : List Uop} {e : IssueQueue.Entry} {v : Uop} {latency unit : ℕ}
      {f : Fu}
      (place : s.window = pre ++ s.inflight e.rob :: post)
      (place' : (s'.launch e (stamped s' v latency) latency f unit).window =
        pre ++ stamped s' v latency :: post)
      (seated : e ∈ s.iq.entries) (ready : e.ready = true)
      (accepted : s.attempt e = .launched s' v latency f unit)
      (queues : s'.decodeQ = s.decodeQ ∧ s'.fetchQ = s.fetchQ) :
      Edit s log .issue (s'.launch e (stamped s' v latency) latency f unit) log
  | dispatched {t : Cpu} {pre post : List Uop} {u : Uop} {idx : ℕ} (units : t.fuFreeAt = s.fuFreeAt)
      (place : s.window = pre ++ u :: post)
      (place' : t.window =
        pre ++ { u with lsqIdx := idx, stageAt := { u.stageAt with dispatch := s.cycle } } :: post)
      (older : ∀ w ∈ pre, w.isDispatched = true) (younger : ∀ w ∈ u :: post, w.isDispatched = false)
      (queues : t.decodeQ = s.decodeQ ∧ t.fetchQ = s.fetchQ) : Edit s log .dispatch t log
  | renamed {t : Cpu} {u : Uop} {dest slot : ℕ} (units : t.fuFreeAt = s.fuFreeAt) (blank : u.Blank)
      (place' : t.window = s.window ++ [s.renamed u dest slot])
      (queues : s.decodeQ = u :: t.decodeQ ∧ t.fetchQ = s.fetchQ) : Edit s log .rename t log

/-- Every move is such an edit, within the cycle. -/
theorem Move.edit {φ : Phase} (hcoh : s.Coherent cfg) (hc : 0 < s.cycle)
    (hm : Move s log φ t log') : Edit s log φ t log' ∧ t.cycle = s.cycle := by
  cases hm with
  | @retired _ rob hp =>
    obtain ⟨-, hw, hcomplete⟩ := hcoh.retire hp
    exact ⟨.kept rfl (by rw [hw]; simp) (.retired hw ⟨rfl, rfl⟩ hcomplete), rfl⟩
  | emptied =>
    obtain ⟨-, hempty⟩ := hcoh.squashInFlight
    have hsplit : s.window = s.squashInFlight.window ++ s.window := by rw [hempty]; rfl
    exact ⟨.cut rfl hsplit ⟨rfl, rfl⟩, rfl⟩
  | landed hq hdue hpunctual =>
    obtain ⟨-, pre, post, hw, hw'⟩ := hcoh.complete hc hq
    have hrun := (hcoh.staged.mem_running (hq.symm.subset List.mem_cons_self)).2
    exact ⟨.landed rfl hw hw' hrun hdue hpunctual ⟨rfl, rfl⟩, rfl⟩
  | cleared booked => exact ⟨.kept rfl rfl (.still rfl ⟨rfl, rfl⟩), rfl⟩
  | executed => exact ⟨.kept rfl rfl (.still rfl ⟨rfl, rfl⟩), rfl⟩
  | turnedAway he hready ha =>
    obtain ⟨hwin, hqueues, hcyc⟩ :
        t.window = s.window ∧ (t.decodeQ = s.decodeQ ∧ t.fetchQ = s.fetchQ) ∧
          t.cycle = s.cycle := by
      rcases attempt_turnedAway ha with rfl | ⟨_, _, _, _, rfl⟩ <;> exact ⟨rfl, ⟨rfl, rfl⟩, rfl⟩
    exact ⟨.turnedAway he ha hwin hqueues, hcyc⟩
  | @launched _ s' _ _ _ _ he hready ha =>
    obtain ⟨-, pre, post, hw, hw'⟩ := hcoh.launch hc he ha
    have hqueues : s'.decodeQ = s.decodeQ ∧ s'.fetchQ = s.fetchQ := by
      obtain ⟨_, _, _, _, _, rfl, -, -⟩ := attempt_frame ha
      exact ⟨rfl, rfl⟩
    exact ⟨.launched hw hw' he hready ha hqueues, (attempt_issues hc ha).2⟩
  | charged stalls => exact ⟨.kept rfl rfl (.still rfl ⟨rfl, rfl⟩), rfl⟩
  | @recovered br hmem hi hb =>
    obtain ⟨pre, post, hw⟩ := List.append_of_mem hmem
    obtain ⟨-, hw'⟩ := hcoh.recover hw hi hb
    have hsplit : s.window = (s.recover br).window ++ post := by rw [hw', hw]; simp
    exact ⟨.cut rfl hsplit ⟨rfl, rfl⟩, rfl⟩
  | dispatched =>
    have hstep := dispatchOne_step s
    generalize s.dispatchOne.state = t at hstep ⊢
    cases hstep with
    | idle => exact ⟨.kept rfl rfl (.still rfl ⟨rfl, rfl⟩), rfl⟩
    | stalled c => exact ⟨.kept rfl rfl (.still rfl ⟨rfl, rfl⟩), rfl⟩
    | dispatched hq hseat hslot =>
      obtain ⟨-, d, hw, hw'⟩ := hcoh.dispatchUop hc hq hseat hslot
      have hfront : ∀ w ∈ d, w.isDispatched = true := by
        obtain ⟨d', hd', hdisp⟩ := hcoh.staged.front
        rw [hw, hq] at hd'
        have hsame := List.append_cancel_right hd'
        exact fun w hmem => hdisp w (hsame ▸ hmem)
      exact ⟨.dispatched rfl hw hw' hfront (hq ▸ hcoh.staged.renamed) ⟨rfl, rfl⟩, rfl⟩
  | renamed hb =>
    have hstep := renameOne_step s
    generalize s.renameOne.state = t at hstep ⊢
    cases hstep with
    | idle => exact ⟨.kept rfl rfl (.still rfl ⟨rfl, rfl⟩), rfl⟩
    | stalled c => exact ⟨.kept rfl rfl (.still rfl ⟨rfl, rfl⟩), rfl⟩
    | @renamed u rest dest freeList hq hroom hfull hck halloc =>
      obtain ⟨-, slot, hwin⟩ := hcoh.renameUop hb hq hroom hfull hck halloc
      exact ⟨.renamed rfl (hcoh.decoded u (by simp [hq])).2 hwin ⟨hq, rfl⟩, rfl⟩
  | decoded =>
    have hstep := decodeOne_step s
    generalize s.decodeOne.state = t at hstep ⊢
    cases hstep with
    | idle => exact ⟨.kept rfl rfl (.still rfl ⟨rfl, rfl⟩), rfl⟩
    | decoded obs hq hroom hk =>
      exact ⟨.kept rfl rfl (.decoded rfl hq rfl (List.Sublist.refl _)), rfl⟩
    -- what is behind a trap is dropped
    | trapped obs hq hroom hk =>
      exact ⟨.kept rfl rfl (.decoded rfl hq rfl (List.nil_sublist _)), rfl⟩
  | fetched hst =>
    have hstep := fetchOne_step s
    generalize s.fetchOne.state = t at hstep ⊢
    cases hstep with
    | idle => exact ⟨.kept rfl rfl (.still rfl ⟨rfl, rfl⟩), rfl⟩
    | fetched obs hroom => exact ⟨.kept rfl rfl (.fetched rfl rfl rfl), rfl⟩

theorem pending_same (hw : t.window = s.window)
    (hqueues : t.decodeQ = s.decodeQ ∧ t.fetchQ = s.fetchQ) : t.pending = s.pending := by
  rw [pending, pending, hw, hqueues.1, hqueues.2]

section Pending
variable {pre post rest : List Uop} {u v f : Uop}

/-- One uop of the window in the place of another. -/
theorem pending_replaced (hw : s.window = pre ++ u :: post) (hw' : t.window = pre ++ v :: post)
    (hqueues : t.decodeQ = s.decodeQ ∧ t.fetchQ = s.fetchQ) :
    s.pending = pre ++ u :: (post ++ s.decodeQ ++ s.fetchQ) ∧
      t.pending = pre ++ v :: (post ++ s.decodeQ ++ s.fetchQ) := by
  rw [pending, pending, hw, hw', hqueues.1, hqueues.2]
  constructor <;> simp

theorem pending_renamed (hw : t.window = s.window ++ [v])
    (hqueues : s.decodeQ = u :: t.decodeQ ∧ t.fetchQ = s.fetchQ) :
    s.pending = s.window ++ u :: (t.decodeQ ++ s.fetchQ) ∧
      t.pending = s.window ++ v :: (t.decodeQ ++ s.fetchQ) := by
  rw [pending, pending, hw, hqueues.1, hqueues.2]
  constructor <;> simp

theorem pending_decoded (hw : t.window = s.window) (hf : s.fetchQ = f :: rest)
    (hd : t.decodeQ = s.decodeQ ++ [v]) :
    s.pending = (s.window ++ s.decodeQ) ++ f :: rest ∧
      t.pending = (s.window ++ s.decodeQ) ++ v :: t.fetchQ := by
  rw [pending, pending, hw, hf, hd]
  constructor <;> simp

theorem pending_fetched (hw : t.window = s.window) (hd : t.decodeQ = s.decodeQ)
    (hf : t.fetchQ = s.fetchQ ++ [v]) : t.pending = s.pending ++ [v] := by
  rw [pending, pending, hw, hd, hf, List.append_assoc (s.window ++ s.decodeQ)]

end Pending

/-- Loads in the slow queue have reached their date; `late` is the last date reached. -/
def Prompt (late : ℕ) (s : Cpu) : Prop := ∀ u ∈ s.wbSlow, u.wbCycle ≤ late

namespace Prompt
variable {late : ℕ}

theorem reset (mem : Memory) : Prompt late (Cpu.reset mem cfg entryPc) :=
  fun u hu => absurd hu (by simp [Cpu.reset])

theorem sameBack (h : Prompt late s) (hs : s.SameBack t) : Prompt late t :=
  fun u hu => h u (by rwa [hs.wbSlow] at hu)

theorem execute (h : Prompt (s.cycle + 1) s) : Prompt (s.cycle + 1) s.execute := by
  intro u hu
  cases List.mem_append.mp hu with
  | inl hold => exact h u hold
  | inr hnew =>
    have hdue := (List.mem_filter.mp hnew).2
    simp only [Bool.and_eq_true, decide_eq_true_eq] at hdue
    exact hdue.1

theorem launch {e : IssueQueue.Entry} {s' : Cpu} {v : Uop} {latency unit : ℕ} {f : Fu}
    (h : Prompt (s.cycle + 1) s)
    (ha : s.attempt e = .launched s' v latency f unit) :
    Prompt (s.cycle + 1) (s'.launch e (stamped s' v latency) latency f unit) := by
  intro u hu
  rcases (mem_launch ha (stamped s' v latency)).2.2 u hu with hold | ⟨rfl, hlat, -⟩
  · exact h u hold
  · have hcyc := (attempt_back ha).cycle
    change s'.cycle + latency ≤ s.cycle + 1
    rw [hcyc]
    exact Nat.add_le_add_left hlat _

theorem issue (h : Prompt (s.cycle + 1) s) : Prompt (s.cycle + 1) s.issue := by
  have hscan : s.issueScan.cpu.cycle = s.cycle ∧ Prompt (s.cycle + 1) s.issueScan.cpu := by
    refine issueScan_preserves (P := fun p => p.cpu.cycle = s.cycle ∧ Prompt (s.cycle + 1) p.cpu)
      (fun p e hp _ _ => ⟨(issueOne_keeps p e).cycle.trans hp.1, ?_⟩) ⟨rfl, h⟩
    obtain ⟨hcyc, hprompt⟩ := hp
    rw [← hcyc] at hprompt ⊢
    simp only [issueOne]
    cases ha : p.cpu.attempt e with
    | turnedAway s' why =>
      rcases attempt_turnedAway ha with rfl | ⟨_, _, _, _, rfl⟩ <;> exact hprompt
    | launched s' u latency f unit => exact hprompt.launch ha
  have hcharged : Prompt (s.cycle + 1) (chargeSlots s.issueScan) :=
    hscan.2.sameBack (chargeSlots_sameBack _)
  simp only [Cpu.issue]
  cases s.issueScan.offender with
  | none => exact hcharged
  | some br => exact fun u hu => hcharged u (List.mem_of_mem_filter hu)

/-- The machine issue finds in a cycle that does not end the run. -/
theorem beforeIssue (h : Prompt (s.cycle + 1) s) (hled : Ledger cfg (s.cycle + 1) s)
    (hcoh : s.beginCycle.commit.Coherent cfg) (hd : s.done = false)
    (hd' : s.beginCycle.commit.done = false) : Prompt (s.beforeIssue.cycle + 1) s.beforeIssue := by
  have hback := commit_sameBack (show s.beginCycle.done = false from hd) hd'
  obtain ⟨slow, hsuffix, -, hback'⟩ := (hled.commit hd hd').writeback_back hcoh.sized.cfg_eq
  have hcyc : s.beginCycle.commit.writeback.cycle = s.cycle + 1 := hback'.cycle.trans hback.cycle
  refine execute fun u hu => ?_
  rw [hback'.wbSlow] at hu
  have hold : u ∈ s.wbSlow := by
    have hmem := hsuffix.subset hu
    rwa [hback.wbSlow] at hmem
  rw [hcyc]
  exact (h u hold).trans (Nat.le_succ _)

theorem tick (h : Prompt (s.cycle + 1) s) (hled : Ledger cfg (s.cycle + 1) s)
    (hs : Steady kinds cfg entryPc (s, log)) : Prompt (s.tick.cycle + 1) s.tick := by
  refine tick_cases (P := fun t => Prompt (t.cycle + 1) t) (fun _ => h)
    (fun hd hd' => ?_) fun hd hd' => ?_
  · obtain ⟨t, -, heq⟩ := commit_squashes (show s.beginCycle.done = false from hd) hd'
    rw [heq]
    exact fun u hu => absurd hu (by simp [squashInFlight])
  · have hissued := (h.beforeIssue hled hs.coherent.beginCycle.commit hd hd').issue
    have hfront := frontHalf_sameBack s.beforeIssue.issue
    rw [hfront.cycle, (issue_keeps _).cycle]
    exact hissued.sameBack hfront

end Prompt

/-- What is in the writeback queues after a tick of a run is due in the next. -/
theorem due_ticked (mem : Memory) (h : cfg.Admissible) (k : ℕ)
    (hb : (ticked mem cfg entryPc k).stats.renamed < 4294967296)
    (hself : NoSelfMod (committed mem cfg entryPc k)) :
    Ledger cfg ((ticked mem cfg entryPc k).cycle + 1) (ticked mem cfg entryPc k) ∧
      Prompt ((ticked mem cfg entryPc k).cycle + 1) (ticked mem cfg entryPc k) :=
  ticked_induct (P := fun _ t => Ledger cfg (t.cycle + 1) t ∧ Prompt (t.cycle + 1) t) mem h
    ⟨.reset h mem, .reset mem⟩ (fun _ hs _ ht => ⟨ht.1.tick hs, ht.2.tick ht.1 hs⟩) k hself hb

theorem committed_succ (mem : Memory) (cfg : Config) (entryPc : Word) (k : ℕ) :
    committed mem cfg entryPc (k + 1) =
      (tickLogged (ticked mem cfg entryPc k, committed mem cfg entryPc k)).2 := by
  rw [committed, history_succ, ← history_fst]
  rfl

/-- A run within the bounds was within them a tick before. -/
theorem ticked_before {mem : Memory} {k : ℕ}
    (hb : (ticked mem cfg entryPc (k + 1)).stats.renamed < 4294967296)
    (hself : NoSelfMod (committed mem cfg entryPc (k + 1))) :
    (ticked mem cfg entryPc k).stats.renamed < 4294967296 ∧
      NoSelfMod (committed mem cfg entryPc k) := by
  obtain ⟨hrenamed, more, hmore, -⟩ := tickLogged_extends (history mem cfg entryPc k)
  rw [← history_succ, history_fst, history_fst] at hrenamed
  refine ⟨hrenamed.trans_lt hb, hself.mono fun u hu => ?_⟩
  rw [committed, history_succ, hmore]
  exact List.mem_append_left _ hu

/-- A tick of a running machine ends the run in commit or runs all its stages. -/
theorem tickLogged_running {P : Cpu → List Uop → Prop} (hd : s.done = false)
    (hended : P (commitLogged (s.beginCycle, log)).1 (commitLogged (s.beginCycle, log)).2)
    (hruns : ∀ t log', commitLogged (s.beginCycle, log) = (t, log') → 0 < t.cycle → t.done = false →
      P t.writeback.execute.issue.dispatch.rename.decodeStage.fetch log') :
    P (tickLogged (s, log)).1 (tickLogged (s, log)).2 := by
  have hfst : (commitLogged (s.beginCycle, log)).1 = s.beginCycle.commit := commitLogged_fst _
  rw [tickLogged, if_neg (by simp [hd])]
  dsimp only
  generalize commitLogged (s.beginCycle, log) = q at *
  split
  · exact hended
  · rename_i hd'
    obtain ⟨t, log'⟩ := q
    have hc : 0 < t.cycle := by
      rw [show t = s.beginCycle.commit from hfst, commit_cycle]
      exact Nat.succ_pos _
    dsimp only
    exact hruns t log' rfl hc (by simpa using hd')

section Rule
variable {P : Phase → Cpu → List Uop → Prop}
  (hmove : ∀ {φ : Phase} {s t : Cpu} {log log' : List Uop}, s.Coherent cfg → 0 < s.cycle →
    Move s log φ t log' → P φ s log → P φ t log')
  (hpass : ∀ {φ ψ : Phase} {s : Cpu} {log : List Uop}, φ.order ≤ ψ.order → P φ s log → P ψ s log)

/-- What the rule carries from move to move. -/
structure Carried (cfg : Config) (P : Cpu → List Uop → Prop) (s : Cpu) (log : List Uop) : Prop where
  coherent : s.Coherent cfg
  cycle_pos : 0 < s.cycle
  holds : P s log

include hmove

private theorem Carried.commit (h : Carried cfg (P .commit) s log) :
    Carried cfg (P .commit) (commitLogged (s, log)).1 (commitLogged (s, log)).2 := by
  refine forLoop_preserves (fun q : Cpu × List Uop => Carried cfg (P .commit) q.1 q.2)
    (fun q hq => ?_) _ h
  have hstep := commitOneLogged_step q.1 q.2
  have hcoh := hq.coherent
  obtain ⟨s, log⟩ := q
  generalize (commitOneLogged (s, log)).state = r at hstep ⊢
  cases hstep with
  | idle => exact hq
  | retired hp =>
    exact ⟨(hcoh.retire hp).1, hq.cycle_pos, hmove hcoh hq.cycle_pos (.retired hp) hq.holds⟩
  | finished hp =>
    have hretired := (hcoh.retire hp).1
    exact ⟨hretired.squashInFlight.1, hq.cycle_pos,
      hmove hretired hq.cycle_pos .emptied (hmove hcoh hq.cycle_pos (.retired hp) hq.holds)⟩

/-- Results land when they are due. -/
private theorem Carried.writeback (h : Carried cfg (P .writeback) s log)
    (hled : Ledger cfg s.cycle s)
    (hprompt : Prompt s.cycle s) : Carried cfg (P .writeback) s.writeback log := by
  let Due (t : Cpu) : Prop :=
    ∀ u ∈ t.wbFast ++ t.wbSlow, u.wbCycle ≤ t.cycle ∧ (u.dec.isLoad = false → u.wbCycle = t.cycle)
  have hdue : Due s := fun u hu => by
    cases List.mem_append.mp hu with
    | inl hfast => exact ⟨(hled.fast u hfast).2.le, fun _ => (hled.fast u hfast).2⟩
    | inr hslow => exact ⟨hprompt u hslow, fun hl => by rw [hled.slow u hslow] at hl; contradiction⟩
  refine (writeback_preserves (P := fun t => Carried cfg (P .writeback) t log ∧ Due t)
    (fun {t u fast slow} ht hq => ?_) (fun booked ht => ⟨⟨ht.1.coherent.clearBooking booked,
      ht.1.cycle_pos, hmove ht.1.coherent ht.1.cycle_pos (.cleared booked) ht.1.holds⟩, ht.2⟩) ⟨h,
      hdue⟩).1
  obtain ⟨hcarried, hdue⟩ := ht
  have hleft : (t.wbFast ++ t.wbSlow).Perm (u :: (fast ++ slow)) := by
    rw [List.append_assoc, List.append_assoc] at hq
    exact (List.perm_append_left_iff t.executing).mp (hq.trans List.perm_middle.symm)
  obtain ⟨hle, heq⟩ := hdue u (hleft.symm.subset List.mem_cons_self)
  exact ⟨⟨(hcarried.coherent.complete hcarried.cycle_pos hq).1, hcarried.cycle_pos,
    hmove hcarried.coherent hcarried.cycle_pos (.landed hq hle heq) hcarried.holds⟩,
    fun v hv => hdue v (hleft.symm.subset (List.mem_cons_of_mem _ hv))⟩

private theorem Carried.issue (h : Carried cfg (P .issue) s log)
    (hbranch : ∀ br, s.issueScan.offender = some br → br.dec.isBranch = true) :
    Carried cfg (P .issue) s.issue log := by
  obtain ⟨hsane, hholds⟩ := issueScan_preserves (P := fun p => p.Sane cfg ∧ P .issue p.cpu log)
    (fun p e hp he hready => by
      refine ⟨hp.1.issueOne he, ?_⟩
      simp only [issueOne]
      cases ha : p.cpu.attempt e with
      | turnedAway s' why =>
        exact hmove hp.1.coherent hp.1.cycle_pos (.turnedAway he hready ha) hp.2
      | launched s' u latency f unit =>
        exact hmove hp.1.coherent hp.1.cycle_pos (.launched he hready ha) hp.2)
    (s := s) ⟨⟨h.coherent, h.cycle_pos, by simp⟩, h.holds⟩
  obtain ⟨hcharged, hwin⟩ := hsane.coherent.chargeSlots
  have hcharge : Carried cfg (P .issue) (chargeSlots s.issueScan) log := by
    refine ⟨hcharged, by rw [(chargeSlots_keeps _).cycle]; exact hsane.cycle_pos, ?_⟩
    obtain ⟨stalls, heq⟩ := chargeSlots_stalls s.issueScan
    rw [heq]
    exact hmove hsane.coherent hsane.cycle_pos (.charged stalls) hholds
  simp only [Cpu.issue]
  cases ho : s.issueScan.offender with
  | none => exact hcharge
  | some br =>
    obtain ⟨hmem, hi, -⟩ := hsane.offender br ho
    rw [← hwin] at hmem
    obtain ⟨pre, post, hw⟩ := List.append_of_mem hmem
    exact ⟨(hcharged.recover hw hi (hbranch br ho)).1, hcharge.cycle_pos,
      hmove hcharged hcharge.cycle_pos (.recovered hmem hi (hbranch br ho)) hcharge.holds⟩

include hpass

omit hmove in
private theorem Carried.pass {φ ψ : Phase} (h : Carried cfg (P φ) s log) (hle : φ.order ≤ ψ.order) :
    Carried cfg (P ψ) s log :=
  ⟨h.coherent, h.cycle_pos, hpass hle h.holds⟩

private theorem Carried.frontHalf (h : Carried cfg (P .dispatch) s log)
    (hb : s.dispatch.rename.decodeStage.fetch.stats.renamed < 4294967296) :
    Carried cfg (P .fetch) s.dispatch.rename.decodeStage.fetch log := by
  -- the bound on the renamed count is carried backwards, since a stage only raises it
  let Q (φ : Phase) (t : Cpu) : Prop := t.stats.renamed < 4294967296 → Carried cfg (P φ) t log
  have hdispatch : Q .dispatch s.dispatch := forLoop_preserves (Q .dispatch) (fun t ht hlt => by
    have hstep := dispatchOne_step t
    obtain ⟨hcoh, hc, hp⟩ := ht (hstep.keeps.renamed.trans_lt hlt)
    exact ⟨hcoh.dispatchStep hc hstep, hstep.keeps.cycle.symm ▸ hc,
      hmove hcoh hc .dispatched hp⟩) _ fun _ => h
  have hrename : Q .rename s.dispatch.rename := forLoop_preserves (Q .rename) (fun t ht hlt => by
    have hstep := renameOne_step t
    have hlt' := hstep.keeps.renamed.trans_lt hlt
    obtain ⟨hcoh, hc, hp⟩ := ht hlt'
    exact ⟨hcoh.renameStep hlt' hstep, hstep.keeps.cycle.symm ▸ hc,
      hmove hcoh hc (.renamed hlt') hp⟩) _
      fun hlt => (hdispatch hlt).pass (P := P) hpass (Nat.le_succ 4)
  have hdecode : Q .decode s.dispatch.rename.decodeStage :=
      forLoop_preserves (Q .decode) (fun t ht hlt => by
    have hstep := decodeOne_step t
    obtain ⟨hcoh, hc, hp⟩ := ht (hstep.keeps.renamed.trans_lt hlt)
    exact ⟨hcoh.decodeStep hstep, hstep.keeps.cycle.symm ▸ hc, hmove hcoh hc .decoded hp⟩) _
      fun hlt => (hrename hlt).pass (P := P) hpass (Nat.le_succ 5)
  have hfetch : Q .fetch s.dispatch.rename.decodeStage :=
    fun hlt => (hdecode hlt).pass (P := P) hpass (Nat.le_succ 6)
  revert hb
  unfold Cpu.fetch
  split
  · exact hfetch
  rename_i hst
  refine (forLoop_preserves (fun t => Q .fetch t ∧ t.fetchStalled = false) (fun t ht => ?_) _
    ⟨hfetch, by simpa using hst⟩).1
  have hstep := fetchOne_step t
  refine ⟨fun hlt => ?_, ?_⟩
  · obtain ⟨hcoh, hc, hp⟩ := ht.1 (hstep.keeps.renamed.trans_lt hlt)
    exact ⟨hcoh.fetchStep hstep, hstep.keeps.cycle.symm ▸ hc, hmove hcoh hc (.fetched ht.2) hp⟩
  · generalize t.fetchOne.state = t' at hstep ⊢
    cases hstep <;> exact ht.2

/-- What every move preserves, a tick of a running machine preserves from its new cycle on. -/
theorem Steady.tick_preserves (hs : Steady kinds cfg entryPc (s, log))
    (hled : Ledger cfg (s.cycle + 1) s)
    (hprompt : Prompt (s.cycle + 1) s) (hb : (tickLogged (s, log)).1.stats.renamed < 4294967296)
    (hd : s.done = false) (h : P .commit s.beginCycle log) :
    P .rest (tickLogged (s, log)).1 (tickLogged (s, log)).2 := by
  have hcommit :=
    Carried.commit hmove (s := s.beginCycle) ⟨hs.coherent.beginCycle, Nat.succ_pos _, h⟩
  have hsteady := hs.beginCycle.commit
  have hfst : (commitLogged (s.beginCycle, log)).1 = s.beginCycle.commit := commitLogged_fst _
  revert hb
  refine tickLogged_running (P := fun t log => t.stats.renamed < 4294967296 → P .rest t log) hd
    (fun _ => hpass (φ := .commit) (Nat.zero_le 8) hcommit.holds) fun t log' hq hc hrunning hb => ?_
  rw [hq] at hcommit hsteady hfst
  subst hfst
  have hled' := hled.commit hd hrunning
  have hprompt' : Prompt s.beginCycle.commit.cycle s.beginCycle.commit := by
    have hback := commit_sameBack (show s.beginCycle.done = false from hd) hrunning
    rw [hback.cycle]
    exact (show Prompt s.beginCycle.cycle s.beginCycle from hprompt).sameBack hback
  have hwritten :=
    (hcommit.pass (P := P) hpass (ψ := .writeback) (Nat.le_succ 0)).writeback hmove hled' hprompt'
  have hready := hwritten.pass (P := P) hpass (ψ := .execute) (Nat.le_succ 1)
  have hexecuted : Carried cfg (P .execute) s.beginCycle.commit.writeback.execute log' :=
    ⟨hready.coherent.execute, hready.cycle_pos,
      hmove hready.coherent hready.cycle_pos .executed hready.holds⟩
  have hled'' := ((hsteady.writeback hc hrunning).execute).led
  have hissued := (hexecuted.pass (P := P) hpass (ψ := .issue) (Nat.le_succ 2)).issue hmove
    (hled''.issue hexecuted.coherent hexecuted.cycle_pos).2
  exact hpass (φ := .fetch) (Nat.le_succ 7)
    ((hissued.pass (P := P) hpass (ψ := .dispatch) (Nat.le_succ 3)).frontHalf hmove hpass hb).holds

/-- What reset establishes and every new cycle and every move preserve holds after every tick of a
run. -/
theorem run_preserves (hbegin : ∀ {s : Cpu} {log : List Uop}, s.done = false → P .rest s log →
    P .commit s.beginCycle log)
    (mem : Memory) (h : cfg.Admissible) (hreset : P .rest (reset mem cfg entryPc) []) (k : ℕ)
    (hb : (ticked mem cfg entryPc k).stats.renamed < 4294967296)
    (hself : NoSelfMod (committed mem cfg entryPc k)) :
    P .rest (ticked mem cfg entryPc k) (committed mem cfg entryPc k) := by
  refine (ticked_induct (P := fun j t => Ledger cfg (t.cycle + 1) t ∧ Prompt (t.cycle + 1) t ∧
    P .rest t (committed mem cfg entryPc j)) mem h ⟨.reset h mem, .reset mem,
    hreset⟩ (fun j hs hlt hj => ?_) k hself
    hb).2.2
  obtain ⟨hled, hprompt, hp⟩ := hj
  refine ⟨hled.tick hs, hprompt.tick hled hs, ?_⟩
  rw [committed_succ, ← tickLogged_fst (ticked mem cfg entryPc j, committed mem cfg entryPc j)]
  cases hd : (ticked mem cfg entryPc j).done with
  | true =>
    rw [tickLogged, if_pos hd]
    exact hp
  | false =>
    exact hs.tick_preserves hmove hpass hled hprompt (by rw [tickLogged_fst]; exact hlt) hd
      (hbegin hd hp)

end Rule

end OooCpu.Cpu
