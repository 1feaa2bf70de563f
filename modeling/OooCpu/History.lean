import OooCpu.RetireSteps

/-! # Runs and what they commit

A run ticks the machine from reset. Beside it goes a list of the uops that have
retired, in order; the machine itself does not see the list. -/
namespace OooCpu.Cpu

/-- One pass of commit, noting the uop that retires. -/
def commitOneLogged : Cpu × List Uop → Flow (Cpu × List Uop)
  | (s, log) => match s.rob.popHeadIfComplete with
    | none => .stop (s, log)
    | some (_, rob) =>
      let u := s.inflight s.rob.head
      let s' := s.retire rob u
      if s'.done then .stop (s'.squashInFlight, log ++ [u]) else .more (s', log ++ [u])

def commitLogged (p : Cpu × List Uop) : Cpu × List Uop := forLoop commitOneLogged p.1.cfg.width p

/-- One tick, noting the uops that retire. -/
def tickLogged (p : Cpu × List Uop) : Cpu × List Uop :=
  if p.1.done then p
  else
    let q := commitLogged (p.1.beginCycle, p.2)
    if q.1.done then q
    else (q.1.writeback.execute.issue.dispatch.rename.decodeStage.fetch, q.2)

/-- What one pass of commit can do. -/
inductive CommitStep (s : Cpu) (log : List Uop) : Cpu × List Uop → Prop
  | idle : CommitStep s log (s, log)
  | retired {e : RobEntry} {rob : Rob} (pop : s.rob.popHeadIfComplete = some (e, rob))
      (running : (s.retire rob (s.inflight s.rob.head)).done = false) :
      CommitStep s log (s.retire rob (s.inflight s.rob.head), log ++ [s.inflight s.rob.head])
  | finished {e : RobEntry} {rob : Rob} (pop : s.rob.popHeadIfComplete = some (e, rob))
      (done : (s.retire rob (s.inflight s.rob.head)).done = true) :
      CommitStep s log ((s.retire rob (s.inflight s.rob.head)).squashInFlight,
        log ++ [s.inflight s.rob.head])

theorem commitOneLogged_step (s : Cpu) (log : List Uop) :
    CommitStep s log (commitOneLogged (s, log)).state := by
  simp only [commitOneLogged]
  split
  · exact .idle
  rename_i e rob hp
  split
  · rename_i hd
    exact .finished hp hd
  · rename_i hd
    exact .retired hp (by simpa using hd)

/-- The machine and its history after `k` ticks from reset. -/
def history (mem : Memory) (cfg : Config) (entryPc : Word) (k : ℕ) : Cpu × List Uop :=
  tickLogged^[k] (reset mem cfg entryPc, [])

/-- The machine after `k` ticks from reset. -/
def ticked (mem : Memory) (cfg : Config) (entryPc : Word) (k : ℕ) : Cpu :=
  tick^[k] (reset mem cfg entryPc)

/-- What has retired after `k` ticks, in program order. -/
def committed (mem : Memory) (cfg : Config) (entryPc : Word) (k : ℕ) : List Uop :=
  (history mem cfg entryPc k).2

theorem commitOneLogged_fst (p : Cpu × List Uop) :
    (commitOneLogged p).state.1 = p.1.commitOne.state ∧
      ((∃ q, commitOneLogged p = .more q) ↔ ∃ t, p.1.commitOne = .more t) := by
  obtain ⟨s, log⟩ := p
  simp only [commitOneLogged, commitOne]
  cases hp : s.rob.popHeadIfComplete with
  | none => exact ⟨rfl, by simp⟩
  | some r =>
    dsimp only
    split
    · exact ⟨rfl, by simp⟩
    · exact ⟨rfl, by simp⟩

private theorem forLoop_logged (n : ℕ) (p : Cpu × List Uop) :
    (forLoop commitOneLogged n p).1 = forLoop commitOne n p.1 := by
  induction n generalizing p with
  | zero => rfl
  | succ n ih =>
    obtain ⟨hfst, hmore⟩ := commitOneLogged_fst p
    simp only [forLoop]
    cases hl : commitOneLogged p with
    | more q =>
      obtain ⟨t, ht⟩ := hmore.mp ⟨q, hl⟩
      rw [hl, ht] at hfst
      simp only [ht, ih]
      exact congrArg (forLoop commitOne n) hfst
    | stop q =>
      cases ht : p.1.commitOne with
      | more t =>
        obtain ⟨q', hq'⟩ := hmore.mpr ⟨t, ht⟩
        rw [hl] at hq'
        contradiction
      | stop t =>
        rw [hl, ht] at hfst
        exact hfst

theorem commitLogged_fst (p : Cpu × List Uop) : (commitLogged p).1 = p.1.commit :=
  forLoop_logged _ p

/-- A tick does nothing, or ends the run in commit, or runs all its stages in a cycle with a
number. -/
theorem tickLogged_cases {P : Cpu → List Uop → Prop} {p : Cpu × List Uop} (hidle : P p.1 p.2)
    (hended : P (commitLogged (p.1.beginCycle, p.2)).1 (commitLogged (p.1.beginCycle, p.2)).2)
    (hruns : ∀ t log, commitLogged (p.1.beginCycle, p.2) = (t, log) → 0 < t.cycle → t.done = false →
      P t.writeback.execute.issue.dispatch.rename.decodeStage.fetch log) :
    P (tickLogged p).1 (tickLogged p).2 := by
  have hfst := commitLogged_fst (p.1.beginCycle, p.2)
  rw [tickLogged]
  split
  · exact hidle
  dsimp only
  generalize commitLogged (p.1.beginCycle, p.2) = q at *
  split
  · exact hended
  · rename_i hd
    obtain ⟨t, log⟩ := q
    have hc : 0 < t.cycle := by
      rw [show t = p.1.beginCycle.commit from hfst, commit_cycle]
      exact Nat.succ_pos _
    dsimp only
    exact hruns t log rfl hc (by simpa using hd)

/-- The history is a bystander. -/
theorem tickLogged_fst (p : Cpu × List Uop) : (tickLogged p).1 = p.1.tick := by
  have hcommit := commitLogged_fst (p.1.beginCycle, p.2)
  rw [tickLogged]
  cases hd : p.1.done with
  | true => exact (tick_of_done hd).symm
  | false =>
    simp only [Bool.false_eq_true, if_false]
    cases hd' : p.1.beginCycle.commit.done with
    | true =>
      rw [tick_of_commit_done hd hd', hcommit]
      simp only [hd', if_true, hcommit]
    | false =>
      rw [tick_of_running hd hd', hcommit]
      simp only [hd', Bool.false_eq_true, if_false]
      rfl

theorem history_succ (mem : Memory) (cfg : Config) (entryPc : Word) (k : ℕ) :
    history mem cfg entryPc (k + 1) = tickLogged (history mem cfg entryPc k) :=
  Function.iterate_succ_apply' tickLogged k _

theorem ticked_succ (mem : Memory) (cfg : Config) (entryPc : Word) (k : ℕ) :
    ticked mem cfg entryPc (k + 1) = (ticked mem cfg entryPc k).tick :=
  Function.iterate_succ_apply' tick k _

theorem history_fst (mem : Memory) (cfg : Config) (entryPc : Word) (k : ℕ) :
    (history mem cfg entryPc k).1 = ticked mem cfg entryPc k := by
  induction k with
  | zero => rfl
  | succ k ih => rw [history_succ, tickLogged_fst, ih, ticked_succ]

/-- No store of the list writes a byte of the instruction word at `pc`. -/
def Untouched (log : List Uop) (pc : Word) : Prop :=
  ∀ u ∈ log, u.dec.isStore = true → ∀ a, Covers pc 4 a → ¬Covers u.memAddr (accessSize u.dec.op) a

/-- No committed store writes a byte of an instruction that also commits. -/
def NoSelfMod (log : List Uop) : Prop := ∀ v ∈ log, Untouched log v.pc

theorem Untouched.mono {log log' : List Uop} {pc : Word} (h : Untouched log' pc)
    (hsub : ∀ u ∈ log, u ∈ log') : Untouched log pc := fun u hu => h u (hsub u hu)

theorem NoSelfMod.mono {log log' : List Uop} (h : NoSelfMod log') (hsub : ∀ u ∈ log, u ∈ log') :
    NoSelfMod log :=
  fun v hv => (h v (hsub v hv)).mono hsub

/-- What a committing uop does to memory. -/
def commitMem (m : Memory) (u : Uop) : Memory :=
  if u.dec.isStore then m.storeBytes u.memAddr (accessSize u.dec.op) u.storeData else m

/-- Memory outside a committing store's bytes is unchanged. -/
theorem commitMem_loadU32 {m : Memory} {u : Uop} {pc : Word} (h : Untouched [u] pc) :
    (commitMem m u).loadU32 pc = m.loadU32 pc := by
  by_cases hs : u.dec.isStore = true
  · rw [commitMem, if_pos hs]
    apply (loadBytes_eq_iff _ _ pc (.inr (.inr rfl) : IsAccessSize 4)).mpr
    intro k hk
    rw [loadU8_storeBytes _ _ _ _ (accessSize_isAccessSize _),
      if_neg (h u List.mem_cons_self hs _ ((covers_add pc (by omega)).mpr hk))]
  · rw [commitMem, if_neg hs]

theorem untouched_iff {log : List Uop} {pc : Word} : Untouched log pc ↔
    ∀ u ∈ log, u.dec.isStore = true →
      ¬(Covers pc 4 u.memAddr ∨ Covers u.memAddr (accessSize u.dec.op) pc) := by
  refine forall_congr' fun u => forall_congr' fun _ => forall_congr' fun _ => ?_
  have hsize : 0 < accessSize u.dec.op := by
    rcases accessSize_isAccessSize u.dec.op with h | h | h <;> omega
  rw [← covers_overlap_iff (by omega) hsize]
  simp only [not_exists, not_and]

instance (log : List Uop) (pc : Word) : Decidable (Untouched log pc) :=
  decidable_of_iff _ untouched_iff.symm

instance (log : List Uop) : Decidable (NoSelfMod log) :=
  inferInstanceAs (Decidable (∀ v ∈ log, Untouched log v.pc))

private theorem drainStore_eq {m : Memory} {op : Op} {st : LsqEntry}
    (ho : op = .sb ∨ op = .sh ∨ op = .sw) :
    drainStore m op st = m.storeBytes st.addr (accessSize op) st.data := by
  rcases ho with rfl | rfl | rfl <;> rfl

variable {cfg : Config} {s : Cpu} {u : Uop}

/-- The store that reaches memory is the committing uop's own. -/
theorem Coherent.retire_mem {e : RobEntry} {rob : Rob} (h : s.Coherent cfg)
    (hp : s.rob.popHeadIfComplete = some (e, rob)) :
    (s.retire rob (s.inflight s.rob.head)).mem = commitMem s.mem (s.inflight s.rob.head) := by
  obtain ⟨-, hw, hcomplete⟩ := h.retire hp
  generalize s.inflight s.rob.head = u at *
  have hmem : u ∈ s.window := by rw [hw]; exact List.mem_cons_self
  have hsound := h.sound u hmem
  have hissued := h.staged.complete u hmem hcomplete
  have hdispatched := h.staged.issued u hmem hissued
  simp only [Cpu.retire, drains_eq hsound, commitMem]
  split
  · rename_i hs
    have hnth := (h.queued.pop hw hdispatched).2 hs
    have hfill := h.queued.filled u hmem hs hdispatched
    simp only [Uop.FilledIn, hissued, if_true] at hfill
    rw [drainStore_eq (hsound.shaped.store_op_iff.mp hs), hnth, hfill.2.2.1, hfill.2.2.2]
  · rfl

end OooCpu.Cpu
