import OooCpu.Steady

/-! # Nothing leaks, nothing is owned twice

Physical registers and checkpoint slots after every tick of a run, counted over
the records of the reorder buffer, and the mapping each record and each
checkpoint stands for. -/
namespace OooCpu

namespace Rob

/-- The live entries that hold a destination register. -/
def writers (r : Rob) : List RobEntry := r.entries.filter fun e => e.destPhys != INVALID_PHYSREG

/-- The live entries that hold a checkpoint. -/
def branches (r : Rob) : List RobEntry := r.entries.filter RobEntry.isBranch

end Rob

/-- The mapping with an entry's `destArch := destPhys` applied. -/
def RobEntry.remap (m : RegisterMap) (e : RobEntry) : RegisterMap :=
  if e.destPhys = INVALID_PHYSREG then m else fun a => if a.val = e.destArch then e.destPhys
    else m a

namespace Cpu

/-- Who owns the physical registers and the checkpoint slots. -/
structure Conserved (cfg : Config) (s : Cpu) : Prop where
  stale : (s.freeList.regs ++ List.ofFn s.rat.mapping ++ s.rob.writers.map RobEntry.stalePhys).Perm
    (List.range cfg.prfSize)
  dest : (s.freeList.regs ++ List.ofFn s.archRat ++ s.rob.writers.map RobEntry.destPhys).Perm
    (List.range cfg.prfSize)
  ckpts : (s.ckpts.freeSlots ++ s.rob.branches.map RobEntry.ckpt).Perm
    (List.range cfg.numCheckpoints)
  finished : s.done = true →
    s.rob.count = 0 ∧ s.freeList.numFree = cfg.prfSize - 32 ∧ s.ckpts.numFree = cfg.numCheckpoints

/-- The alias table and every live checkpoint replay the reorder buffer over the committed
mapping. -/
structure Replayed (s : Cpu) : Prop where
  rat : s.rat.mapping = s.rob.entries.foldl RobEntry.remap s.archRat
  ckpts : ∀ pre b post, s.rob.entries = pre ++ b :: post → b.isBranch = true →
    (s.ckpts.read b.ckpt).rat = (pre ++ [b]).foldl RobEntry.remap s.archRat

/-- What recovery from `br` leaves: `br` is the youngest, and the alias table is the mapping as of
`br`. -/
structure Unwound (br : Uop) (s : Cpu) : Prop where
  youngest : s.rob.entries.getLast?.map RobEntry.seq = some br.seq
  rat : s.rat.mapping = s.rob.entries.foldl RobEntry.remap s.archRat

variable {cfg : Config} {s : Cpu} {u : Uop} {e : RobEntry}

namespace Coherent
variable (h : s.Coherent cfg)
include h

private theorem dest_invalid_iff (hu : u ∈ s.window) :
    u.dest = INVALID_PHYSREG ↔ u.dec.writesRd = false := by
  obtain ⟨pre, post, hw⟩ := List.append_of_mem hu
  constructor
  · intro hd
    by_contra hwr
    exact (h.mapped.dest_spec hu (by simpa using hwr)).2.2.2.2 hd
  · exact fun hwr => ((h.mapped.renamedUnder hw).none hwr).1

private theorem entry_writer (hu : u ∈ s.window) (he : Mirrors u e) :
    u.dec.writesRd = (e.destPhys != INVALID_PHYSREG) := by
  have hiff := h.dest_invalid_iff hu
  rw [he.destPhys]
  by_cases hwr : u.dec.writesRd = true
  · have hne : u.dest ≠ INVALID_PHYSREG := fun hd => by rw [hiff.mp hd] at hwr; contradiction
    simp [hwr, hne]
  · have hwr' : u.dec.writesRd = false := by simpa using hwr
    simp [hwr', hiff.mpr hwr']

private theorem entry_remap (hu : u ∈ s.window) (he : Mirrors u e) (m : RegisterMap) :
    u.remap m = e.remap m := by
  have hwriter := h.entry_writer hu he
  simp only [Uop.remap, RobEntry.remap]
  by_cases hwr : u.dec.writesRd = true
  · have hne : e.destPhys ≠ INVALID_PHYSREG := by simpa [hwr] using hwriter
    rw [if_pos hwr, if_neg hne, he.destArch, he.destPhys, if_pos hwr]
    funext a
    simp only [Fin.ext_iff]
  · have hd : e.destPhys = INVALID_PHYSREG := by simpa [hwr] using hwriter
    rw [if_neg hwr, if_pos hd]

theorem stales_eq : s.rob.writers.map RobEntry.stalePhys = stales s.window :=
  (map_filter_of_forall₂ h.buffered.entries_mirror fun _ hu _ he =>
    ⟨h.entry_writer hu he, fun _ => he.stalePhys.symm⟩).symm

theorem dests_eq : s.rob.writers.map RobEntry.destPhys = dests s.window :=
  (map_filter_of_forall₂ h.buffered.entries_mirror fun _ hu _ he =>
    ⟨h.entry_writer hu he, fun _ => he.destPhys.symm⟩).symm

theorem ckpts_eq : s.rob.branches.map RobEntry.ckpt = ckptsOf s.window :=
  (map_filter_of_forall₂ h.buffered.entries_mirror fun _ _ _ he => ⟨he.isBranch.symm,
    fun _ => he.ckpt.symm⟩).symm

/-- Replaying the records is replaying the window. -/
theorem remap_eq {pre : List Uop} {es : List RobEntry} (hsub : ∀ a ∈ pre, a ∈ s.window)
    (hes : List.Forall₂ Mirrors pre es) (m : RegisterMap) :
    pre.foldl Uop.remap m = es.foldl RobEntry.remap m :=
  foldl_of_forall₂ hes (fun a ha _ he => h.entry_remap (hsub a ha) he) m

theorem replayed : s.Replayed where
  rat := h.mapped.rat_eq.trans (h.remap_eq (fun _ ha => ha) h.buffered.entries_mirror _)
  ckpts := by
    intro pre b post he hb
    have hmirror := h.buffered.entries_mirror.flip
    rw [he] at hmirror
    obtain ⟨pre', u, post', hw, hpre, hub, -⟩ := forall₂_split hmirror
    have hslot := h.checkpointed.slot_eq hw (hub.isBranch.symm.trans hb)
    have hes : List.Forall₂ Mirrors (pre' ++ [u]) (pre ++ [b]) :=
      List.rel_append hpre.flip (.cons hub .nil)
    have hsub : ∀ a ∈ pre' ++ [u], a ∈ s.window := fun a ha => by
      rw [show s.window =
        (pre' ++ [u]) ++ post' by rw [show s.window = pre' ++ u :: post' from hw]; simp]
      exact List.mem_append_left _ ha
    rw [hub.ckpt, CheckpointPool.read, hslot, ← h.remap_eq hsub hes]

end Coherent

/-- Registers and checkpoints are conserved over every run. -/
theorem conserved_ticked (mem : Memory) (cfg : Config) (entryPc : Word) (k : ℕ) (h : cfg.Admissible)
    (hb : (ticked mem cfg entryPc k).stats.renamed < 4294967296)
    (hself : NoSelfMod (committed mem cfg entryPc k)) :
    (ticked mem cfg entryPc k).Conserved cfg := by
  have hsteady := steady_ticked h mem k hself hb
  have hcoh := hsteady.coherent
  have hsize := hcoh.sized
  have hdest := hcoh.mapped.owned
  have hckpts := hcoh.checkpointed.owned
  rw [hsize.freeList] at hdest
  rw [hsize.ckpts] at hckpts
  refine ⟨?_, ?_, ?_, fun hd => ?_⟩
  · rw [hcoh.stales_eq, ← hsize.freeList]
    exact hcoh.mapped.owned_stale
  · rwa [hcoh.dests_eq]
  · rwa [hcoh.ckpts_eq]
  · have hempty : (ticked mem cfg entryPc k).window = [] := hsteady.drained hd
    have hlen := Buffered.window_length (ticked mem cfg entryPc k).rob
      (ticked mem cfg entryPc k).inflight
    rw [show windowOf _ _ = [] from hempty] at hlen
    rw [hempty] at hdest hckpts
    have hregs := hdest.length_eq
    have hslots := hckpts.length_eq
    simp only [dests, ckptsOf, List.filter_nil, List.map_nil, List.append_nil, List.length_append,
      List.length_ofFn, List.length_range] at hregs hslots
    exact ⟨hlen.symm, by rw [FreeList.numFree]; omega, hslots⟩

theorem conserved_ticked_skipping : (ticked skipping {} 0 9).Conserved {} :=
  conserved_ticked skipping {} 0 9 admissible_default (by decide +kernel) (by decide +kernel)

/-- The speculative mapping is exact over every run, and so is the one recovery goes back to. -/
theorem replayed_ticked (mem : Memory) (cfg : Config) (entryPc : Word) (k : ℕ) (h : cfg.Admissible)
    (hb : (ticked mem cfg entryPc k).stats.renamed < 4294967296)
    (hself : NoSelfMod (committed mem cfg entryPc k)) : (ticked mem cfg entryPc k).Replayed ∧
      ((ticked mem cfg entryPc k).beginCycle.commit.done = false →
        ∀ br, (ticked mem cfg entryPc k).beforeIssue.issueScan.offender = some br →
          (ticked mem cfg entryPc k).beforeIssue.issue.Unwound br) := by
  have hsteady := steady_ticked h mem k hself hb
  refine ⟨hsteady.coherent.replayed, fun hd br ho => ?_⟩
  obtain ⟨log', hbefore, hc, -⟩ := hsteady.beforeIssue hd
  have hbranch := (hbefore.led.issue hbefore.coherent hc).2
  have hsane := hbefore.coherent.issueScan hc
  obtain ⟨hcharged, hwin⟩ := hsane.coherent.chargeSlots
  obtain ⟨hmem, hi, -⟩ := hsane.offender br ho
  obtain ⟨pre, post, hw⟩ := List.append_of_mem (hwin.symm ▸ hmem)
  obtain ⟨hcoh, hlast⟩ := hcharged.recover hw hi (hbranch br ho)
  have heq : (ticked mem cfg entryPc k).beforeIssue.issue =
      (chargeSlots (ticked mem cfg entryPc k).beforeIssue.issueScan).recover br := by
    simp only [issue, ho]
  rw [heq]
  refine ⟨?_, hcoh.replayed.rat⟩
  have hmirror := hcoh.buffered.entries_mirror
  rw [show windowOf _ _ = pre ++ [br] from hlast] at hmirror
  obtain ⟨es, b, post', he, -, hbr, hnil⟩ := forall₂_split hmirror
  rw [List.forall₂_nil_left_iff] at hnil
  rw [he, hnil]
  simp [hbr.seq]

theorem replayed_ticked_skipping : (ticked skipping {} 0 9).Replayed ∧
    ((ticked skipping {} 0 9).beginCycle.commit.done = false →
      ∀ br, (ticked skipping {} 0 9).beforeIssue.issueScan.offender = some br →
        (ticked skipping {} 0 9).beforeIssue.issue.Unwound br) :=
  replayed_ticked skipping {} 0 9 admissible_default (by decide +kernel) (by decide +kernel)

end Cpu

end OooCpu
