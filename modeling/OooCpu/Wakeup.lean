import OooCpu.Renaming
import OooCpu.Staging

/-! # Ready bits

A register in use is ready unless the uop that writes it has not completed, and
the issue queue has heard of exactly the registers that are ready. -/
namespace OooCpu

structure Woken (w : List Uop) (archRat : RegisterMap) (prf : PhysicalRegisterFile)
    (iq : IssueQueue) : Prop where
  arch : ∀ a, prf.isReady (archRat a) = true
  writer : ∀ u ∈ w, u.dec.writesRd = true → prf.isReady u.dest = u.isComplete
  value : ∀ u ∈ w, u.dec.writesRd = true → u.isComplete = true → prf.read u.dest = u.result
  heard : ∀ e ∈ iq.entries, e.src1Ready = prf.isReady e.src1 ∧ e.src2Ready = prf.isReady e.src2

namespace Woken
variable {cfg : Config} {w w' pre post renameQ executing wbFast wbSlow : List Uop}
    {archRat rat : RegisterMap}
  {prf : PhysicalRegisterFile} {iq iq' : IssueQueue} {freeList : FreeList} {u v : Uop}

theorem reset : Woken [] archRat (.reset cfg) (.reset cfg) where
  arch := fun a => by simp [PhysicalRegisterFile.isReady, PhysicalRegisterFile.reset]
  writer := by simp
  value := by simp
  heard := by simp [IssueQueue.reset]

/-- The sources of a waiting entry are mapped, so they are not on the free list. -/
theorem src_not_free (hs : Staged cfg w renameQ iq executing wbFast wbSlow)
    (hm : Mapped w archRat rat freeList)
    {e : IssueQueue.Entry} (he : e ∈ iq.entries) :
    e.src1 ∉ freeList.regs ∧ e.src2 ∉ freeList.regs := by
  obtain ⟨u, hu, -, hbare⟩ := hs.mem_iq he
  obtain ⟨pre, post, hw⟩ := List.append_of_mem hu
  have hr := hm.renamedUnder hw
  have h1 : e.src1 = u.src1 := congrArg IssueQueue.Entry.src1 hbare
  have h2 : e.src2 = u.src2 := congrArg IssueQueue.Entry.src2 hbare
  rw [h1, h2, hr.src1, hr.src2]
  exact ⟨fun hf => hm.free_not_mapped hw _ hf rfl, fun hf => hm.free_not_mapped hw _ hf rfl⟩

variable (h : Woken w archRat prf iq)
include h

/-- Uops and queue entries may leave. -/
theorem mono (hw : ∀ u ∈ w', u ∈ w) (hiq : ∀ e ∈ iq'.entries, e ∈ iq.entries) :
    Woken w' archRat prf iq' :=
  ⟨h.arch, fun u hu => h.writer u (hw u hu), fun u hu => h.value u (hw u hu),
    fun e he => h.heard e (hiq e he)⟩

theorem push_none (hv : v.dec.writesRd = false) : Woken (w ++ [v]) archRat prf iq := by
  have hnone : v.dec.writesRd ≠ true := by
    rw [hv]
    decide
  exact ⟨h.arch, forall_mem_concat h.writer fun hwr => absurd hwr hnone,
    forall_mem_concat h.value fun hwr => absurd hwr hnone, h.heard⟩

/-- Rename marks a register pending that nobody maps or waits for. -/
theorem push_some (hs : Staged cfg w renameQ iq executing wbFast wbSlow)
    (hm : Mapped w archRat rat freeList)
    (hfree : v.dest ∈ freeList.regs) (hc : v.isComplete = false) :
    Woken (w ++ [v]) archRat (prf.markPending v.dest) iq := by
  have harch : ∀ a, archRat a ≠ v.dest :=
    fun a => hm.free_not_mapped (show w = [] ++ w from rfl) a hfree
  have hdest : ∀ u ∈ w, u.dec.writesRd = true → u.dest ≠ v.dest := fun u hu hwr he =>
    (hm.dest_spec hu hwr).1 (he ▸ hfree)
  have h0 : v.dest ≠ 0 := fun h0 => harch 0 (hm.zero.trans h0.symm)
  have hother {p : ℕ} (hp : p ≠ v.dest) : (prf.markPending v.dest).isReady p = prf.isReady p := by
    rw [PhysicalRegisterFile.isReady_markPending]
    by_cases hp0 : p = 0
    · subst p
      rfl
    · rw [show (p == 0) = false by simpa using hp0, show (p != v.dest) = true by simpa using hp]
      simp
  refine ⟨fun a => (hother (harch a)).trans (h.arch a),
    forall_mem_concat (fun u hu hwr => ?_) fun _ => ?_,
    forall_mem_concat (fun u hu hwr hcomp => ?_) fun _ hcomp => ?_, fun e he => ?_⟩
  · rw [hother (hdest u hu hwr)]
    exact h.writer u hu hwr
  · rw [PhysicalRegisterFile.isReady_markPending, hc]
    simp [h0]
  · rw [PhysicalRegisterFile.read_markPending]
    exact h.value u hu hwr hcomp
  · rw [hc] at hcomp
    contradiction
  · obtain ⟨h1, h2⟩ := src_not_free hs hm he
    have hne1 : e.src1 ≠ v.dest := fun hp => h1 (hp ▸ hfree)
    have hne2 : e.src2 ≠ v.dest := fun hp => h2 (hp ▸ hfree)
    rw [hother hne1, hother hne2]
    exact h.heard e he

/-- A uop that is not complete may change its result, and entries come in with sampled bits. -/
theorem replace (hw : w = pre ++ u :: post) (ha : u.Advances v) (hc : v.isComplete = u.isComplete)
    (hr : u.isComplete = true → v.result = u.result)
    (hiq : ∀ e ∈ iq'.entries, e ∈ iq.entries ∨
      e.src1Ready = prf.isReady e.src1 ∧ e.src2Ready = prf.isReady e.src2) :
    Woken (pre ++ v :: post) archRat prf iq' := by
  have hu : u ∈ w := by simp [hw]
  refine ⟨h.arch, forall_mem_replace hw h.writer fun hwr => ?_,
    forall_mem_replace hw h.value fun hwr hcomp => ?_, fun e he => ?_⟩
  · rw [ha.dest, hc]
    exact h.writer u hu (ha.dec ▸ hwr)
  · rw [hc] at hcomp
    rw [ha.dest, hr hcomp]
    exact h.value u hu (ha.dec ▸ hwr) hcomp
  · cases hiq e he with
    | inl hold => exact h.heard e hold
    | inr hnew => exact hnew

/-- A landing result makes its register ready and wakes its waiters, and touches nothing else. -/
theorem land (hm : Mapped w archRat rat freeList) (hw : w = pre ++ u :: post) (ha : u.Advances v)
    (hc : v.isComplete = true) (hr : v.result = u.result)
    (hready : u.dec.writesRd = true → u.trap = .none ∧ u.hasResult = true) :
    Woken (pre ++ v :: post) archRat
      (if u.trap = .none ∧ u.hasResult = true ∧ u.dest ≠ INVALID_PHYSREG
        then prf.write u.dest u.result else prf)
      (iq.wakeup u.dest) := by
  have hu : u ∈ w := by simp [hw]
  by_cases hwr : u.dec.writesRd = true
  · obtain ⟨htrap, hres⟩ := hready hwr
    obtain ⟨-, harch, h0, -, hinv⟩ := hm.dest_spec hu hwr
    rw [if_pos ⟨htrap, hres, hinv⟩]
    have hother {p : ℕ} (hp : p ≠ u.dest) :
        (prf.write u.dest u.result).isReady p = prf.isReady p := by
      rw [PhysicalRegisterFile.isReady_write]
      simp [hp]
    have hread {p : ℕ} (hp : p ≠ u.dest) : (prf.write u.dest u.result).read p = prf.read p := by
      rw [PhysicalRegisterFile.read_write _ _ _ _ h0, if_neg hp]
    have hne {a : Uop} (hmem : a ∈ pre ∨ a ∈ post) (haw : a.dec.writesRd = true) :
      a.dest ≠ u.dest :=
      hm.dest_ne hw hwr hmem haw
    refine ⟨fun a => (hother (harch a)).trans (h.arch a),
      forall_mem_split (fun a hmem haw => ?_) fun _ => ?_,
      forall_mem_split (fun a hmem haw hcomp => ?_) fun _ _ => ?_, fun e he => ?_⟩
    · rw [hother (hne hmem haw)]
      exact h.writer a (mem_of_split hw hmem) haw
    · rw [ha.dest, hc, PhysicalRegisterFile.isReady_write]
      simp
    · rw [hread (hne hmem haw)]
      exact h.value a (mem_of_split hw hmem) haw hcomp
    · rw [ha.dest, hr, PhysicalRegisterFile.read_write _ _ _ _ h0, if_pos rfl]
    · rw [IssueQueue.wakeup, if_neg hinv] at he
      obtain ⟨e', he', rfl⟩ := List.mem_map.mp he
      obtain ⟨h1, h2⟩ := h.heard e' he'
      simp only [IssueQueue.Entry.hear, PhysicalRegisterFile.isReady_write, h1, h2, Bool.or_comm,
        and_self]
  · have hd : u.dest = INVALID_PHYSREG := ((hm.renamedUnder hw).none (by simpa using hwr)).1
    rw [if_neg (fun hcond => hcond.2.2 hd), IssueQueue.wakeup, if_pos hd]
    have hnone : v.dec.writesRd ≠ true := fun hvw => hwr (ha.dec ▸ hvw)
    exact ⟨h.arch, forall_mem_replace hw h.writer fun hvw => absurd hvw hnone,
      forall_mem_replace hw h.value fun hvw _ => absurd hvw hnone, h.heard⟩

/-- The register that becomes architectural is ready. -/
theorem pop (hw : w = u :: post) (hc : u.isComplete = true) :
    Woken post (u.remap archRat) prf iq := by
  subst hw
  refine ⟨fun a => ?_, fun v hv => h.writer v (List.mem_cons_of_mem _ hv),
    fun v hv => h.value v (List.mem_cons_of_mem _ hv), h.heard⟩
  by_cases hwr : u.dec.writesRd = true
  · simp only [Uop.remap, hwr, if_true]
    split
    · rw [h.writer u List.mem_cons_self hwr, hc]
    · exact h.arch a
  · simpa [Uop.remap, hwr] using h.arch a

end Woken

end OooCpu
