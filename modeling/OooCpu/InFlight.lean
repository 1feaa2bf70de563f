import OooCpu.Steady

/-! # Every uop in flight is somewhere, once

After every tick of a run: which queue holds an instruction in flight, who wakes
whom, and which load and store queue slots belong to whom. -/
namespace OooCpu.Cpu
variable {cfg : Config} {s t : Cpu} {u v : Uop}

/-- How often the queues behind rename and the completion flag account for a ROB slot. -/
def places (s : Cpu) (i : ℕ) : ℕ :=
  s.renameQ.countP (fun u => u.rob = i) + s.iq.entries.countP (fun e => e.rob = i) +
    (s.executing.countP (fun u => u.rob = i) + s.wbFast.countP (fun u => u.rob = i) +
      s.wbSlow.countP (fun u => u.rob = i)) +
    if (s.rob.slots i).complete then 1 else 0

structure Accounted (cfg : Config) (s : Cpu) : Prop where
  once : ∀ i ∈ s.rob.live, s.places i = 1
  named : ∀ u ∈ s.renameQ ++ s.executing ++ s.wbFast ++ s.wbSlow,
    u.rob ∈ s.rob.live ∧ (s.rob.slots u.rob).seq = u.seq
  seated : ∀ e ∈ s.iq.entries, e.rob ∈ s.rob.live ∧ (s.rob.slots e.rob).seq = e.seq
  iq_sorted : s.iq.entries.Pairwise fun a b => a.seq < b.seq
  renameQ_sorted : s.renameQ.Pairwise fun a b => a.seq < b.seq
  rob_le : s.rob.count ≤ cfg.robSize
  iq_le : s.iq.size ≤ cfg.iqSize
  loads_le : s.lsq.loads.count ≤ cfg.lqSize
  stores_le : s.lsq.stores.count ≤ cfg.sqSize
  front_le : s.fetchQ.length ≤ s.queueCap ∧ s.decodeQ.length ≤ s.queueCap ∧
    s.renameQ.length ≤ s.queueCap
  counted : s.stats.renamed = s.stats.retired + s.stats.squashed + s.rob.count

namespace Coherent
variable (h : s.Coherent cfg)
include h

theorem renameQ_eq : s.renameQ = s.window.filter fun u => !u.isDispatched := by
  obtain ⟨d, hw, hd⟩ := h.staged.front
  have hskip : d.filter (fun u => !u.isDispatched) = [] := List.filter_eq_nil_iff.mpr fun a ha => by
    simp [hd a ha]
  have hkeep : s.renameQ.filter (fun u => !u.isDispatched) = s.renameQ :=
    List.filter_eq_self.mpr fun a ha => by simp [h.staged.renamed a ha]
  rw [hw, List.filter_append, hskip, hkeep, List.nil_append]

/-- A slot is found among the selected uops exactly when its own uop is selected. -/
private theorem countP_filter (hu : u ∈ s.window) (p : Uop → Bool) :
    (s.window.filter p).countP (fun v => v.rob = u.rob) = if p u then 1 else 0 := by
  obtain ⟨pre, post, hw⟩ := List.append_of_mem hu
  have hother : ∀ v, v ∈ pre ∨ v ∈ post → v.rob ≠ u.rob := by
    intro v hv he
    have hvw : v ∈ s.window := by
      rw [hw]
      rcases hv with hv | hv <;> simp [hv]
    have hsame : v = u := by
      rw [← (h.buffered.mem_window hvw).2.1, ← (h.buffered.mem_window hu).2.1, he]
    obtain ⟨hpre, hpost⟩ := h.buffered.seq_split hw
    cases hv with
    | inl hv => exact absurd (hpre v hv) (by simp [hsame])
    | inr hv => exact absurd (hpost v hv) (by simp [hsame])
  have hnone (l : List Uop) (hl : ∀ v ∈ l, v.rob ≠ u.rob) :
    (l.filter p).countP (fun v => v.rob = u.rob) = 0 :=
    List.countP_eq_zero.mpr fun v hv => by simpa using hl v (List.mem_of_mem_filter hv)
  rw [hw, List.filter_append, List.countP_append, hnone pre fun v hv => hother v (.inl hv),
    List.filter_cons]
  split
  · rw [List.countP_cons_of_pos (by simp), hnone post fun v hv => hother v (.inr hv)]
  · rw [hnone post fun v hv => hother v (.inr hv)]

private theorem countP_iq (i : ℕ) :
    s.iq.entries.countP (fun e => e.rob = i) = (s.window.filter Uop.waiting).countP
      (fun u => u.rob = i) := by
  have hs := congrArg (List.countP fun e => decide (e.rob = i)) h.staged.seated
  rwa [List.countP_map, List.countP_map] at hs

omit h in
private theorem one_stage {d a c : Bool} (hd : a = true → d = true) (ha : c = true → a = true) :
    (if (!d) = true then 1 else 0) + (if (d && !a) = true then 1
      else 0) + (if (a && !c) = true then 1 else 0) + (if c = true then 1 else 0) = 1 := by
  revert hd ha
  cases d <;> cases a <;> cases c <;> simp

theorem places_eq {i : ℕ} (hi : i ∈ s.rob.live) : s.places i = 1 := by
  have hu : s.inflight i ∈ s.window := List.mem_map_of_mem hi
  obtain ⟨-, -, hmirror⟩ := h.buffered.mem_window hu
  have hrob := h.buffered.slot i hi
  have hrunning := h.staged.running.countP_eq fun u => decide (u.rob = i)
  rw [List.countP_append, List.countP_append] at hrunning
  have hcount := h.countP_filter hu
  simp only [hrob] at hcount hmirror
  rw [places, hrunning, h.countP_iq, h.renameQ_eq, hcount, hcount, hcount, hmirror.complete]
  exact one_stage (h.staged.issued _ hu) (h.staged.complete _ hu)

theorem accounted : s.Accounted cfg where
  once := fun _ hi => h.places_eq hi
  named := by
    intro u hu
    have huw : u ∈ s.window := by
      rw [List.append_assoc, List.append_assoc, List.mem_append] at hu
      cases hu with
      | inl hu =>
        rw [h.renameQ_eq] at hu
        exact List.mem_of_mem_filter hu
      | inr hu => exact (h.staged.mem_running (by simpa using hu)).1
    obtain ⟨hlive, -, hmirror⟩ := h.buffered.mem_window huw
    exact ⟨hlive, hmirror.seq⟩
  seated := by
    intro e he
    obtain ⟨u, huw, -, hbare⟩ := h.staged.mem_iq he
    have hrob : e.rob = u.rob := congrArg IssueQueue.Entry.rob hbare
    have hseq : e.seq = u.seq := congrArg IssueQueue.Entry.seq hbare
    obtain ⟨hlive, -, hmirror⟩ := h.buffered.mem_window huw
    rw [hrob, hseq]
    exact ⟨hlive, hmirror.seq⟩
  iq_sorted := h.staged.iq_sorted h.buffered.sorted
  renameQ_sorted := by
    rw [h.renameQ_eq]
    exact h.buffered.sorted.sublist List.filter_sublist
  rob_le := h.sized.rob ▸ h.buffered.wf.count_le
  iq_le := h.sized.iq ▸ h.sized.iq_le
  loads_le := h.sized.loads ▸ h.queued.loads.wf.count_le
  stores_le := h.sized.stores ▸ h.queued.stores.wf.count_le
  front_le := ⟨h.sized.fetchQ_le, h.sized.decodeQ_le, h.sized.renameQ_le⟩
  counted := h.counted

end Coherent

/-- Every instruction in flight is in one place over every run. -/
theorem accounted_ticked (mem : Memory) (cfg : Config) (entryPc : Word) (k : ℕ) (h : cfg.Admissible)
    (hb : (ticked mem cfg entryPc k).stats.renamed < 4294967296)
    (hself : NoSelfMod (committed mem cfg entryPc k)) :
    (ticked mem cfg entryPc k).Accounted cfg := (steady_ticked h mem k hself hb).coherent.accounted

theorem accounted_ticked_skipping : (ticked skipping {} 0 9).Accounted {} :=
  accounted_ticked skipping {} 0 9 admissible_default (by decide +kernel) (by decide +kernel)

/-- Slot `i` holds the one live entry that will write `p`, and it is still to complete. -/
structure Producer (s : Cpu) (p i : ℕ) : Prop where
  live : i ∈ s.rob.live
  dest : (s.rob.slots i).destPhys = p
  running : (s.rob.slots i).complete = false
  unique : ∀ j ∈ s.rob.live, (s.rob.slots j).destPhys = p → j = i

structure Awake (cfg : Config) (s : Cpu) : Prop where
  heard : ∀ e ∈ s.iq.entries, e.src1Ready = s.prf.isReady e.src1 ∧
    e.src2Ready = s.prf.isReady e.src2
  waited : ∀ e ∈ s.iq.entries, ∀ p, p = e.src1 ∨ p = e.src2 → s.prf.isReady p = false →
    ∃ i, s.Producer p i ∧ (s.rob.slots i).seq < e.seq
  pending : ∀ p < cfg.prfSize, s.prf.isReady p = false → p ∈ s.freeList.regs ∨ ∃ i, s.Producer p i

/-- Writeback from `s` spares every register that is free or committed. -/
structure WritesOwn (s : Cpu) : Prop where
  dest : ∀ u ∈ s.wbFast ++ s.wbSlow, u.dest ≠ INVALID_PHYSREG →
    u.dest ∉ s.freeList.regs ∧ ∀ a, s.archRat a ≠ u.dest
  spared : ∀ p, (p ∈ s.freeList.regs ∨ ∃ a, s.archRat a = p) →
    s.writeback.prf.values p = s.prf.values p ∧ s.writeback.prf.ready p = s.prf.ready p

namespace Coherent
variable (h : s.Coherent cfg)
include h

/-- A writer in flight that has not landed is the one producer of its register. -/
private theorem producer (hu : u ∈ s.window) (hwr : u.dec.writesRd = true)
    (hr : s.prf.isReady u.dest = false) : s.Producer u.dest u.rob := by
  obtain ⟨hlive, -, hmirror⟩ := h.buffered.mem_window hu
  refine ⟨hlive, hmirror.destPhys, ?_, fun j hj hd => ?_⟩
  · rw [hmirror.complete, ← h.woken.writer u hu hwr, hr]
  · have hv : s.inflight j ∈ s.window := List.mem_map_of_mem hj
    obtain ⟨-, -, hmirror'⟩ := h.buffered.mem_window hv
    rw [h.buffered.slot j hj] at hmirror'
    have hdest : (s.inflight j).dest = u.dest := hmirror'.destPhys.symm.trans hd
    have hvwr : (s.inflight j).dec.writesRd = true := by
      by_contra hne
      obtain ⟨pre, post, hw⟩ := List.append_of_mem hv
      have hnone := ((h.mapped.renamedUnder hw).none (by simpa using hne)).1
      exact (h.mapped.dest_spec hu hwr).2.2.2.2 (hdest.symm.trans hnone)
    obtain ⟨pre, post, hw⟩ := List.append_of_mem hu
    have hv' := hv
    rw [hw, List.mem_append, List.mem_cons] at hv'
    rcases hv' with hv' | he | hv'
    · exact absurd hdest (h.mapped.dest_ne hw hwr (.inl hv') hvwr)
    · rw [← h.buffered.slot j hj, he]
    · exact absurd hdest (h.mapped.dest_ne hw hwr (.inr hv') hvwr)

/-- A tag in the speculative mapping that is not ready has an older producer. -/
private theorem mapped_producer {pre post : List Uop} (hw : s.window = pre ++ u :: post)
    (a : ArchReg)
    (hr : s.prf.isReady (pre.foldl Uop.remap s.archRat a) = false) :
    ∃ i, s.Producer (pre.foldl Uop.remap s.archRat a) i ∧ (s.rob.slots i).seq < u.seq := by
  cases List.mem_append.mp (foldl_remap_mem pre s.archRat a) with
  | inl hm =>
    obtain ⟨b, hb⟩ := List.mem_ofFn.mp hm
    rw [← hb, h.woken.arch b] at hr
    contradiction
  | inr hm =>
    obtain ⟨v, hv, hwr, hd⟩ := mem_dests.mp hm
    have hvw : v ∈ s.window := by simp [hw, hv]
    rw [← hd] at hr ⊢
    refine ⟨v.rob, h.producer hvw hwr hr, ?_⟩
    rw [(h.buffered.mem_window hvw).2.2.seq]
    exact (h.buffered.seq_split hw).1 v hv

theorem awake : s.Awake cfg where
  heard := h.woken.heard
  waited := by
    intro e he p hp hr
    obtain ⟨u, hu, -, hbare⟩ := h.staged.mem_iq he
    have hseq : e.seq = u.seq := congrArg IssueQueue.Entry.seq hbare
    have hsrc1 : e.src1 = u.src1 := congrArg IssueQueue.Entry.src1 hbare
    have hsrc2 : e.src2 = u.src2 := congrArg IssueQueue.Entry.src2 hbare
    obtain ⟨pre, post, hw⟩ := List.append_of_mem hu
    have hrenamed := h.mapped.renamedUnder hw
    rw [hseq]
    rcases hp with rfl | rfl
    · rw [hsrc1, hrenamed.src1] at hr ⊢
      exact h.mapped_producer hw _ hr
    · rw [hsrc2, hrenamed.src2] at hr ⊢
      exact h.mapped_producer hw _ hr
  pending := by
    intro p hp hr
    have howned := h.mapped.owned.symm.subset (List.mem_range.mpr (h.sized.freeList.symm ▸ hp))
    rw [List.mem_append, List.mem_append] at howned
    rcases howned with (hf | ha) | hd
    · exact .inl hf
    · obtain ⟨a, rfl⟩ := List.mem_ofFn.mp ha
      rw [h.woken.arch a] at hr
      contradiction
    · obtain ⟨u, hu, hwr, rfl⟩ := mem_dests.mp hd
      exact .inr ⟨u.rob, h.producer hu hwr hr⟩

theorem writesOwn (hc : 0 < s.cycle) : s.WritesOwn where
  dest := fun u hu => h.running_dest (by rw [List.append_assoc]; exact List.mem_append_right _ hu)
  spared := by
    intro p hp
    refine (writeback_preserves (P := fun t => t.Coherent cfg ∧ 0 < t.cycle ∧
      t.freeList = s.freeList ∧ t.archRat = s.archRat ∧ t.prf.values p = s.prf.values p ∧
        t.prf.ready p = s.prf.ready p)
      (fun {t u fast slow} ht hq => ?_) (fun _ ht => ⟨ht.1.clearBooking _, ht.2⟩) ⟨h, hc, rfl, rfl,
        rfl, rfl⟩).2.2.2.2
    obtain ⟨hcoh, hcyc, hfree, harch, hvalue, hready⟩ := ht
    refine ⟨(hcoh.complete hcyc hq).1, hcyc, hfree, harch, ?_⟩
    have hmem : u ∈ t.executing ++ t.wbFast ++ t.wbSlow := hq.symm.subset List.mem_cons_self
    change (ite _ _ _ : PhysicalRegisterFile).values p = _ ∧
      (ite _ _ _ : PhysicalRegisterFile).ready p = _
    split
    · rename_i hwrite
      obtain ⟨hnot, hne⟩ := hcoh.running_dest hmem hwrite.2.2
      have hpu : p ≠ u.dest := by
        rintro rfl
        rcases hp with hp | ⟨a, ha⟩
        · exact hnot (hfree ▸ hp)
        · exact hne a (harch ▸ ha)
      simp only [PhysicalRegisterFile.write]
      split
      · exact ⟨hvalue, hready⟩
      · simp only [if_neg hpu]
        exact ⟨hvalue, hready⟩
    · exact ⟨hvalue, hready⟩

end Coherent

/-- No wakeup is lost or early over every run, and writeback stays off registers it does not own. -/
theorem awake_ticked (mem : Memory) (cfg : Config) (entryPc : Word) (k : ℕ) (h : cfg.Admissible)
    (hb : (ticked mem cfg entryPc k).stats.renamed < 4294967296)
    (hself : NoSelfMod (committed mem cfg entryPc k)) :
    (ticked mem cfg entryPc k).Awake cfg ∧
      (ticked mem cfg entryPc k).beginCycle.commit.WritesOwn := by
  have hcoh := (steady_ticked h mem k hself hb).coherent
  refine ⟨hcoh.awake, hcoh.beginCycle.commit.writesOwn ?_⟩
  rw [commit_cycle]
  exact Nat.succ_pos _

theorem awake_ticked_skipping :
    (ticked skipping {} 0 9).Awake {} ∧ (ticked skipping {} 0 9).beginCycle.commit.WritesOwn :=
  awake_ticked skipping {} 0 9 admissible_default (by decide +kernel) (by decide +kernel)

/-- One of the two queues beside the uops in flight that belong in it. -/
structure Holds (s : Cpu) (mine : Uop → Bool) (q : LsqQueue) : Prop where
  seqs : q.entries.map LsqEntry.seq =
    (s.window.filter fun u => mine u && u.isDispatched).map Uop.seq
  slot : ∀ u ∈ s.window, mine u = true → u.isDispatched = true →
    u.lsqIdx ∈ q.live ∧ (q.slots u.lsqIdx).seq = u.seq ∧
      (q.slots u.lsqIdx).size = accessSize u.dec.op

/-- The payload of an issued store sits in its slot. -/
def Carries (q : LsqQueue) (u : Uop) : Prop :=
  (q.slots u.lsqIdx).addrReady = true ∧ (q.slots u.lsqIdx).dataReady = true ∧
    (q.slots u.lsqIdx).addr = u.memAddr ∧ (q.slots u.lsqIdx).data = u.storeData

structure Mirrored (s : Cpu) : Prop where
  loads : s.Holds (fun u => u.dec.isLoad) s.lsq.loads
  stores : s.Holds (fun u => u.dec.isStore) s.lsq.stores
  issued : ∀ u ∈ s.window, u.dec.isStore = true → u.isIssued = true → Carries s.lsq.stores u

/-- What commit takes off the queues belongs to the uop `u` that it retires. -/
structure PopsOwn (s : Cpu) (u : Uop) : Prop where
  load : u.dec.isLoad = true → s.lsq.loads.count ≠ 0 ∧
    s.lsq.loads.nth 0 = s.lsq.loads.slots u.lsqIdx ∧ (s.lsq.loads.nth 0).seq = u.seq
  store : u.dec.isStore = true → s.lsq.stores.count ≠ 0 ∧
    s.lsq.stores.nth 0 = s.lsq.stores.slots u.lsqIdx ∧ (s.lsq.stores.nth 0).seq = u.seq ∧
      Carries s.lsq.stores u

/-- Every pass of the next commit pops the committing instruction's own entries. -/
def CommitsOwn (s : Cpu) : Prop := ∀ (n : ℕ) (e : RobEntry) (rob : Rob),
  (forLoop commitOne n s.beginCycle).rob.popHeadIfComplete = some (e, rob) →
    (forLoop commitOne n s.beginCycle).PopsOwn
      ((forLoop commitOne n s.beginCycle).inflight (forLoop commitOne n s.beginCycle).rob.head)

namespace Coherent
variable (h : s.Coherent cfg)
include h

omit h in
private theorem holds {mine : Uop → Bool} {q : LsqQueue} (hl : Lined mine s.window q) :
    s.Holds mine q where
  seqs := by
    rw [LsqQueue.entries_eq hl.wf, hl.live, List.map_map, List.map_map]
    apply List.map_congr_left
    intro u hu
    obtain ⟨huw, hp⟩ := List.mem_filter.mp hu
    simp only [Bool.and_eq_true] at hp
    exact (hl.slot u huw hp.1 hp.2).1
  slot := fun u hu hm hd => ⟨hl.mem_live hu hm hd, hl.slot u hu hm hd⟩

private theorem carries (hu : u ∈ s.window) (hs : u.dec.isStore = true) (hi : u.isIssued = true) :
    Carries s.lsq.stores u := by
  have hfill := h.queued.filled u hu hs (h.staged.issued u hu hi)
  rwa [Uop.FilledIn, if_pos hi] at hfill

theorem mirrored : s.Mirrored where
  loads := holds h.queued.loads
  stores := holds h.queued.stores
  issued := fun _ hu hs hi => h.carries hu hs hi

omit h in
private theorem count_ne_zero {mine : Uop → Bool} {q : LsqQueue} (hl : Lined mine s.window q)
    (hu : u ∈ s.window)
    (hm : mine u = true) (hd : u.isDispatched = true) : q.count ≠ 0 := by
  intro h0
  have hlive := hl.mem_live hu hm hd
  simp [LsqQueue.live, h0] at hlive

/-- The uop commit retires is at the head of its queue. -/
theorem popsOwn {e : RobEntry} {rob : Rob} (hp : s.rob.popHeadIfComplete = some (e, rob)) :
    s.PopsOwn (s.inflight s.rob.head) := by
  obtain ⟨-, hw, hcomplete⟩ := h.retire hp
  generalize s.inflight s.rob.head = u at *
  have hu : u ∈ s.window := by
    rw [hw]
    exact List.mem_cons_self
  have hi := h.staged.complete u hu hcomplete
  have hd := h.staged.issued u hu hi
  constructor
  · intro hl
    have hnth := (h.queued.loads.pop hw hd).2 hl
    exact ⟨count_ne_zero h.queued.loads hu hl hd, hnth,
      by rw [hnth]; exact (h.queued.loads.slot u hu hl hd).1⟩
  · intro hs
    have hnth := (h.queued.stores.pop hw hd).2 hs
    exact ⟨count_ne_zero h.queued.stores hu hs hd, hnth,
      by rw [hnth]; exact (h.queued.stores.slot u hu hs hd).1, h.carries hu hs hi⟩

end Coherent

/-- The load and store queues mirror the reorder buffer over every run. -/
theorem mirrored_ticked (mem : Memory) (cfg : Config) (entryPc : Word) (k : ℕ) (h : cfg.Admissible)
    (hb : (ticked mem cfg entryPc k).stats.renamed < 4294967296)
    (hself : NoSelfMod (committed mem cfg entryPc k)) :
    (ticked mem cfg entryPc k).Mirrored ∧ (ticked mem cfg entryPc k).CommitsOwn := by
  have hcoh := (steady_ticked h mem k hself hb).coherent
  refine ⟨hcoh.mirrored, fun n e rob hp => ?_⟩
  have hloop : (forLoop commitOne n (ticked mem cfg entryPc k).beginCycle).Coherent cfg :=
    hcoh.beginCycle.commitPasses n
  exact hloop.popsOwn hp

theorem mirrored_ticked_skipping :
    (ticked skipping {} 0 9).Mirrored ∧ (ticked skipping {} 0 9).CommitsOwn :=
  mirrored_ticked skipping {} 0 9 admissible_default (by decide +kernel) (by decide +kernel)

end OooCpu.Cpu
