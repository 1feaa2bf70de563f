import OooCpu.Execution
import OooCpu.MemoryQueues
import OooCpu.StageSteps
import OooCpu.Wakeup

/-! # The structural invariant of the machine

One statement for each group of structures, over the window and the components
it speaks of. The front half of the pipeline keeps it: fetch and decode leave the
window alone, rename appends to it, dispatch advances one uop of it. -/
namespace OooCpu

/-- Sizes never change, and no bounded queue overflows. -/
structure Cpu.Sized (cfg : Config) (s : Cpu) : Prop where
  cfg_eq : s.cfg = cfg
  rob : s.rob.capacity = cfg.robSize
  freeList : s.freeList.capacity = cfg.prfSize
  ckpts : s.ckpts.capacity = cfg.numCheckpoints
  iq : s.iq.capacity = cfg.iqSize
  loads : s.lsq.loads.capacity = cfg.lqSize
  stores : s.lsq.stores.capacity = cfg.sqSize
  fetchQ_le : s.fetchQ.length ≤ s.queueCap
  decodeQ_le : s.decodeQ.length ≤ s.queueCap
  renameQ_le : s.renameQ.length ≤ s.queueCap
  iq_le : s.iq.entries.length ≤ s.iq.capacity

structure Cpu.Coherent (cfg : Config) (s : Cpu) : Prop where
  sized : s.Sized cfg
  buffered : Buffered s.rob s.inflight s.stats.renamed
  staged : Staged cfg s.window s.renameQ s.iq s.executing s.wbFast s.wbSlow
  mapped : Mapped s.window s.archRat s.rat.rat s.freeList
  checkpointed : Checkpointed s.window s.archRat s.ckpts
  woken : Woken s.window s.archRat s.prf s.iq
  queued : Queued s.window s.lsq
  sound : ∀ u ∈ s.window, u.Sound
  decoded : ∀ u ∈ s.decodeQ, u.Sound ∧ u.Blank
  fetched : ∀ u ∈ s.fetchQ, u.trap = .none ∧ u.Blank
  counted : s.stats.renamed = s.stats.retired + s.stats.squashed + s.rob.count

namespace Cpu.Coherent
variable {cfg : Config} {s : Cpu} {u v : Uop} {rest : List Uop}

theorem reset (h : cfg.Admissible) (mem : Memory) (entryPc : Word) :
    (Cpu.reset mem cfg entryPc).Coherent cfg where
  sized := ⟨rfl, rfl, rfl, rfl, rfl, rfl, rfl, Nat.zero_le _, Nat.zero_le _, Nat.zero_le _,
    Nat.zero_le _⟩
  buffered := .reset h.rob_lt
  staged := .reset
  mapped := .reset h.prf_ge h.prf_lt
  checkpointed := .reset h.checkpoints_lt
  woken := .reset
  queued := .reset h.lq_lt h.sq_lt
  sound := by simp [Cpu.window, windowOf, Rob.live, Cpu.reset, Rob.reset]
  decoded := by simp [Cpu.reset]
  fetched := by simp [Cpu.reset]
  counted := rfl

variable (h : s.Coherent cfg)
include h

theorem fetchStep {t : Cpu} (hstep : FetchStep s t) : t.Coherent cfg := by
  have hs := h.sized
  cases hstep with
  | idle => exact h
  | fetched obs hroom =>
    have hlen : (s.fetchQ ++ [s.fetched]).length ≤ s.queueCap := by
      simpa [Nat.succ_le_iff] using hroom
    exact { h with
      sized := { hs with fetchQ_le := hlen }
      fetched := forall_mem_concat h.fetched ⟨rfl, rfl, rfl, rfl, rfl, rfl, rfl⟩ }

private theorem decoded_append {f : Uop} (hf : f ∈ s.fetchQ) :
    ∀ u ∈ s.decodeQ ++ [s.decoded f], u.Sound ∧ u.Blank := by
  obtain ⟨htrap, hb⟩ := h.fetched f hf
  apply forall_mem_concat h.decoded
  refine ⟨⟨rfl, rfl, ?_, fun _ => rfl, fun hi => ?_⟩, hb.dest, hb.stale, hb.ckpt, hb.dispatch,
    hb.issue, hb.complete⟩
  · simp only [Cpu.decoded, htrap]
  · have hissue := hb.issue
    exact absurd hi (by simpa [Uop.isIssued, Cpu.decoded] using hissue)

theorem decodeStep {t : Cpu} (hstep : DecodeStep s t) : t.Coherent cfg := by
  have hs := h.sized
  cases hstep with
  | idle => exact h
  | @decoded f rest obs hq hroom =>
    have hlen : (s.decodeQ ++ [s.decoded f]).length ≤ s.queueCap := by
      simpa [Nat.succ_le_iff] using hroom
    have hrest : rest.length ≤ s.queueCap := by
      have := hs.fetchQ_le
      simp only [hq, List.length_cons] at this
      omega
    exact { h with
      sized := { hs with fetchQ_le := hrest, decodeQ_le := hlen }
      decoded := h.decoded_append (by simp [hq])
      fetched := fun u hu => h.fetched u (by simp [hq, show u ∈ rest from hu]) }
  | @trapped f rest obs hq hroom =>
    have hlen : (s.decodeQ ++ [s.decoded f]).length ≤ s.queueCap := by
      simpa [Nat.succ_le_iff] using hroom
    exact { h with
      sized := { hs with fetchQ_le := Nat.zero_le _, decodeQ_le := hlen }
      decoded := h.decoded_append (by simp [hq])
      fetched := by simp }

section Rename
variable {dest slot : ℕ} {freeList : FreeList} (hsound : u.Sound) (hblank : u.Blank)
  (halloc : u.dec.writesRd = true ∧ s.freeList.alloc = some (dest, freeList) ∨
    u.dec.writesRd = false ∧ freeList = s.freeList)

/-- The checkpoint slot rename hands out. -/
def renamedSlot (s : Cpu) (u : Uop) : ℕ :=
  if u.dec.isBranch then (s.ckpts.alloc.map Prod.fst).getD INVALID_CHECKPOINT else u.ckpt

omit h in
include hsound hblank in
private theorem renamed_under : (s.renamed u dest slot).RenamedUnder s.rat.rat := by
  refine ⟨rfl, rfl, fun hwr => if_pos hwr, fun hwr => hsound.shaped.writes_ne_zero hwr,
    fun hwr => ?_⟩
  have hwr' : ¬u.dec.writesRd = true := by
    rw [show u.dec.writesRd = false from hwr]
    simp
  exact ⟨(if_neg hwr').trans hblank.dest, (if_neg hwr').trans hblank.stale⟩

omit h in
include hsound in
private theorem renameUop_rat :
    (s.renameUop u rest dest freeList).rat.rat = (s.renamed u dest slot).remap s.rat.rat := by
  by_cases hwr : u.dec.writesRd = true
  · have hrd : u.dec.rd ≠ 0 := hsound.shaped.writes_ne_zero hwr
    have hdest : (s.renamed u dest slot).dest = dest := if_pos hwr
    simp only [Cpu.renameUop, Uop.remap, hdest, show (s.renamed u dest slot).dec = u.dec from rfl,
      hwr, if_true, RegisterAliasTable.set, if_neg hrd]
  · simp only [Cpu.renameUop, Uop.remap, show (s.renamed u dest slot).dec = u.dec from rfl,
      if_neg hwr]

include hsound hblank halloc in
private theorem renamed_mapped :
    Mapped (s.window ++ [s.renamed u dest slot]) s.archRat
      ((s.renamed u dest slot).remap s.rat.rat) freeList ∧
        freeList.capacity = s.freeList.capacity := by
  have hunder : (s.renamed u dest slot).RenamedUnder s.rat.rat := renamed_under hsound hblank
  rcases halloc with ⟨hwr, ha⟩ | ⟨hwr, rfl⟩
  · have hdest : (s.renamed u dest slot).dest = dest := if_pos hwr
    have hcapacity : freeList.capacity = s.freeList.capacity := by
      simp only [FreeList.alloc] at ha
      split at ha
      · contradiction
      · obtain ⟨-, rfl⟩ := Prod.mk.inj (Option.some.inj ha)
        rfl
    exact ⟨h.mapped.push_some hunder hwr (hdest.symm ▸ ha), hcapacity⟩
  · have hsame : (s.renamed u dest slot).remap s.rat.rat = s.rat.rat :=
      if_neg (by rw [show (s.renamed u dest slot).dec.writesRd = false from hwr]; simp)
    rw [hsame]
    exact ⟨h.mapped.push_none hunder hwr, rfl⟩

include hsound hblank in
private theorem renamed_checkpointed (hck : u.dec.isBranch = true → s.ckpts.numFree ≠ 0) :
    Checkpointed (s.window ++ [s.renamed u dest (renamedSlot s u)]) s.archRat
        (s.renameUop u rest dest freeList).ckpts ∧
      (s.renameUop u rest dest freeList).ckpts.capacity = s.ckpts.capacity := by
  by_cases hbr : u.dec.isBranch = true
  · obtain ⟨id, rest', hfree⟩ : ∃ id rest', s.ckpts.freeSlots = id :: rest' :=
      List.exists_cons_of_ne_nil fun hnil => hck hbr (by simp [CheckpointPool.numFree, hnil])
    have ha : s.ckpts.alloc = some (id, { s.ckpts with freeSlots := rest' }) := by
      simp only [CheckpointPool.alloc, hfree]
    have hid : (s.renamed u dest (renamedSlot s u)).ckpt = id := by
      change renamedSlot s u = id
      simp [renamedSlot, hbr, ha]
    have hpush := h.checkpointed.push_some (v := s.renamed u dest (renamedSlot s u)) hbr
      (hid.symm ▸ ha)
    have hrat : (s.renameUop u rest dest freeList).rat.rat =
      (s.renamed u dest (renamedSlot s u)).remap s.rat.rat := renameUop_rat hsound
    rw [← h.mapped.rat_eq, ← hrat] at hpush
    have heq : (s.renameUop u rest dest freeList).ckpts =
        CheckpointPool.fill { s.ckpts with freeSlots := rest' }
          (s.renamed u dest (renamedSlot s u)).ckpt
          ⟨(s.renameUop u rest dest freeList).rat.rat, u.feSnap⟩ := by
      rw [hid]
      simp only [Cpu.renameUop, hbr, if_true, ha, Option.map_some, Option.getD_some]
      rfl
    rw [heq]
    exact ⟨hpush, rfl⟩
  · have hslot : (s.renamed u dest (renamedSlot s u)).ckpt = INVALID_CHECKPOINT :=
      (if_neg hbr).trans hblank.ckpt
    have heq : (s.renameUop u rest dest freeList).ckpts = s.ckpts := by
      simp only [Cpu.renameUop, if_neg hbr]
    have hbr' : u.dec.isBranch = false := by simpa using hbr
    rw [heq]
    exact ⟨h.checkpointed.push_none hbr' hslot, rfl⟩

include hblank halloc in
private theorem renamed_woken :
    Woken (s.window ++ [s.renamed u dest slot]) s.archRat
      (s.renameUop u rest dest freeList).prf s.iq := by
  rcases halloc with ⟨hwr, ha⟩ | ⟨hwr, -⟩
  · have hdest : (s.renamed u dest slot).dest = dest := if_pos hwr
    have hmem : (s.renamed u dest slot).dest ∈ s.freeList.regs := by
      simp only [FreeList.alloc] at ha
      split at ha
      · contradiction
      · rename_i hl
        obtain ⟨rfl, -⟩ := Prod.mk.inj (Option.some.inj ha)
        simp [hl, hdest]
    have heq : (s.renameUop u rest dest freeList).prf =
        s.prf.markPending (s.renamed u dest slot).dest := by
      rw [hdest]
      simp only [Cpu.renameUop, hwr, if_true]
    rw [heq]
    exact h.woken.push_some h.staged h.mapped hmem hblank.complete
  · have heq : (s.renameUop u rest dest freeList).prf = s.prf := by
      simp only [Cpu.renameUop, hwr, Bool.false_eq_true, if_false]
    rw [heq]
    exact h.woken.push_none hwr

end Rename

/-- One uop enters the window with everything it owns. -/
theorem renameUop {dest : ℕ} {freeList : FreeList} (hb : s.stats.renamed < 4294967296)
    (hq : s.decodeQ = u :: rest)
    (hcap : s.renameQ.length < s.queueCap) (hfull : s.rob.full = false)
    (hck : u.dec.isBranch = true → s.ckpts.numFree ≠ 0)
    (halloc : u.dec.writesRd = true ∧ s.freeList.alloc = some (dest, freeList) ∨
      u.dec.writesRd = false ∧ freeList = s.freeList) :
    (s.renameUop u rest dest freeList).Coherent cfg ∧
      ∃ slot, (s.renameUop u rest dest freeList).window = s.window ++ [s.renamed u dest slot] := by
  obtain ⟨hsound, hblank⟩ := h.decoded u (by simp [hq])
  let v := s.renamed u dest (renamedSlot s u)
  have hmirror : Mirrors v { robEntry v with seq := s.rob.nextSeq } :=
    ⟨rfl, rfl, rfl, rfl, rfl, hblank.complete.symm, rfl⟩
  obtain ⟨hwin, hbuffered⟩ := h.buffered.push hfull hb (v := v) rfl rfl hmirror
  replace hwin : (s.renameUop u rest dest freeList).window = s.window ++ [v] := hwin
  have hrat : (s.renameUop u rest dest freeList).rat.rat = v.remap s.rat.rat := renameUop_rat hsound
  have hs := h.sized
  have hlen : (s.renameQ ++ [v]).length ≤ s.queueCap := by simp; omega
  have hrestlen : rest.length ≤ s.queueCap := by
    have := hs.decodeQ_le
    simp only [hq, List.length_cons] at this
    omega
  have hvsound : v.Sound := ⟨hsound.dec, hsound.bkind, hsound.trap, hsound.straight, hsound.result⟩
  obtain ⟨hmapped, hregs⟩ : Mapped (s.window ++ [v]) s.archRat (v.remap s.rat.rat) freeList ∧
      freeList.capacity = s.freeList.capacity := h.renamed_mapped hsound hblank halloc
  obtain ⟨hckpts, hpool⟩ :
    Checkpointed (s.window ++ [v]) s.archRat (s.renameUop u rest dest freeList).ckpts ∧
      (s.renameUop u rest dest freeList).ckpts.capacity = s.ckpts.capacity :=
    h.renamed_checkpointed hsound hblank hck
  have hcount : (s.renameUop u rest dest freeList).rob.count = s.rob.count + 1 := rfl
  have hsized : (s.renameUop u rest dest freeList).Sized cfg :=
    { hs with
      freeList := hregs.trans hs.freeList
      ckpts := hpool.trans hs.ckpts
      decodeQ_le := hrestlen
      renameQ_le := hlen }
  refine ⟨⟨hsized, hbuffered, ?_, ?_, ?_, ?_, ?_, ?_, ?_, h.fetched, ?_⟩, _, hwin⟩
  · rw [hwin]
    exact h.staged.push hblank.dispatch hblank.issue hblank.complete
  · rw [hwin, hrat]
    exact hmapped
  · rw [hwin]
    exact hckpts
  · rw [hwin]
    exact h.renamed_woken hblank halloc
  · rw [hwin]
    exact h.queued.push hblank.dispatch
  · rw [hwin]
    exact forall_mem_concat h.sound hvsound
  · exact fun a ha => h.decoded a (by simp [hq, show a ∈ rest from ha])
  · have hcounted := h.counted
    rw [hcount]
    change s.stats.renamed + 1 = s.stats.retired + s.stats.squashed + (s.rob.count + 1)
    omega

omit h in
/-- A stall changes nothing but a statistic. -/
theorem stall (h : s.Coherent cfg) (c : Stall) : (s.stall c).Coherent cfg :=
  { h with sized := { h.sized with } }

theorem renameStep {t : Cpu} (hb : s.stats.renamed < 4294967296) (hstep : RenameStep s t) :
    t.Coherent cfg := by
  cases hstep with
  | idle => exact h
  | stalled c => exact h.stall c
  | renamed hq hroom hfull hck halloc => exact (h.renameUop hb hq hroom hfull hck halloc).1

private theorem allocLoad_capacity {seq size idx : ℕ} {lsq : Lsq}
    (hal : s.lsq.allocLoad seq size = some (idx, lsq)) :
    lsq.loads.capacity = s.lsq.loads.capacity ∧ lsq.stores.capacity = s.lsq.stores.capacity := by
  obtain ⟨⟨i, q⟩, hal', he⟩ := Option.map_eq_some_iff.mp hal
  obtain ⟨-, rfl⟩ := Prod.mk.inj he
  exact ⟨(LsqQueue.alloc_some h.queued.loads.wf hal').2.2.2.1, rfl⟩

private theorem allocStore_capacity {seq size idx : ℕ} {lsq : Lsq}
    (hal : s.lsq.allocStore seq size = some (idx, lsq)) :
    lsq.loads.capacity = s.lsq.loads.capacity ∧ lsq.stores.capacity = s.lsq.stores.capacity := by
  obtain ⟨⟨i, q⟩, hal', he⟩ := Option.map_eq_some_iff.mp hal
  obtain ⟨-, rfl⟩ := Prod.mk.inj he
  exact ⟨rfl, (LsqQueue.alloc_some h.queued.stores.wf hal').2.2.2.1⟩

/-- The oldest renamed uop is seated, with a queue slot of its own if it accesses memory. -/
theorem dispatchUop {idx : ℕ} {lsq : Lsq} (hc : 0 < s.cycle) (hq : s.renameQ = u :: rest)
    (hfull : s.iq.full = false)
    (hlsq : u.dec.isLoad = true ∧ s.lsq.allocLoad u.seq (accessSize u.dec.op) = some (idx, lsq) ∨
      u.dec.isLoad = false ∧ u.dec.isStore = true ∧
        s.lsq.allocStore u.seq (accessSize u.dec.op) = some (idx, lsq) ∨
      u.dec.isLoad = false ∧ u.dec.isStore = false ∧ lsq = s.lsq) :
    (s.dispatchUop u rest idx lsq).Coherent cfg ∧ ∃ d, s.window = d ++ u :: rest ∧
      (s.dispatchUop u rest idx lsq).window =
        d ++ { u with lsqIdx := idx, stageAt := { u.stageAt with dispatch := s.cycle } } ::
          rest := by
  let v : Uop := { u with lsqIdx := idx, stageAt := { u.stageAt with dispatch := s.cycle } }
  have ha : u.Advances v :=
    ⟨rfl, rfl, rfl, rfl, rfl, rfl, rfl, rfl, rfl, rfl, rfl, rfl, rfl, rfl, rfl, rfl⟩
  have hvd : v.isDispatched = true := by simpa [v, Uop.isDispatched] using Nat.pos_iff_ne_zero.mp hc
  have hud : u.isDispatched = false := h.staged.renamed u (by simp [hq])
  have hrestd : ∀ a ∈ rest, a.isDispatched = false :=
    fun a hm => h.staged.renamed a (by simp [hq, hm])
  have hbare : (s.iqEntry v).bare = v.seat cfg := by
    simp only [Cpu.iqEntry, IssueQueue.Entry.bare, Uop.seat, h.sized.cfg_eq]
  obtain ⟨d, hw, hstaged⟩ := h.staged.dispatch hq hvd rfl rfl hbare
  have hmem : u ∈ s.window := by simp [hw]
  have hui : v.isIssued = false := by
    change u.isIssued = false
    by_contra hne
    have := h.staged.issued u hmem (by simpa using hne)
    rw [hud] at this
    contradiction
  have husound := h.sound u hmem
  obtain ⟨-, -, hmirror⟩ := h.buffered.mem_window hmem
  obtain ⟨hwin, hbuffered⟩ := h.buffered.replace hw ha (f := id)
    ⟨hmirror.seq, hmirror.destArch, hmirror.destPhys, hmirror.stalePhys, hmirror.isBranch,
      hmirror.complete, hmirror.ckpt⟩
  rw [Rob.modify_id] at hwin hbuffered
  replace hwin : (s.dispatchUop u rest idx lsq).window = d ++ v :: rest := hwin
  have hqueued : Queued (d ++ v :: rest) lsq := by
    have hshape := husound.shaped
    rcases hlsq with ⟨hl, hal⟩ | ⟨hl, hst, hal⟩ | ⟨hl, hst, rfl⟩
    · exact h.queued.dispatchLoad hw hud hrestd ha hl (hshape.load_not_store hl) hvd hal
    · exact h.queued.dispatchStore hw hud hrestd ha hst hl hvd hui hal
    · exact h.queued.dispatchOther hw ha hl hst
  have hcaps : lsq.loads.capacity = s.lsq.loads.capacity ∧
      lsq.stores.capacity = s.lsq.stores.capacity := by
    rcases hlsq with ⟨-, hal⟩ | ⟨-, -, hal⟩ | ⟨-, -, rfl⟩
    · exact h.allocLoad_capacity hal
    · exact h.allocStore_capacity hal
    · exact ⟨rfl, rfl⟩
  have hs := h.sized
  have hrestlen : rest.length ≤ s.queueCap := by
    have := hs.renameQ_le
    simp only [hq, List.length_cons] at this
    omega
  have hiqlen : (s.iq.entries ++ [s.iqEntry v]).length ≤ s.iq.capacity := by
    have hlt : ¬s.iq.capacity ≤ s.iq.entries.length := of_decide_eq_false hfull
    simp only [List.length_append, List.length_cons, List.length_nil]
    omega
  have hsized : (s.dispatchUop u rest idx lsq).Sized cfg :=
    { hs with
      loads := hcaps.1.trans hs.loads
      stores := hcaps.2.trans hs.stores
      renameQ_le := hrestlen
      iq_le := hiqlen }
  refine ⟨⟨hsized, hbuffered, ?_, ?_, ?_, ?_, ?_, ?_, h.decoded, h.fetched, h.counted⟩, d, hw, hwin⟩
  · rw [hwin]
    exact hstaged
  · rw [hwin]
    exact h.mapped.replace hw ha
  · rw [hwin]
    exact h.checkpointed.replace hw ha
  · rw [hwin]
    exact h.woken.replace hw ha rfl (fun _ => rfl)
      (forall_mem_concat (fun _ he => .inl he) (.inr ⟨rfl, rfl⟩))
  · rw [hwin]
    exact hqueued
  · rw [hwin]
    exact forall_mem_replace hw h.sound (husound.advance ha rfl rfl rfl rfl)

theorem dispatchStep {t : Cpu} (hc : 0 < s.cycle) (hstep : DispatchStep s t) : t.Coherent cfg := by
  cases hstep with
  | idle => exact h
  | stalled c => exact h.stall c
  | dispatched hq hseat hslot => exact (h.dispatchUop hc hq hseat hslot).1

end Cpu.Coherent

end OooCpu
