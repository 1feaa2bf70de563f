import OooCpu.Activity

/-! # What the oldest instruction needs

Nothing in flight is older than the head of the window, so its operands are
committed registers and no store is in front of it: it launches as soon as it has
a unit and a port. With an empty window every pool and queue is free. -/
namespace OooCpu

/-- The machine shapes that can make progress: one of everything, and a physical register to
spare. -/
structure Config.Serviceable (c : Config) : Prop extends c.Admissible where
  prf_spare : 33 ≤ c.prfSize
  width_pos : 0 < c.width
  width_lt : c.width < 2^30
  rob_pos : 0 < c.robSize
  iq_pos : 0 < c.iqSize
  lq_pos : 0 < c.lqSize
  sq_pos : 0 < c.sqSize
  cdb_pos : 0 < c.numCdb
  checkpoints_pos : 0 < c.numCheckpoints
  alu_pos : 0 < c.numAlu
  branch_pos : 0 < c.numBranch
  mul_pos : 0 < c.numMul
  div_pos : 0 < c.numDiv
  mem_pos : 0 < c.numMem

/-- A load with no older store in the queue goes to memory. -/
theorem Lsq.searchStores_of_youngerAll {ld : LsqEntry} {stores : List LsqEntry}
    (hld : ld.addrReady = true)
    (h : ∀ st ∈ stores, ld.seq < st.seq) : (Lsq.searchStores ld stores).kind = .noMatch := by
  have hrun : Lsq.Scan.run ld {} stores = {} := by
    cases stores with
    | nil => rfl
    | cons st rest => rw [Lsq.Scan.run, if_pos (h st List.mem_cons_self)]
  rw [Lsq.searchStores, hld, hrun]
  rfl

namespace Cpu
variable {cfg : Config} {s : Cpu} {u : Uop} {post : List Uop} {e : IssueQueue.Entry}

namespace Coherent
variable (h : s.Coherent cfg)
include h

/-- The head of the window is what the reorder buffer would pop. -/
theorem head_running (hw : s.window = u :: post) (hp : s.rob.popHeadIfComplete = none) :
    u.isComplete = false := by
  have hlen := Buffered.window_length s.rob s.inflight
  have hcount : s.rob.count ≠ 0 := by
    rw [← hlen, ← window, hw]
    simp
  obtain ⟨rest, hlive⟩ := Rob.live_eq_cons h.buffered.wf hcount
  have hhead : u = s.inflight s.rob.head := by
    rw [window, windowOf, hlive, List.map_cons] at hw
    exact (List.cons.inj hw).1.symm
  have hmirrors := h.buffered.mirrors s.rob.head (by rw [hlive]; exact List.mem_cons_self)
  rw [hhead, ← hmirrors.complete]
  exact (Rob.pop_none hp).resolve_left hcount

/-- The head of the window has the first entry of the issue queue, and it is ready. -/
theorem head_ready (hw : s.window = u :: post) (hwait : u.waiting = true) :
    ∃ e rest, s.iq.entries = e :: rest ∧ e.bare = u.seat cfg ∧ e.ready = true ∧
      s.inflight e.rob = u := by
  have hseated := h.staged.seated
  rw [hw, List.filter_cons_of_pos hwait, List.map_cons] at hseated
  obtain ⟨e, rest, hentries, hbare, -⟩ := List.map_eq_cons_iff.mp hseated
  have hrob : e.rob = u.rob := congrArg IssueQueue.Entry.rob hbare
  have hfile := (h.buffered.mem_window (u :=
    u) (by rw [← window, hw]; exact List.mem_cons_self)).2.1
  refine ⟨e, rest, hentries, hbare, ?_, by rw [hrob, hfile]⟩
  obtain ⟨hheard1, hheard2⟩ := h.woken.heard e (by rw [hentries]; exact List.mem_cons_self)
  have hrenamed := h.mapped.renamedUnder (show s.window = [] ++ u :: post from hw)
  have hsrc1 : e.src1 = s.archRat u.dec.rs1 :=
    (congrArg IssueQueue.Entry.src1 hbare).trans hrenamed.src1
  have hsrc2 : e.src2 = s.archRat u.dec.rs2 :=
    (congrArg IssueQueue.Entry.src2 hbare).trans hrenamed.src2
  rw [IssueQueue.Entry.ready, hheard1, hheard2, hsrc1, hsrc2, h.woken.arch, h.woken.arch]
  rfl

/-- No store is older than a load at the head of the window. -/
theorem head_noMatch (hw : s.window = u :: post) (hd : u.isDispatched = true)
    (hl : u.dec.isLoad = true) {x : Uop}
    (hidx : x.lsqIdx = u.lsqIdx) : (s.forwardAnswer x).kind = .noMatch := by
  have hu : u ∈ s.window := by rw [hw]; exact List.mem_cons_self
  obtain ⟨hseq, -⟩ := h.queued.loads.slot u hu hl hd
  have hstores := h.queued.stores
  simp only [forwardAnswer, Lsq.searchOlderStores, Lsq.resolveLoadAddr, LsqQueue.modify, hidx,
    if_true]
  apply Lsq.searchStores_of_youngerAll rfl
  intro st hst
  rw [LsqQueue.entries_eq hstores.wf, hstores.live, List.map_map] at hst
  obtain ⟨v, hv, rfl⟩ := List.mem_map.mp hst
  obtain ⟨hvw, hvp⟩ := List.mem_filter.mp hv
  simp only [Bool.and_eq_true] at hvp
  simp only [Function.comp_apply, (hstores.slot v hvw hvp.1 hvp.2).1, hseq]
  rw [hw] at hvw
  rcases List.mem_cons.mp hvw with rfl | hvw
  · exact absurd hvp.1 (by simp [(h.sound v hu).shaped.load_not_store hl])
  · exact (h.buffered.seq_split (show s.window = [] ++ u :: post from hw)).2 v hvw

/-- With a free unit and a port for its result, the head of the window launches. -/
theorem head_launches (hw : s.window = u :: post) (hwait : u.waiting = true)
    (he : s.inflight e.rob = u)
    (hunit : ∃ unit, s.freeUnit (unitOf u.dec) = some unit)
    (hport : s.cdbBooked ((s.cycle + e.latency) % s.cdbWindow) < s.cfg.numCdb) :
    ∃ s' v latency f unit, s.attempt e = .launched s' v latency f unit := by
  obtain ⟨unit, hunit⟩ := hunit
  have hport' : ¬s.cfg.numCdb ≤ s.cdbBooked ((s.cycle + e.latency) % s.cdbWindow) := by omega
  simp only [Uop.waiting, Bool.and_eq_true] at hwait
  by_cases hl : u.dec.isLoad = true
  · have hanswer := h.head_noMatch hw hwait.1 hl (x := s.withOperands u) rfl
    simp only [forwardAnswer, loadAddr, withOperands] at hanswer
    simp only [attempt, he, hunit, hl, if_true, executeLoad, hanswer]
    exact ⟨_, _, _, _, _, rfl⟩
  · simp only [attempt, he, hunit, hl, if_false, reserveCdb, hport', Bool.false_eq_true]
    split
    · rename_i hnone
      split at hnone <;> simp at hnone
    · exact ⟨_, _, _, _, _, rfl⟩

/-- While nothing is dispatched, the queues dispatch fills are empty. -/
theorem nothing_seated (hw : ∀ v ∈ s.window, v.isDispatched = false) :
    s.iq.entries = [] ∧ s.lsq.loads.count = 0 ∧ s.lsq.stores.count = 0 := by
  have hnone (mine : Uop → Bool) : (s.window.filter fun v => mine v && v.isDispatched) = [] :=
    List.filter_eq_nil_iff.mpr fun v hv => by simp [hw v hv]
  refine ⟨?_, ?_, ?_⟩
  · have hseated := h.staged.seated
    rw [List.filter_eq_nil_iff.mpr fun v hv => by simp [Uop.waiting, hw v hv],
      List.map_nil] at hseated
    exact List.map_eq_nil_iff.mp hseated
  · have hlive := congrArg List.length h.queued.loads.live
    rwa [hnone, List.map_nil, LsqQueue.live, CircularBuffer.positions_length] at hlive
  · have hlive := congrArg List.length h.queued.stores.live
    rwa [hnone, List.map_nil, LsqQueue.live, CircularBuffer.positions_length] at hlive

/-- A head that is not dispatched yet is seated by the next dispatch stage. -/
theorem head_dispatches (hc : cfg.Serviceable) (hw : s.window = u :: post)
    (hd : u.isDispatched = false) : s.work < s.dispatch.work := by
  obtain ⟨d, hfront, hdisp⟩ := h.staged.front
  have hnil : d = [] := by
    cases d with
    | nil => rfl
    | cons v d =>
      rw [hw, List.cons_append] at hfront
      obtain ⟨rfl, -⟩ := List.cons.inj hfront
      rw [hdisp u List.mem_cons_self] at hd
      contradiction
  subst hnil
  have hq : s.renameQ = u :: post := hfront.symm.trans hw
  obtain ⟨hiq, hloads, hstores⟩ :=
    h.nothing_seated fun v hv => h.staged.renamed v (by rw [hfront] at hv; exact hv)
  have hs := h.sized
  refine dispatch_moves (by rw [hs.cfg_eq]; exact hc.width_pos) hq ?_ ?_ ?_
  · have hpos := hc.iq_pos
    simp [IssueQueue.full, IssueQueue.size, hiq, hs.iq]
    omega
  · have hpos := hc.lq_pos
    simp [LsqQueue.full, hloads, hs.loads]
    omega
  · have hpos := hc.sq_pos
    simp [LsqQueue.full, hstores, hs.stores]
    omega

/-- With an empty window the next rename stage has all it needs. -/
theorem empty_renames (hc : cfg.Serviceable) (hw : s.window = []) (hcap : 0 < s.queueCap)
    (hq : s.decodeQ ≠ []) : s.work < s.rename.work := by
  have hs := h.sized
  obtain ⟨v, rest, hq⟩ := List.exists_cons_of_ne_nil hq
  obtain ⟨d, hfront, -⟩ := h.staged.front
  have hrenameQ : s.renameQ = [] := (List.append_eq_nil_iff.mp (hfront.symm.trans hw)).2
  have hcount : s.rob.count = 0 := by
    rw [← Buffered.window_length s.rob s.inflight, ← window, hw]
    rfl
  refine rename_moves (by rw [hs.cfg_eq]; exact hc.width_pos) hq (by simp [hrenameQ, hcap]) ?_ ?_ ?_
  · have hpos := hc.rob_pos
    simp [Rob.full, hcount, hs.rob]
    omega
  · have howned := h.checkpointed.owned.length_eq
    have hpos := hc.checkpoints_pos
    rw [hw, hs.ckpts] at howned
    simp [ckptsOf] at howned
    simp only [CheckpointPool.numFree]
    omega
  · have howned := h.mapped.owned.length_eq
    have hpos := hc.prf_spare
    rw [hw, hs.freeList] at howned
    simp [dests] at howned
    intro hn
    rw [hn, List.length_nil] at howned
    omega

end Coherent

end Cpu

end OooCpu
