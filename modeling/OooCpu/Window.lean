import OooCpu.Cpu
import OooCpu.ListUpdate

/-! # The window of in-flight instructions

The live ROB slots, oldest first, each standing for the uop filed under it. The
stages append to this list, rewrite one element, drop the oldest and cut off a
tail; nothing else. -/
namespace OooCpu

namespace Uop

def isDispatched (u : Uop) : Bool := u.stageAt.dispatch != 0
def isIssued (u : Uop) : Bool := u.stageAt.issue != 0
def isComplete (u : Uop) : Bool := u.stageAt.complete != 0

/-- Seated in the issue queue. -/
def waiting (u : Uop) : Bool := u.isDispatched && !u.isIssued

/-- Between issue and writeback. -/
def running (u : Uop) : Bool := u.isIssued && !u.isComplete

/-- What no stage behind rename rewrites. -/
structure Advances (u v : Uop) : Prop where
  seq : v.seq = u.seq
  rob : v.rob = u.rob
  pc : v.pc = u.pc
  raw : v.raw = u.raw
  dec : v.dec = u.dec
  src1 : v.src1 = u.src1
  src2 : v.src2 = u.src2
  dest : v.dest = u.dest
  stale : v.stale = u.stale
  predTaken : v.predTaken = u.predTaken
  predTarget : v.predTarget = u.predTarget
  btbHit : v.btbHit = u.btbHit
  phtIndex : v.phtIndex = u.phtIndex
  bkind : v.bkind = u.bkind
  ckpt : v.ckpt = u.ckpt
  feSnap : v.feSnap = u.feSnap

theorem Advances.trans {u v w : Uop} (h : u.Advances v) (h' : v.Advances w) : u.Advances w :=
  ⟨h'.seq.trans h.seq, h'.rob.trans h.rob, h'.pc.trans h.pc, h'.raw.trans h.raw, h'.dec.trans h.dec,
    h'.src1.trans h.src1, h'.src2.trans h.src2, h'.dest.trans h.dest, h'.stale.trans h.stale,
    h'.predTaken.trans h.predTaken, h'.predTarget.trans h.predTarget, h'.btbHit.trans h.btbHit,
    h'.phtIndex.trans h.phtIndex, h'.bkind.trans h.bkind, h'.ckpt.trans h.ckpt,
    h'.feSnap.trans h.feSnap⟩

theorem Advances.predicted {u v : Uop} (h : u.Advances v) : v.predicted = u.predicted := by
  simp only [Uop.predicted, h.predTaken, h.predTarget, h.pc]

end Uop

/-- The reorder buffer's record of a uop. -/
structure Mirrors (u : Uop) (e : RobEntry) : Prop where
  seq : e.seq = u.seq
  destArch : e.destArch = if u.dec.writesRd then u.dec.rd.val else INVALID_ARCHREG
  destPhys : e.destPhys = u.dest
  stalePhys : e.stalePhys = u.stale
  isBranch : e.isBranch = u.dec.isBranch
  complete : e.complete = u.isComplete
  ckpt : e.ckpt = u.ckpt

def windowOf (rob : Rob) (inflight : ℕ → Uop) : List Uop := rob.live.map inflight

/-- The in-flight uops, oldest first. -/
def Cpu.window (s : Cpu) : List Uop := windowOf s.rob s.inflight

/-- Each live slot files its own uop, and sequence numbers follow program order. -/
structure Buffered (rob : Rob) (inflight : ℕ → Uop) (renamed : ℕ) : Prop where
  wf : rob.Wf
  next : rob.nextSeq = u32 renamed
  slot : ∀ i ∈ rob.live, (inflight i).rob = i
  mirrors : ∀ i ∈ rob.live, Mirrors (inflight i) (rob.slots i)
  seq_lt : ∀ u ∈ windowOf rob inflight, u.seq < renamed
  sorted : (windowOf rob inflight).Pairwise fun u v => u.seq < v.seq

namespace Buffered
variable {rob : Rob} {inflight : ℕ → Uop} {renamed : ℕ} {pre post : List Uop} {u v : Uop}

theorem reset {cfg : Config} (h : cfg.robSize < 2^31) : Buffered (.reset cfg) inflight 0 where
  wf := Rob.wf_reset h.le
  next := rfl
  slot := fun i hi => by simp [Rob.live, Rob.reset] at hi
  mirrors := fun i hi => by simp [Rob.live, Rob.reset] at hi
  seq_lt := fun u hu => by simp [windowOf, Rob.live, Rob.reset] at hu
  sorted := by simp [windowOf, Rob.live, Rob.reset]

theorem window_length (rob : Rob) (inflight : ℕ → Uop) :
    (windowOf rob inflight).length = rob.count := by
  simp [windowOf, Rob.live_length]

variable (h : Buffered rob inflight renamed)
include h

theorem mem_window (hu : u ∈ windowOf rob inflight) :
    u.rob ∈ rob.live ∧ inflight u.rob = u ∧ Mirrors u (rob.slots u.rob) := by
  obtain ⟨i, hi, rfl⟩ := List.mem_map.mp hu
  rw [h.slot i hi]
  exact ⟨hi, rfl, h.mirrors i hi⟩

/-- The window and the records of the reorder buffer go side by side. -/
theorem entries_mirror : List.Forall₂ Mirrors (windowOf rob inflight) rob.entries := by
  rw [windowOf, Rob.entries, List.forall₂_map_left_iff, List.forall₂_map_right_iff,
    List.forall₂_same]
  exact h.mirrors

/-- A place in the window is a place in the ring. -/
theorem live_split (hw : windowOf rob inflight = pre ++ u :: post) :
    ∃ p q, rob.live = p ++ u.rob :: q ∧ p.map inflight = pre ∧ q.map inflight = post ∧
      inflight u.rob = u := by
  obtain ⟨p, rest, hl, hp, hrest⟩ := List.map_eq_append_iff.mp hw
  obtain ⟨i, q, rfl, hi, hq⟩ := List.map_eq_cons_iff.mp hrest
  have hrob : u.rob = i := by
    rw [← hi]
    exact h.slot i (by simp [hl])
  exact ⟨p, q, by rw [hl, hrob], hp, hq, by rw [hrob, hi]⟩

/-- What lies left and right of a uop in the window is older and younger. -/
theorem seq_split (hw : windowOf rob inflight = pre ++ u :: post) :
    (∀ v ∈ pre, v.seq < u.seq) ∧ ∀ v ∈ post, u.seq < v.seq := by
  have hp := h.sorted
  rw [hw, List.pairwise_append] at hp
  obtain ⟨-, hpost, hcross⟩ := hp
  exact ⟨fun v hv => hcross v hv u List.mem_cons_self, (List.pairwise_cons.mp hpost).1⟩

/-- Sequence numbers tell the uops of the window apart. -/
theorem seq_inj (hu : u ∈ windowOf rob inflight) (hv : v ∈ windowOf rob inflight)
    (he : u.seq = v.seq) : u = v := by
  obtain ⟨pre, post, hw⟩ := List.append_of_mem hu
  obtain ⟨hpre, hpost⟩ := h.seq_split hw
  rw [hw, List.mem_append, List.mem_cons] at hv
  rcases hv with hv | hv | hv
  · exact absurd he (hpre v hv).ne'
  · exact hv.symm
  · exact absurd he (hpost v hv).ne

/-- Rename files a uop behind the youngest. -/
theorem push (hf : rob.full = false) (hb : renamed < 4294967296) {e : RobEntry}
    (hrob : v.rob = rob.tail)
    (hseq : v.seq = rob.nextSeq) (hm : Mirrors v { e with seq := rob.nextSeq }) :
    windowOf (rob.allocate e).2 (fun i => if i = v.rob then v
      else inflight i) = windowOf rob inflight ++ [v] ∧
        Buffered (rob.allocate e).2 (fun i => if i = v.rob then v
          else inflight i) (renamed + 1) := by
  have hnot := Rob.tail_notMem_live h.wf hf
  have hwin : windowOf (rob.allocate e).2 (fun i => if i = v.rob then v else inflight i) =
      windowOf rob inflight ++ [v] := by
    rw [windowOf, Rob.live_allocate h.wf hf, List.map_append, hrob, map_update_of_notMem _ _ hnot]
    simp [windowOf]
  have hseq' : v.seq = renamed := by rw [hseq, h.next, u32_of_lt hb]
  refine ⟨hwin, Rob.wf_allocate h.wf hf e, ?_, ?_, ?_, ?_, ?_⟩
  · simp only [Rob.allocate, h.next, u32]
    omega
  · intro i hi
    rw [Rob.live_allocate h.wf hf, List.mem_append, List.mem_singleton] at hi
    by_cases he : i = v.rob
    · simp [he]
    · have hi' : i ∈ rob.live := hi.resolve_right (hrob ▸ he)
      simpa [he] using h.slot i hi'
  · intro i hi
    rw [Rob.live_allocate h.wf hf, List.mem_append, List.mem_singleton] at hi
    by_cases he : i = v.rob
    · subst he
      simpa [Rob.allocate, hrob] using hm
    · have hi' : i ∈ rob.live := hi.resolve_right (hrob ▸ he)
      simpa [he, Rob.allocate, ← hrob] using h.mirrors i hi'
  · rw [hwin]
    exact forall_mem_concat (fun w hw => (h.seq_lt w hw).trans (Nat.lt_succ_self _)) (by omega)
  · rw [hwin, List.pairwise_append]
    refine ⟨h.sorted, List.pairwise_singleton _ _, fun a ha b hb' => ?_⟩
    rw [List.mem_singleton.mp hb', hseq']
    exact h.seq_lt a ha

/-- A stage rewrites one uop and its record in place. -/
theorem replace (hw : windowOf rob inflight = pre ++ u :: post) (ha : u.Advances v)
    {f : RobEntry → RobEntry}
    (hm : Mirrors v (f (rob.slots u.rob))) :
    windowOf (rob.modify v.rob f) (fun i => if i = v.rob then v
      else inflight i) = pre ++ v :: post ∧
        Buffered (rob.modify v.rob f) (fun i => if i = v.rob then v else inflight i) renamed := by
  obtain ⟨p, q, hl, rfl, rfl, hu⟩ := h.live_split hw
  have hn := Rob.live_nodup h.wf
  have hwin : windowOf (rob.modify v.rob f) (fun i => if i = v.rob then v else inflight i) =
      p.map inflight ++ v :: q.map inflight := by
    rw [hl] at hn
    rw [ha.rob]
    change rob.live.map _ = _
    rw [hl, map_update_of_split _ _ hn]
  refine ⟨hwin, ⟨h.wf.capacity_le, h.wf.head_lt, h.wf.count_le⟩, h.next, ?_, ?_, ?_, ?_⟩
  · intro i hi
    by_cases he : i = v.rob
    · simp [he]
    · simpa [he] using h.slot i hi
  · intro i hi
    by_cases he : i = v.rob
    · subst he
      simpa [Rob.modify, ha.rob] using hm
    · simpa [he, Rob.modify] using h.mirrors i hi
  · rw [hwin]
    intro w hw'
    rw [List.mem_append, List.mem_cons] at hw'
    rcases hw' with hw' | rfl | hw'
    · exact h.seq_lt w (by rw [hw]; simp [hw'])
    · rw [ha.seq]
      exact h.seq_lt u (by rw [hw]; simp)
    · exact h.seq_lt w (by rw [hw]; simp [hw'])
  · have hs := h.sorted
    rw [hw, List.pairwise_append, List.pairwise_cons] at hs
    rw [hwin, List.pairwise_append, List.pairwise_cons, ha.seq]
    obtain ⟨hp, ⟨hv, hq⟩, hc⟩ := hs
    refine ⟨hp, ⟨hv, hq⟩, fun a ha' b hb => ?_⟩
    rcases List.mem_cons.mp hb with rfl | hb
    · rw [ha.seq]
      exact hc a ha' u List.mem_cons_self
    · exact hc a ha' b (List.mem_cons_of_mem _ hb)

/-- Slots may be given up while the others keep their entries. -/
private theorem sublist {rob' : Rob} (hl : rob'.live.Sublist rob.live) (hwf : rob'.Wf)
    (hslots : rob'.slots = rob.slots) (hnext : rob'.nextSeq = rob.nextSeq) :
    Buffered rob' inflight renamed := by
  have hwin : (windowOf rob' inflight).Sublist (windowOf rob inflight) := hl.map _
  refine ⟨hwf, hnext.trans h.next, fun i hi => h.slot i (hl.subset hi), fun i hi => ?_,
    fun w hw => h.seq_lt w (hwin.subset hw), h.sorted.sublist hwin⟩
  rw [hslots]
  exact h.mirrors i (hl.subset hi)

/-- Commit takes the oldest uop, which is complete. -/
theorem pop {e : RobEntry} {rob' : Rob} (hp : rob.popHeadIfComplete = some (e, rob')) :
    windowOf rob inflight = inflight rob.head :: windowOf rob' inflight ∧
      (inflight rob.head).isComplete = true ∧ Buffered rob' inflight renamed ∧
        rob'.count + 1 = rob.count := by
  obtain ⟨hl, hc, hrob', hwf⟩ := Rob.pop_some h.wf hp
  have hwin : windowOf rob inflight = inflight rob.head :: windowOf rob' inflight := by
    rw [windowOf, hl, List.map_cons, windowOf]
  have hcomplete : (inflight rob.head).isComplete = true := by
    rw [← (h.mirrors rob.head (by simp [hl])).complete, hc]
  refine ⟨hwin, hcomplete, h.sublist ?_ hwf (by rw [hrob']) (by rw [hrob']), ?_⟩
  · rw [hl]
    exact List.sublist_cons_self _ _
  · have hlen := congrArg List.length hl
    simpa [Rob.live_length] using hlen.symm

/-- Recovery keeps the window up to and including the offender. -/
theorem truncate (hw : windowOf rob inflight = pre ++ u :: post) :
    windowOf (rob.truncateTo u.rob).2 inflight = pre ++ [u] ∧
      List.Forall₂ Mirrors post.reverse (rob.truncateTo u.rob).1 ∧
      Buffered (rob.truncateTo u.rob).2 inflight renamed := by
  obtain ⟨p, q, hl, rfl, rfl, hu⟩ := h.live_split hw
  obtain ⟨hlive, hkilled, hwf⟩ := Rob.truncateTo_live h.wf hl
  have hslots : (rob.truncateTo u.rob).2.slots = rob.slots ∧
      (rob.truncateTo u.rob).2.nextSeq = rob.nextSeq := by
    simp only [Rob.truncateTo]
    split <;> exact ⟨rfl, rfl⟩
  refine ⟨by simp [windowOf, hlive, hu], ?_, ?_⟩
  · rw [hkilled, ← List.map_reverse, ← List.map_reverse, List.forall₂_map_left_iff,
      List.forall₂_map_right_iff, List.forall₂_same]
    intro i hi
    exact h.mirrors i (by rw [hl]; simp [List.mem_reverse.mp hi])
  · refine h.sublist ?_ hwf hslots.1 hslots.2
    rw [hlive, hl]
    exact (List.cons_sublist_cons.mpr (List.nil_sublist _)).append_left _

/-- A halt drops the whole window. -/
theorem squashAll :
    windowOf rob.squashAll.2 inflight = [] ∧
      List.Forall₂ Mirrors (windowOf rob inflight).reverse rob.squashAll.1 ∧
      Buffered rob.squashAll.2 inflight renamed := by
  obtain ⟨hlive, hkilled, hwf⟩ := Rob.squashAll_live h.wf
  refine ⟨by simp [windowOf, hlive], ?_, ?_⟩
  · rw [hkilled, windowOf, ← List.map_reverse, ← List.map_reverse, List.forall₂_map_left_iff,
      List.forall₂_map_right_iff, List.forall₂_same]
    exact fun i hi => h.mirrors i (List.mem_reverse.mp hi)
  · refine h.sublist ?_ hwf rfl rfl
    rw [hlive]
    exact List.nil_sublist _

end Buffered

end OooCpu
