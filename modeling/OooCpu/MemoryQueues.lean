import OooCpu.Staging

/-! # The load and store queues mirror the window

Each queue holds, in program order, the dispatched uops of its kind, each in the
slot it was given; a store's slot is filled when the store issues. -/
namespace OooCpu

/-- One of the two queues; `mine` says which uops it holds. -/
structure Lined (mine : Uop → Bool) (w : List Uop) (q : LsqQueue) : Prop where
  wf : q.Wf
  live : q.live = (w.filter fun u => mine u && u.isDispatched).map Uop.lsqIdx
  slot : ∀ u ∈ w, mine u = true → u.isDispatched = true →
    (q.slots u.lsqIdx).seq = u.seq ∧ (q.slots u.lsqIdx).size = Cpu.accessSize u.dec.op

namespace Lined
variable {mine : Uop → Bool} {w pre post : List Uop} {q q' : LsqQueue} {u v : Uop}

theorem reset {capacity : ℕ} (h : capacity < 2^31) : Lined mine [] (.reset capacity) :=
  ⟨LsqQueue.wf_reset h.le, rfl, by simp⟩

variable (h : Lined mine w q)
include h

theorem mem_live (hu : u ∈ w) (hm : mine u = true) (hd : u.isDispatched = true) :
    u.lsqIdx ∈ q.live := by
  rw [h.live]
  exact List.mem_map_of_mem (List.mem_filter.mpr ⟨hu, by simp [hm, hd]⟩)

/-- Two uops of one queue have different slots. -/
theorem lsqIdx_ne (hw : w = pre ++ u :: post) (hu : mine u = true) (hud : u.isDispatched = true)
    (hv : v ∈ pre ∨ v ∈ post) (hvm : mine v = true) (hvd : v.isDispatched = true) :
    v.lsqIdx ≠ u.lsqIdx := by
  have hn := LsqQueue.live_nodup h.wf
  rw [h.live, hw, List.filter_append, List.filter_cons_of_pos (by simp [hu, hud]), List.map_append,
    List.map_cons, List.nodup_append, List.nodup_cons] at hn
  have hmem {xs : List Uop} (hx : v ∈ xs) :
      v.lsqIdx ∈ (xs.filter fun u => mine u && u.isDispatched).map Uop.lsqIdx :=
    List.mem_map_of_mem (List.mem_filter.mpr ⟨hx, by simp [hvm, hvd]⟩)
  intro he
  cases hv with
  | inl hv => exact hn.2.2 _ (hmem hv) u.lsqIdx List.mem_cons_self he
  | inr hv => exact hn.2.1.1 (he ▸ hmem hv)

theorem push (hd : v.isDispatched = false) : Lined mine (w ++ [v]) q := by
  refine ⟨h.wf, by simpa [List.filter_append, hd] using h.live,
    forall_mem_concat h.slot fun _ hvd => ?_⟩
  rw [hd] at hvd
  contradiction

/-- A uop of this queue advances in place, or a uop of another kind does. -/
theorem replace (hw : w = pre ++ u :: post) (ha : u.Advances v) (hm : mine v = mine u)
    (hsame : mine u = true → v.isDispatched = u.isDispatched ∧ v.lsqIdx = u.lsqIdx) :
    Lined mine (pre ++ v :: post) q := by
  refine ⟨h.wf, ?_, forall_mem_replace hw h.slot fun hmv hvd => ?_⟩
  · rw [h.live, hw]
    by_cases hmu : mine u = true
    · obtain ⟨hd, hidx⟩ := hsame hmu
      simp only [List.filter_append, List.filter_cons, hm, hd]
      split <;> simp [hidx]
    · simp [hm, hmu]
  · have hmu : mine u = true := hm ▸ hmv
    obtain ⟨hd, hidx⟩ := hsame hmu
    rw [hidx, ha.seq, ha.dec]
    exact h.slot u (by simp [hw]) hmu (hd ▸ hvd)

/-- Dispatch lines a uop up behind the older ones of its kind. -/
theorem dispatch {rest : List Uop} (hw : w = pre ++ u :: rest) (hu : u.isDispatched = false)
    (hrest : ∀ a ∈ rest, a.isDispatched = false) (hm : mine v = true) (hd : v.isDispatched = true)
    (halloc : q.alloc v.seq (Cpu.accessSize v.dec.op) = some (v.lsqIdx, q')) :
    Lined mine (pre ++ v :: rest) q' := by
  obtain ⟨hlive, hnot, hwf, -, hslots⟩ := LsqQueue.alloc_some h.wf halloc
  have hskip : rest.filter (fun u => mine u && u.isDispatched) = [] :=
    List.filter_eq_nil_iff.mpr fun a ha => by simp [hrest a ha]
  have hl := h.live
  rw [hw, List.filter_append, List.filter_cons_of_neg (by simp [hu]), hskip, List.append_nil] at hl
  refine ⟨hwf, ?_, fun a hmem ham had => ?_⟩
  · rw [hlive, hl, List.filter_append, List.filter_cons_of_pos (by simp [hm, hd]), hskip]
    simp
  · rw [List.mem_append, List.mem_cons] at hmem
    rcases hmem with hmem | rfl | hmem
    · have hne : a.lsqIdx ≠ v.lsqIdx := fun he =>
        hnot (he ▸ h.mem_live (by simp [hw, hmem]) ham had)
      simpa [hslots, hne] using h.slot a (by simp [hw, hmem]) ham had
    · simp [hslots]
    · rw [hrest a hmem] at had
      contradiction

/-- Filling a slot moves nothing. -/
theorem modify {i : ℕ} {f : LsqEntry → LsqEntry}
    (hf : ∀ e, (f e).seq = e.seq ∧ (f e).size = e.size) : Lined mine w (q.modify i f) := by
  refine ⟨LsqQueue.wf_modify h.wf i f, h.live, fun u hu hm hd => ?_⟩
  have hold := h.slot u hu hm hd
  simp only [LsqQueue.modify]
  split
  · rename_i he
    rw [(hf _).1, (hf _).2, ← he]
    exact hold
  · exact hold

/-- Commit takes the oldest uop out, and with it the head of its queue. -/
theorem pop (hw : w = u :: post) (hd : u.isDispatched = true) :
    Lined mine post (if mine u then q.popHead else q) ∧
      (mine u = true → q.nth 0 = q.slots u.lsqIdx) := by
  subst hw
  have hl := h.live
  have hslot := fun a (ha : a ∈ post) => h.slot a (List.mem_cons_of_mem _ ha)
  by_cases hm : mine u = true
  · rw [List.filter_cons_of_pos (by simp [hm, hd]), List.map_cons] at hl
    obtain ⟨i, hpop, hnth⟩ := LsqQueue.live_popHead h.wf (by rw [hl]; simp)
    rw [hl] at hpop
    obtain ⟨rfl, hpost⟩ := List.cons.inj hpop
    have hslots : q.popHead.slots = q.slots := by
      simp only [LsqQueue.popHead]
      split <;> rfl
    rw [if_pos hm]
    refine ⟨⟨LsqQueue.wf_popHead h.wf, hpost.symm, ?_⟩, fun _ => hnth⟩
    rw [hslots]
    exact hslot
  · rw [List.filter_cons_of_neg (by simp [hm])] at hl
    rw [if_neg hm]
    exact ⟨⟨h.wf, hl, hslot⟩, fun hm' => absurd hm' hm⟩

theorem slots_sorted (hsorted : w.Pairwise fun u v => u.seq < v.seq) :
    (q.live.map q.slots).Pairwise fun a b => a.seq < b.seq := by
  rw [h.live, List.map_map, List.pairwise_map]
  have hsub := hsorted.sublist (List.filter_sublist (p := fun u : Uop => mine u && u.isDispatched))
  refine hsub.imp_of_mem fun {a b} ha hb hlt => ?_
  obtain ⟨haw, hap⟩ := List.mem_filter.mp ha
  obtain ⟨hbw, hbp⟩ := List.mem_filter.mp hb
  simp only [Bool.and_eq_true] at hap hbp
  simp only [Function.comp_apply]
  rw [(h.slot a haw hap.1 hap.2).1, (h.slot b hbw hbp.1 hbp.2).1]
  exact hlt

/-- Recovery drops from the tail exactly the squashed uops. -/
theorem truncate (hw : w = pre ++ u :: post) (hsorted : w.Pairwise fun u v => u.seq < v.seq)
    (hpre : ∀ v ∈ pre, v.seq < u.seq) (hpost : ∀ v ∈ post, u.seq < v.seq) :
    Lined mine (pre ++ [u]) (q.squashAfter u.seq) := by
  have hkeep := filter_seq_le hpre hpost
  refine ⟨LsqQueue.wf_squashAfter h.wf _, ?_, fun a ha => h.slot a (mem_of_mem_front hw ha)⟩
  rw [LsqQueue.live_squashAfter h.wf _ (h.slots_sorted hsorted), h.live,
    List.filter_map, ← hkeep, ← hw, List.filter_filter, List.filter_filter]
  congr 1
  apply List.filter_congr
  intro a ha
  simp only [Function.comp_apply]
  by_cases hp : (mine a && a.isDispatched) = true
  · simp only [Bool.and_eq_true] at hp
    rw [(h.slot a ha hp.1 hp.2).1]
    simp [hp]
  · simp only [Bool.not_eq_true] at hp
    simp [hp]

theorem clear : Lined mine [] q.clear :=
  ⟨LsqQueue.wf_clear h.wf, by simp [LsqQueue.live, LsqQueue.clear], by simp⟩

end Lined

/-- A store's slot is empty until the store issues and holds its address and data from then on. -/
def Uop.FilledIn (q : LsqQueue) (u : Uop) : Prop :=
  if u.isIssued then
    (q.slots u.lsqIdx).addrReady = true ∧ (q.slots u.lsqIdx).dataReady = true ∧
      (q.slots u.lsqIdx).addr = u.memAddr ∧ (q.slots u.lsqIdx).data = u.storeData
  else (q.slots u.lsqIdx).addrReady = false ∧ (q.slots u.lsqIdx).dataReady = false

structure Queued (w : List Uop) (lsq : Lsq) : Prop where
  loads : Lined (fun u => u.dec.isLoad) w lsq.loads
  stores : Lined (fun u => u.dec.isStore) w lsq.stores
  filled : ∀ u ∈ w, u.dec.isStore = true → u.isDispatched = true → u.FilledIn lsq.stores

namespace Queued
variable {w pre post : List Uop} {lsq lsq' : Lsq} {u v : Uop}

theorem reset {cfg : Config} (hl : cfg.lqSize < 2^31) (hs : cfg.sqSize < 2^31) :
    Queued [] (.reset cfg) :=
  ⟨.reset hl, .reset hs, by simp⟩

variable (h : Queued w lsq)
include h

theorem push (hd : v.isDispatched = false) : Queued (w ++ [v]) lsq := by
  refine ⟨h.loads.push hd, h.stores.push hd, forall_mem_concat h.filled fun _ hvd => ?_⟩
  rw [hd] at hvd
  contradiction

private theorem filled_replace {q : LsqQueue} (hw : w = pre ++ u :: post)
    (hother : ∀ a, a ∈ pre ∨ a ∈ post → a.dec.isStore = true → a.isDispatched = true →
      q.slots a.lsqIdx = lsq.stores.slots a.lsqIdx)
    (hv : v.dec.isStore = true → v.isDispatched = true → v.FilledIn q) :
    ∀ a ∈ pre ++ v :: post, a.dec.isStore = true → a.isDispatched = true → a.FilledIn q := by
  refine forall_mem_split (fun a hm has had => ?_) hv
  have hold := h.filled a (mem_of_split hw hm) has had
  rw [Uop.FilledIn, hother a hm has had]
  exact hold

/-- A stage that leaves the store payload of issued uops alone. -/
theorem replace (hw : w = pre ++ u :: post) (ha : u.Advances v)
    (hd : v.isDispatched = u.isDispatched)
    (hidx : v.lsqIdx = u.lsqIdx)
    (hfill : u.dec.isStore = true → v.isIssued = u.isIssued ∧ v.memAddr = u.memAddr ∧
      v.storeData = u.storeData) : Queued (pre ++ v :: post) lsq := by
  refine ⟨h.loads.replace hw ha (by simp only [ha.dec]) fun _ => ⟨hd, hidx⟩,
    h.stores.replace hw ha (by simp only [ha.dec]) fun _ => ⟨hd, hidx⟩,
    h.filled_replace hw (fun _ _ _ _ => rfl) fun hs hvd => ?_⟩
  rw [ha.dec] at hs
  obtain ⟨hi, hm, hdata⟩ := hfill hs
  have hold := h.filled u (by simp [hw]) hs (hd ▸ hvd)
  rw [Uop.FilledIn, hi, hm, hdata, hidx]
  exact hold

/-- A load's address is noted in its own slot. -/
theorem resolveLoad (i : ℕ) (addr : Word) : Queued w (lsq.resolveLoadAddr i addr) :=
  ⟨h.loads.modify (f := fun e => { e with addr := addr, addrReady := true }) fun _ => ⟨rfl, rfl⟩,
    h.stores, h.filled⟩

/-- An issuing store fills its own slot. -/
theorem resolveStore (hw : w = pre ++ u :: post) (ha : u.Advances v) (hs : u.dec.isStore = true)
    (hud : u.isDispatched = true) (hd : v.isDispatched = true) (hi : v.isIssued = true)
    (hidx : v.lsqIdx = u.lsqIdx) :
    Queued (pre ++ v :: post)
      ((lsq.resolveAddr v.lsqIdx v.memAddr).resolveData v.lsqIdx v.storeData) := by
  have hstores :=
    (h.stores.modify (i := v.lsqIdx) (f := fun e => { e with addr := v.memAddr, addrReady := true })
    fun _ => ⟨rfl, rfl⟩).modify (i := v.lsqIdx)
      (f := fun e => { e with data := v.storeData, dataReady := true })
    fun _ => ⟨rfl, rfl⟩
  refine ⟨h.loads.replace hw ha (by simp only [ha.dec]) fun _ => ⟨hd.trans hud.symm, hidx⟩,
    hstores.replace hw ha (by simp only [ha.dec]) fun _ => ⟨hd.trans hud.symm, hidx⟩,
    h.filled_replace hw (fun a hm has had => ?_) fun _ _ => ?_⟩
  · have hne : a.lsqIdx ≠ v.lsqIdx := hidx ▸ h.stores.lsqIdx_ne hw hs hud hm has had
    simp [Lsq.resolveAddr, Lsq.resolveData, LsqQueue.modify, hne]
  · simp [Uop.FilledIn, hi, Lsq.resolveAddr, Lsq.resolveData, LsqQueue.modify]

theorem dispatchLoad {rest : List Uop} (hw : w = pre ++ u :: rest) (hu : u.isDispatched = false)
    (hrest : ∀ a ∈ rest, a.isDispatched = false) (ha : u.Advances v) (hl : v.dec.isLoad = true)
    (hns : v.dec.isStore = false) (hd : v.isDispatched = true)
    (halloc : lsq.allocLoad v.seq (Cpu.accessSize v.dec.op) = some (v.lsqIdx, lsq')) :
    Queued (pre ++ v :: rest) lsq' := by
  obtain ⟨⟨i, q⟩, hq, he⟩ := Option.map_eq_some_iff.mp halloc
  obtain ⟨rfl, rfl⟩ := Prod.mk.inj he
  refine ⟨h.loads.dispatch hw hu hrest hl hd hq, ?_,
    h.filled_replace hw (fun _ _ _ _ => rfl) fun hs => ?_⟩
  · exact h.stores.replace hw ha (by simp only [ha.dec]) fun hs => by
      rw [← ha.dec, hns] at hs; contradiction
  · rw [hns] at hs
    contradiction

theorem dispatchStore {rest : List Uop} (hw : w = pre ++ u :: rest) (hu : u.isDispatched = false)
    (hrest : ∀ a ∈ rest, a.isDispatched = false) (ha : u.Advances v) (hs : v.dec.isStore = true)
    (hnl : v.dec.isLoad = false) (hd : v.isDispatched = true) (hi : v.isIssued = false)
    (halloc : lsq.allocStore v.seq (Cpu.accessSize v.dec.op) = some (v.lsqIdx, lsq')) :
    Queued (pre ++ v :: rest) lsq' := by
  obtain ⟨⟨i, q⟩, hq, he⟩ := Option.map_eq_some_iff.mp halloc
  obtain ⟨rfl, rfl⟩ := Prod.mk.inj he
  obtain ⟨-, hnot, -, -, hslots⟩ := LsqQueue.alloc_some h.stores.wf hq
  refine ⟨?_, h.stores.dispatch hw hu hrest hs hd hq,
    h.filled_replace hw (fun a hm has had => ?_) fun _ _ => ?_⟩
  · exact h.loads.replace hw ha (by simp only [ha.dec]) fun hl => by
      rw [← ha.dec, hnl] at hl; contradiction
  · have hmem : a ∈ w := by
      rw [hw]
      rcases hm with hm | hm <;> simp [hm]
    have hne : a.lsqIdx ≠ v.lsqIdx := fun he => hnot (he ▸ h.stores.mem_live hmem has had)
    simp [hslots, hne]
  · simp [Uop.FilledIn, hi, hslots]

/-- Dispatch of anything else leaves both queues alone. -/
theorem dispatchOther (hw : w = pre ++ u :: post) (ha : u.Advances v) (hl : v.dec.isLoad = false)
    (hs : v.dec.isStore = false) : Queued (pre ++ v :: post) lsq := by
  refine ⟨h.loads.replace hw ha
    (by simp only [ha.dec]) fun hm => by
      rw [← ha.dec, hl] at hm; contradiction,
      h.stores.replace hw ha (by simp only [ha.dec]) fun hm => by
        rw [← ha.dec, hs] at hm; contradiction,
    h.filled_replace hw (fun _ _ _ _ => rfl) fun hvs => by rw [hs] at hvs; contradiction⟩

theorem pop (hw : w = u :: post) (hd : u.isDispatched = true) :
    Queued post ⟨if u.dec.isLoad then lsq.loads.popHead else lsq.loads,
        if u.dec.isStore then lsq.stores.popHead else lsq.stores⟩ ∧
      (u.dec.isStore = true → lsq.stores.nth 0 = lsq.stores.slots u.lsqIdx) := by
  obtain ⟨hl, -⟩ := h.loads.pop hw hd
  obtain ⟨hs, hnth⟩ := h.stores.pop hw hd
  refine ⟨⟨hl, hs, fun a ha has had => ?_⟩, hnth⟩
  have hslots : (if u.dec.isStore then lsq.stores.popHead else lsq.stores).slots =
      lsq.stores.slots := by
    split
    · simp only [LsqQueue.popHead]
      split <;> rfl
    · rfl
  have hold := h.filled a (by simp [hw, ha]) has had
  simpa only [Uop.FilledIn, hslots] using hold

theorem truncate (hw : w = pre ++ u :: post) (hsorted : w.Pairwise fun u v => u.seq < v.seq)
    (hpre : ∀ v ∈ pre, v.seq < u.seq) (hpost : ∀ v ∈ post, u.seq < v.seq) :
    Queued (pre ++ [u]) (lsq.squashAfter u.seq) :=
  ⟨h.loads.truncate hw hsorted hpre hpost, h.stores.truncate hw hsorted hpre hpost,
    fun a ha => h.filled a (mem_of_mem_front hw ha)⟩

theorem clear : Queued [] lsq.clear := ⟨h.loads.clear, h.stores.clear, by simp⟩

end Queued

end OooCpu
