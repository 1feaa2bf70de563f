import OooCpu.BackEnd

/-! # What a trace says of the reorder buffer

A live slot has a record in the buffer and a uop filed under it. Both are filled
at rename; execution then settles the successor and the access address in the
uop alone. The trace photographs a mixture of the two. -/
namespace OooCpu

def kindName : OpKind → String
  | .alu => "ALU"
  | .branch => "BRANCH"
  | .mul => "MUL"
  | .div => "DIV"
  | .load => "LOAD"
  | .store => "STORE"
  | .nop => "NOP"
  | .trap => "TRAP"

/-- A sentinel is absence. -/
def numOrNull (v invalid : ℕ) : Option ℕ := if v = invalid then none else some v

/-- The stamps up to the last stage reached; a stage not yet seen is null. -/
def StageCycles.stamps (a : StageCycles) : List (Option ℕ) :=
  let all := [a.fetch, a.decode, a.rename, a.dispatch, a.issue, a.complete]
  ((all.reverse.dropWhile (· == 0)).reverse).map fun c => numOrNull c 0

/-- One object of a trace's `rob` array; a key that may be left out is an option. -/
structure RobRecord where
  seq : ℕ
  uid : ℕ
  slot : ℕ
  pc : Word
  kind : String
  destArch : Option ℕ
  destPhys : Option ℕ
  stalePhys : Option ℕ
  src1 : ℕ
  src2 : ℕ
  complete : Bool
  mispredicted : Bool
  isBranch : Bool
  isStore : Bool
  isLoad : Bool
  ckpt : Option ℕ
  predTaken : Bool
  predTarget : Option Word
  nextPc : Option Word
  wbCycle : Option ℕ
  memAddr : Option Word
  stamps : List (Option ℕ)

/-- The object written for slot `slot` with record `e` and uop `u`. -/
def robRecord (slot : ℕ) (e : RobEntry) (u : Uop) : RobRecord where
  seq := e.seq
  uid := u.uid
  slot := slot
  pc := e.pc
  kind := kindName u.dec.kind
  destArch := numOrNull e.destArch INVALID_ARCHREG
  destPhys := numOrNull e.destPhys INVALID_PHYSREG
  stalePhys := numOrNull e.stalePhys INVALID_PHYSREG
  src1 := u.src1
  src2 := u.src2
  complete := e.complete
  mispredicted := e.mispredicted
  isBranch := e.isBranch
  isStore := e.isStore
  isLoad := u.dec.isLoad
  ckpt := if e.ckpt ≠ INVALID_CHECKPOINT then some e.ckpt else none
  predTaken := u.predTaken
  predTarget := if u.predTaken then some u.predTarget else none
  nextPc := if u.stageAt.issue ≠ 0 then some e.nextPc else none
  wbCycle := if u.stageAt.issue ≠ 0 then some u.wbCycle else none
  memAddr := if u.dec.isLoad || u.dec.isStore then some u.memAddr else none
  stamps := u.stageAt.stamps

namespace Cpu

/-- The reorder buffer as a trace shows it, oldest first. -/
def emitRob (s : Cpu) : List RobRecord :=
  (List.range s.rob.count).map fun k => robRecord (s.rob.nth k) (s.rob.slots (s.rob.nth k))
    (s.inflight (s.rob.nth k))

end Cpu

/-- What the buffer's record and the uop both say, once for all. -/
structure Files (u : Uop) (e : RobEntry) : Prop where
  seq : e.seq = u.seq
  pc : e.pc = u.pc
  destArch : e.destArch = if u.dec.writesRd then u.dec.rd.val else INVALID_ARCHREG
  destPhys : e.destPhys = u.dest
  stalePhys : e.stalePhys = u.stale
  ckpt : e.ckpt = u.ckpt
  isBranch : e.isBranch = u.dec.isBranch
  isStore : e.isStore = u.dec.isStore

/-- A traced successor or address is the real one, and not shown before it is known. -/
structure RobRecord.TellsTruth (r : RobRecord) (u : Uop) : Prop where
  nextPc : ∀ a, r.nextPc = some a → u.isIssued = true ∧ a = u.nextPc
  memAddr : ∀ a, r.memAddr = some a → u.isIssued = true ∧ a = Cpu.loadAddr u

namespace Cpu
variable {kinds : Prop} {cfg : Config} {entryPc : Word} {s s' t : Cpu} {e : IssueQueue.Entry}
    {u v : Uop} {latency unit : ℕ} {f : Fu}
  {rob rob' : Rob} {inflight : ℕ → Uop} {i : ℕ}

/-- The two records of every live slot agree, the successor included once it is known, and the trace
written from them tells the truth. -/
structure Truthful (s : Cpu) : Prop where
  files : ∀ i ∈ s.rob.live, Files (s.inflight i) (s.rob.slots i)
  nextPc : ∀ i ∈ s.rob.live, (s.inflight i).isIssued = true →
    (s.rob.slots i).nextPc = (s.inflight i).nextPc
  traced : ∀ r ∈ s.emitRob, r.TellsTruth (s.inflight r.slot)

/-- What the buffer's record keeps of rename, and what execution does to the uop. -/
structure Recorded (u : Uop) (e : RobEntry) : Prop where
  pc : e.pc = u.pc
  isStore : e.isStore = u.dec.isStore
  nextPc : e.nextPc = u.pc + 4
  address : u.isIssued = true → u.dec.isLoad = true ∨ u.dec.isStore = true → u.memAddr = loadAddr u

/-- Every live slot is recorded. -/
def Filed (rob : Rob) (inflight : ℕ → Uop) : Prop :=
  ∀ i ∈ rob.live, Recorded (inflight i) (rob.slots i)

namespace Filed

theorem mono (h : Filed rob inflight) (hsub : ∀ i ∈ rob'.live, i ∈ rob.live)
    (hslots : rob'.slots = rob.slots) : Filed rob' inflight := fun i hi => by
  rw [hslots]
  exact h i (hsub i hi)

/-- A stage rewrites one uop and its record. -/
theorem replace {g : RobEntry → RobEntry} (h : Filed rob inflight)
    (hv : Recorded v (g (rob.slots v.rob))) :
    Filed (rob.modify v.rob g) fun i => if i = v.rob then v else inflight i := by
  intro i hi
  by_cases he : i = v.rob
  · subst he
    simpa [Rob.modify] using hv
  · simpa [he, Rob.modify] using h i hi

end Filed

/-- Records survive what changes neither program counter nor decoded fields nor the access
address. -/
theorem Recorded.advance {e : RobEntry} (h : Recorded u e) (ha : u.Advances v)
    (hi : v.isIssued = u.isIssued)
    (hval : v.val1 = u.val1) (haddr : v.memAddr = u.memAddr) : Recorded v e where
  pc := h.pc.trans ha.pc.symm
  isStore := by rw [h.isStore, ha.dec]
  nextPc := by rw [h.nextPc, ha.pc]
  address hvi hmem := by
    rw [haddr, loadAddr, hval, ha.dec]
    exact h.address (hi ▸ hvi) (ha.dec ▸ hmem)

/-- The machine is coherent and every live slot is recorded. -/
structure Kept (cfg : Config) (s : Cpu) : Prop where
  coherent : s.Coherent cfg
  filed : Filed s.rob s.inflight

namespace Kept
variable (h : Kept cfg s)
include h

theorem recorded (hu : u ∈ s.window) : Recorded u (s.rob.slots u.rob) := by
  obtain ⟨hlive, hfile, -⟩ := h.coherent.buffered.mem_window hu
  have hrec := h.filed u.rob hlive
  rwa [hfile] at hrec

theorem retire {e : RobEntry} (hp : s.rob.popHeadIfComplete = some (e, rob)) :
    Kept cfg (s.retire rob (s.inflight s.rob.head)) := by
  refine ⟨(h.coherent.retire hp).1, ?_⟩
  obtain ⟨hl, -, hrob, -⟩ := Rob.pop_some h.coherent.buffered.wf hp
  exact h.filed.mono (fun i hi => by rw [hl]; exact List.mem_cons_of_mem _ hi) (by rw [hrob]; rfl)

theorem squashInFlight : Kept cfg s.squashInFlight := by
  refine ⟨h.coherent.squashInFlight.1, fun i hi => ?_⟩
  have hlive := (Rob.squashAll_live h.coherent.buffered.wf).1
  rw [show s.squashInFlight.rob.live = [] from hlive] at hi
  contradiction

theorem commit : Kept cfg s.commit :=
  commitOne_preserves (P := Kept cfg) (fun ht hp _ => ht.retire hp)
    (fun ht hp _ => (ht.retire hp).squashInFlight) _ h

theorem complete {fast slow : List Uop} (hc : 0 < s.cycle)
    (hq : (s.executing ++ s.wbFast ++ s.wbSlow).Perm (u :: (s.executing ++ fast ++ slow))) :
    Kept cfg { s.complete u with wbFast := fast, wbSlow := slow } := by
  refine ⟨(h.coherent.complete hc hq).1, ?_⟩
  have huw := (h.coherent.staged.mem_running (hq.symm.subset List.mem_cons_self)).1
  have hadv : u.Advances (s.landed u) :=
    ⟨rfl, rfl, rfl, rfl, rfl, rfl, rfl, rfl, rfl, rfl, rfl, rfl, rfl, rfl, rfl, rfl⟩
  have hrec := (h.recorded huw).advance hadv rfl rfl rfl
  exact h.filed.replace (v := s.landed u) (g := fun e => { e with complete := true })
    ⟨hrec.pc, hrec.isStore, hrec.nextPc, hrec.address⟩

theorem writeback (hc : 0 < s.cycle) : Kept cfg s.writeback :=
  (writeback_preserves (P := fun t => Kept cfg t ∧ 0 < t.cycle)
    (fun ht hq => ⟨ht.1.complete ht.2 hq, ht.2⟩)
    (fun _ ht => ⟨⟨ht.1.coherent.clearBooking _, ht.1.filed⟩, ht.2⟩) ⟨h, hc⟩).1

omit h in
/-- A store's address is computed where the load's is. -/
private theorem executed_address {x : Uop} (hs : x.dec.op = .sb ∨ x.dec.op = .sh ∨ x.dec.op = .sw) :
    (executeUop x).memAddr = loadAddr x ∧ (executeUop x).val1 = x.val1 := by
  rcases hs with ho | ho | ho <;> simp [executeUop, ho, loadAddr]

omit h in
/-- The uop that leaves issue carries the address it has computed. -/
private theorem launched_address (hu : (s.inflight e.rob).Sound)
    (ha : s.attempt e = .launched s' v latency f unit)
    (hmem : (s.inflight e.rob).dec.isLoad = true ∨ (s.inflight e.rob).dec.isStore = true)
    (hdec : v.dec = (s.inflight e.rob).dec) : v.memAddr = loadAddr v := by
  by_cases hl : (s.inflight e.rob).dec.isLoad = true
  · obtain ⟨-, -, _, _, _, _, -, -, rfl⟩ := attempt_load ha hl
    rfl
  · have hs := hmem.resolve_left hl
    obtain ⟨-, -, _, -, hv, -⟩ := attempt_other ha (by simpa using hl)
    rw [if_pos (hu.store_trap hs)] at hv
    obtain ⟨haddr, hval⟩ := executed_address (x := s.withOperands (s.inflight e.rob))
      (hu.shaped.store_op_iff.mp hs)
    rw [loadAddr, hdec, hv, hval, haddr]
    rfl

theorem launch (hc : 0 < s.cycle) (he : e ∈ s.iq.entries)
    (ha : s.attempt e = .launched s' v latency f unit) :
    Kept cfg (s'.launch e (stamped s' v latency) latency f unit) := by
  refine ⟨(h.coherent.launch hc he ha).1, ?_⟩
  obtain ⟨hmem, -, -⟩ := h.coherent.candidate he
  obtain ⟨hissues, -⟩ := attempt_issues hc ha
  have hrec := h.recorded hmem
  have hdec : v.dec = (s.inflight e.rob).dec := hissues.dec
  have haddr := launched_address (h.coherent.sound _ hmem) ha
  obtain ⟨hrob, hinflight⟩ : s'.rob = s.rob ∧ s'.inflight = s.inflight := by
    obtain ⟨_, _, _, _, _, rfl, -, -⟩ := attempt_frame ha
    exact ⟨rfl, rfl⟩
  have hkeep : Recorded (stamped s' v latency) (s.rob.slots (stamped s' v latency).rob) := by
    rw [hissues.rob]
    refine ⟨hrec.pc.trans hissues.pc.symm, ?_, ?_, fun _ hacc => haddr (hdec ▸ hacc) hdec⟩
    · rw [hrec.isStore, hissues.dec]
    · rw [hrec.nextPc, hissues.pc]
  generalize stamped s' v latency = x at *
  simp only [Cpu.launch, hrob, hinflight]
  split
  · have hfiled := h.filed.replace (g := id) hkeep
    rwa [Rob.modify_id] at hfiled
  · exact h.filed.replace (g := fun e => { e with mispredicted := true })
      ⟨hkeep.pc, hkeep.isStore, hkeep.nextPc, hkeep.address⟩

theorem turnAway {why : Stall} (ha : s.attempt e = .turnedAway s' why) : Kept cfg s' := by
  refine ⟨(h.coherent.turnAway ha).1, ?_⟩
  rcases attempt_turnedAway ha with rfl | ⟨_, _, _, _, rfl⟩ <;> exact h.filed

theorem recover {br : Uop} (hbr : br ∈ s.window) (hi : br.isIssued = true)
    (hb : br.dec.isBranch = true) : Kept cfg (s.recover br) := by
  obtain ⟨pre, post, hw⟩ := List.append_of_mem hbr
  refine ⟨(h.coherent.recover hw hi hb).1, ?_⟩
  obtain ⟨p, q, hl, -, -, -⟩ := h.coherent.buffered.live_split hw
  have hlive : (s.recover br).rob.live = p ++ [br.rob] :=
    (Rob.truncateTo_live h.coherent.buffered.wf hl).1
  refine h.filed.mono (fun i hi => ?_) ?_
  · rw [hlive] at hi
    rw [hl]
    cases List.mem_append.mp hi with
    | inl hi => exact List.mem_append_left _ hi
    | inr hi =>
      rw [List.mem_singleton.mp hi]
      exact List.mem_append_right _ List.mem_cons_self
  · simp only [Cpu.recover, Rob.truncateTo]
    split <;> rfl

theorem issue (hc : 0 < s.cycle)
    (hbranch : ∀ br, s.issueScan.offender = some br → br.dec.isBranch = true) :
    Kept cfg s.issue := by
  obtain ⟨hsane, hkept⟩ := issueScan_preserves (P := fun p => p.Sane cfg ∧ Kept cfg p.cpu)
    (fun p e hp he _ => by
      refine ⟨hp.1.issueOne he, ?_⟩
      simp only [issueOne]
      cases ha : p.cpu.attempt e with
      | turnedAway s' why => exact hp.2.turnAway ha
      | launched s' u latency f unit => exact hp.2.launch hp.1.cycle_pos he ha)
    (s := s) ⟨⟨h.coherent, hc, by simp⟩, h⟩
  obtain ⟨hcharged, hwin⟩ := hsane.coherent.chargeSlots
  have hcharge : Kept cfg (chargeSlots s.issueScan) := by
    refine ⟨hcharged, ?_⟩
    obtain ⟨_, heq, -⟩ := chargeSlots_eq s.issueScan
    rw [heq]
    exact hkept.filed
  simp only [Cpu.issue]
  cases ho : s.issueScan.offender with
  | none => exact hcharge
  | some br =>
    obtain ⟨hmem, hi, -⟩ := hsane.offender br ho
    exact hcharge.recover (hwin.symm ▸ hmem) hi (hbranch br ho)

theorem renameStep (hb : s.stats.renamed < 4294967296) (hstep : RenameStep s t) : Kept cfg t := by
  refine ⟨h.coherent.renameStep hb hstep, ?_⟩
  cases hstep with
  | idle => exact h.filed
  | stalled c => exact h.filed
  | @renamed u rest dest freeList hq hroom hfull hck halloc =>
    obtain ⟨hsound, hblank⟩ := h.coherent.decoded u (by simp [hq])
    have hnot := Rob.tail_notMem_live h.coherent.buffered.wf hfull
    intro i hi
    have hi' : i ∈ s.rob.live ++ [s.rob.tail] := by
      rw [← Rob.live_allocate h.coherent.buffered.wf hfull]
      exact hi
    by_cases he : i = s.rob.tail
    · subst he
      obtain ⟨slot, hslot, hfile⟩ : ∃ slot,
          (s.renameUop u rest dest freeList).rob.slots s.rob.tail =
            { robEntry (s.renamed u dest slot) with seq := s.rob.nextSeq } ∧
          (s.renameUop u rest dest freeList).inflight s.rob.tail = s.renamed u dest slot :=
        ⟨_, if_pos rfl, if_pos rfl⟩
      rw [hslot, hfile]
      refine ⟨rfl, rfl, hsound.straight (.inr hblank.issue), fun hissued => ?_⟩
      have hui : u.isIssued = true := hissued
      rw [hblank.issue] at hui
      contradiction
    · have hlive := (List.mem_append.mp hi').resolve_right fun hm => he (List.mem_singleton.mp hm)
      have hslot : (s.renameUop u rest dest freeList).rob.slots i = s.rob.slots i := if_neg he
      have hfile : (s.renameUop u rest dest freeList).inflight i = s.inflight i := if_neg he
      rw [hslot, hfile]
      exact h.filed i hlive

theorem dispatchStep (hc : 0 < s.cycle) (hstep : DispatchStep s t) : Kept cfg t := by
  refine ⟨h.coherent.dispatchStep hc hstep, ?_⟩
  cases hstep with
  | idle => exact h.filed
  | stalled c => exact h.filed
  | @dispatched u rest idx lsq hq hseat hslot =>
    obtain ⟨-, d, hw, -⟩ := h.coherent.dispatchUop hc hq hseat hslot
    have hrec := (h.recorded (show u ∈ s.window by simp [hw])).advance
      (v := { u with lsqIdx := idx, stageAt := { u.stageAt with dispatch := s.cycle } })
      ⟨rfl, rfl, rfl, rfl, rfl, rfl, rfl, rfl, rfl, rfl, rfl, rfl, rfl, rfl, rfl, rfl⟩ rfl rfl rfl
    have hfiled := h.filed.replace (g := id) hrec
    rwa [Rob.modify_id] at hfiled

theorem decodeStep (hstep : DecodeStep s t) : Kept cfg t := by
  refine ⟨h.coherent.decodeStep hstep, ?_⟩
  cases hstep <;> exact h.filed

theorem fetchStep (hstep : FetchStep s t) : Kept cfg t := by
  refine ⟨h.coherent.fetchStep hstep, ?_⟩
  cases hstep <;> exact h.filed

theorem frontHalf (hc : 0 < s.cycle)
    (hb : s.dispatch.rename.decodeStage.fetch.stats.renamed < 4294967296) :
    Kept cfg s.dispatch.rename.decodeStage.fetch :=
  behindIssue_bounded (P := Kept cfg) (fun ht hcyc hstep => ht.dispatchStep hcyc hstep)
    (fun ht hlt hstep => ht.renameStep hlt hstep) (fun ht hstep => ht.decodeStep hstep)
    (fun ht _ hstep => ht.fetchStep hstep) hc hb h

/-- One tick keeps every live slot recorded. -/
theorem tick {log : List Uop} (hs : Steady kinds cfg entryPc (s, log))
    (hb : s.tick.stats.renamed < 4294967296) : Kept cfg s.tick := by
  have hbegin : Kept cfg s.beginCycle := ⟨h.coherent.beginCycle, h.filed⟩
  revert hb
  refine tick_cases (P := fun t => t.stats.renamed < 4294967296 → Kept cfg t) (fun _ _ => h)
    (fun _ _ _ => hbegin.commit) fun hd hd' hb => ?_
  obtain ⟨log', hbefore, hc, -⟩ := hs.beforeIssue hd'
  have hc' : 0 < s.beginCycle.commit.cycle := by
    rw [commit_cycle]
    exact Nat.succ_pos _
  have hkept : Kept cfg s.beforeIssue := ⟨hbefore.coherent, (hbegin.commit.writeback hc').filed⟩
  have hissue := hkept.issue hc (hbefore.led.issue hbefore.coherent hc).2
  exact hissue.frontHalf (by rw [(issue_keeps _).cycle]; exact hc) hb

/-- What the two records of a live slot always agree on. -/
theorem files {i : ℕ} (hi : i ∈ s.rob.live) : Files (s.inflight i) (s.rob.slots i) where
  seq := (h.coherent.buffered.mirrors i hi).seq
  pc := (h.filed i hi).pc
  destArch := (h.coherent.buffered.mirrors i hi).destArch
  destPhys := (h.coherent.buffered.mirrors i hi).destPhys
  stalePhys := (h.coherent.buffered.mirrors i hi).stalePhys
  ckpt := (h.coherent.buffered.mirrors i hi).ckpt
  isBranch := (h.coherent.buffered.mirrors i hi).isBranch
  isStore := (h.filed i hi).isStore

end Kept

/-- The objects of the trace's `rob` array are those of the live slots. -/
theorem mem_emitRob (hwf : s.rob.Wf) {r : RobRecord} :
    r ∈ s.emitRob ↔ ∃ i ∈ s.rob.live, r = robRecord i (s.rob.slots i) (s.inflight i) := by
  have heq : s.emitRob = s.rob.live.map fun i => robRecord i (s.rob.slots i) (s.inflight i) := by
    rw [emitRob, Rob.live, CircularBuffer.positions, List.map_map]
    apply List.map_congr_left
    intro k hk
    have hlt := List.mem_range.mp hk
    have hcount := hwf.count_le
    have hnth : s.rob.nth k = (s.rob.headSlot + k) % s.rob.capacity := by
      rw [Rob.nth, if_pos hlt, Rob.wrap_add hwf (by omega) (by omega)]
    rw [hnth]
    rfl
  rw [heq, List.mem_map]
  constructor
  · rintro ⟨i, hi, he⟩
    exact ⟨i, hi, he.symm⟩
  · rintro ⟨i, hi, he⟩
    exact ⟨i, hi, he.symm⟩

/-- Nothing a trace shows of the window is out of date: what has issued falls through, and every
load and store has computed its address. -/
def Uneventful (s : Cpu) : Prop :=
  ∀ u ∈ s.window, (u.isIssued = true → u.nextPc = u.pc + 4) ∧
    (u.dec.isLoad = true ∨ u.dec.isStore = true → u.isIssued = true)

/-- The records agree on everything fixed at rename, and the trace tells the truth exactly while
nothing issued goes elsewhere and no access waits for its address. -/
theorem truthful_iff (mem : Memory) (cfg : Config) (entryPc : Word) (k : ℕ) (h : cfg.Admissible)
    (hb : (ticked mem cfg entryPc k).stats.renamed < 4294967296)
    (hself : NoSelfMod (committed mem cfg entryPc k)) : (∀ i ∈ (ticked mem cfg entryPc k).rob.live,
      Files ((ticked mem cfg entryPc k).inflight i) ((ticked mem cfg entryPc k).rob.slots i)) ∧
      ((ticked mem cfg entryPc k).Truthful ↔ (ticked mem cfg entryPc k).Uneventful) := by
  have hkept : Kept cfg (ticked mem cfg entryPc k) :=
    ticked_induct (P := fun _ t => Kept cfg t) mem h
      ⟨.reset h mem entryPc, fun i hi => by simp [Rob.live, reset, Rob.reset] at hi⟩
      (fun _ hs hlt ht => ht.tick hs hlt) k hself hb
  generalize ticked mem cfg entryPc k = s at *
  have hwf := hkept.coherent.buffered.wf
  refine ⟨fun i hi => hkept.files hi, fun htrue u hu => ?_,
    fun hplain => ⟨fun i hi => hkept.files hi, ?_, ?_⟩⟩
  · obtain ⟨hlive, hfile, -⟩ := hkept.coherent.buffered.mem_window hu
    have hrec := hkept.recorded hu
    constructor
    · intro hi
      have hnext := htrue.nextPc u.rob hlive (by rwa [hfile])
      rw [hfile, hrec.nextPc] at hnext
      exact hnext.symm
    · intro hmem
      have htells := htrue.traced _ ((mem_emitRob hwf).mpr ⟨u.rob, hlive, rfl⟩)
      rw [hfile] at htells
      have haddr : (robRecord u.rob (s.rob.slots u.rob) u).memAddr = some u.memAddr := by
        rcases hmem with hm | hm <;> simp [robRecord, hm]
      have hissued := (htells.memAddr _ haddr).1
      have hslot : s.inflight (robRecord u.rob (s.rob.slots u.rob) u).slot = u := hfile
      rwa [hslot] at hissued
  · intro i hi hissued
    rw [(hkept.filed i hi).nextPc]
    exact ((hplain _ (List.mem_map_of_mem hi)).1 hissued).symm
  · intro r hr
    obtain ⟨i, hi, rfl⟩ := (mem_emitRob hwf).mp hr
    have hrec := hkept.filed i hi
    obtain ⟨hnext, haddr⟩ := hplain _ (List.mem_map_of_mem hi)
    change RobRecord.TellsTruth _ (s.inflight i)
    constructor
    · intro a ha
      simp only [robRecord] at ha
      split at ha
      · rename_i hne
        have hissued : (s.inflight i).isIssued = true := by simpa [Uop.isIssued] using hne
        obtain rfl := Option.some.inj ha
        exact ⟨hissued, by rw [hrec.nextPc, hnext hissued]⟩
      · contradiction
    · intro a ha
      simp only [robRecord] at ha
      split at ha
      · rename_i hmem
        have hmem' : (s.inflight i).dec.isLoad = true ∨ (s.inflight i).dec.isStore = true := by
          simpa using hmem
        obtain rfl := Option.some.inj ha
        exact ⟨haddr hmem', hrec.address (haddr hmem') hmem'⟩
      · contradiction

theorem truthful_iff_skipping :
    (∀ i ∈ (ticked skipping {} 0 4).rob.live,
      Files ((ticked skipping {} 0 4).inflight i) ((ticked skipping {} 0 4).rob.slots i)) ∧
      ((ticked skipping {} 0 4).Truthful ↔ (ticked skipping {} 0 4).Uneventful) :=
  truthful_iff skipping {} 0 4 admissible_default (by decide +kernel) (by decide +kernel)

/-- An address shown before the access has issued gives a trace away. -/
private theorem not_truthful_of_shown {a : Word}
    (h : (s.emitRob.any fun r => r.memAddr == some a && !(s.inflight r.slot).isIssued) =
      true) : ¬s.Truthful := by
  intro htrue
  obtain ⟨r, hr, hshown⟩ := List.any_eq_true.mp h
  simp only [Bool.and_eq_true, beq_iff_eq, Bool.not_eq_true'] at hshown
  have hissued := ((htrue.traced r hr).memAddr a hshown.1).1
  rw [hshown.2] at hissued
  contradiction

/-- After the jump has issued its record still names the fall-through, and the store behind it is
shown with an address before it has one. -/
theorem skipping_not_truthful :
    Config.Admissible {} ∧ (ticked skipping {} 0 8).stats.renamed < 4294967296 ∧
      NoSelfMod (committed skipping {} 0 8) ∧ ¬(ticked skipping {} 0 5).Truthful ∧
        ¬(ticked skipping {} 0 8).Truthful := by
  refine ⟨admissible_default, by decide +kernel, by decide +kernel, fun htrue => ?_,
    fun htrue => ?_⟩
  · have hnext := htrue.nextPc 0 (by decide +kernel) (by decide +kernel)
    have hrecord : ((ticked skipping {} 0 5).rob.slots 0).nextPc = 4 := by decide +kernel
    have huop : ((ticked skipping {} 0 5).inflight 0).nextPc = 8 := by decide +kernel
    exact absurd (hrecord.symm.trans (hnext.trans huop)) (by decide)
  · have hany : ((ticked skipping {} 0 8).emitRob.any fun r =>
        r.memAddr == some 0 && !((ticked skipping {} 0 8).inflight r.slot).isIssued) = true := by
      decide +kernel
    exact not_truthful_of_shown hany htrue

end Cpu

end OooCpu
