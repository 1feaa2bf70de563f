import OooCpu.RefRun
import OooCpu.Steady
import OooCpu.StoreForwarding

/-! # The window beside the reference run

As long as the window follows the path of the reference run, what has issued in
it is exact: its result, its target and its store payload are those of the
reference. Off that path nothing is said. -/
namespace OooCpu

/-- No more instructions than this are between fetch and commit. -/
def Config.reach (c : Config) : ℕ := c.robSize + 4 * max 1 c.width

namespace Cpu
variable (image : Memory) (entryPc : Word) (N : ℕ)

/-- The uop stands where step `m` of the reference run is fetched. -/
structure OnStep (m : ℕ) (u : Uop) : Prop where
  pc : u.pc = Ref.pcAt image entryPc m
  running : (Ref.steps image entryPc m).2.done = false

/-- The uop carries what step `m` of the reference run computes. -/
structure Exact (m : ℕ) (u : Uop) : Prop where
  nextPc : u.nextPc = (Ref.effectAt image entryPc m).nextPc
  result : u.dec.writesRd = true → (Ref.effectAt image entryPc m).result = some u.result
  store : u.dec.isStore = true → u.memAddr = Ref.addrAt image entryPc m ∧
    u.storeData = Ref.regAt image entryPc m (Ref.insnAt image entryPc m).rs2

/-- The uops of a list stand where the steps from `m` on are fetched. -/
def Path (m : ℕ) (ws : List Uop) : Prop := Along (fun m _ => m + 1) (OnStep image entryPc) m ws

/-- From step `m` on, and for the first `N` steps, whatever is reached along the path is exact once
issued. -/
def Tracks : ℕ → List Uop → Prop
  | _, [] => True
  | m, u :: ws => m < N → OnStep image entryPc m u →
      (u.isIssued = true → Exact image entryPc m u) ∧ Tracks (m + 1) ws

/-- Whatever stands where the reference fetches is the reference's instruction. -/
def Decodes (m : ℕ) (ws : List Uop) : Prop :=
  Along (fun m _ => m + 1) (fun m u => m < N → OnStep image entryPc m u →
    u.dec = Ref.insnAt image entryPc m) m ws

/-- Words fetched from step `m` on, each beside the address it was fetched from: those of the
reference wherever the addresses are. -/
def Words (m : ℕ) (ws : List (Word × Word)) : Prop :=
  Along (fun m _ => m + 1) (fun m w => m < N → w.1 = Ref.pcAt image entryPc m →
    w.2 = Ref.wordAt image entryPc m) m ws

/-- Address and word of everything in flight, oldest first. -/
def fetches (s : Cpu) : List (Word × Word) := s.pending.map fun u => (u.pc, u.raw)

variable {image entryPc N} {cfg : Config} {s s' t : Cpu} {n m reach : ℕ} {u v : Uop}
    {pre post ws : List Uop}
  {e : IssueQueue.Entry}

theorem foldl_succ {α : Type*} (m : ℕ) (ws : List α) :
    ws.foldl (fun m _ => m + 1) m = m + ws.length := by
  induction ws generalizing m with
  | nil => rfl
  | cons u ws ih =>
    rw [List.foldl_cons, ih, List.length_cons]
    omega

theorem Path.cons_iff : Path image entryPc m (u :: ws) ↔
    OnStep image entryPc m u ∧ Path image entryPc (m + 1) ws := Iff.rfl

theorem Path.append_iff : Path image entryPc m (pre ++ post) ↔
    Path image entryPc m pre ∧ Path image entryPc (m + pre.length) post := by
  rw [Path, Along.append_iff, foldl_succ]
  rfl

theorem Path.concat_iff : Path image entryPc m (pre ++ [u]) ↔
    Path image entryPc m pre ∧ OnStep image entryPc (m + pre.length) u := by
  rw [Path, Along.concat_iff, foldl_succ]
  rfl

theorem Decodes.cons_iff : Decodes image entryPc N m (u :: ws) ↔
    (m < N → OnStep image entryPc m u → u.dec = Ref.insnAt image entryPc m) ∧
      Decodes image entryPc N (m + 1) ws :=
  Iff.rfl

/-- Where the path reaches a uop, it is the reference's instruction. -/
theorem Decodes.at_split (h : Decodes image entryPc N m (pre ++ u :: post))
    (hlt : m + pre.length < N)
    (hon : OnStep image entryPc (m + pre.length) u) :
    u.dec = Ref.insnAt image entryPc (m + pre.length) := by
  have hsplit := Along.at_split h
  rw [foldl_succ] at hsplit
  exact hsplit hlt hon

theorem Words.prefix {ws ws' : List (Word × Word)} (h : Words image entryPc N m ws)
    (hpre : ws' <+: ws) : Words image entryPc N m ws' := by
  obtain ⟨rest, rfl⟩ := hpre
  exact (Along.append_iff.mp h).1

theorem Words.concat {ws : List (Word × Word)} {w : Word × Word} (h : Words image entryPc N m ws)
    (hw : m + ws.length < N → w.1 = Ref.pcAt image entryPc (m + ws.length) →
      w.2 = Ref.wordAt image entryPc (m + ws.length)) : Words image entryPc N m (ws ++ [w]) := by
  refine Along.concat_iff.mpr ⟨h, ?_⟩
  rw [foldl_succ]
  exact hw

namespace Tracks

theorem append_iff : Tracks image entryPc N m (pre ++ post) ↔ Tracks image entryPc N m pre ∧
    (Path image entryPc m pre → m + pre.length ≤ N →
      Tracks image entryPc N (m + pre.length) post) := by
  induction pre generalizing m with
  | nil =>
    refine ⟨fun h => ⟨trivial, fun _ _ => h⟩, fun h => ?_⟩
    by_cases hm : m ≤ N
    · exact h.2 .nil hm
    · cases post with
      | nil => trivial
      | cons u ws => exact fun hlt => absurd hlt (by simp at hm ⊢; omega)
  | cons u ws ih =>
    have hshift : m + (u :: ws).length = m + 1 + ws.length := by
      rw [List.length_cons]
      omega
    rw [hshift]
    constructor
    · refine fun h => ⟨fun hlt hon => ?_, fun hpath hle => ?_⟩
      · obtain ⟨hexact, hrest⟩ := h hlt hon
        exact ⟨hexact, (ih.mp hrest).1⟩
      · obtain ⟨-, hrest⟩ := h (by omega) hpath.1
        exact (ih.mp hrest).2 hpath.2 hle
    · rintro ⟨hfront, hback⟩ hlt hon
      obtain ⟨hexact, hrest⟩ := hfront hlt hon
      exact ⟨hexact, ih.mpr ⟨hrest, fun hpath hle => hback ⟨hon, hpath⟩ hle⟩⟩

theorem cut (h : Tracks image entryPc N m (pre ++ post)) : Tracks image entryPc N m pre :=
  (append_iff.mp h).1

/-- A uop that has not issued may join at the end. -/
theorem push (h : Tracks image entryPc N m ws) (hv : v.isIssued = false) :
    Tracks image entryPc N m (ws ++ [v]) :=
  append_iff.mpr ⟨h, fun _ _ _ _ => ⟨fun hi => by rw [hv] at hi; contradiction, trivial⟩⟩

/-- A uop may advance in place if it is exact where it stands. -/
theorem replace (h : Tracks image entryPc N m (pre ++ u :: post)) (hpc : v.pc = u.pc)
    (hv : Path image entryPc m pre → m + pre.length < N → OnStep image entryPc (m + pre.length) u →
      v.isIssued = true → Exact image entryPc (m + pre.length) v) :
    Tracks image entryPc N m (pre ++ v :: post) := by
  obtain ⟨hpre, hback⟩ := append_iff.mp h
  refine append_iff.mpr ⟨hpre, fun hpath hle hlt hon => ?_⟩
  have hon' : OnStep image entryPc (m + pre.length) u := ⟨hpc ▸ hon.pc, hon.running⟩
  exact ⟨hv hpath hlt hon', (hback hpath hle hlt hon').2⟩

/-- What has issued along the path is exact. -/
theorem exact_at (h : Tracks image entryPc N m (pre ++ u :: post))
    (hpath : Path image entryPc m pre)
    (hlt : m + pre.length < N) (hon : OnStep image entryPc (m + pre.length) u)
    (hi : u.isIssued = true) :
    Exact image entryPc (m + pre.length) u := ((append_iff.mp h).2 hpath hlt.le hlt hon).1 hi

end Tracks

/-- Between commits: registers and memory are those of step `n`, and the window follows from
there. -/
structure Beside (image : Memory) (entryPc : Word) (N n : ℕ) (s : Cpu) : Prop where
  regs : ∀ r, s.reg r = Ref.regAt image entryPc n r
  mem : s.mem = (Ref.steps image entryPc n).1
  tracks : Tracks image entryPc N n s.window
  words : Words image entryPc N n s.fetches

/-- What decode made of the words in the window is the reference's along the path. -/
theorem Beside.decodes (h : Beside image entryPc N n s) (hcoh : s.Coherent cfg) :
    Decodes image entryPc N n s.window := by
  have hwords := h.words
  rw [fetches, pending, List.append_assoc, List.map_append] at hwords
  apply (Along.map_iff.mp (Along.append_iff.mp hwords).1).mono
  intro m u hu hword hlt hon
  have hraw : u.raw = Ref.wordAt image entryPc m := hword hlt hon.pc
  rw [(hcoh.sound u hu).dec, hraw, Ref.insnAt]

theorem Beside.decodes_at (h : Beside image entryPc N n s) (hcoh : s.Coherent cfg)
    (hw : s.window = pre ++ u :: post)
    (hlt : n + pre.length < N) (hon : OnStep image entryPc (n + pre.length) u) :
    u.dec = Ref.insnAt image entryPc (n + pre.length) := by
  have hdecodes := h.decodes hcoh
  rw [hw] at hdecodes
  exact hdecodes.at_split hlt hon

/-- A ready register of the speculative mapping holds the value the reference has there. -/
theorem Beside.operand (h : Beside image entryPc N n s) (hcoh : s.Coherent cfg)
    (hw : s.window = pre ++ post)
    (hpath : Path image entryPc n pre) (hle : n + pre.length ≤ N) (a : ArchReg)
    (hr : s.prf.isReady (pre.foldl Uop.remap s.archRat a) = true) :
    s.prf.read (pre.foldl Uop.remap s.archRat a) = Ref.regAt image entryPc (n + pre.length) a := by
  induction pre using List.reverseRecOn generalizing post with
  | nil => exact h.regs a
  | append_singleton pre v ih =>
    have hw' : s.window = pre ++ v :: post := by simp [hw]
    have hv : v ∈ s.window := by simp [hw']
    obtain ⟨hpre, hon⟩ := Path.concat_iff.mp hpath
    simp only [List.length_append, List.length_cons, List.length_nil] at hle ⊢
    have hdec := h.decodes_at hcoh hw' (by omega) hon
    rw [show n + (pre.length + 0 + 1) = n + pre.length + 1 by omega, Ref.regAt_succ, ← hdec]
    simp only [List.foldl_append, List.foldl_cons, List.foldl_nil, Uop.remap] at hr ⊢
    by_cases hwr : v.dec.writesRd = true
    · simp only [hwr, if_true] at hr ⊢
      by_cases ha : a = v.dec.rd
      · simp only [ha, if_true, and_self] at hr ⊢
        have hcomplete := (hcoh.woken.writer v hv hwr).symm.trans hr
        have hexact :=
          (hw' ▸ h.tracks).exact_at hpre (by omega) hon (hcoh.staged.complete v hv hcomplete)
        rw [hexact.result hwr, hcoh.woken.value v hv hwr hcomplete]
        rfl
      · simp only [ha, if_false, and_false] at hr ⊢
        exact ih hw' hpre (by omega) hr
    · rw [if_neg (show ¬(v.dec.writesRd = true ∧ a = v.dec.rd) from fun hc => hwr hc.1)]
      rw [if_neg hwr] at hr ⊢
      exact ih hw' hpre (by omega) hr

variable (image entryPc) in
/-- The stores of a path with the addresses and payloads of the reference. -/
def refStores : ℕ → List Uop → List LsqEntry
  | _, [] => []
  | m, u :: ws =>
    if u.dec.isStore then
      { seq := u.seq
        addr := Ref.addrAt image entryPc m
        data := Ref.regAt image entryPc m (Ref.insnAt image entryPc m).rs2
        size := accessSize u.dec.op
        addrReady := true
        dataReady := true } :: refStores (m + 1) ws
    else refStores (m + 1) ws

/-- Writing the stores of a path takes the reference's memory from one end of the path to the
other. -/
theorem writeAll_refStores (hdec : Decodes image entryPc N m ws) (hpath : Path image entryPc m ws)
    (hle : m + ws.length ≤ N) :
    Lsq.writeAll (Ref.steps image entryPc m).1 (refStores image entryPc m ws) =
      (Ref.steps image entryPc (m + ws.length)).1 := by
  induction ws generalizing m with
  | nil => rfl
  | cons u ws ih =>
    obtain ⟨hon, hrest⟩ := Path.cons_iff.mp hpath
    rw [List.length_cons] at hle ⊢
    obtain ⟨hfirst, hothers⟩ := Decodes.cons_iff.mp hdec
    have hu := hfirst (by omega) hon
    have hrec := ih hothers hrest (by omega)
    rw [show m + (ws.length + 1) = m + 1 + ws.length by omega, ← hrec, refStores,
      Ref.mem_succ, ← hu]
    split
    · rw [Lsq.writeAll, List.foldl_cons]
      simp only [Ref.sizeAt, ← hu]
      rfl
    · rfl

/-- The queue's stores along a path are the reference's with some fields still open. -/
theorem filledBy_refStores {q : LsqQueue} (htracks : Tracks image entryPc N m ws)
    (hpath : Path image entryPc m ws)
    (hle : m + ws.length ≤ N)
    (hslot : ∀ v ∈ ws, v.dec.isStore = true → (q.slots v.lsqIdx).seq = v.seq ∧
      (q.slots v.lsqIdx).size = accessSize v.dec.op ∧ v.FilledIn q) :
    List.Forall₂ Lsq.FilledBy ((ws.filter fun v => v.dec.isStore).map fun v => q.slots v.lsqIdx)
      (refStores image entryPc m ws) := by
  induction ws generalizing m with
  | nil => exact .nil
  | cons u ws ih =>
    obtain ⟨hon, hrest⟩ := Path.cons_iff.mp hpath
    rw [List.length_cons] at hle
    obtain ⟨hexact, htail⟩ := htracks (by omega) hon
    have hrec := ih htail hrest (by omega) fun v hv => hslot v (List.mem_cons_of_mem _ hv)
    rw [refStores]
    by_cases hs : u.dec.isStore = true
    · obtain ⟨hseq, hsize, hfill⟩ := hslot u List.mem_cons_self hs
      rw [if_pos hs, List.filter_cons_of_pos (p := fun v : Uop => v.dec.isStore) hs, List.map_cons]
      refine .cons ⟨hseq.symm, hsize.symm, fun hr => ?_, fun hr => ?_⟩ hrec
      · by_cases hi : u.isIssued = true
        · rw [Uop.FilledIn, if_pos hi] at hfill
          exact ((hexact hi).store hs).1.symm.trans hfill.2.2.1.symm
        · rw [Uop.FilledIn, if_neg hi, hr] at hfill
          exact absurd hfill.1 (by simp)
      · by_cases hi : u.isIssued = true
        · rw [Uop.FilledIn, if_pos hi] at hfill
          exact ((hexact hi).store hs).2.symm.trans hfill.2.2.2.symm
        · rw [Uop.FilledIn, if_neg hi, hr] at hfill
          exact absurd hfill.2 (by simp)
    · rw [if_neg hs, List.filter_cons_of_neg (p := fun v : Uop => v.dec.isStore) hs]
      exact hrec

/-- The stores the scan compares a load with are those in front of it. -/
theorem Coherent.older_entries (hcoh : s.Coherent cfg) (hw : s.window = pre ++ u :: post)
    (hd : u.isDispatched = true) (hns : u.dec.isStore = false) {ld : LsqEntry}
    (hseq : ld.seq = u.seq) : Lsq.older ld s.lsq.stores.entries =
      (pre.filter fun v => v.dec.isStore).map fun v => s.lsq.stores.slots v.lsqIdx := by
  obtain ⟨hpre, hpost⟩ := hcoh.buffered.seq_split hw
  have hq := hcoh.queued.stores
  have hentries : s.lsq.stores.entries =
      (s.window.filter fun v => v.dec.isStore && v.isDispatched).map fun v =>
        s.lsq.stores.slots v.lsqIdx := by
    rw [LsqQueue.entries_eq hq.wf, hq.live, List.map_map]
    rfl
  obtain ⟨-, -, hdisp, -⟩ := hcoh.staged.front_split hw hd
  have hkeep := filter_seq_le hpre hpost
  rw [Lsq.older, hentries, List.filter_map, hseq]
  congr 1
  calc ((s.window.filter fun v => v.dec.isStore && v.isDispatched).filter
        ((fun st => decide (st.seq ≤ u.seq)) ∘ fun v => s.lsq.stores.slots v.lsqIdx))
      = (s.window.filter fun v => v.dec.isStore && v.isDispatched).filter fun v =>
        decide (v.seq ≤ u.seq) := by
        apply List.filter_congr
        intro v hv
        obtain ⟨hvw, hp⟩ := List.mem_filter.mp hv
        simp only [Bool.and_eq_true] at hp
        simp only [Function.comp_apply, (hq.slot v hvw hp.1 hp.2).1]
    _ = (s.window.filter fun v => decide (v.seq ≤ u.seq)).filter fun v =>
      v.dec.isStore && v.isDispatched := by
        rw [List.filter_filter, List.filter_filter]
        simp only [Bool.and_comm]
    _ = pre.filter fun v => v.dec.isStore := by
        rw [hw, hkeep, List.filter_append, List.filter_cons_of_neg (by simp [hns]), List.filter_nil,
          List.append_nil]
        apply List.filter_congr
        intro v hv
        rw [hdisp v hv, Bool.and_true]

/-- A load with its address and the store queue are fit for the scan. -/
theorem Coherent.scannable (hcoh : s.Coherent cfg) {ld : LsqEntry} {op : Op}
    (hsize : ld.size = accessSize op) : Lsq.Scannable ld s.lsq.stores.entries := by
  have hq := hcoh.queued.stores
  refine ⟨hsize ▸ accessSize_isAccessSize op, fun st hst => ?_, ?_⟩
  · rw [LsqQueue.entries_eq hq.wf, hq.live, List.map_map] at hst
    obtain ⟨v, hv, rfl⟩ := List.mem_map.mp hst
    obtain ⟨hvw, hp⟩ := List.mem_filter.mp hv
    simp only [Bool.and_eq_true] at hp
    simp only [Function.comp_apply]
    rw [(hq.slot v hvw hp.1 hp.2).2]
    exact accessSize_isAccessSize _
  · rw [LsqQueue.entries_eq hq.wf]
    exact hq.slots_sorted hcoh.buffered.sorted

/-- A store on the path that has its address has issued, and its access does not wrap. -/
theorem Beside.store_unwrapped (h : Beside image entryPc N n s)
    (hspaced : Ref.Spaced image entryPc reach N)
    (hcoh : s.Coherent cfg) (hw : s.window = pre ++ u :: post) (hpath : Path image entryPc n pre)
    (hlt : n + pre.length < N) (hon : OnStep image entryPc (n + pre.length) u)
    (hd : u.isDispatched = true)
    (hs : u.dec.isStore = true) (hready : (s.lsq.stores.slots u.lsqIdx).addrReady = true) :
    (s.lsq.stores.slots u.lsqIdx).addr.toNat + (s.lsq.stores.slots u.lsqIdx).size ≤ 4294967296 := by
  have hu : u ∈ s.window := by simp [hw]
  have hinsn := h.decodes_at hcoh hw hlt hon
  have hfill := hcoh.queued.filled u hu hs hd
  have hi : u.isIssued = true := by
    by_contra hi
    rw [Uop.FilledIn, if_neg hi, hready] at hfill
    exact absurd hfill.1 (by simp)
  have hexact := (hw ▸ h.tracks).exact_at hpath hlt hon hi
  rw [Uop.FilledIn, if_pos hi] at hfill
  have hunwrapped := hspaced.unwrapped (n + pre.length) hlt (.inr (hinsn ▸ hs))
  rw [hfill.2.2.1, (hexact.store hs).1, (hcoh.queued.stores.slot u hu hs hd).2, hinsn]
  exact hunwrapped

/-- Along the path a load returns what the reference loads. -/
theorem Beside.returns (h : Beside image entryPc N n s) (hspaced : Ref.Spaced image entryPc reach N)
    (hcoh : s.Coherent cfg)
    (hw : s.window = pre ++ u :: post) (hpath : Path image entryPc n pre) (hlt : n + pre.length < N)
    (hon : OnStep image entryPc (n + pre.length) u) (hd : u.isDispatched = true)
    (hl : u.dec.isLoad = true)
    {x : Uop} (hdec : x.dec = u.dec) (hidx : x.lsqIdx = u.lsqIdx)
    (hval : x.val1 = Ref.regAt image entryPc (n + pre.length) u.dec.rs1) {value : Word}
    (hr : s.Returns x value) :
    (Ref.effectAt image entryPc (n + pre.length)).result = some value := by
  have hu : u ∈ s.window := by simp [hw]
  have hinsn := h.decodes_at hcoh hw hlt hon
  have hshape := (hcoh.sound u hu).shaped
  have hslot := hcoh.queued.loads.slot u hu hl hd
  have haddr : loadAddr x = Ref.addrAt image entryPc (n + pre.length) := by
    rw [loadAddr, hval, hdec, hinsn, Ref.addrAt]
  -- the load's own queue entry, its address just filled in
  let ld : LsqEntry := { s.lsq.loads.slots u.lsqIdx with addr := loadAddr x, addrReady := true }
  have hld : s.forwardAnswer x = Lsq.searchStores ld s.lsq.stores.entries := by
    simp only [forwardAnswer, Lsq.searchOlderStores, Lsq.resolveLoadAddr, LsqQueue.modify, hidx,
      if_true, ld]
  have hseq : ld.seq = u.seq := hslot.1
  have hsize : ld.size = accessSize u.dec.op := hslot.2
  have holder := hcoh.older_entries hw hd (hshape.load_not_store hl) hseq
  have hfront : ∀ v ∈ pre, v ∈ s.window ∧ v.isDispatched = true := fun v hv =>
    ⟨by simp [hw, hv], by
      obtain ⟨-, -, hdisp, -⟩ := hcoh.staged.front_split hw hd
      exact hdisp v hv⟩
  have hpre := (hw ▸ h.tracks).cut
  have hfill : List.Forall₂ Lsq.FilledBy (Lsq.older ld s.lsq.stores.entries)
      (refStores image entryPc n pre) := by
    rw [holder]
    apply filledBy_refStores hpre hpath hlt.le
    intro v hv hs
    obtain ⟨hvw, hvd⟩ := hfront v hv
    obtain ⟨h1, h2⟩ := hcoh.queued.stores.slot v hvw hs hvd
    exact ⟨h1, h2, hcoh.queued.filled v hvw hs hvd⟩
  have hwrite : Lsq.writeAll s.mem (refStores image entryPc n pre) =
      (Ref.steps image entryPc (n + pre.length)).1 := by
    rw [h.mem]
    exact writeAll_refStores (Along.append_iff.mp (hw ▸ h.decodes hcoh)).1 hpath hlt.le
  have hharmless : Lsq.WrapHarmless ld (Lsq.older ld s.lsq.stores.entries) := by
    refine Lsq.wrapHarmless_of_unwrapped ?_ fun st hst hready => ?_
    · have hunwrapped := hspaced.unwrapped _ hlt (.inl (hinsn ▸ hl))
      rw [hsize, hinsn]
      change (loadAddr x).toNat + _ ≤ _
      rw [haddr]
      exact hunwrapped
    · -- an older store that has its address has issued along the path
      rw [holder] at hst
      obtain ⟨v, hv, rfl⟩ := List.mem_map.mp hst
      obtain ⟨hvpre, hs⟩ := List.mem_filter.mp hv
      obtain ⟨a, b, rfl⟩ := List.append_of_mem hvpre
      obtain ⟨ha, hvon⟩ := Path.append_iff.mp hpath
      simp only [List.length_append, List.length_cons] at hlt
      have hsplit : s.window = a ++ v :: (b ++ u :: post) := by simp [hw]
      exact h.store_unwrapped hspaced hcoh hsplit ha (by omega) hvon.1 (hfront v hvpre).2 hs hready
  have hagrees := Lsq.searchStores_agrees (hcoh.scannable hsize) (fun _ => hharmless) _ s.mem hfill
  rw [hwrite] at hagrees
  have hld' : ld.addr = Ref.addrAt image entryPc (n + pre.length) := haddr
  rw [hld', hsize] at hagrees
  have heffect : (Ref.effectAt image entryPc (n + pre.length)).result =
      some (extendLoad u.dec.op ((Ref.steps image entryPc (n + pre.length)).1.loadBytes
        (Ref.addrAt image entryPc (n + pre.length)) (accessSize u.dec.op))) := by
    rw [hinsn]
    exact Ref.execute_load (hinsn ▸ hl) (Ref.insnAt_shaped _)
  rw [heffect]
  rcases hr with ⟨hk, rfl⟩ | ⟨hk, rfl⟩
  · rw [hld] at hk ⊢
    rw [hagrees.1 hk, hdec]
  · rw [hld] at hk
    rw [hdec, Ref.loadMemory_eq hl hshape, haddr, hagrees.2 hk]

/-- A candidate launched along the path is exact. -/
theorem Beside.launch_exact (h : Beside image entryPc N n s)
    (hspaced : Ref.Spaced image entryPc reach N)
    (hcoh : s.Coherent cfg) (he : e ∈ s.iq.entries) (hready : e.ready = true) {latency unit : ℕ}
    {f : Fu}
    (ha : s.attempt e = .launched s' v latency f unit)
    (hw : s.window = pre ++ s.inflight e.rob :: post)
    (hpath : Path image entryPc n pre) (hlt : n + pre.length < N)
    (hon : OnStep image entryPc (n + pre.length) (s.inflight e.rob)) :
    Exact image entryPc (n + pre.length) (stamped s' v latency) := by
  obtain ⟨hu, hwait, hbare⟩ := hcoh.candidate he
  have hsrc1 : e.src1 = (s.inflight e.rob).src1 := congrArg IssueQueue.Entry.src1 hbare
  have hsrc2 : e.src2 = (s.inflight e.rob).src2 := congrArg IssueQueue.Entry.src2 hbare
  obtain ⟨hheard1, hheard2⟩ := hcoh.woken.heard e he
  simp only [IssueQueue.Entry.ready, Bool.and_eq_true] at hready
  simp only [Uop.waiting, Bool.and_eq_true, Bool.not_eq_true'] at hwait
  have hinsn := h.decodes_at hcoh hw hlt hon
  have hsound := hcoh.sound _ hu
  have hrenamed := hcoh.mapped.renamedUnder hw
  have hoperand := h.operand hcoh hw hpath hlt.le
  have hval1 : s.prf.read (s.inflight e.rob).src1 =
      Ref.regAt image entryPc (n + pre.length) (s.inflight e.rob).dec.rs1 := by
    rw [hrenamed.src1]
    exact hoperand _ (by rw [← hrenamed.src1, ← hsrc1, ← hheard1]; exact hready.1)
  have hval2 : s.prf.read (s.inflight e.rob).src2 =
      Ref.regAt image entryPc (n + pre.length) (s.inflight e.rob).dec.rs2 := by
    rw [hrenamed.src2]
    exact hoperand _ (by rw [← hrenamed.src2, ← hsrc2, ← hheard2]; exact hready.2)
  have hnext : (s.inflight e.rob).nextPc = (s.inflight e.rob).pc + 4 :=
    hsound.straight (.inr hwait.2)
  have hshape := hsound.shaped
  have hstraight := @Ref.execute_nextPc_straight (Ref.steps image entryPc (n + pre.length)).1
    (Ref.steps image entryPc (n + pre.length)).2 (s.inflight e.rob).dec hshape
  by_cases hl : (s.inflight e.rob).dec.isLoad = true
  · obtain ⟨-, -, value, _, _, _, hret, -, rfl⟩ := attempt_load ha hl
    have hbranch : (s.inflight e.rob).dec.isBranch = false := by
      by_contra hb
      have := hshape.branch_not_load (by simpa using hb)
      rw [hl] at this
      contradiction
    refine ⟨?_, fun _ =>
      h.returns (x := s.withOperands (s.inflight e.rob)) hspaced hcoh hw hpath hlt hon hwait.1 hl
      rfl rfl hval1 hret, fun hs => ?_⟩
    · rw [Ref.effectAt, ← hinsn, hstraight hbranch]
      exact hnext.trans (congrArg (· + 4) hon.pc)
    · exact absurd (show (s.inflight e.rob).dec.isStore = true from hs)
        (by simp [hshape.load_not_store hl])
  · obtain ⟨-, -, _, -, rfl, -⟩ := attempt_other ha (by simpa using hl)
    by_cases hop : (s.inflight e.rob).dec.op = .invalid
    · have htrap : (s.inflight e.rob).trap ≠ .none := by
        rw [hsound.trap, if_pos hop]
        simp
      rw [if_neg htrap]
      refine ⟨?_, fun hwr => ?_, fun hs => ?_⟩
      · have hbranch : (s.inflight e.rob).dec.isBranch = false := by
          rw [hshape.branch_iff, hop]
          rfl
        rw [Ref.effectAt, ← hinsn, hstraight hbranch]
        exact hnext.trans (congrArg (· + 4) hon.pc)
      · exact absurd (hsound.writer_trap hwr) htrap
      · exact absurd (hsound.store_trap hs) htrap
    · have htrap : (s.inflight e.rob).trap = .none := by rw [hsound.trap, if_neg hop]
      rw [if_pos htrap]
      obtain ⟨hpc, hresult, hstore⟩ :=
        @Ref.executeUop_execute (Ref.steps image entryPc (n + pre.length)).1
        (Ref.steps image entryPc (n + pre.length)).2 (s.inflight e.rob).dec
          (s.withOperands (s.inflight e.rob)) hshape
        rfl hon.pc hval1 hval2 hnext (by simpa using hl) hop
      have hadv := (executeUop_advances (s.withOperands (s.inflight e.rob))).1
      refine ⟨?_, fun hwr => ?_, fun hs => ?_⟩
      · rw [Ref.effectAt, ← hinsn]
        exact hpc
      · rw [Ref.effectAt, ← hinsn]
        exact hresult (hadv.dec ▸ hwr)
      · rw [Ref.addrAt, ← hinsn]
        exact hstore (hadv.dec ▸ hs)

end Cpu

end OooCpu
