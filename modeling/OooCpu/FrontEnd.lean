import OooCpu.Along
import OooCpu.History

/-! # The front end along the timeline

The timeline lists what has committed, what is in flight and what waits in front
of rename, oldest first. Along it each fetch follows the one before. As long as
transfers keep their kind, history register and return stack are those of the path
so far. -/
namespace OooCpu

namespace Uop

/-- Where the front end should be after this uop, as far as is known. -/
def successor (u : Uop) : Word := if u.isIssued then u.nextPc else u.predicted

/-- The kind of transfer the fetched word is. -/
def fetchKind (u : Uop) : BranchKind := classify (decode u.raw)

/-- The return stack once this uop has been fetched. -/
def rasAfter (r : Ras) (u : Uop) : Ras :=
  if u.btbHit then
    match u.fetchKind with
    | .call => r.push (u.pc + 4)
    | .return => if r.isEmpty then r else r.pop.2
    | _ => r
  else r

end Uop

/-- Next fetch address, history and return stack. -/
structure FrontState where
  pc : Word
  ghr : Word
  ras : Ras

namespace FrontState

def reset (cfg : Config) (entryPc : Word) : FrontState := ⟨entryPc, 0, .reset cfg.rasSize⟩

/-- How one uop moves the front end, going where it is known or predicted to go. -/
def advance (cfg : Config) (st : FrontState) (u : Uop) : FrontState :=
  { pc := u.successor
    ghr := if u.btbHit = true ∧ u.fetchKind = .conditional
      then Gshare.shifted (Gshare.reset cfg).ghrMask st.ghr (u.successor != u.pc + 4) else st.ghr
    ras := u.rasAfter st.ras }

/-- What fetch recorded in the uop it fetched here. -/
structure Fetches (cfg : Config) (st : FrontState) (u : Uop) : Prop where
  pc : u.pc = st.pc
  snapshot : u.feSnap = ⟨st.ghr, u.rasAfter st.ras⟩
  index : u.phtIndex = Gshare.indexOf (Gshare.reset cfg).size st.ghr u.pc

/-- The uop was fetched from here, and under this history if kinds are kept. -/
structure Meets (kinds : Prop) (cfg : Config) (st : FrontState) (u : Uop) : Prop where
  pc : u.pc = st.pc
  exact : kinds → st.Fetches cfg u

end FrontState

/-- Two uops that fetch recorded alike. -/
structure Uop.SameFetch (u v : Uop) : Prop where
  pc : v.pc = u.pc
  raw : v.raw = u.raw
  btbHit : v.btbHit = u.btbHit
  predTaken : v.predTaken = u.predTaken
  predTarget : v.predTarget = u.predTarget
  phtIndex : v.phtIndex = u.phtIndex
  feSnap : v.feSnap = u.feSnap

theorem Uop.Advances.sameFetch {u v : Uop} (h : u.Advances v) : u.SameFetch v :=
  ⟨h.pc, h.raw, h.btbHit, h.predTaken, h.predTarget, h.phtIndex, h.feSnap⟩

theorem Uop.SameFetch.refl (u : Uop) : u.SameFetch u := ⟨rfl, rfl, rfl, rfl, rfl, rfl, rfl⟩

namespace Uop.SameFetch
variable {u v : Uop} (h : u.SameFetch v)
include h

theorem rasAfter (r : Ras) : v.rasAfter r = u.rasAfter r := by
  simp only [Uop.rasAfter, Uop.fetchKind, h.btbHit, h.raw, h.pc]

theorem fetches {cfg : Config} {st : FrontState} (hu : st.Fetches cfg u) : st.Fetches cfg v := by
  refine ⟨h.pc.trans hu.pc, ?_, ?_⟩
  · rw [h.feSnap, h.rasAfter, hu.snapshot]
  · rw [h.phtIndex, h.pc, hu.index]

theorem meets {kinds : Prop} {cfg : Config} {st : FrontState} (hu : st.Meets kinds cfg u) :
    st.Meets kinds cfg v :=
  ⟨h.pc.trans hu.pc, fun hk => h.fetches (hu.exact hk)⟩

theorem advance {cfg : Config} {st : FrontState} (hs : v.successor = u.successor) :
    st.advance cfg v = st.advance cfg u := by
  have hkind : v.fetchKind = u.fetchKind := by rw [Uop.fetchKind, h.raw, Uop.fetchKind]
  simp only [FrontState.advance, hkind, hs, h.btbHit, h.pc, h.rasAfter]

end Uop.SameFetch

/-- Every valid target buffer entry was trained by a committed, taken branch. -/
def TrainedBy (log : List Uop) (btb : Btb) : Prop :=
  ∀ i, (btb.entries i).valid = true → ∃ v ∈ log, v.dec.isBranch = true ∧
    v.pc = (btb.entries i).tag ∧ v.bkind = (btb.entries i).kind ∧
      v.nextPc = (btb.entries i).target ∧ v.nextPc ≠ v.pc + 4

/-- Only a hit redirects the front end, and only branches hit. -/
structure Uop.Guided (u : Uop) : Prop where
  hit : u.predTaken = true → u.btbHit = true
  branch : u.btbHit = true → (decode u.raw).isBranch = true

/-- The front end along a timeline `T` behind what has committed. `kinds` says whether transfers
keep their kind. -/
structure FrontEnd (kinds : Prop) (cfg : Config) (entryPc : Word) (log T : List Uop) (mem : Memory)
    (bpred : BranchPredictor) : Prop where
  shape : bpred.gshare.ghrMask = (Gshare.reset cfg).ghrMask ∧
    bpred.gshare.size = (Gshare.reset cfg).size
  committed : ∀ u ∈ log, u.Sound ∧ u.isIssued = true
  words : ∀ u ∈ log ++ T, Cpu.Untouched log u.pc → u.raw = mem.loadU32 u.pc
  trained : TrainedBy log bpred.btb
  guided : ∀ u ∈ T, u.Guided
  along : Along (FrontState.advance cfg) (FrontState.Meets kinds cfg) (.reset cfg entryPc)
    (log ++ T)

/-- Where a transfer has been taken, memory still holds one, and one of its kind if kinds are
kept. -/
def TransfersKept (kinds : Prop) (log : List Uop) (mem : Memory) : Prop :=
  ∀ v ∈ log, v.dec.isBranch = true → v.nextPc ≠ v.pc + 4 →
    (decode (mem.loadU32 v.pc)).isBranch = true ∧
      (kinds → classify (decode (mem.loadU32 v.pc)) = v.bkind)

/-- Fetch goes on where the timeline ends, and under its history if kinds are kept. -/
structure Follows (kinds : Prop) (cfg : Config) (entryPc : Word) (timeline : List Uop)
    (bpred : BranchPredictor)
    (pc : Word) : Prop where
  goes : (timeline.foldl (FrontState.advance cfg) (.reset cfg entryPc)).pc = pc
  exact : kinds → timeline.foldl (FrontState.advance cfg) (.reset cfg entryPc) = ⟨pc, bpred.ghr,
    bpred.ras⟩

/-- Only branches have a kind of transfer. -/
theorem isBranch_iff_classify {d : Decoded} : d.isBranch = true ↔ classify d ≠ .none := by
  rw [classify]
  cases hb : d.isBranch with
  | false => simp
  | true =>
    simp only [Bool.not_true, Bool.false_eq_true, if_false, true_iff]
    split_ifs <;> simp

theorem Btb.lookup_valid {b : Btb} {pc : Word} (h : (b.lookup pc).valid = true) :
    ∃ i, (b.entries i).valid = true ∧ (b.entries i).tag = pc ∧
      (b.lookup pc).target = (b.entries i).target ∧ (b.lookup pc).kind = (b.entries i).kind := by
  simp only [Btb.lookup] at h ⊢
  split at h
  · rename_i w hw
    have hfound := List.find?_some hw
    simp only [Bool.and_eq_true, beq_iff_eq] at hfound
    exact ⟨_, hfound.1, hfound.2, rfl, rfl⟩
  · contradiction

/-- What one prediction answers and how it moves history and stack. -/
theorem BranchPredictor.predict_spec (b : BranchPredictor) (pc : Word) :
    (b.predict pc).1.btbHit = (b.btb.lookup pc).valid ∧
    (b.predict pc).1.phtIndex = b.gshare.index pc ∧
    ((b.predict pc).1.taken = true → (b.btb.lookup pc).valid = true) ∧
    ((b.btb.lookup pc).valid = true → (b.btb.lookup pc).kind = .conditional →
      (b.predict pc).1.taken = true → (b.predict pc).1.target = (b.btb.lookup pc).target) ∧
    (b.predict pc).2.btb = b.btb ∧ (b.predict pc).2.gshare.ghrMask = b.gshare.ghrMask ∧
    (b.predict pc).2.gshare.size = b.gshare.size ∧
    (b.predict pc).2.ghr = (if (b.btb.lookup pc).valid = true ∧
      (b.btb.lookup pc).kind = .conditional
      then Gshare.shifted b.gshare.ghrMask b.ghr (b.predict pc).1.taken else b.ghr) ∧
    (b.predict pc).2.ras = (if (b.btb.lookup pc).valid then
      match (b.btb.lookup pc).kind with
      | .call => b.ras.push (pc + 4)
      | .return => if b.ras.isEmpty then b.ras else b.ras.pop.2
      | _ => b.ras
    else b.ras) := by
  simp only [BranchPredictor.predict]
  cases hv : (b.btb.lookup pc).valid with
  | false => simp
  | true =>
    cases hk : (b.btb.lookup pc).kind with
    | none => simp
    | conditional =>
      cases ht : b.gshare.predictAt (b.gshare.index pc) <;>
        simp [BranchPredictor.shiftHistory, Gshare.shift, BranchPredictor.ghr]
    | jump => simp
    | call => simp [BranchPredictor.ghr]
    | «return» =>
      cases he : b.ras.isEmpty <;> simp [BranchPredictor.ghr]

namespace FrontEnd
variable {kinds : Prop} {cfg : Config} {entryPc pc : Word} {log T pre post : List Uop}
    {mem : Memory} {bpred : BranchPredictor}
  {u v : Uop}

theorem reset (mem : Memory) (entryPc : Word) :
    FrontEnd kinds cfg entryPc [] [] mem (.reset cfg) where
  shape := ⟨rfl, rfl⟩
  committed := by simp
  words := by simp
  trained := fun i hi => by simp [BranchPredictor.reset, Btb.reset] at hi
  guided := by simp
  along := .nil

theorem follows_reset : Follows kinds cfg entryPc [] (.reset cfg) entryPc := ⟨rfl, fun _ => rfl⟩

/-- A uop whose prediction does not fall through was fetched as a branch. -/
theorem guided_isBranch (h : u.Guided) (hne : u.predicted ≠ u.pc + 4) :
    (decode u.raw).isBranch = true := by
  refine h.branch (h.hit ?_)
  by_contra ht
  exact hne (if_neg ht)

theorem foldl_advance_masked (cfg : Config) (T : List Uop) {st : FrontState}
    (h : st.ghr &&& (Gshare.reset cfg).ghrMask = st.ghr) :
    (T.foldl (FrontState.advance cfg) st).ghr &&& (Gshare.reset cfg).ghrMask =
      (T.foldl (FrontState.advance cfg) st).ghr := by
  induction T generalizing st with
  | nil => exact h
  | cons u T ih =>
    apply ih
    simp only [FrontState.advance]
    split
    · rw [Gshare.shifted, BitVec.and_assoc, BitVec.and_self]
    · exact h

private theorem mem_replaced (hs : u.SameFetch v) {a : Uop} (ha : a ∈ pre ++ v :: post) :
    ∃ b ∈ pre ++ u :: post, b.SameFetch a := by
  have hkept : ∀ c ∈ pre ++ u :: post, ∃ b ∈ pre ++ u :: post, b.SameFetch c := fun c hc =>
    ⟨c, hc, ⟨rfl, rfl, rfl, rfl, rfl, rfl, rfl⟩⟩
  exact forall_mem_replace rfl hkept ⟨u, by simp, hs⟩ a ha

variable (h : FrontEnd kinds cfg entryPc log T mem bpred)
include h

/-- Committed stores that leave committed code alone keep its transfers. -/
theorem transfersKept (hself : Cpu.NoSelfMod log) : TransfersKept kinds log mem := by
  intro v hv hbranch _
  have hsound := (h.committed v hv).1
  rw [← h.words v (List.mem_append_left _ hv) (hself v hv), ← hsound.dec, hsound.bkind]
  exact ⟨hbranch, fun _ => rfl⟩

/-- A target buffer hit names a taken transfer, where memory still holds one. -/
theorem lookup_spec (hkept : TransfersKept kinds log mem)
    (hhit : (bpred.btb.lookup pc).valid = true) :
    (bpred.btb.lookup pc).target ≠ pc + 4 ∧ (decode (mem.loadU32 pc)).isBranch = true ∧
      (kinds → (bpred.btb.lookup pc).kind = classify (decode (mem.loadU32 pc))) := by
  obtain ⟨i, hvalid, htag, htarget, hkind⟩ := Btb.lookup_valid hhit
  obtain ⟨v, hv, hbranch, hpc, hvkind, hvnext, htaken⟩ := h.trained i hvalid
  obtain ⟨hstill, hsame⟩ := hkept v hv hbranch htaken
  rw [hpc, htag] at hstill hsame
  rw [hvnext, hpc, htag, ← htarget] at htaken
  refine ⟨htaken, hstill, fun hk => ?_⟩
  rw [hkind, ← hvkind, hsame hk]

/-- What fetch records in the uop it fetches, while kinds are kept. -/
private theorem fetch_exact {f : Uop} (hkept : TransfersKept kinds log mem) (hk : kinds)
    (hpc : f.pc = pc)
    (hraw : f.raw = mem.loadU32 pc) (hissued : f.isIssued = false)
    (htaken : f.predTaken = (bpred.predict pc).1.taken)
    (htarget : f.predTarget = (bpred.predict pc).1.target)
    (hhit : f.btbHit = (bpred.predict pc).1.btbHit)
    (hindex : f.phtIndex = (bpred.predict pc).1.phtIndex)
    (hsnap : f.feSnap = ⟨bpred.ghr, (bpred.predict pc).2.ras⟩) :
    FrontState.Fetches cfg ⟨pc, bpred.ghr, bpred.ras⟩ f ∧
      FrontState.advance cfg ⟨pc, bpred.ghr, bpred.ras⟩ f =
        ⟨f.predicted, (bpred.predict pc).2.ghr, (bpred.predict pc).2.ras⟩ := by
  obtain ⟨pHit, pIndex, pTaken, pTarget, pBtb, pMask, pSize, pGhr, pRas⟩ := bpred.predict_spec pc
  rw [pHit] at hhit
  have hkind : f.btbHit = true → f.fetchKind = (bpred.btb.lookup pc).kind := fun hb => by
    rw [Uop.fetchKind, hraw, (h.lookup_spec hkept (hhit ▸ hb)).2.2 hk]
  have hras : f.rasAfter bpred.ras = (bpred.predict pc).2.ras := by
    rw [pRas, Uop.rasAfter, hpc, hhit]
    by_cases hb : (bpred.btb.lookup pc).valid = true
    · rw [if_pos hb, if_pos hb, hkind (hhit.trans hb)]
    · rw [if_neg hb, if_neg hb]
  have hsucc : f.successor = f.predicted := by simp [Uop.successor, hissued]
  refine ⟨⟨hpc, ?_, ?_⟩, ?_⟩
  · rw [hsnap, hras]
  · rw [hindex, pIndex, hpc, Gshare.index, h.shape.2]
    rfl
  simp only [FrontState.advance, hsucc, hras, FrontState.mk.injEq, true_and, and_true]
  rw [pGhr, ← h.shape.1]
  by_cases hb : (bpred.btb.lookup pc).valid = true
  · have hf := hhit.trans hb
    rw [hkind hf]
    by_cases hc : (bpred.btb.lookup pc).kind = .conditional
    · rw [if_pos ⟨hf, hc⟩, if_pos ⟨hb, hc⟩]
      congr 1
      cases ht : (bpred.predict pc).1.taken with
      | true =>
        have hgo : f.predicted = (bpred.btb.lookup pc).target := by
          rw [Uop.predicted, htaken, ht, if_pos rfl, htarget, pTarget hb hc ht]
        simpa [hgo, hpc] using (h.lookup_spec hkept hb).1
      | false => simp [Uop.predicted, htaken, ht]
    · rw [if_neg (fun hh => hc hh.2), if_neg (fun hh => hc hh.2)]
  · rw [if_neg (fun hh => hb (hhit ▸ hh.1)), if_neg (fun hh => hb hh.1)]

/-- Fetch extends the timeline. -/
theorem fetch {f : Uop} (hkept : TransfersKept kinds log mem)
    (hfollows : Follows kinds cfg entryPc (log ++ T) bpred pc) (hpc : f.pc = pc)
    (hraw : f.raw = mem.loadU32 pc)
    (hissued : f.isIssued = false) (htaken : f.predTaken = (bpred.predict pc).1.taken)
    (htarget : f.predTarget = (bpred.predict pc).1.target)
    (hhit : f.btbHit = (bpred.predict pc).1.btbHit)
    (hindex : f.phtIndex = (bpred.predict pc).1.phtIndex)
    (hsnap : f.feSnap = ⟨bpred.ghr, (bpred.predict pc).2.ras⟩) :
    FrontEnd kinds cfg entryPc log (T ++ [f]) mem (bpred.predict pc).2 ∧
      Follows kinds cfg entryPc (log ++ (T ++ [f])) (bpred.predict pc).2 f.predicted := by
  obtain ⟨pHit, -, pTaken, -, pBtb, pMask, pSize, -, -⟩ := bpred.predict_spec pc
  have hexact := fun hk => h.fetch_exact hkept hk hpc hraw hissued htaken htarget hhit hindex hsnap
  rw [pHit] at hhit
  have hsucc : f.successor = f.predicted := by simp [Uop.successor, hissued]
  refine ⟨⟨⟨pMask.trans h.shape.1, pSize.trans h.shape.2⟩, h.committed, ?_, pBtb.symm ▸ h.trained,
    ?_, ?_⟩, ?_⟩
  · intro u hu huntouched
    rw [← List.append_assoc, List.mem_append, List.mem_singleton] at hu
    rcases hu with hu | rfl
    · exact h.words u hu huntouched
    · rw [hraw, hpc]
  · apply forall_mem_concat h.guided
    refine ⟨fun ht => hhit.trans (pTaken (htaken ▸ ht)), fun hb => ?_⟩
    rw [hraw]
    exact (h.lookup_spec hkept (hhit ▸ hb)).2.1
  · rw [← List.append_assoc]
    refine Along.concat_iff.mpr ⟨h.along, hpc.trans hfollows.goes.symm, fun hk => ?_⟩
    rw [hfollows.exact hk]
    exact (hexact hk).1
  · rw [← List.append_assoc]
    constructor
    · rw [List.foldl_append]
      exact hsucc
    · intro hk
      rw [List.foldl_append, hfollows.exact hk]
      exact (hexact hk).2

/-- The timeline may be cut anywhere. -/
theorem cut (hT : T = pre ++ post) : FrontEnd kinds cfg entryPc log pre mem bpred := by
  subst hT
  have halong := h.along
  rw [← List.append_assoc] at halong
  refine ⟨h.shape, h.committed, fun u hu => h.words u ?_, h.trained,
    fun u hu => h.guided u (List.mem_append_left _ hu), (Along.append_iff.mp halong).1⟩
  cases List.mem_append.mp hu with
  | inl hu => exact List.mem_append_left _ hu
  | inr hu => exact List.mem_append_right _ (List.mem_append_left _ hu)

private theorem guided_replaced (hT : T = pre ++ u :: post) (hs : u.SameFetch v) :
    (∀ a ∈ pre ++ v :: post, a.Guided) ∧
      ∀ a ∈ log ++ (pre ++ v :: post), Cpu.Untouched log a.pc → a.raw = mem.loadU32 a.pc := by
  constructor
  · intro a ha
    obtain ⟨b, hb, hba⟩ := mem_replaced hs ha
    have hg := h.guided b (hT ▸ hb)
    exact ⟨fun ht => hba.btbHit ▸ hg.hit (hba.predTaken ▸ ht),
      fun hh => hba.raw ▸ hg.branch (hba.btbHit ▸ hh)⟩
  · intro a ha huntouched
    cases List.mem_append.mp ha with
    | inl ha => exact h.words a (List.mem_append_left _ ha) huntouched
    | inr ha =>
      obtain ⟨b, hb, hba⟩ := mem_replaced hs ha
      rw [hba.raw, hba.pc]
      exact h.words b (List.mem_append_right _ (hT ▸ hb)) (hba.pc ▸ huntouched)

/-- A uop that still leads to the same place may advance. -/
theorem replace (hT : T = pre ++ u :: post) (hs : u.SameFetch v)
    (hsucc : v.successor = u.successor) :
    FrontEnd kinds cfg entryPc log (pre ++ v :: post) mem bpred := by
  obtain ⟨hguided, hwords⟩ := h.guided_replaced hT hs
  have halong := h.along
  rw [hT, ← List.append_assoc] at halong
  refine ⟨h.shape, h.committed, hwords, h.trained, hguided, ?_⟩
  rw [← List.append_assoc]
  exact halong.replace (hs.meets halong.at_split) (hs.advance hsucc)

omit h in
/-- Such a uop leaves fetch where it was. -/
theorem follows_replace (hf : Follows kinds cfg entryPc (log ++ T) bpred pc)
    (hT : T = pre ++ u :: post)
    (hs : u.SameFetch v) (hsucc : v.successor = u.successor) :
    Follows kinds cfg entryPc (log ++ (pre ++ v :: post)) bpred pc := by
  have hsame : (log ++ (pre ++ v :: post)).foldl (FrontState.advance cfg) (.reset cfg entryPc) =
      (log ++ T).foldl (FrontState.advance cfg) (.reset cfg entryPc) := by
    rw [hT, ← List.append_assoc, ← List.append_assoc, foldl_replace (hs.advance hsucc)]
  exact ⟨hsame ▸ hf.goes, fun hk => hsame ▸ hf.exact hk⟩

/-- A uop that leads elsewhere ends the part of the timeline that still holds. -/
theorem divert (hT : T = pre ++ u :: post) (hs : u.SameFetch v) :
    FrontEnd kinds cfg entryPc log (pre ++ [v]) mem bpred := by
  have hcut := h.cut (show T = (pre ++ [u]) ++ post by rw [hT]; simp)
  obtain ⟨hguided, hwords⟩ := hcut.guided_replaced rfl hs
  refine ⟨h.shape, h.committed, hwords, h.trained, hguided, ?_⟩
  have halong := hcut.along
  rw [← List.append_assoc] at halong ⊢
  rw [Along.concat_iff] at halong ⊢
  exact ⟨halong.1, hs.meets halong.2⟩

/-- Commit moves the oldest uop into the history, writes memory and trains the tables. -/
theorem commit (hT : T = u :: post) (hsound : u.Sound) (hissued : u.isIssued = true) :
    FrontEnd kinds cfg entryPc (log ++ [u]) post (Cpu.commitMem mem u)
        (if u.dec.isBranch then bpred.commit u.pc u.phtIndex u.bkind (u.nextPc != u.pc + 4) u.nextPc
          else bpred) := by
  have hlist : log ++ [u] ++ post = log ++ T := by rw [hT]; simp
  have hold : ∀ v ∈ log, v ∈ log ++ [u] := fun v hv => List.mem_append_left _ hv
  refine ⟨?_, ?_, ?_, ?_, fun a ha => h.guided a (by rw [hT]; exact List.mem_cons_of_mem _ ha), ?_⟩
  · split
    · simp only [BranchPredictor.commit]
      split <;> exact h.shape
    · exact h.shape
  · exact forall_mem_concat h.committed ⟨hsound, hissued⟩
  · intro a ha huntouched
    rw [hlist] at ha
    rw [Cpu.commitMem_loadU32 (huntouched.mono fun v hv => by simp [List.mem_singleton.mp hv])]
    exact h.words a ha (huntouched.mono hold)
  · have hkeep : TrainedBy (log ++ [u]) bpred.btb := fun i hi => by
      obtain ⟨v, hv, hspec⟩ := h.trained i hi
      exact ⟨v, hold v hv, hspec⟩
    split
    · rename_i hb
      simp only [BranchPredictor.commit]
      split
      · rename_i htaken
        intro i hi
        simp only [Btb.update] at hi ⊢
        split
        · exact ⟨u, by simp, hb, rfl, rfl, rfl, by simpa using htaken⟩
        · rename_i hne
          rw [if_neg hne] at hi
          exact hkeep i hi
      · exact hkeep
    · exact hkeep
  · rw [hlist]
    exact h.along

omit h in
/-- Training moves neither the history register nor the return stack. -/
theorem follows_commit (hf : Follows kinds cfg entryPc (log ++ T) bpred pc) (hT : T = u :: post) :
    Follows kinds cfg entryPc (log ++ [u] ++ post)
      (if u.dec.isBranch then bpred.commit u.pc u.phtIndex u.bkind (u.nextPc != u.pc + 4) u.nextPc
        else bpred) pc := by
  have hlist : log ++ [u] ++ post = log ++ T := by rw [hT]; simp
  rw [hlist]
  refine ⟨hf.goes, fun hk => (hf.exact hk).trans ?_⟩
  split
  · simp only [BranchPredictor.commit, BranchPredictor.ghr]
    split <;> rfl
  · rfl

/-- Recovery resumes the front end right behind the branch that was wrong. -/
theorem recover {br : Uop} (hT : T = pre ++ [br]) (hsound : br.Sound)
    (hissued : br.isIssued = true) : let restored := bpred.restore br.feSnap
    let bpred' := if br.btbHit && br.bkind == .conditional
      then restored.shiftHistory (br.nextPc != br.pc + 4) else restored
    FrontEnd kinds cfg entryPc log T mem bpred' ∧
      Follows kinds cfg entryPc (log ++ T) bpred' br.nextPc := by
  intro restored bpred'
  have halong := h.along
  rw [hT, ← List.append_assoc, Along.concat_iff] at halong
  have hmeets := halong.2
  generalize hst : (log ++ pre).foldl (FrontState.advance cfg) (.reset cfg entryPc) = st at hmeets
  have hkind : br.bkind = br.fetchKind := by rw [hsound.bkind, hsound.dec, Uop.fetchKind]
  have hshape : bpred'.gshare.ghrMask = bpred.gshare.ghrMask ∧
    bpred'.gshare.size = bpred.gshare.size ∧
      bpred'.btb = bpred.btb := by
    dsimp only [bpred']
    split <;> exact ⟨rfl, rfl, rfl⟩
  have hsucc : br.successor = br.nextPc := by simp [Uop.successor, hissued]
  have hend : (log ++ T).foldl (FrontState.advance cfg) (.reset cfg entryPc) =
      st.advance cfg br := by
    rw [hT, ← List.append_assoc, List.foldl_append, hst]
    rfl
  refine ⟨⟨⟨hshape.1.trans h.shape.1, hshape.2.1.trans h.shape.2⟩, h.committed, h.words,
    hshape.2.2.symm ▸ h.trained, h.guided, h.along⟩, ?_, fun hk => ?_⟩
  · rw [hend]
    exact hsucc
  have hfetch := hmeets.exact hk
  have hmasked : st.ghr &&& (Gshare.reset cfg).ghrMask = st.ghr := by
    rw [← hst]
    exact foldl_advance_masked cfg _ (by simp [FrontState.reset])
  have hrestored : restored.ghr = st.ghr ∧ restored.ras = br.rasAfter st.ras := by
    simp only [restored, BranchPredictor.restore, BranchPredictor.ghr, Gshare.setGhr,
      hfetch.snapshot, h.shape.1, hmasked, and_self]
  simp only [hend, FrontState.advance, hsucc, FrontState.mk.injEq, true_and]
  dsimp only [bpred']
  by_cases hc : br.btbHit = true ∧ br.fetchKind = .conditional
  · rw [if_pos hc, if_pos (by simp [hkind, hc])]
    refine ⟨?_, hrestored.2.symm⟩
    rw [← hrestored.1, ← h.shape.1]
    rfl
  · rw [if_neg hc, if_neg (by simpa [hkind] using hc)]
    exact ⟨hrestored.1.symm, hrestored.2.symm⟩

/-- What issue finds wrong was predicted as a branch, so it is one. -/
theorem offender_isBranch {br : Uop} (hmem : br ∈ T) (hsound : br.Sound)
    (hne : br.nextPc ≠ br.predicted) : br.dec.isBranch = true := by
  by_contra hb
  have hstraight := hsound.straight (.inl (by simpa using hb))
  rw [hstraight] at hne
  have hbranch := guided_isBranch (h.guided br hmem) hne.symm
  rw [← hsound.dec] at hbranch
  exact hb hbranch

end FrontEnd

end OooCpu
