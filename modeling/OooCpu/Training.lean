import OooCpu.Moves
import OooCpu.RunEnd
import OooCpu.TargetBuffer

/-! # What the predictor learns

The counters and the target buffer are taught by committed branches, once each
and in order, so what they hold is a matter of the path and not of the machine
that took it. A direct branch that the buffer knows is sent where it goes. -/
namespace OooCpu

/-- A committed instruction moves the front end, and a conditional branch the counter it was
predicted from. -/
def teachCounter (cfg : Config) (p : FrontState × Gshare) (u : Uop) : FrontState × Gshare :=
  (p.1.advance cfg u,
    if classify u.dec = .conditional
    then p.2.update (Gshare.indexOf (Gshare.reset cfg).size p.1.ghr u.pc) (u.nextPc != u.pc + 4)
      else p.2)

/-- The counters after a path. -/
def countersAfter (cfg : Config) (entryPc : Word) (path : List Uop) : ℕ → ℕ :=
  (path.foldl (teachCounter cfg) (.reset cfg entryPc, .reset cfg)).2.pht

/-- What a reference step installs in the target buffer. -/
def Ref.install (image : Memory) (entryPc : Word) (m : ℕ) : Option Btb.Update :=
  if (insnAt image entryPc m).isBranch = true ∧
    (effectAt image entryPc m).nextPc ≠ pcAt image entryPc m + 4
  then some ⟨pcAt image entryPc m, (effectAt image entryPc m).nextPc,
    classify (insnAt image entryPc m)⟩ else none

/-- What a committed uop installs in the target buffer. -/
def Uop.install (u : Uop) : Option Btb.Update :=
  if u.dec.isBranch = true ∧ u.nextPc ≠ u.pc + 4 then some ⟨u.pc, u.nextPc, u.bkind⟩ else none

/-- An entry of the buffer was installed. -/
theorem Btb.mem_updateAll {cfg : Config} {us : List Update} {i : ℕ}
    (h : (((reset cfg).updateAll us).entries i).valid = true) :
    ⟨(((reset cfg).updateAll us).entries i).tag, (((reset cfg).updateAll us).entries i).target,
      (((reset cfg).updateAll us).entries i).kind⟩ ∈ us := by
  have hall : ∀ (b : Btb) (seen : List Update), (∀ i, (b.entries i).valid = true →
      (⟨(b.entries i).tag, (b.entries i).target, (b.entries i).kind⟩ : Update) ∈ seen) →
      ∀ i, ((b.updateAll us).entries i).valid = true →
        (⟨((b.updateAll us).entries i).tag, ((b.updateAll us).entries i).target,
          ((b.updateAll us).entries i).kind⟩ : Update) ∈ seen ++ us := by
    clear h
    induction us with
    | nil =>
      intro b seen hseen i hi
      rw [List.append_nil]
      exact hseen i hi
    | cons u us ih =>
      intro b seen hseen i hi
      rw [show seen ++ u :: us = (seen ++ [u]) ++ us by simp]
      refine ih (b.apply u) (seen ++ [u]) (fun j hj => ?_) i hi
      simp only [apply, update] at hj ⊢
      split
      · exact List.mem_append_right _ List.mem_cons_self
      · rename_i hne
        rw [if_neg hne] at hj
        exact List.mem_append_left _ (hseen j hj)
  exact hall (reset cfg) [] (fun i hi => absurd hi (by simp [reset])) i h

namespace Cpu
variable {cfg : Config} {entryPc : Word} {s t : Cpu} {log log' : List Uop} {φ : Phase}

/-- What fetch recorded in each uop comes from an older state of it, or it was fetched just now. -/
private theorem origin_replaced {p : Prop} {pre post post' us vs : List Uop} {u v w : Uop}
    (hus : us = pre ++ u :: post)
    (hvs : vs = pre ++ v :: post') (hsub : post'.Sublist post) (huv : u.SameFetch v)
    (hw : w ∈ log ++ vs) : (∃ x ∈ log ++ us, x.SameFetch w) ∨ p := by
  subst hus hvs
  rw [List.mem_append, List.mem_append, List.mem_cons] at hw
  rcases hw with hw | hw | rfl | hw
  · exact .inl ⟨w, by simp [hw], .refl w⟩
  · exact .inl ⟨w, by simp [hw], .refl w⟩
  · exact .inl ⟨u, by simp, huv⟩
  · exact .inl ⟨w, by simp [hsub.subset hw], .refl w⟩

/-- A move keeps what fetch recorded in each uop, and only fetch adds one. -/
theorem Edit.origin (hc : 0 < s.cycle) (hm : Edit s log φ t log') :
    ∀ v ∈ log' ++ t.pending, (∃ u ∈ log ++ s.pending, u.SameFetch v) ∨ v = s.fetched ∧
      log' = log := by
  intro v hv
  cases hm with
  | kept _ _ honward =>
    cases honward with
    | still hw hqueues =>
      rw [pending_same hw hqueues] at hv
      exact .inl ⟨v, hv, .refl v⟩
    | @retired _ u holdest hqueues _ =>
      have hall : log ++ [u] ++ t.pending = log ++ s.pending := by
        rw [pending, pending, holdest, hqueues.1, hqueues.2]
        simp
      rw [hall] at hv
      exact .inl ⟨v, hv, .refl v⟩
    | decoded hw hf hd hkept =>
      obtain ⟨hp, hp'⟩ := pending_decoded hw hf hd
      exact origin_replaced hp hp' hkept ⟨rfl, rfl, rfl, rfl, rfl, rfl, rfl⟩ hv
    | fetched hw hd hf =>
      rw [pending_fetched hw hd hf, ← List.append_assoc, List.mem_append, List.mem_singleton] at hv
      cases hv with
      | inl hold => exact .inl ⟨v, hold, .refl v⟩
      | inr hnew => exact .inr ⟨hnew, rfl⟩
  | cut _ hsplit hqueues =>
    rw [pending, hqueues.1, hqueues.2, List.append_nil, List.append_nil, List.mem_append] at hv
    refine .inl ⟨v, ?_, .refl v⟩
    rw [pending, hsplit]
    cases hv with
    | inl hlog => exact List.mem_append_left _ hlog
    | inr hwin => simp [hwin]
  | landed _ hw hw' _ _ _ hqueues =>
    obtain ⟨hp, hp'⟩ := pending_replaced hw hw' hqueues
    exact origin_replaced hp hp' (List.Sublist.refl _) ⟨rfl, rfl, rfl, rfl, rfl, rfl, rfl⟩ hv
  | turnedAway _ _ hw hqueues =>
    rw [pending_same hw hqueues] at hv
    exact .inl ⟨v, hv, .refl v⟩
  | launched hw hw' _ _ ha hqueues =>
    obtain ⟨hp, hp'⟩ := pending_replaced hw hw' hqueues
    exact origin_replaced hp hp' (List.Sublist.refl _)
      (attempt_issues hc ha).1.toAdvances.sameFetch hv
  | dispatched _ hw hw' _ _ hqueues =>
    obtain ⟨hp, hp'⟩ := pending_replaced hw hw' hqueues
    exact origin_replaced hp hp' (List.Sublist.refl _) ⟨rfl, rfl, rfl, rfl, rfl, rfl, rfl⟩ hv
  | renamed _ _ hw hqueues =>
    obtain ⟨hp, hp'⟩ := pending_renamed hw hqueues
    exact origin_replaced hp hp' (List.Sublist.refl _) ⟨rfl, rfl, rfl, rfl, rfl, rfl, rfl⟩ hv

theorem predict_pht (b : BranchPredictor) (pc : Word) :
    (b.predict pc).2.gshare.pht = b.gshare.pht := by
  simp only [BranchPredictor.predict]
  split
  · rfl
  split
  · rfl
  · rfl
  · split <;> rfl
  · rfl

/-- The tables change at retirement only. -/
theorem Move.tables (hm : Move s log φ t log') :
    (∃ (e : RobEntry) (rob : Rob), s.rob.popHeadIfComplete = some (e, rob) ∧
      log' = log ++ [s.inflight s.rob.head] ∧ t = s.retire rob (s.inflight s.rob.head)) ∨
    log' = log ∧ t.bpred.btb = s.bpred.btb ∧ t.bpred.gshare.pht = s.bpred.gshare.pht := by
  cases hm with
  | retired hp => exact .inl ⟨_, _, hp, rfl, rfl⟩
  | emptied => exact .inr ⟨rfl, rfl, rfl⟩
  | landed hq => exact .inr ⟨rfl, rfl, rfl⟩
  | cleared booked => exact .inr ⟨rfl, rfl, rfl⟩
  | executed => exact .inr ⟨rfl, rfl, rfl⟩
  | turnedAway he hready ha =>
    rcases attempt_turnedAway ha with rfl | ⟨_, _, _, _, rfl⟩ <;> exact .inr ⟨rfl, rfl, rfl⟩
  | launched he hready ha =>
    obtain ⟨_, _, _, _, _, rfl, -, -⟩ := attempt_frame ha
    exact .inr ⟨rfl, rfl, rfl⟩
  | charged stalls => exact .inr ⟨rfl, rfl, rfl⟩
  | recovered hmem hi hb =>
    refine .inr ⟨rfl, ?_, ?_⟩
    · simp only [recover]
      split <;> rfl
    · simp only [recover]
      split <;> rfl
  | dispatched =>
    have hstep := dispatchOne_step s
    generalize s.dispatchOne.state = t at hstep ⊢
    cases hstep <;> exact .inr ⟨rfl, rfl, rfl⟩
  | renamed hb =>
    have hstep := renameOne_step s
    generalize s.renameOne.state = t at hstep ⊢
    cases hstep <;> exact .inr ⟨rfl, rfl, rfl⟩
  | decoded =>
    have hstep := decodeOne_step s
    generalize s.decodeOne.state = t at hstep ⊢
    cases hstep <;> exact .inr ⟨rfl, rfl, rfl⟩
  | fetched hst =>
    have hstep := fetchOne_step s
    generalize s.fetchOne.state = t at hstep ⊢
    cases hstep with
    | idle => exact .inr ⟨rfl, rfl, rfl⟩
    | fetched obs hroom =>
      exact .inr ⟨rfl, (s.bpred.predict_spec s.pc).2.2.2.2.1, predict_pht s.bpred s.pc⟩

/-- What a hit promises: a taken branch has committed there, and its target is the one predicted. -/
structure Known (log : List Uop) (u v : Uop) : Prop where
  committed : v ∈ log
  pc : v.pc = u.pc
  branch : v.dec.isBranch = true
  taken : v.nextPc ≠ v.pc + 4
  target : u.predTaken = true → v.bkind ≠ .return → u.predTarget = v.nextPc
  always : v.bkind ≠ .conditional → u.predTaken = true

/-- A committed conditional branch moves the counter it carries the index of. -/
def trainCounter (g : Gshare) (u : Uop) : Gshare :=
  if u.dec.isBranch = true ∧ u.bkind = .conditional then g.update u.phtIndex (u.nextPc != u.pc + 4)
    else g

/-- The tables are those the history teaches, and every hit goes back to it. -/
structure Taught (cfg : Config) (s : Cpu) (log : List Uop) : Prop where
  btb : s.bpred.btb = (Btb.reset cfg).updateAll (log.filterMap Uop.install)
  pht : s.bpred.gshare.pht = (log.foldl trainCounter (.reset cfg)).pht
  known : ∀ u ∈ log ++ s.pending, u.btbHit = true → ∃ v, Known log u v

theorem Known.mono {u v w : Uop} (h : Known log u v) (hsame : u.SameFetch w)
    (hsub : ∀ x ∈ log, x ∈ log') : Known log' w v where
  committed := hsub v h.committed
  pc := h.pc.trans hsame.pc.symm
  branch := h.branch
  taken := h.taken
  target ht hk := by rw [hsame.predTarget, h.target (hsame.predTaken ▸ ht) hk]
  always hk := by rw [hsame.predTaken, h.always hk]

/-- Where the buffer hits, it redirects to its target unless a return or an untaken conditional
branch is there. -/
theorem predict_known {b : BranchPredictor} {pc : Word} (hv : (b.btb.lookup pc).valid = true) :
    ((b.predict pc).1.taken = true → (b.btb.lookup pc).kind ≠ .return →
      (b.predict pc).1.target = (b.btb.lookup pc).target) ∧
    ((b.btb.lookup pc).kind ≠ .conditional → (b.predict pc).1.taken = true) := by
  simp only [BranchPredictor.predict, hv]
  cases hk : (b.btb.lookup pc).kind with
  | none => simp
  | conditional => cases ht : b.gshare.predictAt (b.gshare.index pc) <;> simp
  | jump => simp
  | call => simp
  | «return» => cases he : b.ras.isEmpty <;> simp

theorem Taught.reset (mem : Memory) : Taught cfg (Cpu.reset mem cfg entryPc) [] where
  btb := rfl
  pht := rfl
  known := by
    have hnone : (Cpu.reset mem cfg entryPc).pending = [] := rfl
    rw [hnone]
    exact fun u hu => absurd hu List.not_mem_nil

/-- What fetch takes from the buffer was committed. -/
theorem Taught.fetched (h : Taught cfg s log) (hhit : s.fetched.btbHit = true) :
    ∃ v, Known log s.fetched v := by
  have hv : (s.bpred.btb.lookup s.pc).valid = true := (s.bpred.predict_spec s.pc).1 ▸ hhit
  obtain ⟨htarget, halways⟩ := predict_known hv
  obtain ⟨i, hvalid, htag, hat, hkind⟩ := Btb.lookup_valid hv
  rw [h.btb] at hvalid
  have hmem := Btb.mem_updateAll hvalid
  rw [← h.btb, htag, ← hat, ← hkind] at hmem
  obtain ⟨v, hlog, hinstall⟩ := List.mem_filterMap.mp hmem
  rw [Uop.install] at hinstall
  split at hinstall
  · rename_i hc
    obtain ⟨hpc, hnext, hk⟩ := Btb.Update.mk.inj (Option.some.inj hinstall)
    rw [← hnext, ← hk] at htarget
    rw [← hk] at halways
    exact ⟨v, hlog, hpc, hc.1, hc.2, htarget, halways⟩
  · contradiction

/-- Every move keeps it. -/
theorem Taught.move (hcoh : s.Coherent cfg) (hc : 0 < s.cycle) (hm : Move s log φ t log')
    (h : Taught cfg s log) : Taught cfg t log' := by
  have hsub : ∀ u ∈ log, u ∈ log' := by
    rcases hm.tables with ⟨e, rob, -, rfl, -⟩ | ⟨rfl, -, -⟩
    · exact fun u hu => List.mem_append_left _ hu
    · exact fun u hu => hu
  have hknown : ∀ u ∈ log' ++ t.pending, u.btbHit = true → ∃ v, Known log' u v := by
    intro v hv hhit
    rcases (hm.edit hcoh hc).1.origin hc v hv with ⟨u, hu, hsame⟩ | ⟨rfl, rfl⟩
    · obtain ⟨w, hw⟩ := h.known u hu (hsame.btbHit ▸ hhit)
      exact ⟨w, hw.mono hsame hsub⟩
    · exact h.fetched hhit
  rcases hm.tables with ⟨e, rob, -, rfl, rfl⟩ | ⟨rfl, hbtb, hpht⟩
  · generalize s.inflight s.rob.head = u at *
    refine ⟨?_, ?_, hknown⟩
    · rw [List.filterMap_append, Btb.updateAll, List.foldl_append]
      change (if u.dec.isBranch
        then s.bpred.commit u.pc u.phtIndex u.bkind (u.nextPc != u.pc + 4) u.nextPc
          else s.bpred).btb =
        Btb.updateAll ((Btb.reset cfg).updateAll (log.filterMap Uop.install)) _
      rw [← h.btb, List.filterMap_cons, List.filterMap_nil, Uop.install]
      by_cases hb : u.dec.isBranch = true
      · by_cases ht : u.nextPc = u.pc + 4
        · rw [if_pos hb, if_neg (fun hh => hh.2 ht)]
          simp [BranchPredictor.commit, ht, Btb.updateAll]
        · have hgoes : (u.nextPc != u.pc + 4) = true := bne_iff_ne.mpr ht
          rw [if_pos hb, if_pos ⟨hb, ht⟩]
          simp only [BranchPredictor.commit, hgoes, if_true, Btb.updateAll, Btb.apply,
            List.foldl_cons, List.foldl_nil]
      · rw [if_neg hb, if_neg (fun hh => hb hh.1)]
        rfl
    · rw [List.foldl_append, List.foldl_cons, List.foldl_nil, trainCounter]
      change (if u.dec.isBranch
        then s.bpred.commit u.pc u.phtIndex u.bkind (u.nextPc != u.pc + 4) u.nextPc
        else s.bpred).gshare.pht = _
      by_cases hb : u.dec.isBranch = true
      · by_cases hk : u.bkind = .conditional
        · rw [if_pos hb, if_pos ⟨hb, hk⟩]
          simp only [BranchPredictor.commit, hk, if_true, Gshare.update, h.pht]
        · rw [if_pos hb, if_neg (fun hh => hk hh.2)]
          simp only [BranchPredictor.commit, hk, if_false, h.pht]
      · rw [if_neg hb, if_neg (fun hh => hb hh.1)]
        exact h.pht
  · exact ⟨hbtb.trans h.btb, hpht.trans h.pht, hknown⟩

theorem taught_ticked (mem : Memory) (h : cfg.Admissible) (entryPc : Word) (k : ℕ)
    (hb : (ticked mem cfg entryPc k).stats.renamed < 4294967296)
    (hself : NoSelfMod (committed mem cfg entryPc k)) :
    Taught cfg (ticked mem cfg entryPc k) (committed mem cfg entryPc k) :=
  run_preserves (P := fun _ t log => Taught cfg t log) (fun hcoh hc hm ht => ht.move hcoh hc hm)
    (fun _ ht => ht)
    (fun _ ht => ⟨ht.btb, ht.pht, ht.known⟩) mem h (.reset mem) k hb hself

theorem trainCounter_le {log : List Uop} {g : Gshare} (h : ∀ i, g.pht i ≤ 3) (i : ℕ) :
    (log.foldl trainCounter g).pht i ≤ 3 := by
  induction log generalizing g with
  | nil => exact h i
  | cons u log ih =>
    refine ih fun j => ?_
    rw [trainCounter]
    split
    · have hu := h u.phtIndex
      have hj := h j
      simp only [Gshare.update]
      split
      · split <;> split <;> omega
      · exact hj
    · exact h j

/-- Counters taught by the carried indices are those taught by the history of the path. -/
theorem teachCounter_eq {st : FrontState} {g g' : Gshare}
    (hpath : Along (FrontState.advance cfg) (FrontState.Fetches cfg) st log)
    (hsound : ∀ u ∈ log, u.Sound) (hg : g.pht = g'.pht) :
    (log.foldl trainCounter g).pht = (log.foldl (teachCounter cfg) (st, g')).2.pht := by
  induction log generalizing st g g' with
  | nil => exact hg
  | cons u log ih =>
    have hu := hsound u List.mem_cons_self
    refine ih hpath.2 (fun v hv => hsound v (List.mem_cons_of_mem _ hv)) ?_
    have hbranch : classify u.dec = .conditional → u.dec.isBranch = true := fun hk => by
      rw [isBranch_iff_classify, hk]
      exact BranchKind.noConfusion
    rw [trainCounter]
    dsimp only
    by_cases hk : classify u.dec = .conditional
    · rw [if_pos ⟨hbranch hk, hu.bkind.trans hk⟩, if_pos hk, hpath.1.index]
      simp only [Gshare.update, hg]
    · rw [if_neg (fun hh => hk (hu.bkind ▸ hh.2)), if_neg hk]
      exact hg

variable {image : Memory}

/-- A tame run stores into nothing it commits. -/
theorem noSelfMod_of_ran {n : ℕ} (hran : Along (fun m _ => m + 1) (Ran image entryPc) 0 log)
    (htame : Ref.Tame image entryPc n)
    (hle : log.length ≤ n) : NoSelfMod log := by
  have hat {v : Uop} (hv : v ∈ log) : ∃ i < n, Ran image entryPc i v := by
    obtain ⟨xs, ys, rfl⟩ := List.append_of_mem hv
    have hone := hran.at_split
    rw [foldl_succ, Nat.zero_add] at hone
    refine ⟨xs.length, ?_, hone⟩
    rw [List.length_append, List.length_cons] at hle
    omega
  intro v hv u hu hs a ha
  obtain ⟨i, hi, hru⟩ := hat hu
  obtain ⟨j, hj, hrv⟩ := hat hv
  rw [hrv.pc] at ha
  rw [(hru.store hs).1, hru.dec]
  exact htame.unmodified i hi (hru.dec ▸ hs) j hj a ha

/-- What the run of the reference installs, in order, is what the committed uops install. -/
theorem install_eq (hran : Along (fun m _ => m + 1) (Ran image entryPc) 0 log)
    (hsound : ∀ u ∈ log, u.Sound) :
    log.filterMap Uop.install = (List.range log.length).filterMap (Ref.install image entryPc) := by
  have hone (m : ℕ) (u : Uop) (hu : u.Sound ∧ Ran image entryPc m u) :
      u.install = Ref.install image entryPc m := by
    rw [Uop.install, Ref.install, hu.1.bkind, hu.2.dec, hu.2.pc, hu.2.nextPc]
  have hboth : Along (fun m _ => m + 1) (fun m u => u.Sound ∧ Ran image entryPc m u) 0 log :=
    hran.mono fun m u hu hr => ⟨hsound u hu, hr⟩
  have hmap := congrArg (List.filterMap id) (hboth.map_eq hone)
  rw [List.filterMap_map, List.filterMap_map, Function.id_comp, Function.id_comp] at hmap
  rw [hmap, List.range_eq_range']

/-- The target buffer holds what the reference's taken branches install, and the counters what the
committed branches teach; neither depends on what was fetched in vain. -/
theorem learned_ticked (image : Memory) (cfg : Config) (entryPc : Word) (k : ℕ) (h : cfg.Admissible)
    (hb : (ticked image cfg entryPc k).stats.renamed < 4294967296)
    (htame : Ref.Tame image entryPc (ticked image cfg entryPc k).stats.retired) :
    (ticked image cfg entryPc k).bpred.btb = (Btb.reset cfg).updateAll
      ((List.range (ticked image cfg entryPc k).stats.retired).filterMap
        (Ref.install image entryPc)) ∧
    (ticked image cfg entryPc k).bpred.gshare.pht =
      countersAfter cfg entryPc (committed image cfg entryPc k) ∧
        ∀ i, (ticked image cfg entryPc k).bpred.gshare.pht i ≤ 3 := by
  have hlen : (committed image cfg entryPc k).length = (ticked image cfg entryPc k).stats.retired :=
    committed_length _ _
  have htrack := (history_tracked h k (htame.spaced cfg.reach) hlen.le hb).2
  have hran : Along (fun m _ => m + 1) (Ran image entryPc) 0 (committed image cfg entryPc k) :=
    htrack.ran
  have hself := noSelfMod_of_ran hran htame hlen.le
  have htaught := taught_ticked image h entryPc k hb hself
  have hfront := (steady_ticked h image k hself hb).led.frontEnd
  have hsound : ∀ u ∈ committed image cfg entryPc k, u.Sound :=
    fun u hu => (hfront.committed u hu).1
  refine ⟨?_, ?_, fun i => ?_⟩
  · rw [htaught.btb, install_eq hran hsound, hlen]
  · rw [htaught.pht, countersAfter]
    have hpath := (Along.append_iff.mp hfront.along).1.mono fun _ _ _ hmeets => hmeets.exact trivial
    exact teachCounter_eq hpath hsound rfl
  · rw [htaught.pht]
    exact trainCounter_le (fun _ => (show 1 ≤ 3 by decide)) i

theorem learned_ticked_skipping :
    (ticked skipping {} 0 12).bpred.btb = (Btb.reset {}).updateAll
      ((List.range (ticked skipping {} 0 12).stats.retired).filterMap (Ref.install skipping 0)) ∧
    (ticked skipping {} 0 12).bpred.gshare.pht = countersAfter {} 0 (committed skipping {} 0 12) ∧
    ∀ i, (ticked skipping {} 0 12).bpred.gshare.pht i ≤ 3 :=
  learned_ticked skipping {} 0 12 admissible_default (by decide +kernel) (by decide +kernel)

/-- An issued direct branch goes to its target or, if it is conditional, to the next instruction. -/
def Went (u : Uop) : Prop := u.isIssued = true → u.dec.isBranch = true → u.dec.op ≠ .jalr →
  u.nextPc = u.pc + u.dec.imm ∨ u.dec.op ≠ .jal ∧ u.nextPc = u.pc + 4

theorem executeUop_went {u : Uop} (hd : u.dec.Shaped) (hb : u.dec.isBranch = true)
    (ho : u.dec.op ≠ .jalr)
    (hnext : u.nextPc = u.pc + 4) : (executeUop u).nextPc = u.pc + u.dec.imm ∨
      u.dec.op ≠ .jal ∧ (executeUop u).nextPc = u.pc + 4 := by
  have hkind := hd.branch_iff
  rw [hb] at hkind
  dsimp only [executeUop]
  cases hop : u.dec.op
  case beq | bne | blt | bge | bltu | bgeu =>
    dsimp only
    split
    · exact .inl rfl
    · exact .inr ⟨Op.noConfusion, hnext⟩
  case jal => exact .inl rfl
  case jalr => exact absurd hop ho
  all_goals rw [hop] at hkind; contradiction

/-- A launch sends a branch where it goes. -/
theorem launched_went {s' : Cpu} {e : IssueQueue.Entry} {v : Uop} {latency unit : ℕ} {f : Fu}
    (hc : 0 < s.cycle)
    (hsound : (s.inflight e.rob).Sound) (hwait : (s.inflight e.rob).isIssued = false)
    (ha : s.attempt e = .launched s' v latency f unit) : Went (stamped s' v latency) := by
  intro _ hb ho
  have hadv := (attempt_issues hc ha).1.toAdvances
  rw [hadv.dec] at hb ho
  rw [hadv.dec, hadv.pc]
  have hnext := hsound.straight (.inr hwait)
  have hkind := hsound.shaped.branch_iff
  rw [hb] at hkind
  have hl : (s.inflight e.rob).dec.isLoad = false := by
    rw [hsound.shaped.load_iff]
    revert hkind
    cases (s.inflight e.rob).dec.op <;> decide
  have hnone : (s.inflight e.rob).trap = .none := by
    rw [hsound.trap, if_neg]
    intro hinvalid
    rw [hinvalid] at hkind
    contradiction
  obtain ⟨-, -, booked, -, hv, -⟩ := attempt_other ha hl
  rw [if_pos hnone] at hv
  subst hv
  exact executeUop_went (u := s.withOperands (s.inflight e.rob)) hsound.shaped hb ho hnext

theorem Went.edit (hcoh : s.Coherent cfg) (hc : 0 < s.cycle) (hm : Move s log φ t log')
    (h : ∀ u ∈ log ++ s.window, Went u) : ∀ u ∈ log' ++ t.window, Went u := by
  have hwin : ∀ u ∈ s.window, Went u := fun u hu => h u (List.mem_append_right _ hu)
  have hlog : ∀ u ∈ log, Went u := fun u hu => h u (List.mem_append_left _ hu)
  have hboth (hnew : ∀ u ∈ t.window, Went u) : ∀ u ∈ log ++ t.window, Went u := fun u hu =>
    (List.mem_append.mp hu).elim (hlog u) (hnew u)
  have hedit := (hm.edit hcoh hc).1
  cases hedit with
  | kept hunits hwhole honward => rwa [hwhole]
  | cut hunits hsplit hqueues =>
    refine hboth fun u hu => hwin u ?_
    rw [hsplit]
    exact List.mem_append_left _ hu
  | @landed _ pre post u hunits hplace hplace' =>
    refine hboth ?_
    rw [hplace']
    exact forall_mem_replace hplace hwin (hwin u (by simp [hplace]))
  | turnedAway hseated hrefused hsame hqueues =>
    refine hboth ?_
    rw [hsame]
    exact hwin
  | launched hplace hplace' hseated hready haccepted hqueues =>
    refine hboth ?_
    rw [hplace']
    refine forall_mem_replace hplace hwin ?_
    obtain ⟨hmem, hwait, -⟩ := hcoh.candidate hseated
    simp only [Uop.waiting, Bool.and_eq_true, Bool.not_eq_true'] at hwait
    exact launched_went hc (hcoh.sound _ hmem) hwait.2 haccepted
  | @dispatched _ pre post u idx hunits hplace hplace' holder hyounger hqueues =>
    refine hboth ?_
    rw [hplace']
    exact forall_mem_replace hplace hwin (hwin u (by simp [hplace]))
  | renamed hunits hblank hplace' hqueues =>
    refine hboth ?_
    rw [hplace']
    refine forall_mem_concat hwin fun hi => ?_
    have hissued := hblank.issue
    exact absurd (hi.symm.trans hissued) (by decide)

/-- Every issued direct branch of a run, on whatever path, has gone to its target or on. -/
theorem went_ticked (mem : Memory) (h : cfg.Admissible) (entryPc : Word) (k : ℕ)
    (hb : (ticked mem cfg entryPc k).stats.renamed < 4294967296)
    (hself : NoSelfMod (committed mem cfg entryPc k)) :
    ∀ u ∈ committed mem cfg entryPc k ++ (ticked mem cfg entryPc k).window, Went u :=
  run_preserves (P := fun _ t log => ∀ u ∈ log ++ t.window, Went u)
    (fun hcoh hc hm ht => Went.edit hcoh hc hm ht)
    (fun _ ht => ht) (fun _ ht => ht) mem h (fun u hu => absurd hu (by
      have hnone : (Cpu.reset mem cfg entryPc).window = [] := rfl
      simp [hnone])) k hb hself

/-- The buffer sends a direct branch nowhere but to its target, and a jump always there. -/
structure Aimed (u : Uop) : Prop where
  target : u.btbHit = true → u.dec.op ≠ .jalr → u.predTaken = true → u.predTarget = u.pc + u.dec.imm
  jump : u.btbHit = true → u.dec.op = .jal → u.predTaken = true

/-- A direct branch that the target buffer knew when it was fetched, on the right path or a
wrong one, was aimed at its target: it can only be mispredicted in its direction, and a jump not
at all. -/
theorem aimed_ticked (mem : Memory) (cfg : Config) (entryPc : Word) (k : ℕ) (h : cfg.Admissible)
    (hb : (ticked mem cfg entryPc k).stats.renamed < 4294967296)
    (hself : NoSelfMod (committed mem cfg entryPc k)) :
    ∀ u ∈ committed mem cfg entryPc k ++ (ticked mem cfg entryPc k).window, Aimed u ∧
      (u.isIssued = true → u.btbHit = true → u.dec.op ≠ .jalr → u.predicted ≠ u.nextPc →
        u.dec.op ≠ .jal ∧ (u.predTaken = true ↔ u.nextPc = u.pc + 4)) := by
  have htaught := taught_ticked mem h entryPc k hb hself
  have hsteady := steady_ticked h mem k hself hb
  have hwent := went_ticked mem h entryPc k hb hself
  have hfront := hsteady.led.frontEnd
  have hcoh : (ticked mem cfg entryPc k).Coherent cfg := hsteady.coherent
  generalize committed mem cfg entryPc k = log at *
  generalize ticked mem cfg entryPc k = s at *
  have hpending : ∀ u ∈ log ++ s.window, u ∈ log ++ s.pending := fun u hu => by
    rcases List.mem_append.mp hu with hu | hu
    · exact List.mem_append_left _ hu
    · exact List.mem_append_right _ (by simp [pending, hu])
  intro u hu
  have hsound : u.Sound := by
    rcases List.mem_append.mp hu with hu | hu
    · exact (hfront.committed u hu).1
    · exact hcoh.sound u hu
  -- the branch that taught the buffer has the same word, so it is the same branch
  have haim : u.btbHit = true → u.dec.op ≠ .jalr → u.dec.isBranch = true ∧
      (u.predTaken = true → u.predTarget = u.pc + u.dec.imm) ∧
        (u.dec.op = .jal → u.predTaken = true) := by
    intro hhit ho
    obtain ⟨v, hv⟩ := htaught.known u (hpending u hu) hhit
    obtain ⟨hvsound, hvissued⟩ := hfront.committed v hv.committed
    have huntouched := hself v hv.committed
    have hraw : u.raw = v.raw := by
      rw [hfront.words u (hpending u hu) (hv.pc ▸ huntouched),
        hfront.words v (List.mem_append_left _ hv.committed) huntouched, hv.pc]
    have hdec : v.dec = u.dec := by rw [hvsound.dec, hsound.dec, hraw]
    have hbranch := hv.branch
    rw [hdec] at hbranch
    have hkind : v.bkind ≠ .return := by
      rw [hvsound.bkind, hdec, classify]
      split_ifs <;> exact BranchKind.noConfusion
    have hnext : v.nextPc = u.pc + u.dec.imm := by
      rcases hwent v (List.mem_append_left _ hv.committed) hvissued hv.branch
        (hdec ▸ ho) with hgo | ⟨-, hon⟩
      · rw [hgo, hv.pc, hdec]
      · exact absurd hon hv.taken
    refine ⟨hbranch, fun ht => (hv.target ht hkind).trans hnext, fun hj => hv.always ?_⟩
    rw [hvsound.bkind, hdec, classify, hbranch, hj]
    split_ifs <;> first | contradiction | exact BranchKind.noConfusion
  refine ⟨⟨fun hhit ho => (haim hhit ho).2.1,
    fun hhit hj => (haim hhit (by rw [hj]; exact Op.noConfusion)).2.2 hj⟩,
    fun hi hhit ho hwrong => ?_⟩
  obtain ⟨hbranch, htarget, hjump⟩ := haim hhit ho
  rw [Uop.predicted] at hwrong
  rcases hwent u hu hi hbranch ho with hgo | ⟨hjal, hon⟩
  · have hnot : u.predTaken ≠ true := fun ht => hwrong (by rw [if_pos ht, htarget ht, hgo])
    rw [if_neg hnot] at hwrong
    exact ⟨fun hj => hnot (hjump hj), fun ht => absurd ht hnot, fun heq => absurd heq.symm hwrong⟩
  · refine ⟨hjal, fun _ => hon, fun _ => ?_⟩
    by_contra hnot
    exact hwrong (by rw [if_neg hnot, hon])

/-- `here: jal x0, here` -/
def spinning : Memory := Memory.empty.storeU32 0 0x0000006F

/-- The jump that follows the first one retired was found in the target buffer. -/
theorem aimed_ticked_spinning : (ticked spinning {} 0 12).window.any Uop.btbHit = true ∧
    ∀ u ∈ committed spinning {} 0 12 ++ (ticked spinning {} 0 12).window, Aimed u ∧
      (u.isIssued = true → u.btbHit = true → u.dec.op ≠ .jalr → u.predicted ≠ u.nextPc →
        u.dec.op ≠ .jal ∧ (u.predTaken = true ↔ u.nextPc = u.pc + 4)) :=
  ⟨by decide +kernel,
    aimed_ticked spinning {} 0 12 admissible_default (by decide +kernel) (by decide +kernel)⟩

end Cpu

end OooCpu
