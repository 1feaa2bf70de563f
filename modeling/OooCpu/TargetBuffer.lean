import OooCpu.BranchPredictor
import OooCpu.Recency

/-! # What the target buffer remembers

Each set keeps the branches of that set that were installed last, one entry for
each, as long as the install counter has not run through all its values. -/
namespace OooCpu.Btb
variable {b : Btb} {pc : Word} {w : ℕ}

/-- A call of `update`. -/
structure Update where
  pc : Word
  target : Word
  kind : BranchKind
  deriving DecidableEq

def apply (b : Btb) (u : Update) : Btb := b.update u.pc u.target u.kind

def updateAll (b : Btb) (us : List Update) : Btb := us.foldl apply b

/-- Way `w` of the set that `pc` maps to. -/
def way (b : Btb) (pc : Word) (w : ℕ) : Entry := b.entries (b.slot pc w)

/-- The entry in way `w` is for `pc`. -/
def Matches (b : Btb) (pc : Word) (w : ℕ) : Prop :=
  (b.way pc w).valid = true ∧ (b.way pc w).tag = pc

/-- The sets are numbered without overflow. -/
structure Shaped (b : Btb) : Prop where
  sets_pos : 0 < b.sets
  ways_pos : 0 < b.ways
  size_lt : b.sets * b.ways < 2^32

namespace Shaped
variable (h : b.Shaped)
include h

theorem slot_eq (pc : Word) (hw : w < b.ways) : b.slot pc w = b.setOf pc * b.ways + w := by
  have hset : b.setOf pc < b.sets := Nat.mod_lt _ h.sets_pos
  have hend : (b.setOf pc + 1) * b.ways ≤ b.sets * b.ways := Nat.mul_le_mul_right _ hset
  have hsize := h.size_lt
  rw [Nat.succ_mul] at hend
  have hbase : u32 (b.setOf pc * b.ways) = b.setOf pc * b.ways := u32_of_lt (by omega)
  rw [slot, hbase, u32_of_lt (by omega)]

/-- Different sets, or different ways of one set, are different slots. -/
theorem slot_eq_iff (pc pc' : Word) {w' : ℕ} (hw : w < b.ways) (hw' : w' < b.ways) :
    b.slot pc w = b.slot pc' w' ↔ b.setOf pc = b.setOf pc' ∧ w = w' := by
  rw [h.slot_eq pc hw, h.slot_eq pc' hw']
  constructor
  · intro heq
    have hmod : (b.setOf pc * b.ways + w) % b.ways = (b.setOf pc' * b.ways + w') % b.ways := by
      rw [heq]
    rw [Nat.mul_add_mod_of_lt hw, Nat.mul_add_mod_of_lt hw'] at hmod
    subst hmod
    exact ⟨Nat.eq_of_mul_eq_mul_right h.ways_pos (Nat.add_right_cancel heq), rfl⟩
  · rintro ⟨hset, rfl⟩
    rw [hset]

end Shaped

/-- A way that ends the scan: it matches, or nothing is in it. -/
def Stops (b : Btb) (pc : Word) (w : ℕ) : Prop := b.Matches pc w ∨ (b.way pc w).valid = false

instance (b : Btb) (pc : Word) (w : ℕ) : Decidable (b.Stops pc w) :=
  inferInstanceAs (Decidable ((_ ∧ _) ∨ _))

theorem victim_cons (b : Btb) (pc : Word) (w : ℕ) (ws : List ℕ) (best oldest : ℕ) :
    b.victim pc (w :: ws) best oldest = if b.Stops pc w then w
      else if (b.way pc w).used < oldest then b.victim pc ws w (b.way pc w).used
        else b.victim pc ws best oldest := by
  by_cases hvalid : (b.entries (b.slot pc w)).valid = true
  · by_cases htag : (b.entries (b.slot pc w)).tag = pc
    · simp [victim, Stops, Matches, way, hvalid, htag]
    · have hstop : ¬b.Stops pc w := by simp [Stops, Matches, way, hvalid, htag]
      rw [if_neg hstop, victim, if_neg (by simp [htag]), if_neg (by simp [hvalid])]
      rfl
  · simp [victim, Stops, Matches, way, hvalid]

/-- What the scan settles on: the first way that stops it, or else a way that was installed
first. -/
theorem victim_cases (b : Btb) (pc : Word) (ws : List ℕ) (best oldest : ℕ) {r : ℕ}
    (hr : b.victim pc ws best oldest = r) :
    (b.Stops pc r ∧ ∃ pre post, ws = pre ++ r :: post ∧ ∀ w ∈ pre, ¬b.Stops pc w) ∨
    (∀ w ∈ ws, ¬b.Stops pc w) ∧ (r = best ∧ (∀ w ∈ ws, oldest ≤ (b.way pc w).used) ∨
      r ∈ ws ∧ (b.way pc r).used < oldest ∧ ∀ w ∈ ws, (b.way pc r).used ≤ (b.way pc w).used) := by
  induction ws generalizing best oldest with
  | nil => exact .inr ⟨by simp, .inl ⟨hr.symm, by simp⟩⟩
  | cons w ws ih =>
    rw [victim_cons] at hr
    by_cases hstop : b.Stops pc w
    · rw [if_pos hstop] at hr
      subst hr
      exact .inl ⟨hstop, [], ws, rfl, by simp⟩
    rw [if_neg hstop] at hr
    have hfirst {best' oldest' : ℕ} (h : b.victim pc ws best' oldest' = r)
        (hrest : (∀ v ∈ ws, ¬b.Stops pc v) → (r = best' ∧ (∀ v ∈ ws, oldest' ≤ (b.way pc v).used) ∨
          r ∈ ws ∧ (b.way pc r).used < oldest' ∧ ∀ v ∈ ws, (b.way pc r).used ≤ (b.way pc v).used) →
          r = best ∧ (∀ v ∈ w :: ws, oldest ≤ (b.way pc v).used) ∨
            r ∈ w :: ws ∧ (b.way pc r).used < oldest ∧
              ∀ v ∈ w :: ws, (b.way pc r).used ≤ (b.way pc v).used) :
        (b.Stops pc r ∧ ∃ pre post, w :: ws = pre ++ r :: post ∧ ∀ v ∈ pre, ¬b.Stops pc v) ∨
        (∀ v ∈ w :: ws, ¬b.Stops pc v) ∧ (r = best ∧ (∀ v ∈ w :: ws, oldest ≤ (b.way pc v).used) ∨
          r ∈ w :: ws ∧ (b.way pc r).used < oldest ∧
            ∀ v ∈ w :: ws, (b.way pc r).used ≤ (b.way pc v).used) := by
      rcases ih best' oldest' h with ⟨hr, pre, post, hws, hpre⟩ | ⟨hall, hold⟩
      · exact .inl ⟨hr, w :: pre, post, by rw [hws]; rfl, List.forall_mem_cons.mpr ⟨hstop, hpre⟩⟩
      · exact .inr ⟨List.forall_mem_cons.mpr ⟨hstop, hall⟩, hrest hall hold⟩
    split at hr
    · rename_i hused
      refine hfirst hr fun _ hold => .inr ?_
      rcases hold with ⟨rfl, hle⟩ | ⟨hmem, hlt, hle⟩
      · exact ⟨List.mem_cons_self, hused, List.forall_mem_cons.mpr ⟨le_rfl, hle⟩⟩
      · exact ⟨List.mem_cons_of_mem _ hmem, hlt.trans hused, List.forall_mem_cons.mpr ⟨hlt.le, hle⟩⟩
    · rename_i hused
      apply hfirst hr
      intro _ hold
      rcases hold with ⟨rfl, hle⟩ | ⟨hmem, hlt, hle⟩
      · exact .inl ⟨rfl, List.forall_mem_cons.mpr ⟨by omega, hle⟩⟩
      · exact .inr ⟨List.mem_cons_of_mem _ hmem, hlt, List.forall_mem_cons.mpr ⟨by omega, hle⟩⟩

variable {h : List Update} {u : Update}

/-- When the branches were last installed. -/
def stampOf (h : List Update) (pc : Word) : ℕ := stamp (h.map Update.pc) pc

theorem stampOf_le (h : List Update) (pc : Word) : stampOf h pc ≤ h.length := by
  have hle := stamp_le_length (h.map Update.pc) pc
  rwa [List.length_map] at hle

theorem stampOf_cons_self (u : Update) (h : List Update) :
    stampOf (u :: h) u.pc = h.length + 1 := by
  rw [stampOf, List.map_cons, stamp_cons_self, List.length_map]

theorem stampOf_cons_of_ne (hne : u.pc ≠ pc) (h : List Update) :
    stampOf (u :: h) pc = stampOf h pc :=
  stamp_cons_of_ne hne _

/-- What a valid entry says: the last installation of its branch, in the branch's own set. -/
structure Records (b : Btb) (h : List Update) (pc : Word) (e : Entry) : Prop where
  set : b.setOf e.tag = b.setOf pc
  last : ∃ v, h.find? (fun v => v.pc = e.tag) = some v ∧ e.target = v.target ∧ e.kind = v.kind
  used : e.used = u64 (stampOf h e.tag)

/-- The buffer after the history `h`, newest first. -/
structure Keeps (b : Btb) (h : List Update) : Prop where
  clock : b.clock = u64 h.length
  records : ∀ pc, ∀ w < b.ways, (b.way pc w).valid = true → b.Records h pc (b.way pc w)
  filled : ∀ pc, ∀ w < b.ways, (b.way pc w).valid = true → ∀ v < w, (b.way pc v).valid = true
  distinct : ∀ pc, ∀ v < b.ways, ∀ w < b.ways, (b.way pc v).valid = true →
    (b.way pc w).valid = true → (b.way pc v).tag = (b.way pc w).tag → v = w
  newest : ∀ pc, 0 < stampOf h pc → (∃ w < b.ways, b.Matches pc w) ∨
    ∀ w < b.ways, (b.way pc w).valid = true ∧ stampOf h pc < stampOf h (b.way pc w).tag

/-- The way an update fills, and why. -/
inductive Fills (b : Btb) (h : List Update) (pc : Word) (r : ℕ) : Prop
  | found (hit : b.Matches pc r)
  | fresh (free : (b.way pc r).valid = false) (front : ∀ w < r, (b.way pc w).valid = true)
      (miss : ∀ w < b.ways, ¬b.Matches pc w)
  | evicts (full : ∀ w < b.ways, (b.way pc w).valid = true) (miss : ∀ w < b.ways, ¬b.Matches pc w)
      (oldest : ∀ w < b.ways, stampOf h (b.way pc r).tag ≤ stampOf h (b.way pc w).tag)

theorem Records.pos {e : Entry} (he : b.Records h pc e) : 0 < stampOf h e.tag := by
  obtain ⟨v, hv, -⟩ := he.last
  rw [stampOf, stamp_pos_iff]
  have htag := List.find?_some hv
  simp only [decide_eq_true_eq] at htag
  rw [← htag]
  exact List.mem_map_of_mem (List.mem_of_find?_eq_some hv)

theorem Keeps.fills (hk : b.Keeps h) (hb : b.Shaped) (hlen : h.length < 2^64) (pc : Word) :
    b.victim pc (List.range b.ways) 0 18446744073709551615 < b.ways ∧
      b.Fills h pc (b.victim pc (List.range b.ways) 0 18446744073709551615) := by
  generalize hr : b.victim pc (List.range b.ways) 0 18446744073709551615 = r
  rcases victim_cases b pc _ _ _ hr with ⟨hstop, pre, post, hsplit, hpre⟩ | ⟨hall, hold⟩
  · have hrange : r < b.ways := List.mem_range.mp (by rw [hsplit]; simp)
    have hbefore : ∀ w < r, ¬b.Stops pc w := by
      intro w hw
      have hmem : w ∈ pre ++ r :: post := by
        rw [← hsplit]
        exact List.mem_range.mpr (hw.trans hrange)
      cases List.mem_append.mp hmem with
      | inl hmem => exact hpre w hmem
      | inr hmem =>
        have hsorted := List.pairwise_lt_range (n := b.ways)
        rw [hsplit, List.pairwise_append] at hsorted
        rcases List.mem_cons.mp hmem with rfl | hmem
        · exact absurd hw (lt_irrefl _)
        · exact absurd ((List.pairwise_cons.mp hsorted.2.1).1 w hmem) (Nat.not_lt.mpr hw.le)
    refine ⟨hrange, ?_⟩
    cases hstop with
    | inl hmatch => exact .found hmatch
    | inr hfree =>
      refine .fresh hfree (fun w hw => ?_) fun w hw hmatch => ?_
      · by_contra hinvalid
        exact hbefore w hw (.inr (by simpa using hinvalid))
      · rcases Nat.lt_trichotomy w r with hlt | rfl | hgt
        · exact hbefore w hlt (.inl hmatch)
        · rw [hmatch.1] at hfree
          contradiction
        · rw [hk.filled pc w hw hmatch.1 r hgt] at hfree
          contradiction
  · have hvalid : ∀ w < b.ways, (b.way pc w).valid = true := by
      intro w hw
      by_contra hinvalid
      exact hall w (List.mem_range.mpr hw) (.inr (by simpa using hinvalid))
    have hmiss : ∀ w < b.ways, ¬b.Matches pc w :=
      fun w hw hmatch => hall w (List.mem_range.mpr hw) (.inl hmatch)
    -- within 64 bits the counter is the stamp
    have hused : ∀ w < b.ways, (b.way pc w).used = stampOf h (b.way pc w).tag := by
      intro w hw
      have hle := stampOf_le h (b.way pc w).tag
      rw [(hk.records pc w hw (hvalid w hw)).used, u64_of_lt (by omega)]
    rcases hold with ⟨rfl, hle⟩ | ⟨hmem, -, hle⟩
    · refine ⟨hb.ways_pos, .evicts hvalid hmiss fun w hw => ?_⟩
      have hle' := hle w (List.mem_range.mpr hw)
      have hmax := stampOf_le h (b.way pc 0).tag
      rw [hused w hw] at hle'
      omega
    · refine ⟨List.mem_range.mp hmem, .evicts hvalid hmiss fun w hw => ?_⟩
      have hle' := hle w (List.mem_range.mpr hw)
      rwa [hused w hw, hused r (List.mem_range.mp hmem)] at hle'

/-- The way an update fills. -/
def filled (b : Btb) (u : Update) : ℕ := b.victim u.pc (List.range b.ways) 0 18446744073709551615

theorem way_congr {p q : Word} (h : b.setOf p = b.setOf q) (w : ℕ) : b.way p w = b.way q w := by
  rw [way, way, slot, slot, h]

theorem way_apply (hb : b.Shaped) (hr : b.filled u < b.ways) (pc : Word) (hw : w < b.ways) :
    (b.apply u).way pc w = if b.setOf pc = b.setOf u.pc ∧ w = b.filled u
      then ⟨true, u.pc, u.target, u.kind, u64 (b.clock + 1)⟩ else b.way pc w := by
  have hslot := hb.slot_eq_iff pc u.pc hw hr
  simp only [way, apply, update]
  exact if_congr hslot rfl rfl

/-- An entry outside the way that was filled is not for the branch that was installed. -/
theorem Keeps.tag_ne (hk : b.Keeps h) (hf : b.Fills h u.pc (b.filled u)) (hr : b.filled u < b.ways)
    (hw : w < b.ways)
    (hvalid : (b.way pc w).valid = true) (hother : ¬(b.setOf pc = b.setOf u.pc ∧ w = b.filled u)) :
    u.pc ≠ (b.way pc w).tag := by
  intro htag
  have hset : b.setOf pc = b.setOf u.pc := by rw [htag, (hk.records pc w hw hvalid).set]
  rw [way_congr hset] at hvalid htag
  have hmatch : b.Matches u.pc w := ⟨hvalid, htag.symm⟩
  cases hf with
  | found hit =>
    exact hother ⟨hset, hk.distinct u.pc w hw _ hr hvalid hit.1 (htag.symm.trans hit.2.symm)⟩
  | fresh free front miss => exact miss w hw hmatch
  | evicts full miss oldest => exact miss w hw hmatch

theorem Keeps.clock_succ (hk : b.Keeps h) : u64 (b.clock + 1) = u64 (h.length + 1) := by
  rw [hk.clock]
  simp only [u64]
  omega

section Apply
variable (hk : b.Keeps h) (hb : b.Shaped) (hr : b.filled u < b.ways)
    (hf : b.Fills h u.pc (b.filled u))
include hk hb hr hf

private theorem Keeps.apply_records (hw : w < b.ways)
    (hvalid : ((b.apply u).way pc w).valid = true) :
    (b.apply u).Records (u :: h) pc ((b.apply u).way pc w) := by
  rw [way_apply hb hr pc hw] at hvalid ⊢
  by_cases hother : b.setOf pc = b.setOf u.pc ∧ w = b.filled u
  · rw [if_pos hother]
    exact ⟨hother.1.symm, ⟨u, by simp, rfl, rfl⟩, by rw [hk.clock_succ, stampOf_cons_self]⟩
  · rw [if_neg hother] at hvalid ⊢
    have hne := hk.tag_ne hf hr hw hvalid hother
    obtain ⟨hset, ⟨v, hv, htarget, hkind⟩, hused⟩ := hk.records pc w hw hvalid
    refine ⟨hset, ⟨v, ?_, htarget, hkind⟩, ?_⟩
    · rw [List.find?_cons_of_neg (by simpa using hne), hv]
    · rw [stampOf_cons_of_ne hne, hused]

private theorem Keeps.apply_filled (hw : w < b.ways) (hvalid : ((b.apply u).way pc w).valid = true)
    {v : ℕ}
    (hv : v < w) : ((b.apply u).way pc v).valid = true := by
  rw [way_apply hb hr pc (hv.trans hw)]
  split
  · rfl
  rename_i hother
  rw [way_apply hb hr pc hw] at hvalid
  split at hvalid
  · rename_i hat
    rw [hat.2] at hv
    rw [way_congr hat.1]
    cases hf with
    | found hit => exact hk.filled u.pc _ hr hit.1 v hv
    | fresh free front miss => exact front v hv
    | evicts full miss oldest => exact full v (hv.trans hr)
  · exact hk.filled pc w hw hvalid v hv

private theorem Keeps.apply_distinct {v : ℕ} (hv : v < b.ways) (hw : w < b.ways)
    (hvalid : ((b.apply u).way pc v).valid = true) (hvalid' : ((b.apply u).way pc w).valid = true)
    (htag : ((b.apply u).way pc v).tag = ((b.apply u).way pc w).tag) : v = w := by
  rw [way_apply hb hr pc hv] at hvalid htag
  rw [way_apply hb hr pc hw] at hvalid' htag
  by_cases hvr : b.setOf pc = b.setOf u.pc ∧ v = b.filled u
  · by_cases hwr : b.setOf pc = b.setOf u.pc ∧ w = b.filled u
    · exact hvr.2.trans hwr.2.symm
    · rw [if_pos hvr, if_neg hwr] at htag
      rw [if_neg hwr] at hvalid'
      exact absurd htag (hk.tag_ne hf hr hw hvalid' hwr)
  · by_cases hwr : b.setOf pc = b.setOf u.pc ∧ w = b.filled u
    · rw [if_neg hvr, if_pos hwr] at htag
      rw [if_neg hvr] at hvalid
      exact absurd htag.symm (hk.tag_ne hf hr hv hvalid hvr)
    · rw [if_neg hvr] at hvalid htag
      rw [if_neg hwr] at hvalid' htag
      exact hk.distinct pc v hv w hw hvalid hvalid' htag

omit hk hb hr hf in
private theorem stampOf_lt (u : Update) (h : List Update) (pc : Word) :
    stampOf h pc < stampOf (u :: h) u.pc := by
  rw [stampOf_cons_self]
  exact Nat.lt_succ_of_le (stampOf_le h pc)

/-- The entry of `pc` gives way only when all others of its set are newer. -/
private theorem Keeps.apply_evicted (hpc : u.pc ≠ pc) (hpos : 0 < stampOf h pc)
    (hset : b.setOf pc = b.setOf u.pc)
    (hgone : b.Matches pc (b.filled u)) (hw : w < b.ways) :
    ((b.apply u).way pc w).valid = true ∧
      stampOf h pc < stampOf (u :: h) ((b.apply u).way pc w).tag := by
  rw [Matches, way_congr hset] at hgone
  rw [way_apply hb hr pc hw]
  cases hf with
  | found hit => exact absurd (hit.2.symm.trans hgone.2) hpc
  | fresh free front miss =>
    rw [hgone.1] at free
    contradiction
  | evicts full miss oldest =>
    have hfull : (b.way pc w).valid = true := by
      rw [way_congr hset]
      exact full w hw
    by_cases hother : b.setOf pc = b.setOf u.pc ∧ w = b.filled u
    · rw [if_pos hother]
      exact ⟨rfl, stampOf_lt u h pc⟩
    · rw [if_neg hother,
        stampOf_cons_of_ne (hk.tag_ne (.evicts full miss oldest) hr hw hfull hother),
        way_congr hset]
      refine ⟨full w hw, Nat.lt_of_le_of_ne ?_ fun hsame => ?_⟩
      · have hold := oldest w hw
        rwa [hgone.2] at hold
      · have htag : pc = (b.way u.pc w).tag := stamp_inj hpos hsame
        exact hother ⟨hset,
          hk.distinct u.pc w hw _ hr (full w hw) hgone.1 (htag.symm.trans hgone.2.symm)⟩

private theorem Keeps.apply_newest (hpos : 0 < stampOf (u :: h) pc) :
    (∃ w < b.ways, (b.apply u).Matches pc w) ∨ ∀ w < b.ways,
      ((b.apply u).way pc w).valid = true ∧
        stampOf (u :: h) pc < stampOf (u :: h) ((b.apply u).way pc w).tag := by
  by_cases hpc : u.pc = pc
  · subst hpc
    refine .inl ⟨b.filled u, hr, ?_⟩
    rw [Matches, way_apply hb hr u.pc hr, if_pos ⟨rfl, rfl⟩]
    exact ⟨rfl, rfl⟩
  rw [stampOf_cons_of_ne hpc] at hpos ⊢
  rcases hk.newest pc hpos with ⟨w, hw, hmatch⟩ | hall
  · by_cases hat : b.setOf pc = b.setOf u.pc ∧ w = b.filled u
    · have hgone : b.Matches pc (b.filled u) := hat.2 ▸ hmatch
      exact .inr fun v hv => hk.apply_evicted hb hr hf hpc hpos hat.1 hgone hv
    · refine .inl ⟨w, hw, ?_⟩
      rw [Matches, way_apply hb hr pc hw, if_neg hat]
      exact hmatch
  · right
    intro w hw
    rw [way_apply hb hr pc hw]
    by_cases hother : b.setOf pc = b.setOf u.pc ∧ w = b.filled u
    · rw [if_pos hother]
      exact ⟨rfl, stampOf_lt u h pc⟩
    · obtain ⟨hvalid, hless⟩ := hall w hw
      rw [if_neg hother, stampOf_cons_of_ne (hk.tag_ne hf hr hw hvalid hother)]
      exact ⟨hvalid, hless⟩

end Apply

theorem Keeps.apply (hk : b.Keeps h) (hb : b.Shaped) (hlen : h.length < 2^64) (u : Update) :
    (b.apply u).Keeps (u :: h) := by
  obtain ⟨hr, hf⟩ : b.filled u < b.ways ∧ b.Fills h u.pc (b.filled u) := hk.fills hb hlen u.pc
  exact {
    clock := hk.clock_succ
    records := fun _ _ hw hvalid => hk.apply_records hb hr hf hw hvalid
    filled := fun _ _ hw hvalid _ hv => hk.apply_filled hb hr hf hw hvalid hv
    distinct := fun _ _ hv _ hw hvalid hvalid' htag =>
      hk.apply_distinct hb hr hf hv hw hvalid hvalid' htag
    newest := fun _ hpos => hk.apply_newest hb hr hf hpos }

/-- The other branches of the set that have been installed since `pc` was. -/
def installedSince (b : Btb) (us : List Update) (pc : Word) : List Word :=
  ((((us.reverse.map Update.pc).takeWhile (· ≠ pc)).filter fun q => b.setOf q = b.setOf pc)).dedup

theorem lookup_valid_iff (b : Btb) (pc : Word) :
    (b.lookup pc).valid = true ↔ ∃ w < b.ways, b.Matches pc w := by
  unfold lookup
  split
  · rename_i w hw
    have hmem := List.mem_of_find?_eq_some hw
    have hmatch := List.find?_some hw
    refine iff_of_true rfl ⟨w, List.mem_range.mp hmem, ?_⟩
    simpa [Matches, way] using hmatch
  · rename_i hnone
    apply iff_of_false (by simp)
    rintro ⟨w, hw, hmatch⟩
    have hnot := List.find?_eq_none.mp hnone w (List.mem_range.mpr hw)
    simp only [Bool.and_eq_true, beq_iff_eq, not_and] at hnot
    exact hnot hmatch.1 hmatch.2

theorem Keeps.lookup_eq (hk : b.Keeps h) (hw : w < b.ways) (hmatch : b.Matches pc w) :
    b.lookup pc = ⟨true, (b.way pc w).target, (b.way pc w).kind⟩ := by
  unfold lookup
  split
  · rename_i v hv
    have hmem := List.mem_range.mp (List.mem_of_find?_eq_some hv)
    have hfound : b.Matches pc v := by simpa [Matches, way] using List.find?_some hv
    rw [hk.distinct pc v hmem w hw hfound.1 hmatch.1 (hfound.2.trans hmatch.2.symm)]
    rfl
  · rename_i hnone
    have hnot := List.find?_eq_none.mp hnone w (List.mem_range.mpr hw)
    simp only [Bool.and_eq_true, beq_iff_eq, not_and] at hnot
    exact absurd hmatch.2 (hnot hmatch.1)

/-- What the buffer should be after the updates `us`: no branch twice in a set, and a branch is
there, as it was last installed, unless as many others of its set as there are ways came after
it. -/
structure Remembers (b : Btb) (us : List Update) : Prop where
  distinct : ∀ pc, ∀ v < b.ways, ∀ w < b.ways, (b.way pc v).valid = true →
    (b.way pc w).valid = true → (b.way pc v).tag = (b.way pc w).tag → v = w
  hits : ∀ pc, (b.lookup pc).valid = true ↔ (∃ u ∈ us, u.pc = pc) ∧
    (b.installedSince us pc).length < b.ways
  last : ∀ pc, (b.lookup pc).valid = true →
    ∃ u, us.reverse.find? (fun u => u.pc = pc) = some u ∧ b.lookup pc = ⟨true, u.target, u.kind⟩

theorem mem_installedSince {us : List Update} {q : Word} : q ∈ b.installedSince us pc ↔
    stampOf us.reverse pc < stampOf us.reverse q ∧ b.setOf q = b.setOf pc := by
  rw [installedSince, List.mem_dedup, List.mem_filter, mem_takeWhile_iff, decide_eq_true_eq]
  rfl

theorem Keeps.remembers {us : List Update} (hk : b.Keeps us.reverse) : b.Remembers us := by
  have hnodup (pc : Word) : (b.installedSince us pc).Nodup := List.nodup_dedup _
  refine ⟨hk.distinct, fun pc => ?_, fun pc hhit => ?_⟩
  · rw [lookup_valid_iff]
    have hpos : 0 < stampOf us.reverse pc ↔ ∃ u ∈ us, u.pc = pc := by
      rw [stampOf, stamp_pos_iff]
      simp
    rw [← hpos]
    constructor
    · rintro ⟨w, hw, hmatch⟩
      have hstamp := (hk.records pc w hw hmatch.1).pos
      rw [hmatch.2] at hstamp
      refine ⟨hstamp, ?_⟩
      -- what came after `pc` is still there, beside `pc`
      have hsub : pc :: b.installedSince us pc ⊆ (List.range b.ways).map fun v =>
          (b.way pc v).tag := by
        intro q hq
        rw [List.mem_map]
        rcases List.mem_cons.mp hq with rfl | hq
        · exact ⟨w, List.mem_range.mpr hw, hmatch.2⟩
        obtain ⟨hlater, hset⟩ := mem_installedSince.mp hq
        have heq := way_congr hset
        rcases hk.newest q (by omega) with ⟨v, hv, hthere⟩ | hall
        · exact ⟨v, List.mem_range.mpr hv, by rw [← heq]; exact hthere.2⟩
        · have hless := (hall w hw).2
          rw [heq, hmatch.2] at hless
          omega
      have hnot : pc ∉ b.installedSince us pc :=
        fun hmem => absurd (mem_installedSince.mp hmem).1 (lt_irrefl _)
      have hlen := (List.Nodup.subperm (List.nodup_cons.mpr ⟨hnot, hnodup pc⟩) hsub).length_le
      rw [List.length_cons, List.length_map, List.length_range] at hlen
      omega
    · rintro ⟨hstamp, hfew⟩
      rcases hk.newest pc hstamp with hthere | hall
      · exact hthere
      -- a full set of younger branches would be too many
      have hsub : ((List.range b.ways).map fun v => (b.way pc v).tag) ⊆ b.installedSince us pc := by
        intro q hq
        obtain ⟨v, hv, rfl⟩ := List.mem_map.mp hq
        obtain ⟨hvalid, hless⟩ := hall v (List.mem_range.mp hv)
        exact mem_installedSince.mpr ⟨hless, (hk.records pc v (List.mem_range.mp hv) hvalid).set⟩
      have hdistinct : ((List.range b.ways).map fun v => (b.way pc v).tag).Nodup := by
        apply List.nodup_range.map_on
        intro v hv w hw htag
        rw [List.mem_range] at hv hw
        exact hk.distinct pc v hv w hw (hall v hv).1 (hall w hw).1 htag
      have hlen := (List.Nodup.subperm hdistinct hsub).length_le
      rw [List.length_map, List.length_range] at hlen
      omega
  · obtain ⟨w, hw, hmatch⟩ := (lookup_valid_iff b pc).mp hhit
    obtain ⟨-, ⟨u, hu, htarget, hkind⟩, -⟩ := hk.records pc w hw hmatch.1
    rw [hmatch.2] at hu
    exact ⟨u, hu, by rw [hk.lookup_eq hw hmatch, htarget, hkind]⟩

theorem Keeps.reset (cfg : Config) : (reset cfg).Keeps [] where
  clock := rfl
  records pc w hw hvalid := by simp [way, Btb.reset] at hvalid
  filled pc w hw hvalid := by simp [way, Btb.reset] at hvalid
  distinct pc v hv w hw hvalid := by simp [way, Btb.reset] at hvalid
  newest pc hpos := by simp [stampOf, stamp] at hpos

theorem updateAll_shape (b : Btb) (us : List Update) :
    (b.updateAll us).sets = b.sets ∧ (b.updateAll us).ways = b.ways := by
  induction us generalizing b with
  | nil => exact ⟨rfl, rfl⟩
  | cons u us ih => exact ih (b.apply u)

theorem Keeps.updateAll (us : List Update) (hb : b.Shaped) (hk : b.Keeps h)
    (hlen : h.length + us.length ≤ 2^64) : (b.updateAll us).Keeps (us.reverse ++ h) := by
  induction us generalizing b h with
  | nil => exact hk
  | cons u us ih =>
    rw [List.length_cons] at hlen
    have hstep := hk.apply hb (by omega) u
    rw [List.reverse_cons, List.append_assoc]
    exact ih (b := b.apply u) ⟨hb.sets_pos, hb.ways_pos, hb.size_lt⟩ hstep
      (by rw [List.singleton_append, List.length_cons]; omega)

/-- For as long as the install counter has not run through its values the buffer remembers what it
should. -/
theorem remembers_updates (cfg : Config) (us : List Update)
    (hsize : (reset cfg).sets * (reset cfg).ways < 2^32)
    (hlen : us.length ≤ 2^64) : ((reset cfg).updateAll us).Remembers us := by
  have hshaped : (reset cfg).Shaped := by
    refine ⟨?_, ?_, hsize⟩
    · simp only [reset]
      split <;> omega
    · simp only [reset]
      split <;> omega
  have hkeeps := (Keeps.reset cfg).updateAll us hshaped (by simpa using hlen)
  rw [List.append_nil] at hkeeps
  exact hkeeps.remembers

def oneSet : Config := { btbSets := 1, btbWays := 2 }
def installA : Update := ⟨0x1000, 0xA0, .jump⟩
def installB : Update := ⟨0x1004, 0xB0, .jump⟩
def installC : Update := ⟨0x1008, 0xC0, .jump⟩

/-- The first branch is installed again as a call, so that the second is the one to go. -/
def reinstalled : List Update := [installA, installB, ⟨installA.pc, 0xA4, .call⟩, installC]

theorem remembers_updates_reinstalled :
    ((reset oneSet).updateAll reinstalled).Remembers reinstalled ∧
      ((reset oneSet).updateAll reinstalled).lookup installA.pc = ⟨true, 0xA4, .call⟩ ∧
        (((reset oneSet).updateAll reinstalled).lookup installB.pc).valid = false ∧
    ((reset oneSet).updateAll reinstalled).lookup installC.pc = ⟨true, 0xC0, .jump⟩ :=
  ⟨remembers_updates oneSet reinstalled (by decide) (by decide),
    rfl, by decide +kernel, rfl⟩

/-- One branch, installed when the counter was at `c`. -/
def installed (c : ℕ) : Btb :=
  { reset oneSet with
    clock := c
    entries := fun j => if j = 0 then ⟨true, 0x1000, 0xA0, .jump, c⟩ else {} }

/-- Where an empty or a matching first way is, it is filled. -/
theorem apply_of_stops {u : Update} (hways : b.ways = 2) (hstop : b.Stops u.pc 0) : b.apply u =
    { b with
      clock := u64 (b.clock + 1)
      entries := fun j => if j = b.slot u.pc 0 then ⟨true, u.pc, u.target, u.kind,
        u64 (b.clock + 1)⟩ else b.entries j } := by
  have hvictim : b.victim u.pc (List.range b.ways) 0 18446744073709551615 = 0 := by
    rw [hways, show List.range 2 = [0, 1] from rfl, victim_cons, if_pos hstop]
  simp only [apply, update, hvictim]

theorem slot_zero (hsets : b.sets = 1) (pc : Word) : b.slot pc 0 = 0 := by
  simp [slot, setOf, hsets, Nat.mod_one, u32]

theorem updateAll_replicate (n : ℕ) :
    (reset oneSet).updateAll (List.replicate (n + 1) installA) = installed (u64 (n + 1)) := by
  induction n with
  | zero =>
    change (reset oneSet).apply installA = installed 1
    rw [apply_of_stops rfl (.inr rfl), slot_zero rfl]
    rfl
  | succ n ih =>
    have hmatch (c : ℕ) : (installed c).Matches installA.pc 0 := by
      rw [Matches, way, slot_zero rfl]
      exact ⟨rfl, rfl⟩
    have hclock : u64 (u64 (n + 1) + 1) = u64 (n + 1 + 1) := by
      simp only [u64]
      omega
    have hstep (c : ℕ) : (installed c).apply installA = installed (u64 (c + 1)) := by
      rw [apply_of_stops rfl (.inl (hmatch c)), slot_zero rfl]
      simp only [installed]
      congr 1
      funext j
      split <;> rfl
    rw [List.replicate_succ']
    unfold updateAll at ih ⊢
    rw [List.foldl_append, ih, ← hclock]
    exact hstep _

/-- One branch installed `n + 1` times, and two others after it. -/
def overrun (n : ℕ) : List Update := List.replicate (n + 1) installA ++ [installB, installC]

/-- The branch installed when the counter wraps is taken for the oldest and goes first. -/
theorem overrun_forgets {n : ℕ} (hn : u64 (n + 1) = 18446744073709551615) :
    ¬((reset oneSet).updateAll (overrun n)).Remembers (overrun n) := by
  intro h
  have hmiss : ((((installed 18446744073709551615).apply installB).apply installC).lookup
      installB.pc).valid = false := by
    decide +kernel
  have hstate : (reset oneSet).updateAll (overrun n) =
      ((installed 18446744073709551615).apply installB).apply installC := by
    rw [← hn, ← updateAll_replicate, overrun]
    unfold updateAll
    rw [List.foldl_append]
    rfl
  have hrecent : (overrun n).reverse.map Update.pc =
      installC.pc :: installB.pc :: (List.replicate (n + 1) installA).reverse.map Update.pc := by
    rw [overrun, List.reverse_append]
    rfl
  have hsince (b : Btb) : (b.installedSince (overrun n) installB.pc).length ≤ 1 := by
    rw [installedSince, hrecent, List.takeWhile_cons_of_pos (by decide),
      List.takeWhile_cons_of_neg (by decide)]
    exact (List.dedup_sublist _).length_le.trans (List.length_filter_le _ _)
  have hhit := (h.hits installB.pc).mpr
    ⟨⟨installB, by rw [overrun]; exact List.mem_append_right _ (by decide), rfl⟩, ?_⟩
  · rw [hstate, hmiss] at hhit
    contradiction
  · have hways : ((reset oneSet).updateAll (overrun n)).ways = 2 := (updateAll_shape _ _).2
    rw [hways]
    exact Nat.lt_succ_of_le (hsince _)

/-- With one set of two ways the buffer does not remember `2^64 + 1` updates. -/
theorem not_remembers : ¬∀ us, ((reset oneSet).updateAll us).Remembers us :=
  fun h => overrun_forgets (n := 18446744073709551614) rfl (h _)

end OooCpu.Btb
