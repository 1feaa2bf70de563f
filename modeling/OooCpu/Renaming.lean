import OooCpu.Along
import OooCpu.Window
import Mathlib.Data.List.FinRange

/-! # Who owns a physical register

The alias table is the committed mapping with the window applied to it, and every
physical register is free, committed or the destination of one uop in flight. -/
namespace OooCpu

/-- What a uop does to the register mapping. -/
def Uop.remap (m : RegisterMap) (u : Uop) : RegisterMap :=
  if u.dec.writesRd then fun a => if a = u.dec.rd then u.dest else m a else m

/-- The tags a uop was given are those of the mapping in front of it. -/
structure Uop.RenamedUnder (m : RegisterMap) (u : Uop) : Prop where
  src1 : u.src1 = m u.dec.rs1
  src2 : u.src2 = m u.dec.rs2
  stale : u.dec.writesRd = true → u.stale = m u.dec.rd
  rd_ne : u.dec.writesRd = true → u.dec.rd ≠ 0
  none : u.dec.writesRd = false → u.dest = INVALID_PHYSREG ∧ u.stale = INVALID_PHYSREG

/-- Destination registers of the uops that have one. -/
def dests (w : List Uop) : List ℕ := (w.filter fun u => u.dec.writesRd).map Uop.dest

/-- Registers the uops of the window displace. -/
def stales (w : List Uop) : List ℕ := (w.filter fun u => u.dec.writesRd).map Uop.stale

structure Mapped (w : List Uop) (archRat rat : RegisterMap) (freeList : FreeList) : Prop where
  small : freeList.capacity < 2^32
  zero : archRat 0 = 0
  along : Along Uop.remap Uop.RenamedUnder archRat w
  rat_eq : rat = w.foldl Uop.remap archRat
  owned : (freeList.regs ++ List.ofFn archRat ++ dests w).Perm (List.range freeList.capacity)

theorem Uop.Advances.remap_eq {u v : Uop} (h : u.Advances v) (m : RegisterMap) :
    v.remap m = u.remap m := by
  simp only [Uop.remap, h.dec, h.dest]

theorem Uop.Advances.renamedUnder {u v : Uop} (h : u.Advances v) {m : RegisterMap}
    (hu : u.RenamedUnder m) : v.RenamedUnder m := by
  refine ⟨?_, ?_, ?_, ?_, ?_⟩ <;> simp only [h.src1, h.src2, h.stale, h.dest, h.dec]
  · exact hu.src1
  · exact hu.src2
  · exact hu.stale
  · exact hu.rd_ne
  · exact hu.none

@[simp] theorem dests_append (v w : List Uop) : dests (v ++ w) = dests v ++ dests w := by
  simp [dests]

theorem dests_cons (u : Uop) (w : List Uop) :
    dests (u :: w) = if u.dec.writesRd then u.dest :: dests w else dests w := by
  simp only [dests, List.filter_cons]
  split <;> simp

theorem mem_dests {w : List Uop} {p : ℕ} :
    p ∈ dests w ↔ ∃ u ∈ w, u.dec.writesRd = true ∧ u.dest = p := by
  simp [dests, and_assoc]

/-- Overwriting one mapping trades the old register for the new one. -/
theorem ofFn_update_perm (m : RegisterMap) (a : ArchReg) (p : ℕ) :
    (m a :: List.ofFn fun b => if b = a then p else m b).Perm (p :: List.ofFn m) := by
  rw [List.ofFn_eq_map, List.ofFn_eq_map]
  exact map_update_perm m p (List.nodup_finRange 32) (List.mem_finRange a)

/-- A window's destinations end up mapped, and what they displace does not. -/
theorem ofFn_foldl_perm {w : List Uop} {m : RegisterMap}
    (h : Along Uop.remap Uop.RenamedUnder m w) :
    (List.ofFn m ++ dests w).Perm (List.ofFn (w.foldl Uop.remap m) ++ stales w) := by
  induction w generalizing m with
  | nil => simp [dests, stales]
  | cons u w ih =>
    obtain ⟨hu, hw⟩ := h
    have hrest := ih hw
    by_cases hwr : u.dec.writesRd = true
    · have hstales : stales (u :: w) = m u.dec.rd :: stales w := by
        simp [stales, hwr, hu.stale hwr]
      rw [dests_cons, if_pos hwr, hstales, List.foldl_cons]
      have hswap : (m u.dec.rd :: List.ofFn (u.remap m)).Perm (u.dest :: List.ofFn m) := by
        simp only [Uop.remap, hwr, if_true]
        exact ofFn_update_perm m u.dec.rd u.dest
      calc (List.ofFn m ++ u.dest :: dests w).Perm (u.dest :: List.ofFn m ++ dests w) := List.perm_middle
        _ |>.Perm (m u.dec.rd :: List.ofFn (u.remap m) ++ dests w) := hswap.symm.append_right _
        _ |>.Perm (m u.dec.rd :: (List.ofFn (w.foldl Uop.remap (u.remap m)) ++ stales w)) :=
          hrest.cons _
        _ |>.Perm (List.ofFn (w.foldl Uop.remap (u.remap m)) ++ m u.dec.rd :: stales w) :=
          List.perm_middle.symm
    · have hsame : u.remap m = m := by simp [Uop.remap, hwr]
      have hstales : stales (u :: w) = stales w := by simp [stales, hwr]
      rw [dests_cons, if_neg hwr, hstales, List.foldl_cons, hsame]
      rwa [hsame] at hrest

theorem map_mem_ofFn (m : RegisterMap) (a : ArchReg) : m a ∈ List.ofFn m :=
  List.mem_ofFn.mpr ⟨a, rfl⟩

/-- A mapped register is committed or the destination of a uop in flight. -/
theorem foldl_remap_mem (w : List Uop) (m : RegisterMap) (a : ArchReg) :
    w.foldl Uop.remap m a ∈ List.ofFn m ++ dests w := by
  induction w generalizing m with
  | nil => exact List.mem_append_left _ (map_mem_ofFn m a)
  | cons u w ih =>
    have hrest := ih (u.remap m)
    rw [List.foldl_cons, dests_cons]
    by_cases hwr : u.dec.writesRd = true
    · rw [if_pos hwr]
      cases List.mem_append.mp hrest with
      | inl hm =>
        obtain ⟨b, hb⟩ := List.mem_ofFn.mp hm
        rw [← hb]
        simp only [Uop.remap, hwr, if_true]
        split
        · exact List.mem_append_right _ List.mem_cons_self
        · exact List.mem_append_left _ (map_mem_ofFn m b)
      | inr hm => exact List.mem_append_right _ (List.mem_cons_of_mem _ hm)
    · have hsame : u.remap m = m := by simp [Uop.remap, hwr]
      rw [if_neg hwr]
      rwa [hsame] at hrest ⊢

namespace Mapped
variable {w pre post : List Uop} {archRat rat : RegisterMap} {freeList : FreeList} {u v : Uop}

theorem reset {cfg : Config} (hge : 32 ≤ cfg.prfSize) (hlt : cfg.prfSize < 2^32) :
    Mapped [] (fun a => a.val) RegisterAliasTable.reset.rat (.reset cfg) where
  small := hlt
  zero := rfl
  along := .nil
  rat_eq := rfl
  owned := by
    have hofFn : List.ofFn (fun a : ArchReg => a.val) = List.range 32 := by decide
    have hsplit := @List.range'_append_1 0 32 (cfg.prfSize - 32)
    rw [Nat.zero_add, Nat.add_sub_cancel' hge] at hsplit
    have hrange : List.range cfg.prfSize = List.range 32 ++ List.range' 32 (cfg.prfSize - 32) := by
      rw [List.range_eq_range', List.range_eq_range', hsplit]
    simp only [FreeList.reset, dests, List.filter_nil, List.map_nil, List.append_nil]
    rw [hofFn, hrange]
    exact List.perm_append_comm

variable (h : Mapped w archRat rat freeList)
include h

theorem nodup : (freeList.regs ++ List.ofFn archRat ++ dests w).Nodup :=
  h.owned.nodup_iff.mpr List.nodup_range

theorem lt_capacity {p : ℕ} (hp : p ∈ freeList.regs ++ List.ofFn archRat ++ dests w) :
    p < freeList.capacity :=
  List.mem_range.mp (h.owned.subset hp)

/-- A destination in flight is neither free nor committed, and is a real register. -/
theorem dest_spec (hu : u ∈ w) (hwr : u.dec.writesRd = true) :
    u.dest ∉ freeList.regs ∧ (∀ a, archRat a ≠ u.dest) ∧ u.dest ≠ 0 ∧ u.dest < freeList.capacity ∧
      u.dest ≠ INVALID_PHYSREG := by
  have hd : u.dest ∈ dests w := mem_dests.mpr ⟨u, hu, hwr, rfl⟩
  have hn := h.nodup
  rw [List.nodup_append] at hn
  have harch : ∀ a, archRat a ≠ u.dest := fun a he =>
    hn.2.2 (archRat a) (List.mem_append_right _ (map_mem_ofFn archRat a)) u.dest hd he
  have hlt := h.lt_capacity (List.mem_append_right _ hd)
  have hsmall := h.small
  refine ⟨fun hf => hn.2.2 u.dest (List.mem_append_left _ hf) u.dest hd rfl, harch, ?_, hlt, ?_⟩
  · rw [← h.zero]
    exact (harch 0).symm
  · simp only [INVALID_PHYSREG]
    omega

/-- Two writers in flight have different destinations. -/
theorem dest_ne (hw : w = pre ++ u :: post) (hu : u.dec.writesRd = true) (hv : v ∈ pre ∨ v ∈ post)
    (hvw : v.dec.writesRd = true) : v.dest ≠ u.dest := by
  have hn := (List.nodup_append.mp h.nodup).2.1
  rw [hw, dests_append, dests_cons, if_pos hu, List.nodup_append, List.nodup_cons] at hn
  intro he
  cases hv with
  | inl hv => exact hn.2.2 v.dest (mem_dests.mpr ⟨v, hv, hvw, rfl⟩) u.dest List.mem_cons_self he
  | inr hv => exact hn.2.1.1 (he ▸ mem_dests.mpr ⟨v, hv, hvw, rfl⟩)

/-- The obligation of a uop where it stands. -/
theorem renamedUnder (hw : w = pre ++ u :: post) :
    u.RenamedUnder (pre.foldl Uop.remap archRat) := by
  have halong := h.along
  rw [hw] at halong
  exact halong.at_split

/-- Nothing free is mapped, at any place in the window. -/
theorem free_not_mapped (hw : w = pre ++ post) (a : ArchReg) {p : ℕ} (hp : p ∈ freeList.regs) :
    pre.foldl Uop.remap archRat a ≠ p := by
  intro he
  have hm := foldl_remap_mem pre archRat a
  have hn := h.nodup
  rw [hw, dests_append, List.append_assoc, List.nodup_append] at hn
  refine hn.2.2 p hp _ ?_ he.symm
  rw [← List.append_assoc]
  exact List.mem_append_left _ hm

/-- A committed register is not a sentinel, and only `x0` maps to register 0. -/
theorem arch_spec (a : ArchReg) : archRat a < freeList.capacity ∧ (archRat a = 0 → a = 0) := by
  have hmem := List.mem_append_left (dests w)
    (List.mem_append_right freeList.regs (map_mem_ofFn archRat a))
  refine ⟨h.lt_capacity hmem, fun h0 => ?_⟩
  have hn := h.nodup
  rw [List.append_assoc, List.nodup_append, List.nodup_append] at hn
  exact List.nodup_ofFn.mp hn.2.1.1 (h0.trans h.zero.symm)

/-- Rename of a uop without a destination. -/
theorem push_none (hv : v.RenamedUnder rat) (hwr : v.dec.writesRd = false) :
    Mapped (w ++ [v]) archRat rat freeList where
  small := h.small
  zero := h.zero
  along := Along.concat_iff.mpr ⟨h.along, h.rat_eq ▸ hv⟩
  rat_eq := by simp [Uop.remap, hwr, ← h.rat_eq]
  owned := by simpa [dests_cons, hwr, dests] using h.owned

/-- Rename takes the next free register as the destination. -/
theorem push_some {freeList' : FreeList} (hv : v.RenamedUnder rat) (hwr : v.dec.writesRd = true)
    (ha : freeList.alloc = some (v.dest, freeList')) :
    Mapped (w ++ [v]) archRat (v.remap rat) freeList' := by
  have hregs : freeList.regs = v.dest :: freeList'.regs ∧
      freeList'.capacity = freeList.capacity := by
    simp only [FreeList.alloc] at ha
    split at ha
    · contradiction
    · rename_i hl
      simp only [Option.some.injEq, Prod.mk.injEq] at ha
      obtain ⟨rfl, rfl⟩ := ha
      exact ⟨hl, rfl⟩
  obtain ⟨hregs, hcap⟩ := hregs
  refine ⟨hcap ▸ h.small, h.zero, Along.concat_iff.mpr ⟨h.along, h.rat_eq ▸ hv⟩,
    by simp [← h.rat_eq], ?_⟩
  have ho := h.owned
  rw [hregs] at ho
  rw [hcap]
  refine List.Perm.trans ?_ ho
  simp only [dests_append, dests_cons, hwr, if_true, show dests [] = [] from rfl]
  rw [← List.append_assoc]
  exact List.perm_append_singleton v.dest _

/-- A stage that only advances a uop moves no ownership. -/
theorem replace (hw : w = pre ++ u :: post) (ha : u.Advances v) :
    Mapped (pre ++ v :: post) archRat rat freeList := by
  have halong := h.along
  rw [hw] at halong
  refine ⟨h.small, h.zero, halong.replace (ha.renamedUnder halong.at_split) (ha.remap_eq _), ?_, ?_⟩
  · rw [h.rat_eq, hw, foldl_replace (ha.remap_eq _)]
  · have ho := h.owned
    rw [hw, dests_append, dests_cons] at ho
    rw [dests_append, dests_cons, ha.dec, ha.dest]
    exact ho

/-- Commit makes the oldest mapping architectural and frees the one it displaces. -/
theorem pop (hw : w = u :: post) :
    Mapped post (u.remap archRat) rat
      (if u.dest ≠ INVALID_PHYSREG then freeList.free u.stale else freeList) := by
  subst hw
  obtain ⟨hu, hpost⟩ := h.along
  by_cases hwr : u.dec.writesRd = true
  · have hrd := hu.rd_ne hwr
    have hstale := hu.stale hwr
    obtain ⟨hslt, hs0⟩ := h.arch_spec u.dec.rd
    have hdest := h.dest_spec List.mem_cons_self hwr
    have hsmall := h.small
    have hfree : freeList.free u.stale =
        { freeList with regs := freeList.regs ++ [archRat u.dec.rd] } := by
      have hne : ¬(archRat u.dec.rd = 0 ∨ freeList.capacity ≤ archRat u.dec.rd ∨
          archRat u.dec.rd = INVALID_PHYSREG) := by
        simp only [INVALID_PHYSREG]
        rintro (h0 | h0 | h0)
        · exact hrd (hs0 h0)
        · omega
        · omega
      rw [FreeList.free, hstale, if_neg hne]
    rw [if_pos hdest.2.2.2.2, hfree]
    have hremap : u.remap archRat = fun a => if a = u.dec.rd then u.dest else archRat a := by
      simp [Uop.remap, hwr]
    refine ⟨h.small, ?_, hpost, h.rat_eq, ?_⟩
    · rw [hremap]
      simp [Ne.symm hrd, h.zero]
    · have ho := h.owned
      rw [dests_cons, if_pos hwr] at ho
      refine List.Perm.trans ?_ ho
      have hswap := ofFn_update_perm archRat u.dec.rd u.dest
      rw [← hremap] at hswap
      have hleft : (freeList.regs ++ [archRat u.dec.rd] ++ List.ofFn (u.remap archRat)).Perm
          (freeList.regs ++ List.ofFn archRat ++ [u.dest]) := by
        simp only [List.append_assoc, List.singleton_append]
        exact (hswap.trans (List.perm_append_singleton _ _).symm).append_left _
      simpa using hleft.append_right (dests post)
  · have hd := (hu.none (by simpa using hwr)).1
    have hsame : u.remap archRat = archRat := by simp [Uop.remap, hwr]
    rw [if_neg (by simp [hd]), hsame]
    have ho := h.owned
    rw [dests_cons, if_neg hwr] at ho
    exact ⟨h.small, h.zero, hsame ▸ hpost, by rw [h.rat_eq, List.foldl_cons, hsame], ho⟩

omit h in
private theorem free_killed {us : List Uop} {killed : List RobEntry}
    (hk : List.Forall₂ Mirrors us killed)
    (hsmall : freeList.capacity < 2^32)
    (hdest : ∀ u ∈ us, u.dec.writesRd = true → u.dest ≠ 0 ∧ u.dest < freeList.capacity)
    (hnone : ∀ u ∈ us, u.dec.writesRd = false → u.dest = INVALID_PHYSREG) :
    killed.foldl (fun f e => f.free e.destPhys) freeList =
      { freeList with regs := freeList.regs ++ dests us } := by
  induction hk generalizing freeList with
  | nil => simp [dests]
  | @cons u e us killed hue _ ih =>
    have hrest := fun (freeList' : FreeList) (hcap : freeList'.capacity = freeList.capacity) =>
      @ih freeList' (hcap ▸ hsmall) (fun v hv => hcap ▸ hdest v (List.mem_cons_of_mem _ hv))
        fun v hv => hnone v (List.mem_cons_of_mem _ hv)
    rw [List.foldl_cons, hue.destPhys, dests_cons]
    by_cases hwr : u.dec.writesRd = true
    · obtain ⟨h0, hlt⟩ := hdest u List.mem_cons_self hwr
      have hfree : freeList.free u.dest = { freeList with regs := freeList.regs ++ [u.dest] } := by
        have hne : ¬(u.dest = 0 ∨ freeList.capacity ≤ u.dest ∨ u.dest = INVALID_PHYSREG) := by
          simp only [INVALID_PHYSREG]
          omega
        rw [FreeList.free, if_neg hne]
      rw [hfree, hrest { freeList with regs := freeList.regs ++ [u.dest] } rfl, if_pos hwr]
      simp
    · have hd := hnone u List.mem_cons_self (by simpa using hwr)
      rw [FreeList.free, if_pos (by simp [hd]), hrest _ rfl, if_neg hwr]

/-- A squash gives back the destinations of everything behind the kept part. -/
theorem truncate {killed : List RobEntry} (hw : w = pre ++ post)
    (hk : List.Forall₂ Mirrors post.reverse killed) :
    Mapped pre archRat (pre.foldl Uop.remap archRat)
      (killed.foldl (fun f e => f.free e.destPhys) freeList) := by
  have hdest : ∀ u ∈ post.reverse, u.dec.writesRd = true → u.dest ≠ 0 ∧
      u.dest < freeList.capacity := by
    intro u hu hwr
    have hspec := h.dest_spec (u := u) (by rw [hw]; simp [List.mem_reverse.mp hu]) hwr
    exact ⟨hspec.2.2.1, hspec.2.2.2.1⟩
  have hnone : ∀ u ∈ post.reverse, u.dec.writesRd = false → u.dest = INVALID_PHYSREG := by
    intro u hu hwr
    obtain ⟨a, b, hab⟩ := List.append_of_mem (show u ∈ w by rw [hw]; simp [List.mem_reverse.mp hu])
    have halong := h.along
    rw [hab] at halong
    exact (halong.at_split.none hwr).1
  rw [free_killed hk h.small hdest hnone]
  have halong := h.along
  rw [hw] at halong
  refine ⟨h.small, h.zero, (Along.append_iff.mp halong).1, rfl, ?_⟩
  have ho := h.owned
  rw [hw, dests_append] at ho
  refine List.Perm.trans ?_ ho
  have hrev : (dests post.reverse).Perm (dests post) := by
    simp only [dests, List.filter_reverse, List.map_reverse]
    exact List.reverse_perm _
  calc (freeList.regs ++ dests post.reverse ++ List.ofFn archRat ++ dests pre).Perm
        (freeList.regs ++ (dests post.reverse ++ (List.ofFn archRat ++ dests pre))) := by
          simp only [List.append_assoc]
          exact List.Perm.refl _
    _ |>.Perm (freeList.regs ++ (List.ofFn archRat ++ dests pre ++ dests post.reverse)) :=
        List.perm_append_comm.append_left _
    _ |>.Perm (freeList.regs ++ (List.ofFn archRat ++ dests pre ++ dests post)) :=
        (hrev.append_left _).append_left _
    _ |>.Perm (freeList.regs ++ List.ofFn archRat ++ (dests pre ++ dests post)) := by
          simp only [List.append_assoc]
          exact List.Perm.refl _

/-- Read from the other side: the displaced registers and the alias table account for the same
ones. -/
theorem owned_stale :
    (freeList.regs ++ List.ofFn rat ++ stales w).Perm (List.range freeList.capacity) := by
  have hswap := ofFn_foldl_perm h.along
  rw [← h.rat_eq] at hswap
  have ho := h.owned
  rw [List.append_assoc] at ho ⊢
  exact (hswap.symm.append_left _).trans ho

end Mapped

/-- Checkpoint slots the branches of the window hold. -/
def ckptsOf (w : List Uop) : List ℕ := (w.filter fun u => u.dec.isBranch).map Uop.ckpt

/-- A branch's slot holds the mapping just behind it and its own fetch-time snapshot. -/
def Uop.SnapshotIn (slots : ℕ → Checkpoint) (m : RegisterMap) (u : Uop) : Prop :=
  u.dec.isBranch = true → slots u.ckpt = ⟨u.remap m, u.feSnap⟩

structure Checkpointed (w : List Uop) (archRat : RegisterMap) (pool : CheckpointPool) : Prop where
  small : pool.capacity < 2^31
  along : Along Uop.remap (Uop.SnapshotIn pool.slots) archRat w
  none : ∀ u ∈ w, u.dec.isBranch = false → u.ckpt = INVALID_CHECKPOINT
  owned : (pool.freeSlots ++ ckptsOf w).Perm (List.range pool.capacity)

@[simp] theorem ckptsOf_append (v w : List Uop) : ckptsOf (v ++ w) = ckptsOf v ++ ckptsOf w := by
  simp [ckptsOf]

theorem ckptsOf_cons (u : Uop) (w : List Uop) :
    ckptsOf (u :: w) = if u.dec.isBranch then u.ckpt :: ckptsOf w else ckptsOf w := by
  simp only [ckptsOf, List.filter_cons]
  split <;> simp

theorem mem_ckptsOf {w : List Uop} {c : ℕ} :
    c ∈ ckptsOf w ↔ ∃ u ∈ w, u.dec.isBranch = true ∧ u.ckpt = c := by
  simp [ckptsOf, and_assoc]

namespace Checkpointed
variable {w pre post : List Uop} {archRat : RegisterMap} {pool : CheckpointPool} {u v : Uop}

theorem reset {cfg : Config} (h : cfg.numCheckpoints < 2^31) :
    Checkpointed [] archRat (.reset cfg) where
  small := h
  along := .nil
  none := by simp
  owned := by simp [ckptsOf, CheckpointPool.reset]

variable (h : Checkpointed w archRat pool)
include h

/-- A branch in flight holds a slot of the pool that is not free. -/
theorem branch_spec (hu : u ∈ w) (hb : u.dec.isBranch = true) :
    u.ckpt < pool.capacity ∧ u.ckpt ∉ pool.freeSlots := by
  have hc : u.ckpt ∈ ckptsOf w := mem_ckptsOf.mpr ⟨u, hu, hb, rfl⟩
  have hn : (pool.freeSlots ++ ckptsOf w).Nodup := h.owned.nodup_iff.mpr List.nodup_range
  exact ⟨List.mem_range.mp (h.owned.subset (List.mem_append_right _ hc)),
    fun hf => (List.nodup_append.mp hn).2.2 _ hf _ hc rfl⟩

/-- The slot of a branch holds its own snapshot. -/
theorem slot_eq (hw : w = pre ++ u :: post) (hb : u.dec.isBranch = true) :
    pool.slots u.ckpt = ⟨(pre ++ [u]).foldl Uop.remap archRat, u.feSnap⟩ := by
  have halong := h.along
  rw [hw] at halong
  simpa [List.foldl_append] using halong.at_split hb

theorem push_none (hb : v.dec.isBranch = false) (hc : v.ckpt = INVALID_CHECKPOINT) :
    Checkpointed (w ++ [v]) archRat pool where
  small := h.small
  along := Along.concat_iff.mpr ⟨h.along, fun hvb => by rw [hb] at hvb; contradiction⟩
  none := forall_mem_concat h.none fun _ => hc
  owned := by simpa [ckptsOf_cons, hb, ckptsOf] using h.owned

/-- Rename takes the next free slot for a branch and fills it. -/
theorem push_some {pool' : CheckpointPool} (hb : v.dec.isBranch = true)
    (ha : pool.alloc = some (v.ckpt, pool')) :
    Checkpointed (w ++ [v]) archRat (pool'.fill v.ckpt ⟨v.remap (w.foldl Uop.remap archRat),
      v.feSnap⟩) := by
  simp only [CheckpointPool.alloc] at ha
  split at ha
  · contradiction
  rename_i id rest hl
  simp only [Option.some.injEq, Prod.mk.injEq] at ha
  obtain ⟨rfl, rfl⟩ := ha
  have hfree : v.ckpt ∈ pool.freeSlots := by simp [hl]
  refine ⟨h.small, Along.concat_iff.mpr ⟨h.along.mono fun m a hmem hold hab => ?_, fun _ => by
    simp [CheckpointPool.fill]⟩, forall_mem_concat h.none fun hnb => ?_, ?_⟩
  · have hne : a.ckpt ≠ v.ckpt := fun he => (h.branch_spec hmem hab).2 (he ▸ hfree)
    simpa [CheckpointPool.fill, hne] using hold hab
  · rw [hb] at hnb
    contradiction
  · have ho := h.owned
    rw [hl] at ho
    refine List.Perm.trans ?_ ho
    simp only [CheckpointPool.fill, ckptsOf_append, ckptsOf_cons, hb, if_true,
      show ckptsOf [] = [] from rfl]
    rw [← List.append_assoc]
    exact List.perm_append_singleton v.ckpt _

theorem replace (hw : w = pre ++ u :: post) (ha : u.Advances v) :
    Checkpointed (pre ++ v :: post) archRat pool := by
  have halong := h.along
  rw [hw] at halong
  refine ⟨h.small, halong.replace ?_ (ha.remap_eq _), forall_mem_replace hw h.none fun hvb => ?_,
    ?_⟩
  · intro hb
    rw [ha.ckpt, ha.feSnap, ha.remap_eq]
    exact halong.at_split (ha.dec ▸ hb)
  · rw [ha.ckpt]
    exact h.none u (by simp [hw]) (ha.dec ▸ hvb)
  · have ho := h.owned
    rw [hw, ckptsOf_append, ckptsOf_cons] at ho
    rw [ckptsOf_append, ckptsOf_cons, ha.dec, ha.ckpt]
    exact ho

/-- A committing branch gives its slot back. -/
theorem pop (hw : w = u :: post) :
    Checkpointed post (u.remap archRat) (if u.dec.isBranch then pool.free u.ckpt else pool) := by
  subst hw
  have hnone : ∀ a ∈ post, a.dec.isBranch = false → a.ckpt = INVALID_CHECKPOINT := fun a ha =>
    h.none a (List.mem_cons_of_mem _ ha)
  have ho := h.owned
  rw [ckptsOf_cons] at ho
  by_cases hb : u.dec.isBranch = true
  · rw [if_pos hb] at ho
    have hlt := (h.branch_spec List.mem_cons_self hb).1
    rw [if_pos hb, CheckpointPool.free, if_neg (by omega)]
    refine ⟨h.small, h.along.2, hnone, List.Perm.trans ?_ ho⟩
    simp
  · rw [if_neg hb] at ho
    rw [if_neg hb]
    exact ⟨h.small, h.along.2, hnone, ho⟩

omit h in
private theorem free_killed {us : List Uop} {killed : List RobEntry}
    (hk : List.Forall₂ Mirrors us killed)
    (hsmall : pool.capacity < 2^31)
    (hslot : ∀ u ∈ us, u.dec.isBranch = true → u.ckpt < pool.capacity)
    (hnone : ∀ u ∈ us, u.dec.isBranch = false → u.ckpt = INVALID_CHECKPOINT) :
    killed.foldl (fun c e => c.free e.ckpt) pool =
      { pool with freeSlots := pool.freeSlots ++ ckptsOf us } := by
  induction hk generalizing pool with
  | nil => simp [ckptsOf]
  | @cons u e us killed hue _ ih =>
    have hrest := fun (pool' : CheckpointPool) (hcap : pool'.capacity = pool.capacity) =>
      @ih pool' (hcap ▸ hsmall) (fun v hv => hcap ▸ hslot v (List.mem_cons_of_mem _ hv))
        fun v hv => hnone v (List.mem_cons_of_mem _ hv)
    rw [List.foldl_cons, hue.ckpt, ckptsOf_cons]
    by_cases hb : u.dec.isBranch = true
    · have hlt := hslot u List.mem_cons_self hb
      rw [CheckpointPool.free, if_neg (by omega),
        hrest { pool with freeSlots := pool.freeSlots ++ [u.ckpt] } rfl, if_pos hb]
      simp
    · have hc := hnone u List.mem_cons_self (by simpa using hb)
      rw [CheckpointPool.free, if_pos (by simp only [hc, INVALID_CHECKPOINT]; omega), hrest _ rfl,
        if_neg hb]

/-- A squash gives back the slots of everything behind the kept part. -/
theorem truncate {killed : List RobEntry} (hw : w = pre ++ post)
    (hk : List.Forall₂ Mirrors post.reverse killed) :
    Checkpointed pre archRat (killed.foldl (fun c e => c.free e.ckpt) pool) := by
  have hmem : ∀ u ∈ post.reverse, u ∈ w := fun u hu => by
    rw [hw]
    simp [List.mem_reverse.mp hu]
  rw [free_killed hk h.small (fun u hu hb => (h.branch_spec (hmem u hu) hb).1)
    fun u hu hb => h.none u (hmem u hu) hb]
  have halong := h.along
  rw [hw] at halong
  refine ⟨h.small, (Along.append_iff.mp halong).1, fun u hu hb => h.none u (by simp [hw, hu]) hb,
    ?_⟩
  have ho := h.owned
  rw [hw, ckptsOf_append] at ho
  refine List.Perm.trans ?_ ho
  have hrev : (ckptsOf post.reverse).Perm (ckptsOf post) := by
    simp only [ckptsOf, List.filter_reverse, List.map_reverse]
    exact List.reverse_perm _
  simp only [List.append_assoc]
  exact ((hrev.append_right _).trans List.perm_append_comm).append_left _

end Checkpointed

end OooCpu
