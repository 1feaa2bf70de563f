import OooCpu.ListUpdate
import OooCpu.MemoryBytes
import Mathlib.Data.List.TakeWhile

/-! # What the store queue answers a load

The scan compares unwrapped 64-bit intervals, memory wraps each byte address.
The two agree unless a store that the scan takes for disjoint reaches the load's
bytes around the end of the address space. -/
namespace OooCpu.Lsq

/-- `w` is `e` with whatever was still unresolved filled in. -/
structure FilledBy (e w : LsqEntry) : Prop where
  seq_eq : w.seq = e.seq
  size_eq : w.size = e.size
  addr_eq : e.addrReady = true → w.addr = e.addr
  data_eq : e.dataReady = true → w.data = e.data

/-- The stores in front of the load; a load and a store never share a number. -/
def older (ld : LsqEntry) (stores : List LsqEntry) : List LsqEntry :=
  stores.filter fun st => st.seq ≤ ld.seq

/-- Write stores to memory, oldest first. -/
def writeAll (m : Memory) (ws : List LsqEntry) : Memory :=
  ws.foldl (fun m w => m.storeBytes w.addr w.size w.data) m

/-- An answer agrees with memory however the unresolved fields are filled in. -/
def Agrees (ld : LsqEntry) (stores : List LsqEntry) (r : ForwardResult) : Prop :=
  ∀ (ws : List LsqEntry) (m : Memory), List.Forall₂ FilledBy (older ld stores) ws →
    (r.kind = .forward → r.data = (writeAll m ws).loadBytes ld.addr ld.size) ∧
    (r.kind = .noMatch → m.loadBytes ld.addr ld.size = (writeAll m ws).loadBytes ld.addr ld.size)

/-- A load with the store queue it may be asked about. -/
structure Scannable (ld : LsqEntry) (stores : List LsqEntry) : Prop where
  load_size : IsAccessSize ld.size
  store_size : ∀ st ∈ stores, IsAccessSize st.size
  sorted : stores.Pairwise fun a b => a.seq < b.seq

/-- The unwrapped intervals of two accesses meet. -/
def Meets (ld st : LsqEntry) : Prop :=
  ¬(st.addr.toNat + st.size ≤ ld.addr.toNat ∨ ld.addr.toNat + ld.size ≤ st.addr.toNat)

/-- The unwrapped interval of the load lies inside the store's. -/
def Inside (ld st : LsqEntry) : Prop :=
  st.addr.toNat ≤ ld.addr.toNat ∧ ld.addr.toNat + ld.size ≤ st.addr.toNat + st.size

/-- A store the scan cannot pass over. -/
def Relevant (ld st : LsqEntry) : Prop := st.addrReady = false ∨ Meets ld st

instance (ld st : LsqEntry) : Decidable (Meets ld st) := inferInstanceAs (Decidable (¬_))
instance (ld st : LsqEntry) : Decidable (Inside ld st) := inferInstanceAs (Decidable (_ ∧ _))
instance (ld st : LsqEntry) : Decidable (Relevant ld st) := inferInstanceAs (Decidable (_ ∨ _))

/-- The youngest relevant store among `sts`, which are oldest first. -/
def decider (ld : LsqEntry) (sts : List LsqEntry) : Option LsqEntry :=
  sts.reverse.find? (Relevant ld ·)

/-- The stores younger than the deciding one, youngest first. -/
def passed (ld : LsqEntry) (sts : List LsqEntry) : List LsqEntry :=
  sts.reverse.takeWhile fun st => !decide (Relevant ld st)

/-- The first of `sts` that writes the byte at `a`. -/
def writer (a : Word) (sts : List LsqEntry) : Option LsqEntry :=
  sts.find? fun st => Covers st.addr st.size a

/-- No byte of the load is reached around the end of the address space by a store
the scan passes over, unless that store's byte is the forwarded one. -/
def WrapHarmless (ld : LsqEntry) (sts : List LsqEntry) : Prop :=
  match decider ld sts with
  | none => ∀ st ∈ sts, ∀ k < ld.size, ¬Covers st.addr st.size (ld.addr + BitVec.ofNat 32 k)
  | some s =>
    s.addrReady = true → Inside ld s → s.dataReady = true →
      ∀ k < ld.size, ∀ t, writer (ld.addr + BitVec.ofNat 32 k) (passed ld sts) = some t →
        t.dataReady = true ∧
          byteAt t.addr t.data (ld.addr + BitVec.ofNat 32 k) =
            byteAt s.addr s.data (ld.addr + BitVec.ofNat 32 k)

private theorem run_eq_foldl {ld : LsqEntry} {stores : List LsqEntry}
    (hsorted : stores.Pairwise fun a b => a.seq < b.seq) (s : Scan) :
    Scan.run ld s stores = (older ld stores).foldl (Scan.visit ld) s := by
  induction stores generalizing s with
  | nil => rfl
  | cons st rest ih =>
    obtain ⟨hlt, hrest⟩ := List.pairwise_cons.mp hsorted
    by_cases hy : ld.seq < st.seq
    · have hnone : older ld (st :: rest) = [] := by
        apply List.filter_eq_nil_iff.mpr
        intro b hb
        rcases List.mem_cons.mp hb with rfl | hb
        · simpa using hy
        · have := hlt b hb
          simp only [decide_eq_true_eq]
          omega
      rw [hnone, Scan.run, if_pos hy]
      rfl
    · have hcons : older ld (st :: rest) = st :: older ld rest :=
        List.filter_cons_of_pos (by simpa using hy)
      rw [Scan.run, if_neg hy, ih hrest, hcons, List.foldl_cons]

private theorem visit_irrelevant {ld st : LsqEntry} (h : ¬Relevant ld st) (s : Scan) :
    s.visit ld st = s := by
  obtain ⟨ha, hm⟩ := not_or.mp h
  have ha' : st.addrReady = true := by simpa using ha
  simp only [Scan.visit, ha', Bool.not_true, Bool.false_eq_true, if_false]
  exact if_pos (not_not.mp hm)

/-- The scan ends in what its deciding store says. -/
private theorem foldl_visit (ld : LsqEntry) (sts : List LsqEntry) :
    match decider ld sts with
    | none => sts.foldl (Scan.visit ld) {} = {}
    | some s =>
      if s.addrReady = true ∧ Inside ld s ∧ s.dataReady = true
      then sts.foldl (Scan.visit ld) {} = ⟨⟨.forward, extract s ld⟩, false⟩
      else (sts.foldl (Scan.visit ld) {}).ambiguous = true := by
  induction sts using List.reverseRecOn with
  | nil => rfl
  | append_singleton sts st ih =>
    have hdecider : decider ld (sts ++ [st]) = if Relevant ld st then some st
        else decider ld sts := by
      simp only [decider, List.reverse_append, List.reverse_cons, List.reverse_nil, List.nil_append,
        List.singleton_append, List.find?_cons]
      split <;> simp_all
    rw [hdecider, List.foldl_append]
    simp only [List.foldl_cons, List.foldl_nil]
    by_cases hr : Relevant ld st
    · rw [if_pos hr]
      simp only [Relevant, Meets] at hr
      dsimp only
      by_cases ha : st.addrReady = true
      · have hm := hr.resolve_left (by simp [ha])
        by_cases hc : Inside ld st ∧ st.dataReady = true
        · rw [if_pos ⟨ha, hc⟩]
          simp only [Scan.visit, ha, Bool.not_true, Bool.false_eq_true, if_false, if_neg hm]
          exact if_pos hc
        · rw [if_neg (fun h => hc h.2)]
          simp only [Scan.visit, ha, Bool.not_true, Bool.false_eq_true, if_false, if_neg hm]
          rw [if_neg (show ¬((st.addr.toNat ≤ ld.addr.toNat ∧ _) ∧ st.dataReady = true) from hc)]
      · rw [if_neg (fun h => ha h.1)]
        simp [Scan.visit, ha]
    · rw [if_neg hr, visit_irrelevant hr]
      exact ih

/-- What a load is told when `s` is the store that decides. -/
def verdict (ld : LsqEntry) : Option LsqEntry → ForwardResult
  | none => ⟨.noMatch, 0⟩
  | some s =>
    if s.addrReady = true ∧ Inside ld s ∧ s.dataReady = true then ⟨.forward, extract s ld⟩
      else ⟨.replay, 0⟩

/-- What `searchStores` answers, by the deciding store. -/
private theorem searchStores_eq {ld : LsqEntry} {stores : List LsqEntry}
    (hs : stores.Pairwise fun a b => a.seq < b.seq) (hld : ld.addrReady = true) :
    searchStores ld stores = verdict ld (decider ld (older ld stores)) := by
  have hscan := foldl_visit ld (older ld stores)
  rw [← run_eq_foldl hs] at hscan
  simp only [searchStores, hld, Bool.not_true, Bool.false_eq_true, if_false]
  cases hd : decider ld (older ld stores) with
  | none =>
    simp only [hd] at hscan
    simp only [hscan]
    rfl
  | some s =>
    simp only [hd] at hscan
    simp only [verdict]
    by_cases hc : s.addrReady = true ∧ Inside ld s ∧ s.dataReady = true
    · rw [if_pos hc] at hscan ⊢
      simp only [hscan]
      rfl
    · rw [if_neg hc] at hscan ⊢
      rw [if_pos hscan]

private theorem passed_resolved {ld t : LsqEntry} {sts : List LsqEntry} (h : t ∈ passed ld sts) :
    ¬Relevant ld t := by
  simpa using List.mem_takeWhile_imp h

/-- The stores fall into the ones behind the deciding one, that one, and the ones passed over. -/
private theorem reverse_of_decider {ld s : LsqEntry} {sts : List LsqEntry}
    (h : decider ld sts = some s) :
    ∃ rest, sts.reverse = passed ld sts ++ s :: rest ∧ Relevant ld s := by
  have hrel : Relevant ld s := by simpa using List.find?_some h
  obtain ⟨-, as, bs, heq, has⟩ := List.find?_eq_some_iff_append.mp h
  have hpassed : passed ld sts = as := by
    rw [passed, heq, List.takeWhile_append_of_pos (by simpa using has),
      List.takeWhile_cons_of_neg (by simpa using hrel), List.append_nil]
  exact ⟨bs, by rw [hpassed, heq], hrel⟩

/-- Of the stores in front of the load, `s` is the youngest that the load cannot ignore. -/
structure Decides (ld : LsqEntry) (stores : List LsqEntry) (s : LsqEntry) : Prop where
  mem : s ∈ stores
  older : s.seq ≤ ld.seq
  relevant : Relevant ld s
  youngest : ∀ st ∈ stores, st.seq ≤ ld.seq → Relevant ld st → st.seq ≤ s.seq

private theorem mem_older {ld st : LsqEntry} {stores : List LsqEntry} :
    st ∈ older ld stores ↔ st ∈ stores ∧ st.seq ≤ ld.seq := by
  simp [older]

private theorem decides_of_decider {ld s : LsqEntry} {stores : List LsqEntry}
    (hs : stores.Pairwise fun a b => a.seq < b.seq) (h : decider ld (older ld stores) = some s) :
    Decides ld stores s := by
  obtain ⟨rest, hrev, hrel⟩ := reverse_of_decider h
  have hmem (st : LsqEntry) :
      st ∈ older ld stores ↔ st ∈ passed ld (older ld stores) ++ s :: rest := by
    rw [← hrev, List.mem_reverse]
  obtain ⟨hsmem, hsle⟩ := mem_older.mp ((hmem s).mpr (by simp))
  refine ⟨hsmem, hsle, hrel, fun st hst hle hstrel => ?_⟩
  have hst' := (hmem st).mp (mem_older.mpr ⟨hst, hle⟩)
  rw [List.mem_append, List.mem_cons] at hst'
  rcases hst' with hpassed | rfl | hrest
  · exact absurd hstrel (passed_resolved hpassed)
  · exact le_refl _
  · -- what lies behind the deciding store is older than it
    have hsorted :
        (passed ld (older ld stores) ++ s :: rest).Pairwise fun a b => b.seq < a.seq := by
      rw [← hrev, List.pairwise_reverse]
      exact hs.sublist List.filter_sublist
    obtain ⟨-, hback, -⟩ := List.pairwise_append.mp hsorted
    exact ((List.pairwise_cons.mp hback).1 st hrest).le

private theorem decider_of_decides {ld s : LsqEntry} {stores : List LsqEntry}
    (hs : stores.Pairwise fun a b => a.seq < b.seq) (h : Decides ld stores s) :
    decider ld (older ld stores) = some s := by
  cases hd : decider ld (older ld stores) with
  | none =>
    have hnone := List.find?_eq_none.mp hd s (List.mem_reverse.mpr (mem_older.mpr ⟨h.mem, h.older⟩))
    exact absurd h.relevant (by simpa using hnone)
  | some t =>
    have ht := decides_of_decider hs hd
    have hseq : t.seq = s.seq := le_antisymm (h.youngest t ht.mem ht.older ht.relevant)
      (ht.youngest s h.mem h.older h.relevant)
    have hnodup : (stores.map LsqEntry.seq).Nodup :=
      List.pairwise_map.mpr (hs.imp fun hlt => hlt.ne)
    rw [List.inj_on_of_nodup_map hnodup ht.mem h.mem hseq]

/-- The forwarded word is the load's bytes of the store's payload, zero-extended. -/
private theorem toNat_extract {ld s : LsqEntry} (hin : Inside ld s) (hs : s.size ≤ 4) :
    (extract s ld).toNat = s.data.toNat / 2 ^ (8 * (ld.addr.toNat - s.addr.toNat)) % 2 ^
      (8 * ld.size) := by
  obtain ⟨hlo, hhi⟩ := hin
  have hoff : (ld.addr - s.addr).toNat = ld.addr.toNat - s.addr.toNat := BitVec.toNat_sub_of_le hlo
  have hshift : (8 * (ld.addr - s.addr) : Word).toNat = 8 * (ld.addr.toNat - s.addr.toNat) := by
    rw [BitVec.toNat_mul, hoff, show (8 : Word).toNat = 8 from rfl]
    omega
  simp only [extract, hshift]
  split
  · rename_i h4
    have hmask : ((1 <<< (8 * ld.size)) - 1 : Word).toNat = 2 ^ (8 * ld.size) - 1 := by
      have hcases : ∀ n < 4, ((1 <<< (8 * n)) - 1 : Word).toNat = 2 ^ (8 * n) - 1 := by decide
      exact hcases _ h4
    rw [BitVec.toNat_and, hmask, Nat.and_two_pow_sub_one_eq_mod, BitVec.toNat_ushiftRight,
      Nat.shiftRight_eq_div_pow]
  · rename_i h4
    have hsize : ld.size = 4 := by omega
    rw [BitVec.toNat_ushiftRight, Nat.shiftRight_eq_div_pow, hsize, Nat.mod_eq_of_lt]
    exact (Nat.div_le_self _ _).trans_lt s.data.isLt

/-- The scan decides by the youngest relevant store alone. -/
theorem searchOlderStores_decides (l : Lsq) (loadIdx : ℕ)
    (hld : (l.loads.slots loadIdx).addrReady = true)
    (hs : l.stores.entries.Pairwise fun a b => a.seq < b.seq) :
    (∀ s, Decides (l.loads.slots loadIdx) l.stores.entries s →
      if s.addrReady = true ∧ Inside (l.loads.slots loadIdx) s ∧ s.dataReady = true
      then (l.searchOlderStores loadIdx).kind = .forward ∧ (s.size ≤ 4 →
        (l.searchOlderStores loadIdx).data.toNat =
          s.data.toNat / 2 ^ (8 * ((l.loads.slots loadIdx).addr.toNat - s.addr.toNat)) %
            2 ^ (8 * (l.loads.slots loadIdx).size))
      else l.searchOlderStores loadIdx = ⟨.replay, 0⟩) ∧
    ((∀ s, ¬Decides (l.loads.slots loadIdx) l.stores.entries s) →
      l.searchOlderStores loadIdx = ⟨.noMatch, 0⟩) := by
  have hanswer : l.searchOlderStores loadIdx = _ := searchStores_eq hs hld
  constructor
  · intro s h
    rw [decider_of_decides hs h, verdict] at hanswer
    split
    · rename_i hc
      rw [if_pos hc] at hanswer
      rw [hanswer]
      exact ⟨rfl, toNat_extract hc.2.1⟩
    · rename_i hc
      rwa [if_neg hc] at hanswer
  · intro hnone
    cases hd : decider (l.loads.slots loadIdx) (older (l.loads.slots loadIdx) l.stores.entries) with
    | none => rwa [hd] at hanswer
    | some s => exact absurd (decides_of_decider hs hd) (hnone s)

/-- A store without an address, behind it one that covers the load, and the load. -/
def shadowing : Lsq where
  loads := { capacity := 1, count := 1, slots := fun _ => { seq := 2, addr := 0x101, size := 1, addrReady := true } }
  stores := { capacity := 2, count := 2, slots := fun i => if i = 0 then { seq := 0 }
    else { seq := 1, addr := 0x100, data := 0xAABB, addrReady := true, dataReady := true } }

theorem searchOlderStores_decides_shadowing :
    (shadowing.searchOlderStores 0).kind = .forward ∧ (shadowing.searchOlderStores 0).data.toNat = 0xAA := by
  have hdecides : Decides (shadowing.loads.slots 0) shadowing.stores.entries (shadowing.stores.slots 1) :=
    ⟨by decide, by decide, by decide, by decide⟩
  have hanswer := (searchOlderStores_decides shadowing 0 rfl (by decide)).1 _ hdecides
  rw [if_pos (by decide)] at hanswer
  exact ⟨hanswer.1, (hanswer.2 (by decide)).trans (by decide)⟩

private theorem loadU8_writeAll (m : Memory) {ws : List LsqEntry}
    (hs : ∀ w ∈ ws, IsAccessSize w.size) (a : Word) :
    (writeAll m ws).loadU8 a = match writer a ws.reverse with
      | some w => byteAt w.addr w.data a
      | none => m.loadU8 a := by
  induction ws using List.reverseRecOn with
  | nil => rfl
  | append_singleton ws w ih =>
    have hw : IsAccessSize w.size := hs w (by simp)
    have hws : ∀ v ∈ ws, IsAccessSize v.size := fun v hv => hs v (by simp [hv])
    have hsplit : writeAll m (ws ++ [w]) = (writeAll m ws).storeBytes w.addr w.size w.data := by
      simp [writeAll]
    have hfind : writer a (ws ++ [w]).reverse =
        if Covers w.addr w.size a then some w else writer a ws.reverse := by
      simp only [writer, List.reverse_append, List.reverse_cons, List.reverse_nil, List.nil_append,
        List.singleton_append, List.find?_cons]
      split <;> simp_all
    rw [hsplit, loadU8_storeBytes _ _ _ _ hw, hfind]
    split
    · rfl
    · exact ih hws

/-- Filling in fields of resolved stores moves no write. -/
private theorem writer_filled {ts ws : List LsqEntry} (h : List.Forall₂ FilledBy ts ws)
    (hready : ∀ t ∈ ts, t.addrReady = true) (a : Word) :
    Option.Rel FilledBy (writer a ts) (writer a ws) := by
  induction h with
  | nil => exact .none
  | @cons t w ts ws htw _ ih =>
    have hsame : Covers w.addr w.size a ↔ Covers t.addr t.size a := by
      rw [htw.addr_eq (hready t List.mem_cons_self), htw.size_eq]
    simp only [writer, List.find?_cons, hsame]
    by_cases hc : Covers t.addr t.size a
    · simpa [hc] using Option.Rel.some htw
    · simpa [hc, writer] using ih fun t ht => hready t (List.mem_cons_of_mem _ ht)

private theorem byteOf_ushiftRight (v : Word) (n k : ℕ) :
    byteOf (v >>> (8 * n)) k = byteOf v (n + k) := by
  simp only [byteOf, BitVec.shiftRight_add, Nat.mul_add]

private theorem byteOf_lowMask (v : Word) {size k : ℕ} (hs : size = 1 ∨ size = 2) (hk : k < 4) :
    byteOf (v &&& ((1 <<< (8 * size)) - 1)) k = if k < size then byteOf v k else 0 := by
  have hmask : ∀ k < 4, ∀ i < 8,
      ((1 <<< (8 * size)) - 1 : Word).getLsbD (8 * k + i) = decide (k < size) := by
    rcases hs with rfl | rfl <;> decide
  apply BitVec.eq_of_getLsbD_eq
  intro i hi
  rw [byteOf_getLsbD, BitVec.getLsbD_and, hmask k hk i hi]
  split
  · rename_i hlt
    simp [hlt, byteOf_getLsbD]
  · rename_i hge
    simp [hge]

private theorem byteOf_extract {ld s : LsqEntry} (hld : IsAccessSize ld.size)
    (hs : IsAccessSize s.size)
    (hin : Inside ld s) {k : ℕ} (hk : k < 4) :
    byteOf (extract s ld) k =
      if k < ld.size then byteAt s.addr s.data (ld.addr + BitVec.ofNat 32 k) else 0 := by
  obtain ⟨hlo, hhi⟩ := hin
  have hs4 : s.size ≤ 4 := by rcases hs with h | h | h <;> omega
  have hl1 : 1 ≤ ld.size := by rcases hld with h | h | h <;> omega
  have hoff : (ld.addr - s.addr).toNat = ld.addr.toNat - s.addr.toNat := BitVec.toNat_sub_of_le hlo
  have hshift : (8 * (ld.addr - s.addr) : Word).toNat = 8 * (ld.addr - s.addr).toNat := by
    rw [BitVec.toNat_mul, show (8 : Word).toNat = 8 from rfl]
    omega
  have hbyte (hlt : k < ld.size) :
      byteAt s.addr s.data (ld.addr + BitVec.ofNat 32 k) =
        byteOf s.data ((ld.addr - s.addr).toNat + k) := by
    have hsum : ld.addr + BitVec.ofNat 32 k - s.addr = (ld.addr - s.addr) + BitVec.ofNat 32 k := by
      ring
    rw [byteAt, hsum, BitVec.toNat_add, BitVec.toNat_ofNat]
    congr 1
    omega
  simp only [extract, hshift]
  by_cases h4 : ld.size < 4
  · have hsmall : ld.size = 1 ∨ ld.size = 2 := by rcases hld with h | h | h <;> omega
    rw [if_pos h4, byteOf_lowMask _ hsmall hk, byteOf_ushiftRight]
    split
    · rename_i hlt
      rw [hbyte hlt]
    · rfl
  · have hlt : k < ld.size := by omega
    rw [if_neg h4, if_pos hlt, byteOf_ushiftRight, hbyte hlt]

private theorem covers_of_inside {ld s : LsqEntry} (hin : Inside ld s) (hs : IsAccessSize s.size)
    {k : ℕ}
    (hk : k < ld.size) : Covers s.addr s.size (ld.addr + BitVec.ofNat 32 k) := by
  obtain ⟨hlo, hhi⟩ := hin
  have hs4 : s.size ≤ 4 := by rcases hs with h | h | h <;> omega
  have hoff : (ld.addr - s.addr).toNat = ld.addr.toNat - s.addr.toNat := BitVec.toNat_sub_of_le hlo
  have hsum : ld.addr + BitVec.ofNat 32 k - s.addr = (ld.addr - s.addr) + BitVec.ofNat 32 k := by
    ring
  rw [Covers, hsum, BitVec.toNat_add, BitVec.toNat_ofNat]
  omega

private theorem filled_size {sts ws : List LsqEntry} (h : List.Forall₂ FilledBy sts ws)
    (hs : ∀ st ∈ sts, IsAccessSize st.size) : ∀ w ∈ ws, IsAccessSize w.size := by
  induction h with
  | nil => simp
  | cons hsw _ ih =>
    intro v hv
    rcases List.mem_cons.mp hv with rfl | hv
    · rw [hsw.size_eq]
      exact hs _ List.mem_cons_self
    · exact ih (fun st hst => hs st (List.mem_cons_of_mem _ hst)) v hv

/-- A forwarded value is what memory would hold. -/
private theorem forward_agrees {ld s : LsqEntry} {sts ws : List LsqEntry}
    (hld : IsAccessSize ld.size)
    (hsize : ∀ st ∈ sts, IsAccessSize st.size) (hd : decider ld sts = some s)
    (hs : s.addrReady = true)
    (hin : Inside ld s) (hdata : s.dataReady = true) (hw : WrapHarmless ld sts)
    (hfill : List.Forall₂ FilledBy sts ws) (m : Memory) :
    extract s ld = (writeAll m ws).loadBytes ld.addr ld.size := by
  have hmem : s ∈ sts := by simpa using List.mem_of_find?_eq_some hd
  obtain ⟨rest, hrev, -⟩ := reverse_of_decider hd
  have hfill' := List.forall₂_reverse_iff.mpr hfill
  rw [hrev] at hfill'
  obtain ⟨wp, w, wr, hws, hpassed, hsw, -⟩ := forall₂_split hfill'
  have hresolved : ∀ t ∈ passed ld sts, t.addrReady = true := fun t ht => by
    simpa using (not_or.mp (passed_resolved ht)).1
  simp only [WrapHarmless, hd] at hw
  apply byteOf_ext
  intro k hk
  rw [byteOf_extract hld (hsize s hmem) hin hk, byteOf_loadBytes _ _ hld hk]
  by_cases hlt : k < ld.size
  · have hrel := writer_filled hpassed hresolved (ld.addr + BitVec.ofNat 32 k)
    have hfind : writer (ld.addr + BitVec.ofNat 32 k) ws.reverse =
        (writer (ld.addr + BitVec.ofNat 32 k) wp).or (some w) := by
      have hcov : Covers w.addr w.size (ld.addr + BitVec.ofNat 32 k) := by
        rw [hsw.addr_eq hs, hsw.size_eq]
        exact covers_of_inside hin (hsize s hmem) hlt
      rw [hws, writer, List.find?_append, List.find?_cons_of_pos (by simpa using hcov)]
      rfl
    rw [if_pos hlt, if_pos hlt, loadU8_writeAll m (filled_size hfill hsize), hfind]
    generalize hp : writer (ld.addr + BitVec.ofNat 32 k) (passed ld sts) = p at hrel
    generalize writer (ld.addr + BitVec.ofNat 32 k) wp = q at hrel
    cases hrel with
    | none => simp only [Option.none_or, hsw.addr_eq hs, hsw.data_eq hdata]
    | @some t v htv =>
      obtain ⟨htdata, hbyte⟩ := hw hs hin hdata k hlt t hp
      have ht : t ∈ passed ld sts := List.mem_of_find?_eq_some hp
      simp only [Option.some_or, htv.addr_eq (hresolved t ht), htv.data_eq htdata, hbyte]
  · rw [if_neg hlt, if_neg hlt]

private theorem noMatch_agrees {ld : LsqEntry} {sts ws : List LsqEntry} (hld : IsAccessSize ld.size)
    (hsize : ∀ st ∈ sts, IsAccessSize st.size) (hd : decider ld sts = none)
    (hw : WrapHarmless ld sts)
    (hfill : List.Forall₂ FilledBy sts ws) (m : Memory) :
    m.loadBytes ld.addr ld.size = (writeAll m ws).loadBytes ld.addr ld.size := by
  simp only [WrapHarmless, hd] at hw
  have hresolved : ∀ t ∈ sts.reverse, t.addrReady = true := fun t ht => by
    have hirr : ¬Relevant ld t := by simpa using List.find?_eq_none.mp hd t ht
    simpa using (not_or.mp hirr).1
  rw [loadBytes_eq_iff _ _ _ hld]
  intro k hk
  have hrel := writer_filled (List.forall₂_reverse_iff.mpr hfill) hresolved
    (ld.addr + BitVec.ofNat 32 k)
  have hnone : writer (ld.addr + BitVec.ofNat 32 k) sts.reverse = none := by
    apply List.find?_eq_none.mpr
    intro t ht
    simpa using hw t (List.mem_reverse.mp ht) k hk
  rw [hnone] at hrel
  rw [loadU8_writeAll m (filled_size hfill hsize)]
  generalize writer (ld.addr + BitVec.ofNat 32 k) ws.reverse = q at hrel
  cases hrel
  rfl

/-- Without a harmful wrap, whatever the scan answers agrees with memory. -/
theorem searchStores_agrees {ld : LsqEntry} {stores : List LsqEntry} (h : Scannable ld stores)
    (hw : ld.addrReady = true → WrapHarmless ld (older ld stores)) :
    Agrees ld stores (searchStores ld stores) := by
  intro ws m hfill
  have hsize : ∀ st ∈ older ld stores, IsAccessSize st.size := fun st hst =>
    h.store_size st (List.mem_of_mem_filter hst)
  by_cases hld : ld.addrReady = true
  · have hanswer := searchStores_eq h.sorted hld
    cases hd : decider ld (older ld stores) with
    | none =>
      rw [hd] at hanswer
      refine ⟨fun hf => ?_, fun _ => noMatch_agrees h.load_size hsize hd (hw hld) hfill m⟩
      rw [hanswer] at hf
      contradiction
    | some s =>
      rw [hd, verdict] at hanswer
      split at hanswer
      · rename_i hc
        rw [hanswer]
        refine ⟨fun _ => ?_, fun hn => by contradiction⟩
        exact forward_agrees h.load_size hsize hd hc.1 hc.2.1 hc.2.2 (hw hld) hfill m
      · rw [hanswer]
        exact ⟨fun hf => by contradiction, fun hn => by contradiction⟩
  · simp [searchStores, hld]

/-- Accesses that end inside the address space do no harm. -/
theorem wrapHarmless_of_unwrapped {ld : LsqEntry} {sts : List LsqEntry}
    (hld : ld.addr.toNat + ld.size ≤ 4294967296)
    (hsts : ∀ st ∈ sts, st.addrReady = true → st.addr.toNat + st.size ≤ 4294967296) :
    WrapHarmless ld sts := by
  have hmiss : ∀ st ∈ sts, ¬Relevant ld st →
      ∀ k < ld.size, ¬Covers st.addr st.size (ld.addr + BitVec.ofNat 32 k) := by
    intro st hst hr k hk hcov
    simp only [Relevant, Meets, not_or] at hr
    have hst' := hsts st hst (by simpa using hr.1)
    have hdisjoint := hr.2
    simp only [Covers, BitVec.toNat_sub, BitVec.toNat_add, BitVec.toNat_ofNat] at hcov
    omega
  cases hd : decider ld sts with
  | none =>
    simp only [WrapHarmless, hd]
    intro st hst
    apply hmiss st hst
    simpa using List.find?_eq_none.mp hd st (List.mem_reverse.mpr hst)
  | some s =>
    simp only [WrapHarmless, hd]
    intro _ _ _ k hk t ht
    have hmem : t ∈ passed ld sts := List.mem_of_find?_eq_some ht
    have hcov : Covers t.addr t.size (ld.addr + BitVec.ofNat 32 k) := by
      simpa using List.find?_some ht
    have htsts : t ∈ sts := List.mem_reverse.mp (List.takeWhile_subset _ hmem)
    have hnot : ¬Relevant ld t := by simpa using List.mem_takeWhile_imp hmem
    exact absurd hcov (hmiss t htsts hnot k hk)

/-- Fill every missing payload with `x`, and leave the addresses as they are. -/
private def fillData (x : Word) (st : LsqEntry) : LsqEntry :=
  if st.dataReady then st else { st with data := x }

private theorem filledBy_fillData (x : Word) (st : LsqEntry) : FilledBy st (fillData x st) := by
  unfold fillData
  split
  · exact ⟨rfl, rfl, fun _ => rfl, fun _ => rfl⟩
  · rename_i hd
    exact ⟨rfl, rfl, fun _ => rfl, fun h => absurd h hd⟩

private theorem forall₂_fillData (x : Word) (sts : List LsqEntry) :
    List.Forall₂ FilledBy sts (sts.map (fillData x)) := by
  rw [List.forall₂_map_right_iff, List.forall₂_same]
  exact fun st _ => filledBy_fillData x st

private theorem writer_fillData (x a : Word) (sts : List LsqEntry) :
    writer a (sts.map (fillData x)) = (writer a sts).map (fillData x) := by
  have hsame : ((fun st : LsqEntry => decide (Covers st.addr st.size a)) ∘ fillData x) =
      fun st => decide (Covers st.addr st.size a) := by
    funext st
    simp only [Function.comp_apply, fillData]
    split <;> rfl
  rw [writer, List.find?_map, hsame, writer]

private theorem exists_other_byte (b : Byte) : ∃ x : Word, ∀ j < 4, byteOf x j ≠ b := by
  by_cases hb : b = 0
  · subst b
    exact ⟨BitVec.allOnes 32, by decide⟩
  · refine ⟨0, fun j _ he => hb ?_⟩
    rw [← he]
    simp [byteOf]

private theorem forward_disagrees {ld s : LsqEntry} {sts : List LsqEntry}
    (hld : IsAccessSize ld.size)
    (hsize : ∀ st ∈ sts, IsAccessSize st.size) (hd : decider ld sts = some s) (hin : Inside ld s)
    {k : ℕ} (hk : k < ld.size) {t : LsqEntry}
    (ht : writer (ld.addr + BitVec.ofNat 32 k) (passed ld sts) = some t)
    (hbad : t.dataReady = true →
      byteAt t.addr t.data (ld.addr + BitVec.ofNat 32 k) ≠
        byteAt s.addr s.data (ld.addr + BitVec.ofNat 32 k)) :
    ∃ x, ∀ m, extract s ld ≠ (writeAll m (sts.map (fillData x))).loadBytes ld.addr ld.size := by
  have hmem : s ∈ sts := by simpa using List.mem_of_find?_eq_some hd
  have h4 : ld.size ≤ 4 := by rcases hld with h | h | h <;> omega
  obtain ⟨x, hx⟩ := exists_other_byte (byteAt s.addr s.data (ld.addr + BitVec.ofNat 32 k))
  refine ⟨x, fun m he => ?_⟩
  obtain ⟨rest, hrev, -⟩ := reverse_of_decider hd
  have hfind : writer (ld.addr + BitVec.ofNat 32 k) (sts.map (fillData x)).reverse =
      some (fillData x t) := by
    rw [← List.map_reverse, writer_fillData, hrev, writer, List.find?_append]
    simp only [writer] at ht
    rw [ht]
    rfl
  have hbyte := congrArg (byteOf · k) he
  simp only [byteOf_extract hld (hsize s hmem) hin (by omega : k < 4),
    byteOf_loadBytes _ _ hld (by omega : k < 4), if_pos hk,
    loadU8_writeAll m (filled_size (forall₂_fillData x sts) hsize), hfind] at hbyte
  by_cases hready : t.dataReady = true
  · rw [fillData, if_pos hready] at hbyte
    exact hbad hready hbyte.symm
  · rw [fillData, if_neg hready] at hbyte
    have hcov : Covers t.addr t.size (ld.addr + BitVec.ofNat 32 k) := by
      simpa using List.find?_some ht
    have htmem : t ∈ sts := by
      have : t ∈ sts.reverse := List.takeWhile_subset _ (List.mem_of_find?_eq_some ht)
      simpa using this
    have ht4 : t.size ≤ 4 := by rcases hsize t htmem with h | h | h <;> omega
    exact hx _ (lt_of_lt_of_le hcov ht4) hbyte.symm

private theorem noMatch_disagrees {ld : LsqEntry} {sts : List LsqEntry} (hld : IsAccessSize ld.size)
    (hsize : ∀ st ∈ sts, IsAccessSize st.size) {st : LsqEntry} (hst : st ∈ sts) {k : ℕ}
    (hk : k < ld.size)
    (hcov : Covers st.addr st.size (ld.addr + BitVec.ofNat 32 k)) :
    ∃ m : Memory, m.loadBytes ld.addr ld.size ≠ (writeAll m sts).loadBytes ld.addr ld.size := by
  obtain ⟨w, hw⟩ : ∃ w, writer (ld.addr + BitVec.ofNat 32 k) sts.reverse = some w := by
    apply Option.isSome_iff_exists.mp
    rw [writer, List.find?_isSome]
    exact ⟨st, by simpa using hst, by simpa using hcov⟩
  obtain ⟨x, hx⟩ := exists_other_byte (byteAt w.addr w.data (ld.addr + BitVec.ofNat 32 k))
  refine ⟨Memory.empty.storeU8 (ld.addr + BitVec.ofNat 32 k) (byteOf x 0), fun he => ?_⟩
  have hbyte := (loadBytes_eq_iff _ _ _ hld).mp he k hk
  rw [loadU8_writeAll _ hsize, hw, Memory.loadU8_storeU8, if_pos rfl] at hbyte
  exact hx 0 (by omega) hbyte

private theorem wrapHarmless_of_agrees {ld : LsqEntry} {stores : List LsqEntry}
    (h : Scannable ld stores)
    (hagree : Agrees ld stores (searchStores ld stores)) (hld : ld.addrReady = true) :
    WrapHarmless ld (older ld stores) := by
  have hsize : ∀ st ∈ older ld stores, IsAccessSize st.size := fun st hst =>
    h.store_size st (List.mem_of_mem_filter hst)
  have hanswer := searchStores_eq h.sorted hld
  cases hd : decider ld (older ld stores) with
  | none =>
    rw [hd] at hanswer
    simp only [WrapHarmless, hd]
    intro st hst k hk hcov
    obtain ⟨m, hm⟩ := noMatch_disagrees h.load_size hsize hst hk hcov
    have hsame : List.Forall₂ FilledBy (older ld stores) (older ld stores) :=
      List.forall₂_same.mpr fun st _ => ⟨rfl, rfl, fun _ => rfl, fun _ => rfl⟩
    exact hm ((hagree _ m hsame).2 (by rw [hanswer]; rfl))
  | some s =>
    rw [hd, verdict] at hanswer
    simp only [WrapHarmless, hd]
    intro hs hin hdata k hk t ht
    rw [if_pos ⟨hs, hin, hdata⟩] at hanswer
    by_contra hbad
    obtain ⟨x, hx⟩ :=
      forward_disagrees h.load_size hsize hd hin hk ht fun hready he => hbad ⟨hready, he⟩
    have hforward := (hagree _ Memory.empty (forall₂_fillData x _)).1 (by rw [hanswer])
    rw [hanswer] at hforward
    exact hx Memory.empty hforward

/-- The queue's answer agrees with memory exactly when no wrap does harm. -/
theorem searchOlderStores_agrees_iff (l : Lsq) (loadIdx : ℕ)
    (h : Scannable (l.loads.slots loadIdx) l.stores.entries) :
    Agrees (l.loads.slots loadIdx) l.stores.entries (l.searchOlderStores loadIdx) ↔
      ((l.loads.slots loadIdx).addrReady = true →
        WrapHarmless (l.loads.slots loadIdx) (older (l.loads.slots loadIdx) l.stores.entries)) :=
  ⟨wrapHarmless_of_agrees h, searchStores_agrees h⟩

/-- A word store two bytes below the top of memory, and a byte load from address 0. -/
def wrapping : Lsq where
  loads := { capacity := 1, count := 1, slots := fun _ => { seq := 1, size := 1, addrReady := true } }
  stores := { capacity := 1, count := 1, slots := fun _ =>
    { seq := 0, addr := 0xFFFFFFFE, data := 0xFFFFFFFF, addrReady := true, dataReady := true } }

private theorem wrapping_scannable : Scannable (wrapping.loads.slots 0) wrapping.stores.entries := by
  refine ⟨.inl rfl, fun st hst => ?_, by decide⟩
  obtain rfl : st = wrapping.stores.slots 0 := by simpa [wrapping, LsqQueue.entries, LsqQueue.nth] using hst
  exact .inr (.inr rfl)

theorem searchOlderStores_agrees_iff_wrapping :
    Agrees (wrapping.loads.slots 0) wrapping.stores.entries (wrapping.searchOlderStores 0) ↔
      ((wrapping.loads.slots 0).addrReady = true →
        WrapHarmless (wrapping.loads.slots 0)
          (older (wrapping.loads.slots 0) wrapping.stores.entries)) :=
  searchOlderStores_agrees_iff wrapping 0 wrapping_scannable

/-- The store's third byte lands on address 0, and the load is told that nothing matches. -/
theorem searchOlderStores_wrapping_disagrees :
    Scannable (wrapping.loads.slots 0) wrapping.stores.entries ∧
      ¬Agrees (wrapping.loads.slots 0) wrapping.stores.entries (wrapping.searchOlderStores 0) := by
  refine ⟨wrapping_scannable, fun hagree => ?_⟩
  have hsame := List.forall₂_same.mpr
    fun st (_ : st ∈ older (wrapping.loads.slots 0) wrapping.stores.entries) =>
      (⟨rfl, rfl, fun _ => rfl, fun _ => rfl⟩ : FilledBy st st)
  exact absurd ((hagree _ Memory.empty hsame).2 rfl) (by decide +kernel)

end OooCpu.Lsq
