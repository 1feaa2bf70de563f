import OooCpu.Execution
import OooCpu.Ref

/-! # The run of the reference interpreter

What the interpreter reads, computes and writes in step `m`, and the runs whose
accesses neither wrap nor touch code. The pipeline's arithmetic is the
interpreter's. -/
namespace OooCpu.Ref

variable (image : Memory) (entryPc : Word)

/-- The word fetched in step `m`. -/
def wordAt (m : ℕ) : Word := (steps image entryPc m).1.loadU32 (steps image entryPc m).2.pc

def insnAt (m : ℕ) : Decoded := decode (wordAt image entryPc m)

def effectAt (m : ℕ) : Effect :=
  execute (steps image entryPc m).1 (steps image entryPc m).2 (insnAt image entryPc m)

def pcAt (m : ℕ) : Word := (steps image entryPc m).2.pc

def regAt (m : ℕ) (r : ArchReg) : Word := (steps image entryPc m).2.regs r

/-- The address a load or store accesses in step `m`. -/
def addrAt (m : ℕ) : Word :=
  regAt image entryPc m (insnAt image entryPc m).rs1 + (insnAt image entryPc m).imm

def sizeAt (m : ℕ) : ℕ := Cpu.accessSize (insnAt image entryPc m).op

/-- The first `n` steps access no byte past the end of the address space and store into no
instruction that is executed among them. -/
structure Tame (n : ℕ) : Prop where
  unwrapped : ∀ m < n, (insnAt image entryPc m).isLoad = true ∨
    (insnAt image entryPc m).isStore = true →
      (addrAt image entryPc m).toNat + sizeAt image entryPc m ≤ 4294967296
  unmodified : ∀ i < n, (insnAt image entryPc i).isStore = true → ∀ j < n, ∀ a,
    Covers (pcAt image entryPc j) 4 a → ¬Covers (addrAt image entryPc i) (sizeAt image entryPc i) a

/-- The first `n` steps access no byte past the end of the address space, change the word of an
instruction only `reach` steps or more before it is executed, and leave some transfer where they
have taken one. -/
structure Spaced (reach n : ℕ) : Prop where
  unwrapped : ∀ m < n, (insnAt image entryPc m).isLoad = true ∨
    (insnAt image entryPc m).isStore = true →
      (addrAt image entryPc m).toNat + sizeAt image entryPc m ≤ 4294967296
  settled : ∀ m < n, ∀ j < m, m < j + reach →
    (steps image entryPc (j + 1)).1.loadU32 (pcAt image entryPc m) =
      (steps image entryPc j).1.loadU32 (pcAt image entryPc m)
  transfers : ∀ j < n + 1, ∀ i < j, (insnAt image entryPc i).isBranch = true →
    (effectAt image entryPc i).nextPc ≠ pcAt image entryPc i + 4 →
    (decode ((steps image entryPc j).1.loadU32 (pcAt image entryPc i))).isBranch = true

variable {image entryPc}

theorem tame_iff {n : ℕ} : Tame image entryPc n ↔
    (∀ m < n, (insnAt image entryPc m).isLoad = true ∨ (insnAt image entryPc m).isStore = true →
      (addrAt image entryPc m).toNat + sizeAt image entryPc m ≤ 4294967296) ∧
    ∀ i < n, (insnAt image entryPc i).isStore = true → ∀ j < n,
      ¬(Covers (pcAt image entryPc j) 4 (addrAt image entryPc i) ∨
        Covers (addrAt image entryPc i) (sizeAt image entryPc i) (pcAt image entryPc j)) := by
  have hsize (i : ℕ) : 0 < sizeAt image entryPc i := by
    rcases Cpu.accessSize_isAccessSize
      (insnAt image entryPc i).op with h | h | h <;> rw [sizeAt] <;> omega
  constructor
  · refine fun h => ⟨h.unwrapped, fun i hi hs j hj => ?_⟩
    rw [← covers_overlap_iff (by omega) (hsize i), not_exists]
    exact fun a ha => h.unmodified i hi hs j hj a ha.1 ha.2
  · refine fun h => ⟨h.1, fun i hi hs j hj a ha ha' => h.2 i hi hs j hj ?_⟩
    rw [← covers_overlap_iff (by omega) (hsize i)]
    exact ⟨a, ha, ha'⟩

instance (n : ℕ) : Decidable (Tame image entryPc n) := decidable_of_iff _ tame_iff.symm

instance (reach n : ℕ) : Decidable (Spaced image entryPc reach n) :=
  decidable_of_iff (_ ∧ _ ∧ _) ⟨fun h => ⟨h.1, h.2.1, h.2.2⟩,
    fun h => ⟨h.unwrapped, h.settled, h.transfers⟩⟩

section Execute
variable {mem : Memory} {st : Result} {d : Decoded} {u : Uop}

/-- Only a store changes memory. -/
theorem execute_mem (hd : d.Shaped) : (execute mem st d).mem =
    if d.isStore then mem.storeBytes (st.regs d.rs1 + d.imm) (Cpu.accessSize d.op) (st.regs d.rs2)
      else mem := by
  by_cases hs : d.isStore = true
  · rw [if_pos hs]
    rcases hd.store_op_iff.mp hs with ho | ho | ho <;> simp only [execute, ho] <;> rfl
  · rw [if_neg hs]
    cases ho : d.op
    case sb | sh | sw => exact absurd (hd.store_op_iff.mpr (by simp [ho])) hs
    case ecall =>
      simp only [execute, ho]
      split <;> rfl
    all_goals simp [execute, ho]

/-- What has a destination has a result. -/
theorem execute_result (hd : d.Shaped) (hw : d.writesRd = true) :
    ∃ v, (execute mem st d).result = some v := by
  have hp := hd.writes_produces hw
  cases ho : d.op <;> simp only [ho, Op.producesResult, Bool.false_eq_true] at hp <;>
    exact ⟨_, by simp only [execute, ho]; rfl⟩

/-- The interpreter's loads, by access size and extension. -/
theorem execute_load (hl : d.isLoad = true) (hd : d.Shaped) : (execute mem st d).result =
    some (Cpu.extendLoad d.op (mem.loadBytes (st.regs d.rs1 + d.imm) (Cpu.accessSize d.op))) := by
  rcases hd.load_op_iff.mp hl with ho | ho | ho | ho | ho <;>
    simp [execute, ho, Cpu.extendLoad, Memory.loadBytes, Cpu.accessSize]

/-- A load from memory reads what the interpreter's load reads. -/
theorem loadMemory_eq (hl : d.isLoad = true) (hd : d.Shaped) (addr : Word) :
    Cpu.loadMemory mem d.op addr =
      Cpu.extendLoad d.op (mem.loadBytes addr (Cpu.accessSize d.op)) := by
  rcases hd.load_op_iff.mp hl with ho | ho | ho | ho | ho <;>
    simp [ho, Cpu.loadMemory, Cpu.extendLoad, Memory.loadBytes, Cpu.accessSize]

/-- A uop that executes the decoded instruction on the interpreter's operands computes what the
interpreter does. -/
theorem executeUop_execute (hd : d.Shaped) (hdec : u.dec = d) (hpc : u.pc = st.pc)
    (h1 : u.val1 = st.regs d.rs1)
    (h2 : u.val2 = st.regs d.rs2) (hnext : u.nextPc = u.pc + 4) (hl : d.isLoad = false)
    (ho : d.op ≠ .invalid) : (Cpu.executeUop u).nextPc = (execute mem st d).nextPc ∧
      (d.writesRd = true → (execute mem st d).result = some (Cpu.executeUop u).result) ∧
      (d.isStore = true → (Cpu.executeUop u).memAddr = st.regs d.rs1 + d.imm ∧
        (Cpu.executeUop u).storeData = st.regs d.rs2) := by
  subst hdec
  have hwr := hd.writes_iff
  simp only [hd.load_iff, hd.store_iff, Cpu.executeUop, execute, h1, h2] at hl ⊢
  cases hop : u.dec.op
  case beq | bne | blt | bge | bltu | bgeu =>
    simp only [hop, Op.producesResult, Bool.false_and] at hwr
    simp only [Alu.branchTaken, Alu.branchTarget, hwr]
    split <;> simp_all [Op.kind]
  case ecall =>
    simp only [hop, Op.producesResult, Bool.false_and] at hwr
    simp only [hwr]
    split <;> simp_all [Op.kind]
  all_goals simp_all [Op.kind, Alu.branchTarget, Alu.linkAddress, Alu.jalrTarget, Op.producesResult]

/-- What is no transfer goes on to the next instruction. -/
theorem execute_nextPc_straight (hd : d.Shaped) (hb : d.isBranch = false) :
    (execute mem st d).nextPc = st.pc + 4 := by
  have hbr := hd.branch_iff
  rw [hb] at hbr
  cases ho : d.op
  case ecall =>
    simp only [execute, ho]
    split <;> rfl
  all_goals simp_all [execute, Op.kind]

theorem execute_halted : (execute mem st d).halted =
    (st.halted || decide (d.op = .ecall ∧ st.regs REG_A7 = SYS_EXIT)) := by
  cases ho : d.op
  case ecall =>
    by_cases hexit : st.regs REG_A7 = SYS_EXIT <;> simp [execute, ho, hexit]
  all_goals simp [execute, ho]

theorem execute_trapped : (execute mem st d).trapped = (st.trapped ||
    decide (d.op = .ecall ∧ st.regs REG_A7 ≠ SYS_EXIT ∨ d.op = .ebreak ∨ d.op = .invalid)) := by
  cases ho : d.op
  case ecall =>
    by_cases hexit : st.regs REG_A7 = SYS_EXIT <;> simp [execute, ho, hexit]
  all_goals simp [execute, ho]

theorem execute_exitCode : (execute mem st d).exitCode =
    if d.op = .ecall ∧ st.regs REG_A7 = SYS_EXIT then st.regs REG_A0 else st.exitCode := by
  cases ho : d.op
  case ecall =>
    by_cases hexit : st.regs REG_A7 = SYS_EXIT <;> simp [execute, ho, hexit]
  all_goals simp [execute, ho]

theorem step_regs (r : ArchReg) : (step mem st).2.regs r = if r = 0 then 0 else
    (execute mem st (decode (mem.loadU32 st.pc))).result.elim (st.regs r) fun v =>
      if (decode (mem.loadU32 st.pc)).writesRd ∧ r = (decode (mem.loadU32 st.pc)).rd then v
        else st.regs r := by
  rw [step]
  cases (execute mem st (decode (mem.loadU32 st.pc))).result <;> rfl

end Execute

theorem insnAt_shaped (m : ℕ) : (insnAt image entryPc m).Shaped := decode_shaped _

theorem regAt_zero (m : ℕ) : regAt image entryPc m 0 = 0 := by
  cases m <;> rfl

theorem mem_succ (m : ℕ) : (steps image entryPc (m + 1)).1 =
    if (insnAt image entryPc m).isStore then (steps image entryPc m).1.storeBytes
      (addrAt image entryPc m)
      (sizeAt image entryPc m) (regAt image entryPc m (insnAt image entryPc m).rs2)
    else (steps image entryPc m).1 := execute_mem (insnAt_shaped m)

/-- A step changes the register its instruction names, if it names one. -/
theorem regAt_succ (m : ℕ) (r : ArchReg) : regAt image entryPc (m + 1) r =
    if (insnAt image entryPc m).writesRd = true ∧ r = (insnAt image entryPc m).rd
    then (effectAt image entryPc m).result.getD 0 else regAt image entryPc m r := by
  have hshape := @insnAt_shaped image entryPc m
  have hzero := @regAt_zero image entryPc m
  have hsucc : regAt image entryPc (m + 1) r = if r = 0 then 0 else
      (effectAt image entryPc m).result.elim (regAt image entryPc m r) fun v =>
        if (insnAt image entryPc m).writesRd ∧ r = (insnAt image entryPc m).rd then v
        else regAt image entryPc m r := step_regs r
  rw [hsucc]
  by_cases hw : (insnAt image entryPc m).writesRd = true ∧ r = (insnAt image entryPc m).rd
  · obtain ⟨v, hv⟩ : ∃ v, (effectAt image entryPc m).result = some v := execute_result hshape hw.1
    have hne : r ≠ 0 := hw.2 ▸ hshape.writes_ne_zero hw.1
    rw [if_neg hne, if_pos hw, hv]
    exact if_pos hw
  · rw [if_neg hw]
    by_cases h0 : r = 0
    · rw [if_pos h0, h0, hzero]
    · rw [if_neg h0]
      cases (effectAt image entryPc m).result with
      | none => rfl
      | some v => exact if_neg hw

/-- The run stays at the instruction that ended it, and memory stays as it is. -/
theorem steps_stuck {m : ℕ}
    (hend : ((effectAt image entryPc m).halted || (effectAt image entryPc m).trapped) = true)
    (hstore : (insnAt image entryPc m).isStore = false) (i : ℕ) :
    (steps image entryPc (m + i)).1 = (steps image entryPc m).1 ∧
      pcAt image entryPc (m + i) = pcAt image entryPc m := by
  suffices hall : ((steps image entryPc (m + i)).1 = (steps image entryPc m).1 ∧
      pcAt image entryPc (m + i) = pcAt image entryPc m) ∧
      ((effectAt image entryPc (m + i)).halted || (effectAt image entryPc (m + i)).trapped) =
        true from hall.1
  induction i with
  | zero => exact ⟨⟨rfl, rfl⟩, hend⟩
  | succ i ih =>
    obtain ⟨⟨hmem, hpc⟩, hdone⟩ := ih
    have hinsn : insnAt image entryPc (m + i) = insnAt image entryPc m := by
      rw [insnAt, wordAt, hmem, ← pcAt, hpc]
      rfl
    refine ⟨⟨?_, ?_⟩, ?_⟩
    · rw [← Nat.add_assoc, mem_succ, hinsn, hstore]
      exact hmem
    · refine Eq.trans ?_ hpc
      change (if (effectAt image entryPc (m + i)).halted ||
        (effectAt image entryPc (m + i)).trapped then
        pcAt image entryPc (m + i) else (effectAt image entryPc (m + i)).nextPc) = _
      rw [if_pos hdone]
    · rw [← Nat.add_assoc, effectAt, execute_halted, execute_trapped]
      change (((effectAt image entryPc (m + i)).halted || _) ||
        ((effectAt image entryPc (m + i)).trapped || _)) = true
      rcases Bool.or_eq_true_iff.mp hdone with h | h <;> simp [h]

/-- A run that has ended has ended at one of its steps, whose instruction accesses no memory. -/
theorem exists_last {n : ℕ} (hdone : (steps image entryPc n).2.done = true) : ∃ m < n,
    (insnAt image entryPc m).isLoad = false ∧ (insnAt image entryPc m).isStore = false ∧
      ∀ i, (steps image entryPc (m + i)).1 = (steps image entryPc m).1 ∧
        pcAt image entryPc (m + i) = pcAt image entryPc m := by
  induction n with
  | zero => exact absurd hdone (by simp [steps, Result.done])
  | succ n ih =>
    cases hrun : (steps image entryPc n).2.done with
    | true =>
      obtain ⟨m, hm, hlast⟩ := ih hrun
      exact ⟨m, by omega, hlast⟩
    | false =>
      have hend : ((effectAt image entryPc n).halted || (effectAt image entryPc n).trapped) =
        true := hdone
      have hshape := @insnAt_shaped image entryPc n
      obtain ⟨hhalted, htrapped⟩ := Bool.or_eq_false_iff.mp hrun
      have hop : (insnAt image entryPc n).op = .ecall ∨ (insnAt image entryPc n).op = .ebreak ∨
          (insnAt image entryPc n).op = .invalid := by
        rw [effectAt, execute_halted, execute_trapped, hhalted, htrapped] at hend
        simp only [Bool.false_or, Bool.or_eq_true, decide_eq_true_eq] at hend
        tauto
      have hload : (insnAt image entryPc n).isLoad = false := by
        by_contra hl
        have hl' := hshape.load_op_iff.mp (by simpa using hl)
        rcases hop with ho | ho | ho <;> simp [ho] at hl'
      have hstore : (insnAt image entryPc n).isStore = false := by
        by_contra hs
        have hs' := hshape.store_op_iff.mp (by simpa using hs)
        rcases hop with ho | ho | ho <;> simp [ho] at hs'
      exact ⟨n, by omega, hload, hstore, steps_stuck hend hstore⟩

/-- A run that is tame until it ends is tame for ever. -/
theorem Tame.extend {n : ℕ} (h : Tame image entryPc n)
    (hdone : (steps image entryPc n).2.done = true) (k : ℕ) : Tame image entryPc k := by
  obtain ⟨m, hm, hload, hstore, hstuck⟩ := exists_last hdone
  have hinsn {i : ℕ} (hi : m ≤ i) : insnAt image entryPc i = insnAt image entryPc m := by
    obtain ⟨hmem, hpc⟩ := hstuck (i - m)
    rw [show m + (i - m) = i by omega] at hmem hpc
    rw [insnAt, wordAt, hmem, ← pcAt, hpc]
    rfl
  have hbefore {i : ℕ} (hs : (insnAt image entryPc i).isLoad = true ∨
      (insnAt image entryPc i).isStore = true) : i < n := by
    by_contra hi
    rw [hinsn (by omega), hload, hstore] at hs
    simp at hs
  refine ⟨fun i _ hs => h.unwrapped i (hbefore hs) hs, fun i _ hs j _ a ha => ?_⟩
  by_cases hj : j < n
  · exact h.unmodified i (hbefore (.inr hs)) hs j hj a ha
  · have hpc := (hstuck (j - m)).2
    rw [show m + (j - m) = j by omega] at hpc
    rw [hpc] at ha
    exact h.unmodified i (hbefore (.inr hs)) hs m hm a ha

/-- A tame step changes no instruction of the run. -/
theorem Tame.word_succ {n j m : ℕ} (h : Tame image entryPc n) (hj : j < n) (hm : m < n) :
    (steps image entryPc (j + 1)).1.loadU32 (pcAt image entryPc m) =
      (steps image entryPc j).1.loadU32 (pcAt image entryPc m) := by
  rw [mem_succ]
  split
  · rename_i hs
    apply (loadBytes_eq_iff _ _ _ (.inr (.inr rfl) : IsAccessSize 4)).mpr
    intro k hk
    have hsize : IsAccessSize (sizeAt image entryPc j) := Cpu.accessSize_isAccessSize _
    rw [loadU8_storeBytes _ _ _ _ hsize,
      if_neg (h.unmodified j hj hs m hm _ ((covers_add _ (by omega)).mpr hk))]
  · rfl

/-- Code that a tame run executes is that of the image. -/
theorem Tame.word_eq {n j m : ℕ} (h : Tame image entryPc n) (hj : j ≤ n) (hm : m < n) :
    (steps image entryPc j).1.loadU32 (pcAt image entryPc m) =
      image.loadU32 (pcAt image entryPc m) := by
  induction j with
  | zero => rfl
  | succ j ih =>
    rw [h.word_succ (by omega) hm]
    exact ih (by omega)

theorem Tame.spaced {n : ℕ} (h : Tame image entryPc n) (reach : ℕ) :
    Spaced image entryPc reach n where
  unwrapped := h.unwrapped
  settled := fun m hm j hj _ => h.word_succ (hj.trans hm) hm
  transfers := fun j hj i hi hbranch _ => by
    have hin : i < n := by omega
    have hword : wordAt image entryPc i = image.loadU32 (pcAt image entryPc i) :=
      h.word_eq hin.le hin
    rw [h.word_eq (by omega) hin, ← hword]
    exact hbranch

/-- An instruction executed fewer than `reach` steps later is already the word in memory. -/
theorem Spaced.wordAt_eq {reach n i m : ℕ} (h : Spaced image entryPc reach n) (hi : i ≤ m)
    (hm : m < n)
    (hr : m < i + reach) :
    wordAt image entryPc m = (steps image entryPc i).1.loadU32 (pcAt image entryPc m) := by
  induction hi using Nat.decreasingInduction with
  | self => rfl
  | of_succ i hi ih => rw [ih (by omega), h.settled m hm i hi hr]

end OooCpu.Ref
