import OooCpu.DecodeShape
import OooCpu.MemoryBytes
import OooCpu.Window

/-! # What one uop carries through the stages

Decode settles a uop's kind and trap once; execution adds a result and a next PC
and rewrites nothing else. -/
namespace OooCpu

namespace Uop

/-- What decode establishes and every later stage keeps. -/
structure Sound (u : Uop) : Prop where
  dec : u.dec = decode u.raw
  bkind : u.bkind = classify u.dec
  trap : u.trap = if u.dec.op = .invalid then .illegal else .none
  straight : u.dec.isBranch = false ∨ u.isIssued = false → u.nextPc = u.pc + 4
  result : u.isIssued = true → u.dec.writesRd = true → u.hasResult = true

/-- A uop that owns nothing yet and that no stage behind decode has seen. -/
structure Blank (u : Uop) : Prop where
  dest : u.dest = INVALID_PHYSREG
  stale : u.stale = INVALID_PHYSREG
  ckpt : u.ckpt = INVALID_CHECKPOINT
  dispatch : u.isDispatched = false
  issue : u.isIssued = false
  complete : u.isComplete = false

variable {u v : Uop}

theorem Sound.shaped (h : u.Sound) : u.dec.Shaped := h.dec ▸ decode_shaped u.raw

theorem Sound.writer_trap (h : u.Sound) (hwr : u.dec.writesRd = true) : u.trap = .none := by
  have hp := h.shaped.writes_produces hwr
  rw [h.trap, if_neg (fun ho => by simp [ho, Op.producesResult] at hp)]

theorem Sound.store_trap (h : u.Sound) (hs : u.dec.isStore = true) : u.trap = .none := by
  rcases h.shaped.store_op_iff.mp hs with ho | ho | ho <;> simp [h.trap, ho]

/-- Stages that only stamp a cycle keep a uop sound. -/
theorem Sound.advance (h : u.Sound) (ha : u.Advances v) (ht : v.trap = u.trap)
    (hi : v.isIssued = u.isIssued)
    (hn : v.nextPc = u.nextPc) (hr : v.hasResult = u.hasResult) : v.Sound where
  dec := by rw [ha.dec, ha.raw, h.dec]
  bkind := by rw [ha.bkind, ha.dec, h.bkind]
  trap := by rw [ht, ha.dec, h.trap]
  straight := fun hs => by
    rw [hn, ha.pc]
    exact h.straight (by rwa [ha.dec, hi] at hs)
  result := fun hvi hwr => by
    rw [hr]
    exact h.result (hi ▸ hvi) (ha.dec ▸ hwr)

/-- What issue does to a uop. -/
structure Issues (u v : Uop) : Prop extends u.Advances v where
  lsqIdx : v.lsqIdx = u.lsqIdx
  dispatched : v.isDispatched = u.isDispatched
  issued : v.isIssued = true
  complete : v.isComplete = u.isComplete
  sound : u.Sound → v.Sound

end Uop

namespace Cpu

theorem accessSize_isAccessSize (op : Op) : IsAccessSize (accessSize op) := by
  cases op <;> simp [accessSize, IsAccessSize]

/-- Execution computes a result, a target or a store payload, and nothing else changes. -/
theorem executeUop_advances (u : Uop) :
    u.Advances (executeUop u) ∧ (executeUop u).stageAt = u.stageAt ∧
      (executeUop u).lsqIdx = u.lsqIdx := by
  dsimp only [executeUop]
  split
  -- conditional branches rewrite the uop only when they are taken
  case h_21 | h_22 | h_23 | h_24 | h_25 | h_26 =>
    split <;> exact ⟨⟨rfl, rfl, rfl, rfl, rfl, rfl, rfl, rfl, rfl, rfl, rfl, rfl, rfl, rfl, rfl,
      rfl⟩, rfl, rfl⟩
  all_goals exact ⟨⟨rfl, rfl, rfl, rfl, rfl, rfl, rfl, rfl, rfl, rfl, rfl, rfl, rfl, rfl, rfl, rfl⟩,
    rfl, rfl⟩

theorem executeUop_trap {u : Uop} (h : u.dec.op ≠ .invalid) : (executeUop u).trap = u.trap := by
  dsimp only [executeUop]
  split
  case h_21 | h_22 | h_23 | h_24 | h_25 | h_26 => split <;> rfl
  case h_41 ho => exact absurd ho h
  all_goals rfl

theorem executeUop_hasResult {u : Uop} (hp : u.dec.op.producesResult = true)
    (hl : u.dec.op.kind ≠ .load) : (executeUop u).hasResult = true := by
  dsimp only [executeUop]
  split <;> simp_all [Op.producesResult, Op.kind]

theorem executeUop_nextPc {u : Uop} (hb : u.dec.op.kind ≠ .branch) :
    (executeUop u).nextPc = u.nextPc := by
  dsimp only [executeUop]
  split <;> simp_all [Op.kind]

/-- The uop that leaves issue on the non-load path. -/
theorem executeUop_issues {u : Uop} {a b : Word} {wb cyc : ℕ} (hl : u.dec.isLoad = false)
    (hc : cyc ≠ 0) : let x : Uop := { u with val1 := a, val2 := b }
    let y := if x.trap = .none then executeUop x else x
    u.Issues { y with wbCycle := wb, stageAt := { y.stageAt with issue := cyc } } := by
  intro x y
  have hy : x.Advances y ∧ y.stageAt = x.stageAt ∧ y.lsqIdx = x.lsqIdx := by
    dsimp only [y]
    split
    · exact executeUop_advances x
    · exact ⟨⟨rfl, rfl, rfl, rfl, rfl, rfl, rfl, rfl, rfl, rfl, rfl, rfl, rfl, rfl, rfl, rfl⟩, rfl,
        rfl⟩
  obtain ⟨ha, hstage, hidx⟩ := hy
  refine ⟨⟨ha.seq, ha.rob, ha.pc, ha.raw, ha.dec, ha.src1, ha.src2, ha.dest, ha.stale, ha.predTaken,
    ha.predTarget, ha.btbHit, ha.phtIndex, ha.bkind, ha.ckpt, ha.feSnap⟩, hidx, ?_, ?_, ?_,
    fun hu => ?_⟩
  · simp only [Uop.isDispatched, hstage]
    rfl
  · simpa [Uop.isIssued] using hc
  · simp only [Uop.isComplete, hstage]
    rfl
  · have hshape := hu.shaped
    have hload : u.dec.op.kind ≠ .load := by
      have := hshape.load_iff
      rw [hl] at this
      simpa using this.symm
    refine ⟨by rw [ha.dec, ha.raw]; exact hu.dec, by rw [ha.bkind, ha.dec]; exact hu.bkind, ?_,
      fun hs => ?_, fun _ hwr => ?_⟩
    · change y.trap = if y.dec.op = .invalid then .illegal else .none
      rw [ha.dec]
      by_cases ho : u.dec.op = .invalid
      · have hx : x.trap = .illegal := by rw [show x.trap = u.trap from rfl, hu.trap, if_pos ho]
        rw [if_pos (show x.dec.op = .invalid from ho)]
        dsimp only [y]
        rw [if_neg (by simp [hx])]
        exact hx
      · rw [if_neg (show x.dec.op ≠ .invalid from ho)]
        have hx : x.trap = .none := by rw [show x.trap = u.trap from rfl, hu.trap, if_neg ho]
        dsimp only [y]
        rw [if_pos hx, executeUop_trap (show x.dec.op ≠ .invalid from ho), hx]
    · have hb : u.dec.isBranch = false := by
        cases hs with
        | inl hs =>
          rw [← show y.dec = u.dec from ha.dec]
          exact hs
        | inr hs => exact absurd hs (by simpa [Uop.isIssued] using hc)
      have hkind : x.dec.op.kind ≠ .branch := by
        have := hshape.branch_iff
        rw [hb] at this
        simpa using this.symm
      change y.nextPc = y.pc + 4
      rw [ha.pc]
      have hx : x.nextPc = x.pc + 4 := hu.straight (.inl hb)
      dsimp only [y]
      split
      · rw [executeUop_nextPc hkind]
        exact hx
      · exact hx
    · have hwr' : u.dec.writesRd = true := (show y.dec = u.dec from ha.dec) ▸ hwr
      have hx : x.trap = .none := hu.writer_trap hwr'
      change y.hasResult = true
      dsimp only [y]
      rw [if_pos hx]
      exact executeUop_hasResult (hshape.writes_produces hwr') hload

/-- The uop that leaves issue on the load path. -/
theorem loaded_issues {u : Uop} {a b addr value : Word} {wb cyc : ℕ} (hl : u.dec.isLoad = true)
    (hc : cyc ≠ 0) : u.Issues { u with
      val1 := a, val2 := b, memAddr := addr, hasResult := true, result := value, wbCycle := wb
      stageAt := { u.stageAt with issue := cyc } } := by
  refine ⟨⟨rfl, rfl, rfl, rfl, rfl, rfl, rfl, rfl, rfl, rfl, rfl, rfl, rfl, rfl, rfl, rfl⟩, rfl,
    rfl, ?_, rfl, fun hu => ⟨hu.dec, hu.bkind, hu.trap, fun hs => ?_, fun _ _ => rfl⟩⟩
  · simpa [Uop.isIssued] using hc
  · have hb : u.dec.isBranch = false := by
      by_contra hb
      have := hu.shaped.branch_not_load (by simpa using hb)
      rw [hl] at this
      contradiction
    exact hu.straight (.inl hb)

end Cpu

end OooCpu
