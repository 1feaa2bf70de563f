import OooCpu.BranchPredictor

/-! # What decode guarantees about the flags

The function-unit class and the flags of a decoded instruction are determined by
its operation, and only an operation that produces a value writes a register. -/
namespace OooCpu

def Op.kind : Op → OpKind
  | .mul | .mulh | .mulhsu | .mulhu => .mul
  | .div | .divu | .rem | .remu => .div
  | .beq | .bne | .blt | .bge | .bltu | .bgeu | .jal | .jalr => .branch
  | .lb | .lh | .lw | .lbu | .lhu => .load
  | .sb | .sh | .sw => .store
  | .fence | .fenceI => .nop
  | .ecall | .ebreak | .invalid => .trap
  | _ => .alu

/-- Whether executing the operation leaves a result. -/
def Op.producesResult : Op → Bool
  | .beq | .bne | .blt | .bge | .bltu | .bgeu => false
  | .sb | .sh | .sw | .fence | .fenceI | .ecall | .ebreak | .invalid => false
  | _ => true

/-- The flags agree with the operation. -/
structure Decoded.Shaped (d : Decoded) : Prop where
  kind_eq : d.kind = d.op.kind
  branch_iff : d.isBranch = (d.op.kind == .branch)
  load_iff : d.isLoad = (d.op.kind == .load)
  store_iff : d.isStore = (d.op.kind == .store)
  writes_iff : d.writesRd = (d.op.producesResult && d.rd != 0)

/-- What every class decoder establishes. -/
structure Decoded.Of (raw : Word) (d : Decoded) : Prop extends d.Shaped where
  raw_eq : d.raw = raw

private theorem invalidOf_of (raw : Word) : (invalidOf raw).Of raw :=
  ⟨⟨rfl, rfl, rfl, rfl, rfl⟩, rfl⟩

private theorem of_ite {raw : Word} {c : Prop} [Decidable c] {a b : Decoded} (ha : a.Of raw)
    (hb : b.Of raw) : (if c then a else b).Of raw := by
  split
  · exact ha
  · exact hb

private theorem decodeUpper_of {op : Op} (ho : op = .lui ∨ op = .auipc) (raw : Word) :
    (decodeUpper op raw).Of raw := by
  rcases ho with rfl | rfl <;> exact ⟨⟨rfl, rfl, rfl, rfl, rfl⟩, rfl⟩

private theorem decodeJal_of (raw : Word) : (decodeJal raw).Of raw :=
  ⟨⟨rfl, rfl, rfl, rfl, rfl⟩, rfl⟩

private theorem decodeJalr_of (raw : Word) : (decodeJalr raw).Of raw := by
  dsimp only [decodeJalr]
  split
  · exact invalidOf_of raw
  · exact ⟨⟨rfl, rfl, rfl, rfl, rfl⟩, rfl⟩

private theorem decodeBranch_of (raw : Word) : (decodeBranch raw).Of raw := by
  dsimp only [decodeBranch]
  repeat' first | exact invalidOf_of raw | apply of_ite | exact ⟨⟨rfl, rfl, rfl, rfl, rfl⟩, rfl⟩

private theorem decodeLoad_of (raw : Word) : (decodeLoad raw).Of raw := by
  dsimp only [decodeLoad]
  repeat' first | exact invalidOf_of raw | apply of_ite | exact ⟨⟨rfl, rfl, rfl, rfl, rfl⟩, rfl⟩

private theorem decodeStore_of (raw : Word) : (decodeStore raw).Of raw := by
  dsimp only [decodeStore]
  repeat' first | exact invalidOf_of raw | apply of_ite | exact ⟨⟨rfl, rfl, rfl, rfl, rfl⟩, rfl⟩

private theorem decodeOpImm_of (raw : Word) : (decodeOpImm raw).Of raw := by
  dsimp only [decodeOpImm]
  repeat' first | exact invalidOf_of raw | apply of_ite | exact ⟨⟨rfl, rfl, rfl, rfl, rfl⟩, rfl⟩
  -- both right shifts share one record; only the operation differs
  split <;> exact ⟨⟨rfl, rfl, rfl, rfl, rfl⟩, rfl⟩

private theorem decodeMulDiv_of (raw : Word) : (decodeMulDiv raw).Of raw := by
  dsimp only [decodeMulDiv]
  repeat' first | exact invalidOf_of raw | apply of_ite | exact ⟨⟨rfl, rfl, rfl, rfl, rfl⟩, rfl⟩

private theorem decodeOp_of (raw : Word) : (decodeOp raw).Of raw := by
  dsimp only [decodeOp]
  repeat' first
    | exact invalidOf_of raw
    | exact decodeMulDiv_of raw
    | apply of_ite
    | exact ⟨⟨rfl, rfl, rfl, rfl, rfl⟩, rfl⟩

private theorem decodeMiscMem_of (raw : Word) : (decodeMiscMem raw).Of raw := by
  dsimp only [decodeMiscMem]
  repeat' first | exact invalidOf_of raw | apply of_ite | exact ⟨⟨rfl, rfl, rfl, rfl, rfl⟩, rfl⟩

private theorem decodeSystem_of (raw : Word) : (decodeSystem raw).Of raw := by
  dsimp only [decodeSystem]
  repeat' first | exact invalidOf_of raw | apply of_ite | exact ⟨⟨rfl, rfl, rfl, rfl, rfl⟩, rfl⟩

private theorem decode_of (raw : Word) : (decode raw).Of raw := by
  unfold decode
  repeat' first
    | exact invalidOf_of raw
    | exact decodeUpper_of (.inl rfl) raw
    | exact decodeUpper_of (.inr rfl) raw
    | exact decodeJal_of raw
    | exact decodeJalr_of raw
    | exact decodeBranch_of raw
    | exact decodeLoad_of raw
    | exact decodeStore_of raw
    | exact decodeOpImm_of raw
    | exact decodeOp_of raw
    | exact decodeMiscMem_of raw
    | exact decodeSystem_of raw
    | apply of_ite

@[simp] theorem decode_raw (raw : Word) : (decode raw).raw = raw := (decode_of raw).raw_eq

theorem decode_shaped (raw : Word) : (decode raw).Shaped := (decode_of raw).toShaped

namespace Decoded.Shaped
variable {d : Decoded} (h : d.Shaped)
include h

theorem writes_produces (hw : d.writesRd = true) : d.op.producesResult = true := by
  have := h.writes_iff
  simp_all

theorem writes_ne_zero (hw : d.writesRd = true) : d.rd ≠ 0 := by
  have := h.writes_iff
  simp_all

theorem load_not_store (hl : d.isLoad = true) : d.isStore = false := by
  have h1 := h.load_iff
  have h2 := h.store_iff
  cases ho : d.op <;> simp_all [Op.kind]

theorem branch_not_load (hb : d.isBranch = true) : d.isLoad = false := by
  have h1 := h.branch_iff
  have h2 := h.load_iff
  cases ho : d.op <;> simp_all [Op.kind]

theorem store_op_iff : d.isStore = true ↔ d.op = .sb ∨ d.op = .sh ∨ d.op = .sw := by
  rw [h.store_iff]
  cases d.op <;> simp [Op.kind]

theorem load_op_iff : d.isLoad = true ↔
    d.op = .lb ∨ d.op = .lh ∨ d.op = .lw ∨ d.op = .lbu ∨ d.op = .lhu := by
  rw [h.load_iff]
  cases d.op <;> simp [Op.kind]

end Decoded.Shaped

end OooCpu
