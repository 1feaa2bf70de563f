import OooCpu.Refinement

/-! # Programs that patch their own code

A store reaches memory when it commits, and fetch has read memory up to a whole
machine ahead by then. `FENCE.I` is a no-op and does not wait for either, so what
decides whether a patch is seen is how far ahead of it the patched code lies. -/
namespace OooCpu

namespace Ref
variable (image : Memory) (entryPc : Word)

/-- No load or store of the run accesses a byte past the end of the address space. -/
def Unwrapped : Prop :=
  ∀ m, (insnAt image entryPc m).isLoad = true ∨ (insnAt image entryPc m).isStore = true →
    (addrAt image entryPc m).toNat + sizeAt image entryPc m ≤ 4294967296

/-- Between a step that changes the word of an instruction and any later execution of that
instruction a `FENCE.I` is executed. -/
def Fenced : Prop :=
  ∀ j m, j < m → (steps image entryPc (j + 1)).1.loadU32 (pcAt image entryPc m) ≠
      (steps image entryPc j).1.loadU32 (pcAt image entryPc m) →
    ∃ k, j < k ∧ k < m ∧ (insnAt image entryPc k).op = .fenceI

end Ref

namespace Cpu

/-- Whether or not a program fences its patches, the pipeline agrees with the reference as long as
every patch lies at least `reach` instructions ahead and no transfer that has been taken is turned
into something else. -/
theorem agrees_spaced (image : Memory) (cfg : Config) (entryPc : Word) (k : ℕ) (h : cfg.Admissible)
    (hb : (ticked image cfg entryPc k).stats.renamed < 4294967296)
    (hspaced : Ref.Spaced image entryPc cfg.reach (ticked image cfg entryPc k).stats.retired) :
    Agrees image entryPc (ticked image cfg entryPc k).stats.retired
      (ticked image cfg entryPc k) := by
  have hlen := @committed_length cfg entryPc image k
  have htrack := (history_tracked h k hspaced hlen.le hb).2
  rw [← hlen, ← history_fst]
  exact htrack.agrees

/-- A branch that is taken, the store of a jump over it, and the way back to it. -/
def patchingAhead : Memory :=
  [(0, 0x00000463), (8, 0x10002083), (12, 0x00102023), (16, 0x05D00893), (20, 0x00000013),
    (24, 0x00000013), (28, 0xFE5FF06F), (40, 0x00000073), (256, 0x0280006F)].foldl
      (fun m (p : Word × Word) => m.storeU32 p.1 p.2) .empty

theorem agrees_spaced_patchingAhead :
    Agrees patchingAhead 0 (ticked patchingAhead { width := 1, robSize := 1 } 0 40).stats.retired
      (ticked patchingAhead { width := 1, robSize := 1 } 0 40) :=
  agrees_spaced patchingAhead { width := 1, robSize := 1 } 0 40 (by constructor <;> decide)
    (by decide +kernel)
    (by decide +kernel)

/-- The store of a word that is no instruction two instructions ahead, a `FENCE.I` between them. -/
def patching : Memory :=
  [(0, 0x00002423), (4, 0x0000100F), (8, 0x00100093), (12, 0x05D00893), (16, 0x00000073)].foldl
    (fun m (p : Word × Word) => m.storeU32 p.1 p.2) .empty

private theorem patching_stuck (i : ℕ) :
    (Ref.steps patching 0 (2 + i)).1 = (Ref.steps patching 0 2).1 ∧
      Ref.pcAt patching 0 (2 + i) = Ref.pcAt patching 0 2 :=
  Ref.steps_stuck (by decide +kernel) (by decide +kernel) i

/-- The fence does not make fetch wait for the store: the machine executes the old instruction. -/
theorem patching_disagrees :
    Config.Admissible {} ∧ Ref.Fenced patching 0 ∧ Ref.Unwrapped patching 0 ∧
      (ticked patching {} 0 9).stats.renamed < 4294967296 ∧
        ¬Agrees patching 0 (ticked patching {} 0 9).stats.retired (ticked patching {} 0 9) := by
  refine ⟨admissible_default, fun j m hjm hne => ?_, fun m hm => ?_, by decide +kernel, fun h => ?_⟩
  · rcases j with _ | _ | j
    · obtain rfl | hm : m = 1 ∨ 1 < m := by omega
      · exact absurd (by decide +kernel) hne
      · exact ⟨1, by omega, hm, by decide +kernel⟩
    · exact absurd (by rw [Ref.mem_succ, if_neg (by decide +kernel)]) hne
    · rw [show j + 1 + 1 + 1 = 2 + (j + 1) by omega, (patching_stuck (j + 1)).1,
        show j + 1 + 1 = 2 + j by omega, (patching_stuck j).1] at hne
      contradiction
  · rcases m with _ | _ | m
    · decide +kernel
    · exact absurd hm (by decide +kernel)
    · have hinsn : Ref.insnAt patching 0 (m + 1 + 1) = Ref.insnAt patching 0 2 := by
        rw [show m + 1 + 1 = 2 + m by omega, Ref.insnAt, Ref.wordAt,
          (patching_stuck m).1, ← Ref.pcAt, (patching_stuck m).2]
        rfl
      rw [hinsn] at hm
      exact absurd hm (by decide +kernel)
  · have htrapped := h.trapped
    revert htrapped
    decide +kernel

end Cpu

end OooCpu
