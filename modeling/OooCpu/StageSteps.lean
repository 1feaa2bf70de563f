import OooCpu.Cpu

/-! # What one pass of a stage can do

The outcomes of a pass of fetch, decode, rename, dispatch and commit, guards
included. Every invariant of these stages is proved by cases on them. -/
namespace OooCpu.Cpu

inductive FetchStep (s : Cpu) : Cpu → Prop
  | idle : FetchStep s s
  | fetched (obs : Observer) (room : s.fetchQ.length < s.queueCap) : FetchStep s { s with
      nextUid := u32 (s.nextUid + 1)
      bpred := (s.bpred.predict s.pc).2
      pc := if (s.bpred.predict s.pc).1.taken then (s.bpred.predict s.pc).1.target else s.pc + 4
      fetchQ := s.fetchQ ++ [s.fetched]
      stats := { s.stats with fetched := s.stats.fetched + 1 }
      obs := obs }

theorem fetchOne_step (s : Cpu) : FetchStep s s.fetchOne.state := by
  unfold fetchOne
  split
  · exact .idle
  · rename_i hcap
    have hroom : s.fetchQ.length < s.queueCap := by omega
    have hstep (obs : Observer) := FetchStep.fetched (s := s) obs hroom
    dsimp only
    by_cases ht : (s.bpred.predict s.pc).1.taken = true
    · simp only [ht, if_true] at hstep ⊢
      exact hstep _
    · simp only [ht, Bool.false_eq_true, if_false] at hstep ⊢
      exact hstep _

inductive DecodeStep (s : Cpu) : Cpu → Prop
  | idle : DecodeStep s s
  | decoded {f : Uop} {rest : List Uop} (obs : Observer) (queue : s.fetchQ = f :: rest)
      (room : s.decodeQ.length < s.queueCap) (kind : (decode f.raw).kind ≠ .trap) :
      DecodeStep s { s with
      fetchQ := rest
      decodeQ := s.decodeQ ++ [s.decoded f]
      stats := { s.stats with decoded := s.stats.decoded + 1 }
      obs := obs }
  | trapped {f : Uop} {rest : List Uop} (obs : Observer) (queue : s.fetchQ = f :: rest)
      (room : s.decodeQ.length < s.queueCap) (kind : (decode f.raw).kind = .trap) :
      DecodeStep s { s with
      fetchQ := []
      decodeQ := s.decodeQ ++ [s.decoded f]
      stats := { s.stats with decoded := s.stats.decoded + 1 }
      obs := obs
      fetchStalled := true }

theorem decodeOne_step (s : Cpu) : DecodeStep s s.decodeOne.state := by
  unfold decodeOne
  split
  · exact .idle
  rename_i f rest hq
  split
  · exact .idle
  rename_i hcap
  dsimp only
  split
  · rename_i hk
    exact .trapped _ hq (by omega) hk
  · rename_i hk
    exact .decoded _ hq (by omega) hk

inductive RenameStep (s : Cpu) : Cpu → Prop
  | idle : RenameStep s s
  | stalled (c : Stall) : RenameStep s (s.stall c)
  | renamed {u : Uop} {rest : List Uop} {dest : ℕ} {freeList : FreeList}
      (queue : s.decodeQ = u :: rest)
      (room : s.renameQ.length < s.queueCap) (slot : s.rob.full = false)
      (ckpt : u.dec.isBranch = true → s.ckpts.numFree ≠ 0)
      (alloc : u.dec.writesRd = true ∧ s.freeList.alloc = some (dest, freeList) ∨
        u.dec.writesRd = false ∧ freeList = s.freeList) :
      RenameStep s (s.renameUop u rest dest freeList)

theorem renameOne_step (s : Cpu) : RenameStep s s.renameOne.state := by
  unfold renameOne
  split
  · exact .idle
  rename_i u rest hq
  split
  · exact .idle
  rename_i hcap
  split
  · exact .stalled _
  rename_i hfull
  split
  · exact .stalled _
  rename_i hck
  have hck' : u.dec.isBranch = true → s.ckpts.numFree ≠ 0 := by simpa using hck
  split
  · rename_i hwr
    split
    · exact .stalled _
    · rename_i dest freeList ha
      exact .renamed hq (by omega) (by simpa using hfull) hck' (.inl ⟨hwr, ha⟩)
  · rename_i hwr
    exact .renamed hq (by omega) (by simpa using hfull) hck' (.inr ⟨by simpa using hwr, rfl⟩)

inductive DispatchStep (s : Cpu) : Cpu → Prop
  | idle : DispatchStep s s
  | stalled (c : Stall) : DispatchStep s (s.stall c)
  | dispatched {u : Uop} {rest : List Uop} {idx : ℕ} {lsq : Lsq} (queue : s.renameQ = u :: rest)
      (seat : s.iq.full = false)
      (slot : u.dec.isLoad = true ∧ s.lsq.allocLoad u.seq (accessSize u.dec.op) = some (idx, lsq) ∨
        u.dec.isLoad = false ∧ u.dec.isStore = true ∧
          s.lsq.allocStore u.seq (accessSize u.dec.op) = some (idx, lsq) ∨
        u.dec.isLoad = false ∧ u.dec.isStore = false ∧ lsq = s.lsq) :
      DispatchStep s (s.dispatchUop u rest idx lsq)

theorem dispatchOne_step (s : Cpu) : DispatchStep s s.dispatchOne.state := by
  unfold dispatchOne
  split
  · exact .idle
  rename_i u rest hq
  split
  · exact .stalled _
  rename_i hfull
  have hfull' : s.iq.full = false := by simpa using hfull
  split
  · rename_i hl
    split
    · exact .stalled _
    · rename_i idx lsq ha
      exact .dispatched hq hfull' (.inl ⟨hl, ha⟩)
  rename_i hl
  have hl' : u.dec.isLoad = false := by simpa using hl
  split
  · rename_i hst
    split
    · exact .stalled _
    · rename_i idx lsq ha
      exact .dispatched hq hfull' (.inr (.inl ⟨hl', hst, ha⟩))
  · rename_i hst
    exact .dispatched hq hfull' (.inr (.inr ⟨hl', by simpa using hst, rfl⟩))

end OooCpu.Cpu
