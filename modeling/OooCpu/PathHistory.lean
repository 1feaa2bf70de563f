import OooCpu.Steady

/-! # The predictor's history of the committed path

What the history register and the return stack would hold had only the committed
instructions ever been fetched. Every committed instruction was fetched under
exactly that, whatever was fetched and squashed in between. -/
namespace OooCpu

/-- History register and return stack along the committed path. -/
structure PathHistory where
  g : Word
  r : Ras

namespace PathHistory

def start (cfg : Config) : PathHistory := ⟨0, .reset cfg.rasSize⟩

/-- How a committed instruction moves them: only what hit the target buffer was predicted. -/
def after (cfg : Config) (h : PathHistory) (u : Uop) : PathHistory where
  g := if u.btbHit = true ∧ u.bkind = .conditional
    then Gshare.shifted (Gshare.reset cfg).ghrMask h.g (u.nextPc != u.pc + 4) else h.g
  r := if u.btbHit then
      match u.bkind with
      | .call => h.r.push (u.pc + 4)
      | .return => if h.r.isEmpty then h.r else h.r.pop.2
      | _ => h.r
    else h.r

/-- The instruction was fetched under this history. -/
structure Seen (cfg : Config) (h : PathHistory) (u : Uop) : Prop where
  ghr : u.feSnap.ghr = h.g
  ras : u.feSnap.ras = (h.after cfg u).r
  index : u.phtIndex = Gshare.indexOf (Gshare.reset cfg).size h.g u.pc

/-- Every instruction of a history was fetched under the instructions in front of it, and nothing
else. -/
def SeenAll (cfg : Config) (log : List Uop) : Prop :=
  ∀ pre u post, log = pre ++ u :: post → (pre.foldl (after cfg) (start cfg)).Seen cfg u

variable {cfg : Config} {st : FrontState} {h : PathHistory} {u : Uop} {us : List Uop}

private theorem fetchKind_eq (hsound : u.Sound) : u.fetchKind = u.bkind := by
  rw [Uop.fetchKind, hsound.bkind, hsound.dec]

/-- A committed instruction moves the front end as it moves the history. -/
private theorem advance_eq (hsound : u.Sound) (hi : u.isIssued = true) (hg : st.ghr = h.g)
    (hr : st.ras = h.r) :
    (st.advance cfg u).ghr = (h.after cfg u).g ∧ (st.advance cfg u).ras = (h.after cfg u).r := by
  have hsucc : u.successor = u.nextPc := by simp [Uop.successor, hi]
  constructor
  · simp only [FrontState.advance, after, hsucc, fetchKind_eq hsound, hg]
  · change u.rasAfter st.ras = (h.after cfg u).r
    cases hb : u.btbHit <;> cases hk : u.bkind <;>
      simp [Uop.rasAfter, after, fetchKind_eq hsound, hr, hb, hk]

private theorem foldl_eq (hus : ∀ u ∈ us, u.Sound ∧ u.isIssued = true) (hg : st.ghr = h.g)
    (hr : st.ras = h.r) : (us.foldl (FrontState.advance cfg) st).ghr = (us.foldl (after cfg) h).g ∧
      (us.foldl (FrontState.advance cfg) st).ras = (us.foldl (after cfg) h).r := by
  induction us generalizing st h with
  | nil => exact ⟨hg, hr⟩
  | cons u us ih =>
    obtain ⟨hsound, hi⟩ := hus u List.mem_cons_self
    obtain ⟨hg', hr'⟩ := @advance_eq cfg st h u hsound hi hg hr
    exact ih (fun v hv => hus v (List.mem_cons_of_mem _ hv)) hg' hr'

end PathHistory

namespace Cpu

/-- Wrong paths leave no trace in the history that committed instructions were fetched under. -/
theorem seenAll_committed (mem : Memory) (cfg : Config) (entryPc : Word) (k : ℕ)
    (h : cfg.Admissible)
    (hb : (ticked mem cfg entryPc k).stats.renamed < 4294967296)
    (hself : NoSelfMod (committed mem cfg entryPc k)) :
    PathHistory.SeenAll cfg (committed mem cfg entryPc k) := by
  have hfront := (steady_ticked h mem k hself hb).led.frontEnd
  have hcommitted := hfront.committed
  have halong := hfront.along
  simp only at hcommitted halong
  intro pre u post hu
  rw [hu] at hcommitted halong
  rw [List.append_assoc, List.cons_append] at halong
  have hfetch := halong.at_split.exact trivial
  obtain ⟨hsound, hi⟩ := hcommitted u (by simp)
  obtain ⟨hg, hr⟩ := @PathHistory.foldl_eq cfg (.reset cfg entryPc) (.start cfg) pre
    (fun v hv => hcommitted v (List.mem_append_left _ hv)) rfl rfl
  refine ⟨?_, ?_, ?_⟩
  · rw [hfetch.snapshot, hg]
  · rw [hfetch.snapshot]
    exact (PathHistory.advance_eq hsound hi hg hr).2
  · rw [hfetch.index, hg]

/-- A loop that calls a function three times. -/
def calling : Memory :=
  [((0 : Word), (0x00300293 : Word)), (4, 0x018000EF), (8, 0xFFF28293), (12, 0xFE029CE3),
    (16, 0x05D00893), (20, 0x00000073), (28, 0x00130313), (32, 0x00008067)].foldl
      (fun m (p : Word × Word) => m.storeU32 p.1 p.2) .empty

/-- From the second time round the branch, the call and the return are predicted, and both loops of
the branch are in the register at the end. -/
theorem seenAll_committed_calling : PathHistory.SeenAll {} (committed calling {} 0 27) ∧
    ((committed calling {} 0 27).filter Uop.btbHit).map Uop.bkind =
      [.call, .return, .conditional, .call, .return, .conditional] ∧
    ((committed calling {} 0 27).foldl (PathHistory.after {}) (.start {})).g = 2 :=
  ⟨seenAll_committed calling {} 0 27 admissible_default (by decide +kernel) (by decide +kernel),
    by decide +kernel, by decide +kernel⟩

end Cpu

end OooCpu
