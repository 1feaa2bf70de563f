import OooCpu.Window

/-! # Where an in-flight uop is waiting

The rename queue holds the undispatched tail of the window. Of the others, the
issue queue holds those not yet issued, in program order, and the execution and
writeback queues hold those issued and not yet complete. -/
namespace OooCpu

/-- What an issue-queue entry says beyond its ready bits. -/
def IssueQueue.Entry.bare (e : IssueQueue.Entry) : IssueQueue.Entry :=
  { e with src1Ready := true, src2Ready := true }

/-- The entry dispatch makes for a uop, beyond its ready bits. -/
def Uop.seat (cfg : Config) (u : Uop) : IssueQueue.Entry :=
  { seq := u.seq
    rob := u.rob
    kind := u.dec.kind
    src1 := u.src1
    src2 := u.src2
    dest := u.dest
    latency := Cpu.latencyOf cfg u.dec }

/-- The queues behind rename partition the window. -/
structure Staged (cfg : Config) (w renameQ : List Uop) (iq : IssueQueue)
    (executing wbFast wbSlow : List Uop) : Prop where
  front : ∃ d, w = d ++ renameQ ∧ ∀ u ∈ d, u.isDispatched = true
  renamed : ∀ u ∈ renameQ, u.isDispatched = false
  issued : ∀ u ∈ w, u.isIssued = true → u.isDispatched = true
  complete : ∀ u ∈ w, u.isComplete = true → u.isIssued = true
  seated : iq.entries.map IssueQueue.Entry.bare = (w.filter Uop.waiting).map (Uop.seat cfg)
  running : (executing ++ wbFast ++ wbSlow).Perm (w.filter Uop.running)

/-- In a list ordered by sequence number, what is not younger than an element ends with it. -/
theorem filter_seq_le {pre post : List Uop} {u : Uop} (hpre : ∀ v ∈ pre, v.seq < u.seq)
    (hpost : ∀ v ∈ post, u.seq < v.seq) :
    (pre ++ u :: post).filter (fun v => v.seq ≤ u.seq) = pre ++ [u] := by
  have h1 : pre.filter (fun v => decide (v.seq ≤ u.seq)) = pre :=
    List.filter_eq_self.mpr fun v hv => by simpa using (hpre v hv).le
  have h2 : post.filter (fun v => decide (v.seq ≤ u.seq)) = [] :=
    List.filter_eq_nil_iff.mpr fun v hv => by simpa using hpost v hv
  rw [List.filter_append, List.filter_cons_of_pos (by simp), h1, h2]

namespace Staged
variable {cfg : Config} {w renameQ executing wbFast wbSlow pre post : List Uop} {iq : IssueQueue}
    {u v : Uop}

theorem reset : Staged cfg [] [] (.reset cfg) [] [] [] where
  front := ⟨[], rfl, by simp⟩
  renamed := by simp
  issued := by simp
  complete := by simp
  seated := rfl
  running := by simp

variable (h : Staged cfg w renameQ iq executing wbFast wbSlow)
include h

/-- A dispatched uop stands in front of the rename queue, and so does all that is older. -/
theorem front_split (hw : w = pre ++ u :: post) (hu : u.isDispatched = true) :
    ∃ d, post = d ++ renameQ ∧ (∀ a ∈ pre, a.isDispatched = true) ∧
      ∀ a ∈ d, a.isDispatched = true := by
  obtain ⟨d, hd, hdisp⟩ := h.front
  have hnot : u ∉ renameQ := fun hm => by
    have := h.renamed u hm
    rw [hu] at this
    contradiction
  rcases List.append_eq_append_iff.mp (hw.symm.trans hd) with ⟨a, rfl, ha⟩ | ⟨c, rfl, hc⟩
  · rcases a with _ | ⟨a, as⟩
    · exact absurd (by simp [← (show u :: post = renameQ from ha)]) hnot
    · simp only [List.cons_append, List.cons.injEq] at ha
      obtain ⟨rfl, ha⟩ := ha
      exact ⟨as, ha, fun b hb => hdisp b (by simp [hb]), fun b hb => hdisp b (by simp [hb])⟩
  · exact absurd (by simp [hc]) hnot

private theorem front_replace (hw : w = pre ++ u :: post) (hu : u.isDispatched = true)
    (hv : v.isDispatched = true) :
    ∃ d, pre ++ v :: post = d ++ renameQ ∧ ∀ a ∈ d, a.isDispatched = true := by
  obtain ⟨d, rfl, hpre, hd⟩ := h.front_split hw hu
  exact ⟨pre ++ v :: d, by simp, forall_mem_split (fun a ha => ha.elim (hpre a) (hd a)) hv⟩

theorem push (hd : v.isDispatched = false) (hi : v.isIssued = false) (hc : v.isComplete = false) :
    Staged cfg (w ++ [v]) (renameQ ++ [v]) iq executing wbFast wbSlow := by
  obtain ⟨d, hw, hdisp⟩ := h.front
  refine ⟨⟨d, by rw [hw, List.append_assoc], hdisp⟩, ?_, ?_, ?_, ?_, ?_⟩
  · exact forall_mem_concat h.renamed hd
  · apply forall_mem_concat h.issued
    intro hvi
    rw [hi] at hvi
    contradiction
  · apply forall_mem_concat h.complete
    intro hvc
    rw [hc] at hvc
    contradiction
  · simpa [List.filter_append, Uop.waiting, hd] using h.seated
  · simpa [List.filter_append, Uop.running, hi] using h.running

/-- Dispatch seats the oldest renamed uop behind everything in the issue queue. -/
theorem dispatch {rest : List Uop} {e : IssueQueue.Entry} (hq : renameQ = u :: rest)
    (hd : v.isDispatched = true) (hi : v.isIssued = u.isIssued) (hc : v.isComplete = u.isComplete)
    (he : e.bare = v.seat cfg) :
    ∃ d, w = d ++ u :: rest ∧
      Staged cfg (d ++ v :: rest) rest (iq.insert e) executing wbFast wbSlow := by
  obtain ⟨d, hw, hdisp⟩ := h.front
  rw [hq] at hw
  have hu : u.isDispatched = false := h.renamed u (by simp [hq])
  have hui : u.isIssued = false := by
    have hmem : u ∈ w := by simp [hw]
    by_contra hne
    have := h.issued u hmem (by simpa using hne)
    rw [hu] at this
    contradiction
  have hwait : rest.filter Uop.waiting = [] := List.filter_eq_nil_iff.mpr fun a ha => by
    simp [Uop.waiting, h.renamed a (by simp [hq, ha])]
  refine ⟨d, hw, ⟨⟨d ++ [v], by simp, ?_⟩, ?_, ?_, ?_, ?_, ?_⟩⟩
  · exact forall_mem_concat hdisp hd
  · exact fun a ha => h.renamed a (by simp [hq, ha])
  · exact forall_mem_replace hw h.issued fun _ => hd
  · apply forall_mem_replace hw h.complete
    intro hvc
    rw [hi]
    exact h.complete u (by simp [hw]) (hc ▸ hvc)
  · have hs := h.seated
    rw [hw, List.filter_append, List.filter_cons_of_neg (by simp [Uop.waiting, hu]), hwait,
      List.append_nil] at hs
    rw [List.filter_append, List.filter_cons_of_pos (by simp [Uop.waiting, hd, hi, hui]), hwait]
    simp [IssueQueue.insert, hs, he]
  · have hr := h.running
    rw [hw, List.filter_append, List.filter_cons_of_neg (by simp [Uop.running, hui])] at hr
    rwa [List.filter_append, List.filter_cons_of_neg (by simp [Uop.running, hi, hui])]

/-- A candidate of the issue queue names a waiting uop of the window. -/
theorem mem_iq {e : IssueQueue.Entry} (he : e ∈ iq.entries) :
    ∃ u ∈ w, u.waiting = true ∧ e.bare = u.seat cfg := by
  have hm : e.bare ∈ (w.filter Uop.waiting).map (Uop.seat cfg) := by
    rw [← h.seated]
    exact List.mem_map_of_mem he
  obtain ⟨u, hu, hs⟩ := List.mem_map.mp hm
  obtain ⟨huw, hwait⟩ := List.mem_filter.mp hu
  exact ⟨u, huw, hwait, hs.symm⟩

theorem iq_sorted (hsorted : w.Pairwise fun u v => u.seq < v.seq) :
    iq.entries.Pairwise fun a b => a.seq < b.seq := by
  have hm : (iq.entries.map IssueQueue.Entry.bare).Pairwise fun a b => a.seq < b.seq := by
    rw [h.seated, List.pairwise_map]
    exact (hsorted.sublist List.filter_sublist).imp fun hlt => hlt
  exact (List.pairwise_map.mp hm).imp fun hlt => hlt

private theorem seated_erase (hw : w = pre ++ u :: post) (hpre : ∀ v ∈ pre, v.seq < u.seq)
    (hu : u.waiting = true) :
    (iq.erase u.seq).entries.map IssueQueue.Entry.bare =
      ((pre ++ post).filter Uop.waiting).map (Uop.seat cfg) := by
  have hs := h.seated
  rw [hw, List.filter_append, List.filter_cons_of_pos hu, List.map_append, List.map_cons] at hs
  have hcomm : (iq.erase u.seq).entries.map IssueQueue.Entry.bare =
      (iq.entries.map IssueQueue.Entry.bare).eraseP fun e => e.seq == u.seq := by
    rw [List.eraseP_map]
    rfl
  rw [hcomm, hs, List.eraseP_append_right,
    List.eraseP_cons_of_pos (by simp [Uop.seat]), ← List.map_append, ← List.filter_append]
  intro e he
  obtain ⟨a, ha, rfl⟩ := List.mem_map.mp he
  have := hpre a (List.mem_of_mem_filter ha)
  simp only [Uop.seat, beq_iff_eq]
  omega

/-- Issue takes a waiting uop out of the issue queue and into one of the queues behind it. -/
theorem issue {ex fast slow : List Uop} (hw : w = pre ++ u :: post)
    (hpre : ∀ v ∈ pre, v.seq < u.seq)
    (hu : u.waiting = true) (hd : v.isDispatched = true) (hi : v.isIssued = true)
    (hc : v.isComplete = false)
    (hq : (ex ++ fast ++ slow).Perm (v :: (executing ++ wbFast ++ wbSlow))) :
    Staged cfg (pre ++ v :: post) renameQ (iq.erase u.seq) ex fast slow := by
  subst hw
  simp only [Uop.waiting, Bool.and_eq_true, Bool.not_eq_true'] at hu
  have huc : u.isComplete = false := by
    by_contra hne
    have := h.complete u (by simp) (by simpa using hne)
    rw [hu.2] at this
    contradiction
  refine ⟨h.front_replace rfl hu.1 hd, h.renamed, forall_mem_replace rfl h.issued fun _ => hd, ?_,
    ?_, ?_⟩
  · exact forall_mem_replace rfl h.complete fun hvc => by rw [hc] at hvc; contradiction
  · rw [seated_erase h rfl hpre (by simp [Uop.waiting, hu]), List.filter_append, List.filter_append,
      List.filter_cons_of_neg (by simp [Uop.waiting, hi])]
  · have hr := h.running
    rw [List.filter_append, List.filter_cons_of_neg (by simp [Uop.running, hu.2])] at hr
    rw [List.filter_append, List.filter_cons_of_pos (by simp [Uop.running, hi, hc])]
    exact hq.trans ((hr.cons v).trans List.perm_middle.symm)

/-- Handing results from one queue to another changes nothing. -/
theorem move {ex fast slow : List Uop}
    (hq : (ex ++ fast ++ slow).Perm (executing ++ wbFast ++ wbSlow)) :
    Staged cfg w renameQ iq ex fast slow :=
  ⟨h.front, h.renamed, h.issued, h.complete, h.seated, hq.trans h.running⟩

/-- Every result on its way belongs to a running uop of the window. -/
theorem mem_running (hu : u ∈ executing ++ wbFast ++ wbSlow) : u ∈ w ∧ u.running = true :=
  List.mem_filter.mp (h.running.subset hu)

/-- Writeback completes a running uop. -/
theorem land {ex fast slow : List Uop} {p : ℕ} (hw : w = pre ++ u :: post) (hu : u.running = true)
    (hd : v.isDispatched = u.isDispatched) (hi : v.isIssued = true) (hc : v.isComplete = true)
    (hq : (executing ++ wbFast ++ wbSlow).Perm (u :: (ex ++ fast ++ slow))) :
    Staged cfg (pre ++ v :: post) renameQ (iq.wakeup p) ex fast slow := by
  subst hw
  simp only [Uop.running, Bool.and_eq_true, Bool.not_eq_true'] at hu
  have hud : u.isDispatched = true := h.issued u (by simp) hu.1
  have hbare (p : ℕ) : IssueQueue.Entry.bare ∘ IssueQueue.Entry.hear p = IssueQueue.Entry.bare :=
    rfl
  refine ⟨h.front_replace rfl hud (hd.trans hud), h.renamed,
    forall_mem_replace rfl h.issued fun _ => hd.trans hud,
    forall_mem_replace rfl h.complete fun _ => hi, ?_, ?_⟩
  · have hs := h.seated
    rw [List.filter_append, List.filter_cons_of_neg (by simp [Uop.waiting, hu.1])] at hs
    rw [List.filter_append, List.filter_cons_of_neg (by simp [Uop.waiting, hi])]
    simp only [IssueQueue.wakeup]
    split
    · exact hs
    · rw [List.map_map, hbare]
      exact hs
  · have hr := h.running
    rw [List.filter_append, List.filter_cons_of_pos (by simp [Uop.running, hu])] at hr
    rw [List.filter_append, List.filter_cons_of_neg (by simp [Uop.running, hi, hc])]
    exact (List.perm_cons u).mp (hq.symm.trans (hr.trans List.perm_middle))

/-- Commit removes a complete uop, which no queue holds. -/
theorem pop (hw : w = u :: post) (hc : u.isComplete = true) :
    Staged cfg post renameQ iq executing wbFast wbSlow := by
  subst hw
  have hi : u.isIssued = true := h.complete u (by simp) hc
  obtain ⟨d, rfl, -, hd⟩ :=
    h.front_split (show u :: post = [] ++ u :: post from rfl) (h.issued u (by simp) hi)
  refine ⟨⟨d, rfl, hd⟩, h.renamed, fun a ha => h.issued a (by simp [List.mem_append.mp ha]),
    fun a ha => h.complete a (by simp [List.mem_append.mp ha]), ?_, ?_⟩
  · simpa [Uop.waiting, hi] using h.seated
  · simpa [Uop.running, hc] using h.running

/-- Recovery keeps what is not younger than an issued uop. -/
theorem truncate (hw : w = pre ++ u :: post) (hpre : ∀ v ∈ pre, v.seq < u.seq)
    (hpost : ∀ v ∈ post, u.seq < v.seq) (hu : u.isIssued = true) :
    Staged cfg (pre ++ [u]) [] (iq.squashAfter u.seq) (executing.filter fun v => v.seq ≤ u.seq)
      (wbFast.filter fun v => v.seq ≤ u.seq) (wbSlow.filter fun v => v.seq ≤ u.seq) := by
  have hkeep := filter_seq_le hpre hpost
  have hud := h.issued u (by simp [hw]) hu
  obtain ⟨-, -, hdisp, -⟩ := h.front_split hw hud
  refine ⟨⟨pre ++ [u], by simp, forall_mem_concat hdisp hud⟩, by simp,
    fun a ha => h.issued a (mem_of_mem_front hw ha),
    fun a ha => h.complete a (mem_of_mem_front hw ha), ?_, ?_⟩
  · have hs := congrArg (List.filter fun e => e.seq ≤ u.seq) h.seated
    rw [List.filter_map, List.filter_map, List.filter_filter] at hs
    rw [← hkeep, ← hw, List.filter_filter]
    simp only [Bool.and_comm (Uop.waiting _)]
    exact hs
  · have hr := h.running.filter fun v => v.seq ≤ u.seq
    rw [List.filter_append, List.filter_append, List.filter_filter] at hr
    rw [← hkeep, ← hw, List.filter_filter]
    simpa [Bool.and_comm] using hr

omit h in
theorem clear : Staged cfg [] [] iq.clear [] [] [] where
  front := ⟨[], rfl, by simp⟩
  renamed := by simp
  issued := by simp
  complete := by simp
  seated := rfl
  running := by simp

end Staged

end OooCpu
