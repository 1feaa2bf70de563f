import OooCpu.FifoList
import OooCpu.Lsq
import OooCpu.RobRuns

/-! # The rings are lists

Under any sequence of operations the reorder buffer and the load and store queues
are bounded first-in first-out lists that can be cut off at their end. -/
namespace OooCpu

namespace Rob

/-- What an operation returns. -/
inductive Answer
  | slot (idx : ℕ)
  | popped (e : Option RobEntry)
  | squashed (es : List RobEntry)
  | nothing

def answer (r : Rob) : Action → Answer
  | .allocate e => .slot (r.allocate e).1
  | .complete _ => .nothing
  | .popHeadIfComplete => .popped (r.popHeadIfComplete.map Prod.fst)
  | .truncateTo idx => .squashed (r.truncateTo idx).1
  | .squashAll => .squashed r.squashAll.1

/-- The slot that an operation hands out. -/
def Stamped.given (s : Stamped) : Action → Option ℕ
  | .allocate e => some (s.rob.allocate e).1
  | _ => none

/-- The operation on a plain list; `place n` is the slot of the entry that was allocated as number
`n`. -/
def listStep (place : ℕ → ℕ) (l : FifoList RobEntry) : Action → FifoList RobEntry
  | .allocate e => l.append { e with seq := u32 l.arrived }
  | .complete idx => l.rewrite place idx fun e => { e with complete := true }
  | .popHeadIfComplete => if l.values.head?.any RobEntry.complete then l.removeFirst else l
  | .truncateTo idx => l.keepUpTo place idx
  | .squashAll => l.clear

/-- What it returns there. -/
def listAnswer (place : ℕ → ℕ) (l : FifoList RobEntry) : Action → Answer
  | .allocate _ => .slot (place l.arrived)
  | .complete _ => .nothing
  | .popHeadIfComplete => .popped (l.values.head?.filter RobEntry.complete)
  | .truncateTo idx => .squashed (l.behind place idx).reverse
  | .squashAll => .squashed l.values.reverse

/-- Everything that can be asked of the buffer is answered by the list. -/
structure IsList (capacity : ℕ) (place : ℕ → ℕ) (r : Rob) (l : FifoList RobEntry) : Prop where
  entries : r.entries = l.values
  slots : r.live = l.places place
  distinct : (l.places place).Nodup
  bounded : l.items.length ≤ capacity
  size : r.count = l.items.length
  empty_iff : r.isEmpty = true ↔ l.items = []
  full_iff : r.full = true ↔ l.items.length = capacity
  told_apart : 0 < capacity → ¬(r.isEmpty = true ∧ r.full = true)
  head : r.head = (l.places place).headD INVALID_ROBINDEX
  inFlight_iff : ∀ i, r.inFlight i = true ↔ i ∈ l.places place
  nth : ∀ k, r.nth k = (l.places place).getD k INVALID_ROBINDEX
  at_nth : ∀ k < l.items.length, l.values[k]? = some (r.slots (r.nth k))
  ageOf_nth : ∀ k < l.items.length, r.ageOf (r.nth k) = k
  nth_ageOf : ∀ i ∈ l.places place, r.nth (r.ageOf i) = i
  truncateTo_dead : ∀ i, i ∉ l.places place → r.truncateTo i = ([], r)

/-- The buffer holds the list. -/
structure Listed (capacity : ℕ) (place : ℕ → ℕ) (s : Stamped) (l : FifoList RobEntry) : Prop where
  wf : s.rob.Wf
  capacity_eq : s.rob.capacity = capacity
  nextSeq : s.rob.nextSeq = u32 l.arrived
  held : l.HeldIn place s.rob.live s.rob.slots

variable {capacity : ℕ} {place : ℕ → ℕ} {s : Stamped} {l : FifoList RobEntry} {r : Rob} {k : ℕ}

theorem at_nth (hr : r.Wf) (hk : k < r.count) : r.entries[k]? = some (r.slots (r.nth k)) := by
  have hle := hr.count_le
  rw [Rob.nth, if_pos hk, wrap_add hr (by omega) (by omega), entries, List.getElem?_map, live,
    CircularBuffer.positions_getElem? hk, Option.map_some]

theorem truncateTo_dead (hr : r.Wf) {i : ℕ} (hi : i ∉ r.live) : r.truncateTo i = ([], r) :=
  if_neg (mt (inFlight_iff hr i).mp hi)

theorem nth_eq (hr : r.Wf) (k : ℕ) : r.nth k = r.live.getD k INVALID_ROBINDEX := by
  have hle := hr.count_le
  rw [List.getD_eq_getElem?_getD, Rob.nth, live]
  split
  · rename_i hk
    rw [CircularBuffer.positions_getElem? hk, wrap_add hr (by omega) (by omega)]
    rfl
  · rename_i hk
    rw [List.getElem?_eq_none (by rw [CircularBuffer.positions_length]; omega)]
    rfl

theorem ageOf_nth (hr : r.Wf) (hk : k < r.count) : r.ageOf (r.nth k) = k := by
  have hle := hr.count_le
  have hh := hr.head_lt (by omega)
  rw [Rob.nth, if_pos hk, wrap_add hr (by omega) (by omega), ageOf_eq hr (Nat.mod_lt _ (by omega)),
    CircularBuffer.age_position hh (by omega)]

theorem nth_ageOf (hr : r.Wf) {i : ℕ} (hi : i ∈ r.live) : r.nth (r.ageOf i) = i := by
  have hlt := lt_of_mem_live hr hi
  have hle := hr.count_le
  have hage : r.ageOf i < r.count := by simpa [inFlight] using (inFlight_iff hr i).mpr hi
  rw [Rob.nth, if_pos hage, wrap_add hr (by omega) (by omega), ageOf_eq hr hlt,
    CircularBuffer.add_age (hr.head_lt (by omega)) hlt]

theorem head_eq (hr : r.Wf) : r.head = r.live.headD INVALID_ROBINDEX := by
  by_cases h0 : r.count = 0
  · have hlive : r.live = [] := by rw [live, h0, CircularBuffer.positions_zero]
    rw [hlive, Rob.head, isEmpty, h0]
    rfl
  · obtain ⟨rest, hlive⟩ := live_eq_cons hr h0
    rw [hlive, List.headD_cons]

theorem Listed.isList (h : Listed capacity place s l) : IsList capacity place s.rob l := by
  have hlen : s.rob.count = l.items.length := by rw [h.held.length_eq, live_length]
  have hentries : s.rob.entries = l.values := h.held.map_slots
  refine ⟨hentries, h.held.places.symm, ?_, ?_, hlen, ?_, ?_, ?_, ?_, ?_, ?_, ?_, ?_, ?_, ?_⟩
  · rw [h.held.places]
    exact live_nodup h.wf
  · rw [← hlen, ← h.capacity_eq]
    exact h.wf.count_le
  · rw [isEmpty, beq_iff_eq, hlen, List.length_eq_zero_iff]
  · rw [full, beq_iff_eq, hlen, h.capacity_eq]
  · rintro hc ⟨hempty, hfull⟩
    rw [isEmpty, beq_iff_eq] at hempty
    rw [full, beq_iff_eq, hempty, h.capacity_eq] at hfull
    omega
  · rw [h.held.places]
    exact head_eq h.wf
  · intro i
    rw [h.held.places]
    exact Rob.inFlight_iff h.wf i
  · rw [h.held.places]
    exact nth_eq h.wf
  · rw [← hlen, ← hentries]
    exact fun k hk => Rob.at_nth h.wf hk
  · rw [← hlen]
    exact fun k hk => Rob.ageOf_nth h.wf hk
  · rw [h.held.places]
    exact fun i hi => Rob.nth_ageOf h.wf hi
  · rw [h.held.places]
    exact fun i hi => Rob.truncateTo_dead h.wf hi

namespace Listed
variable (h : Listed capacity place s l)
include h

theorem allocate (hf : s.rob.full = false) (hplace : place l.arrived = s.rob.tail) (e : RobEntry) :
    Listed capacity place (s.apply (.allocate e)) (listStep place l (.allocate e)) := by
  refine ⟨wf_allocate h.wf hf e, h.capacity_eq, ?_, ?_⟩
  · simp only [Stamped.apply, Rob.allocate, listStep, FifoList.append, h.nextSeq]
    simp only [u32, Nat.mod_add_mod]
  · have happend :=
      h.held.append (a := { e with seq := s.rob.nextSeq }) hplace (tail_notMem_live h.wf hf)
    rw [← live_allocate h.wf hf e] at happend
    rw [listStep, ← h.nextSeq]
    exact happend

theorem complete (idx : ℕ) :
    Listed capacity place (s.apply (.complete idx)) (listStep place l (.complete idx)) :=
  ⟨⟨h.wf.capacity_le, h.wf.head_lt, h.wf.count_le⟩, h.capacity_eq, h.nextSeq,
    h.held.rewrite idx fun e => { e with complete := true }⟩

theorem head?_values : l.values.head? = if s.rob.isEmpty then none
    else some (s.rob.slots s.rob.headSlot) := by
  rw [← h.held.map_slots, List.head?_map]
  split
  · rename_i h0
    have hlive : s.rob.live = [] := by rw [live, (beq_iff_eq).mp h0, CircularBuffer.positions_zero]
    rw [hlive]
    rfl
  · rename_i h0
    obtain ⟨rest, hlive⟩ := live_eq_cons h.wf (by simpa [isEmpty] using h0)
    have hhead : s.rob.head = s.rob.headSlot := if_neg h0
    rw [hlive, hhead]
    rfl

theorem pop : Listed capacity place (s.apply .popHeadIfComplete)
    (listStep place l .popHeadIfComplete) ∧
      s.rob.answer .popHeadIfComplete = listAnswer place l .popHeadIfComplete := by
  have hhead := h.head?_values
  simp only [Stamped.apply, listStep, Rob.answer, listAnswer]
  by_cases h0 : s.rob.isEmpty = true
  · have hp : s.rob.popHeadIfComplete = none := by simp [popHeadIfComplete, h0]
    rw [if_pos h0] at hhead
    rw [hp, hhead]
    exact ⟨h, rfl⟩
  rw [if_neg h0] at hhead
  cases hc : (s.rob.slots s.rob.headSlot).complete with
  | false =>
    have hp : s.rob.popHeadIfComplete = none := by simp [popHeadIfComplete, hc]
    rw [hp, hhead, Option.any_some, hc, Option.filter_some, hc]
    exact ⟨h, rfl⟩
  | true =>
    have hp : s.rob.popHeadIfComplete = some (s.rob.slots s.rob.headSlot,
        { s.rob with headSlot := s.rob.wrap (s.rob.headSlot + 1), count := s.rob.count - 1 }) := by
      simp [popHeadIfComplete, h0, hc]
    obtain ⟨hlive, -, -, hwf⟩ := pop_some h.wf hp
    rw [hp, hhead, Option.any_some, hc, Option.filter_some, hc]
    exact ⟨⟨hwf, h.capacity_eq, h.nextSeq, h.held.removeFirst hlive⟩, rfl⟩

theorem truncateTo (idx : ℕ) :
    Listed capacity place (s.apply (.truncateTo idx)) (listStep place l (.truncateTo idx)) ∧
      s.rob.answer (.truncateTo idx) = listAnswer place l (.truncateTo idx) := by
  simp only [Stamped.apply, listStep, Rob.answer, listAnswer]
  by_cases hm : idx ∈ s.rob.live
  · obtain ⟨pre, post, hlive⟩ := List.append_of_mem hm
    obtain ⟨hlive', hkilled, hwf⟩ := truncateTo_live h.wf hlive
    obtain ⟨hheld, hbehind⟩ := h.held.keepUpTo hlive (live_nodup h.wf)
    have htrunc : s.rob.truncateTo idx = s.rob.dropTo (s.rob.ageOf idx + 1) :=
      if_pos ((inFlight_iff h.wf idx).mpr hm)
    rw [hkilled, hbehind]
    refine ⟨⟨hwf, ?_, ?_, ?_⟩, rfl⟩
    · simp only [htrunc]
      exact h.capacity_eq
    · simp only [htrunc]
      exact h.nextSeq
    · rw [hlive']
      simp only [htrunc]
      exact hheld
  · obtain ⟨hkept, hbehind⟩ := h.held.keepUpTo_of_notMem hm
    rw [truncateTo_dead h.wf hm, hkept, hbehind]
    exact ⟨h, rfl⟩

theorem squashAll : Listed capacity place (s.apply .squashAll) (listStep place l .squashAll) ∧
    s.rob.answer .squashAll = listAnswer place l .squashAll := by
  obtain ⟨hlive, hkilled, hwf⟩ := squashAll_live h.wf
  constructor
  · refine ⟨hwf, h.capacity_eq, h.nextSeq, ?_⟩
    simp only [Stamped.apply, hlive]
    exact FifoList.heldIn_nil rfl
  · rw [Rob.answer, listAnswer, hkilled, h.held.map_slots]

end Listed

theorem stepFollows (capacity : ℕ) :
    FifoList.StepFollows Stamped.apply Stamped.given Stamped.Admits (Listed capacity)
    (fun place s l a => s.rob.answer a = listAnswer place l a) listStep := by
  intro place s l a h hadmits hplace
  cases a with
  | allocate e =>
    have hslot : place l.arrived = s.rob.tail := hplace _ rfl
    exact ⟨h.allocate (hadmits rfl) hslot e, congrArg Answer.slot hslot.symm, rfl⟩
  | complete idx => exact ⟨h.complete idx, rfl, rfl⟩
  | popHeadIfComplete =>
    refine ⟨h.pop.1, h.pop.2, ?_⟩
    rw [listStep]
    split <;> rfl
  | truncateTo idx => exact ⟨(h.truncateTo idx).1, (h.truncateTo idx).2, rfl⟩
  | squashAll => exact ⟨h.squashAll.1, h.squashAll.2, rfl⟩

/-- There is one naming of the entries by slots under which, at every point of the run, the buffer
is the plain list, and every operation returns what it returns there. -/
def RunsAsList (capacity : ℕ) (acts : List Action) : Prop :=
  ∃ place : ℕ → ℕ, ∀ past, past <+: acts →
    IsList capacity place (run capacity past).rob (past.foldl (listStep place) {}) ∧
      ∀ a, past ++ [a] <+: acts →
        (run capacity past).rob.answer a = listAnswer place (past.foldl (listStep place) {}) a

theorem runsAsList {acts : List Action} (hc : capacity ≤ 2^31) (hadm : Admitted capacity acts) :
    RunsAsList capacity acts := by
  have hstart (place : ℕ → ℕ) : Listed capacity place { rob := { capacity := capacity } } {} :=
    ⟨⟨hc, fun h => h, Nat.zero_le _⟩, rfl, rfl, FifoList.heldIn_nil rfl⟩
  obtain ⟨place, hrun⟩ := (stepFollows capacity).exists_places hstart hadm
  exact ⟨place, fun past hpast => ⟨(hrun past hpast).1.isList, (hrun past hpast).2⟩⟩

end Rob

namespace LsqQueue

/-- What the pipeline asks of a queue. -/
inductive Call
  | alloc (seq size : ℕ)
  | popHead
  | squashAfter (seq : ℕ)
  | clear
  /-- A write through `at`. -/
  | write (idx : ℕ) (f : LsqEntry → LsqEntry)

def apply (q : LsqQueue) : Call → LsqQueue
  | .alloc seq size => ((q.alloc seq size).map Prod.snd).getD q
  | .popHead => q.popHead
  | .squashAfter seq => q.squashAfter seq
  | .clear => q.clear
  | .write idx f => q.modify idx f

/-- The slot that a call returns. -/
def answer (q : LsqQueue) : Call → Option ℕ
  | .alloc seq size => (q.alloc seq size).map Prod.fst
  | _ => none

/-- The call on a plain list of at most `capacity` entries, named by their slots. -/
def listStep (capacity : ℕ) (place : ℕ → ℕ) (l : FifoList LsqEntry) : Call → FifoList LsqEntry
  | .alloc seq size =>
    if l.items.length < capacity then l.append { seq := seq, size := size } else l
  | .popHead => l.removeFirst
  | .squashAfter seq => l.dropLastWhile fun e => seq < e.seq
  | .clear => l.clear
  | .write idx f => l.rewrite place idx f

def listAnswer (capacity : ℕ) (place : ℕ → ℕ) (l : FifoList LsqEntry) : Call → Option ℕ
  | .alloc _ _ => if l.items.length < capacity then some (place l.arrived) else none
  | _ => none

/-- Everything that can be asked of the queue is answered by the list. -/
structure IsList (capacity : ℕ) (place : ℕ → ℕ) (q : LsqQueue) (l : FifoList LsqEntry) : Prop where
  entries : q.entries = l.values
  slots : q.live = l.places place
  distinct : (l.places place).Nodup
  bounded : l.items.length ≤ capacity
  size : q.count = l.items.length
  empty_iff : q.isEmpty = true ↔ l.items = []
  full_iff : q.full = true ↔ l.items.length = capacity
  told_apart : 0 < capacity → ¬(q.isEmpty = true ∧ q.full = true)
  nth : ∀ k < l.items.length, l.values[k]? = some (q.nth k)

/-- The queue holds the list. -/
structure Listed (capacity : ℕ) (place : ℕ → ℕ) (q : LsqQueue) (l : FifoList LsqEntry) : Prop where
  wf : q.Wf
  capacity_eq : q.capacity = capacity
  held : l.HeldIn place q.live q.slots

def run (capacity : ℕ) (calls : List Call) : LsqQueue := calls.foldl apply (.reset capacity)

variable {capacity : ℕ} {place : ℕ → ℕ} {q : LsqQueue} {l : FifoList LsqEntry}

namespace Listed
variable (h : Listed capacity place q l)
include h

theorem length_eq : q.count = l.items.length := by
  rw [h.held.length_eq, live, CircularBuffer.positions_length]

theorem full_iff : q.full = true ↔ l.items.length = capacity := by
  have hle := h.wf.count_le
  rw [h.capacity_eq] at hle
  rw [full, decide_eq_true_iff, h.capacity_eq, ← h.length_eq]
  omega

theorem isList : IsList capacity place q l := by
  have hlen := h.length_eq
  have hentries : q.entries = l.values := (entries_eq h.wf).trans h.held.map_slots
  have hempty : q.isEmpty = true ↔ l.items = [] := by
    rw [isEmpty, beq_iff_eq, hlen, List.length_eq_zero_iff]
  refine ⟨hentries, h.held.places.symm, ?_, ?_, hlen, hempty, h.full_iff, ?_, fun k hk => ?_⟩
  · rw [h.held.places]
    exact live_nodup h.wf
  · rw [← hlen, ← h.capacity_eq]
    exact h.wf.count_le
  · rintro hc ⟨hnil, hfull⟩
    rw [h.full_iff, hempty.mp hnil, List.length_nil] at hfull
    omega
  · rw [← hentries, LsqQueue.entries, List.getElem?_map, List.getElem?_range (by omega),
      Option.map_some]

theorem alloc (seq size : ℕ) (hplace : ∀ i ∈ q.answer (.alloc seq size), place l.arrived = i) :
    Listed capacity place (q.apply (.alloc seq size))
      (listStep capacity place l (.alloc seq size)) ∧
        q.answer (.alloc seq size) = listAnswer capacity place l (.alloc seq size) := by
  have hle := h.isList.bounded
  simp only [answer] at hplace
  simp only [apply, answer, listStep, listAnswer]
  cases ha : q.alloc seq size with
  | none =>
    have hfull : q.full = true := by
      rw [LsqQueue.alloc] at ha
      split at ha
      · assumption
      · contradiction
    have hroom : ¬l.items.length < capacity := by
      rw [h.full_iff.mp hfull]
      exact lt_irrefl _
    rw [if_neg hroom, if_neg hroom]
    exact ⟨h, rfl⟩
  | some p =>
    obtain ⟨idx, q'⟩ := p
    obtain ⟨hlive, hfresh, hwf, hcap, hslots⟩ := alloc_some h.wf ha
    have hidx : place l.arrived = idx := hplace idx (by rw [ha]; rfl)
    have hroom : l.items.length < capacity := by
      apply lt_of_le_of_ne hle
      intro heq
      rw [LsqQueue.alloc, if_pos (h.full_iff.mpr heq)] at ha
      contradiction
    rw [if_pos hroom, if_pos hroom]
    refine ⟨⟨hwf, hcap.trans h.capacity_eq, ?_⟩, congrArg some hidx.symm⟩
    simp only [Option.map_some, Option.getD_some, hlive, hslots]
    exact h.held.append hidx hfresh

theorem popHead : Listed capacity place q.popHead l.removeFirst := by
  refine ⟨wf_popHead h.wf, ?_, ?_⟩
  · rw [LsqQueue.popHead]
    split
    · exact h.capacity_eq
    · exact h.capacity_eq
  · by_cases hnil : q.live = []
    · have h0 : q.count = 0 := by
        rw [live] at hnil
        simpa using congrArg List.length hnil
      have hitems : l.items = [] := List.length_eq_zero_iff.mp (by rw [← h.length_eq, h0])
      rw [LsqQueue.popHead, if_pos h0, hnil]
      exact FifoList.heldIn_nil (by rw [FifoList.removeFirst, hitems]; rfl)
    · obtain ⟨i, hlive, -⟩ := live_popHead h.wf hnil
      have hslots : q.popHead.slots = q.slots := by
        rw [LsqQueue.popHead]
        split <;> rfl
      rw [hslots]
      exact h.held.removeFirst hlive

theorem squashAfter (seq : ℕ) :
    Listed capacity place (q.squashAfter seq) (l.dropLastWhile fun e => seq < e.seq) := by
  refine ⟨wf_squashAfter h.wf seq, h.capacity_eq, ?_⟩
  rw [live_squashAfter_eq h.wf]
  exact h.held.dropLastWhile fun e => seq < e.seq

theorem clear : Listed capacity place q.clear l.clear :=
  ⟨wf_clear h.wf, h.capacity_eq, FifoList.heldIn_nil rfl⟩

theorem write (idx : ℕ) (f : LsqEntry → LsqEntry) :
    Listed capacity place (q.modify idx f) (l.rewrite place idx f) :=
  ⟨wf_modify h.wf idx f, h.capacity_eq, h.held.rewrite idx f⟩

end Listed

theorem stepFollows (capacity : ℕ) :
    FifoList.StepFollows apply answer (fun _ _ => True) (Listed capacity)
    (fun place q l c => q.answer c = listAnswer capacity place l c) (listStep capacity) := by
  intro place q l c h _ hplace
  cases c with
  | alloc seq size =>
    obtain ⟨hlisted, hanswer⟩ := h.alloc seq size hplace
    refine ⟨hlisted, hanswer, ?_⟩
    rw [hanswer, listStep, listAnswer]
    split <;> rfl
  | popHead => exact ⟨h.popHead, rfl, rfl⟩
  | squashAfter seq => exact ⟨h.squashAfter seq, rfl, rfl⟩
  | clear => exact ⟨h.clear, rfl, rfl⟩
  | write idx f => exact ⟨h.write idx f, rfl, rfl⟩

/-- There is one naming of the entries by slots under which, at every point of the run, the queue is
the plain list, and every call returns what it returns there. -/
def RunsAsList (capacity : ℕ) (calls : List Call) : Prop :=
  ∃ place : ℕ → ℕ, ∀ past, past <+: calls →
    IsList capacity place (run capacity past) (past.foldl (listStep capacity place) {}) ∧
      ∀ c, past ++ [c] <+: calls →
        (run capacity past).answer c =
          listAnswer capacity place (past.foldl (listStep capacity place) {}) c

theorem runsAsList (hc : capacity ≤ 2^31) (calls : List Call) : RunsAsList capacity calls := by
  have hstart (place : ℕ → ℕ) : Listed capacity place (.reset capacity) {} :=
    ⟨wf_reset hc, rfl, FifoList.heldIn_nil rfl⟩
  obtain ⟨place, hrun⟩ :=
    (stepFollows capacity).exists_places hstart (.of_forall fun _ _ => trivial)
  exact ⟨place, fun past hpast => ⟨(hrun past hpast).1.isList, (hrun past hpast).2⟩⟩

/-- Among entries in order of their numbers those that are not younger stay. -/
theorem values_squashAfter (hsorted : l.values.Pairwise fun a b => a.seq ≤ b.seq) (seq : ℕ) :
    (listStep capacity place l (.squashAfter seq)).values = l.values.filter fun e => e.seq ≤
      seq := by
  have hup : l.values.Pairwise fun a b => decide (seq < a.seq) = true →
      decide (seq < b.seq) = true := by
    refine hsorted.imp fun hle ha => ?_
    rw [decide_eq_true_iff] at ha ⊢
    exact ha.trans_le hle
  rw [listStep, FifoList.values_dropLastWhile, rdropWhile_eq_filter hup]
  apply List.filter_congr
  intro e _
  rw [← decide_not, decide_eq_decide, Nat.not_lt]

end LsqQueue

/-- Both rings are bounded lists that forget from either end, whatever is asked of them and however
often they wrap. -/
theorem rings_areLists (capacity : ℕ) (hc : capacity ≤ 2^31) :
    (∀ acts, Rob.Admitted capacity acts → Rob.RunsAsList capacity acts) ∧
      ∀ calls, LsqQueue.RunsAsList capacity calls :=
  ⟨fun _ hadm => Rob.runsAsList hc hadm, LsqQueue.runsAsList hc⟩

theorem rings_areLists_wrapping :
    Rob.RunsAsList 2 [.allocate { complete := true }, .allocate {}, .popHeadIfComplete,
      .allocate {}, .truncateTo 1,
        .squashAll] ∧
      LsqQueue.RunsAsList 2 [.alloc 0 4, .alloc 1 4, .popHead, .alloc 2 4, .squashAfter 1,
        .clear] :=
  have hlists := rings_areLists 2 (by decide)
  ⟨hlists.1 _ ⟨fun _ => by decide, fun _ => by decide, fun h => by contradiction,
    fun _ => by decide, fun h => by contradiction, fun h => by contradiction, trivial⟩, hlists.2 _⟩

end OooCpu
