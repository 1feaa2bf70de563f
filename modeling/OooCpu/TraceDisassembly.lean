import OooCpu.Announcing
import OooCpu.Disassembly
import OooCpu.Fates
import OooCpu.Timeline

/-! # The disassembly in a trace

A record shows its uops by their PCs only. Each record begins with the text of every
PC whose instruction the trace has not shown before, and a reader who keeps these
texts knows that of every uop it is shown. -/
namespace OooCpu

variable {mem : Memory} {cfg : Config} {entryPc : Word} {traceFrom traceMax maxCycles k : ℕ}

/-- What a cycle trace remembers: the word it last wrote out for each PC, and what it is about to
write. -/
structure CycleTrace where
  seen : Word → Option Word := fun _ => none
  pending : List (Word × List Char) := []

namespace CycleTrace

/-- Decode has not run on a uop still in the fetch queue, so its text comes from the word. -/
def textOf (u : Uop) : List Char := if u.stageAt.decode ≠ 0 then disasm u.dec u.pc else disasmWord u.raw u.pc

def note (t : CycleTrace) (u : Uop) : CycleTrace :=
  if t.seen u.pc = some u.raw then t
  else { seen := Function.update t.seen u.pc (some u.raw), pending := t.pending ++ [(u.pc, textOf u)] }

end CycleTrace

/-- The uops of a record, in the order the trace looks at them. -/
def Cpu.shown (s : Cpu) : List Uop :=
  s.fetchQ ++ s.decodeQ ++ s.renameQ ++ s.executing ++ s.wbFast ++ s.wbSlow ++
    (List.range s.rob.count).map fun k => s.inflight (s.rob.nth k)

namespace CycleTrace

def collectDisasm (t : CycleTrace) (s : Cpu) : CycleTrace :=
  s.shown.foldl note { t with pending := [] }

/-- The `disasm` maps of a trace, record by record; one that would be empty is not written. -/
def disasmMaps (t : CycleTrace) : List Cpu → List (List (Word × List Char))
  | [] => []
  | s :: rest => (t.collectDisasm s).pending :: disasmMaps (t.collectDisasm s) rest

/-- The PC and the word of a uop. -/
def mentionOf (u : Uop) : Word × Word := (u.pc, u.raw)

/-- The text that goes with an announcement. -/
def caption (m : Word × Word) : Word × List Char := (m.1, disasmWord m.2 m.1)

/-- The text of a uop is that of its word. -/
def Texted (u : Uop) : Prop := textOf u = disasmWord u.raw u.pc

/-- A trace beside an announcer of words. -/
structure Tells (t : CycleTrace) (a : Announcer Word Word) : Prop where
  seen : t.seen = a.known
  pending : t.pending = a.told.map caption

variable {t : CycleTrace} {a : Announcer Word Word} {u : Uop} {us : List Uop} {ss : List Cpu}
    {s : Cpu}

theorem Tells.note (h : t.Tells a) (hu : Texted u) : (t.note u).Tells (a.mention (mentionOf u)) := by
  by_cases hold : a.known (mentionOf u).1 = some (mentionOf u).2
  · rw [CycleTrace.note, if_pos (by rw [h.seen]; exact hold), Announcer.mention, if_pos hold]
    exact h
  · rw [CycleTrace.note, if_neg (by rw [h.seen]; exact hold), Announcer.mention, if_neg hold]
    refine ⟨by rw [h.seen]; rfl, ?_⟩
    rw [List.map_append, h.pending, show textOf u = _ from hu]
    rfl

theorem Tells.notes (h : t.Tells a) (hus : ∀ u ∈ us, Texted u) :
    (us.foldl CycleTrace.note t).Tells ((us.map mentionOf).foldl Announcer.mention a) := by
  induction us generalizing t a with
  | nil => exact h
  | cons u us ih =>
    exact ih (h.note (hus u List.mem_cons_self)) fun v hv => hus v (List.mem_cons_of_mem _ hv)

theorem disasmMaps_eq (known : Word → Option Word) (hseen : t.seen = known)
    (hss : ∀ s ∈ ss, ∀ u ∈ s.shown, Texted u) :
    t.disasmMaps ss = (Announcer.rounds known (ss.map fun s => s.shown.map mentionOf)).map
      (List.map caption) := by
  induction ss generalizing t known with
  | nil => rfl
  | cons s ss ih =>
    have hfresh : ({ t with pending := [] } : CycleTrace).Tells ⟨known, []⟩ := ⟨hseen, rfl⟩
    have htold := hfresh.notes (hss s List.mem_cons_self)
    rw [disasmMaps, List.map_cons, Announcer.rounds, List.map_cons, ← htold.pending,
      ← ih _ htold.seen fun x hx => hss x (List.mem_cons_of_mem _ hx)]
    rfl

theorem take_disasmMaps (t : CycleTrace) (ss : List Cpu) (n : ℕ) :
    (t.disasmMaps ss).take n = t.disasmMaps (ss.take n) := by
  induction ss generalizing t n with
  | nil => rw [List.take_nil, disasmMaps, List.take_nil]
  | cons s ss ih =>
    cases n with
    | zero => rfl
    | succ n => rw [disasmMaps, List.take_succ_cons, List.take_succ_cons, disasmMaps, ih]

/-- What a whole trace writes out is what one announcer would, told of every uop of every record. -/
theorem flatten_disasmMaps (hss : ∀ s ∈ ss, ∀ u ∈ s.shown, Texted u) :
    (disasmMaps {} ss).flatten =
      ((ss.flatMap fun s => s.shown.map mentionOf).foldl Announcer.mention
        {}).told.map caption := by
  rw [disasmMaps_eq (fun _ => none) rfl hss, ← List.map_flatten, Announcer.flatten_rounds,
    List.flatMap_def]

end CycleTrace

namespace Cpu
variable {s t : Cpu} {u : Uop} {log log' : List Uop} {φ : Phase}

theorem window_nth (hwf : s.rob.Wf) :
    (List.range s.rob.count).map (fun k => s.inflight (s.rob.nth k)) = s.window := by
  rw [window, windowOf, Rob.live, CircularBuffer.positions, List.map_map]
  apply List.map_congr_left
  intro k hk
  have hlt := List.mem_range.mp hk
  have hcount := hwf.count_le
  have hnth : s.rob.nth k = (s.rob.headSlot + k) % s.rob.capacity := by
    rw [Rob.nth, if_pos hlt, Rob.wrap_add hwf (by omega) (by omega)]
  rw [hnth]
  rfl

/-- A record shows nothing that is not in flight. -/
theorem Coherent.mem_shown (h : s.Coherent cfg) (hu : u ∈ s.shown) : u ∈ s.pending := by
  obtain ⟨d, hfront, -⟩ := h.staged.front
  have hrunning : ∀ v ∈ s.executing ++ s.wbFast ++ s.wbSlow, v ∈ s.window := fun v hv =>
    List.mem_of_mem_filter (h.staged.running.subset hv)
  rw [shown, window_nth h.buffered.wf] at hu
  simp only [List.mem_append] at hu hrunning
  simp only [pending, List.mem_append]
  rcases hu with (((((hu | hu) | hu) | hu) | hu) | hu) | hu
  · exact .inr hu
  · exact .inl (.inr hu)
  · exact .inl (.inl (by rw [hfront]; exact List.mem_append_right _ hu))
  · exact .inl (.inl (hrunning u (.inl (.inl hu))))
  · exact .inl (.inl (hrunning u (.inl (.inr hu))))
  · exact .inl (.inl (hrunning u (.inr hu)))
  · exact .inl (.inl hu)

/-- Its text is that of its word, whatever stage it is in. -/
theorem Coherent.texted (h : s.Coherent cfg) (hloc : Located s) (hu : u ∈ s.pending) :
    CycleTrace.Texted u := by
  have hdecoded (hs : u.Sound) : CycleTrace.Texted u := by
    rw [CycleTrace.Texted, CycleTrace.textOf, hs.dec, disasmWord, ite_self]
  simp only [pending, List.mem_append] at hu
  rcases hu with (hu | hu) | hu
  · exact hdecoded (h.sound u hu)
  · exact hdecoded (h.decoded u hu).1
  · exact if_neg (not_not.mpr (hloc.fetchQ u hu).2.1)

/-- Memory changes where a store retires and nowhere else. -/
theorem Move.memory (hcoh : s.Coherent cfg) (hm : Move s log φ t log')
    (h : s.mem = log.foldl commitMem mem) : t.mem = log'.foldl commitMem mem := by
  cases hm with
  | retired hp => rw [hcoh.retire_mem hp, List.foldl_append, h, List.foldl_cons, List.foldl_nil]
  | emptied => exact h
  | landed => exact h
  | cleared => exact h
  | executed => exact h
  | turnedAway _ _ ha => rcases attempt_turnedAway ha with rfl | ⟨_, _, _, _, rfl⟩ <;> exact h
  | launched _ _ ha =>
    obtain ⟨_, _, _, _, _, rfl, -, -⟩ := attempt_frame ha
    exact h
  | charged => exact h
  | recovered => exact h
  | dispatched => exact (dispatchOne_step s).keeps.mem.trans h
  | renamed => exact (renameOne_step s).keeps.mem.trans h
  | decoded => exact (decodeOne_step s).keeps.mem.trans h
  | fetched => exact (fetchOne_step s).keeps.mem.trans h

/-- Memory is the image after the stores that have retired. -/
theorem mem_ticked (mem : Memory) (h : cfg.Admissible) (entryPc : Word) (k : ℕ)
    (hb : (ticked mem cfg entryPc k).stats.renamed < 4294967296)
    (hself : NoSelfMod (committed mem cfg entryPc k)) :
    (ticked mem cfg entryPc k).mem = (committed mem cfg entryPc k).foldl commitMem mem :=
  run_preserves (P := fun _ t log => t.mem = log.foldl commitMem mem)
    (fun hcoh _ hm ht => hm.memory hcoh ht)
    (fun _ ht => ht) (fun _ ht => ht) mem h rfl k hb hself

theorem loadU32_commits {pc : Word} (h : Untouched log pc) (m : Memory) :
    (log.foldl commitMem m).loadU32 pc = m.loadU32 pc := by
  induction log generalizing m with
  | nil => rfl
  | cons u log ih =>
    rw [List.foldl_cons, ih (h.mono fun v hv => List.mem_cons_of_mem _ hv),
      commitMem_loadU32 (h.mono fun v hv => by simp [List.mem_singleton.mp hv])]

/-- What is known of the uops of a record in any case. -/
theorem shown_ticked (h : cfg.Admissible) (hlast : Lasting mem cfg entryPc k)
    (hu : u ∈ (ticked mem cfg entryPc k).shown) :
    CycleTrace.Texted u ∧
      (Untouched (committed mem cfg entryPc k) u.pc → u.raw = mem.loadU32 u.pc) := by
  have hsteady := steady_ticked h mem k hlast.kept hlast.renamed
  have hcoh : (ticked mem cfg entryPc k).Coherent cfg := hsteady.coherent
  obtain ⟨hloc, -⟩ := timed_ticked mem h entryPc k hlast.renamed hlast.kept
  have hpending := hcoh.mem_shown hu
  refine ⟨hcoh.texted hloc hpending, fun huntouched => ?_⟩
  have hword : u.raw = (ticked mem cfg entryPc k).mem.loadU32 u.pc :=
    hsteady.led.frontEnd.words u (List.mem_append_right _ hpending) huntouched
  rw [hword, mem_ticked mem h entryPc k hlast.renamed hlast.kept, loadU32_commits huntouched]

theorem Alike.shown (h : Alike s t) : t.shown = s.shown := by
  obtain ⟨o, rfl⟩ := h
  rfl

/-- The texts of a trace serve its reader: with the records read so far, every uop of the last one
has the text of a uop this record shows at its PC, and in the whole trace a PC that no store has
touched has one text, given once, that of the word in the image. -/
structure Traced.Named (image : Memory) (history : List Uop) (r : Traced) : Prop where
  streaming : ∀ (i : ℕ) (s : Cpu), r.records[i]? = some s →
    ∀ u ∈ s.shown, ∃ v ∈ s.shown, v.pc = u.pc ∧
      lastWrite ((CycleTrace.disasmMaps {} r.records).take (i + 1)).flatten u.pc =
        some (disasmWord v.raw v.pc)
  once : ∀ s ∈ r.records, ∀ u ∈ s.shown, Untouched history u.pc →
    (CycleTrace.disasmMaps {} r.records).flatten.filter (fun e => e.1 = u.pc) =
      [(u.pc, disasmWord (image.loadU32 u.pc) u.pc)]

/-- Every record of a traced run shows a state the plain run goes through before the trace ends. -/
theorem records_reached (mem : Memory) (cfg : Config) (entryPc : Word)
    (traceFrom traceMax maxCycles : ℕ) :
    let r := runWithTrace (reset mem cfg entryPc) traceFrom traceMax maxCycles
    ∀ s ∈ r.records, s.cycle ≤ r.cpu.cycle ∧ Reached mem cfg entryPc s := by
  intro r s hs
  have hstart : Traced.Faithful mem cfg entryPc traceFrom traceMax maxCycles
    { cpu := reset mem cfg entryPc } := .reset
  obtain ⟨hend, -⟩ := hstart.loop (le_refl (maxCycles - (reset mem cfg entryPc).cycle))
  have hcycles :
    r.records.map Cpu.cycle = List.range' (max 1 traceFrom) (r.cpu.cycle + 1 - max 1 traceFrom) :=
      hend.cycles
  have hmem : s.cycle ∈ r.records.map Cpu.cycle := List.mem_map_of_mem hs
  rw [hcycles, List.mem_range'_1] at hmem
  exact ⟨by omega, hend.photographs s hs⟩

/-- Whichever window of a run is traced, its texts serve the reader. -/
theorem traced_named (mem : Memory) (cfg : Config) (entryPc : Word)
    (traceFrom traceMax maxCycles : ℕ)
    (h : cfg.Admissible)
    (hb : (runWithTrace (reset mem cfg entryPc) traceFrom traceMax maxCycles).cpu.stats.renamed <
      4294967296)
    (hself : NoSelfMod (committed mem cfg entryPc
      (runWithTrace (reset mem cfg entryPc) traceFrom traceMax maxCycles).cpu.cycle)) :
    let r := runWithTrace (reset mem cfg entryPc) traceFrom traceMax maxCycles
    r.Named mem (committed mem cfg entryPc r.cpu.cycle) := by
  intro r
  have hreached := records_reached mem cfg entryPc traceFrom traceMax maxCycles
  have hlast : Lasting mem cfg entryPc r.cpu.cycle := by
    refine ⟨?_, hself⟩
    have hend : Reached mem cfg entryPc r.cpu := Reached.observe (reached_traceLoop .reset) false
    obtain ⟨o, ho⟩ := hend.symm
    rw [ho]
    exact hb
  have hshown : ∀ s ∈ r.records, ∀ u ∈ s.shown, CycleTrace.Texted u ∧
      (Untouched (committed mem cfg entryPc r.cpu.cycle) u.pc → u.raw = mem.loadU32 u.pc) := by
    intro s hs u hu
    obtain ⟨hle, hs⟩ := hreached s hs
    rw [Alike.shown hs] at hu
    obtain ⟨htexted, hword⟩ := shown_ticked h (hlast.mono hle) hu
    exact ⟨htexted,
      fun huntouched => hword (huntouched.mono fun v hv => (committed_grows hle).subset hv)⟩
  clear_value r
  refine ⟨fun i s hi u hu => ?_, fun s hs u hu huntouched => ?_⟩
  · have htaken : r.records.take (i + 1) = r.records.take i ++ [s] := by
      rw [List.take_add_one, hi, Option.toList_some]
    have htexted : ∀ x ∈ r.records.take (i + 1), ∀ v ∈ x.shown, CycleTrace.Texted v :=
      fun x hx v hv =>
      (hshown x (List.mem_of_mem_take hx) v hv).1
    have hmentioned : ∃ m ∈ s.shown.map CycleTrace.mentionOf, m.1 = u.pc :=
      ⟨_, List.mem_map_of_mem hu, rfl⟩
    obtain ⟨m, hm, hpc, hfound⟩ := exists_lastWrite hmentioned
    obtain ⟨v, hv, rfl⟩ := List.mem_map.mp hm
    refine ⟨v, hv, hpc, ?_⟩
    rw [CycleTrace.take_disasmMaps, CycleTrace.flatten_disasmMaps htexted, htaken]
    have htext := lastWrite_map (fun pc w => disasmWord w pc)
      (((r.records.take i ++ [s]).flatMap fun s =>
        s.shown.map CycleTrace.mentionOf).foldl Announcer.mention {}).told u.pc
    refine htext.trans ?_
    rw [Announcer.lastWrite_told, List.flatMap_append, List.flatMap_singleton, lastWrite_append,
      hfound, Option.some_or, Option.map_some, ← hpc]
    rfl
  · rw [CycleTrace.flatten_disasmMaps fun x hx v hv => (hshown x hx v hv).1, List.filter_map]
    let mentions := r.records.flatMap fun s => s.shown.map CycleTrace.mentionOf
    have hsame : ∀ m ∈ mentions, m.1 = u.pc → m.2 = mem.loadU32 u.pc := by
      intro m hm hpc
      obtain ⟨x, hx, hm⟩ := List.mem_flatMap.mp hm
      obtain ⟨v, hv, rfl⟩ := List.mem_map.mp hm
      rw [← hpc]
      exact (hshown x hx v hv).2 (by rw [show v.pc = u.pc from hpc]; exact huntouched)
    have hmentioned : ∃ m ∈ mentions, m.1 = u.pc :=
      ⟨_, List.mem_flatMap.mpr ⟨s, hs, List.mem_map_of_mem hu⟩, rfl⟩
    exact congrArg (List.map CycleTrace.caption) (Announcer.told_once hsame hmentioned)

theorem traced_named_skipping :
    let r := runWithTrace (reset skipping {} 0) 2 5 9
    r.Named skipping (committed skipping {} 0 r.cpu.cycle) :=
  traced_named skipping {} 0 2 5 9 admissible_default (by decide +kernel) (by decide +kernel)

end Cpu

end OooCpu
