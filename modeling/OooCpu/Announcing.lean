import Mathlib.Logic.Function.Basic
import OooCpu.LastWrite

/-! # Announcements

Who announces a value only where it differs from the last one announced for its key
says nothing too much, and a listener who keeps the last value of every key still
knows what was mentioned last. -/
namespace OooCpu

variable {κ ν : Type*} [DecidableEq κ] [DecidableEq ν]

/-- What has been announced, and what it amounts to for every key. -/
structure Announcer (κ ν : Type*) where
  known : κ → Option ν := fun _ => none
  told : List (κ × ν) := []

namespace Announcer
variable {a : Announcer κ ν} {m : κ × ν} {ms : List (κ × ν)} {k : κ} {v : ν}

def mention (a : Announcer κ ν) (m : κ × ν) : Announcer κ ν :=
  if a.known m.1 = some m.2 then a else ⟨Function.update a.known m.1 (some m.2), a.told ++ [m]⟩

/-- After a mention its value is known, announced or not. -/
theorem known_mention (a : Announcer κ ν) (m : κ × ν) (k : κ) :
    (a.mention m).known k = if m.1 = k then some m.2 else a.known k := by
  rw [mention]
  by_cases hk : m.1 = k
  · subst hk
    rw [if_pos rfl]
    split
    · next hold => exact hold
    · exact Function.update_self _ _ _
  · rw [if_neg hk]
    split
    · rfl
    · exact Function.update_of_ne (Ne.symm hk) _ _

theorem known_mentions (ms : List (κ × ν)) (a : Announcer κ ν) (k : κ) :
    (ms.foldl mention a).known k = (lastWrite ms k).or (a.known k) := by
  induction ms generalizing a with
  | nil => rfl
  | cons m ms ih =>
    rw [List.foldl_cons, ih, known_mention, lastWrite_cons]
    by_cases hm : m.1 = k <;> simp [hm]

/-- What was announced before makes no difference to what is announced. -/
theorem told_mentions (ms : List (κ × ν)) (known : κ → Option ν) (told : List (κ × ν)) :
    (ms.foldl mention ⟨known, told⟩).told = told ++ (ms.foldl mention ⟨known, []⟩).told := by
  induction ms generalizing known told with
  | nil => exact (List.append_nil told).symm
  | cons m ms ih =>
    rw [List.foldl_cons, List.foldl_cons, mention, mention]
    split
    · exact ih known told
    · rw [List.nil_append, ih, ih _ [m], List.append_assoc]

/-- The last announcement of every key is what is known of it. -/
def Heard (a : Announcer κ ν) : Prop := ∀ k, lastWrite a.told k = a.known k

theorem Heard.mention (h : a.Heard) (m : κ × ν) : (a.mention m).Heard := fun k => by
  by_cases hold : a.known m.1 = some m.2
  · rw [Announcer.mention, if_pos hold]
    exact h k
  · rw [known_mention, Announcer.mention, if_neg hold, lastWrite_append, lastWrite_singleton, h k]
    split <;> rfl

/-- A listener knows of every key what was mentioned last. -/
theorem lastWrite_told (ms : List (κ × ν)) (k : κ) :
    lastWrite (ms.foldl mention {}).told k = lastWrite ms k := by
  have hheard : (ms.foldl mention ({} : Announcer κ ν)).Heard :=
    List.foldlRecOn ms mention (fun _ => rfl) fun _ h m _ => h.mention m
  rw [hheard k, known_mentions, Option.or_none]

/-- A key that is only ever mentioned with one value is announced once. -/
theorem told_once (hall : ∀ m ∈ ms, m.1 = k → m.2 = v) (hsome : ∃ m ∈ ms, m.1 = k) :
    (ms.foldl mention {}).told.filter (fun m => m.1 = k) = [(k, v)] := by
  let Once (a : Announcer κ ν) : Prop :=
    (a.known k = none ∧ a.told.filter (fun m => m.1 = k) = []) ∨
      (a.known k = some v ∧ a.told.filter (fun m => m.1 = k) = [(k, v)])
  have honce : Once (ms.foldl mention {}) := by
    refine List.foldlRecOn ms mention (.inl ⟨rfl, rfl⟩) fun a ha m hm => ?_
    by_cases hk : m.1 = k
    · obtain rfl : m = (k, v) := Prod.ext hk (hall m hm hk)
      refine .inr ⟨by rw [known_mention, if_pos rfl], ?_⟩
      rcases ha with ⟨hnone, hfilter⟩ | ⟨hknown, hfilter⟩
      · rw [mention, if_neg (by rw [hnone]; exact nofun), List.filter_append, hfilter]
        simp
      · rw [mention, if_pos hknown, hfilter]
    · have hknown : (a.mention m).known k = a.known k := by rw [known_mention, if_neg hk]
      have htold : (a.mention m).told.filter (fun m => m.1 = k) = a.told.filter fun m => m.1 =
          k := by
        rw [mention]
        split
        · rfl
        · simp [hk]
      simp only [Once, hknown, htold]
      exact ha
  rcases honce with ⟨hnone, -⟩ | ⟨-, hfilter⟩
  · obtain ⟨m, -, -, hlast⟩ := exists_lastWrite hsome
    rw [known_mentions, hlast, Option.some_or] at hnone
    contradiction
  · exact hfilter

/-- What is announced in each of several rounds. -/
def rounds (known : κ → Option ν) : List (List (κ × ν)) → List (List (κ × ν))
  | [] => []
  | ms :: rest =>
    (ms.foldl mention ⟨known, []⟩).told :: rounds (ms.foldl mention ⟨known, []⟩).known rest

/-- Rounds announce what one long round does. -/
theorem flatten_rounds (mss : List (List (κ × ν))) (known : κ → Option ν) :
    (rounds known mss).flatten = (mss.flatten.foldl mention ⟨known, []⟩).told := by
  induction mss generalizing known with
  | nil => rfl
  | cons ms mss ih =>
    rw [rounds, List.flatten_cons, List.flatten_cons, List.foldl_append, ih, ← told_mentions]

end Announcer

end OooCpu
