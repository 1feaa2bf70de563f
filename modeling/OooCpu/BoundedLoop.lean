import Mathlib.Data.Nat.Basic

/-! # Counted loops with an early exit

`forLoop body n` runs `body` at most `n` times and leaves the loop as soon as
the body says so. A property that one pass of the body preserves, whichever way
the pass ends, is preserved by the whole loop. -/
namespace OooCpu

/-- How one pass of a loop body ends. -/
inductive Flow (σ : Type*)
  | more (s : σ)
  | stop (s : σ)

namespace Flow
variable {σ : Type*}

def state : Flow σ → σ
  | .more s => s
  | .stop s => s

@[simp] theorem state_more (s : σ) : (Flow.more s).state = s := rfl
@[simp] theorem state_stop (s : σ) : (Flow.stop s).state = s := rfl

end Flow

variable {σ : Type*}

def forLoop (body : σ → Flow σ) : ℕ → σ → σ
  | 0, s => s
  | n + 1, s => match body s with
    | .more s' => forLoop body n s'
    | .stop s' => s'

/-- The invariant rule of a counted loop. -/
theorem forLoop_preserves {body : σ → Flow σ} (P : σ → Prop) (hstep : ∀ s, P s → P (body s).state)
    (n : ℕ) {s : σ} (h : P s) : P (forLoop body n s) := by
  induction n generalizing s with
  | zero => exact h
  | succ n ih =>
    have hs := hstep s h
    simp only [forLoop]
    cases hb : body s with
    | more s' => exact ih (by simpa [hb] using hs)
    | stop s' => simpa [hb] using hs

/-- A preorder that relates each pass to its start relates the whole loop to its start. -/
theorem forLoop_relates {body : σ → Flow σ} (R : σ → σ → Prop) (hrefl : ∀ s, R s s)
    (htrans : ∀ {a b c}, R a b → R b c → R a c) (hstep : ∀ s, R s (body s).state) (n : ℕ) (s : σ) :
    R s (forLoop body n s) := by
  induction n generalizing s with
  | zero => exact hrefl s
  | succ n ih =>
    have hs := hstep s
    simp only [forLoop]
    cases hb : body s with
    | more s' => exact htrans (by simpa [hb] using hs) (ih s')
    | stop s' => simpa [hb] using hs

/-- What a pass raises by one at most, a loop raises by its count at most. -/
theorem forLoop_counts {body : σ → Flow σ} (m : σ → ℕ) (hstep : ∀ s, m (body s).state ≤ m s + 1)
    (n : ℕ) (s : σ) : m (forLoop body n s) ≤ m s + n := by
  induction n generalizing s with
  | zero => exact Nat.le_refl _
  | succ n ih =>
    have hs := hstep s
    simp only [forLoop]
    cases hb : body s with
    | more s' =>
      rw [hb, Flow.state_more] at hs
      have hrest := ih s'
      dsimp only
      omega
    | stop s' =>
      rw [hb, Flow.state_stop] at hs
      dsimp only
      omega

/-- The first pass of a loop that runs at all is related to where the loop ends. -/
theorem forLoop_first {body : σ → Flow σ} (R : σ → σ → Prop) (hrefl : ∀ s, R s s)
    (htrans : ∀ {a b c}, R a b → R b c → R a c) (hstep : ∀ s, R s (body s).state) {n : ℕ}
    (hn : 0 < n) (s : σ) : R (body s).state (forLoop body n s) := by
  obtain ⟨n, rfl⟩ := Nat.exists_eq_add_one.mpr hn
  simp only [forLoop]
  cases body s with
  | more s' => exact forLoop_relates R hrefl htrans hstep n s'
  | stop s' => exact hrefl s'

/-- The rule for a body that leaves the loop by another kind of pass than it goes on with. -/
theorem forLoop_ends {body : σ → Flow σ} (R S : σ → σ → Prop) (hrefl : ∀ s, S s s)
    (htrans : ∀ {a b c}, R a b → S b c → S a c) (hmore : ∀ {s t}, body s = .more t → R s t)
    (hstop : ∀ {s t}, body s = .stop t → S s t) (n : ℕ) (s : σ) : S s (forLoop body n s) := by
  induction n generalizing s with
  | zero => exact hrefl s
  | succ n ih =>
    simp only [forLoop]
    cases hb : body s with
    | more s' => exact htrans (hmore hb) (ih s')
    | stop s' => exact hstop hb

/-- A loop whose body leaves at once changes nothing. -/
theorem forLoop_stop {body : σ → Flow σ} {s : σ} (h : body s = .stop s) (n : ℕ) :
    forLoop body n s = s := by
  cases n with
  | zero => rfl
  | succ n => simp only [forLoop, h]

variable {τ : Type*}

/-- Two passes end the same way, in related states. -/
inductive Flow.Alike (R : σ → τ → Prop) : Flow σ → Flow τ → Prop
  | more {s : σ} {t : τ} (h : R s t) : Flow.Alike R (.more s) (.more t)
  | stop {s : σ} {t : τ} (h : R s t) : Flow.Alike R (.stop s) (.stop t)

/-- Loops whose passes simulate each other simulate each other. -/
theorem forLoop_simulates {body : σ → Flow σ} {body' : τ → Flow τ} (R : σ → τ → Prop)
    (hstep : ∀ s t, R s t → (body s).Alike R (body' t)) (n : ℕ) {s : σ} {t : τ} (h : R s t) :
    R (forLoop body n s) (forLoop body' n t) := by
  induction n generalizing s t with
  | zero => exact h
  | succ n ih =>
    have hpass := hstep s t h
    simp only [forLoop]
    generalize body s = a, body' t = b at hpass
    cases hpass with
    | more hmore => exact ih hmore
    | stop hstop => exact hstop

end OooCpu
