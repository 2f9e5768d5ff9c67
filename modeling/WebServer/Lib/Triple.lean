/-
  WebServer.Lib.Triple

  Pre- and postconditions of programs that may fault.

  `Ensures` is partial correctness: the result, if there is one, meets the
  postcondition.  `Yields` is total correctness: there is a result and it meets
  the postcondition.  Preconditions are hypotheses.  The rules follow the
  program: `pure`, sequence, conditional, and for `Yields` the counted loop
  (`Yields.forLoop`), which needs no variant.
-/

import Mathlib.Tactic.Common

namespace WebServer.Lib

universe u v

variable {ε : Type v} {α β σ : Type u}

/-- The result of `x` meets `Q`, unless `x` faults. -/
structure Ensures (x : Except ε α) (Q : α → Prop) : Prop where
  result : ∀ a, x = .ok a → Q a

/-- `x` does not fault and its result meets `Q`. -/
def Yields (x : Except ε α) (Q : α → Prop) : Prop := ∃ a, x = .ok a ∧ Q a

section Rules

variable {x y : Except ε α} {f : α → Except ε β} {R : α → Prop} {Q : β → Prop}

theorem Ensures.pure {Q : α → Prop} {a : α} (h : Q a) :
    Ensures (Pure.pure a : Except ε α) Q := by
  constructor
  rintro _ ⟨⟩
  exact h

theorem Ensures.bind (hx : Ensures x R) (hf : ∀ a, R a → Ensures (f a) Q) :
    Ensures (x >>= f) Q := by
  constructor
  intro b hb
  cases x with
  | error e => cases hb
  | ok a => exact (hf a (hx.result a rfl)).result b hb

/-- Where nothing need be known of the first part. -/
theorem Ensures.after (hf : ∀ a, Ensures (f a) Q) : Ensures (x >>= f) Q := by
  apply Ensures.bind (R := fun _ => True)
  · exact ⟨fun _ _ => trivial⟩
  · intro a _
    exact hf a

theorem Ensures.ite {c : Prop} [Decidable c] {Q : α → Prop} (hx : c → Ensures x Q)
    (hy : ¬ c → Ensures y Q) : Ensures (if c then x else y) Q := by
  by_cases hc : c
  · rw [if_pos hc]
    exact hx hc
  · rw [if_neg hc]
    exact hy hc

theorem Yields.mono {Q : α → Prop} (hx : Yields x R) (h : ∀ a, R a → Q a) : Yields x Q := by
  obtain ⟨a, ha, hR⟩ := hx
  exact ⟨a, ha, h a hR⟩

theorem Yields.bind (hx : Yields x R) (hf : ∀ a, R a → Yields (f a) Q) :
    Yields (x >>= f) Q := by
  obtain ⟨a, rfl, hR⟩ := hx
  exact hf a hR

end Rules

/-! ## Counted loops -/

/-- `n` passes of a counted loop, the first with the counter at `i`. -/
def passes (body : Nat → σ → Except ε σ) : Nat → Nat → σ → Except ε σ
  | _, 0, s => .ok s
  | i, n + 1, s => body i s >>= passes body (i + 1) n

/-- `for (int i = lo; i < hi; i++)` -/
def forLoop (lo hi : Nat) (body : Nat → σ → Except ε σ) (s : σ) : Except ε σ :=
  passes body lo (hi - lo) s

/-- The rule of the counted loop: what holds before the pass `lo` and is kept
    by every pass holds at the end, for `hi`. -/
theorem Yields.forLoop {I : Nat → σ → Prop} {lo hi : Nat} {s : σ}
    {body : Nat → σ → Except ε σ} (hle : lo ≤ hi) (hs : I lo s)
    (hpass : ∀ i s, lo ≤ i → i < hi → I i s → Yields (body i s) (I (i + 1))) :
    Yields (forLoop lo hi body s) (I hi) := by
  suffices hgo : ∀ n i s, lo ≤ i → i + n = hi → I i s → Yields (passes body i n s) (I hi) from
    hgo (hi - lo) lo s (Nat.le_refl lo) (by omega) hs
  intro n
  induction n with
  | zero =>
      intro i s _ hi hI
      obtain rfl : i = _ := hi
      exact ⟨s, rfl, hI⟩
  | succ n ih =>
      intro i s hlo hi hI
      apply Yields.bind (hpass i s hlo (by omega) hI)
      intro s' hI'
      exact ih (i + 1) s' (by omega) (by omega) hI'

end WebServer.Lib
