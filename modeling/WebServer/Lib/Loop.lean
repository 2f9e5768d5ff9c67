/-
  WebServer.Lib.Loop

  While loops that may fault and may not end.

  One pass through the loop is a function `body`: it faults, returns from the
  enclosing function, or asks for another pass.  `loop` runs it with fuel, so
  it can be evaluated; `Returns` is the fuel-free statement that the loop ends
  with a given outcome, a fault being one of the outcomes.

  A loop that ends ends in one way (`Returns.unique`), and what a pass keeps
  holds at its end (`Returns.invariant`).  A loop whose passes make progress
  until one repeats itself ends exactly if it comes to no such pass
  (`returns_iff_no_repeat`).
-/

import Mathlib.Tactic.Common
import Mathlib.Logic.Relation

namespace WebServer.Lib

/-- What one pass through a loop decides. -/
inductive Iter (σ ρ : Type*) where
  | next (s : σ)
  | done (r : ρ)

variable {σ ρ ε : Type*}

/-- The loop, cut off after `fuel` passes. -/
def loop (body : σ → Except ε (Iter σ ρ)) : Nat → σ → Option (Except ε ρ)
  | 0, _ => none
  | fuel + 1, s =>
      match body s with
      | .error e => some (.error e)
      | .ok (.done r) => some (.ok r)
      | .ok (.next s') => loop body fuel s'

/-- The loop entered in `s` ends with `out`. -/
def Returns (body : σ → Except ε (Iter σ ρ)) (s : σ) (out : Except ε ρ) : Prop :=
  ∃ fuel, loop body fuel s = some out

variable {body : σ → Except ε (Iter σ ρ)} {s : σ} {out : Except ε ρ}

/-- A loop that any fuel takes to the same end returns with it and nothing
    else. -/
theorem returns_iff {last : Except ε ρ} (h : ∀ fuel, loop body (fuel + 1) s = some last) :
    Returns body s out ↔ out = last := by
  refine ⟨?_, ?_⟩
  · rintro ⟨fuel, hfuel⟩
    cases fuel with
    | zero => cases hfuel
    | succ fuel =>
        rw [h fuel] at hfuel
        exact (Option.some.inj hfuel).symm
  · rintro rfl
    exact ⟨1, h 0⟩

/-- More fuel changes nothing. -/
theorem loop_mono {fuel fuel' : Nat} (hle : fuel ≤ fuel') (h : loop body fuel s = some out) :
    loop body fuel' s = some out := by
  induction fuel generalizing fuel' s with
  | zero => cases h
  | succ fuel ih =>
      obtain ⟨k, rfl⟩ : ∃ k, fuel' = k + 1 := ⟨fuel' - 1, by omega⟩
      rw [loop] at h ⊢
      cases hpass : body s with
      | error e =>
          rw [hpass] at h
          exact h
      | ok iter =>
          rw [hpass] at h
          cases iter with
          | done r => exact h
          | next s' => exact ih (by omega) h

/-! ## Passes -/

theorem returns_of_error {e : ε} (h : body s = .error e) :
    Returns body s out ↔ out = .error e := by
  refine returns_iff (fun fuel => ?_)
  rw [loop, h]

theorem returns_of_done {r : ρ} (h : body s = .ok (.done r)) :
    Returns body s out ↔ out = .ok r := by
  refine returns_iff (fun fuel => ?_)
  rw [loop, h]

/-- A pass that asks for another one leaves the end to it. -/
theorem returns_of_next {s' : σ} (h : body s = .ok (.next s')) :
    Returns body s out ↔ Returns body s' out := by
  refine ⟨?_, ?_⟩
  · rintro ⟨fuel, hfuel⟩
    cases fuel with
    | zero => cases hfuel
    | succ fuel =>
        rw [loop, h] at hfuel
        exact ⟨fuel, hfuel⟩
  · rintro ⟨fuel, hfuel⟩
    refine ⟨fuel + 1, ?_⟩
    rw [loop, h]
    exact hfuel

/-- The loop ends in one way. -/
theorem Returns.unique {out' : Except ε ρ} (h : Returns body s out) (h' : Returns body s out') :
    out = out' := by
  obtain ⟨fuel, hfuel⟩ := h
  induction fuel generalizing s with
  | zero => cases hfuel
  | succ fuel ih =>
      rw [loop] at hfuel
      cases hpass : body s with
      | error e =>
          rw [hpass] at hfuel
          rw [returns_of_error hpass] at h'
          rw [h', ← Option.some.inj hfuel]
      | ok iter =>
          rw [hpass] at hfuel
          cases iter with
          | done r =>
              rw [returns_of_done hpass] at h'
              rw [h', ← Option.some.inj hfuel]
          | next s' => exact ih ((returns_of_next hpass).mp h') hfuel

/-- What every pass keeps holds when the loop returns: `I` from pass to pass,
    and `P` of the pass that returns. -/
theorem Returns.invariant {I : σ → Prop} {P : ρ → Prop} {r : ρ}
    (hnext : ∀ s s', I s → body s = .ok (.next s') → I s')
    (hdone : ∀ s r, I s → body s = .ok (.done r) → P r) (hs : I s)
    (h : Returns body s (.ok r)) : P r := by
  obtain ⟨fuel, hfuel⟩ := h
  induction fuel generalizing s with
  | zero => cases hfuel
  | succ fuel ih =>
      rw [loop] at hfuel
      cases hpass : body s with
      | error e =>
          rw [hpass] at hfuel
          cases hfuel
      | ok iter =>
          rw [hpass] at hfuel
          cases iter with
          | done r' =>
              cases hfuel
              exact hdone s r hs hpass
          | next s' => exact ih (hnext s s' hs hpass) hfuel

/-! ## Termination -/

/-- The states at the head of the loop, from `s` on. -/
def Reaches (body : σ → Except ε (Iter σ ρ)) : σ → σ → Prop :=
  Relation.ReflTransGen fun s s' => body s = .ok (.next s')

theorem Reaches.invariant {I : σ → Prop} {t : σ}
    (hnext : ∀ s s', I s → body s = .ok (.next s') → I s') (hs : I s)
    (h : Reaches body s t) : I t := by
  induction h with
  | refl => exact hs
  | tail _ hpass ih => exact hnext _ _ ih hpass

theorem Reaches.returns {t : σ} (h : Reaches body s t) :
    Returns body s out ↔ Returns body t out := by
  induction h with
  | refl => rfl
  | tail _ hpass ih => rw [ih, returns_of_next hpass]

/-- A pass that repeats itself goes on for ever. -/
theorem not_returns_of_repeat (h : body s = .ok (.next s)) : ¬ Returns body s out := by
  rintro ⟨fuel, hfuel⟩
  induction fuel with
  | zero => cases hfuel
  | succ fuel ih =>
      rw [loop, h] at hfuel
      exact ih hfuel

/-- **Termination up to repetition.**  Every pass decreases a measure, or leads
    to a state that repeats itself; then the loop ends if and only if it comes
    to no such state. -/
theorem returns_iff_no_repeat {I : σ → Prop} {m : σ → Nat}
    (hnext : ∀ s s', I s → body s = .ok (.next s') → I s')
    (hstep : ∀ s s', I s → body s = .ok (.next s') →
      m s' < m s ∨ body s' = .ok (.next s'))
    (hs : I s) :
    (∃ out, Returns body s out) ↔ ∀ t, Reaches body s t → body t ≠ .ok (.next t) := by
  refine ⟨?_, fun hno => ?_⟩
  · rintro ⟨out, hout⟩ t hreach hrepeat
    exact not_returns_of_repeat hrepeat (hreach.returns.mp hout)
  · -- on the measure; where it does not decrease, `hno` excludes the repetition
    induction hk : m s using Nat.strongRecOn generalizing s with
    | ind k ih =>
        cases hpass : body s with
        | error e => exact ⟨_, (returns_of_error hpass).mpr rfl⟩
        | ok iter =>
            cases iter with
            | done r => exact ⟨_, (returns_of_done hpass).mpr rfl⟩
            | next s' =>
                have hreach {t : σ} (h : Reaches body s' t) : Reaches body s t :=
                  Relation.ReflTransGen.head hpass h
                rcases hstep s s' hs hpass with hlt | hrepeat
                · obtain ⟨out, hout⟩ := ih (m s') (hk ▸ hlt) (hnext s s' hs hpass)
                    (fun t h => hno t (hreach h)) rfl
                  exact ⟨out, (returns_of_next hpass).mpr hout⟩
                · exact absurd hrepeat (hno s' (hreach Relation.ReflTransGen.refl))

end WebServer.Lib
