/-
  WebServer.Lib.Custody

  Custody of shared resources by passing tokens.  A resource that is live
  should be in exactly one place that will look after it: every such place is
  counted as a token.  A step may do one of four things to a resource: keep
  its tokens, open it with a first token, close it with its last one, or lose
  a token while the resource stays live.

  Whatever the steps do, nobody ever shares a resource (`Exclusive`); and no
  resource is ever unattended exactly as long as no step loses a token.
-/

import WebServer.Lib.Exec

namespace WebServer.Lib

/-- How many tokens a resource has, and whether it is live. -/
structure Custody (σ ι : Type*) where
  tokens : σ → ι → Nat
  live : σ → ι → Prop

namespace Custody

variable {σ ι ℓ : Type*} {c : Custody σ ι} {s s' : σ}

/-- What a step does to one resource; `lost` says whether it loses a token. -/
inductive Change (c : Custody σ ι) (s s' : σ) (x : ι) (lost : Prop) : Prop where
  | keep (htokens : c.tokens s' x = c.tokens s x) (hlive : c.live s' x ↔ c.live s x)
      (hlost : ¬ lost)
  | opens (htokens : c.tokens s' x = c.tokens s x + 1) (hbefore : ¬ c.live s x)
      (hafter : c.live s' x) (hlost : ¬ lost)
  | closes (htokens : c.tokens s' x + 1 = c.tokens s x) (hafter : ¬ c.live s' x)
      (hlost : ¬ lost)
  | loses (htokens : c.tokens s' x + 1 = c.tokens s x) (hafter : c.live s' x) (hlost : lost)

/-- One token at most, and none for what is not live. -/
def Exclusive (c : Custody σ ι) (s : σ) : Prop :=
  ∀ x, c.tokens s x ≤ 1 ∧ (¬ c.live s x → c.tokens s x = 0)

/-- Everything live has a token. -/
def Attended (c : Custody σ ι) (s : σ) : Prop :=
  ∀ x, c.live s x → 1 ≤ c.tokens s x

theorem Exclusive.live_of_pos (h : Exclusive c s) {x : ι} (hpos : 0 < c.tokens s x) :
    c.live s x := by
  by_contra hdead
  have := (h x).2 hdead
  omega

theorem Exclusive.change (h : Exclusive c s) {lost : ι → Prop}
    (hchange : ∀ x, Change c s s' x (lost x)) : Exclusive c s' := by
  intro x
  obtain ⟨hle, hdead⟩ := h x
  cases hchange x with
  | keep htokens hlive _ =>
      rw [htokens, hlive]
      exact ⟨hle, hdead⟩
  | opens htokens hbefore hafter _ =>
      have := hdead hbefore
      exact ⟨by omega, fun hn => absurd hafter hn⟩
  | closes htokens _ _ => exact ⟨by omega, fun _ => by omega⟩
  | loses htokens hafter _ => exact ⟨by omega, fun hn => absurd hafter hn⟩

/-- The last token of a resource can only be lost once, so one lost token is
    one unattended resource. -/
theorem attended_change_iff (h : Exclusive c s) (hatt : Attended c s) {lost : ι → Prop}
    (hchange : ∀ x, Change c s s' x (lost x)) : Attended c s' ↔ ∀ x, ¬ lost x := by
  refine ⟨fun hatt' x hlost => ?_, fun hkept x hlive => ?_⟩
  · -- the token lost was the only one
    have hle := (h x).1
    cases hchange x with
    | keep _ _ hn | opens _ _ _ hn | closes _ _ hn => exact hn hlost
    | loses htokens hafter _ =>
        have := hatt' x hafter
        omega
  · cases hchange x with
    | keep htokens hsame _ =>
        rw [htokens]
        exact hatt x (hsame.mp hlive)
    | opens htokens _ _ _ => omega
    | closes _ hafter _ => exact absurd hlive hafter
    | loses _ _ hlost => exact absurd hlost (hkept x)

end Custody

end WebServer.Lib
