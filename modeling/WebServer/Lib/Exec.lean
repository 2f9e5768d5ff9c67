/-
  WebServer.Lib.Exec

  Executions of a labelled step function.

  A system is a partial step function `step : σ → ℓ → Option σ`: everything
  that is not determined by the state (the scheduler, the environment, the
  answers of the kernel) is in the label, and a label that is not enabled
  gives `none`.  An execution is then a list of labels, so "every
  interleaving" is a quantifier over lists and a concrete run is evaluated.

  The rules below are the only inductions over executions that the
  developments on top need:

    * `exec_history` — an invariant of the trace together with the state, and
      `exec_history_of_allSteps` for runs whose steps meet a condition;
    * `allStates_iff_allSteps` — a property holds along a whole run exactly
      when every step of it meets a condition;
    * `drift_eq_zero_iff` — the same for a counter that only bad steps move;
    * `exec_length_add_le` and `exists_exec_maximal` — runs of steps that lower
      a measure are bounded, and can be continued until none is left;
    * `exec_simulates` — a step-by-step simulation between two systems.
-/

import Mathlib.Data.List.Induction
import Mathlib.Tactic.Common

namespace WebServer.Lib

variable {σ τ ℓ κ : Type*}

/-! ## Executions -/

/-- Perform the labels of `tr` in order; `none` as soon as one is not enabled. -/
def exec (step : σ → ℓ → Option σ) (s : σ) (tr : List ℓ) : Option σ :=
  tr.foldlM step s

variable {step : σ → ℓ → Option σ}

@[simp] theorem exec_nil (s : σ) : exec step s [] = some s := rfl

@[simp] theorem exec_cons (s : σ) (l : ℓ) (tr : List ℓ) :
    exec step s (l :: tr) = (step s l).bind fun s' => exec step s' tr := rfl

theorem exec_append (s : σ) (tr₁ tr₂ : List ℓ) :
    exec step s (tr₁ ++ tr₂) = (exec step s tr₁).bind fun s' => exec step s' tr₂ := by
  simp only [exec, List.foldlM_append]
  rfl

theorem exec_singleton (s : σ) (l : ℓ) : exec step s [l] = step s l := by
  simp only [exec_cons, exec_nil, Option.bind_fun_some]

/-- The last step of a run, split off. -/
theorem exec_snoc {s s'' : σ} {tr : List ℓ} {l : ℓ} :
    exec step s (tr ++ [l]) = some s'' ↔
      ∃ s', exec step s tr = some s' ∧ step s' l = some s'' := by
  rw [exec_append]
  cases exec step s tr with
  | none => simp
  | some s' => cases h : step s' l <;> simp [h]

/-! ## Invariants -/

/-- A relation between the trace so far and the state that holds at the start
    and is kept by every step holds of every run. -/
theorem exec_history {P : List ℓ → σ → Prop} {s₀ : σ} (h0 : P [] s₀)
    (hstep : ∀ tr s l s', P tr s → step s l = some s' → P (tr ++ [l]) s') :
    ∀ {tr : List ℓ} {s : σ}, exec step s₀ tr = some s → P tr s := by
  intro tr
  induction tr using List.reverseRecOn with
  | nil =>
      intro s h
      obtain rfl : s₀ = s := by simpa using h
      exact h0
  | append_singleton tr l ih =>
      intro s'' h
      obtain ⟨s', hrun, hl⟩ := exec_snoc.mp h
      exact hstep tr s' l s'' (ih hrun) hl

/-- Inductive invariants: the trace-free case of `exec_history`. -/
theorem exec_invariant {P : σ → Prop} {s₀ : σ} (h0 : P s₀)
    (hstep : ∀ s l s', P s → step s l = some s' → P s')
    {tr : List ℓ} {s : σ} (h : exec step s₀ tr = some s) : P s :=
  exec_history (P := fun _ s => P s) h0 (fun _ => hstep) h

/-! ## Whole-run properties -/

/-- `P` holds in every state the run passes through, its end included. -/
def AllStates (step : σ → ℓ → Option σ) (P : σ → Prop) (s₀ : σ) (tr : List ℓ) : Prop :=
  ∀ pre post s, tr = pre ++ post → exec step s₀ pre = some s → P s

/-- Every step of the run is taken in a state that meets `C` with its label. -/
def AllSteps (step : σ → ℓ → Option σ) (C : σ → ℓ → Prop) (s₀ : σ) (tr : List ℓ) : Prop :=
  ∀ pre l post s, tr = pre ++ l :: post → exec step s₀ pre = some s → C s l

theorem allSteps_nil {C : σ → ℓ → Prop} {s₀ : σ} : AllSteps step C s₀ [] := by
  intro pre l post s h
  simp at h

theorem allStates_nil {P : σ → Prop} {s₀ : σ} :
    AllStates step P s₀ [] ↔ P s₀ := by
  constructor
  · intro h
    exact h [] [] s₀ rfl rfl
  · intro h pre post s htr hs
    obtain ⟨rfl, -⟩ := List.append_eq_nil_iff.mp htr.symm
    obtain rfl : s₀ = s := by simpa using hs
    exact h

theorem allStates_cons {P : σ → Prop} {s₀ : σ} {l : ℓ} {tr : List ℓ} :
    AllStates step P s₀ (l :: tr) ↔
      P s₀ ∧ ∀ s ∈ step s₀ l, AllStates step P s tr := by
  refine ⟨fun h => ⟨h [] (l :: tr) s₀ rfl rfl, fun s hs pre post t htr ht => ?_⟩, ?_⟩
  · refine h (l :: pre) post t (by rw [htr, List.cons_append]) ?_
    rw [exec_cons, hs]
    exact ht
  · rintro ⟨h0, h⟩ pre post t htr ht
    cases pre with
    | nil =>
        obtain rfl : s₀ = t := by simpa using ht
        exact h0
    | cons m pre =>
        obtain ⟨rfl, rfl⟩ := List.cons.inj htr
        rw [exec_cons] at ht
        obtain ⟨s, hs, ht⟩ := Option.bind_eq_some_iff.mp ht
        exact h s hs pre post t rfl ht

/-- A property that can be decided in a state can be decided along a run. -/
instance AllStates.decidable {P : σ → Prop} [DecidablePred P] :
    (s₀ : σ) → (tr : List ℓ) → Decidable (AllStates step P s₀ tr)
  | _, [] => decidable_of_iff _ allStates_nil.symm
  | _, _ :: tr =>
      have : ∀ s, Decidable (AllStates step P s tr) := fun s => AllStates.decidable s tr
      decidable_of_iff _ allStates_cons.symm

/-- A list extended by one element splits inside the old part or at its end. -/
private theorem snoc_eq_append {tr pre post : List ℓ} {l : ℓ} (h : tr ++ [l] = pre ++ post) :
    (∃ post', tr = pre ++ post') ∨ pre = tr ++ [l] := by
  rcases List.eq_nil_or_concat post with rfl | ⟨post', m, rfl⟩
  · exact Or.inr (by simpa using h.symm)
  · refine Or.inl ⟨post', ?_⟩
    rw [List.concat_eq_append, ← List.append_assoc] at h
    exact (List.append_inj' h rfl).1

theorem allSteps_snoc {C : σ → ℓ → Prop} {s₀ s : σ} {tr : List ℓ} {l : ℓ}
    (hs : exec step s₀ tr = some s) :
    AllSteps step C s₀ (tr ++ [l]) ↔ AllSteps step C s₀ tr ∧ C s l := by
  constructor
  · intro h
    refine ⟨fun pre m post t htr ht => ?_, h tr l [] s rfl hs⟩
    exact h pre m (post ++ [l]) t (by simp [htr]) ht
  · rintro ⟨h, hl⟩ pre m post t htr ht
    -- the step in question is the new one or one of the old run
    rcases List.eq_nil_or_concat post with rfl | ⟨post', k, rfl⟩
    · obtain ⟨rfl, hm⟩ := List.append_inj' htr rfl
      obtain rfl : l = m := by simpa using hm
      obtain rfl : s = t := by simpa [hs] using ht
      exact hl
    · rw [List.concat_eq_append, ← List.cons_append, ← List.append_assoc] at htr
      exact h pre m post' t (List.append_inj' htr rfl).1 ht

theorem allStates_snoc {P : σ → Prop} {s₀ s' : σ} {tr : List ℓ} {l : ℓ}
    (hs' : exec step s₀ (tr ++ [l]) = some s') :
    AllStates step P s₀ (tr ++ [l]) ↔ AllStates step P s₀ tr ∧ P s' := by
  constructor
  · intro h
    refine ⟨fun pre post t htr ht => ?_, h (tr ++ [l]) [] s' (by simp) hs'⟩
    exact h pre (post ++ [l]) t (by simp [htr]) ht
  · rintro ⟨h, hP⟩ pre post t htr ht
    rcases snoc_eq_append htr with ⟨post', hpre⟩ | rfl
    · exact h pre post' t hpre ht
    · obtain rfl : s' = t := by simpa [hs'] using ht
      exact hP

/-- `exec_history` for the runs all of whose steps meet `C`. -/
theorem exec_history_of_allSteps {P : List ℓ → σ → Prop} {C : σ → ℓ → Prop} {s₀ : σ} (h0 : P [] s₀)
    (hstep : ∀ tr s l s', exec step s₀ tr = some s → P tr s → C s l → step s l = some s' →
      P (tr ++ [l]) s') :
    ∀ {tr : List ℓ} {s : σ}, exec step s₀ tr = some s → AllSteps step C s₀ tr → P tr s := by
  intro tr
  induction tr using List.reverseRecOn with
  | nil =>
      intro s h _
      obtain rfl : s₀ = s := by simpa using h
      exact h0
  | append_singleton tr l ih =>
      intro s'' h hall
      obtain ⟨s', hrun, hl⟩ := exec_snoc.mp h
      obtain ⟨hbefore, hC⟩ := (allSteps_snoc hrun).mp hall
      exact hstep tr s' l s'' hrun (ih hrun hbefore) hC hl

theorem AllSteps.of_append {C : σ → ℓ → Prop} {s₀ : σ} {tr₁ tr₂ : List ℓ}
    (h : AllSteps step C s₀ (tr₁ ++ tr₂)) : AllSteps step C s₀ tr₁ :=
  fun pre l post s htr hs => h pre l (post ++ tr₂) s (by simp [htr]) hs

/-- An inductive invariant holds in every state of a run. -/
theorem allStates_of_invariant {P : σ → Prop} {s₀ : σ} (h0 : P s₀)
    (hstep : ∀ s l s', P s → step s l = some s' → P s') (tr : List ℓ) :
    AllStates step P s₀ tr :=
  fun _ _ _ _ hs => exec_invariant h0 hstep hs

/-- What every state of a run grants to its next step. -/
theorem AllStates.allSteps {P : σ → Prop} {C : σ → ℓ → Prop} {s₀ s : σ} {tr : List ℓ}
    (hP : AllStates step P s₀ tr) (h : exec step s₀ tr = some s)
    (hstep : ∀ s l s', P s → step s l = some s' → C s l) : AllSteps step C s₀ tr := by
  intro pre l post t htr ht
  rw [htr, exec_append, ht, Option.bind_some, exec_cons] at h
  obtain ⟨t', hl, -⟩ := Option.bind_eq_some_iff.mp h
  exact hstep t l t' (hP pre (l :: post) t htr ht) hl

/-- In a run from a state with `P`, if a step keeps `P` exactly when it meets
    `C`, then `P` holds throughout the run exactly when all its steps meet `C`.
    `I` is any invariant the step fact may rely on. -/
theorem allStates_iff_allSteps {I P : σ → Prop} {C : σ → ℓ → Prop} {s₀ : σ}
    (hI0 : I s₀) (hI : ∀ s l s', I s → step s l = some s' → I s')
    (hP0 : P s₀)
    (hstep : ∀ s l s', I s → P s → step s l = some s' → (P s' ↔ C s l)) :
    ∀ {tr : List ℓ} {s : σ}, exec step s₀ tr = some s →
      (AllStates step P s₀ tr ↔ AllSteps step C s₀ tr) := by
  intro tr
  induction tr using List.reverseRecOn with
  | nil =>
      intro s _
      simp only [allStates_nil, hP0, allSteps_nil]
  | append_singleton tr l ih =>
      intro s'' h
      obtain ⟨s', hrun, hl⟩ := exec_snoc.mp h
      have hInv : I s' := exec_invariant hI0 hI hrun
      rw [allStates_snoc h, allSteps_snoc hrun, ih hrun]
      -- either side says that `P` held up to the last step
      refine and_congr_right fun hC => ?_
      have hPs' : P s' := (ih hrun).mpr hC tr [] s' (by simp) hrun
      exact hstep s' l s'' hInv hPs' hl

/-- A counter that starts at zero, is left alone by the steps that meet `C`
    and raised by all others is zero exactly after the runs without a bad step. -/
theorem drift_eq_zero_iff {I : σ → Prop} {C : σ → ℓ → Prop} {d : σ → Int} {s₀ : σ}
    (hI0 : I s₀) (hI : ∀ s l s', I s → step s l = some s' → I s') (h0 : d s₀ = 0)
    (hstep : ∀ s l s', I s → step s l = some s' →
      (C s l ∧ d s' = d s) ∨ (¬ C s l ∧ d s < d s'))
    {tr : List ℓ} {s : σ} (h : exec step s₀ tr = some s) :
    0 ≤ d s ∧ (d s = 0 ↔ AllSteps step C s₀ tr) := by
  suffices hsuff : exec step s₀ tr = some s ∧ I s ∧ 0 ≤ d s ∧
      (d s = 0 ↔ AllSteps step C s₀ tr) from hsuff.2.2
  refine exec_history (P := fun tr s => exec step s₀ tr = some s ∧ I s ∧ 0 ≤ d s ∧
      (d s = 0 ↔ AllSteps step C s₀ tr)) ⟨rfl, hI0, by omega, ?_⟩ ?_ h
  · simp only [h0, allSteps_nil]
  · rintro tr s l s' ⟨hrun, hInv, hnn, hiff⟩ hl
    refine ⟨exec_snoc.mpr ⟨s, hrun, hl⟩, hI s l s' hInv hl, ?_⟩
    rw [allSteps_snoc hrun, ← hiff]
    -- a good step changes neither side, a bad one makes both false for good
    rcases hstep s l s' hInv hl with ⟨hC, hd⟩ | ⟨hC, hd⟩
    · simp only [hC, and_true]
      omega
    · simp only [hC, and_false, iff_false]
      omega

/-! ## Runs that end -/

section Measure

variable {μ : σ → Nat} {Q : ℓ → Prop}

/-- What the measure has lost pays for the steps. -/
theorem exec_length_add_le (hstep : ∀ s l s', Q l → step s l = some s' → μ s' < μ s) :
    ∀ {tr : List ℓ} {s s' : σ}, (∀ l ∈ tr, Q l) → exec step s tr = some s' →
      tr.length + μ s' ≤ μ s := by
  intro tr
  induction tr with
  | nil =>
      intro s s' _ h
      obtain rfl : s = s' := by simpa using h
      simp
  | cons l tr ih =>
      intro s s' hQ h
      rw [exec_cons] at h
      obtain ⟨t, hl, hrest⟩ := Option.bind_eq_some_iff.mp h
      have hlow := hstep s l t (hQ l List.mem_cons_self) hl
      have hlen := ih (fun m hm => hQ m (List.mem_cons_of_mem l hm)) hrest
      rw [List.length_cons]
      omega

/-- There is a run to a state where none of these steps is enabled. -/
theorem exists_exec_maximal (hstep : ∀ s l s', Q l → step s l = some s' → μ s' < μ s) (s : σ) :
    ∃ tr s', (∀ l ∈ tr, Q l) ∧ exec step s tr = some s' ∧ ∀ l, Q l → step s' l = none := by
  induction hμ : μ s using Nat.strongRecOn generalizing s with
  | ind n ih =>
      by_cases hmax : ∀ l, Q l → step s l = none
      · exact ⟨[], s, by simp, rfl, hmax⟩
      · push Not at hmax
        obtain ⟨l, hQ, hne⟩ := hmax
        obtain ⟨t, hl⟩ := Option.ne_none_iff_exists'.mp hne
        obtain ⟨tr, s', htr, hrun, hmax'⟩ := ih (μ t) (hμ ▸ hstep s l t hQ hl) t rfl
        refine ⟨l :: tr, s', ?_, ?_, hmax'⟩
        · simpa [hQ] using htr
        · rw [exec_cons, hl]
          exact hrun

end Measure

/-! ## Simulation -/

/-- The abstract trace of a concrete run, when each concrete step stands for a
    list of abstract labels that may depend on the state it is taken in. -/
def absTrace (step : σ → ℓ → Option σ) (f : σ → ℓ → List κ) : σ → List ℓ → List κ
  | _, [] => []
  | s, l :: tr => f s l ++ (match step s l with
      | some s' => absTrace step f s' tr
      | none => [])

/-- The last step's labels, split off. -/
theorem absTrace_snoc {f : σ → ℓ → List κ} :
    ∀ {tr : List ℓ} {l : ℓ} {s s' : σ}, exec step s tr = some s' →
      absTrace step f s (tr ++ [l]) = absTrace step f s tr ++ f s' l := by
  intro tr
  induction tr with
  | nil =>
      intro l s s' h
      obtain rfl : s = s' := by simpa using h
      cases hl : step s l with
      | none => simp [absTrace, hl]
      | some t => simp [absTrace, hl]
  | cons m tr ih =>
      intro l s s' h
      rw [exec_cons] at h
      obtain ⟨t, hm, hrest⟩ := Option.bind_eq_some_iff.mp h
      simp only [List.cons_append, absTrace, hm]
      rw [ih hrest, List.append_assoc]

/-- Step-by-step simulation: if every concrete step is matched by its abstract
    labels, every concrete run is matched by its abstract trace.  `I` is any
    invariant the match may rely on. -/
theorem exec_simulates {step' : τ → κ → Option τ} {a : σ → τ} {f : σ → ℓ → List κ}
    {I : σ → Prop} (hI : ∀ s l s', I s → step s l = some s' → I s')
    (hsim : ∀ s l s', I s → step s l = some s' → exec step' (a s) (f s l) = some (a s')) :
    ∀ {tr : List ℓ} {s s' : σ}, I s → exec step s tr = some s' →
      exec step' (a s) (absTrace step f s tr) = some (a s') := by
  intro tr
  induction tr with
  | nil =>
      intro s s' _ h
      obtain rfl : s = s' := by simpa using h
      rfl
  | cons l tr ih =>
      intro s s' hs h
      rw [exec_cons] at h
      obtain ⟨t, hl, hrest⟩ := Option.bind_eq_some_iff.mp h
      simp only [absTrace, hl]
      rw [exec_append, hsim s l t hs hl]
      exact ih (hI s l t hs hl) hrest

/-- When the abstract labels do not depend on the state, the abstract trace is
    the concatenation of the images. -/
theorem absTrace_eq_flatMap {f : ℓ → List κ} :
    ∀ {tr : List ℓ} {s s' : σ}, exec step s tr = some s' →
      absTrace step (fun _ => f) s tr = tr.flatMap f := by
  intro tr
  induction tr with
  | nil => intro s s' _; rfl
  | cons l tr ih =>
      intro s s' h
      rw [exec_cons] at h
      obtain ⟨t, hl, hrest⟩ := Option.bind_eq_some_iff.mp h
      simp only [absTrace, hl, List.flatMap_cons, ih hrest]

end WebServer.Lib
