/-
  WebServer.Lib.Mutex

  Data that threads share under one mutex.

  A thread is known by its program point alone: whether it is between `lock`
  and `unlock`, and what it may take for granted about the data there.  While
  it is inside nobody else can change the data, so what it knows stays true;
  outside it knows nothing.  `Monitor.Holds` says both, together with who
  holds the mutex, and there is one rule for each thing a thread can do:

    * `acquire` — it was free, and is held;
    * `work` — the holder changes the data in any way;
    * `release` — the holder leaves;
    * `outside` — a thread moves without the mutex and without the data.
-/

import Mathlib.Logic.Function.Basic
import Mathlib.Tactic.Common

namespace WebServer.Lib

/-- The program points `α` of threads that share `σ`. -/
structure Monitor (α σ : Type*) where
  /-- between `lock` and `unlock` -/
  inside : α → Bool
  /-- what a thread at this point knows about the data -/
  knows : α → σ → Prop
  knows_outside : ∀ {a : α}, inside a = false → ∀ s, knows a s

namespace Monitor

variable {ι α σ : Type*} {M : Monitor α σ}

/-- The mutex is held by the thread inside, and what the threads know is true. -/
structure Holds (M : Monitor α σ) (owner : Option ι) (pc : ι → α) (shared : σ) : Prop where
  owner_iff : ∀ i, owner = some i ↔ M.inside (pc i) = true
  knows : ∀ i, M.knows (pc i) shared

variable {owner : Option ι} {pc : ι → α} {shared shared' : σ} {i j : ι} {v : α}

theorem Holds.start (h : ∀ i, M.inside (pc i) = false) : M.Holds none pc shared where
  owner_iff := by
    intro i
    simp [h i]
  knows := fun i => M.knows_outside (h i) shared

theorem Holds.owner_eq (h : M.Holds owner pc shared) (hi : M.inside (pc i) = true) :
    owner = some i :=
  (h.owner_iff i).mpr hi

/-- **Mutual exclusion.** -/
theorem Holds.unique (h : M.Holds owner pc shared) (hi : M.inside (pc i) = true)
    (hj : M.inside (pc j) = true) : i = j := by
  have hij := (h.owner_eq hi).symm.trans (h.owner_eq hj)
  exact Option.some.inj hij

theorem Holds.outside_of_ne (h : M.Holds owner pc shared) (hi : M.inside (pc i) = true)
    (hij : j ≠ i) : M.inside (pc j) = false := by
  rw [Bool.eq_false_iff]
  exact fun hj => hij (h.unique hj hi)

variable [DecidableEq ι]

theorem Holds.acquire (h : M.Holds none pc shared) (hv : M.inside v = true)
    (hknows : M.knows v shared) : M.Holds (some i) (Function.update pc i v) shared where
  owner_iff := by
    refine (Function.forall_update_iff pc fun j a => some i = some j ↔ M.inside a = true).mpr
      ⟨by simp [hv], fun j hj => ?_⟩
    rw [← h.owner_iff j, Option.some.injEq]
    exact ⟨fun hij => absurd hij.symm hj, nofun⟩
  knows := (Function.forall_update_iff pc fun _ a => M.knows a shared).mpr
    ⟨hknows, fun j _ => h.knows j⟩

theorem Holds.work (h : M.Holds owner pc shared) (hi : M.inside (pc i) = true)
    (hv : M.inside v = true) (hknows : M.knows v shared') :
    M.Holds owner (Function.update pc i v) shared' where
  owner_iff := (Function.forall_update_iff pc fun j a => owner = some j ↔ M.inside a = true).mpr
    ⟨by rw [h.owner_iff i, hi, hv], fun j _ => h.owner_iff j⟩
  -- the others are outside and know nothing
  knows := (Function.forall_update_iff pc fun _ a => M.knows a shared').mpr
    ⟨hknows, fun _ hj => M.knows_outside (h.outside_of_ne hi hj) shared'⟩

theorem Holds.release (h : M.Holds owner pc shared) (hi : M.inside (pc i) = true)
    (hv : M.inside v = false) : M.Holds none (Function.update pc i v) shared :=
  .start <| (Function.forall_update_iff pc fun _ a => M.inside a = false).mpr
    ⟨hv, fun _ hj => h.outside_of_ne hi hj⟩

theorem Holds.outside (h : M.Holds owner pc shared) (hi : M.inside (pc i) = false)
    (hv : M.inside v = false) : M.Holds owner (Function.update pc i v) shared where
  owner_iff := (Function.forall_update_iff pc fun j a => owner = some j ↔ M.inside a = true).mpr
    ⟨by rw [h.owner_iff i, hi, hv], fun j _ => h.owner_iff j⟩
  knows := (Function.forall_update_iff pc fun _ a => M.knows a shared).mpr
    ⟨M.knows_outside hv shared, fun j _ => h.knows j⟩

end Monitor

end WebServer.Lib
