/-
  WebServer.Lib.Concurrent

  Three pieces that models of communicating threads need:

    * guarded systems — a step function given by a guard and an effect, with
      the one inversion lemma all step lemmas go through;
    * thread counting — how many threads of a finite family are at a given
      point of their code, what weights of their points add up to, and how
      both move when one thread steps;
    * the abstract FIFO channel — what a shared queue is for: whatever the
      interleaving, what went in is what came out followed by what is inside.
-/

import WebServer.Lib.Exec
import Mathlib.Data.Fintype.Card
import Mathlib.Algebra.BigOperators.Group.Finset.Piecewise

namespace WebServer.Lib

/-! ## Guarded systems -/

/-- The step function of a guard and an effect. -/
def guarded {σ ℓ : Type*} (enabled : σ → ℓ → Prop) [∀ s l, Decidable (enabled s l)]
    (next : σ → ℓ → σ) (s : σ) (l : ℓ) : Option σ :=
  if enabled s l then some (next s l) else none

/-- Everything a guarded step can do: its guard held and the effect happened. -/
@[simp] theorem guarded_eq_some {σ ℓ : Type*} {enabled : σ → ℓ → Prop}
    [∀ s l, Decidable (enabled s l)] {next : σ → ℓ → σ} {s s' : σ} {l : ℓ} :
    guarded enabled next s l = some s' ↔ enabled s l ∧ next s l = s' := by
  unfold guarded
  split <;> simp_all

/-! ## Thread counting -/

section ThreadCount

variable {ι α : Type*} [Fintype ι]

/-- The number of threads whose local state satisfies `p`. -/
def threadCount (f : ι → α) (p : α → Prop) [DecidablePred p] : Nat :=
  (Finset.univ.filter fun i => p (f i)).card

variable {f : ι → α} {p : α → Prop} [DecidablePred p]

theorem threadCount_eq_sum : threadCount f p = ∑ i, if p (f i) then 1 else 0 := by
  simp only [threadCount, Finset.card_filter]

/-- One thread moves from `f i` to `v`: the count gains what `v` contributes
    and loses what `f i` did. -/
theorem threadCount_update [DecidableEq ι] (i : ι) (v : α) :
    threadCount (Function.update f i v) p + (if p (f i) then 1 else 0)
      = threadCount f p + (if p v then 1 else 0) := by
  have hmem : i ∈ (Finset.univ : Finset ι) := Finset.mem_univ i
  -- all other threads contribute what they did before
  have hrest : ∀ j ∈ Finset.univ.erase i,
      (if p (Function.update f i v j) then 1 else 0) = if p (f j) then 1 else 0 := by
    intro j hj
    rw [Function.update_of_ne (Finset.ne_of_mem_erase hj)]
  rw [threadCount_eq_sum, threadCount_eq_sum, ← Finset.add_sum_erase _ _ hmem,
    ← Finset.add_sum_erase (a := i) _ (fun j => if p (f j) then 1 else 0) hmem,
    Finset.sum_congr rfl hrest, Function.update_self]
  omega

theorem threadCount_eq_zero : threadCount f p = 0 ↔ ∀ i, ¬ p (f i) := by
  simp [threadCount, Finset.filter_eq_empty_iff]

theorem threadCount_pos {i : ι} (h : p (f i)) : 0 < threadCount f p :=
  Finset.card_pos.mpr ⟨i, by simpa using h⟩

/-- What the threads add up to when each counts for the weight of its local
    state. -/
def threadSum (f : ι → α) (weight : α → Nat) : Nat := ∑ i, weight (f i)

/-- One thread moves: the sum changes by the difference of the two weights. -/
theorem threadSum_update [DecidableEq ι] (weight : α → Nat) (i : ι) (v : α) :
    threadSum (Function.update f i v) weight + weight (f i) = threadSum f weight + weight v := by
  have hmem : i ∈ (Finset.univ : Finset ι) := Finset.mem_univ i
  simp only [threadSum, Function.apply_update fun _ => weight]
  rw [Finset.sum_update_of_mem hmem, ← Finset.add_sum_erase _ (fun j => weight (f j)) hmem,
    Finset.sdiff_singleton_eq_erase]
  omega

/-- Two different threads both satisfying `p` are counted twice. -/
theorem two_le_threadCount {i j : ι} (hij : i ≠ j) (hi : p (f i)) (hj : p (f j)) :
    2 ≤ threadCount f p :=
  Finset.one_lt_card.mpr ⟨i, by simpa using hi, j, by simpa using hj, hij⟩

end ThreadCount

/-! ## The abstract FIFO channel -/

namespace Fifo

variable {α : Type*}

/-- The two operations of a channel. -/
inductive Op (α : Type*) where
  | put (x : α)
  | take (x : α)

/-- A `put` appends at the back; a `take` removes the front element. -/
def step [DecidableEq α] (q : List α) : Op α → Option (List α)
  | .put x => some (q ++ [x])
  | .take x => if q.head? = some x then some q.tail else none

/-- What was put in, in order. -/
def puts : List (Op α) → List α :=
  List.filterMap fun
    | .put x => some x
    | .take _ => none

/-- What was taken out, in order. -/
def takes : List (Op α) → List α :=
  List.filterMap fun
    | .put _ => none
    | .take x => some x

/-- **FIFO law.**  In every run of a channel the elements put in are the ones
    taken out, in the order they were taken, followed by the content. -/
theorem puts_eq_takes_append [DecidableEq α] {tr : List (Op α)} {q : List α}
    (h : exec step [] tr = some q) : puts tr = takes tr ++ q := by
  refine exec_history (P := fun tr q => puts tr = takes tr ++ q) rfl ?_ h
  intro tr q l q' hinv hl
  cases l with
  | put x =>
      obtain rfl : q ++ [x] = q' := by simpa [step] using hl
      simp only [puts, takes] at hinv ⊢
      simp [hinv]
  | take x =>
      simp only [step, Option.ite_none_right_eq_some, Option.some.injEq] at hl
      obtain ⟨hhead, rfl⟩ := hl
      obtain ⟨rest, rfl⟩ := List.head?_eq_some_iff.mp hhead
      simp only [puts, takes] at hinv ⊢
      simp [hinv]

end Fifo

end WebServer.Lib
