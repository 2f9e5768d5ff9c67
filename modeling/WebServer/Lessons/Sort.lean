/-
  WebServer.Lessons.Sort

  The two sorts of lesson1.13, bubble.cpp and select.cpp.

  Both are double loops around the same compare-and-swap.  `bubbleSort`
  compares neighbours and fills the array with maxima from the right.
  `selectSort` does not look for a minimum first: it swaps `array[j]` with
  every smaller element it meets, and fills the array with minima from the
  left.  Every access is checked, so a result means that no index left the
  array.  Both yield the one sorted permutation (`sorts_agree`).
-/

import WebServer.Lib.CString
import WebServer.Lib.Exchange
import WebServer.Lib.Triple

namespace WebServer.Sort

open WebServer.Lib

variable {n : Nat}

/-! ## The source -/

/-- `array[i]`, read. -/
def fetch (array : Vector Int32 n) (i : Nat) : Except Fault Int32 :=
  match array[i]? with
  | some x => .ok x
  | none => .error .outOfBounds

/-- `array[i] = x` -/
def assign (array : Vector Int32 n) (i : Nat) (x : Int32) : Except Fault (Vector Int32 n) :=
  if h : i < n then .ok (array.set i x) else .error .outOfBounds

/-- `if (array[i] > array[j])` and the swap through `temp`. -/
def compareSwap (array : Vector Int32 n) (i j : Nat) : Except Fault (Vector Int32 n) := do
  if (← fetch array i) > (← fetch array j) then
    let temp ← fetch array i
    let array ← assign array i (← fetch array j)
    assign array j temp
  else
    return array

/-- `bubbleSort`.  The bounds are differences of `int`s; where they are negative
    there is no pass, and none for 0 either. -/
def bubbleSort (array : Vector Int32 n) (len : Nat) : Except Fault (Vector Int32 n) :=
  forLoop 0 (len - 1) (fun i array =>
    forLoop 0 (len - 1 - i) (fun j array => compareSwap array j (j + 1)) array) array

def selectSort (array : Vector Int32 n) (len : Nat) : Except Fault (Vector Int32 n) :=
  forLoop 0 (len - 1) (fun j array =>
    forLoop (j + 1) len (fun i array => compareSwap array j i) array) array

/-! ## The compare-and-swap -/

/-- The order of `int`. -/
local instance int32Order : LinearOrder Int32 where
  le_refl := Int32.le_refl
  le_trans _ _ _ := Int32.le_trans
  le_antisymm _ _ := Int32.le_antisymm
  le_total := Int32.le_total
  lt_iff_le_not_ge _ _ := Std.lt_iff_le_and_not_ge
  toDecidableLE := inferInstance

theorem fetch_of_lt {array : Vector Int32 n} {i : Nat} (hi : i < n) :
    fetch array i = .ok array[i] := by
  rw [fetch, Vector.getElem?_eq_getElem hi]

theorem assign_of_lt {array : Vector Int32 n} {i : Nat} (hi : i < n) (x : Int32) :
    assign array i x = .ok (array.set i x) := by
  rw [assign, dif_pos hi]

/-- Inside the array it is an exchange. -/
theorem compareSwap_eq {array : Vector Int32 n} {i j : Nat} (hi : i < n) (hj : j < n) :
    compareSwap array i j = .ok (exchange array i j hi hj) := by
  rw [compareSwap, fetch_of_lt hi, fetch_of_lt hj, ok_bind, ok_bind, exchange]
  by_cases hgt : array[i] > array[j]
  · rw [if_pos hgt, if_pos hgt, ok_bind, ok_bind, assign_of_lt hi, ok_bind, assign_of_lt hj]
    rfl
  · rw [if_neg hgt, if_neg hgt]
    rfl

/-! ## bubbleSort -/

section BubbleSort

variable {array : Vector Int32 n}

/-- Before the pass `i` of the outer loop. -/
structure Bubbled (array : Vector Int32 n) (i : Nat) (a : Vector Int32 n) : Prop where
  perm : a.Perm array
  maxima : MaximaFrom (n - i) a

/-- Before the pass `j` of the inner loop. -/
structure Bubbling (array : Vector Int32 n) (i j : Nat) (a : Vector Int32 n) : Prop extends
    Bubbled array i a where
  max : MaxAt j a

/-- Step lemma of the inner loop. -/
theorem Bubbling.step {i j : Nat} {a : Vector Int32 n} (h : Bubbling array i j a)
    (hj : j < n - 1 - i) : Yields (compareSwap a j (j + 1)) (Bubbling array i (j + 1)) := by
  have hj₀ : j < n := by omega
  have hj₁ : j + 1 < n := by omega
  refine ⟨_, compareSwap_eq hj₀ hj₁, ?_⟩
  constructor
  · constructor
    · exact exchange_perm.trans h.perm
    · exact h.maxima.exchange (by omega) (by omega)
  · exact h.max.exchange

/-- Step lemma of the outer loop: the inner one moves the maximum of what is
    left to `n - 1 - i`. -/
theorem Bubbled.step {i : Nat} {a : Vector Int32 n} (h : Bubbled array i a) (hi : i < n - 1) :
    Yields (forLoop 0 (n - 1 - i) (fun j a => compareSwap a j (j + 1)) a)
      (Bubbled array (i + 1)) := by
  have hinner : Yields _ (Bubbling array i (n - 1 - i)) :=
    Yields.forLoop (Nat.zero_le _) ⟨h, maxAt_zero a⟩ fun j a _ hj hbubbling => hbubbling.step hj
  apply hinner.mono
  intro a' ha'
  have hmaxima := ha'.maxima
  rw [show n - i = n - 1 - i + 1 by omega] at hmaxima
  refine ⟨ha'.perm, ?_⟩
  rw [show n - (i + 1) = n - 1 - i by omega]
  exact hmaxima.pred ha'.max

theorem bubbleSort_sorts (array : Vector Int32 n) :
    Yields (bubbleSort array n) fun a => a.Perm array ∧ a.toList.Pairwise (· ≤ ·) := by
  have hstart : Bubbled array 0 array := ⟨Vector.Perm.refl array, maximaFrom_length array⟩
  have houter : Yields (bubbleSort array n) (Bubbled array (n - 1)) :=
    Yields.forLoop (Nat.zero_le _) hstart fun i a _ hi hbubbled => hbubbled.step hi
  apply houter.mono
  intro a ha
  refine ⟨ha.perm, MaximaFrom.sorted ?_⟩
  intro p q hq hpq hone
  exact ha.maxima p q hq hpq (by omega)

end BubbleSort

/-! ## selectSort -/

section SelectSort

variable {array : Vector Int32 n}

/-- Before the pass `j` of the outer loop. -/
structure Selected (array : Vector Int32 n) (j : Nat) (a : Vector Int32 n) : Prop where
  perm : a.Perm array
  minima : MinimaTo j a

/-- Before the pass `i` of the inner loop. -/
structure Selecting (array : Vector Int32 n) (j i : Nat) (a : Vector Int32 n) : Prop extends
    Selected array j a where
  min : MinAmong j i a

/-- Step lemma of the inner loop. -/
theorem Selecting.step {j i : Nat} {a : Vector Int32 n} (h : Selecting array j i a) (hji : j < i)
    (hi : i < n) : Yields (compareSwap a j i) (Selecting array j (i + 1)) := by
  have hj : j < n := by omega
  refine ⟨_, compareSwap_eq hj hi, ?_⟩
  constructor
  · constructor
    · exact exchange_perm.trans h.perm
    · exact h.minima.exchange (Nat.le_refl j) hji.le
  · exact h.min.exchange hji

/-- Step lemma of the outer loop. -/
theorem Selected.step {j : Nat} {a : Vector Int32 n} (h : Selected array j a) (hj : j < n - 1) :
    Yields (forLoop (j + 1) n (fun i a => compareSwap a j i) a) (Selected array (j + 1)) := by
  have hinner : Yields _ (Selecting array j n) :=
    Yields.forLoop (by omega) ⟨h, minAmong_self j a⟩ fun i a hji hi hselecting =>
      hselecting.step hji hi
  apply hinner.mono
  intro a' ha'
  exact ⟨ha'.perm, ha'.minima.succ ha'.min⟩

theorem selectSort_sorts (array : Vector Int32 n) :
    Yields (selectSort array n) fun a => a.Perm array ∧ a.toList.Pairwise (· ≤ ·) := by
  have hstart : Selected array 0 array := ⟨Vector.Perm.refl array, minimaTo_zero array⟩
  have houter : Yields (selectSort array n) (Selected array (n - 1)) :=
    Yields.forLoop (Nat.zero_le _) hstart fun j a _ hj hselected => hselected.step hj
  apply houter.mono
  intro a ha
  exact ⟨ha.perm, ha.minima.sorted⟩

end SelectSort

/-! ## Agreement -/

/-- **The sorts.**  On every array both end without an access outside of it,
    and both leave the ascending permutation of what it held. -/
theorem sorts_agree (array : Vector Int32 n) :
    ∃ sorted, bubbleSort array n = .ok sorted ∧ selectSort array n = .ok sorted ∧
      sorted.toList.Pairwise (· ≤ ·) ∧ sorted.toList.Perm array.toList := by
  obtain ⟨a, hbubble, hperm, hsorted⟩ := bubbleSort_sorts array
  obtain ⟨b, hselect, hperm', hsorted'⟩ := selectSort_sorts array
  obtain rfl : a = b := eq_of_sorted hsorted hsorted' hperm hperm'
  exact ⟨a, hbubble, hselect, hsorted, Vector.perm_iff_toList_perm.mp hperm⟩

/-- The array of main.cpp. -/
example : bubbleSort #v[12, 27, 55, 22, 67] 5 = .ok #v[12, 22, 27, 55, 67] := by decide +kernel

end WebServer.Sort
