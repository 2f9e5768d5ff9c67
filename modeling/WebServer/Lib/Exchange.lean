/-
  WebServer.Lib.Exchange

  Sorting an array in place by compare-and-exchange.

  `exchange a i j` puts the smaller of two elements at `i` and the larger at
  `j`.  It permutes the array, and a bound on the elements stays one.  An array
  is sorted from one of its ends:

    * from the right, when from some index on every element is a maximum of
      what stands up to it (`MaximaFrom`), and an exchange of neighbours moves
      the maximum of a part to the right (`MaxAt`);
    * from the left, when up to some index every element is a minimum of what
      stands from it on (`MinimaTo`), and an exchange with the rest brings
      their minimum to the left (`MinAmong`).

  Either way the array is sorted when one element is left, and there is one
  sorted permutation (`eq_of_sorted`).
-/

import Mathlib.Order.MinMax
import Mathlib.Tactic.Common

namespace WebServer.Lib

variable {α : Type*} [LinearOrder α] {n : Nat}

/-- The smaller element to `i`, the larger one to `j`. -/
def exchange (a : Vector α n) (i j : Nat) (hi : i < n) (hj : j < n) : Vector α n :=
  if a[j] < a[i] then a.swap i j else a

section Exchange

variable {a : Vector α n} {i j : Nat} {hi : i < n} {hj : j < n}

theorem exchange_perm : (exchange a i j hi hj).Perm a := by
  rw [exchange]
  split
  · exact Vector.swap_perm hi hj
  · exact Vector.Perm.refl a

theorem exchange_left : (exchange a i j hi hj)[i] = min a[i] a[j] := by
  rw [exchange]
  split
  · rename_i hlt
    rw [Vector.getElem_swap hi hj hi, if_pos rfl, min_eq_right hlt.le]
  · rename_i hge
    rw [min_eq_left (not_lt.mp hge)]

theorem exchange_right : (exchange a i j hi hj)[j] = max a[i] a[j] := by
  rw [exchange]
  split
  · rename_i hlt
    have hne : j ≠ i := by
      rintro rfl
      exact lt_irrefl _ hlt
    rw [Vector.getElem_swap hi hj hj, if_neg hne, if_pos rfl, max_eq_left hlt.le]
  · rename_i hge
    rw [max_eq_right (not_lt.mp hge)]

theorem exchange_other {k : Nat} (hk : k < n) (hki : k ≠ i) (hkj : k ≠ j) :
    (exchange a i j hi hj)[k] = a[k] := by
  rw [exchange]
  split
  · rw [Vector.getElem_swap hi hj hk, if_neg hki, if_neg hkj]
  · rfl

/-- What holds of the two elements and of the one at `k` holds of the one at
    `k` afterwards. -/
theorem exchange_induction {P : α → Prop} {k : Nat} (hk : k < n) (hPi : P a[i]) (hPj : P a[j])
    (hPk : P a[k]) : P (exchange a i j hi hj)[k] := by
  by_cases hki : k = i
  · subst hki
    rw [exchange_left]
    exact min_rec' P hPi hPj
  · by_cases hkj : k = j
    · subst hkj
      rw [exchange_right]
      exact max_rec' P hPi hPj
    · rw [exchange_other hk hki hkj]
      exact hPk

end Exchange

/-! ## Sorted arrays -/

section Sorted

variable {a b c : Vector α n}

theorem sorted_of_le (h : ∀ p q (hq : q < n) (hpq : p ≤ q), a[p] ≤ a[q]) :
    a.toList.Pairwise (· ≤ ·) := by
  rw [List.pairwise_iff_getElem]
  intro p q hp hq hpq
  rw [Vector.getElem_toList, Vector.getElem_toList]
  exact h p q (by simpa using hq) hpq.le

/-- There is one sorted permutation. -/
theorem eq_of_sorted (hb : b.toList.Pairwise (· ≤ ·)) (hc : c.toList.Pairwise (· ≤ ·))
    (hab : b.Perm a) (hac : c.Perm a) : b = c := by
  have hperm : b.toList.Perm c.toList := Vector.perm_iff_toList_perm.mp (hab.trans hac.symm)
  exact Vector.toList_inj.mp (hperm.eq_of_pairwise (fun _ _ _ _ => le_antisymm) hb hc)

end Sorted

/-! ## From the right -/

/-- From `k` on, no element is less than one before it. -/
def MaximaFrom (k : Nat) (a : Vector α n) : Prop :=
  ∀ p q (hq : q < n) (hpq : p ≤ q), k ≤ q → a[p] ≤ a[q]

/-- The element at `k` is a maximum of those up to it. -/
def MaxAt (k : Nat) (a : Vector α n) : Prop :=
  ∀ p (hk : k < n) (hp : p ≤ k), a[p] ≤ a[k]

section Right

variable {a : Vector α n} {i j k : Nat}

theorem maximaFrom_length (a : Vector α n) : MaximaFrom n a := by
  intro p q hq hpq hnq
  omega

theorem maxAt_zero (a : Vector α n) : MaxAt 0 a := by
  intro p hk hp
  obtain rfl : p = 0 := by omega
  exact le_refl _

/-- An exchange left of `k`. -/
theorem MaximaFrom.exchange (h : MaximaFrom k a) {hi : i < n} {hj : j < n} (hik : i < k)
    (hjk : j < k) : MaximaFrom k (exchange a i j hi hj) := by
  intro p q hq hpq hkq
  rw [exchange_other hq (by omega) (by omega)]
  exact exchange_induction (P := fun x => x ≤ a[q]) (by omega) (h i q hq (by omega) hkq)
    (h j q hq (by omega) hkq) (h p q hq hpq hkq)

/-- The maximum moves on to the neighbour. -/
theorem MaxAt.exchange (h : MaxAt j a) {hj : j < n} {hj' : j + 1 < n} :
    MaxAt (j + 1) (exchange a j (j + 1) hj hj') := by
  intro p hk hp
  rw [exchange_right]
  rcases Nat.eq_or_lt_of_le hp with rfl | hlt
  · rw [exchange_right]
  · apply exchange_induction (P := fun x => x ≤ max a[j] a[j + 1])
    · exact le_max_left _ _
    · exact le_max_right _ _
    · exact (h p hj (by omega)).trans (le_max_left _ _)

/-- One more element is in its place. -/
theorem MaximaFrom.pred (h : MaximaFrom (k + 1) a) (hmax : MaxAt k a) : MaximaFrom k a := by
  intro p q hq hpq hkq
  rcases Nat.eq_or_lt_of_le hkq with rfl | hlt
  · exact hmax p hq hpq
  · exact h p q hq hpq hlt

theorem MaximaFrom.sorted (h : MaximaFrom 1 a) : a.toList.Pairwise (· ≤ ·) := by
  apply sorted_of_le
  intro p q hq hpq
  by_cases hzero : q = 0
  · obtain rfl : p = q := by omega
    exact le_refl _
  · exact h p q hq hpq (by omega)

end Right

/-! ## From the left -/

/-- Before `k`, no element is greater than one behind it. -/
def MinimaTo (k : Nat) (a : Vector α n) : Prop :=
  ∀ p q (hq : q < n) (hpq : p ≤ q), p < k → a[p] ≤ a[q]

/-- The element at `k` is a minimum of those from it up to `m`. -/
def MinAmong (k m : Nat) (a : Vector α n) : Prop :=
  ∀ q (hq : q < n) (hkq : k ≤ q), q < m → a[k] ≤ a[q]

section Left

variable {a : Vector α n} {i j k m : Nat}

theorem minimaTo_zero (a : Vector α n) : MinimaTo 0 a := by
  intro p q hq hpq hp
  omega

theorem minAmong_self (k : Nat) (a : Vector α n) : MinAmong k (k + 1) a := by
  intro q hq hkq hlt
  obtain rfl : k = q := by omega
  exact le_refl _

/-- An exchange from `k` on. -/
theorem MinimaTo.exchange (h : MinimaTo k a) {hi : i < n} {hj : j < n} (hki : k ≤ i)
    (hkj : k ≤ j) : MinimaTo k (exchange a i j hi hj) := by
  intro p q hq hpq hpk
  rw [exchange_other (by omega) (by omega) (by omega)]
  exact exchange_induction (P := fun x => a[p] ≤ x) hq (h p i hi (by omega) hpk)
    (h p j hj (by omega) hpk) (h p q hq hpq hpk)

/-- The minimum of one more element. -/
theorem MinAmong.exchange (h : MinAmong k m a) {hk : k < n} {hm : m < n} (hkm : k < m) :
    MinAmong k (m + 1) (exchange a k m hk hm) := by
  intro q hq hkq hlt
  rw [exchange_left]
  by_cases hqm : q = m
  · subst hqm
    rw [exchange_right]
    exact min_le_max
  · apply exchange_induction (P := fun x => min a[k] a[m] ≤ x) hq
    · exact min_le_left _ _
    · exact min_le_right _ _
    · exact (min_le_left _ _).trans (h q hq hkq (by omega))

theorem MinimaTo.succ (h : MinimaTo k a) (hmin : MinAmong k n a) : MinimaTo (k + 1) a := by
  intro p q hq hpq hpk
  rcases Nat.eq_or_lt_of_le (Nat.le_of_lt_succ hpk) with rfl | hlt
  · exact hmin q hq hpq hq
  · exact h p q hq hpq hlt

theorem MinimaTo.sorted (h : MinimaTo (n - 1) a) : a.toList.Pairwise (· ≤ ·) := by
  apply sorted_of_le
  intro p q hq hpq
  by_cases hlast : p = n - 1
  · obtain rfl : p = q := by omega
    exact le_refl _
  · exact h p q hq hpq (by omega)

end Left

end WebServer.Lib
