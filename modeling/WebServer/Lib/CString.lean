/-
  WebServer.Lib.CString

  Byte buffers and the string functions of the C library that work on them.

  A `char[n]` is a `Vector UInt8 n`.  Pointers into it are offsets, the null
  pointer is `none` of `Option Nat`.  An access outside `[0, n)` is a fault,
  not a default value: the string functions carry no length, they stop at the
  byte they look for or at the terminating NUL, and run off the buffer when it
  holds neither.  `span` is the one scan they are all built from.
-/

import Mathlib.Algebra.Group.Int.Defs
import Mathlib.Tactic.Common

namespace WebServer.Lib

/-- How an access goes wrong. -/
inductive Fault where
  | nullDeref
  | outOfBounds
deriving DecidableEq, Repr

theorem ok_bind {α β : Type} (a : α) (f : α → Except Fault β) :
    (Except.ok a >>= f) = f a := rfl

theorem error_bind {α β : Type} (fault : Fault) (f : α → Except Fault β) :
    (Except.error fault >>= f) = .error fault := rfl

/-- A sequence that goes well goes well in both parts. -/
theorem bind_eq_ok {α β : Type} {x : Except Fault α} {f : α → Except Fault β} {b : β} :
    (x >>= f) = .ok b ↔ ∃ a, x = .ok a ∧ f a = .ok b := by
  cases x with
  | error fault => simp [error_bind]
  | ok a => simp [ok_bind]

/-! ## Accesses -/

section Access

variable {n : Nat}

def load (m : Vector UInt8 n) (i : Nat) : Except Fault UInt8 :=
  match m[i]? with
  | some b => .ok b
  | none => .error .outOfBounds

def store (m : Vector UInt8 n) (i : Nat) (b : UInt8) : Except Fault (Vector UInt8 n) :=
  if h : i < n then .ok (m.set i b) else .error .outOfBounds

/-- A store through pointer arithmetic that may go below the buffer. -/
def storeAt (m : Vector UInt8 n) (i : Int) (b : UInt8) : Except Fault (Vector UInt8 n) :=
  if 0 ≤ i then store m i.toNat b else .error .outOfBounds

/-- Consecutive bytes, as a block write stores them. -/
def storeAll (m : Vector UInt8 n) (i : Nat) : List UInt8 → Except Fault (Vector UInt8 n)
  | [] => .ok m
  | b :: bs => do
      let m ← store m i b
      storeAll m (i + 1) bs

theorem load_eq_ok {m : Vector UInt8 n} {i : Nat} {b : UInt8} :
    load m i = .ok b ↔ m[i]? = some b := by
  unfold load
  cases m[i]? <;> simp

theorem store_of_lt {m : Vector UInt8 n} {i : Nat} {b : UInt8} (h : i < n) :
    store m i b = .ok (m.set i b) := by
  simp [store, h]

theorem storeAt_of_lt {m : Vector UInt8 n} {i : Int} {b : UInt8} (hlow : 0 ≤ i) (hhigh : i < n) :
    ∃ m', storeAt m i b = .ok m' := by
  rw [storeAt, if_pos hlow, store_of_lt (by omega)]
  exact ⟨_, rfl⟩

theorem storeAt_of_out {m : Vector UInt8 n} {i : Int} {b : UInt8} (h : i < 0 ∨ n ≤ i) :
    storeAt m i b = .error .outOfBounds := by
  rw [storeAt]
  by_cases hlow : 0 ≤ i
  · rw [if_pos hlow, store, dif_neg (by omega)]
  · rw [if_neg hlow]

theorem store_eq_ok {m m' : Vector UInt8 n} {i : Nat} {b : UInt8} :
    store m i b = .ok m' ↔ ∃ h : i < n, m' = m.set i b := by
  rw [store]
  by_cases h : i < n
  · rw [dif_pos h]
    refine ⟨fun hok => ⟨h, (Except.ok.inj hok).symm⟩, ?_⟩
    rintro ⟨-, rfl⟩
    rfl
  · rw [dif_neg h]
    exact ⟨nofun, fun hset => absurd hset.1 h⟩

theorem storeAt_eq_ok {m m' : Vector UInt8 n} {i : Int} {b : UInt8}
    (h : storeAt m i b = .ok m') : ∃ (j : Nat) (hj : j < n), i = j ∧ m' = m.set j b := by
  rw [storeAt] at h
  by_cases hlow : 0 ≤ i
  · rw [if_pos hlow] at h
    obtain ⟨hj, rfl⟩ := store_eq_ok.mp h
    exact ⟨i.toNat, hj, (Int.toNat_of_nonneg hlow).symm, rfl⟩
  · rw [if_neg hlow] at h
    cases h

/-! ### Block writes -/

theorem storeAll_append {m : Vector UInt8 n} {i : Nat} {as bs : List UInt8} :
    storeAll m i (as ++ bs) = storeAll m i as >>= fun m => storeAll m (i + as.length) bs := by
  induction as generalizing m i with
  | nil => rfl
  | cons a as ih =>
      rw [List.cons_append, storeAll, storeAll, List.length_cons]
      cases hstore : store m i a with
      | error fault => rfl
      | ok m' =>
          rw [ok_bind, ok_bind, ih, Nat.add_assoc, Nat.add_comm 1]

theorem storeAll_of_le {m : Vector UInt8 n} {i : Nat} {bs : List UInt8} (h : i + bs.length ≤ n) :
    ∃ m', storeAll m i bs = .ok m' := by
  induction bs generalizing m i with
  | nil => exact ⟨m, rfl⟩
  | cons b bs ih =>
      rw [List.length_cons] at h
      rw [storeAll, store_of_lt (by omega), ok_bind]
      exact ih (by omega)

theorem le_of_storeAll {m m' : Vector UInt8 n} {i : Nat} {bs : List UInt8} (hi : i ≤ n)
    (h : storeAll m i bs = .ok m') : i + bs.length ≤ n := by
  induction bs generalizing m i with
  | nil => exact hi
  | cons b bs ih =>
      rw [storeAll] at h
      obtain ⟨m₁, hstore, hrest⟩ := bind_eq_ok.mp h
      obtain ⟨hlt, -⟩ := store_eq_ok.mp hstore
      have hle := ih hlt hrest
      rw [List.length_cons]
      omega

/-- The bytes that were written, and the others as they were. -/
theorem storeAll_getElem? {m m' : Vector UInt8 n} {i : Nat} {bs : List UInt8}
    (h : storeAll m i bs = .ok m') (j : Nat) :
    m'[j]? = if i ≤ j ∧ j < i + bs.length then bs[j - i]? else m[j]? := by
  induction bs generalizing m i with
  | nil =>
      cases h
      rw [if_neg (by simp only [List.length_nil]; omega)]
  | cons b bs ih =>
      rw [storeAll] at h
      obtain ⟨m₁, hstore, hrest⟩ := bind_eq_ok.mp h
      obtain ⟨hi, rfl⟩ := store_eq_ok.mp hstore
      rw [ih hrest, List.length_cons]
      -- the first byte, one of the others, or none of them
      by_cases hij : i = j
      · subst hij
        rw [if_neg (by omega), if_pos (by omega), Nat.sub_self, Vector.getElem?_set_self]
        rfl
      · rw [Vector.getElem?_set_ne _ hij]
        by_cases hin : i + 1 ≤ j ∧ j < i + 1 + bs.length
        · obtain ⟨k, hk⟩ : ∃ k, j - i = k + 1 := ⟨j - i - 1, by omega⟩
          rw [if_pos hin, if_pos (by omega), hk, List.getElem?_cons_succ]
          congr 1
          omega
        · rw [if_neg hin, if_neg (by omega)]

end Access

/-! ## The scan -/

section Scan

variable {n : Nat}

/-- The bytes from `i` on while `p` holds of them; `fuel` is what is left of
    the buffer. -/
def spanAux (m : Vector UInt8 n) (p : UInt8 → Bool) : Nat → Nat → Except Fault (List UInt8)
  | 0, _ => .error .outOfBounds
  | fuel + 1, i => do
      let b ← load m i
      if p b then
        let rest ← spanAux m p fuel (i + 1)
        return b :: rest
      else
        return []

def span (m : Vector UInt8 n) (p : UInt8 → Bool) (i : Nat) : Except Fault (List UInt8) :=
  spanAux m p (n - i) i

/-- A scan that stops at once. -/
theorem span_eq_nil {m : Vector UInt8 n} {p : UInt8 → Bool} {i : Nat} {b : UInt8}
    (h : m[i]? = some b) (hp : p b = false) : span m p i = .ok [] := by
  have hlt : i < n := (Vector.getElem?_eq_some_iff.mp h).1
  obtain ⟨k, hk⟩ : ∃ k, n - i = k + 1 := ⟨n - i - 1, by omega⟩
  simp [span, hk, spanAux, load_eq_ok.mpr h, hp, bind, Except.bind, pure, Except.pure]

/-- A scan that meets a byte to stop at inside the buffer does not fault. -/
theorem span_of_stop {m : Vector UInt8 n} {p : UInt8 → Bool} {i j : Nat} {b : UInt8}
    (hij : i ≤ j) (h : m[j]? = some b) (hp : p b = false) : ∃ run, span m p i = .ok run := by
  have hj : j < n := (Vector.getElem?_eq_some_iff.mp h).1
  suffices hgo : ∀ fuel i, i ≤ j → j < i + fuel → ∃ run, spanAux m p fuel i = .ok run from
    hgo (n - i) i hij (by omega)
  intro fuel
  induction fuel with
  | zero =>
      intro i hij hlt
      exact absurd hlt (by omega)
  | succ fuel ih =>
      intro i hij hlt
      have hi : i < n := by omega
      have hload : load m i = .ok m[i] := load_eq_ok.mpr (Vector.getElem?_eq_getElem hi)
      simp only [spanAux, hload, bind, Except.bind]
      by_cases hpi : p m[i]
      · -- not the last byte of the run, since `p` fails at `j`
        have hne : i ≠ j := by
          intro heq
          subst heq
          rw [Vector.getElem?_eq_getElem hi] at h
          simp_all
        obtain ⟨run, hrun⟩ := ih (i + 1) (by omega) (by omega)
        rw [if_pos hpi, hrun]
        exact ⟨m[i] :: run, rfl⟩
      · rw [if_neg hpi]
        exact ⟨[], rfl⟩

end Scan

/-! ## Characters -/

/-- The bytes of a string literal. -/
def ascii (s : String) : List UInt8 := s.toList.map Char.toUInt8

def NUL : UInt8 := 0
def LF : UInt8 := 10
def CR : UInt8 := 13

/-- `tolower` in the C locale. -/
def tolower (b : UInt8) : UInt8 := if 65 ≤ b ∧ b ≤ 90 then b + 32 else b

/-- `isspace` in the C locale. -/
def isspace (b : UInt8) : Bool := b == 32 || (9 ≤ b && b ≤ 13)

def isdigit (b : UInt8) : Bool := 48 ≤ b && b ≤ 57

/-- Equality of byte strings that ignores ASCII case. -/
def eqIgnoreCase (s t : List UInt8) : Bool := s.map tolower == t.map tolower

theorem eqIgnoreCase_iff {s t : List UInt8} :
    eqIgnoreCase s t = true ↔ s.map tolower = t.map tolower := by
  rw [eqIgnoreCase, beq_iff_eq]

theorem length_of_eqIgnoreCase {s t : List UInt8} (h : eqIgnoreCase s t = true) :
    s.length = t.length := by
  simpa using congrArg List.length (eqIgnoreCase_iff.mp h)

/-! ## String functions -/

section StringFunctions

variable {n : Nat} (m : Vector UInt8 n)

/-- What `printf("%s", s)` reads: the string up to and including its NUL. -/
def readString (s : Nat) : Except Fault (List UInt8) :=
  span m (fun b => b != NUL) s

/-- `strpbrk(s, accept)`: the first byte of `s` that is one of `accept`. -/
def strpbrk (s : Nat) (accept : List UInt8) : Except Fault (Option Nat) := do
  let skipped ← span m (fun b => b != NUL && !accept.contains b) s
  let b ← load m (s + skipped.length)
  return if b = NUL then none else some (s + skipped.length)

/-- `strchr(s, c)` for `c` other than NUL. -/
def strchr (s : Nat) (c : UInt8) : Except Fault (Option Nat) :=
  strpbrk m s [c]

/-- `strspn(s, accept)`: the length of the initial run of bytes from `accept`. -/
def strspn (s : Nat) (accept : List UInt8) : Except Fault Nat := do
  let run ← span m (fun b => accept.contains b) s
  return run.length

/-- `strcasecmp(s, t) == 0`, `t` a literal without NUL. -/
def strcasecmp (s : Nat) : List UInt8 → Except Fault Bool
  | [] => do
      let b ← load m s
      return b == NUL
  | c :: t => do
      let b ← load m s
      if tolower b = tolower c then strcasecmp (s + 1) t else return false

/-- `strncasecmp(s, t, n) == 0`, `t` a literal without NUL and `n` its length. -/
def strncasecmp (s : Nat) : List UInt8 → Except Fault Bool
  | [] => return true
  | c :: t => do
      let b ← load m s
      if tolower b = tolower c then strncasecmp (s + 1) t else return false

/-- The value of a run of decimal digits. -/
def decimal (digits : List UInt8) : Nat :=
  digits.foldl (fun v d => 10 * v + (d.toNat - 48)) 0

/-- The limits of a 64-bit `long`. -/
def LONG_MAX : Int := 2 ^ 63 - 1
def LONG_MIN : Int := -2 ^ 63

/-- `atol(s)`: blanks, an optional sign, digits; saturates at the limits of
    `long`. -/
def atol (s : Nat) : Except Fault Int := do
  let blanks ← span m isspace s
  let s := s + blanks.length
  let sign ← load m s
  let s := if sign = 43 ∨ sign = 45 then s + 1 else s
  let digits ← span m isdigit s
  let v : Int := decimal digits
  return max LONG_MIN (min LONG_MAX (if sign = 45 then -v else v))

end StringFunctions

/-! ## Facts about strings -/

section Facts

variable {n : Nat} {m : Vector UInt8 n}

/-- Nothing is found in the empty string. -/
theorem strpbrk_of_nul {s : Nat} {accept : List UInt8} (h : m[s]? = some NUL) :
    strpbrk m s accept = .ok none := by
  have hspan : span m (fun b => b != NUL && !accept.contains b) s = .ok [] :=
    span_eq_nil h (by simp)
  simp only [strpbrk, hspan, bind, Except.bind, List.length_nil, Nat.add_zero,
    load_eq_ok.mpr h, if_true]
  rfl

/-- A string that ends inside the buffer can be read. -/
theorem readString_of_nul {s i : Nat} (hsi : s ≤ i) (h : m[i]? = some NUL) :
    ∃ text, readString m s = .ok text :=
  span_of_stop hsi h (by simp)

end Facts

end WebServer.Lib
