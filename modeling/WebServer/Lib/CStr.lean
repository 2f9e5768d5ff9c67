/-
  WebServer.Lib.CStr

  The strings of the C library as lists.  `CStr m i l` says that the string at
  offset `i` of the buffer is `l`: its bytes, none of them NUL, and the NUL
  behind them.  On such a string every function of `CString` is a function of
  the list, and none of them faults:

    * `readString`, `strspn`, `strpbrk` and `strchr` find what `takeWhile`
      leaves or stops at;
    * `strcasecmp` and `strncasecmp` compare the list, or what `take` leaves of
      it, with the literal;
    * `atol` is `atolOf`.

  Cutting a string with a NUL makes two of it (`CStr.cut`).
-/

import WebServer.Lib.CString
import Mathlib.Data.List.TakeWhile

namespace WebServer.Lib

variable {n : Nat} {m : Vector UInt8 n} {i : Nat}

/-- The string at `i` is `l`. -/
def CStr (m : Vector UInt8 n) : Nat → List UInt8 → Prop
  | i, [] => m[i]? = some NUL
  | i, b :: l => m[i]? = some b ∧ b ≠ NUL ∧ CStr m (i + 1) l

instance CStr.decidable (m : Vector UInt8 n) : (i : Nat) → (l : List UInt8) → Decidable (CStr m i l)
  | _, [] => inferInstanceAs (Decidable (_ = _))
  | i, _ :: l =>
      have := CStr.decidable m (i + 1) l
      inferInstanceAs (Decidable (_ ∧ _ ∧ _))

/-! ## The bytes of a string -/

theorem CStr.no_nul {l : List UInt8} (h : CStr m i l) : ∀ b ∈ l, b ≠ NUL := by
  induction l generalizing i with
  | nil => simp
  | cons c l ih =>
      obtain ⟨-, hc, hl⟩ := h
      intro b hb
      rcases List.mem_cons.mp hb with rfl | hb
      · exact hc
      · exact ih hl b hb

/-- What stands behind a part of the string is the rest of it. -/
theorem CStr.append_right {a l : List UInt8} (h : CStr m i (a ++ l)) : CStr m (i + a.length) l := by
  induction a generalizing i with
  | nil => exact h
  | cons b a ih =>
      have hrest := ih h.2.2
      rw [List.length_cons, Nat.add_comm a.length 1, ← Nat.add_assoc]
      exact hrest

theorem CStr.drop {l : List UInt8} {k : Nat} (h : CStr m i l) (hk : k ≤ l.length) :
    CStr m (i + k) (l.drop k) := by
  rw [← List.take_append_drop k l] at h
  have hrest := h.append_right
  rw [List.length_take, Nat.min_eq_left hk] at hrest
  exact hrest

/-- The string ends inside the buffer. -/
theorem CStr.nul {l : List UInt8} (h : CStr m i l) : m[i + l.length]? = some NUL := by
  rw [← List.append_nil l] at h
  exact h.append_right

theorem CStr.byte {a l : List UInt8} {b : UInt8} (h : CStr m i (a ++ b :: l)) :
    m[i + a.length]? = some b :=
  h.append_right.1

theorem CStr.length_lt {l : List UInt8} (h : CStr m i l) : i + l.length < n :=
  (Vector.getElem?_eq_some_iff.mp h.nul).1

theorem CStr.unique {l l' : List UInt8} (h : CStr m i l) (h' : CStr m i l') : l = l' := by
  induction l generalizing i l' with
  | nil =>
      cases l' with
      | nil => rfl
      | cons c l' =>
          have hc : some NUL = some c := h.symm.trans h'.1
          exact absurd (Option.some.inj hc).symm h'.2.1
  | cons b l ih =>
      cases l' with
      | nil =>
          have hb : some b = some NUL := h.1.symm.trans h'
          exact absurd (Option.some.inj hb) h.2.1
      | cons c l' =>
          have hb : some b = some c := h.1.symm.trans h'.1
          rw [Option.some.inj hb, ih h.2.2 h'.2.2]

/-- A string from its bytes. -/
theorem cstr_of_getElem? {l : List UInt8} (hbytes : ∀ k < l.length, m[i + k]? = l[k]?)
    (hnul : m[i + l.length]? = some NUL) (hl : ∀ b ∈ l, b ≠ NUL) : CStr m i l := by
  induction l generalizing i with
  | nil => exact hnul
  | cons b l ih =>
      have hshift (k : Nat) : i + 1 + k = i + (k + 1) := by omega
      refine ⟨hbytes 0 (Nat.succ_pos _), hl b List.mem_cons_self, ih (fun k hk => ?_) ?_ ?_⟩
      · rw [hshift]
        exact hbytes (k + 1) (Nat.succ_lt_succ hk)
      · rw [hshift]
        exact hnul
      · exact fun c hc => hl c (List.mem_cons_of_mem _ hc)

/-- A part of the string, ended by a NUL of its own in another buffer. -/
theorem CStr.take {m' : Vector UInt8 n} {a l : List UInt8} (h : CStr m i (a ++ l))
    (heq : ∀ j, i ≤ j → j < i + a.length → m'[j]? = m[j]?)
    (hnul : m'[i + a.length]? = some NUL) : CStr m' i a := by
  induction a generalizing i with
  | nil => exact hnul
  | cons b a ih =>
      obtain ⟨hb, hne, hl⟩ := h
      rw [List.length_cons] at heq hnul
      refine ⟨?_, hne, ih hl (fun j hij hj => heq j (by omega) (by omega)) ?_⟩
      · rw [heq i (Nat.le_refl i) (by omega)]
        exact hb
      · rw [Nat.add_assoc, Nat.add_comm 1 a.length]
        exact hnul

/-- Only the bytes of the string and its NUL matter. -/
theorem CStr.congr {m' : Vector UInt8 n} {l : List UInt8} (h : CStr m i l)
    (heq : ∀ j, i ≤ j → j ≤ i + l.length → m'[j]? = m[j]?) : CStr m' i l := by
  have hnul := h.nul
  rw [← List.append_nil l] at h
  refine h.take (fun j hij hj => heq j hij (by omega)) ?_
  rw [heq _ (by omega) (Nat.le_refl _)]
  exact hnul

theorem CStr.set {l : List UInt8} (h : CStr m i l) {j : Nat} (hj : j < n) (b : UInt8)
    (hout : j < i ∨ i + l.length < j) : CStr (m.set j b) i l := by
  refine h.congr (fun k hik hk => ?_)
  rw [Vector.getElem?_set_ne hj (by omega)]

/-- A NUL in the middle leaves the part before it and the part behind it. -/
theorem CStr.cut {a l : List UInt8} {b : UInt8} (h : CStr m i (a ++ b :: l))
    (hlt : i + a.length < n) :
    CStr (m.set (i + a.length) NUL) i a ∧ CStr (m.set (i + a.length) NUL) (i + a.length + 1) l := by
  refine ⟨?_, h.append_right.2.2.set hlt NUL (Or.inl (by omega))⟩
  refine h.take (fun j hij hj => ?_) (Vector.getElem?_set_self hlt)
  rw [Vector.getElem?_set_ne hlt (by omega)]

/-! ## Writing NULs -/

/-- Nothing but NULs has been written. -/
def NulsOnly (m m' : Vector UInt8 n) : Prop :=
  ∀ j : Nat, m'[j]? = m[j]? ∨ m'[j]? = some NUL

theorem NulsOnly.refl (m : Vector UInt8 n) : NulsOnly m m := fun _ => Or.inl rfl

theorem NulsOnly.trans {m m' m'' : Vector UInt8 n} (h : NulsOnly m m') (h' : NulsOnly m' m'') :
    NulsOnly m m'' := by
  intro j
  rcases h' j with hj | hj
  · rw [hj]
    exact h j
  · exact Or.inr hj

theorem nulsOnly_set (m : Vector UInt8 n) {j : Nat} (hj : j < n) : NulsOnly m (m.set j NUL) := by
  intro k
  by_cases hk : j = k
  · subst hk
    exact Or.inr (Vector.getElem?_set_self hj)
  · exact Or.inl (Vector.getElem?_set_ne hj hk)

/-- A NUL stays. -/
theorem NulsOnly.nul {m' : Vector UInt8 n} (h : NulsOnly m m') (hi : m[i]? = some NUL) :
    m'[i]? = some NUL := by
  rcases h i with hi' | hi'
  · rw [hi', hi]
  · exact hi'

/-! ## Scans -/

/-- A scan that stops at NUL stops inside the string. -/
theorem span_of_cstr {l : List UInt8} (h : CStr m i l) {p : UInt8 → Bool} (hp : p NUL = false) :
    span m p i = .ok (l.takeWhile p) := by
  -- with any fuel that reaches the end of the buffer; the string ends before that
  suffices hgo : ∀ fuel i, n - i ≤ fuel → CStr m i l → spanAux m p fuel i = .ok (l.takeWhile p) from
    hgo (n - i) i (Nat.le_refl _) h
  clear h
  induction l with
  | nil =>
      intro fuel i hfuel h
      have hlt := h.length_lt
      obtain ⟨k, rfl⟩ : ∃ k, fuel = k + 1 := ⟨fuel - 1, by simp only [List.length_nil] at hlt; omega⟩
      rw [spanAux, load_eq_ok.mpr h, ok_bind, hp]
      rfl
  | cons b l ih =>
      intro fuel i hfuel h
      have hlt := h.length_lt
      obtain ⟨k, rfl⟩ : ∃ k, fuel = k + 1 := ⟨fuel - 1, by simp only [List.length_cons] at hlt; omega⟩
      rw [spanAux, load_eq_ok.mpr h.1, ok_bind]
      cases hb : p b with
      | true =>
          rw [if_pos rfl, ih k (i + 1) (by omega) h.2.2, ok_bind, List.takeWhile_cons, hb]
          rfl
      | false =>
          rw [List.takeWhile_cons, hb]
          rfl

theorem readString_of_cstr {l : List UInt8} (h : CStr m i l) : readString m i = .ok l := by
  have htake : l.takeWhile (fun b => b != NUL) = l := by
    rw [List.takeWhile_eq_self_iff]
    intro b hb
    simpa using h.no_nul b hb
  rw [readString, span_of_cstr h (by rfl), htake]

/-- What can be read is a string. -/
theorem readString_eq_ok {l : List UInt8} : readString m i = .ok l ↔ CStr m i l := by
  refine ⟨fun h => ?_, readString_of_cstr⟩
  suffices hgo : ∀ fuel i l, spanAux m (fun b => b != NUL) fuel i = .ok l → CStr m i l from
    hgo (n - i) i l h
  intro fuel
  induction fuel with
  | zero =>
      intro i l h
      cases h
  | succ fuel ih =>
      intro i l h
      rw [spanAux] at h
      cases hload : load m i with
      | error fault =>
          rw [hload, error_bind] at h
          cases h
      | ok b =>
          rw [hload, ok_bind] at h
          by_cases hb : b = NUL
          · subst hb
            cases h
            exact load_eq_ok.mp hload
          · rw [if_pos (by simpa using hb)] at h
            cases hrest : spanAux m (fun b => b != NUL) fuel (i + 1) with
            | error fault =>
                rw [hrest, error_bind] at h
                cases h
            | ok rest =>
                rw [hrest, ok_bind] at h
                cases h
                exact ⟨load_eq_ok.mp hload, hb, ih (i + 1) rest hrest⟩

theorem strspn_of_cstr {l : List UInt8} (h : CStr m i l) {accept : List UInt8} (hnul : NUL ∉ accept) :
    strspn m i accept = .ok (l.takeWhile fun b => accept.contains b).length := by
  rw [strspn, span_of_cstr h (by simpa using hnul), ok_bind]
  rfl

/-- The search finds the first byte of the string that is accepted. -/
theorem strpbrk_of_cstr {a l : List UInt8} {b : UInt8} (h : CStr m i (a ++ b :: l))
    {accept : List UInt8} (ha : ∀ c ∈ a, c ∉ accept) (hb : b ∈ accept) :
    strpbrk m i accept = .ok (some (i + a.length)) := by
  have hne : b ≠ NUL := h.no_nul b (by simp)
  have htake : (a ++ b :: l).takeWhile (fun c => c != NUL && !accept.contains c) = a := by
    rw [List.takeWhile_append_of_pos, List.takeWhile_cons]
    · simp [hb]
    · intro c hc
      have hc0 := h.no_nul c (List.mem_append_left _ hc)
      simp [hc0, ha c hc]
  rw [strpbrk, span_of_cstr h (by rfl), htake, ok_bind, load_eq_ok.mpr h.byte, ok_bind, if_neg hne]
  rfl

theorem strpbrk_none_of_cstr {l : List UInt8} (h : CStr m i l) {accept : List UInt8}
    (hl : ∀ c ∈ l, c ∉ accept) : strpbrk m i accept = .ok none := by
  have htake : l.takeWhile (fun c => c != NUL && !accept.contains c) = l := by
    rw [List.takeWhile_eq_self_iff]
    intro c hc
    simp [h.no_nul c hc, hl c hc]
  rw [strpbrk, span_of_cstr h (by rfl), htake, ok_bind, load_eq_ok.mpr h.nul, ok_bind, if_pos rfl]
  rfl

/-! ## Comparisons -/

theorem tolower_eq_nul {b : UInt8} (h : tolower b = tolower NUL) : b = NUL := by
  have htolower : tolower NUL = 0 := by decide
  rw [htolower, tolower] at h
  split at h
  · rename_i hletter
    have hnat := congrArg UInt8.toNat h
    have hlow : (65 : UInt8).toNat ≤ b.toNat := UInt8.le_iff_toNat_le.mp hletter.1
    have hhigh : b.toNat ≤ (90 : UInt8).toNat := UInt8.le_iff_toNat_le.mp hletter.2
    simp only [UInt8.toNat_add, UInt8.reduceToNat] at hnat hlow hhigh
    omega
  · exact h

theorem strcasecmp_of_cstr {l t : List UInt8} (h : CStr m i l) (ht : NUL ∉ t) :
    strcasecmp m i t = .ok (eqIgnoreCase l t) := by
  induction t generalizing i l with
  | nil =>
      cases l with
      | nil =>
          rw [strcasecmp, load_eq_ok.mpr h, ok_bind]
          rfl
      | cons b l =>
          have hb : (b == NUL) = false := by simpa using h.2.1
          rw [strcasecmp, load_eq_ok.mpr h.1, ok_bind, hb]
          rfl
  | cons c t ih =>
      rw [List.mem_cons, not_or] at ht
      cases l with
      | nil =>
          have hne : tolower NUL ≠ tolower c := fun heq => ht.1 (tolower_eq_nul heq.symm).symm
          rw [strcasecmp, load_eq_ok.mpr h, ok_bind, if_neg hne]
          rfl
      | cons b l =>
          rw [strcasecmp, load_eq_ok.mpr h.1, ok_bind]
          by_cases hbc : tolower b = tolower c
          · have heq : (tolower b == tolower c) = true := by simpa using hbc
            rw [if_pos hbc, ih h.2.2 ht.2, eqIgnoreCase, eqIgnoreCase, List.map_cons, List.map_cons,
              List.cons_beq_cons, heq, Bool.true_and]
          · have hne : (tolower b == tolower c) = false := by simpa using hbc
            rw [if_neg hbc, eqIgnoreCase, List.map_cons, List.map_cons, List.cons_beq_cons, hne]
            rfl

/-- Of `l` only as many bytes count as the literal has. -/
theorem strncasecmp_of_cstr {l t : List UInt8} (h : CStr m i l) (ht : NUL ∉ t) :
    strncasecmp m i t = .ok (eqIgnoreCase (l.take t.length) t) := by
  induction t generalizing i l with
  | nil => simp [strncasecmp, eqIgnoreCase, pure, Except.pure]
  | cons c t ih =>
      rw [List.mem_cons, not_or] at ht
      cases l with
      | nil =>
          have hne : tolower NUL ≠ tolower c := fun heq => ht.1 (tolower_eq_nul heq.symm).symm
          rw [strncasecmp, load_eq_ok.mpr h, ok_bind, if_neg hne]
          rfl
      | cons b l =>
          rw [strncasecmp, load_eq_ok.mpr h.1, ok_bind, List.length_cons, List.take_succ_cons,
            eqIgnoreCase, List.map_cons, List.map_cons, List.cons_beq_cons]
          by_cases hbc : tolower b = tolower c
          · rw [if_pos hbc, ih h.2.2 ht.2, eqIgnoreCase, beq_iff_eq.mpr hbc, Bool.true_and]
          · rw [if_neg hbc, beq_eq_false_iff_ne.mpr hbc]
            rfl

/-! ## Numbers -/

/-- The limits of `long`. -/
def toLong (v : Int) : Int := max LONG_MIN (min LONG_MAX v)

/-- The number at the start of a string without leading space. -/
def signedOf (l : List UInt8) : Int :=
  match l with
  | [] => 0
  | b :: rest =>
      if b = 45 then -(decimal (rest.takeWhile isdigit) : Int)
      else if b = 43 then decimal (rest.takeWhile isdigit)
      else decimal ((b :: rest).takeWhile isdigit)

/-- `atol` on a list. -/
def atolOf (l : List UInt8) : Int := toLong (signedOf (l.dropWhile isspace))

theorem atol_of_cstr {l : List UInt8} (h : CStr m i l) : atol m i = .ok (atolOf l) := by
  have hspace := span_of_cstr h (show isspace NUL = false by decide)
  have hrest : CStr m (i + (l.takeWhile isspace).length) (l.dropWhile isspace) := by
    apply CStr.append_right
    rw [List.takeWhile_append_dropWhile]
    exact h
  rw [atol, hspace, ok_bind, atolOf]
  -- from here on only the position behind the space and the string there matter
  generalize i + (l.takeWhile isspace).length = j at hrest ⊢
  generalize l.dropWhile isspace = rest at hrest ⊢
  cases rest with
  | nil =>
      have hnodigit := span_of_cstr hrest (show isdigit NUL = false by decide)
      simp only [load_eq_ok.mpr hrest, ok_bind]
      rw [if_neg (by decide), hnodigit]
      rfl
  | cons b rest =>
      simp only [load_eq_ok.mpr hrest.1, ok_bind, signedOf]
      by_cases hminus : b = 45
      · rw [if_pos (Or.inr hminus), span_of_cstr hrest.2.2 (by decide), if_pos hminus, ok_bind,
          if_pos hminus]
        rfl
      · by_cases hplus : b = 43
        · rw [if_pos (Or.inl hplus), span_of_cstr hrest.2.2 (by decide), if_neg hminus, ok_bind,
            if_neg hminus, if_pos hplus]
          rfl
        · rw [if_neg (by simp [hminus, hplus]), span_of_cstr hrest (by decide), if_neg hminus,
            ok_bind, if_neg hminus, if_neg hplus]
          rfl

end WebServer.Lib
