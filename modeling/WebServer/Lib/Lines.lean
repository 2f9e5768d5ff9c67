/-
  WebServer.Lib.Lines

  A byte stream and its lines, each ended by CR and LF.

  `crlfLines` are the lines of a stream, up to the first CR or LF that stands
  alone; what comes behind the last line end is not one of them yet.  A stream
  that is put together from lines is taken apart into the same lines
  (`crlfLines_joined`), so an implementation that takes them one by one has
  lost none and invented none.

  `slice m i j` are the bytes of a buffer from `i` up to `j`.
-/

import WebServer.Lib.CString

namespace WebServer.Lib

/-! ## Lines -/

def isBreak (b : UInt8) : Bool := b == CR || b == LF

theorem isBreak_iff {b : UInt8} : isBreak b = true ↔ b = CR ∨ b = LF := by
  rw [isBreak, Bool.or_eq_true, beq_iff_eq, beq_iff_eq]

/-- The lines of a stream of which `text` has been seen since the last line
    end. -/
def linesFrom : List UInt8 → List UInt8 → List (List UInt8)
  | _, [] => []
  | _, [_] => []
  | text, b :: c :: rest =>
      if b = CR then
        if c = LF then text :: linesFrom [] rest else []
      else if b = LF then
        []
      else
        linesFrom (text ++ [b]) (c :: rest)

def crlfLines (stream : List UInt8) : List (List UInt8) := linesFrom [] stream

theorem linesFrom_line (text rest : List UInt8) {line : List UInt8}
    (h : ∀ b ∈ line, isBreak b = false) :
    linesFrom text (line ++ CR :: LF :: rest) = (text ++ line) :: linesFrom [] rest := by
  induction line generalizing text with
  | nil => rw [List.nil_append, linesFrom, if_pos rfl, if_pos rfl, List.append_nil]
  | cons b line ih =>
      have hb : ¬ (b = CR ∨ b = LF) := by
        rw [← isBreak_iff, h b List.mem_cons_self]
        exact Bool.false_ne_true
      rw [not_or] at hb
      have hline := ih (text ++ [b]) (fun c hc => h c (List.mem_cons_of_mem _ hc))
      rw [List.append_assoc, List.singleton_append] at hline
      cases line with
      | nil =>
          rw [List.cons_append, List.nil_append, linesFrom, if_neg hb.1, if_neg hb.2]
          exact hline
      | cons c line =>
          rw [List.cons_append, List.cons_append, linesFrom, if_neg hb.1, if_neg hb.2]
          exact hline

/-- The lines of a stream that was put together from lines. -/
theorem crlfLines_joined {lines : List (List UInt8)} (rest : List UInt8)
    (h : ∀ line ∈ lines, ∀ b ∈ line, isBreak b = false) :
    crlfLines (lines.flatMap (fun line => line ++ [CR, LF]) ++ rest) = lines ++ crlfLines rest := by
  induction lines with
  | nil => rfl
  | cons line lines ih =>
      have hrest := ih (fun l hl => h l (List.mem_cons_of_mem _ hl))
      have hline := linesFrom_line [] (lines.flatMap (fun line => line ++ [CR, LF]) ++ rest)
        (h line List.mem_cons_self)
      rw [List.flatMap_cons, List.append_assoc, List.append_assoc, crlfLines]
      rw [crlfLines] at hrest
      rw [hrest] at hline
      exact hline

/-- Nothing ends in a stream whose only break is a CR at its end. -/
theorem linesFrom_eq_nil {text stream : List UInt8}
    (h : ∀ (k : Nat) (b : UInt8), stream[k]? = some b → isBreak b = true → k + 1 = stream.length) :
    linesFrom text stream = [] := by
  induction stream generalizing text with
  | nil => rfl
  | cons b stream ih =>
      cases stream with
      | nil => rfl
      | cons c rest =>
          have hb : ¬ (b = CR ∨ b = LF) := by
            intro hbreak
            have hlast := h 0 b rfl (isBreak_iff.mpr hbreak)
            simp at hlast
          rw [not_or] at hb
          rw [linesFrom, if_neg hb.1, if_neg hb.2]
          refine ih (fun k d hd hbreak => ?_)
          have hlast := h (k + 1) d hd hbreak
          rw [List.length_cons] at hlast
          omega

theorem crlfLines_of_lone_cr {b : UInt8} (rest : List UInt8) (h : b ≠ LF) :
    crlfLines (CR :: b :: rest) = [] := by
  rw [crlfLines, linesFrom, if_pos rfl, if_neg h]

theorem crlfLines_of_lone_lf (rest : List UInt8) : crlfLines (LF :: rest) = [] := by
  cases rest with
  | nil => rfl
  | cons c rest => rw [crlfLines, linesFrom, if_neg (by decide), if_pos rfl]

/-! ## Slices -/

section Slices

variable {n : Nat} {m m' : Vector UInt8 n} {i j : Nat}

def slice (m : Vector UInt8 n) (i j : Nat) : List UInt8 := (m.toList.drop i).take (j - i)

theorem slice_getElem? (m : Vector UInt8 n) (i j k : Nat) :
    (slice m i j)[k]? = if i + k < j then m[i + k]? else none := by
  rw [slice, List.getElem?_take, List.getElem?_drop, Vector.getElem?_toList]
  by_cases hk : i + k < j
  · rw [if_pos hk, if_pos (by omega)]
  · rw [if_neg hk, if_neg (by omega)]

theorem length_slice (hj : j ≤ n) : (slice m i j).length = j - i := by
  rw [slice, List.length_take, List.length_drop, Vector.length_toList]
  omega

theorem slice_cons {b : UInt8} (hij : i < j) (hb : m[i]? = some b) :
    slice m i j = b :: slice m (i + 1) j := by
  refine List.ext_getElem? (fun k => ?_)
  cases k with
  | zero => rw [slice_getElem?, Nat.add_zero, if_pos hij, hb, List.getElem?_cons_zero]
  | succ k =>
      rw [slice_getElem?, List.getElem?_cons_succ, slice_getElem?, Nat.add_assoc, Nat.add_comm 1]

theorem slice_append {k : Nat} (hij : i ≤ j) (hjk : j ≤ k) (hk : k ≤ n) :
    slice m i j ++ slice m j k = slice m i k := by
  refine List.ext_getElem? (fun l => ?_)
  rw [List.getElem?_append, length_slice (by omega), slice_getElem?, slice_getElem?, slice_getElem?]
  by_cases hl : l < j - i
  · rw [if_pos hl, if_pos (by omega), if_pos (by omega)]
  · rw [if_neg hl, show j + (l - (j - i)) = i + l by omega]

/-- Only the bytes between `i` and `j` matter. -/
theorem slice_congr (h : ∀ k, i ≤ k → k < j → m'[k]? = m[k]?) : slice m' i j = slice m i j := by
  refine List.ext_getElem? (fun k => ?_)
  rw [slice_getElem?, slice_getElem?]
  by_cases hk : i + k < j
  · rw [if_pos hk, if_pos hk, h (i + k) (by omega) hk]
  · rw [if_neg hk, if_neg hk]

/-- A block write extends the slice that ends where it begins. -/
theorem slice_storeAll {bs : List UInt8} (hij : i ≤ j) (hj : j + bs.length ≤ n)
    (h : storeAll m j bs = .ok m') : slice m' i (j + bs.length) = slice m i j ++ bs := by
  refine List.ext_getElem? (fun k => ?_)
  rw [slice_getElem?, storeAll_getElem? h, List.getElem?_append, length_slice (by omega),
    slice_getElem?]
  by_cases hk : k < j - i
  · rw [if_pos (by omega), if_neg (by omega), if_pos hk, if_pos (by omega)]
  · rw [if_neg hk]
    by_cases hk' : i + k < j + bs.length
    · rw [if_pos hk', if_pos (by omega)]
      congr 1
      omega
    · rw [if_neg hk', List.getElem?_eq_none (by omega)]

end Slices

end WebServer.Lib
