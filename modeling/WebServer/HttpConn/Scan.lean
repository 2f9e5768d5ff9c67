/-
  WebServer.HttpConn.Scan

  Everything `parse_line` can do, on any slot.

  The body of its loop runs at most once.  It looks at the byte at
  `m_checked_index`, and at one neighbour when that byte is a CR or an LF:
  `Scan` has one constructor for every way through it, and `parseLine_scan` is
  the inversion.  A line is found exactly if nothing is left to look at or one
  ends right there (`Scan.lineOk_iff`); whatever else, the slot stays as it is.
-/

import WebServer.HttpConn.Parse
import WebServer.Lib.CStr
import WebServer.Lib.Lines

namespace WebServer

open WebServer.Lib

namespace HttpConn

/-- CR and LF at `p` and `p + 1` have become NULs, and `m_checked_index` is
    behind them. -/
structure Erased (s : HttpConn) (p : Nat) (s' : HttpConn) : Prop where
  conn : s' = { s with mReadBuf := s'.mReadBuf, mCheckedIndex := p + 2 }
  bytes : ∀ j : Nat, s'.mReadBuf[j]? =
    if j = p ∨ j = p + 1 then some NUL else s.mReadBuf[j]?

theorem Erased.nulsOnly {s s' : HttpConn} {p : Nat} (h : Erased s p s') :
    NulsOnly s.mReadBuf s'.mReadBuf := by
  intro j
  rw [h.bytes j]
  by_cases hj : j = p ∨ j = p + 1
  · rw [if_pos hj]
    exact Or.inr rfl
  · rw [if_neg hj]
    exact Or.inl rfl

/-- Everything `parse_line` can do. -/
inductive Scan (s : HttpConn) : LineStatus → HttpConn → Prop where
  | exhausted (h : s.mReadIdx ≤ s.mCheckedIndex) : Scan s .lineOk s
  | crlf (hlt : s.mCheckedIndex + 1 < s.mReadIdx) (hcr : s.mReadBuf[s.mCheckedIndex]? = some CR)
      (hlf : s.mReadBuf[s.mCheckedIndex + 1]? = some LF) (s' : HttpConn)
      (h : Erased s s.mCheckedIndex s') : Scan s .lineOk s'
  | lateLf (hlt : s.mCheckedIndex < s.mReadIdx) (hlf : s.mReadBuf[s.mCheckedIndex]? = some LF)
      (hone : 1 < s.mCheckedIndex) (hcr : s.mReadBuf[s.mCheckedIndex - 1]? = some CR)
      (s' : HttpConn) (h : Erased s (s.mCheckedIndex - 1) s') : Scan s .lineOk s'
  | lastCr (h : s.mCheckedIndex + 1 = s.mReadIdx)
      (hcr : s.mReadBuf[s.mCheckedIndex]? = some CR) : Scan s .lineOpen s
  | text (hlt : s.mCheckedIndex < s.mReadIdx) (b : UInt8)
      (hb : s.mReadBuf[s.mCheckedIndex]? = some b) (hbreak : isBreak b = false) : Scan s .lineOpen s
  | loneCr (hlt : s.mCheckedIndex + 1 < s.mReadIdx) (hcr : s.mReadBuf[s.mCheckedIndex]? = some CR)
      (b : UInt8) (hb : s.mReadBuf[s.mCheckedIndex + 1]? = some b) (hne : b ≠ LF) :
      Scan s .lineBad s
  | loneLf (hlt : s.mCheckedIndex < s.mReadIdx) (hlf : s.mReadBuf[s.mCheckedIndex]? = some LF)
      (hno : ¬ (1 < s.mCheckedIndex ∧ s.mReadBuf[s.mCheckedIndex - 1]? = some CR)) :
      Scan s .lineBad s

section Scan

variable {s : HttpConn}

/-- The two NULs of a line end. -/
theorem erased_set {p : Nat} (hp : p + 1 < READ_BUFFER_SIZE) :
    Erased s p { s with
      mReadBuf := (s.mReadBuf.set p NUL).set (p + 1) NUL
      mCheckedIndex := p + 2 } where
  conn := rfl
  bytes := by
    intro j
    show ((s.mReadBuf.set p NUL).set (p + 1) NUL)[j]? = _
    rw [Vector.getElem?_set, Vector.getElem?_set]
    by_cases hj : p + 1 = j
    · rw [if_pos hj, if_pos (Or.inr hj.symm)]
    · rw [if_neg hj]
      by_cases hj' : p = j
      · rw [if_pos hj', if_pos (Or.inl hj'.symm)]
      · rw [if_neg hj', if_neg (by omega)]

theorem exists_byte (hread : s.mReadIdx ≤ READ_BUFFER_SIZE) {i : Nat} (hi : i < s.mReadIdx) :
    ∃ b, s.mReadBuf[i]? = some b :=
  ⟨_, Vector.getElem?_eq_getElem (by omega)⟩

/-- At a CR, the byte behind it decides. -/
theorem parseLine_of_cr (hread : s.mReadIdx ≤ READ_BUFFER_SIZE)
    (hlt : s.mCheckedIndex < s.mReadIdx) (hcr : s.mReadBuf[s.mCheckedIndex]? = some CR) :
    ∃ status s', parseLine s = .ok (status, s') ∧ Scan s status s' := by
  rw [parseLine, if_pos hlt, load_eq_ok.mpr hcr, ok_bind, if_pos rfl]
  by_cases hlast : s.mCheckedIndex + 1 = s.mReadIdx
  · rw [if_pos hlast]
    exact ⟨_, _, rfl, .lastCr hlast hcr⟩
  · obtain ⟨c, hc⟩ := exists_byte hread (i := s.mCheckedIndex + 1) (by omega)
    rw [if_neg hlast, load_eq_ok.mpr hc, ok_bind]
    by_cases hlf : c = LF
    · subst hlf
      have hp : s.mCheckedIndex + 1 < READ_BUFFER_SIZE := by omega
      rw [if_pos rfl, store_of_lt (by omega), ok_bind, store_of_lt hp, ok_bind]
      exact ⟨_, _, rfl, .crlf (by omega) hcr hc _ (erased_set hp)⟩
    · rw [if_neg hlf]
      exact ⟨_, _, rfl, .loneCr (by omega) hcr c hc hlf⟩

/-- At an LF, the byte before it. -/
theorem parseLine_of_lf (hread : s.mReadIdx ≤ READ_BUFFER_SIZE)
    (hlt : s.mCheckedIndex < s.mReadIdx) (hlf : s.mReadBuf[s.mCheckedIndex]? = some LF) :
    ∃ status s', parseLine s = .ok (status, s') ∧ Scan s status s' := by
  rw [parseLine, if_pos hlt, load_eq_ok.mpr hlf, ok_bind, if_neg (by decide), if_pos rfl]
  by_cases hone : s.mCheckedIndex > 1
  · obtain ⟨c, hc⟩ := exists_byte hread (i := s.mCheckedIndex - 1) (by omega)
    rw [if_pos hone, load_eq_ok.mpr hc, ok_bind]
    by_cases hbefore : c = CR
    · subst hbefore
      -- the CR stands one byte before `m_checked_index`
      have herased := erased_set (s := s) (p := s.mCheckedIndex - 1) (by omega)
      simp only [show s.mCheckedIndex - 1 + 1 = s.mCheckedIndex by omega,
        show s.mCheckedIndex - 1 + 2 = s.mCheckedIndex + 1 by omega] at herased
      rw [if_pos rfl, store_of_lt (by omega), ok_bind, store_of_lt (by omega), ok_bind]
      exact ⟨_, _, rfl, .lateLf hlt hlf hone hc _ herased⟩
    · rw [if_neg hbefore]
      refine ⟨_, _, rfl, .loneLf hlt hlf ?_⟩
      rintro ⟨-, hcr⟩
      exact hbefore (Option.some.inj (hc.symm.trans hcr))
  · rw [if_neg hone]
    exact ⟨_, _, rfl, .loneLf hlt hlf (fun h => hone h.1)⟩

/-- **Inversion.**  `parse_line` does one of these things, and does not fault. -/
theorem parseLine_scan (hread : s.mReadIdx ≤ READ_BUFFER_SIZE) :
    ∃ status s', parseLine s = .ok (status, s') ∧ Scan s status s' := by
  by_cases hlt : s.mCheckedIndex < s.mReadIdx
  · obtain ⟨b, hb⟩ := exists_byte hread hlt
    by_cases hcr : b = CR
    · exact parseLine_of_cr hread hlt (hcr ▸ hb)
    · by_cases hlf : b = LF
      · exact parseLine_of_lf hread hlt (hlf ▸ hb)
      · rw [parseLine, if_pos hlt, load_eq_ok.mpr hb, ok_bind, if_neg hcr, if_neg hlf]
        refine ⟨_, _, rfl, .text hlt b hb ?_⟩
        rw [isBreak, beq_eq_false_iff_ne.mpr hcr, beq_eq_false_iff_ne.mpr hlf]
        rfl
  · rw [parseLine, if_neg hlt]
    exact ⟨_, _, rfl, .exhausted (by omega)⟩

theorem scan_of_parseLine {status : LineStatus} {s' : HttpConn}
    (hread : s.mReadIdx ≤ READ_BUFFER_SIZE) (h : parseLine s = .ok (status, s')) :
    Scan s status s' := by
  obtain ⟨status', t, hparse, hscan⟩ := parseLine_scan hread
  rw [h] at hparse
  cases hparse
  exact hscan

end Scan

/-! ## Line ends -/

/-- A line ends at `m_checked_index`: CR and LF, or LF behind a CR. -/
def LineEnds (s : HttpConn) : Prop :=
  (s.mReadBuf[s.mCheckedIndex]? = some CR ∧ s.mCheckedIndex + 1 < s.mReadIdx ∧
      s.mReadBuf[s.mCheckedIndex + 1]? = some LF) ∨
    (s.mReadBuf[s.mCheckedIndex]? = some LF ∧ 1 < s.mCheckedIndex ∧
      s.mCheckedIndex < s.mReadIdx ∧ s.mReadBuf[s.mCheckedIndex - 1]? = some CR)

instance (s : HttpConn) : Decidable (LineEnds s) := inferInstanceAs (Decidable (_ ∨ _))

/-- `parse_line` has taken the line end at `p`, which is at `m_checked_index` or
    one byte before it. -/
structure LineTaken (s : HttpConn) (p : Nat) (s' : HttpConn) : Prop where
  place : p = s.mCheckedIndex ∨ (0 < p ∧ p + 1 = s.mCheckedIndex)
  inside : p + 2 ≤ s.mReadIdx
  cr : s.mReadBuf[p]? = some CR
  lf : s.mReadBuf[p + 1]? = some LF
  erased : Erased s p s'

section LineEnds

variable {s s' : HttpConn} {status : LineStatus} {p : Nat}

theorem LineTaken.checked (h : LineTaken s p s') : s'.mCheckedIndex = p + 2 := by
  rw [h.erased.conn]

theorem LineTaken.conn (h : LineTaken s p s') :
    s' = { s with mReadBuf := s'.mReadBuf, mCheckedIndex := s'.mCheckedIndex } := by
  rw [h.checked]
  exact h.erased.conn

theorem LineTaken.at_le (h : LineTaken s p s') : p ≤ s.mCheckedIndex := by
  have hplace := h.place
  omega

theorem LineTaken.lt (h : LineTaken s p s') : s.mCheckedIndex < s'.mCheckedIndex := by
  have hplace := h.place
  rw [h.checked]
  omega

theorem LineTaken.le (h : LineTaken s p s') : s'.mCheckedIndex ≤ s.mReadIdx := by
  rw [h.checked]
  exact h.inside

/-- What is taken is CR and LF. -/
theorem LineTaken.isBreak (h : LineTaken s p s') {i : Nat} {b : UInt8} (hlow : s.mCheckedIndex ≤ i)
    (hhigh : i < s'.mCheckedIndex) (hb : s.mReadBuf[i]? = some b) : isBreak b = true := by
  have hle := h.at_le
  rw [h.checked] at hhigh
  obtain rfl | rfl : i = p ∨ i = p + 1 := by omega
  · rw [h.cr] at hb
    exact isBreak_iff.mpr (Or.inl (Option.some.inj hb).symm)
  · rw [h.lf] at hb
    exact isBreak_iff.mpr (Or.inr (Option.some.inj hb).symm)

theorem LineEnds.checked_lt (h : LineEnds s) : s.mCheckedIndex < s.mReadIdx := by
  rcases h with ⟨-, hlt, -⟩ | ⟨-, -, hlt, -⟩
  · omega
  · exact hlt

/-- The same with the place of the CR. -/
theorem lineEnds_of_place (hplace : p = s.mCheckedIndex ∨ (0 < p ∧ p + 1 = s.mCheckedIndex))
    (hinside : p + 2 ≤ s.mReadIdx) (hcr : s.mReadBuf[p]? = some CR)
    (hlf : s.mReadBuf[p + 1]? = some LF) : LineEnds s := by
  rcases hplace with rfl | ⟨hpos, hp⟩
  · exact Or.inl ⟨hcr, by omega, hlf⟩
  · rw [hp] at hlf
    rw [show p = s.mCheckedIndex - 1 by omega] at hcr
    exact Or.inr ⟨hlf, by omega, by omega, hcr⟩

/-- There is one line end to take. -/
theorem LineTaken.place_unique {q : Nat} (h : LineTaken s p s')
    (hplace : q = s.mCheckedIndex ∨ (0 < q ∧ q + 1 = s.mCheckedIndex))
    (hcr : s.mReadBuf[q]? = some CR) (hlf : s.mReadBuf[q + 1]? = some LF) : q = p := by
  rcases h.place with hp | ⟨-, hp⟩
  · rcases hplace with hq | ⟨-, hq⟩
    · omega
    · rw [hq, ← hp, h.cr] at hlf
      cases hlf
  · rcases hplace with hq | ⟨-, hq⟩
    · rw [hq, ← hp, h.lf] at hcr
      cases hcr
    · omega

/-- The byte at `m_checked_index` is a CR or an LF. -/
theorem LineEnds.isBreak {b : UInt8} (h : LineEnds s) (hb : s.mReadBuf[s.mCheckedIndex]? = some b) :
    isBreak b = true := by
  rcases h with ⟨hcr, -⟩ | ⟨hlf, -⟩
  · exact isBreak_iff.mpr (Or.inl (Option.some.inj (hb.symm.trans hcr)))
  · exact isBreak_iff.mpr (Or.inr (Option.some.inj (hb.symm.trans hlf)))

theorem not_cr_and_lf {i : Nat} (hcr : s.mReadBuf[i]? = some CR) (hlf : s.mReadBuf[i]? = some LF) :
    False := by
  rw [hcr] at hlf
  cases hlf

/-- LINE_OK: nothing was left to look at, or a line ends here. -/
theorem Scan.lineOk_iff (h : Scan s status s') :
    status = .lineOk ↔ s.mReadIdx ≤ s.mCheckedIndex ∨ LineEnds s := by
  cases h with
  | exhausted hle => exact ⟨fun _ => Or.inl hle, fun _ => rfl⟩
  | crlf hlt hcr hlf => exact ⟨fun _ => Or.inr (Or.inl ⟨hcr, hlt, hlf⟩), fun _ => rfl⟩
  | lateLf hlt hlf hone hcr =>
      exact ⟨fun _ => Or.inr (Or.inr ⟨hlf, hone, hlt, hcr⟩), fun _ => rfl⟩
  | lastCr hlast hcr =>
      refine ⟨nofun, ?_⟩
      rintro (hle | ⟨-, hlt, -⟩ | ⟨hlf, -⟩)
      · omega
      · omega
      · exact (not_cr_and_lf hcr hlf).elim
  | text hlt b hb hbreak =>
      refine ⟨nofun, ?_⟩
      rintro (hle | hends)
      · omega
      · rw [hends.isBreak hb] at hbreak
        cases hbreak
  | loneCr hlt hcr b hb hne =>
      refine ⟨nofun, ?_⟩
      rintro (hle | ⟨-, -, hlf⟩ | ⟨hlf, -⟩)
      · omega
      · exact absurd (Option.some.inj (hb.symm.trans hlf)) hne
      · exact (not_cr_and_lf hcr hlf).elim
  | loneLf hlt hlf hno =>
      refine ⟨nofun, ?_⟩
      rintro (hle | ⟨hcr, -⟩ | ⟨-, hone, -, hcr⟩)
      · omega
      · exact (not_cr_and_lf hcr hlf).elim
      · exact absurd ⟨hone, hcr⟩ hno

/-- What LINE_OK leaves: the slot as it was, or a line end taken. -/
theorem Scan.of_lineOk (h : Scan s .lineOk s') :
    (s.mReadIdx ≤ s.mCheckedIndex ∧ s' = s) ∨ ∃ p, LineTaken s p s' := by
  cases h with
  | exhausted hle => exact Or.inl ⟨hle, rfl⟩
  | crlf hlt hcr hlf _ herased =>
      exact Or.inr ⟨_, Or.inl rfl, hlt, hcr, hlf, herased⟩
  | lateLf hlt hlf hone hcr _ herased =>
      refine Or.inr ⟨_, Or.inr ⟨by omega, by omega⟩, by omega, hcr, ?_, herased⟩
      rw [show s.mCheckedIndex - 1 + 1 = s.mCheckedIndex by omega]
      exact hlf

/-- Without LINE_OK nothing changes. -/
theorem Scan.eq_of_ne (h : Scan s status s') (hstatus : status ≠ .lineOk) : s' = s := by
  cases h with
  | exhausted => exact absurd rfl hstatus
  | crlf => exact absurd rfl hstatus
  | lateLf => exact absurd rfl hstatus
  | lastCr => rfl
  | text => rfl
  | loneCr => rfl
  | loneLf => rfl

/-- Nothing is left to look at. -/
theorem parseLine_exhausted (h : s.mReadIdx ≤ s.mCheckedIndex) :
    parseLine s = .ok (.lineOk, s) := by
  rw [parseLine, if_neg (by omega)]
  rfl

theorem parseLine_ends (hread : s.mReadIdx ≤ READ_BUFFER_SIZE) (h : LineEnds s) :
    ∃ p s', parseLine s = .ok (.lineOk, s') ∧ LineTaken s p s' := by
  obtain ⟨status, s', hparse, hscan⟩ := parseLine_scan hread
  obtain rfl : status = .lineOk := hscan.lineOk_iff.mpr (Or.inr h)
  rcases hscan.of_lineOk with ⟨hle, -⟩ | ⟨p, htaken⟩
  · exact absurd h.checked_lt (Nat.not_lt.mpr hle)
  · exact ⟨p, s', hparse, htaken⟩

theorem parseLine_open (hread : s.mReadIdx ≤ READ_BUFFER_SIZE)
    (hlt : s.mCheckedIndex < s.mReadIdx) (h : ¬ LineEnds s) :
    ∃ status, status ≠ .lineOk ∧ parseLine s = .ok (status, s) := by
  obtain ⟨status, s', hparse, hscan⟩ := parseLine_scan hread
  have hstatus : status ≠ .lineOk := by
    rw [Ne, hscan.lineOk_iff, not_or]
    exact ⟨Nat.not_le.mpr hlt, h⟩
  obtain rfl := hscan.eq_of_ne hstatus
  exact ⟨status, hstatus, hparse⟩

end LineEnds

end HttpConn

end WebServer
