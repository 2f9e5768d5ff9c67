/-
  WebServer.HttpConn.Scanner

  `parse_line` against the specification of a line scanner.

  The scanner should find the first CR or LF at or behind `m_checked_index`:
  LINE_OK for CR and LF, LINE_OPEN while they may still come, LINE_BAD for a CR
  or an LF alone (`Specified`).  The source looks at one byte only.  Its
  `return LINE_OPEN` stands inside the loop, so a line is found only if it is
  empty, and its `return LINE_OK` behind the loop, so an exhausted buffer is a
  line; and an LF is accepted for the CR before it, scanned long ago.
  `line_scanner_iff` says for which slots none of this matters, and that the
  scanner takes exactly the lines of a growing stream as long as it only meets
  such slots.
-/

import WebServer.HttpConn.Session
import WebServer.Lib.Exec

namespace WebServer

open WebServer.Lib

namespace HttpConn

/-! ## What it should do -/

/-- CR or LF stands at `j`. -/
def BreakAt (s : HttpConn) (j : Nat) : Prop :=
  s.mReadBuf[j]? = some CR ∨ s.mReadBuf[j]? = some LF

instance (s : HttpConn) (j : Nat) : Decidable (BreakAt s j) := inferInstanceAs (Decidable (_ ∨ _))

/-- `p` is the first position in `[m_checked_index, m_read_idx)` with a CR or an
    LF. -/
def FirstBreak (s : HttpConn) (p : Nat) : Prop :=
  s.mCheckedIndex ≤ p ∧ p < s.mReadIdx ∧ BreakAt s p ∧
    ∀ j < p, s.mCheckedIndex ≤ j → ¬ BreakAt s j

instance (s : HttpConn) (p : Nat) : Decidable (FirstBreak s p) :=
  inferInstanceAs (Decidable (_ ∧ _ ∧ _ ∧ ∀ j < p, _ → _))

/-- A line ends with CR and LF at `p`. -/
def EndsAt (s : HttpConn) (p : Nat) : Prop :=
  FirstBreak s p ∧ s.mReadBuf[p]? = some CR ∧ p + 1 < s.mReadIdx ∧ s.mReadBuf[p + 1]? = some LF

instance (s : HttpConn) (p : Nat) : Decidable (EndsAt s p) :=
  inferInstanceAs (Decidable (_ ∧ _ ∧ _ ∧ _))

/-- The line end may still come: no CR and no LF yet, or a CR as the last
    byte. -/
def Unfinished (s : HttpConn) : Prop :=
  (∀ p, ¬ FirstBreak s p) ∨
    ∃ p, FirstBreak s p ∧ p + 1 = s.mReadIdx ∧ s.mReadBuf[p]? = some CR

/-- More bytes have come behind those of `s`. -/
structure Extends (s t : HttpConn) : Prop where
  le : s.mReadIdx ≤ t.mReadIdx
  fits : t.mReadIdx ≤ READ_BUFFER_SIZE
  bytes : ∀ j < s.mReadIdx, t.mReadBuf[j]? = s.mReadBuf[j]?

/-- What a call of `parse_line` answers: the status and the bytes it leaves. -/
def answer (s : HttpConn) : Except Fault (LineStatus × Vector UInt8 READ_BUFFER_SIZE) :=
  (parseLine s).map fun r => (r.1, r.2.mReadBuf)

/-- The specification of the line scanner. -/
structure Specified (s : HttpConn) (status : LineStatus) (s' : HttpConn) : Prop where
  lineOk : status = .lineOk ↔ ∃ p, EndsAt s p
  lineOpen : status = .lineOpen ↔ Unfinished s
  lineBad : status = .lineBad ↔ (¬ ∃ p, EndsAt s p) ∧ ¬ Unfinished s
  erased : ∀ p, EndsAt s p → Erased s p s'
  unchanged : Unfinished s → s' = { s with mCheckedIndex := s'.mCheckedIndex }
  /-- From where the scanner stops it goes on as if it had not stopped. -/
  resumes : Unfinished s → ∀ t, Extends s t →
    answer { t with mCheckedIndex := s'.mCheckedIndex }
      = answer { t with mCheckedIndex := s.mCheckedIndex }

/-- The slots on which the scanner keeps to it: there is a byte to look at, and
    it is a CR, or an LF without a CR before it, or neither, and the only CR or
    LF behind it is a CR as the last byte. -/
def ScansRight (s : HttpConn) : Prop :=
  s.mCheckedIndex < s.mReadIdx ∧
    (s.mReadBuf[s.mCheckedIndex]? = some CR ∨
      (s.mReadBuf[s.mCheckedIndex]? = some LF ∧
        ¬ (1 < s.mCheckedIndex ∧ s.mReadBuf[s.mCheckedIndex - 1]? = some CR)) ∨
      ∀ j < s.mReadIdx, s.mCheckedIndex ≤ j → BreakAt s j →
        s.mReadBuf[j]? = some CR ∧ j + 1 = s.mReadIdx)

instance (s : HttpConn) : Decidable (ScansRight s) :=
  inferInstanceAs (Decidable (_ ∧ (_ ∨ (_ ∧ _) ∨ ∀ j < s.mReadIdx, _ → _ → _)))

section Specification

variable {s s' : HttpConn} {status : LineStatus} {p q : Nat}

theorem FirstBreak.unique (hp : FirstBreak s p) (hq : FirstBreak s q) : p = q := by
  obtain ⟨hlow, -, hbreak, hfirst⟩ := hp
  obtain ⟨hlow', -, hbreak', hfirst'⟩ := hq
  rcases Nat.lt_trichotomy p q with hlt | heq | hgt
  · exact absurd hbreak (hfirst' p hlt hlow)
  · exact heq
  · exact absurd hbreak' (hfirst q hgt hlow')

theorem firstBreak_checked (hlt : s.mCheckedIndex < s.mReadIdx) (h : BreakAt s s.mCheckedIndex) :
    FirstBreak s s.mCheckedIndex :=
  ⟨Nat.le_refl _, hlt, h, fun j hj hle => absurd hj (by omega)⟩

/-- Where there is a break there is a first one. -/
theorem exists_firstBreak {j : Nat} (hle : s.mCheckedIndex ≤ j) (hlt : j < s.mReadIdx)
    (h : BreakAt s j) : ∃ p ≤ j, FirstBreak s p := by
  induction j using Nat.strongRecOn with
  | ind j ih =>
      by_cases hearlier : ∃ k < j, s.mCheckedIndex ≤ k ∧ BreakAt s k
      · obtain ⟨k, hkj, hlek, hk⟩ := hearlier
        obtain ⟨p, hp, hfirst⟩ := ih k hkj hlek (by omega) hk
        exact ⟨p, by omega, hfirst⟩
      · refine ⟨j, Nat.le_refl j, hle, hlt, h, fun k hkj hlek hk => ?_⟩
        exact hearlier ⟨k, hkj, hlek, hk⟩

theorem not_endsAt_of_unfinished (h : Unfinished s) : ¬ ∃ p, EndsAt s p := by
  rintro ⟨p, hfirst, -, hlt, -⟩
  rcases h with hno | ⟨q, hfirst', hlast, -⟩
  · exact hno p hfirst
  · rw [hfirst.unique hfirst'] at hlt
    omega

theorem unfinished_iff :
    Unfinished s ↔ ∀ j < s.mReadIdx, s.mCheckedIndex ≤ j → BreakAt s j →
      s.mReadBuf[j]? = some CR ∧ j + 1 = s.mReadIdx := by
  refine ⟨fun h j hlt hle hbreak => ?_, fun h => ?_⟩
  · obtain ⟨p, hpj, hfirst⟩ := exists_firstBreak hle hlt hbreak
    rcases h with hno | ⟨q, hfirst', hlast, hcr⟩
    · exact absurd hfirst (hno p)
    · have hpq := hfirst.unique hfirst'
      obtain rfl : j = q := by omega
      exact ⟨hcr, hlast⟩
  · by_cases hany : ∃ p, FirstBreak s p
    · obtain ⟨p, hfirst⟩ := hany
      obtain ⟨hcr, hlast⟩ := h p hfirst.2.1 hfirst.1 hfirst.2.2.1
      exact Or.inr ⟨p, hfirst, hlast, hcr⟩
    · exact Or.inl (fun p hfirst => hany ⟨p, hfirst⟩)

/-! ### Meeting the specification -/

theorem specified_ok (hends : EndsAt s p) (herased : Erased s p s') : Specified s .lineOk s' := by
  have hsome : ∃ p, EndsAt s p := ⟨p, hends⟩
  have hclosed : ¬ Unfinished s := fun h => not_endsAt_of_unfinished h hsome
  exact
    { lineOk := ⟨fun _ => hsome, fun _ => rfl⟩
      lineOpen := ⟨nofun, fun h => absurd h hclosed⟩
      lineBad := ⟨nofun, fun h => absurd hsome h.1⟩
      erased := fun q hq => hends.1.unique hq.1 ▸ herased
      unchanged := fun h => absurd h hclosed
      resumes := fun h => absurd h hclosed }

theorem specified_open (h : Unfinished s) : Specified s .lineOpen s := by
  have hnone := not_endsAt_of_unfinished h
  exact
    { lineOk := ⟨nofun, fun hsome => absurd hsome hnone⟩
      lineOpen := ⟨fun _ => h, fun _ => rfl⟩
      lineBad := ⟨nofun, fun hbad => absurd h hbad.2⟩
      erased := fun p hp => absurd ⟨p, hp⟩ hnone
      unchanged := fun _ => rfl
      resumes := fun _ _ _ => rfl }

theorem specified_bad (hnone : ¬ ∃ p, EndsAt s p) (hclosed : ¬ Unfinished s) :
    Specified s .lineBad s' where
  lineOk := ⟨nofun, fun hsome => absurd hsome hnone⟩
  lineOpen := ⟨nofun, fun h => absurd h hclosed⟩
  lineBad := ⟨fun _ => ⟨hnone, hclosed⟩, fun _ => rfl⟩
  erased := fun p hp => absurd ⟨p, hp⟩ hnone
  unchanged := fun h => absurd h hclosed
  resumes := fun h => absurd h hclosed

/-- On a break that is not a line end, and not the last byte. -/
theorem specified_bad_of_break (hlt : s.mCheckedIndex < s.mReadIdx)
    (hbreak : BreakAt s s.mCheckedIndex)
    (hno : ¬ (s.mReadBuf[s.mCheckedIndex]? = some CR ∧ s.mCheckedIndex + 1 < s.mReadIdx ∧
      s.mReadBuf[s.mCheckedIndex + 1]? = some LF))
    (hlast : ¬ (s.mReadBuf[s.mCheckedIndex]? = some CR ∧ s.mCheckedIndex + 1 = s.mReadIdx)) :
    Specified s .lineBad s' := by
  have hfirst := firstBreak_checked hlt hbreak
  refine specified_bad ?_ ?_
  · rintro ⟨p, hfirst', hcr, hlt', hlf⟩
    obtain rfl := hfirst.unique hfirst'
    exact hno ⟨hcr, hlt', hlf⟩
  · intro h
    exact hlast (unfinished_iff.mp h _ hlt (Nat.le_refl _) hbreak)

/-- The scanner keeps to its specification on the slots of `ScansRight`. -/
theorem Scan.specified (hscan : Scan s status s') (h : ScansRight s) : Specified s status s' := by
  obtain ⟨hlt, hbyte⟩ := h
  cases hscan with
  | exhausted hle => omega
  | crlf hlt' hcr hlf _ herased =>
      have hfirst := firstBreak_checked hlt (Or.inl hcr)
      exact specified_ok ⟨hfirst, hcr, hlt', hlf⟩ herased
  | lateLf _ hlf hone hcr _ _ =>
      -- the byte is an LF with a CR before it, which is none of the three cases
      rcases hbyte with hcr' | ⟨-, hno⟩ | hall
      · rw [hlf] at hcr'
        cases hcr'
      · exact absurd ⟨hone, hcr⟩ hno
      · have hcr' := (hall _ hlt (Nat.le_refl _) (Or.inr hlf)).1
        rw [hlf] at hcr'
        cases hcr'
  | lastCr hlast hcr =>
      have hfirst := firstBreak_checked hlt (Or.inl hcr)
      exact specified_open (Or.inr ⟨_, hfirst, hlast, hcr⟩)
  | text _ b hb hbreak =>
      refine specified_open (unfinished_iff.mpr ?_)
      rcases hbyte with hcr | ⟨hlf, -⟩ | hall
      · rw [hb] at hcr
        cases hcr
        cases hbreak
      · rw [hb] at hlf
        cases hlf
        cases hbreak
      · exact hall
  | loneCr hlt' hcr b hb hne =>
      refine specified_bad_of_break hlt (Or.inl hcr) ?_ ?_
      · rintro ⟨-, -, hlf⟩
        exact hne (Option.some.inj (hb.symm.trans hlf))
      · rintro ⟨-, hlast⟩
        omega
  | loneLf _ hlf hno =>
      refine specified_bad_of_break hlt (Or.inr hlf) ?_ ?_
      · rintro ⟨hcr, -⟩
        rw [hlf] at hcr
        cases hcr
      · rintro ⟨hcr, -⟩
        rw [hlf] at hcr
        cases hcr

/-- And on no others. -/
theorem Scan.scansRight (hscan : Scan s status s') (h : Specified s status s') : ScansRight s := by
  cases hscan with
  | exhausted hle =>
      -- LINE_OK, but there is no byte for a line to end at
      obtain ⟨p, hfirst, -⟩ := h.lineOk.mp rfl
      have hlow := hfirst.1
      have hhigh := hfirst.2.1
      omega
  | crlf hlt hcr => exact ⟨by omega, Or.inl hcr⟩
  | lateLf hlt hlf =>
      -- LINE_OK, but the first break is an LF
      obtain ⟨p, hfirst, hcr, -⟩ := h.lineOk.mp rfl
      rw [← (firstBreak_checked hlt (Or.inr hlf)).unique hfirst, hlf] at hcr
      cases hcr
  | lastCr hlast hcr => exact ⟨by omega, Or.inl hcr⟩
  | text hlt => exact ⟨hlt, Or.inr (Or.inr (unfinished_iff.mp (h.lineOpen.mp rfl)))⟩
  | loneCr hlt hcr => exact ⟨by omega, Or.inl hcr⟩
  | loneLf hlt hlf hno => exact ⟨hlt, Or.inr (Or.inl ⟨hlf, hno⟩)⟩

theorem specified_iff (hread : s.mReadIdx ≤ READ_BUFFER_SIZE) :
    (∃ status s', parseLine s = .ok (status, s') ∧ Specified s status s') ↔ ScansRight s := by
  refine ⟨?_, fun h => ?_⟩
  · rintro ⟨status, s', hparse, hspec⟩
    exact (scan_of_parseLine hread hparse).scansRight hspec
  · obtain ⟨status, s', hparse, hscan⟩ := parseLine_scan hread
    exact ⟨status, s', hparse, hscan.specified h⟩

end Specification

/-! ## A growing buffer -/

/-- The scanner at work: the slot, and the lines it has taken. -/
structure Scanning where
  conn : HttpConn
  lines : List (List UInt8)

/-- Bytes come, or `parse_line` is called. -/
inductive ScanStep where
  | grow (chunk : List UInt8)
  | call

def ScanStep.chunk : ScanStep → List UInt8
  | .grow chunk => chunk
  | .call => []

/-- The line a LINE_OK hands to the main machine: from `m_start_line` up to the
    line end. -/
def lineTo (s s' : HttpConn) : List UInt8 :=
  slice s.mReadBuf s.mStartLine (s'.mCheckedIndex - 2)

/-- The bytes that no line has been made of. -/
def pending (s : HttpConn) : List UInt8 := slice s.mReadBuf s.mStartLine s.mReadIdx

/-- A step, with the `m_start_line = m_checked_index` of `process_read` behind
    every line. -/
def scanStep (st : Scanning) : ScanStep → Option Scanning
  | .grow chunk =>
      match storeAll st.conn.mReadBuf st.conn.mReadIdx chunk with
      | .error _ => none
      | .ok buf => some { st with
          conn := { st.conn with mReadBuf := buf, mReadIdx := st.conn.mReadIdx + chunk.length } }
  | .call =>
      match parseLine st.conn with
      | .error _ => none
      | .ok (.lineOk, s') => some
          { conn := { s' with mStartLine := s'.mCheckedIndex }
            lines := st.lines ++ [lineTo st.conn s'] }
      | .ok (.lineOpen, s') | .ok (.lineBad, s') => some { st with conn := s' }

/-- What holds after a run: the stream is the lines that were taken, with their
    ends, and what is pending. -/
structure Splits (stream : List UInt8) (st : Scanning) : Prop where
  start : st.conn.mStartLine = st.conn.mCheckedIndex
  checked_le : st.conn.mCheckedIndex ≤ st.conn.mReadIdx
  read_le : st.conn.mReadIdx ≤ READ_BUFFER_SIZE
  free : ∀ line ∈ st.lines, ∀ b ∈ line, isBreak b = false
  stream : stream = st.lines.flatMap (fun line => line ++ [CR, LF]) ++ pending st.conn

/-- The calls that are made on slots the scanner scans right. -/
def CallsRight (st : Scanning) : ScanStep → Prop
  | .grow _ => True
  | .call => ScansRight st.conn

section Growing

variable {stream : List UInt8} {st st' : Scanning}

theorem Splits.grow (h : Splits stream st) {chunk : List UInt8}
    (hstep : scanStep st (.grow chunk) = some st') : Splits (stream ++ chunk) st' := by
  rw [scanStep] at hstep
  cases hbuf : storeAll st.conn.mReadBuf st.conn.mReadIdx chunk with
  | error fault =>
      rw [hbuf] at hstep
      cases hstep
  | ok buf =>
      rw [hbuf] at hstep
      cases hstep
      have hfit := le_of_storeAll h.read_le hbuf
      have hslice := slice_storeAll (h.start.le.trans h.checked_le) hfit hbuf
      refine ⟨h.start, h.checked_le.trans (Nat.le_add_right _ _), hfit, h.free, ?_⟩
      rw [h.stream, List.append_assoc, pending, ← hslice]
      rfl

/-- A line and its end at the head of what is pending. -/
theorem pending_of_endsAt {s s' : HttpConn} {p : Nat} (hread : s.mReadIdx ≤ READ_BUFFER_SIZE)
    (hstart : s.mStartLine = s.mCheckedIndex) (h : EndsAt s p) (herased : Erased s p s') :
    pending s = lineTo s s' ++ [CR, LF] ++ pending { s' with mStartLine := s'.mCheckedIndex } ∧
      ∀ b ∈ lineTo s s', isBreak b = false := by
  obtain ⟨⟨hlow, hhigh, -, hfirst⟩, hcr, hlt, hlf⟩ := h
  have hchecked : s'.mCheckedIndex = p + 2 := by rw [herased.conn]
  have hidx : s'.mReadIdx = s.mReadIdx := by rw [herased.conn]
  have hline : lineTo s s' = slice s.mReadBuf s.mStartLine p := by
    rw [lineTo, hchecked, Nat.add_sub_cancel]
  have hrest : pending { s' with mStartLine := s'.mCheckedIndex }
      = slice s.mReadBuf (p + 2) s.mReadIdx := by
    show slice s'.mReadBuf s'.mCheckedIndex s'.mReadIdx = _
    rw [hchecked, hidx]
    refine slice_congr (fun j hj _ => ?_)
    rw [herased.bytes, if_neg (by omega)]
  rw [hline, hrest]
  refine ⟨?_, fun b hb => ?_⟩
  · rw [pending, ← slice_append (by omega) hhigh.le hread, slice_cons hhigh hcr,
      slice_cons hlt hlf, List.append_assoc]
    rfl
  · obtain ⟨k, hk⟩ := List.mem_iff_getElem?.mp hb
    rw [slice_getElem?] at hk
    by_cases hkp : s.mStartLine + k < p
    · rw [if_pos hkp] at hk
      by_contra hbreak
      refine hfirst _ hkp (by omega) ?_
      rw [BreakAt, hk, Option.some.injEq, Option.some.injEq]
      exact isBreak_iff.mp (by simpa using hbreak)
    · rw [if_neg hkp] at hk
      cases hk

/-- Where no line is taken, none is there. -/
theorem no_line_of_unfinished {s : HttpConn} (hread : s.mReadIdx ≤ READ_BUFFER_SIZE)
    (hstart : s.mStartLine = s.mCheckedIndex) (h : Unfinished s) : crlfLines (pending s) = [] := by
  refine linesFrom_eq_nil (fun k b hb hbreak => ?_)
  rw [pending, slice_getElem?] at hb
  by_cases hk : s.mStartLine + k < s.mReadIdx
  · rw [if_pos hk] at hb
    have hat : BreakAt s (s.mStartLine + k) := by
      rw [BreakAt, hb, Option.some.injEq, Option.some.injEq]
      exact isBreak_iff.mp hbreak
    have hlast := (unfinished_iff.mp h _ hk (by omega) hat).2
    rw [pending, length_slice hread]
    omega
  · rw [if_neg hk] at hb
    cases hb

/-- A call on a slot that is scanned right: it takes the next line, or leaves
    everything as it is and there is no line. -/
theorem scanStep_call (hread : st.conn.mReadIdx ≤ READ_BUFFER_SIZE)
    (hstart : st.conn.mStartLine = st.conn.mCheckedIndex) (hright : ScansRight st.conn)
    (h : scanStep st .call = some st') :
    (∃ s' p, EndsAt st.conn p ∧ Erased st.conn p s' ∧
        st' = ⟨{ s' with mStartLine := s'.mCheckedIndex }, st.lines ++ [lineTo st.conn s']⟩) ∨
      st' = st ∧ crlfLines (pending st.conn) = [] := by
  obtain ⟨status, s', hparse, hscan⟩ := parseLine_scan hread
  have hspec := hscan.specified hright
  rw [scanStep, hparse] at h
  cases status with
  | lineOk =>
      obtain ⟨p, hends⟩ := hspec.lineOk.mp rfl
      exact Or.inl ⟨s', p, hends, hspec.erased p hends, (Option.some.inj h).symm⟩
  | lineOpen =>
      have hnone := no_line_of_unfinished hread hstart (hspec.lineOpen.mp rfl)
      have hst : { st with conn := s' } = st' := Option.some.inj h
      cases hscan with
      | lastCr => exact Or.inr ⟨hst.symm, hnone⟩
      | text => exact Or.inr ⟨hst.symm, hnone⟩
  | lineBad =>
      have hst : { st with conn := s' } = st' := Option.some.inj h
      cases hscan with
      | loneCr hlt hcr b hb hne =>
          refine Or.inr ⟨hst.symm, ?_⟩
          rw [pending, hstart, slice_cons (by omega) hcr, slice_cons hlt hb]
          exact crlfLines_of_lone_cr _ hne
      | loneLf hlt hlf =>
          refine Or.inr ⟨hst.symm, ?_⟩
          rw [pending, hstart, slice_cons hlt hlf]
          exact crlfLines_of_lone_lf _

theorem Splits.call (h : Splits stream st) (hright : ScansRight st.conn)
    (hstep : scanStep st .call = some st') : Splits stream st' := by
  rcases scanStep_call h.read_le h.start hright hstep with
    ⟨s', p, hends, herased, rfl⟩ | ⟨rfl, -⟩
  · obtain ⟨hpending, hfree⟩ := pending_of_endsAt h.read_le h.start hends herased
    have hlt := hends.2.2.1
    have hchecked : s'.mCheckedIndex = p + 2 := by rw [herased.conn]
    have hidx : s'.mReadIdx = st.conn.mReadIdx := by rw [herased.conn]
    refine ⟨rfl, ?_, ?_, ?_, ?_⟩
    · show s'.mCheckedIndex ≤ s'.mReadIdx
      omega
    · show s'.mReadIdx ≤ READ_BUFFER_SIZE
      rw [hidx]
      exact h.read_le
    · intro line hline
      rcases List.mem_append.mp hline with hline | hline
      · exact h.free line hline
      · rw [List.mem_singleton.mp hline]
        exact hfree
    · rw [h.stream, hpending, List.flatMap_append, List.flatMap_singleton]
      exact (List.append_assoc _ _ _).symm
  · exact h

/-- Run lemma: the stream stays split. -/
theorem splits_of_exec {s : HttpConn} (hstart : s.mStartLine = s.mCheckedIndex)
    (hchecked : s.mCheckedIndex ≤ s.mReadIdx) (hread : s.mReadIdx ≤ READ_BUFFER_SIZE)
    {tr : List ScanStep} (h : exec scanStep ⟨s, []⟩ tr = some st)
    (hright : AllSteps scanStep CallsRight ⟨s, []⟩ tr) :
    Splits (pending s ++ tr.flatMap ScanStep.chunk) st := by
  refine exec_history_of_allSteps
    (P := fun tr st => Splits (pending s ++ tr.flatMap ScanStep.chunk) st) ?_ ?_ h hright
  · rw [List.flatMap_nil, List.append_nil]
    exact ⟨hstart, hchecked, hread, nofun, rfl⟩
  · intro tr st l st' _ hsplits hC hl
    rw [List.flatMap_append, List.flatMap_singleton, ← List.append_assoc]
    cases l with
    | grow chunk => exact hsplits.grow hl
    | call =>
        rw [ScanStep.chunk, List.append_nil]
        exact hsplits.call hC hl

end Growing

/-- **The line scanner.**  A call keeps to the specification if and only if the
    slot is one of `ScansRight`; and where all calls are made on such slots, the
    lines taken from a growing buffer are the first lines of the stream, and
    all of them when a call takes none. -/
theorem line_scanner_iff (s : HttpConn) (hchecked : s.mCheckedIndex ≤ s.mReadIdx)
    (hread : s.mReadIdx ≤ READ_BUFFER_SIZE) :
    ((∃ status s', parseLine s = .ok (status, s') ∧ Specified s status s') ↔ ScansRight s) ∧
    (s.mStartLine = s.mCheckedIndex → ∀ (tr : List ScanStep) (st : Scanning),
      exec scanStep ⟨s, []⟩ tr = some st → AllSteps scanStep CallsRight ⟨s, []⟩ tr →
      crlfLines (pending s ++ tr.flatMap ScanStep.chunk) = st.lines ++ crlfLines (pending st.conn) ∧
      ∀ st', scanStep st .call = some st' → ScansRight st.conn → st'.lines = st.lines →
        st'.lines = crlfLines (pending s ++ tr.flatMap ScanStep.chunk)) := by
  refine ⟨specified_iff hread, fun hstart tr st h hright => ?_⟩
  have hsplits := splits_of_exec hstart hchecked hread h hright
  have hlines : crlfLines (pending s ++ tr.flatMap ScanStep.chunk)
      = st.lines ++ crlfLines (pending st.conn) := by
    rw [hsplits.stream, crlfLines_joined _ hsplits.free]
  refine ⟨hlines, fun st' hcall hst hnone => ?_⟩
  rcases scanStep_call hsplits.read_le hsplits.start hst hcall with ⟨s', p, -, -, rfl⟩ | ⟨rfl, hno⟩
  · simp at hnone
  · rw [hlines, hno, List.append_nil]

/-- An empty line and the first byte of the next one. -/
def emptyLineFirst : HttpConn :=
  zeroSlot.received (ascii "\r\nx")

theorem line_scanner_emptyLineFirst :
    (∃ status s', parseLine emptyLineFirst = .ok (status, s') ∧ Specified emptyLineFirst status s') ∧
      ∃ st, exec scanStep ⟨emptyLineFirst, []⟩ [.call] = some st ∧
        crlfLines (pending emptyLineFirst) = st.lines ++ crlfLines (pending st.conn) := by
  have hright : ScansRight emptyLineFirst := by decide +kernel
  obtain ⟨hcall, hrun⟩ := line_scanner_iff emptyLineFirst (by decide) (by decide)
  have hall : AllSteps scanStep CallsRight ⟨emptyLineFirst, []⟩ ([] ++ [.call]) := by
    rw [allSteps_snoc (exec_nil _)]
    exact ⟨allSteps_nil, hright⟩
  have hlines := (hrun rfl [.call] _ rfl hall).1
  rw [List.flatMap_singleton, ScanStep.chunk, List.append_nil] at hlines
  exact ⟨hcall.mpr hright, _, rfl, hlines⟩

/-- A request line, all of it received. -/
def requestLineReceived : HttpConn :=
  zeroSlot.received (ascii "GET / HTTP/1.1\r\n")

/-- The line ends with the CR at 14 and is not found. -/
theorem request_line_not_found :
    EndsAt requestLineReceived 14 ∧
      parseLine requestLineReceived = .ok (.lineOpen, requestLineReceived) ∧
      ¬ Specified requestLineReceived .lineOpen requestLineReceived := by
  have hends : EndsAt requestLineReceived 14 := by decide +kernel
  refine ⟨hends, by rfl, fun h => ?_⟩
  cases h.lineOk.mpr ⟨14, hends⟩

end HttpConn

end WebServer
