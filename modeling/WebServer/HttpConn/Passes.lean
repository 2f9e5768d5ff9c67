/-
  WebServer.HttpConn.Passes

  One pass through the loop of `process_read`, from any slot in range.

  `Pass` lists everything a pass can do, with the slot it does it on: it
  faults; it returns NO_REQUEST because no line ends at `m_checked_index`; it
  enters the `switch` and returns, or goes on.  The statements about whole
  calls of `process_read` are drawn from it.  `Advances` is what no pass undoes:
  `m_read_idx` stays, `m_checked_index` and the state of the main machine only
  go forward, and nothing but NULs is written.
-/

import WebServer.HttpConn.Content
import WebServer.HttpConn.RequestLine
import WebServer.HttpConn.Scan

namespace WebServer

open WebServer.Lib

namespace HttpConn

/-! ## Entering the switch -/

/-- The condition of the `while` does not look for a line. -/
def AtBody (s : HttpConn) (status : LineStatus) : Prop :=
  s.mCheckState = .content ∧ status = .lineOk

theorem not_atBody_lineOpen (s : HttpConn) : ¬ AtBody s .lineOpen := by
  rintro ⟨-, hstatus⟩
  cases hstatus

theorem whileCond_body {s : HttpConn} {status : LineStatus} (h : AtBody s status) :
    whileCond s status = .ok (.lineOk, s) := by
  rw [AtBody] at h
  rw [whileCond, if_pos h, h.2]
  rfl

theorem whileCond_line {s : HttpConn} {status : LineStatus} (h : ¬ AtBody s status) :
    whileCond s status = parseLine s := by
  rw [AtBody] at h
  rw [whileCond, if_neg h]

/-- The slots with which a pass enters the `switch`; `text` is the old
    `m_start_line`. -/
inductive Entered (s : HttpConn) (status : LineStatus) : HttpConn → Prop where
  | body (h : AtBody s status) : Entered s status { s with mStartLine := s.mCheckedIndex }
  | exhausted (h : ¬ AtBody s status) (hidx : s.mCheckedIndex = s.mReadIdx) :
      Entered s status { s with mStartLine := s.mCheckedIndex }
  | line (h : ¬ AtBody s status) (p : Nat) (s' : HttpConn) (htaken : LineTaken s p s') :
      Entered s status { s' with mStartLine := s'.mCheckedIndex }

/-! ## The switch -/

/-- The slots with which the `switch` comes to the content case, directly or
    out of the header case. -/
inductive AtContent (t : HttpConn) (text : Nat) : HttpConn → Prop where
  | content (hstate : t.mCheckState = .content) : AtContent t text t
  | empty (hstate : t.mCheckState = .header) (hnul : t.mReadBuf[text]? = some NUL)
      (hlength : t.mContentLength ≠ 0) : AtContent t text { t with mCheckState := .content }
  | header (hstate : t.mCheckState = .header) (line : List UInt8)
      (hline : HeaderLine.In ⟨text, line⟩ t.mReadBuf) :
      AtContent t text (t.afterHeader ⟨text, line⟩)

/-- The indices and the buffer are those the `switch` was entered with. -/
theorem AtContent.frame {t u : HttpConn} {text : Nat} (h : AtContent t text u) :
    u = { t with
      mLinger := u.mLinger
      mContentLength := u.mContentLength
      mHost := u.mHost
      mCheckState := u.mCheckState } := by
  cases h with
  | content => rfl
  | empty => rfl
  | header => rfl

section Passes

variable (doRequest : HttpConn → HttpCode × HttpConn)

/-- Everything the `switch` can do with a string at `text`. -/
inductive Switch (t : HttpConn) (text : Nat) : Except Fault SwitchExit → Prop where
  | fault (fault : Fault) : Switch t text (.error fault)
  | rejected (hstate : t.mCheckState = .requestLine) (t' : HttpConn) (h : LineRejected t t') :
      Switch t text (.ok (.ret ⟨.badRequest, t', []⟩))
  | accepted (hstate : t.mCheckState = .requestLine) (p : LineParts) (t' : HttpConn)
      (h : LineAccepted t text p t') : Switch t text (.ok (.brk .noRequest .lineOk t'))
  | complete (hstate : t.mCheckState = .header) (hnul : t.mReadBuf[text]? = some NUL)
      (hlength : t.mContentLength = 0) : Switch t text (.ok (returnDoRequest doRequest t))
  | body (u : HttpConn) (hat : AtContent t text u) (hready : BodyReady u) (i : Nat)
      (hi : i < READ_BUFFER_SIZE) (hend : (i : Int) = text + u.mContentLength.toInt) :
      Switch t text (.ok (returnDoRequest doRequest { u with mReadBuf := u.mReadBuf.set i NUL }))
  | waits (u : HttpConn) (hat : AtContent t text u) (hwaits : ¬ BodyReady u) :
      Switch t text (.ok (.brk .noRequest .lineOpen u))

/-- The content case. -/
theorem switch_of_atContent {t u : HttpConn} {text : Nat} (h : AtContent t text u) :
    Switch doRequest t text (caseContent doRequest u text) := by
  by_cases hready : BodyReady u
  · rcases parseContent_stores text hready with ⟨i, hi, hend, hparse⟩ | ⟨-, hparse⟩
    · rw [caseContent, hparse]
      exact .body u h hready i hi hend
    · rw [caseContent, hparse]
      exact .fault _
  · rw [caseContent_waits doRequest hready]
    exact .waits u h hready

theorem switch_of_dispatch {t : HttpConn} {text : Nat} {line : List UInt8}
    (h : CStr t.mReadBuf text line) :
    Switch doRequest t text (dispatch doRequest t .lineOk text) := by
  cases hstate : t.mCheckState with
  | requestLine =>
      simp only [dispatch, hstate]
      by_cases hblank : ∃ b ∈ line, b ∈ blanks
      · obtain ⟨method, b, rest, rfl, hmethod, hb⟩ := exists_split hblank
        rcases parseRequestLine_get h hmethod hb with
          ⟨t', hparse, hrejected, -⟩ | ⟨t', p, hparse, -, haccepted⟩
        · rw [hparse]
          exact .rejected hstate t' hrejected
        · rw [hparse]
          exact .accepted hstate p t' haccepted
      · -- the search for a blank finds nothing, and its null result is written through
        have hnone := strpbrk_none_of_cstr h (fun c hc hmem => hblank ⟨c, hc, hmem⟩)
        rw [parseRequestLine, hnone]
        exact .fault .nullDeref
  | header =>
      by_cases hline : line = []
      · subst hline
        by_cases hlength : t.mContentLength = 0
        · rw [dispatch_empty_line doRequest hstate h hlength]
          exact .complete hstate h hlength
        · rw [dispatch_empty_line_body doRequest hstate h hlength]
          exact switch_of_atContent doRequest (.empty hstate h hlength)
      · -- the header case has no `break` and falls through
        rw [dispatch_header doRequest ⟨text, line⟩ ⟨hline, h⟩ hstate]
        exact switch_of_atContent doRequest (.header hstate line ⟨hline, h⟩)
  | content =>
      simp only [dispatch, hstate]
      exact switch_of_atContent doRequest (.content hstate)

/-! ## A pass -/

/-- What the loop does after the `switch`. -/
def SwitchExit.decision : SwitchExit → Iter (HttpConn × LineStatus) Returned
  | .ret r => .done r
  | .brk _ status s => .next (s, status)

/-- Everything a pass can do. -/
inductive Pass (s : HttpConn) (status : LineStatus) :
    Except Fault (Iter (HttpConn × LineStatus) Returned) → Prop where
  | fault (fault : Fault) : Pass s status (.error fault)
  | noLine (h : ¬ AtBody s status) (hlt : s.mCheckedIndex < s.mReadIdx) (hends : ¬ LineEnds s) :
      Pass s status (.ok (.done ⟨.noRequest, s, []⟩))
  | returns (t : HttpConn) (hentered : Entered s status t) (r : Returned)
      (hswitch : Switch doRequest t s.mStartLine (.ok (.ret r))) : Pass s status (.ok (.done r))
  | goesOn (t : HttpConn) (hentered : Entered s status t) (line : List UInt8)
      (hline : CStr t.mReadBuf s.mStartLine line) (code : HttpCode) (status' : LineStatus)
      (s' : HttpConn) (hswitch : Switch doRequest t s.mStartLine (.ok (.brk code status' s'))) :
      Pass s status (.ok (.next (s', status')))

theorem iteration_of_whileCond {s s' : HttpConn} {status : LineStatus}
    (hcond : whileCond s status = .ok (.lineOk, s')) (hstart : s'.mStartLine = s.mStartLine) :
    iteration doRequest (s, status) = (do
      let _ ← readString s'.mReadBuf s.mStartLine
      let exit ← dispatch doRequest { s' with mStartLine := s'.mCheckedIndex } .lineOk s.mStartLine
      return exit.decision) := by
  rw [iteration, hcond, ok_bind, ← hstart]
  show (readString s'.mReadBuf s'.mStartLine >>= _) = (readString s'.mReadBuf s'.mStartLine >>= _)
  refine congrArg (_ >>= ·) (funext fun _ => ?_)
  refine congrArg (_ >>= ·) (funext fun exit => ?_)
  cases exit with
  | ret r => rfl
  | brk code status s => rfl

/-- A pass that finds no line. -/
theorem iteration_of_no_line {s : HttpConn} {status : LineStatus}
    (hread : s.mReadIdx < READ_BUFFER_SIZE) (hbody : ¬ AtBody s status)
    (hlt : s.mCheckedIndex < s.mReadIdx) (hends : ¬ LineEnds s) :
    iteration doRequest (s, status) = .ok (.done ⟨.noRequest, s, []⟩) := by
  obtain ⟨status', hstatus, hparse⟩ := parseLine_open (Nat.le_of_lt hread) hlt hends
  rw [iteration, whileCond_line hbody, hparse, ok_bind]
  simp only [hstatus, ne_eq, not_false_eq_true, if_true]
  rfl

theorem pass_of_entered {s s' : HttpConn} {status : LineStatus}
    (hcond : whileCond s status = .ok (.lineOk, s')) (hstart : s'.mStartLine = s.mStartLine)
    (hentered : Entered s status { s' with mStartLine := s'.mCheckedIndex }) :
    Pass doRequest s status (iteration doRequest (s, status)) := by
  rw [iteration_of_whileCond doRequest hcond hstart]
  cases hread : readString s'.mReadBuf s.mStartLine with
  | error fault => exact .fault fault
  | ok line =>
      have hline : CStr s'.mReadBuf s.mStartLine line := readString_eq_ok.mp hread
      have hswitch := switch_of_dispatch doRequest
        (t := { s' with mStartLine := s'.mCheckedIndex }) hline
      rw [ok_bind]
      cases hexit : dispatch doRequest { s' with mStartLine := s'.mCheckedIndex } .lineOk
          s.mStartLine with
      | error fault => exact .fault fault
      | ok exit =>
          rw [hexit] at hswitch
          cases exit with
          | ret r => exact .returns _ hentered r hswitch
          | brk code status' u => exact .goesOn _ hentered line hline code status' u hswitch

/-- **A pass.** -/
theorem pass_of_iteration {s : HttpConn} (h : InRange s) (status : LineStatus) :
    Pass doRequest s status (iteration doRequest (s, status)) := by
  by_cases hbody : AtBody s status
  · exact pass_of_entered doRequest (whileCond_body hbody) rfl (.body hbody)
  · have hcond := whileCond_line hbody
    by_cases hends : LineEnds s
    · obtain ⟨p, s', hparse, htaken⟩ := parseLine_ends (Nat.le_of_lt h.read_lt) hends
      refine pass_of_entered doRequest (hcond.trans hparse) ?_ (.line hbody p s' htaken)
      rw [htaken.conn]
    · by_cases hlt : s.mCheckedIndex < s.mReadIdx
      · rw [iteration_of_no_line doRequest h.read_lt hbody hlt hends]
        exact .noLine hbody hlt hends
      · -- the scan of `parse_line` has nothing to look at and falls out with LINE_OK
        have hidx : s.mCheckedIndex = s.mReadIdx := Nat.le_antisymm h.checked_le (by omega)
        have hparse := parseLine_exhausted (s := s) (by omega)
        exact pass_of_entered doRequest (hcond.trans hparse) rfl (.exhausted hbody hidx)

end Passes

/-! ## What no pass undoes -/

/-- The order of the states of the main machine. -/
def stage : CheckState → Nat
  | .requestLine => 0
  | .header => 1
  | .content => 2

/-- What the handlers leave alone, and what they can only add to. -/
structure Handled (t u : HttpConn) : Prop where
  checked : u.mCheckedIndex = t.mCheckedIndex
  start : u.mStartLine = t.mStartLine
  read : u.mReadIdx = t.mReadIdx
  stage : stage t.mCheckState ≤ stage u.mCheckState
  nulsOnly : NulsOnly t.mReadBuf u.mReadBuf

theorem LineRejected.handled {t u : HttpConn} (h : LineRejected t u) : Handled t u where
  checked := by rw [h.conn]
  start := by rw [h.conn]
  read := by rw [h.conn]
  stage := by rw [h.conn]
  nulsOnly := h.nulsOnly

theorem LineAccepted.handled {t u : HttpConn} {text : Nat} {p : LineParts}
    (h : LineAccepted t text p u) (hstate : t.mCheckState = .requestLine) : Handled t u where
  checked := by rw [h.conn]
  start := by rw [h.conn]
  read := by rw [h.conn]
  stage := by
    rw [hstate]
    exact Nat.zero_le _
  nulsOnly := by
    intro j
    rw [h.bytes j]
    split
    · exact Or.inr rfl
    · exact Or.inl rfl

theorem AtContent.handled {t u : HttpConn} {text : Nat} (h : AtContent t text u) : Handled t u where
  checked := by rw [h.frame]
  start := by rw [h.frame]
  read := by rw [h.frame]
  stage := by
    cases h with
    | content => exact Nat.le_refl _
    | empty hstate =>
        rw [hstate]
        exact Nat.le_succ 1
    | header => exact Nat.le_refl _
  nulsOnly := by
    rw [h.frame]
    exact NulsOnly.refl _

theorem Handled.set {t u : HttpConn} (h : Handled t u) {i : Nat} (hi : i < READ_BUFFER_SIZE) :
    Handled t { u with mReadBuf := u.mReadBuf.set i NUL } where
  checked := h.checked
  start := h.start
  read := h.read
  stage := h.stage
  nulsOnly := h.nulsOnly.trans (nulsOnly_set _ hi)

/-- How `process_read` returns out of the `switch`: with a rejected request
    line, or with what `do_request` answers. -/
inductive Ends (doRequest : HttpConn → HttpCode × HttpConn) (t : HttpConn) : Returned → Prop where
  | rejected (u : HttpConn) (h : Handled t u) (hstate : u.mCheckState = .requestLine) :
      Ends doRequest t ⟨.badRequest, u, []⟩
  | served (u : HttpConn) (h : Handled t u)
      (hstate : u.mCheckState = .header ∨ u.mCheckState = .content ∧ BodyReady u) :
      Ends doRequest t ⟨(doRequest u).1, (doRequest u).2, [u]⟩

section Switch

variable {doRequest : HttpConn → HttpCode × HttpConn} {s t u : HttpConn} {text : Nat}

theorem AtContent.state (h : AtContent t text u) :
    u.mCheckState = .header ∨ u.mCheckState = .content := by
  cases h with
  | content hstate => exact Or.inr hstate
  | empty => exact Or.inr rfl
  | header hstate => exact Or.inl hstate

theorem Switch.ends {r : Returned} (h : Switch doRequest t text (.ok (.ret r))) :
    Ends doRequest t r := by
  cases h with
  | rejected hstate u hrejected =>
      refine .rejected u hrejected.handled ?_
      rw [hrejected.conn]
      exact hstate
  | complete hstate =>
      exact .served t ⟨rfl, rfl, rfl, Nat.le_refl _, NulsOnly.refl _⟩ (Or.inl hstate)
  | body u hat hready i hi =>
      refine .served _ (hat.handled.set hi) ?_
      exact hat.state.imp_right (fun hstate => ⟨hstate, hready⟩)

theorem Switch.handled {code : HttpCode} {status : LineStatus}
    (h : Switch doRequest t text (.ok (.brk code status u))) : Handled t u := by
  cases h with
  | accepted hstate p _ haccepted => exact haccepted.handled hstate
  | waits _ hat => exact hat.handled

/-- What no pass undoes. -/
structure Advances (s s' : HttpConn) : Prop where
  read : s'.mReadIdx = s.mReadIdx
  checked : s.mCheckedIndex ≤ s'.mCheckedIndex
  stage : stage s.mCheckState ≤ stage s'.mCheckState
  nulsOnly : NulsOnly s.mReadBuf s'.mReadBuf

theorem Advances.refl (s : HttpConn) : Advances s s :=
  ⟨rfl, Nat.le_refl _, Nat.le_refl _, NulsOnly.refl _⟩

theorem Advances.trans (h : Advances s t) (h' : Advances t u) : Advances s u :=
  ⟨h'.read.trans h.read, h.checked.trans h'.checked, h.stage.trans h'.stage,
    h.nulsOnly.trans h'.nulsOnly⟩

theorem Handled.advances (h : Handled t u) : Advances t u :=
  ⟨h.read, h.checked.ge, h.stage, h.nulsOnly⟩

theorem Entered.state {status : LineStatus} (h : Entered s status t) :
    t.mCheckState = s.mCheckState := by
  cases h with
  | body => rfl
  | exhausted => rfl
  | line _ p s' htaken =>
      rw [htaken.conn]

theorem Entered.advances {status : LineStatus} (h : Entered s status t) : Advances s t := by
  cases h with
  | body => exact ⟨rfl, Nat.le_refl _, Nat.le_refl _, NulsOnly.refl _⟩
  | exhausted => exact ⟨rfl, Nat.le_refl _, Nat.le_refl _, NulsOnly.refl _⟩
  | line _ p s' htaken =>
      rw [htaken.conn]
      exact ⟨rfl, htaken.lt.le, Nat.le_refl _, htaken.erased.nulsOnly⟩

theorem Entered.checked_lt {status : LineStatus} (h : Entered s status t)
    (hbody : ¬ AtBody s status) (hends : LineEnds s) : s.mCheckedIndex < t.mCheckedIndex := by
  cases h with
  | body h => exact absurd h hbody
  | exhausted _ hidx => exact absurd hidx (Nat.ne_of_lt hends.checked_lt)
  | line _ p s' htaken => exact htaken.lt

/-- The slot with which the `switch` is entered is in range again, and what is
    behind `m_checked_index` becomes the next line. -/
theorem Entered.inRange {status : LineStatus} (hs : InRange s) (h : Entered s status t) :
    InRange t ∧ t.mStartLine = t.mCheckedIndex := by
  cases h with
  | body => exact ⟨⟨Nat.le_refl _, hs.checked_le, hs.read_lt⟩, rfl⟩
  | exhausted => exact ⟨⟨Nat.le_refl _, hs.checked_le, hs.read_lt⟩, rfl⟩
  | line _ p s' htaken =>
      have hread : s'.mReadIdx = s.mReadIdx := by rw [htaken.conn]
      refine ⟨⟨Nat.le_refl _, ?_, ?_⟩, rfl⟩
      · show s'.mCheckedIndex ≤ s'.mReadIdx
        rw [hread]
        exact htaken.le
      · show s'.mReadIdx < READ_BUFFER_SIZE
        rw [hread]
        exact hs.read_lt

theorem Handled.inRange (h : Handled t u) (ht : InRange t) : InRange u :=
  ⟨by rw [h.start, h.checked]; exact ht.start_le, by rw [h.checked, h.read]; exact ht.checked_le,
    by rw [h.read]; exact ht.read_lt⟩

end Switch

/-! ## Whole calls -/

section Calls

variable (doRequest : HttpConn → HttpCode × HttpConn)

/-- The slots at the head of the loop: in range, and between two lines once the
    body has been waited for. -/
def AtHead : HttpConn × LineStatus → Prop
  | (s, status) => InRange s ∧ (status ≠ .lineOk → s.mStartLine = s.mCheckedIndex)

theorem atHead_start {s : HttpConn} (h : InRange s) : AtHead (s, .lineOk) :=
  ⟨h, fun hne => absurd rfl hne⟩

/-- A pass that goes on. -/
theorem next_of_iteration {s s' : HttpConn} {status status' : LineStatus} (h : InRange s)
    (hpass : iteration doRequest (s, status) = .ok (.next (s', status'))) :
    ∃ t line, Entered s status t ∧ CStr t.mReadBuf s.mStartLine line ∧
      ∃ code, Switch doRequest t s.mStartLine (.ok (.brk code status' s')) := by
  have hcases := pass_of_iteration doRequest h status
  rw [hpass] at hcases
  cases hcases with
  | goesOn t hentered line hline code _ _ hswitch => exact ⟨t, line, hentered, hline, code, hswitch⟩

theorem atHead_next {p p' : HttpConn × LineStatus} (h : AtHead p)
    (hpass : iteration doRequest p = .ok (.next p')) : AtHead p' := by
  obtain ⟨t, line, hentered, -, code, hswitch⟩ := next_of_iteration doRequest h.1 hpass
  obtain ⟨hrange, hstart⟩ := hentered.inRange h.1
  refine ⟨hswitch.handled.inRange hrange, fun _ => ?_⟩
  rw [hswitch.handled.start, hswitch.handled.checked, hstart]

/-- A call that hands nothing to `do_request` undoes nothing. -/
theorem advances_of_returns {p : HttpConn × LineStatus} {r : Returned} (hp : AtHead p)
    (h : Returns (iteration doRequest) p (.ok r)) (hnone : r.requests = []) :
    Advances p.1 r.conn := by
  refine Returns.invariant (I := fun q => AtHead q ∧ Advances p.1 q.1)
    (P := fun r : Returned => r.requests = [] → Advances p.1 r.conn) ?_ ?_
    ⟨hp, Advances.refl _⟩ h hnone
  · rintro q q' ⟨hq, hadv⟩ hpass
    obtain ⟨t, line, hentered, -, code, hswitch⟩ := next_of_iteration doRequest hq.1 hpass
    exact ⟨atHead_next doRequest hq hpass,
      hadv.trans (hentered.advances.trans hswitch.handled.advances)⟩
  · rintro ⟨s, status⟩ r ⟨hq, hadv⟩ hpass hnone
    have hcases := pass_of_iteration doRequest hq.1 status
    rw [hpass] at hcases
    cases hcases with
    | noLine => exact hadv
    | returns t hentered _ hswitch =>
        refine hadv.trans (hentered.advances.trans ?_)
        cases hswitch.ends with
        | rejected u hu => exact hu.advances
        | served u => cases hnone

/-- A call that finds a line end and calls nothing has moved on. -/
theorem checked_lt_of_lineEnds {s : HttpConn} {status : LineStatus} {r : Returned}
    (hhead : AtHead (s, status)) (hbody : ¬ AtBody s status) (hends : LineEnds s)
    (h : Returns (iteration doRequest) (s, status) (.ok r)) (hnone : r.requests = []) :
    s.mCheckedIndex < r.conn.mCheckedIndex := by
  have hcases := pass_of_iteration doRequest hhead.1 status
  cases hpass : iteration doRequest (s, status) with
  | error fault => cases (returns_of_error hpass).mp h
  | ok iter =>
      rw [hpass] at hcases
      cases hcases with
      | noLine _ _ hno => exact absurd hends hno
      | returns t hentered r' hswitch =>
          obtain rfl : r = r' := Except.ok.inj ((returns_of_done hpass).mp h)
          have hlt := hentered.checked_lt hbody hends
          cases hswitch.ends with
          | rejected u hu => exact hu.checked ▸ hlt
          | served u => cases hnone
      | goesOn t hentered line hline code status' u hswitch =>
          have hhead' := atHead_next doRequest hhead hpass
          have hadv := advances_of_returns doRequest hhead' ((returns_of_next hpass).mp h) hnone
          have hlt := hentered.checked_lt hbody hends
          rw [← hswitch.handled.checked] at hlt
          exact hlt.trans_le hadv.checked

end Calls

end HttpConn

end WebServer
