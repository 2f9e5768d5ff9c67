/-
  WebServer.HttpConn.Body

  A body that comes in pieces.

  In the content state `process_read` first asks `parse_content`.  If the body
  is not complete it goes round its loop once more, and the condition of the
  `while` now hands the body to `parse_line`: a line end at its beginning is
  taken for the end of a line, and the body loses it.  So a body is framed by
  its length exactly if no call finds a line end there, and finds a string at
  all for its `printf` (`body_framing_iff`).
-/

import WebServer.HttpConn.Termination

namespace WebServer

open WebServer.Lib

namespace HttpConn

/-! ## Reading behind a parsed prefix -/

/-- What a `read()` leaves alone: the parser's fields and the bytes before. -/
structure Received (s s' : HttpConn) : Prop where
  conn : s' = { s with mReadBuf := s'.mReadBuf, mReadIdx := s'.mReadIdx }
  le : s.mReadIdx ≤ s'.mReadIdx
  lt : s'.mReadIdx < READ_BUFFER_SIZE
  bytes : ∀ j < s.mReadIdx, s'.mReadBuf[j]? = s.mReadBuf[j]?

theorem received_of_reads {s s' : HttpConn} {chunk : List UInt8}
    (hlt : s.mReadIdx < READ_BUFFER_SIZE) (h : Reads s chunk s') : Received s s' := by
  obtain ⟨hstored, hroom⟩ := (reads_iff hlt).mp h
  have hidx := hstored.readIdx
  have happended := hstored.appended (by omega)
  refine ⟨?_, by omega, hroom, happended.before⟩
  rw [hidx]
  exact hstored.conn

/-! ## A slot in its body -/

/-- The body begins at `b` and has length `n`; some of it has come, and the
    buffer has room for all of it. -/
structure InBody (b n : Nat) (s : HttpConn) : Prop where
  inRange : InRange s
  state : s.mCheckState = .content
  start : s.mStartLine = b
  checked : s.mCheckedIndex = b
  lt : b < s.mReadIdx
  length : s.mContentLength.toInt = n
  pos : 0 < n
  fits : b + n < READ_BUFFER_SIZE

theorem InBody.received {b n : Nat} {s s' : HttpConn} (h : InBody b n s) (hr : Received s s') :
    InBody b n s' where
  inRange := by
    rw [hr.conn]
    exact ⟨h.inRange.start_le, h.inRange.checked_le.trans hr.le, hr.lt⟩
  state := by
    rw [hr.conn]
    exact h.state
  start := by
    rw [hr.conn]
    exact h.start
  checked := by
    rw [hr.conn]
    exact h.checked
  lt := h.lt.trans_le hr.le
  length := by
    rw [hr.conn]
    exact h.length
  pos := h.pos
  fits := h.fits

section Framing

variable {doRequest : HttpConn → HttpCode × HttpConn} {b n : Nat} {s : HttpConn}

theorem InBody.bodyReady_iff (h : InBody b n s) : BodyReady s ↔ b + n ≤ s.mReadIdx := by
  have hfits := h.fits
  have hsize : READ_BUFFER_SIZE = 2048 := rfl
  rw [h.inRange.bodyReady_iff, h.length, h.checked]
  omega

/-- The first pass of a call: the string behind the head is printed and
    `parse_content` is asked. -/
theorem InBody.first_pass (h : InBody b n s) :
    iteration doRequest (s, .lineOk) = (do
      let _ ← readString s.mReadBuf b
      let exit ← caseContent doRequest s b
      return exit.decision) := by
  have hself := startLine_self (h.start.trans h.checked.symm)
  have hdispatch : dispatch doRequest s .lineOk b = caseContent doRequest s b := by
    simp only [dispatch, h.state]
  rw [iteration_of_whileCond doRequest (whileCond_body ⟨h.state, rfl⟩) rfl, hself, h.start, hdispatch]

/-- A complete body. -/
theorem InBody.complete (doRequest : HttpConn → HttpCode × HttpConn) (h : InBody b n s)
    {line : List UInt8} (hline : CStr s.mReadBuf b line) (hidx : b + n ≤ s.mReadIdx) :
    ∃ t, ProcessRead doRequest s (.ok ⟨(doRequest t).1, (doRequest t).2, [t]⟩) ∧
      t.mReadBuf[b + n]? = some NUL ∧ ∀ j, j ≠ b + n → t.mReadBuf[j]? = s.mReadBuf[j]? := by
  have hlength := h.length
  have hfits := h.fits
  rcases parseContent_stores b (h.bodyReady_iff.mpr hidx) with ⟨i, hi, hat, hparse⟩ | ⟨hout, -⟩
  · obtain rfl : i = b + n := by omega
    refine ⟨{ s with mReadBuf := s.mReadBuf.set (b + n) NUL }, ?_, Vector.getElem?_set_self hi,
      fun j hj => Vector.getElem?_set_ne hi (by omega)⟩
    refine (returns_of_done ?_).mpr rfl
    rw [h.first_pass, readString_of_cstr hline, ok_bind, caseContent, hparse]
    rfl
  · omega

/-- An incomplete body sends the call into a second pass. -/
theorem InBody.incomplete (h : InBody b n s) {line : List UInt8} (hline : CStr s.mReadBuf b line)
    (hidx : s.mReadIdx < b + n) :
    iteration doRequest (s, .lineOk) = .ok (.next (s, .lineOpen)) := by
  have hwaits : ¬ BodyReady s := by
    rw [h.bodyReady_iff]
    omega
  rw [h.first_pass, readString_of_cstr hline, ok_bind, caseContent_waits doRequest hwaits]
  rfl

/-- In it no line ends at the head of the body. -/
theorem InBody.waits (h : InBody b n s) {line : List UInt8} (hline : CStr s.mReadBuf b line)
    (hidx : s.mReadIdx < b + n) (hends : ¬ LineEnds s) :
    ProcessRead doRequest s (.ok ⟨.noRequest, s, []⟩) := by
  have hlt : s.mCheckedIndex < s.mReadIdx := by
    rw [h.checked]
    exact h.lt
  have hsecond := iteration_of_no_line doRequest h.inRange.read_lt (not_atBody_lineOpen s) hlt hends
  exact (returns_of_next (h.incomplete hline hidx)).mpr ((returns_of_done hsecond).mpr rfl)

/-- A call that does not fault found a string. -/
theorem InBody.of_returns {r : Returned} (h : InBody b n s)
    (hread : ProcessRead doRequest s (.ok r)) : ∃ line, CStr s.mReadBuf b line := by
  cases hstring : readString s.mReadBuf b with
  | ok line => exact ⟨line, readString_eq_ok.mp hstring⟩
  | error fault =>
      have hpass : iteration doRequest (s, .lineOk) = .error fault := by
        rw [h.first_pass, hstring, error_bind]
      cases (returns_of_error hpass).mp hread

/-- A call that comes back with nothing and has not moved: it found a string,
    and no line end. -/
theorem InBody.of_waits {s' : HttpConn} (h : InBody b n s) (hidx : s.mReadIdx < b + n)
    (hread : ProcessRead doRequest s (.ok ⟨.noRequest, s', []⟩))
    (hchecked : s'.mCheckedIndex = s.mCheckedIndex) :
    (∃ line, CStr s.mReadBuf b line) ∧ ¬ LineEnds s ∧ s' = s := by
  obtain ⟨line, hline⟩ := h.of_returns hread
  have hends : ¬ LineEnds s := by
    -- the second pass would take the line end, and no later pass goes back
    intro hends
    have hsecond := (returns_of_next (h.incomplete hline hidx)).mp hread
    have hhead : AtHead (s, .lineOpen) := ⟨h.inRange, fun _ => h.start.trans h.checked.symm⟩
    have hlt := checked_lt_of_lineEnds doRequest hhead (not_atBody_lineOpen s) hends hsecond rfl
    exact absurd hchecked (Nat.ne_of_gt hlt)
  refine ⟨⟨line, hline⟩, hends, ?_⟩
  have hwaits := hread.unique (h.waits hline hidx hends)
  exact congrArg Returned.conn (Except.ok.inj hwaits)

/-! ## Framing -/

/-- One call on a body of `n` bytes at `b`.  Before the last byte has come it
    returns NO_REQUEST, leaves the slot where it stands and the bytes as they
    are, and `next` goes on with that slot; then it hands the body to
    `do_request`, ended by a NUL. -/
def FramedCall (doRequest : HttpConn → HttpCode × HttpConn) (b n : Nat) (s : HttpConn)
    (next : HttpConn → Prop) : Prop :=
  if s.mReadIdx < b + n then
    ∃ s', ProcessRead doRequest s (.ok ⟨.noRequest, s', []⟩) ∧
      s'.mCheckedIndex = s.mCheckedIndex ∧ s'.mStartLine = s.mStartLine ∧
      s'.mCheckState = s.mCheckState ∧
      (∀ j, b ≤ j → j < s.mReadIdx → s'.mReadBuf[j]? = s.mReadBuf[j]?) ∧ next s'
  else
    ∃ t, ProcessRead doRequest s (.ok ⟨(doRequest t).1, (doRequest t).2, [t]⟩) ∧
      t.mReadBuf[b + n]? = some NUL ∧
      ∀ j, b ≤ j → j < b + n → t.mReadBuf[j]? = s.mReadBuf[j]?

/-- A call now, and one after every further chunk until the body is complete. -/
def Framed (doRequest : HttpConn → HttpCode × HttpConn) (b n : Nat) :
    HttpConn → List (List UInt8) → Prop
  | s, [] => FramedCall doRequest b n s fun _ => True
  | s, chunk :: chunks => FramedCall doRequest b n s fun s' =>
      ∀ s'', Reads s' chunk s'' → Framed doRequest b n s'' chunks

/-- What the call must find: a string at the head of the body and, before the
    last byte has come, no line end there. -/
def QuietCall (b n : Nat) (s : HttpConn) (next : Prop) : Prop :=
  (∃ line, CStr s.mReadBuf b line) ∧ (s.mReadIdx < b + n → ¬ LineEnds s ∧ next)

def Quiet (b n : Nat) : HttpConn → List (List UInt8) → Prop
  | s, [] => QuietCall b n s True
  | s, chunk :: chunks => QuietCall b n s (∀ s'', Reads s chunk s'' → Quiet b n s'' chunks)

theorem framedCall_iff (h : InBody b n s) {next : HttpConn → Prop} :
    FramedCall doRequest b n s next ↔ QuietCall b n s (next s) := by
  rw [FramedCall, QuietCall]
  by_cases hidx : s.mReadIdx < b + n
  · rw [if_pos hidx]
    refine ⟨?_, ?_⟩
    · rintro ⟨s', hread, hchecked, -, -, -, hnext⟩
      obtain ⟨hline, hends, rfl⟩ := h.of_waits hidx hread hchecked
      exact ⟨hline, fun _ => ⟨hends, hnext⟩⟩
    · rintro ⟨⟨line, hline⟩, hquiet⟩
      obtain ⟨hends, hnext⟩ := hquiet hidx
      exact ⟨s, h.waits hline hidx hends, rfl, rfl, rfl, fun _ _ _ => rfl, hnext⟩
  · rw [if_neg hidx]
    refine ⟨?_, ?_⟩
    · rintro ⟨t, hread, -, -⟩
      exact ⟨h.of_returns hread, fun hlt => absurd hlt hidx⟩
    · rintro ⟨⟨line, hline⟩, -⟩
      obtain ⟨t, hread, hnul, hbytes⟩ := h.complete doRequest hline (by omega)
      exact ⟨t, hread, hnul, fun j _ hj => hbytes j (by omega)⟩

/-- **Body framing.**  The body is the `n` bytes at `b`, however it is cut, if
    and only if every call finds a string there, and no line end before the
    last byte has come. -/
theorem body_framing_iff (doRequest : HttpConn → HttpCode × HttpConn) (b n : Nat) (s : HttpConn)
    (h : InBody b n s) (chunks : List (List UInt8)) :
    Framed doRequest b n s chunks ↔ Quiet b n s chunks := by
  induction chunks generalizing s with
  | nil => exact framedCall_iff h
  | cons chunk chunks ih =>
      -- a call that waits changes nothing, so the next `read()` starts from `s` itself
      rw [Framed, Quiet, framedCall_iff h]
      have hlater : (∀ s'', Reads s chunk s'' → Framed doRequest b n s'' chunks) ↔
          ∀ s'', Reads s chunk s'' → Quiet b n s'' chunks := by
        refine forall_congr' (fun s'' => imp_congr_right (fun hreads => ?_))
        exact ih s'' (h.received (received_of_reads h.inRange.read_lt hreads))
      rw [hlater]

end Framing

/-- Two bytes of three. -/
def twoOfThree : HttpConn := { twoBytes with mContentLength := 3 }

theorem body_framing_iff_twoOfThree : Framed noFile 0 3 twoOfThree [] := by
  have hbody : InBody 0 3 twoOfThree :=
    ⟨⟨by decide, by decide, by decide⟩, rfl, rfl, rfl, by decide, by decide, by decide, by decide⟩
  refine (body_framing_iff noFile 0 3 twoOfThree hbody []).mpr ⟨⟨ascii "ab", ?_⟩, fun _ => ⟨?_, trivial⟩⟩
  · decide +kernel
  · decide +kernel

/-- A body that begins with CR and LF, three bytes of four. -/
def crlfBody : HttpConn :=
  { zeroSlot with
    mCheckState := .content, mContentLength := 4, mReadIdx := 3
    mReadBuf := bufOf (ascii "\r\na") }

/-- The line end is taken from the body. -/
theorem crlf_body_cut :
    InBody 0 4 crlfBody ∧
      (∃ s', ProcessRead noFile crlfBody (.ok ⟨.noRequest, s', []⟩) ∧ s'.mCheckedIndex = 2 ∧
        s'.mReadBuf[0]? = some NUL) ∧
      ¬ Framed noFile 0 4 crlfBody [] := by
  obtain ⟨s', hread, hchecked, hnul⟩ : ∃ s', ProcessRead noFile crlfBody (.ok ⟨.noRequest, s', []⟩) ∧
      s'.mCheckedIndex = 2 ∧ s'.mReadBuf[0]? = some NUL := ⟨_, ⟨3, rfl⟩, rfl, rfl⟩
  refine ⟨⟨⟨by decide, by decide, by decide⟩, rfl, rfl, rfl, by decide, by decide, by decide,
    by decide⟩, ⟨s', hread, hchecked, hnul⟩, fun hframed => ?_⟩
  rw [Framed, FramedCall, if_pos (by decide)] at hframed
  obtain ⟨s'', hread'', hchecked'', -⟩ := hframed
  have hsame : s' = s'' := congrArg Returned.conn (Except.ok.inj (hread.unique hread''))
  rw [← hsame, hchecked] at hchecked''
  cases hchecked''

end HttpConn

end WebServer
