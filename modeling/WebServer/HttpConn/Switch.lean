/-
  WebServer.HttpConn.Switch

  The `switch` of `process_read`, line by line.

  A line is dispatched with the buffer and the indices `parse_line` has left
  (`Line`).  Here are the ways through the content case, which turn on the test
  of `parse_content` (`BodyReady`), what the empty line does, and runs of
  dispatches.  The request line and header lines have modules of their own.
-/

import WebServer.HttpConn.Parse

namespace WebServer

open WebServer.Lib

namespace HttpConn

/-! ## Dispatched lines -/

/-- What the `switch` of `process_read` finds when a line is dispatched. -/
structure Line where
  readBuf : Vector UInt8 READ_BUFFER_SIZE
  text : Nat
  checkedIndex : Nat
  readIdx : Nat

/-- The slot with the buffer and the indices of a line; `m_start_line` has just
    been set to `m_checked_index`. -/
def atLine (s : HttpConn) (line : Line) : HttpConn :=
  { s with
    mReadBuf := line.readBuf
    mStartLine := line.checkedIndex
    mCheckedIndex := line.checkedIndex
    mReadIdx := line.readIdx }

/-! ## The test of `parse_content` -/

/-- `0 <= m_start_line <= m_checked_index <= m_read_idx < READ_BUFFER_SIZE` -/
structure InRange (s : HttpConn) : Prop where
  start_le : s.mStartLine ≤ s.mCheckedIndex
  checked_le : s.mCheckedIndex ≤ s.mReadIdx
  read_lt : s.mReadIdx < READ_BUFFER_SIZE

/-- `m_read_idx >= (m_content_length + m_checked_index)` -/
def BodyReady (s : HttpConn) : Prop :=
  Int32.ofNat s.mReadIdx ≥ s.mContentLength + Int32.ofNat s.mCheckedIndex

instance (s : HttpConn) : Decidable (BodyReady s) := inferInstanceAs (Decidable (_ ≥ _))

/-- Over the integers: the bytes are there, or the sum wraps around. -/
theorem bodyReady_iff {s : HttpConn} (hchecked : s.mCheckedIndex ≤ s.mReadIdx)
    (hread : s.mReadIdx < READ_BUFFER_SIZE) :
    BodyReady s ↔ s.mContentLength.toInt + s.mCheckedIndex ≤ s.mReadIdx ∨
      2 ^ 31 ≤ s.mContentLength.toInt + s.mCheckedIndex := by
  have hlow := s.mContentLength.le_toInt
  have hhigh := s.mContentLength.toInt_lt
  have hsize : READ_BUFFER_SIZE = 2048 := rfl
  have hr : (Int32.ofNat s.mReadIdx).toInt = s.mReadIdx := Int32.toInt_ofNat_of_lt (by omega)
  have hc : (Int32.ofNat s.mCheckedIndex).toInt = s.mCheckedIndex :=
    Int32.toInt_ofNat_of_lt (by omega)
  rw [BodyReady, ge_iff_le, Int32.le_iff_toInt_le, Int32.toInt_add, hr, hc, Int.bmod]
  split
  · omega
  · omega

theorem InRange.bodyReady_iff {s : HttpConn} (h : InRange s) :
    BodyReady s ↔ s.mContentLength.toInt + s.mCheckedIndex ≤ s.mReadIdx ∨
      2 ^ 31 ≤ s.mContentLength.toInt + s.mCheckedIndex :=
  HttpConn.bodyReady_iff h.checked_le h.read_lt

/-- Without the bytes nothing is written. -/
theorem parseContent_waits {s : HttpConn} {text : Nat} (h : ¬ BodyReady s) :
    parseContent s text = .ok (.noRequest, s) := by
  rw [BodyReady] at h
  rw [parseContent, if_neg h]
  rfl

/-- With them the NUL is written, inside the buffer or not. -/
theorem parseContent_stores {s : HttpConn} (text : Nat) (h : BodyReady s) :
    (∃ (i : Nat) (hi : i < READ_BUFFER_SIZE), (i : Int) = text + s.mContentLength.toInt ∧
        parseContent s text
          = .ok (.getRequest, { s with mReadBuf := s.mReadBuf.set i NUL })) ∨
      ((text + s.mContentLength.toInt < 0 ∨ READ_BUFFER_SIZE ≤ text + s.mContentLength.toInt) ∧
        parseContent s text = .error .outOfBounds) := by
  rw [BodyReady] at h
  rw [parseContent, if_pos h]
  by_cases hout : text + s.mContentLength.toInt < 0 ∨
      READ_BUFFER_SIZE ≤ text + s.mContentLength.toInt
  · refine Or.inr ⟨hout, ?_⟩
    rw [storeAt_of_out hout, error_bind]
  · obtain ⟨i, hi⟩ : ∃ i : Nat, (i : Int) = text + s.mContentLength.toInt :=
      ⟨(text + s.mContentLength.toInt).toNat, by omega⟩
    refine Or.inl ⟨i, by omega, hi, ?_⟩
    rw [← hi, storeAt, if_pos (by omega), Int.toNat_natCast, store_of_lt (by omega), ok_bind]
    rfl

/-! ## The content case -/

/-- The three ways through the content case. -/
theorem caseContent_waits (doRequest : HttpConn → HttpCode × HttpConn) {s : HttpConn} {text : Nat}
    (h : ¬ BodyReady s) : caseContent doRequest s text = .ok (.brk .noRequest .lineOpen s) := by
  rw [caseContent, parseContent_waits h]
  rfl

theorem caseContent_stores (doRequest : HttpConn → HttpCode × HttpConn) {s : HttpConn}
    {text : Nat} {buf : Vector UInt8 READ_BUFFER_SIZE} (h : BodyReady s)
    (hstore : storeAt s.mReadBuf (text + s.mContentLength.toInt) NUL = .ok buf) :
    caseContent doRequest s text = .ok (returnDoRequest doRequest { s with mReadBuf := buf }) := by
  rw [BodyReady] at h
  rw [caseContent, parseContent, if_pos h, hstore]
  rfl

theorem caseContent_faults (doRequest : HttpConn → HttpCode × HttpConn) {s : HttpConn}
    {text : Nat} {fault : Fault} (h : BodyReady s)
    (hstore : storeAt s.mReadBuf (text + s.mContentLength.toInt) NUL = .error fault) :
    caseContent doRequest s text = .error fault := by
  rw [BodyReady] at h
  rw [caseContent, parseContent, if_pos h, hstore]
  rfl

/-! ## The empty line -/

/-- The empty line ends the headers of a request without a body. -/
theorem dispatch_empty_line (doRequest : HttpConn → HttpCode × HttpConn) {s : HttpConn}
    {text : Nat} (hstate : s.mCheckState = .header) (hnul : s.mReadBuf[text]? = some NUL)
    (hlength : s.mContentLength = 0) :
    dispatch doRequest s .lineOk text = .ok (returnDoRequest doRequest s) := by
  have hheaders : parseHeaders s text = .ok (.getRequest, s) := by
    rw [parseHeaders, load_eq_ok.mpr hnul, ok_bind, if_pos rfl, if_neg (by simpa using hlength)]
    rfl
  simp only [dispatch, hstate]
  rw [hheaders]
  rfl

/-- With any other length it opens the body, and falls through into the content
    case with the same `text`. -/
theorem dispatch_empty_line_body (doRequest : HttpConn → HttpCode × HttpConn) {s : HttpConn}
    {text : Nat} (hstate : s.mCheckState = .header) (hnul : s.mReadBuf[text]? = some NUL)
    (hlength : s.mContentLength ≠ 0) :
    dispatch doRequest s .lineOk text
      = caseContent doRequest { s with mCheckState := .content } text := by
  have hheaders : parseHeaders s text = .ok (.noRequest, { s with mCheckState := .content }) := by
    rw [parseHeaders, load_eq_ok.mpr hnul, ok_bind, if_pos rfl, if_pos hlength]
    rfl
  simp only [dispatch, hstate]
  rw [hheaders]
  rfl

/-! ## Runs -/

/-- A run of dispatches: the codes, the connections handed to `do_request`, and
    the slot at the end or the fault that ended it. -/
structure Transcript where
  codes : List HttpCode
  requests : List HttpConn
  final : Except Fault HttpConn

def Transcript.cons (code : HttpCode) (requests : List HttpConn) (t : Transcript) : Transcript :=
  ⟨code :: t.codes, requests ++ t.requests, t.final⟩

def dispatchLines (doRequest : HttpConn → HttpCode × HttpConn) :
    HttpConn → List Line → Transcript
  | s, [] => ⟨[], [], .ok s⟩
  | s, line :: lines =>
      match dispatch doRequest (s.atLine line) .lineOk line.text with
      | .error fault => ⟨[], [], .error fault⟩
      | .ok (.ret r) => (dispatchLines doRequest r.conn lines).cons r.code r.requests
      | .ok (.brk code _ s) => (dispatchLines doRequest s lines).cons code []

theorem dispatchLines_brk {doRequest : HttpConn → HttpCode × HttpConn} {s s' : HttpConn}
    {line : Line} {code : HttpCode} {status : LineStatus} (lines : List Line)
    (h : dispatch doRequest (s.atLine line) .lineOk line.text = .ok (.brk code status s')) :
    dispatchLines doRequest s (line :: lines) = (dispatchLines doRequest s' lines).cons code [] := by
  rw [dispatchLines, h]

theorem dispatchLines_ret {doRequest : HttpConn → HttpCode × HttpConn} {s : HttpConn}
    {line : Line} {r : Returned} (lines : List Line)
    (h : dispatch doRequest (s.atLine line) .lineOk line.text = .ok (.ret r)) :
    dispatchLines doRequest s (line :: lines)
      = (dispatchLines doRequest r.conn lines).cons r.code r.requests := by
  rw [dispatchLines, h]

theorem dispatchLines_fault {doRequest : HttpConn → HttpCode × HttpConn} {s : HttpConn}
    {line : Line} {fault : Fault} (lines : List Line)
    (h : dispatch doRequest (s.atLine line) .lineOk line.text = .error fault) :
    dispatchLines doRequest s (line :: lines) = ⟨[], [], .error fault⟩ := by
  rw [dispatchLines, h]

end HttpConn

end WebServer
