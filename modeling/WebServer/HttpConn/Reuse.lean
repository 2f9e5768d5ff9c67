/-
  WebServer.HttpConn.Reuse

  One slot, two clients: what of the first connection on a descriptor can the
  second one notice.  `init()` resets every field but `m_content_length` and
  `m_host`, and the constructor sets nothing, so these two are what the parser
  may find from the past.
-/

import WebServer.HttpConn.Session
import WebServer.HttpConn.Switch

namespace WebServer

open WebServer.Lib

namespace HttpConn

/-! ## What a client can notice -/

/-- The fields the parser works with. -/
structure Visible where
  checkState : CheckState
  method : Method
  linger : Bool
  contentLength : Int32
  url : Option Nat
  version : Option Nat
  host : Option Nat
deriving DecidableEq

def visible (s : HttpConn) : Visible :=
  ⟨s.mCheckState, s.mMethod, s.mLinger, s.mContentLength, s.mUrl, s.mVersion, s.mHost⟩

/-- The two runs return the same codes, make the same calls and end alike. -/
structure Alike (t₁ t₂ : Transcript) : Prop where
  codes : t₁.codes = t₂.codes
  requests : t₁.requests.map visible = t₂.requests.map visible
  final : t₁.final.map visible = t₂.final.map visible

/-! ## Noninterference -/

/-- A new connection cannot tell two pasts of its slot apart. -/
def Indistinguishable (s₁ s₂ : HttpConn) : Prop :=
  ∀ (doRequest : HttpConn → HttpCode × HttpConn) (sockfd : Int) (addr : SockaddrIn)
    (lines : List Line),
    Alike (dispatchLines doRequest (s₁.initConn sockfd addr) lines)
      (dispatchLines doRequest (s₂.initConn sockfd addr) lines)

/-- `init()` forgets everything but two fields. -/
theorem initConn_eq_iff (s₁ s₂ : HttpConn) (sockfd : Int) (addr : SockaddrIn) :
    s₁.initConn sockfd addr = s₂.initConn sockfd addr ↔
      s₁.mContentLength = s₂.mContentLength ∧ s₁.mHost = s₂.mHost := by
  simp only [initConn, init, HttpConn.mk.injEq, true_and, and_true]
  exact and_comm

theorem indistinguishable_iff (s₁ s₂ : HttpConn) :
    Indistinguishable s₁ s₂ ↔
      s₁.mContentLength = s₂.mContentLength ∧ s₁.mHost = s₂.mHost := by
  refine ⟨fun h => ?_, fun h doRequest sockfd addr lines => ?_⟩
  · -- before the first line the two fields are still those of the past
    have hfinal := (h (fun s => (.noResource, s)) 0 ⟨0, 0⟩ []).final
    have hvisible : visible (s₁.initConn 0 ⟨0, 0⟩) = visible (s₂.initConn 0 ⟨0, 0⟩) :=
      Except.ok.inj hfinal
    exact ⟨congrArg Visible.contentLength hvisible, congrArg Visible.host hvisible⟩
  · rw [(initConn_eq_iff s₁ s₂ sockfd addr).mpr h]
    exact ⟨rfl, rfl, rfl⟩

/-! ## How a stale length shows -/

/-- `GET / HTTP/1.1` and the empty line, as `parse_line` leaves them. -/
def rootLine : Line := ⟨bufOf (ascii "GET / HTTP/1.1" ++ [NUL, NUL, CR, LF]), 0, 16, 18⟩

def emptyLine : Line :=
  ⟨bufOf (ascii "GET\x00/\x00HTTP/1.1" ++ [NUL, NUL, NUL, NUL]), 16, 18, 18⟩

/-- The slot between the two lines: the past shows in two fields. -/
def afterRequestLine (s : HttpConn) (sockfd : Int) (addr : SockaddrIn) : HttpConn where
  mCheckedIndex := 16
  mStartLine := 16
  mUrl := some 4
  mVersion := some 6
  mMethod := .get
  mHost := s.mHost
  mLinger := false
  mContentLength := s.mContentLength
  mCheckState := .header
  mSockfd := sockfd
  mAddress := addr
  mReadBuf := ((bufOf (ascii "GET / HTTP/1.1" ++ [NUL, NUL, CR, LF])).set 3 NUL).set 5 NUL
  mReadIdx := 18

theorem dispatch_rootLine (doRequest : HttpConn → HttpCode × HttpConn) (s : HttpConn)
    (sockfd : Int) (addr : SockaddrIn) :
    dispatch doRequest ((s.initConn sockfd addr).atLine rootLine) .lineOk rootLine.text
      = .ok (.brk .noRequest .lineOk (s.afterRequestLine sockfd addr)) := rfl

/-- When `parse_content` takes the body for complete with nothing behind the
    empty line: for a length below 1, and where the sum wraps around. -/
theorem enough_iff (n : Int32) :
    (18 : Int32) ≥ n + 18 ↔ n.toInt ≤ 0 ∨ 2 ^ 31 ≤ n.toInt + 18 := by
  have hlow := n.le_toInt
  have hhigh := n.toInt_lt
  have h18 : (18 : Int32).toInt = 18 := by decide
  rw [ge_iff_le, Int32.le_iff_toInt_le, Int32.toInt_add, h18, Int.bmod]
  split
  · omega
  · omega

/-- **Framing by the previous client.**  What the complete request `GET /`
    meets on a slot depends on the length `n` its last connection left there:
    it is handed to `do_request`, with a byte of it overwritten if `n` is
    negative; or it waits for a body of `n` bytes; or it makes the worker write
    outside `m_read_buf`. -/
theorem getRoot_fate (doRequest : HttpConn → HttpCode × HttpConn) (s : HttpConn) (sockfd : Int)
    (addr : SockaddrIn) {n : Int} (hn : s.mContentLength.toInt = n) {t : Transcript}
    (ht : dispatchLines doRequest (s.initConn sockfd addr) [rootLine, emptyLine] = t) :
    (-16 ≤ n → n ≤ 0 → t.requests ≠ []) ∧
    (0 < n → n + 18 < 2 ^ 31 → t.requests = [] ∧ t.codes = [.noRequest, .noRequest]) ∧
    (n < -16 ∨ 2 ^ 31 ≤ n + 18 → t.final = .error .outOfBounds) := by
  rw [dispatchLines_brk [emptyLine] (dispatch_rootLine doRequest s sockfd addr)] at ht
  subst ht
  -- the slot when the empty line is dispatched
  have hstate : ((s.afterRequestLine sockfd addr).atLine emptyLine).mCheckState = .header := rfl
  have hnul : ((s.afterRequestLine sockfd addr).atLine emptyLine).mReadBuf[emptyLine.text]?
      = some NUL := rfl
  by_cases hzero : s.mContentLength = 0
  · have hempty := dispatch_empty_line doRequest hstate hnul hzero
    rw [dispatchLines_ret [] hempty]
    have hn0 : n = 0 := by
      rw [← hn, hzero]
      rfl
    refine ⟨fun _ _ => by simp [Transcript.cons], fun _ => by omega, fun _ => by omega⟩
  · have hbody := dispatch_empty_line_body doRequest hstate hnul hzero
    have hne : n ≠ 0 := by
      rintro rfl
      exact hzero (Int32.toInt_inj.mp hn)
    have hiff := enough_iff s.mContentLength
    rw [hn] at hiff
    by_cases henough : (18 : Int32) ≥ s.mContentLength + 18
    · have hsome := hiff.mp henough
      by_cases hin : -16 ≤ n ∧ n ≤ 0
      · -- inside the buffer, on a byte of the request itself
        obtain ⟨buf, hbuf⟩ := storeAt_of_lt (m := emptyLine.readBuf) (b := NUL)
          (i := 16 + s.mContentLength.toInt) (by omega) (by simp only [READ_BUFFER_SIZE]; omega)
        rw [dispatchLines_ret [] (hbody.trans (caseContent_stores doRequest henough hbuf))]
        exact ⟨fun _ _ => by simp [Transcript.cons], fun _ => by omega, fun _ => by omega⟩
      · -- below the buffer, or far behind it where the sum has wrapped
        have hout := storeAt_of_out (m := emptyLine.readBuf) (b := NUL)
          (i := 16 + s.mContentLength.toInt) (by simp only [READ_BUFFER_SIZE]; omega)
        rw [dispatchLines_fault [] (hbody.trans (caseContent_faults doRequest henough hout))]
        exact ⟨fun _ _ => by omega, fun _ _ => by omega, fun _ => rfl⟩
    · rw [dispatchLines_brk [] (hbody.trans (caseContent_waits doRequest henough))]
      have hnot := mt hiff.mpr henough
      refine ⟨fun _ _ => by omega, fun _ _ => ⟨rfl, rfl⟩, fun _ => by omega⟩

theorem stale_length_distinguishes :
    ¬ Alike (dispatchLines noFile (zeroSlot.initConn 7 ⟨0, 0⟩) [rootLine, emptyLine])
      (dispatchLines noFile ({ zeroSlot with mContentLength := 5 }.initConn 7 ⟨0, 0⟩)
        [rootLine, emptyLine]) := by
  intro h
  exact absurd h.codes (by decide +kernel)

end HttpConn

end WebServer
