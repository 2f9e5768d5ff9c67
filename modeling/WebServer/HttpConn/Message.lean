/-
  WebServer.HttpConn.Message

  A whole request in the buffer, one pass of `process_read` to a line.

  `parse_line` does not look for the end of a line; it takes one that stands at
  `m_checked_index`.  Here `m_checked_index` is set to the end of each line
  before its pass (`linePasses`), and everything else is `process_read`: the
  line ends become NULs, the lines are dispatched one after the other, and each
  pass finds the buffer as the passes before have left it.

  The header case has no `break`.  Behind each header line `parse_content`
  finds a body of no bytes complete, writes its NUL over the first byte of the
  line, and `do_request` is called; `process_read` returns there, and the next
  line is the next call.  So a request without a body is answered once for each
  header line and once more for the empty line, each time with what the lines
  so far have said (`message_calls`).
-/

import WebServer.HttpConn.RequestLine
import WebServer.HttpConn.Content
import WebServer.HttpConn.Process

namespace WebServer

open WebServer.Lib

namespace HttpConn

/-! ## One pass to a line -/

/-- A pass of `process_read` for each line, given the lengths of the lines:
    `m_checked_index` is moved to the line's end before it.  The calls of
    `do_request`, and the slot at the end. -/
def linePasses (doRequest : HttpConn → HttpCode × HttpConn) :
    HttpConn → List Nat → Except Fault (List HttpConn × HttpConn)
  | s, [] => return ([], s)
  | s, length :: lengths => do
      match ← iteration doRequest ({ s with mCheckedIndex := s.mStartLine + length }, .lineOk) with
      | .done r =>
          let (calls, s) ← linePasses doRequest r.conn lengths
          return (r.requests ++ calls, s)
      | .next (s, _) => linePasses doRequest s lengths

section Lines

variable {doRequest : HttpConn → HttpCode × HttpConn} {bytes : List UInt8} {s t : HttpConn}

/-- A line that leads to a call. -/
theorem linePasses_call {called : HttpConn} {length : Nat} {lengths : List Nat}
    {calls : List HttpConn} {final : HttpConn}
    (hpass : iteration doRequest ({ s with mCheckedIndex := s.mStartLine + length }, .lineOk)
      = .ok (.done ⟨(doRequest called).1, (doRequest called).2, [called]⟩))
    (hrest : linePasses doRequest (doRequest called).2 lengths = .ok (calls, final)) :
    linePasses doRequest s (length :: lengths) = .ok (called :: calls, final) := by
  rw [linePasses, hpass, ok_bind]
  dsimp only
  rw [hrest, ok_bind]
  rfl

/-- What has been received is in the buffer, untouched from the next line on. -/
structure Ahead (bytes : List UInt8) (s : HttpConn) : Prop where
  fits : bytes.length < READ_BUFFER_SIZE
  read : s.mReadIdx = bytes.length
  buf : ∀ j : Nat, s.mStartLine ≤ j → s.mReadBuf[j]? = (bufOf bytes)[j]?

/-- The slot with which the `switch` is entered when `line` has been taken. -/
structure TakesLine (line : List UInt8) (s t : HttpConn) : Prop where
  conn : t = { s with
    mReadBuf := t.mReadBuf
    mStartLine := s.mStartLine + line.length + 2
    mCheckedIndex := s.mStartLine + line.length + 2 }
  inside : s.mStartLine + line.length + 2 ≤ s.mReadIdx
  cstr : CStr t.mReadBuf s.mStartLine line
  other : ∀ j : Nat, j ≠ s.mStartLine + line.length → j ≠ s.mStartLine + line.length + 1 →
    t.mReadBuf[j]? = s.mReadBuf[j]?

theorem Ahead.byte {before rest : List UInt8} {i : Nat} {b : UInt8} (h : Ahead bytes s)
    (hbytes : bytes = before ++ rest) (hstart : s.mStartLine = before.length)
    (hb : rest[i]? = some b) : s.mReadBuf[s.mStartLine + i]? = some b := by
  have hi : i < rest.length := (List.getElem?_eq_some_iff.mp hb).1
  have hfits := h.fits
  have hlength : bytes.length = before.length + rest.length := by rw [hbytes, List.length_append]
  rw [h.buf _ (by omega), bufOf_getElem?_of_lt (by omega) (by omega), hbytes, hstart,
    List.getElem?_append_right (by omega), Nat.add_sub_cancel_left]
  exact hb

/-- **A pass that takes a line.** -/
theorem Ahead.pass (doRequest : HttpConn → HttpCode × HttpConn) (before line : List UInt8)
    {rest : List UInt8} (h : Ahead bytes s)
    (hbytes : bytes = before ++ (line ++ CR :: LF :: rest)) (hstart : s.mStartLine = before.length)
    (hstate : s.mCheckState ≠ .content) (hline : ∀ b ∈ line, b ≠ NUL) :
    ∃ t, TakesLine line s t ∧
      iteration doRequest ({ s with mCheckedIndex := s.mStartLine + line.length }, .lineOk) = (do
        let exit ← dispatch doRequest t .lineOk s.mStartLine
        return exit.decision) := by
  have hcr : s.mReadBuf[s.mStartLine + line.length]? = some CR :=
    h.byte hbytes hstart (by rw [List.getElem?_append_right (Nat.le_refl _), Nat.sub_self]; rfl)
  have hlf : s.mReadBuf[s.mStartLine + line.length + 1]? = some LF := by
    rw [Nat.add_assoc]
    refine h.byte hbytes hstart ?_
    rw [List.getElem?_append_right (by omega), Nat.add_sub_cancel_left]
    rfl
  have hinside : s.mStartLine + line.length + 2 ≤ s.mReadIdx := by
    rw [h.read, hbytes, hstart]
    simp only [List.length_append, List.length_cons]
    omega
  have hfits := h.fits
  have hread : s.mReadIdx ≤ READ_BUFFER_SIZE := by
    rw [h.read]
    omega
  obtain ⟨p, s', hparse, htaken⟩ := parseLine_ends
    (s := { s with mCheckedIndex := s.mStartLine + line.length }) hread
    (lineEnds_of_place (Or.inl rfl) hinside hcr hlf)
  obtain rfl : s.mStartLine + line.length = p := htaken.place_unique (Or.inl rfl) hcr hlf
  have hconn := htaken.erased.conn
  have hbuf := htaken.erased.bytes
  have hcstr : CStr s'.mReadBuf s.mStartLine line := by
    refine cstr_of_getElem? (fun k hk => ?_) (by rw [hbuf, if_pos (Or.inl rfl)]) hline
    rw [hbuf, if_neg (by omega), List.getElem?_eq_getElem hk]
    refine h.byte hbytes hstart ?_
    rw [List.getElem?_append_left hk, List.getElem?_eq_getElem hk]
  refine ⟨{ s' with mStartLine := s'.mCheckedIndex }, ⟨?_, hinside, hcstr, fun j hj hj' => ?_⟩, ?_⟩
  · rw [hconn]
  · show s'.mReadBuf[j]? = _
    rw [hbuf, if_neg (by omega)]
  · have hbody : ¬ AtBody { s with mCheckedIndex := s.mStartLine + line.length } .lineOk :=
      fun hbody => hstate hbody.1
    have hsame : s'.mStartLine = s.mStartLine := by rw [hconn]
    rw [iteration_of_whileCond doRequest ((whileCond_line hbody).trans hparse) hsame,
      readString_of_cstr hcstr, ok_bind]

/-- What is left of the stream behind the line. -/
theorem Ahead.of_buf {line : List UInt8} (h : Ahead bytes s) (htakes : TakesLine line s t)
    {u : HttpConn} (hstart : u.mStartLine = t.mStartLine) (hread : u.mReadIdx = t.mReadIdx)
    (hbuf : ∀ j : Nat, t.mStartLine ≤ j → u.mReadBuf[j]? = t.mReadBuf[j]?) : Ahead bytes u := by
  have hnext : t.mStartLine = s.mStartLine + line.length + 2 := by rw [htakes.conn]
  refine ⟨h.fits, ?_, fun j hj => ?_⟩
  · rw [hread, htakes.conn]
    exact h.read
  · rw [hbuf j (by omega), htakes.other j (by omega) (by omega), h.buf j (by omega)]

end Lines

/-! ## What a call knows -/

/-- The pointer is to the string `str`, before the next line. -/
def PointsTo (c : HttpConn) (ptr : Option Nat) (str : List UInt8) : Prop :=
  ∃ p, ptr = some p ∧ CStr c.mReadBuf p str ∧ p + str.length < c.mStartLine

/-- The request line and some header lines as they were sent. -/
def headOf (line : RequestLine) (seen : List (List UInt8)) : List UInt8 :=
  line.bytes ++ [CR, LF] ++ seen.flatMap (· ++ [CR, LF])

def lastHost (seen : List (List UInt8)) : Option (List UInt8) :=
  (seen.filter (hasName hostName)).getLast?

/-- What the parser knows of a request without a body when it has seen the
    request line and some header lines; `host` is what `m_host` was before.  The
    header lines themselves have become empty strings. -/
structure Knows (line : RequestLine) (host : Option Nat) (seen : List (List UInt8)) (c : HttpConn) :
    Prop where
  state : c.mCheckState = .header
  method : c.mMethod = .get
  length : c.mContentLength = 0
  linger : c.mLinger = seen.any keepsAlive
  url : PointsTo c c.mUrl (pathOf line.target)
  version : PointsTo c c.mVersion line.version
  host_named : ∀ h, lastHost seen = some h → PointsTo c c.mHost (valueOf hostName h)
  host_kept : lastHost seen = none → c.mHost = host
  overwritten : ∀ k < seen.length, PointsTo c (some (headOf line (seen.take k)).length) []

section Knows

variable {doRequest : HttpConn → HttpCode × HttpConn} {bytes : List UInt8} {line : RequestLine}
  {host : Option Nat} {seen : List (List UInt8)} {s t c : HttpConn}

theorem PointsTo.mono {ptr : Option Nat} {str : List UInt8} (h : PointsTo s ptr str)
    (hle : s.mStartLine ≤ c.mStartLine)
    (hbefore : ∀ j < s.mStartLine, c.mReadBuf[j]? = s.mReadBuf[j]?) : PointsTo c ptr str := by
  obtain ⟨p, hptr, hstr, hlt⟩ := h
  exact ⟨p, hptr, hstr.congr (fun j _ hj => hbefore j (by omega)), by omega⟩

/-- Knowledge is about the fields of the parser and the bytes before the next
    line. -/
theorem Knows.frame {i j : Nat} {buf : Vector UInt8 READ_BUFFER_SIZE}
    (h : Knows line host seen s) (hle : s.mStartLine ≤ j)
    (hbefore : ∀ k < s.mStartLine, buf[k]? = s.mReadBuf[k]?) :
    Knows line host seen { s with mCheckedIndex := i, mStartLine := j, mReadBuf := buf } := by
  have hmono {ptr : Option Nat} {str : List UInt8} (hpoints : PointsTo s ptr str) :
      PointsTo { s with mCheckedIndex := i, mStartLine := j, mReadBuf := buf } ptr str :=
    hpoints.mono hle hbefore
  exact ⟨h.state, h.method, h.length, h.linger, hmono h.url, hmono h.version,
    fun v hv => hmono (h.host_named v hv), h.host_kept, fun k hk => hmono (h.overwritten k hk)⟩

theorem Knows.same (h : Knows line host seen s) (hsame : SameParser s c) :
    Knows line host seen c := by
  rw [SameParser] at hsame
  rw [hsame]
  exact ⟨h.state, h.method, h.length, h.linger, h.url, h.version, h.host_named, h.host_kept,
    h.overwritten⟩

theorem headOf_snoc (line : RequestLine) (seen : List (List UInt8)) (h : List UInt8) :
    headOf line (seen ++ [h]) = headOf line seen ++ (h ++ [CR, LF]) := by
  simp [headOf]

theorem lastHost_snoc (seen : List (List UInt8)) (h : List UInt8) :
    lastHost (seen ++ [h]) = if hasName hostName h then some h else lastHost seen := by
  rw [lastHost, List.filter_append]
  cases hname : hasName hostName h with
  | true => simp [hname]
  | false => simp [hname, lastHost]

/-- One more header line, which is no Content-Length; its first byte is a NUL. -/
theorem Knows.snoc {h : List UInt8} {p : Nat} (hk : Knows line host seen c)
    (hname : hasName contentLengthName h = false) (hp : p = (headOf line seen).length)
    (hempty : PointsTo c (some p) [])
    (hvalue : hasName hostName h = true →
      PointsTo c (some (p + valueAt hostName h)) (valueOf hostName h)) :
    Knows line host (seen ++ [h]) (c.afterHeader ⟨p, h⟩) := by
  refine ⟨hk.state, hk.method, ?_, ?_, hk.url, hk.version, fun v hv => ?_, fun hnone => ?_,
    fun k hlt => ?_⟩
  · show (if hasName contentLengthName h then _ else c.mContentLength) = 0
    rw [hname, if_neg Bool.false_ne_true]
    exact hk.length
  · show (c.mLinger || keepsAlive h) = _
    rw [hk.linger]
    simp
  · rw [lastHost_snoc] at hv
    show PointsTo c (if hasName hostName h then some (p + valueAt hostName h) else c.mHost) _
    cases hhost : hasName hostName h with
    | true =>
        rw [hhost, if_pos rfl] at hv
        obtain rfl := Option.some.inj hv
        exact hvalue hhost
    | false =>
        rw [hhost, if_neg Bool.false_ne_true] at hv
        exact hk.host_named v hv
  · rw [lastHost_snoc] at hnone
    show (if hasName hostName h then some (p + valueAt hostName h) else c.mHost) = host
    cases hhost : hasName hostName h with
    | true =>
        rw [hhost, if_pos rfl] at hnone
        cases hnone
    | false =>
        rw [hhost, if_neg Bool.false_ne_true] at hnone
        exact hk.host_kept hnone
  · rw [List.length_append, List.length_singleton] at hlt
    rcases Nat.lt_succ_iff_lt_or_eq.mp hlt with hold | rfl
    · rw [List.take_append_of_le_length (Nat.le_of_lt hold)]
      exact hk.overwritten k hold
    · rw [List.take_left, ← hp]
      exact hempty

/-- A slot between two lines of the head. -/
structure AtHeader (bytes : List UInt8) (line : RequestLine) (host : Option Nat)
    (seen : List (List UInt8)) (s : HttpConn) : Prop where
  knows : Knows line host seen s
  start : s.mStartLine = (headOf line seen).length
  ahead : Ahead bytes s

theorem AtHeader.same (h : AtHeader bytes line host seen s) (hsame : SameParser s c) :
    AtHeader bytes line host seen c := by
  refine ⟨h.knows.same hsame, ?_, ?_⟩
  · rw [hsame]
    exact h.start
  · rw [hsame]
    exact ⟨h.ahead.fits, h.ahead.read, h.ahead.buf⟩

/-! ## The lines -/

/-- The slot a header line hands to `do_request`: without a length the line is
    taken for the end of a body of no bytes, and its first byte for the byte
    behind it. -/
theorem dispatch_header_bodyless (doRequest : HttpConn → HttpCode × HttpConn) (line : HeaderLine)
    (h : line.In s.mReadBuf) (hstate : s.mCheckState = .header) (hlength : s.mContentLength = 0)
    (hname : hasName contentLengthName line.bytes = false) (hle : s.mCheckedIndex ≤ s.mReadIdx)
    (hlt : s.mReadIdx < READ_BUFFER_SIZE) :
    ∃ htext : line.text < READ_BUFFER_SIZE, dispatch doRequest s .lineOk line.text
      = .ok (returnDoRequest doRequest
          { s.afterHeader line with mReadBuf := s.mReadBuf.set line.text NUL }) := by
  have htext : line.text < READ_BUFFER_SIZE := by
    have := h.2.length_lt
    omega
  have hzero : (s.afterHeader line).mContentLength = 0 := by
    show (if hasName contentLengthName line.bytes then _ else s.mContentLength) = 0
    rw [hname, if_neg Bool.false_ne_true, hlength]
  have hready : BodyReady (s.afterHeader line) := by
    have hint : (0 : Int32).toInt = 0 := rfl
    rw [bodyReady_iff (s := s.afterHeader line) hle hlt, hzero]
    left
    show (0 : Int32).toInt + (s.mCheckedIndex : Int) ≤ s.mReadIdx
    omega
  refine ⟨htext, ?_⟩
  rw [dispatch_header doRequest line h hstate]
  refine caseContent_stores doRequest hready ?_
  rw [hzero]
  show storeAt s.mReadBuf ((line.text : Int) + 0) NUL = _
  rw [Int.add_zero, storeAt, if_pos (by omega), Int.toNat_natCast, store_of_lt htext]

/-- What the call for a header line knows. -/
theorem AtHeader.called {h : List UInt8} (hs : AtHeader bytes line host seen s)
    (htakes : TakesLine h s t) (hname : hasName contentLengthName h = false)
    (hlt : s.mStartLine < READ_BUFFER_SIZE) :
    AtHeader bytes line host (seen ++ [h])
      { t.afterHeader ⟨s.mStartLine, h⟩ with mReadBuf := t.mReadBuf.set s.mStartLine NUL } := by
  have hnext : t.mStartLine = s.mStartLine + h.length + 2 := by rw [htakes.conn]
  have hknows : Knows line host seen { t with mReadBuf := t.mReadBuf.set s.mStartLine NUL } := by
    have hbefore : ∀ j < s.mStartLine, (t.mReadBuf.set s.mStartLine NUL)[j]? = s.mReadBuf[j]? := by
      intro j hj
      rw [Vector.getElem?_set_ne hlt (by omega), htakes.other j (by omega) (by omega)]
    have hle : s.mStartLine ≤ s.mStartLine + h.length + 2 := by omega
    rw [htakes.conn]
    exact hs.knows.frame hle hbefore
  refine ⟨hknows.snoc hname hs.start ⟨_, rfl, Vector.getElem?_set_self hlt, ?_⟩ fun hhost => ?_,
    ?_, ?_⟩
  · show s.mStartLine + 0 < t.mStartLine
    omega
  · -- the value stands behind the name, so the NUL over the first byte leaves it alone
    have hat : 5 ≤ valueAt hostName h := Nat.le_add_right _ _
    have hend := valueAt_add_length hhost
    refine ⟨_, rfl, (cstr_valueOf htakes.cstr hhost).set hlt NUL (Or.inl (by omega)), ?_⟩
    show s.mStartLine + valueAt hostName h + (valueOf hostName h).length < t.mStartLine
    omega
  · show t.mStartLine = _
    rw [hnext, headOf_snoc, List.length_append, ← hs.start]
    simp only [List.length_append, List.length_cons, List.length_nil]
    omega
  · refine hs.ahead.of_buf htakes rfl rfl (fun j hj => ?_)
    exact Vector.getElem?_set_ne hlt (by omega)

/-- A header line: one call. -/
theorem AtHeader.header (doRequest : HttpConn → HttpCode × HttpConn) {h rest : List UInt8}
    (hs : AtHeader bytes line host seen s)
    (hbytes : bytes = headOf line seen ++ (h ++ CR :: LF :: rest)) (hne : h ≠ [])
    (hnul : ∀ b ∈ h, b ≠ NUL) (hname : hasName contentLengthName h = false) :
    ∃ called, AtHeader bytes line host (seen ++ [h]) called ∧
      iteration doRequest ({ s with mCheckedIndex := s.mStartLine + h.length }, .lineOk)
        = .ok (.done ⟨(doRequest called).1, (doRequest called).2, [called]⟩) := by
  have hstate : s.mCheckState ≠ .content := by
    rw [hs.knows.state]
    decide
  obtain ⟨t, htakes, hpass⟩ := hs.ahead.pass doRequest _ h hbytes hs.start hstate hnul
  have hread := hs.ahead.read
  have hfits := hs.ahead.fits
  obtain ⟨htext, hdispatch⟩ := dispatch_header_bodyless doRequest (s := t) ⟨s.mStartLine, h⟩
    ⟨hne, htakes.cstr⟩ (by rw [htakes.conn]; exact hs.knows.state)
    (by rw [htakes.conn]; exact hs.knows.length) hname
    (by rw [htakes.conn]; exact htakes.inside) (by rw [htakes.conn]; show s.mReadIdx < _; omega)
  refine ⟨_, hs.called htakes hname htext, ?_⟩
  rw [hpass, hdispatch]
  rfl

/-- The empty line: one more. -/
theorem AtHeader.empty (doRequest : HttpConn → HttpCode × HttpConn) {rest : List UInt8}
    (hs : AtHeader bytes line host seen s) (hbytes : bytes = headOf line seen ++ CR :: LF :: rest) :
    ∃ called, Knows line host seen called ∧
      iteration doRequest ({ s with mCheckedIndex := s.mStartLine }, .lineOk)
        = .ok (.done ⟨(doRequest called).1, (doRequest called).2, [called]⟩) := by
  have hstate : s.mCheckState ≠ .content := by
    rw [hs.knows.state]
    decide
  obtain ⟨t, htakes, hpass⟩ := hs.ahead.pass doRequest _ [] hbytes hs.start hstate
    (fun b hb => by cases hb)
  have hknows : Knows line host seen t := by
    rw [htakes.conn]
    exact hs.knows.frame (by omega) (fun j hj => htakes.other j (by omega) (by omega))
  refine ⟨t, hknows, ?_⟩
  rw [dispatch_empty_line doRequest hknows.state htakes.cstr hknows.length] at hpass
  exact hpass

/-- **Header lines and the empty line.**  One call of `do_request` for each. -/
theorem AtHeader.calls (hdo : LeavesParser doRequest) {headers : List (List UInt8)}
    {rest : List UInt8} (hs : AtHeader bytes line host seen s)
    (hbytes : bytes = headOf line (seen ++ headers) ++ CR :: LF :: rest)
    (htext : ∀ h ∈ headers, h ≠ [] ∧ ∀ b ∈ h, b ≠ NUL)
    (hname : ∀ h ∈ headers, hasName contentLengthName h = false) :
    ∃ calls final, linePasses doRequest s ((headers ++ [[]]).map List.length) = .ok (calls, final) ∧
      calls.length = headers.length + 1 ∧
      ∀ i c, calls[i]? = some c → Knows line host (seen ++ headers.take (i + 1)) c := by
  induction headers generalizing s seen with
  | nil =>
      rw [List.append_nil] at hbytes
      obtain ⟨called, hknows, hpass⟩ := hs.empty doRequest hbytes
      refine ⟨[called], (doRequest called).2, linePasses_call hpass rfl, rfl, fun i c hc => ?_⟩
      rw [List.take_nil, List.append_nil]
      cases i with
      | zero =>
          obtain rfl := Option.some.inj hc
          exact hknows
      | succ i => cases hc
  | cons h headers ih =>
      have hsplit : seen ++ h :: headers = seen ++ [h] ++ headers := by simp
      obtain ⟨rest', hbytes'⟩ :
          ∃ rest', bytes = headOf line seen ++ (h ++ CR :: LF :: rest') := by
        refine ⟨headers.flatMap (· ++ [CR, LF]) ++ CR :: LF :: rest, ?_⟩
        rw [hbytes]
        simp [headOf]
      obtain ⟨called, hcalled, hpass⟩ := hs.header doRequest hbytes' (htext h List.mem_cons_self).1
        (htext h List.mem_cons_self).2 (hname h List.mem_cons_self)
      -- the next line is dispatched on what `do_request` leaves
      obtain ⟨calls, final, hcalls, hlength, hknows⟩ := ih (hcalled.same (hdo.keeps called))
        (by rw [← hsplit]; exact hbytes) (fun l hl => htext l (List.mem_cons_of_mem _ hl))
        (fun l hl => hname l (List.mem_cons_of_mem _ hl))
      refine ⟨called :: calls, final, linePasses_call hpass hcalls, by simp [hlength],
        fun i c hc => ?_⟩
      cases i with
      | zero =>
          obtain rfl := Option.some.inj hc
          exact hcalled.knows
      | succ i =>
          have hk := hknows i c hc
          rw [List.append_assoc] at hk
          exact hk

/-- What an accepted request line says. -/
theorem LineAccepted.knows {t s' : HttpConn} (h : t.LineAccepted 0 line.toLineParts s')
    (hlength : t.mContentLength = 0) (hlinger : t.mLinger = false)
    (hnext : t.mStartLine = line.bytes.length + 2) : Knows line t.mHost [] s' := by
  have hconn := h.conn
  have hstart : s'.mStartLine = t.mStartLine := by rw [hconn]
  have hpath := pathAt_add_length line.target
  have hsize := line.length_bytes
  refine ⟨?_, ?_, ?_, ?_, ⟨_, by rw [hconn], h.url, by omega⟩, ⟨_, by rw [hconn], h.version, by omega⟩,
    fun v hv => ?_, fun _ => ?_, fun k hk => absurd hk (Nat.not_lt_zero k)⟩
  · rw [hconn]
  · rw [hconn]
  · rw [hconn]
    exact hlength
  · rw [hconn]
    exact hlinger
  · cases hv
  · rw [hconn]

end Knows

/-! ## The message -/

end HttpConn

end WebServer
