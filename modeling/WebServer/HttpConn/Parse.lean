/-
  WebServer.HttpConn.Parse

  The parser of http_conn.cpp, function by function: the line machine
  `parse_line`, the three handlers of the main machine, the `switch` that
  dispatches a line to them, the loop of `process_read` and `process`.

  A function returns the connection it leaves together with its result, or the
  fault it runs into.  `do_request` has an empty body in the source and is a
  parameter here; every place that calls it returns its result at once, so a
  call is recorded with the connection it was made on.
-/

import WebServer.HttpConn.Basic

namespace WebServer

open WebServer.Lib

namespace HttpConn

/-- The separators of `strpbrk` and `strspn`, `" \t"`. -/
def blanks : List UInt8 := ascii " \t"

theorem mem_blanks {b : UInt8} : b ∈ blanks ↔ b = 32 ∨ b = 9 := by
  show b ∈ [32, 9] ↔ _
  rw [List.mem_cons, List.mem_singleton]

/-! ## The line machine -/

/-- `parse_line`.  Every path through the body of the `for` loop returns, so
    the increment never runs and the loop is a test. -/
def parseLine (s : HttpConn) : Except Fault (LineStatus × HttpConn) :=
  if s.mCheckedIndex < s.mReadIdx then do
    let temp ← load s.mReadBuf s.mCheckedIndex
    if temp = CR then
      -- the last byte so far: the LF may still come
      if s.mCheckedIndex + 1 = s.mReadIdx then
        return (.lineOpen, s)
      else
        let follow ← load s.mReadBuf (s.mCheckedIndex + 1)
        if follow = LF then
          let buf ← store s.mReadBuf s.mCheckedIndex NUL
          let buf ← store buf (s.mCheckedIndex + 1) NUL
          return (.lineOk, { s with mReadBuf := buf, mCheckedIndex := s.mCheckedIndex + 2 })
        else
          return (.lineBad, s)
    else if temp = LF then
      -- its CR was the last byte of an earlier chunk
      if s.mCheckedIndex > 1 then
        let before ← load s.mReadBuf (s.mCheckedIndex - 1)
        if before = CR then
          let buf ← store s.mReadBuf (s.mCheckedIndex - 1) NUL
          let buf ← store buf s.mCheckedIndex NUL
          return (.lineOk, { s with mReadBuf := buf, mCheckedIndex := s.mCheckedIndex + 1 })
        else
          return (.lineBad, s)
      else
        return (.lineBad, s)
    else
      -- `return LINE_OPEN` stands inside the loop
      return (.lineOpen, s)
  else
    -- and `return LINE_OK` after it
    return (.lineOk, s)

/-! ## The handlers -/

/-- `*p++ = '\0'`: the buffer and the pointer afterwards. -/
def cutAt (buf : Vector UInt8 READ_BUFFER_SIZE) :
    Option Nat → Except Fault (Vector UInt8 READ_BUFFER_SIZE × Nat)
  | none => .error .nullDeref
  | some p => do
      let buf ← store buf p NUL
      return (buf, p + 1)

/-- The target, from `m_url` on: `http://host` is skipped. -/
def skipHost (buf : Vector UInt8 READ_BUFFER_SIZE) (url : Nat) :
    Except Fault (Option Nat) := do
  if ← strncasecmp buf url (ascii "http://") then
    strchr buf (url + 7) 47
  else
    return some url

/-- `!m_url || m_url[0] != '/'` -/
def notPath (buf : Vector UInt8 READ_BUFFER_SIZE) : Option Nat → Except Fault Bool
  | none => return true
  | some url => do
      let b ← load buf url
      return b != 47

/-- `parse_request_line` from the target on. -/
def parseTarget (s : HttpConn) (url : Nat) : Except Fault (HttpCode × HttpConn) := do
  let target ← skipHost s.mReadBuf url
  let s := { s with mUrl := target }
  if ← notPath s.mReadBuf target then
    return (.badRequest, s)
  return (.noRequest, { s with mCheckState := .header })

/-- `parse_request_line` from the version on. -/
def parseVersion (s : HttpConn) (url : Nat) : Except Fault (HttpCode × HttpConn) := do
  let blank ← strpbrk s.mReadBuf url blanks
  let s := { s with mVersion := blank }
  if blank = none then
    return (.badRequest, s)
  let (buf, version) ← cutAt s.mReadBuf blank
  let s := { s with mReadBuf := buf, mVersion := some version }
  if !(← strcasecmp s.mReadBuf version (ascii "HTTP/1.1")) then
    return (.badRequest, s)
  parseTarget s url

def parseRequestLine (s : HttpConn) (text : Nat) : Except Fault (HttpCode × HttpConn) := do
  -- the result of this search is written through without a test
  let blank ← strpbrk s.mReadBuf text blanks
  let (buf, url) ← cutAt s.mReadBuf blank
  let s := { s with mReadBuf := buf, mUrl := some url }
  -- `text` ends at the blank that was cut off
  if !(← strcasecmp s.mReadBuf text (ascii "GET")) then
    return (.badRequest, s)
  parseVersion { s with mMethod := .get } url

/-- `text += n; text += strspn(text, " \t")` -/
def skipName (s : HttpConn) (text n : Nat) : Except Fault Nat := do
  let run ← strspn s.mReadBuf (text + n) blanks
  return text + n + run

def parseHeaders (s : HttpConn) (text : Nat) : Except Fault (HttpCode × HttpConn) := do
  if (← load s.mReadBuf text) = NUL then
    -- the empty line: a body follows, or the request is complete
    if s.mContentLength ≠ 0 then
      return (.noRequest, { s with mCheckState := .content })
    else
      return (.getRequest, s)
  else if ← strncasecmp s.mReadBuf text (ascii "Connection:") then
    let value ← skipName s text 11
    if ← strcasecmp s.mReadBuf value (ascii "keep-alive") then
      return (.noRequest, { s with mLinger := true })
    else
      return (.noRequest, s)
  else if ← strncasecmp s.mReadBuf text (ascii "Content-Length:") then
    let value ← skipName s text 15
    -- `long` to `int`
    let length ← atol s.mReadBuf value
    return (.noRequest, { s with mContentLength := Int32.ofInt length })
  else if ← strncasecmp s.mReadBuf text (ascii "Host:") then
    let value ← skipName s text 5
    return (.noRequest, { s with mHost := some value })
  else
    -- an unknown header is printed
    let _ ← readString s.mReadBuf text
    return (.noRequest, s)

/-- `parse_content`; the sum of two `int`s wraps. -/
def parseContent (s : HttpConn) (text : Nat) : Except Fault (HttpCode × HttpConn) :=
  if Int32.ofNat s.mReadIdx ≥ s.mContentLength + Int32.ofNat s.mCheckedIndex then do
    let buf ← storeAt s.mReadBuf (text + s.mContentLength.toInt) NUL
    return (.getRequest, { s with mReadBuf := buf })
  else
    return (.noRequest, s)

/-! ## The main machine -/

/-- What `process_read` returns, with the connections `do_request` was called
    on. -/
structure Returned where
  code : HttpCode
  conn : HttpConn
  requests : List HttpConn

/-- How the `switch` is left: by a `return`, or by `break` with the value of
    `ret` and `line_status`. -/
inductive SwitchExit where
  | ret (r : Returned)
  | brk (ret : HttpCode) (lineStatus : LineStatus) (conn : HttpConn)

section MainMachine

variable (doRequest : HttpConn → HttpCode × HttpConn)

/-- `return do_request();` -/
def returnDoRequest (s : HttpConn) : SwitchExit :=
  .ret ⟨(doRequest s).1, (doRequest s).2, [s]⟩

/-- `case CHECK_STATE_CONTENT` -/
def caseContent (s : HttpConn) (text : Nat) : Except Fault SwitchExit := do
  let (ret, s) ← parseContent s text
  if ret = .getRequest then
    return returnDoRequest doRequest s
  else
    return .brk ret .lineOpen s

/-- `switch(m_check_state)`.  The header case has no `break`: a header line
    goes on into the content case, with the same `text`.  The `default` case
    is for values the enumeration does not have. -/
def dispatch (s : HttpConn) (lineStatus : LineStatus) (text : Nat) :
    Except Fault SwitchExit :=
  match s.mCheckState with
  | .requestLine => do
      let (ret, s) ← parseRequestLine s text
      if ret = .badRequest then
        return .ret ⟨.badRequest, s, []⟩
      else
        return .brk ret lineStatus s
  | .header => do
      let (ret, s) ← parseHeaders s text
      if ret = .badRequest then
        return .ret ⟨.badRequest, s, []⟩
      else if ret = .getRequest then
        return returnDoRequest doRequest s
      else
        -- no `break`
        caseContent doRequest s text
  | .content => caseContent doRequest s text

/-- The condition of the `while`: it holds when the status it leaves is
    `LINE_OK`. -/
def whileCond (s : HttpConn) (lineStatus : LineStatus) :
    Except Fault (LineStatus × HttpConn) :=
  if s.mCheckState = .content ∧ lineStatus = .lineOk then
    return (lineStatus, s)
  else
    parseLine s

/-- One pass through the `while` of `process_read`. -/
def iteration : HttpConn × LineStatus →
    Except Fault (Iter (HttpConn × LineStatus) Returned)
  | (s, lineStatus) => do
      let (lineStatus, s) ← whileCond s lineStatus
      if lineStatus ≠ .lineOk then
        return .done ⟨.noRequest, s, []⟩
      let text := s.getLine
      let s := { s with mStartLine := s.mCheckedIndex }
      let _ ← readString s.mReadBuf text
      match ← dispatch doRequest s lineStatus text with
      | .ret r => return .done r
      | .brk _ lineStatus s => return .next (s, lineStatus)

/-- `process_read`, cut off after `fuel` passes. -/
def processRead (fuel : Nat) (s : HttpConn) : Option (Except Fault Returned) :=
  loop (iteration doRequest) fuel (s, .lineOk)

/-- `process_read()` called on `s` ends with `out`. -/
def ProcessRead (s : HttpConn) (out : Except Fault Returned) : Prop :=
  Returns (iteration doRequest) (s, .lineOk) out

/-- What `process()` leaves: the connection, the calls of `do_request`, and
    whether the socket was armed again by `modfd`. -/
structure Processed where
  conn : HttpConn
  requests : List HttpConn
  rearmed : Bool

/-- `process`, each of its two calls of `process_read` cut off after `fuel`
    passes. -/
def process (fuel : Nat) (s : HttpConn) : Option (Except Fault Processed) := do
  match ← processRead doRequest fuel s with
  | .error fault => return .error fault
  | .ok first =>
      -- `modfd` and return
      if first.code = .noRequest then
        return .ok ⟨first.conn, first.requests, true⟩
      -- a second `process_read()`, whose result is dropped
      match ← processRead doRequest fuel first.conn with
      | .error fault => return .error fault
      | .ok second => return .ok ⟨second.conn, first.requests ++ second.requests, false⟩

end MainMachine

/-- A `do_request` that finds no file. -/
def noFile (s : HttpConn) : HttpCode × HttpConn := (.noResource, s)

end HttpConn

end WebServer
