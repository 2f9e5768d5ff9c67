/-
  WebServer.HttpConn.Basic

  The data model of http_conn.h: the enumerations of the two state machines,
  the fields of `http_conn`, `init()` and the non-blocking `read()`.

  `m_read_buf` is a `Vector UInt8 READ_BUFFER_SIZE` and pointers into it are
  offsets (`none` is the null pointer).  The indices are `int` in the source;
  nothing ever decrements them, so they are `Nat` here.  `m_content_length`
  holds whatever a client sent and is a 32-bit `Int32`.

  Output on the terminal is left out, what `printf("%s", ...)` reads is not:
  it runs to the next NUL like every other string function.  The one in
  `read()` begins at the first byte of `m_read_buf`, and may run on into
  `m_read_idx`, the member behind it.
-/

import WebServer.Lib.CString
import WebServer.Lib.Loop

namespace WebServer

open WebServer.Lib

/-! ## Enumerations and fields -/

def READ_BUFFER_SIZE : Nat := 2048

inductive Method where
  | get | post | head | put | delete | trace | options | connect
deriving DecidableEq, Repr

/-- States of the main machine, `CHECK_STATE_*`. -/
inductive CheckState where
  | requestLine | header | content
deriving DecidableEq, Repr

/-- States of the line machine, `LINE_*`. -/
inductive LineStatus where
  | lineOk | lineBad | lineOpen
deriving DecidableEq, Repr

inductive HttpCode where
  | noRequest | getRequest | badRequest | noResource | forbiddenRequest | fileRequest
  | internalError | closedConnection
deriving DecidableEq, Repr

/-- `sockaddr_in`, as far as it identifies a client. -/
structure SockaddrIn where
  sinPort : UInt16
  sinAddr : UInt32
deriving DecidableEq, Repr

structure HttpConn where
  mCheckedIndex : Nat
  mStartLine : Nat
  mUrl : Option Nat
  mVersion : Option Nat
  mMethod : Method
  mHost : Option Nat
  mLinger : Bool
  mContentLength : Int32
  mCheckState : CheckState
  mSockfd : Int
  mAddress : SockaddrIn
  mReadBuf : Vector UInt8 READ_BUFFER_SIZE
  mReadIdx : Nat
deriving DecidableEq

namespace HttpConn

/-- `init()`: everything but `m_host`, `m_content_length` and the socket. -/
def init (s : HttpConn) : HttpConn :=
  { s with
    mCheckState := .requestLine
    mCheckedIndex := 0
    mStartLine := 0
    mReadIdx := 0
    mMethod := .get
    mUrl := none
    mVersion := none
    mLinger := false
    mReadBuf := Vector.replicate READ_BUFFER_SIZE NUL }

/-- `init(sockfd, addr)`, what it does to the slot; registering the socket and
    counting the user are steps of the server. -/
def initConn (s : HttpConn) (sockfd : Int) (addr : SockaddrIn) : HttpConn :=
  init { s with mSockfd := sockfd, mAddress := addr }

/-- A slot of zeros. -/
def zeroSlot : HttpConn where
  mCheckedIndex := 0
  mStartLine := 0
  mUrl := none
  mVersion := none
  mMethod := .get
  mHost := none
  mLinger := false
  mContentLength := 0
  mCheckState := .requestLine
  mSockfd := 0
  mAddress := ⟨0, 0⟩
  mReadBuf := Vector.replicate READ_BUFFER_SIZE NUL
  mReadIdx := 0

/-- `get_line()`, as an offset into `m_read_buf`. -/
def getLine (s : HttpConn) : Nat := s.mStartLine

end HttpConn

/-! ## read() -/

inductive Errno where
  | eagain | ewouldblock | other
deriving DecidableEq, Repr

/-- What one call of `recv` answers. -/
inductive RecvAnswer where
  | data (bytes : List UInt8)
  | closed
  | error (errno : Errno)
deriving DecidableEq, Repr

/-- What every answer of `recv` to a request for `len` bytes keeps to: data is
    at least one and at most `len` bytes. -/
def RecvAnswer.Fits (len : Nat) : RecvAnswer → Prop
  | .data bytes => 1 ≤ bytes.length ∧ bytes.length ≤ len
  | .closed => True
  | .error _ => True

/-- The same where a request for no bytes is taken to be answered with 0; on an
    empty receive queue it may also be answered with `EAGAIN`. -/
def RecvAnswer.Respects (len : Nat) : RecvAnswer → Prop
  | .data bytes => 1 ≤ bytes.length ∧ bytes.length ≤ len
  | .closed => True
  | .error _ => len ≠ 0

def RecvAnswer.bytes : RecvAnswer → List UInt8
  | .data bytes => bytes
  | .closed => []
  | .error _ => []

/-- The answers of the `recv` calls of one `read()` that starts with room for
    `len` bytes, under a contract for the single answer.  Whatever is not data
    is the last of them. -/
def RecvAnswer.AllMeet (contract : Nat → RecvAnswer → Prop) : Nat → List RecvAnswer → Prop
  | _, [] => True
  | len, .data bytes :: answers =>
      contract len (.data bytes) ∧ AllMeet contract (len - bytes.length) answers
  | len, answer :: answers => contract len answer ∧ answers = []

abbrev RecvAnswer.AllFit : Nat → List RecvAnswer → Prop := RecvAnswer.AllMeet RecvAnswer.Fits

abbrev RecvAnswer.AllRespect : Nat → List RecvAnswer → Prop :=
  RecvAnswer.AllMeet RecvAnswer.Respects

namespace HttpConn

/-- The four bytes of an `int` in memory, the lowest first. -/
def intBytes (n : Nat) : Vector UInt8 4 :=
  #v[UInt8.ofNat n, UInt8.ofNat (n >>> 8), UInt8.ofNat (n >>> 16), UInt8.ofNat (n >>> 24)]

/-- What `printf("%s", m_read_buf)` prints; without a NUL in `m_read_buf` it
    goes on with the bytes of `m_read_idx`. -/
def printReadBuf (s : HttpConn) : Except Fault (List UInt8) :=
  match readString s.mReadBuf 0 with
  | .ok text => .ok text
  | .error _ => do
      let rest ← readString (intBytes s.mReadIdx) 0
      return s.mReadBuf.toList ++ rest

/-- The loop of `read()` on the answers of successive `recv` calls; `none` when
    they are used up before it ends. -/
def readLoop (s : HttpConn) : List RecvAnswer → Option (Except Fault (Bool × HttpConn))
  | [] => none
  | .error errno :: _ =>
      if errno = .eagain ∨ errno = .ewouldblock then
        -- nothing left to read: `break`, and the `printf` behind the loop
        some (do
          let _ ← s.printReadBuf
          return (true, s))
      else
        some (.ok (false, s))
  -- `bytes_read == 0`
  | .closed :: _ => some (.ok (false, s))
  | .data bytes :: answers =>
      -- `recv` stores behind `m_read_idx`
      match storeAll s.mReadBuf s.mReadIdx bytes with
      | .error fault => some (.error fault)
      | .ok buf =>
          readLoop { s with mReadBuf := buf, mReadIdx := s.mReadIdx + bytes.length } answers

def read (s : HttpConn) (answers : List RecvAnswer) :
    Option (Except Fault (Bool × HttpConn)) :=
  if s.mReadIdx ≥ READ_BUFFER_SIZE then some (.ok (false, s)) else readLoop s answers

/-- A `read()` that returns true takes `s` to `s'` and receives `chunk`. -/
def Reads (s : HttpConn) (chunk : List UInt8) (s' : HttpConn) : Prop :=
  ∃ answers, RecvAnswer.AllRespect (READ_BUFFER_SIZE - s.mReadIdx) answers ∧
    answers.flatMap RecvAnswer.bytes = chunk ∧ s.read answers = some (.ok (true, s'))

end HttpConn

end WebServer
