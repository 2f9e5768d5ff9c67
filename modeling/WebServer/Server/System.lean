/-
  WebServer.Server.System

  The whole server, from the bytes of its clients on.

  `WebServer.Server.Basic` leaves open what depends on those bytes: what
  `read()` and `process_read()` return is in its labels.  Here the slots of
  `users` are real ones.  Clients send into the receive queues of their
  sockets, the main thread runs `read()` on what `recv` gives it of them, and
  a worker runs `process()` on the slot itself, one pass of the loop of
  `process_read()` at a time, while everybody else goes on.  A fault ends the
  program, of a worker as well as of the main thread, which may leave `users`
  with what `accept` has returned.

  Of `recv` little is assumed.  When a `read()` has filled its buffer it asks
  for no bytes; that call may answer 0 or an error, `EAGAIN` only if nothing is
  left in the receive queue.

  `Inv` describes every state such a server can be in: a slot holds what its
  own client has sent, up to what the kernel still holds, and its parser is
  where `init()` put it; a worker that has a slot is at its first pass.  So
  little is left of what a step could do in general (`Move`).
-/

import WebServer.Server.Progress
import WebServer.HttpConn.Session

namespace WebServer

open WebServer.Lib WebServer.Server

/-- `close_conn()`, what it does to the slot. -/
def HttpConn.closeConn (s : HttpConn) : HttpConn := { s with mSockfd := -1 }

namespace System

/-! ## State -/

/-- The call of `process_read()` that a worker in `process()` is in. -/
inductive Call where
  | first (lineStatus : LineStatus)
  /-- the second one, the first having returned `code` -/
  | second (code : HttpCode) (lineStatus : LineStatus)
deriving DecidableEq, Repr

/-- `process()` begins with a `process_read()`, and that with `LINE_OK`. -/
def Call.start : Call := .first .lineOk

def Call.lineStatus : Call → LineStatus
  | .first lineStatus | .second _ lineStatus => lineStatus

/-- The same call, one pass later. -/
def Call.goOn (lineStatus : LineStatus) : Call → Call
  | .first _ => .first lineStatus
  | .second code _ => .second code lineStatus

structure State (W : Type*) where
  server : Server.State W
  users : Int → HttpConn
  /-- what has arrived at a socket and no `recv` has taken -/
  inbox : Int → List UInt8
  /-- what the peer of a socket has sent since it was accepted; no step reads it -/
  sent : Int → List UInt8
  call : W → Call
  /-- what ended the program -/
  fault : Option Fault

/-- Before the first `epoll_wait`; the slots are whatever the memory held. -/
def start (W : Type*) (cfg : Config) (users : Int → HttpConn) : State W where
  server := Server.start W cfg fun i => (users i).mSockfd
  users := users
  inbox := fun _ => []
  sent := fun _ => []
  call := fun _ => .start
  fault := none

/-! ## Steps -/

inductive Step (W : Type*) where
  /-- a client completes its handshake -/
  | arrive
  /-- the client of an open connection sends something -/
  | send (fd : Int) (bytes : List UInt8)
  | epollWait (events : List Event)
  /-- the main thread handles an event of `listenfd`; the client may have sent
      something before `accept` returns -/
  | accept (connfd : Int) (addr : SockaddrIn) (early : List UInt8)
  /-- the main thread handles an event of a connection -/
  | handle (answers : List RecvAnswer)
  /-- a step of a worker in `run()`, outside `process()` -/
  | run (l : ThreadPool.Step Int Unit W)
  /-- a worker in `process()` makes one pass through the loop of
      `process_read()` -/
  | pass (w : W)

/-- What the calls of `recv` of one `read()` with room for `len` bytes may
    answer: they take what is in the receive queue, and block only when nothing
    is left there.  Without room no call is made. -/
def CanReceive (inbox : List UInt8) (len : Nat) (answers : List RecvAnswer) : Prop :=
  RecvAnswer.AllFit len answers ∧ (len = 0 → answers = []) ∧
    answers.flatMap RecvAnswer.bytes <+: inbox ∧
    ((RecvAnswer.lastOf answers).blocks = true → answers.flatMap RecvAnswer.bytes = inbox)

instance (inbox : List UInt8) (len : Nat) (answers : List RecvAnswer) :
    Decidable (CanReceive inbox len answers) :=
  inferInstanceAs (Decidable (_ ∧ (_ → _) ∧ _ ∧ (_ → _)))

section Steps

variable {W : Type*} [DecidableEq W]

def accept (cfg : Config) (s : State W) (connfd : Int) (addr : SockaddrIn)
    (early : List UInt8) : Option (State W) :=
  if s.server.batch.head?.map Event.fd = some cfg.listenfd then
    (Server.step cfg s.server (.handle connfd false)).map fun server =>
      if s.server.mUserCount ≥ MAX_FD then
        { s with server := server }
      else if InUsers connfd then
        { s with
          server := server
          users := Function.update s.users connfd ((s.users connfd).initConn connfd addr)
          inbox := Function.update s.inbox connfd early
          sent := Function.update s.sent connfd early }
      else
        -- `users[connfd]`, with the -1 of a failed `accept` or behind the end
        { s with server := server, fault := some .outOfBounds }
  else
    none

/-- `if (users[sockfd].read()) ... else users[sockfd].close_conn();` -/
def readConn (cfg : Config) (s : State W) (sockfd : Int) (answers : List RecvAnswer) :
    Option (State W) :=
  let conn := s.users sockfd
  let inbox := s.inbox conn.mSockfd
  if CanReceive inbox (READ_BUFFER_SIZE - conn.mReadIdx) answers then
    match conn.read answers with
    | none => none
    | some (.error fault) => some { s with fault := some fault }
    | some (.ok (readOk, conn')) =>
        (Server.step cfg s.server (.handle 0 readOk)).map fun server =>
          { s with
            server := server
            users := Function.update s.users sockfd (if readOk then conn' else conn'.closeConn)
            inbox := Function.update s.inbox conn.mSockfd
              (inbox.drop (answers.flatMap RecvAnswer.bytes).length) }
  else
    none

def handle (cfg : Config) (s : State W) (answers : List RecvAnswer) : Option (State W) :=
  match s.server.batch with
  | [] => none
  | ev :: _ =>
      if ev.fd = cfg.listenfd then
        none
      else if ¬ InUsers ev.fd then
        some { s with fault := some .outOfBounds }
      else if ev.flags.hangup then
        (Server.step cfg s.server (.handle 0 false)).map fun server =>
          { s with
            server := server
            users := Function.update s.users ev.fd (s.users ev.fd).closeConn }
      else if ev.flags.epollin then
        readConn cfg s ev.fd answers
      else
        -- `write()` does nothing and returns true
        (Server.step cfg s.server (.handle 0 true)).map fun server => { s with server := server }

/-- What follows a `process_read()` of `process()` that has returned `code`:
    `modfd` and the end, a second call, or the end. -/
def returned (cfg : Config) (s : State W) (w : W) (i : Int) (code : HttpCode) :
    Option (State W) :=
  match s.call w with
  | .first _ =>
      if code = .noRequest then
        (Server.step cfg s.server (.process w i .noRequest)).map fun server =>
          { s with server := server, call := Function.update s.call w .start }
      else
        some { s with call := Function.update s.call w (.second code .lineOk) }
  | .second first _ =>
      (Server.step cfg s.server (.process w i first)).map fun server =>
        { s with server := server, call := Function.update s.call w .start }

variable (doRequest : HttpConn → HttpCode × HttpConn)

def pass (cfg : Config) (s : State W) (w : W) : Option (State W) :=
  match s.server.pool.worker w with
  | .popped (some i) =>
      match HttpConn.iteration doRequest (s.users i, (s.call w).lineStatus) with
      | .error fault => some { s with fault := some fault }
      | .ok (.next (conn, lineStatus)) =>
          some { s with
            users := Function.update s.users i conn
            call := Function.update s.call w ((s.call w).goOn lineStatus) }
      | .ok (.done r) => returned cfg { s with users := Function.update s.users i r.conn } w i r.code
  | _ => none

def step (cfg : Config) (s : State W) (l : Step W) : Option (State W) :=
  if s.fault.isSome then
    none
  else
    match l with
    | .arrive => (Server.step cfg s.server .arrive).map fun server => { s with server := server }
    | .send fd bytes =>
        if fd ∈ s.server.conns then
          some { s with
            inbox := Function.update s.inbox fd (s.inbox fd ++ bytes)
            sent := Function.update s.sent fd (s.sent fd ++ bytes) }
        else
          none
    | .epollWait events =>
        (Server.step cfg s.server (.epollWait events)).map fun server => { s with server := server }
    | .accept connfd addr early => accept cfg s connfd addr early
    | .handle answers => handle cfg s answers
    | .run l => (Server.step cfg s.server (.run l)).map fun server => { s with server := server }
    | .pass w => pass doRequest cfg s w

end Steps

/-! ## Slots -/

/-- The slot holds `bytes` and the parser has not moved. -/
structure Unparsed (conn : HttpConn) (bytes : List UInt8) : Prop where
  slot : conn = conn.received bytes
  fits : bytes.length ≤ READ_BUFFER_SIZE

theorem unparsed_received (conn : HttpConn) {bytes : List UInt8}
    (hlen : bytes.length ≤ READ_BUFFER_SIZE) : Unparsed (conn.received bytes) bytes :=
  ⟨rfl, hlen⟩

theorem unparsed_initConn (conn : HttpConn) (sockfd : Int) (addr : SockaddrIn) :
    Unparsed (conn.initConn sockfd addr) [] := by
  rw [HttpConn.initConn, HttpConn.init_eq_received]
  exact unparsed_received _ (by decide)

theorem Unparsed.readIdx {conn : HttpConn} {bytes : List UInt8} (h : Unparsed conn bytes) :
    conn.mReadIdx = bytes.length := by
  rw [h.slot]
  rfl

/-- A slot holds one stream. -/
theorem Unparsed.unique {conn : HttpConn} {bytes bytes' : List UInt8} (h : Unparsed conn bytes)
    (h' : Unparsed conn bytes') : bytes = bytes' := by
  have hlen : bytes.length = bytes'.length := h.readIdx.symm.trans h'.readIdx
  have hbuf : HttpConn.bufOf bytes = HttpConn.bufOf bytes' := by
    rw [← HttpConn.received_mReadBuf conn, ← HttpConn.received_mReadBuf conn, ← h.slot, ← h'.slot]
  refine List.ext_getElem hlen fun i hi hi' => ?_
  have hat := congrArg (·[i]?) hbuf
  simp only [HttpConn.bufOf_getElem? (Nat.lt_of_lt_of_le hi h.fits), Option.some.injEq] at hat
  rw [List.getD_eq_getElem _ _ hi, List.getD_eq_getElem _ _ hi'] at hat
  exact hat

/-- `read()` on such a slot cannot fault, and if it returns true the slot is
    such a slot again. -/
theorem Unparsed.read {conn : HttpConn} {bytes : List UInt8} {answers : List RecvAnswer}
    {out : Except Fault (Bool × HttpConn)} (h : Unparsed conn bytes)
    (hfit : RecvAnswer.AllFit (READ_BUFFER_SIZE - conn.mReadIdx) answers)
    (hnone : READ_BUFFER_SIZE - conn.mReadIdx = 0 → answers = [])
    (hread : conn.read answers = some out) :
    ∃ conn', out = .ok ((RecvAnswer.lastOf answers).blocks, conn') ∧
      conn'.mSockfd = conn.mSockfd ∧
      Unparsed conn' (bytes ++ answers.flatMap RecvAnswer.bytes) := by
  have hidx : conn.mReadIdx ≤ READ_BUFFER_SIZE := h.readIdx ▸ h.fits
  obtain ⟨conn', hstored, hle, rfl, -⟩ := HttpConn.read_eq hidx hfit
    (fun hfull => by rw [hnone (by omega)]; rfl) hread
  rw [hstored.readIdx, h.readIdx] at hle
  have hconn : conn' = conn.received (bytes ++ answers.flatMap RecvAnswer.bytes) := by
    refine HttpConn.Stored.unique hstored ?_
    rw [h.slot]
    exact HttpConn.stored_received conn hle
  refine ⟨conn', rfl, by rw [hstored.conn], ?_⟩
  rw [hconn]
  exact unparsed_received conn (by rwa [List.length_append])

/-- It returns true only if there was room. -/
theorem readIdx_lt_of_blocks {conn : HttpConn} {answers : List RecvAnswer}
    (hnone : READ_BUFFER_SIZE - conn.mReadIdx = 0 → answers = [])
    (hblocks : (RecvAnswer.lastOf answers).blocks = true) : conn.mReadIdx < READ_BUFFER_SIZE := by
  by_contra hge
  rw [hnone (by omega)] at hblocks
  cases hblocks

/-! ## Invariant -/

variable {W : Type*}

/-- The slot of `fd` holds the first part of what its client has sent, and the
    kernel the rest. -/
def Streams (s : State W) (fd : Int) : Prop :=
  ∃ bytes, Unparsed (s.users fd) bytes ∧ bytes ++ s.inbox fd = s.sent fd

structure Inv [Fintype W] (cfg : Config) (s : State W) : Prop where
  server : Server.Inv cfg s.server
  sockfd : ∀ i, (s.users i).mSockfd = s.server.mSockfd i
  streams : ∀ fd ∈ s.server.conns, Streams s fd
  /-- every worker is where `process()` begins -/
  call : ∀ w, s.call w = .start
  running : s.fault = none → s.server.fault = none

theorem inv_start [Fintype W] (cfg : Config) (users : Int → HttpConn) :
    Inv cfg (start W cfg users) where
  server := Server.inv_start cfg _
  sockfd := fun _ => rfl
  streams := by
    intro fd hfd
    simp [start, Server.start] at hfd
  call := fun _ => rfl
  running := fun _ => rfl

section Moves

variable [DecidableEq W] [Fintype W] {cfg : Config} {s s' : State W}

/-- The steps of the server that touch no slot. -/
inductive Lifts : Step W → Server.Step W → Prop where
  | arrive : Lifts .arrive .arrive
  | epollWait (events : List Event) : Lifts (.epollWait events) (.epollWait events)
  | run (l : ThreadPool.Step Int Unit W) : Lifts (.run l) (.run l)

/-- The steps from a state that satisfies the invariant. -/
inductive Move (cfg : Config) (s : State W) : Step W → State W → Prop where
  | main {l : Step W} {l' : Server.Step W} {server : Server.State W} (hl : Lifts l l')
      (hstep : Server.step cfg s.server l' = some server) : Move cfg s l { s with server := server }
  | send {fd : Int} {bytes : List UInt8} (hconn : fd ∈ s.server.conns) :
      Move cfg s (.send fd bytes)
        { s with
          inbox := Function.update s.inbox fd (s.inbox fd ++ bytes)
          sent := Function.update s.sent fd (s.sent fd ++ bytes) }
  | refused {connfd : Int} {addr : SockaddrIn} {early : List UInt8} {server : Server.State W}
      {ev : Event} {rest : List Event} (hbatch : s.server.batch = ev :: rest)
      (hlisten : ev.fd = cfg.listenfd) (hfull : s.server.mUserCount ≥ MAX_FD)
      (hstep : Server.step cfg s.server (.handle connfd false) = some server) :
      Move cfg s (.accept connfd addr early) { s with server := server }
  | accepted {connfd : Int} {addr : SockaddrIn} {early : List UInt8} {server : Server.State W}
      {ev : Event} {rest : List Event} (hbatch : s.server.batch = ev :: rest)
      (hlisten : ev.fd = cfg.listenfd) (hroom : ¬ s.server.mUserCount ≥ MAX_FD)
      (huser : InUsers connfd)
      (hstep : Server.step cfg s.server (.handle connfd false) = some server) :
      Move cfg s (.accept connfd addr early)
        { s with
          server := server
          users := Function.update s.users connfd ((s.users connfd).initConn connfd addr)
          inbox := Function.update s.inbox connfd early
          sent := Function.update s.sent connfd early }
  /-- there is no slot for what `accept` returned -/
  | outside {connfd : Int} {addr : SockaddrIn} {early : List UInt8} {server : Server.State W}
      {ev : Event} {rest : List Event} (hbatch : s.server.batch = ev :: rest)
      (hlisten : ev.fd = cfg.listenfd) (hroom : ¬ s.server.mUserCount ≥ MAX_FD)
      (hout : ¬ InUsers connfd)
      (hstep : Server.step cfg s.server (.handle connfd false) = some server) :
      Move cfg s (.accept connfd addr early)
        { s with server := server, fault := some .outOfBounds }
  /-- the peer has hung up, or `read()` has returned false -/
  | closed {answers : List RecvAnswer} {server : Server.State W} {ev : Event} {rest : List Event}
      {conn : HttpConn} {inbox : Int → List UInt8} (hbatch : s.server.batch = ev :: rest)
      (hfd : ev.fd ≠ cfg.listenfd)
      (hclose : ev.flags.hangup = true ∨ (RecvAnswer.lastOf answers).blocks = false)
      (hinbox : ∀ fd, fd ≠ ev.fd → inbox fd = s.inbox fd)
      (hstep : Server.step cfg s.server (.handle 0 false) = some server) :
      Move cfg s (.handle answers)
        { s with
          server := server
          users := Function.update s.users ev.fd conn.closeConn
          inbox := inbox }
  /-- `read()` has returned true -/
  | stored {answers : List RecvAnswer} {server : Server.State W} {ev : Event} {rest : List Event}
      {conn : HttpConn} {bytes : List UInt8} (hbatch : s.server.batch = ev :: rest)
      (hfd : ev.fd ≠ cfg.listenfd) (hhang : ev.flags.hangup = false)
      (hblocks : (RecvAnswer.lastOf answers).blocks = true)
      (hroom : (s.users ev.fd).mReadIdx < READ_BUFFER_SIZE)
      (hbefore : Unparsed (s.users ev.fd) bytes)
      (hafter : Unparsed conn (bytes ++ s.inbox ev.fd)) (hsock : conn.mSockfd = ev.fd)
      (hstep : Server.step cfg s.server (.handle 0 true) = some server) :
      Move cfg s (.handle answers)
        { s with
          server := server
          users := Function.update s.users ev.fd conn
          inbox := Function.update s.inbox ev.fd [] }
  | rearmed {w : W} {i : Int} {server : Server.State W} {bytes : List UInt8}
      (hw : s.server.pool.worker w = .popped (some i)) (hslot : Unparsed (s.users i) bytes)
      (hsafe : ¬ HttpConn.Crashes bytes)
      (hstep : Server.step cfg s.server (.process w i .noRequest) = some server) :
      Move cfg s (.pass w) { s with server := server }
  | crashed {w : W} {i : Int} {bytes : List UInt8}
      (hw : s.server.pool.worker w = .popped (some i)) (hslot : Unparsed (s.users i) bytes)
      (hcrash : HttpConn.Crashes bytes) :
      Move cfg s (.pass w) { s with fault := some .nullDeref }

omit [Fintype W] in
theorem move_of_accept {connfd : Int} {addr : SockaddrIn} {early : List UInt8}
    (h : accept cfg s connfd addr early = some s') :
    Move cfg s (.accept connfd addr early) s' := by
  rw [accept, Option.ite_none_right_eq_some] at h
  obtain ⟨hhead, h⟩ := h
  obtain ⟨server, hstep, rfl⟩ := Option.map_eq_some_iff.mp h
  obtain ⟨ev, hev, hlisten⟩ := Option.map_eq_some_iff.mp hhead
  obtain ⟨rest, hbatch⟩ := List.head?_eq_some_iff.mp hev
  by_cases hfull : s.server.mUserCount ≥ MAX_FD
  · rw [if_pos hfull]
    exact .refused hbatch hlisten hfull hstep
  · rw [if_neg hfull]
    by_cases huser : InUsers connfd
    · rw [if_pos huser]
      exact .accepted hbatch hlisten hfull huser hstep
    · rw [if_neg huser]
      exact .outside hbatch hlisten hfull huser hstep

omit [DecidableEq W] in
/-- The socket of a connection is its index. -/
theorem Inv.sock (hinv : Inv cfg s) {fd : Int} (hfd : fd ∈ s.server.conns) :
    (s.users fd).mSockfd = fd := by
  rw [hinv.sockfd fd]
  exact hinv.server.wired.mSockfd_eq fd hfd

theorem move_of_read (hinv : Inv cfg s) {answers : List RecvAnswer} {ev : Event}
    {rest : List Event} (hbatch : s.server.batch = ev :: rest) (hfd : ev.fd ≠ cfg.listenfd)
    (hhang : ev.flags.hangup = false) (h : readConn cfg s ev.fd answers = some s') :
    Move cfg s (.handle answers) s' := by
  have hconn := hinv.server.conn_of_batch hbatch hfd
  obtain ⟨bytes, hslot, hsent⟩ := hinv.streams ev.fd hconn
  simp only [readConn, hinv.sock hconn, Option.ite_none_right_eq_some] at h
  obtain ⟨⟨hfit, hnone, -, hdrained⟩, h⟩ := h
  cases hread : (s.users ev.fd).read answers with
  | none => simp [hread] at h
  | some out =>
      obtain ⟨conn, rfl, hsock, hafter⟩ := hslot.read hfit hnone hread
      rw [hinv.sock hconn] at hsock
      cases hblocks : (RecvAnswer.lastOf answers).blocks with
      | false =>
          simp only [hread, hblocks] at h
          obtain ⟨server, hstep, rfl⟩ := Option.map_eq_some_iff.mp h
          exact .closed hbatch hfd (Or.inr hblocks)
            (fun fd hne => Function.update_of_ne hne _ _) hstep
      | true =>
          -- nothing is left in the queue
          simp only [hread, hblocks, hdrained hblocks, List.drop_length] at h
          obtain ⟨server, hstep, rfl⟩ := Option.map_eq_some_iff.mp h
          rw [hdrained hblocks] at hafter
          exact .stored hbatch hfd hhang hblocks (readIdx_lt_of_blocks hnone hblocks) hslot hafter
            hsock hstep

theorem move_of_handle (hinv : Inv cfg s) {answers : List RecvAnswer}
    (h : handle cfg s answers = some s') : Move cfg s (.handle answers) s' := by
  cases hbatch : s.server.batch with
  | nil => simp [handle, hbatch] at h
  | cons ev rest =>
      simp only [handle, hbatch, Option.ite_none_left_eq_some] at h
      obtain ⟨hfd, h⟩ := h
      -- the descriptor of a connection is an index of `users`
      have huser := hinv.server.wired.conns_users _ (hinv.server.conn_of_batch hbatch hfd)
      rw [if_neg (not_not_intro huser)] at h
      by_cases hhang : ev.flags.hangup = true
      · rw [if_pos hhang] at h
        obtain ⟨server, hstep, rfl⟩ := Option.map_eq_some_iff.mp h
        exact .closed hbatch hfd (Or.inl hhang) (fun _ _ => rfl) hstep
      · -- nothing but a hang-up or input is ever reported
        have hflags := hinv.server.batch_flags ev (by simp [hbatch]) hfd
        have hin : ev.flags.epollin = true := by simpa [hhang] using hflags
        rw [if_neg hhang, if_pos hin] at h
        exact move_of_read hinv hbatch hfd (by simpa using hhang) h

/-- The first pass is the last one. -/
theorem move_of_pass {doRequest : HttpConn → HttpCode × HttpConn} (hinv : Inv cfg s) {w : W}
    (h : pass doRequest cfg s w = some s') : Move cfg s (.pass w) s' := by
  cases hw : s.server.pool.worker w with
  | top | waiting | woken => simp [pass, hw] at h
  | popped request =>
      cases request with
      | none => simp [pass, hw] at h
      | some i =>
          obtain ⟨bytes, hslot, -⟩ := hinv.streams i (hinv.server.conn_of_held hw).2
          have hpass := HttpConn.iteration_received doRequest (s := s.users i) hslot.fits
          rw [← hslot.slot] at hpass
          simp only [pass, hw, hinv.call w, Call.start, Call.lineStatus, hpass] at h
          by_cases hcrash : HttpConn.Crashes bytes
          · simp only [if_pos hcrash, Option.some.injEq] at h
            exact h ▸ .crashed hw hslot hcrash
          · simp only [if_neg hcrash, Function.update_eq_self, returned, hinv.call w, Call.start,
              if_true] at h
            obtain ⟨server, hstep, rfl⟩ := Option.map_eq_some_iff.mp h
            have hcall : Function.update s.call w (.first .lineOk) = s.call := by
              rw [← Call.start, ← hinv.call w, Function.update_eq_self]
            simp only [hcall]
            exact .rearmed hw hslot hcrash hstep

/-- **Inversion.**  Every step is one of the moves, and is taken before a
    fault. -/
theorem move_of_step {doRequest : HttpConn → HttpCode × HttpConn} (hinv : Inv cfg s) {l : Step W}
    (h : step doRequest cfg s l = some s') : s.fault = none ∧ Move cfg s l s' := by
  simp only [step, Option.ite_none_left_eq_some, Option.not_isSome_iff_eq_none] at h
  obtain ⟨hfault, h⟩ := h
  refine ⟨hfault, ?_⟩
  cases l with
  | arrive =>
      obtain ⟨server, hstep, rfl⟩ := Option.map_eq_some_iff.mp h
      exact .main .arrive hstep
  | send fd bytes =>
      simp only [Option.ite_none_right_eq_some, Option.some.injEq] at h
      exact h.2 ▸ .send h.1
  | epollWait events =>
      obtain ⟨server, hstep, rfl⟩ := Option.map_eq_some_iff.mp h
      exact .main (.epollWait events) hstep
  | accept connfd addr early => exact move_of_accept h
  | handle answers => exact move_of_handle hinv h
  | run l =>
      obtain ⟨server, hstep, rfl⟩ := Option.map_eq_some_iff.mp h
      exact .main (.run l) hstep
  | pass w => exact move_of_pass hinv h

end Moves

/-! ## What the steps do to the connections -/

section Effects

variable [DecidableEq W] [Fintype W] {cfg : Config} {t t' : Server.State W}

/-- `main` without a slot, and the end of a `process()`. -/
theorem same_slots (hinv : Server.Inv cfg t) {l : Server.Step W}
    (hl : ∀ connfd readOk, l ≠ .handle connfd readOk) (h : Server.step cfg t l = some t') :
    t'.conns = t.conns ∧ t'.mSockfd = t.mSockfd ∧ t'.fault = t.fault := by
  cases Server.move_of_step hinv h with
  | arrive | epollWait | run | rearmed | abandoned => exact ⟨rfl, rfl, rfl⟩
  | refused | admitted | outside | closed | appended => exact absurd rfl (hl _ _)

omit [DecidableEq W] in
/-- Nothing is known of a descriptor that `accept` may return. -/
theorem fresh_of_accept (hinv : Server.Inv cfg t) {connfd : Int} (h : CanAccept t connfd) :
    connfd ∉ t.conns ∧ t.epoll connfd = none := by
  have hclosed : connfd ∉ t.opened := by
    rcases h with rfl | ⟨-, hfresh, -⟩
    · exact hinv.wired.neg_one_not_opened
    · exact hfresh
  have hconn : connfd ∉ t.conns := fun hmem => hclosed (hinv.wired.conns_opened _ hmem)
  have hfd : connfd ≠ cfg.listenfd := by
    rintro rfl
    exact hclosed hinv.wired.listen_opened
  exact ⟨hconn, hinv.wired.unregistered _ hfd hconn⟩

/-- An event of `listenfd` and no `init`: nobody has a slot more or less. -/
theorem turned_away_eq (hinv : Server.Inv cfg t) {connfd : Int} {readOk : Bool} {ev : Event}
    {rest : List Event} (hbatch : t.batch = ev :: rest) (hlisten : ev.fd = cfg.listenfd)
    (hno : t.mUserCount ≥ MAX_FD ∨ ¬ InUsers connfd)
    (h : Server.step cfg t (.handle connfd readOk) = some t') :
    (connfd ∉ t.conns ∧ t.epoll connfd = none) ∧
      t' = { t with
        batch := rest
        backlog := if connfd = -1 then t.backlog else t.backlog - 1
        fault := if t.mUserCount ≥ MAX_FD then t.fault else some .outOfBounds } := by
  cases Server.move_of_step hinv h with
  | refused hbatch' _ haccept hfull =>
      rw [hbatch] at hbatch'
      cases hbatch'
      exact ⟨fresh_of_accept hinv haccept, by rw [if_pos hfull]⟩
  | admitted _ _ huser _ _ hroom =>
      rcases hno with hfull | hout
      · omega
      · exact absurd huser hout
  | outside hbatch' _ haccept hroom =>
      rw [hbatch] at hbatch'
      cases hbatch'
      exact ⟨fresh_of_accept hinv haccept, by rw [if_neg (Int.not_le.mpr hroom)]⟩
  | closed hbatch' hfd | appended hbatch' hfd =>
      rw [hbatch] at hbatch'
      cases hbatch'
      exact absurd hlisten hfd

/-- An event of `listenfd` with a slot for the client: it was nobody's. -/
theorem admitted_eq (hinv : Server.Inv cfg t) {connfd : Int} {readOk : Bool} {ev : Event}
    {rest : List Event} (hbatch : t.batch = ev :: rest) (hlisten : ev.fd = cfg.listenfd)
    (hroom : ¬ t.mUserCount ≥ MAX_FD) (huser : InUsers connfd)
    (h : Server.step cfg t (.handle connfd readOk) = some t') :
    connfd ∉ t.conns ∧
      t' = { t with
        batch := rest
        backlog := t.backlog - 1
        opened := insert connfd t.opened
        mSockfd := Function.update t.mSockfd connfd connfd
        epoll := Function.update t.epoll connfd (some ⟨readInterest, true, true⟩)
        mUserCount := t.mUserCount + 1
        conns := insert connfd t.conns } := by
  cases Server.move_of_step hinv h with
  | refused _ _ _ hfull => exact absurd hfull hroom
  | admitted hbatch' _ _ hfresh =>
      rw [hbatch] at hbatch'
      cases hbatch'
      exact ⟨fun hmem => hfresh (hinv.wired.conns_opened _ hmem), rfl⟩
  | outside _ _ _ _ hout => exact absurd huser hout
  | closed hbatch' hfd | appended hbatch' hfd =>
      rw [hbatch] at hbatch'
      cases hbatch'
      exact absurd hlisten hfd

/-- An event of a connection that ends it. -/
theorem closed_eq (hinv : Server.Inv cfg t) {connfd : Int} {ev : Event} {rest : List Event}
    (hbatch : t.batch = ev :: rest) (hfd : ev.fd ≠ cfg.listenfd)
    (h : Server.step cfg t (.handle connfd false) = some t') :
    t' = { t with
      batch := rest
      epoll := Function.update t.epoll ev.fd none
      opened := t.opened.erase ev.fd
      mSockfd := Function.update t.mSockfd ev.fd (-1)
      mUserCount := t.mUserCount - 1
      conns := t.conns.erase ev.fd } := by
  cases Server.move_of_step hinv h with
  | refused hbatch' hlisten | admitted hbatch' hlisten | outside hbatch' hlisten =>
      rw [hbatch] at hbatch'
      cases hbatch'
      exact absurd hlisten hfd
  | closed hbatch' =>
      rw [hbatch] at hbatch'
      cases hbatch'
      rfl

/-- An event of a connection whose input goes to `append`. -/
theorem appended_eq (hinv : Server.Inv cfg t) {connfd : Int} {ev : Event} {rest : List Event}
    (hbatch : t.batch = ev :: rest) (hfd : ev.fd ≠ cfg.listenfd) (hhang : ev.flags.hangup = false)
    (h : Server.step cfg t (.handle connfd true) = some t') :
    t' = { t with
      batch := rest
      pool := (appendPool t.pool ev.fd).foldl ThreadPool.next t.pool } := by
  cases Server.move_of_step hinv h with
  | refused hbatch' hlisten | admitted hbatch' hlisten | outside hbatch' hlisten =>
      rw [hbatch] at hbatch'
      cases hbatch'
      exact absurd hlisten hfd
  | closed hbatch' _ _ hclose =>
      rw [hbatch] at hbatch'
      cases hbatch'
      simp [hhang] at hclose
  | appended hbatch' =>
      rw [hbatch] at hbatch'
      cases hbatch'
      rfl

/-- The end of a `process()` that has found nothing to answer. -/
theorem rearmed_eq (hinv : Server.Inv cfg t) {w : W} {i : Int}
    (h : Server.step cfg t (.process w i .noRequest) = some t') :
    t' = { t with
      pool := ThreadPool.next t.pool (.process w i)
      epoll := Function.update t.epoll i (some ⟨readInterest, true, true⟩) } := by
  cases Server.move_of_step hinv h with
  | rearmed => rfl
  | abandoned _ hcode => exact absurd rfl hcode

end Effects

/-! ## Runs -/

section Runs

variable [DecidableEq W] [Fintype W] {cfg : Config} {s s' : State W}

omit [DecidableEq W] [Fintype W] in
/-- A connection whose slot and socket a step leaves alone. -/
theorem Streams.frame {fd : Int} (h : Streams s fd) (husers : s'.users fd = s.users fd)
    (hinbox : s'.inbox fd = s.inbox fd) (hsent : s'.sent fd = s.sent fd) : Streams s' fd := by
  rw [Streams, husers, hinbox, hsent]
  exact h

omit [DecidableEq W] in
/-- The server has moved, the slots are the same. -/
theorem Inv.frame (hinv : Inv cfg s) {server : Server.State W} (hserver : Server.Inv cfg server)
    (hslots : server.conns = s.server.conns ∧ server.mSockfd = s.server.mSockfd ∧
      server.fault = s.server.fault) :
    Inv cfg { s with server := server } where
  server := hserver
  sockfd := by
    intro i
    rw [hslots.2.1]
    exact hinv.sockfd i
  streams := by
    intro fd hfd
    exact hinv.streams fd (hslots.1 ▸ hfd)
  call := hinv.call
  running := by
    rw [hslots.2.2]
    exact hinv.running

omit [DecidableEq W] in
/-- A fault of the main thread or a worker. -/
theorem Inv.crash (hinv : Inv cfg s) {server : Server.State W} (hserver : Server.Inv cfg server)
    (hslots : server.conns = s.server.conns ∧ server.mSockfd = s.server.mSockfd)
    (fault : Fault) : Inv cfg { s with server := server, fault := some fault } where
  server := hserver
  sockfd := by
    intro i
    rw [hslots.2]
    exact hinv.sockfd i
  streams := by
    intro fd hfd
    exact hinv.streams fd (hslots.1 ▸ hfd)
  call := hinv.call
  running := nofun

omit [DecidableEq W] in
theorem Inv.send (hinv : Inv cfg s) (fd : Int) (bytes : List UInt8) :
    Inv cfg { s with
      inbox := Function.update s.inbox fd (s.inbox fd ++ bytes)
      sent := Function.update s.sent fd (s.sent fd ++ bytes) } where
  __ := hinv
  streams := by
    intro fd' hfd'
    by_cases hne : fd' = fd
    · subst hne
      obtain ⟨read, hslot, hsent⟩ := hinv.streams fd' hfd'
      refine ⟨read, hslot, ?_⟩
      simp only [Function.update_self]
      rw [← List.append_assoc, hsent]
    · exact (hinv.streams fd' hfd').frame rfl (Function.update_of_ne hne _ _)
        (Function.update_of_ne hne _ _)

omit [DecidableEq W] in
/-- `init` on a slot that no connection has. -/
theorem Inv.accept (hinv : Inv cfg s) {server : Server.State W} (hserver : Server.Inv cfg server)
    {connfd : Int} (addr : SockaddrIn) (early : List UInt8)
    (hconns : server.conns = insert connfd s.server.conns)
    (hsock : server.mSockfd = Function.update s.server.mSockfd connfd connfd)
    (hfault : server.fault = s.server.fault) :
    Inv cfg { s with
      server := server
      users := Function.update s.users connfd ((s.users connfd).initConn connfd addr)
      inbox := Function.update s.inbox connfd early
      sent := Function.update s.sent connfd early } where
  server := hserver
  sockfd := by
    intro i
    rw [hsock]
    by_cases hi : i = connfd
    · subst hi
      simp only [Function.update_self]
      rfl
    · simp only [Function.update_of_ne hi]
      exact hinv.sockfd i
  streams := by
    intro fd hfd
    by_cases hne : fd = connfd
    · subst hne
      refine ⟨[], ?_, ?_⟩
      · simp only [Function.update_self]
        exact unparsed_initConn _ _ _
      · simp only [Function.update_self, List.nil_append]
    · have hold := Finset.mem_of_mem_insert_of_ne (hconns ▸ hfd) hne
      exact (hinv.streams fd hold).frame (Function.update_of_ne hne _ _)
        (Function.update_of_ne hne _ _) (Function.update_of_ne hne _ _)
  call := hinv.call
  running := by
    rw [hfault]
    exact hinv.running

omit [DecidableEq W] in
/-- `close_conn` on the slot of a connection, whatever else it holds. -/
theorem Inv.close (hinv : Inv cfg s) {server : Server.State W} (hserver : Server.Inv cfg server)
    {i : Int} (conn : HttpConn) {inbox : Int → List UInt8}
    (hconns : server.conns = s.server.conns.erase i)
    (hsock : server.mSockfd = Function.update s.server.mSockfd i (-1))
    (hfault : server.fault = s.server.fault)
    (hinbox : ∀ fd, fd ≠ i → inbox fd = s.inbox fd) :
    Inv cfg { s with
      server := server
      users := Function.update s.users i conn.closeConn
      inbox := inbox } where
  server := hserver
  sockfd := by
    intro j
    rw [hsock]
    by_cases hj : j = i
    · subst hj
      simp only [Function.update_self]
      rfl
    · simp only [Function.update_of_ne hj]
      exact hinv.sockfd j
  streams := by
    intro fd hfd
    rw [hconns] at hfd
    obtain ⟨hne, hfd⟩ := Finset.mem_erase.mp hfd
    exact (hinv.streams fd hfd).frame (Function.update_of_ne hne _ _) (hinbox fd hne) rfl
  call := hinv.call
  running := by
    rw [hfault]
    exact hinv.running

omit [DecidableEq W] in
/-- A `read()` that has taken all there was. -/
theorem Inv.store (hinv : Inv cfg s) {server : Server.State W} (hserver : Server.Inv cfg server)
    {i : Int} {conn : HttpConn} {bytes : List UInt8} (hi : i ∈ s.server.conns)
    (hslots : server.conns = s.server.conns ∧ server.mSockfd = s.server.mSockfd ∧
      server.fault = s.server.fault)
    (hbefore : Unparsed (s.users i) bytes) (hafter : Unparsed conn (bytes ++ s.inbox i))
    (hsock : conn.mSockfd = i) :
    Inv cfg { s with
      server := server
      users := Function.update s.users i conn
      inbox := Function.update s.inbox i [] } where
  server := hserver
  sockfd := by
    intro j
    rw [hslots.2.1]
    by_cases hj : j = i
    · subst hj
      rw [← hinv.sockfd j, hinv.sock hi]
      simpa only [Function.update_self] using hsock
    · simp only [Function.update_of_ne hj]
      exact hinv.sockfd j
  streams := by
    intro fd hfd
    rw [hslots.1] at hfd
    by_cases hne : fd = i
    · subst hne
      obtain ⟨read, hslot, hsent⟩ := hinv.streams fd hfd
      -- the slot held these bytes and no others
      obtain rfl : bytes = read := hbefore.unique hslot
      refine ⟨bytes ++ s.inbox fd, ?_, ?_⟩
      · simpa only [Function.update_self] using hafter
      · simpa only [Function.update_self, List.append_nil] using hsent
    · exact (hinv.streams fd hfd).frame (Function.update_of_ne hne _ _)
        (Function.update_of_ne hne _ _) rfl
  call := hinv.call
  running := by
    rw [hslots.2.2]
    exact hinv.running

theorem Inv.move (hinv : Inv cfg s) {l : Step W} (h : Move cfg s l s') : Inv cfg s' := by
  cases h with
  | main hl hstep =>
      refine hinv.frame (hinv.server.of_step hstep) (same_slots hinv.server ?_ hstep)
      intro connfd readOk hhandle
      cases hl <;> cases hhandle
  | send hconn => exact hinv.send _ _
  | refused hbatch hlisten hfull hstep =>
      have hserver := hinv.server.of_step hstep
      obtain ⟨-, rfl⟩ := turned_away_eq hinv.server hbatch hlisten (Or.inl hfull) hstep
      exact hinv.frame hserver ⟨rfl, rfl, if_pos hfull⟩
  | accepted hbatch hlisten hroom huser hstep =>
      have hserver := hinv.server.of_step hstep
      obtain ⟨-, rfl⟩ := admitted_eq hinv.server hbatch hlisten hroom huser hstep
      exact hinv.accept hserver _ _ rfl rfl rfl
  | outside hbatch hlisten hroom hout hstep =>
      have hserver := hinv.server.of_step hstep
      obtain ⟨-, rfl⟩ := turned_away_eq hinv.server hbatch hlisten (Or.inr hout) hstep
      exact hinv.crash hserver ⟨rfl, rfl⟩ _
  | closed hbatch hfd hclose hinbox hstep =>
      have hserver := hinv.server.of_step hstep
      obtain rfl := closed_eq hinv.server hbatch hfd hstep
      exact hinv.close hserver _ rfl rfl rfl hinbox
  | stored hbatch hfd hhang _ _ hbefore hafter hsock hstep =>
      have hserver := hinv.server.of_step hstep
      obtain rfl := appended_eq hinv.server hbatch hfd hhang hstep
      exact hinv.store hserver (hinv.server.conn_of_batch hbatch hfd) ⟨rfl, rfl, rfl⟩ hbefore hafter
        hsock
  | rearmed hw hslot hsafe hstep =>
      exact hinv.frame (hinv.server.of_step hstep) (same_slots hinv.server (by simp) hstep)
  | crashed => exact hinv.crash hinv.server ⟨rfl, rfl⟩ _

variable {doRequest : HttpConn → HttpCode × HttpConn}

theorem Inv.of_step (hinv : Inv cfg s) {l : Step W} (h : step doRequest cfg s l = some s') :
    Inv cfg s' := hinv.move (move_of_step hinv h).2

theorem inv_of_exec {users : Int → HttpConn} {tr : List (Step W)}
    (h : exec (step doRequest cfg) (start W cfg users) tr = some s) : Inv cfg s :=
  exec_invariant (inv_start cfg users) (fun _ _ _ hinv hl => hinv.of_step hl) h

omit [Fintype W] in
/-- With the slots left out, a step is one of the server's or none. -/
theorem Move.server {l : Step W} (h : Move cfg s l s') :
    s'.server = s.server ∨ ∃ l', Server.step cfg s.server l' = some s'.server := by
  cases h with
  | send | crashed => exact Or.inl rfl
  | main _ hstep | refused _ _ _ hstep | accepted _ _ _ _ hstep | outside _ _ _ _ hstep
  | closed _ _ _ _ hstep | stored _ _ _ _ _ _ _ _ hstep | rearmed _ _ _ hstep => exact Or.inr ⟨_, hstep⟩

/-- **The slots refine the labels.**  What holds of the server for all answers
    of `read()` and `process_read()` holds of the server that computes them. -/
theorem server_run_of_exec {users : Int → HttpConn} {tr : List (Step W)}
    (h : exec (step doRequest cfg) (start W cfg users) tr = some s) :
    ∃ tr', exec (Server.step cfg) (Server.start W cfg fun i => (users i).mSockfd) tr'
      = some s.server := by
  suffices hboth : Inv cfg s ∧ ∃ tr', exec (Server.step cfg)
      (Server.start W cfg fun i => (users i).mSockfd) tr' = some s.server from hboth.2
  refine exec_invariant (P := fun s => Inv cfg s ∧ ∃ tr', exec (Server.step cfg)
    (Server.start W cfg fun i => (users i).mSockfd) tr' = some s.server)
    ⟨inv_start cfg users, [], rfl⟩ ?_ h
  rintro s l s' ⟨hinv, tr', hrun⟩ hl
  refine ⟨hinv.of_step hl, ?_⟩
  rcases (move_of_step hinv hl).2.server with heq | ⟨l', hstep⟩
  · exact ⟨tr', heq ▸ hrun⟩
  · exact ⟨tr' ++ [l'], exec_snoc.mpr ⟨s.server, hrun, hstep⟩⟩

end Runs

end System

end WebServer
