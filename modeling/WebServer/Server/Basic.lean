/-
  WebServer.Server.Basic

  The event loop of main.cpp with `addfd`, `removefd`, `modfd`,
  `http_conn::init` and `http_conn::close_conn`, the thread pool it feeds, and
  the kernel under both: the queue of the listening socket and the interest
  list of epoll.

  One label is one step of one party.  The main thread handles an event in one
  step; workers take the steps of `ThreadPool`, where `process()` ends with
  the code its first `process_read()` returned.  What depends on the bytes of
  a client is an answer in the label: whether `read()` returns true, and that
  code.  So is the result of `accept`, -1 for a failure.

  `listenfd` is registered edge-triggered: `listenPending` is its edge, raised
  by an arrival and consumed by the `epoll_wait` that reports it.  Every other
  registration is `EPOLLONESHOT`, so whether it is `armed` is all there is to
  say about it.  A slot of `users` is its `m_sockfd`.  An index outside
  `[0, MAX_FD)` is a fault, and no step follows a fault; the loop is followed
  until then, or until `epoll_wait` fails.
-/

import WebServer.HttpConn.Basic
import WebServer.ThreadPool.Basic
import Mathlib.Data.Finset.Insert

namespace WebServer.Server

open WebServer.Lib WebServer.ThreadPool

def MAX_FD : Int := 65535

def MAX_EVENT_NUMBER : Nat := 10000

/-! ## Events -/

/-- The bits of `epoll_event.events` that the source tests. -/
structure Flags where
  epollin : Bool
  epollout : Bool
  epollrdhup : Bool
  epollhup : Bool
  epollerr : Bool
deriving DecidableEq, Repr

namespace Flags

/-- `events & (EPOLLRDHUP | EPOLLHUP | EPOLLERR)` -/
def hangup (f : Flags) : Bool := f.epollrdhup || f.epollhup || f.epollerr

/-- What the kernel may report for a registration with the given interest:
    something, and nothing unasked for but `EPOLLHUP` and `EPOLLERR`. -/
def Reportable (interest f : Flags) : Prop :=
  (f.hangup || f.epollin || f.epollout) = true ∧
    (f.epollin → interest.epollin) ∧ (f.epollout → interest.epollout) ∧
    (f.epollrdhup → interest.epollrdhup)

instance (interest f : Flags) : Decidable (Reportable interest f) :=
  inferInstanceAs (Decidable (_ ∧ _))

end Flags

/-- `EPOLLIN` -/
def epollin : Flags := ⟨true, false, false, false, false⟩

structure Event where
  fd : Int
  flags : Flags
deriving DecidableEq, Repr

/-- An entry of the interest list. -/
structure Registration where
  interest : Flags
  oneShot : Bool
  armed : Bool
deriving DecidableEq, Repr

/-! ## State -/

/-- The two descriptors and the pool size that `main` sets up. -/
structure Config where
  listenfd : Int
  epollfd : Int
  maxRequest : Nat
  listenfd_nonneg : 0 ≤ listenfd
  epollfd_nonneg : 0 ≤ epollfd

structure State (W : Type*) where
  /-- completed connections that nobody accepted yet -/
  backlog : Nat
  listenPending : Bool
  epoll : Int → Option Registration
  opened : Finset Int
  /-- the events of the last `epoll_wait` still to be handled -/
  batch : List Event
  /-- `users[i].m_sockfd` -/
  mSockfd : Int → Int
  mUserCount : Int
  /-- accepted, initialised and not passed to `close_conn` since -/
  conns : Finset Int
  pool : Pool Int Unit W
  /-- what ended the program -/
  fault : Option Fault

variable {W : Type*}

/-! ## Descriptors -/

/-- `addfd`; `epoll_ctl` fails for a descriptor that is not open or already
    registered. -/
def addfd (s : State W) (fd : Int) (oneShot : Bool) : State W :=
  if fd ∈ s.opened ∧ s.epoll fd = none then
    { s with
      epoll := Function.update s.epoll fd
        (some ⟨{ epollin with epollrdhup := true }, oneShot, true⟩) }
  else
    s

def removefd (s : State W) (fd : Int) : State W :=
  { s with epoll := Function.update s.epoll fd none, opened := s.opened.erase fd }

/-- `modfd`; `epoll_ctl` fails for a descriptor that is not registered. -/
def modfd (s : State W) (fd : Int) (ev : Flags) : State W :=
  match s.epoll fd with
  | none => s
  | some _ =>
      { s with
        epoll := Function.update s.epoll fd (some ⟨{ ev with epollrdhup := true }, true, true⟩) }

/-! ## Slots -/

/-- `users[i]` is one of the `MAX_FD` elements of the array. -/
def InUsers (i : Int) : Prop := 0 ≤ i ∧ i < MAX_FD

instance (i : Int) : Decidable (InUsers i) := inferInstanceAs (Decidable (_ ∧ _))

/-- `users[connfd].init(connfd, client_address)` -/
def init (s : State W) (connfd : Int) : State W :=
  if InUsers connfd then
    let s := { s with mSockfd := Function.update s.mSockfd connfd connfd }
    let s := addfd s connfd true
    { s with mUserCount := s.mUserCount + 1, conns := insert connfd s.conns }
  else
    -- the first store, to `m_sockfd`, ends the program, and `connfd` with it;
    -- nobody has been counted yet
    { s with opened := s.opened.erase connfd, fault := some .outOfBounds }

/-- `users[i].close_conn()` -/
def closeConn (s : State W) (i : Int) : State W :=
  if s.mSockfd i ≠ -1 then
    let s := removefd s (s.mSockfd i)
    { s with
      mSockfd := Function.update s.mSockfd i (-1)
      mUserCount := s.mUserCount - 1
      conns := s.conns.erase i }
  else
    s

/-! ## The main thread -/

/-- What `accept` may return: -1, or a descriptor that was not open. -/
def CanAccept (s : State W) (connfd : Int) : Prop :=
  connfd = -1 ∨ (0 ≤ connfd ∧ connfd ∉ s.opened ∧ 0 < s.backlog)

def accept (s : State W) (connfd : Int) : State W :=
  if connfd = -1 then s
  else { s with backlog := s.backlog - 1, opened := insert connfd s.opened }

/-- An event of `listenfd`: one `accept`, its result not looked at. -/
def handleListen (s : State W) (connfd : Int) : State W :=
  let s := accept s connfd
  if s.mUserCount ≥ MAX_FD then
    -- `close(connfd)`
    { s with opened := s.opened.erase connfd }
  else
    init s connfd

/-- `pool->append(users + sockfd)`, called by one thread and not interrupted. -/
def appendPool (p : Pool Int Unit W) (sockfd : Int) : List (ThreadPool.Step Int Unit W) :=
  if p.mWorkqueue.length > p.mMaxRequests then
    [.call () (some sockfd), .reject () (some sockfd)]
  else
    [.call () (some sockfd), .push () (some sockfd), .post ()]

/-- `write()` -/
def write : Bool := true

/-- Where the main thread puts a request. -/
def append [DecidableEq W] (s : State W) (sockfd : Int) : State W :=
  { s with pool := (appendPool s.pool sockfd).foldl next s.pool }

/-- An event of a connection; every branch works on `users[sockfd]`. -/
def handleConn [DecidableEq W] (s : State W) (ev : Event) (readOk : Bool) : State W :=
  if ¬ InUsers ev.fd then
    { s with fault := some .outOfBounds }
  else if ev.flags.hangup then
    closeConn s ev.fd
  else if ev.flags.epollin then
    -- the result of `append` is not looked at
    if readOk then append s ev.fd else closeConn s ev.fd
  else if ev.flags.epollout then
    if !write then closeConn s ev.fd else s
  else
    s

/-- The body of the `for` loop. -/
def handle [DecidableEq W] (cfg : Config) (s : State W) (connfd : Int) (readOk : Bool) :
    State W :=
  match s.batch with
  | [] => s
  | ev :: rest =>
      let s := { s with batch := rest }
      -- each event of `listenfd` is answered by a single `accept`
      if ev.fd = cfg.listenfd then handleListen s connfd else handleConn s ev readOk

theorem handle_of_cons [DecidableEq W] (cfg : Config) {s : State W} {ev : Event}
    {rest : List Event} (h : s.batch = ev :: rest) (connfd : Int) (readOk : Bool) :
    handle cfg s connfd readOk =
      if ev.fd = cfg.listenfd then handleListen { s with batch := rest } connfd
      else handleConn { s with batch := rest } ev readOk := by
  rw [handle, h]

/-! ## The kernel -/

/-- What `epoll_wait` may report: the edge of `listenfd`, and of the others
    what is armed. -/
def CanReport (cfg : Config) (s : State W) (ev : Event) : Prop :=
  (ev.fd = cfg.listenfd → s.listenPending = true) ∧
    (ev.fd ≠ cfg.listenfd →
      (s.epoll ev.fd).any (fun reg => reg.armed && reg.interest.Reportable ev.flags) = true)

instance (cfg : Config) (s : State W) (ev : Event) : Decidable (CanReport cfg s ev) :=
  inferInstanceAs (Decidable (_ ∧ _))

/-- Reporting disarms a one-shot registration. -/
def disarm (fds : List Int) (epoll : Int → Option Registration) (fd : Int) :
    Option Registration :=
  (epoll fd).map fun reg =>
    if reg.oneShot && fds.contains fd then { reg with armed := false } else reg

def epollWait (cfg : Config) (s : State W) (events : List Event) : State W :=
  { s with
    batch := events
    epoll := disarm (events.map Event.fd) s.epoll
    listenPending := s.listenPending && !(events.map Event.fd).contains cfg.listenfd }

/-! ## Steps -/

inductive Step (W : Type*) where
  /-- a client completes its handshake -/
  | arrive
  /-- `epoll_wait` returns; no events stand for `EINTR` -/
  | epollWait (events : List Event)
  /-- the main thread handles the next event -/
  | handle (connfd : Int) (readOk : Bool)
  /-- a step of a worker in `run()`, outside `process()` -/
  | run (l : ThreadPool.Step Int Unit W)
  /-- `users[i].process()` ends, its first `process_read()` having returned
      `code` -/
  | process (w : W) (i : Int) (code : HttpCode)
deriving DecidableEq

def Enabled (cfg : Config) (s : State W) : Step W → Prop
  | .arrive => True
  | .epollWait events => s.batch = [] ∧ events.length ≤ MAX_EVENT_NUMBER ∧
      (events.map Event.fd).Nodup ∧ ∀ ev ∈ events, CanReport cfg s ev
  | .handle connfd _ => s.batch ≠ [] ∧
      ((s.batch.head?.map Event.fd) = some cfg.listenfd → CanAccept s connfd)
  | .run l => l.isRun = true ∧ ThreadPool.Enabled s.pool l
  | .process w i _ => ThreadPool.Enabled s.pool (.process w i)

instance (s : State W) (connfd : Int) : Decidable (CanAccept s connfd) :=
  inferInstanceAs (Decidable (_ ∨ _))

instance (cfg : Config) (s : State W) (l : Step W) : Decidable (Enabled cfg s l) :=
  match l with
  | .arrive => inferInstanceAs (Decidable True)
  | .epollWait _ => inferInstanceAs (Decidable (_ ∧ _))
  | .handle .. => inferInstanceAs (Decidable (_ ∧ _))
  | .run _ => inferInstanceAs (Decidable (_ ∧ _))
  | .process w i _ => inferInstanceAs (Decidable (ThreadPool.Enabled s.pool (.process w i)))

variable [DecidableEq W]

def next (cfg : Config) (s : State W) : Step W → State W
  | .arrive => { s with backlog := s.backlog + 1, listenPending := true }
  | .epollWait events => epollWait cfg s events
  | .handle connfd readOk => handle cfg s connfd readOk
  | .run l => { s with pool := ThreadPool.next s.pool l }
  | .process w i code =>
      let s := { s with pool := ThreadPool.next s.pool (.process w i) }
      -- with any other code `process()` returns without a `modfd`
      if code = .noRequest then modfd s (s.mSockfd i) epollin else s

/-- All threads stop at a fault. -/
def step (cfg : Config) : State W → Step W → Option (State W) :=
  guarded (fun s l => s.fault = none ∧ Enabled cfg s l) (next cfg)

@[simp] theorem step_eq_some {cfg : Config} {s s' : State W} {l : Step W} :
    step cfg s l = some s' ↔ (s.fault = none ∧ Enabled cfg s l) ∧ next cfg s l = s' :=
  guarded_eq_some

/-- Before the first `epoll_wait`.  The constructor of `http_conn` sets
    nothing: `m_sockfd` is whatever the memory held. -/
def start (W : Type*) (cfg : Config) (memory : Int → Int) : State W where
  backlog := 0
  listenPending := false
  epoll := Function.update (fun _ => none) cfg.listenfd
    (some ⟨{ epollin with epollrdhup := true }, false, true⟩)
  opened := {0, 1, 2, cfg.listenfd, cfg.epollfd}
  batch := []
  mSockfd := memory
  mUserCount := 0
  conns := ∅
  pool := Pool.start Int Unit W cfg.maxRequest
  fault := none

end WebServer.Server
