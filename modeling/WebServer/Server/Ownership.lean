/-
  WebServer.Server.Ownership

  Who may touch a connection.  The fields of `http_conn` have no lock of their
  own; what protects them is that a connection is armed in epoll, or reported
  in the batch, or queued, or in the hands of a worker, and never two of
  these.  Each is a token of the library's `Custody`, and every step of the
  server moves tokens the way the library asks for (`Move.change`).

  `Move` says once what a step can do in a state that satisfies the invariant;
  the accounting of the other modules goes through it as well.
-/

import WebServer.Server.Basic
import WebServer.Lib.Custody

namespace WebServer.Server

open WebServer.Lib WebServer.ThreadPool

variable {W : Type*}

/-! ## Tokens -/

/-- 1 if the registration is armed. -/
def armedCount (epoll : Int → Option Registration) (fd : Int) : Nat :=
  if (epoll fd).any Registration.armed then 1 else 0

/-- Events for `fd` still to be handled. -/
def batchCount (batch : List Event) (fd : Int) : Nat := (batch.map Event.fd).count fd

/-- Occurrences of `users + fd` in `m_workqueue`. -/
def queueCount (s : State W) (fd : Int) : Nat := s.pool.mWorkqueue.count (some fd)

/-- Workers between the pop of `users + fd` and the end of its `process()`. -/
def heldCount [Fintype W] (s : State W) (fd : Int) : Nat :=
  threadCount s.pool.worker (· = .popped (some fd))

def tokens [Fintype W] (s : State W) (fd : Int) : Nat :=
  armedCount s.epoll fd + batchCount s.batch fd + queueCount s fd + heldCount s fd

theorem tokens_eq [Fintype W] (s : State W) (fd : Int) :
    tokens s fd = armedCount s.epoll fd + batchCount s.batch fd + inFlight s.pool fd := by
  rw [tokens, inFlight, queueCount, heldCount]
  omega

/-- The descriptors that can belong to a connection. -/
abbrev ConnFd (cfg : Config) := { fd : Int // fd ≠ cfg.listenfd }

/-- Connections as resources. -/
def custody [Fintype W] (cfg : Config) : Custody (State W) (ConnFd cfg) where
  tokens s x := tokens s x.1
  live s x := x.1 ∈ s.conns

section Counts

variable {epoll : Int → Option Registration} {fd fd' : Int}

theorem armedCount_update_none :
    armedCount (Function.update epoll fd none) fd' =
      if fd' = fd then 0 else armedCount epoll fd' := by
  by_cases h : fd' = fd
  · subst h
    simp [armedCount]
  · simp [armedCount, h]

theorem armedCount_update_armed {interest : Flags} {oneShot : Bool} :
    armedCount (Function.update epoll fd (some ⟨interest, oneShot, true⟩)) fd' =
      if fd' = fd then 1 else armedCount epoll fd' := by
  by_cases h : fd' = fd
  · subst h
    simp [armedCount]
  · simp [armedCount, h]

theorem batchCount_cons (ev : Event) (rest : List Event) :
    batchCount (ev :: rest) fd = batchCount rest fd + if ev.fd = fd then 1 else 0 := by
  simp [batchCount, List.count_cons]

theorem batchCount_nil : batchCount [] fd = 0 := rfl

end Counts

/-! ## Invariant -/

/-- What every descriptor of a connection is registered for. -/
def readInterest : Flags := { epollin with epollrdhup := true }

/-- How descriptors, slots and the interest list hang together. -/
structure Wired (cfg : Config) (opened conns : Finset Int) (mSockfd : Int → Int)
    (epoll : Int → Option Registration) : Prop where
  listen_opened : cfg.listenfd ∈ opened
  opened_nonneg : ∀ fd ∈ opened, 0 ≤ fd
  conns_opened : ∀ fd ∈ conns, fd ∈ opened
  conns_users : ∀ fd ∈ conns, InUsers fd
  listen_not_conn : cfg.listenfd ∉ conns
  mSockfd_eq : ∀ fd ∈ conns, mSockfd fd = fd
  registered : ∀ fd ∈ conns, ∃ armed, epoll fd = some ⟨readInterest, true, armed⟩
  unregistered : ∀ fd, fd ≠ cfg.listenfd → fd ∉ conns → epoll fd = none

structure Inv [Fintype W] (cfg : Config) (s : State W) : Prop where
  wired : Wired cfg s.opened s.conns s.mSockfd s.epoll
  batch_flags : ∀ ev ∈ s.batch, ev.fd ≠ cfg.listenfd →
    (ev.flags.hangup || ev.flags.epollin) = true
  listen_not_queued : inFlight s.pool cfg.listenfd = 0
  exclusive : (custody cfg).Exclusive s

section Facts

variable {cfg : Config}

section WiredFacts

variable {opened conns : Finset Int} {mSockfd : Int → Int}
  {epoll : Int → Option Registration}

theorem Wired.neg_one_not_opened (h : Wired cfg opened conns mSockfd epoll) :
    (-1 : Int) ∉ opened := by
  intro hmem
  have := h.opened_nonneg _ hmem
  omega

theorem Wired.conn_ne_neg_one (h : Wired cfg opened conns mSockfd epoll) {fd : Int}
    (hfd : fd ∈ conns) : fd ≠ -1 := by
  rintro rfl
  exact h.neg_one_not_opened (h.conns_opened _ hfd)

/-- `accept` and `init` on a descriptor that was not open. -/
theorem Wired.admit (h : Wired cfg opened conns mSockfd epoll) {connfd : Int}
    (huser : InUsers connfd) (hfresh : connfd ∉ opened) :
    Wired cfg (insert connfd opened) (insert connfd conns)
      (Function.update mSockfd connfd connfd)
      (Function.update epoll connfd (some ⟨readInterest, true, true⟩)) where
  listen_opened := Finset.mem_insert_of_mem h.listen_opened
  opened_nonneg := by
    intro fd hfd
    rcases Finset.mem_insert.mp hfd with rfl | hfd
    · exact huser.1
    · exact h.opened_nonneg fd hfd
  conns_opened := by
    intro fd hfd
    rcases Finset.mem_insert.mp hfd with rfl | hfd
    · exact Finset.mem_insert_self _ _
    · exact Finset.mem_insert_of_mem (h.conns_opened fd hfd)
  conns_users := by
    intro fd hfd
    rcases Finset.mem_insert.mp hfd with rfl | hfd
    · exact huser
    · exact h.conns_users fd hfd
  listen_not_conn := by
    intro hmem
    rcases Finset.mem_insert.mp hmem with heq | hmem
    · exact hfresh (heq ▸ h.listen_opened)
    · exact h.listen_not_conn hmem
  mSockfd_eq := by
    intro fd hfd
    by_cases hnew : fd = connfd
    · rw [hnew, Function.update_self]
    · rw [Function.update_of_ne hnew]
      exact h.mSockfd_eq fd (Finset.mem_of_mem_insert_of_ne hfd hnew)
  registered := by
    intro fd hfd
    by_cases hnew : fd = connfd
    · exact ⟨true, by rw [hnew, Function.update_self]⟩
    · rw [Function.update_of_ne hnew]
      exact h.registered fd (Finset.mem_of_mem_insert_of_ne hfd hnew)
  unregistered := by
    intro fd hlisten hfd
    rw [Finset.mem_insert, not_or] at hfd
    rw [Function.update_of_ne hfd.1]
    exact h.unregistered fd hlisten hfd.2

/-- `close_conn` on a connection. -/
theorem Wired.close (h : Wired cfg opened conns mSockfd epoll) {i : Int}
    (hlisten : i ≠ cfg.listenfd) :
    Wired cfg (opened.erase i) (conns.erase i) (Function.update mSockfd i (-1))
      (Function.update epoll i none) where
  listen_opened := Finset.mem_erase.mpr ⟨hlisten.symm, h.listen_opened⟩
  opened_nonneg := fun fd hfd => h.opened_nonneg fd (Finset.mem_of_mem_erase hfd)
  conns_opened := by
    intro fd hfd
    obtain ⟨hne, hfd⟩ := Finset.mem_erase.mp hfd
    exact Finset.mem_erase.mpr ⟨hne, h.conns_opened fd hfd⟩
  conns_users := fun fd hfd => h.conns_users fd (Finset.mem_of_mem_erase hfd)
  listen_not_conn := fun hmem => h.listen_not_conn (Finset.mem_of_mem_erase hmem)
  mSockfd_eq := by
    intro fd hfd
    obtain ⟨hne, hfd⟩ := Finset.mem_erase.mp hfd
    rw [Function.update_of_ne hne]
    exact h.mSockfd_eq fd hfd
  registered := by
    intro fd hfd
    obtain ⟨hne, hfd⟩ := Finset.mem_erase.mp hfd
    rw [Function.update_of_ne hne]
    exact h.registered fd hfd
  unregistered := by
    intro fd hfd hconn
    by_cases hne : fd = i
    · rw [hne, Function.update_self]
    · rw [Function.update_of_ne hne]
      exact h.unregistered fd hfd (fun hmem => hconn (Finset.mem_erase.mpr ⟨hne, hmem⟩))

theorem Wired.disarm (h : Wired cfg opened conns mSockfd epoll) (fds : List Int) :
    Wired cfg opened conns mSockfd (disarm fds epoll) where
  __ := h
  registered := by
    intro fd hfd
    obtain ⟨armed, hreg⟩ := h.registered fd hfd
    rw [Server.disarm, hreg]
    by_cases hmem : fds.contains fd
    · exact ⟨false, by simp only [Option.map_some, hmem, Bool.and_true, if_true]⟩
    · exact ⟨armed, by simp only [Option.map_some, hmem, Bool.and_false]; rfl⟩
  unregistered := by
    intro fd hlisten hfd
    rw [Server.disarm, h.unregistered fd hlisten hfd]
    rfl

/-- `modfd` on a connection. -/
theorem Wired.rearm (h : Wired cfg opened conns mSockfd epoll) {i : Int} (hi : i ∈ conns) :
    Wired cfg opened conns mSockfd
      (Function.update epoll i (some ⟨readInterest, true, true⟩)) where
  __ := h
  registered := by
    intro fd hfd
    by_cases hne : fd = i
    · exact ⟨true, by rw [hne, Function.update_self]⟩
    · rw [Function.update_of_ne hne]
      exact h.registered fd hfd
  unregistered := by
    intro fd hlisten hfd
    have hne : fd ≠ i := by
      rintro rfl
      exact hfd hi
    rw [Function.update_of_ne hne]
    exact h.unregistered fd hlisten hfd

end WiredFacts

variable [Fintype W] {s : State W}

theorem Inv.conn_of_tokens (h : Inv cfg s) {fd : Int} (hfd : fd ≠ cfg.listenfd)
    (hpos : 0 < tokens s fd) : fd ∈ s.conns :=
  h.exclusive.live_of_pos (x := ⟨fd, hfd⟩) hpos

theorem Inv.conn_of_batch (h : Inv cfg s) {ev : Event} {rest : List Event}
    (hbatch : s.batch = ev :: rest) (hfd : ev.fd ≠ cfg.listenfd) : ev.fd ∈ s.conns := by
  apply h.conn_of_tokens hfd
  rw [tokens, hbatch, batchCount_cons, if_pos rfl]
  omega

/-- A worker only holds connections. -/
theorem Inv.conn_of_held (h : Inv cfg s) {w : W} {fd : Int}
    (hw : s.pool.worker w = .popped (some fd)) : fd ≠ cfg.listenfd ∧ fd ∈ s.conns := by
  have hpos : 0 < threadCount s.pool.worker (· = .popped (some fd)) := threadCount_pos hw
  have hfd : fd ≠ cfg.listenfd := by
    rintro rfl
    have := h.listen_not_queued
    rw [inFlight] at this
    omega
  refine ⟨hfd, h.conn_of_tokens hfd ?_⟩
  rw [tokens, heldCount]
  omega

end Facts

/-! ## What a step can do -/

section Moves

variable [DecidableEq W]

/-- The steps from a state that satisfies the invariant, with all their guards
    and effects spelled out. -/
inductive Move (cfg : Config) (s : State W) : Step W → State W → Prop where
  | arrive : Move cfg s .arrive { s with backlog := s.backlog + 1, listenPending := true }
  | epollWait {events : List Event} (hidle : s.batch = [])
      (hnodup : (events.map Event.fd).Nodup) (hreport : ∀ ev ∈ events, CanReport cfg s ev) :
      Move cfg s (.epollWait events) (epollWait cfg s events)
  /-- accepted or not, and closed for lack of room -/
  | refused {connfd : Int} {readOk : Bool} {ev : Event} {rest : List Event}
      (hbatch : s.batch = ev :: rest) (hlisten : ev.fd = cfg.listenfd)
      (haccept : CanAccept s connfd) (hfull : s.mUserCount ≥ MAX_FD) :
      Move cfg s (.handle connfd readOk)
        { s with
          batch := rest
          backlog := if connfd = -1 then s.backlog else s.backlog - 1 }
  | admitted {connfd : Int} {readOk : Bool} {ev : Event} {rest : List Event}
      (hbatch : s.batch = ev :: rest) (hlisten : ev.fd = cfg.listenfd) (huser : InUsers connfd)
      (hfresh : connfd ∉ s.opened) (hbacklog : 0 < s.backlog) (hroom : s.mUserCount < MAX_FD) :
      Move cfg s (.handle connfd readOk)
        { s with
          batch := rest
          backlog := s.backlog - 1
          opened := insert connfd s.opened
          mSockfd := Function.update s.mSockfd connfd connfd
          epoll := Function.update s.epoll connfd (some ⟨readInterest, true, true⟩)
          mUserCount := s.mUserCount + 1
          conns := insert connfd s.conns }
  /-- `accept` failed and nobody noticed, or its descriptor is too large for
      the array -/
  | outside {connfd : Int} {readOk : Bool} {ev : Event} {rest : List Event}
      (hbatch : s.batch = ev :: rest) (hlisten : ev.fd = cfg.listenfd)
      (haccept : CanAccept s connfd) (hroom : s.mUserCount < MAX_FD)
      (hout : ¬ InUsers connfd) :
      Move cfg s (.handle connfd readOk)
        { s with
          batch := rest
          backlog := if connfd = -1 then s.backlog else s.backlog - 1
          fault := some .outOfBounds }
  | closed {connfd : Int} {readOk : Bool} {ev : Event} {rest : List Event}
      (hbatch : s.batch = ev :: rest) (hfd : ev.fd ≠ cfg.listenfd) (hconn : ev.fd ∈ s.conns)
      (hclose : ev.flags.hangup = true ∨ readOk = false) :
      Move cfg s (.handle connfd readOk)
        { s with
          batch := rest
          epoll := Function.update s.epoll ev.fd none
          opened := s.opened.erase ev.fd
          mSockfd := Function.update s.mSockfd ev.fd (-1)
          mUserCount := s.mUserCount - 1
          conns := s.conns.erase ev.fd }
  /-- the request is in the queue, or `append` returned false -/
  | appended {connfd : Int} {ev : Event} {rest : List Event} (hbatch : s.batch = ev :: rest)
      (hfd : ev.fd ≠ cfg.listenfd) (hconn : ev.fd ∈ s.conns) (hread : ev.flags.hangup = false) :
      Move cfg s (.handle connfd true)
        { s with
          batch := rest
          pool := (appendPool s.pool ev.fd).foldl ThreadPool.next s.pool }
  | run {l : ThreadPool.Step Int Unit W} (hrun : l.isRun = true)
      (hen : ThreadPool.Enabled s.pool l) :
      Move cfg s (.run l) { s with pool := ThreadPool.next s.pool l }
  | rearmed {w : W} {i : Int} (hen : ThreadPool.Enabled s.pool (.process w i))
      (hfd : i ≠ cfg.listenfd) (hconn : i ∈ s.conns) :
      Move cfg s (.process w i .noRequest)
        { s with
          pool := ThreadPool.next s.pool (.process w i)
          epoll := Function.update s.epoll i (some ⟨readInterest, true, true⟩) }
  /-- `process()` returned without a `modfd` -/
  | abandoned {w : W} {i : Int} {code : HttpCode}
      (hen : ThreadPool.Enabled s.pool (.process w i)) (hcode : code ≠ .noRequest)
      (hfd : i ≠ cfg.listenfd) (hconn : i ∈ s.conns) :
      Move cfg s (.process w i code) { s with pool := ThreadPool.next s.pool (.process w i) }

variable [Fintype W] {cfg : Config} {s s' : State W}

omit [DecidableEq W] in
theorem closeConn_of_conn (hinv : Inv cfg s) {i : Int} (hi : i ∈ s.conns) (rest : List Event) :
    closeConn { s with batch := rest } i =
      { s with
        batch := rest
        epoll := Function.update s.epoll i none
        opened := s.opened.erase i
        mSockfd := Function.update s.mSockfd i (-1)
        mUserCount := s.mUserCount - 1
        conns := s.conns.erase i } := by
  have hsock : s.mSockfd i = i := hinv.wired.mSockfd_eq i hi
  have hne : i ≠ -1 := hinv.wired.conn_ne_neg_one hi
  simp only [closeConn, removefd, hsock, ne_eq, hne, not_false_eq_true, if_true]

omit [DecidableEq W] in
/-- `accept` has opened `connfd` and it is closed again, if there is one. -/
theorem erase_accepted (hinv : Inv cfg s) {connfd : Int} (haccept : CanAccept s connfd)
    (rest : List Event) :
    accept { s with batch := rest } connfd =
        { s with
          batch := rest
          backlog := if connfd = -1 then s.backlog else s.backlog - 1
          opened := if connfd = -1 then s.opened else insert connfd s.opened } ∧
      (if connfd = -1 then s.opened else insert connfd s.opened).erase connfd = s.opened := by
  rcases haccept with rfl | ⟨hnonneg, hfresh, -⟩
  · rw [accept, if_pos rfl, if_pos rfl, if_pos rfl]
    exact ⟨rfl, Finset.erase_eq_of_notMem hinv.wired.neg_one_not_opened⟩
  · have hne : connfd ≠ -1 := by omega
    rw [accept, if_neg hne, if_neg hne, if_neg hne]
    exact ⟨rfl, Finset.erase_insert hfresh⟩

/-- An event of the listening socket. -/
theorem move_of_listen (hinv : Inv cfg s) {connfd : Int} {readOk : Bool} {ev : Event}
    {rest : List Event} (hbatch : s.batch = ev :: rest) (hlisten : ev.fd = cfg.listenfd)
    (haccept : CanAccept s connfd) :
    Move cfg s (.handle connfd readOk) (handleListen { s with batch := rest } connfd) := by
  obtain ⟨haccepted, herase⟩ := erase_accepted hinv haccept rest
  rw [handleListen, haccepted]
  by_cases hfull : s.mUserCount ≥ MAX_FD
  · rw [if_pos hfull, herase]
    exact .refused hbatch hlisten haccept hfull
  · have hroom : s.mUserCount < MAX_FD := by omega
    rw [if_neg hfull, init]
    by_cases huser : InUsers connfd
    · -- a fresh descriptor is neither `listenfd` nor a connection
      have hne : connfd ≠ -1 := by
        have := huser.1
        omega
      obtain ⟨-, hfresh, hbacklog⟩ := haccept.resolve_left hne
      have hconn : connfd ∉ s.conns := fun hmem => hfresh (hinv.wired.conns_opened _ hmem)
      have hlis : connfd ≠ cfg.listenfd := by
        rintro rfl
        exact hfresh hinv.wired.listen_opened
      have hnone : s.epoll connfd = none := hinv.wired.unregistered _ hlis hconn
      have hadd : connfd ∈ insert connfd s.opened ∧ s.epoll connfd = none :=
        ⟨Finset.mem_insert_self _ _, hnone⟩
      simp only [if_pos huser, addfd, if_neg hne, if_pos hadd]
      exact .admitted hbatch hlisten huser hfresh hbacklog hroom
    · rw [if_neg huser, herase]
      exact .outside hbatch hlisten haccept hroom huser

/-- An event of a connection: nothing but a hang-up or input is ever reported,
    so it is closed or handed to `append`. -/
theorem move_of_conn (hinv : Inv cfg s) {connfd : Int} {readOk : Bool} {ev : Event}
    {rest : List Event} (hbatch : s.batch = ev :: rest) (hfd : ev.fd ≠ cfg.listenfd) :
    Move cfg s (.handle connfd readOk) (handleConn { s with batch := rest } ev readOk) := by
  have hconn := hinv.conn_of_batch hbatch hfd
  have hflags := hinv.batch_flags ev (by rw [hbatch]; exact List.mem_cons_self) hfd
  have huser : ¬ ¬ InUsers ev.fd := not_not_intro (hinv.wired.conns_users _ hconn)
  by_cases hhang : ev.flags.hangup = true
  · rw [handleConn, if_neg huser, if_pos hhang, closeConn_of_conn hinv hconn rest]
    exact .closed hbatch hfd hconn (Or.inl hhang)
  · have hin : ev.flags.epollin = true := by simpa [hhang] using hflags
    rw [handleConn, if_neg huser, if_neg hhang, if_pos hin]
    cases readOk with
    | true => exact .appended hbatch hfd hconn (by simpa using hhang)
    | false =>
        rw [if_neg (by simp), closeConn_of_conn hinv hconn rest]
        exact .closed hbatch hfd hconn (Or.inr rfl)

theorem move_of_process (hinv : Inv cfg s) {w : W} {i : Int} {code : HttpCode}
    (hen : ThreadPool.Enabled s.pool (.process w i)) :
    Move cfg s (.process w i code) (next cfg s (.process w i code)) := by
  obtain ⟨hfd, hconn⟩ := hinv.conn_of_held hen
  by_cases hcode : code = .noRequest
  · subst hcode
    obtain ⟨armed, hreg⟩ := hinv.wired.registered i hconn
    have heq : next cfg s (.process w i .noRequest) =
        { s with
          pool := ThreadPool.next s.pool (.process w i)
          epoll := Function.update s.epoll i (some ⟨readInterest, true, true⟩) } := by
      simp [next, modfd, hinv.wired.mSockfd_eq i hconn, hreg, readInterest]
    rw [heq]
    exact .rearmed hen hfd hconn
  · rw [next, if_neg hcode]
    exact .abandoned hen hcode hfd hconn

/-- **Inversion.**  Every step is one of the moves. -/
theorem move_of_step (hinv : Inv cfg s) {l : Step W} (h : step cfg s l = some s') :
    Move cfg s l s' := by
  obtain ⟨⟨-, hen⟩, rfl⟩ := step_eq_some.mp h
  cases l with
  | arrive => exact .arrive
  | epollWait events =>
      obtain ⟨hidle, -, hnodup, hreport⟩ := hen
      exact .epollWait hidle hnodup hreport
  | handle connfd readOk =>
      obtain ⟨hne, haccept⟩ := hen
      obtain ⟨ev, rest, hbatch⟩ := List.exists_cons_of_ne_nil hne
      rw [next, handle_of_cons cfg hbatch]
      rw [hbatch] at haccept
      by_cases hlisten : ev.fd = cfg.listenfd
      · rw [if_pos hlisten]
        exact move_of_listen hinv hbatch hlisten (haccept (by simp [hlisten]))
      · rw [if_neg hlisten]
        exact move_of_conn hinv hbatch hlisten
  | run l => exact .run hen.1 hen.2
  | process w i code => exact move_of_process hinv hen

end Moves

/-! ## Tokens move -/

section Tokens

variable [DecidableEq W] [Fintype W] {cfg : Config} {s s' : State W}

/-- The step takes the last token of `fd`: a full queue refuses the request, or
    `process()` ends with anything but `NO_REQUEST`. -/
def Loses (s : State W) (fd : Int) : Step W → Prop
  | .handle _ readOk => ∃ ev rest, s.batch = ev :: rest ∧ ev.fd = fd ∧
      ev.flags.hangup = false ∧ readOk = true ∧ s.pool.mWorkqueue.length > s.pool.mMaxRequests
  | .process _ i code => i = fd ∧ code ≠ .noRequest
  | _ => False

/-- `append` adds one copy, or none if the queue is full. -/
theorem inFlight_append (p : Pool Int Unit W) (sockfd fd : Int) :
    inFlight ((appendPool p sockfd).foldl ThreadPool.next p) fd =
      inFlight p fd +
        if p.mWorkqueue.length > p.mMaxRequests then 0 else if sockfd = fd then 1 else 0 := by
  by_cases hfull : p.mWorkqueue.length > p.mMaxRequests
  · rw [appendPool, if_pos hfull, if_pos hfull]
    exact inFlight_of_eq rfl rfl fd
  · rw [appendPool, if_neg hfull, if_neg hfull]
    simp only [List.foldl_cons, List.foldl_nil, ThreadPool.next, inFlight, List.count_append,
      List.count_singleton, beq_iff_eq, Option.some.injEq]
    omega

omit [DecidableEq W] [Fintype W] in
/-- Reporting moves the token of an armed connection into the batch. -/
theorem reported_count (hwired : Wired cfg s.opened s.conns s.mSockfd s.epoll)
    {events : List Event} (hnodup : (events.map Event.fd).Nodup)
    (hreport : ∀ ev ∈ events, CanReport cfg s ev) {fd : Int} (hfd : fd ≠ cfg.listenfd) :
    armedCount (disarm (events.map Event.fd) s.epoll) fd + batchCount events fd =
      armedCount s.epoll fd := by
  by_cases hmem : fd ∈ events.map Event.fd
  · -- reported, so it was armed and is not any more
    obtain ⟨ev, hev, rfl⟩ := List.mem_map.mp hmem
    obtain ⟨reg, hreg, harmed⟩ := (Option.any_eq_true _ _).mp ((hreport ev hev).2 hfd)
    have hconn : ev.fd ∈ s.conns := by
      by_contra hn
      rw [hwired.unregistered _ hfd hn] at hreg
      cases hreg
    obtain ⟨armed, hreg'⟩ := hwired.registered _ hconn
    rw [hreg'] at hreg
    cases hreg
    rw [batchCount, List.count_eq_one_of_mem hnodup hmem]
    simp_all [armedCount, disarm]
  · rw [batchCount, List.count_eq_zero_of_not_mem hmem]
    have hsame : disarm (events.map Event.fd) s.epoll fd = s.epoll fd := by
      have hnot : (events.map Event.fd).contains fd = false := by
        rw [List.contains_eq_mem, decide_eq_false hmem]
      simp only [disarm, hnot, Bool.and_false, Bool.false_eq_true, if_false, Option.map_id']
    rw [armedCount, armedCount, hsame]
    rfl

omit [DecidableEq W] [Fintype W] in
/-- An event for another descriptor takes no token of `fd` along. -/
theorem not_loses_of_ne {ev : Event} {rest : List Event} {fd connfd : Int} {readOk : Bool}
    (hbatch : s.batch = ev :: rest) (hne : ev.fd ≠ fd) :
    ¬ Loses s fd (.handle connfd readOk) := by
  rintro ⟨ev', rest', hbatch', hfd, -⟩
  rw [hbatch] at hbatch'
  cases hbatch'
  exact hne hfd

omit [DecidableEq W] in
/-- A step that touches neither the registration of `fd` nor its copies, and
    handles no event for it. -/
theorem tokens_of_ne {ev : Event} {rest : List Event} {fd : Int} {t : State W}
    (hbatch : s.batch = ev :: rest) (hne : ev.fd ≠ fd) (hrest : t.batch = rest)
    (hepoll : armedCount t.epoll fd = armedCount s.epoll fd)
    (hpool : inFlight t.pool fd = inFlight s.pool fd) : tokens t fd = tokens s fd := by
  rw [tokens_eq, tokens_eq, hbatch, hrest, hepoll, hpool, batchCount_cons, if_neg hne]
  rfl

variable {x : ConnFd cfg} {t : State W}

omit [DecidableEq W] in
/-- `addfd` arms what nothing was registered for. -/
theorem change_admitted (hwired : Wired cfg s.opened s.conns s.mSockfd s.epoll) {connfd : Int}
    {readOk : Bool} {ev : Event} {rest : List Event} (hbatch : s.batch = ev :: rest)
    (hne : ev.fd ≠ x.1) (hdead : connfd ∉ s.conns) (hrest : t.batch = rest)
    (hepoll : t.epoll = Function.update s.epoll connfd (some ⟨readInterest, true, true⟩))
    (hpool : t.pool = s.pool) (hconns : t.conns = insert connfd s.conns) :
    (custody cfg).Change s t x (Loses s x.1 (.handle connfd readOk)) := by
  obtain ⟨fd, hx⟩ := x
  have harmed := congrArg (armedCount · fd) hepoll
  rw [armedCount_update_armed] at harmed
  by_cases hnew : fd = connfd
  · subst hnew
    have hnone : armedCount s.epoll fd = 0 := by
      rw [armedCount, hwired.unregistered fd hx hdead]
      rfl
    refine .opens ?_ hdead ?_ (not_loses_of_ne hbatch hne)
    · show tokens t fd = tokens s fd + 1
      rw [if_pos rfl] at harmed
      rw [tokens_eq, tokens_eq, hbatch, batchCount_cons, if_neg hne, hrest, hpool, harmed, hnone]
      omega
    · show fd ∈ t.conns
      rw [hconns]
      exact Finset.mem_insert_self _ _
  · rw [if_neg hnew] at harmed
    refine .keep (tokens_of_ne hbatch hne hrest harmed (by rw [hpool])) ?_
      (not_loses_of_ne hbatch hne)
    show fd ∈ t.conns ↔ fd ∈ s.conns
    rw [hconns, Finset.mem_insert, or_iff_right hnew]

omit [DecidableEq W] in
/-- The event was the only token, so `removefd` removes none. -/
theorem change_closed (hle : tokens s x.1 ≤ 1) {connfd : Int} {readOk : Bool} {ev : Event}
    {rest : List Event} (hbatch : s.batch = ev :: rest)
    (hclose : ev.flags.hangup = true ∨ readOk = false) (hrest : t.batch = rest)
    (hepoll : t.epoll = Function.update s.epoll ev.fd none) (hpool : t.pool = s.pool)
    (hconns : t.conns = s.conns.erase ev.fd) :
    (custody cfg).Change s t x (Loses s x.1 (.handle connfd readOk)) := by
  obtain ⟨fd, hx⟩ := x
  have harmed := congrArg (armedCount · fd) hepoll
  rw [armedCount_update_none] at harmed
  by_cases heq : ev.fd = fd
  · subst heq
    refine .closes ?_ ?_ ?_
    · show tokens t ev.fd + 1 = tokens s ev.fd
      rw [if_pos rfl] at harmed
      rw [tokens_eq, hbatch, batchCount_cons, if_pos rfl] at hle
      rw [tokens_eq, tokens_eq, hbatch, batchCount_cons, if_pos rfl, hrest, hpool, harmed]
      dsimp only at hle
      omega
    · show ev.fd ∉ t.conns
      rw [hconns]
      exact Finset.notMem_erase _ _
    · rintro ⟨ev', rest', hbatch', -, hhang, hread, -⟩
      rw [hbatch] at hbatch'
      cases hbatch'
      rcases hclose with hclose | hclose
      · rw [hhang] at hclose
        cases hclose
      · rw [hread] at hclose
        cases hclose
  · rw [if_neg (Ne.symm heq)] at harmed
    refine .keep (tokens_of_ne hbatch heq hrest harmed (by rw [hpool])) ?_
      (not_loses_of_ne hbatch heq)
    show fd ∈ t.conns ↔ fd ∈ s.conns
    rw [hconns, Finset.mem_erase, and_iff_right (Ne.symm heq)]

/-- From the batch into the queue, or nowhere. -/
theorem change_appended {connfd : Int} {ev : Event} {rest : List Event}
    (hbatch : s.batch = ev :: rest) (hconn : ev.fd ∈ s.conns) (hread : ev.flags.hangup = false)
    (hrest : t.batch = rest) (hepoll : t.epoll = s.epoll)
    (hpool : t.pool = (appendPool s.pool ev.fd).foldl ThreadPool.next s.pool)
    (hconns : t.conns = s.conns) :
    (custody cfg).Change s t x (Loses s x.1 (.handle connfd true)) := by
  obtain ⟨fd, hx⟩ := x
  have hcopies := inFlight_append s.pool ev.fd fd
  rw [← hpool] at hcopies
  have hlive : fd ∈ t.conns ↔ fd ∈ s.conns := by rw [hconns]
  by_cases heq : ev.fd = fd
  · subst heq
    have hbefore : tokens s ev.fd = armedCount s.epoll ev.fd + (batchCount rest ev.fd + 1)
        + inFlight s.pool ev.fd := by
      rw [tokens_eq, hbatch, batchCount_cons, if_pos rfl]
    have hafter : tokens t ev.fd = armedCount s.epoll ev.fd + batchCount rest ev.fd
        + inFlight t.pool ev.fd := by
      rw [tokens_eq, hrest, hepoll]
    by_cases hfull : s.pool.mWorkqueue.length > s.pool.mMaxRequests
    · -- `append` returns false and the event is gone
      refine .loses ?_ (hlive.mpr hconn) ⟨ev, rest, hbatch, rfl, hread, rfl, hfull⟩
      show tokens t ev.fd + 1 = tokens s ev.fd
      rw [if_pos hfull] at hcopies
      omega
    · refine .keep ?_ hlive ?_
      · show tokens t ev.fd = tokens s ev.fd
        rw [if_neg hfull, if_pos rfl] at hcopies
        omega
      · rintro ⟨ev', rest', hbatch', -, -, -, hfull'⟩
        exact hfull hfull'
  · rw [if_neg heq, ite_self] at hcopies
    exact .keep (tokens_of_ne hbatch heq hrest (by rw [hepoll]) hcopies) hlive
      (not_loses_of_ne hbatch heq)

/-- A worker is done: it had the only token, and `modfd` puts it back. -/
theorem change_rearmed (hle : tokens s x.1 ≤ 1) {w : W} {i : Int}
    (hen : ThreadPool.Enabled s.pool (.process w i)) (hbatch : t.batch = s.batch)
    (hepoll : t.epoll = Function.update s.epoll i (some ⟨readInterest, true, true⟩))
    (hpool : t.pool = ThreadPool.next s.pool (.process w i)) (hconns : t.conns = s.conns) :
    (custody cfg).Change s t x (Loses s x.1 (.process w i .noRequest)) := by
  obtain ⟨fd, hx⟩ := x
  have harmed := congrArg (armedCount · fd) hepoll
  rw [armedCount_update_armed] at harmed
  have hcopies := inFlight_process hen fd
  rw [← hpool] at hcopies
  have hlive : fd ∈ t.conns ↔ fd ∈ s.conns := by rw [hconns]
  refine .keep ?_ hlive (fun hlost => hlost.2 rfl)
  show tokens t fd = tokens s fd
  rw [tokens_eq] at hle
  rw [tokens_eq, tokens_eq, hbatch, harmed]
  dsimp only at hle
  by_cases heq : i = fd
  · rw [if_pos heq] at hcopies
    rw [if_pos heq.symm]
    omega
  · rw [if_neg heq] at hcopies
    rw [if_neg (Ne.symm heq)]
    omega

/-- A worker is done, and nothing takes over. -/
theorem change_abandoned {w : W} {i : Int} {code : HttpCode}
    (hen : ThreadPool.Enabled s.pool (.process w i)) (hcode : code ≠ .noRequest)
    (hconn : i ∈ s.conns) (hbatch : t.batch = s.batch) (hepoll : t.epoll = s.epoll)
    (hpool : t.pool = ThreadPool.next s.pool (.process w i)) (hconns : t.conns = s.conns) :
    (custody cfg).Change s t x (Loses s x.1 (.process w i code)) := by
  obtain ⟨fd, hx⟩ := x
  have hcopies := inFlight_process hen fd
  rw [← hpool] at hcopies
  have hlive : fd ∈ t.conns ↔ fd ∈ s.conns := by rw [hconns]
  have hcount : tokens t fd = armedCount s.epoll fd + batchCount s.batch fd
      + inFlight t.pool fd := by
    rw [tokens_eq, hbatch, hepoll]
  have hbefore : tokens s fd = armedCount s.epoll fd + batchCount s.batch fd
      + inFlight s.pool fd := tokens_eq s fd
  by_cases heq : i = fd
  · subst heq
    refine .loses ?_ (hlive.mpr hconn) ⟨rfl, hcode⟩
    show tokens t i + 1 = tokens s i
    rw [if_pos rfl] at hcopies
    omega
  · refine .keep ?_ hlive (fun hlost => heq hlost.1)
    show tokens t fd = tokens s fd
    rw [if_neg heq] at hcopies
    omega

/-- **Every step moves tokens properly.** -/
theorem Move.change (hinv : Inv cfg s) {l : Step W} (h : Move cfg s l s') (x : ConnFd cfg) :
    (custody cfg).Change s s' x (Loses s x.1 l) := by
  have hle : tokens s x.1 ≤ 1 := (hinv.exclusive x).1
  have hother {ev : Event} (hlisten : ev.fd = cfg.listenfd) : ev.fd ≠ x.1 := by
    rw [hlisten]
    exact x.2.symm
  cases h with
  | arrive => exact .keep rfl Iff.rfl id
  | epollWait hidle hnodup hreport =>
      refine .keep ?_ Iff.rfl id
      have hcount := reported_count hinv.wired hnodup hreport x.2
      show tokens (Server.epollWait cfg s _) x.1 = tokens s x.1
      rw [tokens_eq, tokens_eq, hidle, batchCount_nil]
      simp only [Server.epollWait]
      omega
  | @refused connfd readOk ev rest hbatch hlisten | @outside connfd readOk ev rest hbatch hlisten =>
      have hne := hother hlisten
      exact .keep (tokens_of_ne hbatch hne rfl rfl rfl) Iff.rfl (not_loses_of_ne hbatch hne)
  | @admitted connfd _ ev rest hbatch hlisten _ hfresh _ _ =>
      have hdead : connfd ∉ s.conns := fun hmem => hfresh (hinv.wired.conns_opened _ hmem)
      exact change_admitted hinv.wired hbatch (hother hlisten) hdead rfl rfl rfl rfl
  | closed hbatch _ _ hclose => exact change_closed hle hbatch hclose rfl rfl rfl rfl
  | appended hbatch _ hconn hread => exact change_appended hbatch hconn hread rfl rfl rfl rfl
  | run hrun hen =>
      refine .keep ?_ Iff.rfl id
      show tokens _ x.1 = tokens s x.1
      rw [tokens_eq, tokens_eq, inFlight_run hrun hen]
  | rearmed hen _ _ => exact change_rearmed hle hen rfl rfl rfl rfl
  | abandoned hen hcode _ hconn => exact change_abandoned hen hcode hconn rfl rfl rfl rfl

/-! ## The invariant holds -/

theorem Move.wired (hinv : Inv cfg s) {l : Step W} (h : Move cfg s l s') :
    Wired cfg s'.opened s'.conns s'.mSockfd s'.epoll := by
  cases h with
  | arrive | refused | outside | appended | run | abandoned => exact hinv.wired
  | epollWait _ _ _ => exact hinv.wired.disarm _
  | admitted _ _ huser hfresh _ _ => exact hinv.wired.admit huser hfresh
  | closed _ hfd _ _ => exact hinv.wired.close hfd
  | rearmed _ _ hconn => exact hinv.wired.rearm hconn

/-- Nobody asks for `EPOLLOUT`, so an event is a hang-up or input. -/
theorem Move.batch_flags (hinv : Inv cfg s) {l : Step W} (h : Move cfg s l s') :
    ∀ ev ∈ s'.batch, ev.fd ≠ cfg.listenfd → (ev.flags.hangup || ev.flags.epollin) = true := by
  cases h with
  | arrive | run | rearmed | abandoned => exact hinv.batch_flags
  | refused hbatch | admitted hbatch | outside hbatch | closed hbatch | appended hbatch =>
      intro ev hev
      exact hinv.batch_flags ev (by rw [hbatch]; exact List.mem_cons_of_mem _ hev)
  | epollWait _ _ hreport =>
      intro ev hev hfd
      obtain ⟨reg, hreg, hok⟩ := (Option.any_eq_true _ _).mp ((hreport ev hev).2 hfd)
      have hconn : ev.fd ∈ s.conns := by
        by_contra hn
        rw [hinv.wired.unregistered _ hfd hn] at hreg
        cases hreg
      obtain ⟨armed, hreg'⟩ := hinv.wired.registered _ hconn
      obtain rfl : (⟨readInterest, true, armed⟩ : Registration) = reg :=
        Option.some.inj (hreg'.symm.trans hreg)
      -- what is reported is not nothing, and not `EPOLLOUT`
      simp only [Bool.and_eq_true, decide_eq_true_eq] at hok
      obtain ⟨-, hsome, -, hout, -⟩ := hok
      have hnot : ev.flags.epollout = false := by
        by_contra hn
        exact absurd (hout (by simpa using hn)) (by simp [readInterest, epollin])
      simpa [hnot] using hsome

theorem Move.listen_not_queued (hinv : Inv cfg s) {l : Step W} (h : Move cfg s l s') :
    inFlight s'.pool cfg.listenfd = 0 := by
  have hnone := hinv.listen_not_queued
  cases h with
  | arrive | epollWait | refused | admitted | outside | closed => exact hnone
  | @appended _ ev _ _ hfd _ _ =>
      have hcopies := inFlight_append s.pool ev.fd cfg.listenfd
      rw [if_neg hfd, ite_self] at hcopies
      exact hcopies.trans hnone
  | run hrun hen => exact (inFlight_run hrun hen _).trans hnone
  | rearmed hen _ _ | abandoned hen _ _ _ =>
      have hcopies := inFlight_process hen cfg.listenfd
      dsimp only
      omega

theorem Inv.of_step (hinv : Inv cfg s) {l : Step W} (h : step cfg s l = some s') : Inv cfg s' :=
  have hmove := move_of_step hinv h
  ⟨hmove.wired hinv, hmove.batch_flags hinv, hmove.listen_not_queued hinv,
    hinv.exclusive.change (hmove.change hinv)⟩

omit [DecidableEq W] [Fintype W] in
theorem start_epoll_of_ne (memory : Int → Int) {fd : Int} (hfd : fd ≠ cfg.listenfd) :
    (start W cfg memory).epoll fd = none := by
  simp [start, hfd]

omit [DecidableEq W] in
theorem inv_start (cfg : Config) (memory : Int → Int) : Inv cfg (start W cfg memory) where
  wired :=
    { listen_opened := by simp [start]
      opened_nonneg := by
        intro fd hfd
        have := cfg.listenfd_nonneg
        have := cfg.epollfd_nonneg
        simp only [start, Finset.mem_insert, Finset.mem_singleton] at hfd
        omega
      conns_opened := by simp [start]
      conns_users := by simp [start]
      listen_not_conn := by simp [start]
      mSockfd_eq := by simp [start]
      registered := by simp [start]
      unregistered := by
        intro fd hfd _
        exact start_epoll_of_ne memory hfd }
  batch_flags := by simp [start]
  listen_not_queued := by simp [start, Pool.start, inFlight, threadCount]
  exclusive := by
    rintro ⟨fd, hfd⟩
    have hzero : tokens (start W cfg memory) fd = 0 := by
      rw [tokens_eq, armedCount, start_epoll_of_ne memory hfd]
      simp [start, Pool.start, inFlight, threadCount, batchCount]
    exact ⟨by show tokens _ fd ≤ 1; omega, fun _ => hzero⟩

theorem inv_of_exec {memory : Int → Int} {tr : List (Step W)}
    (h : exec (step cfg) (start W cfg memory) tr = some s) : Inv cfg s :=
  exec_invariant (inv_start cfg memory) (fun _ _ _ hinv hl => hinv.of_step hl) h

/-! ## Exclusive ownership -/

/-- When it handles the next event the main thread runs `init`, `read` or
    `close_conn` on slot `i`. -/
def Touches (cfg : Config) (s : State W) (connfd i : Int) : Prop :=
  ∃ ev rest, s.batch = ev :: rest ∧
    ((ev.fd = cfg.listenfd ∧ s.mUserCount < MAX_FD ∧ connfd = i) ∨
      (ev.fd ≠ cfg.listenfd ∧ (ev.flags.hangup || ev.flags.epollin) = true ∧ ev.fd = i))

/-- What the main thread touches is neither queued nor being processed. -/
theorem Inv.untouched (hinv : Inv cfg s) {connfd i : Int} {readOk : Bool}
    (h : step cfg s (.handle connfd readOk) = some s') (htouch : Touches cfg s connfd i) :
    queueCount s i = 0 ∧ heldCount s i = 0 := by
  obtain ⟨ev, rest, hbatch, ⟨hlisten, -, rfl⟩ | ⟨hfd, -, rfl⟩⟩ := htouch
  · -- a descriptor that `accept` may return belongs to no connection
    obtain ⟨⟨-, -, haccept⟩, -⟩ := step_eq_some.mp h
    have hclosed : connfd ∉ s.opened := by
      rcases haccept (by rw [hbatch]; simp [hlisten]) with rfl | ⟨-, hfresh, -⟩
      · exact hinv.wired.neg_one_not_opened
      · exact hfresh
    have hfd : connfd ≠ cfg.listenfd := by
      rintro rfl
      exact hclosed hinv.wired.listen_opened
    have hzero : tokens s connfd = 0 := (hinv.exclusive ⟨connfd, hfd⟩).2
      (fun hconn => hclosed (hinv.wired.conns_opened _ hconn))
    rw [tokens] at hzero
    omega
  · -- the event itself is the one token
    have hle : tokens s ev.fd ≤ 1 := (hinv.exclusive ⟨ev.fd, hfd⟩).1
    rw [tokens, hbatch, batchCount_cons, if_pos rfl] at hle
    omega

/-- **Exclusive ownership.**  In every reachable state a connection is in at
    most one place, a closed one in none; no two workers hold the same
    connection, and the main thread touches none that is queued or held. -/
theorem exclusive_ownership {memory : Int → Int} {tr : List (Step W)}
    (h : exec (step cfg) (start W cfg memory) tr = some s) :
    (∀ fd, fd ≠ cfg.listenfd → tokens s fd ≤ 1 ∧ (fd ∉ s.conns → tokens s fd = 0)) ∧
    (∀ w w' fd, s.pool.worker w = .popped (some fd) → s.pool.worker w' = .popped (some fd) →
      w = w') ∧
    (∀ connfd readOk s' i, step cfg s (.handle connfd readOk) = some s' →
      Touches cfg s connfd i → queueCount s i = 0 ∧ heldCount s i = 0) := by
  have hinv := inv_of_exec h
  refine ⟨fun fd hfd => hinv.exclusive ⟨fd, hfd⟩, ?_, fun _ _ _ _ hl => hinv.untouched hl⟩
  intro w w' fd hw hw'
  by_contra hne
  have htwo : 2 ≤ heldCount s fd := two_le_threadCount hne hw hw'
  have hle : tokens s fd ≤ 1 := (hinv.exclusive ⟨fd, (hinv.conn_of_held hw).1⟩).1
  rw [tokens] at hle
  omega

/-- `listenfd` 3, `epollfd` 4 and the default size of the pool. -/
def sampleConfig : Config := ⟨3, 4, 10000, by decide, by decide⟩

/-- A client connects on descriptor 5, sends something, and a worker takes its
    request and finds it incomplete. -/
def sampleRun : List (Step Bool) :=
  [.arrive, .epollWait [⟨3, epollin⟩], .handle 5 false, .epollWait [⟨5, epollin⟩],
   .handle 0 true, .run (.loop true), .run (.wait true), .run (.pop true (some 5)),
   .process true 5 .noRequest]

theorem exclusive_ownership_sample :
    ∃ s, exec (step sampleConfig) (start Bool sampleConfig fun _ => 0) sampleRun = some s ∧
      5 ∈ s.conns ∧ tokens s 5 ≤ 1 := by
  obtain ⟨s, hs, hconn⟩ : ∃ s, exec (step sampleConfig) (start Bool sampleConfig fun _ => 0)
      sampleRun = some s ∧ 5 ∈ s.conns := ⟨_, rfl, by decide⟩
  exact ⟨s, hs, hconn, ((exclusive_ownership hs).1 5 (by decide)).1⟩

end Tokens

end WebServer.Server
