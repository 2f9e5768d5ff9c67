/-
  WebServer.Server.Readiness

  The whole server over an epoll with a ready list.

  `WebServer.Server.System` lets `epoll_wait` report whatever is armed, whether
  or not something has happened to it.  Here an event has a reason, as in the
  kernel: a descriptor gets on the ready list when its client sends or hangs
  up while its registration is armed, or when `EPOLL_CTL_ADD` or
  `EPOLL_CTL_MOD` arms it with something there already; `epoll_wait` reports
  what is on the list and takes it off.  At the end of a stream `recv` returns
  0 and not `EAGAIN`, also when it is asked for no bytes because the buffer has
  just become full; with the client still there and nothing left in the receive
  queue that call may answer `EAGAIN`.

  The list is then exact (`ready_iff`): between the `read()` that empties a
  receive queue and the `modfd` at the end of `process()` no event of a
  connection is lost, and none is left over.  So the server stands still only
  when everything its clients have sent was read (`rest_all_read`), and an
  event for nothing, which would make `process_read()` fault, does not occur:
  what is left to bring the program down is CRLF, and an `accept` that returns
  no index of `users` (`fault_crlf_or_accept`).
-/

import WebServer.Server.Clients

namespace WebServer.Readiness

open WebServer.Lib WebServer.Server

/-! ## State -/

structure State (W : Type*) where
  sys : System.State W
  /-- on the ready list of epoll -/
  ready : Int → Bool
  /-- the peer has shut its side down, or is gone -/
  gone : Int → Bool

def start (W : Type*) (cfg : Config) (users : Int → HttpConn) : State W where
  sys := System.start W cfg users
  ready := fun _ => false
  gone := fun _ => false

/-! ## Steps -/

inductive Step (W : Type*) where
  /-- a step of the server as before -/
  | act (l : System.Step W)
  /-- the client of an open connection hangs up -/
  | hangup (fd : Int)

variable {W : Type*}

def armed (s : System.State W) (fd : Int) : Bool := (s.server.epoll fd).any Registration.armed

/-- There is something to read, or the end of the stream. -/
def readable (s : State W) (fd : Int) : Bool := !(s.sys.inbox fd).isEmpty || s.gone fd

/-- What the kernel answers. -/
def Allowed (cfg : Config) (s : State W) : System.Step W → Prop
  | .send fd _ => s.gone fd = false
  | .epollWait events => ∀ ev ∈ events, ev.fd ≠ cfg.listenfd →
      s.ready ev.fd = true ∧ (ev.flags.hangup = true → s.gone ev.fd = true) ∧
        (ev.flags.epollin = true → readable s ev.fd = true)
  -- behind the end of a stream there is nothing to wait for
  | .handle answers => ∀ ev ∈ s.sys.server.batch.head?, s.gone ev.fd = true →
      (RecvAnswer.lastOf answers).blocks = false
  | _ => True

instance (cfg : Config) (s : State W) (l : System.Step W) : Decidable (Allowed cfg s l) :=
  match l with
  | .send .. => inferInstanceAs (Decidable (_ = _))
  | .epollWait events => inferInstanceAs (Decidable (∀ ev ∈ events, _))
  | .handle _ => inferInstanceAs (Decidable (∀ ev ∈ s.sys.server.batch.head?, _))
  | .arrive => isTrue trivial
  | .accept .. => isTrue trivial
  | .run _ => isTrue trivial
  | .pass _ => isTrue trivial

/-- The ready list behind a step that ends in `sys`. -/
def readyAfter (s : State W) (sys : System.State W) : System.Step W → Int → Bool
  -- an arrival puts an armed descriptor on the list
  | .send fd bytes => Function.update s.ready fd (s.ready fd || armed s.sys fd && !bytes.isEmpty)
  -- a reported one is taken off
  | .epollWait events => fun fd => s.ready fd && !(events.map Event.fd).contains fd
  -- `EPOLL_CTL_ADD` looks at what is there already
  | .accept connfd _ early => Function.update s.ready connfd (armed sys connfd && !early.isEmpty)
  -- `EPOLL_CTL_DEL`
  | .handle _ => fun fd => s.ready fd && (sys.server.epoll fd).isSome
  -- so does `EPOLL_CTL_MOD`
  | .pass w =>
      match s.sys.server.pool.worker w with
      | .popped (some i) => Function.update s.ready i (s.ready i || armed sys i && readable s i)
      | _ => s.ready
  | .arrive | .run _ => s.ready

/-- A new connection has a client of its own. -/
def goneAfter (s : State W) : System.Step W → Int → Bool
  | .accept connfd _ _ => Function.update s.gone connfd false
  | _ => s.gone

variable [DecidableEq W]

def step (doRequest : HttpConn → HttpCode × HttpConn) (cfg : Config) (s : State W) :
    Step W → Option (State W)
  | .act l =>
      if Allowed cfg s l then
        (System.step doRequest cfg s.sys l).map fun sys =>
          ⟨sys, readyAfter s sys l, goneAfter s l⟩
      else
        none
  | .hangup fd =>
      if fd ∈ s.sys.server.conns then
        some { s with
          ready := Function.update s.ready fd (s.ready fd || armed s.sys fd)
          gone := Function.update s.gone fd true }
      else
        none

/-! ## Invariant -/

/-- The ready list is exact, an event of a connection in the batch has a reason,
    and what is queued or processed has begun to be read. -/
structure Inv [Fintype W] (cfg : Config) (s : State W) : Prop where
  sys : System.Inv cfg s.sys
  ready : ∀ fd, fd ≠ cfg.listenfd → s.ready fd = (armed s.sys fd && readable s fd)
  batch : ∀ ev ∈ s.sys.server.batch, ev.fd ≠ cfg.listenfd → ev.flags.hangup = false →
    readable s ev.fd = true
  begun : ∀ fd, 0 < ThreadPool.inFlight s.sys.server.pool fd → 0 < (s.sys.users fd).mReadIdx

omit [DecidableEq W] in
theorem inv_start [Fintype W] (cfg : Config) (users : Int → HttpConn) :
    Inv cfg (start W cfg users) where
  sys := System.inv_start cfg users
  ready := by
    intro fd _
    simp [start, readable, System.start]
  batch := nofun
  begun := by
    intro fd hpos
    simp [start, System.start, Server.start, ThreadPool.Pool.start, ThreadPool.inFlight,
      threadCount] at hpos

section Kernel

variable [Fintype W] {cfg : Config} {t t' : Server.State W}

omit [DecidableEq W] [Fintype W] in
/-- A reported connection is not armed any more. -/
theorem armed_disarm {opened conns : Finset Int} {mSockfd : Int → Int}
    {epoll : Int → Option Registration} (h : Wired cfg opened conns mSockfd epoll) {fd : Int}
    (hfd : fd ≠ cfg.listenfd) (fds : List Int) :
    (disarm fds epoll fd).any Registration.armed
      = ((epoll fd).any Registration.armed && !fds.contains fd) := by
  by_cases hconn : fd ∈ conns
  · obtain ⟨a, hreg⟩ := h.registered fd hconn
    rw [disarm, hreg]
    cases fds.contains fd <;> simp
  · rw [disarm, h.unregistered fd hfd hconn]
    rfl

omit [DecidableEq W] in
/-- The connection of an event is not armed, in the batch a second time or with
    the pool. -/
theorem batch_token (hinv : Server.Inv cfg t) {ev : Event} {rest : List Event}
    (hbatch : t.batch = ev :: rest) (hfd : ev.fd ≠ cfg.listenfd) :
    (t.epoll ev.fd).any Registration.armed = false ∧ (∀ ev' ∈ rest, ev'.fd ≠ ev.fd) ∧
      ThreadPool.inFlight t.pool ev.fd = 0 := by
  have hle : tokens t ev.fd ≤ 1 := (hinv.exclusive ⟨ev.fd, hfd⟩).1
  rw [tokens_eq, hbatch, batchCount_cons, if_pos rfl] at hle
  refine ⟨?_, fun ev' hev' heq => ?_, by omega⟩
  · rw [Bool.eq_false_iff]
    intro harmed
    rw [armedCount, if_pos harmed] at hle
    omega
  · have hpos : 0 < batchCount rest ev.fd :=
      List.count_pos_iff.mpr (List.mem_map.mpr ⟨ev', hev', heq⟩)
    omega

omit [DecidableEq W] in
theorem conn_of_mem_batch (hinv : Server.Inv cfg t) {ev : Event} (hev : ev ∈ t.batch)
    (hfd : ev.fd ≠ cfg.listenfd) : ev.fd ∈ t.conns := by
  apply hinv.conn_of_tokens hfd
  have hpos : 0 < batchCount t.batch ev.fd :=
    List.count_pos_iff.mpr (List.mem_map_of_mem hev)
  rw [tokens]
  omega

omit [DecidableEq W] in
theorem conn_of_inFlight (hinv : Server.Inv cfg t) {fd : Int}
    (hpos : 0 < ThreadPool.inFlight t.pool fd) : fd ∈ t.conns := by
  have hfd : fd ≠ cfg.listenfd := by
    rintro rfl
    rw [hinv.listen_not_queued] at hpos
    exact lt_irrefl 0 hpos
  apply hinv.conn_of_tokens hfd
  rw [tokens_eq]
  omega

end Kernel

section Invariance

variable [Fintype W] {cfg : Config} {s s' : State W} {sys : System.State W} {l : System.Step W}

omit [DecidableEq W] in
theorem Inv.armed_of_ready (hinv : Inv cfg s) {fd : Int} (hfd : fd ≠ cfg.listenfd)
    (hready : s.ready fd = true) : armed s.sys fd = true ∧ readable s fd = true := by
  rw [hinv.ready fd hfd, Bool.and_eq_true] at hready
  exact hready

omit [DecidableEq W] in
/-- `EPOLL_CTL_DEL` takes nothing off the list that is still registered. -/
theorem Inv.ready_and_isSome (hinv : Inv cfg s) {fd : Int} (hfd : fd ≠ cfg.listenfd) :
    (s.ready fd && (s.sys.server.epoll fd).isSome) = s.ready fd := by
  cases hready : s.ready fd with
  | false => rfl
  | true =>
      obtain ⟨reg, hreg, -⟩ := (Option.any_eq_true _ _).mp (hinv.armed_of_ready hfd hready).1
      rw [hreg]
      rfl

omit [DecidableEq W] in
/-- A client that gets no slot leaves the list as it is. -/
theorem Inv.ready_turned_away (hinv : Inv cfg s) {connfd : Int} (addr : SockaddrIn)
    (early : List UInt8) (hnone : s.sys.server.epoll connfd = none)
    (hepoll : sys.server.epoll = s.sys.server.epoll) (hinbox : sys.inbox = s.sys.inbox)
    {fd : Int} (hfd : fd ≠ cfg.listenfd) :
    readyAfter s sys (.accept connfd addr early) fd
      = (armed sys fd && readable ⟨sys, readyAfter s sys (.accept connfd addr early),
          goneAfter s (.accept connfd addr early)⟩ fd) := by
  by_cases heq : fd = connfd
  · subst heq
    simp only [readyAfter, Function.update_self, armed, hepoll, hnone, Option.any_none,
      Bool.false_and]
  · simp only [readyAfter, Function.update_of_ne heq, hinv.ready fd hfd, readable, goneAfter, armed,
      hepoll, hinbox]

theorem Inv.ready_act (hinv : Inv cfg s) (hmove : System.Move cfg s.sys l sys) :
    ∀ fd, fd ≠ cfg.listenfd → readyAfter s sys l fd
      = (armed sys fd && readable ⟨sys, readyAfter s sys l, goneAfter s l⟩ fd) := by
  intro fd hfd
  have hserver := hinv.sys.server
  have hold := hinv.ready fd hfd
  cases hmove with
  | main hl hstep =>
      cases hl with
      | arrive =>
          cases Server.move_of_step hserver hstep with
          | arrive => exact hold
      | epollWait events =>
          cases Server.move_of_step hserver hstep with
          | epollWait hidle hnodup hreport =>
              have harmed := armed_disarm hserver.wired hfd (events.map Event.fd)
              simp only [readyAfter, hold, armed, readable, goneAfter, Server.epollWait, harmed]
              exact Bool.and_right_comm _ _ _
      | run l =>
          cases Server.move_of_step hserver hstep with
          | run hrun hen => exact hold
  | @send fd' bytes hconn =>
      by_cases heq : fd = fd'
      · subst heq
        simp only [readyAfter, Function.update_self, hold, readable, goneAfter, armed]
        cases (s.sys.server.epoll fd).any Registration.armed <;>
          cases s.sys.inbox fd <;> cases bytes <;> simp
      · simp only [readyAfter, Function.update_of_ne heq, hold, readable, goneAfter, armed]
  | refused hbatch hlisten hfull hstep =>
      obtain ⟨⟨-, hnone⟩, rfl⟩ :=
        System.turned_away_eq hserver hbatch hlisten (Or.inl hfull) hstep
      exact hinv.ready_turned_away _ _ hnone rfl rfl hfd
  | outside hbatch hlisten hroom hout hstep =>
      obtain ⟨⟨-, hnone⟩, rfl⟩ := System.turned_away_eq hserver hbatch hlisten (Or.inr hout) hstep
      exact hinv.ready_turned_away _ _ hnone rfl rfl hfd
  | @accepted connfd addr early server ev rest hbatch hlisten hroom huser hstep =>
      obtain ⟨-, rfl⟩ := System.admitted_eq hserver hbatch hlisten hroom huser hstep
      by_cases heq : fd = connfd
      · subst heq
        simp only [readyAfter, Function.update_self, readable, goneAfter, Bool.or_false]
      · simp only [readyAfter, Function.update_of_ne heq, hold, readable, goneAfter, armed]
  | @closed answers server ev rest conn inbox hbatch hfd' hclose hinbox hstep =>
      obtain rfl := System.closed_eq hserver hbatch hfd' hstep
      by_cases heq : fd = ev.fd
      · subst heq
        simp [readyAfter, armed]
      · simp only [readyAfter, armed, Function.update_of_ne heq, readable, goneAfter,
          hinbox fd heq, hinv.ready_and_isSome hfd]
        exact hold
  | @stored answers server ev rest conn bytes hbatch hfd' hhang _ _ hbefore hafter hsock hstep =>
      obtain rfl := System.appended_eq hserver hbatch hfd' hhang hstep
      simp only [readyAfter, armed, hinv.ready_and_isSome hfd, readable, goneAfter]
      by_cases heq : fd = ev.fd
      · -- reported, so neither armed nor on the list
        subst heq
        have hnot := (batch_token hserver hbatch hfd').1
        rw [hold, armed, hnot, Bool.false_and, Bool.false_and]
      · rw [Function.update_of_ne heq]
        exact hold
  | @rearmed w i server bytes hw hslot hsafe hstep =>
      obtain rfl := System.rearmed_eq hserver hstep
      simp only [readyAfter, hw]
      by_cases heq : fd = i
      · subst heq
        simp only [Function.update_self, hold, armed, Option.any_some, readable, goneAfter,
          Bool.true_and]
        cases (s.sys.server.epoll fd).any Registration.armed <;> simp
      · simp only [Function.update_of_ne heq, hold, armed, readable, goneAfter]
  | @crashed w i bytes hw hslot hcrash =>
      simp only [readyAfter, hw]
      by_cases heq : fd = i
      · subst heq
        simp only [Function.update_self, hold, armed, readable, goneAfter, Bool.or_self]
      · simp only [Function.update_of_ne heq, hold, armed, readable, goneAfter]

/-- What is read of a batch is there until its event is handled. -/
theorem Inv.batch_act (hinv : Inv cfg s) (hallowed : Allowed cfg s l)
    (hmove : System.Move cfg s.sys l sys) :
    ∀ ev ∈ sys.server.batch, ev.fd ≠ cfg.listenfd → ev.flags.hangup = false →
      readable ⟨sys, readyAfter s sys l, goneAfter s l⟩ ev.fd = true := by
  have hserver := hinv.sys.server
  intro ev hev hfd hhang
  -- an event that was in the batch before
  have hold (hmem : ev ∈ s.sys.server.batch) : (!(s.sys.inbox ev.fd).isEmpty || s.gone ev.fd) = true :=
    hinv.batch ev hmem hfd hhang
  -- one behind the first keeps its place while that is handled
  have hrest {ev' : Event} {rest : List Event} (hbatch : s.sys.server.batch = ev' :: rest)
      (hmem : ev ∈ rest) : ev ∈ s.sys.server.batch := hbatch ▸ List.mem_cons_of_mem _ hmem
  -- and a client that is accepted meanwhile has another descriptor
  have hother {connfd : Int} (hmem : ev ∈ s.sys.server.batch)
      (hnew : connfd ∉ s.sys.server.conns) : ev.fd ≠ connfd :=
    ne_of_mem_of_not_mem (conn_of_mem_batch hserver hmem hfd) hnew
  cases hmove with
  | main hl hstep =>
      cases hl with
      | arrive =>
          cases Server.move_of_step hserver hstep with
          | arrive => exact hold hev
      | epollWait events =>
          have hflags := (hserver.of_step hstep).batch_flags ev hev hfd
          rw [hhang, Bool.false_or] at hflags
          cases Server.move_of_step hserver hstep with
          | epollWait => exact (hallowed ev hev hfd).2.2 hflags
      | run l =>
          cases Server.move_of_step hserver hstep with
          | run => exact hold hev
  | @send fd bytes hconn =>
      have hread := hold hev
      simp only [readable, goneAfter]
      by_cases heq : ev.fd = fd
      · rw [← heq, Function.update_self]
        cases hin : s.sys.inbox ev.fd with
        | nil =>
            rw [hin] at hread
            simp only [List.isEmpty_nil, Bool.not_true, Bool.false_or] at hread
            rw [hread, Bool.or_true]
        | cons b bs => rfl
      · rw [Function.update_of_ne heq]
        exact hread
  | @refused connfd addr early server ev' rest hbatch hlisten hfull hstep =>
      obtain ⟨⟨hnew, -⟩, rfl⟩ := System.turned_away_eq hserver hbatch hlisten (Or.inl hfull) hstep
      have hmem := hrest hbatch hev
      simp only [readable, goneAfter, Function.update_of_ne (hother hmem hnew)]
      exact hold hmem
  | @outside connfd addr early server ev' rest hbatch hlisten hroom hout hstep =>
      obtain ⟨⟨hnew, -⟩, rfl⟩ := System.turned_away_eq hserver hbatch hlisten (Or.inr hout) hstep
      have hmem := hrest hbatch hev
      simp only [readable, goneAfter, Function.update_of_ne (hother hmem hnew)]
      exact hold hmem
  | @accepted connfd addr early server ev' rest hbatch hlisten hroom huser hstep =>
      obtain ⟨hnew, rfl⟩ := System.admitted_eq hserver hbatch hlisten hroom huser hstep
      have hmem := hrest hbatch hev
      simp only [readable, goneAfter, Function.update_of_ne (hother hmem hnew)]
      exact hold hmem
  | @closed answers server ev' rest conn inbox hbatch hfd' hclose hinbox hstep =>
      obtain rfl := System.closed_eq hserver hbatch hfd' hstep
      have hne : ev.fd ≠ ev'.fd := (batch_token hserver hbatch hfd').2.1 ev hev
      simp only [readable, goneAfter, hinbox ev.fd hne]
      exact hold (hrest hbatch hev)
  | @stored answers server ev' rest conn bytes hbatch hfd' hhang' _ _ hbefore hafter hsock hstep =>
      obtain rfl := System.appended_eq hserver hbatch hfd' hhang' hstep
      have hne : ev.fd ≠ ev'.fd := (batch_token hserver hbatch hfd').2.1 ev hev
      simp only [readable, goneAfter, Function.update_of_ne hne]
      exact hold (hrest hbatch hev)
  | rearmed hw hslot hsafe hstep =>
      obtain rfl := System.rearmed_eq hserver hstep
      exact hold hev
  | crashed => exact hold hev

/-- What is handed to a worker has at least one byte. -/
theorem Inv.begun_act (hinv : Inv cfg s) (hallowed : Allowed cfg s l)
    (hmove : System.Move cfg s.sys l sys) :
    ∀ fd, 0 < ThreadPool.inFlight sys.server.pool fd → 0 < (sys.users fd).mReadIdx := by
  have hserver := hinv.sys.server
  intro fd hpos
  cases hmove with
  | main hl hstep =>
      cases hl with
      | arrive =>
          cases Server.move_of_step hserver hstep with
          | arrive => exact hinv.begun fd hpos
      | epollWait events =>
          cases Server.move_of_step hserver hstep with
          | epollWait => exact hinv.begun fd hpos
      | run l =>
          cases Server.move_of_step hserver hstep with
          | run hrun hen =>
              rw [ThreadPool.inFlight_run hrun hen] at hpos
              exact hinv.begun fd hpos
  | send => exact hinv.begun fd hpos
  | refused hbatch hlisten hfull hstep =>
      obtain ⟨-, rfl⟩ := System.turned_away_eq hserver hbatch hlisten (Or.inl hfull) hstep
      exact hinv.begun fd hpos
  | outside hbatch hlisten hroom hout hstep =>
      obtain ⟨-, rfl⟩ := System.turned_away_eq hserver hbatch hlisten (Or.inr hout) hstep
      exact hinv.begun fd hpos
  | @accepted connfd addr early server ev rest hbatch hlisten hroom huser hstep =>
      obtain ⟨hnew, rfl⟩ := System.admitted_eq hserver hbatch hlisten hroom huser hstep
      have hne : fd ≠ connfd := ne_of_mem_of_not_mem (conn_of_inFlight hserver hpos) hnew
      simp only [Function.update_of_ne hne]
      exact hinv.begun fd hpos
  | @closed answers server ev rest conn inbox hbatch hfd hclose hinbox hstep =>
      obtain rfl := System.closed_eq hserver hbatch hfd hstep
      have hne : fd ≠ ev.fd := by
        rintro rfl
        exact absurd hpos (by rw [(batch_token hserver hbatch hfd).2.2]; exact lt_irrefl 0)
      simp only [Function.update_of_ne hne]
      exact hinv.begun fd hpos
  | @stored answers server ev rest conn bytes hbatch hfd hhang hblocks _ hbefore hafter hsock
      hstep =>
      obtain rfl := System.appended_eq hserver hbatch hfd hhang hstep
      by_cases heq : fd = ev.fd
      · subst heq
        -- the event had a reason, and it was not the end of the stream
        have hgone : s.gone ev.fd = false := by
          rw [Bool.eq_false_iff]
          intro hgone
          have hnot := hallowed ev (by rw [hbatch]; rfl) hgone
          rw [hblocks] at hnot
          cases hnot
        have hread := hinv.batch ev (by simp [hbatch]) hfd hhang
        rw [readable, hgone, Bool.or_false, Bool.not_eq_true', List.isEmpty_eq_false_iff] at hread
        have hlen := List.length_pos_iff.mpr hread
        simp only [Function.update_self, hafter.readIdx, List.length_append]
        omega
      · simp only [Function.update_of_ne heq]
        rw [inFlight_append, if_neg (Ne.symm heq), ite_self] at hpos
        exact hinv.begun fd hpos
  | @rearmed w i server bytes hw hslot hsafe hstep =>
      obtain rfl := System.rearmed_eq hserver hstep
      have hen : ThreadPool.Enabled s.sys.server.pool (.process w i) := hw
      have hcopies := ThreadPool.inFlight_process hen fd
      dsimp only at hpos
      exact hinv.begun fd (by omega)
  | crashed => exact hinv.begun fd hpos

omit [DecidableEq W] in
theorem Inv.hangup (hinv : Inv cfg s) (fd : Int) :
    Inv cfg { s with
      ready := Function.update s.ready fd (s.ready fd || armed s.sys fd)
      gone := Function.update s.gone fd true } where
  sys := hinv.sys
  ready := by
    intro fd' hfd'
    by_cases heq : fd' = fd
    · subst heq
      simp only [Function.update_self, hinv.ready fd' hfd', readable, Bool.or_true, Bool.and_true]
      cases armed s.sys fd' <;> simp
    · simp only [Function.update_of_ne heq, hinv.ready fd' hfd', readable]
  batch := by
    intro ev hev hfd hhang
    have hread := hinv.batch ev hev hfd hhang
    by_cases heq : ev.fd = fd
    · simp [readable, heq]
    · simpa only [readable, Function.update_of_ne heq] using hread
  begun := hinv.begun

variable {doRequest : HttpConn → HttpCode × HttpConn}

omit [Fintype W] in
theorem step_act {l : System.Step W} (h : step doRequest cfg s (.act l) = some s') :
    Allowed cfg s l ∧ ∃ sys, System.step doRequest cfg s.sys l = some sys ∧
      s' = ⟨sys, readyAfter s sys l, goneAfter s l⟩ := by
  rw [step, Option.ite_none_right_eq_some] at h
  obtain ⟨hallowed, h⟩ := h
  obtain ⟨sys, hsys, rfl⟩ := Option.map_eq_some_iff.mp h
  exact ⟨hallowed, sys, hsys, rfl⟩

theorem Inv.of_step (hinv : Inv cfg s) {l : Step W} (h : step doRequest cfg s l = some s') :
    Inv cfg s' := by
  cases l with
  | act l =>
      obtain ⟨hallowed, sys, hsys, rfl⟩ := step_act h
      have hmove := (System.move_of_step hinv.sys hsys).2
      exact ⟨hinv.sys.of_step hsys, hinv.ready_act hmove, hinv.batch_act hallowed hmove,
        hinv.begun_act hallowed hmove⟩
  | hangup fd =>
      simp only [step, Option.ite_none_right_eq_some, Option.some.injEq] at h
      exact h.2 ▸ hinv.hangup fd

theorem inv_of_exec {users : Int → HttpConn} {tr : List (Step W)}
    (h : exec (step doRequest cfg) (start W cfg users) tr = some s) : Inv cfg s :=
  exec_invariant (inv_start cfg users) (fun _ _ _ hinv hl => hinv.of_step hl) h

/-- The steps of the server in a run. -/
def acts (tr : List (Step W)) : List (System.Step W) :=
  tr.filterMap fun
    | .act l => some l
    | .hangup _ => none

omit [Fintype W] in
/-- With the ready list left out, a run is one of the server. -/
theorem sys_run_of_exec {users : Int → HttpConn} {tr : List (Step W)}
    (h : exec (step doRequest cfg) (start W cfg users) tr = some s) :
    exec (System.step doRequest cfg) (System.start W cfg users) (acts tr) = some s.sys := by
  refine exec_history (P := fun tr s => exec (System.step doRequest cfg)
    (System.start W cfg users) (acts tr) = some s.sys) rfl ?_ h
  intro tr s l s' hrun hl
  rw [acts, List.filterMap_append, ← acts]
  cases l with
  | act l =>
      obtain ⟨-, sys, hsys, rfl⟩ := step_act hl
      exact exec_snoc.mpr ⟨s.sys, hrun, hsys⟩
  | hangup fd =>
      simp only [step, Option.ite_none_right_eq_some, Option.some.injEq] at hl
      obtain ⟨-, rfl⟩ := hl
      simpa using hrun

end Invariance

/-! ## The ready list -/

section Runs

variable [Fintype W] {doRequest : HttpConn → HttpCode × HttpConn} {cfg : Config} {s s' : State W}
  {users : Int → HttpConn} {tr : List (Step W)}

/-- **No event is lost, and none is left over.**  In every reachable state a
    connection is on the ready list if and only if it is armed and its client
    has sent something that was not read, or has hung up. -/
theorem ready_iff (h : exec (step doRequest cfg) (start W cfg users) tr = some s) {fd : Int}
    (hconn : fd ∈ s.sys.server.conns) :
    s.ready fd = true ↔ (s.sys.server.epoll fd).any Registration.armed = true ∧
      (s.sys.inbox fd ≠ [] ∨ s.gone fd = true) := by
  have hinv := inv_of_exec h
  have hfd : fd ≠ cfg.listenfd := by
    rintro rfl
    exact hinv.sys.server.wired.listen_not_conn hconn
  rw [hinv.ready fd hfd, Bool.and_eq_true, armed, readable, Bool.or_eq_true, Bool.not_eq_true',
    List.isEmpty_eq_false_iff]

/-- The second part of a request arrives while a worker has the connection, and
    is found by the `modfd` that follows. -/
def sampleRun : List (Step Bool) :=
  (System.sampleRun.map .act) ++ [.act (.pass true)]

theorem ready_iff_sample :
    ∃ s, exec (step HttpConn.noFile sampleConfig)
        (start Bool sampleConfig fun _ => HttpConn.zeroSlot) sampleRun = some s ∧
      s.ready 5 = true := by
  obtain ⟨s, hs, hconn, harmed, hinbox⟩ : ∃ s, exec (step HttpConn.noFile sampleConfig)
      (start Bool sampleConfig fun _ => HttpConn.zeroSlot) sampleRun = some s ∧
      5 ∈ s.sys.server.conns ∧ (s.sys.server.epoll 5).any Registration.armed = true ∧
      s.sys.inbox 5 ≠ [] := ⟨_, rfl, by decide, rfl, by decide⟩
  exact ⟨s, hs, (ready_iff hs hconn).mpr ⟨harmed, Or.inl hinbox⟩⟩

/-! ## Standing still -/

/-- A step of the main thread or a worker that is more than an interrupted wait. -/
def Step.Works : Step W → Prop
  | .hangup _ | .act .arrive | .act (.send ..) => False
  | .act (.epollWait events) => events ≠ []
  | .act (.run l) => ∀ w, l ≠ .waitErr w
  | .act (.accept ..) | .act (.handle _) | .act (.pass _) => True

/-- Nothing goes on until a client does something. -/
def Rests (doRequest : HttpConn → HttpCode × HttpConn) (cfg : Config) (s : State W) : Prop :=
  ∀ l : Step W, l.Works → step doRequest cfg s l = none

omit [Fintype W] in
theorem Rests.elim (hrest : Rests doRequest cfg s) {l : Step W}
    (h : ∃ s', step doRequest cfg s l = some s') (hl : l.Works) : False := by
  obtain ⟨s', hs'⟩ := h
  rw [hrest l hl] at hs'
  cases hs'

/-- The main thread is in `epoll_wait`, the workers are in `wait()`, and there
    is nothing for any of them. -/
structure Asleep (s : State W) : Prop where
  batch : s.sys.server.batch = []
  listen : s.sys.server.listenPending = false
  queue : s.sys.server.pool.mWorkqueue = []
  sem : s.sys.server.pool.mQueuestat = 0
  workers : ∀ w, s.sys.server.pool.worker w = .waiting
  quiet : ∀ fd ∈ s.sys.server.conns, s.ready fd = false

/-- A `read()` may always return false: `recv` may fail, and a full buffer is
    not read into. -/
theorem exists_failing_read (conn : HttpConn) (inbox : List UInt8) :
    ∃ answers, System.CanReceive inbox (READ_BUFFER_SIZE - conn.mReadIdx) answers ∧
      (RecvAnswer.lastOf answers).blocks = false ∧
      conn.read answers = some (.ok (false, conn)) := by
  by_cases hfull : conn.mReadIdx ≥ READ_BUFFER_SIZE
  · refine ⟨[], ⟨trivial, fun _ => rfl, List.nil_prefix, fun _ => ?_⟩, rfl, ?_⟩
    · contradiction
    · rw [HttpConn.read, if_pos hfull]
  · refine ⟨[.error .other], ⟨⟨trivial, rfl⟩, fun hzero => ?_, List.nil_prefix, fun _ => ?_⟩, rfl, ?_⟩
    · omega
    · contradiction
    · rw [HttpConn.read, if_neg hfull]
      rfl

section Enabled

variable (hinv : Inv cfg s) (hfault : s.sys.fault = none)

omit [Fintype W] in
/-- A step that the kernel and the server allow is taken. -/
theorem exists_step {l : System.Step W} (hallowed : Allowed cfg s l)
    (h : ∃ sys, System.step doRequest cfg s.sys l = some sys) :
    ∃ s', step doRequest cfg s (.act l) = some s' := by
  obtain ⟨sys, hsys⟩ := h
  rw [step, if_pos hallowed, hsys]
  exact ⟨_, rfl⟩

include hinv hfault

theorem exists_run {l : ThreadPool.Step Int Unit W} (hrun : l.isRun = true)
    (hen : ThreadPool.Enabled s.sys.server.pool l) :
    ∃ s', step doRequest cfg s (.act (.run l)) = some s' := by
  refine exists_step trivial ?_
  have hstep : Server.step cfg s.sys.server (.run l)
      = some (Server.next cfg s.sys.server (.run l)) :=
    Server.step_eq_some.mpr ⟨⟨hinv.sys.running hfault, hrun, hen⟩, rfl⟩
  simp only [System.step, hfault, Option.isSome_none, Bool.false_eq_true, if_false, hstep]
  exact ⟨_, rfl⟩

theorem exists_epollWait (ev : Event) (hbatch : s.sys.server.batch = [])
    (hallowed : Allowed cfg s (.epollWait [ev])) (hreport : CanReport cfg s.sys.server ev) :
    ∃ s', step doRequest cfg s (.act (.epollWait [ev])) = some s' := by
  refine exists_step hallowed ?_
  have hstep : Server.step cfg s.sys.server (.epollWait [ev])
      = some (Server.next cfg s.sys.server (.epollWait [ev])) :=
    Server.step_eq_some.mpr ⟨⟨hinv.sys.running hfault, hbatch, by simp [MAX_EVENT_NUMBER], by simp,
      by simpa using hreport⟩, rfl⟩
  simp only [System.step, hfault, Option.isSome_none, Bool.false_eq_true, if_false, hstep]
  exact ⟨_, rfl⟩

/-- An event of `listenfd` can be handled: `accept` may fail. -/
theorem exists_accept {ev : Event} {rest : List Event} (hbatch : s.sys.server.batch = ev :: rest)
    (hlisten : ev.fd = cfg.listenfd) :
    ∃ s', step doRequest cfg s (.act (.accept (-1) ⟨0, 0⟩ [])) = some s' := by
  refine exists_step trivial ?_
  have hstep : Server.step cfg s.sys.server (.handle (-1) false)
      = some (Server.next cfg s.sys.server (.handle (-1) false)) :=
    Server.step_eq_some.mpr ⟨⟨hinv.sys.running hfault, by simp [hbatch], fun _ => Or.inl rfl⟩, rfl⟩
  have hhead : s.sys.server.batch.head?.map Event.fd = some cfg.listenfd := by
    rw [hbatch, List.head?_cons, Option.map_some, hlisten]
  simp only [System.step, hfault, Option.isSome_none, Bool.false_eq_true, if_false, System.accept,
    if_pos hhead, hstep]
  exact ⟨_, rfl⟩

/-- An event of a connection can be handled. -/
theorem exists_handle {ev : Event} {rest : List Event} (hbatch : s.sys.server.batch = ev :: rest)
    (hfd : ev.fd ≠ cfg.listenfd) :
    ∃ answers s', step doRequest cfg s (.act (.handle answers)) = some s' := by
  have hconn := hinv.sys.server.conn_of_batch hbatch hfd
  obtain ⟨answers, hreceive, hblocks, hread⟩ :=
    exists_failing_read (s.sys.users ev.fd) (s.sys.inbox ev.fd)
  refine ⟨answers, exists_step (fun _ _ _ => hblocks) ?_⟩
  have hstep (readOk : Bool) : Server.step cfg s.sys.server (.handle 0 readOk)
      = some (Server.next cfg s.sys.server (.handle 0 readOk)) := by
    refine Server.step_eq_some.mpr
      ⟨⟨hinv.sys.running hfault, by simp [hbatch], fun hhead => ?_⟩, rfl⟩
    rw [hbatch, List.head?_cons, Option.map_some] at hhead
    exact absurd (Option.some.inj hhead) hfd
  have huser : ¬ ¬ InUsers ev.fd := not_not_intro (hinv.sys.server.wired.conns_users _ hconn)
  simp only [System.step, hfault, Option.isSome_none, Bool.false_eq_true, if_false, System.handle,
    hbatch, if_neg hfd, if_neg huser]
  split
  · rw [hstep]
    exact ⟨_, rfl⟩
  · split
    · simp only [System.readConn, hinv.sys.sock hconn, if_pos hreceive, hread, hstep]
      exact ⟨_, rfl⟩
    · rw [hstep]
      exact ⟨_, rfl⟩

end Enabled

/-- `m_stop` is never set while the server runs. -/
theorem mStop_of_exec (h : exec (step doRequest cfg) (start W cfg users) tr = some s) :
    s.sys.server.pool.mStop = false := by
  obtain ⟨tr', hrun⟩ := System.server_run_of_exec (sys_run_of_exec h)
  refine exec_invariant (P := fun p => p.mStop = false) rfl ?_ (pool_run_of_exec hrun)
  intro p l p' hstop hl
  obtain ⟨-, rfl⟩ := ThreadPool.step_eq_some.mp hl
  cases l <;> exact hstop

section Rest

variable (h : exec (step doRequest cfg) (start W cfg users) tr = some s)
  (hfault : s.sys.fault = none) (hrest : Rests doRequest cfg s)

include h hfault hrest

theorem batch_of_rests : s.sys.server.batch = [] := by
  by_contra hne
  obtain ⟨ev, rest, hbatch⟩ := List.exists_cons_of_ne_nil hne
  by_cases hlisten : ev.fd = cfg.listenfd
  · exact hrest.elim (exists_accept (inv_of_exec h) hfault hbatch hlisten) trivial
  · obtain ⟨answers, hstep⟩ := exists_handle (inv_of_exec h) hfault hbatch hlisten
    exact hrest.elim hstep trivial

/-- A worker anywhere but in `wait()` could go on. -/
theorem workers_of_rests (w : W) : s.sys.server.pool.worker w = .waiting := by
  have hno {l : ThreadPool.Step Int Unit W} (hrun : l.isRun = true) (hl : ∀ w, l ≠ .waitErr w) :
      ¬ ThreadPool.Enabled s.sys.server.pool l :=
    fun hen => hrest.elim (exists_run (inv_of_exec h) hfault hrun hen) hl
  cases hw : s.sys.server.pool.worker w with
  | waiting => rfl
  | top => exact absurd ⟨hw, mStop_of_exec h⟩ (hno (l := .loop w) rfl nofun)
  | woken =>
      cases hqueue : s.sys.server.pool.mWorkqueue with
      | nil => exact absurd ⟨hw, hqueue⟩ (hno (l := .empty w) rfl nofun)
      | cons r rest =>
          exact absurd ⟨hw, by rw [hqueue]; rfl⟩ (hno (l := .pop w r) rfl nofun)
  | popped request =>
      cases request with
      | none => exact absurd hw (hno (l := .skip w) rfl nofun)
      | some i =>
          have hpass := (inv_of_exec h).sys.exists_pass doRequest hfault hw
          exact (hrest.elim (exists_step (l := .pass w) trivial hpass) trivial).elim

theorem asleep_of_rests [Nonempty W] : Asleep s := by
  have hinv := inv_of_exec h
  have hbatch := batch_of_rests h hfault hrest
  have hworkers := workers_of_rests h hfault hrest
  have hsem : s.sys.server.pool.mQueuestat = 0 := by
    by_contra hne
    have hen : ThreadPool.Enabled s.sys.server.pool (.wait (Classical.arbitrary W)) :=
      ⟨hworkers _, Nat.pos_of_ne_zero hne⟩
    exact hrest.elim (exists_run hinv hfault rfl hen) (by simp [Step.Works])
  refine ⟨hbatch, ?_, ?_, hsem, hworkers, fun fd hconn => ?_⟩
  · by_contra hpending
    refine hrest.elim (exists_epollWait hinv hfault ⟨cfg.listenfd, epollin⟩ hbatch ?_ ?_)
      (List.cons_ne_nil _ _)
    · intro ev hev hne
      rw [List.mem_singleton] at hev
      subst hev
      exact absurd rfl hne
    · exact ⟨fun _ => by simpa using hpending, fun hne => absurd rfl hne⟩
  · -- no token and nobody woken: no wake-up is left for a request in the queue
    obtain ⟨tr', hrun⟩ := System.server_run_of_exec (sys_run_of_exec h)
    have hle := queued_le_wakeups hrun
    have hwoken : s.sys.server.pool.wokenCount = 0 := by
      rw [ThreadPool.Pool.wokenCount, threadCount_eq_zero]
      intro w
      rw [hworkers w]
      simp
    rw [hsem, hwoken] at hle
    exact List.eq_nil_of_length_eq_zero (by omega)
  · rw [Bool.eq_false_iff]
    intro hready
    have hfd : fd ≠ cfg.listenfd := by
      rintro rfl
      exact hinv.sys.server.wired.listen_not_conn hconn
    obtain ⟨harmed, hread⟩ := hinv.armed_of_ready hfd hready
    refine hrest.elim (exists_epollWait hinv hfault ⟨fd, epollin⟩ hbatch ?_ ?_)
      (List.cons_ne_nil _ _)
    · intro ev hev _
      rw [List.mem_singleton] at hev
      subst hev
      refine ⟨hready, fun hhang => ?_, fun _ => hread⟩
      cases hhang
    · refine ⟨fun hlisten => absurd hlisten hfd, fun _ => ?_⟩
      obtain ⟨a, hreg⟩ := hinv.sys.server.wired.registered fd hconn
      rw [armed, hreg] at harmed
      rw [hreg]
      simpa [readInterest, Flags.Reportable, epollin, Flags.hangup] using harmed

end Rest

/-- Asleep, every step but a client's waits for something. -/
theorem rests_of_asleep (hinv : Inv cfg s) (hasleep : Asleep s) : Rests doRequest cfg s := by
  have hserver := hinv.sys.server
  have helsewhere {w : W} {pc : ThreadPool.RunPc Int} (hw : s.sys.server.pool.worker w = pc)
      (hpc : pc ≠ .waiting) : False := hpc (hw.symm.trans (hasleep.workers w))
  intro l hworks
  rw [Option.eq_none_iff_forall_ne_some]
  intro s' hs'
  cases l with
  | hangup => exact hworks
  | act l =>
      obtain ⟨hallowed, sys, hsys, -⟩ := step_act hs'
      cases (System.move_of_step hinv.sys hsys).2 with
      | main hl hstep =>
          cases hl with
          | arrive => exact hworks
          | epollWait events =>
              obtain ⟨ev, rest, rfl⟩ := List.exists_cons_of_ne_nil hworks
              cases Server.move_of_step hserver hstep with
              | epollWait _ _ hreport =>
                  by_cases hlisten : ev.fd = cfg.listenfd
                  · have hpending := (hreport ev List.mem_cons_self).1 hlisten
                    rw [hasleep.listen] at hpending
                    cases hpending
                  · have hready := (hallowed ev List.mem_cons_self hlisten).1
                    obtain ⟨harmed, -⟩ := hinv.armed_of_ready hlisten hready
                    have hconn : ev.fd ∈ s.sys.server.conns := by
                      by_contra hn
                      rw [armed, hserver.wired.unregistered _ hlisten hn] at harmed
                      cases harmed
                    rw [hasleep.quiet _ hconn] at hready
                    cases hready
          | run l =>
              cases Server.move_of_step hserver hstep with
              | run hrun hen =>
                  cases l with
                  | call | push | reject | post | process => cases hrun
                  | waitErr w => exact hworks w rfl
                  | loop w | pop w | empty w => exact helsewhere hen.1 nofun
                  | skip w => exact helsewhere hen nofun
                  | wait w =>
                      have hpos := hen.2
                      rw [hasleep.sem] at hpos
                      exact lt_irrefl 0 hpos
      | send => exact hworks
      | refused hbatch | accepted hbatch | outside hbatch | closed hbatch | stored hbatch =>
          rw [hasleep.batch] at hbatch
          cases hbatch
      | rearmed hw | crashed hw => exact helsewhere hw nofun

/-- **The server sleeps with its work done.**  If `append` has found room each
    time, the server stands still exactly if the main thread and all workers
    wait and there is nothing for them; and then every open connection is armed
    with its client still there, and everything its client has sent was read. -/
theorem rest_all_read [Nonempty W]
    (h : exec (step doRequest cfg) (start W cfg users) tr = some s) (hfault : s.sys.fault = none)
    (hroom : AllSteps (System.step doRequest cfg) (System.FindsRoom cfg)
      (System.start W cfg users) (acts tr)) :
    (Rests doRequest cfg s ↔ Asleep s) ∧
      (Rests doRequest cfg s → ∀ fd ∈ s.sys.server.conns,
        (s.sys.server.epoll fd).any Registration.armed = true ∧ s.gone fd = false ∧
          s.sys.inbox fd = [] ∧ s.sys.users fd = (s.sys.users fd).received (s.sys.sent fd)) := by
  have hinv := inv_of_exec h
  refine ⟨⟨fun hrest => asleep_of_rests h hfault hrest, rests_of_asleep hinv⟩, fun hrest fd hconn => ?_⟩
  have hasleep := asleep_of_rests h hfault hrest
  -- nobody but epoll has the connection
  have harmed : armed s.sys fd = true := by
    rcases System.noOrphan_of_room (sys_run_of_exec h) hroom fd hconn with harmed | ⟨ev, hev, -⟩ | hqueued | ⟨w, hw⟩
    · exact harmed
    · rw [hasleep.batch] at hev
      cases hev
    · rw [hasleep.queue] at hqueued
      cases hqueued
    · rw [hasleep.workers w] at hw
      cases hw
  have hfd : fd ≠ cfg.listenfd := by
    rintro rfl
    exact hinv.sys.server.wired.listen_not_conn hconn
  have hquiet := hinv.ready fd hfd
  rw [hasleep.quiet fd hconn, harmed, Bool.true_and, readable, eq_comm, Bool.or_eq_false_iff,
    Bool.not_eq_false', List.isEmpty_iff] at hquiet
  obtain ⟨bytes, hslot, hsent⟩ := hinv.sys.streams fd hconn
  rw [hquiet.1, List.append_nil] at hsent
  exact ⟨harmed, hquiet.2, hquiet.1, hsent ▸ hslot.slot⟩

/-- `sampleRun` goes on until nothing is left to do. -/
def restRun : List (Step Bool) :=
  sampleRun ++
    [.act (.epollWait [⟨5, epollin⟩]), .act (.handle [.data (ascii " /"), .error .eagain]),
     .act (.run (.loop true)), .act (.run (.wait true)), .act (.run (.pop true (some 5))),
     .act (.pass true), .act (.run (.loop true)), .act (.run (.loop false))]

theorem rest_all_read_sample :
    ∃ s, exec (step HttpConn.noFile sampleConfig)
        (start Bool sampleConfig fun _ => HttpConn.zeroSlot) restRun = some s ∧
      Rests HttpConn.noFile sampleConfig s ∧
      s.sys.users 5 = (s.sys.users 5).received (ascii "GET /") := by
  obtain ⟨s, hs, hfault, hconns, hsent, hasleep⟩ : ∃ s, exec (step HttpConn.noFile sampleConfig)
      (start Bool sampleConfig fun _ => HttpConn.zeroSlot) restRun = some s ∧
      s.sys.fault = none ∧ s.sys.server.conns = {5} ∧ s.sys.sent 5 = ascii "GET /" ∧
      Asleep s := by
    refine ⟨_, rfl, rfl, by decide, rfl, rfl, rfl, rfl, rfl, fun w => ?_, ?_⟩
    · cases w <;> rfl
    · decide
  have hroom : AllSteps (System.step HttpConn.noFile sampleConfig) (System.FindsRoom sampleConfig)
      (System.start Bool sampleConfig fun _ => HttpConn.zeroSlot) (acts restRun) :=
    System.room_of_few (by decide)
  obtain ⟨hiff, hread⟩ := rest_all_read hs hfault hroom
  have hrest := hiff.mpr hasleep
  have hslot := (hread hrest 5 (by rw [hconns]; decide)).2.2.2
  rw [hsent] at hslot
  exact ⟨s, hs, hrest, hslot⟩

/-! ## Faults -/

/-- **CRLF and `accept` bring the server down.**  With an epoll that reports what
    has happened, the program ends in a fault only if an open connection's
    client has begun its stream with CRLF, or if the last `accept` has returned
    no index of `users`. -/
theorem fault_crlf_or_accept (h : exec (step doRequest cfg) (start W cfg users) tr = some s)
    {fault : Fault} (hfault : s.sys.fault = some fault) :
    (fault = .nullDeref ∧ ∃ fd ∈ s.sys.server.conns, [CR, LF] <+: s.sys.sent fd) ∨
      (fault = .outOfBounds ∧ ∃ pre connfd addr early,
        acts tr = pre ++ [.accept connfd addr early] ∧ ¬ InUsers connfd) := by
  have hinv := inv_of_exec h
  rcases System.caused_of_exec (sys_run_of_exec h) fault hfault with
    ⟨rfl, w, i, bytes, hproc, hcrash⟩ | haccept
  · refine Or.inl ⟨rfl, i, (hinv.sys.server.conn_of_held hproc.held).2, ?_⟩
    rcases hcrash with rfl | hcrlf
    · -- a worker is never handed a connection of which nothing was read
      have hheld : 0 < threadCount s.sys.server.pool.worker (· = .popped (some i)) :=
        threadCount_pos hproc.held
      have hbegun := hinv.begun i (by rw [ThreadPool.inFlight]; omega)
      rw [hproc.slot] at hbegun
      exact absurd hbegun (lt_irrefl 0)
    · exact hcrlf.trans hproc.sent
  · exact Or.inr haccept

/-- A client that sends an empty line. -/
def crlfRun : List (Step Bool) :=
  [.act .arrive, .act (.epollWait [⟨3, epollin⟩]), .act (.accept 5 ⟨0, 0⟩ []),
   .act (.send 5 [CR, LF]), .act (.epollWait [⟨5, epollin⟩]),
   .act (.handle [.data [CR, LF], .error .eagain]), .act (.run (.loop true)),
   .act (.run (.wait true)), .act (.run (.pop true (some 5))), .act (.pass true)]

theorem fault_crlf_or_accept_sample :
    ∃ s, exec (step HttpConn.noFile sampleConfig)
        (start Bool sampleConfig fun _ => HttpConn.zeroSlot) crlfRun = some s ∧
      s.sys.fault = some .nullDeref ∧ ∃ fd ∈ s.sys.server.conns, [CR, LF] <+: s.sys.sent fd := by
  obtain ⟨s, hs, hfault⟩ : ∃ s, exec (step HttpConn.noFile sampleConfig)
      (start Bool sampleConfig fun _ => HttpConn.zeroSlot) crlfRun = some s ∧
      s.sys.fault = some .nullDeref := ⟨_, rfl, rfl⟩
  rcases fault_crlf_or_accept hs hfault with ⟨-, hcrlf⟩ | ⟨hout, -⟩
  · exact ⟨s, hs, hfault, hcrlf⟩
  · cases hout

end Runs

end WebServer.Readiness
