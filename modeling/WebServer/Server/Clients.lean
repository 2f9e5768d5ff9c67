/-
  WebServer.Server.Clients

  What the clients of the whole server get, for every interleaving of clients,
  main thread and workers.

  A connection is read faithfully: its slot and the kernel together hold what
  its client has sent, in order, and nothing of anybody else
  (`stream_integrity`); a worker in `process()` has its slot to itself
  (`worker_undisturbed`).  But nothing is made of it.  The only requests a
  worker can tell from an unfinished one are those that bring the program down,
  as does an `accept` that returns no index of `users` (`server_fault_iff`); no
  request is ever passed to `do_request()`, and `write()` is never called
  (`never_answers`).  What is left to a connection is to be read until its
  client has sent more than 2048 bytes or hangs up (`event_outcome`), and not
  to be forgotten as long as the queue has room (`attended_iff_room`), which it
  has for `m_max_requests` others at least (`few_attended`).
-/

import WebServer.Server.System
import WebServer.Server.Capacity

namespace WebServer.System

open WebServer.Lib WebServer.Server

variable {W : Type*} [DecidableEq W] [Fintype W] {doRequest : HttpConn → HttpCode × HttpConn}
  {cfg : Config} {s s' : State W} {users : Int → HttpConn} {tr : List (Step W)}

/-! ## Reading -/

/-- **Stream integrity.**  In every reachable state of the server the slot of an
    open connection holds, behind an untouched parser, the first part of what
    its client has sent since it was accepted, the kernel the rest, and no more
    than the buffer can take has been read. -/
theorem stream_integrity (h : exec (step doRequest cfg) (start W cfg users) tr = some s) :
    ∀ fd ∈ s.server.conns, ∃ bytes, s.users fd = (s.users fd).received bytes ∧
      bytes.length ≤ READ_BUFFER_SIZE ∧ bytes ++ s.inbox fd = s.sent fd := by
  intro fd hfd
  obtain ⟨bytes, hslot, hsent⟩ := (inv_of_exec h).streams fd hfd
  exact ⟨bytes, hslot.slot, hslot.fits, hsent⟩

/-- A client that has begun its request before `accept`, and goes on while its
    event waits to be handled. -/
def sampleRun : List (Step Bool) :=
  [.arrive, .epollWait [⟨3, epollin⟩], .accept 5 ⟨0, 0⟩ (ascii "G"), .epollWait [⟨5, epollin⟩],
   .send 5 (ascii "ET"), .handle [.data (ascii "GE"), .data (ascii "T"), .error .eagain],
   .run (.loop true), .run (.wait true), .run (.pop true (some 5)), .send 5 (ascii " /")]

theorem stream_integrity_sample :
    ∃ s, exec (step HttpConn.noFile sampleConfig)
        (start Bool sampleConfig fun _ => HttpConn.zeroSlot) sampleRun = some s ∧
      ∃ bytes, s.users 5 = (s.users 5).received bytes ∧ bytes ++ ascii " /" = ascii "GET /" := by
  obtain ⟨s, hs, hconn, hinbox, hsent⟩ : ∃ s, exec (step HttpConn.noFile sampleConfig)
      (start Bool sampleConfig fun _ => HttpConn.zeroSlot) sampleRun = some s ∧
      5 ∈ s.server.conns ∧ s.inbox 5 = ascii " /" ∧ s.sent 5 = ascii "GET /" :=
    ⟨_, rfl, by decide, rfl, rfl⟩
  obtain ⟨bytes, hslot, -, heq⟩ := stream_integrity hs 5 hconn
  rw [hinbox, hsent] at heq
  exact ⟨s, hs, bytes, hslot, heq⟩

/-- **An event of a connection.**  If the connection is still open after its
    event was handled, its slot holds everything its client has sent and
    nothing waits in the kernel; so a client that has sent more than the buffer
    can take is disconnected, and one whose buffer was full before the event as
    well.  No other connection is affected. -/
theorem event_outcome (h : exec (step doRequest cfg) (start W cfg users) tr = some s)
    {answers : List RecvAnswer} {ev : Event} {rest : List Event}
    (hbatch : s.server.batch = ev :: rest)
    (hstep : step doRequest cfg s (.handle answers) = some s') :
    (ev.fd ∈ s'.server.conns → s'.users ev.fd = (s'.users ev.fd).received (s.sent ev.fd) ∧
      s'.inbox ev.fd = []) ∧
    (READ_BUFFER_SIZE < (s.sent ev.fd).length ∨ (s.users ev.fd).mReadIdx = READ_BUFFER_SIZE →
      ev.fd ∉ s'.server.conns) ∧
    ∀ fd, fd ≠ ev.fd → (fd ∈ s'.server.conns ↔ fd ∈ s.server.conns) ∧
      s'.users fd = s.users fd ∧ s'.inbox fd = s.inbox fd := by
  have hinv := inv_of_exec h
  cases (move_of_step hinv hstep).2 with
  | main hl => cases hl
  | closed hbatch' hfd hclose hinbox hmove =>
      rw [hbatch] at hbatch'
      cases hbatch'
      have hconns := congrArg Server.State.conns (closed_eq hinv.server hbatch hfd hmove)
      have hgone : ev.fd ∉ s.server.conns.erase ev.fd := Finset.notMem_erase _ _
      simp only [hconns]
      refine ⟨fun hmem => absurd hmem hgone, fun _ => hgone, fun fd hne => ⟨?_, ?_, hinbox fd hne⟩⟩
      · rw [Finset.mem_erase, and_iff_right hne]
      · exact Function.update_of_ne hne _ _
  | @stored _ _ _ _ conn bytes hbatch' hfd hhang _ hroom hbefore hafter hsock hmove =>
      rw [hbatch] at hbatch'
      cases hbatch'
      have hconns := congrArg Server.State.conns (appended_eq hinv.server hbatch hfd hhang hmove)
      -- what was read before and what was read now is all there is
      obtain ⟨read, hslot, hsent⟩ :=
        hinv.streams ev.fd (hinv.server.conn_of_batch hbatch hfd)
      obtain rfl := hbefore.unique hslot
      rw [hsent] at hafter
      have hfits := hafter.fits
      refine ⟨fun _ => ⟨?_, ?_⟩, fun hlong => by omega, fun fd hne => ⟨?_, ?_, ?_⟩⟩
      · simp only [Function.update_self]
        exact hafter.slot
      · exact Function.update_self _ _ _
      · rw [hconns]
      · exact Function.update_of_ne hne _ _
      · exact Function.update_of_ne hne _ _

/-- The event of `sampleRun`, just before it is handled. -/
theorem event_outcome_sample :
    ∃ s s', exec (step HttpConn.noFile sampleConfig)
        (start Bool sampleConfig fun _ => HttpConn.zeroSlot) (sampleRun.take 5) = some s ∧
      step HttpConn.noFile sampleConfig s
        (.handle [.data (ascii "GE"), .data (ascii "T"), .error .eagain]) = some s' ∧
      s'.users 5 = (s'.users 5).received (ascii "GET") := by
  obtain ⟨s, s', hs, hstep, hbatch, hconn, hsent⟩ : ∃ s s',
      exec (step HttpConn.noFile sampleConfig)
        (start Bool sampleConfig fun _ => HttpConn.zeroSlot) (sampleRun.take 5) = some s ∧
      step HttpConn.noFile sampleConfig s
        (.handle [.data (ascii "GE"), .data (ascii "T"), .error .eagain]) = some s' ∧
      s.server.batch = [⟨5, epollin⟩] ∧ 5 ∈ s'.server.conns ∧ s.sent 5 = ascii "GET" :=
    ⟨_, _, rfl, rfl, rfl, by decide, rfl⟩
  have hread := ((event_outcome hs hbatch hstep).1 hconn).1
  rw [hsent] at hread
  exact ⟨s, s', hs, hstep, hread⟩

/-! ## Processing -/

/-- A worker that processes connection `i`, of which `bytes` were read. -/
structure Processing (s : State W) (w : W) (i : Int) (bytes : List UInt8) : Prop where
  held : s.server.pool.worker w = .popped (some i)
  slot : s.users i = (s.users i).received bytes
  sent : bytes <+: s.sent i

omit [DecidableEq W] in
theorem Inv.processing (hinv : Inv cfg s) {w : W} {i : Int}
    (hw : s.server.pool.worker w = .popped (some i)) :
    ∃ bytes, Unparsed (s.users i) bytes ∧ Processing s w i bytes := by
  obtain ⟨bytes, hslot, hsent⟩ := hinv.streams i (hinv.server.conn_of_held hw).2
  exact ⟨bytes, hslot, hw, hslot.slot, ⟨s.inbox i, hsent⟩⟩

/-- The pass of a worker is always possible. -/
theorem Inv.exists_pass (hinv : Inv cfg s) (doRequest : HttpConn → HttpCode × HttpConn)
    (hfault : s.fault = none) {w : W} {i : Int} (hw : s.server.pool.worker w = .popped (some i)) :
    ∃ s', step doRequest cfg s (.pass w) = some s' := by
  obtain ⟨bytes, hslot, -⟩ := hinv.processing hw
  have hpass := HttpConn.iteration_received doRequest (s := s.users i) hslot.fits
  rw [← hslot.slot] at hpass
  have hstep : Server.step cfg s.server (.process w i .noRequest)
      = some (Server.next cfg s.server (.process w i .noRequest)) :=
    Server.step_eq_some.mpr ⟨⟨hinv.running hfault, hw⟩, rfl⟩
  simp only [step, hfault, Option.isSome_none, Bool.false_eq_true, if_false, pass, hw, hinv.call w,
    Call.start, Call.lineStatus, hpass]
  by_cases hcrash : HttpConn.Crashes bytes
  · simp only [if_pos hcrash]
    exact ⟨_, rfl⟩
  · simp only [if_neg hcrash, returned, hinv.call w, Call.start, if_true, hstep]
    exact ⟨_, rfl⟩

/-- A worker is at the null pointer of an empty request line. -/
def CausedByWorker (s : State W) (fault : Fault) : Prop :=
  fault = .nullDeref ∧ ∃ w i bytes, Processing s w i bytes ∧ HttpConn.Crashes bytes

/-- The last thing that happened is an `accept` without a slot for its client:
    it failed, or its descriptor is too large. -/
def CausedByAccept (tr : List (Step W)) (fault : Fault) : Prop :=
  fault = .outOfBounds ∧ ∃ pre connfd addr early,
    tr = pre ++ [.accept connfd addr early] ∧ ¬ InUsers connfd

theorem caused_of_exec (h : exec (step doRequest cfg) (start W cfg users) tr = some s) :
    ∀ fault, s.fault = some fault → CausedByWorker s fault ∨ CausedByAccept tr fault := by
  suffices hboth : Inv cfg s ∧ ∀ fault, s.fault = some fault →
      CausedByWorker s fault ∨ CausedByAccept tr fault from hboth.2
  refine exec_history (P := fun tr s => Inv cfg s ∧ ∀ fault, s.fault = some fault →
    CausedByWorker s fault ∨ CausedByAccept tr fault) ⟨inv_start cfg users, nofun⟩ ?_ h
  rintro tr s l s' ⟨hinv, -⟩ hl
  obtain ⟨hnone, hmove⟩ := move_of_step hinv hl
  refine ⟨hinv.move hmove, fun fault hfault => ?_⟩
  -- only two moves set the fault
  cases hmove with
  | main | send | refused | accepted | closed | stored | rearmed =>
      rw [hnone] at hfault
      cases hfault
  | @outside connfd addr early _ _ _ _ _ _ hout =>
      exact Or.inr ⟨(Option.some.inj hfault).symm, tr, connfd, addr, early, rfl, hout⟩
  | @crashed w i bytes hw hslot hcrash =>
      obtain ⟨bytes', hslot', hproc⟩ := hinv.processing hw
      obtain rfl := hslot.unique hslot'
      exact Or.inl ⟨(Option.some.inj hfault).symm, w, i, bytes,
        ⟨hproc.held, hproc.slot, hproc.sent⟩, hcrash⟩

/-- The admission check never fires, so an `accept` goes one of two ways. -/
theorem fault_of_accept (h : exec (step doRequest cfg) (start W cfg users) tr = some s)
    {connfd : Int} {addr : SockaddrIn} {early : List UInt8}
    (hstep : step doRequest cfg s (.accept connfd addr early) = some s') :
    s'.fault = if InUsers connfd then none else some .outOfBounds := by
  obtain ⟨hnone, hmove⟩ := move_of_step (inv_of_exec h) hstep
  cases hmove with
  | main hl => cases hl
  | refused _ _ hfull =>
      obtain ⟨tr', hrun⟩ := server_run_of_exec h
      exact absurd (mUserCount_lt hrun) (Int.not_lt.mpr hfull)
  | accepted _ _ _ huser => rw [if_pos huser, hnone]
  | outside _ _ _ hout => rw [if_neg hout]

/-- **What brings the server down.**  A fault is the null pointer of an empty
    request line, in a worker that processes a connection of which nothing, or
    a stream that begins with CRLF, was read; or it is the access to
    `users[connfd]` behind an `accept` that has returned no index of `users`,
    and every such `accept` ends in it.  And a worker that processes a
    connection can always go on: on such a stream to the null pointer, on every
    other one to the end of `process()`, with the slots as they were and the
    connection armed again. -/
theorem server_fault_iff (h : exec (step doRequest cfg) (start W cfg users) tr = some s) :
    (∀ fault, s.fault = some fault → CausedByWorker s fault ∨ CausedByAccept tr fault) ∧
    (∀ connfd addr early s', step doRequest cfg s (.accept connfd addr early) = some s' →
      s'.fault = if InUsers connfd then none else some .outOfBounds) ∧
    ∀ w i, s.fault = none → s.server.pool.worker w = .popped (some i) →
      ∃ bytes s', Processing s w i bytes ∧ step doRequest cfg s (.pass w) = some s' ∧
        s'.users = s.users ∧
        (HttpConn.Crashes bytes → s'.fault = some .nullDeref) ∧
        (¬ HttpConn.Crashes bytes → s'.fault = none ∧ s'.server.pool.worker w = .top ∧
          (s'.server.epoll i).any Registration.armed = true) := by
  refine ⟨caused_of_exec h, fun _ _ _ _ hstep => fault_of_accept h hstep, fun w i hnone hw => ?_⟩
  have hinv := inv_of_exec h
  obtain ⟨bytes, hslot, hproc⟩ := hinv.processing hw
  obtain ⟨s', hstep⟩ := hinv.exists_pass doRequest hnone hw
  refine ⟨bytes, s', hproc, hstep, ?_⟩
  cases (move_of_step hinv hstep).2 with
  | main hl => cases hl
  | rearmed hw' hslot' hsafe hmove =>
      rw [hw] at hw'
      cases hw'
      obtain rfl := hslot.unique hslot'
      obtain rfl := rearmed_eq hinv.server hmove
      refine ⟨rfl, fun hcrash => absurd hcrash hsafe, fun _ => ⟨hnone, ?_, ?_⟩⟩
      · exact Function.update_self _ _ _
      · simp
  | crashed hw' hslot' hcrash =>
      rw [hw] at hw'
      cases hw'
      obtain rfl := hslot.unique hslot'
      exact ⟨rfl, fun _ => rfl, fun hsafe => absurd hcrash hsafe⟩

theorem server_fault_iff_sample :
    (∃ s, exec (step HttpConn.noFile sampleConfig)
        (start Bool sampleConfig fun _ => HttpConn.zeroSlot) sampleRun = some s ∧
      ∃ bytes s', Processing s true 5 bytes ∧
        step HttpConn.noFile sampleConfig s (.pass true) = some s' ∧ s'.users = s.users) ∧
    ∃ s s', exec (step HttpConn.noFile sampleConfig)
        (start Bool sampleConfig fun _ => HttpConn.zeroSlot) (sampleRun.take 2) = some s ∧
      step HttpConn.noFile sampleConfig s (.accept (-1) ⟨0, 0⟩ []) = some s' ∧
      s'.fault = some .outOfBounds := by
  refine ⟨?_, ?_⟩
  · obtain ⟨s, hs, hnone, hw⟩ : ∃ s, exec (step HttpConn.noFile sampleConfig)
        (start Bool sampleConfig fun _ => HttpConn.zeroSlot) sampleRun = some s ∧
        s.fault = none ∧ s.server.pool.worker true = .popped (some 5) := ⟨_, rfl, rfl, rfl⟩
    obtain ⟨bytes, s', hproc, hstep, husers, -⟩ := (server_fault_iff hs).2.2 true 5 hnone hw
    exact ⟨s, hs, bytes, s', hproc, hstep, husers⟩
  · obtain ⟨s, s', hs, hstep⟩ : ∃ s s', exec (step HttpConn.noFile sampleConfig)
        (start Bool sampleConfig fun _ => HttpConn.zeroSlot) (sampleRun.take 2) = some s ∧
        step HttpConn.noFile sampleConfig s (.accept (-1) ⟨0, 0⟩ []) = some s' := ⟨_, _, rfl, rfl⟩
    exact ⟨s, s', hs, hstep, (server_fault_iff hs).2.1 _ _ _ _ hstep⟩

/-! ## Alone with a slot -/

section Alone

variable {p : ThreadPool.Pool Int Unit W} {w : W} {i : Int}

omit [Fintype W] in
/-- A step of `run()` is not one of a worker in `process()`. -/
theorem worker_of_run {l : ThreadPool.Step Int Unit W} (hrun : l.isRun = true)
    (hen : ThreadPool.Enabled p l) (hw : p.worker w = .popped (some i)) :
    (ThreadPool.next p l).worker w = .popped (some i) := by
  have hother : ∀ {v : W} {pc : ThreadPool.RunPc Int}, p.worker v ≠ .popped (some i) →
      Function.update p.worker v pc w = .popped (some i) := by
    intro v pc hv
    have hne : w ≠ v := by
      rintro rfl
      exact hv hw
    rw [Function.update_of_ne hne, hw]
  cases l with
  | call | push | reject | post | process => cases hrun
  | loop v | wait v | pop v | empty v => exact hother (by rw [hen.1]; simp)
  | waitErr v | skip v => exact hother (by rw [show p.worker v = _ from hen]; simp)

omit [Fintype W] in
/-- Nor is `append`. -/
theorem worker_of_append (sockfd : Int) :
    ((appendPool p sockfd).foldl ThreadPool.next p).worker = p.worker := by
  by_cases hfull : p.mWorkqueue.length > p.mMaxRequests
  · rw [appendPool, if_pos hfull]
    rfl
  · rw [appendPool, if_neg hfull]
    rfl

/-- A worker in `process()` stays there until its own pass ends it. -/
theorem held_of_step {t t' : Server.State W} (hinv : Server.Inv cfg t) {l : Server.Step W}
    (h : Server.step cfg t l = some t') (hl : ∀ j code, l ≠ .process w j code)
    (hw : t.pool.worker w = .popped (some i)) : t'.pool.worker w = .popped (some i) := by
  cases Server.move_of_step hinv h with
  | arrive | epollWait | refused | admitted | outside | closed => exact hw
  | appended => exact (congrFun (worker_of_append _) w).trans hw
  | run hrun hen => exact worker_of_run hrun hen hw
  | @rearmed v j hen | @abandoned v j code hen =>
      have hne : w ≠ v := by
        rintro rfl
        exact hl _ _ rfl
      exact (Function.update_of_ne hne _ _).trans hw

omit [DecidableEq W] in
/-- The connection of an event is in nobody's hands. -/
theorem ne_of_batch {t : Server.State W} (hinv : Server.Inv cfg t) {ev : Event}
    {rest : List Event} (hbatch : t.batch = ev :: rest) (hfd : ev.fd ≠ cfg.listenfd)
    (hw : t.pool.worker w = .popped (some i)) : i ≠ ev.fd := by
  rintro rfl
  have hle : tokens t ev.fd ≤ 1 := (hinv.exclusive ⟨ev.fd, hfd⟩).1
  have hheld : 0 < heldCount t ev.fd := threadCount_pos hw
  rw [tokens, hbatch, batchCount_cons, if_pos rfl] at hle
  omega

end Alone

/-- **A worker is alone with its slot.**  While a worker is in `process()`, no
    step but its own changes the slot it works on, closes its connection or
    takes it away. -/
theorem worker_undisturbed (h : exec (step doRequest cfg) (start W cfg users) tr = some s)
    {w : W} {i : Int} (hw : s.server.pool.worker w = .popped (some i)) {l : Step W}
    (hl : l ≠ .pass w) (hstep : step doRequest cfg s l = some s') :
    s'.users i = s.users i ∧ i ∈ s'.server.conns ∧
      s'.server.pool.worker w = .popped (some i) := by
  have hinv := inv_of_exec h
  have hconn := (hinv.server.conn_of_held hw).2
  have hmove := (move_of_step hinv hstep).2
  -- what is still held is still open
  suffices hkept : s'.users i = s.users i ∧ s'.server.pool.worker w = .popped (some i) from
    ⟨hkept.1, ((hinv.move hmove).server.conn_of_held hkept.2).2, hkept.2⟩
  cases hmove with
  | main hlift hserver =>
      refine ⟨rfl, held_of_step hinv.server hserver ?_ hw⟩
      intro j code hprocess
      cases hlift <;> cases hprocess
  | send => exact ⟨rfl, hw⟩
  | refused _ _ _ hserver | outside _ _ _ _ hserver =>
      exact ⟨rfl, held_of_step hinv.server hserver (by simp) hw⟩
  | @accepted connfd _ _ _ _ _ hbatch hlisten hroom huser hserver =>
      have hne : i ≠ connfd := by
        rintro rfl
        exact (admitted_eq hinv.server hbatch hlisten hroom huser hserver).1 hconn
      exact ⟨Function.update_of_ne hne _ _, held_of_step hinv.server hserver (by simp) hw⟩
  | closed hbatch hfd _ _ hserver =>
      exact ⟨Function.update_of_ne (ne_of_batch hinv.server hbatch hfd hw) _ _,
        held_of_step hinv.server hserver (by simp) hw⟩
  | stored hbatch hfd _ _ _ _ _ _ hserver =>
      exact ⟨Function.update_of_ne (ne_of_batch hinv.server hbatch hfd hw) _ _,
        held_of_step hinv.server hserver (by simp) hw⟩
  | @rearmed v _ _ _ _ _ _ hserver =>
      refine ⟨rfl, held_of_step hinv.server hserver ?_ hw⟩
      intro j code hprocess
      cases hprocess
      exact hl rfl
  | crashed => exact ⟨rfl, hw⟩

theorem worker_undisturbed_sample :
    ∃ s s', exec (step HttpConn.noFile sampleConfig)
        (start Bool sampleConfig fun _ => HttpConn.zeroSlot) sampleRun = some s ∧
      step HttpConn.noFile sampleConfig s (.send 5 (ascii "x")) = some s' ∧
      s'.users 5 = s.users 5 := by
  obtain ⟨s, s', hs, hstep, hw⟩ : ∃ s s', exec (step HttpConn.noFile sampleConfig)
      (start Bool sampleConfig fun _ => HttpConn.zeroSlot) sampleRun = some s ∧
      step HttpConn.noFile sampleConfig s (.send 5 (ascii "x")) = some s' ∧
      s.server.pool.worker true = .popped (some 5) := ⟨_, _, rfl, rfl, rfl⟩
  exact ⟨s, s', hs, hstep, (worker_undisturbed hs hw (by simp) hstep).1⟩

/-! ## Answers -/

/-- The calls of `do_request()` in a step. -/
def requests (doRequest : HttpConn → HttpCode × HttpConn) (s : State W) : Step W → List HttpConn
  | .pass w =>
      match s.server.pool.worker w with
      | .popped (some i) =>
          match HttpConn.iteration doRequest (s.users i, (s.call w).lineStatus) with
          | .ok (.done r) => r.requests
          | _ => []
      | _ => []
  | _ => []

/-- The step calls `write()`. -/
def Writes (cfg : Config) (s : State W) : Step W → Prop
  | .handle _ => ∃ ev rest, s.server.batch = ev :: rest ∧ ev.fd ≠ cfg.listenfd ∧
      ev.flags.hangup = false ∧ ev.flags.epollin = false ∧ ev.flags.epollout = true
  | _ => False

omit [DecidableEq W] in
theorem Inv.requests (hinv : Inv cfg s) (l : Step W) : requests doRequest s l = [] := by
  cases l with
  | pass w =>
      rw [System.requests]
      split
      · next i hw =>
          obtain ⟨bytes, hslot, -⟩ := hinv.processing hw
          have hpass := HttpConn.iteration_received doRequest (s := s.users i) hslot.fits
          rw [← hslot.slot] at hpass
          rw [hinv.call w, Call.start, Call.lineStatus, hpass]
          by_cases hcrash : HttpConn.Crashes bytes
          · simp only [if_pos hcrash]
          · simp only [if_neg hcrash]
      · rfl
  | _ => rfl

omit [DecidableEq W] in
theorem Inv.not_writes (hinv : Inv cfg s) (l : Step W) : ¬ Writes cfg s l := by
  cases l with
  | handle answers =>
      rintro ⟨ev, rest, hbatch, hfd, hhang, hin, -⟩
      have hflags := hinv.server.batch_flags ev (by simp [hbatch]) hfd
      simp [hhang, hin] at hflags
  | _ => exact id

/-- **No client is ever answered.**  In no run of the server does a step call
    `do_request()` or `write()`, whatever the clients send and however the
    threads interleave. -/
theorem never_answers (h : exec (step doRequest cfg) (start W cfg users) tr = some s) :
    AllSteps (step doRequest cfg) (fun s l => requests doRequest s l = [] ∧ ¬ Writes cfg s l)
      (start W cfg users) tr := by
  have hall : AllStates (step doRequest cfg) (Inv cfg) (start W cfg users) tr :=
    allStates_of_invariant (inv_start cfg users) (fun _ _ _ hinv hl => hinv.of_step hl) tr
  exact hall.allSteps h fun _ l _ hinv _ => ⟨hinv.requests l, hinv.not_writes l⟩

theorem never_answers_sample :
    AllSteps (step HttpConn.noFile sampleConfig)
      (fun s l => requests HttpConn.noFile s l = [] ∧ ¬ Writes sampleConfig s l)
      (start Bool sampleConfig fun _ => HttpConn.zeroSlot) (sampleRun ++ [.pass true]) := by
  obtain ⟨s, hs⟩ : ∃ s, exec (step HttpConn.noFile sampleConfig)
      (start Bool sampleConfig fun _ => HttpConn.zeroSlot) (sampleRun ++ [.pass true]) = some s :=
    ⟨_, rfl⟩
  exact never_answers hs

/-! ## Attention -/

/-- A connection whose input was read finds room in the queue. -/
def FindsRoom (cfg : Config) (s : State W) : Step W → Prop
  | .handle answers => ∀ ev rest, s.server.batch = ev :: rest → ev.fd ≠ cfg.listenfd →
      ev.flags.hangup = false → (RecvAnswer.lastOf answers).blocks = true →
      ¬ s.server.pool.mWorkqueue.length > s.server.pool.mMaxRequests
  | _ => True

/-- A step of the server keeps every connection attended exactly if it hands
    its connection on. -/
theorem noOrphan_step_iff {t t' : Server.State W} (hinv : Server.Inv cfg t) {l : Server.Step W}
    (h : Server.step cfg t l = some t') (hnone : NoOrphan t) :
    NoOrphan t' ↔ HandsOn cfg t l := by
  rw [noOrphan_iff_attended (hinv.of_step h), handsOn_iff hinv h]
  exact Custody.attended_change_iff hinv.exclusive ((noOrphan_iff_attended hinv).mp hnone)
    ((Server.move_of_step hinv h).change hinv)

theorem Move.noOrphan_iff (hinv : Inv cfg s) {l : Step W} (h : Move cfg s l s')
    (hnone : NoOrphan s.server) : NoOrphan s'.server ↔ FindsRoom cfg s l := by
  cases h with
  | main hlift hserver =>
      rw [noOrphan_step_iff hinv.server hserver hnone]
      cases hlift <;> exact Iff.rfl
  | send | crashed => exact iff_of_true hnone trivial
  | refused _ _ _ hserver | accepted _ _ _ _ hserver | outside _ _ _ _ hserver =>
      rw [noOrphan_step_iff hinv.server hserver hnone]
      refine iff_of_true ?_ trivial
      rintro ev' rest' - - - ⟨⟩
  | @closed answers server ev rest conn inbox hbatch hfd hclose hinbox hserver =>
      rw [noOrphan_step_iff hinv.server hserver hnone]
      refine iff_of_true ?_ ?_
      · rintro ev' rest' - - - ⟨⟩
      · intro ev' rest' hbatch' _ hhang hblocks
        rw [hbatch] at hbatch'
        cases hbatch'
        rcases hclose with hclose | hclose
        · rw [hhang] at hclose
          cases hclose
        · rw [hblocks] at hclose
          cases hclose
  | @stored answers server ev rest conn bytes hbatch hfd hhang hblocks _ _ _ _ hserver =>
      rw [noOrphan_step_iff hinv.server hserver hnone]
      refine ⟨fun hhands ev' rest' hbatch' hfd' hhang' _ => ?_,
        fun hroom ev' rest' hbatch' hfd' hhang' _ => ?_⟩
      · exact hhands ev' rest' hbatch' hfd' hhang' rfl
      · exact hroom ev' rest' hbatch' hfd' hhang' hblocks
  | rearmed _ _ _ hserver =>
      rw [noOrphan_step_iff hinv.server hserver hnone]
      exact iff_of_true rfl trivial

/-- **Attention.**  In a run of the server no open connection is ever left with
    nothing to make it progress or close if and only if `append` finds room
    each time; `process()` always does its part. -/
theorem attended_iff_room (h : exec (step doRequest cfg) (start W cfg users) tr = some s) :
    AllStates (step doRequest cfg) (fun s => NoOrphan s.server) (start W cfg users) tr ↔
      AllSteps (step doRequest cfg) (FindsRoom cfg) (start W cfg users) tr := by
  refine allStates_iff_allSteps (I := Inv cfg) (inv_start cfg users)
    (fun _ _ _ hinv hl => hinv.of_step hl) ?_ ?_ h
  · intro fd hfd
    simp [start, Server.start] at hfd
  · intro t l t' hinv hnone hl
    exact (move_of_step hinv hl).2.noOrphan_iff hinv hnone

theorem attended_iff_room_sample :
    AllStates (step HttpConn.noFile sampleConfig) (fun s => NoOrphan s.server)
        (start Bool sampleConfig fun _ => HttpConn.zeroSlot) sampleRun ↔
      AllSteps (step HttpConn.noFile sampleConfig) (FindsRoom sampleConfig)
        (start Bool sampleConfig fun _ => HttpConn.zeroSlot) sampleRun := by
  obtain ⟨s, hs⟩ : ∃ s, exec (step HttpConn.noFile sampleConfig)
      (start Bool sampleConfig fun _ => HttpConn.zeroSlot) sampleRun = some s := ⟨_, rfl⟩
  exact attended_iff_room hs

/-! ## Few clients -/

theorem mMaxRequests_of_exec (h : exec (step doRequest cfg) (start W cfg users) tr = some s) :
    s.server.pool.mMaxRequests = cfg.maxRequest := by
  obtain ⟨tr', hrun⟩ := server_run_of_exec h
  refine exec_invariant (P := fun p => p.mMaxRequests = cfg.maxRequest) rfl ?_
    (pool_run_of_exec hrun)
  intro p l p' hmax hl
  obtain ⟨-, rfl⟩ := ThreadPool.step_eq_some.mp hl
  cases l <;> exact hmax

/-- There is room for everybody else's request. -/
theorem room_of_few
    (hfew : AllStates (step doRequest cfg) (fun s => s.server.conns.card ≤ cfg.maxRequest + 1)
      (start W cfg users) tr) :
    AllSteps (step doRequest cfg) (FindsRoom cfg) (start W cfg users) tr := by
  intro pre l post t htr ht
  cases l with
  | arrive | send | epollWait | accept | run | pass => trivial
  | handle answers =>
      intro ev rest hbatch hfd _ _
      obtain ⟨tr', hrun⟩ := server_run_of_exec ht
      have hlt := queue_length_lt hrun hbatch hfd
      have hcard := hfew pre _ t htr ht
      rw [mMaxRequests_of_exec ht]
      omega

theorem noOrphan_of_room (h : exec (step doRequest cfg) (start W cfg users) tr = some s)
    (hroom : AllSteps (step doRequest cfg) (FindsRoom cfg) (start W cfg users) tr) :
    NoOrphan s.server := by
  refine exec_history_of_allSteps (P := fun _ s => NoOrphan s.server) ?_ ?_ h hroom
  · intro fd hfd
    simp [start, Server.start] at hfd
  · intro tr s l s' hrun hnone hfinds hl
    have hinv := inv_of_exec hrun
    exact ((move_of_step hinv hl).2.noOrphan_iff hinv hnone).mpr hfinds

/-- **Few clients are all attended to.**  As long as never more than
    `m_max_requests + 1` connections are open, `append` refuses no request and
    no open connection is ever left alone. -/
theorem few_attended
    (hfew : AllStates (step doRequest cfg) (fun s => s.server.conns.card ≤ cfg.maxRequest + 1)
      (start W cfg users) tr) :
    AllSteps (step doRequest cfg) (FindsRoom cfg) (start W cfg users) tr ∧
      AllStates (step doRequest cfg) (fun s => NoOrphan s.server) (start W cfg users) tr := by
  have hroom := room_of_few hfew
  refine ⟨hroom, fun pre post t htr ht => ?_⟩
  subst htr
  exact noOrphan_of_room ht hroom.of_append

theorem few_attended_sample :
    AllStates (step HttpConn.noFile sampleConfig) (fun s => NoOrphan s.server)
      (start Bool sampleConfig fun _ => HttpConn.zeroSlot) sampleRun :=
  (few_attended (by decide)).2

end WebServer.System
