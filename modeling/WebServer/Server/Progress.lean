/-
  WebServer.Server.Progress

  What can become of an open connection.  It makes progress only through one
  of its tokens, and the library says when these run out: exactly when a step
  loses one.  Two steps of the server do: an `append` that finds the queue
  full, whose result `main` ignores, and a `process()` that ends with anything
  but `NO_REQUEST`, after which nothing arms or closes the connection.

  A queued connection is in good hands as long as the pool is: every run of
  the server is a run of the pool, fed by one caller of `append`
  (`pool_run_of_exec`), so no wake-up is lost here either.
-/

import WebServer.Server.Ownership
import WebServer.ThreadPool.Semaphore

namespace WebServer.Server

open WebServer.Lib WebServer.ThreadPool

variable {W : Type*}

/-! ## Orphans -/

/-- Something will look at the connection again. -/
def LookedAfter (s : State W) (fd : Int) : Prop :=
  (s.epoll fd).any Registration.armed = true ∨ (∃ ev ∈ s.batch, ev.fd = fd) ∨
    some fd ∈ s.pool.mWorkqueue ∨ ∃ w, s.pool.worker w = .popped (some fd)

/-- No open connection is left with nothing that can make it progress. -/
def NoOrphan (s : State W) : Prop := ∀ fd ∈ s.conns, LookedAfter s fd

/-- The step hands every connection on: `append` finds room, and `process()`
    ends with `NO_REQUEST`. -/
def HandsOn (cfg : Config) (s : State W) : Step W → Prop
  | .handle _ readOk => ∀ ev rest, s.batch = ev :: rest → ev.fd ≠ cfg.listenfd →
      ev.flags.hangup = false → readOk = true →
      ¬ s.pool.mWorkqueue.length > s.pool.mMaxRequests
  | .process _ _ code => code = .noRequest
  | _ => True

section Orphans

variable [DecidableEq W] [Fintype W] {cfg : Config} {s s' : State W}

omit [DecidableEq W] in
theorem lookedAfter_iff (s : State W) (fd : Int) : LookedAfter s fd ↔ 1 ≤ tokens s fd := by
  have harmed : (s.epoll fd).any Registration.armed = true ↔ 0 < armedCount s.epoll fd := by
    rw [armedCount]
    by_cases h : (s.epoll fd).any Registration.armed = true
    · simp [h]
    · simp [h]
  have hbatch : (∃ ev ∈ s.batch, ev.fd = fd) ↔ 0 < batchCount s.batch fd := by
    rw [batchCount, List.count_pos_iff, List.mem_map]
  have hqueue : some fd ∈ s.pool.mWorkqueue ↔ 0 < queueCount s fd := List.count_pos_iff.symm
  have hheld : (∃ w, s.pool.worker w = .popped (some fd)) ↔ 0 < heldCount s fd := by
    rw [Nat.pos_iff_ne_zero, heldCount, ne_eq, threadCount_eq_zero, not_forall]
    simp only [not_not]
  rw [LookedAfter, harmed, hbatch, hqueue, hheld, tokens]
  omega

omit [DecidableEq W] in
theorem noOrphan_iff_attended (hinv : Inv cfg s) : NoOrphan s ↔ (custody cfg).Attended s := by
  refine ⟨fun h x hx => (lookedAfter_iff s x.1).mp (h x.1 hx), fun h fd hfd => ?_⟩
  have hlisten : fd ≠ cfg.listenfd := by
    rintro rfl
    exact hinv.wired.listen_not_conn hfd
  exact (lookedAfter_iff s fd).mpr (h ⟨fd, hlisten⟩ hfd)

theorem handsOn_iff (hinv : Inv cfg s) {l : Step W} (h : step cfg s l = some s') :
    HandsOn cfg s l ↔ ∀ x : ConnFd cfg, ¬ Loses s x.1 l := by
  obtain ⟨⟨-, hen⟩, -⟩ := step_eq_some.mp h
  cases l with
  | arrive | epollWait | run => exact ⟨fun _ _ => id, fun _ => trivial⟩
  | handle connfd readOk =>
      refine ⟨?_, ?_⟩
      · rintro hhands ⟨fd, hfd⟩ ⟨ev, rest, hbatch, rfl, hhang, hread, hfull⟩
        exact hhands ev rest hbatch hfd hhang hread hfull
      · intro hkept ev rest hbatch hfd hhang hread hfull
        exact hkept ⟨ev.fd, hfd⟩ ⟨ev, rest, hbatch, rfl, hhang, hread, hfull⟩
  | process w i code =>
      -- only connections are ever processed, so the step has one to lose
      have hfd : i ≠ cfg.listenfd := (hinv.conn_of_held hen).1
      refine ⟨?_, ?_⟩
      · rintro hcode x ⟨-, hne⟩
        exact hne hcode
      · intro hkept
        by_contra hcode
        exact hkept ⟨i, hfd⟩ ⟨rfl, hcode⟩

/-- **Orphans.**  In a run of the server no connection is ever left open with
    nothing to make it progress or close if and only if every step of the run
    hands its connection on. -/
theorem no_orphan_iff {memory : Int → Int} {tr : List (Step W)}
    (h : exec (step cfg) (start W cfg memory) tr = some s) :
    AllStates (step cfg) NoOrphan (start W cfg memory) tr ↔
      AllSteps (step cfg) (HandsOn cfg) (start W cfg memory) tr := by
  refine allStates_iff_allSteps (I := Inv cfg) (inv_start cfg memory)
    (fun _ _ _ hinv hl => hinv.of_step hl) ?_ ?_ h
  · intro fd hfd
    exact absurd hfd (by simp [start])
  · -- after a good state the next one is good exactly if nothing is lost
    intro t l t' hinv hnone hl
    rw [noOrphan_iff_attended (hinv.of_step hl), handsOn_iff hinv hl]
    exact Custody.attended_change_iff hinv.exclusive ((noOrphan_iff_attended hinv).mp hnone)
      ((move_of_step hinv hl).change hinv)

theorem no_orphan_iff_sample :
    ∃ s, exec (step sampleConfig) (start Bool sampleConfig fun _ => 0) sampleRun = some s ∧
      (AllStates (step sampleConfig) NoOrphan (start Bool sampleConfig fun _ => 0) sampleRun ↔
        AllSteps (step sampleConfig) (HandsOn sampleConfig) (start Bool sampleConfig fun _ => 0)
          sampleRun) := by
  obtain ⟨s, hs⟩ : ∃ s, exec (step sampleConfig) (start Bool sampleConfig fun _ => 0) sampleRun
      = some s := ⟨_, rfl⟩
  exact ⟨s, hs, no_orphan_iff hs⟩

/-- The worker of `sampleRun` finds the request malformed instead. -/
def badRequestRun : List (Step Bool) :=
  [.arrive, .epollWait [⟨3, epollin⟩], .handle 5 false, .epollWait [⟨5, epollin⟩],
   .handle 0 true, .run (.loop true), .run (.wait true), .run (.pop true (some 5)),
   .process true 5 .badRequest]

/-- A client connects on `fd` and sends something. -/
def clientRun (fd : Int) : List (Step Bool) :=
  [.arrive, .epollWait [⟨3, epollin⟩], .handle fd false, .epollWait [⟨fd, epollin⟩],
   .handle 0 true]

/-- A worker that meets a malformed request, and a queue for one request that
    meets its third client. -/
theorem orphaned_connections :
    (∃ s, exec (step sampleConfig) (start Bool sampleConfig fun _ => 0) badRequestRun = some s ∧
      ¬ NoOrphan s) ∧
    ∃ s, exec (step { sampleConfig with maxRequest := 1 })
        (start Bool { sampleConfig with maxRequest := 1 } fun _ => 0)
        (clientRun 5 ++ clientRun 6 ++ clientRun 7) = some s ∧ ¬ NoOrphan s := by
  refine ⟨⟨_, rfl, ?_⟩, ⟨_, rfl, ?_⟩⟩
  · intro h
    have hlooked := (lookedAfter_iff _ 5).mp (h 5 (by decide))
    exact absurd hlooked (by decide)
  · intro h
    have hlooked := (lookedAfter_iff _ 7).mp (h 7 (by decide))
    exact absurd hlooked (by decide)

end Orphans

/-! ## The pool in the server -/

section PoolRun

variable [DecidableEq W] [Fintype W] {cfg : Config} {s s' : State W}

/-- The steps of the pool in a step of the server. -/
def poolSteps (cfg : Config) (s : State W) : Step W → List (ThreadPool.Step Int Unit W)
  | .handle _ readOk =>
      match s.batch with
      | [] => []
      | ev :: _ =>
          if ev.fd ≠ cfg.listenfd ∧ ev.flags.hangup = false ∧ readOk = true then
            appendPool s.pool ev.fd
          else
            []
  | .run l => [l]
  | .process w i _ => [.process w i]
  | _ => []

omit [Fintype W] in
/-- An uninterrupted `append` is a run of the pool, and returns. -/
theorem exec_appendPool {p : Pool Int Unit W} (hready : ∃ result, p.appender () = .returned result)
    (sockfd : Int) :
    exec ThreadPool.step p (appendPool p sockfd)
        = some ((appendPool p sockfd).foldl ThreadPool.next p) ∧
      ∃ result, ((appendPool p sockfd).foldl ThreadPool.next p).appender () = .returned result := by
  by_cases hfull : p.mWorkqueue.length > p.mMaxRequests
  · rw [appendPool, if_pos hfull]
    simp [exec, ThreadPool.step, guarded, ThreadPool.Enabled, ThreadPool.next, hready, hfull]
  · have hroom : p.mWorkqueue.length ≤ p.mMaxRequests := Nat.not_lt.mp hfull
    rw [appendPool, if_neg hfull]
    simp [exec, ThreadPool.step, guarded, ThreadPool.Enabled, ThreadPool.next, hready, hroom]

/-- Between two events the main thread is outside `append`. -/
def Ready (cfg : Config) (s : State W) : Prop :=
  Inv cfg s ∧ ∃ result, s.pool.appender () = .returned result

omit [DecidableEq W] [Fintype W] in
theorem poolSteps_of_cons {ev : Event} {rest : List Event} (hbatch : s.batch = ev :: rest)
    (connfd : Int) (readOk : Bool) :
    poolSteps cfg s (.handle connfd readOk) =
      if ev.fd ≠ cfg.listenfd ∧ ev.flags.hangup = false ∧ readOk = true then
        appendPool s.pool ev.fd
      else
        [] := by
  rw [poolSteps, hbatch]

/-- A step of the server is a few steps of the pool. -/
theorem Ready.pool_step (hready : Ready cfg s) {l : Step W} (h : step cfg s l = some s') :
    exec ThreadPool.step s.pool (poolSteps cfg s l) = some s'.pool ∧ Ready cfg s' := by
  obtain ⟨hinv, hreturned⟩ := hready
  suffices hpool : exec ThreadPool.step s.pool (poolSteps cfg s l) = some s'.pool ∧
      ∃ result, s'.pool.appender () = .returned result from
    ⟨hpool.1, hinv.of_step h, hpool.2⟩
  cases move_of_step hinv h with
  | arrive | epollWait => exact ⟨rfl, hreturned⟩
  | refused hbatch hlisten | admitted hbatch hlisten | outside hbatch hlisten =>
      rw [poolSteps_of_cons hbatch, if_neg (fun hc => hc.1 hlisten)]
      exact ⟨rfl, hreturned⟩
  | closed hbatch _ _ hclose =>
      rw [poolSteps_of_cons hbatch, if_neg (by rcases hclose with hc | hc <;> simp [hc])]
      exact ⟨rfl, hreturned⟩
  | @appended _ ev _ hbatch hfd _ hread =>
      rw [poolSteps_of_cons hbatch, if_pos ⟨hfd, hread, rfl⟩]
      exact exec_appendPool hreturned ev.fd
  | @run l hrun hen =>
      refine ⟨?_, ?_⟩
      · rw [poolSteps, exec_cons, ThreadPool.step_eq_some.mpr ⟨hen, rfl⟩]
        rfl
      · cases l <;> first | exact hreturned | exact absurd hrun (by simp [ThreadPool.Step.isRun])
  | rearmed hen | abandoned hen =>
      refine ⟨?_, hreturned⟩
      rw [poolSteps, exec_cons, ThreadPool.step_eq_some.mpr ⟨hen, rfl⟩]
      rfl

/-- **The server runs its pool.**  Whatever holds of the pool for every
    interleaving holds of the pool of a reachable server. -/
theorem pool_run_of_exec {memory : Int → Int} {tr : List (Step W)}
    (h : exec (step cfg) (start W cfg memory) tr = some s) :
    exec ThreadPool.step (Pool.start Int Unit W cfg.maxRequest)
      (absTrace (step cfg) (poolSteps cfg) (start W cfg memory) tr) = some s.pool :=
  exec_simulates (a := State.pool) (I := Ready cfg)
    (fun _ _ _ hready hl => (hready.pool_step hl).2)
    (fun _ _ _ hready hl => (hready.pool_step hl).1)
    ⟨inv_start cfg memory, none, rfl⟩ h

/-- Queued connections never outnumber the wake-ups on their way: tokens of the
    semaphore and workers about to lock. -/
theorem queued_le_wakeups {memory : Int → Int} {tr : List (Step W)}
    (h : exec (step cfg) (start W cfg memory) tr = some s) :
    s.pool.mWorkqueue.length ≤ s.pool.mQueuestat + s.pool.wokenCount := by
  have hready : Ready cfg s := exec_invariant (P := Ready cfg) ⟨inv_start cfg memory, none, rfl⟩
    (fun _ _ _ hready hl => (hready.pool_step hl).2) h
  have hle := workqueue_length_le_wakeups (pool_run_of_exec h)
  -- the only caller of `append` is between two calls
  have hpushed : s.pool.pushedCount = 0 := by
    obtain ⟨-, result, hresult⟩ := hready
    rw [Pool.pushedCount, threadCount_eq_zero]
    rintro ⟨⟩
    rw [hresult]
    simp
  rw [Pool.wakeups, hpushed] at hle
  omega

end PoolRun

end WebServer.Server
