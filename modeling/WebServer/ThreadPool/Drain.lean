/-
  WebServer.ThreadPool.Drain

  What becomes of the requests a pool has accepted.

  A thread that cannot go on is a caller outside `append`, a worker in
  `wait()` without a token, or a thread in front of a mutex that is held; and
  the holder of the mutex can always go on (`step_eq_none_iff`).  So the pool
  as a whole stands still only when it has nothing to do (`stuck_iff_idle`).

  It does come to that.  Every statement lowers the work that is left
  (`work_move`): a token pays for one round of a worker, and an `append` for
  its own statements and the token it posts.  So, whatever the scheduler does,
  once no more calls are made the pool stands still after at most that many
  statements, and has processed every request as often as it was accepted
  (`pool_drains`).
-/

import WebServer.ThreadPool.Locked

namespace WebServer.ThreadPool.Locked

open WebServer.Lib

variable {T A W : Type*}

/-! ## Standing still -/

/-- The thread goes on to its next statement. -/
def goesOn : A ⊕ W → Step T A W := Sum.elim .append .run

/-- The thread cannot go on. -/
def Pool.Blocked (p : Pool T A W) : A ⊕ W → Prop
  | .inl a => match p.appender a with
      | .returned _ => True
      | .entered _ => p.mQueuelocker ≠ none
      | _ => False
  | .inr w => match p.worker w with
      | .waiting => p.mQueuestat = 0
      | .woken => p.mQueuelocker ≠ none
      | _ => False

/-- Every caller is outside `append`, every worker is in `wait()`, and nothing
    is waiting for any of them. -/
structure Pool.Idle (p : Pool T A W) : Prop where
  returned : ∀ a, ∃ result, p.appender a = .returned result
  waiting : ∀ w, p.worker w = .waiting
  free : p.mQueuelocker = none
  workqueue : p.mWorkqueue = []
  queuestat : p.mQueuestat = 0

section Blocked

variable [DecidableEq A] [DecidableEq W]

theorem mStop_of_exec {n : Nat} {tr : List (Step T A W)} {p : Pool T A W}
    (h : exec step (Pool.start T A W n) tr = some p) : p.mStop = false := by
  refine exec_invariant (P := fun p => p.mStop = false) rfl ?_ h
  intro p l p' hstop hl
  cases move_of_step hl <;> exact hstop

omit [DecidableEq W] in
theorem appendNext_eq_none_iff {p : Pool T A W} (a : A) :
    appendNext p a = none ↔ p.Blocked (.inl a) := by
  cases ha : p.appender a with
  | entered request => cases hfree : p.mQueuelocker <;> simp [appendNext, Pool.Blocked, ha, hfree]
  | locked request => simp only [appendNext, Pool.Blocked, ha]; split <;> simp
  | _ => simp [appendNext, Pool.Blocked, ha]

omit [DecidableEq A] in
theorem runNext_eq_none_iff {p : Pool T A W} (hinv : Inv p) (hstop : p.mStop = false) (w : W) :
    runNext p w = none ↔ p.Blocked (.inr w) := by
  have hknows := hinv.knows (.inr w)
  rw [pc_inr] at hknows
  cases hw : p.worker w with
  | top => simp [runNext, Pool.Blocked, hw, hstop]
  | waiting => simp [runNext, Pool.Blocked, hw]
  | woken => cases hfree : p.mQueuelocker <;> simp [runNext, Pool.Blocked, hw, hfree]
  | locked => simp only [runNext, Pool.Blocked, hw]; split <;> simp
  | fronting =>
      -- the queue has an element, as the worker has seen
      rw [hw] at hknows
      have hqueue : p.mWorkqueue ≠ [] := hknows
      simp [runNext, Pool.Blocked, hw, hqueue]
  | popping request =>
      rw [hw] at hknows
      have hqueue : p.mWorkqueue ≠ [] := by
        intro hnil
        rw [hnil] at hknows
        cases hknows
      simp [runNext, Pool.Blocked, hw, hqueue]
  | _ => simp [runNext, Pool.Blocked, hw]

theorem step_eq_none_iff {p : Pool T A W} (hinv : Inv p) (hstop : p.mStop = false) (t : A ⊕ W) :
    step p (goesOn t) = none ↔ p.Blocked t := by
  rcases t with a | w
  · exact appendNext_eq_none_iff a
  · exact runNext_eq_none_iff hinv hstop w

omit [DecidableEq A] [DecidableEq W] in
/-- The holder of the mutex can go on. -/
theorem not_blocked_of_inside {p : Pool T A W} {t : A ⊕ W}
    (h : (monitor T p.mMaxRequests).inside (p.pc t) = true) : ¬ p.Blocked t := by
  rcases t with a | w
  · rw [pc_inl] at h
    cases ha : p.appender a <;> simp_all [monitor, AppendPc.inside, Pool.Blocked]
  · rw [pc_inr] at h
    cases hw : p.worker w <;> simp_all [monitor, RunPc.inside, Pool.Blocked]

omit [DecidableEq A] [DecidableEq W] in
theorem free_of_blocked {p : Pool T A W} (hinv : Inv p) (h : ∀ t, p.Blocked t) :
    p.mQueuelocker = none := by
  cases howner : p.mQueuelocker with
  | none => rfl
  | some t => exact absurd (h t) (not_blocked_of_inside ((hinv.owner_iff t).mp howner))

omit [DecidableEq A] [DecidableEq W] in
theorem returned_of_blocked {p : Pool T A W} (hfree : p.mQueuelocker = none) {a : A}
    (h : p.Blocked (.inl a)) : ∃ result, p.appender a = .returned result := by
  cases ha : p.appender a <;> simp_all [Pool.Blocked]

omit [DecidableEq A] [DecidableEq W] in
theorem waiting_of_blocked {p : Pool T A W} (hfree : p.mQueuelocker = none) {w : W}
    (h : p.Blocked (.inr w)) : p.worker w = .waiting ∧ p.mQueuestat = 0 := by
  cases hw : p.worker w <;> simp_all [Pool.Blocked]

omit [DecidableEq A] [DecidableEq W] in
theorem Pool.Idle.blocked {p : Pool T A W} (h : p.Idle) (t : A ⊕ W) : p.Blocked t := by
  rcases t with a | w
  · obtain ⟨result, ha⟩ := h.returned a
    simp [Pool.Blocked, ha]
  · simp [Pool.Blocked, h.waiting w, h.queuestat]

/-- The pool has at least one worker; then a token is taken by somebody. -/
theorem idle_of_blocked [DecidableEq T] [Fintype A] [Fintype W] [Nonempty W] {n : Nat}
    {tr : List (Step T A W)} {p : Pool T A W}
    (h : exec step (Pool.start T A W n) tr = some p) (hblocked : ∀ t, p.Blocked t) : p.Idle := by
  have hfree := free_of_blocked (inv_of_exec h) hblocked
  have hreturned := fun a => returned_of_blocked hfree (hblocked (.inl a))
  have hwaiting := fun w => (waiting_of_blocked hfree (hblocked (.inr w))).1
  have hsem : p.mQueuestat = 0 :=
    (waiting_of_blocked hfree (hblocked (.inr (Classical.arbitrary W)))).2
  refine ⟨hreturned, hwaiting, hfree, ?_, hsem⟩
  -- no wake-up is on its way, so nothing is queued
  have hle : p.mWorkqueue.length ≤ p.mQueuestat + p.abs.pushedCount + p.abs.wokenCount :=
    workqueue_length_le_wakeups (exec_atomicTrace h)
  have hpushed : p.abs.pushedCount = 0 := threadCount_eq_zero.mpr fun a => by
    obtain ⟨result, ha⟩ := hreturned a
    rw [abs_appender ha]
    nofun
  have hwoken : p.abs.wokenCount = 0 := threadCount_eq_zero.mpr fun w => by
    rw [abs_worker (hwaiting w)]
    nofun
  rw [← List.length_eq_zero_iff]
  omega

/-- **No deadlock.**  In a reachable state of a pool with a worker, no thread
    can go on to its next statement exactly if every caller is outside
    `append`, every worker is in `wait()`, and queue and semaphore are empty. -/
theorem stuck_iff_idle [DecidableEq T] [Fintype A] [Fintype W] [Nonempty W] {n : Nat}
    {tr : List (Step T A W)} {p : Pool T A W}
    (h : exec step (Pool.start T A W n) tr = some p) :
    (∀ t, step p (goesOn t) = none) ↔ p.Idle := by
  simp only [step_eq_none_iff (inv_of_exec h) (mStop_of_exec h)]
  exact ⟨idle_of_blocked h, Pool.Idle.blocked⟩

theorem stuck_iff_idle_sample :
    ∃ p, exec step (Pool.start Nat Unit Unit 3) sampleRun = some p ∧
      ((∀ t, step p (goesOn t) = none) ↔ p.Idle) := by
  obtain ⟨p, hp⟩ : ∃ p, exec step (Pool.start Nat Unit Unit 3) sampleRun = some p := ⟨_, rfl⟩
  exact ⟨p, hp, stuck_iff_idle hp⟩

end Blocked

/-! ## Work that is left -/

/-- Statements a caller still has to execute, and 8 for the token it posts. -/
def AppendPc.left : AppendPc T → Nat
  | .returned _ => 0
  | .refusing => 1
  | .unlocked => 9
  | .pushed => 10
  | .pushing _ => 11
  | .locked _ => 12
  | .entered _ => 13

/-- Statements up to the next `wait()`. -/
def RunPc.left : RunPc T → Nat
  | .waiting => 0
  | .top => 1
  | .unlocked _ | .leaving => 2
  | .popped _ => 3
  | .popping _ => 4
  | .fronting => 5
  | .locked => 6
  | .woken => 7

def Pool.work [Fintype A] [Fintype W] (p : Pool T A W) : Nat :=
  8 * p.mQueuestat + threadSum p.appender AppendPc.left + threadSum p.worker RunPc.left

/-- A statement of `append` or `run()`: no new call, and no wait that fails. -/
def Step.isStatement : Step T A W → Prop
  | .append _ | .run _ => True
  | .call _ _ | .waitErr _ => False

section Work

variable [DecidableEq A] [DecidableEq W] [Fintype A] [Fintype W]

omit [DecidableEq W] in
theorem work_setAppender (p : Pool T A W) {a : A} {pc : AppendPc T} (ha : p.appender a = pc)
    (pc' : AppendPc T) : (p.setAppender a pc').work + pc.left = p.work + pc'.left := by
  have hsum := threadSum_update (f := p.appender) AppendPc.left a pc'
  rw [ha] at hsum
  simp only [Pool.work, Pool.setAppender]
  omega

omit [DecidableEq A] in
theorem work_setWorker (p : Pool T A W) {w : W} {pc : RunPc T} (hw : p.worker w = pc)
    (pc' : RunPc T) : (p.setWorker w pc').work + pc.left = p.work + pc'.left := by
  have hsum := threadSum_update (f := p.worker) RunPc.left w pc'
  rw [hw] at hsum
  simp only [Pool.work, Pool.setWorker]
  omega

omit [DecidableEq W] in
theorem work_setAppender_lt {p : Pool T A W} {a : A} {pc pc' : AppendPc T}
    (ha : p.appender a = pc) (hlt : pc'.left < pc.left) : (p.setAppender a pc').work < p.work := by
  have hwork := work_setAppender p ha pc'
  omega

omit [DecidableEq A] in
theorem work_setWorker_lt {p : Pool T A W} {w : W} {pc pc' : RunPc T}
    (hw : p.worker w = pc) (hlt : pc'.left < pc.left) : (p.setWorker w pc').work < p.work := by
  have hwork := work_setWorker p hw pc'
  omega

/-- Every statement is paid for. -/
theorem work_move {p p' : Pool T A W} {l : Step T A W} (hl : l.isStatement) (h : Move p l p') :
    p'.work < p.work := by
  cases h with
  | call | waitErr => exact hl.elim
  | full ha | room ha => exact work_setAppender_lt ha (by simp [AppendPc.left])
  | lockAppend ha | refuse ha | push ha | unlockAppend ha =>
      exact work_setAppender_lt (p := { p with .. }) ha (by simp [AppendPc.left])
  | @post a ha =>
      -- the token costs 8 of the 9
      have hwork := work_setAppender { p with mQueuestat := p.mQueuestat + 1 } ha
        (.returned (some true))
      simp only [Pool.work, AppendPc.left] at hwork ⊢
      omega
  | @wait w hw htoken =>
      -- and pays for the 7 statements of a round
      have hwork := work_setWorker { p with mQueuestat := p.mQueuestat - 1 } hw .woken
      simp only [Pool.work, RunPc.left] at hwork ⊢
      omega
  | loop hw | empty hw | nonempty hw | front hw | finish hw =>
      exact work_setWorker_lt hw (by simp [RunPc.left])
  | lockRun hw | leave hw | pop hw | unlockRun hw =>
      exact work_setWorker_lt (p := { p with .. }) hw (by simp [RunPc.left])

theorem work_step (p : Pool T A W) (l : Step T A W) (p' : Pool T A W) (hl : l.isStatement)
    (h : step p l = some p') : p'.work < p.work :=
  work_move hl (move_of_step h)

end Work

/-! ## What was accepted is processed -/

section Fate

variable [DecidableEq T] [DecidableEq A] [DecidableEq W] [Fintype W]

/-- A step adds the copies it accepts and takes away the ones it processes. -/
theorem inFlight_step {p p' : ThreadPool.Pool T A W} {l : ThreadPool.Step T A W}
    (h : ThreadPool.step p l = some p') (r : T) :
    inFlight p' r + ((processed [l]).map Prod.snd).count r
      = inFlight p r + (accepted [l]).count (some r) := by
  obtain ⟨hen, rfl⟩ := ThreadPool.step_eq_some.mp h
  cases l with
  | call a request | reject a request | post a => rfl
  | push a request =>
      simp only [inFlight, ThreadPool.next, processed, accepted, List.filterMap_cons,
        List.filterMap_nil, List.map_nil, List.count_nil, List.count_append]
      omega
  | process w request =>
      have hcopies := inFlight_process hen r
      simpa [processed, accepted, List.count_singleton] using hcopies
  | loop | wait | waitErr | pop | empty | skip =>
      rw [inFlight_run rfl hen]
      rfl

/-- A request has been accepted as often as it was processed, is in the queue
    or in the hands of a worker. -/
theorem accepted_count {n : Nat} {tr : List (ThreadPool.Step T A W)} {p : ThreadPool.Pool T A W}
    (h : exec ThreadPool.step (ThreadPool.Pool.start T A W n) tr = some p) (r : T) :
    (accepted tr).count (some r) = ((processed tr).map Prod.snd).count r + inFlight p r := by
  refine exec_history (P := fun tr p => (accepted tr).count (some r)
    = ((processed tr).map Prod.snd).count r + inFlight p r) ?_ ?_ h
  · simp [accepted, processed, inFlight, ThreadPool.Pool.start, threadCount]
  · intro tr p l p' hcount hl
    have hstep := inFlight_step hl r
    have haccepted : accepted (tr ++ [l]) = accepted tr ++ accepted [l] := List.filterMap_append
    have hprocessed : processed (tr ++ [l]) = processed tr ++ processed [l] :=
      List.filterMap_append
    rw [haccepted, hprocessed, List.map_append, List.count_append, List.count_append]
    omega

omit [DecidableEq A] [DecidableEq W] in
/-- Nobody has a request in an idle pool. -/
theorem Pool.Idle.inFlight {p : Pool T A W} (h : p.Idle) (r : T) : inFlight p.abs r = 0 := by
  have hheld : threadCount p.abs.worker (· = .popped (some r)) = 0 :=
    threadCount_eq_zero.mpr fun w => by
      rw [abs_worker (h.waiting w)]
      nofun
  have hqueue : p.abs.mWorkqueue = [] := h.workqueue
  rw [ThreadPool.inFlight, hheld, hqueue]
  rfl

/-- **Every accepted request is processed.**  From any reachable state of a
    pool with a worker, if no more calls are made and no wait fails: every
    schedule ends after at most `work` statements, one does end in a state
    where no thread can go on, and in each such state the pool is idle and
    every request has been processed exactly as often as `append` accepted it. -/
theorem pool_drains [Fintype A] [Nonempty W] {n : Nat} {tr : List (Step T A W)} {p : Pool T A W}
    (h : exec step (Pool.start T A W n) tr = some p) :
    (∃ tr' p', (∀ l ∈ tr', l.isStatement) ∧ exec step p tr' = some p' ∧
      ∀ t, step p' (goesOn t) = none) ∧
    ∀ tr' p', (∀ l ∈ tr', l.isStatement) → exec step p tr' = some p' →
      tr'.length ≤ p.work ∧
      ((∀ t, step p' (goesOn t) = none) → p'.Idle ∧
        ∀ r, ((processed (atomicTrace n (tr ++ tr'))).map Prod.snd).count r
          = (accepted (atomicTrace n (tr ++ tr'))).count (some r)) := by
  refine ⟨?_, ?_⟩
  · obtain ⟨tr', p', hquiet, hrun, hmax⟩ := exists_exec_maximal (work_step (T := T)) p
    refine ⟨tr', p', hquiet, hrun, ?_⟩
    rintro (a | w)
    · exact hmax (.append a) trivial
    · exact hmax (.run w) trivial
  · intro tr' p' hquiet hrun
    have hlen := exec_length_add_le (work_step (T := T)) hquiet hrun
    have hreach : exec step (Pool.start T A W n) (tr ++ tr') = some p' := by
      rw [exec_append, h]
      exact hrun
    refine ⟨by omega, fun hstuck => ?_⟩
    have hblocked : ∀ t, p'.Blocked t := fun t =>
      (step_eq_none_iff (inv_of_exec hreach) (mStop_of_exec hreach) t).mp (hstuck t)
    have hidle := idle_of_blocked hreach hblocked
    refine ⟨hidle, fun r => ?_⟩
    have hcount := accepted_count (exec_atomicTrace hreach) r
    rw [hidle.inFlight r] at hcount
    exact hcount.symm

/-- The worker of `sampleRun` has popped, the caller has still to post. -/
theorem pool_drains_sample :
    ∃ p, exec step (Pool.start Nat Unit Unit 3) sampleRun = some p ∧
      ∃ tr' p', exec step p tr' = some p' ∧ ∀ t, step p' (goesOn t) = none := by
  obtain ⟨p, hp⟩ : ∃ p, exec step (Pool.start Nat Unit Unit 3) sampleRun = some p := ⟨_, rfl⟩
  obtain ⟨tr', p', -, hrun, hstuck⟩ := (pool_drains hp).1
  exact ⟨p, hp, tr', p', hrun, hstuck⟩

end Fate

end WebServer.ThreadPool.Locked
