/-
  WebServer.ThreadPool.Basic

  `threadpool<T>` of threadpool.h with the `locker` and `sem` of locker.h, as a
  system of threads: any number of callers of `append` (`A`) and of workers in
  `run()` (`W`).

  Each label is one atomic step of one thread.  A section between
  `m_queuelocker.lock()` and `m_queuelocker.unlock()` is one step, which is
  what the mutex guarantees; the post that follows a push is a step of its
  own, and so is the wait that precedes a pop.  `sem::wait` discards the
  result of `sem_wait`, so a wait that fails (`EINTR`) lets the worker go on
  without a token: `waitErr`.

  The state is that of a live pool: `m_stop` is false from the constructor on
  and only the destructor sets it, so the test at the head of the loop of
  `run()` passes.
-/

import WebServer.Lib.Concurrent

namespace WebServer.ThreadPool

open WebServer.Lib

/-! ## Program points -/

/-- Where a caller of `append(request)` is.  Requests are pointers, `none` is
    the null pointer. -/
inductive AppendPc (T : Type*) where
  /-- not inside `append`, or returned from it with the given result -/
  | returned (result : Option Bool)
  /-- before the locked section -/
  | entered (request : Option T)
  /-- has pushed and unlocked, before `m_queuestat.post()` -/
  | pushed
deriving DecidableEq, Repr

/-- Where a worker is in the loop of `run()`. -/
inductive RunPc (T : Type*) where
  /-- before the test of `m_stop` -/
  | top
  /-- inside `m_queuestat.wait()` -/
  | waiting
  /-- returned from `wait()`, before the locked section -/
  | woken
  /-- has popped and unlocked; ends with `request->process()` returning -/
  | popped (request : Option T)
deriving DecidableEq, Repr

/-- `threadpool<T>`, with the program points of the threads that use it. -/
structure Pool (T A W : Type*) where
  mMaxRequests : Nat
  mWorkqueue : List (Option T)
  /-- value of the semaphore `m_queuestat` -/
  mQueuestat : Nat
  mStop : Bool
  appender : A → AppendPc T
  worker : W → RunPc T

/-- The pool the constructor leaves: empty queue, semaphore at 0, every worker
    at the head of `run()`. -/
def Pool.start (T A W : Type*) (maxRequest : Nat) : Pool T A W where
  mMaxRequests := maxRequest
  mWorkqueue := []
  mQueuestat := 0
  mStop := false
  appender := fun _ => .returned none
  worker := fun _ => .top

/-! ## Steps -/

/-- The atomic steps of the threads. -/
inductive Step (T A W : Type*) where
  /-- `a` calls `append(request)` -/
  | call (a : A) (request : Option T)
  /-- the locked section of `append`, pushing -/
  | push (a : A) (request : Option T)
  /-- the locked section of `append`, refusing; `append` returns false -/
  | reject (a : A) (request : Option T)
  /-- `m_queuestat.post()`; `append` returns true -/
  | post (a : A)
  /-- `while(!m_stop)` -/
  | loop (w : W)
  /-- `m_queuestat.wait()` returns with a token -/
  | wait (w : W)
  /-- `m_queuestat.wait()` returns with an error and no token -/
  | waitErr (w : W)
  /-- the locked section of `run`, popping -/
  | pop (w : W) (request : Option T)
  /-- the locked section of `run`, finding the queue empty -/
  | empty (w : W)
  /-- `if (!request) continue;` -/
  | skip (w : W)
  /-- `request->process()` -/
  | process (w : W) (request : T)
deriving DecidableEq, Repr

variable {T A W : Type*}

/-- The steps of `run()`, `process()` apart. -/
def Step.isRun : Step T A W → Bool
  | .loop _ | .wait _ | .waitErr _ | .pop _ _ | .empty _ | .skip _ => true
  | _ => false

/-- When a step can be taken. -/
def Enabled (p : Pool T A W) : Step T A W → Prop
  | .call a _ => ∃ result, p.appender a = .returned result
  | .push a request => p.appender a = .entered request ∧
      ¬ p.mWorkqueue.length > p.mMaxRequests
  | .reject a request => p.appender a = .entered request ∧
      p.mWorkqueue.length > p.mMaxRequests
  | .post a => p.appender a = .pushed
  | .loop w => p.worker w = .top ∧ p.mStop = false
  | .wait w => p.worker w = .waiting ∧ 0 < p.mQueuestat
  | .waitErr w => p.worker w = .waiting
  | .pop w request => p.worker w = .woken ∧ p.mWorkqueue.head? = some request
  | .empty w => p.worker w = .woken ∧ p.mWorkqueue = []
  | .skip w => p.worker w = .popped none
  | .process w request => p.worker w = .popped (some request)

/-- Whether a caller is outside `append`, as a Boolean. -/
def AppendPc.isReturned : AppendPc T → Bool
  | .returned _ => true
  | _ => false

theorem AppendPc.isReturned_iff {pc : AppendPc T} :
    pc.isReturned = true ↔ ∃ result, pc = .returned result := by
  cases pc <;> simp [isReturned]

instance [DecidableEq T] (p : Pool T A W) (l : Step T A W) : Decidable (Enabled p l) :=
  match l with
  | .call _ _ => decidable_of_iff _ AppendPc.isReturned_iff
  | .push .. => inferInstanceAs (Decidable (_ ∧ _))
  | .reject .. => inferInstanceAs (Decidable (_ ∧ _))
  | .post _ => inferInstanceAs (Decidable (_ = _))
  | .loop _ => inferInstanceAs (Decidable (_ ∧ _))
  | .wait _ => inferInstanceAs (Decidable (_ ∧ _))
  | .waitErr _ => inferInstanceAs (Decidable (_ = _))
  | .pop .. => inferInstanceAs (Decidable (_ ∧ _))
  | .empty _ => inferInstanceAs (Decidable (_ ∧ _))
  | .skip _ => inferInstanceAs (Decidable (_ = _))
  | .process .. => inferInstanceAs (Decidable (_ = _))

variable [DecidableEq A] [DecidableEq W]

/-- What a step does to the pool. -/
def next (p : Pool T A W) : Step T A W → Pool T A W
  | .call a request => { p with appender := Function.update p.appender a (.entered request) }
  | .push a request => { p with
      mWorkqueue := p.mWorkqueue ++ [request]
      appender := Function.update p.appender a .pushed }
  | .reject a _ => { p with
      appender := Function.update p.appender a (.returned (some false)) }
  | .post a => { p with
      mQueuestat := p.mQueuestat + 1
      appender := Function.update p.appender a (.returned (some true)) }
  | .loop w => { p with worker := Function.update p.worker w .waiting }
  | .wait w => { p with
      mQueuestat := p.mQueuestat - 1
      worker := Function.update p.worker w .woken }
  | .waitErr w => { p with worker := Function.update p.worker w .woken }
  | .pop w request => { p with
      mWorkqueue := p.mWorkqueue.tail
      worker := Function.update p.worker w (.popped request) }
  | .empty w => { p with worker := Function.update p.worker w .top }
  | .skip w => { p with worker := Function.update p.worker w .top }
  | .process w _ => { p with worker := Function.update p.worker w .top }

/-- The pool as a system. -/
def step [DecidableEq T] : Pool T A W → Step T A W → Option (Pool T A W) :=
  guarded Enabled next

@[simp] theorem step_eq_some [DecidableEq T] {p p' : Pool T A W} {l : Step T A W} :
    step p l = some p' ↔ Enabled p l ∧ next p l = p' :=
  guarded_eq_some

/-! ## Copies of a request -/

section InFlight

variable [DecidableEq T] [Fintype W]

/-- How often a request is in the queue or in the hands of a worker. -/
def inFlight (p : Pool T A W) (r : T) : Nat :=
  p.mWorkqueue.count (some r) + threadCount p.worker (· = .popped (some r))

omit [DecidableEq A] [DecidableEq W] in
theorem inFlight_of_eq {p p' : Pool T A W} (hqueue : p'.mWorkqueue = p.mWorkqueue)
    (hworker : p'.worker = p.worker) (r : T) : inFlight p' r = inFlight p r := by
  rw [inFlight, inFlight, hqueue, hworker]

omit [DecidableEq A] in
/-- A worker that holds nothing before and after. -/
theorem inFlight_update (p : Pool T A W) {w : W} {pc : RunPc T} (r : T)
    (hbefore : p.worker w ≠ .popped (some r)) (hafter : pc ≠ .popped (some r)) :
    inFlight { p with worker := Function.update p.worker w pc } r = inFlight p r := by
  have hcount := threadCount_update (f := p.worker) (p := (· = .popped (some r))) w pc
  rw [if_neg hbefore, if_neg hafter] at hcount
  simp only [inFlight]
  omega

/-- `run()` moves requests from the queue to the workers. -/
theorem inFlight_run {p : Pool T A W} {l : Step T A W} (hrun : l.isRun = true)
    (hen : Enabled p l) (r : T) : inFlight (next p l) r = inFlight p r := by
  cases l with
  | call a request | push a request | reject a request | post a | process w request =>
      exact absurd hrun (by simp [Step.isRun])
  | loop w => exact inFlight_update p r (by rw [hen.1]; simp) (by simp)
  | wait w =>
      exact inFlight_update { p with mQueuestat := p.mQueuestat - 1 } r
        (by rw [hen.1]; simp) (by simp)
  | waitErr w =>
      have hw : p.worker w = .waiting := hen
      exact inFlight_update p r (by rw [hw]; simp) (by simp)
  | empty w => exact inFlight_update p r (by rw [hen.1]; simp) (by simp)
  | skip w =>
      have hw : p.worker w = .popped none := hen
      exact inFlight_update p r (by rw [hw]; simp) (by simp)
  | pop w request =>
      obtain ⟨hw, hhead⟩ := hen
      obtain ⟨rest, hqueue⟩ := List.head?_eq_some_iff.mp hhead
      -- one copy less in the queue, one more with `w`
      have hcount := threadCount_update (f := p.worker) (p := (· = .popped (some r))) w
        (.popped request)
      rw [hw, if_neg (by simp)] at hcount
      simp only [inFlight, next, hqueue, List.tail_cons, List.count_cons]
      by_cases hr : request = some r
      · subst hr
        simp only [if_true, beq_self_eq_true] at hcount ⊢
        omega
      · rw [if_neg (by simpa using hr)] at hcount
        rw [if_neg (by simpa using hr)]
        omega

/-- `process()` gives up the request it was called on. -/
theorem inFlight_process {p : Pool T A W} {w : W} {request : T}
    (hen : Enabled p (.process w request)) (r : T) :
    inFlight (next p (.process w request)) r + (if request = r then 1 else 0) = inFlight p r := by
  have hw : p.worker w = .popped (some request) := hen
  have hcount := threadCount_update (f := p.worker) (p := (· = .popped (some r))) w .top
  rw [hw] at hcount
  simp only [RunPc.popped.injEq, Option.some.injEq, reduceCtorEq, if_false] at hcount
  simp only [inFlight, next]
  omega

end InFlight

end WebServer.ThreadPool
