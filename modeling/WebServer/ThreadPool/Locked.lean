/-
  WebServer.ThreadPool.Locked

  The pool statement by statement, with its mutex.

  `WebServer.ThreadPool.Basic` takes a section between `m_queuelocker.lock()`
  and `m_queuelocker.unlock()` for one step.  Here every statement of `append`
  and `run()` is a step of its own: the test of the size, the `push_back`, the
  `front` and the `pop_front` of different threads may interleave in any way
  the mutex does not forbid.

  The mutex is then what makes the coarser model right.  The threads are a
  `Monitor` of the library with `m_workqueue` as the shared data
  (`inv_of_exec`), so whoever touches the queue holds the mutex, and what a
  thread has seen of the queue still holds at its next statement.  With that
  every run of this system is a run of the coarser one (`locked_refines`),
  where a section happens at the statement that decides it: the failed test,
  the `push_back`, the `pop_front`.
-/

import WebServer.ThreadPool.Semaphore
import WebServer.ThreadPool.Workqueue
import WebServer.Lib.Mutex

namespace WebServer.ThreadPool.Locked

open WebServer.Lib

/-! ## Program points -/

/-- The statement of `append(request)` a caller is at. -/
inductive AppendPc (T : Type*) where
  /-- not inside `append`, or returned from it with the given result -/
  | returned (result : Option Bool)
  /-- `m_queuelocker.lock()` -/
  | entered (request : Option T)
  /-- `if (m_workqueue.size() > m_max_requests)` -/
  | locked (request : Option T)
  /-- `m_queuelocker.unlock(); return false;` -/
  | refusing
  /-- `m_workqueue.push_back(request)` -/
  | pushing (request : Option T)
  /-- `m_queuelocker.unlock()` -/
  | pushed
  /-- `m_queuestat.post(); return true;` -/
  | unlocked
deriving DecidableEq, Repr

/-- The statement of `run()` a worker is at. -/
inductive RunPc (T : Type*) where
  /-- `while(!m_stop)` -/
  | top
  /-- `m_queuestat.wait()` -/
  | waiting
  /-- `m_queuelocker.lock()` -/
  | woken
  /-- `if (m_workqueue.empty())` -/
  | locked
  /-- `m_queuelocker.unlock(); continue;` -/
  | leaving
  /-- `T* request = m_workqueue.front()` -/
  | fronting
  /-- `m_workqueue.pop_front()` -/
  | popping (request : Option T)
  /-- `m_queuelocker.unlock()` -/
  | popped (request : Option T)
  /-- `if (!request) continue; request->process();` -/
  | unlocked (request : Option T)
deriving DecidableEq, Repr

/-- `threadpool<T>`, its mutex and the program points of its threads. -/
structure Pool (T A W : Type*) where
  mMaxRequests : Nat
  mWorkqueue : List (Option T)
  /-- the thread that holds `m_queuelocker` -/
  mQueuelocker : Option (A ⊕ W)
  mQueuestat : Nat
  mStop : Bool
  appender : A → AppendPc T
  worker : W → RunPc T

def Pool.start (T A W : Type*) (maxRequest : Nat) : Pool T A W where
  mMaxRequests := maxRequest
  mWorkqueue := []
  mQueuelocker := none
  mQueuestat := 0
  mStop := false
  appender := fun _ => .returned none
  worker := fun _ => .top

/-! ## Steps -/

/-- Who takes the next step.  What the thread does is in its program point. -/
inductive Step (T A W : Type*) where
  /-- `a` calls `append(request)` -/
  | call (a : A) (request : Option T)
  /-- the next statement of `append` -/
  | append (a : A)
  /-- the next statement of `run()` -/
  | run (w : W)
  /-- `m_queuestat.wait()` returns with an error and no token -/
  | waitErr (w : W)
deriving DecidableEq, Repr

variable {T A W : Type*} [DecidableEq A] [DecidableEq W]

/-- `a` goes on to `pc`. -/
def Pool.setAppender (p : Pool T A W) (a : A) (pc : AppendPc T) : Pool T A W :=
  { p with appender := Function.update p.appender a pc }

/-- `w` goes on to `pc`. -/
def Pool.setWorker (p : Pool T A W) (w : W) (pc : RunPc T) : Pool T A W :=
  { p with worker := Function.update p.worker w pc }

/-- The next statement of `append`; `none` where it blocks. -/
def appendNext (p : Pool T A W) (a : A) : Option (Pool T A W) :=
  match p.appender a with
  | .returned _ => none
  | .entered request =>
      match p.mQueuelocker with
      | none => some ({ p with mQueuelocker := some (.inl a) }.setAppender a (.locked request))
      | some _ => none
  | .locked request =>
      if p.mWorkqueue.length > p.mMaxRequests then
        some (p.setAppender a .refusing)
      else
        some (p.setAppender a (.pushing request))
  | .refusing => some ({ p with mQueuelocker := none }.setAppender a (.returned (some false)))
  | .pushing request =>
      some ({ p with mWorkqueue := p.mWorkqueue ++ [request] }.setAppender a .pushed)
  | .pushed => some ({ p with mQueuelocker := none }.setAppender a .unlocked)
  | .unlocked =>
      some ({ p with mQueuestat := p.mQueuestat + 1 }.setAppender a (.returned (some true)))

/-- The next statement of `run()`; `none` where it blocks, where the worker has
    left, and where `front` or `pop_front` has no element. -/
def runNext (p : Pool T A W) (w : W) : Option (Pool T A W) :=
  match p.worker w with
  | .top => if p.mStop then none else some (p.setWorker w .waiting)
  | .waiting =>
      if 0 < p.mQueuestat then
        some ({ p with mQueuestat := p.mQueuestat - 1 }.setWorker w .woken)
      else
        none
  | .woken =>
      match p.mQueuelocker with
      | none => some ({ p with mQueuelocker := some (.inr w) }.setWorker w .locked)
      | some _ => none
  | .locked =>
      if p.mWorkqueue.isEmpty then some (p.setWorker w .leaving) else some (p.setWorker w .fronting)
  | .leaving => some ({ p with mQueuelocker := none }.setWorker w .top)
  | .fronting => p.mWorkqueue.head?.map fun request => p.setWorker w (.popping request)
  | .popping request =>
      if p.mWorkqueue.isEmpty then
        none
      else
        some ({ p with mWorkqueue := p.mWorkqueue.tail }.setWorker w (.popped request))
  | .popped request => some ({ p with mQueuelocker := none }.setWorker w (.unlocked request))
  | .unlocked _ => some (p.setWorker w .top)

/-- The pool as a system. -/
def step (p : Pool T A W) : Step T A W → Option (Pool T A W)
  | .call a request =>
      match p.appender a with
      | .returned _ => some (p.setAppender a (.entered request))
      | _ => none
  | .append a => appendNext p a
  | .run w => runNext p w
  | .waitErr w => if p.worker w matches .waiting then some (p.setWorker w .woken) else none

/-- The steps, with their guards and effects. -/
inductive Move (p : Pool T A W) : Step T A W → Pool T A W → Prop where
  | call {a : A} {request : Option T} {result : Option Bool}
      (ha : p.appender a = .returned result) :
      Move p (.call a request) (p.setAppender a (.entered request))
  | lockAppend {a : A} {request : Option T} (ha : p.appender a = .entered request)
      (hfree : p.mQueuelocker = none) :
      Move p (.append a)
        ({ p with mQueuelocker := some (.inl a) }.setAppender a (.locked request))
  | full {a : A} {request : Option T} (ha : p.appender a = .locked request)
      (hfull : p.mWorkqueue.length > p.mMaxRequests) :
      Move p (.append a) (p.setAppender a .refusing)
  | room {a : A} {request : Option T} (ha : p.appender a = .locked request)
      (hroom : ¬ p.mWorkqueue.length > p.mMaxRequests) :
      Move p (.append a) (p.setAppender a (.pushing request))
  | refuse {a : A} (ha : p.appender a = .refusing) :
      Move p (.append a) ({ p with mQueuelocker := none }.setAppender a (.returned (some false)))
  | push {a : A} {request : Option T} (ha : p.appender a = .pushing request) :
      Move p (.append a)
        ({ p with mWorkqueue := p.mWorkqueue ++ [request] }.setAppender a .pushed)
  | unlockAppend {a : A} (ha : p.appender a = .pushed) :
      Move p (.append a) ({ p with mQueuelocker := none }.setAppender a .unlocked)
  | post {a : A} (ha : p.appender a = .unlocked) :
      Move p (.append a)
        ({ p with mQueuestat := p.mQueuestat + 1 }.setAppender a (.returned (some true)))
  | loop {w : W} (hw : p.worker w = .top) (hstop : p.mStop = false) :
      Move p (.run w) (p.setWorker w .waiting)
  | wait {w : W} (hw : p.worker w = .waiting) (htoken : 0 < p.mQueuestat) :
      Move p (.run w) ({ p with mQueuestat := p.mQueuestat - 1 }.setWorker w .woken)
  | waitErr {w : W} (hw : p.worker w = .waiting) : Move p (.waitErr w) (p.setWorker w .woken)
  | lockRun {w : W} (hw : p.worker w = .woken) (hfree : p.mQueuelocker = none) :
      Move p (.run w) ({ p with mQueuelocker := some (.inr w) }.setWorker w .locked)
  | empty {w : W} (hw : p.worker w = .locked) (hqueue : p.mWorkqueue = []) :
      Move p (.run w) (p.setWorker w .leaving)
  | nonempty {w : W} (hw : p.worker w = .locked) (hqueue : p.mWorkqueue ≠ []) :
      Move p (.run w) (p.setWorker w .fronting)
  | leave {w : W} (hw : p.worker w = .leaving) :
      Move p (.run w) ({ p with mQueuelocker := none }.setWorker w .top)
  | front {w : W} {request : Option T} (hw : p.worker w = .fronting)
      (hhead : p.mWorkqueue.head? = some request) :
      Move p (.run w) (p.setWorker w (.popping request))
  | pop {w : W} {request : Option T} (hw : p.worker w = .popping request)
      (hqueue : p.mWorkqueue ≠ []) :
      Move p (.run w) ({ p with mWorkqueue := p.mWorkqueue.tail }.setWorker w (.popped request))
  | unlockRun {w : W} {request : Option T} (hw : p.worker w = .popped request) :
      Move p (.run w) ({ p with mQueuelocker := none }.setWorker w (.unlocked request))
  | finish {w : W} {request : Option T} (hw : p.worker w = .unlocked request) :
      Move p (.run w) (p.setWorker w .top)

theorem move_of_appendNext {p p' : Pool T A W} {a : A} (h : appendNext p a = some p') :
    Move p (.append a) p' := by
  unfold appendNext at h
  cases ha : p.appender a with
  | returned result => simp [ha] at h
  | entered request =>
      cases hfree : p.mQueuelocker with
      | none =>
          obtain rfl := by simpa [ha, hfree] using h
          exact .lockAppend ha hfree
      | some t => simp [ha, hfree] at h
  | locked request =>
      by_cases hfull : p.mWorkqueue.length > p.mMaxRequests
      · simp only [ha, if_pos hfull, Option.some.injEq] at h
        exact h ▸ .full ha hfull
      · simp only [ha, if_neg hfull, Option.some.injEq] at h
        exact h ▸ .room ha hfull
  | refusing | pushing | pushed | unlocked =>
      simp only [ha, Option.some.injEq] at h
      subst h
      constructor
      exact ha

theorem move_of_runNext {p p' : Pool T A W} {w : W} (h : runNext p w = some p') :
    Move p (.run w) p' := by
  unfold runNext at h
  cases hw : p.worker w with
  | top =>
      simp only [hw, Option.ite_none_left_eq_some, Option.some.injEq, Bool.not_eq_true] at h
      exact h.2 ▸ .loop hw h.1
  | waiting =>
      simp only [hw, Option.ite_none_right_eq_some, Option.some.injEq] at h
      exact h.2 ▸ .wait hw h.1
  | woken =>
      cases hfree : p.mQueuelocker with
      | none =>
          simp only [hw, hfree, Option.some.injEq] at h
          exact h ▸ .lockRun hw hfree
      | some t => simp [hw, hfree] at h
  | locked =>
      by_cases hqueue : p.mWorkqueue = []
      · simp only [hw, hqueue, List.isEmpty_nil, if_true, Option.some.injEq] at h
        exact h ▸ .empty hw hqueue
      · simp only [hw, List.isEmpty_iff, if_neg hqueue, Option.some.injEq] at h
        exact h ▸ .nonempty hw hqueue
  | fronting =>
      simp only [hw, Option.map_eq_some_iff] at h
      obtain ⟨request, hhead, rfl⟩ := h
      exact .front hw hhead
  | popping request =>
      simp only [hw, List.isEmpty_iff, Option.ite_none_left_eq_some, Option.some.injEq] at h
      exact h.2 ▸ .pop hw h.1
  | leaving | popped | unlocked =>
      simp only [hw, Option.some.injEq] at h
      subst h
      constructor
      exact hw

/-- **Inversion.**  Every step is one of the moves. -/
theorem move_of_step {p p' : Pool T A W} {l : Step T A W} (h : step p l = some p') :
    Move p l p' := by
  cases l with
  | call a request =>
      cases ha : p.appender a with
      | returned result =>
          simp only [step, ha, Option.some.injEq] at h
          exact h ▸ .call ha
      | _ => simp [step, ha] at h
  | append a => exact move_of_appendNext h
  | run w => exact move_of_runNext h
  | waitErr w =>
      cases hw : p.worker w with
      | waiting =>
          simp only [step, hw, if_true, Option.some.injEq] at h
          exact h ▸ .waitErr hw
      | _ => simp [step, hw] at h

/-! ## The monitor -/

/-- Between `lock()` and `unlock()`. -/
def AppendPc.inside : AppendPc T → Bool
  | .locked _ | .refusing | .pushing _ | .pushed => true
  | _ => false

def RunPc.inside : RunPc T → Bool
  | .locked | .leaving | .fronting | .popping _ | .popped _ => true
  | _ => false

/-- What a thread has found out about the queue and relies on. -/
def AppendPc.knows (maxRequests : Nat) : AppendPc T → List (Option T) → Prop
  | .pushing _, queue => ¬ queue.length > maxRequests
  | _, _ => True

def RunPc.knows : RunPc T → List (Option T) → Prop
  | .fronting, queue => queue ≠ []
  | .popping request, queue => queue.head? = some request
  | _, _ => True

/-- The threads of a pool around `m_workqueue`. -/
def monitor (T : Type*) (maxRequests : Nat) : Monitor (AppendPc T ⊕ RunPc T) (List (Option T)) where
  inside := Sum.elim AppendPc.inside RunPc.inside
  knows := Sum.elim (AppendPc.knows maxRequests) RunPc.knows
  knows_outside := by
    rintro (pc | pc) hout queue
    · cases pc <;> trivial
    · cases pc <;> trivial

/-- Where every thread is. -/
def Pool.pc (p : Pool T A W) : A ⊕ W → AppendPc T ⊕ RunPc T := Sum.map p.appender p.worker

/-- The mutex matches the program points, and the threads are right about the
    queue. -/
def Inv (p : Pool T A W) : Prop :=
  (monitor T p.mMaxRequests).Holds p.mQueuelocker p.pc p.mWorkqueue

omit [DecidableEq A] [DecidableEq W] in
theorem pc_inl (p : Pool T A W) (a : A) : p.pc (.inl a) = .inl (p.appender a) := rfl

omit [DecidableEq A] [DecidableEq W] in
theorem pc_inr (p : Pool T A W) (w : W) : p.pc (.inr w) = .inr (p.worker w) := rfl

@[simp] theorem pc_setAppender (p : Pool T A W) (a : A) (pc : AppendPc T) :
    (p.setAppender a pc).pc = Function.update p.pc (.inl a) (.inl pc) := by
  funext t
  rcases t with b | w
  · by_cases hb : b = a
    · subst hb
      simp [Pool.pc, Pool.setAppender]
    · rw [Function.update_of_ne (by simpa using hb)]
      simp [Pool.pc, Pool.setAppender, hb]
  · rfl

@[simp] theorem pc_setWorker (p : Pool T A W) (w : W) (pc : RunPc T) :
    (p.setWorker w pc).pc = Function.update p.pc (.inr w) (.inr pc) := by
  funext t
  rcases t with a | v
  · rfl
  · by_cases hv : v = w
    · subst hv
      simp [Pool.pc, Pool.setWorker]
    · rw [Function.update_of_ne (by simpa using hv)]
      simp [Pool.pc, Pool.setWorker, hv]

/-- A step of a thread is a rule of the monitor. -/
theorem Inv.move {p p' : Pool T A W} {l : Step T A W} (h : Inv p) (hl : Move p l p') : Inv p' := by
  cases hl with
  | call ha | post ha =>
      rw [Inv, pc_setAppender]
      exact Monitor.Holds.outside h (by rw [pc_inl, ha]; rfl) rfl
  | lockAppend ha hfree =>
      rw [Inv, hfree] at h
      rw [Inv, pc_setAppender]
      exact Monitor.Holds.acquire h rfl trivial
  | full ha | push ha =>
      rw [Inv, pc_setAppender]
      exact Monitor.Holds.work h (by rw [pc_inl, ha]; rfl) rfl trivial
  | room ha hroom =>
      rw [Inv, pc_setAppender]
      exact Monitor.Holds.work h (by rw [pc_inl, ha]; rfl) rfl hroom
  | refuse ha | unlockAppend ha =>
      rw [Inv, pc_setAppender]
      exact Monitor.Holds.release h (by rw [pc_inl, ha]; rfl) rfl
  | loop hw | wait hw | waitErr hw | finish hw =>
      rw [Inv, pc_setWorker]
      exact Monitor.Holds.outside h (by rw [pc_inr, hw]; rfl) rfl
  | lockRun hw hfree =>
      rw [Inv, hfree] at h
      rw [Inv, pc_setWorker]
      exact Monitor.Holds.acquire h rfl trivial
  | empty hw | pop hw =>
      rw [Inv, pc_setWorker]
      exact Monitor.Holds.work h (by rw [pc_inr, hw]; rfl) rfl trivial
  | nonempty hw hqueue =>
      rw [Inv, pc_setWorker]
      exact Monitor.Holds.work h (by rw [pc_inr, hw]; rfl) rfl hqueue
  | front hw hhead =>
      rw [Inv, pc_setWorker]
      exact Monitor.Holds.work h (by rw [pc_inr, hw]; rfl) rfl hhead
  | leave hw | unlockRun hw =>
      rw [Inv, pc_setWorker]
      exact Monitor.Holds.release h (by rw [pc_inr, hw]; rfl) rfl

omit [DecidableEq A] [DecidableEq W] in
theorem inv_start (n : Nat) : Inv (Pool.start T A W n) :=
  .start (by rintro (a | w) <;> rfl)

theorem inv_of_exec {n : Nat} {tr : List (Step T A W)} {p : Pool T A W}
    (h : exec step (Pool.start T A W n) tr = some p) : Inv p :=
  exec_invariant (inv_start n) (fun _ _ _ hinv hl => hinv.move (move_of_step hl)) h

/-- The statement reads or writes `m_workqueue`. -/
def Pool.AtQueue (p : Pool T A W) : A ⊕ W → Prop
  | .inl a => match p.appender a with
      | .locked _ | .pushing _ => True
      | _ => False
  | .inr w => match p.worker w with
      | .locked | .fronting | .popping _ => True
      | _ => False

/-- The statement is `m_queuelocker.unlock()`. -/
def Pool.AtUnlock (p : Pool T A W) : A ⊕ W → Prop
  | .inl a => p.appender a = .refusing ∨ p.appender a = .pushed
  | .inr w => p.worker w = .leaving ∨ ∃ request, p.worker w = .popped request

omit [DecidableEq A] [DecidableEq W] in
/-- Every such statement is between `lock()` and `unlock()`. -/
theorem inside_of_at {p : Pool T A W} {t : A ⊕ W} (h : p.AtQueue t ∨ p.AtUnlock t) :
    (monitor T p.mMaxRequests).inside (p.pc t) = true := by
  rcases t with a | w
  · rw [pc_inl]
    cases ha : p.appender a <;> simp_all [Pool.AtQueue, Pool.AtUnlock, monitor, AppendPc.inside]
  · rw [pc_inr]
    cases hw : p.worker w <;> simp_all [Pool.AtQueue, Pool.AtUnlock, monitor, RunPc.inside]

/-- **No data race.**  In every reachable state a thread at a statement that
    touches `m_workqueue`, or at an `unlock()`, is the one that holds the
    mutex, so no two threads are; and `front()` and `pop_front()` are only
    called on a queue that has an element, which for `pop_front()` is still
    the one `front()` returned. -/
theorem locked_race_free {n : Nat} {tr : List (Step T A W)} {p : Pool T A W}
    (h : exec step (Pool.start T A W n) tr = some p) :
    (∀ t, p.AtQueue t ∨ p.AtUnlock t → p.mQueuelocker = some t) ∧
    (∀ t u, p.AtQueue t → p.AtQueue u → t = u) ∧
    (∀ w, p.worker w = .fronting → p.mWorkqueue ≠ []) ∧
    ∀ w request, p.worker w = .popping request → p.mWorkqueue.head? = some request := by
  have hinv := inv_of_exec h
  refine ⟨?_, ?_, ?_, ?_⟩
  · intro t ht
    exact hinv.owner_eq (inside_of_at ht)
  · intro t u ht hu
    exact hinv.unique (inside_of_at (Or.inl ht)) (inside_of_at (Or.inl hu))
  · intro w hw
    have hknows := hinv.knows (.inr w)
    rw [pc_inr, hw] at hknows
    exact hknows
  · intro w request hw
    have hknows := hinv.knows (.inr w)
    rw [pc_inr, hw] at hknows
    exact hknows

/-! ## The coarser pool -/

/-- Where the coarser pool has the caller. -/
def AppendPc.abs : AppendPc T → ThreadPool.AppendPc T
  | .returned result => .returned result
  | .entered request | .locked request | .pushing request => .entered request
  | .refusing => .returned (some false)
  | .pushed | .unlocked => .pushed

def RunPc.abs : RunPc T → ThreadPool.RunPc T
  | .top | .leaving => .top
  | .waiting => .waiting
  | .woken | .locked | .fronting | .popping _ => .woken
  | .popped request | .unlocked request => .popped request

def Pool.abs (p : Pool T A W) : ThreadPool.Pool T A W where
  mMaxRequests := p.mMaxRequests
  mWorkqueue := p.mWorkqueue
  mQueuestat := p.mQueuestat
  mStop := p.mStop
  appender a := (p.appender a).abs
  worker w := (p.worker w).abs

/-- The step of the coarser pool that happens at a statement. -/
def appendAtomic (p : Pool T A W) (a : A) : List (ThreadPool.Step T A W) :=
  match p.appender a with
  | .locked request => if p.mWorkqueue.length > p.mMaxRequests then [.reject a request] else []
  | .pushing request => [.push a request]
  | .unlocked => [.post a]
  | _ => []

def runAtomic (p : Pool T A W) (w : W) : List (ThreadPool.Step T A W) :=
  match p.worker w with
  | .top => [.loop w]
  | .waiting => [.wait w]
  | .locked => if p.mWorkqueue = [] then [.empty w] else []
  | .popping request => [.pop w request]
  | .unlocked none => [.skip w]
  | .unlocked (some request) => [.process w request]
  | _ => []

def atomic (p : Pool T A W) : Step T A W → List (ThreadPool.Step T A W)
  | .call a request => [.call a request]
  | .append a => appendAtomic p a
  | .run w => runAtomic p w
  | .waitErr w => [.waitErr w]

omit [DecidableEq W] in
theorem abs_setAppender (p : Pool T A W) (a : A) (pc : AppendPc T) :
    (p.setAppender a pc).abs =
      { p.abs with appender := Function.update p.abs.appender a pc.abs } := by
  simp only [Pool.abs, Pool.setAppender, Function.apply_update (fun _ => AppendPc.abs)]

omit [DecidableEq A] in
theorem abs_setWorker (p : Pool T A W) (w : W) (pc : RunPc T) :
    (p.setWorker w pc).abs =
      { p.abs with worker := Function.update p.abs.worker w pc.abs } := by
  simp only [Pool.abs, Pool.setWorker, Function.apply_update (fun _ => RunPc.abs)]

omit [DecidableEq W] in
/-- The coarser pool does not see the caller move. -/
theorem abs_setAppender_of_eq {p : Pool T A W} {a : A} {pc : AppendPc T}
    (h : pc.abs = (p.appender a).abs) : (p.setAppender a pc).abs = p.abs := by
  have hself : Function.update p.abs.appender a pc.abs = p.abs.appender := by
    rw [h]
    exact Function.update_eq_self a p.abs.appender
  rw [abs_setAppender, hself]

omit [DecidableEq A] in
theorem abs_setWorker_of_eq {p : Pool T A W} {w : W} {pc : RunPc T}
    (h : pc.abs = (p.worker w).abs) : (p.setWorker w pc).abs = p.abs := by
  have hself : Function.update p.abs.worker w pc.abs = p.abs.worker := by
    rw [h]
    exact Function.update_eq_self w p.abs.worker
  rw [abs_setWorker, hself]

/-- A step of the coarser pool, from its guard and its effect. -/
theorem exec_atomic [DecidableEq T] {q q' : ThreadPool.Pool T A W} {l : ThreadPool.Step T A W}
    (hen : ThreadPool.Enabled q l) (hnext : q' = ThreadPool.next q l) :
    exec ThreadPool.step q [l] = some q' := by
  rw [exec_singleton]
  exact ThreadPool.step_eq_some.mpr ⟨hen, hnext.symm⟩

omit [DecidableEq A] [DecidableEq W] in
theorem abs_appender {p : Pool T A W} {a : A} {pc : AppendPc T} (h : p.appender a = pc) :
    p.abs.appender a = pc.abs := congrArg AppendPc.abs h

omit [DecidableEq A] [DecidableEq W] in
theorem abs_worker {p : Pool T A W} {w : W} {pc : RunPc T} (h : p.worker w = pc) :
    p.abs.worker w = pc.abs := congrArg RunPc.abs h

/-- A statement is a step of the coarser pool, or nothing it sees. -/
theorem Move.refines [DecidableEq T] {p p' : Pool T A W} {l : Step T A W} (hinv : Inv p)
    (h : Move p l p') : exec ThreadPool.step p.abs (atomic p l) = some p'.abs := by
  cases h with
  | @call a request result ha =>
      exact exec_atomic ⟨result, abs_appender ha⟩ (abs_setAppender _ _ _)
  | full ha hfull =>
      rw [atomic, appendAtomic, ha]
      simp only [if_pos hfull]
      exact exec_atomic ⟨abs_appender ha, hfull⟩ (abs_setAppender _ _ _)
  | @push a request ha =>
      -- there is still the room the caller has seen
      have hroom := hinv.knows (.inl a)
      rw [pc_inl, ha] at hroom
      rw [atomic, appendAtomic, ha]
      exact exec_atomic ⟨abs_appender ha, hroom⟩ (abs_setAppender _ _ _)
  | post ha =>
      rw [atomic, appendAtomic, ha]
      exact exec_atomic (abs_appender ha) (abs_setAppender _ _ _)
  | lockAppend ha | refuse ha | unlockAppend ha =>
      rw [atomic, appendAtomic, ha]
      exact congrArg some (abs_setAppender_of_eq (by rw [ha]; rfl)).symm
  | room ha hroom =>
      rw [atomic, appendAtomic, ha]
      simp only [if_neg hroom]
      exact congrArg some (abs_setAppender_of_eq (by rw [ha]; rfl)).symm
  | loop hw hstop =>
      rw [atomic, runAtomic, hw]
      exact exec_atomic ⟨abs_worker hw, hstop⟩ (abs_setWorker _ _ _)
  | wait hw htoken =>
      rw [atomic, runAtomic, hw]
      exact exec_atomic ⟨abs_worker hw, htoken⟩ (abs_setWorker _ _ _)
  | waitErr hw => exact exec_atomic (abs_worker hw) (abs_setWorker _ _ _)
  | empty hw hqueue =>
      rw [atomic, runAtomic, hw]
      simp only [if_pos hqueue]
      exact exec_atomic ⟨abs_worker hw, hqueue⟩ (abs_setWorker _ _ _)
  | nonempty hw hqueue =>
      rw [atomic, runAtomic, hw]
      simp only [if_neg hqueue]
      exact congrArg some (abs_setWorker_of_eq (by rw [hw]; rfl)).symm
  | @pop w request hw hqueue =>
      -- the front is still the element the worker has read
      have hhead := hinv.knows (.inr w)
      rw [pc_inr, hw] at hhead
      rw [atomic, runAtomic, hw]
      exact exec_atomic ⟨abs_worker hw, hhead⟩ (abs_setWorker _ _ _)
  | lockRun hw | leave hw | front hw | unlockRun hw =>
      rw [atomic, runAtomic, hw]
      exact congrArg some (abs_setWorker_of_eq (by rw [hw]; rfl)).symm
  | @finish w request hw =>
      rw [atomic, runAtomic, hw]
      cases request with
      | none => exact exec_atomic (abs_worker hw) (abs_setWorker _ _ _)
      | some request => exact exec_atomic (abs_worker hw) (abs_setWorker _ _ _)

/-- The run of the coarser pool in a run of this one. -/
def atomicTrace (n : Nat) (tr : List (Step T A W)) : List (ThreadPool.Step T A W) :=
  absTrace step atomic (Pool.start T A W n) tr

/-- Whatever the threads interleave, they do what the coarser pool can do, and
    leave it in the corresponding state. -/
theorem exec_atomicTrace [DecidableEq T] {n : Nat} {tr : List (Step T A W)} {p : Pool T A W}
    (h : exec step (Pool.start T A W n) tr = some p) :
    exec ThreadPool.step (ThreadPool.Pool.start T A W n) (atomicTrace n tr) = some p.abs :=
  exec_simulates (a := Pool.abs) (I := Inv)
    (fun _ _ _ hinv hl => hinv.move (move_of_step hl))
    (fun _ _ _ hinv hl => (move_of_step hl).refines hinv) (inv_start n) h

/-- **Refinement.**  Every run of the pool, statement by statement, is a run of
    the pool with its locked sections as single steps, and ends in the
    corresponding state.  So its queue is first in, first out, and never longer
    than the wake-ups on their way: tokens, callers between `push_back()` and
    `post()`, workers between `wait()` and `pop_front()`. -/
theorem locked_refines [DecidableEq T] [Fintype A] [Fintype W] {n : Nat}
    {tr : List (Step T A W)} {p : Pool T A W}
    (h : exec step (Pool.start T A W n) tr = some p) :
    exec ThreadPool.step (ThreadPool.Pool.start T A W n) (atomicTrace n tr) = some p.abs ∧
    accepted (atomicTrace n tr) = popped (atomicTrace n tr) ++ p.mWorkqueue ∧
    p.mWorkqueue.length ≤ p.mQueuestat + p.abs.pushedCount + p.abs.wokenCount := by
  have hrun := exec_atomicTrace h
  exact ⟨hrun, accepted_eq_popped_append hrun, workqueue_length_le_wakeups hrun⟩

/-- A caller and a worker compete: the worker wakes by an error, waits for the
    mutex the caller holds, and pops before the caller has posted. -/
def sampleRun : List (Step Nat Unit Unit) :=
  [.run (), .waitErr (), .call () (some 7), .append (), .append (), .append (), .append (),
   .run (), .run (), .run (), .run ()]

theorem locked_race_free_sample :
    ∃ p, exec step (Pool.start Nat Unit Unit 3) sampleRun = some p ∧
      ∀ t u, p.AtQueue t → p.AtQueue u → t = u := by
  obtain ⟨p, hp⟩ : ∃ p, exec step (Pool.start Nat Unit Unit 3) sampleRun = some p := ⟨_, rfl⟩
  exact ⟨p, hp, (locked_race_free hp).2.1⟩

theorem locked_refines_sample :
    ∃ p, exec step (Pool.start Nat Unit Unit 3) sampleRun = some p ∧
      atomicTrace 3 sampleRun =
        [.loop (), .waitErr (), .call () (some 7), .push () (some 7), .pop () (some 7)] ∧
      exec ThreadPool.step (ThreadPool.Pool.start Nat Unit Unit 3) (atomicTrace 3 sampleRun)
        = some p.abs := by
  obtain ⟨p, hp⟩ : ∃ p, exec step (Pool.start Nat Unit Unit 3) sampleRun = some p := ⟨_, rfl⟩
  exact ⟨p, hp, rfl, (locked_refines hp).1⟩

end WebServer.ThreadPool.Locked
