/-
  WebServer.ThreadPool.Semaphore

  No wake-up is lost: `m_queuestat` and `m_workqueue` are updated in separate
  steps, but the queue is never longer than the wake-ups still on their way.

  A wake-up is on its way as a token of the semaphore, as an `append` between
  its push and its post, or as a worker between `wait()` and the locked
  section (`wakeups`).  Every step keeps the difference between the wake-ups
  and the length of the queue, except a failing wait, which adds a wake-up
  without a token, and a visit to the empty queue, which spends one for
  nothing (`wakeups_step`).
-/

import WebServer.ThreadPool.Basic

namespace WebServer.ThreadPool

open WebServer.Lib

variable {T A W : Type*} [DecidableEq T] [Fintype A] [Fintype W]

/-! ## Wake-ups on their way -/

/-- Callers of `append` that have pushed and not yet posted. -/
def Pool.pushedCount (p : Pool T A W) : Nat := threadCount p.appender (· = .pushed)

/-- Workers that have returned from `wait()` and not yet locked. -/
def Pool.wokenCount (p : Pool T A W) : Nat := threadCount p.worker (· = .woken)

def Pool.wakeups (p : Pool T A W) : Nat := p.mQueuestat + p.pushedCount + p.wokenCount

/-- What a step adds to the wake-ups that the queue does not account for. -/
def Step.surplus : Step T A W → Int
  | .waitErr _ => 1
  | .empty _ => -1
  | _ => 0

/-- A caller moves from `u` to `v`, everything else but the queue and the
    semaphore staying as it is. -/
theorem wakeups_appender [DecidableEq A] (p p' : Pool T A W) {a : A} {u v : AppendPc T}
    (hu : p.appender a = u) (hv : p'.appender = Function.update p.appender a v)
    (hworker : p'.worker = p.worker) :
    p'.wakeups + p.mQueuestat + (if u = .pushed then 1 else 0)
      = p.wakeups + p'.mQueuestat + (if v = .pushed then 1 else 0) := by
  have hupd := threadCount_update (f := p.appender) (p := (· = .pushed)) a v
  rw [hu, ← hv] at hupd
  simp only [Pool.wakeups, Pool.pushedCount, Pool.wokenCount, hworker]
  omega

/-- The same for a worker that moves from `u` to `v`. -/
theorem wakeups_worker [DecidableEq W] (p p' : Pool T A W) {w : W} {u v : RunPc T}
    (hu : p.worker w = u) (hv : p'.worker = Function.update p.worker w v)
    (happender : p'.appender = p.appender) :
    p'.wakeups + p.mQueuestat + (if u = .woken then 1 else 0)
      = p.wakeups + p'.mQueuestat + (if v = .woken then 1 else 0) := by
  have hupd := threadCount_update (f := p.worker) (p := (· = .woken)) w v
  rw [hu, ← hv] at hupd
  simp only [Pool.wakeups, Pool.pushedCount, Pool.wokenCount, happender]
  omega

/-- A woken worker is itself a wake-up on its way. -/
theorem wakeups_pos {p : Pool T A W} {w : W} (h : p.worker w = .woken) : 0 < p.wakeups := by
  have hpos : 0 < p.wokenCount := threadCount_pos (f := p.worker) (p := (· = RunPc.woken)) h
  unfold Pool.wakeups
  omega

/-- As long as the queue is as long as the wake-ups, the empty branch of `run()`
    cannot be entered. -/
theorem not_enabled_empty {p : Pool T A W} (h : p.mWorkqueue.length = p.wakeups) (w : W) :
    ¬ Enabled p (.empty w) := by
  rintro ⟨hw, hq⟩
  have hpos := wakeups_pos hw
  rw [hq] at h
  exact absurd h.symm (Nat.ne_of_gt hpos)

variable [DecidableEq A] [DecidableEq W]

/-- **Balance.**  A step moves the wake-ups and the queue together, up to its
    surplus. -/
theorem wakeups_step {p p' : Pool T A W} {l : Step T A W} (h : step p l = some p') :
    (p'.wakeups : Int) - p'.mWorkqueue.length
      = p.wakeups - p.mWorkqueue.length + l.surplus := by
  obtain ⟨hen, rfl⟩ := step_eq_some.mp h
  cases l with
  | call a request =>
      obtain ⟨result, ha⟩ := hen
      have hc := wakeups_appender p (next p (.call a request)) ha rfl rfl
      simp [next, Step.surplus] at hc ⊢
      omega
  | push a request =>
      -- one request more, and a caller that will post for it
      have hc := wakeups_appender p (next p (.push a request)) hen.1 rfl rfl
      simp [next, Step.surplus] at hc ⊢
      omega
  | reject a request =>
      have hc := wakeups_appender p (next p (.reject a request)) hen.1 rfl rfl
      simp [next, Step.surplus] at hc ⊢
      omega
  | post a =>
      -- the caller's wake-up becomes a token
      have hc := wakeups_appender p (next p (.post a)) hen rfl rfl
      simp [next, Step.surplus] at hc ⊢
      omega
  | loop w =>
      have hc := wakeups_worker p (next p (.loop w)) hen.1 rfl rfl
      simp [next, Step.surplus] at hc ⊢
      omega
  | wait w =>
      -- the token becomes a woken worker
      obtain ⟨hw, htoken⟩ := hen
      have hc := wakeups_worker p (next p (.wait w)) hw rfl rfl
      simp [next, Step.surplus] at hc ⊢
      omega
  | waitErr w =>
      have hc := wakeups_worker p (next p (.waitErr w)) hen rfl rfl
      simp [next, Step.surplus] at hc ⊢
      omega
  | pop w request =>
      -- a request and its wake-up are spent together
      obtain ⟨hw, hhead⟩ := hen
      obtain ⟨rest, hq⟩ := List.head?_eq_some_iff.mp hhead
      have hc := wakeups_worker p (next p (.pop w request)) hw rfl rfl
      simp [next, Step.surplus, hq] at hc ⊢
      omega
  | empty w =>
      have hc := wakeups_worker p (next p (.empty w)) hen.1 rfl rfl
      simp [next, Step.surplus] at hc ⊢
      omega
  | skip w =>
      have hc := wakeups_worker p (next p (.skip w)) hen rfl rfl
      simp [next, Step.surplus] at hc ⊢
      omega
  | process w request =>
      have hc := wakeups_worker p (next p (.process w request)) hen rfl rfl
      simp [next, Step.surplus] at hc ⊢
      omega

/-! ## Runs -/

/-- The queue is never longer than the wake-ups on their way. -/
theorem workqueue_length_le_wakeups {n : Nat} {tr : List (Step T A W)} {p : Pool T A W}
    (h : exec step (Pool.start T A W n) tr = some p) :
    p.mWorkqueue.length ≤ p.wakeups := by
  refine exec_invariant (P := fun p => p.mWorkqueue.length ≤ p.wakeups) ?_ ?_ h
  · simp [Pool.start]
  · intro p l p' hle hl
    have hbal := wakeups_step hl
    cases l with
    | empty w =>
        -- the wake-up is spent on a queue that has nothing to wake up for
        obtain ⟨⟨-, hq⟩, rfl⟩ := step_eq_some.mp hl
        simp [next, hq]
    | _ =>
        simp only [Step.surplus] at hbal
        omega

/-- Without failing waits the queue and the wake-ups agree, and no worker ever
    finds the queue empty. -/
theorem workqueue_length_eq_wakeups {n : Nat} {tr : List (Step T A W)} {p : Pool T A W}
    (h : exec step (Pool.start T A W n) tr = some p) (hwait : ∀ w, .waitErr w ∉ tr) :
    p.mWorkqueue.length = p.wakeups ∧ ∀ w, .empty w ∉ tr := by
  refine exec_history (P := fun tr p => (∀ w, .waitErr w ∉ tr) →
    p.mWorkqueue.length = p.wakeups ∧ ∀ w, .empty w ∉ tr) ?_ ?_ h hwait
  · intro _
    have hpushed : (Pool.start T A W n).pushedCount = 0 :=
      threadCount_eq_zero.mpr (by simp [Pool.start])
    have hwoken : (Pool.start T A W n).wokenCount = 0 :=
      threadCount_eq_zero.mpr (by simp [Pool.start])
    refine ⟨?_, by simp⟩
    rw [Pool.wakeups, hpushed, hwoken]
    rfl
  · intro tr p l p' ih hl hno
    have hno' : ∀ w, .waitErr w ∉ tr := fun w hw => hno w (List.mem_append_left _ hw)
    obtain ⟨heq, hempty⟩ := ih hno'
    have hbal := wakeups_step hl
    cases l with
    | waitErr w => exact absurd (List.mem_append_right _ (List.mem_singleton_self _)) (hno w)
    | empty w => exact absurd (step_eq_some.mp hl).1 (not_enabled_empty heq w)
    | _ =>
        simp only [Step.surplus] at hbal
        refine ⟨by omega, fun v hv => ?_⟩
        rcases List.mem_append.mp hv with hv | hv
        · exact hempty v hv
        · simp at hv

/-- **No lost wake-up.**  In every reachable state of a live pool the queue is
    at most as long as the semaphore, the appends between push and post and the
    workers between wait and lock together; it is exactly as long, and the
    empty branch of `run()` is never entered nor enabled, when no `sem_wait`
    failed; and never is a request queued while all workers are blocked in
    `wait()`, the semaphore is 0 and no `append` is between push and post. -/
theorem no_lost_wakeup {n : Nat} {tr : List (Step T A W)} {p : Pool T A W}
    (h : exec step (Pool.start T A W n) tr = some p) :
    p.mWorkqueue.length ≤ p.mQueuestat + p.pushedCount + p.wokenCount ∧
    ((∀ w, .waitErr w ∉ tr) →
      p.mWorkqueue.length = p.mQueuestat + p.pushedCount + p.wokenCount ∧
      (∀ w, .empty w ∉ tr) ∧ ∀ w, ¬ Enabled p (.empty w)) ∧
    ¬ (p.mWorkqueue ≠ [] ∧ (∀ w, p.worker w = .waiting) ∧ p.mQueuestat = 0 ∧
      ∀ a, p.appender a ≠ .pushed) := by
  have hle : p.mWorkqueue.length ≤ p.mQueuestat + p.pushedCount + p.wokenCount :=
    workqueue_length_le_wakeups h
  refine ⟨hle, ?_, ?_⟩
  · intro hwait
    obtain ⟨heq, hempty⟩ := workqueue_length_eq_wakeups h hwait
    exact ⟨heq, hempty, not_enabled_empty heq⟩
  · -- no wake-up is left for the queued request, against `hle`
    rintro ⟨hne, hworkers, hsem, hpush⟩
    have hpushed : p.pushedCount = 0 := threadCount_eq_zero.mpr hpush
    have hwoken : p.wokenCount = 0 :=
      threadCount_eq_zero.mpr (fun w => by rw [hworkers w]; simp)
    have hlen : 0 < p.mWorkqueue.length := List.length_pos_iff.mpr hne
    omega

/-- One request pushed and not posted, one worker woken by an error, another
    still waiting. -/
theorem no_lost_wakeup_sample :
    ∃ p, exec step (Pool.start Nat Unit Bool 3)
        [.loop true, .loop false, .waitErr true, .call () (some 5), .push () (some 5)] = some p ∧
      p.mWorkqueue.length ≤ p.mQueuestat + p.pushedCount + p.wokenCount := by
  obtain ⟨p, hp⟩ : ∃ p, exec step (Pool.start Nat Unit Bool 3)
      [.loop true, .loop false, .waitErr true, .call () (some 5), .push () (some 5)] = some p :=
    ⟨_, rfl⟩
  exact ⟨p, hp, (no_lost_wakeup hp).1⟩

end WebServer.ThreadPool
