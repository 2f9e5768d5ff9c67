/-
  WebServer.ThreadPool.Life

  The life of a pool from the start of its constructor to the end of its
  destructor, or to the exception that ends the constructor.

  The constructor creates and detaches the workers one by one; each runs from
  its creation on, beside the rest of the constructor.  Every call that can
  fail does so by its label: the initialisation of the mutex and the
  semaphore, the allocation, `pthread_create` and `pthread_detach`.  The
  destructor sets `m_stop` and returns; nobody joins the workers, and only a
  worker that comes to the head of its loop sees `m_stop`.

  A worker still in `run()` when the pool ends goes on with a pool that is not
  there (`uses_ended_pool`).  So the life of a pool is in order exactly if the
  last worker has left before its end (`life_cycle_iff`).
-/

import WebServer.ThreadPool.Basic

namespace WebServer.ThreadPool

open WebServer.Lib

/-! ## Phases -/

inductive Phase where
  /-- the members are initialised -/
  | members
  /-- the arguments are checked -/
  | checking
  /-- `new pthread_t[m_thread_number]` -/
  | allocating
  /-- at the head of the loop with `i` -/
  | creating (i : Nat)
  /-- thread `i` is created and not yet detached -/
  | detaching (i : Nat)
  /-- the constructor has returned -/
  | live
  /-- the destructor has set `m_stop` -/
  | stopping
  /-- the destructor has returned -/
  | destroyed
  /-- the constructor has thrown -/
  | thrown
deriving DecidableEq, Repr

/-- There is no pool any more. -/
def Phase.ended : Phase → Bool
  | .destroyed | .thrown => true
  | _ => false

/-- A pool, the point its owner has reached, and the workers that are created
    and have not left `run()`; workers are numbered as in `m_threads`. -/
structure Life (T A : Type*) where
  phase : Phase
  pool : Pool T A Nat
  running : Finset Nat

namespace Life

variable {T A : Type*}

def start (T A : Type*) (maxRequest : Int) : Life T A where
  phase := .members
  pool := Pool.start T A Nat maxRequest.toNat
  running := ∅

/-! ## Steps -/

inductive Step (T A : Type*) where
  /-- the constructors of `m_queuelocker` and `m_queuestat` -/
  | members (ok : Bool)
  /-- `if ((thread_number <= 0) || (max_request <= 0))` -/
  | check
  | allocate (ok : Bool)
  | create (ok : Bool)
  | detach (ok : Bool)
  /-- the loop is over and the constructor returns -/
  | constructed
  /-- the body of the destructor -/
  | stop
  /-- the members are destroyed and the destructor returns -/
  | destroy
  /-- worker `w` reads `m_stop` and leaves `run()` -/
  | exit (w : Nat)
  /-- a step of a worker or of a caller of `append` -/
  | pool (l : ThreadPool.Step T A Nat)
deriving DecidableEq

/-- Who can be there to take a step: a worker in `run()`, or a caller of
    `append`, who calls it on a constructed pool and finishes it at any time. -/
def Present (s : Life T A) : ThreadPool.Step T A Nat → Prop
  | .call _ _ => s.phase = .live ∨ s.phase = .stopping
  | .push _ _ | .reject _ _ | .post _ => True
  | .loop w | .wait w | .waitErr w | .pop w _ | .empty w | .skip w | .process w _ =>
      w ∈ s.running

instance (s : Life T A) (l : ThreadPool.Step T A Nat) : Decidable (Present s l) :=
  match l with
  | .call _ _ => inferInstanceAs (Decidable (_ ∨ _))
  | .push _ _ | .reject _ _ | .post _ => inferInstanceAs (Decidable True)
  | .loop w | .wait w | .waitErr w | .pop w _ | .empty w | .skip w | .process w _ =>
      inferInstanceAs (Decidable (w ∈ s.running))

variable [DecidableEq T] [DecidableEq A]

def step (threadNumber maxRequest : Int) (s : Life T A) : Step T A → Option (Life T A)
  | .members ok =>
      if s.phase = .members then some { s with phase := if ok then .checking else .thrown }
      else none
  | .check =>
      if s.phase = .checking then
        some { s with phase := if threadNumber ≤ 0 ∨ maxRequest ≤ 0 then .thrown else .allocating }
      else none
  | .allocate ok =>
      if s.phase = .allocating then some { s with phase := if ok then .creating 0 else .thrown }
      else none
  | .create ok =>
      match s.phase with
      | .creating i =>
          if (i : Int) < threadNumber then
            -- the new thread is in `run()` at once
            if ok then some { s with phase := .detaching i, running := insert i s.running }
            else some { s with phase := .thrown }
          else none
      | _ => none
  | .detach ok =>
      match s.phase with
      | .detaching i => some { s with phase := if ok then .creating (i + 1) else .thrown }
      | _ => none
  | .constructed =>
      match s.phase with
      | .creating i => if (i : Int) < threadNumber then none else some { s with phase := .live }
      | _ => none
  | .stop =>
      if s.phase = .live then
        some { s with phase := .stopping, pool := { s.pool with mStop := true } }
      else none
  | .destroy => if s.phase = .stopping then some { s with phase := .destroyed } else none
  | .exit w =>
      if w ∈ s.running ∧ s.pool.worker w = .top ∧ s.pool.mStop = true then
        some { s with running := s.running.erase w }
      else none
  | .pool l =>
      if Present s l then (ThreadPool.step s.pool l).map fun p => { s with pool := p } else none

/-! ## Using the pool -/

/-- A worker reads `m_stop`, waits on `m_queuestat`, or locks `m_queuelocker`
    and looks into `m_workqueue`. -/
def Step.usesPool : Step T A → Bool
  | .exit _ | .pool (.loop _) | .pool (.wait _) | .pool (.waitErr _) | .pool (.pop _ _)
  | .pool (.empty _) => true
  | _ => false

/-- No worker uses a pool that has ended. -/
def UsesInTime (s : Life T A) (l : Step T A) : Prop :=
  l.usesPool = true → s.phase.ended = false

/-- If the step ends the pool, no worker is left in `run()`. -/
def EndsQuietly (threadNumber maxRequest : Int) (s : Life T A) (l : Step T A) : Prop :=
  ∀ s', step threadNumber maxRequest s l = some s' → s.phase.ended = false →
    s'.phase.ended = true → s'.running = ∅

variable {n m : Int} {s s' : Life T A} {l : Step T A}

theorem Phase.ended_iff {phase : Phase} :
    phase.ended = true ↔ phase = .destroyed ∨ phase = .thrown := by
  cases phase <;> simp [Phase.ended]

/-- A worker that uses the pool is in `run()`. -/
theorem running_of_uses (h : step n m s l = some s') (huses : l.usesPool = true) :
    ∃ w, w ∈ s.running := by
  cases l with
  | exit w =>
      simp only [step, Option.ite_none_right_eq_some] at h
      exact ⟨w, h.1.1⟩
  | pool l =>
      simp only [step, Option.ite_none_right_eq_some] at h
      cases l with
      | loop w | wait w | waitErr w | pop w request | empty w => exact ⟨w, h.1⟩
      | call | push | reject | post | skip | process => cases huses
  | members | check | allocate | create | detach | constructed | stop | destroy => cases huses

/-- After its end nothing happens to the phase, and workers only leave by
    reading `m_stop`. -/
theorem ended_step (h : step n m s l = some s') (hend : s.phase.ended = true) :
    s'.phase = s.phase ∧ (l.usesPool = false → s'.running = s.running) := by
  have hphase := Phase.ended_iff.mp hend
  cases l with
  | members | check | allocate | create | detach | constructed | stop | destroy =>
      rcases hphase with hphase | hphase <;> simp [step, hphase] at h
  | exit w =>
      simp only [step, Option.ite_none_right_eq_some, Option.some.injEq] at h
      obtain ⟨-, rfl⟩ := h
      exact ⟨rfl, fun huses => by cases huses⟩
  | pool l =>
      simp only [step, Option.ite_none_right_eq_some, Option.map_eq_some_iff] at h
      obtain ⟨-, p, -, rfl⟩ := h
      exact ⟨rfl, fun _ => rfl⟩

/-! ## Lives in order -/

/-- Where every worker has left before the end, none uses the ended pool. -/
theorem usesInTime_of_quiet {tr : List (Step T A)} {s₀ : Life T A}
    (h : exec (step n m) s₀ tr = some s) (h0 : s₀.phase.ended = false)
    (hquiet : AllSteps (step n m) (EndsQuietly n m) s₀ tr) :
    AllSteps (step n m) UsesInTime s₀ tr ∧ (s.phase.ended = true → s.running = ∅) := by
  refine exec_history_of_allSteps (P := fun tr s => AllSteps (step n m) UsesInTime s₀ tr ∧
      (s.phase.ended = true → s.running = ∅)) ⟨allSteps_nil, fun hend => ?_⟩ ?_ h hquiet
  · rw [h0] at hend
    cases hend
  · rintro tr s l s' hrun ⟨hin, hempty⟩ hlquiet hl
    rw [allSteps_snoc hrun]
    cases hend : s.phase.ended with
    | false => exact ⟨⟨hin, fun _ => hend⟩, fun hend' => hlquiet s' hl hend hend'⟩
    | true =>
        -- nobody is left who could use it
        have hnone : l.usesPool = false := by
          by_contra huses
          obtain ⟨w, hw⟩ := running_of_uses hl (by simpa using huses)
          rw [hempty hend] at hw
          cases hw
        refine ⟨⟨hin, fun huses => ?_⟩, fun _ => ?_⟩
        · rw [hnone] at huses
          cases huses
        · rw [(ended_step hl hend).2 hnone, hempty hend]

/-- Conversely, in a run that is in order so far all workers had left at the
    end if they have left now. -/
theorem quiet_of_usesInTime {tr : List (Step T A)} {s₀ : Life T A}
    (h : exec (step n m) s₀ tr = some s) (hin : AllSteps (step n m) UsesInTime s₀ tr)
    (hempty : s.phase.ended = true → s.running = ∅) :
    AllSteps (step n m) (EndsQuietly n m) s₀ tr := by
  refine exec_history_of_allSteps (P := fun tr s => (s.phase.ended = true → s.running = ∅) →
      AllSteps (step n m) (EndsQuietly n m) s₀ tr) (fun _ => allSteps_nil) ?_ h hin hempty
  intro tr s l s' hrun ih hlin hl hempty
  rw [allSteps_snoc hrun]
  refine ⟨ih (fun hend => ?_), ?_⟩
  · -- a step after the end, so not one that uses the pool
    have hnone : l.usesPool = false := by
      by_contra huses
      rw [hlin (by simpa using huses)] at hend
      cases hend
    obtain ⟨hphase, hrunning⟩ := ended_step hl hend
    rw [← hrunning hnone]
    exact hempty (by rw [hphase]; exact hend)
  · intro t ht _ hend
    obtain rfl : s' = t := Option.some.inj (hl.symm.trans ht)
    exact hempty hend

/-- What follows the end of a pool does not end it again. -/
theorem quiet_append {tr : List (Step T A)} {s₀ : Life T A}
    (h : exec (step n m) s₀ tr = some s) (hend : s.phase.ended = true)
    (hquiet : AllSteps (step n m) (EndsQuietly n m) s₀ tr) {more : List (Step T A)}
    (h' : exec (step n m) s₀ (tr ++ more) = some s') :
    AllSteps (step n m) (EndsQuietly n m) s₀ (tr ++ more) ∧ s'.phase.ended = true := by
  induction more using List.reverseRecOn generalizing s' with
  | nil =>
      rw [List.append_nil] at h' ⊢
      obtain rfl : s = s' := Option.some.inj (h.symm.trans h')
      exact ⟨hquiet, hend⟩
  | append_singleton more l ih =>
      rw [← List.append_assoc] at h' ⊢
      obtain ⟨t, hrun, hl⟩ := exec_snoc.mp h'
      obtain ⟨hmore, htend⟩ := ih hrun
      rw [allSteps_snoc hrun]
      refine ⟨⟨hmore, fun _ _ hnot => ?_⟩, ?_⟩
      · rw [htend] at hnot
        cases hnot
      · rw [(ended_step hl htend).1]
        exact htend

/-! ## Lives out of order -/

theorem pool_step {k : ThreadPool.Step T A Nat} (hpresent : Present s k)
    (hen : Enabled s.pool k) : step n m s (.pool k) = some { s with pool := next s.pool k } := by
  rw [step, if_pos hpresent, step_eq_some.mpr ⟨hen, rfl⟩]
  rfl

/-- At the head of its loop a worker reads `m_stop`. -/
theorem uses_pool_at_top {w : Nat} (hw : w ∈ s.running) (htop : s.pool.worker w = .top) :
    ∃ l s', Step.usesPool l = true ∧ step n m s l = some s' := by
  cases hstop : s.pool.mStop with
  | true =>
      refine ⟨.exit w, { s with running := s.running.erase w }, rfl, ?_⟩
      rw [step, if_pos ⟨hw, htop, hstop⟩]
  | false => exact ⟨.pool (.loop w), _, rfl, pool_step hw ⟨htop, hstop⟩⟩

/-- A worker in `run()` can always go on, at most after finishing what it was
    doing, and then uses the pool. -/
theorem uses_pool_again {w : Nat} (hw : w ∈ s.running) :
    ∃ pre l s', Step.usesPool l = true ∧ exec (step n m) s (pre ++ [l]) = some s' := by
  cases hpc : s.pool.worker w with
  | top =>
      obtain ⟨l, s', huses, hl⟩ := uses_pool_at_top (n := n) (m := m) hw hpc
      exact ⟨[], l, s', huses, exec_snoc.mpr ⟨s, rfl, hl⟩⟩
  | waiting => exact ⟨[], .pool (.waitErr w), _, rfl, exec_snoc.mpr ⟨s, rfl, pool_step hw hpc⟩⟩
  | woken =>
      cases hqueue : s.pool.mWorkqueue with
      | nil =>
          exact ⟨[], .pool (.empty w), _, rfl, exec_snoc.mpr ⟨s, rfl, pool_step hw ⟨hpc, hqueue⟩⟩⟩
      | cons request rest =>
          have hhead : s.pool.mWorkqueue.head? = some request := by rw [hqueue]; rfl
          exact ⟨[], .pool (.pop w request), _, rfl,
            exec_snoc.mpr ⟨s, rfl, pool_step hw ⟨hpc, hhead⟩⟩⟩
  | popped request =>
      -- back to the head of the loop first, with or without `process()`
      obtain ⟨k, hk, htop⟩ : ∃ k, step n m s (.pool k) = some { s with pool := next s.pool k } ∧
          (next s.pool k).worker w = .top := by
        cases request with
        | none => exact ⟨.skip w, pool_step hw hpc, by simp [next]⟩
        | some r => exact ⟨.process w r, pool_step hw hpc, by simp [next]⟩
      obtain ⟨l, s', huses, hl⟩ := uses_pool_at_top (n := n) (m := m)
        (s := { s with pool := next s.pool k }) hw htop
      have hpre : exec (step n m) s [.pool k] = some { s with pool := next s.pool k } := by
        rw [exec_cons, hk]
        rfl
      exact ⟨[.pool k], l, s', huses, exec_snoc.mpr ⟨_, hpre, hl⟩⟩

/-- A worker left in `run()` uses the ended pool in some continuation. -/
theorem uses_ended_pool {tr : List (Step T A)} {s₀ : Life T A} {w : Nat}
    (h : exec (step n m) s₀ tr = some s) (hend : s.phase.ended = true) (hw : w ∈ s.running) :
    ∃ more s', exec (step n m) s₀ (tr ++ more) = some s' ∧
      ¬ AllSteps (step n m) UsesInTime s₀ (tr ++ more) := by
  obtain ⟨pre, l, s', huses, hmore⟩ := uses_pool_again (n := n) (m := m) hw
  obtain ⟨t, hpre, hl⟩ := exec_snoc.mp hmore
  have hrun : exec (step n m) s₀ (tr ++ pre) = some t := by
    rw [exec_append, h]
    exact hpre
  refine ⟨pre ++ [l], s', ?_, fun hin => ?_⟩
  · rw [exec_append, h]
    exact hmore
  · have hended : t.phase.ended = true :=
      exec_invariant (P := fun t => t.phase.ended = true) hend
        (fun _ _ _ ht hk => by rw [(ended_step hk ht).1]; exact ht) hpre
    rw [← List.append_assoc, allSteps_snoc hrun] at hin
    rw [hin.2 huses] at hended
    cases hended

/-- Without workers to create there is nobody to use the pool. -/
theorem no_worker_step (hargs : n ≤ 0 ∨ m ≤ 0)
    (hs : s.running = ∅ ∧ (s.phase = .members ∨ s.phase = .checking ∨ s.phase = .thrown))
    (h : step n m s l = some s') :
    s'.running = ∅ ∧ (s'.phase = .members ∨ s'.phase = .checking ∨ s'.phase = .thrown) := by
  obtain ⟨hnone, hphase⟩ := hs
  cases l with
  | members ok =>
      simp only [step, Option.ite_none_right_eq_some, Option.some.injEq] at h
      obtain ⟨-, rfl⟩ := h
      cases ok <;> simp [hnone]
  | check =>
      simp only [step, Option.ite_none_right_eq_some, Option.some.injEq] at h
      obtain ⟨-, rfl⟩ := h
      simp [hnone, hargs]
  | allocate | create | detach | constructed | stop | destroy =>
      rcases hphase with hphase | hphase | hphase <;> simp [step, hphase] at h
  | exit w =>
      simp only [step, Option.ite_none_right_eq_some] at h
      rw [hnone] at h
      cases h.1.1
  | pool l =>
      simp only [step, Option.ite_none_right_eq_some, Option.map_eq_some_iff] at h
      obtain ⟨-, p, -, rfl⟩ := h
      exact ⟨hnone, hphase⟩

/-- The first worker is created and cannot be detached. -/
def undetachedRun : List (Step T A) :=
  [.members true, .check, .allocate true, .create true, .detach false]

theorem undetached_run (hn : 0 < n) (hm : 0 < m) :
    ∃ s : Life T A, exec (step n m) (start T A m) undetachedRun = some s ∧
      s.phase = .thrown ∧ 0 ∈ s.running := by
  refine ⟨{ start T A m with phase := .thrown, running := {0} }, ?_, rfl,
    Finset.mem_singleton_self 0⟩
  have hargs : ¬ (n ≤ 0 ∨ m ≤ 0) := by omega
  simp [undetachedRun, exec, step, start, hargs, hn]

/-- **The life of a pool.**  Whatever the environment does, no worker uses an
    ended pool if and only if none is ever created: the constructor throws on
    its arguments.  A life that has come to its end stays in order, whatever
    follows, if and only if every worker had left `run()` at the end. -/
theorem life_cycle_iff (threadNumber maxRequest : Int) :
    ((∀ (tr : List (Step T A)) (s : Life T A),
        exec (step threadNumber maxRequest) (start T A maxRequest) tr = some s →
        AllSteps (step threadNumber maxRequest) UsesInTime (start T A maxRequest) tr) ↔
      threadNumber ≤ 0 ∨ maxRequest ≤ 0) ∧
    ∀ (tr : List (Step T A)) (s : Life T A),
      exec (step threadNumber maxRequest) (start T A maxRequest) tr = some s →
      s.phase.ended = true →
      ((∀ (more : List (Step T A)) (s' : Life T A),
          exec (step threadNumber maxRequest) (start T A maxRequest) (tr ++ more) = some s' →
          AllSteps (step threadNumber maxRequest) UsesInTime (start T A maxRequest) (tr ++ more)) ↔
        AllSteps (step threadNumber maxRequest) (EndsQuietly threadNumber maxRequest)
          (start T A maxRequest) tr) := by
  refine ⟨⟨fun hall => ?_, fun hargs tr s h => ?_⟩, fun tr s h hend => ⟨fun hall => ?_, ?_⟩⟩
  · by_contra hargs
    obtain ⟨s, hrun, hphase, hw⟩ := undetached_run (T := T) (A := A)
      (n := threadNumber) (m := maxRequest) (by omega) (by omega)
    obtain ⟨more, s', hrun', hout⟩ := uses_ended_pool hrun (by rw [hphase]; rfl) hw
    exact hout (hall _ s' hrun')
  · have hnone : AllStates (step threadNumber maxRequest)
        (fun s : Life T A => s.running = ∅ ∧
          (s.phase = .members ∨ s.phase = .checking ∨ s.phase = .thrown))
        (start T A maxRequest) tr :=
      allStates_of_invariant ⟨rfl, Or.inl rfl⟩ (fun _ _ _ hs hl => no_worker_step hargs hs hl) tr
    refine hnone.allSteps h (fun s l s' hs hl huses => ?_)
    obtain ⟨w, hw⟩ := running_of_uses hl huses
    rw [hs.1] at hw
    cases hw
  · refine quiet_of_usesInTime h (by simpa using hall [] s (by simpa using h)) (fun _ => ?_)
    by_contra hne
    obtain ⟨w, hw⟩ := Finset.nonempty_iff_ne_empty.mpr hne
    obtain ⟨more, s', hrun', hout⟩ := uses_ended_pool h hend hw
    exact hout (hall more s' hrun')
  · intro hquiet more s' hrun'
    exact (usesInTime_of_quiet hrun' rfl (quiet_append h hend hquiet hrun').1).1

theorem life_cycle_iff_undetached :
    ∃ s : Life Nat Unit, exec (step 1 1) (start Nat Unit 1) undetachedRun = some s ∧
      s.phase.ended = true ∧
      ((∀ more s', exec (step 1 1) (start Nat Unit 1) (undetachedRun ++ more) = some s' →
          AllSteps (step 1 1) UsesInTime (start Nat Unit 1) (undetachedRun ++ more)) ↔
        AllSteps (step 1 1) (EndsQuietly 1 1) (start Nat Unit 1) undetachedRun) := by
  obtain ⟨s, hs, hend⟩ : ∃ s : Life Nat Unit,
      exec (step 1 1) (start Nat Unit 1) undetachedRun = some s ∧ s.phase.ended = true :=
    ⟨_, rfl, rfl⟩
  exact ⟨s, hs, hend, (life_cycle_iff 1 1).2 undetachedRun s hs hend⟩

/-- The pool is destroyed while its worker waits. -/
def destroyedRun : List (Step Nat Unit) :=
  [.members true, .check, .allocate true, .create true, .detach true, .constructed,
   .pool (.loop 0), .stop, .destroy]

/-- A worker that outlives the destructor comes back from `wait()` and locks;
    one that outlives the constructor enters its loop. -/
theorem worker_outlives_pool :
    (∃ s, exec (step 1 1) (start Nat Unit 1)
        (destroyedRun ++ [.pool (.waitErr 0)] ++ [.pool (.empty 0)]) = some s ∧
      ¬ AllSteps (step 1 1) UsesInTime (start Nat Unit 1)
        (destroyedRun ++ [.pool (.waitErr 0)] ++ [.pool (.empty 0)])) ∧
    ∃ s, exec (step 1 1) (start Nat Unit 1) (undetachedRun ++ [.pool (.loop 0)]) = some s ∧
      ¬ AllSteps (step 1 1) UsesInTime (start Nat Unit 1)
        (undetachedRun ++ [.pool (.loop 0)]) := by
  refine ⟨⟨_, rfl, fun hin => ?_⟩, ⟨_, rfl, fun hin => ?_⟩⟩
  · have hended := hin _ _ [] _ rfl rfl rfl
    cases hended
  · have hended := hin _ _ [] _ rfl rfl rfl
    cases hended

end Life

end WebServer.ThreadPool
