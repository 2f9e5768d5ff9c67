/-
  WebServer.ThreadPool.Workqueue

  The work queue loses nothing, duplicates nothing and keeps the order, for
  every interleaving of any number of callers of `append` and workers.

  The order is inherited from the abstract channel: the locked sections of
  `append` and `run` simulate `Fifo.step` (`workqueue_simulates_fifo`), so the
  FIFO law of the library applies.  That each accepted request is processed
  once at most is a second invariant: pops are numbered, a worker keeps the
  number of its last pop as a ticket, and the tickets in use or used up never
  coincide (`Exclusive`).

  How many requests can wait is a third one: `append` compares with `>`, so a
  pool made for `m` requests holds up to `m + 1` (`queue_capacity_iff`).
-/

import WebServer.ThreadPool.Basic

namespace WebServer.ThreadPool

open WebServer.Lib

variable {T A W : Type*}

/-! ## What a trace did -/

/-- The requests accepted by `append`, in order. -/
def accepted : List (Step T A W) → List (Option T) :=
  List.filterMap fun
    | .push _ request => some request
    | _ => none

/-- The requests popped by all workers, in pop order. -/
def popped : List (Step T A W) → List (Option T) :=
  List.filterMap fun
    | .pop _ request => some request
    | _ => none

/-- The channel operation a step performs on `m_workqueue`. -/
def Step.toFifo : Step T A W → List (Fifo.Op (Option T))
  | .push _ request => [.put request]
  | .pop _ request => [.take request]
  | _ => []

theorem accepted_eq_puts (tr : List (Step T A W)) :
    accepted tr = Fifo.puts (tr.flatMap Step.toFifo) := by
  induction tr with
  | nil => rfl
  | cons l tr ih => cases l <;> simp_all [accepted, Fifo.puts, Step.toFifo]

theorem popped_eq_takes (tr : List (Step T A W)) :
    popped tr = Fifo.takes (tr.flatMap Step.toFifo) := by
  induction tr with
  | nil => rfl
  | cons l tr ih => cases l <;> simp_all [popped, Fifo.takes, Step.toFifo]

/-! ## Order -/

section Order

variable [DecidableEq T] [DecidableEq A] [DecidableEq W]

/-- Every step acts on `m_workqueue` as its channel operation, or not at all. -/
theorem workqueue_simulates_fifo (p : Pool T A W) (l : Step T A W) (p' : Pool T A W)
    (h : step p l = some p') :
    exec Fifo.step p.mWorkqueue l.toFifo = some p'.mWorkqueue := by
  obtain ⟨hen, rfl⟩ := step_eq_some.mp h
  cases l with
  | pop w request =>
      obtain ⟨-, hhead⟩ := hen
      simp [Step.toFifo, Fifo.step, next, hhead]
  | _ => simp [Step.toFifo, Fifo.step, next]

/-- Accepted requests are the popped ones followed by the queue. -/
theorem accepted_eq_popped_append {n : Nat} {tr : List (Step T A W)} {p : Pool T A W}
    (h : exec step (Pool.start T A W n) tr = some p) :
    accepted tr = popped tr ++ p.mWorkqueue := by
  have hsim := exec_simulates (f := fun _ => Step.toFifo) (I := fun _ => True)
    (fun _ _ _ _ _ => trivial) (fun p l p' _ => workqueue_simulates_fifo p l p') trivial h
  rw [absTrace_eq_flatMap h] at hsim
  rw [accepted_eq_puts, popped_eq_takes]
  exact Fifo.puts_eq_takes_append hsim

end Order

/-! ## Tickets -/

/-- The bookkeeping of a trace: pops are numbered from 0, `ticket w` is the
    number of the last pop of `w`, and `served` lists the calls of `process()`
    as (worker, number of the pop that fetched the request, request). -/
structure Ledger (T W : Type*) where
  popCount : Nat
  ticket : W → Nat
  served : List (W × Nat × T)

section Tickets

variable [DecidableEq W]

def Ledger.record (b : Ledger T W) : Step T A W → Ledger T W
  | .pop w _ => { b with
      popCount := b.popCount + 1
      ticket := Function.update b.ticket w b.popCount }
  | .process w request => { b with served := b.served ++ [(w, b.ticket w, request)] }
  | _ => b

def ledger (tr : List (Step T A W)) : Ledger T W :=
  tr.foldl Ledger.record ⟨0, fun _ => 0, []⟩

/-- The numbers of the pops whose request has been processed. -/
def Ledger.usedTickets (b : Ledger T W) : List Nat := b.served.map (·.2.1)

theorem ledger_snoc (tr : List (Step T A W)) (l : Step T A W) :
    ledger (tr ++ [l]) = (ledger tr).record l := by
  simp [ledger]

/-- No request is in the hands of two workers or comes back after it was
    processed. -/
structure Exclusive (tr : List (Step T A W)) (p : Pool T A W) : Prop where
  popCount : (ledger tr).popCount = (popped tr).length
  held : ∀ w r, p.worker w = .popped r → (popped tr)[(ledger tr).ticket w]? = some r
  fresh : ∀ w r, p.worker w = .popped r → (ledger tr).ticket w ∉ (ledger tr).usedTickets
  distinct : ∀ w w' r r', p.worker w = .popped r → p.worker w' = .popped r' →
    (ledger tr).ticket w = (ledger tr).ticket w' → w = w'
  nodup : (ledger tr).usedTickets.Nodup
  sound : ∀ w i r, (w, i, r) ∈ (ledger tr).served → (popped tr)[i]? = some (some r)

/-- Steps that neither pop nor process, and after which no further worker holds
    a request, keep the invariant. -/
theorem Exclusive.frame {tr : List (Step T A W)} {p p' : Pool T A W} {l : Step T A W}
    (h : Exclusive tr p) (hledger : (ledger tr).record l = ledger tr)
    (hpopped : popped (tr ++ [l]) = popped tr)
    (hworker : ∀ w r, p'.worker w = .popped r → p.worker w = .popped r) :
    Exclusive (tr ++ [l]) p' := by
  have hl : ledger (tr ++ [l]) = ledger tr := by rw [ledger_snoc, hledger]
  constructor
  case popCount =>
      rw [hl, hpopped]
      exact h.popCount
  case held =>
      intro w r hw
      rw [hl, hpopped]
      exact h.held w r (hworker w r hw)
  case fresh =>
      intro w r hw
      rw [hl]
      exact h.fresh w r (hworker w r hw)
  case distinct =>
      intro w w' r r' hw hw'
      rw [hl]
      exact h.distinct w w' r r' (hworker w r hw) (hworker w' r' hw')
  case nodup =>
      rw [hl]
      exact h.nodup
  case sound =>
      intro w i r
      rw [hl, hpopped]
      exact h.sound w i r

/-- Moving one worker to a point where it holds nothing. -/
theorem popped_of_update {f : W → RunPc T} {v : RunPc T} {w w' : W} {r : Option T}
    (hv : ∀ r, v ≠ .popped r) (h : Function.update f w' v w = .popped r) :
    w ≠ w' ∧ f w = .popped r := by
  by_cases hw : w = w'
  · subst hw
    rw [Function.update_self] at h
    exact absurd h (hv r)
  · rw [Function.update_of_ne hw] at h
    exact ⟨hw, h⟩

/-- Used tickets are numbers of earlier pops. -/
theorem Exclusive.used_lt {tr : List (Step T A W)} {p : Pool T A W} (h : Exclusive tr p)
    {i : Nat} (hi : i ∈ (ledger tr).usedTickets) : i < (popped tr).length := by
  obtain ⟨⟨w, j, r⟩, hmem, rfl⟩ := List.mem_map.mp hi
  exact (List.getElem?_eq_some_iff.mp (h.sound w j r hmem)).1

theorem Exclusive.held_lt {tr : List (Step T A W)} {p : Pool T A W} (h : Exclusive tr p)
    {w : W} {r : Option T} (hw : p.worker w = .popped r) :
    (ledger tr).ticket w < (popped tr).length :=
  (List.getElem?_eq_some_iff.mp (h.held w r hw)).1

/-- The tickets after a pop: the worker that popped has the next number, and
    the others what they had. -/
theorem Exclusive.tickets_after_pop [DecidableEq A] {tr : List (Step T A W)} {p : Pool T A W}
    {v w : W} {request r : Option T} (h : Exclusive tr p)
    (hw : (next p (.pop v request)).worker w = .popped r) :
    (w = v ∧ r = request ∧
        (ledger (tr ++ [.pop v request])).ticket w = (popped tr).length) ∨
      (p.worker w = .popped r ∧
        (ledger (tr ++ [.pop v request])).ticket w = (ledger tr).ticket w) := by
  rw [ledger_snoc]
  by_cases hwv : w = v
  · subst hwv
    obtain rfl : request = r := by simpa [next] using hw
    exact Or.inl ⟨rfl, rfl, by simp [Ledger.record, h.popCount]⟩
  · exact Or.inr ⟨by simpa [next, hwv] using hw, by simp [Ledger.record, hwv]⟩

/-- A pop hands out the next number, which nobody has. -/
theorem Exclusive.pop [DecidableEq A] {tr : List (Step T A W)} {p : Pool T A W} {v : W}
    {request : Option T} (h : Exclusive tr p) :
    Exclusive (tr ++ [.pop v request]) (next p (.pop v request)) := by
  have hpop : popped (tr ++ [.pop v request]) = popped tr ++ [request] := by
    simp [popped]
  have hused : (ledger (tr ++ [.pop v request])).usedTickets = (ledger tr).usedTickets := by
    rw [ledger_snoc]
    rfl
  -- earlier pops keep their numbers
  have hlater : ∀ {i : Nat} {r : Option T}, (popped tr)[i]? = some r →
      (popped tr ++ [request])[i]? = some r := by
    intro i r hi
    have hlt := (List.getElem?_eq_some_iff.mp hi).1
    rw [List.getElem?_append_left hlt]
    exact hi
  constructor
  case popCount =>
      rw [ledger_snoc, hpop]
      simp [Ledger.record, h.popCount]
  case held =>
      intro w r hw
      rw [hpop]
      rcases h.tickets_after_pop hw with ⟨-, rfl, hticket⟩ | ⟨hw, hticket⟩
      · rw [hticket, List.getElem?_concat_length]
      · rw [hticket]
        exact hlater (h.held w r hw)
  case fresh =>
      intro w r hw hmem
      rw [hused] at hmem
      rcases h.tickets_after_pop hw with ⟨-, -, hticket⟩ | ⟨hw, hticket⟩
      · -- larger than any used one
        have hlt := h.used_lt hmem
        omega
      · rw [hticket] at hmem
        exact h.fresh w r hw hmem
  case distinct =>
      intro w w' r r' hw hw' heq
      rcases h.tickets_after_pop hw with ⟨hv, -, hticket⟩ | ⟨hw, hticket⟩ <;>
        rcases h.tickets_after_pop hw' with ⟨hv', -, hticket'⟩ | ⟨hw', hticket'⟩
      · rw [hv, hv']
      · -- the new number against an older one
        have hlt := h.held_lt hw'
        omega
      · have hlt := h.held_lt hw
        omega
      · rw [hticket, hticket'] at heq
        exact h.distinct w w' r r' hw hw' heq
  case nodup =>
      rw [hused]
      exact h.nodup
  case sound =>
      intro w i r hmem
      rw [ledger_snoc] at hmem
      rw [hpop]
      exact hlater (h.sound w i r hmem)

/-- `process()` uses up the ticket of the worker that runs it. -/
theorem Exclusive.process [DecidableEq A] {tr : List (Step T A W)} {p : Pool T A W} {v : W}
    {request : T} (h : Exclusive tr p) (hv : p.worker v = .popped (some request)) :
    Exclusive (tr ++ [.process v request]) (next p (.process v request)) := by
  have hpop : popped (tr ++ [.process v request]) = popped tr := by
    simp [popped]
  have hother : ∀ w r, (next p (.process v request)).worker w = .popped r →
      w ≠ v ∧ p.worker w = .popped r := by
    intro w r hw
    exact popped_of_update (by simp) hw
  constructor
  case popCount =>
      rw [ledger_snoc, hpop]
      exact h.popCount
  case held =>
      intro w r hw
      rw [ledger_snoc, hpop]
      exact h.held w r (hother w r hw).2
  case fresh =>
      intro w r hw
      obtain ⟨hwv, hw⟩ := hother w r hw
      rw [ledger_snoc]
      simp only [Ledger.record, Ledger.usedTickets, List.map_append, List.mem_append,
        List.map_cons, List.map_nil, List.mem_singleton, not_or]
      refine ⟨h.fresh w r hw, fun heq => hwv ?_⟩
      exact h.distinct w v r (some request) hw hv heq
  case distinct =>
      intro w w' r r' hw hw' heq
      rw [ledger_snoc] at heq
      exact h.distinct w w' r r' (hother w r hw).2 (hother w' r' hw').2 heq
  case nodup =>
      rw [ledger_snoc]
      simp only [Ledger.record, Ledger.usedTickets, List.map_append, List.map_cons, List.map_nil]
      refine List.nodup_append.mpr ⟨h.nodup, List.nodup_singleton _, ?_⟩
      intro i hi j hj hij
      rw [List.mem_singleton] at hj
      subst hj hij
      exact h.fresh v (some request) hv hi
  case sound =>
      intro w i r hmem
      rw [ledger_snoc] at hmem
      rw [hpop]
      -- served before, or just now with the ticket `v` was holding
      simp only [Ledger.record, List.mem_append, List.mem_singleton, Prod.mk.injEq] at hmem
      rcases hmem with hmem | ⟨rfl, rfl, rfl⟩
      · exact h.sound w i r hmem
      · exact h.held w (some r) hv

/-- The ticket invariant holds of every run. -/
theorem exclusive_of_exec [DecidableEq T] [DecidableEq A] {n : Nat}
    {tr : List (Step T A W)} {p : Pool T A W}
    (h : exec step (Pool.start T A W n) tr = some p) : Exclusive tr p := by
  refine exec_history (P := Exclusive) ?_ ?_ h
  · constructor <;> simp [ledger, popped, Pool.start, Ledger.usedTickets]
  · intro tr p l p' hinv hl
    obtain ⟨hen, rfl⟩ := step_eq_some.mp hl
    cases l with
    | pop w request => exact hinv.pop
    | process w request => exact hinv.process hen
    | call a request | push a request | reject a request | post a =>
        exact hinv.frame rfl (by simp [popped]) (fun _ _ hw => hw)
    | loop w | wait w | waitErr w | empty w | skip w =>
        exact hinv.frame rfl (by simp [popped])
          (fun v r hw => (popped_of_update (by simp) hw).2)

/-- The calls of `process()` in a trace. -/
def processed : List (Step T A W) → List (W × T) :=
  List.filterMap fun
    | .process w request => some (w, request)
    | _ => none

/-- The ledger lists the calls of `process()` and no others. -/
theorem ledger_served_eq_processed (tr : List (Step T A W)) :
    (ledger tr).served.map (fun e => (e.1, e.2.2)) = processed tr := by
  induction tr using List.reverseRecOn with
  | nil => rfl
  | append_singleton tr l ih =>
      rw [ledger_snoc]
      cases l <;> simp_all [Ledger.record, processed]

end Tickets

/-! ## The law -/

section Law

variable [DecidableEq T] [DecidableEq A] [DecidableEq W]

/-- Only the refusing branch makes `append` return false. -/
theorem returned_false_of_step {p p' : Pool T A W} {l : Step T A W} {a : A}
    (h : step p l = some p') (hbefore : p.appender a ≠ .returned (some false))
    (hafter : p'.appender a = .returned (some false)) :
    ∃ request, l = .reject a request := by
  obtain ⟨-, rfl⟩ := step_eq_some.mp h
  have hself : ∀ (b : A) (pc : AppendPc T),
      Function.update p.appender b pc a = .returned (some false) →
      a = b ∧ pc = .returned (some false) := by
    intro b pc hupd
    by_cases hab : a = b
    · subst hab
      exact ⟨rfl, by simpa using hupd⟩
    · exact absurd (by simpa [Function.update_of_ne hab] using hupd) hbefore
  cases l with
  | reject b request =>
      obtain ⟨rfl, -⟩ := hself b _ hafter
      exact ⟨request, rfl⟩
  | call b request | push b request | post b =>
      have hpc := (hself b _ hafter).2
      simp at hpc
  | loop w | wait w | waitErr w | pop w request | empty w | skip w | process w request =>
      exact absurd hafter hbefore

/-- **No loss, no duplication, FIFO.**  In every reachable state of a live
    pool: the requests accepted by `append` are the ones popped, in pop order,
    followed by `m_workqueue`; the calls of `process()` are those of the
    ledger, each for a non-null accepted request and no two for the same one;
    and the steps of an `append` that returns false, its call and its refusing
    locked section, change neither the queue nor the semaphore. -/
theorem workqueue_no_loss_no_duplication {n : Nat} {tr : List (Step T A W)} {p : Pool T A W}
    (h : exec step (Pool.start T A W n) tr = some p) :
    accepted tr = popped tr ++ p.mWorkqueue ∧
    (ledger tr).served.map (fun e => (e.1, e.2.2)) = processed tr ∧
    (ledger tr).usedTickets.Nodup ∧
    (∀ w i request, (w, i, request) ∈ (ledger tr).served →
      (accepted tr)[i]? = some (some request)) ∧
    (∀ l a p', step p l = some p' → p.appender a ≠ .returned (some false) →
      p'.appender a = .returned (some false) → ∃ request, l = .reject a request) ∧
    (∀ a request p', step p (.call a request) = some p' ∨ step p (.reject a request) = some p' →
      p'.mWorkqueue = p.mWorkqueue ∧ p'.mQueuestat = p.mQueuestat) := by
  have hfifo := accepted_eq_popped_append h
  have hexcl := exclusive_of_exec h
  refine ⟨hfifo, ledger_served_eq_processed tr, hexcl.nodup, ?_, ?_, ?_⟩
  · -- numbers of pops are positions among the accepted, by the FIFO law
    intro w i request hmem
    have hpop := hexcl.sound w i request hmem
    have hlt := (List.getElem?_eq_some_iff.mp hpop).1
    rw [hfifo, List.getElem?_append_left hlt]
    exact hpop
  · intro l a p' hl hbefore hafter
    exact returned_false_of_step hl hbefore hafter
  · rintro a request p' (hl | hl)
    · obtain ⟨-, rfl⟩ := step_eq_some.mp hl
      exact ⟨rfl, rfl⟩
    · obtain ⟨-, rfl⟩ := step_eq_some.mp hl
      exact ⟨rfl, rfl⟩

/-- Two callers, two workers: both requests are pushed before either post, the
    second worker wakes without a token and takes the second request. -/
def sampleTrace : List (Step Nat Bool Bool) :=
  [.call true (some 7), .call false (some 9), .push true (some 7), .push false (some 9),
   .post true, .loop false, .loop true, .waitErr false, .wait true, .pop true (some 7),
   .pop false (some 9), .process false 9]

theorem workqueue_no_loss_no_duplication_sample :
    ∃ p, exec step (Pool.start Nat Bool Bool 3) sampleTrace = some p ∧
      accepted sampleTrace = popped sampleTrace ++ p.mWorkqueue ∧
      (ledger sampleTrace).usedTickets.Nodup := by
  obtain ⟨p, hp⟩ : ∃ p, exec step (Pool.start Nat Bool Bool 3) sampleTrace = some p :=
    ⟨_, rfl⟩
  have h := workqueue_no_loss_no_duplication hp
  exact ⟨p, hp, h.1, h.2.2.1⟩

end Law

/-! ## Capacity -/

/-- At most `m` requests are waiting. -/
def Within (m : Nat) (p : Pool T A W) : Prop := p.mWorkqueue.length ≤ m

/-- The locked section of `append` refuses exactly when it finds `m` requests. -/
def RefusesAt (m : Nat) (p : Pool T A W) : Step T A W → Prop
  | .push _ _ => p.mWorkqueue.length ≠ m
  | .reject _ _ => p.mWorkqueue.length = m
  | _ => True

/-- The locked section of `append` does not find exactly `m` requests. -/
def AvoidsFull (m : Nat) (p : Pool T A W) : Step T A W → Prop
  | .push _ _ => p.mWorkqueue.length ≠ m
  | .reject _ _ => p.mWorkqueue.length ≠ m
  | _ => True

section Capacity

variable [DecidableEq T] [DecidableEq A] [DecidableEq W] {m : Nat}

theorem mMaxRequests_step {p p' : Pool T A W} {l : Step T A W} (h : step p l = some p') :
    p'.mMaxRequests = p.mMaxRequests := by
  obtain ⟨-, rfl⟩ := step_eq_some.mp h
  cases l <;> rfl

/-- Only a push makes the queue longer. -/
theorem length_step_le {p p' : Pool T A W} {l : Step T A W} (h : step p l = some p')
    (hpush : ∀ a request, l ≠ .push a request) : p'.mWorkqueue.length ≤ p.mWorkqueue.length := by
  obtain ⟨-, rfl⟩ := step_eq_some.mp h
  cases l with
  | push a request => exact absurd rfl (hpush a request)
  | pop w request => simp [next]
  | _ => exact Nat.le_refl _

/-- `append` pushes as long as it does not find more than `m` requests, so one
    more than `m` is what it can leave. -/
theorem within_succ_step {p p' : Pool T A W} {l : Step T A W}
    (hp : p.mMaxRequests = m ∧ Within (m + 1) p) (h : step p l = some p') :
    p'.mMaxRequests = m ∧ Within (m + 1) p' := by
  obtain ⟨hmax, hle⟩ := hp
  refine ⟨(mMaxRequests_step h).trans hmax, ?_⟩
  by_cases hpush : ∃ a request, l = .push a request
  · obtain ⟨a, request, rfl⟩ := hpush
    obtain ⟨⟨-, hroom⟩, rfl⟩ := step_eq_some.mp h
    simp only [Within, next, List.length_append, List.length_singleton]
    omega
  · have hlen := length_step_le h (fun a request heq => hpush ⟨a, request, heq⟩)
    exact Nat.le_trans hlen hle

/-- A step from a queue within its capacity stays within it exactly if it does
    not push onto a full queue. -/
theorem within_step_iff {p p' : Pool T A W} {l : Step T A W} (hmax : p.mMaxRequests = m)
    (hp : Within m p) (h : step p l = some p') : Within m p' ↔ AvoidsFull m p l := by
  have hlen : p.mWorkqueue.length ≤ m := hp
  by_cases hpush : ∃ a request, l = .push a request
  · obtain ⟨a, request, rfl⟩ := hpush
    obtain ⟨-, rfl⟩ := step_eq_some.mp h
    simp only [Within, AvoidsFull, next, List.length_append, List.length_singleton]
    omega
  · have hkept := length_step_le h (fun a request heq => hpush ⟨a, request, heq⟩)
    refine iff_of_true (Nat.le_trans hkept hlen) ?_
    obtain ⟨hen, -⟩ := step_eq_some.mp h
    cases l with
    | push a request => exact absurd ⟨a, request, rfl⟩ hpush
    | reject a request =>
        have hfull := hen.2
        show p.mWorkqueue.length ≠ m
        omega
    | _ => trivial

/-- The test `size() > m_max_requests` refuses one request too late. -/
theorem refusesAt_succ {p p' : Pool T A W} {l : Step T A W} (hmax : p.mMaxRequests = m)
    (hp : Within (m + 1) p) (h : step p l = some p') : RefusesAt (m + 1) p l := by
  have hlen : p.mWorkqueue.length ≤ m + 1 := hp
  obtain ⟨hen, -⟩ := step_eq_some.mp h
  cases l with
  | push a request =>
      have hroom := hen.2
      show p.mWorkqueue.length ≠ m + 1
      omega
  | reject a request =>
      have hfull := hen.2
      show p.mWorkqueue.length = m + 1
      omega
  | _ => trivial

/-- **Capacity.**  A pool made for `m` waiting requests holds up to `m + 1`, and
    `append` returns false exactly when it finds `m + 1`.  In a run the bound
    `m` is kept and refusing starts at `m` if and only if no locked section of
    `append` ever finds `m` requests waiting. -/
theorem queue_capacity_iff {tr : List (Step T A W)} {p : Pool T A W}
    (h : exec step (Pool.start T A W m) tr = some p) :
    (AllStates step (Within (m + 1)) (Pool.start T A W m) tr ∧
      AllSteps step (RefusesAt (m + 1)) (Pool.start T A W m) tr) ∧
    ((AllStates step (Within m) (Pool.start T A W m) tr ∧
        AllSteps step (RefusesAt m) (Pool.start T A W m) tr) ↔
      AllSteps step (AvoidsFull m) (Pool.start T A W m) tr) := by
  have hmax (s : Pool T A W) (l : Step T A W) (s' : Pool T A W) (hs : s.mMaxRequests = m)
      (hl : step s l = some s') : s'.mMaxRequests = m := (mMaxRequests_step hl).trans hs
  have hbound : AllStates step (fun p : Pool T A W => p.mMaxRequests = m ∧ Within (m + 1) p)
      (Pool.start T A W m) tr :=
    allStates_of_invariant ⟨rfl, Nat.zero_le _⟩ (fun _ _ _ hp hl => within_succ_step hp hl) tr
  have hiff : AllStates step (Within m) (Pool.start T A W m) tr ↔
      AllSteps step (AvoidsFull m) (Pool.start T A W m) tr :=
    allStates_iff_allSteps (I := fun p : Pool T A W => p.mMaxRequests = m) rfl hmax
      (Nat.zero_le _) (fun _ _ _ hp hwithin hl => within_step_iff hp hwithin hl) h
  refine ⟨⟨fun pre post s htr hs => (hbound pre post s htr hs).2, ?_⟩, ?_⟩
  · exact hbound.allSteps h (fun _ _ _ hs hl => refusesAt_succ hs.1 hs.2 hl)
  · rw [← hiff]
    refine ⟨fun hboth => hboth.1, fun hwithin => ⟨hwithin, ?_⟩⟩
    have hboth : AllStates step (fun p : Pool T A W => p.mMaxRequests = m ∧ Within m p)
        (Pool.start T A W m) tr := fun pre post s htr hs =>
      ⟨(hbound pre post s htr hs).1, hwithin pre post s htr hs⟩
    -- a refusal needs more than `m` requests, which there never are
    have hnever : AllSteps step (fun (_ : Pool T A W) l => ∀ a request, l ≠ .reject a request)
        (Pool.start T A W m) tr := by
      refine hboth.allSteps h (fun s l s' hs hl => ?_)
      rintro a request rfl
      have hfull := (step_eq_some.mp hl).1.2
      have hlen : s.mWorkqueue.length ≤ m := hs.2
      omega
    intro pre l post s htr hs
    have havoids := hiff.mp hwithin pre l post s htr hs
    cases l with
    | push a request => exact havoids
    | reject a request => exact absurd rfl (hnever pre _ post s htr hs a request)
    | _ => trivial

/-- A pool for one request, one caller and one worker that never runs. -/
def overfullRun : List (Step Nat Unit Unit) :=
  [.call () (some 1), .push () (some 1), .post (), .call () (some 2), .push () (some 2)]

theorem queue_capacity_iff_sample :
    ∃ p, exec step (Pool.start Nat Unit Unit 1) overfullRun = some p ∧
      AllStates step (Within 2) (Pool.start Nat Unit Unit 1) overfullRun := by
  obtain ⟨p, hp⟩ : ∃ p, exec step (Pool.start Nat Unit Unit 1) overfullRun = some p := ⟨_, rfl⟩
  exact ⟨p, hp, (queue_capacity_iff hp).1.1⟩

/-- Two requests wait in a pool made for one, and the second was accepted. -/
theorem overfull_queue :
    ∃ p, exec step (Pool.start Nat Unit Unit 1) overfullRun = some p ∧
      p.mWorkqueue = [some 1, some 2] ∧ ¬ Within 1 p := by
  refine ⟨_, rfl, rfl, ?_⟩
  simp [Within, next, Pool.start]

end Capacity

end WebServer.ThreadPool
