/-
  WebServer.Server.Accounting

  Three books the main thread keeps by its actions alone.  The descriptors of
  the process are those it was started with and one for each connection.
  `m_user_count` is raised by `init` and lowered by `close_conn`, and should be
  the number of open connections.  The queue of the listening socket is
  shortened by one `accept` per reported edge, and should be empty when no edge
  is left.

  The first two always balance (`Accounted`): an `accept` that could upset them
  ends the program at `users[connfd]`, before anything is written down.  The
  third is never corrected, so an error once made stays: it is a counter that
  the right steps leave alone and the wrong ones raise (`drift_eq_zero_iff`).
-/

import WebServer.Server.Ownership
import Mathlib

namespace WebServer.Server

open WebServer.Lib WebServer.ThreadPool

variable {W : Type*}

/-! ## Descriptors and users -/

/-- The descriptors that stay open: the standard ones, `listenfd` and `epollfd`. -/
def reserved (cfg : Config) : Finset Int := {0, 1, 2, cfg.listenfd, cfg.epollfd}

theorem listenfd_mem_reserved (cfg : Config) : cfg.listenfd ∈ reserved cfg := by
  simp [reserved]

/-- The listening socket as `addfd` has registered it. -/
def listenRegistration : Registration := ⟨readInterest, false, true⟩

/-- Every open descriptor has an owner, and every connection is counted. -/
structure Accounted (cfg : Config) (s : State W) : Prop where
  opened_eq : s.opened = reserved cfg ∪ s.conns
  disjoint : Disjoint (reserved cfg) s.conns
  listening : s.epoll cfg.listenfd = some listenRegistration
  count : s.mUserCount = s.conns.card

theorem accounted_start (cfg : Config) (memory : Int → Int) :
    Accounted cfg (start W cfg memory) where
  opened_eq := by simp [start, reserved]
  disjoint := Finset.disjoint_empty_right _
  listening := by simp [start, listenRegistration, readInterest]
  count := rfl

section Users

variable [DecidableEq W] {cfg : Config} {s s' : State W}

theorem Accounted.move (h : Accounted cfg s) {l : Step W} (hmove : Move cfg s l s') :
    Accounted cfg s' := by
  obtain ⟨hopened, hdisj, hlisten, hcount⟩ := h
  have hreserved := listenfd_mem_reserved cfg
  cases hmove with
  | arrive | refused | outside | appended | run | abandoned =>
      exact ⟨hopened, hdisj, hlisten, hcount⟩
  | epollWait =>
      refine ⟨hopened, hdisj, ?_, hcount⟩
      -- only a one-shot registration is disarmed by its event
      simp only [epollWait, disarm, hlisten, listenRegistration, Option.map_some,
        Bool.false_and, Bool.false_eq_true, if_false]
  | @admitted connfd _ ev rest _ _ _ hfresh _ _ =>
      rw [hopened, Finset.mem_union, not_or] at hfresh
      have hne : cfg.listenfd ≠ connfd := by
        rintro rfl
        exact hfresh.1 hreserved
      refine ⟨?_, Finset.disjoint_insert_right.mpr ⟨hfresh.1, hdisj⟩,
        (Function.update_of_ne hne _ _).trans hlisten, ?_⟩
      · show insert connfd s.opened = reserved cfg ∪ insert connfd s.conns
        rw [Finset.union_insert, hopened]
      · show s.mUserCount + 1 = ((insert connfd s.conns).card : Int)
        rw [Finset.card_insert_of_notMem hfresh.2, hcount]
        push_cast
        rfl
  | @closed _ _ ev rest _ hfd hconn _ =>
      have hnot : ev.fd ∉ reserved cfg := fun hmem =>
        Finset.disjoint_left.mp hdisj hmem hconn
      refine ⟨?_, Finset.disjoint_of_subset_right (Finset.erase_subset _ _) hdisj,
        (Function.update_of_ne hfd.symm _ _).trans hlisten, ?_⟩
      · show s.opened.erase ev.fd = reserved cfg ∪ s.conns.erase ev.fd
        rw [hopened, Finset.erase_union_distrib, Finset.erase_eq_of_notMem hnot]
      · have hcard := Finset.card_erase_add_one hconn
        show s.mUserCount - 1 = ((s.conns.erase ev.fd).card : Int)
        omega
  | @rearmed _ i _ hfd _ =>
      exact ⟨hopened, hdisj, (Function.update_of_ne hfd.symm _ _).trans hlisten, hcount⟩

variable [Fintype W] {memory : Int → Int} {tr : List (Step W)}

theorem accounted_of_exec (h : exec (step cfg) (start W cfg memory) tr = some s) :
    Accounted cfg s := by
  suffices hboth : Inv cfg s ∧ Accounted cfg s from hboth.2
  exact exec_invariant (P := fun s => Inv cfg s ∧ Accounted cfg s)
    ⟨inv_start cfg memory, accounted_start cfg memory⟩
    (fun _ _ _ ⟨hinv, hacc⟩ hl => ⟨hinv.of_step hl, hacc.move (move_of_step hinv hl)⟩) h

/-- **Connection accounting.**  In every reachable state, whatever `accept` has
    returned, `m_user_count` is the number of open connections, and these are
    the open descriptors that are not the process's own.  So it is 0 exactly
    when there are none, and the admission check refuses nobody too early. -/
theorem user_count_eq (h : exec (step cfg) (start W cfg memory) tr = some s) :
    s.mUserCount = s.conns.card ∧ s.conns = s.opened \ reserved cfg ∧
      (s.mUserCount = 0 ↔ s.conns = ∅) ∧
      (s.mUserCount ≥ MAX_FD → (s.conns.card : Int) ≥ MAX_FD) := by
  obtain ⟨hopened, hdisj, -, hcount⟩ := accounted_of_exec h
  refine ⟨hcount, ?_, ?_, fun hfull => hcount ▸ hfull⟩
  · rw [hopened, Finset.union_sdiff_left, Finset.sdiff_eq_self_of_disjoint hdisj.symm]
  · rw [hcount, Int.natCast_eq_zero, Finset.card_eq_zero]

/-- A client that stays, and one that `accept` could not take. -/
theorem user_count_eq_sample :
    ∃ s, exec (step sampleConfig) (start Bool sampleConfig fun _ => 0)
        (sampleRun ++ [.arrive, .epollWait [⟨3, epollin⟩], .handle (-1) false]) = some s ∧
      s.conns = {5} ∧ s.mUserCount = 1 ∧ s.fault = some .outOfBounds := by
  obtain ⟨s, hs, hconns, hfault⟩ : ∃ s, exec (step sampleConfig)
      (start Bool sampleConfig fun _ => 0)
      (sampleRun ++ [.arrive, .epollWait [⟨3, epollin⟩], .handle (-1) false]) = some s ∧
      s.conns = {5} ∧ s.fault = some .outOfBounds := ⟨_, rfl, by decide, rfl⟩
  have hcount := (user_count_eq hs).1
  rw [hconns] at hcount
  exact ⟨s, hs, hconns, hcount, hfault⟩

end Users

/-! ## The backlog -/

/-- Nothing is missed: no client arrives while the edge of `listenfd` is
    already up, and no `accept` fails. -/
def MissesNobody (cfg : Config) (s : State W) : Step W → Prop
  | .arrive => s.listenPending = false
  | .handle connfd _ => ∀ ev rest, s.batch = ev :: rest → ev.fd = cfg.listenfd → connfd ≠ -1
  | _ => True

/-- The head of a batch, said twice. -/
theorem head_ne_listen {cfg : Config} {s : State W} {ev ev' : Event} {rest rest' : List Event}
    (hbatch : s.batch = ev :: rest) (hfd : ev.fd ≠ cfg.listenfd)
    (hbatch' : s.batch = ev' :: rest') : ev'.fd ≠ cfg.listenfd := by
  rw [hbatch] at hbatch'
  cases hbatch'
  exact hfd

/-- Clients in the queue for whom no `accept` is on its way. -/
def missed (cfg : Config) (s : State W) : Int :=
  s.backlog - s.listenPending.toNat - batchCount s.batch cfg.listenfd

section Backlog

variable {cfg : Config} {s s' : State W} {ev : Event} {rest : List Event}

/-- Reporting the edge only moves it into the batch. -/
theorem missed_epollWait {events : List Event} (hidle : s.batch = [])
    (hnodup : (events.map Event.fd).Nodup) (hreport : ∀ ev ∈ events, CanReport cfg s ev) :
    missed cfg (epollWait cfg s events) = missed cfg s := by
  simp only [missed, epollWait, hidle, batchCount_nil]
  by_cases hmem : cfg.listenfd ∈ events.map Event.fd
  · obtain ⟨ev, hev, hfd⟩ := List.mem_map.mp hmem
    have hpending : s.listenPending = true := (hreport ev hev).1 hfd
    rw [batchCount, List.count_eq_one_of_mem hnodup hmem, List.contains_eq_mem,
      decide_eq_true hmem, hpending]
    simp
  · rw [batchCount, List.count_eq_zero_of_not_mem hmem, List.contains_eq_mem,
      decide_eq_false hmem, Bool.not_false, Bool.and_true]

/-- An event of `listenfd` takes one client from the queue. -/
theorem missed_accepted (hbatch : s.batch = ev :: rest) (hlisten : ev.fd = cfg.listenfd)
    (hrest : s'.batch = rest) (hpending : s'.listenPending = s.listenPending)
    (hbacklog : s'.backlog + 1 = s.backlog) : missed cfg s' = missed cfg s := by
  simp only [missed, hbatch, hrest, hpending, ← hbacklog, batchCount_cons, if_pos hlisten]
  push_cast
  omega

/-- If `accept` fails the event is gone and the client is not. -/
theorem missed_failed (hbatch : s.batch = ev :: rest) (hlisten : ev.fd = cfg.listenfd)
    (hrest : s'.batch = rest) (hpending : s'.listenPending = s.listenPending)
    (hbacklog : s'.backlog = s.backlog) : missed cfg s < missed cfg s' := by
  simp only [missed, hbatch, hrest, hpending, hbacklog, batchCount_cons, if_pos hlisten]
  push_cast
  omega

/-- Any other event leaves the books alone. -/
theorem missed_conn (hbatch : s.batch = ev :: rest) (hfd : ev.fd ≠ cfg.listenfd)
    (hrest : s'.batch = rest) (hpending : s'.listenPending = s.listenPending)
    (hbacklog : s'.backlog = s.backlog) : missed cfg s' = missed cfg s := by
  simp only [missed, hbatch, hrest, hpending, hbacklog, batchCount_cons, if_neg hfd]
  rfl

variable [DecidableEq W]

theorem missed_of_move {l : Step W} (h : Move cfg s l s') :
    (MissesNobody cfg s l ∧ missed cfg s' = missed cfg s) ∨
      (¬ MissesNobody cfg s l ∧ missed cfg s < missed cfg s') := by
  cases h with
  | run | rearmed | abandoned => exact Or.inl ⟨trivial, rfl⟩
  | epollWait hidle hnodup hreport =>
      exact Or.inl ⟨trivial, missed_epollWait hidle hnodup hreport⟩
  | arrive =>
      simp only [MissesNobody, missed]
      cases hpending : s.listenPending with
      | false => exact Or.inl ⟨rfl, by simp⟩
      | true =>
          -- the edge was up already: two clients, one event
          exact Or.inr ⟨by simp, by push_cast; omega⟩
  | @refused connfd readOk ev rest hbatch hlisten haccept
  | @outside connfd readOk ev rest hbatch hlisten haccept =>
      -- the queue is shortened by `accept`, whatever happens to the client then
      rcases haccept with rfl | ⟨hnonneg, -, hbacklog⟩
      · exact Or.inr ⟨fun hnone => hnone ev rest hbatch hlisten rfl,
          missed_failed hbatch hlisten rfl rfl (by simp)⟩
      · have hne : connfd ≠ -1 := by omega
        refine Or.inl ⟨fun _ _ _ _ => hne, missed_accepted hbatch hlisten rfl rfl ?_⟩
        dsimp only
        rw [if_neg hne]
        omega
  | admitted hbatch hlisten huser _ hbacklog _ =>
      have hnonneg := huser.1
      refine Or.inl ⟨fun _ _ _ _ => by omega, missed_accepted hbatch hlisten rfl rfl ?_⟩
      dsimp only
      omega
  | closed hbatch hfd _ _ | appended hbatch hfd _ _ =>
      refine Or.inl ⟨?_, missed_conn hbatch hfd rfl rfl rfl⟩
      intro ev' rest' hbatch' hlisten
      exact absurd hlisten (head_ne_listen hbatch hfd hbatch')

variable [Fintype W]

/-- **The backlog.**  When the main thread is about to wait and no edge of
    `listenfd` is pending, the queue of the listening socket is empty if and
    only if no arrival was ever merged into a pending edge and no `accept`
    failed. -/
theorem backlog_empty_iff {memory : Int → Int} {tr : List (Step W)}
    (h : exec (step cfg) (start W cfg memory) tr = some s) (hidle : s.batch = [])
    (hpending : s.listenPending = false) :
    s.backlog = 0 ↔ AllSteps (step cfg) (MissesNobody cfg) (start W cfg memory) tr := by
  obtain ⟨-, hiff⟩ := drift_eq_zero_iff (I := Inv cfg) (d := missed cfg)
    (inv_start cfg memory) (fun _ _ _ hinv hl => hinv.of_step hl) rfl
    (fun _ _ _ hinv hl => missed_of_move (move_of_step hinv hl)) h
  rw [← hiff, missed, hidle, hpending, batchCount_nil]
  simp

theorem backlog_empty_iff_sample :
    ∃ s, exec (step sampleConfig) (start Bool sampleConfig fun _ => 0) sampleRun = some s ∧
      (s.backlog = 0 ↔ AllSteps (step sampleConfig) (MissesNobody sampleConfig)
        (start Bool sampleConfig fun _ => 0) sampleRun) := by
  obtain ⟨s, hs, hidle, hpending⟩ : ∃ s, exec (step sampleConfig)
      (start Bool sampleConfig fun _ => 0) sampleRun = some s ∧ s.batch = [] ∧
      s.listenPending = false := ⟨_, rfl, rfl, rfl⟩
  exact ⟨s, hs, backlog_empty_iff hs hidle hpending⟩

/-- Two clients arrive before the main thread waits: one edge, one `accept`. -/
theorem second_client_stranded :
    ∃ s, exec (step sampleConfig) (start Bool sampleConfig fun _ => 0)
        [.arrive, .arrive, .epollWait [⟨3, epollin⟩], .handle 5 false] = some s ∧
      s.batch = [] ∧ s.listenPending = false ∧ s.backlog = 1 :=
  ⟨_, rfl, rfl, rfl, rfl⟩

end Backlog

end WebServer.Server
