/-
  WebServer.Server.Descriptors

  `users` is indexed by descriptor and guarded by a count.  The kernel hands
  out the lowest descriptor that is not open, and the process holds five of
  its own, so the numbers of the connections run ahead of their count.

  What is open is reserved or belongs to a counted user (`Accounted`).
  `LowestFree.lt_iff` turns that into the size of the next descriptor, and
  `slots_in_range_iff` into the admission check that would have been enough.
-/

import WebServer.Server.Accounting

namespace WebServer.Server

open WebServer.Lib WebServer.ThreadPool

/-! ## The lowest free number -/

/-- `x` is the lowest number that is not in `s`. -/
def LowestFree (s : Finset Int) (x : Int) : Prop :=
  0 ≤ x ∧ x ∉ s ∧ ∀ y, 0 ≤ y → y < x → y ∈ s

/-- The lowest free number is below a bound exactly if not all numbers below
    the bound are taken. -/
theorem LowestFree.lt_iff {s : Finset Int} {x bound : Int} (h : LowestFree s x)
    (hs : ∀ y ∈ s, 0 ≤ y) (hbound : 0 ≤ bound) :
    x < bound ↔ ((s.filter (· < bound)).card : Int) < bound := by
  obtain ⟨hnonneg, hfree, hlow⟩ := h
  have hcard : ((Finset.Ico 0 bound).card : Int) = bound := by
    rw [Int.card_Ico]
    omega
  refine ⟨fun hlt => ?_, fun hlt => ?_⟩
  · have hmem : x ∈ Finset.Ico 0 bound := Finset.mem_Ico.mpr ⟨hnonneg, hlt⟩
    have hsub : s.filter (· < bound) ⊆ (Finset.Ico 0 bound).erase x := by
      intro y hy
      obtain ⟨hys, hyb⟩ := Finset.mem_filter.mp hy
      refine Finset.mem_erase.mpr ⟨?_, Finset.mem_Ico.mpr ⟨hs y hys, hyb⟩⟩
      rintro rfl
      exact hfree hys
    have hle := Finset.card_le_card hsub
    have herase := Finset.card_erase_add_one hmem
    omega
  · by_contra hge
    have hsub : Finset.Ico 0 bound ⊆ s.filter (· < bound) := by
      intro y hy
      obtain ⟨hy0, hyb⟩ := Finset.mem_Ico.mp hy
      exact Finset.mem_filter.mpr ⟨hlow y hy0 (by omega), hyb⟩
    have hle := Finset.card_le_card hsub
    omega

/-! ## The next descriptor -/

variable {W : Type*}

/-- How many indices of `users` the reserved descriptors use up. -/
def reservedSlots (cfg : Config) : Nat := ((reserved cfg).filter (· < MAX_FD)).card

/-- `accept` succeeds and returns the lowest descriptor that is not open. -/
def AcceptsLowest (cfg : Config) (s : State W) : Step W → Prop
  | .handle connfd _ => ∀ ev rest, s.batch = ev :: rest → ev.fd = cfg.listenfd →
      LowestFree s.opened connfd
  | _ => True

/-- The index of `users` that handling the next event uses is inside the array. -/
def SlotInRange (cfg : Config) (s : State W) : Step W → Prop
  | .handle connfd _ => ∀ ev rest, s.batch = ev :: rest →
      (ev.fd = cfg.listenfd → s.mUserCount < MAX_FD → 0 ≤ connfd ∧ connfd < MAX_FD) ∧
        (ev.fd ≠ cfg.listenfd → 0 ≤ ev.fd ∧ ev.fd < MAX_FD)
  | _ => True

/-- A client is admitted only while the count leaves room for the reserved
    descriptors as well. -/
def LeavesRoom (cfg : Config) (s : State W) : Step W → Prop
  | .handle _ _ => ∀ ev rest, s.batch = ev :: rest → ev.fd = cfg.listenfd →
      s.mUserCount < MAX_FD → s.mUserCount < MAX_FD - reservedSlots cfg
  | _ => True

section Tables

variable {cfg : Config} {s : State W}

/-- The reserved descriptors and the connections share the indices of `users`. -/
theorem Accounted.filter_opened (h : Accounted cfg s)
    (husers : ∀ fd ∈ s.conns, InUsers fd) :
    ((s.opened.filter (· < MAX_FD)).card : Int) = reservedSlots cfg + s.mUserCount := by
  have hlt : ∀ fd ∈ s.conns, fd < MAX_FD := fun fd hfd => (husers fd hfd).2
  have hdisj : Disjoint ((reserved cfg).filter (· < MAX_FD)) s.conns :=
    Finset.disjoint_of_subset_left (Finset.filter_subset _ _) h.disjoint
  rw [h.opened_eq, Finset.filter_union, Finset.filter_true_of_mem hlt,
    Finset.card_union_of_disjoint hdisj, h.count, reservedSlots]
  push_cast
  rfl

/-- The next descriptor is an index of `users` exactly if there is room for the
    reserved ones beside the counted users. -/
theorem Accounted.lowest_lt_iff [Fintype W] (h : Accounted cfg s) (hinv : Inv cfg s)
    {connfd : Int} (hlow : LowestFree s.opened connfd) :
    connfd < MAX_FD ↔ s.mUserCount < MAX_FD - reservedSlots cfg := by
  rw [hlow.lt_iff hinv.wired.opened_nonneg (by decide), h.filter_opened hinv.wired.conns_users]
  omega

theorem slotInRange_iff [Fintype W] (hinv : Inv cfg s) (h : Accounted cfg s) {l : Step W}
    (hlow : AcceptsLowest cfg s l) : SlotInRange cfg s l ↔ LeavesRoom cfg s l := by
  cases l with
  | handle connfd readOk =>
      refine ⟨fun hslot ev rest hbatch hlisten hroom => ?_, fun hleaves ev rest hbatch => ⟨?_, ?_⟩⟩
      · exact (h.lowest_lt_iff hinv (hlow ev rest hbatch hlisten)).mp
          ((hslot ev rest hbatch).1 hlisten hroom).2
      · intro hlisten hroom
        have hfree := hlow ev rest hbatch hlisten
        exact ⟨hfree.1, (h.lowest_lt_iff hinv hfree).mpr (hleaves ev rest hbatch hlisten hroom)⟩
      · -- an event of a connection has its descriptor, which was an index before
        intro hfd
        exact hinv.wired.conns_users _ (hinv.conn_of_batch hbatch hfd)
  | arrive | epollWait | run | process => exact Iff.rfl

/-- Nothing else ends the program in the main thread. -/
theorem fault_of_slots [DecidableEq W] [Fintype W] {memory : Int → Int} {tr : List (Step W)}
    (h : exec (step cfg) (start W cfg memory) tr = some s)
    (hslots : AllSteps (step cfg) (SlotInRange cfg) (start W cfg memory) tr) : s.fault = none := by
  refine exec_history_of_allSteps (P := fun _ s => s.fault = none) rfl ?_ h hslots
  intro tr s l s' hrun hnone hslot hl
  cases move_of_step (inv_of_exec hrun) hl with
  | arrive | epollWait | refused | admitted | closed | appended | run | rearmed | abandoned =>
      exact hnone
  | outside hbatch hlisten _ hroom hout =>
      exact absurd ((hslot _ _ hbatch).1 hlisten hroom) hout

end Tables

/-! ## A full house -/

section Crowd

variable [DecidableEq W] [Fintype W] {cfg : Config} {s : State W}

/-- One more client connects and gets the descriptor `connfd`. -/
def clientConnects (cfg : Config) (connfd : Int) : List (Step W) :=
  [.arrive, .epollWait [⟨cfg.listenfd, epollin⟩], .handle connfd false]

/-- In two ways: the client is admitted, or the program ends. -/
theorem client_connects {memory : Int → Int} {tr : List (Step W)} {connfd : Int}
    (h : exec (step cfg) (start W cfg memory) tr = some s)
    (hlow : AllSteps (step cfg) (AcceptsLowest cfg) (start W cfg memory) tr)
    (hfault : s.fault = none) (hbatch : s.batch = []) (hroom : s.mUserCount < MAX_FD)
    (hfree : LowestFree s.opened connfd) :
    ∃ s', exec (step cfg) (start W cfg memory) (tr ++ clientConnects cfg connfd) = some s' ∧
      AllSteps (step cfg) (AcceptsLowest cfg) (start W cfg memory)
        (tr ++ clientConnects cfg connfd) ∧ s'.batch = [] ∧
      (InUsers connfd ∧ s'.fault = none ∧ s'.conns = insert connfd s.conns ∨
        ¬ InUsers connfd ∧ s'.fault = some .outOfBounds) := by
  have hsplit : tr ++ clientConnects cfg connfd =
      ((tr ++ [.arrive]) ++ [.epollWait [⟨cfg.listenfd, epollin⟩]]) ++ [.handle connfd false] := by
    simp [clientConnects]
  -- the two states on the way
  have harrive : step cfg s .arrive =
      some { s with backlog := s.backlog + 1, listenPending := true } := by
    simp [Enabled, next, hfault]
  have hwait : step cfg { s with backlog := s.backlog + 1, listenPending := true }
      (.epollWait [⟨cfg.listenfd, epollin⟩]) =
      some (epollWait cfg { s with backlog := s.backlog + 1, listenPending := true }
        [⟨cfg.listenfd, epollin⟩]) := by
    simp [Enabled, next, hbatch, hfault, CanReport, MAX_EVENT_NUMBER]
  have hrun₁ := exec_snoc.mpr ⟨s, h, harrive⟩
  have hrun₂ := exec_snoc.mpr ⟨_, hrun₁, hwait⟩
  obtain ⟨s', hhandle⟩ : ∃ s', step cfg (epollWait cfg
      { s with backlog := s.backlog + 1, listenPending := true } [⟨cfg.listenfd, epollin⟩])
      (.handle connfd false) = some s' :=
    ⟨_, step_eq_some.mpr ⟨⟨hfault, by simp [epollWait],
      fun _ => Or.inr ⟨hfree.1, hfree.2.1, Nat.succ_pos _⟩⟩, rfl⟩⟩
  refine ⟨s', ?_, ?_, ?_⟩
  · rw [hsplit]
    exact exec_snoc.mpr ⟨_, hrun₂, hhandle⟩
  · rw [hsplit, allSteps_snoc hrun₂, allSteps_snoc hrun₁, allSteps_snoc h]
    refine ⟨⟨⟨hlow, trivial⟩, trivial⟩, ?_⟩
    intro ev rest hev hlisten
    exact hfree
  · cases move_of_step (inv_of_exec hrun₂) hhandle with
    | refused _ _ _ hfull => exact absurd hroom (Int.not_lt.mpr hfull)
    | admitted hev _ huser =>
        obtain ⟨-, rfl⟩ := List.cons.inj hev
        exact ⟨rfl, Or.inl ⟨huser, hfault, rfl⟩⟩
    | outside hev _ _ _ hout =>
        obtain ⟨-, rfl⟩ := List.cons.inj hev
        exact ⟨rfl, Or.inr ⟨hout, rfl⟩⟩
    | closed hev hfd =>
        obtain ⟨rfl, -⟩ := List.cons.inj hev
        exact absurd rfl hfd

/-- `n` clients connect one after another, with 3 for `listenfd` and 4 for
    `epollfd`. -/
def crowd : Nat → List (Step Bool)
  | 0 => []
  | n + 1 => crowd n ++ clientConnects sampleConfig (5 + n)

theorem lowestFree_of_crowd {s : State Bool} (h : Accounted sampleConfig s) {n : Nat}
    (hconns : s.conns = Finset.Ico 5 (5 + (n : Int))) : LowestFree s.opened (5 + n) := by
  have hmem (fd : Int) : fd ∈ s.opened ↔ fd ∈ reserved sampleConfig ∨ 5 ≤ fd ∧ fd < 5 + n := by
    rw [h.opened_eq, Finset.mem_union, hconns, Finset.mem_Ico]
  have hreserved (fd : Int) : fd ∈ reserved sampleConfig ↔ 0 ≤ fd ∧ fd < 5 := by
    simp only [reserved, sampleConfig, Finset.mem_insert, Finset.mem_singleton]
    omega
  refine ⟨by omega, ?_, ?_⟩
  · rw [hmem, hreserved]
    omega
  · intro fd hnonneg hlt
    rw [hmem, hreserved]
    omega

/-- The state after a crowd that fits. -/
structure Crowded (n : Nat) (s : State Bool) : Prop where
  run : exec (step sampleConfig) (start Bool sampleConfig fun _ => 0) (crowd n) = some s
  lowest : AllSteps (step sampleConfig) (AcceptsLowest sampleConfig)
    (start Bool sampleConfig fun _ => 0) (crowd n)
  fault : s.fault = none
  batch : s.batch = []
  conns : s.conns = Finset.Ico 5 (5 + (n : Int))

theorem Crowded.mUserCount {n : Nat} {s : State Bool} (h : Crowded n s) : s.mUserCount = n := by
  rw [(accounted_of_exec h.run).count, h.conns, Int.card_Ico]
  omega

/-- One client more. -/
theorem Crowded.next {n : Nat} {s : State Bool} (h : Crowded n s) (hn : (n : Int) < MAX_FD) :
    ∃ s', exec (step sampleConfig) (start Bool sampleConfig fun _ => 0) (crowd (n + 1)) = some s' ∧
      AllSteps (step sampleConfig) (AcceptsLowest sampleConfig)
        (start Bool sampleConfig fun _ => 0) (crowd (n + 1)) ∧ s'.batch = [] ∧
      (InUsers (5 + n) ∧ s'.fault = none ∧ s'.conns = insert (5 + (n : Int)) s.conns ∨
        ¬ InUsers (5 + n) ∧ s'.fault = some .outOfBounds) :=
  client_connects h.run h.lowest h.fault h.batch (h.mUserCount ▸ hn)
    (lowestFree_of_crowd (accounted_of_exec h.run) h.conns)

/-- As long as the descriptors are indices of `users` everybody is admitted. -/
theorem exists_crowded {n : Nat} (hn : 5 + (n : Int) ≤ MAX_FD) : ∃ s, Crowded n s := by
  induction n with
  | zero => exact ⟨_, rfl, allSteps_nil, rfl, rfl, rfl⟩
  | succ n ih =>
      obtain ⟨s, hs⟩ := ih (by omega)
      obtain ⟨s', hrun, hlow, hbatch, ⟨-, hfault, hconns⟩ | ⟨hout, -⟩⟩ := hs.next (by omega)
      · refine ⟨s', hrun, hlow, hfault, hbatch, ?_⟩
        rw [hconns, hs.conns]
        ext fd
        simp only [Finset.mem_insert, Finset.mem_Ico]
        omega
      · exact absurd ⟨by omega, by omega⟩ hout

/-! ## The admission check -/

/-- **Slot indices.**  In a run where every `accept` succeeds with the lowest
    descriptor that is not open, every index of `users` is below `MAX_FD` if
    and only if clients are admitted only while `m_user_count` is below
    `MAX_FD` less the reserved descriptors. -/
theorem slots_in_range_iff {memory : Int → Int} {tr : List (Step W)}
    (hlow : AllSteps (step cfg) (AcceptsLowest cfg) (start W cfg memory) tr) :
    AllSteps (step cfg) (SlotInRange cfg) (start W cfg memory) tr ↔
      AllSteps (step cfg) (LeavesRoom cfg) (start W cfg memory) tr := by
  have hiff {pre post : List (Step W)} {l : Step W} {t : State W} (htr : tr = pre ++ l :: post)
      (ht : exec (step cfg) (start W cfg memory) pre = some t) :
      SlotInRange cfg t l ↔ LeavesRoom cfg t l :=
    slotInRange_iff (inv_of_exec ht) (accounted_of_exec ht) (hlow pre l post t htr ht)
  exact ⟨fun hslots pre l post t htr ht => (hiff htr ht).mp (hslots pre l post t htr ht),
    fun hroom pre l post t htr ht => (hiff htr ht).mpr (hroom pre l post t htr ht)⟩

theorem slots_in_range_iff_crowd :
    ∃ s, exec (step sampleConfig) (start Bool sampleConfig fun _ => 0) (crowd 2) = some s ∧
      (AllSteps (step sampleConfig) (SlotInRange sampleConfig)
          (start Bool sampleConfig fun _ => 0) (crowd 2) ↔
        AllSteps (step sampleConfig) (LeavesRoom sampleConfig)
          (start Bool sampleConfig fun _ => 0) (crowd 2)) := by
  obtain ⟨s, hs⟩ := exists_crowded (n := 2) (by decide)
  exact ⟨s, hs.run, slots_in_range_iff hs.lowest⟩

/-- 65530 clients take the descriptors up to 65534; the next one gets 65535,
    passes the check, and the program ends at `users[65535]`. -/
theorem slot_out_of_range :
    ∃ s, exec (step sampleConfig) (start Bool sampleConfig fun _ => 0) (crowd 65531) = some s ∧
      AllSteps (step sampleConfig) (AcceptsLowest sampleConfig)
        (start Bool sampleConfig fun _ => 0) (crowd 65531) ∧
      s.fault = some .outOfBounds ∧
      ¬ AllSteps (step sampleConfig) (SlotInRange sampleConfig)
        (start Bool sampleConfig fun _ => 0) (crowd 65531) := by
  obtain ⟨t, ht⟩ := exists_crowded (n := 65530) (by decide)
  obtain ⟨s, hrun, hlow, -, ⟨huser, -⟩ | ⟨-, hfault⟩⟩ := ht.next (by decide)
  · exact absurd huser (by decide)
  · refine ⟨s, hrun, hlow, hfault, fun hslots => ?_⟩
    rw [fault_of_slots hrun hslots] at hfault
    cases hfault

end Crowd

end WebServer.Server
