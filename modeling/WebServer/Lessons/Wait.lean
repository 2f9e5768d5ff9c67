/-
  WebServer.Lessons.Wait

  The processes of lesson2.8, wait.c: a parent that forks five children and
  then reaps them with `wait`.

  All processes run the same `main`; `fork` copies the one that calls it, with
  another answer in `pid`.  A step is one statement of one process, or a
  signal that kills one, so a run is any interleaving of the processes with
  any answers of `fork` and any signals.  What becomes of processes whose
  parent is gone is left out.

  Children do not fork, so there are at most five of them, all of the first
  process.  Their loop has no end: they only die by a signal.  The parent goes
  by the answer of the last `fork` alone.  If that one succeeded, it returns
  when it has reaped every child, each of them once; if it failed, it returns
  at once and leaves the children it has (`parent_reaps`).
-/

import Mathlib.Data.List.ReduceOption
import WebServer.Lib.Exec

namespace WebServer.Wait

open WebServer.Lib

/-! ## The source -/

/-- `for(int i = 0; i < 5; i++)` -/
def CHILDREN : Nat := 5

/-- Where a process is in `main`. -/
inductive Pc where
  /-- at the condition `i < 5` -/
  | forLoop
  /-- `fork()` has returned -/
  | forked
  /-- behind the `for` loop, at `if(pid > 0)` -/
  | branch
  /-- at the top of the loop that calls `wait` -/
  | parent
  /-- in the loop of the child -/
  | child
deriving DecidableEq, Repr

/-- What `wait` stores in `st`. -/
inductive Status where
  | exited (code : Nat)
  | signaled (sig : Nat)
deriving DecidableEq, Repr

structure Proc where
  ppid : Option Nat
  pc : Pc
  i : Nat
  pid : Int
  dead : Option Status
deriving DecidableEq, Repr

/-- The processes that have not been reaped, and the lines `child die` on the
    terminal, each with the status that was printed before it. -/
structure State where
  pids : List Nat
  proc : Nat → Proc
  reports : List (Nat × Status)

/-- The program is started as the process `r`; `pid` is not initialised. -/
def start (r : Nat) (pid : Int) : State where
  pids := [r]
  proc _ := ⟨none, .forLoop, 0, pid, none⟩
  reports := []

inductive Step where
  /-- `fork()` of `p` succeeds, `q` is the new process -/
  | fork (p q : Nat)
  /-- `fork()` of `p` returns -1 -/
  | forkErr (p : Nat)
  /-- the condition of the `for` loop is false -/
  | leave (p : Nat)
  /-- `if(pid == 0) break`, otherwise `i++` -/
  | test (p : Nat)
  /-- the `if` behind the loop -/
  | branch (p : Nat)
  /-- `wait` of `p` reaps `q` -/
  | wait (p q : Nat) (st : Status)
  /-- `wait` of `p` returns -1: it has no children -/
  | waitErr (p : Nat)
  /-- one pass of the child's loop -/
  | sleep (p : Nat)
  /-- a signal kills `p` -/
  | kill (p sig : Nat)
deriving DecidableEq, Repr

/-- `p` runs and is at `pc`. -/
def State.At (s : State) (p : Nat) (pc : Pc) : Prop :=
  p ∈ s.pids ∧ (s.proc p).dead = none ∧ (s.proc p).pc = pc

instance (s : State) (p : Nat) (pc : Pc) : Decidable (s.At p pc) :=
  inferInstanceAs (Decidable (_ ∧ _ ∧ _))

def Enabled (s : State) : Step → Prop
  | .fork p q => s.At p .forLoop ∧ (s.proc p).i < CHILDREN ∧ 0 < q ∧ q ∉ s.pids
  | .forkErr p => s.At p .forLoop ∧ (s.proc p).i < CHILDREN
  | .leave p => s.At p .forLoop ∧ CHILDREN ≤ (s.proc p).i
  | .test p => s.At p .forked
  | .branch p => s.At p .branch
  | .wait p q st =>
      s.At p .parent ∧ q ∈ s.pids ∧ (s.proc q).ppid = some p ∧ (s.proc q).dead = some st
  | .waitErr p => s.At p .parent ∧ ∀ q ∈ s.pids, (s.proc q).ppid ≠ some p
  | .sleep p => s.At p .child
  | .kill p _ => p ∈ s.pids ∧ (s.proc p).dead = none

instance (s : State) (l : Step) : Decidable (Enabled s l) :=
  match l with
  | .fork .. => inferInstanceAs (Decidable (_ ∧ _))
  | .forkErr _ => inferInstanceAs (Decidable (_ ∧ _))
  | .leave _ => inferInstanceAs (Decidable (_ ∧ _))
  | .test _ => inferInstanceAs (Decidable (State.At ..))
  | .branch _ => inferInstanceAs (Decidable (State.At ..))
  | .wait .. => inferInstanceAs (Decidable (_ ∧ _))
  | .waitErr _ => inferInstanceAs (Decidable (_ ∧ _))
  | .sleep _ => inferInstanceAs (Decidable (State.At ..))
  | .kill .. => inferInstanceAs (Decidable (_ ∧ _))

def Proc.test (P : Proc) : Proc :=
  if P.pid = 0 then { P with pc := .branch } else { P with pc := .forLoop, i := P.i + 1 }

def Proc.branch (P : Proc) : Proc :=
  if 0 < P.pid then
    { P with pc := .parent }
  else if P.pid = 0 then
    { P with pc := .child }
  else
    -- `return 0`
    { P with dead := some (.exited 0) }

def State.set (s : State) (p : Nat) (P : Proc) : State :=
  { s with proc := Function.update s.proc p P }

def next (s : State) : Step → State
  | .fork p q =>
      { (s.set p { s.proc p with pc := .forked, pid := q }).set q
          { s.proc p with ppid := some p, pc := .forked, pid := 0 } with
        pids := q :: s.pids }
  | .forkErr p => s.set p { s.proc p with pc := .forked, pid := -1 }
  | .leave p => s.set p { s.proc p with pc := .branch }
  | .test p => s.set p (s.proc p).test
  | .branch p => s.set p (s.proc p).branch
  | .wait _ q st => { s with pids := s.pids.erase q, reports := s.reports ++ [(q, st)] }
  -- `break`, and `return 0` behind the `if`
  | .waitErr p => s.set p { s.proc p with dead := some (.exited 0) }
  | .sleep _ => s
  | .kill p sig => s.set p { s.proc p with dead := some (.signaled sig) }

def step (s : State) (l : Step) : Option State :=
  if Enabled s l then some (next s l) else none

theorem step_eq_some {s s' : State} {l : Step} :
    step s l = some s' ↔ Enabled s l ∧ s' = next s l := by
  rw [step]
  by_cases hen : Enabled s l
  · rw [if_pos hen, Option.some.injEq]
    exact ⟨fun h => ⟨hen, h.symm⟩, fun h => h.2.symm⟩
  · rw [if_neg hen]
    exact ⟨fun h => absurd h (by simp), fun h => absurd h.1 hen⟩

/-! ## What `fork` has answered -/

def answer : Step → Option (Option Nat)
  | .fork _ q => some (some q)
  | .forkErr _ => some none
  | _ => none

/-- The answers of `fork` in a run, `none` for -1. -/
def answers (tr : List Step) : List (Option Nat) := tr.filterMap answer

/-- The processes that were created in a run. -/
def forks (tr : List Step) : List Nat := (answers tr).reduceOption

/-- What is in the variable `pid` of the caller. -/
def pidOf : Option Nat → Int
  | some q => q
  | none => -1

theorem answers_snoc (tr : List Step) (l : Step) :
    answers (tr ++ [l]) = answers tr ++ (answer l).toList := by
  rw [answers, List.filterMap_append, List.filterMap_cons]
  cases answer l <;> rfl

theorem answers_of_none {tr : List Step} {l : Step} (h : answer l = none) :
    answers (tr ++ [l]) = answers tr := by
  rw [answers_snoc, h]
  exact List.append_nil _

/-- Only `fork` makes processes. -/
theorem forks_of_not_fork {tr : List Step} {l : Step} (h : ∀ p q, l ≠ .fork p q) :
    forks (tr ++ [l]) = forks tr := by
  rw [forks, answers_snoc, List.reduceOption_append]
  cases l with
  | fork p q => exact absurd rfl (h p q)
  | _ => exact List.append_nil _

/-! ## The invariant -/

/-- A child: created with `pid` 0, it leaves the `for` loop and never returns. -/
structure Child (r : Nat) (P : Proc) : Prop where
  ppid : P.ppid = some r
  pid : P.pid = 0
  pc : P.pc = .forked ∨ P.pc = .branch ∨ P.pc = .child
  dead : ∀ code, P.dead ≠ some (.exited code)

/-- The first process, when `fork` has given `answers`. -/
structure Parent (r : Nat) (answers : List (Option Nat)) (s : State) (P : Proc) : Prop where
  ppid : P.ppid = none
  pc : P.pc ≠ .child
  positive : ∀ q, some q ∈ answers → 0 < q
  pid : ∀ a, answers.getLast? = some a → P.pid = pidOf a
  count : answers.length = P.i + if P.pc = .forked then 1 else 0
  bound : P.i + (if P.pc = .forked then 1 else 0) ≤ CHILDREN
  left : P.pc = .branch ∨ P.pc = .parent → P.i = CHILDREN
  quiet : P.pc ≠ .parent → s.reports = []
  waits : P.pc = .parent → 0 < P.pid
  returned : ∀ code, P.dead = some (.exited code) →
    P.pc = .branch ∧ P.pid < 0 ∨ P.pc = .parent ∧ ∀ q ∈ s.pids, q = r

structure Inv (r : Nat) (tr : List Step) (s : State) : Prop where
  root : r ∈ s.pids
  parent : Parent r (answers tr) s (s.proc r)
  children : ∀ q ∈ s.pids, q ≠ r → Child r (s.proc q)
  callers : ∀ p q, Step.fork p q ∈ tr → p = r
  /-- Nobody is lost: a process is there or has been reported. -/
  conserved : (r :: forks tr).Perm (s.pids ++ s.reports.map Prod.fst)
  nodup : (s.pids ++ s.reports.map Prod.fst).Nodup
  signaled : ∀ report ∈ s.reports, ∃ sig, report.2 = .signaled sig

theorem inv_start (r : Nat) (pid : Int) : Inv r [] (start r pid) := by
  constructor
  · exact List.mem_singleton_self r
  · constructor <;> simp [start, answers, CHILDREN]
  · intro q hq hne
    exact absurd (List.mem_singleton.mp hq) hne
  · intro p q h
    cases h
  · exact List.Perm.refl [r]
  · exact List.pairwise_singleton _ r
  · intro report h
    cases h

/-! ### The first process -/

section Parent

variable {r : Nat} {as : List (Option Nat)} {s s' : State} {P : Proc}

/-- It never takes itself for a child. -/
theorem Parent.pid_ne_zero (h : Parent r as s P) (has : as ≠ []) : P.pid ≠ 0 := by
  obtain ⟨a, ha⟩ := List.getLast?_isSome.mpr has |> Option.isSome_iff_exists.mp
  rw [h.pid a ha]
  cases a with
  | none => decide
  | some q =>
      have hq := h.positive q (List.mem_of_getLast? ha)
      show (q : Int) ≠ 0
      omega

/-- Behind `fork()`. -/
theorem Parent.forked (h : Parent r as s P) (hpc : P.pc = .forLoop) (hi : P.i < CHILDREN)
    (hdead : P.dead = none) (s' : State) (hreports : s'.reports = s.reports) {a : Option Nat}
    (ha : ∀ q, a = some q → 0 < q) :
    Parent r (as ++ [a]) s' { P with pc := .forked, pid := pidOf a } where
  ppid := h.ppid
  pc := by simp
  positive := by
    intro q hq
    rcases List.mem_append.mp hq with hq | hq
    · exact h.positive q hq
    · exact ha q (List.mem_singleton.mp hq).symm
  pid := by
    intro b hb
    rw [List.getLast?_concat, Option.some.injEq] at hb
    rw [hb]
  count := by
    have hcount := h.count
    rw [hpc] at hcount
    simpa using hcount
  bound := by
    rw [if_pos rfl]
    exact hi
  left := by simp
  quiet := by
    intro _
    rw [hreports]
    exact h.quiet (by rw [hpc]; decide)
  waits := by simp
  returned := by simp [hdead]

theorem Parent.leave (h : Parent r as s P) (hpc : P.pc = .forLoop) (hi : CHILDREN ≤ P.i)
    (hdead : P.dead = none) : Parent r as s { P with pc := .branch } where
  ppid := h.ppid
  pc := by simp
  positive := h.positive
  pid := h.pid
  count := by
    have hcount := h.count
    rw [hpc] at hcount
    simpa using hcount
  bound := by
    have hbound := h.bound
    rw [hpc] at hbound
    simpa using hbound
  left := by
    have hbound := h.bound
    rw [hpc] at hbound
    have hle : P.i ≤ CHILDREN := by simpa using hbound
    exact fun _ => Nat.le_antisymm hle hi
  quiet := fun _ => h.quiet (by rw [hpc]; decide)
  waits := by simp
  returned := by simp [hdead]

theorem Parent.test (h : Parent r as s P) (hpc : P.pc = .forked) (hdead : P.dead = none) :
    Parent r as s P.test := by
  have hcount := h.count
  have hbound := h.bound
  rw [hpc, if_pos rfl] at hcount hbound
  have has : as ≠ [] := by
    rintro rfl
    rw [List.length_nil] at hcount
    omega
  rw [Proc.test, if_neg (h.pid_ne_zero has)]
  exact
    { ppid := h.ppid
      pc := by simp
      positive := h.positive
      pid := h.pid
      count := by simpa using hcount
      bound := by simpa using hbound
      left := by simp
      quiet := fun _ => h.quiet (by rw [hpc]; decide)
      waits := by simp
      returned := by simp [hdead] }

/-- The `if` behind the loop: `wait` if the last child was created, otherwise
    the process returns. -/
theorem Parent.branch (h : Parent r as s P) (hpc : P.pc = .branch) (hdead : P.dead = none) :
    Parent r as s P.branch := by
  have hi := h.left (Or.inl hpc)
  have hcount := h.count
  rw [hpc, if_neg (by decide), hi] at hcount
  have has : as ≠ [] := by
    rintro rfl
    exact absurd hcount (by decide)
  have hquiet := h.quiet (by rw [hpc]; decide)
  rw [Proc.branch]
  by_cases hpos : 0 < P.pid
  · rw [if_pos hpos]
    exact
      { ppid := h.ppid
        pc := by simp
        positive := h.positive
        pid := h.pid
        count := by simpa [hi] using hcount
        bound := by simp [hi]
        left := fun _ => hi
        quiet := fun _ => hquiet
        waits := fun _ => hpos
        returned := by simp [hdead] }
  · -- `pid` is not 0, so this is the answer of a `fork()` that failed
    have hneg : P.pid < 0 := by
      have hzero := h.pid_ne_zero has
      omega
    rw [if_neg hpos, if_neg (h.pid_ne_zero has)]
    exact { h with returned := fun _ _ => Or.inl ⟨hpc, hneg⟩ }

/-- When it has returned, `fork` has been called five times, and the last
    answer is in `pid`. -/
theorem Parent.last_answer (h : Parent r as s P) {code : Nat}
    (hdead : P.dead = some (.exited code)) :
    as.length = CHILDREN ∧ ∃ a, as.getLast? = some a ∧ P.pid = pidOf a := by
  have hleft : P.pc = .branch ∨ P.pc = .parent :=
    (h.returned code hdead).imp And.left And.left
  have hcount : as.length = CHILDREN := by
    rw [h.count, h.left hleft, if_neg]
    · rfl
    · rcases hleft with hpc | hpc <;> rw [hpc] <;> decide
  refine ⟨hcount, ?_⟩
  obtain ⟨a, ha⟩ : ∃ a, as.getLast? = some a := by
    rw [← Option.isSome_iff_exists, List.getLast?_isSome]
    rintro rfl
    exact absurd hcount (by decide)
  exact ⟨a, ha, h.pid a ha⟩

/-- A child has been reaped. -/
theorem Parent.reaped (h : Parent r as s P) (hpc : P.pc = .parent) (hdead : P.dead = none) :
    Parent r as s' P :=
  { h with
    quiet := fun hne => absurd hpc hne
    returned := by simp [hdead] }

end Parent

/-! ### Steps -/

section Steps

variable {r p q : Nat} {tr : List Step} {s : State} {l : Step} {P : Proc}

theorem set_proc_self : (s.set p P).proc p = P := by
  simp [State.set]

theorem set_proc_of_ne (h : q ≠ p) : (s.set p P).proc q = s.proc q := by
  simp [State.set, h]

/-- Only the first process is ever where the children never are. -/
theorem Inv.eq_root {pc : Pc} (h : Inv r tr s) (hat : s.At p pc)
    (hpc : pc = .forLoop ∨ pc = .parent) : p = r := by
  by_contra hne
  have hchild := (h.children p hat.1 hne).pc
  rw [hat.2.2] at hchild
  rcases hpc with rfl | rfl <;> simp at hchild

/-- A step that changes one process. -/
theorem Inv.set (h : Inv r tr s) (hl : ∀ p q, l ≠ .fork p q)
    (hparent : Parent r (answers (tr ++ [l])) s ((s.set p P).proc r))
    (hchild : p ∈ s.pids → p ≠ r → Child r P) : Inv r (tr ++ [l]) (s.set p P) where
  root := h.root
  parent := { hparent with }
  children := by
    intro q hq hne
    by_cases hqp : q = p
    · subst hqp
      rw [set_proc_self]
      exact hchild hq hne
    · rw [set_proc_of_ne hqp]
      exact h.children q hq hne
  callers := by
    intro p' q' hmem
    rcases List.mem_append.mp hmem with hmem | hmem
    · exact h.callers p' q' hmem
    · exact absurd (List.mem_singleton.mp hmem).symm (hl p' q')
  conserved := by
    rw [forks_of_not_fork hl]
    exact h.conserved
  nodup := h.nodup
  signaled := h.signaled

/-- A step of one process that is not a `fork()`. -/
theorem Inv.own (h : Inv r tr s) (hl : answer l = none)
    (hparent : Parent r (answers tr) s (s.proc r) → p = r → Parent r (answers tr) s P)
    (hchild : p ≠ r → Child r (s.proc p) → Child r P) : Inv r (tr ++ [l]) (s.set p P) := by
  have hnot : ∀ p q, l ≠ .fork p q := by
    rintro p q rfl
    cases hl
  apply h.set hnot
  · rw [answers_of_none hl]
    by_cases hp : r = p
    · subst hp
      rw [set_proc_self]
      exact hparent h.parent rfl
    · rw [set_proc_of_ne hp]
      exact h.parent
  · intro hmem hne
    exact hchild hne (h.children p hmem hne)

/-- `fork()` succeeds. -/
theorem Inv.fork (h : Inv r tr s) (hen : Enabled s (.fork p q)) :
    Inv r (tr ++ [.fork p q]) (next s (.fork p q)) := by
  obtain ⟨hat, hi, hq, hfresh⟩ := hen
  obtain rfl := h.eq_root hat (Or.inl rfl)
  have hne : p ≠ q := fun hpq => hfresh (hpq ▸ hat.1)
  -- nothing has been reaped yet, so `q` is new among the reported ones, too
  have hquiet : s.reports = [] := h.parent.quiet (by rw [hat.2.2]; decide)
  have hforks : forks (tr ++ [.fork p q]) = forks tr ++ [q] := by
    rw [forks, answers_snoc, List.reduceOption_append]
    rfl
  constructor
  · exact List.mem_cons_of_mem q h.root
  · have hproc : (next s (.fork p q)).proc p = { s.proc p with pc := .forked, pid := q } := by
      rw [next]
      exact (set_proc_of_ne hne).trans set_proc_self
    rw [hproc, answers_snoc]
    refine h.parent.forked hat.2.2 hi hat.2.1 (next s (.fork p q)) rfl (a := some q) ?_
    rintro _ ⟨⟩
    exact hq
  · intro x hx hxp
    rcases List.mem_cons.mp hx with rfl | hx
    · have hproc : (next s (.fork p x)).proc x
          = { s.proc p with ppid := some p, pc := .forked, pid := 0 } := set_proc_self
      rw [hproc]
      exact ⟨rfl, rfl, Or.inl rfl, by simp [hat.2.1]⟩
    · have hxq : x ≠ q := fun hxq => hfresh (hxq ▸ hx)
      have hproc : (next s (.fork p q)).proc x = s.proc x :=
        (set_proc_of_ne hxq).trans (set_proc_of_ne hxp)
      rw [hproc]
      exact h.children x hx hxp
  · intro p' q' hmem
    rcases List.mem_append.mp hmem with hmem | hmem
    · exact h.callers p' q' hmem
    · cases List.mem_singleton.mp hmem
      rfl
  · have hconserved := h.conserved
    rw [hquiet, List.map_nil, List.append_nil] at hconserved
    show (p :: forks (tr ++ [.fork p q])).Perm (q :: s.pids ++ s.reports.map Prod.fst)
    rw [hforks, hquiet, List.map_nil, List.append_nil, ← List.cons_append]
    exact (List.perm_append_singleton q _).trans (hconserved.cons q)
  · have hnodup := h.nodup
    rw [hquiet, List.map_nil, List.append_nil] at hnodup
    show (q :: s.pids ++ s.reports.map Prod.fst).Nodup
    rw [hquiet, List.map_nil, List.append_nil]
    exact List.nodup_cons.mpr ⟨hfresh, hnodup⟩
  · exact h.signaled

/-- `wait` reaps a child. -/
theorem Inv.wait {st : Status} (h : Inv r tr s) (hen : Enabled s (.wait p q st)) :
    Inv r (tr ++ [.wait p q st]) (next s (.wait p q st)) := by
  obtain ⟨hat, hq, hppid, hdead⟩ := hen
  obtain rfl := h.eq_root hat (Or.inr rfl)
  have hne : q ≠ p := by
    rintro rfl
    rw [h.parent.ppid] at hppid
    cases hppid
  -- the child moves from the table to the reports
  have hmoved : (s.pids.erase q ++ (s.reports ++ [(q, st)]).map Prod.fst).Perm
      (s.pids ++ s.reports.map Prod.fst) := by
    rw [List.map_append, ← List.append_assoc]
    refine (List.perm_append_singleton q _).trans ?_
    rw [← List.cons_append]
    exact (List.perm_cons_erase hq).symm.append_right _
  constructor
  · exact (List.mem_erase_of_ne hne.symm).mpr h.root
  · rw [answers_of_none rfl]
    exact h.parent.reaped hat.2.2 hat.2.1
  · intro x hx hxp
    exact h.children x (List.mem_of_mem_erase hx) hxp
  · intro p' q' hmem
    rcases List.mem_append.mp hmem with hmem | hmem
    · exact h.callers p' q' hmem
    · cases List.mem_singleton.mp hmem
  · rw [forks_of_not_fork (by simp)]
    exact h.conserved.trans hmoved.symm
  · exact hmoved.nodup_iff.mpr h.nodup
  · intro report hmem
    rcases List.mem_append.mp hmem with hmem | hmem
    · exact h.signaled report hmem
    · obtain rfl := List.mem_singleton.mp hmem
      cases st with
      | exited code => exact absurd hdead ((h.children q hq hne).dead code)
      | signaled sig => exact ⟨sig, rfl⟩

theorem Inv.next (h : Inv r tr s) (hen : Enabled s l) : Inv r (tr ++ [l]) (next s l) := by
  cases l with
  | fork p q => exact h.fork hen
  | forkErr p =>
      obtain ⟨hat, hi⟩ := hen
      obtain rfl := h.eq_root hat (Or.inl rfl)
      apply h.set (by simp)
      · rw [set_proc_self, answers_snoc]
        exact h.parent.forked hat.2.2 hi hat.2.1 s rfl (a := none) (by simp)
      · intro _ hne
        exact absurd rfl hne
  | leave p =>
      obtain ⟨hat, hi⟩ := hen
      obtain rfl := h.eq_root hat (Or.inl rfl)
      refine h.own rfl (fun hparent _ => hparent.leave hat.2.2 hi hat.2.1) ?_
      intro hne _
      exact absurd rfl hne
  | test p =>
      refine h.own rfl ?_ ?_
      · rintro hparent rfl
        exact hparent.test hen.2.2 hen.2.1
      · intro _ hchild
        rw [Proc.test, if_pos hchild.pid]
        exact { hchild with pc := Or.inr (Or.inl rfl) }
  | branch p =>
      refine h.own rfl ?_ ?_
      · rintro hparent rfl
        exact hparent.branch hen.2.2 hen.2.1
      · intro _ hchild
        have hpid := hchild.pid
        rw [Proc.branch, if_neg (by omega), if_pos hpid]
        exact { hchild with pc := Or.inr (Or.inr rfl) }
  | wait p q st => exact h.wait hen
  | waitErr p =>
      obtain ⟨hat, hnone⟩ := hen
      obtain rfl := h.eq_root hat (Or.inr rfl)
      -- everybody else would be a child of `p`
      have halone : ∀ q ∈ s.pids, q = p := by
        intro q hq
        by_contra hne
        exact hnone q hq (h.children q hq hne).ppid
      refine h.own rfl ?_ ?_
      · intro hparent _
        exact { hparent with returned := fun _ _ => Or.inr ⟨hat.2.2, halone⟩ }
      · intro hne _
        exact absurd rfl hne
  | sleep p =>
      have hself : s.set p (s.proc p) = s := by simp [State.set]
      have hkeep := h.own (l := .sleep p) (p := p) rfl (P := s.proc p) ?_ (fun _ hchild => hchild)
      · rw [hself] at hkeep
        exact hkeep
      · rintro hparent rfl
        exact hparent
  | kill p sig =>
      refine h.own rfl ?_ ?_
      · rintro hparent rfl
        exact { hparent with returned := by simp }
      · intro _ hchild
        exact { hchild with dead := by simp }

/-- The first process is alone when nobody else is left. -/
theorem Inv.pids_eq (h : Inv r tr s) (halone : ∀ q ∈ s.pids, q = r) : s.pids = [r] := by
  have hnodup : s.pids.Nodup := (List.nodup_append.mp h.nodup).1
  rw [List.eq_replicate_of_mem halone] at hnodup ⊢
  have hle := List.nodup_replicate.mp hnodup
  have hpos := List.length_pos_of_mem h.root
  rw [show s.pids.length = 1 by omega]
  rfl

end Steps

/-- In every state of every run. -/
theorem inv_of_exec {r : Nat} {pid : Int} {tr : List Step} {s : State}
    (h : exec step (start r pid) tr = some s) : Inv r tr s := by
  refine exec_history (inv_start r pid) ?_ h
  intro tr s l s' hinv hl
  obtain ⟨hen, rfl⟩ := step_eq_some.mp hl
  exact hinv.next hen

/-! ## What the parent leaves -/

/-- **wait.c.**  In every run, whatever `fork` answers and whoever is killed
    when: only the first process forks, and not more than five times.  When it
    has returned, it has called `fork` five times.  If the last call failed, no
    child has been reaped.  Otherwise every child has been, each of them once
    and killed by a signal, and no process is left but the first. -/
theorem parent_reaps (r : Nat) (pid : Int) (tr : List Step) (s : State)
    (h : exec step (start r pid) tr = some s) :
    (∀ p q, Step.fork p q ∈ tr → p = r) ∧ (answers tr).length ≤ CHILDREN ∧ (forks tr).Nodup ∧
      ∀ code, (s.proc r).dead = some (.exited code) →
        (answers tr).length = CHILDREN ∧
        ((answers tr).getLast? = some none ∧ s.reports = [] ∧ s.pids.Perm (r :: forks tr) ∨
          (∃ q, (answers tr).getLast? = some (some q)) ∧ s.pids = [r] ∧
            (s.reports.map Prod.fst).Perm (forks tr) ∧
            ∀ report ∈ s.reports, ∃ sig, report.2 = .signaled sig) := by
  have hinv := inv_of_exec h
  have hparent := hinv.parent
  have hnodup : (r :: forks tr).Nodup := hinv.conserved.nodup_iff.mpr hinv.nodup
  refine ⟨hinv.callers, hparent.count ▸ hparent.bound, (List.nodup_cons.mp hnodup).2, ?_⟩
  intro code hdead
  obtain ⟨hcount, a, ha, hpid⟩ := hparent.last_answer hdead
  refine ⟨hcount, ?_⟩
  rcases hparent.returned code hdead with ⟨hpc, hneg⟩ | ⟨hpc, halone⟩
  · left
    have hquiet := hparent.quiet (by rw [hpc]; decide)
    have hconserved := hinv.conserved
    rw [hquiet, List.map_nil, List.append_nil] at hconserved
    cases a with
    | none => exact ⟨ha, hquiet, hconserved.symm⟩
    | some q =>
        have hq : (s.proc r).pid = q := hpid
        omega
  · right
    have hpids := hinv.pids_eq halone
    have hconserved := hinv.conserved
    rw [hpids, List.singleton_append, List.perm_cons] at hconserved
    cases a with
    | none =>
        have hminus : (s.proc r).pid = -1 := hpid
        have hpos := hparent.waits hpc
        omega
    | some q => exact ⟨⟨q, ha⟩, hpids, hconserved.symm, hinv.signaled⟩

/-- Four children, the fifth `fork` fails, and the parent returns. -/
def lastFails : List Step :=
  [.fork 1 2, .test 1, .fork 1 3, .test 1, .test 2, .kill 2 9, .fork 1 4, .test 1, .fork 1 5,
    .test 1, .forkErr 1, .test 1, .leave 1, .branch 1]

theorem parent_reaps_lastFails :
    ∃ s, exec step (start 1 0) lastFails = some s ∧ s.reports = [] ∧ s.pids.Perm [1, 2, 3, 4, 5] := by
  obtain ⟨s, hrun, hdead⟩ : ∃ s, exec step (start 1 0) lastFails = some s ∧
      (s.proc 1).dead = some (.exited 0) := ⟨_, rfl, rfl⟩
  obtain ⟨-, -, -, hreturned⟩ := parent_reaps 1 0 lastFails s hrun
  rcases hreturned 0 hdead with ⟨-, ⟨-, hreports, hpids⟩ | ⟨⟨q, hq⟩, -⟩⟩
  · exact ⟨s, hrun, hreports, hpids⟩
  · have hlast : (answers lastFails).getLast? = some none := rfl
    rw [hlast] at hq
    cases hq

end WebServer.Wait
