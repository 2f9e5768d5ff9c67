/-
  WebServer.Lessons.CopyFile

  The program of lesson1.22, copyfile.c: `english.txt` is copied to `cpy.txt`
  through a buffer of 1024 bytes.

  A step is one system call with its answer: `read` may return fewer bytes
  than the buffer holds, `write` may write fewer than it is given, and both
  may fail.  The program looks at no answer of `write`, and takes an error of
  `read` for the end of the file.  `cpy.txt` is opened without `O_TRUNC`.

  What it then holds is what the calls of `write` have taken from the buffer
  (`written`), followed by what was there before from that offset on
  (`copy_result`).  All of the source is written exactly if no `write` was
  short and no `read` failed before the end, however the file is cut into
  reads; and then the copy is exact if `cpy.txt` was not the longer file.  The
  program returns 0 in all of these cases.
-/

import WebServer.Lib.Exec

namespace WebServer.CopyFile

open WebServer.Lib

/-! ## The source -/

/-- `char buf[1024]` -/
def BUF_SIZE : Nat := 1024

/-- The next system call, or the code that `main` has returned. -/
inductive Pc where
  | openSrc
  | openDest
  | read
  | write (len : Nat)
  | returned (code : Int)
deriving DecidableEq, Repr

/-- `dest` is `none` as long as there is no file `cpy.txt`. -/
structure State where
  pc : Pc
  src : List UInt8
  srcPos : Nat
  dest : Option (List UInt8)
  destPos : Nat
  buf : List UInt8
deriving DecidableEq, Repr

def start (src : List UInt8) (dest : Option (List UInt8)) : State where
  pc := .openSrc
  src := src
  srcPos := 0
  dest := dest
  destPos := 0
  buf := List.replicate BUF_SIZE 0

inductive Step where
  | openSrc (ok : Bool)
  | openDest (ok : Bool)
  | read (n : Nat)
  | readErr
  | write (n : Nat)
  | writeErr
deriving DecidableEq, Repr

/-- `write(fd, bytes, ...)` at the offset `pos`; a gap would read as zeros. -/
def writeAt (contents : List UInt8) (pos : Nat) (bytes : List UInt8) : List UInt8 :=
  contents.take pos ++ List.replicate (pos - contents.length) 0 ++ bytes
    ++ contents.drop (pos + bytes.length)

/-- One system call, and what the program does up to the next one; `none` if
    the kernel cannot answer like that. -/
def step (s : State) (l : Step) : Option State :=
  match s.pc, l with
  | .openSrc, .openSrc ok => some { s with pc := if ok then .openDest else .returned (-1) }
  | .openDest, .openDest true => some { s with pc := .read, dest := some (s.dest.getD []) }
  | .openDest, .openDest false => some { s with pc := .returned (-1) }
  | .read, .read n =>
      if n ≤ BUF_SIZE ∧ s.srcPos + n ≤ s.src.length then
        if 0 < n then
          some { s with
            pc := .write n
            srcPos := s.srcPos + n
            buf := (s.src.drop s.srcPos).take n ++ s.buf.drop n }
        else if s.src.length ≤ s.srcPos then
          -- the end of the file
          some { s with pc := .returned 0 }
        else
          none
      else
        none
  | .read, .readErr => some { s with pc := .returned 0 }
  | .write len, .write n =>
      if n ≤ len then
        some { s with
          pc := .read
          dest := s.dest.map fun contents => writeAt contents s.destPos (s.buf.take n)
          destPos := s.destPos + n }
      else
        none
  | .write _, .writeErr => some { s with pc := .read }
  | _, _ => none

/-- The bytes that a step writes. -/
def bytesWritten (s : State) : Step → List UInt8
  | .write n => s.buf.take n
  | _ => []

/-- The bytes that a run has written, in order. -/
def written (src : List UInt8) (old : Option (List UInt8)) (tr : List Step) : List UInt8 :=
  absTrace step bytesWritten (start src old) tr

/-- Steps in which nothing gets lost. -/
def Whole (s : State) : Step → Prop
  | .readErr => s.src.length ≤ s.srcPos
  | .write n => s.pc = .write n
  | .writeErr => False
  | _ => True

/-! ## Steps -/

/-- What a step can do. -/
inductive Move (s : State) : Step → State → Prop where
  | failed {l : Step} (hpc : s.pc = .openSrc ∨ s.pc = .openDest) :
      Move s l { s with pc := .returned (-1) }
  | opened (hpc : s.pc = .openSrc) : Move s (.openSrc true) { s with pc := .openDest }
  | ready (hpc : s.pc = .openDest) :
      Move s (.openDest true) { s with pc := .read, dest := some (s.dest.getD []) }
  | read {n : Nat} (hpc : s.pc = .read) (hn : s.srcPos + n ≤ s.src.length) (hpos : 0 < n) :
      Move s (.read n) { s with
        pc := .write n
        srcPos := s.srcPos + n
        buf := (s.src.drop s.srcPos).take n ++ s.buf.drop n }
  | eof (hpc : s.pc = .read) (hend : s.src.length ≤ s.srcPos) :
      Move s (.read 0) { s with pc := .returned 0 }
  | readErr (hpc : s.pc = .read) : Move s .readErr { s with pc := .returned 0 }
  | write {len n : Nat} (hpc : s.pc = .write len) (hn : n ≤ len) :
      Move s (.write n) { s with
        pc := .read
        dest := s.dest.map fun contents => writeAt contents s.destPos (s.buf.take n)
        destPos := s.destPos + n }
  | writeErr {len : Nat} (hpc : s.pc = .write len) : Move s .writeErr { s with pc := .read }

theorem move_of_step {s s' : State} {l : Step} (h : step s l = some s') : Move s l s' := by
  unfold step at h
  split at h
  case h_1 ok hpc =>
    obtain rfl := Option.some.inj h
    cases ok with
    | true => exact .opened hpc
    | false => exact .failed (Or.inl hpc)
  case h_2 hpc =>
    obtain rfl := Option.some.inj h
    exact .ready hpc
  case h_3 hpc =>
    obtain rfl := Option.some.inj h
    exact .failed (Or.inr hpc)
  case h_4 n hpc =>
    by_cases hn : n ≤ BUF_SIZE ∧ s.srcPos + n ≤ s.src.length
    · rw [if_pos hn] at h
      by_cases hpos : 0 < n
      · rw [if_pos hpos] at h
        obtain rfl := Option.some.inj h
        exact .read hpc hn.2 hpos
      · rw [if_neg hpos] at h
        obtain rfl : n = 0 := by omega
        by_cases hend : s.src.length ≤ s.srcPos
        · rw [if_pos hend] at h
          obtain rfl := Option.some.inj h
          exact .eof hpc hend
        · rw [if_neg hend] at h
          cases h
    · rw [if_neg hn] at h
      cases h
  case h_5 hpc =>
    obtain rfl := Option.some.inj h
    exact .readErr hpc
  case h_6 len n hpc =>
    by_cases hn : n ≤ len
    · rw [if_pos hn] at h
      obtain rfl := Option.some.inj h
      exact .write hpc hn
    · rw [if_neg hn] at h
      cases h
  case h_7 len hpc =>
    obtain rfl := Option.some.inj h
    exact .writeErr hpc
  case h_8 => cases h

/-! ## The invariant -/

section Copy

variable {src : List UInt8} {old : Option (List UInt8)}

/-- What `cpy.txt` holds when `bytes` have been written over it. -/
def overlay (old : Option (List UInt8)) (bytes : List UInt8) : List UInt8 :=
  bytes ++ (old.getD []).drop bytes.length

/-- The file offset is behind what was written. -/
theorem writeAt_overlay (old : Option (List UInt8)) (before bytes : List UInt8) :
    writeAt (overlay old before) before.length bytes = overlay old (before ++ bytes) := by
  have hgap : before.length - (overlay old before).length = 0 := by
    rw [overlay, List.length_append]
    omega
  have hdrop : (overlay old before).drop (before.length + bytes.length)
      = (old.getD []).drop (before ++ bytes).length := by
    rw [overlay, ← List.drop_drop, List.drop_left, List.drop_drop, List.length_append]
  rw [writeAt, hgap, hdrop, overlay, List.take_left, List.replicate_zero, List.append_nil, overlay]

/-- How much of the first `pos` bytes has come through: all of them if nothing
    was lost, fewer otherwise. -/
def Through (src : List UInt8) (old : Option (List UInt8)) (tr : List Step) (pos : Nat) : Prop :=
  AllSteps step Whole (start src old) tr ∧ written src old tr = src.take pos ∨
    ¬ AllSteps step Whole (start src old) tr ∧ (written src old tr).length < pos

/-- `cpy.txt` holds what was written, and the file offset is behind it. -/
structure Written (src : List UInt8) (old : Option (List UInt8)) (tr : List Step) (s : State) :
    Prop where
  pos : s.destPos = (written src old tr).length
  contents : s.dest = some (overlay old (written src old tr))

/-- In the state `s` behind `tr`. -/
inductive Phase (src : List UInt8) (old : Option (List UInt8)) (tr : List Step) (s : State) : Prop where
  | opening (hpc : s.pc = .openSrc ∨ s.pc = .openDest) (hsrc : s.srcPos = 0) (hdest : s.destPos = 0)
      (hold : s.dest = old) (hnone : written src old tr = [])
      (hwhole : AllSteps step Whole (start src old) tr)
  | failed (hpc : s.pc = .returned (-1)) (hold : s.dest = old)
  | reading (hpc : s.pc = .read) (hsrc : s.srcPos ≤ src.length) (hwritten : Written src old tr s)
      (hthrough : Through src old tr s.srcPos)
  | writing (len pos : Nat) (hpc : s.pc = .write len) (hlen : 0 < len)
      (hsrc : s.srcPos = pos + len) (hle : pos + len ≤ src.length)
      (hbuf : s.buf.take len = (src.drop pos).take len) (hwritten : Written src old tr s)
      (hthrough : Through src old tr pos)
  | returned (hpc : s.pc = .returned 0) (hwritten : Written src old tr s)
      (hthrough : Through src old tr src.length)

structure Inv (src : List UInt8) (old : Option (List UInt8)) (tr : List Step) (s : State) : Prop where
  run : exec step (start src old) tr = some s
  src_eq : s.src = src
  phase : Phase src old tr s

variable {tr : List Step} {s s' : State} {l : Step}

theorem written_snoc (hrun : exec step (start src old) tr = some s) :
    written src old (tr ++ [l]) = written src old tr ++ bytesWritten s l :=
  absTrace_snoc hrun

/-- A step that writes nothing. -/
theorem Written.keep (h : Written src old tr s) (hrun : exec step (start src old) tr = some s)
    (hl : bytesWritten s l = []) (hpos : s'.destPos = s.destPos) (hdest : s'.dest = s.dest) :
    Written src old (tr ++ [l]) s' := by
  have hsame := written_snoc (l := l) hrun
  rw [hl, List.append_nil] at hsame
  refine ⟨?_, ?_⟩
  · rw [hpos, hsame]
    exact h.pos
  · rw [hdest, hsame]
    exact h.contents

/-- The next `n` bytes, of which the step writes some. -/
theorem Through.snoc {pos n : Nat} (hrun : exec step (start src old) tr = some s)
    (h : Through src old tr pos) (hlen : (bytesWritten s l).length ≤ n)
    (hwhole : Whole s l → bytesWritten s l = (src.drop pos).take n)
    (hloss : ¬ Whole s l → (bytesWritten s l).length < n) :
    Through src old (tr ++ [l]) (pos + n) := by
  rw [Through, allSteps_snoc hrun, written_snoc hrun, List.length_append]
  by_cases hl : Whole s l
  · rcases h with ⟨hall, hwritten⟩ | ⟨hall, hless⟩
    · left
      refine ⟨⟨hall, hl⟩, ?_⟩
      rw [hwritten, hwhole hl, List.take_add]
    · right
      exact ⟨fun hboth => hall hboth.1, by omega⟩
  · -- from here on too little has come through
    right
    refine ⟨fun hboth => hl hboth.2, ?_⟩
    have hle : (written src old tr).length ≤ pos := by
      rcases h with ⟨-, hwritten⟩ | ⟨-, hless⟩
      · rw [hwritten]
        exact List.length_take_le pos src
      · omega
    have hless := hloss hl
    omega

/-- A step in which no byte is written and none is lost. -/
theorem Through.keep {pos : Nat} (hrun : exec step (start src old) tr = some s)
    (h : Through src old tr pos) (hnone : bytesWritten s l = []) (hl : Whole s l) :
    Through src old (tr ++ [l]) pos := by
  refine h.snoc (l := l) (n := 0) hrun ?_ ?_ (fun hnot => absurd hl hnot)
  · rw [hnone]
    exact Nat.le_refl 0
  · intro _
    rw [hnone, List.take_zero]

/-- The steps before the loop. -/
theorem Inv.opening (h : Inv src old tr s) (hpc : s.pc = .openSrc ∨ s.pc = .openDest) :
    s.srcPos = 0 ∧ s.destPos = 0 ∧ s.dest = old ∧ written src old tr = [] ∧
      AllSteps step Whole (start src old) tr := by
  cases h.phase with
  | opening _ hsrc hdest hold hnone hwhole => exact ⟨hsrc, hdest, hold, hnone, hwhole⟩
  | failed hpc' _ => simp [hpc'] at hpc
  | reading hpc' => simp [hpc'] at hpc
  | writing _ _ hpc' => simp [hpc'] at hpc
  | returned hpc' => simp [hpc'] at hpc

theorem Inv.reading (h : Inv src old tr s) (hpc : s.pc = .read) :
    s.srcPos ≤ src.length ∧ Written src old tr s ∧ Through src old tr s.srcPos := by
  cases h.phase with
  | opening hpc' => simp [hpc] at hpc'
  | failed hpc' _ => simp [hpc] at hpc'
  | reading _ hsrc hwritten hthrough => exact ⟨hsrc, hwritten, hthrough⟩
  | writing _ _ hpc' => simp [hpc] at hpc'
  | returned hpc' => simp [hpc] at hpc'

theorem Inv.writing {len : Nat} (h : Inv src old tr s) (hpc : s.pc = .write len) :
    ∃ pos, 0 < len ∧ s.srcPos = pos + len ∧ pos + len ≤ src.length ∧
      s.buf.take len = (src.drop pos).take len ∧ Written src old tr s ∧ Through src old tr pos := by
  cases h.phase with
  | opening hpc' => simp [hpc] at hpc'
  | failed hpc' _ => simp [hpc] at hpc'
  | reading hpc' => simp [hpc] at hpc'
  | writing len' pos hpc' hlen hsrc hle hbuf hwritten hthrough =>
      obtain rfl : len = len' := by simpa [hpc] using hpc'
      exact ⟨pos, hlen, hsrc, hle, hbuf, hwritten, hthrough⟩
  | returned hpc' => simp [hpc] at hpc'

/-- An error of `read` is taken for the end of the file. -/
theorem Inv.move_readErr (h : Inv src old tr s) (hpc : s.pc = .read) :
    Phase src old (tr ++ [.readErr]) { s with pc := .returned 0 } := by
  obtain ⟨hsrc, hwritten, hthrough⟩ := h.reading hpc
  have hsnoc := hthrough.snoc (l := .readErr) (n := src.length - s.srcPos) h.run
    (Nat.zero_le _) ?_ ?_
  · rw [Nat.add_sub_cancel' hsrc] at hsnoc
    exact .returned rfl (hwritten.keep h.run rfl rfl rfl) hsnoc
  · intro hend
    have hend' : src.length ≤ s.srcPos := h.src_eq ▸ hend
    rw [Nat.sub_eq_zero_of_le hend', List.take_zero]
    rfl
  · intro hmore
    have hmore' : ¬ src.length ≤ s.srcPos := h.src_eq ▸ hmore
    show 0 < src.length - s.srcPos
    omega

/-- `write` appends to what was written; the rest of the buffer is lost. -/
theorem Inv.move_write {len n : Nat} (h : Inv src old tr s) (hpc : s.pc = .write len)
    (hn : n ≤ len) :
    Phase src old (tr ++ [.write n]) { s with
      pc := .read
      dest := s.dest.map fun contents => writeAt contents s.destPos (s.buf.take n)
      destPos := s.destPos + n } := by
  obtain ⟨pos, hlen, hsrc, hle, hbuf, hwritten, hthrough⟩ := h.writing hpc
  -- the last `read` has filled the buffer up to `len`
  have hbytes : (s.buf.take n).length = n := by
    have hfull := congrArg List.length hbuf
    rw [List.length_take, List.length_take, List.length_drop] at hfull
    rw [List.length_take]
    omega
  have hsnoc : written src old (tr ++ [.write n]) = written src old tr ++ s.buf.take n :=
    written_snoc h.run
  refine .reading rfl (hsrc ▸ hle) ⟨?_, ?_⟩ ?_
  · show s.destPos + n = _
    rw [hsnoc, List.length_append, hbytes, hwritten.pos]
  · show s.dest.map _ = _
    rw [hwritten.contents, Option.map_some, hwritten.pos, writeAt_overlay, hsnoc]
  · show Through src old (tr ++ [.write n]) s.srcPos
    rw [hsrc]
    refine hthrough.snoc h.run (Nat.le_trans (Nat.le_of_eq hbytes) hn) ?_ ?_
    · intro hwhole
      have hfull : s.pc = .write n := hwhole
      obtain rfl : len = n := by simpa [hpc] using hfull
      exact hbuf
    · intro hshort
      have hne : n ≠ len := fun heq => hshort (heq ▸ hpc)
      show (s.buf.take n).length < len
      omega

/-- Step lemma. -/
theorem Inv.move (h : Inv src old tr s) (hmove : Move s l s') : Phase src old (tr ++ [l]) s' := by
  have hrun := h.run
  cases hmove with
  | failed hpc =>
      obtain ⟨-, -, hold, -⟩ := h.opening hpc
      exact .failed rfl hold
  | opened hpc =>
      obtain ⟨hsrc, hdest, hold, hnone, hwhole⟩ := h.opening (Or.inl hpc)
      refine .opening (Or.inr rfl) hsrc hdest hold ?_ ((allSteps_snoc hrun).mpr ⟨hwhole, trivial⟩)
      rw [written_snoc hrun, hnone]
      rfl
  | ready hpc =>
      obtain ⟨hsrc, hdest, hold, hnone, hwhole⟩ := h.opening (Or.inr hpc)
      have hnone' : written src old (tr ++ [.openDest true]) = [] := by
        rw [written_snoc hrun, hnone]
        rfl
      refine .reading rfl (hsrc ▸ Nat.zero_le _) ⟨?_, ?_⟩ ?_
      · rw [hnone']
        exact hdest
      · rw [hnone', hold]
        rfl
      · left
        refine ⟨(allSteps_snoc hrun).mpr ⟨hwhole, trivial⟩, ?_⟩
        show _ = src.take s.srcPos
        rw [hnone', hsrc]
        rfl
  | @read n hpc hn hpos =>
      obtain ⟨hsrc, hwritten, hthrough⟩ := h.reading hpc
      rw [h.src_eq] at hn
      refine .writing n s.srcPos rfl hpos rfl hn ?_ (hwritten.keep hrun rfl rfl rfl)
        (hthrough.keep hrun rfl trivial)
      have hlen : ((src.drop s.srcPos).take n).length = n := by
        rw [List.length_take, List.length_drop]
        omega
      rw [h.src_eq]
      exact List.take_left' hlen
  | eof hpc hend =>
      obtain ⟨hsrc, hwritten, hthrough⟩ := h.reading hpc
      rw [h.src_eq] at hend
      refine .returned rfl (hwritten.keep hrun rfl rfl rfl) ?_
      rw [← Nat.le_antisymm hsrc hend]
      exact hthrough.keep hrun rfl trivial
  | readErr hpc => exact h.move_readErr hpc
  | write hpc hn => exact h.move_write hpc hn
  | @writeErr len hpc =>
      obtain ⟨pos, hlen, hsrc, hle, -, hwritten, hthrough⟩ := h.writing hpc
      refine .reading rfl (hsrc ▸ hle) (hwritten.keep hrun rfl rfl rfl) ?_
      show Through src old (tr ++ [.writeErr]) s.srcPos
      rw [hsrc]
      exact hthrough.snoc hrun (Nat.zero_le _) (fun hwhole => hwhole.elim) (fun _ => hlen)

theorem Move.src_eq (h : Move s l s') : s'.src = s.src := by
  cases h <;> rfl

/-- In every state of every run. -/
theorem inv_of_exec (h : exec step (start src old) tr = some s) : Inv src old tr s := by
  refine exec_history ?_ ?_ h
  · exact ⟨rfl, rfl, .opening (Or.inl rfl) rfl rfl rfl rfl allSteps_nil⟩
  · intro tr s l s' hinv hl
    have hmove := move_of_step hl
    exact ⟨exec_snoc.mpr ⟨s, hinv.run, hl⟩, hmove.src_eq.trans hinv.src_eq, hinv.move hmove⟩

end Copy

/-! ## The copy -/

/-- **copyfile.c.**  When the program has returned, `cpy.txt` is as before if
    the code is -1.  Otherwise the code is 0, and `cpy.txt` holds what was
    written and behind it what it held there before.  All of the source is
    written exactly if in no step anything got lost, and the copy is then
    exact if `cpy.txt` was not longer. -/
theorem copy_result (src : List UInt8) (old : Option (List UInt8)) (tr : List Step) (s : State)
    (h : exec step (start src old) tr = some s) (code : Int) (hcode : s.pc = .returned code) :
    code = -1 ∧ s.dest = old ∨
      code = 0 ∧
        s.dest = some (written src old tr ++ (old.getD []).drop (written src old tr).length) ∧
        (written src old tr = src ↔ AllSteps step Whole (start src old) tr) ∧
        (written src old tr = src → (s.dest = some src ↔ (old.getD []).length ≤ src.length)) := by
  cases (inv_of_exec h).phase with
  | opening hpc => simp [hcode] at hpc
  | reading hpc => simp [hcode] at hpc
  | writing _ _ hpc => simp [hcode] at hpc
  | failed hpc hold =>
      left
      rw [hcode, Pc.returned.injEq] at hpc
      exact ⟨hpc, hold⟩
  | returned hpc hwritten hthrough =>
      right
      rw [hcode, Pc.returned.injEq] at hpc
      refine ⟨hpc, hwritten.contents, ?_, fun hall => ?_⟩
      · rcases hthrough with ⟨hall, htake⟩ | ⟨hall, hless⟩
        · rw [List.take_length] at htake
          exact ⟨fun _ => hall, fun _ => htake⟩
        · refine ⟨fun hsame => ?_, fun hall' => absurd hall' hall⟩
          rw [hsame] at hless
          exact absurd hless (Nat.lt_irrefl _)
      · rw [hwritten.contents, hall, overlay, Option.some.injEq, List.append_right_eq_self,
          List.drop_eq_nil_iff]

/-- A short `write` over a longer `cpy.txt`: a byte is lost, and the tail
    stays. -/
theorem copy_result_tail :
    ∃ s, exec step (start [1, 2, 3] (some [9, 9, 9, 9, 9]))
        [.openSrc true, .openDest true, .read 2, .write 1, .read 1, .write 1, .read 0] = some s ∧
      s.dest = some [1, 3, 9, 9, 9] := by
  obtain ⟨s, hrun, hpc⟩ : ∃ s, exec step (start [1, 2, 3] (some [9, 9, 9, 9, 9]))
      [.openSrc true, .openDest true, .read 2, .write 1, .read 1, .write 1, .read 0] = some s ∧
        s.pc = .returned 0 := ⟨_, rfl, rfl⟩
  refine ⟨s, hrun, ?_⟩
  rcases copy_result _ _ _ s hrun 0 hpc with ⟨hcode, -⟩ | ⟨-, hdest, -⟩
  · exact absurd hcode (by decide)
  · exact hdest

end WebServer.CopyFile
