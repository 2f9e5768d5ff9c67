/-
  WebServer.HttpConn.Receive

  `read()` on any slot, whatever its buffer holds and whatever `recv` answers.

  A `read()` is a run of answers with data and one answer that ends the loop.
  `Stored` is what the data does to the slot: the bytes stand behind the old
  `m_read_idx`, one after the other, and nothing else has changed.  Of the last
  answer only one thing matters: `EAGAIN` and `EWOULDBLOCK` leave the loop for
  the `printf` of the buffer and `return true`, everything else returns false
  (`readLoop_last`).

  Storing composes (`Stored.trans`) and is determined by the bytes
  (`Stored.unique`), so it cannot matter how they were cut (`read_stream`).
-/

import WebServer.HttpConn.Basic

namespace WebServer

open WebServer.Lib

namespace RecvAnswer

instance Fits.decidable (len : Nat) : (answer : RecvAnswer) → Decidable (answer.Fits len)
  | .data _ => inferInstanceAs (Decidable (_ ∧ _))
  | .closed => isTrue trivial
  | .error _ => isTrue trivial

instance Respects.decidable (len : Nat) :
    (answer : RecvAnswer) → Decidable (answer.Respects len)
  | .data _ => inferInstanceAs (Decidable (_ ∧ _))
  | .closed => isTrue trivial
  | .error _ => inferInstanceAs (Decidable (_ ≠ _))

instance AllMeet.decidable {contract : Nat → RecvAnswer → Prop}
    [∀ len answer, Decidable (contract len answer)] :
    (len : Nat) → (answers : List RecvAnswer) → Decidable (AllMeet contract len answers)
  | _, [] => isTrue trivial
  | len, .data bytes :: answers =>
      have : Decidable (AllMeet contract (len - bytes.length) answers) :=
        AllMeet.decidable (len - bytes.length) answers
      inferInstanceAs (Decidable (_ ∧ _))
  | _, .closed :: _ => inferInstanceAs (Decidable (_ ∧ _))
  | _, .error _ :: _ => inferInstanceAs (Decidable (_ ∧ _))

theorem Respects.fits {len : Nat} {answer : RecvAnswer} (h : answer.Respects len) :
    answer.Fits len := by
  cases answer with
  | data bytes => exact h
  | closed => trivial
  | error errno => trivial

theorem AllMeet.mono {c c' : Nat → RecvAnswer → Prop}
    (hmono : ∀ {len answer}, c len answer → c' len answer) {len : Nat}
    {answers : List RecvAnswer} (h : AllMeet c len answers) : AllMeet c' len answers := by
  induction answers generalizing len with
  | nil => trivial
  | cons answer answers ih =>
      cases answer with
      | data bytes => exact ⟨hmono h.1, ih h.2⟩
      | closed | error => exact ⟨hmono h.1, h.2⟩

def isData : RecvAnswer → Bool
  | .data _ => true
  | .closed | .error _ => false

/-- `errno == EAGAIN || errno == EWOULDBLOCK` -/
def blocks : RecvAnswer → Bool
  | .error .eagain | .error .ewouldblock => true
  | .error .other | .closed | .data _ => false

/-- The answer that ended the loop; a `read()` that found the buffer full made
    no call and ends as after a 0. -/
def lastOf (answers : List RecvAnswer) : RecvAnswer := answers.getLast?.getD .closed

theorem lastOf_cons_cons (answer answer' : RecvAnswer) (answers : List RecvAnswer) :
    lastOf (answer :: answer' :: answers) = lastOf (answer' :: answers) := by
  rw [lastOf, List.getLast?_cons_cons]
  rfl

theorem lastOf_append (answers : List RecvAnswer) (last : RecvAnswer) :
    lastOf (answers ++ [last]) = last := by
  rw [lastOf, List.getLast?_concat]
  rfl

theorem bytes_of_not_isData {answer : RecvAnswer} (h : answer.isData = false) :
    answer.bytes = [] := by
  cases answer with
  | data chunk => cases h
  | closed => rfl
  | error errno => rfl

/-- `recv` blocks only if it was asked for something. -/
theorem room_of_blocks {len : Nat} {answer : RecvAnswer} (h : answer.blocks = true)
    (hrespects : answer.Respects len) : len ≠ 0 := by
  cases answer with
  | data chunk => cases h
  | closed => cases h
  | error errno => exact hrespects

/-- What ends the loop is a block, an error or a 0. -/
theorem eq_closed {answer : RecvAnswer} (hblocks : answer.blocks = false)
    (hdata : answer.isData = false) (hother : answer ≠ .error .other) : answer = .closed := by
  cases answer with
  | data chunk => cases hdata
  | closed => rfl
  | error errno =>
      cases errno with
      | eagain => cases hblocks
      | ewouldblock => cases hblocks
      | other => exact absurd rfl hother

/-- The answers of one `read()`: data, and at most one other answer at the end. -/
theorem AllMeet.split {len : Nat} {answers : List RecvAnswer} (h : AllFit len answers) :
    ((∀ answer ∈ answers, answer.isData = true) ∧ (answers.flatMap bytes).length ≤ len) ∨
      ∃ first last, answers = first ++ [last] ∧ (∀ answer ∈ first, answer.isData = true) ∧
        last.isData = false ∧ (first.flatMap bytes).length ≤ len := by
  induction answers generalizing len with
  | nil => exact Or.inl ⟨nofun, Nat.zero_le _⟩
  | cons answer answers ih =>
      cases answer with
      | closed =>
          obtain ⟨-, rfl⟩ := h
          exact Or.inr ⟨[], .closed, rfl, nofun, rfl, Nat.zero_le _⟩
      | error errno =>
          obtain ⟨-, rfl⟩ := h
          exact Or.inr ⟨[], .error errno, rfl, nofun, rfl, Nat.zero_le _⟩
      | data chunk =>
          obtain ⟨⟨-, hfit⟩, hrest⟩ := h
          rcases ih hrest with ⟨hall, hle⟩ | ⟨first, last, rfl, hfirst, hlast, hle⟩
          · refine Or.inl ⟨List.forall_mem_cons.mpr ⟨rfl, hall⟩, ?_⟩
            rw [List.flatMap_cons, bytes, List.length_append]
            omega
          · refine Or.inr ⟨.data chunk :: first, last, rfl, List.forall_mem_cons.mpr ⟨rfl, hfirst⟩,
              hlast, ?_⟩
            rw [List.flatMap_cons, bytes, List.length_append]
            omega

theorem AllMeet.length_le {len : Nat} {answers : List RecvAnswer} (h : AllFit len answers) :
    (answers.flatMap bytes).length ≤ len := by
  rcases h.split with ⟨-, hle⟩ | ⟨first, last, rfl, -, hlast, hle⟩
  · exact hle
  · rwa [List.flatMap_append, List.flatMap_singleton, bytes_of_not_isData hlast, List.append_nil]

/-- If a request for no bytes is answered with 0, the last `recv` blocks only
    while there is room. -/
theorem AllMeet.length_lt {len : Nat} {answers : List RecvAnswer} (h : AllRespect len answers)
    (hblocks : (lastOf answers).blocks = true) : (answers.flatMap bytes).length < len := by
  induction answers generalizing len with
  | nil => cases hblocks
  | cons answer answers ih =>
      cases answer with
      | closed =>
          obtain ⟨-, rfl⟩ := h
          cases hblocks
      | error errno =>
          obtain ⟨hrespects, rfl⟩ := h
          exact Nat.pos_of_ne_zero (room_of_blocks hblocks hrespects)
      | data chunk =>
          obtain ⟨-, hrest⟩ := h
          cases answers with
          | nil => cases hblocks
          | cons answer' answers =>
              rw [lastOf_cons_cons] at hblocks
              have hlt := ih hrest hblocks
              rw [List.flatMap_cons, bytes, List.length_append]
              omega

/-! ## Endless answers -/

/-- The first `n` answers. -/
def taken (answers : Nat → RecvAnswer) (n : Nat) : List RecvAnswer := (List.range n).map answers

/-- As long as the loop goes on, every answer is one that `recv` may give to a
    request for the room that is left. -/
def Contract (len : Nat) (answers : Nat → RecvAnswer) : Prop :=
  ∀ n, (∀ answer ∈ taken answers n, answer.isData = true) →
    (answers n).Respects (len - ((taken answers n).flatMap bytes).length)

section Endless

variable {len : Nat} {answers : Nat → RecvAnswer}

theorem taken_succ (answers : Nat → RecvAnswer) (n : Nat) :
    taken answers (n + 1) = taken answers n ++ [answers n] := by
  rw [taken, taken, List.range_succ, List.map_append]
  rfl

theorem mem_taken_of_le {m n : Nat} (hmn : m ≤ n) {answer : RecvAnswer}
    (h : answer ∈ taken answers m) : answer ∈ taken answers n := by
  obtain ⟨i, hi, rfl⟩ := List.mem_map.mp h
  have hi' := List.mem_range.mp hi
  exact List.mem_map_of_mem (List.mem_range.mpr (by omega))

/-- Every answer with data takes at least one byte of the room. -/
theorem Contract.length_le (h : Contract len answers) {n : Nat}
    (hdata : ∀ answer ∈ taken answers n, answer.isData = true) :
    n ≤ ((taken answers n).flatMap bytes).length ∧
      ((taken answers n).flatMap bytes).length ≤ len := by
  induction n with
  | zero => exact ⟨Nat.zero_le _, Nat.zero_le _⟩
  | succ n ih =>
      rw [taken_succ] at hdata ⊢
      have hbefore : ∀ answer ∈ taken answers n, answer.isData = true :=
        fun answer hmem => hdata answer (List.mem_append_left _ hmem)
      obtain ⟨hlow, hhigh⟩ := ih hbefore
      have hrespects := h n hbefore
      have hlast := hdata (answers n) (List.mem_append_right _ List.mem_cons_self)
      rw [List.flatMap_append, List.length_append, List.flatMap_singleton]
      cases hanswer : answers n with
      | closed =>
          rw [hanswer] at hlast
          cases hlast
      | error errno =>
          rw [hanswer] at hlast
          cases hlast
      | data chunk =>
          rw [hanswer] at hrespects
          obtain ⟨hpos, hfit⟩ := hrespects
          rw [bytes]
          omega

/-- So the loop comes to its end. -/
theorem Contract.exists_last (h : Contract len answers) :
    ∃ n, (∀ answer ∈ taken answers n, answer.isData = true) ∧ (answers n).isData = false := by
  by_contra hnone
  have hall : ∀ n, ∀ answer ∈ taken answers n, answer.isData = true := by
    intro n
    induction n with
    | zero => exact nofun
    | succ n ih =>
        rw [taken_succ]
        intro answer hmem
        rcases List.mem_append.mp hmem with hmem | hmem
        · exact ih answer hmem
        · rw [List.mem_singleton.mp hmem]
          by_contra hlast
          exact hnone ⟨n, ih, by simpa using hlast⟩
  have hlength := h.length_le (hall (len + 1))
  omega

end Endless

end RecvAnswer

namespace HttpConn

/-! ## The data -/

/-- `s'` is `s` with `bytes` stored behind `m_read_idx`. -/
structure Stored (s : HttpConn) (bytes : List UInt8) (s' : HttpConn) : Prop where
  conn : s' = { s with mReadBuf := s'.mReadBuf, mReadIdx := s.mReadIdx + bytes.length }
  buf : storeAll s.mReadBuf s.mReadIdx bytes = .ok s'.mReadBuf

section Stored

variable {s t u : HttpConn} {as bs : List UInt8}

theorem stored_nil (s : HttpConn) : Stored s [] s := ⟨rfl, rfl⟩

theorem Stored.readIdx (h : Stored s as t) : t.mReadIdx = s.mReadIdx + as.length := by
  rw [h.conn]

theorem Stored.trans (h : Stored s as t) (h' : Stored t bs u) : Stored s (as ++ bs) u where
  conn := by
    rw [h'.conn, h.conn, List.length_append, Nat.add_assoc]
  buf := by
    have hlater := h'.buf
    rw [h.readIdx] at hlater
    rw [storeAll_append, h.buf, ok_bind]
    exact hlater

theorem Stored.unique (h : Stored s as t) (h' : Stored s as u) : t = u := by
  have hbuf : t.mReadBuf = u.mReadBuf := Except.ok.inj (h.buf.symm.trans h'.buf)
  rw [h.conn, h'.conn, hbuf]

theorem exists_stored (s : HttpConn) (as : List UInt8)
    (hfit : s.mReadIdx + as.length ≤ READ_BUFFER_SIZE) : ∃ t, Stored s as t := by
  obtain ⟨buf, hbuf⟩ := storeAll_of_le (m := s.mReadBuf) hfit
  exact ⟨{ s with mReadBuf := buf, mReadIdx := s.mReadIdx + as.length }, rfl, hbuf⟩

/-- Every byte of the buffer. -/
theorem Stored.getElem? (h : Stored s as t) (j : Nat) :
    t.mReadBuf[j]? =
      if s.mReadIdx ≤ j ∧ j < s.mReadIdx + as.length then as[j - s.mReadIdx]?
      else s.mReadBuf[j]? :=
  storeAll_getElem? h.buf j

end Stored

/-! ## The loop -/

/-- The `printf` behind the loop: `m_read_idx` is small, so its highest byte is a
    NUL if `m_read_buf` has none. -/
theorem exists_printReadBuf {s : HttpConn} (hle : s.mReadIdx ≤ READ_BUFFER_SIZE) :
    ∃ text, s.printReadBuf = .ok text := by
  rw [printReadBuf]
  cases hread : readString s.mReadBuf 0 with
  | ok text => exact ⟨text, rfl⟩
  | error fault =>
      have hzero : s.mReadIdx >>> 24 = 0 := by
        have hsize : READ_BUFFER_SIZE = 2048 := rfl
        rw [Nat.shiftRight_eq_div_pow]
        omega
      have hnul : (intBytes s.mReadIdx)[3]? = some NUL := by
        show some (UInt8.ofNat (s.mReadIdx >>> 24)) = some NUL
        rw [hzero]
        rfl
      obtain ⟨rest, hrest⟩ := readString_of_nul (Nat.zero_le 3) hnul
      simp only [hrest]
      exact ⟨_, rfl⟩

section Loop

variable {s s' : HttpConn} {answers : List RecvAnswer} {last : RecvAnswer}

theorem readLoop_last (hle : s.mReadIdx ≤ READ_BUFFER_SIZE) (hlast : last.isData = false)
    (rest : List RecvAnswer) : readLoop s (last :: rest) = some (.ok (last.blocks, s)) := by
  obtain ⟨text, htext⟩ := exists_printReadBuf hle
  cases last with
  | data bytes => cases hlast
  | closed => rfl
  | error errno =>
      cases errno with
      | eagain | ewouldblock =>
          rw [readLoop, if_pos (by simp), htext]
          rfl
      | other => rfl

/-- One answer with data. -/
theorem readLoop_of_stored {bytes : List UInt8} (h : Stored s bytes s')
    (answers : List RecvAnswer) : readLoop s (.data bytes :: answers) = readLoop s' answers := by
  rw [readLoop, h.buf, h.conn]

/-- All of them: the loop goes on from the slot in which they are stored. -/
theorem readLoop_append (hdata : ∀ answer ∈ answers, answer.isData = true)
    (h : Stored s (answers.flatMap RecvAnswer.bytes) s') (rest : List RecvAnswer) :
    readLoop s (answers ++ rest) = readLoop s' rest := by
  induction answers generalizing s with
  | nil =>
      obtain rfl := h.unique (stored_nil s)
      rfl
  | cons answer answers ih =>
      cases answer with
      | closed => cases hdata _ List.mem_cons_self
      | error errno => cases hdata _ List.mem_cons_self
      | data bytes =>
          have hdata' : ∀ answer ∈ answers, answer.isData = true :=
            fun answer hmem => hdata answer (List.mem_cons_of_mem _ hmem)
          rw [List.flatMap_cons, RecvAnswer.bytes] at h
          -- the bytes of the first answer fit, since all of them do
          obtain ⟨buf, hfirst, hrest⟩ := bind_eq_ok.mp (storeAll_append ▸ h.buf)
          have ht : Stored s bytes { s with
              mReadBuf := buf, mReadIdx := s.mReadIdx + bytes.length } := ⟨rfl, hfirst⟩
          have hs' : Stored { s with mReadBuf := buf, mReadIdx := s.mReadIdx + bytes.length }
              (answers.flatMap RecvAnswer.bytes) s' := by
            refine ⟨?_, hrest⟩
            rw [h.conn, List.length_append, Nat.add_assoc]
          rw [List.cons_append, readLoop_of_stored ht]
          exact ih hdata' hs'

end Loop

/-! ## Calls -/

/-- `read()` has appended `bytes` to what the buffer held. -/
structure Appended (s : HttpConn) (bytes : List UInt8) (s' : HttpConn) : Prop where
  conn : s' = { s with mReadBuf := s'.mReadBuf, mReadIdx := s.mReadIdx + bytes.length }
  le : s.mReadIdx + bytes.length ≤ READ_BUFFER_SIZE
  before : ∀ j < s.mReadIdx, s'.mReadBuf[j]? = s.mReadBuf[j]?
  received : ∀ j < bytes.length, s'.mReadBuf[s.mReadIdx + j]? = bytes[j]?
  behind : ∀ j, s.mReadIdx + bytes.length ≤ j → s'.mReadBuf[j]? = s.mReadBuf[j]?

theorem Stored.appended {s s' : HttpConn} {bytes : List UInt8} (h : Stored s bytes s')
    (hle : s.mReadIdx + bytes.length ≤ READ_BUFFER_SIZE) : Appended s bytes s' where
  conn := h.conn
  le := hle
  before := by
    intro j hj
    rw [h.getElem?, if_neg (by omega)]
  received := by
    intro j hj
    rw [h.getElem?, if_pos (by omega), Nat.add_sub_cancel_left]
  behind := by
    intro j hj
    rw [h.getElem?, if_neg (by omega)]

/-- **One call.**  The bytes are stored, and the last answer says what is
    returned.  A `read()` that finds the buffer full makes no call. -/
theorem read_eq {s : HttpConn} {answers : List RecvAnswer} {out : Except Fault (Bool × HttpConn)}
    (hidx : s.mReadIdx ≤ READ_BUFFER_SIZE)
    (hfit : RecvAnswer.AllFit (READ_BUFFER_SIZE - s.mReadIdx) answers)
    (hfull : s.mReadIdx = READ_BUFFER_SIZE → (RecvAnswer.lastOf answers).blocks = false)
    (h : s.read answers = some out) :
    ∃ s', Stored s (answers.flatMap RecvAnswer.bytes) s' ∧ s'.mReadIdx ≤ READ_BUFFER_SIZE ∧
      out = .ok ((RecvAnswer.lastOf answers).blocks, s') ∧
      (RecvAnswer.lastOf answers ∈ answers ∧ (RecvAnswer.lastOf answers).isData = false ∨
        s'.mReadIdx = READ_BUFFER_SIZE) := by
  by_cases heq : s.mReadIdx = READ_BUFFER_SIZE
  · have hnone := hfit.length_le
    rw [heq, Nat.sub_self, Nat.le_zero, List.length_eq_zero_iff] at hnone
    rw [read, if_pos (Nat.le_of_eq heq.symm)] at h
    refine ⟨s, ?_, hidx, ?_, Or.inr heq⟩
    · rw [hnone]
      exact stored_nil s
    · rw [hfull heq]
      exact (Option.some.inj h).symm
  · rw [read, if_neg (by omega)] at h
    rcases hfit.split with ⟨hdata, hle⟩ | ⟨first, last, rfl, hdata, hlast, hle⟩
    · -- only data, and the loop has not ended
      obtain ⟨s', hstored⟩ := exists_stored s (answers.flatMap RecvAnswer.bytes) (by omega)
      have hnone := readLoop_append hdata hstored []
      rw [List.append_nil] at hnone
      rw [hnone] at h
      cases h
    · obtain ⟨s', hstored⟩ := exists_stored s (first.flatMap RecvAnswer.bytes) (by omega)
      have hread := hstored.readIdx
      have hle' : s'.mReadIdx ≤ READ_BUFFER_SIZE := by omega
      rw [readLoop_append hdata hstored, readLoop_last hle' hlast] at h
      rw [List.flatMap_append, List.flatMap_singleton, RecvAnswer.bytes_of_not_isData hlast,
        List.append_nil, RecvAnswer.lastOf_append]
      exact ⟨s', hstored, hle', (Option.some.inj h).symm,
        Or.inl ⟨List.mem_append_right _ List.mem_cons_self, hlast⟩⟩

/-- The same if a request for no bytes is answered with 0: `read()` returns true
    only with room left. -/
theorem read_eq_of_respect {s : HttpConn} {answers : List RecvAnswer}
    {out : Except Fault (Bool × HttpConn)} (hidx : s.mReadIdx ≤ READ_BUFFER_SIZE)
    (hrespect : RecvAnswer.AllRespect (READ_BUFFER_SIZE - s.mReadIdx) answers)
    (h : s.read answers = some out) :
    ∃ s', Stored s (answers.flatMap RecvAnswer.bytes) s' ∧ s'.mReadIdx ≤ READ_BUFFER_SIZE ∧
      out = .ok ((RecvAnswer.lastOf answers).blocks, s') ∧
      ((RecvAnswer.lastOf answers).blocks = true → s'.mReadIdx < READ_BUFFER_SIZE) ∧
      (RecvAnswer.lastOf answers ∈ answers ∧ (RecvAnswer.lastOf answers).isData = false ∨
        s'.mReadIdx = READ_BUFFER_SIZE) := by
  have hroom := fun hblocks => hrespect.length_lt hblocks
  have hfull : s.mReadIdx = READ_BUFFER_SIZE → (RecvAnswer.lastOf answers).blocks = false := by
    intro heq
    rw [Bool.eq_false_iff]
    intro hblocks
    have hlt := hroom hblocks
    omega
  obtain ⟨s', hstored, hle, hout, hlast⟩ := read_eq hidx
    (hrespect.mono RecvAnswer.Respects.fits) hfull h
  have hread := hstored.readIdx
  refine ⟨s', hstored, hle, hout, fun hblocks => ?_, hlast⟩
  have hlt := hroom hblocks
  omega

/-- **`read()` returning true.**  It stores its bytes and leaves room in the
    buffer. -/
theorem reads_iff {s s' : HttpConn} {chunk : List UInt8} (hlt : s.mReadIdx < READ_BUFFER_SIZE) :
    Reads s chunk s' ↔ Stored s chunk s' ∧ s'.mReadIdx < READ_BUFFER_SIZE := by
  have hread (answers : List RecvAnswer) : s.read answers = readLoop s answers := by
    rw [read, if_neg (by omega)]
  constructor
  · rintro ⟨answers, hrespect, rfl, h⟩
    obtain ⟨t, hstored, -, hout, hroom, -⟩ := read_eq_of_respect (Nat.le_of_lt hlt) hrespect h
    obtain ⟨hblocks, rfl⟩ := Prod.mk.inj (Except.ok.inj hout)
    exact ⟨hstored, hroom hblocks.symm⟩
  · rintro ⟨hstored, hroom⟩
    have hidx := hstored.readIdx
    have hlast : readLoop s' [.error .eagain] = some (.ok (true, s')) :=
      readLoop_last (Nat.le_of_lt hroom) rfl []
    -- one `recv` with the data and one with `EAGAIN`, or only the latter
    by_cases hchunk : chunk = []
    · subst hchunk
      obtain rfl := hstored.unique (stored_nil s)
      refine ⟨[.error .eagain], ⟨Nat.sub_ne_zero_of_lt hlt, rfl⟩, rfl, ?_⟩
      rw [hread, hlast]
    · have hpos : 1 ≤ chunk.length := List.length_pos_iff.mpr hchunk
      refine ⟨[.data chunk, .error .eagain], ⟨⟨hpos, by omega⟩, ?_, rfl⟩, ?_, ?_⟩
      · show READ_BUFFER_SIZE - s.mReadIdx - chunk.length ≠ 0
        omega
      · exact List.append_nil chunk
      · rw [hread, readLoop_of_stored hstored, hlast]

/-! ## Segmentation -/

/-- The answers to a client that neither closes nor fails: the only 0 is that
    of a request for no bytes. -/
def Undisturbed (s : HttpConn) (answers : List RecvAnswer) : Prop :=
  ∀ answer ∈ answers, answer ≠ .error .other ∧
    (answer = .closed →
      s.mReadIdx + (answers.flatMap RecvAnswer.bytes).length = READ_BUFFER_SIZE)

instance (s : HttpConn) (answers : List RecvAnswer) : Decidable (Undisturbed s answers) :=
  inferInstanceAs (Decidable (∀ answer ∈ answers, _ ∧ (_ → _)))

/-- A `read()` that receives `bytes` from such a client and returns `ret`. -/
def Calls (s : HttpConn) (bytes : List UInt8) (ret : Bool) (s' : HttpConn) : Prop :=
  ∃ answers, RecvAnswer.AllRespect (READ_BUFFER_SIZE - s.mReadIdx) answers ∧
    Undisturbed s answers ∧ answers.flatMap RecvAnswer.bytes = bytes ∧
    s.read answers = some (.ok (ret, s'))

/-- One or more calls of `read()`, which receive `bytes` and return `rets`. -/
inductive Delivers : HttpConn → List UInt8 → List Bool → HttpConn → Prop where
  | once {s s' : HttpConn} {bytes : List UInt8} {ret : Bool} (h : Calls s bytes ret s') :
      Delivers s bytes [ret] s'
  | more {s t s' : HttpConn} {bytes bytes' : List UInt8} {ret : Bool} {rets : List Bool}
      (h : Calls s bytes ret t) (hrest : Delivers t bytes' rets s') :
      Delivers s (bytes ++ bytes') (ret :: rets) s'

/-- Of what the client sent, everything was received, or as much as fits. -/
def Exhausts (sent bytes : List UInt8) (s' : HttpConn) : Prop :=
  bytes = sent ∨ bytes <+: sent ∧ s'.mReadIdx = READ_BUFFER_SIZE

section Segmentation

variable {s s' : HttpConn} {bytes : List UInt8}

/-- A call returns false exactly if the buffer is full when it ends. -/
theorem Calls.spec {ret : Bool} (h : Calls s bytes ret s') (hidx : s.mReadIdx ≤ READ_BUFFER_SIZE) :
    Stored s bytes s' ∧ s'.mReadIdx ≤ READ_BUFFER_SIZE ∧
      (ret = false ↔ s'.mReadIdx = READ_BUFFER_SIZE) := by
  obtain ⟨answers, hrespect, hquiet, rfl, hread⟩ := h
  obtain ⟨t, hstored, hle, hout, hroom, hmem⟩ := read_eq_of_respect hidx hrespect hread
  obtain ⟨hret, rfl⟩ := Prod.mk.inj (Except.ok.inj hout)
  refine ⟨hstored, hle, fun hfalse => ?_, fun hfull => ?_⟩
  · have hblocks : (RecvAnswer.lastOf answers).blocks = false := hret.symm.trans hfalse
    rcases hmem with ⟨hmem, hlast⟩ | hfull
    · obtain ⟨hother, hclosed⟩ := hquiet _ hmem
      rw [hstored.readIdx]
      exact hclosed (RecvAnswer.eq_closed hblocks hlast hother)
    · exact hfull
  · rw [hret, ← Bool.not_eq_true]
    intro hblocks
    have hlt := hroom hblocks
    omega

/-- Some call returns false exactly if the buffer is full in the end. -/
theorem Delivers.spec {rets : List Bool} (h : Delivers s bytes rets s')
    (hidx : s.mReadIdx ≤ READ_BUFFER_SIZE) :
    Stored s bytes s' ∧ s'.mReadIdx ≤ READ_BUFFER_SIZE ∧
      (false ∈ rets ↔ s'.mReadIdx = READ_BUFFER_SIZE) := by
  induction h with
  | once h =>
      obtain ⟨hstored, hle, hfalse⟩ := h.spec hidx
      refine ⟨hstored, hle, ?_⟩
      rw [List.mem_singleton, eq_comm]
      exact hfalse
  | more h _ ih =>
      obtain ⟨hstored, hle, hfalse⟩ := h.spec hidx
      obtain ⟨hstored', hle', hfalse'⟩ := ih hle
      refine ⟨hstored.trans hstored', hle', ?_⟩
      rw [List.mem_cons, eq_comm, hfalse, hfalse']
      -- a full buffer stays full
      have hidx' := hstored'.readIdx
      refine ⟨fun hfull => ?_, Or.inr⟩
      rcases hfull with hfull | hfull
      · omega
      · exact hfull

/-- The bytes received are determined by the bytes sent. -/
theorem eq_of_exhausts {sent bytes₁ bytes₂ : List UInt8} {s₁ s₂ : HttpConn}
    (h₁ : Stored s bytes₁ s₁) (hle₁ : s₁.mReadIdx ≤ READ_BUFFER_SIZE)
    (h₂ : Stored s bytes₂ s₂) (hle₂ : s₂.mReadIdx ≤ READ_BUFFER_SIZE)
    (hsent₁ : Exhausts sent bytes₁ s₁) (hsent₂ : Exhausts sent bytes₂ s₂) : bytes₁ = bytes₂ := by
  have hpre₁ : bytes₁ <+: sent := hsent₁.elim (fun heq => heq ▸ List.prefix_refl _) And.left
  have hpre₂ : bytes₂ <+: sent := hsent₂.elim (fun heq => heq ▸ List.prefix_refl _) And.left
  have hidx₁ := h₁.readIdx
  have hidx₂ := h₂.readIdx
  have hlen₁ := hpre₁.length_le
  have hlen₂ := hpre₂.length_le
  -- both are all that was sent, or fill the same room
  have hlength : bytes₁.length = bytes₂.length := by
    rcases hsent₁ with heq₁ | ⟨-, hfull₁⟩
    · rcases hsent₂ with heq₂ | ⟨-, hfull₂⟩
      · rw [heq₁, heq₂]
      · have := congrArg List.length heq₁
        omega
    · rcases hsent₂ with heq₂ | ⟨-, hfull₂⟩
      · have := congrArg List.length heq₂
        omega
      · omega
  exact (List.prefix_of_prefix_length_le hpre₁ hpre₂ (Nat.le_of_eq hlength)).eq_of_length
    hlength

/-- How a `read()` ends, whatever `recv` answers: after `n` calls, with the
    bytes of their answers appended. -/
def EndsWith (s : HttpConn) (answers : Nat → RecvAnswer) (n : Nat) (ret : Bool)
    (s' : HttpConn) : Prop :=
  s.read (RecvAnswer.taken answers n) = some (.ok (ret, s')) ∧
    (∀ m < n, s.read (RecvAnswer.taken answers m) = none) ∧
    Appended s ((RecvAnswer.taken answers n).flatMap RecvAnswer.bytes) s'

/-- `recv` had nothing more, and the buffer was not full. -/
def Blocked (answers : Nat → RecvAnswer) (n : Nat) (s' : HttpConn) : Prop :=
  (RecvAnswer.lastOf (RecvAnswer.taken answers n)).blocks = true ∧ s'.mReadIdx < READ_BUFFER_SIZE

/-- The loop ends, with the slot in which everything is stored. -/
theorem exists_endsWith {answers : Nat → RecvAnswer} (hidx : s.mReadIdx ≤ READ_BUFFER_SIZE)
    (h : RecvAnswer.Contract (READ_BUFFER_SIZE - s.mReadIdx) answers) :
    ∃ n s', EndsWith s answers n (RecvAnswer.lastOf (RecvAnswer.taken answers n)).blocks s' ∧
      ((RecvAnswer.lastOf (RecvAnswer.taken answers n)).blocks = true →
        s'.mReadIdx < READ_BUFFER_SIZE) := by
  by_cases hfull : s.mReadIdx = READ_BUFFER_SIZE
  · refine ⟨0, s, ⟨?_, nofun, (stored_nil s).appended hidx⟩, nofun⟩
    rw [read, if_pos (Nat.le_of_eq hfull.symm)]
    rfl
  · have hlt : ¬ s.mReadIdx ≥ READ_BUFFER_SIZE := by omega
    obtain ⟨n, hdata, hlast⟩ := h.exists_last
    have hstored (m : Nat) (hm : m ≤ n) :
        ∃ s', Stored s ((RecvAnswer.taken answers m).flatMap RecvAnswer.bytes) s' ∧
          ∀ rest, s.read (RecvAnswer.taken answers m ++ rest) = readLoop s' rest := by
      have hdata' : ∀ answer ∈ RecvAnswer.taken answers m, answer.isData = true :=
        fun answer hmem => hdata answer (RecvAnswer.mem_taken_of_le hm hmem)
      have hlength := (h.length_le hdata').2
      obtain ⟨s', hs'⟩ := exists_stored s ((RecvAnswer.taken answers m).flatMap RecvAnswer.bytes)
        (by omega)
      refine ⟨s', hs', fun rest => ?_⟩
      rw [read, if_neg hlt, readLoop_append hdata' hs']
    obtain ⟨s', hs', hread⟩ := hstored n (Nat.le_refl n)
    have hidx' := hs'.readIdx
    have hlength := (h.length_le hdata).2
    have hbytes : (RecvAnswer.taken answers (n + 1)).flatMap RecvAnswer.bytes
        = (RecvAnswer.taken answers n).flatMap RecvAnswer.bytes := by
      rw [RecvAnswer.taken_succ, List.flatMap_append, List.flatMap_singleton,
        RecvAnswer.bytes_of_not_isData hlast, List.append_nil]
    refine ⟨n + 1, s', ⟨?_, fun m hm => ?_, ?_⟩, fun hblocks => ?_⟩
    · rw [RecvAnswer.taken_succ, hread, RecvAnswer.lastOf_append, readLoop_last (by omega) hlast]
    · obtain ⟨t, -, hnone⟩ := hstored m (by omega)
      have hnone := hnone []
      rw [List.append_nil] at hnone
      rw [hnone, readLoop]
    · rw [hbytes]
      exact hs'.appended (by omega)
    · rw [RecvAnswer.taken_succ, RecvAnswer.lastOf_append] at hblocks
      have hroom := RecvAnswer.room_of_blocks hblocks (h n hdata)
      omega

end Segmentation

/-- **The received stream.**  Whatever `recv` answers, `read()` ends, and has
    appended the bytes it received.  It returns true if and only if `recv` had
    nothing more before the buffer was full.  How the bytes a client sends are
    cut, over any calls, changes neither the slot nor whether some call returns
    false. -/
theorem read_stream (s : HttpConn) (hidx : s.mReadIdx ≤ READ_BUFFER_SIZE) :
    (∀ answers : Nat → RecvAnswer, RecvAnswer.Contract (READ_BUFFER_SIZE - s.mReadIdx) answers →
      ∃ n ret s', EndsWith s answers n ret s' ∧ (ret = true ↔ Blocked answers n s')) ∧
    ∀ (sent bytes₁ bytes₂ : List UInt8) (rets₁ rets₂ : List Bool) (s₁ s₂ : HttpConn),
      Delivers s bytes₁ rets₁ s₁ → Exhausts sent bytes₁ s₁ →
      Delivers s bytes₂ rets₂ s₂ → Exhausts sent bytes₂ s₂ →
      s₁.mReadBuf = s₂.mReadBuf ∧ s₁.mReadIdx = s₂.mReadIdx ∧
        (false ∈ rets₁ ↔ false ∈ rets₂) := by
  refine ⟨fun answers hcontract => ?_, ?_⟩
  · obtain ⟨n, s', hends, hroom⟩ := exists_endsWith hidx hcontract
    exact ⟨n, _, s', hends, fun hblocks => ⟨hblocks, hroom hblocks⟩, And.left⟩
  · intro sent bytes₁ bytes₂ rets₁ rets₂ s₁ s₂ h₁ hsent₁ h₂ hsent₂
    obtain ⟨hstored₁, hle₁, hfalse₁⟩ := h₁.spec hidx
    obtain ⟨hstored₂, hle₂, hfalse₂⟩ := h₂.spec hidx
    obtain rfl := eq_of_exhausts hstored₁ hle₁ hstored₂ hle₂ hsent₁ hsent₂
    obtain rfl := hstored₁.unique hstored₂
    exact ⟨rfl, rfl, hfalse₁.trans hfalse₂.symm⟩

/-- Two bytes, and then nothing for the moment. -/
def abThenBlocks : Nat → RecvAnswer
  | 0 => .data (ascii "ab")
  | _ + 1 => .error .eagain

theorem abThenBlocks_contract : RecvAnswer.Contract READ_BUFFER_SIZE abThenBlocks := by
  intro n hdata
  match n with
  | 0 => decide
  | 1 => decide
  | n + 2 =>
      have hmem : RecvAnswer.error .eagain ∈ RecvAnswer.taken abThenBlocks (n + 2) := by
        rw [RecvAnswer.taken_succ]
        exact List.mem_append_right _ List.mem_cons_self
      cases hdata _ hmem

/-- In one call or in two: the same slot. -/
theorem read_stream_ab :
    (∃ n ret s', EndsWith zeroSlot abThenBlocks n ret s' ∧
      (ret = true ↔ Blocked abThenBlocks n s')) ∧
    ∃ s₁ s₂, Delivers zeroSlot (ascii "ab") [true] s₁ ∧ Delivers zeroSlot (ascii "ab") [true, true] s₂ ∧
      s₁.mReadBuf = s₂.mReadBuf := by
  obtain ⟨hends, hcut⟩ := read_stream zeroSlot (by decide)
  refine ⟨?_, ?_⟩
  · exact hends abThenBlocks abThenBlocks_contract
  · have hone : Delivers zeroSlot (ascii "ab") [true] _ :=
      .once ⟨[.data (ascii "ab"), .error .eagain], by decide, by decide, rfl, rfl⟩
    have htwo : Delivers zeroSlot (ascii "a" ++ ascii "b") [true, true] _ :=
      .more ⟨[.data (ascii "a"), .error .eagain], by decide, by decide, rfl, rfl⟩
        (.once ⟨[.data (ascii "b"), .error .ewouldblock], by decide, by decide, rfl, rfl⟩)
    exact ⟨_, _, hone, htwo, (hcut (ascii "ab") _ _ _ _ _ _ hone (Or.inl rfl) htwo (Or.inl rfl)).1⟩

end HttpConn

end WebServer
