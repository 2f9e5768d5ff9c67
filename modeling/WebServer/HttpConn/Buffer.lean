/-
  WebServer.HttpConn.Buffer

  The representation invariant of `m_read_buf`.

  No string function of the parser is given a length.  They are safe because
  the indices are in order and every byte behind `m_read_idx` is a NUL
  (`BufferInv`), which no code tests.  `init()` makes it so.  `read()` only
  moves the first NUL (`bufferInv_read`), the handlers only write NULs and move
  no index (`Cuts`), also at the `m_content_length` a client chose, and the
  scanner moves its index past bytes it has seen.  `buffer_invariant` collects
  this for every operation and for every run of them, with what `read()` then
  guarantees to the scans.
-/

import WebServer.HttpConn.Receive
import WebServer.HttpConn.Scanner
import WebServer.Lib.Triple

namespace WebServer

open WebServer.Lib

namespace HttpConn

/-- The indices are in order, and NULs stand behind what was received. -/
structure BufferInv (s : HttpConn) : Prop where
  start_le : s.mStartLine ≤ s.mCheckedIndex
  checked_le : s.mCheckedIndex ≤ s.mReadIdx
  read_le : s.mReadIdx ≤ READ_BUFFER_SIZE
  nul : ∀ j, s.mReadIdx ≤ j → j < READ_BUFFER_SIZE → s.mReadBuf[j]? = some NUL

theorem bufferInv_init (s : HttpConn) : BufferInv s.init where
  start_le := Nat.le_refl 0
  checked_le := Nat.le_refl 0
  read_le := Nat.zero_le _
  nul := by
    intro j _ hj
    show (Vector.replicate READ_BUFFER_SIZE NUL)[j]? = some NUL
    rw [Vector.getElem?_replicate, if_pos hj]

/-! ## The handlers -/

/-- No index has moved, and nothing but NULs has been written. -/
structure Cuts (s s' : HttpConn) : Prop where
  start : s'.mStartLine = s.mStartLine
  checked : s'.mCheckedIndex = s.mCheckedIndex
  read : s'.mReadIdx = s.mReadIdx
  nulsOnly : NulsOnly s.mReadBuf s'.mReadBuf

section Cuts

variable {s t : HttpConn}

/-- The buffer and the indices are untouched. -/
theorem cuts_same (hstart : t.mStartLine = s.mStartLine)
    (hchecked : t.mCheckedIndex = s.mCheckedIndex) (hread : t.mReadIdx = s.mReadIdx)
    (hbuf : t.mReadBuf = s.mReadBuf) : Cuts s t :=
  ⟨hstart, hchecked, hread, hbuf ▸ NulsOnly.refl _⟩

theorem Cuts.bufferInv (h : Cuts s t) (hinv : BufferInv s) : BufferInv t where
  start_le := by
    rw [h.start, h.checked]
    exact hinv.start_le
  checked_le := by
    rw [h.checked, h.read]
    exact hinv.checked_le
  read_le := by
    rw [h.read]
    exact hinv.read_le
  nul := by
    intro j hj hlt
    rw [h.read] at hj
    exact h.nulsOnly.nul (hinv.nul j hj hlt)

theorem ensures_cutAt (buf : Vector UInt8 READ_BUFFER_SIZE) (p : Option Nat) :
    Ensures (cutAt buf p) fun r => NulsOnly buf r.1 := by
  cases p with
  | none => exact ⟨nofun⟩
  | some p =>
      apply Ensures.bind (R := NulsOnly buf)
      · constructor
        intro buf' hstore
        obtain ⟨hp, rfl⟩ := store_eq_ok.mp hstore
        exact nulsOnly_set buf hp
      · intro buf' hbuf'
        exact Ensures.pure hbuf'

theorem cuts_parseRequestLine (s : HttpConn) (text : Nat) :
    Ensures (parseRequestLine s text) fun r => Cuts s r.2 := by
  apply Ensures.after
  intro blank
  apply Ensures.bind (ensures_cutAt s.mReadBuf blank)
  rintro ⟨buf, url⟩ hfirst
  apply Ensures.after
  intro isGet
  apply Ensures.ite
  · intro _
    exact Ensures.pure ⟨rfl, rfl, rfl, hfirst⟩
  intro _
  apply Ensures.after
  intro blank
  apply Ensures.ite
  · intro _
    exact Ensures.pure ⟨rfl, rfl, rfl, hfirst⟩
  intro _
  apply Ensures.bind (ensures_cutAt buf blank)
  rintro ⟨buf', version⟩ hsecond
  -- from here on only pointers and the state change
  have hboth : NulsOnly s.mReadBuf buf' := hfirst.trans hsecond
  apply Ensures.after
  intro isHttp
  apply Ensures.ite
  · intro _
    exact Ensures.pure ⟨rfl, rfl, rfl, hboth⟩
  intro _
  apply Ensures.after
  intro target
  apply Ensures.after
  intro noPath
  apply Ensures.ite
  · intro _
    exact Ensures.pure ⟨rfl, rfl, rfl, hboth⟩
  · intro _
    exact Ensures.pure ⟨rfl, rfl, rfl, hboth⟩

/-- The header case writes nothing into the buffer. -/
theorem cuts_parseHeaders (s : HttpConn) (text : Nat) :
    Ensures (parseHeaders s text) fun r => Cuts s r.2 := by
  have hkeeps {code : HttpCode} {t : HttpConn} (h : Cuts s t) :
      Ensures (pure (code, t) : Except Fault _) fun r => Cuts s r.2 := Ensures.pure h
  apply Ensures.after
  intro first
  apply Ensures.ite
  · intro _
    apply Ensures.ite
    · exact fun _ => hkeeps (cuts_same rfl rfl rfl rfl)
    · exact fun _ => hkeeps (cuts_same rfl rfl rfl rfl)
  intro _
  apply Ensures.after
  intro isConnection
  apply Ensures.ite
  · intro _
    apply Ensures.after
    intro value
    apply Ensures.after
    intro keepAlive
    apply Ensures.ite
    · exact fun _ => hkeeps (cuts_same rfl rfl rfl rfl)
    · exact fun _ => hkeeps (cuts_same rfl rfl rfl rfl)
  intro _
  apply Ensures.after
  intro isContentLength
  apply Ensures.ite
  · intro _
    apply Ensures.after
    intro value
    apply Ensures.after
    exact fun _ => hkeeps (cuts_same rfl rfl rfl rfl)
  intro _
  apply Ensures.after
  intro isHost
  apply Ensures.ite
  · intro _
    apply Ensures.after
    exact fun _ => hkeeps (cuts_same rfl rfl rfl rfl)
  · intro _
    apply Ensures.after
    exact fun _ => hkeeps (cuts_same rfl rfl rfl rfl)

/-- Wherever the length of the client leads, it is a NUL that is written. -/
theorem cuts_parseContent (s : HttpConn) (text : Nat) :
    Ensures (parseContent s text) fun r => Cuts s r.2 := by
  apply Ensures.ite
  · intro _
    apply Ensures.bind (R := NulsOnly s.mReadBuf)
    · constructor
      intro buf hstore
      obtain ⟨j, hj, -, rfl⟩ := storeAt_eq_ok hstore
      exact nulsOnly_set s.mReadBuf hj
    · intro buf hbuf
      exact Ensures.pure ⟨rfl, rfl, rfl, hbuf⟩
  · intro _
    exact Ensures.pure (cuts_same rfl rfl rfl rfl)

end Cuts

/-! ## The scanner -/

section Scanner

variable {s s' : HttpConn}

/-- `m_checked_index` steps over a CR and an LF that were received. -/
theorem LineTaken.bufferInv {p : Nat} (h : LineTaken s p s') (hinv : BufferInv s) :
    BufferInv s' := by
  have hread : s'.mReadIdx = s.mReadIdx := by rw [h.conn]
  have hstart : s'.mStartLine = s.mStartLine := by rw [h.conn]
  refine ⟨?_, ?_, ?_, ?_⟩
  · rw [hstart]
    exact hinv.start_le.trans h.lt.le
  · rw [hread]
    exact h.le
  · rw [hread]
    exact hinv.read_le
  · intro j hj hlt
    rw [hread] at hj
    exact h.erased.nulsOnly.nul (hinv.nul j hj hlt)

theorem bufferInv_parseLine (hinv : BufferInv s) :
    Ensures (parseLine s) fun r => BufferInv r.2 := by
  constructor
  rintro ⟨status, s'⟩ hparse
  have hscan := scan_of_parseLine hinv.read_le hparse
  by_cases hstatus : status = .lineOk
  · subst hstatus
    rcases hscan.of_lineOk with ⟨-, rfl⟩ | ⟨p, htaken⟩
    · exact hinv
    · exact htaken.bufferInv hinv
  · obtain rfl := hscan.eq_of_ne hstatus
    exact hinv

end Scanner

/-! ## read() -/

section Read

variable {s s' : HttpConn} {answers : List RecvAnswer} {ok : Bool}

/-- The received bytes take the place of the first NULs. -/
theorem Stored.bufferInv {bytes : List UInt8} (h : Stored s bytes s') (hinv : BufferInv s)
    (hle : s'.mReadIdx ≤ READ_BUFFER_SIZE) : BufferInv s' := by
  have hread := h.readIdx
  have hstart : s'.mStartLine = s.mStartLine := by rw [h.conn]
  have hchecked : s'.mCheckedIndex = s.mCheckedIndex := by rw [h.conn]
  refine ⟨?_, ?_, hle, ?_⟩
  · rw [hstart, hchecked]
    exact hinv.start_le
  · rw [hchecked, hread]
    exact hinv.checked_le.trans (Nat.le_add_right _ _)
  · intro j hj hlt
    rw [h.getElem?, if_neg (by omega)]
    exact hinv.nul j (by omega) hlt

theorem bufferInv_read (hinv : BufferInv s)
    (hrespect : RecvAnswer.AllRespect (READ_BUFFER_SIZE - s.mReadIdx) answers)
    (h : s.read answers = some (.ok (ok, s'))) :
    BufferInv s' ∧ (ok = true → s'.mReadIdx < READ_BUFFER_SIZE) := by
  obtain ⟨t, hstored, hle, hout, hlt, -⟩ := read_eq_of_respect hinv.read_le hrespect h
  obtain ⟨hret, rfl⟩ := Prod.mk.inj (Except.ok.inj hout)
  exact ⟨hstored.bufferInv hinv hle, fun htrue => hlt (hret.symm.trans htrue)⟩

end Read

/-! ## A pass of process_read() -/

/-- The slot when the `switch` is left. -/
def SwitchExit.conn : SwitchExit → HttpConn
  | .ret r => r.conn
  | .brk _ _ s => s

/-- The slot after a pass through the `while`. -/
def afterPass : Iter (HttpConn × LineStatus) Returned → HttpConn
  | .next (s, _) => s
  | .done r => r.conn

section Pass

variable {doRequest : HttpConn → HttpCode × HttpConn} {s : HttpConn}
  (hdo : ∀ t, BufferInv t → BufferInv (doRequest t).2)

include hdo

theorem bufferInv_caseContent (hinv : BufferInv s) (text : Nat) :
    Ensures (caseContent doRequest s text) fun e => BufferInv e.conn := by
  apply Ensures.bind (cuts_parseContent s text)
  rintro ⟨ret, t⟩ ht
  apply Ensures.ite
  · intro _
    exact Ensures.pure (hdo t (ht.bufferInv hinv))
  · intro _
    exact Ensures.pure (ht.bufferInv hinv)

theorem bufferInv_dispatch (hinv : BufferInv s) (status : LineStatus) (text : Nat) :
    Ensures (dispatch doRequest s status text) fun e => BufferInv e.conn := by
  rw [dispatch]
  cases s.mCheckState with
  | requestLine =>
      apply Ensures.bind (cuts_parseRequestLine s text)
      rintro ⟨ret, t⟩ ht
      apply Ensures.ite
      · intro _
        exact Ensures.pure (ht.bufferInv hinv)
      · intro _
        exact Ensures.pure (ht.bufferInv hinv)
  | header =>
      apply Ensures.bind (cuts_parseHeaders s text)
      rintro ⟨ret, t⟩ ht
      apply Ensures.ite
      · intro _
        exact Ensures.pure (ht.bufferInv hinv)
      intro _
      apply Ensures.ite
      · intro _
        exact Ensures.pure (hdo t (ht.bufferInv hinv))
      · intro _
        exact bufferInv_caseContent hdo (ht.bufferInv hinv) text
  | content => exact bufferInv_caseContent hdo hinv text

omit hdo in
theorem bufferInv_whileCond (hinv : BufferInv s) (status : LineStatus) :
    Ensures (whileCond s status) fun r => BufferInv r.2 := by
  apply Ensures.ite
  · intro _
    exact Ensures.pure hinv
  · intro _
    exact bufferInv_parseLine hinv

theorem bufferInv_iteration (hinv : BufferInv s) (status : LineStatus) :
    Ensures (iteration doRequest (s, status)) fun i => BufferInv (afterPass i) := by
  apply Ensures.bind (bufferInv_whileCond hinv status)
  rintro ⟨status', t⟩ ht
  apply Ensures.ite
  · intro _
    exact Ensures.pure ht
  intro _
  apply Ensures.after
  intro line
  -- `m_start_line = m_checked_index`
  have hline : BufferInv { t with mStartLine := t.mCheckedIndex } :=
    ⟨Nat.le_refl _, ht.checked_le, ht.read_le, ht.nul⟩
  apply Ensures.bind (bufferInv_dispatch hdo hline status' t.getLine)
  intro exit hexit
  cases exit with
  | ret r => exact Ensures.pure hexit
  | brk ret status'' u => exact Ensures.pure hexit

end Pass

/-! ## Every operation -/

/-- The operations on the slot, with what they are given. -/
inductive Op where
  | init
  | read (answers : List RecvAnswer)
  | parseLine
  | parseRequestLine (text : Nat)
  | parseHeaders (text : Nat)
  | parseContent (text : Nat)
  | iteration (status : LineStatus)

/-- What an operation leaves; `none` when it faults, and for a `read()` that
    does not end or answers that `recv` does not give. -/
def perform (doRequest : HttpConn → HttpCode × HttpConn) (s : HttpConn) : Op → Option HttpConn
  | .init => some s.init
  | .read answers =>
      if RecvAnswer.AllRespect (READ_BUFFER_SIZE - s.mReadIdx) answers then
        (s.read answers).bind fun out => out.toOption.map Prod.snd
      else none
  | .parseLine => s.parseLine.toOption.map Prod.snd
  | .parseRequestLine text => (s.parseRequestLine text).toOption.map Prod.snd
  | .parseHeaders text => (s.parseHeaders text).toOption.map Prod.snd
  | .parseContent text => (s.parseContent text).toOption.map Prod.snd
  | .iteration status => (iteration doRequest (s, status)).toOption.map afterPass

/-- What an operation ensures holds of what it leaves. -/
theorem of_ensures {α : Type} {x : Except Fault α} {f : α → HttpConn} {s' : HttpConn}
    {P : HttpConn → Prop} (h : Ensures x fun a => P (f a)) (hx : x.toOption.map f = some s') :
    P s' := by
  cases x with
  | error fault => cases hx
  | ok a =>
      cases hx
      exact h.result a rfl

/-- Step lemma. -/
theorem bufferInv_perform {doRequest : HttpConn → HttpCode × HttpConn} {s s' : HttpConn} {op : Op}
    (hdo : ∀ t, BufferInv t → BufferInv (doRequest t).2) (hinv : BufferInv s)
    (h : perform doRequest s op = some s') : BufferInv s' := by
  have hcuts {α : Type} {x : Except Fault (α × HttpConn)} (hx : Ensures x fun r => Cuts s r.2)
      (h : x.toOption.map Prod.snd = some s') : BufferInv s' :=
    Cuts.bufferInv (of_ensures hx h) hinv
  cases op with
  | init =>
      cases h
      exact bufferInv_init s
  | read answers =>
      rw [perform] at h
      by_cases hrespect : RecvAnswer.AllRespect (READ_BUFFER_SIZE - s.mReadIdx) answers
      · rw [if_pos hrespect] at h
        obtain ⟨out, hread, hout⟩ := Option.bind_eq_some_iff.mp h
        cases out with
        | error fault => cases hout
        | ok r =>
            cases hout
            exact (bufferInv_read hinv hrespect hread).1
      · rw [if_neg hrespect] at h
        cases h
  | parseLine => exact of_ensures (bufferInv_parseLine hinv) h
  | parseRequestLine text => exact hcuts (cuts_parseRequestLine s text) h
  | parseHeaders text => exact hcuts (cuts_parseHeaders s text) h
  | parseContent text => exact hcuts (cuts_parseContent s text) h
  | iteration status => exact of_ensures (bufferInv_iteration hdo hinv status) h

/-- A string at any index that is not beyond `m_read_idx`, unless the buffer is
    full: every scan that stops at a NUL ends. -/
theorem BufferInv.cstr {s : HttpConn} (h : BufferInv s) (hlt : s.mReadIdx < READ_BUFFER_SIZE)
    {i : Nat} (hi : i ≤ s.mReadIdx) :
    ∃ line, CStr s.mReadBuf i line ∧ i + line.length < READ_BUFFER_SIZE ∧
      ∀ p : UInt8 → Bool, p NUL = false → span s.mReadBuf p i = .ok (line.takeWhile p) := by
  obtain ⟨line, hline⟩ := readString_of_nul hi (h.nul _ (Nat.le_refl _) hlt)
  have hcstr := readString_eq_ok.mp hline
  exact ⟨line, hcstr, hcstr.length_lt, fun p hp => span_of_cstr hcstr hp⟩

/-- **The buffer.**  `init()` establishes the invariant, and every operation
    that does not fault keeps it, from every slot; so it holds after any run of
    operations.  After a `read()` that returned true there is room in the
    buffer, and every scan from `m_read_buf` or `get_line()` meets a NUL.  The
    empty body of `do_request` changes nothing, whatever it returns. -/
theorem buffer_invariant (code : HttpConn → HttpCode) :
    (∀ s : HttpConn, BufferInv s.init) ∧
    (∀ s op s', BufferInv s → perform (fun t => (code t, t)) s op = some s' → BufferInv s') ∧
    (∀ (s : HttpConn) ops s', exec (perform fun t => (code t, t)) s.init ops = some s' →
      BufferInv s') ∧
    (∀ s answers s', BufferInv s →
      RecvAnswer.AllRespect (READ_BUFFER_SIZE - s.mReadIdx) answers →
      s.read answers = some (.ok (true, s')) →
      s'.mReadIdx < READ_BUFFER_SIZE ∧ ∀ i, i = 0 ∨ i = s'.getLine →
        ∃ line, CStr s'.mReadBuf i line ∧ i + line.length < READ_BUFFER_SIZE ∧
          ∀ p : UInt8 → Bool, p NUL = false →
            span s'.mReadBuf p i = .ok (line.takeWhile p)) := by
  have hdo (t : HttpConn) (ht : BufferInv t) : BufferInv (code t, t).2 := ht
  have hstep (s : HttpConn) (op : Op) (s' : HttpConn) (hinv : BufferInv s)
      (h : perform (fun t => (code t, t)) s op = some s') : BufferInv s' :=
    bufferInv_perform hdo hinv h
  refine ⟨bufferInv_init, hstep, ?_, ?_⟩
  · intro s ops s' h
    exact exec_invariant (bufferInv_init s) hstep h
  · intro s answers s' hinv hrespect h
    obtain ⟨hinv', hlt⟩ := bufferInv_read hinv hrespect h
    refine ⟨hlt rfl, ?_⟩
    rintro i (rfl | rfl)
    · exact hinv'.cstr (hlt rfl) (Nat.zero_le _)
    · exact hinv'.cstr (hlt rfl) (hinv'.start_le.trans hinv'.checked_le)

/-- An empty line through the handlers, and a pass over the next byte. -/
example : (exec (perform noFile) zeroSlot.init
    [.read [.data (ascii "\r\nx"), .error .eagain], .parseLine, .parseHeaders 0,
      .parseContent 0, .iteration .lineOpen]).isSome = true := by
  decide +kernel

end HttpConn

end WebServer
