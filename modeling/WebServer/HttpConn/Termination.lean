/-
  WebServer.HttpConn.Termination

  When a call of `process_read` ends.

  Every pass that goes on decreases `remaining`, or leads to a slot whose pass
  repeats itself (`pass_decreases`): everything buffered has been consumed and
  `parse_content` waits for a body (`Spins`).  `terminates_iff` says that a call
  ends exactly if it comes to no such slot.

  On the slot the call is made on: a byte that belongs to no line end keeps it
  from spinning (`not_spins_of_textAhead`), and in the content state it spins
  exactly if the body is not complete, its end does not wrap around, and
  nothing but line ends is buffered (`spins_content_iff`).
-/

import WebServer.HttpConn.Passes

namespace WebServer

open WebServer.Lib

namespace HttpConn

section Termination

variable (doRequest : HttpConn → HttpCode × HttpConn)

/-! ## Slots that spin -/

/-- The passes that are left to a state without another byte. -/
def rank : CheckState → LineStatus → Nat
  | .requestLine, _ => 3
  | .header, .lineOk => 2
  | .header, _ => 1
  | .content, .lineOk => 1
  | .content, _ => 0

/-- What is left to do: the bytes, four passes to each, and the states. -/
def remaining : HttpConn × LineStatus → Nat
  | (s, status) => 4 * (s.mReadIdx - s.mCheckedIndex) + rank s.mCheckState status

/-- The slots whose pass repeats itself: everything buffered has been consumed,
    and `parse_content` waits for a body. -/
structure Spins (s : HttpConn) (status : LineStatus) : Prop where
  status_open : status = .lineOpen
  start : s.mStartLine = s.mReadIdx
  exhausted : s.mCheckedIndex = s.mReadIdx
  awaited : 0 < s.mContentLength.toInt ∧ s.mContentLength.toInt + s.mReadIdx < 2 ^ 31
  line : ∃ line, CStr s.mReadBuf s.mReadIdx line ∧
    (s.mCheckState = .content ∨
      s.mCheckState = .header ∧ line ≠ [] ∧ s.afterHeader ⟨s.mReadIdx, line⟩ = s)

theorem Spins.not_ready {s : HttpConn} {status : LineStatus} (h : Spins s status)
    (hrange : InRange s) : ¬ BodyReady s := by
  have hawaited := h.awaited
  rw [hrange.bodyReady_iff, h.exhausted]
  omega

/-- `m_start_line = m_checked_index`, where it is so already. -/
theorem startLine_self {s : HttpConn} (h : s.mStartLine = s.mCheckedIndex) :
    { s with mStartLine := s.mCheckedIndex } = s := by
  cases s
  cases h
  rfl

/-- The pass of such a slot. -/
theorem iteration_of_spins {s : HttpConn} {status : LineStatus} (h : Spins s status)
    (hrange : InRange s) :
    iteration doRequest (s, status) = .ok (.next (s, status)) := by
  obtain ⟨line, hline, hstate⟩ := h.line
  obtain rfl := h.status_open
  have hcond : whileCond s .lineOpen = .ok (.lineOk, s) := by
    rw [whileCond_line (not_atBody_lineOpen s), parseLine_exhausted h.exhausted.ge]
  have hself := startLine_self (h.start.trans h.exhausted.symm)
  have hwaits : caseContent doRequest s s.mReadIdx = .ok (.brk .noRequest .lineOpen s) :=
    caseContent_waits doRequest (h.not_ready hrange)
  have hdispatch : dispatch doRequest s .lineOk s.mReadIdx = .ok (.brk .noRequest .lineOpen s) := by
    rcases hstate with hcontent | ⟨hheader, hne, hafter⟩
    · simp only [dispatch, hcontent]
      exact hwaits
    · have hfall := dispatch_header doRequest ⟨s.mReadIdx, line⟩ ⟨hne, hline⟩ hheader
      rw [hafter] at hfall
      exact hfall.trans hwaits
  rw [iteration_of_whileCond doRequest hcond rfl, h.start, readString_of_cstr hline, ok_bind, hself,
    hdispatch]
  rfl

/-- Reading a header line twice is reading it once. -/
theorem afterHeader_afterHeader (s : HttpConn) (line : HeaderLine) :
    (s.afterHeader line).afterHeader line = s.afterHeader line := by
  simp only [afterHeader, Bool.or_assoc, Bool.or_self]
  cases hasName contentLengthName line.bytes with
  | true =>
      cases hasName hostName line.bytes with
      | true => rfl
      | false => rfl
  | false =>
      cases hasName hostName line.bytes with
      | true => rfl
      | false => rfl

/-- A slot from which a pass has come back to the content case with nothing
    consumed. -/
theorem spins_of_atContent {s u : HttpConn} {line : List UInt8} (hrange : InRange s)
    (hstart : s.mStartLine = s.mCheckedIndex) (hidx : s.mCheckedIndex = s.mReadIdx)
    (hline : CStr s.mReadBuf s.mStartLine line)
    (hat : AtContent { s with mStartLine := s.mCheckedIndex } s.mStartLine u)
    (hwaits : ¬ BodyReady u) (hsame : stage u.mCheckState = stage s.mCheckState) :
    Spins u .lineOpen := by
  rw [startLine_self hstart] at hat
  rw [hstart, hidx] at hline hat
  have hhandled := hat.handled
  have hidx' : u.mCheckedIndex = u.mReadIdx := by rw [hhandled.checked, hhandled.read, hidx]
  have hready := mt (hhandled.inRange hrange).bodyReady_iff.mpr hwaits
  rw [hidx', not_or] at hready
  refine ⟨rfl, ?_, hidx', by omega, line, ?_⟩
  · rw [hhandled.start, hhandled.read, hstart, hidx]
  · rw [hhandled.read]
    cases hat with
    | content hstate => exact ⟨hline, Or.inl hstate⟩
    | empty hstate =>
        -- the empty line changes the state, and nothing has
        rw [hstate] at hsame
        cases hsame
    | header hstate line' hin =>
        obtain rfl : line = line' := hline.unique hin.2
        exact ⟨hline, Or.inr ⟨hstate, hin.1, afterHeader_afterHeader s _⟩⟩

/-- Coming to the content case without a new byte. -/
theorem rank_of_atContent {s t u : HttpConn} {status : LineStatus} {text : Nat}
    (hstate : t.mCheckState = s.mCheckState) (hat : AtContent t text u)
    (hless : status = .lineOk ∨ stage s.mCheckState < stage u.mCheckState) :
    rank u.mCheckState .lineOpen < rank s.mCheckState status := by
  rw [← hstate] at hless ⊢
  cases hat with
  | content ht =>
      obtain rfl := hless.resolve_right (Nat.lt_irrefl _)
      rw [ht]
      exact Nat.zero_lt_one
  | empty ht =>
      rw [ht]
      cases status with
      | lineOk => exact Nat.zero_lt_two
      | lineBad => exact Nat.zero_lt_one
      | lineOpen => exact Nat.zero_lt_one
  | header ht line hin =>
      obtain rfl := hless.resolve_right (Nat.lt_irrefl _)
      show rank t.mCheckState .lineOpen < _
      rw [ht]
      exact Nat.one_lt_two

/-- **Progress.**  A pass that goes on has less to do behind it, or leads to a
    slot that spins. -/
theorem pass_decreases {p p' : HttpConn × LineStatus} (h : AtHead p)
    (hpass : iteration doRequest p = .ok (.next p')) :
    remaining p' < remaining p ∨ Spins p'.1 p'.2 := by
  obtain ⟨s, status⟩ := p
  obtain ⟨u, status'⟩ := p'
  obtain ⟨t, line, hentered, hline, code, hswitch⟩ := next_of_iteration doRequest h.1 hpass
  have hhandled := hswitch.handled
  have hread := hentered.advances.read
  have hchecked := hentered.advances.checked
  rw [remaining, remaining, hhandled.checked, hhandled.read, hread]
  cases hswitch with
  | accepted ht p _ haccepted =>
      have hu : u.mCheckState = .header := by rw [haccepted.conn]
      have hs : s.mCheckState = .requestLine := by rw [← hentered.state, ht]
      rw [hu, hs]
      left
      simp only [rank]
      omega
  | waits _ hat hwaits =>
      cases hentered with
      | line hbody p s' htaken =>
          -- a line end was taken, and one byte outweighs any rank
          have hlt := htaken.lt
          have hle := htaken.le
          have hrank : rank u.mCheckState .lineOpen ≤ 1 := by
            rcases hat.state with hu | hu
            · rw [hu]
              exact Nat.le_refl 1
            · rw [hu]
              exact Nat.zero_le 1
          left
          show 4 * (s.mReadIdx - s'.mCheckedIndex) + _ < _
          omega
      | body hbody =>
          -- the next pass asks for a line, because the status is LINE_OPEN now
          left
          exact Nat.add_lt_add_left (rank_of_atContent rfl hat (Or.inl hbody.2)) _
      | exhausted hbody hidx =>
          by_cases hstatus : status = .lineOk
          · left
            exact Nat.add_lt_add_left (rank_of_atContent rfl hat (Or.inl hstatus)) _
          · rcases Nat.eq_or_lt_of_le hhandled.stage with hsame | hlater
            · -- no byte, no new state: this pass was the same as the next one will be
              right
              exact spins_of_atContent h.1 (h.2 hstatus) hidx hline hat hwaits hsame.symm
            · left
              exact Nat.add_lt_add_left (rank_of_atContent rfl hat (Or.inr hlater)) _

/-- A slot that repeats itself spins. -/
theorem spins_of_repeat {s : HttpConn} {status : LineStatus} (h : AtHead (s, status))
    (hpass : iteration doRequest (s, status) = .ok (.next (s, status))) : Spins s status := by
  rcases pass_decreases doRequest h hpass with hlt | hspins
  · exact absurd hlt (Nat.lt_irrefl _)
  · exact hspins

/-- **Termination of `process_read`.**  From a slot in range it ends if and only
    if it comes to no slot that spins. -/
theorem terminates_iff (s : HttpConn) (h : InRange s) :
    (∃ out, ProcessRead doRequest s out) ↔
      ∀ t status, Reaches (iteration doRequest) (s, .lineOk) (t, status) → ¬ Spins t status := by
  have hrepeat {p : HttpConn × LineStatus} (hp : AtHead p) :
      iteration doRequest p = .ok (.next p) ↔ Spins p.1 p.2 :=
    ⟨spins_of_repeat doRequest hp, fun hspins => iteration_of_spins doRequest hspins hp.1⟩
  have hreached {p : HttpConn × LineStatus}
      (hreach : Reaches (iteration doRequest) (s, .lineOk) p) : AtHead p :=
    hreach.invariant (fun _ _ => atHead_next doRequest) (atHead_start h)
  have hloop : (∃ out, ProcessRead doRequest s out) ↔
      ∀ p, Reaches (iteration doRequest) (s, .lineOk) p → iteration doRequest p ≠ .ok (.next p) :=
    returns_iff_no_repeat (I := AtHead) (m := remaining) (fun _ _ => atHead_next doRequest)
      (fun p p' hp hpass => (pass_decreases doRequest hp hpass).imp_right
        (hrepeat (atHead_next doRequest hp hpass)).mpr) (atHead_start h)
  rw [hloop]
  refine ⟨fun hno t status hreach hspins => ?_, fun hno p hreach hpass => ?_⟩
  · exact hno (t, status) hreach ((hrepeat (hreached hreach)).mpr hspins)
  · exact hno p.1 p.2 hreach ((hrepeat (hreached hreach)).mp hpass)

end Termination

/-! ## On the slot itself -/

section Slot

variable {doRequest : HttpConn → HttpCode × HttpConn} {s s' : HttpConn} {p : Nat}

/-- Behind `m_checked_index` a byte is buffered that is neither CR nor LF. -/
def TextAhead (s : HttpConn) : Prop :=
  ∃ (i : Nat) (b : UInt8), s.mCheckedIndex ≤ i ∧ i < s.mReadIdx ∧ s.mReadBuf[i]? = some b ∧
    isBreak b = false

/-- No pass that goes on takes such a byte; it may become a NUL. -/
theorem textAhead_next {q q' : HttpConn × LineStatus} (h : InRange q.1) (htext : TextAhead q.1)
    (hpass : iteration doRequest q = .ok (.next q')) : TextAhead q'.1 := by
  obtain ⟨s, status⟩ := q
  obtain ⟨u, status'⟩ := q'
  obtain ⟨t, line, hentered, -, code, hswitch⟩ := next_of_iteration doRequest h hpass
  obtain ⟨i, b, hlow, hhigh, hb, hbreak⟩ := htext
  have hchecked : t.mCheckedIndex ≤ i := by
    cases hentered with
    | body => exact hlow
    | exhausted _ hidx => exact absurd hidx (Nat.ne_of_lt (hlow.trans_lt hhigh))
    | line _ p s' htaken =>
        refine Nat.le_of_not_lt (fun hlt => ?_)
        rw [htaken.isBreak hlow hlt hb] at hbreak
        cases hbreak
  have hhandled := hswitch.handled
  have hbounds : u.mCheckedIndex ≤ i ∧ i < u.mReadIdx := by
    rw [hhandled.checked, hhandled.read, hentered.advances.read]
    exact ⟨hchecked, hhigh⟩
  rcases (hentered.advances.nulsOnly.trans hhandled.nulsOnly) i with hsame | hnul
  · exact ⟨i, b, hbounds.1, hbounds.2, hsame.trans hb, hbreak⟩
  · exact ⟨i, NUL, hbounds.1, hbounds.2, hnul, rfl⟩

/-- A call on such a slot comes to none that spins, whatever the state and the
    length. -/
theorem not_spins_of_textAhead (h : InRange s) (htext : TextAhead s) {t : HttpConn}
    {status : LineStatus} (hreach : Reaches (iteration doRequest) (s, .lineOk) (t, status)) :
    ¬ Spins t status := by
  have hkept : AtHead (t, status) ∧ TextAhead t := by
    refine hreach.invariant (I := fun q => AtHead q ∧ TextAhead q.1) ?_ ⟨atHead_start h, htext⟩
    rintro q q' ⟨hhead, hq⟩ hpass
    exact ⟨atHead_next doRequest hhead hpass, textAhead_next hhead.1 hq hpass⟩
  intro hspins
  obtain ⟨i, -, hlow, hhigh, -⟩ := hkept.2
  rw [hspins.exhausted] at hlow
  omega

/-- `k` line ends, one behind the other, from `p` on. -/
def LineEndsFrom (buf : Vector UInt8 READ_BUFFER_SIZE) (p k : Nat) : Prop :=
  ∀ i < k, buf[p + 2 * i]? = some CR ∧ buf[p + 2 * i + 1]? = some LF

/-- Nothing but line ends is buffered from `m_checked_index` on; the first CR
    may stand before it. -/
def Drains (s : HttpConn) : Prop :=
  ∃ p k, (p = s.mCheckedIndex ∨ (0 < p ∧ 0 < k ∧ p + 1 = s.mCheckedIndex)) ∧
    p + 2 * k = s.mReadIdx ∧ LineEndsFrom s.mReadBuf p k

/-- Where something is left, a line ends. -/
theorem Drains.lineEnds (h : Drains s) (hlt : s.mCheckedIndex < s.mReadIdx) : LineEnds s := by
  obtain ⟨p, k, hplace, hread, hends⟩ := h
  obtain ⟨hcr, hlf⟩ := hends 0 (by omega)
  exact lineEnds_of_place (hplace.imp_right fun h => ⟨h.1, h.2.2⟩) (by omega) hcr hlf

/-- Taking one of them leaves the others. -/
theorem LineTaken.drains_iff (h : LineTaken s p s') : Drains s' ↔ Drains s := by
  have hread : s'.mReadIdx = s.mReadIdx := by rw [h.conn]
  have hbytes (j : Nat) (hj : p + 2 ≤ j) : s'.mReadBuf[j]? = s.mReadBuf[j]? := by
    rw [h.erased.bytes j, if_neg (by omega)]
  refine ⟨?_, ?_⟩
  · rintro ⟨q, k, hplace, hq, hends⟩
    rw [h.checked] at hplace
    rw [hread] at hq
    -- a CR just before `m_checked_index` has become a NUL
    obtain rfl : q = p + 2 := by
      rcases hplace with hq | ⟨-, hk, hq⟩
      · exact hq
      · have hcr := (hends 0 hk).1
        rw [Nat.mul_zero, Nat.add_zero, h.erased.bytes q, if_pos (by omega)] at hcr
        cases hcr
    refine ⟨p, k + 1, h.place.imp_right fun hp => ⟨hp.1, Nat.succ_pos k, hp.2⟩, by omega, ?_⟩
    intro i hi
    cases i with
    | zero => exact ⟨h.cr, h.lf⟩
    | succ i =>
        have hend := hends i (by omega)
        rw [hbytes _ (by omega), hbytes _ (by omega)] at hend
        rw [show p + 2 * (i + 1) = p + 2 + 2 * i by omega]
        exact hend
  · rintro ⟨q, k, hplace, hq, hends⟩
    have hinside := h.inside
    have hk : 0 < k := by
      have := h.place
      omega
    have hfirst := hends 0 hk
    obtain rfl : q = p :=
      h.place_unique (hplace.imp_right fun hq => ⟨hq.1, hq.2.2⟩) hfirst.1 hfirst.2
    refine ⟨q + 2, k - 1, Or.inl h.checked.symm, by omega, fun i hi => ?_⟩
    rw [hbytes _ (by omega), hbytes _ (by omega), show q + 2 + 2 * i = q + 2 * (i + 1) by omega]
    exact hends (i + 1) (by omega)

/-- A slot that waits for its body, between two passes. -/
structure Waiting (s : HttpConn) : Prop where
  inRange : InRange s
  state : s.mCheckState = .content
  start : s.mStartLine = s.mCheckedIndex
  nul : s.mReadBuf[s.mReadIdx]? = some NUL
  missing : s.mReadIdx < s.mContentLength.toInt + s.mCheckedIndex
  no_wrap : s.mContentLength.toInt + s.mReadIdx < 2 ^ 31

theorem Waiting.not_ready (h : Waiting s) : ¬ BodyReady s := by
  have hmissing := h.missing
  have hwrap := h.no_wrap
  have hle := h.inRange.checked_le
  rw [h.inRange.bodyReady_iff]
  omega

/-- A pass that takes a line end from the body. -/
theorem Waiting.next (doRequest : HttpConn → HttpCode × HttpConn) (h : Waiting s) (hends : LineEnds s) :
    ∃ p s', LineTaken s p s' ∧
      iteration doRequest (s, .lineOpen)
        = .ok (.next ({ s' with mStartLine := s'.mCheckedIndex }, .lineOpen)) ∧
      Waiting { s' with mStartLine := s'.mCheckedIndex } := by
  obtain ⟨p, s', hparse, htaken⟩ := parseLine_ends (Nat.le_of_lt h.inRange.read_lt) hends
  have hstart : s'.mStartLine = s.mStartLine := by rw [htaken.conn]
  have hread : s'.mReadIdx = s.mReadIdx := by rw [htaken.conn]
  have hlength : s'.mContentLength = s.mContentLength := by rw [htaken.conn]
  have hstate : s'.mCheckState = .content := by
    rw [htaken.conn]
    exact h.state
  have hwaiting : Waiting { s' with mStartLine := s'.mCheckedIndex } := by
    have hmissing := h.missing
    have hlt := htaken.lt
    refine ⟨⟨Nat.le_refl _, ?_, ?_⟩, hstate, rfl, ?_, ?_, ?_⟩
    · exact hread ▸ htaken.le
    · exact hread ▸ h.inRange.read_lt
    · show s'.mReadBuf[s'.mReadIdx]? = _
      rw [hread]
      exact htaken.erased.nulsOnly.nul h.nul
    · show (s'.mReadIdx : Int) < s'.mContentLength.toInt + s'.mCheckedIndex
      rw [hread, hlength]
      omega
    · show s'.mContentLength.toInt + (s'.mReadIdx : Int) < _
      rw [hread, hlength]
      exact h.no_wrap
  refine ⟨p, s', htaken, ?_, hwaiting⟩
  -- the line that is printed is empty: its first byte is one of the two NULs
  have hline : CStr s'.mReadBuf s.mStartLine [] := by
    show s'.mReadBuf[s.mStartLine]? = some NUL
    have hplace := htaken.place
    rw [h.start, htaken.erased.bytes, if_pos (by omega)]
  have hdispatch : dispatch doRequest { s' with mStartLine := s'.mCheckedIndex } .lineOk s.mStartLine
      = .ok (.brk .noRequest .lineOpen { s' with mStartLine := s'.mCheckedIndex }) := by
    simp only [dispatch, hstate]
    exact caseContent_waits doRequest hwaiting.not_ready
  rw [iteration_of_whileCond doRequest ((whileCond_line (not_atBody_lineOpen s)).trans hparse) hstart,
    readString_of_cstr hline, ok_bind, hdispatch]
  rfl

/-- The line ends are taken one after the other, and then nothing is left. -/
theorem Waiting.reaches_spins (doRequest : HttpConn → HttpCode × HttpConn) (h : Waiting s)
    (hdrains : Drains s) :
    ∃ t, Reaches (iteration doRequest) (s, .lineOpen) (t, .lineOpen) ∧ Spins t .lineOpen := by
  induction hk : s.mReadIdx - s.mCheckedIndex using Nat.strongRecOn generalizing s with
  | ind k ih =>
      have hle := h.inRange.checked_le
      by_cases hlt : s.mCheckedIndex < s.mReadIdx
      · obtain ⟨p, s', htaken, hpass, hwaiting⟩ := h.next doRequest (hdrains.lineEnds hlt)
        have hread : s'.mReadIdx = s.mReadIdx := by rw [htaken.conn]
        have hless : s'.mReadIdx - s'.mCheckedIndex < k := by
          have := htaken.lt
          omega
        obtain ⟨t, hreach, hspins⟩ := ih _ hless hwaiting (htaken.drains_iff.mpr hdrains) rfl
        exact ⟨t, Relation.ReflTransGen.head hpass hreach, hspins⟩
      · have hidx : s.mCheckedIndex = s.mReadIdx := by omega
        have hmissing := h.missing
        exact ⟨s, Relation.ReflTransGen.refl, rfl, h.start.trans hidx, hidx, ⟨by omega, h.no_wrap⟩, [],
          h.nul, Or.inl h.state⟩

/-- A pass in the content state that goes on. -/
theorem next_of_content {status status' : LineStatus} (hrange : InRange s)
    (hstate : s.mCheckState = .content)
    (hpass : iteration doRequest (s, status) = .ok (.next (s', status'))) :
    s'.mCheckState = .content ∧ s'.mContentLength = s.mContentLength ∧
      s'.mReadIdx = s.mReadIdx ∧ (Drains s' ↔ Drains s) ∧
      (status = .lineOk → ¬ BodyReady s) := by
  obtain ⟨t, line, hentered, -, code, hswitch⟩ := next_of_iteration doRequest hrange hpass
  have ht : t.mCheckState = .content := hentered.state.trans hstate
  have hwaits : s' = t ∧ ¬ BodyReady t := by
    cases hswitch with
    | accepted hrequest => cases ht.symm.trans hrequest
    | waits _ hat hwaits =>
        cases hat with
        | content => exact ⟨rfl, hwaits⟩
        | empty hheader => cases ht.symm.trans hheader
        | header hheader => cases ht.symm.trans hheader
  obtain ⟨rfl, hwaits⟩ := hwaits
  cases hentered with
  | body => exact ⟨hstate, rfl, rfl, Iff.rfl, fun _ => hwaits⟩
  | exhausted hbody => exact ⟨hstate, rfl, rfl, Iff.rfl, fun hok => absurd ⟨hstate, hok⟩ hbody⟩
  | line hbody p t htaken =>
      refine ⟨ht, ?_, ?_, htaken.drains_iff, fun hok => absurd ⟨hstate, hok⟩ hbody⟩
      · rw [htaken.conn]
      · rw [htaken.conn]

/-- **In the content state** a call comes to a slot that spins if and only if
    the body is not complete, its end does not wrap around, and nothing but line
    ends is buffered. -/
theorem spins_content_iff (doRequest : HttpConn → HttpCode × HttpConn) (hrange : InRange s)
    (hstate : s.mCheckState = .content) (hnul : s.mReadBuf[s.mReadIdx]? = some NUL) :
    (∃ t status, Reaches (iteration doRequest) (s, .lineOk) (t, status) ∧ Spins t status) ↔
      s.mReadIdx < s.mContentLength.toInt + s.mCheckedIndex ∧
        s.mContentLength.toInt + s.mReadIdx < 2 ^ 31 ∧ Drains s := by
  refine ⟨?_, ?_⟩
  · rintro ⟨t, status, hreach, hspins⟩
    -- the first pass has found the body not complete
    obtain ⟨q, hpass, -⟩ : ∃ q, iteration doRequest (s, .lineOk) = .ok (.next q) ∧
        Reaches (iteration doRequest) q (t, status) := by
      rcases Relation.ReflTransGen.cases_head hreach with heq | hfirst
      · cases heq
        cases hspins.status_open
      · exact hfirst
    have hmissing := mt hrange.bodyReady_iff.mpr ((next_of_content hrange hstate hpass).2.2.2.2 rfl)
    obtain ⟨-, -, hlength, hread, hdrains⟩ : AtHead (t, status) ∧ t.mCheckState = .content ∧
        t.mContentLength = s.mContentLength ∧ t.mReadIdx = s.mReadIdx ∧ (Drains t ↔ Drains s) := by
      refine hreach.invariant (I := fun q => AtHead q ∧ q.1.mCheckState = .content ∧
        q.1.mContentLength = s.mContentLength ∧ q.1.mReadIdx = s.mReadIdx ∧
        (Drains q.1 ↔ Drains s)) ?_ ⟨atHead_start hrange, hstate, rfl, rfl, Iff.rfl⟩
      rintro q q' ⟨hhead, hcontent, hlength, hread, hdrains⟩ hpass
      obtain ⟨hcontent', hlength', hread', hdrains', -⟩ :=
        next_of_content hhead.1 hcontent hpass
      exact ⟨atHead_next doRequest hhead hpass, hcontent', hlength'.trans hlength,
        hread'.trans hread, hdrains'.trans hdrains⟩
    -- where everything is consumed no line end is left
    have hempty : Drains t := ⟨t.mCheckedIndex, 0, Or.inl rfl, hspins.exhausted, fun i hi => by omega⟩
    have hwrap := hspins.awaited.2
    rw [hlength, hread] at hwrap
    exact ⟨by omega, hwrap, hdrains.mp hempty⟩
  · rintro ⟨hmissing, hwrap, hdrains⟩
    have hwaiting : Waiting { s with mStartLine := s.mCheckedIndex } :=
      ⟨⟨Nat.le_refl _, hrange.checked_le, hrange.read_lt⟩, hstate, rfl, hnul, hmissing, hwrap⟩
    obtain ⟨line, hline⟩ := readString_of_nul (hrange.start_le.trans hrange.checked_le) hnul
    have hdispatch : dispatch doRequest { s with mStartLine := s.mCheckedIndex } .lineOk s.mStartLine
        = .ok (.brk .noRequest .lineOpen { s with mStartLine := s.mCheckedIndex }) := by
      simp only [dispatch, hstate]
      exact caseContent_waits doRequest hwaiting.not_ready
    have hpass : iteration doRequest (s, .lineOk)
        = .ok (.next ({ s with mStartLine := s.mCheckedIndex }, .lineOpen)) := by
      rw [iteration_of_whileCond doRequest (whileCond_body ⟨hstate, rfl⟩) rfl, hline, ok_bind, hdispatch]
      rfl
    obtain ⟨t, hreach, hspins⟩ := hwaiting.reaches_spins doRequest hdrains
    exact ⟨t, .lineOpen, Relation.ReflTransGen.head hpass hreach, hspins⟩

end Slot

/-- A body of two bytes, complete. -/
def twoBytes : HttpConn :=
  { zeroSlot with
    mCheckState := .content, mContentLength := 2, mReadIdx := 2, mReadBuf := bufOf (ascii "ab") }

theorem terminates_iff_twoBytes :
    (∃ out, ProcessRead noFile twoBytes out) ∧
      ∀ t status, Reaches (iteration noFile) (twoBytes, .lineOk) (t, status) → ¬ Spins t status := by
  have hrange : InRange twoBytes := ⟨by decide, by decide, by decide⟩
  have htext : TextAhead twoBytes := ⟨0, 97, by decide, by decide, rfl, rfl⟩
  have hno : ∀ t status, Reaches (iteration noFile) (twoBytes, .lineOk) (t, status) →
      ¬ Spins t status := fun t status hreach => not_spins_of_textAhead hrange htext hreach
  exact ⟨(terminates_iff noFile twoBytes hrange).mpr hno, hno⟩

/-- A body of one byte is announced and has not come. -/
def noByte : HttpConn := { zeroSlot with mCheckState := .content, mContentLength := 1 }

/-- `parse_line` answers LINE_OK for the exhausted buffer, `parse_content` waits
    for the byte, and the worker never comes back. -/
theorem body_wait_spins : InRange noByte ∧ ¬ ∃ out, ProcessRead noFile noByte out := by
  have hrange : InRange noByte := ⟨by decide, by decide, by decide⟩
  refine ⟨hrange, ?_⟩
  rintro ⟨out, hout⟩
  have hfirst : iteration noFile (noByte, .lineOk) = .ok (.next (noByte, .lineOpen)) := rfl
  have hagain : iteration noFile (noByte, .lineOpen) = .ok (.next (noByte, .lineOpen)) := rfl
  exact not_returns_of_repeat hagain ((returns_of_next hfirst).mp hout)

end HttpConn

end WebServer
