/-
  WebServer.HttpConn.Process

  `process()` calls `process_read()`, and calls it again when the first call
  has a result: the second call is made on the slot the first one left, and its
  result is dropped.

  After a result the slot stands between two lines, in the state in which it
  was answered (`Answered`).  The second call does nothing only where
  `parse_line` finds a byte that ends no line (`Idle`); everywhere else it
  answers again, consumes, cuts a line, spins or faults
  (`idle_of_nothing_done`).  So a request is handled once exactly if the first
  call leaves an idle slot (`handles_once_iff`), as it does from every slot in
  which one line is followed by a byte of the next (`OneLine.idle`).
-/

import WebServer.HttpConn.Termination

namespace WebServer

open WebServer.Lib

namespace HttpConn

variable {doRequest : HttpConn → HttpCode × HttpConn}

/-! ## One process() -/

/-- `process()` called on `s` ends with `out`. -/
def Process (doRequest : HttpConn → HttpCode × HttpConn) (s : HttpConn)
    (out : Except Fault Processed) : Prop :=
  ∃ fuel, process doRequest fuel s = some out

/-- What `process()` makes of the result of its first call. -/
def AfterFirst (doRequest : HttpConn → HttpCode × HttpConn) (first : Except Fault Returned)
    (out : Except Fault Processed) : Prop :=
  match first with
  | .error fault => out = .error fault
  | .ok r =>
      if r.code = .noRequest then out = .ok ⟨r.conn, r.requests, true⟩
      else ∃ second, ProcessRead doRequest r.conn second ∧
        out = second.map fun r' => ⟨r'.conn, r.requests ++ r'.requests, false⟩

/-- The same with fuel. -/
def secondCall (doRequest : HttpConn → HttpCode × HttpConn) (fuel : Nat) :
    Except Fault Returned → Option (Except Fault Processed)
  | .error fault => some (.error fault)
  | .ok r =>
      if r.code = .noRequest then some (.ok ⟨r.conn, r.requests, true⟩)
      else (processRead doRequest fuel r.conn).map fun second =>
        second.map fun r' => ⟨r'.conn, r.requests ++ r'.requests, false⟩

theorem process_eq (fuel : Nat) (s : HttpConn) :
    process doRequest fuel s = (processRead doRequest fuel s).bind (secondCall doRequest fuel) := by
  rw [process]
  cases processRead doRequest fuel s with
  | none => rfl
  | some first =>
      cases first with
      | error fault => rfl
      | ok r =>
          show (if r.code = .noRequest then _ else _) = (if r.code = .noRequest then _ else _)
          split
          · rfl
          · cases processRead doRequest fuel r.conn with
            | none => rfl
            | some second =>
                cases second with
                | error fault => rfl
                | ok r' => rfl

/-- Two calls of `process_read()`, without the fuel. -/
theorem process_iff {s : HttpConn} {out : Except Fault Processed} :
    Process doRequest s out ↔
      ∃ first, ProcessRead doRequest s first ∧ AfterFirst doRequest first out := by
  refine ⟨?_, ?_⟩
  · rintro ⟨fuel, hfuel⟩
    rw [process_eq] at hfuel
    obtain ⟨first, hfirst, hfuel⟩ := Option.bind_eq_some_iff.mp hfuel
    refine ⟨first, ⟨fuel, hfirst⟩, ?_⟩
    cases first with
    | error fault => exact (Option.some.inj hfuel).symm
    | ok r =>
        rw [AfterFirst]
        by_cases hcode : r.code = .noRequest
        · simp only [secondCall, if_pos hcode] at hfuel ⊢
          exact (Option.some.inj hfuel).symm
        · simp only [secondCall, if_neg hcode] at hfuel ⊢
          obtain ⟨second, hsecond, heq⟩ := Option.map_eq_some_iff.mp hfuel
          exact ⟨second, ⟨fuel, hsecond⟩, heq.symm⟩
  · rintro ⟨first, ⟨fuel, hfirst⟩, hafter⟩
    cases first with
    | error fault =>
        refine ⟨fuel, ?_⟩
        rw [process_eq, processRead, hfirst, show out = .error fault from hafter]
        rfl
    | ok r =>
        rw [AfterFirst] at hafter
        by_cases hcode : r.code = .noRequest
        · simp only [if_pos hcode] at hafter
          refine ⟨fuel, ?_⟩
          rw [process_eq, processRead, hfirst, Option.bind_some]
          simp only [secondCall, if_pos hcode, hafter]
        · simp only [if_neg hcode] at hafter
          obtain ⟨second, ⟨fuel', hsecond⟩, rfl⟩ := hafter
          -- both calls are cut off after the same number of passes
          refine ⟨max fuel fuel', ?_⟩
          have hfirst' := loop_mono (Nat.le_max_left fuel fuel') hfirst
          have hsecond' := loop_mono (Nat.le_max_right fuel fuel') hsecond
          rw [process_eq, processRead, hfirst', Option.bind_some]
          simp only [secondCall, if_neg hcode]
          rw [processRead, hsecond']
          rfl

/-- `process()` ends in one way. -/
theorem Process.unique {s : HttpConn} {out out' : Except Fault Processed}
    (h : Process doRequest s out) (h' : Process doRequest s out') : out = out' := by
  obtain ⟨first, hfirst, hafter⟩ := process_iff.mp h
  obtain ⟨first', hfirst', hafter'⟩ := process_iff.mp h'
  obtain rfl := hfirst.unique hfirst'
  cases first with
  | error fault => exact hafter.trans hafter'.symm
  | ok r =>
      rw [AfterFirst] at hafter hafter'
      by_cases hcode : r.code = .noRequest
      · simp only [if_pos hcode] at hafter hafter'
        rw [hafter, hafter']
      · simp only [if_neg hcode] at hafter hafter'
        obtain ⟨second, hsecond, rfl⟩ := hafter
        obtain ⟨second', hsecond', rfl⟩ := hafter'
        rw [hsecond.unique hsecond']

/-! ## After a result -/

/-- The same but for the socket and the address. -/
def SameParser (s s' : HttpConn) : Prop :=
  s' = { s with mSockfd := s'.mSockfd, mAddress := s'.mAddress }

/-- A `do_request` that answers something and leaves the parser alone. -/
structure LeavesParser (doRequest : HttpConn → HttpCode × HttpConn) : Prop where
  answers : ∀ s, (doRequest s).1 ≠ .noRequest
  keeps : ∀ s, SameParser s (doRequest s).2

/-- A slot as `process_read()` leaves it together with a result. -/
structure Answered (s : HttpConn) : Prop where
  inRange : InRange s
  start : s.mStartLine = s.mCheckedIndex
  ready : s.mCheckState = .content → BodyReady s

/-- `parse_line` stops at the byte behind `m_checked_index`. -/
structure Idle (s : HttpConn) : Prop where
  state : s.mCheckState ≠ .content
  lt : s.mCheckedIndex < s.mReadIdx
  not_ends : ¬ LineEnds s

theorem Answered.same {s s' : HttpConn} (h : Answered s) (hsame : SameParser s s') :
    Answered s' := by
  rw [SameParser] at hsame
  rw [hsame]
  exact ⟨⟨h.inRange.start_le, h.inRange.checked_le, h.inRange.read_lt⟩, h.start, h.ready⟩

theorem answered_of_ends (hdo : LeavesParser doRequest) {t : HttpConn} {r : Returned}
    (hrange : InRange t) (hstart : t.mStartLine = t.mCheckedIndex) (h : Ends doRequest t r) :
    Answered r.conn := by
  have hat {u : HttpConn} (hu : Handled t u) : u.mStartLine = u.mCheckedIndex := by
    rw [hu.start, hu.checked, hstart]
  cases h with
  | rejected u hu hstate =>
      refine ⟨hu.inRange hrange, hat hu, fun hcontent => ?_⟩
      rw [hstate] at hcontent
      cases hcontent
  | served u hu hstate =>
      have hanswered : Answered u := by
        refine ⟨hu.inRange hrange, hat hu, fun hcontent => ?_⟩
        rcases hstate with hheader | hready
        · rw [hheader] at hcontent
          cases hcontent
        · exact hready.2
      exact hanswered.same (hdo.keeps u)

/-- A call with a result. -/
theorem answered_of_processRead (hdo : LeavesParser doRequest) {s : HttpConn} {r : Returned}
    (hrange : InRange s) (h : ProcessRead doRequest s (.ok r)) (hcode : r.code ≠ .noRequest) :
    Answered r.conn := by
  refine Returns.invariant (I := AtHead)
    (P := fun r : Returned => r.code ≠ .noRequest → Answered r.conn)
    (fun _ _ => atHead_next doRequest) ?_ (atHead_start hrange) h hcode
  rintro ⟨s, status⟩ r hhead hpass hcode
  have hcases := pass_of_iteration doRequest hhead.1 status
  rw [hpass] at hcases
  cases hcases with
  | noLine => exact absurd rfl hcode
  | returns t hentered _ hswitch =>
      obtain ⟨ht, hstart⟩ := hentered.inRange hhead.1
      exact answered_of_ends hdo ht hstart hswitch.ends

/-! ## The second call -/

/-- The second call finds the byte and returns. -/
theorem processRead_of_idle {s : HttpConn} (hrange : InRange s) (h : Idle s) :
    ProcessRead doRequest s (.ok ⟨.noRequest, s, []⟩) := by
  have hbody : ¬ AtBody s .lineOk := fun hbody => h.state hbody.1
  have hpass := iteration_of_no_line doRequest hrange.read_lt hbody h.lt h.not_ends
  exact (returns_of_done hpass).mpr rfl

/-- A pass that waits for a body, from a slot in which none was missing: it has
    taken a line end, or moved on to the body, or it spins. -/
theorem Answered.of_waits {s t u : HttpConn} {line : List UInt8} (h : Answered s)
    (hentered : Entered s .lineOk t) (hline : CStr t.mReadBuf s.mStartLine line)
    (hat : AtContent t s.mStartLine u) (hwaits : ¬ BodyReady u) :
    s.mCheckedIndex < t.mCheckedIndex ∨ stage s.mCheckState < stage u.mCheckState ∨
      Spins u .lineOpen := by
  cases hentered with
  | body hbody =>
      cases hat with
      | content => exact absurd (h.ready hbody.1) hwaits
      | empty hstate =>
          cases hbody.1.symm.trans hstate
      | header hstate =>
          cases hbody.1.symm.trans hstate
  | exhausted hbody hidx =>
      rcases Nat.eq_or_lt_of_le hat.handled.stage with hsame | hlater
      · exact Or.inr (Or.inr (spins_of_atContent h.inRange h.start hidx hline hat hwaits hsame.symm))
      · exact Or.inr (Or.inl hlater)
  | line hbody s' hends htaken => exact Or.inl htaken.lt

/-- **The second call.**  Where it calls nothing and changes nothing, the slot
    was idle. -/
theorem idle_of_nothing_done {s : HttpConn} {r : Returned} (h : Answered s)
    (hread : ProcessRead doRequest s (.ok r)) (hnone : r.requests = [])
    (hsame : SameParser s r.conn) : Idle s := by
  have hchecked : r.conn.mCheckedIndex = s.mCheckedIndex := by rw [hsame]
  have hstate : r.conn.mCheckState = s.mCheckState := by rw [hsame]
  have hbuf : r.conn.mReadBuf = s.mReadBuf := by rw [hsame]
  have hcases := pass_of_iteration doRequest h.inRange .lineOk
  cases hpass : iteration doRequest (s, .lineOk) with
  | error fault =>
      cases (returns_of_error hpass).mp hread
  | ok iter =>
      rw [hpass] at hcases
      cases hcases with
      | noLine hbody hlt hends => exact ⟨fun hcontent => hbody ⟨hcontent, rfl⟩, hlt, hends⟩
      | returns t hentered r' hswitch =>
          obtain rfl : r = r' := Except.ok.inj ((returns_of_done hpass).mp hread)
          cases hswitch with
          | rejected ht u hrejected =>
              -- a byte of the line became a NUL
              obtain ⟨i, b, hb, hne, hnul⟩ := hrejected.cut
              rw [show u.mReadBuf = s.mReadBuf from hbuf] at hnul
              have hnul' := hentered.advances.nulsOnly.nul hnul
              rw [hb] at hnul'
              exact absurd (Option.some.inj hnul') hne
          | complete => cases hnone
          | body => cases hnone
      | goesOn t hentered line hline code status u hswitch =>
          have hreturns := (returns_of_next hpass).mp hread
          have hhead := atHead_next doRequest (atHead_start h.inRange) hpass
          have hadv := advances_of_returns doRequest hhead hreturns hnone
          have hhandled := hswitch.handled
          cases hswitch with
          | accepted ht p _ haccepted =>
              have hstage := hadv.stage
              rw [hstate, ← hentered.state, ht, show (u, _).1.mCheckState = .header by
                rw [haccepted.conn]] at hstage
              exact absurd hstage (by decide)
          | waits _ hat hwaits =>
              rcases h.of_waits hentered hline hat hwaits with hlt | hlater | hspins
              · have hle := hadv.checked
                rw [hchecked, hhandled.checked] at hle
                omega
              · have hstage := hadv.stage
                rw [hstate] at hstage
                exact absurd hlater (Nat.not_lt.mpr hstage)
              · have hrepeat := iteration_of_spins doRequest hspins hhead.1
                exact absurd hreturns (not_returns_of_repeat hrepeat)

/-! ## Handling a request once -/

/-- `process()` does what one `process_read()` does: the same fault, or the same
    calls of `do_request` and the same parser fields. -/
def HandlesOnce (doRequest : HttpConn → HttpCode × HttpConn) (s : HttpConn) : Prop :=
  (∀ fault, ProcessRead doRequest s (.error fault) → Process doRequest s (.error fault)) ∧
    ∀ r, ProcessRead doRequest s (.ok r) →
      ∃ p, Process doRequest s (.ok p) ∧ p.requests = r.requests ∧ SameParser r.conn p.conn

/-- **Once.**  `process()` handles a request once if and only if the slot its
    first `process_read()` leaves with a result is idle: outside the body, with
    a byte behind `m_checked_index` that ends no line. -/
theorem handles_once_iff (doRequest : HttpConn → HttpCode × HttpConn)
    (hdo : LeavesParser doRequest) (s : HttpConn) (hrange : InRange s) :
    HandlesOnce doRequest s ↔
      ∀ r, ProcessRead doRequest s (.ok r) → r.code ≠ .noRequest → Idle r.conn := by
  refine ⟨?_, fun hidle => ⟨fun fault hread => ?_, fun r hread => ?_⟩⟩
  · rintro ⟨-, hok⟩ r hread hcode
    obtain ⟨p, hprocess, hrequests, hsame⟩ := hok r hread
    obtain ⟨first, hfirst, hafter⟩ := process_iff.mp hprocess
    obtain rfl := hfirst.unique hread
    simp only [AfterFirst, if_neg hcode] at hafter
    obtain ⟨second, hsecond, hout⟩ := hafter
    cases second with
    | error fault => cases hout
    | ok r' =>
        cases hout
        have hnone : r'.requests = [] := by simpa using hrequests
        exact idle_of_nothing_done (answered_of_processRead hdo hrange hread hcode) hsecond hnone
          hsame
  · exact process_iff.mpr ⟨_, hread, rfl⟩
  · by_cases hcode : r.code = .noRequest
    · refine ⟨⟨r.conn, r.requests, true⟩, process_iff.mpr ⟨_, hread, ?_⟩, rfl, rfl⟩
      simp only [AfterFirst, if_pos hcode]
    · have hanswered := answered_of_processRead hdo hrange hread hcode
      have hsecond : ProcessRead doRequest r.conn (.ok ⟨.noRequest, r.conn, []⟩) :=
        processRead_of_idle hanswered.inRange (hidle r hread hcode)
      refine ⟨⟨r.conn, r.requests, false⟩, process_iff.mpr ⟨_, hread, ?_⟩, rfl, rfl⟩
      simp only [AfterFirst, if_neg hcode]
      exact ⟨_, hsecond, by simp [Except.map]⟩

theorem noFile_leavesParser : LeavesParser noFile := ⟨fun _ => nofun, fun _ => rfl⟩

/-! ## On the slot itself -/

/-- A line ends at `p`, next to `m_checked_index`; a byte that is neither CR nor
    LF stands behind it; and the line does not open a body. -/
structure OneLine (s : HttpConn) (p : Nat) : Prop where
  state : s.mCheckState ≠ .content
  place : p = s.mCheckedIndex ∨ (0 < p ∧ p + 1 = s.mCheckedIndex)
  cr : s.mReadBuf[p]? = some CR
  lf : s.mReadBuf[p + 1]? = some LF
  behind_lt : p + 2 < s.mReadIdx
  behind : ∃ b, s.mReadBuf[p + 2]? = some b ∧ isBreak b = false
  no_body : s.mCheckState = .header →
    s.mContentLength = 0 ∨ (s.mStartLine < p ∧ s.mReadBuf[s.mStartLine]? ≠ some NUL)

theorem Idle.same {s s' : HttpConn} (h : Idle s) (hsame : SameParser s s') : Idle s' := by
  rw [SameParser] at hsame
  rw [hsame]
  exact ⟨h.state, h.lt, h.not_ends⟩

section OneLine

variable {s t u : HttpConn} {p : Nat}

theorem OneLine.lineEnds (h : OneLine s p) : LineEnds s :=
  lineEnds_of_place h.place (Nat.le_of_lt h.behind_lt) h.cr h.lf

/-- The line is taken. -/
theorem OneLine.entered {status : LineStatus} (h : OneLine s p) (hentered : Entered s status t) :
    t.mCheckedIndex = p + 2 ∧
      (∀ j, j ≠ p → j ≠ p + 1 → t.mReadBuf[j]? = s.mReadBuf[j]?) ∧
      t.mContentLength = s.mContentLength := by
  cases hentered with
  | body hbody => exact absurd hbody.1 h.state
  | exhausted _ hidx => exact absurd hidx (Nat.ne_of_lt h.lineEnds.checked_lt)
  | line _ q s' htaken =>
      obtain rfl : p = q := htaken.place_unique h.place h.cr h.lf
      refine ⟨htaken.checked, fun j hj hj' => ?_, ?_⟩
      · show s'.mReadBuf[j]? = _
        rw [htaken.erased.bytes j, if_neg (by omega)]
      · rw [htaken.conn]

/-- The byte behind it stops `parse_line`. -/
theorem OneLine.stops {status : LineStatus} (h : OneLine s p) (hentered : Entered s status t)
    (hhandled : Handled t u) : u.mCheckedIndex < u.mReadIdx ∧ ¬ LineEnds u := by
  obtain ⟨hchecked, hbytes, -⟩ := h.entered hentered
  obtain ⟨b, hb, hbreak⟩ := h.behind
  rw [← hbytes (p + 2) (by omega) (by omega), ← hchecked, ← hhandled.checked] at hb
  refine ⟨?_, fun hends => ?_⟩
  · rw [hhandled.checked, hhandled.read, hchecked, hentered.advances.read]
    exact h.behind_lt
  · rcases hhandled.nulsOnly u.mCheckedIndex with hsame | hnul
    · rw [hends.isBreak (hsame.trans hb)] at hbreak
      cases hbreak
    · cases hends.isBreak hnul

/-- The content case is not reached in the content state. -/
theorem OneLine.not_content {status : LineStatus} (h : OneLine s p) (hentered : Entered s status t)
    (hat : AtContent t s.mStartLine u) : u.mCheckState ≠ .content := by
  obtain ⟨-, hbytes, hlength⟩ := h.entered hentered
  have ht := hentered.state
  cases hat with
  | content hstate => exact fun _ => h.state (ht.symm.trans hstate)
  | empty hstate hnul hne =>
      rw [hlength] at hne
      rcases h.no_body (ht.symm.trans hstate) with hzero | ⟨hlt, hbyte⟩
      · exact absurd hzero hne
      · rw [hbytes _ (by omega) (by omega)] at hnul
        exact absurd hnul hbyte
  | header hstate => exact fun hcontent => by cases hstate.symm.trans hcontent

/-- If the line has a result, an idle slot is left. -/
theorem OneLine.idle_of_ret (hdo : LeavesParser doRequest) {status : LineStatus} {r : Returned}
    (h : OneLine s p) (hentered : Entered s status t)
    (hswitch : Switch doRequest t s.mStartLine (.ok (.ret r))) : Idle r.conn := by
  cases hswitch with
  | rejected hstate u hrejected =>
      have hstops := h.stops hentered hrejected.handled
      refine ⟨?_, hstops.1, hstops.2⟩
      show u.mCheckState ≠ .content
      rw [hrejected.conn, hstate]
      decide
  | complete hstate =>
      have hstops := h.stops hentered
        (⟨rfl, rfl, rfl, Nat.le_refl _, NulsOnly.refl _⟩ : Handled t t)
      refine Idle.same ⟨?_, hstops.1, hstops.2⟩ (hdo.keeps t)
      rw [hstate]
      decide
  | body u hat _ i hi =>
      have hstops := h.stops hentered (hat.handled.set hi)
      have hstate : u.mCheckState ≠ .content := h.not_content hentered hat
      have hidle : Idle { u with mReadBuf := u.mReadBuf.set i NUL } := ⟨hstate, hstops.1, hstops.2⟩
      exact hidle.same (hdo.keeps _)

/-- If it has none, the next pass is for a line of its own. -/
theorem not_atBody_of_brk {text : Nat} {code : HttpCode} {status : LineStatus}
    (hswitch : Switch doRequest t text (.ok (.brk code status u))) : ¬ AtBody u status := by
  cases hswitch with
  | accepted _ _ _ haccepted =>
      rintro ⟨hcontent, -⟩
      rw [haccepted.conn] at hcontent
      cases hcontent
  | waits => exact not_atBody_lineOpen u

/-- **A call on such a slot** leaves an idle one, if it has a result: it takes
    the line, and stops at the byte behind it. -/
theorem OneLine.idle (hdo : LeavesParser doRequest) (hrange : InRange s) (h : OneLine s p)
    {r : Returned} (hread : ProcessRead doRequest s (.ok r)) (hcode : r.code ≠ .noRequest) :
    Idle r.conn := by
  have hcases := pass_of_iteration doRequest hrange .lineOk
  cases hpass : iteration doRequest (s, .lineOk) with
  | error fault => cases (returns_of_error hpass).mp hread
  | ok iter =>
      rw [hpass] at hcases
      cases hcases with
      | noLine _ _ hends => exact absurd h.lineEnds hends
      | returns t hentered r' hswitch =>
          obtain rfl : r = r' := Except.ok.inj ((returns_of_done hpass).mp hread)
          exact h.idle_of_ret hdo hentered hswitch
      | goesOn t hentered line hline code status u hswitch =>
          -- the next pass finds no line and returns NO_REQUEST
          have hstops := h.stops hentered hswitch.handled
          have hrange' := (atHead_next doRequest (atHead_start hrange) hpass).1
          have hnext := iteration_of_no_line doRequest hrange'.read_lt (not_atBody_of_brk hswitch)
            hstops.1 hstops.2
          have hreturns := (returns_of_done hnext).mp ((returns_of_next hpass).mp hread)
          rw [Except.ok.inj hreturns] at hcode
          exact absurd rfl hcode

end OneLine

/-- A request line that is rejected, and a byte behind it. -/
def rejectedLine : HttpConn :=
  { zeroSlot with
    mCheckedIndex := 3, mReadIdx := 6, mReadBuf := bufOf (ascii "P /\r\nx") }

/-- The second call stops at the byte. -/
theorem handles_once_iff_rejected : HandlesOnce noFile rejectedLine := by
  have hrange : InRange rejectedLine := ⟨by decide, by decide, by decide⟩
  have hline : OneLine rejectedLine 3 :=
    ⟨nofun, Or.inl rfl, rfl, rfl, by decide, ⟨120, rfl, rfl⟩, nofun⟩
  exact (handles_once_iff noFile noFile_leavesParser rejectedLine hrange).mpr
    (fun _ hread hcode => hline.idle noFile_leavesParser hrange hread hcode)

/-- A complete body is handed to `do_request` twice. -/
theorem body_answered_twice :
    (∃ r, ProcessRead noFile twoBytes (.ok r) ∧ r.requests.length = 1) ∧
      (∃ p, Process noFile twoBytes (.ok p) ∧ p.requests.length = 2) ∧
      ¬ HandlesOnce noFile twoBytes := by
  obtain ⟨r, hread, hone⟩ : ∃ r, ProcessRead noFile twoBytes (.ok r) ∧ r.requests.length = 1 :=
    ⟨_, ⟨1, rfl⟩, rfl⟩
  obtain ⟨p, hprocess, htwo⟩ : ∃ p, Process noFile twoBytes (.ok p) ∧ p.requests.length = 2 :=
    ⟨_, ⟨1, rfl⟩, rfl⟩
  refine ⟨⟨r, hread, hone⟩, ⟨p, hprocess, htwo⟩, ?_⟩
  rintro ⟨-, hok⟩
  obtain ⟨p', hprocess', hrequests, -⟩ := hok r hread
  obtain rfl : p = p' := Except.ok.inj (hprocess.unique hprocess')
  rw [hrequests, hone] at htwo
  cases htwo

end HttpConn

end WebServer
