/-
  WebServer.HttpConn.Session

  A client's byte stream from `init()` on: every chunk is stored by a `read()`
  that returns true and followed by one `process_read()`.

  The parser of the source stops at the first byte it looks at.  `parse_line`
  returns `LINE_OPEN` from inside its loop, so as long as the first byte is
  neither CR nor LF nothing is ever consumed; and it returns `LINE_OK` for an
  exhausted buffer, so an empty stream is taken for an empty request line, in
  which the search for a blank finds nothing and its null result is written
  through.  `processRead_received` is this behaviour as one equation, and
  `serves_outcome` the resulting outcomes for every stream and every cut.
-/

import WebServer.HttpConn.Receive
import WebServer.HttpConn.Scan
import Mathlib.Data.List.GetD
import Mathlib.Data.List.Infix

namespace WebServer

open WebServer.Lib

namespace HttpConn

/-! ## The slot after some bytes -/

/-- The buffer that holds `bytes` and zeros behind them. -/
def bufOf (bytes : List UInt8) : Vector UInt8 READ_BUFFER_SIZE :=
  ⟨((bytes ++ List.replicate READ_BUFFER_SIZE NUL).take READ_BUFFER_SIZE).toArray, by simp⟩

/-- The slot when `bytes` have been received since `init()` and the parser has
    not moved. -/
def received (s : HttpConn) (bytes : List UInt8) : HttpConn :=
  { s.init with mReadBuf := bufOf bytes, mReadIdx := bytes.length }

@[simp] theorem received_mReadBuf (s : HttpConn) (bytes : List UInt8) :
    (s.received bytes).mReadBuf = bufOf bytes := rfl

@[simp] theorem received_mReadIdx (s : HttpConn) (bytes : List UInt8) :
    (s.received bytes).mReadIdx = bytes.length := rfl

theorem received_append (s : HttpConn) (bytes chunk : List UInt8) :
    { s.received bytes with
        mReadBuf := bufOf (bytes ++ chunk)
        mReadIdx := bytes.length + chunk.length } = s.received (bytes ++ chunk) := by
  simp only [received, List.length_append]

theorem bufOf_getElem (bytes : List UInt8) {i : Nat} (h : i < READ_BUFFER_SIZE) :
    (bufOf bytes)[i] = bytes.getD i NUL := by
  simp only [bufOf, Vector.getElem_mk, List.getElem_toArray, List.getElem_take]
  by_cases hi : i < bytes.length
  · rw [List.getElem_append_left hi, List.getD_eq_getElem _ _ hi]
  · rw [List.getElem_append_right (by omega), List.getElem_replicate,
      List.getD_eq_default _ _ (by omega)]

theorem bufOf_getElem? {bytes : List UInt8} {i : Nat} (h : i < READ_BUFFER_SIZE) :
    (bufOf bytes)[i]? = some (bytes.getD i NUL) := by
  rw [Vector.getElem?_eq_getElem h, bufOf_getElem bytes h]

/-- What was received is there. -/
theorem bufOf_getElem?_of_lt {bytes : List UInt8} {i : Nat} (hi : i < bytes.length)
    (hfits : bytes.length ≤ READ_BUFFER_SIZE) : (bufOf bytes)[i]? = bytes[i]? := by
  rw [bufOf_getElem? (by omega), List.getD_eq_getElem _ _ hi, List.getElem?_eq_getElem hi]

theorem bufOf_nil : bufOf [] = Vector.replicate READ_BUFFER_SIZE NUL := by
  apply Vector.ext
  intro i hi
  simp [bufOf_getElem]

theorem init_eq_received (s : HttpConn) : s.init = s.received [] := by
  simp [received, bufOf_nil, init]

/-- Storing the next byte. -/
theorem bufOf_set {bytes : List UInt8} {b : UInt8} (h : bytes.length < READ_BUFFER_SIZE) :
    (bufOf bytes).set bytes.length b = bufOf (bytes ++ [b]) := by
  apply Vector.ext
  intro i hi
  rw [Vector.getElem_set, bufOf_getElem _ hi, bufOf_getElem _ hi]
  -- at the new byte, behind it (zeros on both sides), before it
  by_cases hib : bytes.length = i
  · subst hib
    simp
  · rw [if_neg hib]
    rcases Nat.lt_or_gt_of_ne hib with hlt | hgt
    · rw [List.getD_eq_default _ _ (by omega), List.getD_eq_default _ _ (by simp; omega)]
    · rw [List.getD_append _ _ _ _ hgt]

theorem storeAll_bufOf (bytes chunk : List UInt8)
    (h : bytes.length + chunk.length ≤ READ_BUFFER_SIZE) :
    storeAll (bufOf bytes) bytes.length chunk = .ok (bufOf (bytes ++ chunk)) := by
  induction chunk generalizing bytes with
  | nil => simp [storeAll]
  | cons b chunk ih =>
      simp only [List.length_cons] at h
      have hlt : bytes.length < READ_BUFFER_SIZE := by omega
      have hrest := ih (bytes ++ [b]) (by simp; omega)
      rw [List.length_append, List.length_singleton] at hrest
      simp only [storeAll, store_of_lt hlt, bufOf_set hlt, bind, Except.bind]
      rw [hrest, List.append_assoc]
      rfl

/-! ## One read -/

theorem stored_received (s : HttpConn) {bytes chunk : List UInt8}
    (h : bytes.length + chunk.length ≤ READ_BUFFER_SIZE) :
    Stored (s.received bytes) chunk (s.received (bytes ++ chunk)) where
  conn := (received_append s bytes chunk).symm
  buf := storeAll_bufOf bytes chunk h

/-- **`read()` since `init()`.**  It can return true for exactly the chunks
    that do not fill the buffer, and then holds them behind the bytes before. -/
theorem reads_received {s s' : HttpConn} {bytes chunk : List UInt8}
    (hlen : bytes.length < READ_BUFFER_SIZE) :
    Reads (s.received bytes) chunk s' ↔
      bytes.length + chunk.length < READ_BUFFER_SIZE ∧ s' = s.received (bytes ++ chunk) := by
  rw [reads_iff hlen]
  constructor
  · rintro ⟨hstored, hroom⟩
    have hidx : s'.mReadIdx = bytes.length + chunk.length := hstored.readIdx
    have hlt : bytes.length + chunk.length < READ_BUFFER_SIZE := hidx ▸ hroom
    exact ⟨hlt, hstored.unique (stored_received s (Nat.le_of_lt hlt))⟩
  · rintro ⟨hlt, rfl⟩
    have hroom : (bytes ++ chunk).length < READ_BUFFER_SIZE := by
      rw [List.length_append]
      exact hlt
    exact ⟨stored_received s (Nat.le_of_lt hlt), hroom⟩

/-! ## process_read on an unparsed stream -/

/-- The streams on which the parser writes through a null pointer: nothing at
    all, or an empty request line. -/
def Crashes (bytes : List UInt8) : Prop := bytes = [] ∨ [CR, LF] <+: bytes

instance (bytes : List UInt8) : Decidable (Crashes bytes) :=
  inferInstanceAs (Decidable (_ ∨ _))

/-- The first line end that `parse_line` can find since `init()`: at index 0 no
    CR stands before an LF. -/
theorem lineEnds_received {s : HttpConn} {bytes : List UInt8}
    (hlen : bytes.length ≤ READ_BUFFER_SIZE) :
    LineEnds (s.received bytes) ↔ [CR, LF] <+: bytes := by
  constructor
  · rintro (⟨hcr, hlt, hlf⟩ | ⟨-, hone, -⟩)
    · have hlt : 0 + 1 < bytes.length := hlt
      have hcr : (bufOf bytes)[0]? = some CR := hcr
      have hlf : (bufOf bytes)[0 + 1]? = some LF := hlf
      rw [bufOf_getElem? (by omega), Option.some.injEq] at hcr hlf
      match bytes, hcr, hlf, hlt with
      | b :: c :: rest, hcr, hlf, _ =>
          obtain rfl : b = CR := hcr
          obtain rfl : c = LF := hlf
          exact ⟨rest, rfl⟩
    · exact absurd hone (Nat.not_lt_zero 1)
  · rintro ⟨rest, rfl⟩
    simp only [List.cons_append, List.nil_append, List.length_cons] at hlen
    refine Or.inl ⟨?_, ?_, ?_⟩
    · show (bufOf (CR :: LF :: rest))[0]? = some CR
      rw [bufOf_getElem? (by omega)]
      rfl
    · show 0 + 1 < (CR :: LF :: rest).length
      simp
    · show (bufOf (CR :: LF :: rest))[0 + 1]? = some LF
      rw [bufOf_getElem? (by omega)]
      rfl

theorem lineOk_received_iff {s : HttpConn} {bytes : List UInt8}
    (hlen : bytes.length ≤ READ_BUFFER_SIZE) :
    (s.received bytes).mReadIdx ≤ (s.received bytes).mCheckedIndex ∨ LineEnds (s.received bytes) ↔
      Crashes bytes := by
  rw [lineEnds_received hlen, Crashes, received_mReadIdx]
  show bytes.length ≤ 0 ∨ _ ↔ _
  rw [Nat.le_zero, List.length_eq_zero_iff]

/-- Nothing but the first byte, and the second one behind a CR, decides what
    `parse_line` returns, and a crash-free stream is left alone. -/
theorem parseLine_received {s : HttpConn} {bytes : List UInt8}
    (hlen : bytes.length ≤ READ_BUFFER_SIZE) (h : ¬ Crashes bytes) :
    ∃ status, status ≠ .lineOk ∧
      parseLine (s.received bytes) = .ok (status, s.received bytes) := by
  rw [← lineOk_received_iff (s := s) hlen, not_or] at h
  exact parseLine_open hlen (Nat.not_le.mp h.1) h.2

/-- The empty stream and the empty request line are both taken for a complete
    line of no characters. -/
theorem parseLine_received_crash {s : HttpConn} {bytes : List UInt8}
    (hlen : bytes.length ≤ READ_BUFFER_SIZE) (h : Crashes bytes) :
    ∃ s', parseLine (s.received bytes) = .ok (.lineOk, s') ∧ s'.mStartLine = 0 ∧
      s'.mCheckState = .requestLine ∧ s'.mReadBuf[0]? = some NUL := by
  obtain ⟨status, s', hparse, hscan⟩ := parseLine_scan (s := s.received bytes) hlen
  obtain rfl : status = .lineOk := hscan.lineOk_iff.mpr ((lineOk_received_iff hlen).mpr h)
  refine ⟨s', hparse, ?_⟩
  rcases hscan.of_lineOk with ⟨hle, rfl⟩ | ⟨p, htaken⟩
  · -- an exhausted buffer is `LINE_OK`, and the zeros of `init()` are the line
    obtain rfl : bytes = [] := List.length_eq_zero_iff.mp (Nat.le_zero.mp hle)
    exact ⟨rfl, rfl, bufOf_getElem? (by decide)⟩
  · -- the CRLF is replaced by two NULs, so a NUL stands at index 0
    obtain rfl : p = 0 := Nat.le_zero.mp htaken.at_le
    refine ⟨?_, ?_, ?_⟩
    · rw [htaken.conn]
      rfl
    · rw [htaken.conn]
      rfl
    · rw [htaken.erased.bytes, if_pos (Or.inl rfl)]

/-- An empty request line: `strpbrk` finds no blank and its result is written
    through. -/
theorem parseRequestLine_of_nul {s : HttpConn} {text : Nat} (h : s.mReadBuf[text]? = some NUL) :
    parseRequestLine s text = .error .nullDeref := by
  rw [parseRequestLine, strpbrk_of_nul h, ok_bind, cutAt, error_bind]

theorem dispatch_of_nul (doRequest : HttpConn → HttpCode × HttpConn) {s : HttpConn} {text : Nat}
    {lineStatus : LineStatus} (hstate : s.mCheckState = .requestLine)
    (h : s.mReadBuf[text]? = some NUL) :
    dispatch doRequest s lineStatus text = .error .nullDeref := by
  simp only [dispatch, hstate]
  rw [parseRequestLine_of_nul h, error_bind]

/-- The first pass through the loop of `process_read` is the last one. -/
theorem iteration_received (doRequest : HttpConn → HttpCode × HttpConn) {s : HttpConn}
    {bytes : List UInt8} (hlen : bytes.length ≤ READ_BUFFER_SIZE) :
    iteration doRequest (s.received bytes, .lineOk) =
      if Crashes bytes then .error .nullDeref
      else .ok (.done ⟨.noRequest, s.received bytes, []⟩) := by
  have hcond : whileCond (s.received bytes) .lineOk = parseLine (s.received bytes) := by
    rw [whileCond, if_neg]
    rintro ⟨hstate, -⟩
    exact absurd hstate (by simp [received, init])
  by_cases h : Crashes bytes
  · obtain ⟨s', hparse, hstart, hstate, hnul⟩ := parseLine_received_crash (s := s) hlen h
    obtain ⟨text, htext⟩ := readString_of_nul (Nat.le_refl 0) hnul
    have hline : s'.getLine = 0 := hstart
    have hdispatch : dispatch doRequest { s' with mStartLine := s'.mCheckedIndex } .lineOk 0
        = .error .nullDeref := dispatch_of_nul doRequest hstate hnul
    rw [if_pos h]
    simp only [iteration, hcond, hparse, ok_bind, hline, htext, hdispatch, error_bind]
    rfl
  · obtain ⟨status, hstatus, hparse⟩ := parseLine_received (s := s) hlen h
    rw [if_neg h]
    simp only [iteration, hcond, hparse, ok_bind]
    rw [if_pos hstatus]
    rfl

theorem processRead_succ (doRequest : HttpConn → HttpCode × HttpConn) {s : HttpConn}
    {bytes : List UInt8} (hlen : bytes.length ≤ READ_BUFFER_SIZE) (fuel : Nat) :
    processRead doRequest (fuel + 1) (s.received bytes) =
      some (if Crashes bytes then .error .nullDeref
        else .ok ⟨.noRequest, s.received bytes, []⟩) := by
  rw [processRead, loop, iteration_received doRequest hlen]
  by_cases h : Crashes bytes
  · simp only [if_pos h]
  · simp only [if_neg h]

/-- **`process_read` on everything received since `init()`.**  It dereferences
    the null pointer on the streams that crash; on all others it returns
    `NO_REQUEST`, calls nothing and changes nothing. -/
theorem processRead_received (doRequest : HttpConn → HttpCode × HttpConn) {s : HttpConn}
    {bytes : List UInt8} (hlen : bytes.length ≤ READ_BUFFER_SIZE)
    {out : Except Fault Returned} :
    ProcessRead doRequest (s.received bytes) out ↔
      out = if Crashes bytes then .error .nullDeref
        else .ok ⟨.noRequest, s.received bytes, []⟩ := by
  exact returns_iff (processRead_succ doRequest hlen)

/-- So `process()` arms the socket of every new connection again, until it
    crashes: the branch that answers a request is not reached. -/
theorem process_received (doRequest : HttpConn → HttpCode × HttpConn) {s : HttpConn}
    {bytes : List UInt8} (hlen : bytes.length ≤ READ_BUFFER_SIZE) (fuel : Nat) :
    process doRequest (fuel + 1) (s.received bytes) =
      some (if Crashes bytes then .error .nullDeref else .ok ⟨s.received bytes, [], true⟩) := by
  rw [process, processRead_succ doRequest hlen]
  by_cases h : Crashes bytes
  · rw [if_pos h, if_pos h]
    rfl
  · rw [if_neg h, if_neg h]
    rfl

/-! ## Chunk after chunk -/

/-- The chunks are received one by one, each followed by a `process_read()`;
    `outs` are the results.  A fault ends the run. -/
inductive Serves (doRequest : HttpConn → HttpCode × HttpConn) :
    HttpConn → List (List UInt8) → List (Except Fault Returned) → Prop where
  | nil (s : HttpConn) : Serves doRequest s [] []
  | returned {s s' : HttpConn} {chunk : List UInt8} {r : Returned} {chunks : List (List UInt8)}
      {outs : List (Except Fault Returned)} (hread : Reads s chunk s')
      (hprocess : ProcessRead doRequest s' (.ok r)) (hrest : Serves doRequest r.conn chunks outs) :
      Serves doRequest s (chunk :: chunks) (.ok r :: outs)
  | fault {s s' : HttpConn} {chunk : List UInt8} {f : Fault} (hread : Reads s chunk s')
      (hprocess : ProcessRead doRequest s' (.error f)) :
      Serves doRequest s [chunk] [.error f]

/-- What has arrived when the `process_read()` after chunk `k` is made. -/
def bytesAt (chunks : List (List UInt8)) (k : Nat) : List UInt8 :=
  (chunks.take (k + 1)).flatten

theorem bytesAt_cons_succ (chunk : List UInt8) (chunks : List (List UInt8)) (k : Nat) :
    bytesAt (chunk :: chunks) (k + 1) = chunk ++ bytesAt chunks k := rfl

theorem bytesAt_flatten (chunks : List (List UInt8)) (k : Nat) :
    bytesAt chunks k <+: chunks.flatten := by
  refine ⟨(chunks.drop (k + 1)).flatten, ?_⟩
  rw [bytesAt, ← List.flatten_append, List.take_append_drop]

theorem bytesAt_last (chunks : List (List UInt8)) :
    bytesAt chunks (chunks.length - 1) = chunks.flatten := by
  rw [bytesAt, List.take_of_length_le (by omega)]

/-- The result of the `process_read()` that finds `bytes` in the buffer. -/
def outcome (s : HttpConn) (bytes : List UInt8) : Except Fault Returned :=
  if Crashes bytes then .error .nullDeref else .ok ⟨.noRequest, s.received bytes, []⟩

section Runs

variable {doRequest : HttpConn → HttpCode × HttpConn} {s : HttpConn}
  {chunks : List (List UInt8)} {outs : List (Except Fault Returned)}

/-- Induction over the run: as long as nothing crashes the slot stays the one
    that `received` describes. -/
theorem serves_received {t : HttpConn} (h : Serves doRequest t chunks outs)
    {bytes : List UInt8} (ht : t = s.received bytes) (hlen : bytes.length < READ_BUFFER_SIZE) :
    outs.length = chunks.length ∧
      ∀ k, k < chunks.length → outs[k]? = some (outcome s (bytes ++ bytesAt chunks k)) := by
  induction h generalizing bytes with
  | nil => simp
  | @returned t t' chunk r chunks outs hread hprocess hrest ih =>
      subst ht
      obtain ⟨hfit, rfl⟩ := (reads_received hlen).mp hread
      have hlen' : (bytes ++ chunk).length < READ_BUFFER_SIZE := by
        rw [List.length_append]
        exact hfit
      have hout := (processRead_received doRequest (Nat.le_of_lt hlen')).mp hprocess
      -- the call returned, so the stream did not crash and the slot is unchanged
      have hconn : r.conn = s.received (bytes ++ chunk) := by
        by_cases hcrash : Crashes (bytes ++ chunk)
        · rw [if_pos hcrash] at hout
          cases hout
        · rw [if_neg hcrash] at hout
          cases hout
          rfl
      obtain ⟨hcount, hrec⟩ := ih hconn hlen'
      refine ⟨by rw [List.length_cons, List.length_cons, hcount], ?_⟩
      intro k hk
      cases k with
      | zero => simpa [bytesAt, outcome] using hout
      | succ k =>
          have hk' : k < chunks.length := by simpa using hk
          rw [List.getElem?_cons_succ, hrec k hk', bytesAt_cons_succ, ← List.append_assoc]
  | @fault t t' chunk f hread hprocess =>
      subst ht
      obtain ⟨hfit, rfl⟩ := (reads_received hlen).mp hread
      have hlen' : (bytes ++ chunk).length < READ_BUFFER_SIZE := by
        rw [List.length_append]
        exact hfit
      have hout := (processRead_received doRequest (Nat.le_of_lt hlen')).mp hprocess
      refine ⟨rfl, ?_⟩
      intro k hk
      obtain rfl : k = 0 := by simpa using hk
      simpa [bytesAt, outcome] using hout

/-- **Every run since `init()`.**  The result of each call is a function of the
    bytes received before it; how they were cut does not matter. -/
theorem serves_outcome (h : Serves doRequest s.init chunks outs) :
    outs.length = chunks.length ∧
      ∀ k, k < chunks.length → outs[k]? = some (outcome s (bytesAt chunks k)) := by
  have hlen : ([] : List UInt8).length < READ_BUFFER_SIZE := by decide
  simpa using serves_received h (init_eq_received s) hlen

/-- A stream that fits the buffer and does not crash is received to its end. -/
theorem serves_exists {bytes : List UInt8}
    (hlen : (bytes ++ chunks.flatten).length < READ_BUFFER_SIZE)
    (hsafe : ∀ k, k < chunks.length → ¬ Crashes (bytes ++ bytesAt chunks k)) :
    ∃ outs, Serves doRequest (s.received bytes) chunks outs := by
  induction chunks generalizing bytes with
  | nil => exact ⟨[], .nil _⟩
  | cons chunk chunks ih =>
      rw [List.flatten_cons, ← List.append_assoc] at hlen
      have hlen' : (bytes ++ chunk).length < READ_BUFFER_SIZE := by
        rw [List.length_append] at hlen
        omega
      have hread : Reads (s.received bytes) chunk (s.received (bytes ++ chunk)) := by
        rw [List.length_append] at hlen'
        exact (reads_received (by omega)).mpr ⟨hlen', rfl⟩
      have hcrash : ¬ Crashes (bytes ++ chunk) := by
        simpa [bytesAt] using hsafe 0 (by simp)
      have hprocess : ProcessRead doRequest (s.received (bytes ++ chunk))
          (.ok ⟨.noRequest, s.received (bytes ++ chunk), []⟩) := by
        rw [processRead_received doRequest (Nat.le_of_lt hlen'), if_neg hcrash]
      -- call `k` of the rest is call `k + 1` of the whole
      obtain ⟨outs, houts⟩ := ih hlen (by
        intro k hk
        have := hsafe (k + 1) (by simpa using hk)
        rwa [bytesAt_cons_succ, ← List.append_assoc] at this)
      exact ⟨_, .returned hread hprocess houts⟩

end Runs

end HttpConn

end WebServer
