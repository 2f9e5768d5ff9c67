/-
  WebServer.HttpConn.Content

  What the test of `parse_content` is applied to.

  `parse_content` takes the body for complete when `m_read_idx` has reached
  `m_content_length + m_checked_index`, a sum of two `int`s that wraps, and
  then writes a NUL at `text + m_content_length` (`BodyReady` in `Switch`).

    * The length is whatever a client sent, through `atol` and a conversion to
      `int`: `content_length_iff` says for which numerals the write stays at
      the end of the body.
    * The header case of the `switch` falls through into the content case, so
      the test is also made behind every header line and behind the empty line:
      `headers_end_iff` says when a header section survives that.
-/

import WebServer.HttpConn.Headers
import WebServer.HttpConn.Switch

namespace WebServer

open WebServer.Lib

namespace HttpConn

/-! ## Content-Length numerals -/

/-- A Content-Length line whose value is an optionally signed numeral. -/
structure LengthLine where
  name : List UInt8
  gap : List UInt8
  sign : List UInt8
  digits : List UInt8
  name_length : eqIgnoreCase name contentLengthName = true
  gap_blank : ∀ b ∈ gap, b ∈ blanks
  sign_sign : sign = [] ∨ sign = ascii "+" ∨ sign = ascii "-"
  digits_ne : digits ≠ []
  digits_digit : ∀ b ∈ digits, isdigit b = true

namespace LengthLine

def bytes (line : LengthLine) : List UInt8 :=
  line.name ++ line.gap ++ (line.sign ++ line.digits)

def value (line : LengthLine) : Int :=
  if line.sign = ascii "-" then -(decimal line.digits : Int) else decimal line.digits

/-- `m_content_length` after the line. -/
def length (line : LengthLine) : Int32 := Int32.ofInt (toLong line.value)

/-- A numeral begins with a sign or a digit. -/
theorem head_numeral (line : LengthLine) {b : UInt8}
    (hb : (line.sign ++ line.digits).head? = some b) : b = 43 ∨ b = 45 ∨ isdigit b = true := by
  rcases line.sign_sign with hsign | hsign | hsign
  · rw [hsign, List.nil_append] at hb
    exact Or.inr (Or.inr (line.digits_digit b (List.mem_of_head? hb)))
  · rw [hsign] at hb
    exact Or.inl (Option.some.inj hb).symm
  · rw [hsign] at hb
    exact Or.inr (Or.inl (Option.some.inj hb).symm)

theorem not_blank_of_isdigit {b : UInt8} (h : isdigit b = true) : b ∉ blanks := by
  intro hmem
  rcases mem_blanks.mp hmem with rfl | rfl
  · cases h
  · cases h

theorem valueOf_bytes (line : LengthLine) :
    valueOf contentLengthName line.bytes = line.sign ++ line.digits := by
  refine valueOf_append line.name_length line.gap_blank (fun b hb => ?_)
  rcases line.head_numeral hb with rfl | rfl | hdigit
  · decide
  · decide
  · exact not_blank_of_isdigit hdigit

theorem isspace_of_isdigit {b : UInt8} (h : isdigit b = true) : isspace b = false := by
  simp only [isdigit, Bool.and_eq_true, decide_eq_true_eq, UInt8.le_iff_toNat_le] at h
  have h48 : (48 : UInt8).toNat = 48 := rfl
  have hne : b ≠ 32 := by
    rintro rfl
    exact absurd h.1 (by decide)
  have hgt : ¬ b ≤ 13 := by
    rw [UInt8.le_iff_toNat_le]
    have h13 : (13 : UInt8).toNat = 13 := rfl
    omega
  simp [isspace, hne, hgt]

/-- `atol` reads the numeral. -/
theorem atolOf_numeral (line : LengthLine) :
    atolOf (line.sign ++ line.digits) = toLong line.value := by
  have hall : line.digits.takeWhile isdigit = line.digits :=
    List.takeWhile_eq_self_iff.mpr line.digits_digit
  have hspace : (line.sign ++ line.digits).dropWhile isspace = line.sign ++ line.digits := by
    cases hnumeral : line.sign ++ line.digits with
    | nil => rfl
    | cons b rest =>
        have hb : isspace b = false := by
          rcases line.head_numeral (b := b) (by rw [hnumeral]; rfl) with rfl | rfl | hdigit
          · rfl
          · rfl
          · exact isspace_of_isdigit hdigit
        rw [List.dropWhile_cons, hb]
        rfl
  rw [atolOf, hspace, value]
  rcases line.sign_sign with hsign | hsign | hsign
  · -- without a sign the first byte is a digit, so neither test for a sign succeeds
    obtain ⟨d, ds, hds⟩ := List.exists_cons_of_ne_nil line.digits_ne
    have hd : isdigit d = true := line.digits_digit d (by rw [hds]; exact List.mem_cons_self)
    have hminus : d ≠ 45 := by
      rintro rfl
      cases hd
    have hplus : d ≠ 43 := by
      rintro rfl
      cases hd
    rw [hsign, List.nil_append, if_neg (by decide), hds, signedOf, if_neg hminus, if_neg hplus,
      ← hds, hall]
  · rw [hsign, if_neg (by decide)]
    show toLong (signedOf (43 :: line.digits)) = _
    rw [signedOf, if_neg (by decide), if_pos rfl, hall]
  · rw [hsign, if_pos rfl]
    show toLong (signedOf (45 :: line.digits)) = _
    rw [signedOf, if_pos rfl, hall]

end LengthLine

/-- What `parse_content` is to do with a length `v` and the body at `text`: to
    take the body for complete only if it is, and to write at its end only. -/
def FramesBody (s : HttpConn) (v : Int) : Except Fault (HttpCode × HttpConn) → Prop
  | .error _ => False
  | .ok (code, s') =>
      if code = .getRequest then
        0 ≤ v ∧ s.mCheckedIndex + v ≤ s.mReadIdx ∧
          ∀ j : Nat, s'.mReadBuf[j]? =
            if (j : Int) = s.mCheckedIndex + v then some NUL else s.mReadBuf[j]?
      else s'.mReadBuf = s.mReadBuf

theorem framesBody_of_not_ready {s : HttpConn} {v : Int} {text : Nat} (h : ¬ BodyReady s) :
    FramesBody s v (parseContent s text) := by
  rw [parseContent_waits h]
  exact rfl

/-- A body taken for complete is framed well exactly if the numeral means what
    `m_content_length` holds and the bytes are there. -/
theorem framesBody_iff_of_ready {s : HttpConn} {v : Int} (hrange : InRange s)
    (hlength : 0 ≤ v → v < 2 ^ 31 → s.mContentLength.toInt = v) (h : BodyReady s) :
    FramesBody s v (parseContent s s.mCheckedIndex) ↔
      0 ≤ v ∧ s.mCheckedIndex + v ≤ s.mReadIdx := by
  have hread := hrange.read_lt
  have hsize : READ_BUFFER_SIZE = 2048 := rfl
  rcases parseContent_stores s.mCheckedIndex h with
    ⟨i, hi, hat, hparse⟩ | ⟨hout, hparse⟩
  · rw [hparse]
    refine ⟨fun hframes => ⟨hframes.1, hframes.2.1⟩, fun hv => ⟨hv.1, hv.2, fun j => ?_⟩⟩
    -- the bytes fit the buffer, so `v` fits an `int` and the NUL is at its end
    have hv' := hlength hv.1 (by omega)
    show (s.mReadBuf.set i NUL)[j]? = _
    rw [Vector.getElem?_set]
    by_cases hj : i = j
    · rw [if_pos hj, if_pos (by omega)]
    · rw [if_neg hj, if_neg (by omega)]
  · rw [hparse]
    refine ⟨False.elim, fun hv => ?_⟩
    have hv' := hlength hv.1 (by omega)
    omega

theorem LengthLine.length_toInt (line : LengthLine) (hlow : 0 ≤ line.value)
    (hhigh : line.value < 2 ^ 31) : line.length.toInt = line.value := by
  have hlong : toLong line.value = line.value := by
    simp only [toLong, LONG_MIN, LONG_MAX]
    omega
  -- neither the clamping of `atol` nor the conversion to `int` changes it
  rw [LengthLine.length, hlong, Int32.toInt_ofInt, Int.bmod]
  simp only [Int32.size]
  split
  · omega
  · omega

theorem LengthLine.hasName_bytes (line : LengthLine) :
    hasName contentLengthName line.bytes = true := by
  rw [LengthLine.bytes, List.append_assoc]
  exact hasName_append line.name_length _

/-- The line sets `m_content_length` and nothing else. -/
theorem LengthLine.parseHeaders_eq (line : LengthLine) {s : HttpConn} {text : Nat}
    (h : CStr s.mReadBuf text line.bytes) :
    parseHeaders s text = .ok (.noRequest, { s with mContentLength := line.length }) := by
  have hname := line.hasName_bytes
  have hne : line.bytes ≠ [] := by
    intro hnil
    have hlength := length_le_of_hasName hname
    rw [hnil] at hlength
    exact absurd hlength (by decide)
  have hc : hasName connectionName line.bytes = false :=
    hasName_exclusive 3 (by decide) (by decide) (by decide) hname
  have hh : hasName hostName line.bytes = false :=
    hasName_exclusive 0 (by decide) (by decide) (by decide) hname
  have hafter : s.afterHeader ⟨text, line.bytes⟩ = { s with mContentLength := line.length } := by
    simp only [afterHeader, keepsAlive, hc, hh, hname, line.valueOf_bytes, line.atolOf_numeral,
      Bool.false_and, Bool.or_false, if_true, LengthLine.length]
    rfl
  rw [← hafter]
  exact parseHeaders_line ⟨text, line.bytes⟩ ⟨hne, h⟩

/-- **Content-Length arithmetic.**  With `v` the numeral of the line and `n`
    what is left of it in `m_content_length`, the body is framed well if and
    only if `v` says that it is complete, or `n` says that it is not. -/
theorem content_length_iff (s : HttpConn) (hrange : InRange s) (line : LengthLine) (text : Nat)
    (hline : CStr s.mReadBuf text line.bytes) :
    ∃ s', parseHeaders s text = .ok (.noRequest, s') ∧
      s' = { s with mContentLength := line.length } ∧
      (FramesBody s' line.value (parseContent s' s'.mCheckedIndex) ↔
        (0 ≤ line.value ∧ s.mCheckedIndex + line.value ≤ s.mReadIdx) ∨
          (s.mReadIdx < line.length.toInt + s.mCheckedIndex ∧
            line.length.toInt + s.mCheckedIndex < 2 ^ 31)) := by
  refine ⟨_, line.parseHeaders_eq hline, rfl, ?_⟩
  have hrange' : InRange { s with mContentLength := line.length } :=
    ⟨hrange.start_le, hrange.checked_le, hrange.read_lt⟩
  have hiff : BodyReady { s with mContentLength := line.length } ↔
      line.length.toInt + s.mCheckedIndex ≤ s.mReadIdx ∨
        2 ^ 31 ≤ line.length.toInt + s.mCheckedIndex := hrange'.bodyReady_iff
  by_cases hready : BodyReady { s with mContentLength := line.length }
  · rw [framesBody_iff_of_ready hrange' line.length_toInt hready]
    refine ⟨Or.inl, ?_⟩
    rintro (hv | hn)
    · exact hv
    · have := hiff.mp hready
      omega
  · refine ⟨fun _ => Or.inr ?_, fun _ => framesBody_of_not_ready hready⟩
    have := mt hiff.mpr hready
    omega

/-- `Content-Length: 5` and a body of five bytes. -/
def fiveLine : LengthLine where
  name := ascii "Content-Length:"
  gap := ascii " "
  sign := []
  digits := ascii "5"
  name_length := by decide
  gap_blank := by
    intro b hb
    rw [List.mem_singleton.mp hb]
    decide
  sign_sign := Or.inl rfl
  digits_ne := by decide
  digits_digit := by
    intro b hb
    rw [List.mem_singleton.mp hb]
    decide

def fiveBytes : HttpConn :=
  { zeroSlot with
    mCheckState := .header, mStartLine := 19, mCheckedIndex := 19, mReadIdx := 24
    mReadBuf := bufOf (ascii "Content-Length: 5\x00\x00hello") }

theorem content_length_iff_five :
    ∃ s', parseHeaders fiveBytes 0 = .ok (.noRequest, s') ∧
      FramesBody s' 5 (parseContent s' s'.mCheckedIndex) := by
  obtain ⟨s', hparse, -, hiff⟩ := content_length_iff fiveBytes
    ⟨by decide, by decide, by decide⟩ fiveLine 0 (by decide +kernel)
  exact ⟨s', hparse, hiff.mpr (Or.inl ⟨by decide, by decide⟩)⟩

/-- `Content-Length: -1`, and nothing behind it. -/
def minusOne : HttpConn :=
  { zeroSlot with
    mCheckState := .header, mStartLine := 20, mCheckedIndex := 20, mReadIdx := 20
    mReadBuf := bufOf (ascii "Content-Length: -1\x00\x00") }

/-- The body is taken for complete, and the NUL written before it. -/
theorem negative_length_accepted :
    ∃ s' s'', parseHeaders minusOne 0 = .ok (.noRequest, s') ∧
      parseContent s' s'.mCheckedIndex = .ok (.getRequest, s'') ∧
      ¬ FramesBody s' (-1) (parseContent s' s'.mCheckedIndex) := by
  refine ⟨_, _, rfl, rfl, fun hframes => ?_⟩
  exact absurd hframes.1 (by decide)

/-! ## Header lines and the fall-through -/

/-- A header line when it is dispatched: not empty, complete in the buffer, and
    any number of bytes behind it. -/
structure HeaderAt extends Line where
  bytes : List UInt8
  nonempty : bytes ≠ []
  cstr : CStr readBuf text bytes
  checked_le : checkedIndex ≤ readIdx
  read_lt : readIdx < READ_BUFFER_SIZE

def HeaderAt.header (line : HeaderAt) : HeaderLine := ⟨line.text, line.bytes⟩

/-- The empty line when it is dispatched, with any number of bytes behind it. -/
structure EmptyAt extends Line where
  nul : readBuf[text]? = some NUL
  checked_le : checkedIndex ≤ readIdx
  read_lt : readIdx < READ_BUFFER_SIZE

/-- What the empty line is to do: to hand a request without a body to
    `do_request`, and to open the body of any other, calling nothing. -/
def EndsHeaders (doRequest : HttpConn → HttpCode × HttpConn) (s : HttpConn) (empty : EmptyAt) :
    Prop :=
  if s.mContentLength = 0 then
    dispatch doRequest (s.atLine empty.toLine) .lineOk empty.text
      = .ok (returnDoRequest doRequest (s.atLine empty.toLine))
  else
    ∃ code status s', dispatch doRequest (s.atLine empty.toLine) .lineOk empty.text
        = .ok (.brk code status s') ∧ s'.mCheckState = .content

/-- The headers end at the empty line only: every line before it leaves the
    machine in the header state and calls nothing. -/
def HeadersEnd (doRequest : HttpConn → HttpCode × HttpConn) :
    HttpConn → List HeaderAt → EmptyAt → Prop
  | s, [], empty => EndsHeaders doRequest s empty
  | s, line :: lines, empty =>
      ∃ code status s', dispatch doRequest (s.atLine line.toLine) .lineOk line.text
          = .ok (.brk code status s') ∧
        s'.mCheckState = .header ∧ HeadersEnd doRequest s' lines empty

/-- A length that `parse_content` waits for behind the line. -/
def Line.Awaits (line : Line) (length : Int32) : Prop :=
  line.readIdx < length.toInt + line.checkedIndex ∧
    length.toInt + line.checkedIndex < 2 ^ 31

/-- `m_content_length` behind some header lines. -/
def lengthAfter (length : Int32) (lines : List HeaderAt) : Int32 :=
  match lastNamed contentLengthName (lines.map HeaderAt.header) with
  | some line => Int32.ofInt (atolOf (valueOf contentLengthName line.bytes))
  | none => length

theorem lengthAfter_cons (length : Int32) (line : HeaderAt) (lines : List HeaderAt) :
    lengthAfter length (line :: lines) = lengthAfter (lengthAfter length [line]) lines := by
  simp only [lengthAfter, lastNamed, List.map_cons, List.map_nil, List.filter_cons, List.filter_nil]
  cases hasName contentLengthName line.header.bytes with
  | true =>
      simp only [if_true, List.getLast?_cons]
      cases (((lines.map HeaderAt.header).filter
        fun line => hasName contentLengthName line.bytes).getLast?) with
      | none => rfl
      | some last => rfl
  | false => rfl

section FallThrough

variable (doRequest : HttpConn → HttpCode × HttpConn) {s s' : HttpConn}

/-- The slot in which the fall-through finds itself. -/
theorem dispatch_header (line : HeaderLine) (h : line.In s.mReadBuf)
    (hstate : s.mCheckState = .header) :
    dispatch doRequest s .lineOk line.text
      = caseContent doRequest (s.afterHeader line) line.text := by
  simp only [dispatch, hstate]
  rw [parseHeaders_line line h]
  rfl

theorem mContentLength_afterHeader (s : HttpConn) (line : HeaderAt) :
    ((s.atLine line.toLine).afterHeader line.header).mContentLength
      = lengthAfter s.mContentLength [line] := by
  simp only [afterHeader, lengthAfter, lastNamed, List.map_cons, List.map_nil, List.filter_cons,
    List.filter_nil]
  cases hasName contentLengthName line.header.bytes with
  | true => rfl
  | false => rfl

/-- The test of `parse_content` on a slot with the indices of a line. -/
theorem awaits_iff_not_bodyReady {line : Line} (hle : line.checkedIndex ≤ line.readIdx)
    (hlt : line.readIdx < READ_BUFFER_SIZE) (hchecked : s.mCheckedIndex = line.checkedIndex)
    (hread : s.mReadIdx = line.readIdx) :
    line.Awaits s.mContentLength ↔ ¬ BodyReady s := by
  have hready := bodyReady_iff (s := s) (by omega) (by omega)
  rw [hchecked, hread] at hready
  rw [hready, Line.Awaits]
  omega

/-- Out of the content case the `switch` is left by `break` only where a body is
    waited for. -/
theorem not_bodyReady_of_brk {text : Nat} {code : HttpCode} {status : LineStatus}
    (h : caseContent doRequest s text = .ok (.brk code status s')) : ¬ BodyReady s := by
  intro hbody
  rw [caseContent] at h
  rcases parseContent_stores text hbody with ⟨i, hi, -, hparse⟩ | ⟨-, hparse⟩
  · rw [hparse] at h
    cases h
  · rw [hparse] at h
    cases h

theorem headersEnd_cons {line : HeaderAt} {lines : List HeaderAt} {empty : EmptyAt}
    (hstate : s.mCheckState = .header) :
    HeadersEnd doRequest s (line :: lines) empty ↔
      line.Awaits (lengthAfter s.mContentLength [line]) ∧
        HeadersEnd doRequest ((s.atLine line.toLine).afterHeader line.header) lines empty := by
  have hdispatch : dispatch doRequest (s.atLine line.toLine) .lineOk line.text
      = caseContent doRequest ((s.atLine line.toLine).afterHeader line.header) line.text :=
    dispatch_header doRequest (s := s.atLine line.toLine) line.header ⟨line.nonempty, line.cstr⟩ hstate
  have hawaits : line.Awaits (lengthAfter s.mContentLength [line]) ↔
      ¬ BodyReady ((s.atLine line.toLine).afterHeader line.header) := by
    rw [← mContentLength_afterHeader]
    exact awaits_iff_not_bodyReady line.checked_le line.read_lt rfl rfl
  rw [HeadersEnd, hdispatch, hawaits]
  refine ⟨?_, ?_⟩
  · rintro ⟨code, status, s', hbrk, -, hrest⟩
    have hwaits := not_bodyReady_of_brk doRequest hbrk
    rw [caseContent_waits doRequest hwaits] at hbrk
    cases hbrk
    exact ⟨hwaits, hrest⟩
  · rintro ⟨hwaits, hrest⟩
    exact ⟨_, _, _, caseContent_waits doRequest hwaits, hstate, hrest⟩

/-- The empty line falls through as well. -/
theorem endsHeaders_iff {empty : EmptyAt} (hstate : s.mCheckState = .header) :
    EndsHeaders doRequest s empty ↔ s.mContentLength = 0 ∨ empty.Awaits s.mContentLength := by
  have hat : (s.atLine empty.toLine).mCheckState = .header := hstate
  rw [EndsHeaders]
  by_cases hlength : s.mContentLength = 0
  · rw [if_pos hlength]
    exact ⟨fun _ => Or.inl hlength, fun _ => dispatch_empty_line doRequest hat empty.nul hlength⟩
  · have hawaits : empty.Awaits s.mContentLength ↔
        ¬ BodyReady { s.atLine empty.toLine with mCheckState := .content } :=
      awaits_iff_not_bodyReady (s := { s.atLine empty.toLine with mCheckState := .content })
        empty.checked_le empty.read_lt rfl rfl
    rw [if_neg hlength, dispatch_empty_line_body doRequest hat empty.nul hlength,
      or_iff_right hlength, hawaits]
    refine ⟨?_, fun hwaits => ⟨_, _, _, caseContent_waits doRequest hwaits, rfl⟩⟩
    rintro ⟨code, status, s', hbrk, -⟩
    exact not_bodyReady_of_brk doRequest hbrk

end FallThrough

/-- **The end of the headers.**  A header section ends at the empty line, with
    no call of `do_request` and in the header state before it, and there as it
    should, if and only if behind every line the length announced so far asks
    for more bytes than are buffered; behind the empty line it may also be 0. -/
theorem headers_end_iff (doRequest : HttpConn → HttpCode × HttpConn) (s : HttpConn)
    (hstate : s.mCheckState = .header) (lines : List HeaderAt) (empty : EmptyAt) :
    HeadersEnd doRequest s lines empty ↔
      (∀ before line after, lines = before ++ line :: after →
        line.Awaits (lengthAfter s.mContentLength (before ++ [line]))) ∧
      (lengthAfter s.mContentLength lines = 0 ∨
        empty.Awaits (lengthAfter s.mContentLength lines)) := by
  -- the slot changes from line to line; all that matters of it is its length
  induction lines generalizing s with
  | nil =>
      rw [HeadersEnd, endsHeaders_iff doRequest hstate]
      refine ⟨fun hempty => ⟨fun before line after hlines => ?_, hempty⟩, And.right⟩
      exact absurd hlines.symm (List.append_ne_nil_of_right_ne_nil _ (List.cons_ne_nil _ _))
  | cons line lines ih =>
      have hrest := ih ((s.atLine line.toLine).afterHeader line.header) hstate
      rw [mContentLength_afterHeader] at hrest
      rw [headersEnd_cons doRequest hstate, hrest, lengthAfter_cons _ line lines, ← and_assoc]
      refine and_congr_left (fun _ => ⟨?_, fun h => ⟨h [] line lines rfl, ?_⟩⟩)
      · rintro ⟨hfirst, hrest⟩ before l after hlines
        cases before with
        | nil =>
            obtain ⟨rfl, -⟩ := List.cons.inj hlines
            exact hfirst
        | cons b before =>
            obtain ⟨rfl, htail⟩ := List.cons.inj hlines
            rw [List.cons_append, lengthAfter_cons]
            exact hrest before l after htail
      · intro before l after hlines
        rw [← lengthAfter_cons, ← List.cons_append]
        exact h (line :: before) l after (by rw [hlines, List.cons_append])

/-- `Host: a` with nothing behind it. -/
def hostAt : HeaderAt where
  readBuf := bufOf (ascii "Host: a\x00\x00")
  text := 0
  checkedIndex := 9
  readIdx := 9
  bytes := ascii "Host: a"
  nonempty := by decide
  cstr := by decide +kernel
  checked_le := by decide
  read_lt := by decide

/-- The empty line behind it. -/
def emptyAt : EmptyAt where
  readBuf := bufOf (ascii "Host: a\x00\x00\x00\x00")
  text := 9
  checkedIndex := 11
  readIdx := 11
  nul := by decide +kernel
  checked_le := by decide
  read_lt := by decide

theorem headers_end_iff_awaited :
    HeadersEnd noFile { zeroSlot with mCheckState := .header, mContentLength := 5 } [hostAt]
      emptyAt := by
  refine (headers_end_iff noFile _ rfl [hostAt] emptyAt).mpr
    ⟨fun before line after hlines => ?_, Or.inr ⟨by decide, by decide⟩⟩
  obtain ⟨rfl, rfl⟩ : before = [] ∧ line = hostAt := by
    cases before with
    | nil => exact ⟨rfl, (List.cons.inj hlines).1.symm⟩
    | cons b before => simp at hlines
  exact ⟨by decide, by decide⟩

/-- The empty line and a body of five bytes behind it. -/
def emptyHello : EmptyAt where
  readBuf := bufOf (ascii "\x00\x00hello")
  text := 0
  checkedIndex := 2
  readIdx := 7
  nul := by decide +kernel
  checked_le := by decide
  read_lt := by decide

/-- Without a Content-Length the first header line is answered; with one the
    empty line is, if the body is there already, and a byte of the body is
    overwritten. -/
theorem header_line_answered :
    (∃ r, dispatch noFile ({ zeroSlot with mCheckState := .header }.atLine hostAt.toLine)
        .lineOk hostAt.text = .ok (.ret r) ∧ r.requests ≠ [] ∧
      ¬ HeadersEnd noFile { zeroSlot with mCheckState := .header } [hostAt] emptyAt) ∧
    ∃ r s, dispatch noFile
        ({ zeroSlot with mCheckState := .header, mContentLength := 5 }.atLine emptyHello.toLine)
        .lineOk emptyHello.text = .ok (.ret r) ∧ r.requests = [s] ∧
      emptyHello.readBuf[5]? = some 108 ∧ s.mReadBuf[5]? = some NUL ∧
      ¬ HeadersEnd noFile { zeroSlot with mCheckState := .header, mContentLength := 5 } []
        emptyHello := by
  refine ⟨⟨_, rfl, List.cons_ne_nil _ _, ?_⟩, ⟨_, _, rfl, rfl, rfl, rfl, ?_⟩⟩
  · rintro ⟨code, status, s', hbrk, -⟩
    cases hbrk
  · rintro ⟨code, status, s', hbrk, -⟩
    cases hbrk

end HttpConn

end WebServer
