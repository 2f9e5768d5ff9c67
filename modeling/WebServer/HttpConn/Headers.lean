/-
  WebServer.HttpConn.Headers

  What `parse_headers` makes of header lines.

  A header line is a C string somewhere in the buffer.  On one that is not
  empty `parse_headers` is a function of its bytes: it recognises three names
  at the start of the line, whatever their case, and the value is what stands
  behind the name and the blanks (`parseHeaders_line`).  A line has at most one
  of the three names, so over a whole section the fields they set are
  independent: `m_linger` sticks, `m_content_length` and `m_host` are those of
  the last line of their name (`parseSection_eq`).
-/

import WebServer.HttpConn.Grammar
import WebServer.HttpConn.Session
import WebServer.Lib.CStr
import Mathlib.Data.List.Induction

namespace WebServer

open WebServer.Lib

namespace HttpConn

/-! ## Names and values -/

def connectionName : List UInt8 := ascii "Connection:"
def hostName : List UInt8 := ascii "Host:"

/-- Where the value of a header stands in its line. -/
def valueAt (name line : List UInt8) : Nat :=
  name.length + ((line.drop name.length).takeWhile fun b => blanks.contains b).length

theorem hasName_iff {name line : List UInt8} :
    hasName name line = true ↔ (line.take name.length).map tolower = name.map tolower :=
  eqIgnoreCase_iff

theorem length_le_of_hasName {name line : List UInt8} (h : hasName name line = true) :
    name.length ≤ line.length := by
  have hlength := congrArg List.length (hasName_iff.mp h)
  simp only [List.length_map, List.length_take] at hlength
  omega

/-- A line cannot begin with two names that differ where both have a byte. -/
theorem hasName_exclusive {name name' line : List UInt8} (i : Nat) (hi : i < name.length)
    (hi' : i < name'.length) (hne : (name.map tolower)[i]? ≠ (name'.map tolower)[i]?)
    (h : hasName name line = true) : hasName name' line = false := by
  rw [Bool.eq_false_iff]
  intro h'
  refine hne ?_
  rw [← hasName_iff.mp h, ← hasName_iff.mp h', List.getElem?_map, List.getElem?_map,
    List.getElem?_take_of_lt hi, List.getElem?_take_of_lt hi']

/-- The value reaches to the end of the line. -/
theorem valueAt_add_length {name line : List UInt8} (h : hasName name line = true) :
    valueAt name line + (valueOf name line).length = line.length := by
  have hle := length_le_of_hasName h
  have hlength := congrArg List.length (List.takeWhile_append_dropWhile
    (p := fun b => blanks.contains b) (l := line.drop name.length))
  rw [List.length_append, List.length_drop] at hlength
  rw [valueAt, valueOf]
  omega

/-- The value as a string of its own. -/
theorem cstr_valueOf {n : Nat} {m : Vector UInt8 n} {text : Nat} {name line : List UInt8}
    (h : CStr m text line) (hname : hasName name line = true) :
    CStr m (text + valueAt name line) (valueOf name line) := by
  have hrest := h.drop (length_le_of_hasName hname)
  rw [← List.takeWhile_append_dropWhile (p := fun b => blanks.contains b)
    (l := line.drop name.length)] at hrest
  rw [valueAt, ← Nat.add_assoc]
  exact hrest.append_right

theorem skipName_of_cstr {s : HttpConn} {text : Nat} {name line : List UInt8}
    (h : CStr s.mReadBuf text line) (hname : hasName name line = true) :
    skipName s text name.length = .ok (text + valueAt name line) := by
  have hrest := h.drop (length_le_of_hasName hname)
  rw [skipName, strspn_of_cstr hrest (by decide), ok_bind, valueAt, ← Nat.add_assoc]
  rfl

theorem hasName_append {name text : List UInt8} (h : eqIgnoreCase text name = true)
    (rest : List UInt8) : hasName name (text ++ rest) = true := by
  rw [hasName, ← length_of_eqIgnoreCase h, List.take_left]
  exact h

/-- The value of a line that is written as name, blanks and value. -/
theorem valueOf_append {name text gap value : List UInt8} (hname : eqIgnoreCase text name = true)
    (hgap : ∀ b ∈ gap, b ∈ blanks) (hvalue : ∀ b, value.head? = some b → b ∉ blanks) :
    valueOf name (text ++ gap ++ value) = value := by
  rw [valueOf, ← length_of_eqIgnoreCase hname, List.append_assoc, List.drop_left,
    List.dropWhile_append_of_pos (fun b hb => by simpa using hgap b hb)]
  cases value with
  | nil => rfl
  | cons b value =>
      have hb : blanks.contains b = false := by simpa using hvalue b rfl
      rw [List.dropWhile_cons, hb]
      rfl

/-! ## One line -/

/-- A header line: its bytes, and where it stands in the buffer. -/
structure HeaderLine where
  text : Nat
  bytes : List UInt8

/-- The line is there, and not empty. -/
def HeaderLine.In (line : HeaderLine) (buf : Vector UInt8 READ_BUFFER_SIZE) : Prop :=
  line.bytes ≠ [] ∧ CStr buf line.text line.bytes

def keepsAlive (line : List UInt8) : Bool :=
  hasName connectionName line && eqIgnoreCase (valueOf connectionName line) (ascii "keep-alive")

/-- The slot behind a header line. -/
def afterHeader (s : HttpConn) (line : HeaderLine) : HttpConn :=
  { s with
    mLinger := s.mLinger || keepsAlive line.bytes
    mContentLength :=
      if hasName contentLengthName line.bytes then
        Int32.ofInt (atolOf (valueOf contentLengthName line.bytes))
      else s.mContentLength
    mHost :=
      if hasName hostName line.bytes then some (line.text + valueAt hostName line.bytes)
      else s.mHost }

/-- **A header line.** -/
theorem parseHeaders_line {s : HttpConn} (line : HeaderLine) (h : line.In s.mReadBuf) :
    parseHeaders s line.text = .ok (.noRequest, s.afterHeader line) := by
  obtain ⟨text, line⟩ := line
  obtain ⟨hne, hstr⟩ : line ≠ [] ∧ CStr s.mReadBuf text line := h
  obtain ⟨b, hb, hnul⟩ : ∃ b, s.mReadBuf[text]? = some b ∧ b ≠ NUL := by
    obtain ⟨b, rest, rfl⟩ := List.exists_cons_of_ne_nil hne
    exact ⟨b, hstr.1, hstr.2.1⟩
  have hconnection := strncasecmp_of_cstr hstr (t := connectionName) (by decide)
  have hlength := strncasecmp_of_cstr hstr (t := contentLengthName) (by decide)
  have hhost := strncasecmp_of_cstr hstr (t := hostName) (by decide)
  rw [← hasName] at hconnection hlength hhost
  -- the source compares with one name after the other; a line has at most one of them
  show parseHeaders s text = _
  rw [parseHeaders, load_eq_ok.mpr hb, ok_bind, if_neg hnul]
  show (strncasecmp s.mReadBuf text connectionName >>= _) = _
  rw [hconnection, ok_bind]
  cases hc : hasName connectionName line with
  | true =>
      have hl : hasName contentLengthName line = false :=
        hasName_exclusive 3 (by decide) (by decide) (by decide) hc
      have hh : hasName hostName line = false :=
        hasName_exclusive 0 (by decide) (by decide) (by decide) hc
      have hskip : skipName s text 11 = .ok (text + valueAt connectionName line) :=
        skipName_of_cstr hstr hc
      have hvalue := strcasecmp_of_cstr (cstr_valueOf hstr hc) (t := ascii "keep-alive") (by decide)
      rw [if_pos rfl, hskip, ok_bind, hvalue, ok_bind]
      cases hv : eqIgnoreCase (valueOf connectionName line) (ascii "keep-alive") with
      | true => simp [afterHeader, keepsAlive, hc, hl, hh, hv, pure, Except.pure]
      | false => simp [afterHeader, keepsAlive, hc, hl, hh, hv, pure, Except.pure]
  | false =>
      rw [if_neg Bool.false_ne_true]
      show (strncasecmp s.mReadBuf text contentLengthName >>= _) = _
      rw [hlength, ok_bind]
      cases hl : hasName contentLengthName line with
      | true =>
          have hh : hasName hostName line = false :=
            hasName_exclusive 0 (by decide) (by decide) (by decide) hl
          have hskip : skipName s text 15 = .ok (text + valueAt contentLengthName line) :=
            skipName_of_cstr hstr hl
          rw [if_pos rfl, hskip, ok_bind, atol_of_cstr (cstr_valueOf hstr hl), ok_bind]
          simp [afterHeader, keepsAlive, hc, hl, hh, pure, Except.pure]
      | false =>
          rw [if_neg Bool.false_ne_true]
          show (strncasecmp s.mReadBuf text hostName >>= _) = _
          rw [hhost, ok_bind]
          cases hh : hasName hostName line with
          | true =>
              have hskip : skipName s text 5 = .ok (text + valueAt hostName line) :=
                skipName_of_cstr hstr hh
              rw [if_pos rfl, hskip, ok_bind]
              simp [afterHeader, keepsAlive, hc, hl, hh, pure, Except.pure]
          | false =>
              -- an unknown header is printed
              rw [if_neg Bool.false_ne_true, readString_of_cstr hstr, ok_bind]
              simp [afterHeader, keepsAlive, hc, hl, hh, pure, Except.pure]

/-! ## A header section -/

/-- `parse_headers` on one line after the other. -/
def parseSection : HttpConn → List HeaderLine → Except Fault (List HttpCode × HttpConn)
  | s, [] => return ([], s)
  | s, line :: lines => do
      let (code, s) ← parseHeaders s line.text
      let (codes, s) ← parseSection s lines
      return (code :: codes, s)

/-- The last line with a name. -/
def lastNamed (name : List UInt8) (lines : List HeaderLine) : Option HeaderLine :=
  (lines.filter fun line => hasName name line.bytes).getLast?

/-- The slot behind a header section. -/
def afterSection (s : HttpConn) (lines : List HeaderLine) : HttpConn :=
  { s with
    mLinger := s.mLinger || lines.any fun line => keepsAlive line.bytes
    mContentLength :=
      match lastNamed contentLengthName lines with
      | some line => Int32.ofInt (atolOf (valueOf contentLengthName line.bytes))
      | none => s.mContentLength
    mHost :=
      match lastNamed hostName lines with
      | some line => some (line.text + valueAt hostName line.bytes)
      | none => s.mHost }

theorem lastNamed_snoc (name : List UInt8) (lines : List HeaderLine) (line : HeaderLine) :
    lastNamed name (lines ++ [line])
      = if hasName name line.bytes then some line else lastNamed name lines := by
  rw [lastNamed, List.filter_append]
  cases h : hasName name line.bytes with
  | true => simp [h]
  | false => simp [h, lastNamed]

theorem afterSection_snoc (s : HttpConn) (lines : List HeaderLine) (line : HeaderLine) :
    s.afterSection (lines ++ [line]) = (s.afterSection lines).afterHeader line := by
  have hlinger : (lines ++ [line]).any (fun line => keepsAlive line.bytes)
      = (lines.any (fun line => keepsAlive line.bytes) || keepsAlive line.bytes) := by
    simp
  simp only [afterSection, afterHeader, lastNamed_snoc, hlinger, Bool.or_assoc]
  cases hasName contentLengthName line.bytes with
  | true =>
      cases hasName hostName line.bytes with
      | true => rfl
      | false => rfl
  | false =>
      cases hasName hostName line.bytes with
      | true => rfl
      | false => rfl

theorem foldl_afterHeader (s : HttpConn) (lines : List HeaderLine) :
    lines.foldl afterHeader s = s.afterSection lines := by
  induction lines using List.reverseRecOn with
  | nil => simp [afterSection, lastNamed]
  | append_singleton lines line ih =>
      rw [List.foldl_append, ih, afterSection_snoc]
      rfl

/-- **A header section.** -/
theorem parseSection_eq {s : HttpConn} {lines : List HeaderLine}
    (h : ∀ line ∈ lines, line.In s.mReadBuf) :
    parseSection s lines = .ok (List.replicate lines.length .noRequest, s.afterSection lines) := by
  rw [← foldl_afterHeader]
  induction lines generalizing s with
  | nil => rfl
  | cons line lines ih =>
      -- no header line writes into the buffer, so the other lines are still there
      have hrest := ih (s := s.afterHeader line) (fun l hl => h l (List.mem_cons_of_mem _ hl))
      rw [parseSection, parseHeaders_line line (h line List.mem_cons_self), ok_bind]
      simp only [hrest, ok_bind]
      rfl

/-- `Connection:`, blanks and `keep-alive`, in any case. -/
def KeepsAlive (line : List UInt8) : Prop :=
  ∃ name gap value, line = name ++ gap ++ value ∧
    eqIgnoreCase name connectionName = true ∧ (∀ b ∈ gap, b ∈ blanks) ∧
    eqIgnoreCase value (ascii "keep-alive") = true

theorem keepsAlive_iff (line : List UInt8) : keepsAlive line = true ↔ KeepsAlive line := by
  rw [keepsAlive, Bool.and_eq_true]
  refine ⟨fun h => ?_, ?_⟩
  · refine ⟨line.take connectionName.length,
      (line.drop connectionName.length).takeWhile fun b => blanks.contains b,
      valueOf connectionName line, ?_, h.1, fun b hb => ?_, h.2⟩
    · rw [valueOf, List.append_assoc, List.takeWhile_append_dropWhile, List.take_append_drop]
    · simpa using List.mem_takeWhile_imp hb
  · rintro ⟨name, gap, value, rfl, hname, hgap, hvalue⟩
    -- the value begins with a `k`, so the gap ends where the blanks do
    have hhead : ∀ b, value.head? = some b → b ∉ blanks := by
      intro b hb hmem
      have hk : some (tolower b) = some 107 := by
        rw [← Option.map_some, ← hb, ← List.head?_map, eqIgnoreCase_iff.mp hvalue]
        rfl
      rcases mem_blanks.mp hmem with rfl | rfl
      · exact absurd hk (by decide)
      · exact absurd hk (by decide)
    rw [valueOf_append hname hgap hhead, List.append_assoc]
    exact ⟨hasName_append hname _, hvalue⟩

/-! ## Reordering -/

/-- The name of a header, in lower case: what stands before the colon. -/
def nameOf (line : List UInt8) : List UInt8 :=
  (line.map tolower).takeWhile fun b => b != 58

/-- `lines'` is a reordering of `lines` in which lines of the same name keep
    their order. -/
def SameOrder {α : Type} (name : α → List UInt8) (lines lines' : List α) : Prop :=
  lines.Perm lines' ∧
    ∀ x, lines.filter (fun line => name line == x) = lines'.filter (fun line => name line == x)

theorem nameOf_of_hasName {name line : List UInt8} (hcolon : 58 ∈ name.map tolower)
    (h : hasName name line = true) : nameOf line = nameOf name := by
  have hline : line.map tolower = name.map tolower ++ (line.drop name.length).map tolower := by
    rw [← hasName_iff.mp h, ← List.map_append, List.take_append_drop]
  have hstop : (name.map tolower).takeWhile (fun b => b != 58) ≠ name.map tolower := by
    intro hall
    have := List.takeWhile_eq_self_iff.mp hall 58 hcolon
    exact absurd this (by decide)
  -- the colon is in `name` already, so the scan does not get to the rest of the line
  rw [nameOf, hline, List.takeWhile_append, if_neg, nameOf]
  intro hlength
  exact hstop ((List.takeWhile_prefix _).eq_of_length hlength)

/-- Lines that begin with a header's name are among those that have it. -/
theorem SameOrder.filter_hasName {α : Type} (bytes : α → List UInt8) {lines lines' : List α}
    (h : SameOrder (fun line => nameOf (bytes line)) lines lines') {name : List UInt8}
    (hcolon : 58 ∈ name.map tolower) :
    lines.filter (fun line => hasName name (bytes line))
      = lines'.filter (fun line => hasName name (bytes line)) := by
  have hnarrow (l : List α) : l.filter (fun line => hasName name (bytes line))
      = (l.filter fun line => nameOf (bytes line) == nameOf name).filter
          fun line => hasName name (bytes line) := by
    rw [List.filter_filter]
    refine List.filter_congr (fun line _ => ?_)
    cases hname : hasName name (bytes line) with
    | true => simp [nameOf_of_hasName hcolon hname]
    | false => rfl
  rw [hnarrow lines, hnarrow lines', h.2]

theorem afterSection_of_sameOrder {s : HttpConn} {lines lines' : List HeaderLine}
    (h : SameOrder (fun line => nameOf line.bytes) lines lines') :
    s.afterSection lines' = s.afterSection lines := by
  have hlength : lastNamed contentLengthName lines' = lastNamed contentLengthName lines := by
    rw [lastNamed, lastNamed, h.filter_hasName HeaderLine.bytes (by decide)]
  have hhost : lastNamed hostName lines' = lastNamed hostName lines := by
    rw [lastNamed, lastNamed, h.filter_hasName HeaderLine.bytes (by decide)]
  rw [afterSection, afterSection, hlength, hhost, h.1.any_eq]

/-- The same lines elsewhere, in another buffer: the pointer differs, the
    values do not. -/
theorem section_values_of_sameOrder {s t : HttpConn} {lines lines' : List HeaderLine}
    (h : SameOrder nameOf (lines.map HeaderLine.bytes) (lines'.map HeaderLine.bytes))
    (hlinger : t.mLinger = s.mLinger) (hlength : t.mContentLength = s.mContentLength) :
    (t.afterSection lines').mLinger = (s.afterSection lines).mLinger ∧
      (t.afterSection lines').mContentLength = (s.afterSection lines).mContentLength ∧
      (lastNamed hostName lines').map HeaderLine.bytes
        = (lastNamed hostName lines).map HeaderLine.bytes := by
  have hlast (name : List UInt8) (hcolon : 58 ∈ name.map tolower) :
      (lastNamed name lines').map HeaderLine.bytes
        = (lastNamed name lines).map HeaderLine.bytes := by
    have hfilter := SameOrder.filter_hasName id h hcolon
    rw [List.filter_map, List.filter_map] at hfilter
    rw [lastNamed, lastNamed, ← List.getLast?_map, ← List.getLast?_map]
    exact congrArg List.getLast? hfilter.symm
  refine ⟨?_, ?_, hlast hostName (by decide)⟩
  · have hany (l : List HeaderLine) :
        l.any (fun line => keepsAlive line.bytes) = (l.map HeaderLine.bytes).any keepsAlive := by
      rw [List.any_map]
      rfl
    simp only [afterSection]
    rw [hany, hany, h.1.any_eq, hlinger]
  · have hlines := hlast contentLengthName (by decide)
    simp only [afterSection, hlength]
    cases hl : lastNamed contentLengthName lines with
    | none =>
        rw [hl, Option.map_none, Option.map_eq_none_iff] at hlines
        rw [hlines]
    | some line =>
        rw [hl, Option.map_some, Option.map_eq_some_iff] at hlines
        obtain ⟨line', hl', hbytes⟩ := hlines
        rw [hl']
        simp only [hbytes]

/-- **A header section.**  Every line is taken with `NO_REQUEST`; nothing
    changes but three fields, and these depend on the lines of their own name
    only, so lines of different names can be taken in another order, and can
    change places in the message. -/
theorem header_section (s : HttpConn) (lines : List HeaderLine)
    (h : ∀ line ∈ lines, line.In s.mReadBuf) :
    ∃ s', parseSection s lines = .ok (List.replicate lines.length .noRequest, s') ∧
      s' = { s with
        mLinger := s'.mLinger
        mContentLength := s'.mContentLength
        mHost := s'.mHost } ∧
      (s'.mLinger = true ↔ s.mLinger = true ∨ ∃ line ∈ lines, KeepsAlive line.bytes) ∧
      (s'.mContentLength =
        match lastNamed contentLengthName lines with
        | some line => Int32.ofInt (atolOf (valueOf contentLengthName line.bytes))
        | none => s.mContentLength) ∧
      (match lastNamed hostName lines with
        | some line => ∃ p, s'.mHost = some p ∧ p = line.text + valueAt hostName line.bytes ∧
            CStr s'.mReadBuf p (valueOf hostName line.bytes)
        | none => s'.mHost = s.mHost) ∧
      (∀ lines', SameOrder (fun line => nameOf line.bytes) lines lines' →
        parseSection s lines' = .ok (List.replicate lines'.length .noRequest, s')) ∧
      ∀ t lines', SameOrder nameOf (lines.map HeaderLine.bytes) (lines'.map HeaderLine.bytes) →
        (∀ line ∈ lines', line.In t.mReadBuf) → t.mLinger = s.mLinger →
        t.mContentLength = s.mContentLength →
        ∃ t', parseSection t lines' = .ok (List.replicate lines'.length .noRequest, t') ∧
          t'.mLinger = s'.mLinger ∧ t'.mContentLength = s'.mContentLength ∧
          (lastNamed hostName lines').map HeaderLine.bytes
            = (lastNamed hostName lines).map HeaderLine.bytes := by
  refine ⟨s.afterSection lines, parseSection_eq h, rfl, ?_, rfl, ?_, fun lines' hsame => ?_,
    fun t lines' hsame hin hlinger hlength => ?_⟩
  · simp [afterSection, keepsAlive_iff]
  · cases hlast : lastNamed hostName lines with
    | none => simp [afterSection, hlast]
    | some line =>
        have hmem := List.mem_of_getLast? hlast
        rw [List.mem_filter] at hmem
        refine ⟨_, ?_, rfl, cstr_valueOf (h line hmem.1).2 hmem.2⟩
        simp [afterSection, hlast]
  · rw [← afterSection_of_sameOrder hsame]
    exact parseSection_eq (fun line hline => h line (hsame.1.mem_iff.mpr hline))
  · exact ⟨_, parseSection_eq hin, section_values_of_sameOrder hsame hlinger hlength⟩

/-- Three header lines as `parse_line` leaves them. -/
def threeHeaders : HttpConn :=
  { zeroSlot with
    mReadBuf := bufOf (ascii
      "Host: here\x00\x00content-length: 12\x00\x00connection:\tKeep-Alive\x00\x00") }

def threeLines : List HeaderLine :=
  [⟨0, ascii "Host: here"⟩, ⟨12, ascii "content-length: 12"⟩, ⟨32, ascii "connection:\tKeep-Alive"⟩]

theorem header_section_three :
    ∃ s', parseSection threeHeaders threeLines = .ok ([.noRequest, .noRequest, .noRequest], s') ∧
      s'.mLinger = true ∧ s'.mHost = some 6 ∧ s'.mContentLength = 12 := by
  obtain ⟨s', hs', -, hlinger, hlength, hhost, -⟩ := header_section threeHeaders threeLines (by
    intro line hline
    rw [threeLines, List.mem_cons, List.mem_cons, List.mem_singleton] at hline
    rcases hline with rfl | rfl | rfl
    · exact ⟨by decide, by decide +kernel⟩
    · exact ⟨by decide, by decide +kernel⟩
    · exact ⟨by decide, by decide +kernel⟩)
  refine ⟨s', hs', ?_, ?_, ?_⟩
  · refine hlinger.mpr (Or.inr ⟨_, List.mem_of_getLast? rfl, ?_⟩)
    exact (keepsAlive_iff _).mp (by decide)
  · obtain ⟨p, hp, hat, -⟩ := hhost
    rw [hp, hat]
    decide
  · rw [hlength]
    decide

end HttpConn

end WebServer
