/-
  WebServer.HttpConn.Grammar

  What the parser of http_conn.cpp is meant for: the requests it serves, as
  values that can only be built well formed, and the streams it has no reason
  to reject.  Nothing here is translated from the source; the streams of
  `Session` are measured against it.
-/

import WebServer.HttpConn.Parse
import Mathlib.Data.List.Infix

namespace WebServer

open WebServer.Lib

namespace HttpConn

/-! ## Requests -/

/-- A path, or `http://` and a path somewhere behind it. -/
def IsTarget (target : List UInt8) : Prop :=
  target.head? = some 47 ∨
    (eqIgnoreCase (target.take 7) (ascii "http://") = true ∧ 47 ∈ target.drop 7)

/-- Method, target and version between two blanks. -/
structure LineParts where
  method : List UInt8
  blank₁ : UInt8
  target : List UInt8
  blank₂ : UInt8
  version : List UInt8
  method_get : eqIgnoreCase method (ascii "GET") = true
  blank₁_mem : blank₁ ∈ blanks
  target_text : ∀ b ∈ target, b ∉ blanks
  target_path : IsTarget target
  blank₂_mem : blank₂ ∈ blanks
  version_http : eqIgnoreCase version (ascii "HTTP/1.1") = true

def LineParts.bytes (p : LineParts) : List UInt8 :=
  p.method ++ p.blank₁ :: (p.target ++ p.blank₂ :: p.version)

/-- The first line of a request: nothing in it ends a line or a string. -/
structure RequestLine extends LineParts where
  target_line : ∀ b ∈ target, b ≠ CR ∧ b ≠ LF ∧ b ≠ NUL

/-- `GET / HTTP/1.1` -/
def getRootLine : RequestLine where
  method := ascii "GET"
  blank₁ := 32
  target := ascii "/"
  blank₂ := 32
  version := ascii "HTTP/1.1"
  method_get := by decide
  blank₁_mem := by decide
  target_text := by
    intro b hb
    obtain rfl : b = 47 := List.mem_singleton.mp hb
    decide
  target_path := Or.inl rfl
  blank₂_mem := by decide
  version_http := by decide
  target_line := by
    intro b hb
    obtain rfl : b = 47 := List.mem_singleton.mp hb
    decide

/-- The line begins with `name`, in any case. -/
def hasName (name line : List UInt8) : Bool :=
  eqIgnoreCase (line.take name.length) name

/-- What stands behind the name and the blanks. -/
def valueOf (name line : List UInt8) : List UInt8 :=
  (line.drop name.length).dropWhile fun b => blanks.contains b

def contentLengthName : List UInt8 := ascii "Content-Length:"

/-- The body length that the header lines announce. -/
def announced (headers : List (List UInt8)) : Nat :=
  match headers.find? (hasName contentLengthName) with
  | none => 0
  | some line => decimal (valueOf contentLengthName line)

/-- The parts of a request and how they are sent. -/
structure RequestText where
  line : RequestLine
  headers : List (List UInt8)
  body : List UInt8

def RequestText.bytes (r : RequestText) : List UInt8 :=
  r.line.bytes ++ [CR, LF] ++ r.headers.flatMap (· ++ [CR, LF]) ++ [CR, LF] ++ r.body

/-- A well-formed request that fits the read buffer. -/
structure Request extends RequestText where
  header_text : ∀ h ∈ headers, h ≠ [] ∧ ∀ b ∈ h, b ≠ CR ∧ b ≠ LF ∧ b ≠ NUL
  one_length : (headers.filter (hasName contentLengthName)).length ≤ 1
  length_numeral : ∀ h ∈ headers, hasName contentLengthName h = true →
    valueOf contentLengthName h ≠ [] ∧ ∀ b ∈ valueOf contentLengthName h, isdigit b = true
  body_length : body.length = announced headers
  fits : toRequestText.bytes.length < READ_BUFFER_SIZE

/-- A request starts with a letter. -/
theorem RequestLine.bytes_eq_cons (r : RequestLine) :
    ∃ b rest, r.bytes = b :: rest ∧ b ≠ CR := by
  have hget := eqIgnoreCase_iff.mp r.method_get
  cases hmethod : r.method with
  | nil =>
      rw [hmethod] at hget
      exact absurd hget (by decide)
  | cons b rest =>
      refine ⟨b, rest ++ r.blank₁ :: (r.target ++ r.blank₂ :: r.version), ?_, ?_⟩
      · rw [LineParts.bytes, hmethod, List.cons_append]
      · rintro rfl
        rw [hmethod, List.map_cons] at hget
        exact absurd (List.cons.inj hget).1 (by decide)

theorem RequestText.bytes_eq_cons (r : RequestText) :
    ∃ b rest, r.bytes = b :: rest ∧ b ≠ CR := by
  obtain ⟨b, rest, hline, hb⟩ := r.line.bytes_eq_cons
  exact ⟨b, _, by simp only [RequestText.bytes, hline, List.cons_append]; rfl, hb⟩

/-! ## The first line of a stream -/

/-- The bytes before the first CRLF, once it has arrived. -/
def firstLine : List UInt8 → Option (List UInt8)
  | [] => none
  | b :: rest =>
      if b = CR ∧ rest.head? = some LF then some [] else (firstLine rest).map (b :: ·)

/-- A complete first line stays what it is. -/
theorem firstLine_append {bytes line : List UInt8} (more : List UInt8)
    (h : firstLine bytes = some line) : firstLine (bytes ++ more) = some line := by
  induction bytes generalizing line with
  | nil => exact absurd h (by simp [firstLine])
  | cons b rest ih =>
      rw [firstLine] at h
      rw [List.cons_append, firstLine]
      by_cases hcrlf : b = CR ∧ rest.head? = some LF
      · rw [if_pos hcrlf] at h
        have hhead : (rest ++ more).head? = some LF := by
          rw [List.head?_append, hcrlf.2]
          rfl
        rw [if_pos ⟨hcrlf.1, hhead⟩]
        exact h
      · rw [if_neg hcrlf] at h
        obtain ⟨tail, htail, rfl⟩ := Option.map_eq_some_iff.mp h
        -- the rest is not empty, so its first byte is the same with more behind it
        have hhead : (rest ++ more).head? = rest.head? := by
          cases rest with
          | nil => exact absurd htail (by simp [firstLine])
          | cons c rest => rfl
        rw [hhead, if_neg hcrlf, ih htail]
        rfl

theorem firstLine_mono {bytes bytes' line : List UInt8} (hpre : bytes <+: bytes')
    (h : firstLine bytes = some line) : firstLine bytes' = some line := by
  obtain ⟨more, rfl⟩ := hpre
  exact firstLine_append more h

/-! ## Streams without offence -/

/-- A CR stands just before position `i`. -/
def AfterCR (bytes : List UInt8) (i : Nat) : Prop := 0 < i ∧ bytes[i - 1]? = some CR

/-- Position `i`, not behind the header section, breaks the line discipline:
    something other than LF behind a CR, or LF behind something else. -/
def Offends (bytes : List UInt8) (i : Nat) : Prop :=
  ∃ b, bytes[i]? = some b ∧ ¬ [CR, LF, CR, LF] <:+: bytes.take i ∧
    ((AfterCR bytes i ∧ b ≠ LF) ∨ (b = LF ∧ ¬ AfterCR bytes i))

/-- Streams that can still become a request, as far as the line discipline and
    the request line go. -/
structure Clean (bytes : List UInt8) : Prop where
  no_offence : ∀ i, ¬ Offends bytes i
  first_line : ∀ line, firstLine bytes = some line → ∃ r : RequestLine, r.bytes = line

theorem Offends.append {bytes : List UInt8} {i : Nat} (more : List UInt8)
    (h : Offends bytes i) : Offends (bytes ++ more) i := by
  obtain ⟨b, hb, hsection, hbreak⟩ := h
  have hi : i < bytes.length := (List.getElem?_eq_some_iff.mp hb).1
  have hafter : AfterCR (bytes ++ more) i ↔ AfterCR bytes i := by
    rw [AfterCR, AfterCR, List.getElem?_append_left (by omega)]
  refine ⟨b, ?_, ?_, ?_⟩
  · rw [List.getElem?_append_left hi]
    exact hb
  · rw [List.take_append_of_le_length (by omega)]
    exact hsection
  · rw [hafter]
    exact hbreak

/-- Whatever has arrived of a clean stream is clean. -/
theorem Clean.mono {bytes bytes' : List UInt8} (hpre : bytes <+: bytes')
    (h : Clean bytes') : Clean bytes := by
  obtain ⟨more, rfl⟩ := hpre
  exact ⟨fun i hi => h.no_offence i (hi.append more),
    fun line hline => h.first_line line (firstLine_append more hline)⟩

/-! ## Requests are clean -/

/-- The line discipline byte by byte, LF exactly behind CR; `cr` says whether a
    CR stands just before the first byte. -/
def Disciplined : Bool → List UInt8 → Prop
  | _, [] => True
  | cr, b :: rest => (b = LF ↔ cr = true) ∧ Disciplined (b == CR) rest

theorem Disciplined.getElem {cr : Bool} {bytes : List UInt8} (h : Disciplined cr bytes) {i : Nat}
    {b : UInt8} (hi : bytes[i]? = some b) :
    b = LF ↔ (i = 0 ∧ cr = true) ∨ AfterCR bytes i := by
  induction bytes generalizing cr i with
  | nil => cases hi
  | cons c rest ih =>
      obtain ⟨hc, hrest⟩ := h
      cases i with
      | zero =>
          obtain rfl : c = b := by simpa using hi
          simp [hc, AfterCR]
      | succ i =>
          rw [ih hrest (by simpa using hi)]
          cases i with
          | zero => simp [AfterCR]
          | succ i => simp [AfterCR]

/-- A line of text ends where its CRLF says. -/
theorem disciplined_line {text rest : List UInt8} (htext : ∀ b ∈ text, b ≠ CR ∧ b ≠ LF)
    (h : Disciplined false rest) : Disciplined false (text ++ [CR, LF] ++ rest) := by
  induction text with
  | nil => exact ⟨by decide, by decide, h⟩
  | cons b text ih =>
      obtain ⟨hcr, hlf⟩ := htext b List.mem_cons_self
      have hb : (b == CR) = false := by simpa using hcr
      refine ⟨by simp [hlf], ?_⟩
      rw [hb]
      exact ih (fun c hc => htext c (List.mem_cons_of_mem _ hc))

theorem firstLine_line {text rest : List UInt8} (htext : ∀ b ∈ text, b ≠ CR) :
    firstLine (text ++ [CR, LF] ++ rest) = some text := by
  induction text with
  | nil => rfl
  | cons b text ih =>
      have hb : b ≠ CR := htext b List.mem_cons_self
      have hrest := ih (fun c hc => htext c (List.mem_cons_of_mem _ hc))
      rw [List.cons_append, List.cons_append, firstLine, if_neg (fun h => hb h.1), hrest]
      rfl

/-- Control characters do not become letters. -/
theorem not_mem_of_eqIgnoreCase {text literal : List UInt8} {c : UInt8}
    (h : eqIgnoreCase text literal = true) (hc : tolower c ∉ literal.map tolower) : c ∉ text := by
  intro hmem
  rw [← eqIgnoreCase_iff.mp h] at hc
  exact hc (List.mem_map_of_mem hmem)

theorem LineParts.not_mem_bytes (p : LineParts) {c : UInt8}
    (hmethod : tolower c ∉ (ascii "GET").map tolower) (hblank : c ≠ 32 ∧ c ≠ 9)
    (htarget : c ∉ p.target) (hversion : tolower c ∉ (ascii "HTTP/1.1").map tolower) :
    c ∉ p.bytes := by
  have hno {b : UInt8} (hb : b ∈ blanks) : c ≠ b := by
    rcases mem_blanks.mp hb with rfl | rfl
    · exact hblank.1
    · exact hblank.2
  intro hc
  simp only [LineParts.bytes, List.mem_append, List.mem_cons] at hc
  rcases hc with hc | hc | hc | hc | hc
  · exact not_mem_of_eqIgnoreCase p.method_get hmethod hc
  · exact hno p.blank₁_mem hc
  · exact htarget hc
  · exact hno p.blank₂_mem hc
  · exact not_mem_of_eqIgnoreCase p.version_http hversion hc

/-- The line holds nothing that ends a line or a string. -/
theorem RequestLine.no_break (r : RequestLine) : ∀ b ∈ r.bytes, b ≠ CR ∧ b ≠ LF ∧ b ≠ NUL := by
  refine fun b hb => ⟨?_, ?_, ?_⟩
  · rintro rfl
    exact r.not_mem_bytes (by decide) (by decide) (fun h => (r.target_line _ h).1 rfl) (by decide) hb
  · rintro rfl
    exact r.not_mem_bytes (by decide) (by decide) (fun h => (r.target_line _ h).2.1 rfl) (by decide) hb
  · rintro rfl
    exact r.not_mem_bytes (by decide) (by decide) (fun h => (r.target_line _ h).2.2 rfl) (by decide) hb

/-- The request line, the headers and the empty line. -/
def RequestText.head (r : RequestText) : List UInt8 :=
  r.line.bytes ++ [CR, LF] ++ (r.headers.flatMap (· ++ [CR, LF]) ++ [CR, LF])

theorem RequestText.bytes_eq (r : RequestText) : r.bytes = r.head ++ r.body := by
  simp only [RequestText.bytes, RequestText.head, List.append_assoc]

theorem disciplined_headers {headers : List (List UInt8)}
    (h : ∀ line ∈ headers, ∀ b ∈ line, b ≠ CR ∧ b ≠ LF) :
    Disciplined false (headers.flatMap (· ++ [CR, LF]) ++ [CR, LF]) := by
  induction headers with
  | nil => exact ⟨by decide, by decide, trivial⟩
  | cons line headers ih =>
      rw [List.flatMap_cons, List.append_assoc]
      apply disciplined_line (h line List.mem_cons_self)
      exact ih (fun line hline => h line (List.mem_cons_of_mem _ hline))

theorem Request.head_disciplined (r : Request) : Disciplined false r.head := by
  apply disciplined_line (fun b hb => ⟨(r.line.no_break b hb).1, (r.line.no_break b hb).2.1⟩)
  apply disciplined_headers
  intro line hline b hb
  obtain ⟨hcr, hlf, -⟩ := (r.header_text line hline).2 b hb
  exact ⟨hcr, hlf⟩

/-- The head ends with the first CRLFCRLF or a later one. -/
theorem RequestText.head_suffix (r : RequestText) : [CR, LF, CR, LF] <:+ r.head := by
  rcases List.eq_nil_or_concat r.headers with hnil | ⟨headers, line, hheaders⟩
  · refine ⟨r.line.bytes, ?_⟩
    simp [RequestText.head, hnil]
  · refine ⟨r.line.bytes ++ [CR, LF] ++ headers.flatMap (· ++ [CR, LF]) ++ line, ?_⟩
    simp [RequestText.head, hheaders]

/-- **Requests are clean**, whatever their body holds. -/
theorem Request.clean (r : Request) : Clean r.bytes := by
  refine ⟨?_, ?_⟩
  · rintro i ⟨b, hb, hsection, hbreak⟩
    rw [r.bytes_eq] at hb hsection hbreak
    by_cases hi : i < r.head.length
    · -- in the head LF stands exactly behind CR
      rw [List.getElem?_append_left hi] at hb
      have hafter : AfterCR (r.head ++ r.body) i ↔ AfterCR r.head i := by
        rw [AfterCR, AfterCR, List.getElem?_append_left (by omega)]
      have hiff := r.head_disciplined.getElem hb
      simp only [Bool.false_eq_true, and_false, false_or] at hiff
      rw [hafter] at hbreak
      tauto
    · -- behind the head the header section is over
      have htake : (r.head ++ r.body).take i = r.head ++ r.body.take (i - r.head.length) := by
        rw [List.take_append, List.take_of_length_le (by omega)]
      rw [htake] at hsection
      exact hsection ((r.head_suffix.isInfix).trans (List.prefix_append _ _).isInfix)
  · intro line hline
    have hfirst : firstLine r.bytes = some r.line.bytes := by
      rw [r.bytes_eq, RequestText.head, List.append_assoc]
      exact firstLine_line (fun b hb => (r.line.no_break b hb).1)
    exact ⟨r.line, Option.some.inj (hfirst.symm.trans hline)⟩

end HttpConn

end WebServer
