/-
  WebServer.HttpConn.Stream

  What a client gets for its byte stream, for every stream and every way it is
  cut into chunks: whether a request is served, whether the worker survives,
  whether a malformed stream is rejected.

  All three follow from `serves_outcome`: the only results a `process_read()`
  since `init()` has are `NO_REQUEST` without a call of `do_request`, and the
  write through a null pointer.
-/

import WebServer.HttpConn.Session
import WebServer.HttpConn.Grammar

namespace WebServer

open WebServer.Lib

namespace HttpConn

section Streams

variable {doRequest : HttpConn → HttpCode × HttpConn} {s : HttpConn}
  {chunks : List (List UInt8)} {outs : List (Except Fault Returned)}

/-! ## The results of a run -/

theorem outcome_of_mem (h : Serves doRequest s.init chunks outs) {out : Except Fault Returned}
    (hout : out ∈ outs) : ∃ k, k < chunks.length ∧ out = outcome s (bytesAt chunks k) := by
  obtain ⟨hcount, hres⟩ := serves_outcome h
  obtain ⟨k, hk, rfl⟩ := List.mem_iff_getElem.mp hout
  refine ⟨k, by omega, ?_⟩
  have := hres k (by omega)
  rw [List.getElem?_eq_getElem hk] at this
  exact Option.some.inj this

/-- No call is ever answered with `BAD_REQUEST`. -/
theorem no_badRequest (h : Serves doRequest s.init chunks outs) {k : Nat} {r : Returned}
    (hk : outs[k]? = some (.ok r)) : r.code ≠ .badRequest := by
  obtain ⟨hcount, hres⟩ := serves_outcome h
  have hlt : k < outs.length := (List.getElem?_eq_some_iff.mp hk).1
  rw [hres k (by omega), outcome] at hk
  by_cases hcrash : Crashes (bytesAt chunks k)
  · rw [if_pos hcrash] at hk
    cases hk
  · rw [if_neg hcrash] at hk
    cases hk
    simp

/-- The first byte of a stream cut into non-empty chunks is there from the
    first call on. -/
theorem bytesAt_head {b : UInt8} {rest : List UInt8} (hne : ∀ chunk ∈ chunks, chunk ≠ [])
    (hbytes : chunks.flatten = b :: rest) {k : Nat} (hk : k < chunks.length) :
    ∃ tail, bytesAt chunks k = b :: tail := by
  obtain ⟨more, hmore⟩ := bytesAt_flatten chunks k
  rw [hbytes] at hmore
  cases hat : bytesAt chunks k with
  | nil =>
      -- nothing has arrived only if the first chunk is empty
      cases chunks with
      | nil => exact absurd hk (by simp)
      | cons chunk chunks =>
          have hnil : chunk ++ (chunks.take k).flatten = [] := hat
          exact absurd (List.append_eq_nil_iff.mp hnil).1 (hne chunk List.mem_cons_self)
  | cons c tail =>
      rw [hat, List.cons_append] at hmore
      exact ⟨tail, by rw [(List.cons.inj hmore).1]⟩

theorem not_crashes_cons {b : UInt8} {rest : List UInt8} (hb : b ≠ CR) :
    ¬ Crashes (b :: rest) := by
  rintro (h | ⟨more, hmore⟩)
  · cases h
  · exact hb (List.cons.inj hmore).1.symm

/-- A stream that does not start with CR is waited on, whatever it is. -/
theorem waits_of_head (h : Serves doRequest s.init chunks outs) {b : UInt8}
    {rest : List UInt8} (hne : ∀ chunk ∈ chunks, chunk ≠ []) (hbytes : chunks.flatten = b :: rest)
    (hb : b ≠ CR) : ∀ out ∈ outs, ∃ r, out = .ok r ∧ r.code = .noRequest ∧ r.requests = [] := by
  intro out hout
  obtain ⟨k, hk, rfl⟩ := outcome_of_mem h hout
  obtain ⟨tail, htail⟩ := bytesAt_head hne hbytes hk
  rw [outcome, htail, if_neg (not_crashes_cons hb)]
  exact ⟨_, rfl, rfl, rfl⟩

/-- Such a stream is received to its end if it fits the buffer. -/
theorem serves_of_head {b : UInt8} {rest : List UInt8} (hne : ∀ chunk ∈ chunks, chunk ≠ [])
    (hbytes : chunks.flatten = b :: rest) (hb : b ≠ CR)
    (hfits : chunks.flatten.length < READ_BUFFER_SIZE) :
    ∃ outs, Serves doRequest s.init chunks outs := by
  rw [init_eq_received]
  apply serves_exists
  · exact hfits
  · intro k hk
    obtain ⟨tail, htail⟩ := bytesAt_head hne hbytes hk
    rw [List.nil_append, htail]
    exact not_crashes_cons hb

/-- The run of one chunk. -/
theorem serves_singleton (doRequest : HttpConn → HttpCode × HttpConn) (s : HttpConn)
    {chunk : List UInt8} (h : chunk.length < READ_BUFFER_SIZE) :
    Serves doRequest s.init [chunk] [outcome s chunk] := by
  have hread : Reads s.init chunk (s.received chunk) := by
    rw [init_eq_received, reads_received (by decide)]
    exact ⟨by simpa using h, rfl⟩
  have hprocess : ProcessRead doRequest (s.received chunk) (outcome s chunk) :=
    (processRead_received doRequest (Nat.le_of_lt h)).mpr rfl
  unfold outcome at hprocess ⊢
  by_cases hcrash : Crashes chunk
  · rw [if_pos hcrash] at hprocess ⊢
    exact .fault hread hprocess
  · rw [if_neg hcrash] at hprocess ⊢
    exact .returned hread hprocess (.nil _)

end Streams

/-! ## Serving a request -/

/-- The call after the last chunk hands the request to `do_request`, the calls
    before it return `NO_REQUEST` and hand over nothing. -/
def ServedAtEnd (outs : List (Except Fault Returned)) : Prop :=
  (∀ out ∈ outs.dropLast, ∃ r, out = .ok r ∧ r.code = .noRequest ∧ r.requests = []) ∧
    ∃ r, outs.getLast? = some (.ok r) ∧ r.requests ≠ []

theorem not_servedAtEnd {outs : List (Except Fault Returned)}
    (h : ∀ out ∈ outs, ∃ r, out = .ok r ∧ r.code = .noRequest ∧ r.requests = []) :
    ¬ ServedAtEnd outs := by
  rintro ⟨-, r, hlast, hreq⟩
  obtain ⟨r', heq, -, hnone⟩ := h _ (List.mem_of_getLast? hlast)
  cases heq
  exact hreq hnone

/-- **No request is ever served.**  However a well-formed request is cut, every
    `process_read()` since `init()` returns `NO_REQUEST`, the one after the
    last chunk included, and `do_request` is not called. -/
theorem request_never_served (doRequest : HttpConn → HttpCode × HttpConn) (s : HttpConn)
    (R : Request) (chunks : List (List UInt8)) (hne : ∀ chunk ∈ chunks, chunk ≠ [])
    (hcut : chunks.flatten = R.bytes) :
    (∃ outs, Serves doRequest s.init chunks outs) ∧
      ∀ outs, Serves doRequest s.init chunks outs →
        (∀ out ∈ outs, ∃ r, out = .ok r ∧ r.code = .noRequest ∧ r.requests = []) ∧
          ¬ ServedAtEnd outs := by
  obtain ⟨b, rest, hbytes, hb⟩ := R.bytes_eq_cons
  refine ⟨serves_of_head hne (hcut.trans hbytes) hb (hcut ▸ R.fits), ?_⟩
  intro outs h
  have hwaits := waits_of_head h hne (hcut.trans hbytes) hb
  exact ⟨hwaits, not_servedAtEnd hwaits⟩

/-- `GET / HTTP/1.1` and no headers. -/
def getRoot : Request where
  line := getRootLine
  headers := []
  body := []
  header_text := by simp
  one_length := by simp
  length_numeral := by simp
  body_length := rfl
  fits := by decide

theorem request_never_served_getRoot :
    (∃ outs, Serves noFile zeroSlot.init [ascii "GET / HT", ascii "TP/1.1\r\n\r\n"] outs) ∧
      ∀ outs, Serves noFile zeroSlot.init [ascii "GET / HT", ascii "TP/1.1\r\n\r\n"] outs →
        (∀ out ∈ outs, ∃ r, out = .ok r ∧ r.code = .noRequest ∧ r.requests = []) ∧
          ¬ ServedAtEnd outs :=
  request_never_served noFile zeroSlot getRoot _ (by decide) (by decide)

theorem getRoot_not_served :
    [ascii "GET / HTTP/1.1\r\n\r\n"].flatten = getRoot.bytes ∧ zeroSlot.mContentLength = 0 ∧
      ∃ outs, Serves noFile zeroSlot.init [ascii "GET / HTTP/1.1\r\n\r\n"] outs ∧
        ¬ ServedAtEnd outs := by
  have hbytes : [ascii "GET / HTTP/1.1\r\n\r\n"].flatten
      = 71 :: ascii "ET / HTTP/1.1\r\n\r\n" := by decide
  have hne : ∀ chunk ∈ [ascii "GET / HTTP/1.1\r\n\r\n"], chunk ≠ [] := by decide
  obtain ⟨outs, h⟩ : ∃ outs, Serves noFile zeroSlot.init [ascii "GET / HTTP/1.1\r\n\r\n"] outs :=
    serves_of_head hne hbytes (by decide) (by decide)
  exact ⟨by decide, rfl, outs, h, not_servedAtEnd (waits_of_head h hne hbytes (by decide))⟩

/-! ## Surviving a stream -/

/-- No call faults, and a request line without a blank in it is answered with
    `BAD_REQUEST` by the time it is complete. -/
structure Survives (chunks : List (List UInt8)) (outs : List (Except Fault Returned)) : Prop where
  no_fault : ∀ out ∈ outs, ∃ r, out = .ok r
  answered : ∀ k line, k < chunks.length → firstLine (bytesAt chunks k) = some line →
    (∀ b ∈ line, b ∉ blanks) → ∃ j, j ≤ k ∧ ∃ r, outs[j]? = some (.ok r) ∧ r.code = .badRequest

theorem Crashes.firstLine {bytes : List UInt8} (h : Crashes bytes) (hne : bytes ≠ []) :
    HttpConn.firstLine bytes = some [] := by
  rcases h with rfl | ⟨more, rfl⟩
  · exact absurd rfl hne
  · rfl

section Survival

variable {doRequest : HttpConn → HttpCode × HttpConn} {s : HttpConn}
  {chunks : List (List UInt8)} {outs : List (Except Fault Returned)}

/-- With a non-empty first chunk the only crash is an empty first line. -/
theorem firstLine_of_crash (hhead : chunks.head? ≠ some []) {k : Nat} (hk : k < chunks.length)
    (hcrash : Crashes (bytesAt chunks k)) : firstLine chunks.flatten = some [] := by
  cases chunks with
  | nil => exact absurd hk (by simp)
  | cons chunk chunks =>
      have hne : bytesAt (chunk :: chunks) k ≠ [] := by
        intro hnil
        have hnil' : chunk ++ (chunks.take k).flatten = [] := hnil
        exact hhead (by rw [(List.append_eq_nil_iff.mp hnil').1]; rfl)
      exact firstLine_mono (bytesAt_flatten _ k) (hcrash.firstLine hne)

theorem survives_of (h : Serves doRequest s.init chunks outs) (hhead : chunks.head? ≠ some [])
    (hline : ∀ line, firstLine chunks.flatten = some line → ∃ b ∈ line, b ∈ blanks) :
    Survives chunks outs := by
  refine ⟨?_, ?_⟩
  · intro out hout
    obtain ⟨k, hk, rfl⟩ := outcome_of_mem h hout
    have hsafe : ¬ Crashes (bytesAt chunks k) := by
      intro hcrash
      obtain ⟨b, hb, -⟩ := hline [] (firstLine_of_crash hhead hk hcrash)
      cases hb
    rw [outcome, if_neg hsafe]
    exact ⟨_, rfl⟩
  · -- a line complete after some chunk is the first line of the whole stream
    intro k line hk hfirst hnone
    obtain ⟨b, hb, hmem⟩ := hline line (firstLine_mono (bytesAt_flatten chunks k) hfirst)
    exact absurd hmem (hnone b hb)

/-- An empty first chunk crashes the first call. -/
theorem Survives.head_ne_nil (h : Serves doRequest s.init chunks outs)
    (hsurvives : Survives chunks outs) : chunks.head? ≠ some [] := by
  intro hempty
  cases chunks with
  | nil => cases hempty
  | cons chunk chunks =>
      obtain rfl : chunk = [] := by simpa using hempty
      have hcrash : Crashes (bytesAt ([] :: chunks) 0) := Or.inl rfl
      have hfirst := (serves_outcome h).2 0 (by simp)
      rw [outcome, if_pos hcrash] at hfirst
      obtain ⟨r, hr⟩ := hsurvives.no_fault _ (List.mem_of_getElem? hfirst)
      cases hr

/-- Nothing is answered with `BAD_REQUEST`, so no line may need that answer. -/
theorem Survives.line_has_blank (h : Serves doRequest s.init chunks outs)
    (hsurvives : Survives chunks outs) {line : List UInt8}
    (hfirst : firstLine chunks.flatten = some line) : ∃ b ∈ line, b ∈ blanks := by
  by_contra hblank
  have hne : chunks ≠ [] := by
    rintro rfl
    cases hfirst
  have hlast : chunks.length - 1 < chunks.length := by
    have := List.length_pos_iff.mpr hne
    omega
  rw [← bytesAt_last] at hfirst
  obtain ⟨j, -, r, hj, hbad⟩ := hsurvives.answered _ line hlast hfirst
    (fun b hb hmem => hblank ⟨b, hb, hmem⟩)
  exact no_badRequest h hj hbad

end Survival

/-- **Which streams a worker survives.**  Exactly those that start with a
    non-empty chunk and whose first line, once complete, has a blank in it:
    an empty first chunk or an empty line is a write through a null pointer,
    any other line without a blank is waited on. -/
theorem survives_iff {doRequest : HttpConn → HttpCode × HttpConn} {s : HttpConn}
    {chunks : List (List UInt8)} {outs : List (Except Fault Returned)}
    (h : Serves doRequest s.init chunks outs) :
    Survives chunks outs ↔
      chunks.head? ≠ some [] ∧
        ∀ line, firstLine chunks.flatten = some line → ∃ b ∈ line, b ∈ blanks := by
  refine ⟨fun hsurvives => ⟨hsurvives.head_ne_nil h, ?_⟩, fun ⟨hhead, hline⟩ => ?_⟩
  · intro line hfirst
    exact hsurvives.line_has_blank h hfirst
  · exact survives_of h hhead hline

theorem survives_iff_partial_line :
    Serves noFile zeroSlot.init [ascii "GET /"] [outcome zeroSlot (ascii "GET /")] ∧
      Survives [ascii "GET /"] [outcome zeroSlot (ascii "GET /")] :=
  have h : Serves noFile zeroSlot.init [ascii "GET /"] [outcome zeroSlot (ascii "GET /")] :=
    serves_singleton noFile zeroSlot (by decide)
  ⟨h, (survives_iff h).mpr ⟨by decide, fun line hline => by cases hline⟩⟩

/-- A client that sends an empty line. -/
theorem empty_line_crashes :
    Serves noFile zeroSlot.init [ascii "\r\n"] [.error .nullDeref] ∧
      ¬ Survives [ascii "\r\n"] [.error .nullDeref] := by
  refine ⟨serves_singleton noFile zeroSlot (by decide), ?_⟩
  intro h
  obtain ⟨r, hr⟩ := h.no_fault _ List.mem_cons_self
  cases hr

/-! ## Rejecting a stream -/

/-- `NO_REQUEST` is only returned for clean streams, and the call that first
    sees an unclean one returns `BAD_REQUEST`. -/
structure Rejects (chunks : List (List UInt8)) (outs : List (Except Fault Returned)) : Prop where
  waits : ∀ k r, outs[k]? = some (.ok r) → r.code = .noRequest → Clean (bytesAt chunks k)
  rejects : ∀ k, k < chunks.length → ¬ Clean (bytesAt chunks k) →
    (∀ j, j < k → Clean (bytesAt chunks j)) → ∃ r, outs[k]? = some (.ok r) ∧ r.code = .badRequest

theorem clean_nil : Clean [] := by
  refine ⟨?_, ?_⟩
  · rintro i ⟨b, hb, -⟩
    cases hb
  · intro line hline
    cases hline

theorem rejects_of_clean {chunks : List (List UInt8)} {outs : List (Except Fault Returned)}
    (hclean : Clean chunks.flatten) : Rejects chunks outs := by
  refine ⟨?_, ?_⟩
  · intro k r hr hcode
    exact hclean.mono (bytesAt_flatten chunks k)
  · intro k hk hbad
    exact absurd (hclean.mono (bytesAt_flatten chunks k)) hbad

/-- **Which streams are treated right.**  Exactly the clean ones: a stream with
    anything to reject in it is never rejected. -/
theorem rejects_iff {doRequest : HttpConn → HttpCode × HttpConn} {s : HttpConn}
    {chunks : List (List UInt8)} {outs : List (Except Fault Returned)}
    (h : Serves doRequest s.init chunks outs) :
    Rejects chunks outs ↔ Clean chunks.flatten := by
  refine ⟨fun hrejects => ?_, rejects_of_clean⟩
  -- strong induction along the calls: none is the first to see an unclean stream
  have hall : ∀ k, k < chunks.length → Clean (bytesAt chunks k) := by
    intro k
    induction k using Nat.strong_induction_on with
    | _ k ih =>
        intro hk
        by_contra hbad
        obtain ⟨r, hr, hcode⟩ :=
          hrejects.rejects k hk hbad (fun j hj => ih j hj (by omega))
        exact no_badRequest h hr hcode
  by_cases hne : chunks = []
  · rw [hne]
    exact clean_nil
  · rw [← bytesAt_last]
    have := List.length_pos_iff.mpr hne
    exact hall _ (by omega)

theorem rejects_iff_partial_line :
    Serves noFile zeroSlot.init [ascii "GE"] [outcome zeroSlot (ascii "GE")] ∧
      Rejects [ascii "GE"] [outcome zeroSlot (ascii "GE")] := by
  have h : Serves noFile zeroSlot.init [ascii "GE"] [outcome zeroSlot (ascii "GE")] :=
    serves_singleton noFile zeroSlot (by decide)
  refine ⟨h, (rejects_iff h).mpr ⟨?_, fun line hline => by cases hline⟩⟩
  rintro i ⟨b, hb, -, hbreak⟩
  -- the two bytes are neither CR nor LF
  match i, hb, hbreak with
  | 0, hb, hbreak =>
      cases hb
      rcases hbreak with ⟨⟨hpos, -⟩, -⟩ | ⟨hlf, -⟩
      · exact absurd hpos (by omega)
      · exact absurd hlf (by decide)
  | 1, hb, hbreak =>
      cases hb
      rcases hbreak with ⟨⟨-, hcr⟩, -⟩ | ⟨hlf, -⟩
      · exact absurd hcr (by decide)
      · exact absurd hlf (by decide)
  | i + 2, hb, _ => cases hb

/-- A well-formed request never crashes the worker and is never mistaken for a
    malformed one; it is only not served. -/
theorem request_survives {doRequest : HttpConn → HttpCode × HttpConn} {s : HttpConn} (R : Request)
    {chunks : List (List UInt8)} {outs : List (Except Fault Returned)}
    (hne : ∀ chunk ∈ chunks, chunk ≠ []) (hcut : chunks.flatten = R.bytes)
    (h : Serves doRequest s.init chunks outs) : Survives chunks outs ∧ Rejects chunks outs := by
  have hclean : Clean chunks.flatten := hcut ▸ R.clean
  refine ⟨survives_of h ?_ ?_, rejects_of_clean hclean⟩
  · intro hempty
    exact hne [] (List.mem_of_head? hempty) rfl
  · intro line hline
    obtain ⟨r, rfl⟩ := hclean.first_line line hline
    exact ⟨r.blank₁, by simp [LineParts.bytes], r.blank₁_mem⟩

/-- A line feed where the request line should start is waited on. -/
theorem bare_lf_waited_on :
    Serves noFile zeroSlot.init [[LF]] [.ok ⟨.noRequest, zeroSlot.received [LF], []⟩] ∧
      ¬ Rejects [[LF]] [.ok ⟨.noRequest, zeroSlot.received [LF], []⟩] := by
  refine ⟨serves_singleton noFile zeroSlot (by decide), ?_⟩
  intro h
  have hclean : Clean [LF] := h.waits 0 _ rfl rfl
  refine hclean.no_offence 0 ⟨LF, rfl, by decide, Or.inr ⟨rfl, ?_⟩⟩
  rintro ⟨hpos, -⟩
  omega

end HttpConn

end WebServer
