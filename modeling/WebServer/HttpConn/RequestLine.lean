/-
  WebServer.HttpConn.RequestLine

  The request lines `parse_request_line` accepts.

  The function cuts the line at its first two blanks by writing NULs over them
  and looks at the three strings this leaves.  So it accepts a grammar,
  `LineParts`, and a line has at most one such decomposition: the method and
  the target hold no blank (`split_unique`).  `request_line_grammar` is the
  equivalence, with the pointers and the buffer an accepted line leaves.
-/

import WebServer.HttpConn.Grammar
import WebServer.HttpConn.Session
import WebServer.Lib.CStr

namespace WebServer

open WebServer.Lib

namespace HttpConn

/-! ## Splitting at the blanks -/

theorem exists_split {line : List UInt8} (h : ∃ b ∈ line, b ∈ blanks) :
    ∃ a b rest, line = a ++ b :: rest ∧ (∀ c ∈ a, c ∉ blanks) ∧ b ∈ blanks := by
  induction line with
  | nil =>
      obtain ⟨b, hb, -⟩ := h
      cases hb
  | cons c line ih =>
      by_cases hc : c ∈ blanks
      · exact ⟨[], c, line, rfl, by simp, hc⟩
      · obtain ⟨b, hb, hblank⟩ := h
        have hrest : ∃ b ∈ line, b ∈ blanks := by
          rcases List.mem_cons.mp hb with rfl | hb
          · exact absurd hblank hc
          · exact ⟨b, hb, hblank⟩
        obtain ⟨a, b, rest, rfl, ha, hb⟩ := ih hrest
        refine ⟨c :: a, b, rest, rfl, ?_, hb⟩
        intro d hd
        rcases List.mem_cons.mp hd with rfl | hd
        · exact hc
        · exact ha d hd

/-- There is one way to split at the first blank. -/
theorem split_unique {a a' rest rest' : List UInt8} {b b' : UInt8}
    (h : a ++ b :: rest = a' ++ b' :: rest') (ha : ∀ c ∈ a, c ∉ blanks) (hb : b ∈ blanks)
    (ha' : ∀ c ∈ a', c ∉ blanks) (hb' : b' ∈ blanks) : a = a' ∧ b = b' ∧ rest = rest' := by
  induction a generalizing a' with
  | nil =>
      cases a' with
      | nil => simpa using h
      | cons c a' =>
          obtain ⟨rfl, -⟩ : b = c ∧ _ := by simpa using h
          exact absurd hb (ha' b List.mem_cons_self)
  | cons c a ih =>
      cases a' with
      | nil =>
          obtain ⟨rfl, -⟩ : c = b' ∧ _ := by simpa using h
          exact absurd hb' (ha c List.mem_cons_self)
      | cons c' a' =>
          obtain ⟨rfl, htail⟩ : c = c' ∧ a ++ b :: rest = a' ++ b' :: rest' := by simpa using h
          obtain ⟨rfl, hrest⟩ := ih htail (fun d hd => ha d (List.mem_cons_of_mem _ hd))
            (fun d hd => ha' d (List.mem_cons_of_mem _ hd))
          exact ⟨rfl, hrest⟩

theorem LineParts.method_text (p : LineParts) : ∀ c ∈ p.method, c ∉ blanks := by
  intro c hc hblank
  rcases mem_blanks.mp hblank with rfl | rfl
  · exact not_mem_of_eqIgnoreCase p.method_get (by decide) hc
  · exact not_mem_of_eqIgnoreCase p.method_get (by decide) hc

/-- The parts of a line are what its first blank separates. -/
theorem LineParts.split {p : LineParts} {method rest : List UInt8} {b : UInt8}
    (h : p.bytes = method ++ b :: rest) (hmethod : ∀ c ∈ method, c ∉ blanks) (hb : b ∈ blanks) :
    p.method = method ∧ p.target ++ p.blank₂ :: p.version = rest := by
  obtain ⟨hm, -, hrest⟩ := split_unique h p.method_text p.blank₁_mem hmethod hb
  exact ⟨hm, hrest⟩

theorem LineParts.length_bytes (p : LineParts) :
    p.bytes.length = p.method.length + 1 + p.target.length + 1 + p.version.length := by
  simp only [LineParts.bytes, List.length_append, List.length_cons]
  omega

theorem LineParts.bytes_injective {p p' : LineParts} (h : p.bytes = p'.bytes) : p = p' := by
  obtain ⟨hmethod, hblank₁, hrest⟩ :=
    split_unique h p.method_text p.blank₁_mem p'.method_text p'.blank₁_mem
  obtain ⟨htarget, hblank₂, hversion⟩ :=
    split_unique hrest p.target_text p.blank₂_mem p'.target_text p'.blank₂_mem
  cases p
  cases p'
  simp_all

/-! ## The target -/

def isHttp (target : List UInt8) : Bool :=
  eqIgnoreCase (target.take 7) (ascii "http://")

/-- The path in a target: all of it, or what begins at the first slash behind
    `http://`. -/
def pathOf (target : List UInt8) : List UInt8 :=
  if isHttp target then (target.drop 7).dropWhile fun b => b != 47 else target

/-- Where the path begins in the target. -/
def pathAt (target : List UInt8) : Nat :=
  if isHttp target then 7 + ((target.drop 7).takeWhile fun b => b != 47).length else 0

theorem length_of_isHttp {target : List UInt8} (h : isHttp target = true) : 7 ≤ target.length := by
  have hlength := length_of_eqIgnoreCase h
  rw [List.length_take] at hlength
  have hseven : (ascii "http://").length = 7 := rfl
  omega

/-- The path reaches to the end of the target. -/
theorem pathAt_add_length (target : List UInt8) :
    pathAt target + (pathOf target).length = target.length := by
  rw [pathAt, pathOf]
  cases hhttp : isHttp target with
  | false => simp
  | true =>
      have hlength := congrArg List.length
        (List.takeWhile_append_dropWhile (p := fun b => b != 47) (l := target.drop 7))
      have hseven := length_of_isHttp hhttp
      rw [List.length_append, List.length_drop] at hlength
      simp only [if_true]
      omega

theorem isTarget_iff (target : List UInt8) :
    IsTarget target ↔ if isHttp target then 47 ∈ target.drop 7 else target.head? = some 47 := by
  cases hhttp : isHttp target with
  | false =>
      rw [IsTarget, ← isHttp, hhttp]
      simp
  | true =>
      -- `http://` does not begin with a slash
      have hhead : target.head? ≠ some 47 := by
        intro hhead
        cases target with
        | nil => cases hhead
        | cons b target =>
            obtain rfl : b = 47 := by simpa using hhead
            rw [isHttp, eqIgnoreCase_iff, List.take_succ_cons, List.map_cons] at hhttp
            exact absurd (List.cons.inj hhttp).1 (by decide)
      rw [IsTarget, ← isHttp, hhttp]
      simp [hhead]

section Target

variable {buf : Vector UInt8 READ_BUFFER_SIZE} {url : Nat} {target : List UInt8}

theorem strncasecmp_http (h : CStr buf url target) :
    strncasecmp buf url (ascii "http://") = .ok (isHttp target) :=
  strncasecmp_of_cstr h (by decide)

theorem dropWhile_slash {rest : List UInt8} (h : 47 ∈ rest) :
    ∃ tail, rest.dropWhile (fun b => b != 47) = 47 :: tail := by
  cases hpath : rest.dropWhile (fun b => b != 47) with
  | nil =>
      have hall := List.dropWhile_eq_nil_iff.mp hpath 47 h
      exact absurd hall (by decide)
  | cons b tail =>
      have hb := List.head?_dropWhile_not (fun b => b != 47) rest
      rw [hpath] at hb
      have hb47 : b = 47 := by simpa using hb
      exact ⟨tail, by rw [hb47]⟩

/-- `strchr` finds the first slash, and a path stands there. -/
theorem strchr_slash {start : Nat} {rest : List UInt8} (h : CStr buf start rest) (hmem : 47 ∈ rest) :
    strchr buf start 47 = .ok (some (start + (rest.takeWhile fun b => b != 47).length)) ∧
      buf[start + (rest.takeWhile fun b => b != 47).length]? = some 47 ∧
      CStr buf (start + (rest.takeWhile fun b => b != 47).length)
        (rest.dropWhile fun b => b != 47) := by
  obtain ⟨tail, htail⟩ := dropWhile_slash hmem
  have hsplit := List.takeWhile_append_dropWhile (p := fun b => b != 47) (l := rest)
  rw [htail] at hsplit ⊢
  rw [← hsplit] at h
  refine ⟨?_, h.byte, h.append_right⟩
  rw [strchr]
  refine strpbrk_of_cstr h (fun c hc => ?_) List.mem_cons_self
  simpa using List.mem_takeWhile_imp hc

/-- A target with a path: `m_url` is moved to the path. -/
theorem skipHost_of_isTarget (h : CStr buf url target) (htarget : IsTarget target) :
    skipHost buf url = .ok (some (url + pathAt target)) ∧
      notPath buf (some (url + pathAt target)) = .ok false ∧
      CStr buf (url + pathAt target) (pathOf target) := by
  rw [isTarget_iff] at htarget
  rw [skipHost, strncasecmp_http h, ok_bind, pathAt, pathOf]
  cases hhttp : isHttp target with
  | false =>
      rw [hhttp, if_neg Bool.false_ne_true] at htarget
      rw [if_neg Bool.false_ne_true, if_neg Bool.false_ne_true, if_neg Bool.false_ne_true]
      obtain ⟨rest, rfl⟩ : ∃ rest, target = 47 :: rest := by
        cases target with
        | nil => cases htarget
        | cons b rest => exact ⟨rest, by simpa using htarget⟩
      refine ⟨rfl, ?_, h⟩
      rw [notPath, Nat.add_zero, load_eq_ok.mpr h.1]
      rfl
  | true =>
      rw [hhttp, if_pos rfl] at htarget
      rw [if_pos rfl, if_pos rfl, if_pos rfl, ← Nat.add_assoc]
      obtain ⟨hfound, hslash, hpath⟩ := strchr_slash (h.drop (length_of_isHttp hhttp)) htarget
      refine ⟨hfound, ?_, hpath⟩
      rw [notPath, load_eq_ok.mpr hslash]
      rfl

theorem skipHost_of_not_isTarget (h : CStr buf url target) (htarget : ¬ IsTarget target) :
    ∃ found, skipHost buf url = .ok found ∧ notPath buf found = .ok true := by
  rw [isTarget_iff] at htarget
  rw [skipHost, strncasecmp_http h, ok_bind]
  cases hhttp : isHttp target with
  | false =>
      rw [hhttp, if_neg Bool.false_ne_true] at htarget
      rw [if_neg Bool.false_ne_true]
      refine ⟨some url, rfl, ?_⟩
      cases target with
      | nil =>
          rw [notPath, load_eq_ok.mpr h]
          rfl
      | cons b rest =>
          have hb : (b != 47) = true := by simpa using htarget
          rw [notPath, load_eq_ok.mpr h.1, ok_bind, hb]
          rfl
  | true =>
      -- `m_url` becomes null, which the test behind it catches
      rw [hhttp, if_pos rfl] at htarget
      rw [if_pos rfl]
      refine ⟨none, ?_, rfl⟩
      rw [strchr]
      refine strpbrk_none_of_cstr (h.drop (length_of_isHttp hhttp)) (fun c hc hmem => ?_)
      rw [List.mem_singleton] at hmem
      subst hmem
      exact htarget hc

end Target

/-! ## The line -/

/-- What is left of a line that was not accepted: `m_check_state` is unchanged,
    and a byte of the line has become a NUL. -/
structure LineRejected (s s' : HttpConn) : Prop where
  conn : s' = { s with
    mReadBuf := s'.mReadBuf
    mUrl := s'.mUrl
    mVersion := s'.mVersion
    mMethod := s'.mMethod }
  nulsOnly : NulsOnly s.mReadBuf s'.mReadBuf
  cut : ∃ (i : Nat) (b : UInt8), s.mReadBuf[i]? = some b ∧ b ≠ NUL ∧ s'.mReadBuf[i]? = some NUL

/-- What an accepted line leaves. -/
structure LineAccepted (s : HttpConn) (text : Nat) (p : LineParts) (s' : HttpConn) : Prop where
  conn : s' = { s with
    mReadBuf := s'.mReadBuf
    mUrl := some (text + p.method.length + 1 + pathAt p.target)
    mVersion := some (text + p.method.length + 1 + p.target.length + 1)
    mMethod := .get
    mCheckState := .header }
  url : CStr s'.mReadBuf (text + p.method.length + 1 + pathAt p.target) (pathOf p.target)
  version : CStr s'.mReadBuf (text + p.method.length + 1 + p.target.length + 1) p.version
  bytes : ∀ j : Nat, s'.mReadBuf[j]? =
    if j = text + p.method.length ∨ j = text + p.method.length + 1 + p.target.length then some NUL
    else s.mReadBuf[j]?

/-! ### Stage by stage -/

section Stages

variable {s : HttpConn} {text url : Nat}

theorem cutAt_of_lt {buf : Vector UInt8 READ_BUFFER_SIZE} {p : Nat} (h : p < READ_BUFFER_SIZE) :
    cutAt buf (some p) = .ok (buf.set p NUL, p + 1) := by
  rw [cutAt, store_of_lt h, ok_bind]
  rfl

/-- The first blank ends the method. -/
theorem parseRequestLine_cut {method rest : List UInt8} {b : UInt8}
    (h : CStr s.mReadBuf text (method ++ b :: rest)) (hmethod : ∀ c ∈ method, c ∉ blanks)
    (hb : b ∈ blanks) (hlt : text + method.length < READ_BUFFER_SIZE) :
    parseRequestLine s text =
      if eqIgnoreCase method (ascii "GET") then
        parseVersion { s with
          mReadBuf := s.mReadBuf.set (text + method.length) NUL
          mUrl := some (text + method.length + 1)
          mMethod := .get } (text + method.length + 1)
      else .ok (.badRequest, { s with
        mReadBuf := s.mReadBuf.set (text + method.length) NUL
        mUrl := some (text + method.length + 1) }) := by
  rw [parseRequestLine, strpbrk_of_cstr h hmethod hb, ok_bind, cutAt_of_lt hlt, ok_bind]
  dsimp only
  rw [strcasecmp_of_cstr (h.cut hlt).1 (by decide), ok_bind]
  cases eqIgnoreCase method (ascii "GET") with
  | true => rfl
  | false => rfl

/-- The second blank ends the target. -/
theorem parseVersion_cut {target version : List UInt8} {b : UInt8}
    (h : CStr s.mReadBuf url (target ++ b :: version)) (htarget : ∀ c ∈ target, c ∉ blanks)
    (hb : b ∈ blanks) (hlt : url + target.length < READ_BUFFER_SIZE) :
    parseVersion s url =
      if eqIgnoreCase version (ascii "HTTP/1.1") then
        parseTarget { s with
          mReadBuf := s.mReadBuf.set (url + target.length) NUL
          mVersion := some (url + target.length + 1) } url
      else .ok (.badRequest, { s with
        mReadBuf := s.mReadBuf.set (url + target.length) NUL
        mVersion := some (url + target.length + 1) }) := by
  rw [parseVersion, strpbrk_of_cstr h htarget hb, ok_bind, if_neg (Option.some_ne_none _),
    cutAt_of_lt hlt, ok_bind]
  dsimp only
  rw [strcasecmp_of_cstr (h.cut hlt).2 (by decide), ok_bind]
  cases eqIgnoreCase version (ascii "HTTP/1.1") with
  | true => rfl
  | false => rfl

theorem parseVersion_none {rest : List UInt8} (h : CStr s.mReadBuf url rest)
    (hrest : ∀ c ∈ rest, c ∉ blanks) :
    parseVersion s url = .ok (.badRequest, { s with mVersion := none }) := by
  rw [parseVersion, strpbrk_none_of_cstr h hrest, ok_bind, if_pos rfl]
  rfl

theorem parseTarget_of_isTarget {target : List UInt8} (h : CStr s.mReadBuf url target)
    (htarget : IsTarget target) :
    parseTarget s url
      = .ok (.noRequest, { s with mUrl := some (url + pathAt target), mCheckState := .header }) := by
  obtain ⟨hskip, hpath, -⟩ := skipHost_of_isTarget h htarget
  rw [parseTarget, hskip, ok_bind]
  dsimp only
  rw [hpath, ok_bind]
  rfl

theorem parseTarget_of_not_isTarget {target : List UInt8} (h : CStr s.mReadBuf url target)
    (htarget : ¬ IsTarget target) :
    ∃ found, parseTarget s url = .ok (.badRequest, { s with mUrl := found }) := by
  obtain ⟨found, hskip, hpath⟩ := skipHost_of_not_isTarget h htarget
  refine ⟨found, ?_⟩
  rw [parseTarget, hskip, ok_bind]
  dsimp only
  rw [hpath, ok_bind]
  rfl

/-- Behind a method that is GET: the two remaining parts, in a buffer in which
    the first blank is a NUL. -/
theorem parseVersion_cases {rest : List UInt8} (h : CStr s.mReadBuf url rest) :
    (∃ s', parseVersion s url = .ok (.badRequest, s') ∧
        s' = { s with mReadBuf := s'.mReadBuf, mUrl := s'.mUrl, mVersion := s'.mVersion } ∧
        NulsOnly s.mReadBuf s'.mReadBuf ∧
        ∀ target b version, rest = target ++ b :: version → (∀ c ∈ target, c ∉ blanks) →
          b ∈ blanks → ¬ (IsTarget target ∧ eqIgnoreCase version (ascii "HTTP/1.1") = true)) ∨
      ∃ target b version, rest = target ++ b :: version ∧ (∀ c ∈ target, c ∉ blanks) ∧
        b ∈ blanks ∧ IsTarget target ∧ eqIgnoreCase version (ascii "HTTP/1.1") = true ∧
        ∃ hlt : url + target.length < READ_BUFFER_SIZE,
          parseVersion s url = .ok (.noRequest, { s with
            mReadBuf := s.mReadBuf.set (url + target.length) NUL
            mUrl := some (url + pathAt target)
            mVersion := some (url + target.length + 1)
            mCheckState := .header }) := by
  by_cases hblank : ∃ c ∈ rest, c ∈ blanks
  · obtain ⟨target, b, version, rfl, htarget, hb⟩ := exists_split hblank
    have hlt : url + target.length < READ_BUFFER_SIZE :=
      (Vector.getElem?_eq_some_iff.mp h.byte).1
    have hcut := parseVersion_cut h htarget hb hlt
    -- the parts of any decomposition are those found here
    have hparts {target' version' : List UInt8} {b' : UInt8}
        (hsplit : target ++ b :: version = target' ++ b' :: version')
        (htarget' : ∀ c ∈ target', c ∉ blanks) (hb' : b' ∈ blanks) :
        target = target' ∧ version = version' := by
      obtain ⟨ht, -, hv⟩ := split_unique hsplit htarget hb htarget' hb'
      exact ⟨ht, hv⟩
    cases hhttp : eqIgnoreCase version (ascii "HTTP/1.1") with
    | false =>
        rw [hhttp, if_neg Bool.false_ne_true] at hcut
        refine Or.inl ⟨_, hcut, rfl, nulsOnly_set _ hlt, ?_⟩
        rintro target' b' version' hsplit htarget' hb' ⟨-, hversion⟩
        rw [← (hparts hsplit htarget' hb').2, hhttp] at hversion
        cases hversion
    | true =>
        rw [hhttp, if_pos rfl] at hcut
        have hurl := (h.cut hlt).1
        by_cases hpath : IsTarget target
        · refine Or.inr ⟨target, b, version, rfl, htarget, hb, hpath, hhttp, hlt, ?_⟩
          rw [hcut]
          exact parseTarget_of_isTarget hurl hpath
        · obtain ⟨found, hparse⟩ := parseTarget_of_not_isTarget
            (s := { s with
              mReadBuf := s.mReadBuf.set (url + target.length) NUL
              mVersion := some (url + target.length + 1) }) hurl hpath
          refine Or.inl ⟨_, hcut.trans hparse, rfl, nulsOnly_set _ hlt, ?_⟩
          rintro target' b' version' hsplit htarget' hb' ⟨htarget'', -⟩
          rw [← (hparts hsplit htarget' hb').1] at htarget''
          exact hpath htarget''
  · have hno : ∀ c ∈ rest, c ∉ blanks := fun c hc hmem => hblank ⟨c, hc, hmem⟩
    refine Or.inl ⟨_, parseVersion_none h hno, rfl, NulsOnly.refl _, ?_⟩
    rintro target b version rfl - hb -
    exact hno b (by simp) hb

/-- The whole line, split at its first blank. -/
theorem parseRequestLine_get {method rest : List UInt8} {b : UInt8}
    (h : CStr s.mReadBuf text (method ++ b :: rest)) (hmethod : ∀ c ∈ method, c ∉ blanks)
    (hb : b ∈ blanks) :
    (∃ s', parseRequestLine s text = .ok (.badRequest, s') ∧ s.LineRejected s' ∧
        ¬ ∃ p : LineParts, p.bytes = method ++ b :: rest) ∨
      ∃ s' p, parseRequestLine s text = .ok (.noRequest, s') ∧
        p.bytes = method ++ b :: rest ∧ s.LineAccepted text p s' := by
  have hbyte := h.byte
  have hlt : text + method.length < READ_BUFFER_SIZE := (Vector.getElem?_eq_some_iff.mp hbyte).1
  have hne : b ≠ NUL := h.no_nul b (by simp)
  have hnuls := nulsOnly_set s.mReadBuf hlt
  have hset : (s.mReadBuf.set (text + method.length) NUL)[text + method.length]? = some NUL :=
    Vector.getElem?_set_self hlt
  have hcut := parseRequestLine_cut h hmethod hb hlt
  cases hget : eqIgnoreCase method (ascii "GET") with
  | false =>
      -- rejected with the first blank cut already
      rw [hget, if_neg Bool.false_ne_true] at hcut
      refine Or.inl ⟨_, hcut, ⟨rfl, hnuls, _, b, hbyte, hne, hset⟩, ?_⟩
      rintro ⟨p, hp⟩
      have hpget := p.method_get
      rw [(p.split hp hmethod hb).1, hget] at hpget
      cases hpget
  | true =>
      rw [hget, if_pos rfl] at hcut
      rcases parseVersion_cases (s := { s with
          mReadBuf := s.mReadBuf.set (text + method.length) NUL
          mUrl := some (text + method.length + 1)
          mMethod := .get }) (h.cut hlt).2 with
        ⟨s', hparse, hconn, hnuls', hno⟩ |
        ⟨target, b₂, version, rfl, htarget, hb₂, hpath, hhttp, hlt₂, hparse⟩
      · refine Or.inl ⟨s', hcut.trans hparse, ⟨?_, hnuls.trans hnuls', _, b, hbyte, hne,
          hnuls'.nul hset⟩, ?_⟩
        · rw [hconn]
        · rintro ⟨p, hp⟩
          exact hno p.target p.blank₂ p.version (p.split hp hmethod hb).2.symm p.target_text
            p.blank₂_mem ⟨p.target_path, p.version_http⟩
      · have hrest := (h.cut hlt).2.cut hlt₂
        refine Or.inr ⟨_, ⟨method, b, target, b₂, version, hget, hb, htarget, hpath, hb₂, hhttp⟩,
          hcut.trans hparse, rfl,
          ⟨rfl, (skipHost_of_isTarget hrest.1 hpath).2.2, hrest.2, fun j => ?_⟩⟩
        -- the two blanks, and no other byte
        show ((s.mReadBuf.set (text + method.length) NUL).set
            (text + method.length + 1 + target.length) NUL)[j]? =
          if j = text + method.length ∨ j = text + method.length + 1 + target.length then some NUL
          else s.mReadBuf[j]?
        rw [Vector.getElem?_set, Vector.getElem?_set]
        grind

end Stages

/-- **The request-line grammar.** -/
theorem request_line_grammar (s : HttpConn) (text : Nat) (line : List UInt8)
    (hline : CStr s.mReadBuf text line) (hblank : ∃ b ∈ line, b ∈ blanks) :
    ∃ code s', parseRequestLine s text = .ok (code, s') ∧
      (code = .noRequest ∨ code = .badRequest) ∧
      (code = .noRequest ↔ ∃ p : LineParts, p.bytes = line) ∧
      (code = .badRequest → s'.mCheckState = s.mCheckState) ∧
      ∀ p : LineParts, p.bytes = line → s.LineAccepted text p s' := by
  obtain ⟨method, b, rest, rfl, hmethod, hb⟩ := exists_split hblank
  rcases parseRequestLine_get hline hmethod hb with
    ⟨s', hparse, hrejected, hno⟩ | ⟨s', p, hparse, hp, haccepted⟩
  · refine ⟨.badRequest, s', hparse, Or.inr rfl, ?_, fun _ => ?_, fun p hp => absurd ⟨p, hp⟩ hno⟩
    · exact ⟨nofun, fun hp => absurd hp hno⟩
    · rw [hrejected.conn]
  · refine ⟨.noRequest, s', hparse, Or.inl rfl, ⟨fun _ => ⟨p, hp⟩, fun _ => rfl⟩, nofun, ?_⟩
    intro p' hp'
    obtain rfl : p = p' := LineParts.bytes_injective (hp.trans hp'.symm)
    exact haccepted

/-- A request line with an absolute target, as `parse_line` leaves it. -/
def absoluteLine : HttpConn :=
  { zeroSlot with mReadBuf := bufOf (ascii "get\tHTTP://a/b http/1.1\x00\x00") }

theorem request_line_grammar_absolute :
    ∃ s', parseRequestLine absoluteLine 0 = .ok (.noRequest, s') ∧
      s'.mUrl = some 12 ∧ s'.mVersion = some 15 ∧ s'.mCheckState = .header := by
  let p : LineParts :=
    { method := ascii "get", blank₁ := 9, target := ascii "HTTP://a/b", blank₂ := 32
      version := ascii "http/1.1", method_get := by decide, blank₁_mem := by decide
      target_text := by
        intro b hb hmem
        rcases mem_blanks.mp hmem with rfl | rfl
        · exact absurd hb (by decide)
        · exact absurd hb (by decide)
      target_path := Or.inr ⟨by decide, by decide⟩, blank₂_mem := by decide
      version_http := by decide }
  obtain ⟨code, s', hparse, -, hiff, -, haccepted⟩ :=
    request_line_grammar absoluteLine 0 p.bytes (by decide +kernel) ⟨9, by decide, by decide⟩
  obtain rfl := hiff.mpr ⟨p, rfl⟩
  have hconn := (haccepted p rfl).conn
  refine ⟨s', hparse, ?_, ?_, ?_⟩
  · rw [hconn]
    rfl
  · rw [hconn]
    rfl
  · rw [hconn]

end HttpConn

end WebServer
