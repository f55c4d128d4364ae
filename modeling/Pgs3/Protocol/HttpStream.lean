import Pgs3.Protocol.HttpRender

/-!
# A request head in a stream

The parser is fed with pieces of any length until it returns a head or an error.  What it
returns is a function of the stream (`verdict`), although the size is checked on what has
arrived: a stream without an empty line so far has no empty line within its first bytes later.
A head that was accepted can be written out again and is accepted again under the same limits,
since writing it out drops optional whitespace and nothing else.
-/

namespace Pgs3.Protocol

open Pgs3 Foundation

/-! ## 1. The first empty line -/

variable {needle hay : Bytes} {position : Nat}

theorem findSubslice_le (h : findSubslice needle hay = some position) :
    needle <+: hay.drop position ∧ position + needle.length ≤ hay.length := by
  induction hay generalizing position with
  | nil => cases h
  | cons byte rest ih =>
    rw [findSubslice] at h
    split at h
    · rename_i hprefix
      cases h
      have hstart := List.isPrefixOf_iff_prefix.mp hprefix
      refine ⟨hstart, ?_⟩
      rw [Nat.zero_add]
      exact hstart.length_le
    · obtain ⟨p, hp, rfl⟩ := Option.map_eq_some_iff.mp h
      obtain ⟨hstart, hle⟩ := ih hp
      refine ⟨hstart, ?_⟩
      rw [List.length_cons]
      omega

theorem findSubslice_split (h : findSubslice needle hay = some position) :
    hay = hay.take position ++ needle ++ hay.drop (position + needle.length) := by
  obtain ⟨rest, hrest⟩ := (findSubslice_le h).1
  have hdrop : hay.drop (position + needle.length) = rest := by
    rw [← List.drop_drop, ← hrest, List.drop_left]
  rw [hdrop, List.append_assoc, hrest, List.take_append_drop]

theorem findSubslice_append_some (h : findSubslice needle hay = some position) (more : Bytes) :
    findSubslice needle (hay ++ more) = some position := by
  induction hay generalizing position with
  | nil => cases h
  | cons byte rest ih =>
    rw [findSubslice] at h
    rw [List.cons_append, findSubslice]
    split at h
    · rename_i hprefix
      have hstart := (List.isPrefixOf_iff_prefix.mp hprefix).trans (List.prefix_append _ more)
      have hlater : needle.isPrefixOf (byte :: (rest ++ more)) = true :=
        List.isPrefixOf_iff_prefix.mpr hstart
      rw [if_pos hlater]
      exact h
    · rename_i hprefix
      obtain ⟨p, hp, rfl⟩ := Option.map_eq_some_iff.mp h
      -- the needle fits behind this byte, so more bytes do not bring it forward
      have hfits := (findSubslice_le hp).2
      have hnot : ¬ needle.isPrefixOf (byte :: (rest ++ more)) = true := by
        intro hlater
        apply hprefix
        rw [List.isPrefixOf_iff_prefix] at hlater ⊢
        exact List.prefix_of_prefix_length_le hlater (List.prefix_append (byte :: rest) more)
          (by rw [List.length_cons]; omega)
      rw [if_neg hnot, ih hp]
      rfl

/-- A needle that more bytes bring about ends in them. -/
theorem findSubslice_append_none {more : Bytes} (hneedle : needle ≠ [])
    (hnone : findSubslice needle hay = none)
    (h : findSubslice needle (hay ++ more) = some position) :
    hay.length < position + needle.length := by
  have hpos : 0 < needle.length := List.length_pos_of_ne_nil hneedle
  induction hay generalizing position with
  | nil =>
    rw [List.length_nil]
    omega
  | cons byte rest ih =>
    rw [findSubslice] at hnone
    rw [List.cons_append, findSubslice] at h
    split at hnone
    · cases hnone
    · rename_i hprefix
      have hrest : findSubslice needle rest = none := Option.map_eq_none_iff.mp hnone
      split at h
      · rename_i hlater
        cases h
        rw [Nat.zero_add]
        by_contra hlong
        apply hprefix
        rw [List.isPrefixOf_iff_prefix] at hlater ⊢
        exact List.prefix_of_prefix_length_le hlater (List.prefix_append (byte :: rest) more)
          (not_lt.mp hlong)
      · obtain ⟨p, hp, rfl⟩ := Option.map_eq_some_iff.mp h
        have hlt := ih hrest hp
        rw [List.length_cons]
        omega

/-! ## 2. Pieces make no difference -/

def verdict (limits : HeadLimits) (stream : Bytes) :
    Except HttpParseError (Option RequestHead) :=
  match findSubslice (crlf ++ crlf) stream with
  | none => if stream.length > limits.maxHeadBytes then .error .headTooLarge else .ok none
  | some endAt =>
      if endAt + 4 > limits.maxHeadBytes then .error .headTooLarge
      else (parseCompleteHead (stream.take endAt) limits).map some

/-- The pieces pushed until a head or an error is returned: the result, the parser, and the
    pieces that were not pushed. -/
def RequestHeadParser.collect : RequestHeadParser → List Bytes →
    Except HttpParseError (Option RequestHead) × RequestHeadParser × List Bytes
  | parser, [] => (.ok none, parser, [])
  | parser, piece :: pieces =>
      match parser.push piece with
      | (.ok none, parser) => parser.collect pieces
      | (result, parser) => (result, parser, pieces)

def RequestHeadParser.takeRemainder (parser : RequestHeadParser) : Bytes × RequestHeadParser :=
  (parser.remainder, { parser with remainder := [] })

theorem feed_eq_collect (parser : RequestHeadParser) (pieces : List Bytes) :
    parser.feed pieces = (parser.collect pieces).1 := by
  induction pieces generalizing parser with
  | nil => rfl
  | cons piece pieces ih =>
    rw [RequestHeadParser.feed, RequestHeadParser.collect]
    rcases parser.push piece with ⟨e | (_ | head), parser'⟩
    · rfl
    · exact ih parser'
    · rfl

/-- The parser waits: it has not failed and not found the end of the head. -/
structure RequestHeadParser.Waits (parser : RequestHeadParser) : Prop where
  completed : parser.completed = false
  remainder : parser.remainder = []
  no_end : findSubslice (crlf ++ crlf) parser.buffer = none
  length_le : parser.buffer.length ≤ parser.limits.maxHeadBytes

theorem waits_new (limits : HeadLimits) : (RequestHeadParser.new limits).Waits :=
  ⟨rfl, rfl, rfl, Nat.zero_le _⟩

/-- The parser after a piece that does not end the head. -/
def RequestHeadParser.extend (parser : RequestHeadParser) (piece : Bytes) : RequestHeadParser :=
  { parser with buffer := parser.buffer ++ piece }

section Pieces

variable {parser : RequestHeadParser} {piece : Bytes}

theorem RequestHeadParser.Waits.push_none (h : parser.Waits)
    (hnone : findSubslice (crlf ++ crlf) (parser.buffer ++ piece) = none) :
    (parser.push piece = (.error .headTooLarge, parser.extend piece) ∧
      parser.limits.maxHeadBytes < (parser.buffer ++ piece).length) ∨
    (parser.push piece = (.ok none, parser.extend piece) ∧ (parser.extend piece).Waits) := by
  have hopen : ¬ parser.completed = true := by rw [h.completed]; decide
  unfold RequestHeadParser.push
  rw [if_neg hopen]
  simp only [hnone]
  by_cases hlong : (parser.buffer ++ piece).length > parser.limits.maxHeadBytes
  · left
    exact ⟨if_pos hlong, hlong⟩
  · right
    exact ⟨if_neg hlong, h.completed, h.remainder, hnone, not_lt.mp hlong⟩

/-- A push that completes the head returns what is said of the stream so far. -/
theorem RequestHeadParser.Waits.push_some (h : parser.Waits) {endAt : Nat}
    (hend : findSubslice (crlf ++ crlf) (parser.buffer ++ piece) = some endAt) :
    (parser.push piece).1 = verdict parser.limits (parser.buffer ++ piece) ∧
    (parser.push piece).1 ≠ .ok none ∧ ∀ head, (parser.push piece).1 = .ok (some head) →
      parseCompleteHead ((parser.buffer ++ piece).take endAt) parser.limits = .ok head ∧
      endAt + 4 ≤ parser.limits.maxHeadBytes ∧
      (parser.push piece).2.remainder = (parser.buffer ++ piece).drop (endAt + 4) := by
  have hopen : ¬ parser.completed = true := by rw [h.completed]; decide
  unfold RequestHeadParser.push verdict
  rw [if_neg hopen]
  simp only [hend]
  by_cases hlong : endAt + 4 > parser.limits.maxHeadBytes
  · rw [if_pos hlong, if_pos hlong]
    exact ⟨rfl, (by intro hnone; cases hnone), by intro head hhead; cases hhead⟩
  · rw [if_neg hlong, if_neg hlong]
    cases parseCompleteHead ((parser.buffer ++ piece).take endAt) parser.limits with
    | error e => exact ⟨rfl, (by intro hnone; cases hnone), by intro head hhead; cases hhead⟩
    | ok request =>
      refine ⟨rfl, (by intro hnone; cases hnone), ?_⟩
      intro head hhead
      cases hhead
      refine ⟨rfl, not_lt.mp hlong, ?_⟩
      change parser.remainder ++ _ = _
      rw [h.remainder, List.nil_append]

/-- What is said of a stream with an end of the head does not depend on what follows. -/
theorem verdict_append {limits : HeadLimits} {stream : Bytes} {endAt : Nat}
    (hend : findSubslice (crlf ++ crlf) stream = some endAt) (more : Bytes) :
    verdict limits (stream ++ more) = verdict limits stream := by
  have hle : endAt + 4 ≤ stream.length := (findSubslice_le hend).2
  have htake : (stream ++ more).take endAt = stream.take endAt :=
    List.take_append_of_le_length (by omega)
  simp only [verdict, findSubslice_append_some hend more, hend, htake]

theorem verdict_tooLarge {limits : HeadLimits} {stream : Bytes}
    (hnone : findSubslice (crlf ++ crlf) stream = none)
    (hlong : limits.maxHeadBytes < stream.length) (more : Bytes) :
    verdict limits (stream ++ more) = .error .headTooLarge := by
  unfold verdict
  cases hend : findSubslice (crlf ++ crlf) (stream ++ more) with
  | none =>
    have hlonger : (stream ++ more).length > limits.maxHeadBytes := by
      rw [List.length_append]
      omega
    simp only [hlonger, if_true]
  | some endAt =>
    have hlate : stream.length < endAt + 4 :=
      findSubslice_append_none (by decide) hnone hend
    have hbeyond : endAt + 4 > limits.maxHeadBytes := by omega
    simp only [hbeyond, if_true]

/-- **All pieces.**  A waiting parser returns what is said of the stream, and keeps what stands
    behind the head. -/
theorem RequestHeadParser.Waits.collect {pieces : List Bytes} (h : parser.Waits) :
    (parser.collect pieces).1 = verdict parser.limits (parser.buffer ++ pieces.flatten) ∧
    ∀ head, (parser.collect pieces).1 = .ok (some head) → ∃ bytes,
      parseCompleteHead bytes parser.limits = .ok head ∧
      bytes.length + 4 ≤ parser.limits.maxHeadBytes ∧
      parser.buffer ++ pieces.flatten = bytes ++ (crlf ++ crlf)
        ++ (parser.collect pieces).2.1.takeRemainder.1 ++ (parser.collect pieces).2.2.flatten := by
  induction pieces generalizing parser with
  | nil =>
    have hlong : ¬ parser.buffer.length > parser.limits.maxHeadBytes := not_lt.mpr h.length_le
    constructor
    · simp only [RequestHeadParser.collect, List.flatten_nil, List.append_nil, verdict, h.no_end,
        hlong, if_false]
    · intro head hhead
      cases hhead
  | cons piece pieces ih =>
    rw [List.flatten_cons, ← List.append_assoc]
    cases hend : findSubslice (crlf ++ crlf) (parser.buffer ++ piece) with
    | none =>
      rcases h.push_none hend with ⟨hpush, hlong⟩ | ⟨hpush, hwaits⟩
      · simp only [RequestHeadParser.collect, hpush]
        refine ⟨(verdict_tooLarge hend hlong _).symm, ?_⟩
        intro head hhead
        cases hhead
      · simp only [RequestHeadParser.collect, hpush]
        exact ih hwaits
    | some endAt =>
      obtain ⟨hverdict, hsome, hhead⟩ := h.push_some hend
      have hcollect : parser.collect (piece :: pieces)
          = ((parser.push piece).1, (parser.push piece).2, pieces) := by
        rw [RequestHeadParser.collect]
        rcases hpush : parser.push piece with ⟨e | (_ | head), parser'⟩
        · rfl
        · rw [hpush] at hsome
          exact absurd rfl hsome
        · rfl
      rw [hcollect, verdict_append hend]
      refine ⟨hverdict, ?_⟩
      intro head hresult
      obtain ⟨hparsed, hroom, hremainder⟩ := hhead head hresult
      have hle := (findSubslice_le hend).2
      refine ⟨_, hparsed, ?_, ?_⟩
      · rw [List.length_take]
        omega
      · change _ = _ ++ (parser.push piece).2.remainder ++ _
        have hsplit : parser.buffer ++ piece = _ ++ _ ++ (parser.buffer ++ piece).drop (endAt + 4) :=
          findSubslice_split hend
        rw [hremainder, ← hsplit]

end Pieces

/-! ## 3. A head is no longer than the text it was read from -/

theorem stripCr_ok {line bare : Bytes} (h : stripCr line = .ok bare) : line = bare ++ [13] := by
  unfold stripCr at h
  split at h
  · rename_i hlast
    cases h
    exact (List.dropLast_append_getLast? 13 hlast).symm
  · cases h

theorem crLines_of_headLines {raw lines : List Bytes} (h : headLines raw = lines.map .ok) :
    raw = crLines lines := by
  induction raw generalizing lines with
  | nil =>
    cases lines with
    | nil => rfl
    | cons line lines => cases h
  | cons first rest ih =>
    cases lines with
    | nil => cases rest <;> cases h
    | cons line lines =>
      cases rest with
      | nil =>
        simp only [headLines, List.map_cons, List.cons.injEq] at h
        obtain ⟨hfirst, hnone⟩ := h
        split at hfirst
        · cases hfirst
        · cases hfirst
          rw [List.map_eq_nil_iff.mp hnone.symm]
          rfl
      | cons second rest =>
        simp only [headLines, List.map_cons, List.cons.injEq] at h
        obtain ⟨hfirst, hrest⟩ := h
        have htail := ih hrest
        cases lines with
        | nil => cases htail
        | cons next lines =>
          rw [stripCr_ok hfirst, htail]
          rfl

theorem parseFields_ok {limits : HeadLimits} {index : Nat}
    {lines : List (Except HttpParseError Bytes)} {fields : List Header}
    (h : parseFields limits index lines = .ok fields) : ∃ texts, lines = texts.map .ok ∧
      List.Forall₂ (fun text field => parseField limits text = .ok field) texts fields := by
  induction lines generalizing index fields with
  | nil =>
    cases h
    exact ⟨[], rfl, .nil⟩
  | cons line lines ih =>
    simp only [parseFields, bind_eq_ok, pure_eq_ok] at h
    obtain ⟨_, _, text, rfl, field, hfield, rest, hrest, rfl⟩ := h
    obtain ⟨texts, rfl, hall⟩ := ih hrest
    exact ⟨text :: texts, rfl, .cons hfield hall⟩

theorem parsed_of_mem {limits : HeadLimits} {texts : List Bytes} {fields : List Header}
    (h : List.Forall₂ (fun text field => parseField limits text = .ok field) texts fields)
    {field : Header} (hfield : field ∈ fields) : ∃ text, parseField limits text = .ok field := by
  induction h with
  | nil => cases hfield
  | @cons text first texts fields hparsed _ ih =>
    rcases List.mem_cons.mp hfield with rfl | hfield
    · exact ⟨text, hparsed⟩
    · exact ih hfield

theorem trimOws_length (value : Bytes) : (trimOws value).length ≤ value.length := by
  unfold trimOws
  rw [List.length_reverse]
  have hright := (List.dropWhile_suffix (p := isOws) (l := (value.dropWhile isOws).reverse)).length_le
  have hleft := (List.dropWhile_suffix (p := isOws) (l := value)).length_le
  rw [List.length_reverse] at hright
  omega

theorem parseField_length {limits : HeadLimits} {text : Bytes} {field : Header}
    (h : parseField limits text = .ok field) :
    field.line.length ≤ text.length ∧ text.length ≤ limits.maxHeaderLineBytes := by
  simp only [parseField, bind_eq_ok, pure_eq_ok, ensure_eq_ok, okOr_eq_ok] at h
  obtain ⟨_, hle, _, _, ⟨name, value⟩, hsplit, _, _, _, _, rfl⟩ := h
  refine ⟨?_, hle⟩
  have htrim := trimOws_length value
  rw [(splitOnce_eq hsplit).1]
  simp only [Header.line, List.length_append, List.length_cons, List.length_map]
  omega

theorem parseRequestLine_ok {line method target : Bytes}
    (h : parseRequestLine line = .ok (method, target)) :
    line = method ++ 32 :: (target ++ 32 :: ascii "HTTP/1.1") := by
  have hline : [32].intercalate (line.splitOn 32) = line := List.intercalate_splitOn 32
  unfold parseRequestLine at h
  split at h
  · rename_i hwords
    simp only [bind_eq_ok, pure_eq_ok, ensure_eq_ok] at h
    obtain ⟨_, ⟨rfl, _, _⟩, _, rfl, hparts⟩ := h
    cases hparts
    rw [← hline, hwords]
    simp [List.intercalate]
  · cases h

theorem parseTarget_ok {raw : Bytes} {target : RequestTarget} (h : parseTarget raw = .ok target) :
    target.text = raw := by
  simp only [parseTarget, bind_eq_ok, pure_eq_ok, ensure_eq_ok, okOr_eq_ok] at h
  obtain ⟨_, _, _, _, _, _, query, _, rfl⟩ := h
  cases hsplit : splitOnce 63 raw with
  | none => simp [splitTarget, hsplit, RequestTarget.text]
  | some parts =>
    obtain ⟨path, text⟩ := parts
    simp only [splitTarget, hsplit, RequestTarget.text, Option.elim_some]
    exact (splitOnce_eq hsplit).1.symm

theorem joinLines_length {texts lines : List Bytes}
    (h : List.Forall₂ (fun text line => line.length ≤ text.length) texts lines) :
    (joinLines lines).length ≤ (joinLines texts).length := by
  induction h with
  | nil => exact Nat.le_refl _
  | @cons text line texts lines hfirst hrest ih =>
    cases hrest with
    | nil => simpa [joinLines, crLines] using hfirst
    | @cons text' line' texts lines hsecond hrest =>
      rw [joinLines_cons_cons, joinLines_cons_cons]
      simp only [List.length_append, List.length_cons]
      omega

variable {head : RequestHead}

/-- **The limits under which a head was read** admit what it is written out to. -/
theorem admits_of_parsed {bytes : Bytes} {limits : HeadLimits}
    (h : parseCompleteHead bytes limits = .ok head)
    (hroom : bytes.length + 4 ≤ limits.maxHeadBytes) : limits.Admits head := by
  unfold parseCompleteHead at h
  split at h
  · cases h
  rename_i first lines hlines
  simp only [bind_eq_ok, pure_eq_ok, ensure_eq_ok] at h
  obtain ⟨line, rfl, _, hrequest, words, hwords, target, htarget, fields, hfields, _, hcount, _,
    _, framing, _, rfl⟩ := h
  obtain ⟨texts, rfl, hall⟩ := parseFields_ok hfields
  have hbytes : bytes = joinLines (line :: texts) := by
    have hraw := @crLines_of_headLines _ (line :: texts) hlines
    rw [joinLines, ← hraw]
    exact (List.intercalate_splitOn 10).symm
  have hline : RequestHead.requestLine ⟨words.1, target, ⟨fields⟩, framing.1, framing.2⟩ = line := by
    rw [parseRequestLine_ok hwords, ← parseTarget_ok htarget]
    rfl
  have hlengths : List.Forall₂ (fun text line => line.length ≤ text.length) texts
      (fields.map Header.line) := by
    rw [List.forall₂_map_right_iff]
    exact hall.imp fun _ _ hfield => (parseField_length hfield).1
  constructor
  · have hshort := joinLines_length (.cons (Nat.le_refl line.length) hlengths)
    rw [← hbytes] at hshort
    change (joinLines (RequestHead.requestLine _ :: fields.map Header.line)).length + 4 ≤ _
    rw [hline]
    omega
  · rw [hline]
    exact hrequest
  · intro field hfield
    exact (parsed_of_mem hall hfield).elim fun text hparsed =>
      (parseField_length hparsed).1.trans (parseField_length hparsed).2
  · exact hcount

/-! ## 4. Accepted heads -/

/-- The texts that the parser takes from the head. -/
def RequestHead.texts (head : RequestHead) : List Bytes :=
  head.method :: head.target.rawPath :: (head.target.rawQuery.toList
    ++ head.headers.fields.flatMap fun field => [field.name, field.value])

def Plain (text : Bytes) : Prop := ∀ b ∈ text, b ≠ 13 ∧ b ≠ 10 ∧ b ≠ 0

theorem plain_of_all {text : Bytes} {p : UInt8 → Bool} (h : ∀ b ∈ text, p b = true)
    (hp : ∀ n : Fin 256, decide (p (UInt8.ofFin n) = true →
      UInt8.ofFin n ≠ 13 ∧ UInt8.ofFin n ≠ 10 ∧ UInt8.ofFin n ≠ 0) = true) : Plain text := by
  intro b hb
  have hall := forall_byte (p := fun b => decide (p b = true → b ≠ 13 ∧ b ≠ 10 ∧ b ≠ 0)) hp b
  exact of_decide_eq_true hall (h b hb)

theorem RequestHead.WellFormed.plain (h : head.WellFormed) : ∀ text ∈ head.texts, Plain text := by
  intro text htext
  rcases List.mem_cons.mp htext with rfl | htext
  · exact plain_of_all h.method_token (by decide +kernel)
  rcases List.mem_cons.mp htext with rfl | htext
  · exact plain_of_all h.target.path_graphic (by decide +kernel)
  rcases List.mem_append.mp htext with htext | htext
  · rw [Option.mem_toList] at htext
    exact plain_of_all (h.target.query_graphic text htext).1 (by decide +kernel)
  · obtain ⟨field, hfield, htext⟩ := List.mem_flatMap.mp htext
    have hwell := h.fields field hfield
    rcases List.mem_cons.mp htext with rfl | htext
    · exact plain_of_all hwell.token (by decide +kernel)
    · rw [List.mem_singleton.mp htext]
      exact plain_of_all (List.all_eq_true.mp hwell.valid) (by decide +kernel)

theorem RequestHead.WellFormed.one_host (h : head.WellFormed) :
    (head.headers.getAll (ascii "host")).length = 1 := by
  have hhost := h.host
  simp only [validateHost, bind_eq_ok, ensure_eq_ok] at hhost
  obtain ⟨_, _, hone, _⟩ := hhost
  exact hone

theorem RequestHead.WellFormed.one_framing (h : head.WellFormed) :
    head.headers.getAll (ascii "content-length") = [] ∨
      head.headers.getAll (ascii "transfer-encoding") = [] := by
  have hframing := h.framing
  simp only [bodyFraming, bind_eq_ok, ensure_eq_ok] at hframing
  obtain ⟨contentLength, hlength, _, _, _, hone, _⟩ := hframing
  rcases hone with rfl | hnone
  · left
    cases hlengths : head.headers.getAll (ascii "content-length") with
    | nil => rfl
    | cons value values =>
      rw [hlengths] at hlength
      simp only [List.head?_cons, Option.mapM_some] at hlength
      cases hparsed : parseContentLength value with
      | error e =>
        rw [hparsed] at hlength
        cases hlength
      | ok n =>
        rw [hparsed] at hlength
        cases hlength
  · exact Or.inr hnone

/-- **Request heads are unambiguous.**  The same head or error is returned however the stream is
    cut.  Of an accepted head, its text, the remainder and the pieces that were not pushed are
    the stream; it has one host and one framing, and no line end or NUL in its texts; and it is
    read again from what it is written out to. -/
theorem request_head_unambiguous (limits : HeadLimits) :
    (∀ pieces pieces' : List Bytes, pieces.flatten = pieces'.flatten →
      ((RequestHeadParser.new limits).collect pieces).1
        = ((RequestHeadParser.new limits).collect pieces').1) ∧
    ∀ (pieces : List Bytes) (head : RequestHead),
      ((RequestHeadParser.new limits).collect pieces).1 = .ok (some head) →
      (∃ bytes, parseCompleteHead bytes limits = .ok head ∧ pieces.flatten = bytes ++ (crlf ++ crlf)
          ++ ((RequestHeadParser.new limits).collect pieces).2.1.takeRemainder.1
          ++ ((RequestHeadParser.new limits).collect pieces).2.2.flatten) ∧
      (head.headers.getAll (ascii "host")).length = 1 ∧
      (head.headers.getAll (ascii "content-length") = [] ∨
        head.headers.getAll (ascii "transfer-encoding") = []) ∧ (∀ text ∈ head.texts, Plain text) ∧
      ((RequestHeadParser.new limits).collect [head.render ++ (crlf ++ crlf)]).1
        = .ok (some head) := by
  constructor
  · intro pieces pieces' hsame
    rw [(waits_new limits).collect.1, (waits_new limits).collect.1, hsame]
  · intro pieces head hresult
    obtain ⟨bytes, hparsed, hroom, hstream⟩ := (waits_new limits).collect.2 head hresult
    have hwell := parseCompleteHead_wellFormed hparsed
    refine ⟨⟨bytes, hparsed, hstream⟩, hwell.one_host, hwell.one_framing, hwell.plain, ?_⟩
    have hrendered := feed_render hwell (admits_of_parsed hparsed hroom) []
    rw [List.append_nil] at hrendered
    rw [← feed_eq_collect]
    exact hrendered

def samplePieces : List Bytes :=
  [ascii "PUT /b/k HTTP/1.1\r\nHost:  h\r\nContent-Length: 2\r\n\r", ascii "\na", ascii "b"]

theorem request_head_unambiguous_sample :
    ∃ head, ((RequestHeadParser.new {}).collect samplePieces).1 = .ok (some head) ∧
      head.render = ascii "PUT /b/k HTTP/1.1\r\nhost:h\r\ncontent-length:2" ∧
      ((RequestHeadParser.new {}).collect samplePieces).2.1.takeRemainder.1 = ascii "a" ∧
      ((RequestHeadParser.new {}).collect [samplePieces.flatten]).1 = .ok (some head) ∧
      ((RequestHeadParser.new {}).collect [head.render ++ (crlf ++ crlf)]).1 = .ok (some head) := by
  obtain ⟨hcuts, hheads⟩ := request_head_unambiguous {}
  have hsome : (((RequestHeadParser.new {}).collect samplePieces).1.toOption.bind id).any
      (fun head => head.render = ascii "PUT /b/k HTTP/1.1\r\nhost:h\r\ncontent-length:2") = true := by
    decide +kernel
  cases hresult : ((RequestHeadParser.new {}).collect samplePieces).1 with
  | error e =>
    rw [hresult] at hsome
    cases hsome
  | ok found =>
    rw [hresult] at hsome
    cases found with
    | none => cases hsome
    | some head =>
      have hrender := of_decide_eq_true hsome
      refine ⟨head, rfl, hrender, by decide +kernel, ?_, (hheads _ head hresult).2.2.2.2⟩
      rw [← hresult]
      exact hcuts _ _ (by simp)

end Pgs3.Protocol
