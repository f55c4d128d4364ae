import Pgs3.Protocol.Http

/-!
# Rendering a request head

Every well-formed head is accepted: it is written out with one space between the words of
the request line and none around the field values, and the parser reads it back under limits
that have room for it.  So the well-formed heads are exactly the accepted ones.
-/

namespace Pgs3.Protocol

open Pgs3 Foundation

/-! ## 1. The text of a head -/

def RequestTarget.text (target : RequestTarget) : Bytes :=
  target.rawPath ++ target.rawQuery.elim [] (63 :: ·)

def Header.line (field : Header) : Bytes := field.name ++ 58 :: field.value

def RequestHead.requestLine (head : RequestHead) : Bytes :=
  head.method ++ 32 :: (head.target.text ++ 32 :: ascii "HTTP/1.1")

def crLines : List Bytes → List Bytes
  | [] => []
  | [line] => [line]
  | line :: rest => (line ++ [13]) :: crLines rest

def RequestHead.lines (head : RequestHead) : List Bytes :=
  head.requestLine :: head.headers.fields.map Header.line

def joinLines (lines : List Bytes) : Bytes := [10].intercalate (crLines lines)

/-- The head without the empty line that ends it. -/
def RequestHead.render (head : RequestHead) : Bytes := joinLines head.lines

/-! ## 2. Its lines -/

variable {lines : List Bytes}

theorem crLines_ne_nil (h : lines ≠ []) : crLines lines ≠ [] := by
  cases lines with
  | nil => exact absurd rfl h
  | cons line rest => cases rest <;> simp [crLines]

theorem mem_crLines {line : Bytes} (h : line ∈ crLines lines) :
    ∃ bare ∈ lines, line = bare ∨ line = bare ++ [13] := by
  induction lines with
  | nil => cases h
  | cons first rest ih =>
    cases rest with
    | nil =>
      rw [crLines, List.mem_singleton] at h
      exact ⟨first, by simp, .inl h⟩
    | cons second rest =>
      rcases List.mem_cons.mp h with rfl | h
      · exact ⟨first, by simp, .inr rfl⟩
      · rcases ih h with ⟨bare, hbare, heq⟩
        exact ⟨bare, List.mem_cons_of_mem _ hbare, heq⟩

theorem headLines_crLines (h : ∀ line ∈ lines, 13 ∉ line) :
    headLines (crLines lines) = lines.map .ok := by
  induction lines with
  | nil => rfl
  | cons first rest ih =>
    cases rest with
    | nil => simp [crLines, headLines, h first (by simp)]
    | cons second rest =>
      have hrest := ih fun line hline => h line (List.mem_cons_of_mem _ hline)
      have hne : crLines (second :: rest) ≠ [] := crLines_ne_nil (by simp)
      rcases List.exists_cons_of_ne_nil hne with ⟨next, more, hmore⟩
      rw [hmore] at hrest
      have hstrip : stripCr (first ++ [13]) = .ok first := by simp [stripCr]
      simp only [crLines, hmore, headLines, hstrip, hrest, List.map_cons]

theorem headLines_joinLines (hne : lines ≠ []) (h : ∀ line ∈ lines, 10 ∉ line ∧ 13 ∉ line) :
    headLines ((joinLines lines).splitOn 10) = lines.map .ok := by
  have hlines : (joinLines lines).splitOn 10 = crLines lines := by
    apply List.splitOn_intercalate
    · intro line hline
      rcases mem_crLines hline with ⟨bare, hbare, rfl | rfl⟩
      · exact (h _ hbare).1
      · simpa using (h bare hbare).1
    · exact crLines_ne_nil hne
  rw [hlines, headLines_crLines fun line hline => (h line hline).2]

theorem isTchar_ne (b : UInt8) :
    (!isTchar b || b ≠ 10 && b ≠ 13 && b ≠ 32 && b ≠ 58 && b ≠ 9) = true := by
  revert b
  exact forall_byte (by decide +kernel)

theorem isAsciiGraphic_ne (b : UInt8) :
    (!isAsciiGraphic b || b ≠ 10 && b ≠ 13 && b ≠ 32 && b ≤ 0x7F) = true := by
  revert b
  exact forall_byte (by decide +kernel)

theorem not_mem_token {name : Bytes} (h : ∀ b ∈ name, isTchar b = true) :
    10 ∉ name ∧ 13 ∉ name ∧ 32 ∉ name ∧ 58 ∉ name ∧ 9 ∉ name := by
  have hne : ∀ b ∈ name, b ≠ 10 ∧ b ≠ 13 ∧ b ≠ 32 ∧ b ≠ 58 ∧ b ≠ 9 := by
    intro b hb
    have hb' := isTchar_ne b
    rw [h b hb] at hb'
    simpa [and_assoc] using hb'
  exact ⟨fun hb => (hne _ hb).1 rfl, fun hb => (hne _ hb).2.1 rfl,
    fun hb => (hne _ hb).2.2.1 rfl, fun hb => (hne _ hb).2.2.2.1 rfl,
    fun hb => (hne _ hb).2.2.2.2 rfl⟩

theorem not_mem_graphic {text : Bytes} (h : ∀ b ∈ text, isAsciiGraphic b = true) :
    10 ∉ text ∧ 13 ∉ text ∧ 32 ∉ text ∧ ∀ b ∈ text, b ≤ 0x7F := by
  have hne : ∀ b ∈ text, b ≠ 10 ∧ b ≠ 13 ∧ b ≠ 32 ∧ b ≤ 0x7F := by
    intro b hb
    have hb' := isAsciiGraphic_ne b
    rw [h b hb] at hb'
    simpa [and_assoc] using hb'
  exact ⟨fun hb => (hne _ hb).1 rfl, fun hb => (hne _ hb).2.1 rfl,
    fun hb => (hne _ hb).2.2.1 rfl, fun b hb => (hne b hb).2.2.2⟩

theorem not_mem_fieldValue {value : Bytes} (h : validFieldValue value = true) :
    10 ∉ value ∧ 13 ∉ value := by
  have hvalid := List.all_eq_true.mp h
  constructor
  · exact fun hb => absurd (hvalid _ hb) (by decide)
  · exact fun hb => absurd (hvalid _ hb) (by decide)

/-! ## 3. Reading it back -/

theorem RequestTarget.WellFormed.text_graphic {target : RequestTarget} (h : target.WellFormed) :
    ∀ b ∈ target.text, isAsciiGraphic b = true := by
  intro b hb
  rcases List.mem_append.mp hb with hb | hb
  · exact h.path_graphic b hb
  · cases hq : target.rawQuery with
    | none => simp [hq] at hb
    | some query =>
      simp only [hq, Option.elim_some, List.mem_cons] at hb
      rcases hb with rfl | hb
      · decide
      · exact (h.query_graphic query hq).1 b hb

theorem parseTarget_text {target : RequestTarget} (h : target.WellFormed) :
    parseTarget target.text = .ok target := by
  have hgraphic := h.text_graphic
  have hsplit : splitTarget target.text = (target.rawPath, target.rawQuery) := by
    cases hq : target.rawQuery with
    | none =>
      simp only [splitTarget, RequestTarget.text, hq, Option.elim_none, List.append_nil,
        splitOnce_eq_none_iff.mpr h.no_query]
    | some query =>
      simp only [splitTarget, RequestTarget.text, hq, Option.elim_some,
        splitOnce_append h.no_query]
  have hslash : target.text.head? = some 47 := by
    rw [RequestTarget.text, List.head?_append, h.slash, Option.some_or]
  have hfragment : 35 ∉ target.text := by
    cases hq : target.rawQuery with
    | none => simpa [RequestTarget.text, hq] using h.no_fragment
    | some query =>
      simpa [RequestTarget.text, hq] using ⟨h.no_fragment, (h.query_graphic query hq).2⟩
  rcases Option.isSome_iff_exists.mp h.decodes with ⟨decoded, hdecoded⟩
  simp only [parseTarget, bind_eq_ok, pure_eq_ok, ensure_eq_ok, okOr_eq_ok, hsplit]
  exact ⟨(), ⟨hslash, List.all_eq_true.mpr hgraphic, hfragment⟩, (),
    validUtf8_of_ascii (not_mem_graphic hgraphic).2.2.2, decoded, hdecoded, target.query,
    h.parsed, rfl⟩

variable {head : RequestHead}

theorem parseRequestLine_requestLine (h : head.WellFormed) :
    parseRequestLine head.requestLine = .ok (head.method, head.target.text) := by
  have hmethod := (not_mem_token h.method_token).2.2.1
  have htarget := (not_mem_graphic h.target.text_graphic).2.2.1
  have hwords : head.requestLine.splitOn 32
      = [head.method, head.target.text, ascii "HTTP/1.1"] := by
    rw [RequestHead.requestLine, List.splitOn_append_cons_self_of_not_mem hmethod,
      List.splitOn_append_cons_self_of_not_mem htarget,
      List.splitOn_eq_singleton (by decide)]
  simp only [parseRequestLine, hwords, bind_eq_ok, pure_eq_ok, ensure_eq_ok]
  exact ⟨(), ⟨trivial, h.method_ne, List.all_eq_true.mpr h.method_token⟩, (), trivial, trivial⟩

variable {limits : HeadLimits}

theorem parseField_line {field : Header} (h : field.WellFormed)
    (hlen : field.line.length ≤ limits.maxHeaderLineBytes) :
    parseField limits field.line = .ok field := by
  have hfree := not_mem_token h.token
  have hhead : ∀ b, field.line.head? = some b → b ∈ field.name := by
    intro b hb
    rw [Header.line, List.head?_append_of_ne_nil _ h.name_ne] at hb
    exact List.mem_of_mem_head? hb
  simp only [parseField, bind_eq_ok, pure_eq_ok, ensure_eq_ok, okOr_eq_ok]
  refine ⟨(), hlen, (), ⟨by simp [Header.line], ?_, ?_⟩, (field.name, field.value),
    splitOnce_append hfree.2.2.2.1, (), ⟨h.name_ne, List.all_eq_true.mpr h.token⟩, ?_⟩
  · exact fun hb => hfree.2.2.1 (hhead _ hb)
  · exact fun hb => hfree.2.2.2.2 (hhead _ hb)
  · rw [trimOws_of_trimmed h.trimmed, h.lowercase]
    exact ⟨(), h.valid, rfl⟩

theorem parseFields_lines {fields : List Header} {index : Nat}
    (h : ∀ field ∈ fields, field.WellFormed)
    (hlen : ∀ field ∈ fields, field.line.length ≤ limits.maxHeaderLineBytes)
    (hcount : index + fields.length ≤ limits.maxHeaders) :
    parseFields limits index ((fields.map Header.line).map .ok) = .ok fields := by
  induction fields generalizing index with
  | nil => rfl
  | cons field fields ih =>
    rw [List.length_cons] at hcount
    have hrest := @ih (index + 1) (fun f hf => h f (List.mem_cons_of_mem _ hf))
      (fun f hf => hlen f (List.mem_cons_of_mem _ hf)) (by omega)
    have hfield := parseField_line (h field List.mem_cons_self) (hlen field List.mem_cons_self)
    simp only [List.map_cons, parseFields, bind_eq_ok, pure_eq_ok, ensure_eq_ok, Except.ok.injEq]
    exact ⟨(), by omega, field.line, rfl, field, hfield, fields, hrest, rfl⟩

theorem RequestHead.WellFormed.lines_free (h : head.WellFormed) :
    ∀ line ∈ head.lines, 10 ∉ line ∧ 13 ∉ line := by
  intro line hline
  rcases List.mem_cons.mp hline with rfl | hline
  · have hmethod := not_mem_token h.method_token
    have htarget := not_mem_graphic h.target.text_graphic
    have hversion : 10 ∉ ascii "HTTP/1.1" ∧ 13 ∉ ascii "HTTP/1.1" := by decide
    simp [RequestHead.requestLine, hmethod, htarget, hversion]
  · rcases List.mem_map.mp hline with ⟨field, hfield, rfl⟩
    have hname := not_mem_token (h.fields field hfield).token
    have hvalue := not_mem_fieldValue (h.fields field hfield).valid
    simp [Header.line, hname, hvalue]

/-- Limits that a head stays within. -/
structure HeadLimits.Admits (limits : HeadLimits) (head : RequestHead) : Prop where
  head_bytes : head.render.length + 4 ≤ limits.maxHeadBytes
  request_line : head.requestLine.length ≤ limits.maxRequestLineBytes
  field_line : ∀ field ∈ head.headers.fields, field.line.length ≤ limits.maxHeaderLineBytes
  fields : head.headers.fields.length ≤ limits.maxHeaders

/-- **A rendered head is parsed back.** -/
theorem parseCompleteHead_render (h : head.WellFormed) (hlimits : limits.Admits head) :
    parseCompleteHead head.render limits = .ok head := by
  have hraw : headLines (head.render.splitOn 10)
      = .ok head.requestLine :: (head.headers.fields.map Header.line).map .ok :=
    headLines_joinLines (List.cons_ne_nil _ _) h.lines_free
  have hfields := @parseFields_lines limits head.headers.fields 0 h.fields hlimits.field_line
    (by simpa using hlimits.fields)
  simp only [parseCompleteHead, hraw, bind_eq_ok, pure_eq_ok, ensure_eq_ok, Except.ok.injEq]
  exact ⟨head.requestLine, rfl, (), hlimits.request_line, _, parseRequestLine_requestLine h,
    head.target, parseTarget_text h.target, _, hfields, (), hlimits.fields, (), h.host, _,
    h.framing, rfl⟩

/-! ## 4. The end of the head -/

theorem findSubslice_append {line : Bytes} (h : 13 ∉ line) (rest : Bytes) :
    findSubslice (crlf ++ crlf) (line ++ rest)
      = (findSubslice (crlf ++ crlf) rest).map (· + line.length) := by
  induction line with
  | nil => simp
  | cons b line ih =>
    simp only [List.mem_cons, not_or] at h
    rw [List.cons_append, findSubslice, if_neg (by simp [crlf, h.1]), ih h.2, Option.map_map]
    apply congrArg (Option.map · _)
    funext n
    simp only [Function.comp_apply, List.length_cons]
    omega

theorem findSubslice_crlf {b : UInt8} (h : 13 ≠ b) (rest : Bytes) :
    findSubslice (crlf ++ crlf) (13 :: 10 :: b :: rest)
      = (findSubslice (crlf ++ crlf) (b :: rest)).map (· + 2) := by
  rw [findSubslice, if_neg (by simp [crlf, h]), findSubslice, if_neg (by simp [crlf]),
    Option.map_map]
  rfl

theorem joinLines_cons_cons (first second : Bytes) (more : List Bytes) :
    joinLines (first :: second :: more) = first ++ 13 :: 10 :: joinLines (second :: more) := by
  have hne : crLines (second :: more) ≠ [] := crLines_ne_nil (by simp)
  rw [joinLines, crLines, List.intercalate_cons_of_ne_nil hne]
  · simp [joinLines]
  · simp

theorem joinLines_cons (b : UInt8) (text : Bytes) (more : List Bytes) :
    ∃ tail, joinLines ((b :: text) :: more) = b :: tail := by
  cases more with
  | nil => exact ⟨text, by simp [joinLines, crLines]⟩
  | cons next more => exact ⟨_, joinLines_cons_cons (b :: text) next more⟩

/-- The empty line after the last of the lines is the first one. -/
theorem findSubslice_joinLines (hne : lines ≠ []) (h : ∀ line ∈ lines, line ≠ [] ∧ 13 ∉ line)
    (rest : Bytes) : findSubslice (crlf ++ crlf) (joinLines lines ++ (crlf ++ crlf ++ rest))
      = some (joinLines lines).length := by
  induction lines with
  | nil => exact absurd rfl hne
  | cons first more ih =>
    have hfirst := h first List.mem_cons_self
    cases more with
    | nil =>
      rw [joinLines, crLines, List.intercalate_singleton, findSubslice_append hfirst.2]
      simp [findSubslice, crlf]
    | cons second more =>
      have hsecond := h second (by simp)
      have htail := ih (by simp) fun line hline => h line (List.mem_cons_of_mem _ hline)
      -- The next line starts with a byte that is not a carriage return.
      rcases List.exists_cons_of_ne_nil hsecond.1 with ⟨b, text, rfl⟩
      have hb : 13 ≠ b := fun hb => hsecond.2 (hb ▸ List.mem_cons_self)
      rcases joinLines_cons b text more with ⟨tail, hstart⟩
      rw [hstart, List.cons_append] at htail
      rw [joinLines_cons_cons, hstart, List.append_assoc, findSubslice_append hfirst.2,
        List.cons_append, List.cons_append, List.cons_append, findSubslice_crlf hb, htail]
      simp only [Option.map_some, List.length_append, List.length_cons, Option.some.injEq]
      omega

theorem RequestHead.lines_ne_nil (head : RequestHead) : ∀ line ∈ head.lines, line ≠ [] := by
  intro line hline
  rcases List.mem_cons.mp hline with rfl | hline
  · simp [RequestHead.requestLine]
  · rcases List.mem_map.mp hline with ⟨field, _, rfl⟩
    simp [Header.line]

/-- **A head that a fresh parser is given whole is returned.** -/
theorem feed_render (h : head.WellFormed) (hlimits : limits.Admits head) (rest : Bytes) :
    (RequestHeadParser.new limits).feed [head.render ++ (crlf ++ crlf ++ rest)]
      = .ok (some head) := by
  have hsome : head.lines ≠ [] := by simp [RequestHead.lines]
  have hend := findSubslice_joinLines hsome
    (fun line hline => ⟨head.lines_ne_nil line hline, (h.lines_free line hline).2⟩) rest
  have htake : (head.render ++ (crlf ++ crlf ++ rest)).take head.render.length
      = head.render := List.take_left
  have hroom : ¬ head.render.length + 4 > limits.maxHeadBytes := by
    have := hlimits.head_bytes
    omega
  have hparse := parseCompleteHead_render h hlimits
  simp only [RequestHeadParser.feed, RequestHeadParser.push, RequestHeadParser.new,
    List.nil_append, Bool.false_eq_true, if_false]
  rw [show findSubslice (crlf ++ crlf) (head.render ++ (crlf ++ crlf ++ rest))
    = some head.render.length from hend]
  simp only [if_neg hroom, htake, hparse]

theorem HeadLimits.exists_admits (head : RequestHead) : ∃ limits : HeadLimits,
    limits.Admits head := by
  have hfield : ∀ field ∈ head.headers.fields,
      field.line.length ≤ (head.headers.fields.map Header.line).flatten.length := by
    intro field hfield
    exact (List.sublist_flatten_of_mem (List.mem_map_of_mem hfield)).length_le
  exact ⟨⟨_, _, _, _⟩, le_refl _, le_refl _, hfield, le_refl _⟩

/-- **The accepted heads are the well-formed ones.** -/
theorem RequestHead.accepted_iff : head.Accepted ↔ head.WellFormed := by
  constructor
  · exact RequestHead.Accepted.wellFormed
  · intro h
    rcases HeadLimits.exists_admits head with ⟨limits, hlimits⟩
    exact ⟨limits, _, feed_render h hlimits []⟩

end Pgs3.Protocol
