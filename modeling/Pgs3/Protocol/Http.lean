import Pgs3.Foundation.Utf8
import Pgs3.Protocol.PercentCoding

/-!
# The HTTP request head

Translation of `protocol/http.rs`: the incremental parser that collects one request head,
the header and query maps, and the path-style target.  `usize` and `u64` are natural
numbers; a Rust `String` is its bytes, so `String::from_utf8` is the check that they are
UTF-8.
-/

namespace Pgs3.Protocol

open Pgs3 Foundation

/-! ## 1. Types -/

/-- Limits applied before an HTTP request is handed to authentication code. -/
structure HeadLimits where
  maxHeadBytes : Nat := 64 * 1024
  maxRequestLineBytes : Nat := 8 * 1024
  maxHeaderLineBytes : Nat := 16 * 1024
  maxHeaders : Nat := 100
deriving DecidableEq, Repr

inductive HttpParseError where
  | headTooLarge
  | requestLineTooLarge
  | headerLineTooLarge
  | tooManyHeaders
  | invalidRequestLine
  | unsupportedHttpVersion
  | invalidRequestTarget
  | invalidHeaderName
  | invalidHeaderValue
  | duplicateHost
  | missingHost
  | invalidContentLength
  | ambiguousBodyFraming
  | unsupportedTransferEncoding
  | parserAlreadyCompleted
  | invalidPercentEncoding
  | invalidUtf8Path
  | invalidBucket
  | nulInPath
deriving DecidableEq, Repr

/-- `Display for HttpParseError`. -/
def HttpParseError.text : HttpParseError → String
  | headTooLarge => "HTTP request head exceeds its size limit"
  | requestLineTooLarge => "HTTP request line exceeds its size limit"
  | headerLineTooLarge => "HTTP header line exceeds its size limit"
  | tooManyHeaders => "HTTP request has too many headers"
  | invalidRequestLine => "invalid HTTP request line"
  | unsupportedHttpVersion => "only HTTP/1.1 is supported"
  | invalidRequestTarget => "invalid origin-form HTTP request target"
  | invalidHeaderName => "invalid HTTP header name"
  | invalidHeaderValue => "invalid HTTP header value"
  | duplicateHost => "multiple Host headers are not accepted"
  | missingHost => "HTTP/1.1 request is missing Host"
  | invalidContentLength => "invalid or duplicate Content-Length"
  | ambiguousBodyFraming => "both Transfer-Encoding and Content-Length were supplied"
  | unsupportedTransferEncoding => "unsupported Transfer-Encoding"
  | parserAlreadyCompleted => "HTTP request-head parser was already completed"
  | invalidPercentEncoding => "invalid percent escape in request target"
  | invalidUtf8Path => "path-style bucket or key is not valid UTF-8"
  | invalidBucket => "invalid path-style bucket component"
  | nulInPath => "NUL is not representable in a PostgreSQL text key"

structure Header where
  /-- Always lowercase ASCII. -/
  name : Bytes
  /-- Original field value with leading/trailing optional whitespace removed. -/
  value : Bytes
deriving DecidableEq, Repr

structure HeaderMap where
  fields : List Header
deriving DecidableEq, Repr

def eqIgnoreAsciiCase (a b : Bytes) : Bool :=
  a.map toAsciiLowercase = b.map toAsciiLowercase

def HeaderMap.get (headers : HeaderMap) (name : Bytes) : Option Bytes :=
  (headers.fields.find? fun field => eqIgnoreAsciiCase field.name name).map (·.value)

def HeaderMap.getAll (headers : HeaderMap) (name : Bytes) : List Bytes :=
  (headers.fields.filter fun field => eqIgnoreAsciiCase field.name name).map (·.value)

structure QueryParam where
  rawName : Bytes
  rawValue : Bytes
  name : Bytes
  value : Bytes
deriving DecidableEq, Repr

structure QueryParams where
  pairs : List QueryParam
deriving DecidableEq, Repr

def QueryParams.getAll (query : QueryParams) (name : Bytes) : List Bytes :=
  (query.pairs.filter fun pair => pair.name = name).map (·.value)

structure RequestTarget where
  rawPath : Bytes
  rawQuery : Option Bytes
  query : QueryParams
deriving DecidableEq, Repr

structure RequestHead where
  method : Bytes
  target : RequestTarget
  headers : HeaderMap
  contentLength : Option Nat
  transferChunked : Bool
deriving DecidableEq, Repr

structure PathStyleTarget where
  bucket : Option Bytes
  key : Option Bytes
deriving DecidableEq, Repr

/-! ## 2. Queries and paths -/

/-- `component.split_once('=').unwrap_or((component, ""))`. -/
def splitComponent (component : Bytes) : Bytes × Bytes :=
  (splitOnce 61 component).getD (component, [])

/-- One round of the loop of `QueryParams::parse`. -/
def parseComponent (component : Bytes) : Except HttpParseError QueryParam := do
  let raw := splitComponent component
  let name ← okOr .invalidPercentEncoding (percentDecode raw.1)
  let value ← okOr .invalidPercentEncoding (percentDecode raw.2)
  return { rawName := raw.1, rawValue := raw.2, name := name, value := value }

def QueryParams.parse (raw : Bytes) : Except HttpParseError QueryParams :=
  if raw = [] then return ⟨[]⟩ else return ⟨← (raw.splitOn 38).mapM parseComponent⟩

def isAsciiControl (byte : UInt8) : Bool := byte ≤ 31 || byte = 127

def decodeBucket (raw : Bytes) : Except HttpParseError Bytes := do
  let bytes ← okOr .invalidPercentEncoding (percentDecode raw)
  ensure (bytes ≠ [] ∧ 47 ∉ bytes ∧ ¬ bytes.any isAsciiControl) .invalidBucket
  ensure (0 ∉ bytes) .nulInPath
  ensure (validUtf8 bytes) .invalidUtf8Path
  return bytes

def decodeKey (raw : Bytes) : Except HttpParseError Bytes := do
  let bytes ← okOr .invalidPercentEncoding (percentDecode raw)
  ensure (0 ∉ bytes) .nulInPath
  ensure (validUtf8 bytes) .invalidUtf8Path
  return bytes

/-- Decodes an origin-form path into the path-style S3 bucket and key. -/
def parsePathStyle (rawPath : Bytes) : Except HttpParseError PathStyleTarget := do
  ensure (rawPath.head? = some 47 ∧ 63 ∉ rawPath ∧ 35 ∉ rawPath) .invalidRequestTarget
  if rawPath = [47] then return ⟨none, none⟩
  match splitOnce 47 (rawPath.drop 1) with
  | some (bucketRaw, keyRaw) =>
      let bucket ← decodeBucket bucketRaw
      let key ← decodeKey keyRaw
      return ⟨some bucket, some key⟩
  | none =>
      let bucket ← decodeBucket (rawPath.drop 1)
      return ⟨some bucket, none⟩

/-! ## 3. One complete head -/

def isTchar (byte : UInt8) : Bool :=
  isAsciiAlphanumeric byte || byte ∈ ascii "!#$%&'*+-.^_`|~"

def validFieldValue (value : Bytes) : Bool :=
  value.all fun byte => byte = 9 || (32 ≤ byte && byte ≠ 127)

def stripCr (line : Bytes) : Except HttpParseError Bytes :=
  if line.getLast? = some 13 then .ok line.dropLast else .error .invalidHeaderValue

/-- The lines of the head.  All but the last one have to end in a carriage return. -/
def headLines : List Bytes → List (Except HttpParseError Bytes)
  | [] => []
  | [line] => [if 13 ∈ line then .error .invalidHeaderValue else .ok line]
  | line :: rest => stripCr line :: headLines rest

/-- The method and the target of the request line. -/
def parseRequestLine (line : Bytes) : Except HttpParseError (Bytes × Bytes) :=
  match line.splitOn 32 with
  | method :: target :: version :: more => do
      ensure (more = [] ∧ method ≠ [] ∧ method.all isTchar) .invalidRequestLine
      ensure (version = ascii "HTTP/1.1") .unsupportedHttpVersion
      return (method, target)
  | _ => .error .invalidRequestLine

/-- The path and the query of a target, at its first question mark. -/
def splitTarget (target : Bytes) : Bytes × Option Bytes :=
  match splitOnce 63 target with
  | some (path, query) => (path, some query)
  | none => (target, none)

def parseTarget (target : Bytes) : Except HttpParseError RequestTarget := do
  ensure (target.head? = some 47 ∧ target.all isAsciiGraphic ∧ 35 ∉ target) .invalidRequestTarget
  ensure (validUtf8 target) .invalidRequestTarget
  let raw := splitTarget target
  -- All escapes are validated before authentication; the raw spelling stays available for
  -- SigV4 canonicalization.
  let _ ← okOr .invalidPercentEncoding (percentDecode raw.1)
  let query ← QueryParams.parse (raw.2.getD [])
  return { rawPath := raw.1, rawQuery := raw.2, query := query }

def parseField (limits : HeadLimits) (line : Bytes) : Except HttpParseError Header := do
  ensure (line.length ≤ limits.maxHeaderLineBytes) .headerLineTooLarge
  ensure (line ≠ [] ∧ line.head? ≠ some 32 ∧ line.head? ≠ some 9) .invalidHeaderValue
  let parts ← okOr .invalidHeaderName (splitOnce 58 line)
  ensure (parts.1 ≠ [] ∧ parts.1.all isTchar) .invalidHeaderName
  ensure (validFieldValue (trimOws parts.2)) .invalidHeaderValue
  return { name := parts.1.map toAsciiLowercase, value := trimOws parts.2 }

/-- The loop over the header lines. -/
def parseFields (limits : HeadLimits) :
    Nat → List (Except HttpParseError Bytes) → Except HttpParseError (List Header)
  | _, [] => .ok []
  | index, rawLine :: rest => do
      ensure (index < limits.maxHeaders) .tooManyHeaders
      let line ← rawLine
      let field ← parseField limits line
      return field :: (← parseFields limits (index + 1) rest)

def validateHost (headers : HeaderMap) : Except HttpParseError Unit := do
  let hosts := headers.getAll (ascii "host")
  ensure (hosts ≠ []) .missingHost
  ensure (hosts.length = 1 ∧ headers.get (ascii "host") ≠ some []) .duplicateHost

def parseContentLength (value : Bytes) : Except HttpParseError Nat :=
  if value = [] ∨ ¬ value.all isAsciiDigit then .error .invalidContentLength
  else value.foldlM (fun result digit => do
    let next := result * 10 + (digit.toNat - 48)
    ensure (next < 2 ^ 64) .invalidContentLength
    return next) 0

/-- How the body that follows the head is framed. -/
def bodyFraming (headers : HeaderMap) : Except HttpParseError (Option Nat × Bool) := do
  let lengths := headers.getAll (ascii "content-length")
  let contentLength ← lengths.head?.mapM parseContentLength
  ensure (lengths.length ≤ 1) .invalidContentLength
  let transferValues := headers.getAll (ascii "transfer-encoding")
  ensure (contentLength = none ∨ transferValues = []) .ambiguousBodyFraming
  if transferValues = [] then return (contentLength, false)
  let combined := (transferValues.flatMap (·.splitOn 44)).map trimOws
  ensure (combined.length = 1 ∧ combined.all (eqIgnoreAsciiCase · (ascii "chunked")))
    .unsupportedTransferEncoding
  return (contentLength, true)

def parseCompleteHead (bytes : Bytes) (limits : HeadLimits) :
    Except HttpParseError RequestHead :=
  match headLines (bytes.splitOn 10) with
  | [] => .error .invalidRequestLine
  | first :: lines => do
      let requestLine ← first
      ensure (requestLine.length ≤ limits.maxRequestLineBytes) .requestLineTooLarge
      let words ← parseRequestLine requestLine
      let target ← parseTarget words.2
      let fields ← parseFields limits 0 lines
      ensure (fields.length ≤ limits.maxHeaders) .tooManyHeaders
      validateHost ⟨fields⟩
      let framing ← bodyFraming ⟨fields⟩
      return {
        method := words.1
        target := target
        headers := ⟨fields⟩
        contentLength := framing.1
        transferChunked := framing.2 }

/-! ## 4. The incremental parser -/

structure RequestHeadParser where
  limits : HeadLimits
  buffer : Bytes
  remainder : Bytes
  completed : Bool

def RequestHeadParser.new (limits : HeadLimits) : RequestHeadParser :=
  { limits := limits, buffer := [], remainder := [], completed := false }

/-- `find_subslice`, for a needle that is not empty. -/
def findSubslice (needle : Bytes) : Bytes → Option Nat
  | [] => none
  | byte :: rest =>
      if needle.isPrefixOf (byte :: rest) then some 0
      else (findSubslice needle rest).map (· + 1)

def RequestHeadParser.push (parser : RequestHeadParser) (bytes : Bytes) :
    Except HttpParseError (Option RequestHead) × RequestHeadParser :=
  if parser.completed then (.error .parserAlreadyCompleted, parser)
  else
    let buffer := parser.buffer ++ bytes
    let parser := { parser with buffer := buffer }
    match findSubslice (crlf ++ crlf) buffer with
    | none =>
        if buffer.length > parser.limits.maxHeadBytes then (.error .headTooLarge, parser)
        else (.ok none, parser)
    | some endAt =>
        if endAt + 4 > parser.limits.maxHeadBytes then (.error .headTooLarge, parser)
        else
          match parseCompleteHead (buffer.take endAt) parser.limits with
          | .error e => (.error e, parser)
          | .ok request =>
              (.ok (some request),
                { parser with
                  buffer := []
                  remainder := parser.remainder ++ buffer.drop (endAt + 4)
                  completed := true })

/-- Pushes one piece after the other until a head or an error is returned. -/
def RequestHeadParser.feed :
    RequestHeadParser → List Bytes → Except HttpParseError (Option RequestHead)
  | _, [] => .ok none
  | parser, piece :: pieces =>
      match parser.push piece with
      | (.ok none, parser) => parser.feed pieces
      | (result, _) => result

/-- The parser returned this head, under some limits and for some stream of pieces. -/
def RequestHead.Accepted (head : RequestHead) : Prop :=
  ∃ limits pieces, (RequestHeadParser.new limits).feed pieces = .ok (some head)

/-! ## 5. What an accepted head looks like -/

def Trimmed (value : Bytes) : Prop :=
  (∀ b ∈ value.head?, isOws b = false) ∧ ∀ b ∈ value.getLast?, isOws b = false

structure Header.WellFormed (field : Header) : Prop where
  name_ne : field.name ≠ []
  token : ∀ b ∈ field.name, isTchar b = true
  lowercase : field.name.map toAsciiLowercase = field.name
  trimmed : Trimmed field.value
  valid : validFieldValue field.value = true

structure RequestTarget.WellFormed (target : RequestTarget) : Prop where
  slash : target.rawPath.head? = some 47
  path_graphic : ∀ b ∈ target.rawPath, isAsciiGraphic b = true
  no_fragment : 35 ∉ target.rawPath
  no_query : 63 ∉ target.rawPath
  query_graphic : ∀ q ∈ target.rawQuery, (∀ b ∈ q, isAsciiGraphic b = true) ∧ 35 ∉ q
  decodes : (percentDecode target.rawPath).isSome = true
  parsed : QueryParams.parse (target.rawQuery.getD []) = .ok target.query

/-- **The shape of a parsed head.**  It says all that the parser checks except for the
    limits. -/
structure RequestHead.WellFormed (head : RequestHead) : Prop where
  method_ne : head.method ≠ []
  method_token : ∀ b ∈ head.method, isTchar b = true
  target : head.target.WellFormed
  fields : ∀ field ∈ head.headers.fields, field.WellFormed
  host : validateHost head.headers = .ok ()
  framing : bodyFraming head.headers = .ok (head.contentLength, head.transferChunked)

theorem trimmed_trimOws (value : Bytes) : Trimmed (trimOws value) := by
  constructor
  · intro b hb
    rcases List.rdropWhile_prefix isOws (value.dropWhile isOws) with ⟨dropped, hdropped⟩
    have hhead : (value.dropWhile isOws).head? = some b := by
      rw [← hdropped, List.head?_append, show List.head? (List.rdropWhile isOws _) = some b from hb,
        Option.some_or]
    have hnot := List.head?_dropWhile_not isOws value
    rw [hhead] at hnot
    simpa using hnot
  · intro b hb
    rw [trimOws, List.getLast?_reverse] at hb
    have hnot := List.head?_dropWhile_not isOws (value.dropWhile isOws).reverse
    rw [Option.mem_def.mp hb] at hnot
    simpa using hnot

theorem dropWhile_eq_self {l : Bytes} (h : ∀ b ∈ l.head?, isOws b = false) :
    l.dropWhile isOws = l := by
  cases l with
  | nil => rfl
  | cons b l => simp [h b rfl]

theorem trimOws_of_trimmed {value : Bytes} (h : Trimmed value) : trimOws value = value := by
  rw [trimOws, dropWhile_eq_self h.1, dropWhile_eq_self, List.reverse_reverse]
  rw [List.head?_reverse]
  exact h.2

theorem isTchar_lowercase (b : UInt8) : (!isTchar b || isTchar (toAsciiLowercase b)
      && toAsciiLowercase (toAsciiLowercase b) = toAsciiLowercase b) = true := by
  revert b
  exact forall_byte (by decide +kernel)

variable {limits : HeadLimits}

theorem parseField_wellFormed {line : Bytes} {field : Header}
    (h : parseField limits line = .ok field) : field.WellFormed := by
  simp only [parseField, bind_eq_ok, pure_eq_ok, ensure_eq_ok, okOr_eq_ok] at h
  rcases h with ⟨_, _, _, _, parts, _, _, ⟨hne, htoken⟩, _, hvalid, rfl⟩
  have hlower : ∀ b ∈ parts.1, isTchar (toAsciiLowercase b) = true
      ∧ toAsciiLowercase (toAsciiLowercase b) = toAsciiLowercase b := by
    intro b hb
    have hb' := isTchar_lowercase b
    rw [List.all_eq_true.mp htoken b hb] at hb'
    simpa using hb'
  constructor
  · simpa using hne
  · intro b hb
    rcases List.mem_map.mp hb with ⟨c, hc, rfl⟩
    exact (hlower c hc).1
  · rw [List.map_map]
    exact List.map_congr_left fun b hb => (hlower b hb).2
  · exact trimmed_trimOws _
  · exact hvalid

theorem parseFields_wellFormed {index : Nat} {lines : List (Except HttpParseError Bytes)}
    {fields : List Header} (h : parseFields limits index lines = .ok fields) :
    ∀ field ∈ fields, field.WellFormed := by
  induction lines generalizing index fields with
  | nil =>
    cases h
    simp
  | cons line lines ih =>
    simp only [parseFields, bind_eq_ok, pure_eq_ok] at h
    rcases h with ⟨_, _, _, _, field, hfield, rest, hrest, rfl⟩
    intro f hf
    rcases List.mem_cons.mp hf with rfl | hf
    · exact parseField_wellFormed hfield
    · exact ih hrest f hf

theorem parseTarget_wellFormed {raw : Bytes} {target : RequestTarget}
    (h : parseTarget raw = .ok target) : target.WellFormed := by
  simp only [parseTarget, bind_eq_ok, pure_eq_ok, ensure_eq_ok, okOr_eq_ok] at h
  rcases h with ⟨_, ⟨hslash, hgraphic, hfragment⟩, _, _, _, hdecode, query, hquery, rfl⟩
  rw [List.all_eq_true] at hgraphic
  -- The two shapes of `splitTarget`.
  cases hsplit : splitOnce 63 raw with
  | none =>
    simp only [splitTarget, hsplit] at hdecode hquery ⊢
    exact ⟨hslash, hgraphic, hfragment, splitOnce_eq_none_iff.mp hsplit, by simp,
      by rw [hdecode]; rfl, hquery⟩
  | some parts =>
    rcases parts with ⟨path, text⟩
    rcases splitOnce_eq hsplit with ⟨rfl, hfree⟩
    simp only [splitTarget, hsplit] at hdecode hquery ⊢
    simp only [List.mem_append, List.mem_cons, not_or] at hfragment
    have hpath : path ≠ [] := by
      rintro rfl
      simp at hslash
    constructor
    · simpa [List.head?_append_of_ne_nil _ hpath] using hslash
    · exact fun b hb => hgraphic b (List.mem_append_left _ hb)
    · exact hfragment.1
    · exact hfree
    · intro q hq
      cases hq
      exact ⟨fun b hb => hgraphic b (by simp [hb]), hfragment.2.2⟩
    · rw [hdecode]
      rfl
    · exact hquery

variable {head : RequestHead}

/-- **What the parser returns is well formed.** -/
theorem parseCompleteHead_wellFormed {bytes : Bytes}
    (h : parseCompleteHead bytes limits = .ok head) : head.WellFormed := by
  unfold parseCompleteHead at h
  split at h
  · cases h
  simp only [bind_eq_ok, pure_eq_ok, ensure_eq_ok] at h
  rcases h with ⟨line, _, _, _, words, hwords, target, htarget, fields, hfields, _, _, _, hhost,
    framing, hframing, rfl⟩
  unfold parseRequestLine at hwords
  split at hwords
  · simp only [bind_eq_ok, pure_eq_ok, ensure_eq_ok] at hwords
    rcases hwords with ⟨_, ⟨_, hne, htoken⟩, _, _, rfl⟩
    exact ⟨hne, List.all_eq_true.mp htoken, parseTarget_wellFormed htarget,
      parseFields_wellFormed hfields, hhost, hframing⟩
  · cases hwords

theorem feed_parsed {parser : RequestHeadParser} {pieces : List Bytes}
    (h : parser.feed pieces = .ok (some head)) :
    ∃ bytes, parseCompleteHead bytes parser.limits = .ok head := by
  induction pieces generalizing parser with
  | nil => cases h
  | cons piece pieces ih =>
    unfold RequestHeadParser.feed RequestHeadParser.push at h
    split at h
    · rename_i next hnext
      have hlimits : next.limits = parser.limits := by
        grind
      rw [← hlimits]
      exact ih h
    · grind

theorem RequestHead.Accepted.wellFormed (h : head.Accepted) : head.WellFormed := by
  rcases h with ⟨limits, pieces, h⟩
  rcases feed_parsed h with ⟨bytes, hbytes⟩
  exact parseCompleteHead_wellFormed hbytes

end Pgs3.Protocol
