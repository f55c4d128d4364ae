import Pgs3.Objects
import Pgs3.S3.ListingXml

/-!
# Listing a bucket

Translation of `_prefix_end`, `_make_list_token`, `_parse_list_token` and `list` of
`sql/bootstrap.sql`, of `list_objects` of `s3/db.rs` with its probe for a further page, and
of what `s3/xml.rs`, a client and `s3/route.rs` make of the records: `IsTruncated`,
`NextMarker`, `NextContinuationToken` and the parameters of the next request.  `NextMarker` is
a text with any characters of a key, so what the client sends back is what it received.

A continuation token is the base64 form of a JSON text.  Both encodings are PostgreSQL
built-ins; a token is represented here by the fields that are read from the JSON object.
-/

namespace Pgs3

open Foundation Foundation.Tx

/-! ## 1. Texts -/

def ascii (c : Char) : Nat := c.toNat

def prefixEndLoop (p : Text) : Nat → Option Text
  | 0 => none
  | i + 1 =>
      match p[i]? with
      | none => none
      | some ch =>
          if ascii ch < 1114111 then
            -- the surrogates are not characters
            let cp := if ascii ch = 55295 then 57344 else ascii ch + 1
            some (p.take i ++ [Char.ofNat cp])
          else prefixEndLoop p i

/-- `_prefix_end`: the least text after all texts that start with `p`. -/
def prefixEnd (p : Text) : Option Text :=
  if p = [] then none else prefixEndLoop p p.length

/-- `strpos`: the position of the first occurrence, counted from 1; 0 if there is none. -/
def strpos : Text → Text → Nat
  | [], d => if d = [] then 1 else 0
  | a :: t, d =>
      if d.isPrefixOf (a :: t) then 1
      else
        match strpos t d with
        | 0 => 0
        | n + 1 => n + 2

/-- The common prefix that a key with prefix `p` is rolled up to. -/
def commonPrefixOf (p d key : Text) : Option Text :=
  let suffix := key.drop p.length
  match strpos suffix d with
  | 0 => none
  | pos + 1 => some (p ++ suffix.take (pos + d.length))

/-! ## 2. Tokens -/

/-- The fields of a decoded token.  Absent fields are `none`, JSON nulls are `some none`. -/
structure ListState where
  v : Option Int
  b : Option (Option Text)
  p : Option (Option Text)
  d : Option Text
  s : Option (Option Text)
  i : Option (Option Bool)
deriving DecidableEq, Repr

inductive ContinuationToken where
  /-- A text that is no base64, no JSON object, or whose fields do not cast. -/
  | undecodable
  | json (state : ListState)
deriving DecidableEq, Repr

def makeListToken (bucket keyPrefix : Text) (delimiter : Option Text) (seek : Text)
    (inclusive : Bool) : ContinuationToken :=
  .json ⟨some 1, some (some bucket), some (some keyPrefix), delimiter, some (some seek),
    some (some inclusive)⟩

def parseListToken : ContinuationToken → Except PgError ListState
  | .undecodable => .error (invalidParameter "invalid continuation token")
  | .json state =>
      -- a missing version compares as null, which is not true
      if (∃ v ∈ state.v, v ≠ 1) ∨ state.b.isNone ∨ state.p.isNone ∨ state.s.isNone
          ∨ state.i.isNone then
        .error (invalidParameter "invalid continuation token")
      else .ok state

/-! ## 3. The scan -/

structure ListRequest where
  bucket : Text
  keyPrefix : Option Text
  delimiter : Option Text
  startAfter : Option Text
  continuationToken : Option ContinuationToken
  maxKeys : Int

/-- `coalesce(p_prefix, '')`. -/
def ListRequest.effectivePrefix (r : ListRequest) : Text := r.keyPrefix.getD []

/-- `nullif(p_delimiter, '')`. -/
def ListRequest.effectiveDelimiter (r : ListRequest) : Option Text :=
  r.delimiter.filter fun d => d ≠ []

structure ListEntry where
  key : Option Text
  commonPrefix : Option Text
  versionId : Option Nat
  size : Option Nat
  etag : Option Text
  contentType : Option Text
  lastModified : Option Timestamp
  «meta» : Option Jsonb
  continuationToken : Option ContinuationToken

def objectEntry (o : ObjectRow) (token : Option ContinuationToken) : ListEntry :=
  ⟨some o.key, none, some o.versionId, some o.size, o.etag, o.contentType, some o.createdAt,
    some o.«meta», token⟩

def commonPrefixEntry (p : Text) (token : Option ContinuationToken) : ListEntry :=
  ⟨none, some p, none, none, none, none, none, none, token⟩

/-- `v_seek` and `v_inclusive`. -/
structure Cursor where
  seek : Option Text
  inclusive : Bool

/-- `o.key >= v_seek` or `o.key > v_seek`; comparing with null selects nothing. -/
def Cursor.admits (c : Cursor) (key : Text) : Bool :=
  match c.seek with
  | none => false
  | some seek => if c.inclusive then seek ≤ key else seek < key

/-- The latest versions of a bucket that are no delete markers. -/
def liveRows (rows : List ObjectRow) (bucketId : Nat) : List ObjectRow :=
  rows.filter fun o => o.bucketId = bucketId ∧ o.isLatest ∧ o.deleteMarker = false

/-- `key < v_upper`, unless there is no upper bound. -/
def below (upper : Option Text) (key : Text) : Bool := upper.all fun u => key < u

def rangeRows (live : List ObjectRow) (upper : Option Text) (c : Cursor) : List ObjectRow :=
  orderBy ObjectRow.key (live.filter fun o => c.admits o.key && below upper o.key)

def startCursor (r : ListRequest) : Except PgError Cursor :=
  match r.continuationToken with
  | some token => do
      let state ← parseListToken token
      if state.b.join ≠ some r.bucket ∨ state.p.join ≠ some r.effectivePrefix
          ∨ state.d ≠ r.effectiveDelimiter then
        .error (invalidParameter "continuation token does not match request")
      else .ok ⟨state.s.join, state.i.join = some true⟩
  | none =>
      match r.startAfter with
      | none => .ok ⟨some r.effectivePrefix, true⟩
      | some m =>
          if m < r.effectivePrefix then .ok ⟨some r.effectivePrefix, true⟩
          else .ok ⟨some m, false⟩

def listRange (r : ListRequest) (live : List ObjectRow) (c : Cursor) : List ListEntry :=
  let upper := prefixEnd r.effectivePrefix
  let page := (rangeRows live upper c).zipIdx.take r.maxKeys.toNat
  page.map fun (o, i) =>
    objectEntry o <|
      if ((i : Int) + 1) = r.maxKeys then
        some (makeListToken r.bucket r.effectivePrefix none o.key false)
      else none

/-- `SELECT o.* INTO STRICT`. -/
def strictRow : List ObjectRow → Except PgError ObjectRow
  | [o] => .ok o
  | [] => .error ⟨.P0002, "query returned no rows", none⟩
  | _ => .error ⟨.P0003, "query returned more than one row", none⟩

/-- The loop of `list`: one key of the index in each turn. -/
def listLoop (r : ListRequest) (d : Text) (live : List ObjectRow) :
    Nat → Nat → Cursor → Except PgError (List ListEntry)
  | 0, _, _ => .ok []
  | fuel + 1, emitted, c =>
      let upper := prefixEnd r.effectivePrefix
      let token (seek : Text) (inclusive : Bool) : Option ContinuationToken :=
        if (emitted : Int) + 1 = r.maxKeys then
          some (makeListToken r.bucket r.effectivePrefix (some d) seek inclusive)
        else none
      if r.maxKeys ≤ emitted ∨ c.seek = none ∨ (∃ seek ∈ c.seek, below upper seek = false) then
        .ok []
      else
        match (rangeRows live upper c).head? with
        | none => .ok []
        | some found =>
            match commonPrefixOf r.effectivePrefix d found.key with
            | some common => do
                let next : Cursor := ⟨prefixEnd common, true⟩
                if ∃ m ∈ r.startAfter, common ≤ m then listLoop r d live fuel emitted next
                else
                  let rest ← listLoop r d live fuel (emitted + 1) next
                  .ok (commonPrefixEntry common (next.seek.bind fun seek => token seek true) :: rest)
            | none => do
                let o ← strictRow (live.filter fun o => o.key = found.key)
                let rest ← listLoop r d live fuel (emitted + 1) ⟨some found.key, false⟩
                .ok (objectEntry o (token found.key false) :: rest)

/-- `list`.  The loop leaves a row behind in each turn, so it ends within that many. -/
def list (c : Context) (r : ListRequest) : DbTx (List ListEntry) := do
  let bucketId ← bucketIdOf c r.bucket
  raiseIf (r.maxKeys < 0 ∨ 1000 < r.maxKeys)
    (invalidParameter "max_keys must be between 0 and 1000")
  raiseIf (1024 < octetLength r.effectivePrefix
      ∨ 1024 < octetLength (r.effectiveDelimiter.getD []))
    (invalidParameter "prefix or delimiter is too long")
  raiseIf (r.continuationToken.isSome ∧ r.startAfter.isSome)
    (invalidParameter "start_after and continuation_token are mutually exclusive")
  let cursor ← reading fun _ => startCursor r
  reading fun s =>
    let live := liveRows s.object.rows bucketId
    match r.effectiveDelimiter with
    | none => .ok (listRange r live cursor)
    | some d => listLoop r d live (live.length + 1) 0 cursor

/-! ## 4. Pages over HTTP -/

/-- What the worker keeps of a list request's query. -/
structure ListParams where
  keyPrefix : Text
  delimiter : Option Text
  marker : Option Text
  startAfter : Option Text
  continuationToken : Option ContinuationToken
  maxKeys : Int
  encodingTypeUrl : Bool
deriving DecidableEq

/-- `last.continuation_token = None`. -/
def clearLastToken (records : List ListEntry) : List ListEntry :=
  records.dropLast ++ (records.getLast?.map fun e => { e with continuationToken := none }).toList

/-- `list_objects`: a page, with a token only if another entry follows. -/
def listObjects (c : Context) (bucket : Text) (p : ListParams) (v2 : Bool) :
    DbTx (List ListEntry) := do
  let rows ← list c ⟨bucket, some p.keyPrefix, p.delimiter,
    if v2 then p.startAfter else p.marker, p.continuationToken, p.maxKeys⟩
  match rows.getLast?.bind ListEntry.continuationToken with
  | none => pure rows
  | some token =>
      if 0 < p.maxKeys ∧ (rows.length : Int) = p.maxKeys then do
        let probe ← list c ⟨bucket, some p.keyPrefix, p.delimiter, none, some token, 1⟩
        pure (if probe.isEmpty then clearLastToken rows else rows)
      else pure rows

def isListTruncated (maxKeys : Int) (records : List ListEntry) : Bool :=
  0 < maxKeys ∧ (records.length : Int) = maxKeys
    ∧ (records.getLast?.bind ListEntry.continuationToken).isSome

/-- `NextMarker` of `list_objects_v1`. -/
def nextMarker (records : List ListEntry) : Text :=
  (records.getLast?.bind fun e => e.key <|> e.commonPrefix).getD []

/-- A V1 page and the request for the next one. -/
def fetchV1 (c : Context) (bucket : Text) (s : Db) (p : ListParams) :
    Except PgError (List ListEntry × Option ListParams) :=
  match (commit (listObjects c bucket p false) s).1 with
  | .error e => .error e
  | .ok records =>
      .ok (records,
        if isListTruncated p.maxKeys records then
          some { p with
            marker := some (S3.ListingXml.received p.encodingTypeUrl (nextMarker records)) }
        else none)

/-- A V2 page and the request for the next one; its token supersedes `start-after`. -/
def fetchV2 (c : Context) (bucket : Text) (s : Db) (p : ListParams) :
    Except PgError (List ListEntry × Option ListParams) :=
  match (commit (listObjects c bucket p true) s).1 with
  | .error e => .error e
  | .ok records =>
      .ok (records,
        if isListTruncated p.maxKeys records then
          some { p with
            startAfter := none
            continuationToken := records.getLast?.bind ListEntry.continuationToken }
        else none)

end Pgs3
