import Pgs3.Protocol.AwsChunked
import Pgs3.Protocol.Http

/-!
# AWS Signature Version 4

Translation of `protocol/sigv4.rs`: the canonical request, the string to sign, and the two
ways a request is verified, by its `Authorization` header and by the query of a presigned
URL.  A `SigV4Request` is made from a request head and copies its fields, so the functions
here take the head.  `i64` values are integers, with the saturating and checked operations
written out; `SystemTime` is a number of seconds since the epoch.
-/

namespace Pgs3.Protocol

open Pgs3 Foundation

/-! ## 1. Numbers in text -/

def parseDigits (text : Bytes) : Option Nat :=
  if text = [] ∨ ¬ text.all isAsciiDigit then none
  else some (text.foldl (fun value digit => value * 10 + (digit.toNat - 48)) 0)

/-- `str::parse` for an unsigned type with maximum `bound`. -/
def parseUnsigned (bound : Nat) (text : Bytes) : Option Nat :=
  (parseDigits (if text.head? = some 43 then text.tail else text)).filter (· ≤ bound)

/-- `str::parse` for the signed type with the given number of bits. -/
def parseSigned (bits : Nat) (text : Bytes) : Option Int :=
  if text.head? = some 45 then
    ((parseDigits text.tail).map fun n : Nat => -(n : Int)).filter (-2 ^ (bits - 1) ≤ ·)
  else (parseUnsigned (2 ^ (bits - 1) - 1) text).map Int.ofNat

def i64Max : Int := 2 ^ 63 - 1

/-! ## 2. Types -/

def algorithm : Bytes := ascii "AWS4-HMAC-SHA256"

def terminator : Bytes := ascii "aws4_request"

def maxPresignExpirySeconds : Nat := 7 * 24 * 60 * 60

inductive SigV4Error where
  | missingHeader (name : String)
  | duplicateHeader (name : String)
  | missingQueryParameter (name : String)
  | duplicateQueryParameter (name : String)
  | invalidUtf8
  | invalidAuthorization
  | unsupportedAlgorithm
  | invalidCredentialScope
  | invalidSignedHeaders
  | missingSignedHeader (name : Bytes)
  | unsignedAmzHeader (name : Bytes)
  | missingPayloadHash
  | unsupportedPayloadMode
  | invalidHex
  | invalidTimestamp
  | requestTimeTooSkewed
  | presignedUrlNotYetValid
  | presignedUrlExpired
  | invalidExpires
  | regionMismatch
  | serviceMismatch
  | signatureMismatch
  | invalidCanonicalUri
  | invalidCanonicalQuery
deriving DecidableEq, Repr

inductive PayloadMode where
  | fullHash (hash : Digest32)
  | unsignedPayload
  | streamingSigned
  | streamingUnsignedTrailer
deriving DecidableEq

def PayloadMode.parse (value : Bytes) : Except SigV4Error PayloadMode :=
  if value = ascii "UNSIGNED-PAYLOAD" then return .unsignedPayload
  else if value = ascii "STREAMING-AWS4-HMAC-SHA256-PAYLOAD" then return .streamingSigned
  else if value = ascii "STREAMING-UNSIGNED-PAYLOAD-TRAILER" then
    return .streamingUnsignedTrailer
  else if value.length = 64 then return .fullHash (← okOr .invalidHex (decodeHex32 value))
  else throw .unsupportedPayloadMode

structure CredentialScope where
  accessKey : Bytes
  date : Bytes
  region : Bytes
  service : Bytes
deriving DecidableEq, Repr

def CredentialScope.scope (c : CredentialScope) : Bytes :=
  [47].intercalate [c.date, c.region, c.service, terminator]

structure HeaderAuthorization where
  credential : CredentialScope
  signedHeaders : List Bytes
  signature : Digest32

structure PresignedAuthorization where
  credential : CredentialScope
  signedHeaders : List Bytes
  signature : Digest32
  amzDate : Bytes
  expiresSeconds : Nat

structure VerificationConfig where
  now : Int
  maxClockSkew : Nat := 15 * 60
  expectedRegion : Option Bytes := none
  expectedService : Bytes := ascii "s3"

structure VerifiedSignature where
  credential : CredentialScope
  signedHeaders : List Bytes
  payloadMode : PayloadMode
  securityToken : Option Bytes
  canonicalRequestHash : Bytes
  streamingContext : Option StreamingSigningContext

/-! ## 3. The fields of an authorization -/

/-- The UTF-8 encodings of the characters that `str::trim` removes. -/
def whitespaceChars : List Bytes :=
  [[9], [10], [11], [12], [13], [32], [0xC2, 0x85], [0xC2, 0xA0], [0xE1, 0x9A, 0x80],
    [0xE2, 0x80, 0x80], [0xE2, 0x80, 0x81], [0xE2, 0x80, 0x82], [0xE2, 0x80, 0x83],
    [0xE2, 0x80, 0x84], [0xE2, 0x80, 0x85], [0xE2, 0x80, 0x86], [0xE2, 0x80, 0x87],
    [0xE2, 0x80, 0x88], [0xE2, 0x80, 0x89], [0xE2, 0x80, 0x8A], [0xE2, 0x80, 0xA8],
    [0xE2, 0x80, 0xA9], [0xE2, 0x80, 0xAF], [0xE2, 0x81, 0x9F], [0xE3, 0x80, 0x80]]

/-- Removes `chars` from the front, at most `fuel` of them. -/
def trimFront (chars : List Bytes) : Nat → Bytes → Bytes
  | 0, text => text
  | fuel + 1, text =>
      match chars.find? (·.isPrefixOf text) with
      | some char => trimFront chars fuel (text.drop char.length)
      | none => text

/-- `str::trim`.  The fuel is enough because no character is empty. -/
def trim (text : Bytes) : Bytes :=
  let front := trimFront whitespaceChars text.length text
  (trimFront (whitespaceChars.map List.reverse) front.length front.reverse).reverse

def parseCredential (value : Bytes) : Except SigV4Error CredentialScope :=
  match value.splitOn 47 with
  | [accessKey, date, region, service, last] => do
      ensure (accessKey ≠ [] ∧ date ≠ [] ∧ region ≠ [] ∧ service ≠ [] ∧ last = terminator
        ∧ date.length = 8 ∧ date.all isAsciiDigit) .invalidCredentialScope
      return { accessKey, date, region, service }
  | _ => throw .invalidCredentialScope

def isLowercaseHeaderToken (byte : UInt8) : Bool :=
  isAsciiLowercase byte || isAsciiDigit byte || byte ∈ ascii "!#$%&'*+-.^_`|~"

def parseSignedHeaders (value : Bytes) : Except SigV4Error (List Bytes) := do
  let headers := value.splitOn 59
  ensure (headers ≠ [] ∧ (∀ name ∈ headers, name ≠ [] ∧ name.all isLowercaseHeaderToken)
    ∧ ∀ pair ∈ headers.zip headers.tail, pair.1 < pair.2) .invalidSignedHeaders
  return headers

def oneHeader (headers : HeaderMap) (name : String) : Except SigV4Error (Option Bytes) :=
  match headers.getAll (ascii name) with
  | _ :: _ :: _ => throw (.duplicateHeader name)
  | values => return values.head?

def queryOptionalOne (query : QueryParams) (name : String) :
    Except SigV4Error (Option Bytes) :=
  match query.getAll (ascii name) with
  | _ :: _ :: _ => throw (.duplicateQueryParameter name)
  | values => return values.head?

def queryOne (query : QueryParams) (name : String) : Except SigV4Error Bytes := do
  okOr (.missingQueryParameter name) (← queryOptionalOne query name)

def queryOneStr (query : QueryParams) (name : String) : Except SigV4Error Bytes := do
  let value ← queryOne query name
  ensure (validUtf8 value) .invalidUtf8
  return value

/-- What the loop of `parse_header_authorization` has collected. -/
structure Attributes where
  credential : Option CredentialScope := none
  signedHeaders : Option (List Bytes) := none
  signature : Option Digest32 := none

def parseAttribute (seen : Attributes) (text : Bytes) : Except SigV4Error Attributes := do
  let parts ← okOr .invalidAuthorization (splitOnce 61 (trim text))
  ensure (parts.2 ≠ []) .invalidAuthorization
  if parts.1 = ascii "Credential" ∧ seen.credential.isNone then
    return { seen with credential := some (← parseCredential parts.2) }
  else if parts.1 = ascii "SignedHeaders" ∧ seen.signedHeaders.isNone then
    return { seen with signedHeaders := some (← parseSignedHeaders parts.2) }
  else if parts.1 = ascii "Signature" ∧ seen.signature.isNone then
    return { seen with signature := some (← okOr .invalidHex (decodeHex32 parts.2)) }
  else throw .invalidAuthorization

def parseHeaderAuthorization (headers : HeaderMap) :
    Except SigV4Error HeaderAuthorization := do
  let authorization ← okOr (.missingHeader "Authorization") (← oneHeader headers "authorization")
  ensure (validUtf8 authorization) .invalidUtf8
  let parts ← okOr .invalidAuthorization (splitOnce 32 authorization)
  ensure (parts.1 = algorithm) .unsupportedAlgorithm
  let seen ← (parts.2.splitOn 44).foldlM parseAttribute {}
  return {
    credential := ← okOr .invalidAuthorization seen.credential
    signedHeaders := ← okOr .invalidAuthorization seen.signedHeaders
    signature := ← okOr .invalidAuthorization seen.signature }

def parsePresignedAuthorization (query : QueryParams) :
    Except SigV4Error PresignedAuthorization := do
  let name ← queryOneStr query "X-Amz-Algorithm"
  ensure (name = algorithm) .unsupportedAlgorithm
  let expires ← queryOneStr query "X-Amz-Expires"
  let expiresSeconds ← okOr .invalidExpires (parseUnsigned (2 ^ 64 - 1) expires)
  ensure (1 ≤ expiresSeconds ∧ expiresSeconds ≤ maxPresignExpirySeconds) .invalidExpires
  return {
    credential := ← parseCredential (← queryOneStr query "X-Amz-Credential")
    signedHeaders := ← parseSignedHeaders (← queryOneStr query "X-Amz-SignedHeaders")
    signature := ← okOr .invalidHex (decodeHex32 (← queryOne query "X-Amz-Signature"))
    amzDate := ← queryOneStr query "X-Amz-Date"
    expiresSeconds := expiresSeconds }

/-! ## 4. Time -/

def decimal (digits : Bytes) : Nat :=
  digits.foldl (fun value digit => value * 10 + (digit.toNat - 48)) 0

def daysFromCivil (year month day : Nat) : Int :=
  -- Proleptic Gregorian conversion, offset to the Unix epoch.
  let year : Int := year - (if month ≤ 2 then 1 else 0)
  let era := year.ediv 400
  let yearOfEra := year - era * 400
  let shiftedMonth : Int := month + (if month > 2 then -3 else 9)
  let dayOfYear := (153 * shiftedMonth + 2) / 5 + day - 1
  let dayOfEra := yearOfEra * 365 + yearOfEra / 4 - yearOfEra / 100 + dayOfYear
  era * 146097 + dayOfEra - 719468

def daysInMonth (year month : Nat) : Nat :=
  if month ∈ [1, 3, 5, 7, 8, 10, 12] then 31
  else if month ∈ [4, 6, 9, 11] then 30
  else if month = 2 then
    if year % 400 = 0 ∨ year % 4 = 0 ∧ year % 100 ≠ 0 then 29 else 28
  else 0

/-- A result that a checked `i64` operation returns. -/
def checkedI64 (value : Int) : Option Int :=
  if -2 ^ 63 ≤ value ∧ value ≤ i64Max then some value else none

def parseAmzTimestamp (value : Bytes) : Except SigV4Error Int := do
  ensure (value.length = 16 ∧ value.getD 8 0 = 84 ∧ value.getD 15 0 = 90) .invalidTimestamp
  ensure ((value.zipIdx.all fun entry =>
    entry.2 = 8 || entry.2 = 15 || isAsciiDigit entry.1)) .invalidTimestamp
  let field := fun (start width : Nat) => decimal ((value.drop start).take width)
  let year := field 0 4
  let month := field 4 2
  let day := field 6 2
  let hour := field 9 2
  let minute := field 11 2
  let second := field 13 2
  ensure (1970 ≤ year ∧ 1 ≤ month ∧ month ≤ 12 ∧ day ≠ 0 ∧ day ≤ daysInMonth year month
    ∧ hour ≤ 23 ∧ minute ≤ 59 ∧ second ≤ 59) .invalidTimestamp
  okOr .invalidTimestamp do
    let seconds ← checkedI64 (daysFromCivil year month day * 86400)
    checkedI64 (seconds + (hour * 3600 + minute * 60 + second : Nat))

def unixSeconds (time : Int) : Except SigV4Error Int := do
  ensure (0 ≤ time ∧ time ≤ i64Max) .invalidTimestamp
  return time

def validateHeaderTime (timestamp : Int) (config : VerificationConfig) :
    Except SigV4Error Unit := do
  let now ← unixSeconds config.now
  ensure ((now - timestamp).natAbs ≤ config.maxClockSkew) .requestTimeTooSkewed

def validatePresignTime (timestamp : Int) (expires : Nat) (config : VerificationConfig) :
    Except SigV4Error Unit := do
  let now ← unixSeconds config.now
  let skew : Int := min config.maxClockSkew i64Max
  ensure (max (-2 ^ 63) (timestamp - skew) ≤ now) .presignedUrlNotYetValid
  ensure (expires ≤ i64Max) .invalidExpires
  ensure (now ≤ min i64Max (timestamp + expires)) .presignedUrlExpired

def validateScope (credential : CredentialScope) (config : VerificationConfig) :
    Except SigV4Error Unit := do
  ensure (credential.service = config.expectedService) .serviceMismatch
  ensure (∀ region ∈ config.expectedRegion, region = credential.region) .regionMismatch

/-! ## 5. The canonical request -/

/-- What `canonical_uri` writes for a byte outside an escape. -/
def canonicalPlain (byte : UInt8) : Bytes :=
  if byte = 47 || isUnreserved byte then [byte] else percentEncoded byte

/-- Existing escapes are preserved, with uppercase digits. -/
def canonicalEscape (high low : UInt8) : Bytes :=
  [37, toAsciiUppercase high, toAsciiUppercase low]

/-- The loop of `canonical_uri`. -/
def canonicalScan (rawPath : Bytes) : Option Bytes :=
  scanEscapes canonicalPlain canonicalEscape rawPath

def canonicalUri (rawPath : Bytes) : Except SigV4Error Bytes := do
  ensure (rawPath.head? = some 47) .invalidCanonicalUri
  okOr .invalidCanonicalUri (canonicalScan rawPath)

/-- The pair of one component of the query, or nothing for the signature. -/
def canonicalPair (excludeSignature : Bool) (component : Bytes) :
    Except SigV4Error (Option (Bytes × Bytes)) := do
  let raw := splitComponent component
  let name ← okOr .invalidCanonicalQuery (percentDecode raw.1)
  if excludeSignature ∧ name = ascii "X-Amz-Signature" then return none
  let value ← okOr .invalidCanonicalQuery (percentDecode raw.2)
  return some (awsEncode name true, awsEncode value true)

/-- The order of pairs of strings: by name, then by value. -/
def pairLe (p q : Bytes × Bytes) : Prop := p.1 < q.1 ∨ p.1 = q.1 ∧ p.2 ≤ q.2

instance : DecidableRel pairLe := fun p q =>
  inferInstanceAs (Decidable (p.1 < q.1 ∨ p.1 = q.1 ∧ p.2 ≤ q.2))

/-- Sorts the pairs and writes them as `name=value`, separated by `&`. -/
def joinPairs (pairs : List (Bytes × Bytes)) : Bytes :=
  [38].intercalate ((pairs.insertionSort pairLe).map fun pair => pair.1 ++ 61 :: pair.2)

def canonicalQuery (rawQuery : Option Bytes) (excludeSignature : Bool) :
    Except SigV4Error Bytes :=
  match rawQuery with
  | none => return []
  | some raw => do
      if raw = [] then return []
      let pairs ← (raw.splitOn 38).mapM (canonicalPair excludeSignature)
      return joinPairs (pairs.filterMap id)

/-- One round of the loop of `normalize_header_value`: the output so far and whether the last
    byte was whitespace. -/
def normalizeStep (state : Bytes × Bool) (byte : UInt8) : Bytes × Bool :=
  if isOws byte then
    if state.2 then state else (state.1 ++ [32], true)
  else (state.1 ++ [byte], false)

def normalizeHeaderValue (value : Bytes) : Bytes :=
  let normalized := (value.foldl normalizeStep ([], true)).1
  if normalized.getLast? = some 32 then normalized.dropLast else normalized

/-- The values of one signed header, each normalized, joined with commas. -/
def joinedValue (headers : HeaderMap) (name : Bytes) : Bytes :=
  [44].intercalate ((headers.getAll name).map normalizeHeaderValue)

def canonicalHeader (headers : HeaderMap) (name : Bytes) : Except SigV4Error Bytes := do
  ensure (headers.getAll name ≠ []) (.missingSignedHeader name)
  return name ++ 58 :: (joinedValue headers name ++ [10])

def canonicalHeaders (headers : HeaderMap) (signedHeaders : List Bytes) :
    Except SigV4Error Bytes := do
  return (← signedHeaders.mapM (canonicalHeader headers)).flatten

def buildCanonicalRequest (request : RequestHead) (signedHeaders : List Bytes)
    (payloadLiteral : Bytes) (excludeSignature : Bool) : Except SigV4Error Bytes := do
  let uri ← canonicalUri request.target.rawPath
  let query ← canonicalQuery request.target.rawQuery excludeSignature
  let headers ← canonicalHeaders request.headers signedHeaders
  let signed := [59].intercalate signedHeaders
  -- The canonical headers end in a line feed of their own, and the separator adds a second
  -- one before the list of signed headers.
  return request.method ++ 10 :: (uri ++ 10 :: (query ++ 10 :: (headers ++ 10 ::
    (signed ++ 10 :: payloadLiteral))))

def validateSignedHeaders (headers : HeaderMap) (signed : List Bytes) :
    Except SigV4Error Unit := do
  ensure (ascii "host" ∈ signed) .invalidSignedHeaders
  signed.forM fun name => ensure ((headers.get name).isSome) (.missingSignedHeader name)
  headers.fields.forM fun field =>
    ensure (¬ ((ascii "x-amz-").isPrefixOf field.name = true
      ∧ field.name ≠ ascii "x-amz-content-sha256" ∧ field.name ∉ signed))
      (.unsignedAmzHeader field.name)

/-! ## 6. Verification -/

def stringToSign (amzDate scope canonicalHash : Bytes) : Bytes :=
  algorithm ++ 10 :: (amzDate ++ 10 :: (scope ++ 10 :: hexLower canonicalHash))

def deriveSigningKey (K : Crates) (secret : Bytes) (credential : CredentialScope) : Digest32 :=
  let dateKey := K.hmacSha256 (ascii "AWS4" ++ secret) credential.date
  let regionKey := K.hmacSha256 dateKey.1 credential.region
  let serviceKey := K.hmacSha256 regionKey.1 credential.service
  K.hmacSha256 serviceKey.1 terminator

/-- `std::str::from_utf8` on an optional field. -/
def optionalText (value : Option Bytes) : Except SigV4Error (Option Bytes) := do
  ensure (∀ text ∈ value, validUtf8 text) .invalidUtf8
  return value

def verifyHeader (K : Crates) (request : RequestHead) (secret : Bytes)
    (config : VerificationConfig) : Except SigV4Error VerifiedSignature := do
  let authorization ← parseHeaderAuthorization request.headers
  validateScope authorization.credential config
  validateSignedHeaders request.headers authorization.signedHeaders
  let amzDate ← okOr (.missingHeader "x-amz-date") (← oneHeader request.headers "x-amz-date")
  ensure (validUtf8 amzDate) .invalidUtf8
  let signedTime ← parseAmzTimestamp amzDate
  ensure (authorization.credential.date = amzDate.take 8) .invalidCredentialScope
  validateHeaderTime signedTime config
  let payloadLiteral ← okOr .missingPayloadHash
    (← oneHeader request.headers "x-amz-content-sha256")
  ensure (validUtf8 payloadLiteral) .invalidUtf8
  let payloadMode ← PayloadMode.parse payloadLiteral
  let canonicalRequest ←
    buildCanonicalRequest request authorization.signedHeaders payloadLiteral false
  let canonicalRequestHash := K.sha256 canonicalRequest
  let scope := authorization.credential.scope
  let signingKey := deriveSigningKey K secret authorization.credential
  ensure (verifyHmac K signingKey.1 (stringToSign amzDate scope canonicalRequestHash)
    authorization.signature) .signatureMismatch
  let securityToken ← optionalText (← oneHeader request.headers "x-amz-security-token")
  return {
    credential := authorization.credential
    signedHeaders := authorization.signedHeaders
    payloadMode := payloadMode
    securityToken := securityToken
    canonicalRequestHash := canonicalRequestHash
    streamingContext :=
      if payloadMode = .streamingSigned then
        some {
          signingKey := signingKey
          amzDate := amzDate
          credentialScope := scope
          seedSignature := authorization.signature }
      else none }

def verifyPresigned (K : Crates) (request : RequestHead) (secret : Bytes)
    (config : VerificationConfig) : Except SigV4Error VerifiedSignature := do
  let authorization ← parsePresignedAuthorization request.target.query
  validateScope authorization.credential config
  validateSignedHeaders request.headers authorization.signedHeaders
  let signedTime ← parseAmzTimestamp authorization.amzDate
  ensure (authorization.credential.date = authorization.amzDate.take 8) .invalidCredentialScope
  validatePresignTime signedTime authorization.expiresSeconds config
  let canonicalRequest ← buildCanonicalRequest request authorization.signedHeaders
    (ascii "UNSIGNED-PAYLOAD") true
  let canonicalRequestHash := K.sha256 canonicalRequest
  let scope := authorization.credential.scope
  let signingKey := deriveSigningKey K secret authorization.credential
  ensure (verifyHmac K signingKey.1
    (stringToSign authorization.amzDate scope canonicalRequestHash) authorization.signature)
    .signatureMismatch
  let securityToken ← optionalText
    (← queryOptionalOne request.target.query "X-Amz-Security-Token")
  return {
    credential := authorization.credential
    signedHeaders := authorization.signedHeaders
    payloadMode := .unsignedPayload
    securityToken := securityToken
    canonicalRequestHash := canonicalRequestHash
    streamingContext := none }

end Pgs3.Protocol
