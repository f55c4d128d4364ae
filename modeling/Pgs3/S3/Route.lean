import Pgs3.Protocol.SigV4

/-!
# Routing a request

Translation of `s3/route.rs`: which S3 operation a request head asks for, with the parameters
taken from its path, its query and, for a copy, the `x-amz-copy-source` header.  `i32` and
`i64` values are integers in range, as `str::parse` leaves them.  The arms of the matches on
the method are grouped by method; within one method they stand in the order of the source.
-/

namespace Pgs3.S3

open Pgs3 Foundation Protocol

/-! ## 1. Types -/

structure S3Error where
  status : Nat
  code : String
  message : String
deriving DecidableEq, Repr

def invalidRequest (message : String) : S3Error := ⟨400, "InvalidRequest", message⟩

/-- `S3Error::new(400, "InvalidArgument", ..)`. -/
def invalidArgument (message : String) : S3Error := ⟨400, "InvalidArgument", message⟩

def unsupported : S3Error :=
  ⟨501, "NotImplemented", "The requested S3 operation is not implemented"⟩

structure ListParams where
  namePrefix : Bytes
  delimiter : Option Bytes
  marker : Option Bytes
  /-- Effective initial cursor passed to the database.  A non-empty continuation token
      supersedes this value. -/
  startAfter : Option Bytes
  /-- Effective opaque cursor passed to the database.  Empty request values are treated as
      absent here, but retained in `requestedContinuationToken` for the response. -/
  continuationToken : Option Bytes
  requestedStartAfter : Option Bytes
  requestedContinuationToken : Option Bytes
  maxKeys : Int
  encodingTypeUrl : Bool
deriving DecidableEq, Repr

structure VersionListParams where
  namePrefix : Bytes
  delimiter : Option Bytes
  keyMarker : Option Bytes
  versionIdMarker : Option Int
  maxKeys : Int
  encodingTypeUrl : Bool
deriving DecidableEq, Repr

structure CopySource where
  bucket : Bytes
  key : Bytes
  versionId : Option Int
deriving DecidableEq, Repr

structure ListPartsParams where
  partNumberMarker : Int
  maxParts : Int
deriving DecidableEq, Repr

inductive Operation where
  | listBuckets
  | createBucket (bucket : Bytes)
  | deleteBucket (bucket : Bytes)
  | headBucket (bucket : Bytes)
  | getBucketLocation (bucket : Bytes)
  | getBucketVersioning (bucket : Bytes)
  | listObjectsV1 (bucket : Bytes) (params : ListParams)
  | listObjectsV2 (bucket : Bytes) (params : ListParams)
  | listObjectVersions (bucket : Bytes) (params : VersionListParams)
  | putObject (bucket key : Bytes)
  | copyObject (bucket key : Bytes) (source : CopySource)
  | restoreObject (bucket key : Bytes) (versionId : Int)
  | getObject (bucket key : Bytes) (versionId : Option Int)
  | headObject (bucket key : Bytes) (versionId : Option Int)
  | deleteObject (bucket key : Bytes) (versionId : Option Int)
  | deleteObjects (bucket : Bytes)
  | createMultipartUpload (bucket key : Bytes)
  | uploadPart (bucket key uploadId : Bytes) (partNumber : Int)
  | completeMultipartUpload (bucket key uploadId : Bytes)
  | abortMultipartUpload (bucket key uploadId : Bytes)
  | listParts (bucket key uploadId : Bytes) (params : ListPartsParams)
deriving DecidableEq, Repr

/-! ## 2. Query parameters -/

/-- `std::str::from_utf8` on a field that an error names. -/
def asText (value : Bytes) (message : String) : Except S3Error Bytes := do
  ensure (validUtf8 value) (invalidRequest message)
  return value

def validateQueryName (allowed : List String) (pair : QueryParam) : Except S3Error Unit := do
  let name ← asText pair.name "query name is not UTF-8"
  ensure (name ∈ allowed.map ascii) unsupported

def validateQueryNames (query : QueryParams) (allowed : List String) : Except S3Error Unit :=
  query.pairs.forM (validateQueryName allowed)

/-- The values of a parameter that may appear once. -/
def atMostOnce (query : QueryParams) (name : String) : Except S3Error (List Bytes) := do
  let values := query.getAll (ascii name)
  ensure (values.length ≤ 1) (invalidRequest ("duplicate query parameter " ++ name))
  return values

def hasFlag (query : QueryParams) (name : String) : Except S3Error Bool := do
  return (← atMostOnce query name).length = 1

def optionalOne (query : QueryParams) (name : String) : Except S3Error (Option Bytes) := do
  (← atMostOnce query name).head?.mapM (asText · (name ++ " is not UTF-8"))

/-- `optional_i64`: a positive number. -/
def optionalI64 (query : QueryParams) (name : String) : Except S3Error (Option Int) := do
  (← optionalOne query name).mapM fun value =>
    okOr (invalidArgument (name ++ " is invalid")) ((parseSigned 64 value).filter (0 < ·))

def optionalI32 (query : QueryParams) (name : String) : Except S3Error (Option Int) := do
  (← optionalOne query name).mapM fun value =>
    okOr (invalidArgument (name ++ " is invalid")) (parseSigned 32 value)

def maxKeys (query : QueryParams) : Except S3Error Int := do
  let value := (← optionalI32 query "max-keys").getD 1000
  ensure (0 ≤ value ∧ value ≤ 1000) (invalidArgument "max-keys must be 0..1000")
  return value

def encodingType (query : QueryParams) : Except S3Error Bool := do
  match ← optionalOne query "encoding-type" with
  | none => return false
  | some value =>
      ensure (value = ascii "url") (invalidArgument "encoding-type must be url")
      return true

/-- The parameters of a presigned URL, which every query may have. -/
def presignNames : List String :=
  ["X-Amz-Algorithm", "X-Amz-Credential", "X-Amz-Date", "X-Amz-Expires", "X-Amz-SignedHeaders",
    "X-Amz-Signature", "X-Amz-Security-Token"]

/-- The check of an SDK's `x-id`, which repeats the name of the operation. -/
def validateXId (query : QueryParams) (operationId : String) : Except S3Error Unit := do
  let value ← optionalOne query "x-id"
  ensure (∀ id ∈ value, id = ascii operationId) unsupported

/-- `only_version_query`, which is `Ok(true)` or an error. -/
def onlyVersionQuery (query : QueryParams) (operationId : String) : Except S3Error Unit := do
  validateQueryNames query (["versionId"] ++ presignNames ++ ["x-id"])
  validateXId query operationId

/-- `valid_put_query`, which is `Ok(true)` or an error. -/
def validPutQuery (query : QueryParams) : Except S3Error Unit := do
  validateQueryNames query (presignNames ++ ["x-id"])
  validateXId query "PutObject"

def nonempty (value : Bytes) : Bool := value ≠ []

def parseList (query : QueryParams) : Except S3Error ListParams := do
  validateQueryNames query (["list-type", "prefix", "delimiter", "marker", "start-after",
    "continuation-token", "max-keys", "encoding-type", "fetch-owner"] ++ presignNames)
  let requestedStartAfter ← optionalOne query "start-after"
  let requestedContinuationToken ← optionalOne query "continuation-token"
  let continuationToken := requestedContinuationToken.filter nonempty
  -- An empty continuation token is treated as absent.  A real token resumes an opaque server
  -- cursor and therefore supersedes StartAfter.
  let startAfter := if continuationToken.isNone then requestedStartAfter else none
  let namePrefix ← optionalOne query "prefix"
  let delimiter ← optionalOne query "delimiter"
  let marker ← optionalOne query "marker"
  let keys ← maxKeys query
  let url ← encodingType query
  return {
    namePrefix := namePrefix.getD []
    delimiter := delimiter.filter nonempty
    marker := marker
    startAfter := startAfter
    continuationToken := continuationToken
    requestedStartAfter := requestedStartAfter
    requestedContinuationToken := requestedContinuationToken
    maxKeys := keys
    encodingTypeUrl := url }

def parseVersionList (query : QueryParams) : Except S3Error VersionListParams := do
  validateQueryNames query (["versions", "prefix", "delimiter", "key-marker",
    "version-id-marker", "max-keys", "encoding-type"] ++ presignNames)
  let keyMarker ← optionalOne query "key-marker"
  let versionIdMarker ← optionalI64 query "version-id-marker"
  ensure (¬ (versionIdMarker.isSome ∧ keyMarker.isNone))
    (invalidArgument "version-id-marker requires key-marker")
  let namePrefix ← optionalOne query "prefix"
  let delimiter ← optionalOne query "delimiter"
  let keys ← maxKeys query
  let url ← encodingType query
  return {
    namePrefix := namePrefix.getD []
    delimiter := delimiter.filter nonempty
    keyMarker := keyMarker
    versionIdMarker := versionIdMarker
    maxKeys := keys
    encodingTypeUrl := url }

/-- `validate_multipart_upload_id`: the shape of a UUID. -/
def validateMultipartUploadId (uploadId : Bytes) : Except S3Error Unit :=
  ensure (uploadId.length = 36 ∧ (uploadId.zipIdx.all fun entry =>
      if entry.2 = 8 ∨ entry.2 = 13 ∨ entry.2 = 18 ∨ entry.2 = 23 then entry.1 = 45
      else isAsciiHexdigit entry.1))
    ⟨404, "NoSuchUpload", "The specified upload does not exist"⟩

/-! ## 3. The copy source -/

/-- `error.to_string()` of the HTTP parser, as an invalid request. -/
def asInvalidRequest {α : Type} (result : Except HttpParseError α) : Except S3Error α :=
  result.mapError fun e => invalidRequest e.text

/-- The path of a copy source, with the slash it may lack. -/
def copySourcePath (rawPath : Bytes) : Bytes :=
  if rawPath.head? = some 47 then rawPath else 47 :: rawPath

/-- The part of `parse_copy_source` that reads the one value of the header. -/
def copySourceOf (raw : Bytes) : Except S3Error CopySource := do
  ensure (validUtf8 raw) (invalidRequest "x-amz-copy-source is not UTF-8")
  let parts := (splitOnce 63 raw).getD (raw, [])
  let parsed ← asInvalidRequest (parsePathStyle (copySourcePath parts.1))
  let sourceQuery ← asInvalidRequest (QueryParams.parse parts.2)
  ensure (∀ pair ∈ sourceQuery.pairs, pair.name = ascii "versionId")
    (invalidRequest "invalid copy source query")
  let bucket ← okOr (invalidRequest "copy source has no bucket") parsed.bucket
  let key ← okOr (invalidRequest "copy source has no object key") (parsed.key.filter nonempty)
  let versionId ← optionalI64 sourceQuery "versionId"
  return { bucket := bucket, key := key, versionId := versionId }

def parseCopySource (headers : HeaderMap) : Except S3Error CopySource :=
  match headers.getAll (ascii "x-amz-copy-source") with
  | [raw] => copySourceOf raw
  | _ => throw (invalidRequest "x-amz-copy-source must appear once")

/-! ## 4. Classification -/

def classifyBucket (method bucket : Bytes) (query : QueryParams) :
    Except S3Error Operation :=
  if method = ascii "PUT" ∧ query.pairs = [] then return .createBucket bucket
  else if method = ascii "DELETE" ∧ query.pairs = [] then return .deleteBucket bucket
  else if method = ascii "HEAD" ∧ query.pairs = [] then return .headBucket bucket
  else if method = ascii "GET" then do
    if ← hasFlag query "location" then return .getBucketLocation bucket
    if ← hasFlag query "versioning" then return .getBucketVersioning bucket
    if ← hasFlag query "versions" then
      return .listObjectVersions bucket (← parseVersionList query)
    let listType ← optionalOne query "list-type"
    let params ← parseList query
    match listType with
    | none => return .listObjectsV1 bucket params
    | some value =>
        if value = ascii "1" then return .listObjectsV1 bucket params
        else if value = ascii "2" then return .listObjectsV2 bucket params
        else throw (invalidRequest "list-type must be 1 or 2")
  else if method = ascii "POST" then do
    if ← hasFlag query "delete" then return .deleteObjects bucket
    throw unsupported
  else throw unsupported

/-- The `ListParts` arm. -/
def classifyListParts (bucket key uploadId : Bytes) (query : QueryParams) :
    Except S3Error Operation := do
  validateQueryNames query
    (["uploadId", "part-number-marker", "max-parts", "encoding-type"] ++ presignNames)
  let encoding ← optionalOne query "encoding-type"
  ensure (∀ value ∈ encoding, value = ascii "url") (invalidArgument "encoding-type must be url")
  let partNumberMarker := (← optionalI32 query "part-number-marker").getD 0
  let maxParts := (← optionalI32 query "max-parts").getD 1000
  ensure ((0 ≤ partNumberMarker ∧ partNumberMarker ≤ 10000) ∧ 0 ≤ maxParts ∧ maxParts ≤ 1000)
    (invalidArgument "part-number-marker must be 0..10000 and max-parts must be 0..1000")
  return .listParts bucket key uploadId ⟨partNumberMarker, maxParts⟩

/-- The arms for a `PUT` that is not a part of an upload. -/
def classifyPut (bucket key : Bytes) (query : QueryParams) (headers : HeaderMap) :
    Except S3Error Operation :=
  if (headers.get (ascii "x-amz-copy-source")).isSome then do
    return .copyObject bucket key (← parseCopySource headers)
  else do
    validPutQuery query
    return .putObject bucket key

def classifyObject (method bucket key : Bytes) (query : QueryParams) (headers : HeaderMap) :
    Except S3Error Operation := do
  let uploadId ← optionalOne query "uploadId"
  let versionId ← optionalI64 query "versionId"
  let partNumber ← optionalI32 query "partNumber"
  if method = ascii "POST" then
    if ← hasFlag query "uploads" then return .createMultipartUpload bucket key
    match uploadId with
    | some uploadId =>
        validateMultipartUploadId uploadId
        return .completeMultipartUpload bucket key uploadId
    | none =>
        if ← hasFlag query "restore" then
          let versionId ← okOr (invalidArgument "restore requires versionId") versionId
          return .restoreObject bucket key versionId
        throw unsupported
  else if method = ascii "PUT" then
    match uploadId, partNumber with
    | some uploadId, some partNumber =>
        ensure (1 ≤ partNumber ∧ partNumber ≤ 10000)
          (invalidArgument "partNumber must be 1..10000")
        return .uploadPart bucket key uploadId partNumber
    | _, _ => classifyPut bucket key query headers
  else if method = ascii "DELETE" then
    match uploadId with
    | some uploadId =>
        validateMultipartUploadId uploadId
        return .abortMultipartUpload bucket key uploadId
    | none =>
        onlyVersionQuery query "DeleteObject"
        return .deleteObject bucket key versionId
  else if method = ascii "GET" then
    match uploadId with
    | some uploadId => classifyListParts bucket key uploadId query
    | none =>
        onlyVersionQuery query "GetObject"
        return .getObject bucket key versionId
  else if method = ascii "HEAD" then
    onlyVersionQuery query "HeadObject"
    return .headObject bucket key versionId
  else throw unsupported

def classify (request : RequestHead) : Except S3Error Operation := do
  let path ← asInvalidRequest (parsePathStyle request.target.rawPath)
  match path.bucket with
  | none =>
      if request.method = ascii "GET" ∧ request.target.query.pairs = [] then
        return .listBuckets
      else throw unsupported
  | some bucket =>
      match path.key.filter nonempty with
      | some key =>
          classifyObject request.method bucket key request.target.query request.headers
      | none => classifyBucket request.method bucket request.target.query

end Pgs3.S3
