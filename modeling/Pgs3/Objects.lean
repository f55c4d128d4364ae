import Pgs3.Hash

/-!
# Buckets and object versions

The publication functions (`_commit_body_locked`, `_commit_canonical_locked`,
`_commit_reference_locked`), the bucket lifecycle (`create_bucket`, `delete_bucket`) and
the direct object calls (`put`, `delete`, `delete_many`, `copy`, `restore`,
`fork_bucket`).  Advisory locks have no effect on one transaction alone; the interleaving
models add them.  `pg_notify` is left out.
-/

namespace Pgs3

open Foundation Foundation.Tx

/-! ## 1. Text and JSON helpers -/

/-- `lower(t)` on the ASCII text of an ETag. -/
def lower (t : Text) : Text := t.map Char.toLower

/-- `trim(BOTH c FROM t)`. -/
def trimBoth (c : Char) (t : Text) : Text :=
  ((t.dropWhile (· = c)).reverse.dropWhile (· = c)).reverse

def normalizeEtag (etag : Text) : Text := trimBoth '"' (trimBoth ' ' etag)

namespace Jsonb

/-- `jsonb_typeof(j) = 'object'`. -/
def isObject : Jsonb → Bool
  | .object _ => true
  | _ => false

/-- `j -> key`. -/
def get? : Jsonb → Text → Option Jsonb
  | .object fields, key => (fields.find? fun f => f.1 = key).map (·.2)
  | _, _ => none

/-- `jsonb_set(j, ARRAY[key], to_jsonb(value), true)`. -/
def setText : Jsonb → Text → Text → Jsonb
  | .object fields, key, value =>
      .object (fields.filter (fun f => f.1 ≠ key) ++ [(key, .string value)])
  | j, _, _ => j

end Jsonb

/-- `coalesce(nullif(config ->> 'region', ''), 'us-east-1') = 'us-east-1'`; the text of a JSON
    value that is no string is another one. -/
def inDefaultRegion (config : Jsonb) : Bool :=
  match config.get? "region".toList with
  | none | some .null => true
  | some (.string t) => t = [] ∨ t = "us-east-1".toList
  | some _ => false

/-! ## 2. Names and preconditions -/

def lowerOrDigit (c : Char) : Bool := ('a' ≤ c ∧ c ≤ 'z') ∨ ('0' ≤ c ∧ c ≤ '9')

/-- `p_name ~ '^[0-9]{1,3}(\.[0-9]{1,3}){3}$'`. -/
def looksLikeIPv4 (name : Text) : Bool :=
  let groups := name.splitOn '.'
  groups.length = 4 ∧ ∀ g ∈ groups, 1 ≤ g.length ∧ g.length ≤ 3 ∧ g.all Char.isDigit

def validBucketName (name : Text) : Bool :=
  3 ≤ octetLength name ∧ octetLength name ≤ 63 ∧
    name.head?.any lowerOrDigit ∧ name.getLast?.any lowerOrDigit ∧
    name.all (fun c => lowerOrDigit c ∨ c = '.' ∨ c = '-') ∧
    ¬ "..".toList <:+: name ∧ ¬ ".-".toList <:+: name ∧ ¬ "-.".toList <:+: name ∧
    ¬ looksLikeIPv4 name

def validateBucketName (name : Text) : DbTx Unit :=
  raiseIf (validBucketName name = false)
    ⟨.«22023», "InvalidBucketName", some .InvalidBucketName⟩

def validateKey (key : Text) : DbTx Unit :=
  raiseIf (octetLength key < 1 ∨ 1024 < octetLength key)
    (invalidParameter "object keys must contain between 1 and 1024 UTF-8 bytes")

def noSuchBucket (name : Text) : PgError :=
  ⟨.P3B01, "NoSuchBucket: " ++ String.ofList name, some .NoSuchBucket⟩

def bucketAlreadyExists (name : Text) : PgError :=
  ⟨.P3E01, "BucketAlreadyExists: " ++ String.ofList name, some .BucketAlreadyExists⟩

def bucketIdOf (c : Context) (name : Text) : DbTx Nat := do
  let found := (← get).bucket.rows.find? fun b => b.name = name ∧ c.hasRole c.actor b.owner
  let b ← orRaise found (noSuchBucket name)
  pure b.bucketId

def bucketIdForChild (c : Context) (name : Text) (expected : Option Nat) : DbTx Nat := do
  let id ← bucketIdOf c name
  raiseIf (∃ e ∈ expected, id ≠ e) (noSuchBucket name)
  pure id

def isLatestOf (bucketId : Nat) (key : Text) (o : ObjectRow) : Bool :=
  o.bucketId = bucketId ∧ o.key = key ∧ o.isLatest

def isVersionOf (bucketId : Nat) (key : Text) (version : Int) (o : ObjectRow) : Bool :=
  o.bucketId = bucketId ∧ o.key = key ∧ (o.versionId : Int) = version

def Db.latestRow (s : Db) (bucketId : Nat) (key : Text) : Option ObjectRow :=
  s.object.rows.find? (isLatestOf bucketId key)

def preconditionFailed (what : String) : PgError :=
  ⟨.P3C01, "PreconditionFailed: " ++ what, some .PreconditionFailed⟩

/-- `_check_write_preconditions`; `current` is the latest row, if there is one. -/
def checkWritePreconditions (current : Option ObjectRow) (ifNoneMatch ifMatch : Option Text) :
    Except PgError Unit :=
  let live := current.filter fun o => !o.deleteMarker
  if ∃ t ∈ ifNoneMatch, normalizeEtag t ≠ ['*'] then
    .error (invalidParameter "write If-None-Match only supports *")
  else if ifNoneMatch.isSome ∧ live.isSome then .error (preconditionFailed "If-None-Match")
  else if ∃ t ∈ ifMatch, live.bind (·.etag) ≠ some (normalizeEtag t) then
    .error (preconditionFailed "If-Match")
  else .ok ()

/-! ## 3. Publication -/

/-- `object_info`: a version together with its bucket's name. -/
structure ObjectInfo where
  bucket : Text
  object : ObjectRow

def notAnObject : PgError := invalidParameter "object metadata must be a JSON object"

/-- The statements that end every publication: demote the latest version, insert the new
    one under the next version id. -/
def insertLatest (c : Context) (bucketId : Nat) (key : Text) (payload : Option Payload)
    (contentType : Option Text) («meta» : Jsonb) : DbTx ObjectRow := do
  updateIsLatest (isLatestOf bucketId key) false
  let versionId ← nextVersionId
  let row : ObjectRow :=
    ⟨bucketId, key, versionId, true, payload, contentType, «meta», c.now, c.actor⟩
  insertObject row
  pure row

/-- Read the latest version and check the write conditions against it. -/
def checkLatest (bucketId : Nat) (key : Text) (ifNoneMatch ifMatch : Option Text) :
    DbTx Unit := do
  let current := (← get).latestRow bucketId key
  reading fun _ => checkWritePreconditions current ifNoneMatch ifMatch

def maxObjectSize : Nat := 5368709120

def entityTooLarge : PgError := ⟨.P3S01, "EntityTooLarge", some .EntityTooLarge⟩

def commitBodyLocked (c : Context) (bucketId : Nat) (bucket key : Text) (body sha256 : Bytes)
    (etag : Text) (contentType : Option Text) («meta» : Jsonb)
    (ifNoneMatch ifMatch : Option Text) : DbTx ObjectInfo := do
  let _ ← bucketIdForChild c bucket (some bucketId)
  validateKey key
  raiseIf (sha256.length ≠ 32) (invalidParameter "server SHA-256 is invalid")
  raiseIf («meta».isObject = false) notAnObject
  raiseIf (maxObjectSize < body.length) entityTooLarge
  checkLatest bucketId key ifNoneMatch ifMatch
  let blobId ← ensureBlob c sha256 body
  let row ← insertLatest c bucketId key (some ⟨body.length, lower etag, blobId⟩) contentType «meta»
  pure ⟨bucket, row⟩

def commitCanonicalLocked (c : Context) (bucketId : Nat) (bucket key : Text) (size : Nat)
    (sha256 : Bytes) (etag : Text) (blobId : Bytes) (contentType : Option Text) («meta» : Jsonb)
    (ifNoneMatch ifMatch : Option Text) : DbTx ObjectInfo := do
  let _ ← bucketIdForChild c bucket (some bucketId)
  validateKey key
  raiseIf (maxObjectSize < size ∨ sha256.length ≠ 32 ∨ blobId ≠ sha256)
    (invalidParameter "invalid canonical blob publication")
  raiseIf («meta».isObject = false) notAnObject
  let blob := (← get).blob.lookup blobId
  raiseIf (blob.map (·.size) ≠ some size)
    (corrupted "canonical blob is missing or has the wrong size")
  checkLatest bucketId key ifNoneMatch ifMatch
  let row ← insertLatest c bucketId key (some ⟨size, lower etag, blobId⟩) contentType «meta»
  pure ⟨bucket, row⟩

def commitReferenceLocked (c : Context) (bucketId : Nat) (bucket key : Text)
    (source : ObjectRow) (contentType : Option Text) («meta» : Jsonb)
    (ifNoneMatch ifMatch : Option Text) : DbTx ObjectInfo := do
  let _ ← bucketIdForChild c bucket (some bucketId)
  validateKey key
  let payload ← orRaise source.payload
    ⟨.P3K01, "NoSuchKey: source is a delete marker", some .NoSuchKey⟩
  raiseIf («meta».isObject = false) notAnObject
  checkLatest bucketId key ifNoneMatch ifMatch
  raiseIf (((← get).blob.lookup payload.sha256).isNone)
    (corrupted "source references a missing blob")
  let row ← insertLatest c bucketId key (some payload) contentType «meta»
  pure ⟨bucket, row⟩

/-! ## 4. Buckets -/

/-- `EXCEPTION WHEN unique_violation THEN RAISE … BucketAlreadyExists`. -/
def onUniqueViolation (e : PgError) (raised : PgError) : PgError :=
  if raised.sqlstate = .«23505» then e else raised

def createBucket (c : Context) (name : Text) (config : Jsonb) : DbTx Nat :=
  mapError (onUniqueViolation (bucketAlreadyExists name)) do
    validateBucketName name
    raiseIf (config.isObject = false) (invalidParameter "bucket config must be a JSON object")
    match (← get).bucket.rows.find? fun b => b.name = name with
    | some b => do
        -- a same-owner CreateBucket in the default region reopens the bucket
        raiseIf (¬ (b.owner = c.actor ∧ inDefaultRegion b.config ∧ inDefaultRegion config))
          (bucketAlreadyExists name)
        pure b.bucketId
    | none => insertBucket name c.actor c.now config

def deleteBucket (c : Context) (name : Text) : DbTx Unit := do
  let id ← bucketIdOf c name
  let s ← get
  raiseIf (∃ o ∈ s.object.rows, o.bucketId = id) ⟨.P3F01, "BucketNotEmpty", some .BucketNotEmpty⟩
  (s.upload.rows.filter fun u => u.bucketId = id).forM fun u => deleteUpload u.uploadId
  deleteBucketRow id

/-! ## 5. Direct object calls -/

/-- `coalesce(p_meta, '{}'::jsonb)`. -/
def metaOrEmpty («meta» : Option Jsonb) : Jsonb := «meta».getD (.object [])

def badDigest (message : String) : PgError := ⟨.P3H01, "BadDigest: " ++ message, some .BadDigest⟩

structure PutRequest where
  bucket : Text
  key : Text
  body : Option Bytes
  contentType : Option Text
  «meta» : Option Jsonb
  ifNoneMatch : Option Text
  ifMatch : Option Text
  checksumSha256 : Option Bytes

def put (H : Digests) (c : Context) (r : PutRequest) : DbTx ObjectInfo := do
  let body ← orRaise r.body ⟨.«22004», "object body cannot be NULL", none⟩
  let bucketId ← bucketIdForChild c r.bucket none
  let sha256 ← digest H body
  raiseIf (∃ sum ∈ r.checksumSha256, sum ≠ sha256) (badDigest "SHA-256 mismatch")
  commitBodyLocked c bucketId r.bucket r.key body sha256 (hex (H.md5 body)) r.contentType
    (metaOrEmpty r.meta) r.ifNoneMatch r.ifMatch

structure DeleteResult where
  key : Text
  versionId : Int
  deleteMarker : Bool
  deleted : Bool
deriving DecidableEq, Repr

/-- `ORDER BY r.version_id DESC LIMIT 1` over the versions of a key. -/
def greatestVersion (rows : List ObjectRow) (bucketId : Nat) (key : Text) : Option Nat :=
  ((rows.filter fun o => o.bucketId = bucketId ∧ o.key = key).map (·.versionId)).max?

/-- Delete a version of a key, if it exists; when it was the latest one, promote the
    greatest of those that remain. -/
def removeVersion (bucketId : Nat) (key : Text) (v : Int) : DbTx DeleteResult := do
  match (← get).object.rows.find? (isVersionOf bucketId key v) with
  | none => pure ⟨key, v, false, false⟩
  | some deleted => do
      deleteObjects (isVersionOf bucketId key v)
      let greatest := greatestVersion (← get).object.rows bucketId key
      whenever (deleted.isLatest = true) <| updateIsLatest (fun o =>
        decide (o.bucketId = bucketId ∧ o.key = key ∧ some o.versionId = greatest)) true
      pure ⟨key, v, deleted.deleteMarker, true⟩

def delete (c : Context) (bucket key : Text) (version : Option Int) : DbTx DeleteResult := do
  let bucketId ← bucketIdForChild c bucket none
  validateKey key
  match version with
  | none => do
      let marker ← insertLatest c bucketId key none none (.object [])
      pure ⟨key, marker.versionId, true, true⟩
  | some v => removeVersion bucketId key v

/-- The requests of `delete_many`, executed in order. -/
def deleteEach (c : Context) (bucket : Text) : List (Text × Option Int) → DbTx (List DeleteResult)
  | [] => pure []
  | (key, version) :: rest => do
      let result ← delete c bucket key version
      let results ← deleteEach c bucket rest
      pure (result :: results)

def deleteMany (c : Context) (bucket : Text) (keys : List (Option Text))
    (versions : List (Option Int)) : DbTx (List DeleteResult) := do
  let _ ← bucketIdForChild c bucket none
  raiseIf (keys.length ≠ versions.length) (invalidParameter
    "DeleteObjects key and version arrays must be one-dimensional and have equal length")
  (keys.zip versions).forM fun request => do
    raiseIf (request.1 = none) (invalidParameter "DeleteObjects keys cannot be NULL")
    validateKey (request.1.getD [])
    raiseIf (∃ v ∈ request.2, v ≤ 0)
      (invalidParameter "DeleteObjects version IDs must be positive")
  deleteEach c bucket ((keys.zip versions).map fun request => (request.1.getD [], request.2))

structure CopyRequest where
  sourceBucket : Text
  sourceKey : Text
  destinationBucket : Text
  destinationKey : Text
  sourceVersionId : Option Int
  contentType : Option Text
  «meta» : Option Jsonb
  ifNoneMatch : Option Text
  ifMatch : Option Text
  sourceIfMatch : Option Text

def copy (c : Context) (r : CopyRequest) : DbTx ObjectInfo := do
  let sourceBucketId ← bucketIdOf c r.sourceBucket
  let destinationBucketId ← bucketIdForChild c r.destinationBucket none
  validateKey r.sourceKey
  validateKey r.destinationKey
  let chosen : ObjectRow → Bool := match r.sourceVersionId with
    | none => isLatestOf sourceBucketId r.sourceKey
    | some v => isVersionOf sourceBucketId r.sourceKey v
  let source ← orRaise ((← get).object.rows.find? fun o => chosen o && !o.deleteMarker)
    ⟨.P3K01, "NoSuchKey: " ++ String.ofList r.sourceKey,
      some (if r.sourceVersionId.isNone then .NoSuchKey else .NoSuchVersion)⟩
  raiseIf (∃ t ∈ r.sourceIfMatch, some (normalizeEtag t) ≠ source.etag)
    (preconditionFailed "copy source If-Match")
  commitReferenceLocked c destinationBucketId r.destinationBucket r.destinationKey source
    (r.contentType.or source.contentType) (r.meta.getD source.meta) r.ifNoneMatch r.ifMatch

def restore (c : Context) (bucket key : Text) (version : Int) (ifMatch : Option Text) :
    DbTx ObjectInfo := do
  let bucketId ← bucketIdForChild c bucket none
  validateKey key
  let source ← orRaise
    ((← get).object.rows.find? fun o => isVersionOf bucketId key version o && !o.deleteMarker)
    ⟨.P3K01, "NoSuchVersion", some .NoSuchVersion⟩
  commitReferenceLocked c bucketId bucket key source source.contentType source.meta none ifMatch

/-! ## 6. Forking a bucket -/

/-- The rows that the `SELECT` of `fork_bucket` produces from its snapshot. -/
def forkRows (rows : List ObjectRow) (source destination seq : Nat) (c : Context) :
    List ObjectRow :=
  (rows.filter fun o => o.bucketId = source ∧ o.isLatest).zipIdx.map fun p =>
    { p.1 with bucketId := destination, versionId := seq + p.2 + 1, isLatest := true,
               createdAt := c.now, createdBy := c.actor }

/-- The `INSERT` of `fork_bucket`: `session_replication_role = replica` switches foreign
    keys and triggers off; unique indexes stay. -/
def forkInsert (rows : List ObjectRow) : DbTx Unit := do
  let s ← get
  let object ← orRaise (s.object.insertAll rows) (uniqueViolation "object_pkey")
  raiseIf (¬ LatestUnique object.rows) (uniqueViolation "object_latest_any_uniq")
  modify fun s => { s with
    object := object, objectVersionIdSeq := s.objectVersionIdSeq + rows.length }

/-- The set-wise reference count update of `fork_bucket`. -/
def forkBump (rows : List ObjectRow) : DbTx Unit :=
  addRefcount fun k => objectRefs rows k

/-- Create the destination bucket and fill it with the latest versions of the source. -/
def forkFill (c : Context) (sourceId : Nat) (destination : Text) (config : Jsonb) :
    DbTx (BucketRow × List ObjectRow) := do
  let destinationId ← insertBucket destination c.actor c.now config
  let s ← get
  let rows := forkRows s.object.rows sourceId destinationId s.objectVersionIdSeq c
  forkInsert rows
  pure (⟨destinationId, destination, c.actor, c.now, config⟩, rows)

def forkInto (c : Context) (sourceId : Nat) (destination : Text) (config : Jsonb) :
    DbTx Nat := do
  let filled ← forkFill c sourceId destination config
  forkBump filled.2
  pure filled.2.length

def forkBucket (c : Context) (source destination : Text) (config : Option Jsonb) : DbTx Nat :=
  mapError (onUniqueViolation (bucketAlreadyExists destination)) do
    validateBucketName destination
    raiseIf (∃ j ∈ config, j.isObject = false)
      (invalidParameter "bucket config must be a JSON object")
    let sourceId ← bucketIdOf c source
    let sourceRow ← orRaise ((← get).bucket.lookup sourceId) (noSuchBucket source)
    forkInto c sourceId destination (config.getD sourceRow.config)

end Pgs3
