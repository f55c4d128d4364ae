import Pgs3.Concurrent.Catalog

/-!
# The calls, statement by statement, with the locks they take

The functions of `sql/bootstrap.sql` again, this time with their locks and as sequences of
statements that other transactions can come between: every statement of a `VOLATILE` PL/pgSQL
function reads what is committed when it starts.

* A row lock is a request for the row before the statement that needs it, in the mode that
  PostgreSQL takes: a trigger's `UPDATE pgs3.blob` takes `FOR NO KEY UPDATE`, a foreign key
  check `FOR KEY SHARE`, and an `INSERT … ON CONFLICT DO NOTHING` waits for another inserter of
  the same row, as the `FOR UPDATE` that follows it does.
* An `UPDATE` or `DELETE` finds its rows, locks them, and looks again at those it had to wait
  for.
* Row locks on `pgs3.object` and `pgs3.bucket` are left out: the advisory locks come first.
* What the server computes from the staged bytes of an upload is an argument of a completion
  (`Staged`).  Those checks of a completion that compare a client's checksums and ETags with
  staged content are left out, because they can only raise an error, and any transaction may
  be rolled back at any time.

`Serial.lean` compares the direct object calls with those of `Objects.lean`.
-/

namespace Pgs3.Concurrent

open Foundation Foundation.Locks
open Foundation.Locks.Call (view next emit ask orRaise ofExcept raiseIf whenever each)

/-! ## 1. Names, locks and checks -/

def lockBucketLifecycle (name : Text) (exclusive : Bool) : CatalogCall Unit :=
  ask (lifecycleLock name) (if exclusive then .exclusive else .shared)

def lockKey (bucketId : Nat) (key : Text) : CatalogCall Unit :=
  ask (keyLock bucketId key) .exclusive

def Catalog.visible (s : Catalog) (c : Context) (name : Text) : Option BucketRow :=
  s.bucket.find? fun b => b.name = name ∧ c.hasRole c.actor b.owner

def bucketIdOf (c : Context) (name : Text) : CatalogCall Nat := do
  let s ← view
  let b ← orRaise (s.visible c name) (noSuchBucket name)
  pure b.bucketId

def bucketIdForChild (c : Context) (name : Text) (expected : Option Nat) : CatalogCall Nat := do
  lockBucketLifecycle name false
  let id ← bucketIdOf c name
  raiseIf (∃ e ∈ expected, id ≠ e) (noSuchBucket name)
  pure id

def validateBucketName (name : Text) : CatalogCall Unit :=
  raiseIf (validBucketName name = false)
    ⟨.«22023», "InvalidBucketName", some .InvalidBucketName⟩

def validateKey (key : Text) : CatalogCall Unit :=
  raiseIf (octetLength key < 1 ∨ 1024 < octetLength key)
    (invalidParameter "object keys must contain between 1 and 1024 UTF-8 bytes")

/-! ## 2. Blobs -/

def Catalog.sizeOf (s : Catalog) (k : Bytes) : Option Nat :=
  (s.blob.find? fun b => b.1 = k).map (·.2)

def checkBlobKey (k : Bytes) (constraint : String) : CatalogCall Unit := do
  ask (.blob k) .keyShare
  let s ← view
  raiseIf (s.sizeOf k = none) (foreignKeyViolation constraint)

/-- A trigger's `UPDATE pgs3.blob SET refcount = …`. -/
def updateRefcount (k : Bytes) : CatalogCall Unit := ask (.blob k) .noKeyUpdate

/-- Insert the row unless its digest is taken, lock whatever row holds the digest and compare
    the size.  Was the row inserted? -/
def claimBlob (k : Bytes) (size : Nat) : CatalogCall Bool := do
  ask (.blob k) .update
  let s ← view
  match s.sizeOf k with
  | none => do
      emit (.insertBlob k size)
      pure true
  | some existing => do
      raiseIf (existing ≠ size) (corrupted "SHA-256 collision with different blob size")
      pure false

def ensureBlob (k : Bytes) (size : Nat) : CatalogCall Bytes := do
  let _ ← claimBlob k size
  pure k

/-- `INSERT INTO pgs3.blob_extent` of one row: its foreign keys and its trigger. -/
def insertBlobExtent (final source : Bytes) : CatalogCall Unit := do
  raiseIf (final = source) (checkViolation "blob_extent_not_self_referential")
  checkBlobKey final "blob_extent_final_blob_id_fkey"
  checkBlobKey source "blob_extent_source_blob_id_fkey"
  updateRefcount source

def storeComposite (k : Bytes) (size : Nat) (sources : List Bytes) : CatalogCall Bytes := do
  let inserted ← claimBlob k size
  whenever (inserted = true) (each (insertBlobExtent k) sources)
  pure k

def Catalog.stagedChunks (s : Catalog) (u : Uuid) (part : Nat) : List UploadChunkRow :=
  orderBy (·.seq) (s.uploadChunk.filter fun r => r.uploadId = u ∧ r.partNumber = part)

def Catalog.requestedParts (s : Catalog) (u : Uuid) (parts : List Nat) : List UploadPartRow :=
  parts.filterMap fun n => s.uploadPart.find? fun p => p.uploadId = u ∧ p.partNumber = n

def ensureCompositeBlob (k : Bytes) (size : Nat) (u : Uuid) (parts : List Nat) :
    CatalogCall Bytes := do
  let s ← view
  let requested := s.requestedParts u parts
  raiseIf (requested.length ≠ parts.length ∨ (requested.map (·.size)).sum ≠ size)
    (corrupted "composite source parts changed during completion")
  storeComposite k size (requested.map (·.sha256))

def ensureStagedBlob (k : Bytes) (size : Nat) (u : Uuid) (part : Nat) : CatalogCall Bytes := do
  let s ← view
  let staged := s.stagedChunks u part
  raiseIf ((staged.map (·.size)).sum ≠ size) (corrupted "staged chunks changed during publication")
  storeComposite k size (staged.map (·.blobId))

/-! ## 3. Publication -/

/-- `INSERT INTO pgs3.object` of one row: its foreign keys and its trigger. -/
def insertObject (bucket : Text) (row : ObjectRow) : CatalogCall Unit := do
  let s ← view
  raiseIf (∀ b ∈ s.bucket, b.bucketId ≠ row.bucketId) (foreignKeyViolation "object_bucket_id_fkey")
  match row.blobId with
  | none => emit (.insertObjects bucket [row])
  | some k => do
      checkBlobKey k "object_blob_id_fkey"
      updateRefcount k
      emit (.insertObjects bucket [row])

def Catalog.latestRow (s : Catalog) (bucketId : Nat) (key : Text) : Option ObjectRow :=
  s.object.find? (isLatestOf bucketId key)

/-- The statements that end every publication. -/
def insertLatest (c : Context) (bucketId : Nat) (bucket key : Text) (payload : Option Payload)
    (contentType : Option Text) («meta» : Jsonb) : CatalogCall Unit := do
  let s ← view
  emit (.markLatest bucketId key
    ((s.object.filter (isLatestOf bucketId key)).map (·.versionId)) false)
  let versionId ← next .versionId
  insertObject bucket
    ⟨bucketId, key, versionId, true, payload, contentType, «meta», c.now, c.actor⟩

def checkLatest (bucketId : Nat) (key : Text) (ifNoneMatch ifMatch : Option Text) :
    CatalogCall Unit := do
  let s ← view
  ofExcept (checkWritePreconditions (s.latestRow bucketId key) ifNoneMatch ifMatch)

def commitBodyLocked (c : Context) (bucketId : Nat) (bucket key : Text) (size : Nat)
    (sha256 : Bytes) (etag : Text) (contentType : Option Text) («meta» : Jsonb)
    (ifNoneMatch ifMatch : Option Text) : CatalogCall Unit := do
  let _ ← bucketIdForChild c bucket (some bucketId)
  validateKey key
  raiseIf (sha256.length ≠ 32) (invalidParameter "server SHA-256 is invalid")
  raiseIf («meta».isObject = false) notAnObject
  raiseIf (maxObjectSize < size) entityTooLarge
  lockKey bucketId key
  checkLatest bucketId key ifNoneMatch ifMatch
  let blobId ← ensureBlob sha256 size
  insertLatest c bucketId bucket key (some ⟨size, lower etag, blobId⟩) contentType «meta»

def commitCanonicalLocked (c : Context) (bucketId : Nat) (bucket key : Text) (size : Nat)
    (sha256 : Bytes) (etag : Text) (blobId : Bytes) (contentType : Option Text) («meta» : Jsonb)
    (ifNoneMatch ifMatch : Option Text) : CatalogCall Unit := do
  let _ ← bucketIdForChild c bucket (some bucketId)
  validateKey key
  raiseIf (maxObjectSize < size ∨ sha256.length ≠ 32 ∨ blobId ≠ sha256)
    (invalidParameter "invalid canonical blob publication")
  raiseIf («meta».isObject = false) notAnObject
  ask (.blob blobId) .keyShare
  let s ← view
  raiseIf (s.sizeOf blobId ≠ some size)
    (corrupted "canonical blob is missing or has the wrong size")
  lockKey bucketId key
  checkLatest bucketId key ifNoneMatch ifMatch
  insertLatest c bucketId bucket key (some ⟨size, lower etag, blobId⟩) contentType «meta»

def commitReferenceLocked (c : Context) (bucketId : Nat) (bucket key : Text)
    (source : ObjectRow) (contentType : Option Text) («meta» : Jsonb)
    (ifNoneMatch ifMatch : Option Text) : CatalogCall Unit := do
  let _ ← bucketIdForChild c bucket (some bucketId)
  validateKey key
  let payload ← orRaise source.payload
    ⟨.P3K01, "NoSuchKey: source is a delete marker", some .NoSuchKey⟩
  raiseIf («meta».isObject = false) notAnObject
  lockKey bucketId key
  checkLatest bucketId key ifNoneMatch ifMatch
  ask (.blob payload.sha256) .keyShare
  let s ← view
  raiseIf (s.sizeOf payload.sha256 = none) (corrupted "source references a missing blob")
  insertLatest c bucketId bucket key (some payload) contentType «meta»

/-! ## 4. Direct object calls -/

def put (H : Digests) (c : Context) (r : PutRequest) : CatalogCall Unit := do
  let body ← orRaise r.body ⟨.«22004», "object body cannot be NULL", none⟩
  let bucketId ← bucketIdForChild c r.bucket none
  raiseIf (∃ sum ∈ r.checksumSha256, sum ≠ H.sha256 body) (badDigest "SHA-256 mismatch")
  commitBodyLocked c bucketId r.bucket r.key body.length (H.sha256 body) (hex (H.md5 body))
    r.contentType (metaOrEmpty r.meta) r.ifNoneMatch r.ifMatch

/-- Delete a version of a key, if it exists; when it was the latest one, promote the
    greatest of those that remain. -/
def removeVersion (bucketId : Nat) (key : Text) (v : Int) : CatalogCall Unit := do
  let s ← view
  match s.object.find? (isVersionOf bucketId key v) with
  | none => pure ()
  | some deleted => do
      emit (.deleteObject bucketId key deleted.versionId)
      each updateRefcount deleted.blobId.toList
      whenever (deleted.isLatest = true) do
        let s ← view
        emit (.markLatest bucketId key (greatestVersion s.object bucketId key).toList true)

/-- `delete`, once the bucket is known. -/
def deleteFrom (c : Context) (bucketId : Nat) (bucket key : Text) (version : Option Int) :
    CatalogCall Unit := do
  validateKey key
  lockKey bucketId key
  match version with
  | none => insertLatest c bucketId bucket key none none (.object [])
  | some v => removeVersion bucketId key v

def delete (c : Context) (bucket key : Text) (version : Option Int) : CatalogCall Unit := do
  let bucketId ← bucketIdForChild c bucket none
  deleteFrom c bucketId bucket key version

def checkDeletion (request : Option Text × Option Int) : CatalogCall Unit := do
  raiseIf (request.1 = none) (invalidParameter "DeleteObjects keys cannot be NULL")
  validateKey (request.1.getD [])
  raiseIf (∃ v ∈ request.2, v ≤ 0) (invalidParameter "DeleteObjects version IDs must be positive")

/-- `SELECT DISTINCT key COLLATE "C" … ORDER BY key COLLATE "C"`. -/
def distinctKeys (keys : List (Option Text)) : List Text :=
  orderBy id (keys.map fun key => key.getD []).dedup

def deleteMany (c : Context) (bucket : Text) (keys : List (Option Text))
    (versions : List (Option Int)) : CatalogCall Unit := do
  let bucketId ← bucketIdForChild c bucket none
  raiseIf (keys.length ≠ versions.length) (invalidParameter
    "DeleteObjects key and version arrays must be one-dimensional and have equal length")
  each checkDeletion (keys.zip versions)
  each (lockKey bucketId) (distinctKeys keys)
  each (fun request => delete c bucket (request.1.getD []) request.2) (keys.zip versions)

/-- The two keys of a copy, in the order of their bucket ids and then of the keys; once, if
    they are the same. -/
def lockTwoKeys (sourceId destinationId : Nat) (sourceKey destinationKey : Text) :
    CatalogCall Unit :=
  if sourceId < destinationId ∨ (sourceId = destinationId ∧ sourceKey ≤ destinationKey) then do
    lockKey sourceId sourceKey
    whenever (sourceId ≠ destinationId ∨ sourceKey ≠ destinationKey)
      (lockKey destinationId destinationKey)
  else do
    lockKey destinationId destinationKey
    lockKey sourceId sourceKey

def copy (c : Context) (r : CopyRequest) : CatalogCall Unit := do
  let sourceId ← bucketIdOf c r.sourceBucket
  let destinationId ← bucketIdForChild c r.destinationBucket none
  validateKey r.sourceKey
  validateKey r.destinationKey
  lockTwoKeys sourceId destinationId r.sourceKey r.destinationKey
  let chosen : ObjectRow → Bool := match r.sourceVersionId with
    | none => isLatestOf sourceId r.sourceKey
    | some v => isVersionOf sourceId r.sourceKey v
  let s ← view
  let source ← orRaise (s.object.find? fun o => chosen o && !o.deleteMarker)
    ⟨.P3K01, "NoSuchKey: " ++ String.ofList r.sourceKey,
      some (if r.sourceVersionId.isNone then .NoSuchKey else .NoSuchVersion)⟩
  raiseIf (∃ t ∈ r.sourceIfMatch, some (normalizeEtag t) ≠ source.etag)
    (preconditionFailed "copy source If-Match")
  commitReferenceLocked c destinationId r.destinationBucket r.destinationKey source
    (r.contentType.or source.contentType) (r.meta.getD source.meta) r.ifNoneMatch r.ifMatch

def restore (c : Context) (bucket key : Text) (version : Int) (ifMatch : Option Text) :
    CatalogCall Unit := do
  let bucketId ← bucketIdForChild c bucket none
  validateKey key
  lockKey bucketId key
  let s ← view
  let source ← orRaise (s.object.find? fun o => isVersionOf bucketId key version o && !o.deleteMarker)
    ⟨.P3K01, "NoSuchVersion", some .NoSuchVersion⟩
  commitReferenceLocked c bucketId bucket key source source.contentType source.meta none ifMatch

/-! ## 5. Buckets -/

/-- `INSERT INTO pgs3.bucket`, with the handler that both callers have for a name that is
    taken. -/
def insertBucket (c : Context) (name : Text) (config : Jsonb) : CatalogCall Nat := do
  let id ← next .bucketId
  let s ← view
  raiseIf (∃ b ∈ s.bucket, b.name = name) (bucketAlreadyExists name)
  emit (.insertBucket ⟨id, name, c.actor, c.now, config⟩)
  pure id

def createBucket (c : Context) (name : Text) (config : Jsonb) : CatalogCall Unit := do
  validateBucketName name
  raiseIf (config.isObject = false) (invalidParameter "bucket config must be a JSON object")
  lockBucketLifecycle name true
  let s ← view
  match s.bucket.find? fun b => b.name = name with
  | some b =>
      raiseIf (¬ (b.owner = c.actor ∧ inDefaultRegion b.config ∧ inDefaultRegion config))
        (bucketAlreadyExists name)
  | none => do
      let _ ← insertBucket c name config

/-- What the cascades from an upload row delete: the staged chunks, then the parts, and the
    row triggers of both. -/
def cascadeUpload (u : Uuid) : CatalogCall Unit := do
  let s ← view
  emit (.deleteUpload u)
  each updateRefcount ((s.uploadChunk.filter fun r => r.uploadId = u).map (·.blobId))
  each updateRefcount ((s.uploadPart.filter fun r => r.uploadId = u).map (·.sha256))

/-- `DELETE FROM pgs3.upload WHERE bucket_id = id`: all rows are locked before a cascade
    runs. -/
def deleteUploadsOf (bucketId : Nat) : CatalogCall Unit := do
  let s ← view
  let uploads := (s.upload.filter fun r => r.bucketId = bucketId).map (·.uploadId)
  each (fun u => ask (.upload u) .update) uploads
  each cascadeUpload uploads

def deleteBucketRow (bucketId : Nat) : CatalogCall Unit := do
  let s ← view
  raiseIf (∃ o ∈ s.object, o.bucketId = bucketId) (foreignKeyViolation "object_bucket_id_fkey")
  raiseIf (∃ r ∈ s.upload, r.bucketId = bucketId) (foreignKeyViolation "upload_bucket_id_fkey")
  emit (.deleteBucket bucketId)

def deleteBucket (c : Context) (name : Text) : CatalogCall Unit := do
  lockBucketLifecycle name true
  let id ← bucketIdOf c name
  let s ← view
  raiseIf (∃ o ∈ s.object, o.bucketId = id) ⟨.P3F01, "BucketNotEmpty", some .BucketNotEmpty⟩
  deleteUploadsOf id
  deleteBucketRow id

/-- The shared lock of the source and the exclusive one of the destination, in the order of
    the names; one exclusive lock, if they are the same. -/
def lockForkNames (source destination : Text) : CatalogCall Unit :=
  if source < destination then do
    lockBucketLifecycle source false
    lockBucketLifecycle destination true
  else if destination < source then do
    lockBucketLifecycle destination true
    lockBucketLifecycle source false
  else lockBucketLifecycle source true

/-- The rows that the `SELECT` of `fork_bucket` produces, each with a version id of its own. -/
def forkRows (c : Context) (destinationId : Nat) : List ObjectRow → CatalogCall (List ObjectRow)
  | [] => pure []
  | o :: rest => do
      let versionId ← next .versionId
      let rows ← forkRows c destinationId rest
      pure ({ o with bucketId := destinationId, versionId := versionId, isLatest := true,
                     createdAt := c.now, createdBy := c.actor } :: rows)

/-- The bulk statement of `fork_bucket`: one snapshot, no foreign keys and no triggers, and a
    set-wise update of the reference counts. -/
def forkInto (c : Context) (sourceId destinationId : Nat) (destination : Text) :
    CatalogCall Unit := do
  let s ← view
  let rows ← forkRows c destinationId
    (s.object.filter fun o => o.bucketId = sourceId ∧ o.isLatest)
  emit (.insertObjects destination rows)
  each updateRefcount (rows.filterMap (·.blobId)).dedup

def forkBucket (c : Context) (source destination : Text) (config : Option Jsonb) :
    CatalogCall Unit := do
  validateBucketName destination
  raiseIf (∃ j ∈ config, j.isObject = false) (invalidParameter "bucket config must be a JSON object")
  lockForkNames source destination
  let sourceId ← bucketIdOf c source
  let s ← view
  let sourceRow ← orRaise (s.bucket.find? fun b => b.bucketId = sourceId)
    ⟨.P0002, "query returned no rows", none⟩
  let destinationId ← insertBucket c destination (config.getD sourceRow.config)
  forkInto c sourceId destinationId destination

/-! ## 6. Uploads -/

def beginUpload (c : Context) (r : BeginUploadRequest) : CatalogCall Unit := do
  let bucketId ← bucketIdForChild c r.bucket none
  validateKey r.key
  raiseIf (r.meta.isObject = false) notAnObject
  raiseIf (∃ sum ∈ r.expectedSha256, sum.length ≠ 32) (invalidParameter "SHA-256 must be 32 bytes")
  ofExcept (checkWritePreconditions none r.ifNoneMatch none)
  let s ← view
  raiseIf (∀ b ∈ s.bucket, b.bucketId ≠ bucketId) (foreignKeyViolation "upload_bucket_id_fkey")
  emit (.insertUpload ⟨c.uuid, bucketId, r.key, r.multipart, r.contentType, r.meta, r.ifNoneMatch,
    r.ifMatch, r.expectedSha256, c.actor, .pending, c.now, c.now, c.now + fiveMinutes⟩)

def Catalog.pendingUpload (s : Catalog) (u : Uuid) : Option UploadRow :=
  s.upload.find? fun r => r.uploadId = u ∧ r.state = .pending

/-- `_upload_for_update`: find the pending upload of a bucket the caller may act for, lock its
    row, look at the newest version of the row again, and renew the lease. -/
def uploadForUpdate (c : Context) (u : Uuid) : CatalogCall UploadRow := do
  let s ← view
  let _ ← orRaise ((s.pendingUpload u).filter fun r =>
    s.bucket.any fun b => b.bucketId = r.bucketId ∧ c.hasRole c.actor b.owner) noSuchUpload
  ask (.upload u) .noKeyUpdate
  let s ← view
  let row ← orRaise (s.pendingUpload u) noSuchUpload
  emit (.renewUpload u (c.now + fiveMinutes))
  pure { row with leaseExpiresAt := c.now + fiveMinutes }

def uploadForUpdateAt (c : Context) (u : Uuid) (bucket key : Text)
    (requireMultipart : Option Bool) : CatalogCall UploadRow := do
  let row ← uploadForUpdate c u
  let s ← view
  raiseIf ((∀ b ∈ s.bucket, ¬ (b.bucketId = row.bucketId ∧ b.name = bucket)) ∨ row.key ≠ key ∨
    ∃ m ∈ requireMultipart, row.multipart ≠ m) noSuchUpload
  pure row

/-- `SELECT b.name INTO STRICT … WHERE b.bucket_id = v_upload.bucket_id`. -/
def bucketNameOf (bucketId : Nat) : CatalogCall Text := do
  let s ← view
  let b ← orRaise (s.bucket.find? fun b => b.bucketId = bucketId)
    ⟨.P0002, "query returned no rows", none⟩
  pure b.name

/-- The digest and the ETag that the server computes from what is staged. -/
structure Staged where
  sha256 : Bytes
  etag : Text

/-- The blob of a completion: over the requested parts, or over the staged chunks, which are
    consolidated when they are small.  Its size, too. -/
def storeStaged (c : Context) (upload : UploadRow) (parts : List Int) (staged : Staged) :
    CatalogCall (Nat × Bytes) := do
  let s ← view
  if upload.multipart then do
    raiseIf (parts = []) (invalidPart "InvalidPart: no completed parts")
    raiseIf (10000 < parts.length ∨ (∃ n ∈ parts, n < 1 ∨ 10000 < n) ∨
      strictlyIncreasing parts = false) ⟨.P3P01, "InvalidPartOrder", some .InvalidPartOrder⟩
    let requested := s.requestedParts upload.uploadId (parts.map Int.toNat)
    raiseIf (requested.length ≠ parts.length)
      (invalidPart "InvalidPart: an ETag or part is missing")
    raiseIf (∃ p ∈ requested.dropLast, p.size < minPartSize)
      ⟨.P3P01, "EntityTooSmall: multipart part", some .EntityTooSmall⟩
    let size := (requested.map (·.size)).sum
    let blobId ← ensureCompositeBlob staged.sha256 size upload.uploadId (parts.map Int.toNat)
    pure (size, blobId)
  else do
    let chunks := s.stagedChunks upload.uploadId 0
    raiseIf (chunks ≠ [] ∧ contiguousFromZero chunks = false) missingChunks
    let size := stagedSize chunks
    if (size : Int) ≤ max c.inlineThreshold 0 then do
      let blobId ← ensureBlob staged.sha256 size
      pure (size, blobId)
    else do
      let blobId ← ensureStagedBlob staged.sha256 size upload.uploadId 0
      pure (size, blobId)

/-- Publish, and delete the upload with what is staged under it.  The row has been locked since
    `uploadForUpdate`; only a `FOR KEY SHARE` of another transaction could delay the stronger
    lock of the `DELETE`, and no call takes one on an upload. -/
def publishUpload (c : Context) (upload : UploadRow) (bucket : Text) (size : Nat)
    (staged : Staged) (blobId : Bytes) : CatalogCall Unit := do
  commitCanonicalLocked c upload.bucketId bucket upload.key size staged.sha256 staged.etag blobId
    upload.contentType upload.meta upload.ifNoneMatch upload.ifMatch
  cascadeUpload upload.uploadId

def completeUpload (c : Context) (u : Uuid) (parts : List Int) (checksumSha256 : Option Bytes)
    (staged : Staged) : CatalogCall Unit := do
  let upload ← uploadForUpdate c u
  let bucket ← bucketNameOf upload.bucketId
  emit (.markCompleting u c.now)
  let stored ← storeStaged c upload parts staged
  raiseIf ((∃ sum ∈ upload.expectedSha256, sum ≠ staged.sha256) ∨
    (∃ sum ∈ checksumSha256, sum ≠ staged.sha256)) uploadBadDigest
  publishUpload c upload bucket stored.1 staged stored.2

/-- `_worker_complete_upload`; `staged` is what the bounded readback of a small body gives. -/
def workerCompleteUpload (c : Context) (actor : RoleName) (bucket key : Text) (u : Uuid)
    (checksumSha256 : Option Bytes) (m : Seal) (staged : Staged) : CatalogCall Unit := do
  raiseIf (c.workerMaySet actor = false)
    ⟨.«42501», "worker actor is unavailable or privileged", none⟩
  let c := { c with actor := actor }
  raiseIf (m.sha256.length ≠ 32 ∨ isMd5Hex m.md5 = false ∨ m.chunkBlobIds = [] ∨
      m.chunkBlobIds.length ≠ m.chunkSizes.length)
    (invalidParameter "invalid worker-sealed upload manifest")
  let upload ← uploadForUpdateAt c u bucket key (some false)
  let s ← view
  let chunks := s.stagedChunks u 0
  raiseIf (contiguousFromZero chunks = false ∨ stagedSize chunks ≠ m.size ∨
      chunks.map (·.blobId) ≠ m.chunkBlobIds ∨ chunks.map (·.size) ≠ m.chunkSizes)
    (invalidPart "InvalidPart: sealed upload chunks changed")
  if (m.size : Int) ≤ max c.inlineThreshold 0 then completeUpload c u [] checksumSha256 staged
  else do
    raiseIf ((∃ sum ∈ upload.expectedSha256, sum ≠ m.sha256) ∨
      (∃ sum ∈ checksumSha256, sum ≠ m.sha256)) uploadBadDigest
    let bucket ← bucketNameOf upload.bucketId
    emit (.markCompleting u c.now)
    let blobId ← ensureStagedBlob m.sha256 m.size u 0
    publishUpload c upload bucket m.size ⟨m.sha256, m.md5⟩ blobId

/-! ## 7. Calls -/

inductive ApiCall where
  | createBucket (name : Text) (config : Jsonb)
  | deleteBucket (name : Text)
  | put (r : PutRequest)
  | delete (bucket key : Text) (version : Option Int)
  | deleteMany (bucket : Text) (keys : List (Option Text)) (versions : List (Option Int))
  | copy (r : CopyRequest)
  | restore (bucket key : Text) (version : Int) (ifMatch : Option Text)
  | forkBucket (source destination : Text) (config : Option Jsonb)
  | beginUpload (r : BeginUploadRequest)
  | completeUpload (u : Uuid) (parts : List Int) (checksumSha256 : Option Bytes) (staged : Staged)
  | workerCompleteUpload (actor : RoleName) (bucket key : Text) (u : Uuid)
      (checksumSha256 : Option Bytes) (m : Seal) (staged : Staged)

structure Request where
  context : Context
  call : ApiCall

def Request.body (H : Digests) (r : Request) : CatalogCall Unit :=
  match r.call with
  | .createBucket name config => Concurrent.createBucket r.context name config
  | .deleteBucket name => Concurrent.deleteBucket r.context name
  | .put p => Concurrent.put H r.context p
  | .delete bucket key version => Concurrent.delete r.context bucket key version
  | .deleteMany bucket keys versions => Concurrent.deleteMany r.context bucket keys versions
  | .copy p => Concurrent.copy r.context p
  | .restore bucket key version ifMatch => Concurrent.restore r.context bucket key version ifMatch
  | .forkBucket source destination config =>
      Concurrent.forkBucket r.context source destination config
  | .beginUpload p => Concurrent.beginUpload r.context p
  | .completeUpload u parts sum staged => Concurrent.completeUpload r.context u parts sum staged
  | .workerCompleteUpload actor bucket key u sum m staged =>
      Concurrent.workerCompleteUpload r.context actor bucket key u sum m staged

end Pgs3.Concurrent
