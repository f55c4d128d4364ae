import Pgs3.Objects

/-!
# Staged and multipart uploads, the worker-sealed calls, and garbage collection

`begin_upload` to `complete_upload`, `_worker_put_chunk` and `_worker_complete_upload`,
`gc_pending_uploads` and `gc_blobs`.  The overloads with a bucket and a key bind an upload
to its route first (`_upload_for_update_at`) and then run the plain function.

A worker-sealed call carries digests that the HTTP worker computed itself.  Here they are
arguments like any other; what it means for them to be true is said where it is assumed.
-/

namespace Pgs3

open Foundation Foundation.Tx

/-! ## 1. Encodings -/

def unhexDigit (c : Char) : Nat :=
  if '0' ≤ c ∧ c ≤ '9' then c.toNat - '0'.toNat
  else if 'a' ≤ c ∧ c ≤ 'f' then c.toNat - 'a'.toNat + 10
  else 0

/-- `decode(_, 'hex')`. -/
def unhex : Text → Bytes
  | hi :: lo :: rest => UInt8.ofNat (unhexDigit hi * 16 + unhexDigit lo) :: unhex rest
  | _ => []

def base64Alphabet : List Char :=
  "ABCDEFGHIJKLMNOPQRSTUVWXYZabcdefghijklmnopqrstuvwxyz0123456789+/".toList

def base64Digit (n : Nat) : Char := base64Alphabet.getD n '='

/-- `encode(_, 'base64')`, without the line breaks PostgreSQL adds after 76 characters:
    a SHA-256 needs 44. -/
def base64 : Bytes → Text
  | a :: b :: c :: rest =>
      base64Digit (a.toNat / 4) :: base64Digit (a.toNat % 4 * 16 + b.toNat / 16)
        :: base64Digit (b.toNat % 16 * 4 + c.toNat / 64) :: base64Digit (c.toNat % 64)
        :: base64 rest
  | [a, b] => [base64Digit (a.toNat / 4), base64Digit (a.toNat % 4 * 16 + b.toNat / 16),
      base64Digit (b.toNat % 16 * 4), '=']
  | [a] => [base64Digit (a.toNat / 4), base64Digit (a.toNat % 4 * 16), '=', '=']
  | [] => []

def decimal (n : Nat) : Text := Nat.toDigits 10 n

/-! ## 2. The upload row -/

def noSuchUpload : PgError := ⟨.P3U01, "NoSuchUpload", some .NoSuchUpload⟩

def invalidPart (message : String) : PgError := ⟨.P3P01, message, some .InvalidPart⟩

def fiveMinutes : Int := 300000000

/-- `_upload_for_update`: lock the pending upload and renew its lease. -/
def uploadForUpdate (c : Context) (u : Uuid) : DbTx UploadRow := do
  let s ← get
  let row ← orRaise ((s.upload.lookup u).filter fun r => r.state = .pending ∧
    ((s.bucket.lookup r.bucketId).any fun b => c.hasRole c.actor b.owner)) noSuchUpload
  updateUpload u (fun r => { r with leaseExpiresAt := c.now + fiveMinutes }) fun _ => rfl
  pure { row with leaseExpiresAt := c.now + fiveMinutes }

/-- `_upload_for_update_at`: the same, for the upload of a given route. -/
def uploadForUpdateAt (c : Context) (u : Uuid) (bucket key : Text)
    (requireMultipart : Option Bool) : DbTx UploadRow := do
  let row ← uploadForUpdate c u
  let named := ((← get).bucket.lookup row.bucketId).any fun b => b.name = bucket
  raiseIf (named = false ∨ row.key ≠ key ∨ ∃ m ∈ requireMultipart, row.multipart ≠ m)
    noSuchUpload
  pure row

/-- `UPDATE pgs3.upload SET updated_at = clock_timestamp()`. -/
def touchUpload (c : Context) (u : Uuid) : DbTx Unit :=
  updateUpload u (fun r => { r with updatedAt := c.now }) fun _ => rfl

/-- `UPDATE pgs3.upload SET state = 'completing', updated_at = clock_timestamp()`. -/
def markCompleting (c : Context) (u : Uuid) : DbTx Unit :=
  updateUpload u (fun r => { r with state := .completing, updatedAt := c.now }) fun _ => rfl

structure BeginUploadRequest where
  bucket : Text
  key : Text
  contentType : Option Text
  «meta» : Jsonb
  multipart : Bool
  ifNoneMatch : Option Text
  ifMatch : Option Text
  expectedSha256 : Option Bytes

def beginUpload (c : Context) (r : BeginUploadRequest) : DbTx Uuid := do
  let bucketId ← bucketIdForChild c r.bucket none
  validateKey r.key
  raiseIf (r.meta.isObject = false) notAnObject
  raiseIf (∃ sum ∈ r.expectedSha256, sum.length ≠ 32)
    (invalidParameter "SHA-256 must be 32 bytes")
  reading fun _ => checkWritePreconditions none r.ifNoneMatch none
  insertUpload ⟨c.uuid, bucketId, r.key, r.multipart, r.contentType, r.meta, r.ifNoneMatch,
    r.ifMatch, r.expectedSha256, c.actor, .pending, c.now, c.now, c.now + fiveMinutes⟩
  pure c.uuid

/-! ## 3. Parts and chunks -/

def ofPart (u : Uuid) (part : Nat) (p : UploadPartRow) : Bool :=
  p.uploadId = u ∧ p.partNumber = part

def chunkOfPart (u : Uuid) (part : Nat) (r : UploadChunkRow) : Bool :=
  r.uploadId = u ∧ r.partNumber = part

def checkPartNumber (part : Int) : DbTx Unit :=
  raiseIf (part < 1 ∨ 10000 < part) (invalidPart "InvalidPart")

def notMultipart : PgError := invalidPart "InvalidPart: upload is not multipart"

def beginPart (c : Context) (u : Uuid) (part : Int) : DbTx Unit := do
  checkPartNumber part
  let upload ← uploadForUpdate c u
  raiseIf (upload.multipart = false) notMultipart
  deleteUploadParts (ofPart u part.toNat)
  deleteUploadChunks (chunkOfPart u part.toNat)
  touchUpload c u

def abortPart (c : Context) (u : Uuid) (part : Int) : DbTx Unit := beginPart c u part

def maxChunk : Nat := 67108864

def chunkTooLarge : PgError :=
  ⟨.P3S01, "EntityTooLarge: upload chunk", some .EntityTooLarge⟩

def putChunk (H : Digests) (c : Context) (u : Uuid) (seq : Int) (data : Option Bytes)
    (part : Int) (checksumSha256 : Option Bytes) : DbTx Nat := do
  let data ← orRaise data ⟨.«22004», "upload chunk cannot be NULL", none⟩
  raiseIf (seq < 0 ∨ part < 0 ∨ 10000 < part)
    (invalidParameter "invalid upload part or chunk number")
  raiseIf (maxChunk < data.length) chunkTooLarge
  let upload ← uploadForUpdate c u
  raiseIf ((upload.multipart = true ∧ part = 0) ∨ (upload.multipart = false ∧ part ≠ 0))
    (invalidPart "InvalidPart")
  let sha256 ← digest H data
  raiseIf (∃ sum ∈ checksumSha256, sum ≠ sha256) (badDigest "chunk SHA-256 mismatch")
  let blobId ← ensureBlob c sha256 data
  upsertUploadChunk ⟨u, part.toNat, seq.toNat, blobId, data.length, c.now⟩
  whenever (0 < part) (deleteUploadParts (ofPart u part.toNat))
  touchUpload c u
  pure data.length

/-- `min(seq) = 0` and `count(*) = max(seq) + 1` over at least one row. -/
def contiguousFromZero (rows : List UploadChunkRow) : Bool :=
  (rows.map (·.seq)).min? = some 0 ∧ (rows.map (·.seq)).max? = some (rows.length - 1)

def missingChunks : PgError := invalidPart "InvalidPart: missing or non-contiguous chunks"

/-- `string_agg(_read_blob(c.blob_id), ''::bytea ORDER BY c.seq)` over the staged chunks. -/
def readStaged (s : Db) (u : Uuid) (part : Nat) : Except PgError Bytes := do
  let bodies ← (s.stagedChunks u part).mapM fun r => readBlob s r.blobId
  .ok bodies.flatten

/-- The digests of what is staged for a part: by the Rust helper when it is installed, and
    otherwise by the bounded SQL fallback, which also keeps the body it read. -/
def hashStaged (H : Digests) (c : Context) (u : Uuid) (part size : Nat)
    (wrongSize tooLarge : String) : DbTx (StagedDigest × Option Bytes) := do
  if c.hashHelpers then do
    let h ← hashUploadPart H u part
    raiseIf (h.totalSize ≠ size) (corrupted wrongSize)
    pure (h, none)
  else do
    raiseIf (c.sqlHashFallbackLimit < 0 ∨ c.sqlHashFallbackLimit < size)
      ⟨.«0A000», tooLarge, none⟩
    let body ← reading fun s => readStaged s u part
    let sha256 ← digest H body
    pure (⟨sha256, hex (H.md5 body), size⟩, some body)

def stagedSize (rows : List UploadChunkRow) : Nat := (rows.map (·.size)).sum

def completePart (H : Digests) (c : Context) (u : Uuid) (part : Int)
    (checksumSha256 : Option Bytes) : DbTx UploadPartRow := do
  checkPartNumber part
  let upload ← uploadForUpdate c u
  raiseIf (upload.multipart = false) notMultipart
  let staged := (← get).stagedChunks u part.toNat
  raiseIf (contiguousFromZero staged = false) missingChunks
  let size := stagedSize staged
  let hashed ← hashStaged H c u part.toNat size "streaming part hash returned the wrong size"
    "multipart part exceeds the bounded SQL hashing fallback"
  raiseIf (∃ sum ∈ checksumSha256, sum ≠ hashed.1.sha256) (badDigest "part SHA-256 mismatch")
  let blobId ← ensureStagedBlob c hashed.1.sha256 size u part.toNat
  let row : UploadPartRow := ⟨u, part.toNat, size, hashed.1.md5, blobId, c.now⟩
  upsertUploadPart row
  deleteUploadChunks (chunkOfPart u part.toNat)
  touchUpload c u
  pure row

/-- The pieces that `put_part` stages, numbered from `seq`. -/
def putChunks (H : Digests) (c : Context) (u : Uuid) (part : Int) :
    Nat → List Bytes → DbTx Unit
  | _, [] => pure ()
  | seq, piece :: rest => do
      let _ ← putChunk H c u seq (some piece) part none
      putChunks H c u part (seq + 1) rest

/-- The pieces of `size` bytes that a body is cut into; one empty piece for no bytes. -/
def piecesOf (body : Bytes) (size : Nat) : List Bytes :=
  if body.isEmpty then [[]]
  else (List.range ((body.length - 1) / size + 1)).map fun n => (body.drop (n * size)).take size

def putPart (H : Digests) (c : Context) (u : Uuid) (part : Int) (body : Option Bytes)
    (checksumSha256 : Option Bytes) : DbTx UploadPartRow := do
  let body ← orRaise body ⟨.«22004», "part body cannot be NULL", none⟩
  raiseIf (part < 1 ∨ 10000 < part ∨ c.chunkSize ≤ 0) (invalidPart "InvalidPart")
  let upload ← uploadForUpdate c u
  raiseIf (upload.multipart = false) notMultipart
  beginPart c u part
  putChunks H c u part 0 (piecesOf body c.chunkSize.toNat)
  completePart H c u part checksumSha256

/-! ## 4. Completion -/

/-- The arguments of `_complete_upload` besides the upload. -/
structure CompleteRequest where
  parts : Option (List Int)
  partEtags : Option (List Text)
  checksumSha256 : Option Bytes
  partSha256s : Option (List (Option Bytes))
  compositeChecksumSha256 : Option Text

structure Publication where
  size : Nat
  sha256 : Bytes
  etag : Text
  blobId : Bytes
  «meta» : Jsonb

def checksumAlgorithmField : Text := "@pgs3:checksum-algorithm".toList

/-- Was SHA256 selected when the multipart upload was created? -/
def checksumSelected («meta» : Jsonb) : Except PgError Bool :=
  match «meta».get? checksumAlgorithmField with
  | none => .ok false
  | some (.string t) =>
      if t = "SHA256".toList then .ok true
      else .error (invalidParameter "unsupported multipart checksum algorithm")
  | some _ => .error (invalidParameter "unsupported multipart checksum algorithm")

def strictlyIncreasing : List Int → Bool
  | a :: b :: rest => a < b && strictlyIncreasing (b :: rest)
  | _ => true

def minPartSize : Nat := 5242880

/-- `encode(sha256(string_agg(p.sha256)), 'base64') || '-' || count`. -/
def compositeChecksum (H : Digests) (parts : List UploadPartRow) : DbTx Text := do
  let sum ← digest H (parts.flatMap (·.sha256))
  pure (base64 sum ++ '-' :: decimal parts.length)

/-- The checksum branch of a multipart completion: the metadata to publish. -/
def checkedMeta (H : Digests) («meta» : Jsonb) (parts : List UploadPartRow)
    (r : CompleteRequest) : DbTx Jsonb := do
  let selected ← reading fun _ => checksumSelected «meta»
  if selected then do
    raiseIf (r.partSha256s ≠ some (parts.map fun p => some p.sha256) ∨
        r.compositeChecksumSha256 = none)
      (badDigest "multipart part SHA-256 mismatch")
    let composite ← compositeChecksum H parts
    raiseIf (r.compositeChecksumSha256 ≠ some composite)
      (badDigest "multipart composite SHA-256 mismatch")
    pure ((«meta».setText "@pgs3:checksum-sha256".toList composite).setText
      "@pgs3:checksum-type".toList "COMPOSITE".toList)
  else do
    raiseIf (r.partSha256s ≠ none ∨ r.compositeChecksumSha256 ≠ none)
      (invalidParameter "multipart checksum values require a selected algorithm")
    pure «meta»

def hashParts (H : Digests) (c : Context) (parts : List UploadPartRow) (size : Nat) :
    DbTx Bytes := do
  if c.hashHelpers then do
    let h ← hashBlobSequence H (parts.map (·.sha256))
    raiseIf (h.2 ≠ size) (corrupted "streaming multipart hash returned the wrong size")
    pure h.1
  else do
    raiseIf (c.sqlHashFallbackLimit < 0 ∨ c.sqlHashFallbackLimit < size)
      ⟨.«0A000», "multipart object exceeds the bounded SQL hashing fallback", none⟩
    let bodies ← reading fun s => parts.mapM fun p => readBlob s p.sha256
    raiseIf (bodies.flatten.length ≠ size)
      (corrupted "multipart source blobs do not match their recorded size")
    digest H bodies.flatten

/-- The ETag of a multipart object: the MD5 of the parts' MD5 digests, and their number. -/
def multipartEtag (H : Digests) (parts : List UploadPartRow) : Text :=
  hex (H.md5 (parts.flatMap fun p => unhex p.etag)) ++ '-' :: decimal parts.length

/-- The multipart branch of `_complete_upload`. -/
def completeMultipart (H : Digests) (c : Context) (upload : UploadRow) (r : CompleteRequest) :
    DbTx Publication := do
  let _ ← reading fun _ => checksumSelected upload.meta
  let numbers := r.parts.getD []
  raiseIf (numbers = []) (invalidPart "InvalidPart: no completed parts")
  raiseIf (10000 < numbers.length ∨ (∃ n ∈ numbers, n < 1 ∨ 10000 < n) ∨
      strictlyIncreasing numbers = false)
    ⟨.P3P01, "InvalidPartOrder", some .InvalidPartOrder⟩
  let parts := (← get).requestedParts upload.uploadId (numbers.map Int.toNat)
  raiseIf (parts.length ≠ numbers.length) (invalidPart "InvalidPart: an ETag or part is missing")
  raiseIf (∃ etags ∈ r.partEtags, parts.map (·.etag) ≠ etags.map normalizeEtag)
    (invalidPart "InvalidPart: ETag mismatch")
  let objectMeta ← checkedMeta H upload.meta parts r
  raiseIf (∃ p ∈ parts.dropLast, p.size < minPartSize)
    ⟨.P3P01, "EntityTooSmall: multipart part", some .EntityTooSmall⟩
  let size := (parts.map (·.size)).sum
  let sha256 ← hashParts H c parts size
  let blobId ← ensureCompositeBlob c sha256 size upload.uploadId (numbers.map Int.toNat)
  pure ⟨size, sha256, multipartEtag H parts, blobId, objectMeta⟩

/-- The body the SQL fallback has already read, or else the staged chunks read again. -/
def stagedBody (u : Uuid) (known : Option Bytes) : DbTx Bytes :=
  match known with
  | some body => pure body
  | none => reading fun s => readStaged s u 0

/-- A small staged body is consolidated into `blob.inline`. -/
def storeSmall (H : Digests) (c : Context) (u : Uuid) (size : Nat)
    (hashed : StagedDigest × Option Bytes) : DbTx Bytes := do
  let body ← stagedBody u hashed.2
  let sha256 ← digest H body
  raiseIf (body.length ≠ size ∨ sha256 ≠ hashed.1.sha256 ∨ hex (H.md5 body) ≠ hashed.1.md5)
    (corrupted "small streamed blob hash changed during publication")
  ensureBlob c hashed.1.sha256 body

/-- Store what is staged under part 0: inline when small, as extents otherwise. -/
def storePlain (H : Digests) (c : Context) (u : Uuid) (size : Nat)
    (hashed : StagedDigest × Option Bytes) : DbTx Bytes :=
  if (size : Int) ≤ max c.inlineThreshold 0 then storeSmall H c u size hashed
  else ensureStagedBlob c hashed.1.sha256 size u 0

/-- The other branch of `_complete_upload`: the chunks staged under part 0. -/
def completePlain (H : Digests) (c : Context) (upload : UploadRow) (r : CompleteRequest) :
    DbTx Publication := do
  raiseIf (r.parts ≠ none ∨ r.partEtags ≠ none ∨ r.partSha256s ≠ none ∨
    r.compositeChecksumSha256 ≠ none) notMultipart
  let staged := (← get).stagedChunks upload.uploadId 0
  raiseIf (staged ≠ [] ∧ contiguousFromZero staged = false) missingChunks
  let size := stagedSize staged
  let hashed ← hashStaged H c upload.uploadId 0 size
    "streaming upload hash returned the wrong size"
    "streamed object exceeds the bounded SQL hashing fallback"
  let blobId ← storePlain H c upload.uploadId size hashed
  pure ⟨size, hashed.1.sha256, hashed.1.md5, blobId, upload.meta⟩

def preparePublication (H : Digests) (c : Context) (upload : UploadRow) (r : CompleteRequest) :
    DbTx Publication :=
  if upload.multipart then completeMultipart H c upload r else completePlain H c upload r

/-- `SELECT b.name … WHERE b.bucket_id = v_upload.bucket_id`. -/
def bucketNameOf (bucketId : Nat) : DbTx Text := do
  let b ← orRaise ((← get).bucket.lookup bucketId) (corrupted "query returned no rows")
  pure b.name

/-- Publish and drop the upload with what is staged under it. -/
def publishUpload (c : Context) (upload : UploadRow) (bucket : Text) (p : Publication) :
    DbTx ObjectInfo := do
  let info ← commitCanonicalLocked c upload.bucketId bucket upload.key p.size p.sha256 p.etag
    p.blobId upload.contentType p.meta upload.ifNoneMatch upload.ifMatch
  deleteUpload upload.uploadId
  pure info

def uploadBadDigest : PgError := badDigest "upload SHA-256 mismatch"

def completeUpload (H : Digests) (c : Context) (u : Uuid) (r : CompleteRequest) :
    DbTx ObjectInfo := do
  let upload ← uploadForUpdate c u
  let bucket ← bucketNameOf upload.bucketId
  markCompleting c u
  let p ← preparePublication H c upload r
  raiseIf ((∃ sum ∈ upload.expectedSha256, sum ≠ p.sha256) ∨
    (∃ sum ∈ r.checksumSha256, sum ≠ p.sha256)) uploadBadDigest
  publishUpload c upload bucket p

def abortUpload (c : Context) (u : Uuid) : DbTx Unit := do
  let _ ← uploadForUpdate c u
  deleteUpload u

/-! ## 5. Worker-sealed calls -/

/-- `_worker_set_actor`: the context in which the worker acts for a tenant. -/
def workerSetActor (c : Context) (actor : RoleName) : DbTx Context := do
  raiseIf (c.workerMaySet actor = false)
    ⟨.«42501», "worker actor is unavailable or privileged", none⟩
  pure { c with actor := actor }

def workerPutChunk (c : Context) (actor : RoleName) (bucket key : Text) (u : Uuid) (seq : Int)
    (data serverSha256 : Bytes) : DbTx (Bytes × Nat) := do
  let c ← workerSetActor c actor
  raiseIf (seq < 0 ∨ serverSha256.length ≠ 32) (invalidParameter "invalid sealed upload chunk")
  raiseIf (maxChunk < data.length) chunkTooLarge
  let _ ← uploadForUpdateAt c u bucket key (some false)
  let _ ← ensureBlob c serverSha256 data
  upsertUploadChunk ⟨u, 0, seq.toNat, serverSha256, data.length, c.now⟩
  touchUpload c u
  pure (serverSha256, data.length)

/-- What the worker seals about a body: digests, size, and the chunks it staged. -/
structure Seal where
  sha256 : Bytes
  md5 : Text
  size : Nat
  chunkBlobIds : List Bytes
  chunkSizes : List Nat
deriving DecidableEq, Repr

/-- `p_server_md5 ~ '^[0-9a-f]{32}$'`. -/
def isMd5Hex (t : Text) : Bool :=
  t.length = 32 ∧ t.all fun c => ('0' ≤ c ∧ c ≤ '9') ∨ ('a' ≤ c ∧ c ≤ 'f')

def workerCompleteUpload (H : Digests) (c : Context) (actor : RoleName) (bucket key : Text)
    (u : Uuid) (checksumSha256 : Option Bytes) (m : Seal) : DbTx ObjectInfo := do
  let c ← workerSetActor c actor
  raiseIf (m.sha256.length ≠ 32 ∨ isMd5Hex m.md5 = false ∨ m.chunkBlobIds = [] ∨
      m.chunkBlobIds.length ≠ m.chunkSizes.length)
    (invalidParameter "invalid worker-sealed upload manifest")
  let upload ← uploadForUpdateAt c u bucket key (some false)
  let staged := (← get).stagedChunks u 0
  raiseIf (contiguousFromZero staged = false ∨ stagedSize staged ≠ m.size ∨
      staged.map (·.blobId) ≠ m.chunkBlobIds ∨ staged.map (·.size) ≠ m.chunkSizes)
    (invalidPart "InvalidPart: sealed upload chunks changed")
  if (m.size : Int) ≤ max c.inlineThreshold 0 then
    completeUpload H c u ⟨none, none, checksumSha256, none, none⟩
  else do
    raiseIf ((∃ sum ∈ upload.expectedSha256, sum ≠ m.sha256) ∨
      (∃ sum ∈ checksumSha256, sum ≠ m.sha256)) uploadBadDigest
    let bucket ← bucketNameOf upload.bucketId
    markCompleting c u
    let blobId ← ensureStagedBlob c m.sha256 m.size u 0
    publishUpload c upload bucket ⟨m.size, m.sha256, m.md5, blobId, upload.meta⟩

/-! ## 6. Garbage collection -/

/-- `gc_pending_uploads`: uploads whose last change and whose lease are both too old. -/
def gcPendingUploads (c : Context) (maxAge : Int) (limit : Int) : DbTx Nat := do
  raiseIf (maxAge < 0 ∨ limit < 1 ∨ 100000 < limit) (invalidParameter "invalid GC age or limit")
  let expired := (← get).upload.rows.filter fun r =>
    r.state = .pending ∧ r.updatedAt < c.now - maxAge ∧ r.leaseExpiresAt ≤ c.now
  let doomed := (expired.insertionSort fun a b =>
    a.leaseExpiresAt < b.leaseExpiresAt ∨ (a.leaseExpiresAt = b.leaseExpiresAt ∧
      (a.updatedAt < b.updatedAt ∨ (a.updatedAt = b.updatedAt ∧ a.uploadId ≤ b.uploadId)))).take
    limit.toNat
  doomed.forM fun r => deleteUpload r.uploadId
  pure doomed.length

/-- The next blob that `gc_blobs` takes: unreferenced, not locked by another transaction,
    `ORDER BY b.created_at DESC, b.sha256 LIMIT 1`. -/
def nextGarbage (rows : List BlobRow) (locked : Bytes → Bool) : Option BlobRow :=
  ((rows.filter fun b => b.refcount = 0 && !locked b.sha256).insertionSort fun a b =>
    b.createdAt < a.createdAt ∨ (a.createdAt = b.createdAt ∧ a.sha256 ≤ b.sha256)).head?

/-- The loop of `gc_blobs`, with `limit - v_count` turns left. -/
def gcLoop (locked : Bytes → Bool) : Nat → DbTx Nat
  | 0 => pure 0
  | n + 1 => do
      match nextGarbage (← get).blob.rows locked with
      | none => pure 0
      | some b => do
          deleteBlob b.sha256
          let more ← gcLoop locked n
          pure (more + 1)

/-- `gc_blobs`; `locked` are the blob rows that other transactions hold, which
    `SKIP LOCKED` passes over. -/
def gcBlobsSkipping (locked : Bytes → Bool) (limit : Int) : DbTx Nat := do
  raiseIf (limit < 1 ∨ 100000 < limit) (invalidParameter "invalid GC limit")
  gcLoop locked limit.toNat

def gcBlobs (limit : Int) : DbTx Nat := gcBlobsSkipping (fun _ => false) limit

end Pgs3
