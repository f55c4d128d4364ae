import Pgs3.Foundation.Tx
import Pgs3.Foundation.Table

/-!
# The schema: rows, tables, errors and the context of one call

Translation of the `CREATE TABLE` statements of `sql/bootstrap.sql`.  A database is one
`Db` record with a keyed table for each relation, the two sequences, and a log of every
byte string that has been fed to SHA-256 (`hashed`).  The log is bookkeeping only: no
function reads it.  It is what the assumption "no SHA-256 collision occurs" speaks about,
so that the assumption is one about the strings of a run and not about all strings.

`CHECK` constraints that fix the shape of a row are built into the row types:

* `blob_payload_shape` is the type `BlobStorage`;
* `object_payload_shape` is the field `payload : Option Payload` of `ObjectRow`, where
  `none` is a delete marker and a live row has one `sha256` that is also its `blob_id`;
* `upload_part_blob_matches_sha256` is the single field `sha256` of `UploadPartRow`.

Primary keys are carried by `Foundation.Table`.
-/

namespace Pgs3

open Foundation

/-- `bytea`. -/
abbrev Bytes := List UInt8

instance lawfulBEq_bytes : LawfulBEq Bytes := inferInstance

/-- `text COLLATE "C"`: code points, compared in code-point order. -/
abbrev Text := List Char

abbrev Uuid := Nat

/-- `timestamptz`, in microseconds. -/
abbrev Timestamp := Int

/-- `name`, for roles. -/
abbrev RoleName := Text

/-- `octet_length` of a text: its length in UTF-8. -/
def octetLength (t : Text) : Nat := (t.map Char.utf8Size).sum

/-- `jsonb`, as far as the schema looks into it. -/
inductive Jsonb where
  | null
  | bool (b : Bool)
  | number (n : Int)
  | string (t : Text)
  | array (items : List Jsonb)
  | object (fields : List (Text × Jsonb))

/-! ## 1. Digests -/

/-- The two digest functions, with the lengths the schema's `CHECK` constraints rely on.
    SHA-256 comes from `pgcrypto`-style built-ins in SQL and from the `sha2` crate in the
    worker; MD5 likewise.  Nothing else is assumed of them here. -/
structure Digests where
  sha256 : Bytes → Bytes
  md5 : Bytes → Bytes
  sha256_length : ∀ b, (sha256 b).length = 32
  md5_length : ∀ b, (md5 b).length = 16

/-- The first `n - 1` bytes of a string, filled up with zeros, and its length: what the
    model is evaluated with where a concrete digest is needed. -/
def truncated (n : Nat) (b : Bytes) : Bytes :=
  (b ++ List.replicate n 0).take (n - 1) ++ [UInt8.ofNat b.length]

def Digests.sample : Digests where
  sha256 := truncated 32
  md5 := truncated 16
  sha256_length := by
    intro b
    simp only [truncated, List.length_append, List.length_take, List.length_replicate,
      List.length_singleton]
    omega
  md5_length := by
    intro b
    simp only [truncated, List.length_append, List.length_take, List.length_replicate,
      List.length_singleton]
    omega

def hexDigit (n : Nat) : Char := "0123456789abcdef".toList.getD n '0'

/-- `encode(_, 'hex')`. -/
def hex (b : Bytes) : Text :=
  b.flatMap fun x => [hexDigit (x.toNat / 16), hexDigit (x.toNat % 16)]

/-! ## 2. Errors -/

/-- The `SQLSTATE`s raised by `bootstrap.sql`, and those PostgreSQL raises itself when a
    constraint, a cast or the Rust helper (`pgrx::error!`) fails. -/
inductive SqlState where
  | «0A000» | «22003» | «22004» | «22023» | «23503» | «23505» | «23514» | «42501»
  | P0002 | P0003
  | P3B01 | P3C01 | P3E01 | P3F01 | P3H01 | P3K01 | P3N01 | P3P01 | P3R01 | P3S01 | P3U01
  | XX000 | XX001
deriving DecidableEq, Repr

/-- The semantic code in `DETAIL = 'pgs3.error=…'`. -/
inductive S3Error where
  | BadDigest | BucketAlreadyExists | BucketNotEmpty | EntityTooLarge | EntityTooSmall
  | InvalidBucketName | InvalidPart | InvalidPartOrder | InvalidRange | NoSuchBucket
  | NoSuchKey | NoSuchUpload | NoSuchVersion | NotModified | PreconditionFailed
deriving DecidableEq, Repr

/-- `RAISE EXCEPTION USING ERRCODE = …, MESSAGE = …, DETAIL = …`. -/
structure PgError where
  sqlstate : SqlState
  message : String
  detail : Option S3Error := none
deriving DecidableEq, Repr

/-! ## 3. Rows -/

structure BucketRow where
  bucketId : Nat
  name : Text
  owner : RoleName
  createdAt : Timestamp
  config : Jsonb

/-- `storage_kind` together with `inline`, as `blob_payload_shape` ties them. -/
inductive BlobStorage where
  | inline (data : Bytes)
  | chunked
  | composite
deriving DecidableEq, Repr

/-- `pgs3.blob`, keyed by the SHA-256 of its content. -/
structure BlobRow where
  sha256 : Bytes
  size : Nat
  chunkSize : Nat
  storage : BlobStorage
  refcount : Int
  createdAt : Timestamp
deriving DecidableEq, Repr

/-- `pgs3.chunk`: one piece of a chunked blob. -/
structure ChunkRow where
  blobId : Bytes
  seq : Nat
  data : Bytes
deriving DecidableEq, Repr

/-- `pgs3.blob_extent`: one piece of a composite blob, a range of another blob. -/
structure BlobExtentRow where
  finalBlobId : Bytes
  seq : Nat
  logicalOffset : Nat
  sourceBlobId : Bytes
  sourceOffset : Nat
  length : Nat
deriving DecidableEq, Repr

/-- The content columns of a live object version; `blob_id = sha256`. -/
structure Payload where
  size : Nat
  etag : Text
  sha256 : Bytes
deriving DecidableEq, Repr

/-- `pgs3.object`: one version of one key.  `payload = none` is a delete marker. -/
structure ObjectRow where
  bucketId : Nat
  key : Text
  versionId : Nat
  isLatest : Bool
  payload : Option Payload
  contentType : Option Text
  «meta» : Jsonb
  createdAt : Timestamp
  createdBy : RoleName

namespace ObjectRow

variable (o : ObjectRow)

def deleteMarker : Bool := o.payload.isNone
def size : Nat := (o.payload.map (·.size)).getD 0
def etag : Option Text := o.payload.map (·.etag)
def blobId : Option Bytes := o.payload.map (·.sha256)

end ObjectRow

inductive UploadState where
  | pending
  | completing
deriving DecidableEq, Repr

structure UploadRow where
  uploadId : Uuid
  bucketId : Nat
  key : Text
  multipart : Bool
  contentType : Option Text
  «meta» : Jsonb
  ifNoneMatch : Option Text
  ifMatch : Option Text
  expectedSha256 : Option Bytes
  initiatedBy : RoleName
  state : UploadState
  createdAt : Timestamp
  updatedAt : Timestamp
  leaseExpiresAt : Timestamp

/-- `pgs3.upload_chunk`: one staged piece.  Part 0 is the body of a plain upload. -/
structure UploadChunkRow where
  uploadId : Uuid
  partNumber : Nat
  seq : Nat
  blobId : Bytes
  size : Nat
  createdAt : Timestamp
deriving DecidableEq, Repr

/-- `pgs3.upload_part`: one acknowledged part; `blob_id = sha256`. -/
structure UploadPartRow where
  uploadId : Uuid
  partNumber : Nat
  size : Nat
  etag : Text
  sha256 : Bytes
  completedAt : Timestamp
deriving DecidableEq, Repr

/-! ## 4. The database -/

/-- All relations, the sequences and the log of hashed strings. -/
structure Db where
  bucket : Table BucketRow Nat (·.bucketId)
  blob : Table BlobRow Bytes (·.sha256)
  chunk : Table ChunkRow (Bytes × Nat) fun c => (c.blobId, c.seq)
  blobExtent : Table BlobExtentRow (Bytes × Nat) fun e => (e.finalBlobId, e.seq)
  object : Table ObjectRow (Nat × Text × Nat) fun o => (o.bucketId, o.key, o.versionId)
  upload : Table UploadRow Uuid (·.uploadId)
  uploadChunk : Table UploadChunkRow (Uuid × Nat × Nat)
    fun c => (c.uploadId, c.partNumber, c.seq)
  uploadPart : Table UploadPartRow (Uuid × Nat) fun p => (p.uploadId, p.partNumber)
  bucketIdSeq : Nat
  objectVersionIdSeq : Nat
  hashed : List Bytes

/-- The database right after `CREATE EXTENSION pgs3`. -/
def Db.empty : Db where
  bucket := .empty
  blob := .empty
  chunk := .empty
  blobExtent := .empty
  object := .empty
  upload := .empty
  uploadChunk := .empty
  uploadPart := .empty
  bucketIdSeq := 0
  objectVersionIdSeq := 0
  hashed := []

/-- What one call sees besides its arguments and the database: who calls
    (`pgs3._actor()`), the role graph (`pg_has_role(_, _, 'USAGE')`), the clock, a fresh
    `gen_random_uuid()`, the settings read by `pgs3._setting_bytes`, whether the Rust hash
    helpers are installed (`to_regprocedure(…) IS NOT NULL`), and which roles the HTTP
    worker may act for (`pgs3._worker_set_actor`).  Every call has a context of its own. -/
structure Context where
  actor : RoleName
  hasRole : RoleName → RoleName → Bool
  now : Timestamp
  uuid : Uuid
  chunkSize : Int
  inlineThreshold : Int
  sqlHashFallbackLimit : Int
  hashHelpers : Bool
  workerMaySet : RoleName → Bool

/-- A caller `alice` who owns what they create, with the hash helpers installed. -/
def Context.sample : Context where
  actor := "alice".toList
  hasRole := fun a b => a = b
  now := 0
  uuid := 1
  chunkSize := 65536
  inlineThreshold := 65536
  sqlHashFallbackLimit := 134217728
  hashHelpers := true
  workerMaySet := fun _ => true

/-- A transaction body on the database. -/
abbrev DbTx (α : Type) := Tx Db PgError α

end Pgs3
