import Pgs3.Schema

/-!
# Statements: the reference-count triggers and the data-changing statements

Every `INSERT`, `UPDATE` and `DELETE` that the extension issues against a table with a
constraint or a trigger is one definition here, with what PostgreSQL does around it:

* the five reference-count triggers of `sql/bootstrap.sql` (`_blob_refs_after_insert`,
  `_blob_refs_after_delete`, `_blob_refs_after_update`, `_pending_blob_ref`,
  `_blob_extent_source_ref`);
* foreign keys: a child row needs its parent, `ON DELETE CASCADE` deletes the children
  (their row triggers fire too), and `RESTRICT` and `NO ACTION` refuse the deletion;
* the `CHECK` constraints that are not part of a row type, and the unique indexes.

The API functions of the later modules are built from these statements only.
-/

namespace Pgs3

open Foundation Foundation.Tx

/-- PostgreSQL's own error for a violated `CHECK`. -/
def checkViolation (constraint : String) : PgError :=
  ⟨.«23514», "new row violates check constraint " ++ constraint, none⟩

def uniqueViolation (constraint : String) : PgError :=
  ⟨.«23505», "duplicate key value violates unique constraint " ++ constraint, none⟩

def foreignKeyViolation (constraint : String) : PgError :=
  ⟨.«23503», "violates foreign key constraint " ++ constraint, none⟩

/-! ## 1. Reference counts -/

def BlobRow.addRef (delta : Bytes → Int) (b : BlobRow) : BlobRow :=
  { b with refcount := b.refcount + delta b.sha256 }

theorem BlobRow.addRef_sha256 (delta : Bytes → Int) (b : BlobRow) :
    (b.addRef delta).sha256 = b.sha256 := rfl

/-- The database after `refcount = refcount + delta` on every blob. -/
def Db.addRefs (s : Db) (delta : Bytes → Int) : Db :=
  { s with blob := s.blob.update (BlobRow.addRef delta) (BlobRow.addRef_sha256 delta) }

/-- `UPDATE pgs3.blob SET refcount = refcount + d.n FROM … AS d WHERE b.sha256 = d.blob_id`,
    with `blob_refcount_nonnegative` checked on the rows that change. -/
def addRefcount (delta : Bytes → Int) : DbTx Unit := do
  let s ← get
  raiseIf (∃ b ∈ s.blob.rows, delta b.sha256 ≠ 0 ∧ b.refcount + delta b.sha256 < 0)
    (checkViolation "blob_refcount_nonnegative")
  modify fun s => s.addRefs delta

/-- How many of the rows name `k` as their content. -/
def objectRefs (rows : List ObjectRow) (k : Bytes) : Nat :=
  rows.countP fun o => o.blobId = some k

def blobRefsAfterInsert (newRows : List ObjectRow) : DbTx Unit :=
  addRefcount fun k => objectRefs newRows k

def blobRefsAfterDelete (oldRows : List ObjectRow) : DbTx Unit :=
  addRefcount fun k => - (objectRefs oldRows k : Int)

def blobRefsAfterUpdate (oldRows newRows : List ObjectRow) : DbTx Unit :=
  addRefcount fun k => (objectRefs newRows k : Int) - objectRefs oldRows k

/-- What a row trigger is told: `TG_OP` with the reference columns of `OLD` and `NEW`. -/
inductive RowEvent where
  | insert (new : Bytes)
  | delete (old : Bytes)
  | update (old new : Bytes)

/-- The body shared by the two row triggers. -/
def rowReference : RowEvent → DbTx Unit
  | .insert new => addRefcount fun k => if k = new then 1 else 0
  | .delete old => addRefcount fun k => if k = old then -1 else 0
  | .update old new => whenever (new ≠ old) do
      addRefcount fun k => if k = old then -1 else 0
      addRefcount fun k => if k = new then 1 else 0

/-- Trigger on `upload_part` and `upload_chunk`. -/
def pendingBlobRef (event : RowEvent) : DbTx Unit := rowReference event

/-- Trigger on `blob_extent`. -/
def blobExtentSourceRef (event : RowEvent) : DbTx Unit := rowReference event

/-! ## 2. Blobs and their payload rows -/

/-- `INSERT INTO pgs3.blob … ON CONFLICT (sha256) DO NOTHING`, with `ROW_COUNT`. -/
def insertBlob (row : BlobRow) : DbTx Nat := do
  match (← get).blob.insert row with
  | none => pure 0
  | some blob => do
      modify fun s => { s with blob := blob }
      pure 1

def insertChunks (rows : List ChunkRow) : DbTx Unit := do
  let s ← get
  raiseIf (∃ c ∈ rows, (s.blob.lookup c.blobId).isNone) (foreignKeyViolation "chunk_blob_id_fkey")
  let chunk ← orRaise (s.chunk.insertAll rows) (uniqueViolation "chunk_pkey")
  modify fun s => { s with chunk := chunk }

def insertBlobExtents (rows : List BlobExtentRow) : DbTx Unit := do
  let s ← get
  raiseIf (∃ e ∈ rows, e.finalBlobId = e.sourceBlobId)
    (checkViolation "blob_extent_not_self_referential")
  raiseIf (∃ e ∈ rows, (s.blob.lookup e.finalBlobId).isNone)
    (foreignKeyViolation "blob_extent_final_blob_id_fkey")
  raiseIf (∃ e ∈ rows, (s.blob.lookup e.sourceBlobId).isNone)
    (foreignKeyViolation "blob_extent_source_blob_id_fkey")
  let blobExtent ← orRaise (s.blobExtent.insertAll rows) (uniqueViolation "blob_extent_pkey")
  modify fun s => { s with blobExtent := blobExtent }
  rows.forM fun e => blobExtentSourceRef (.insert e.sourceBlobId)

/-- `DELETE FROM pgs3.blob WHERE sha256 = k`: refused while the blob is referenced,
    cascading to its chunks and to its own extents. -/
def deleteBlob (k : Bytes) : DbTx Unit := do
  let s ← get
  raiseIf (∃ o ∈ s.object.rows, o.blobId = some k) (foreignKeyViolation "object_blob_id_fkey")
  raiseIf (∃ c ∈ s.uploadChunk.rows, c.blobId = k)
    (foreignKeyViolation "upload_chunk_blob_id_fkey")
  raiseIf (∃ p ∈ s.uploadPart.rows, p.sha256 = k) (foreignKeyViolation "upload_part_blob_id_fkey")
  raiseIf (∃ e ∈ s.blobExtent.rows, e.sourceBlobId = k)
    (foreignKeyViolation "blob_extent_source_blob_id_fkey")
  modify fun s => { s with
    blob := s.blob.delete fun b => b.sha256 = k
    chunk := s.chunk.delete fun c => c.blobId = k
    blobExtent := s.blobExtent.delete fun e => e.finalBlobId = k }
  (s.blobExtent.rows.filter fun e => e.finalBlobId = k).forM fun e =>
    blobExtentSourceRef (.delete e.sourceBlobId)

/-! ## 3. Object versions -/

/-- The unique index `object_latest_any_uniq`: one latest row for each bucket and key. -/
def LatestUnique (rows : List ObjectRow) : Prop :=
  ∀ o ∈ rows, ∀ r ∈ rows, o.isLatest = true → r.isLatest = true →
    o.bucketId = r.bucketId → o.key = r.key → o.versionId = r.versionId

instance (rows : List ObjectRow) : Decidable (LatestUnique rows) :=
  inferInstanceAs (Decidable (∀ o ∈ rows, ∀ r ∈ rows, o.isLatest = true → r.isLatest = true →
    o.bucketId = r.bucketId → o.key = r.key → o.versionId = r.versionId))

/-- `INSERT INTO pgs3.object` of one row, and its statement trigger. -/
def insertObject (row : ObjectRow) : DbTx Unit := do
  let s ← get
  raiseIf ((s.bucket.lookup row.bucketId).isNone) (foreignKeyViolation "object_bucket_id_fkey")
  raiseIf (∃ k, row.blobId = some k ∧ (s.blob.lookup k).isNone)
    (foreignKeyViolation "object_blob_id_fkey")
  let object ← orRaise (s.object.insert row) (uniqueViolation "object_pkey")
  raiseIf (¬ LatestUnique object.rows) (uniqueViolation "object_latest_any_uniq")
  modify fun s => { s with object := object }
  blobRefsAfterInsert [row]

/-- `UPDATE pgs3.object SET is_latest = value WHERE sel`, and its statement trigger. -/
def updateIsLatest (sel : ObjectRow → Bool) (value : Bool) : DbTx Unit := do
  let s ← get
  let object := s.object.update
    (fun o => if sel o then { o with isLatest := value } else o)
    fun o => by cases h : sel o <;> simp
  raiseIf (¬ LatestUnique object.rows) (uniqueViolation "object_latest_any_uniq")
  modify fun s => { s with object := object }
  blobRefsAfterUpdate (s.object.rows.filter sel)
    ((s.object.rows.filter sel).map fun o => { o with isLatest := value })

/-- `DELETE FROM pgs3.object WHERE sel`, and its statement trigger. -/
def deleteObjects (sel : ObjectRow → Bool) : DbTx Unit := do
  let s ← get
  modify fun s => { s with object := s.object.delete sel }
  blobRefsAfterDelete (s.object.rows.filter sel)

/-! ## 4. Uploads, staged chunks and parts -/

def insertUpload (row : UploadRow) : DbTx Unit := do
  let s ← get
  raiseIf ((s.bucket.lookup row.bucketId).isNone) (foreignKeyViolation "upload_bucket_id_fkey")
  let upload ← orRaise (s.upload.insert row) (uniqueViolation "upload_pkey")
  modify fun s => { s with upload := upload }

/-- `INSERT INTO pgs3.upload_chunk … ON CONFLICT (upload_id, part_number, seq) DO UPDATE`. -/
def upsertUploadChunk (row : UploadChunkRow) : DbTx Unit := do
  let s ← get
  raiseIf ((s.upload.lookup row.uploadId).isNone)
    (foreignKeyViolation "upload_chunk_upload_id_fkey")
  raiseIf ((s.blob.lookup row.blobId).isNone) (foreignKeyViolation "upload_chunk_blob_id_fkey")
  modify fun s => { s with uploadChunk := s.uploadChunk.upsert row }
  match s.uploadChunk.lookup (row.uploadId, row.partNumber, row.seq) with
  | none => pendingBlobRef (.insert row.blobId)
  | some old => pendingBlobRef (.update old.blobId row.blobId)

def deleteUploadChunks (sel : UploadChunkRow → Bool) : DbTx Unit := do
  let s ← get
  modify fun s => { s with uploadChunk := s.uploadChunk.delete sel }
  (s.uploadChunk.rows.filter sel).forM fun c => pendingBlobRef (.delete c.blobId)

/-- `INSERT INTO pgs3.upload_part … ON CONFLICT (upload_id, part_number) DO UPDATE`. -/
def upsertUploadPart (row : UploadPartRow) : DbTx Unit := do
  let s ← get
  raiseIf ((s.upload.lookup row.uploadId).isNone)
    (foreignKeyViolation "upload_part_upload_id_fkey")
  raiseIf ((s.blob.lookup row.sha256).isNone) (foreignKeyViolation "upload_part_blob_id_fkey")
  modify fun s => { s with uploadPart := s.uploadPart.upsert row }
  match s.uploadPart.lookup (row.uploadId, row.partNumber) with
  | none => pendingBlobRef (.insert row.sha256)
  | some old => pendingBlobRef (.update old.sha256 row.sha256)

def deleteUploadParts (sel : UploadPartRow → Bool) : DbTx Unit := do
  let s ← get
  modify fun s => { s with uploadPart := s.uploadPart.delete sel }
  (s.uploadPart.rows.filter sel).forM fun p => pendingBlobRef (.delete p.sha256)

/-- `DELETE FROM pgs3.upload WHERE upload_id = u`, cascading to its chunks and parts. -/
def deleteUpload (u : Uuid) : DbTx Unit := do
  modify fun s => { s with upload := s.upload.delete fun r => r.uploadId = u }
  deleteUploadChunks fun c => c.uploadId = u
  deleteUploadParts fun p => p.uploadId = u

/-- `UPDATE pgs3.upload SET … WHERE upload_id = u`; the key and the bucket never change. -/
def updateUpload (u : Uuid) (f : UploadRow → UploadRow)
    (hf : ∀ r, (f r).uploadId = r.uploadId) : DbTx Unit :=
  modify fun s => { s with
    upload := s.upload.update (fun r => if r.uploadId = u then f r else r) fun r => by
      by_cases h : r.uploadId = u <;> simp [h, hf r] }

/-! ## 5. Buckets -/

/-- `INSERT INTO pgs3.bucket … RETURNING bucket_id`; the identity column draws from its
    own sequence. -/
def insertBucket (name : Text) (owner : RoleName) (now : Timestamp) (config : Jsonb) :
    DbTx Nat := do
  let s ← get
  raiseIf (∃ b ∈ s.bucket.rows, b.name = name) (uniqueViolation "bucket_name_key")
  let bucketId := s.bucketIdSeq + 1
  let bucket ← orRaise (s.bucket.insert ⟨bucketId, name, owner, now, config⟩)
    (uniqueViolation "bucket_pkey")
  modify fun s => { s with bucket := bucket, bucketIdSeq := bucketId }
  pure bucketId

def deleteBucketRow (id : Nat) : DbTx Unit := do
  let s ← get
  raiseIf (∃ o ∈ s.object.rows, o.bucketId = id) (foreignKeyViolation "object_bucket_id_fkey")
  raiseIf (∃ u ∈ s.upload.rows, u.bucketId = id) (foreignKeyViolation "upload_bucket_id_fkey")
  modify fun s => { s with bucket := s.bucket.delete fun b => b.bucketId = id }

/-! ## 6. Sequences and digests -/

/-- `nextval('pgs3.object_version_id_seq')`. -/
def nextVersionId : DbTx Nat := do
  modify fun s => { s with objectVersionIdSeq := s.objectVersionIdSeq + 1 }
  pure (← get).objectVersionIdSeq

def logHashed (body : Bytes) : DbTx Unit :=
  modify fun s => { s with hashed := body :: s.hashed }

def digest (H : Digests) (body : Bytes) : DbTx Bytes := do
  logHashed body
  pure (H.sha256 body)

end Pgs3
