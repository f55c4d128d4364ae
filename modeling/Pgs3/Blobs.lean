import Pgs3.Statements

/-!
# Content-addressed storage: storing and reading blobs

`_ensure_blob`, `_ensure_composite_blob` and `_ensure_staged_blob` store a byte sequence
under its SHA-256 and return at once when the digest is already present, in whatever
representation it was stored first.  `_read_blob` and `_read_blob_range` expand a blob
again, down to 65 levels of composition: the SQL depth runs from 0 to 64, and the
argument `levels` below counts what is left of it.
-/

namespace Pgs3

open Foundation Foundation.Tx

def invalidParameter (message : String) : PgError := ⟨.«22023», message, none⟩

def corrupted (message : String) : PgError := ⟨.XX001, message, none⟩

def invalidRange : PgError := ⟨.P3R01, "InvalidRange", some .InvalidRange⟩

/-- The cast `::integer`. -/
def int4 (n : Int) : Except PgError Int :=
  if n < -2147483648 ∨ 2147483647 < n then .error ⟨.«22003», "integer out of range", none⟩
  else .ok n

/-- `substring(b FROM start FOR count)` on `bytea`, for `1 ≤ start` and `0 ≤ count`. -/
def substring (b : Bytes) (start count : Int) : Bytes :=
  (b.drop (start - 1).toNat).take count.toNat

/-! ## 1. Rows of a blob, in order -/

/-- The chunk rows of a blob, `ORDER BY c.seq`. -/
def Db.chunksOf (s : Db) (k : Bytes) : List ChunkRow :=
  orderBy (·.seq) (s.chunk.rows.filter fun c => c.blobId = k)

/-- The extents of a blob, `ORDER BY e.seq`. -/
def Db.extentsOf (s : Db) (k : Bytes) : List BlobExtentRow :=
  orderBy (·.seq) (s.blobExtent.rows.filter fun e => e.finalBlobId = k)

/-- The chunks staged for a part, `ORDER BY c.seq`. -/
def Db.stagedChunks (s : Db) (u : Uuid) (part : Nat) : List UploadChunkRow :=
  orderBy (·.seq) (s.uploadChunk.rows.filter fun c => c.uploadId = u ∧ c.partNumber = part)

/-- `unnest(p_parts) WITH ORDINALITY JOIN pgs3.upload_part`, in request order. -/
def Db.requestedParts (s : Db) (u : Uuid) (parts : List Nat) : List UploadPartRow :=
  parts.filterMap fun n => s.uploadPart.lookup (u, n)

/-! ## 2. Storing -/

/-- Insert the row unless its digest is taken, then lock whatever row holds the digest and
    compare the size.  The number of inserted rows and the stored representation. -/
def claimBlob (row : BlobRow) (gone : String) : DbTx (Nat × BlobStorage) := do
  let inserted ← insertBlob row
  let existing ← orRaise ((← get).blob.lookup row.sha256) (corrupted gone)
  raiseIf (existing.size ≠ row.size) (corrupted "SHA-256 collision with different blob size")
  pure (inserted, existing.storage)

def bodyChunks (k body : Bytes) (chunkSize : Nat) : List ChunkRow :=
  if body.length ≤ chunkSize then [⟨k, 0, body⟩]
  else (List.range ((body.length - 1) / chunkSize + 1)).map fun n =>
    ⟨k, n, (body.drop (n * chunkSize)).take chunkSize⟩

/-- The guard on `pgs3.chunk_size` that all three functions start with. -/
def checkChunkSize (c : Context) : DbTx Unit :=
  raiseIf (c.chunkSize ≤ 0 ∨ 1073741824 < c.chunkSize)
    (invalidParameter "pgs3.chunk_size is out of range")

def ensureBlob (c : Context) (sha256 body : Bytes) : DbTx Bytes := do
  raiseIf (sha256.length ≠ 32) (invalidParameter "SHA-256 must be 32 bytes")
  checkChunkSize c
  let storage : BlobStorage :=
    if (body.length : Int) ≤ max c.inlineThreshold 0 then .inline body else .chunked
  let claimed ← claimBlob ⟨sha256, body.length, c.chunkSize.toNat, storage, 0, c.now⟩
    "blob disappeared while being stored"
  whenever (claimed.1 = 1 ∧ claimed.2 = .chunked ∧ 0 < body.length)
    (insertChunks (bodyChunks sha256 body c.chunkSize.toNat))
  pure sha256

/-- The extents of a composite over whole sources: `seq`, source and length of each, with
    the running sum of the lengths before it as its logical offset. -/
def extentRows (final : Bytes) : Nat → List (Nat × Bytes × Nat) → List BlobExtentRow
  | _, [] => []
  | offset, (seq, source, length) :: rest =>
      ⟨final, seq, offset, source, 0, length⟩ :: extentRows final (offset + length) rest

def storeComposite (c : Context) (sha256 : Bytes) (size : Nat) (gone : String)
    (sources : List (Nat × Bytes × Nat)) : DbTx Bytes := do
  let claimed ← claimBlob ⟨sha256, size, c.chunkSize.toNat, .composite, 0, c.now⟩ gone
  whenever (claimed.1 = 1) (insertBlobExtents (extentRows sha256 0 sources))
  pure sha256

def ensureCompositeBlob (c : Context) (sha256 : Bytes) (size : Nat) (uploadId : Uuid)
    (parts : List Nat) : DbTx Bytes := do
  raiseIf (sha256.length ≠ 32) (invalidParameter "invalid composite blob identity")
  checkChunkSize c
  let requested := (← get).requestedParts uploadId parts
  raiseIf (requested.length ≠ parts.length ∨ (requested.map (·.size)).sum ≠ size)
    (corrupted "composite source parts changed during completion")
  -- `(requested.ordinality - 1)::integer` numbers the sources
  storeComposite c sha256 size "composite blob disappeared while being stored"
    (requested.zipIdx.map fun p => (p.2, p.1.sha256, p.1.size))

def ensureStagedBlob (c : Context) (sha256 : Bytes) (size : Nat) (uploadId : Uuid)
    (partNumber : Nat) : DbTx Bytes := do
  raiseIf (sha256.length ≠ 32) (invalidParameter "invalid staged blob identity")
  checkChunkSize c
  let staged := (← get).stagedChunks uploadId partNumber
  raiseIf ((staged.map (·.size)).sum ≠ size)
    (corrupted "staged chunks changed during publication")
  storeComposite c sha256 size "staged blob disappeared while being stored"
    (staged.map fun r => (r.seq, r.blobId, r.size))

/-! ## 3. Reading -/

def tooDeep : PgError := corrupted "blob extent nesting is too deep"

def missingBlob : PgError := corrupted "object references a missing blob"

/-- `_read_blob` with `levels` = 65 - `p_depth` levels left. -/
def readBlobAt (s : Db) : Nat → Bytes → Except PgError Bytes
  | 0, _ => .error tooDeep
  | levels + 1, k =>
    match s.blob.lookup k with
    | none => .error missingBlob
    | some b => do
      let body ← match b.storage with
        | .inline data => .ok data
        | .chunked => .ok ((s.chunksOf k).flatMap (·.data))
        | .composite => do
            let pieces ← ((s.extentsOf k).filter fun e => 0 < e.length).mapM fun e => do
              let source ← readBlobAt s levels e.sourceBlobId
              let start ← int4 (e.sourceOffset + 1)
              let count ← int4 e.length
              .ok (substring source start count)
            .ok pieces.flatten
      if body.length ≠ b.size then
        .error (corrupted ("corrupt blob " ++ String.ofList (hex k)))
      else .ok body

def readBlob (s : Db) (k : Bytes) : Except PgError Bytes := readBlobAt s 65 k

/-- `string_agg`: NULL over no rows. -/
def stringAgg (pieces : List Bytes) : Option Bytes :=
  if pieces.isEmpty then none else some pieces.flatten

/-- `_read_blob_range` with `levels` = 65 - `p_depth` levels left. -/
def readBlobRangeAt (s : Db) : Nat → Bytes → Int → Option Int → Except PgError Bytes
  | 0, _, _, _ => .error tooDeep
  | levels + 1, k, pStart, pEnd =>
    match s.blob.lookup k with
    | none => .error missingBlob
    | some b =>
      if pStart < 0 ∨ b.size ≤ pStart then .error invalidRange
      else
        let vEnd : Int := min (pEnd.getD (b.size - 1)) (b.size - 1)
        if vEnd < pStart then .error invalidRange
        else
          match b.storage with
          | .inline data => do
              let start ← int4 (pStart + 1)
              let count ← int4 (vEnd - pStart + 1)
              .ok (substring data start count)
          | .chunked => do
              let first ← int4 (pStart / b.chunkSize)
              let last ← int4 (vEnd / b.chunkSize)
              match stringAgg (((s.chunksOf k).filter
                  fun r => first ≤ r.seq ∧ (r.seq : Int) ≤ last).map (·.data)) with
              | none => .error (corrupted "object blob has missing chunks")
              | some chunks => do
                  let start ← int4 (pStart - first * b.chunkSize + 1)
                  let count ← int4 (vEnd - pStart + 1)
                  let piece := substring chunks start count
                  if (piece.length : Int) ≠ vEnd - pStart + 1 then
                    .error (corrupted "blob range has missing or overlapping extents")
                  else .ok piece
          | .composite => do
              let pieces ← ((s.extentsOf k).filter fun e =>
                  0 < e.length ∧ (e.logicalOffset : Int) ≤ vEnd ∧
                    pStart < e.logicalOffset + e.length).mapM fun e =>
                readBlobRangeAt s levels e.sourceBlobId
                  (e.sourceOffset + max pStart e.logicalOffset - e.logicalOffset)
                  (some (e.sourceOffset + min vEnd (e.logicalOffset + e.length - 1)
                    - e.logicalOffset))
              match stringAgg pieces with
              | none => .error (corrupted "blob range has missing or overlapping extents")
              | some piece =>
                  if (piece.length : Int) ≠ vEnd - pStart + 1 then
                    .error (corrupted "blob range has missing or overlapping extents")
                  else .ok piece

def readBlobRange (s : Db) (k : Bytes) (pStart : Int) (pEnd : Option Int) :
    Except PgError Bytes :=
  readBlobRangeAt s 65 k pStart pEnd

end Pgs3
