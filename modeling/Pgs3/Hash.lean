import Pgs3.Blobs

/-!
# The Rust hash helpers

Translation of `src/hash.rs`.  `hash_upload_part` and `hash_blob_sequence` recompute the
digests of staged or stored content without materialising it: they walk the extent graph
(`stream_blob_range`), emit bounded blocks, and compare the SHA-256 of every blob they
read with its key (`stream_verified_blob`).  The walk refuses more than 64 levels, one
fewer than `_read_blob` accepts.

Sizes are natural numbers here, so the checks for negative values are left out, and so is
the overflow of the running totals that the digests keep.  The walk itself is given with
all of its conversions and overflow checks.
-/

namespace Pgs3

open Foundation Foundation.Tx

/-- `pgrx::error!("pgs3 canonical blob corruption: …")`. -/
def corruptBlob (message : String) : PgError :=
  ⟨.XX000, "pgs3 canonical blob corruption: " ++ message, none⟩

/-- `pgrx::error!("invalid pgs3 hash helper input: …")`. -/
def invalidHelperInput (message : String) : PgError :=
  ⟨.XX000, "invalid pgs3 hash helper input: " ++ message, none⟩

def readBlockBytes : Nat := 1024 * 1024

def maxBlobDepth : Nat := 64

/-! ## 1. Layout validation -/

structure LayoutStats where
  count : Nat
  minSeq : Option Nat
  maxSeq : Option Nat
  totalSize : Nat
  rowsValid : Bool

def layoutStats (seqs sizes : List Nat) (rowsValid : Bool) : LayoutStats :=
  ⟨seqs.length, seqs.min?, seqs.max?, sizes.sum, rowsValid⟩

def denseLayoutError (stats : LayoutStats) (expectedCount expectedSize : Nat) :
    Option String :=
  if stats.count ≠ expectedCount then
    some "layout row count does not match its recorded size"
  else if expectedCount = 0 ∧ (stats.minSeq.isSome ∨ stats.maxSeq.isSome) then
    some "empty layout has a sequence number"
  else if expectedCount ≠ 0 ∧
      (stats.minSeq ≠ some 0 ∨ stats.maxSeq ≠ some (expectedCount - 1)) then
    some "layout sequence numbers are not contiguous from zero"
  else if stats.totalSize ≠ expectedSize then
    some "layout byte count does not match the blob size"
  else if !stats.rowsValid then
    some "layout offsets or element sizes are invalid"
  else none

/-- `load_blob`: the row, with the checks made on it. -/
def loadBlob (s : Db) (id : Bytes) : Except PgError BlobRow :=
  match s.blob.lookup id with
  | none => .error (corruptBlob "a referenced blob row is missing")
  | some b =>
    if b.chunkSize = 0 then
      .error (corruptBlob "a blob has a negative size or non-positive chunk size")
    else
      match b.storage with
      | .inline data =>
          if data.length ≠ b.size then
            .error (corruptBlob "inline bytes do not match the recorded blob size")
          else if 2147483647 - 1 < b.size then
            .error (corruptBlob "an inline blob is too large for PostgreSQL substring")
          else .ok b
      | .chunked | .composite => .ok b

def chunkStats (s : Db) (b : BlobRow) : LayoutStats :=
  let rows := s.chunk.rows.filter fun c => c.blobId = b.sha256
  layoutStats (rows.map (·.seq)) (rows.map (·.data.length)) <| rows.all fun c =>
    c.seq * b.chunkSize < b.size ∧ c.data.length = min b.chunkSize (b.size - c.seq * b.chunkSize)

def validateChunkLayout (s : Db) (b : BlobRow) : Except PgError Unit :=
  let expectedCount := if b.size = 0 then 0 else (b.size - 1) / b.chunkSize + 1
  match denseLayoutError (chunkStats s b) expectedCount b.size with
  | some error => .error (corruptBlob error)
  | none => .ok ()

/-- Does each extent, in sequence order, start where the lengths before it end, and stay
    inside its source? -/
def extentsValid (s : Db) : Nat → List BlobExtentRow → Bool
  | _, [] => true
  | expected, e :: rest =>
      (match s.blob.lookup e.sourceBlobId with
       | none => false
       | some source =>
           decide (e.logicalOffset = expected ∧ e.sourceOffset ≤ source.size ∧
             e.length ≤ source.size - e.sourceOffset))
        && extentsValid s (expected + e.length) rest

def extentStats (s : Db) (b : BlobRow) : LayoutStats :=
  let rows := s.extentsOf b.sha256
  layoutStats (rows.map (·.seq)) (rows.map (·.length)) (extentsValid s 0 rows)

def validateExtentLayout (s : Db) (b : BlobRow) : Except PgError Nat :=
  let stats := extentStats s b
  match denseLayoutError stats stats.count b.size with
  | some error => .error (corruptBlob error)
  | none => .ok stats.count

/-! ## 2. Streaming -/

/-- `checked_add` and `checked_mul` on `i64`, with what is raised when they fail. -/
def bigint (n : Nat) (message : String) : Except PgError Nat :=
  if 9223372036854775807 < n then .error (corruptBlob message) else .ok n

def integer (n : Nat) (message : String) : Except PgError Nat :=
  if 2147483647 < n then .error (corruptBlob message) else .ok n

/-- A cell that payload bytes are read from: its bytes, and how the errors call it. -/
structure Cell where
  data : Option Bytes
  kind : String
  gone : String

def inlineCell (data : Bytes) : Cell :=
  ⟨some data, "inline", "inline bytes disappeared while hashing"⟩

/-- `chunk.data` of one chunk row of a blob. -/
def chunkCell (s : Db) (id : Bytes) (seq : Nat) : Cell :=
  ⟨(s.chunk.lookup (id, seq)).map (·.data), "chunk", "a chunk disappeared while hashing"⟩

/-- `fetch_inline_slice` and `fetch_chunk_slice`: a slice of the bytes of one cell. -/
def fetchSlice (cell : Cell) (offset length : Nat) : Except PgError Bytes := do
  let _position ← integer (offset + 1) (cell.kind ++ " read offset exceeds integer")
  let _length ← integer length (cell.kind ++ " read length exceeds integer")
  match cell.data with
  | none => .error (corruptBlob cell.gone)
  | some data => .ok ((data.drop offset).take length)

/-- `emit_bounded_cell`: the blocks read from one cell.  Each turn of the loop takes at
    least one byte off `length`, so `fuel = length` is never used up early. -/
def emitBoundedCell (cell : Cell) : (fuel offset length : Nat) → Except PgError (List Bytes)
  | 0, _, _ => .ok []
  | fuel + 1, offset, length =>
    if length = 0 then .ok []
    else do
      let amount := min length readBlockBytes
      let bytes ← fetchSlice cell offset amount
      if bytes.length ≠ amount then
        .error (corruptBlob "a bounded payload read returned fewer bytes than requested")
      else do
        let next ← bigint (offset + amount) "payload read offset overflows bigint"
        let rest ← emitBoundedCell cell fuel next (length - amount)
        .ok (bytes :: rest)

/-- `range_end`, as `checked_end` reports it. -/
def checkedEnd (start length size : Nat) : Except PgError Nat := do
  let stop ← bigint (start + length) "blob range overflows bigint"
  if size < stop then .error (corruptBlob "blob range exceeds its source blob")
  else .ok stop

/-- One turn of the loop over the chunks of a range `start .. stop`. -/
def emitChunk (s : Db) (id : Bytes) (chunkSize start stop seq64 : Nat) :
    Except PgError (List Bytes) := do
  let seq ← integer seq64 "chunk sequence exceeds integer"
  let chunkStart ← bigint (seq64 * chunkSize) "chunk offset overflows bigint"
  let chunkEnd ← bigint (chunkStart + chunkSize) "chunk end overflows bigint"
  let lo := max start chunkStart
  let hi := min stop chunkEnd
  emitBoundedCell (chunkCell s id seq) (hi - lo) (lo - chunkStart) (hi - lo)

/-- One turn of the loop over the extents of a blob of the given size, for its range
    `start .. stop`.  `stream` walks a range of a source. -/
def walkExtent (s : Db) (id : Bytes) (size start stop : Nat)
    (stream : Bytes → Nat → Nat → Except PgError (List Bytes)) (seq64 : Nat) :
    Except PgError (List Bytes) := do
  let seq ← integer seq64 "extent sequence exceeds integer"
  match s.blobExtent.lookup (id, seq) with
  | none => .error (corruptBlob "an extent disappeared while hashing")
  | some e => do
      let extentEnd ← checkedEnd e.logicalOffset e.length size
      if e.length = 0 ∨ stop ≤ e.logicalOffset ∨ extentEnd ≤ start then .ok []
      else do
        let lo := max start e.logicalOffset
        let hi := min stop extentEnd
        let sourceStart ← bigint (e.sourceOffset + (lo - e.logicalOffset))
          "source extent offset overflows bigint"
        stream e.sourceBlobId sourceStart (hi - lo)

/-- `stream_blob_range`, with `depth` = 64 - `path.len()` levels left.  The blocks are
    returned in the order in which they are emitted. -/
def streamBlobRange (s : Db) :
    (depth : Nat) → (path : List Bytes) → (id : Bytes) → (start length : Nat) →
      Except PgError (List Bytes)
  | 0, _, _, _, _ => .error (corruptBlob "blob extent nesting exceeds 64 levels")
  | depth + 1, path, id, start, length =>
    if path.contains id then .error (corruptBlob "blob extent graph contains a cycle")
    else do
      let b ← loadBlob s id
      let stop ← checkedEnd start length b.size
      match b.storage with
      | .inline data => emitBoundedCell (inlineCell data) length start length
      | .chunked => do
          validateChunkLayout s b
          if length = 0 then .ok []
          else do
            let first := start / b.chunkSize
            let last := (stop - 1) / b.chunkSize
            let pieces ← (List.range' first (last + 1 - first)).mapM
              (emitChunk s id b.chunkSize start stop)
            .ok pieces.flatten
      | .composite => do
          let count ← validateExtentLayout s b
          let pieces ← (List.range count).mapM
            (walkExtent s id b.size start stop (streamBlobRange s depth (id :: path)))
          .ok pieces.flatten

/-- `stream_verified_blob`: the whole content, compared with the blob's key. -/
def streamVerifiedBlob (H : Digests) (id : Bytes) : DbTx Bytes := do
  let b ← reading fun s => loadBlob s id
  let blocks ← reading fun s => streamBlobRange s maxBlobDepth [] id 0 b.size
  raiseIf (blocks.flatten.length ≠ b.size)
    (corruptBlob "a blob traversal did not read its complete logical size")
  let sha256 ← digest H blocks.flatten
  raiseIf (sha256 ≠ id) (corruptBlob "canonical payload SHA-256 does not match its blob ID")
  pure blocks.flatten

/-! ## 3. The two entry points -/

def uploadLayout (s : Db) (u : Uuid) (part : Nat) : LayoutStats :=
  let rows := s.stagedChunks u part
  layoutStats (rows.map (·.seq)) (rows.map (·.size)) true

/-- Stream the staged chunks `seq`, `seq + 1`, … in order. -/
def hashStagedChunks (H : Digests) (u : Uuid) (part : Nat) : List Nat → DbTx Bytes
  | [] => pure []
  | seq :: rest => do
      let c ← orRaise ((← get).uploadChunk.lookup (u, part, seq))
        (corruptBlob "an upload chunk disappeared while hashing")
      let bytes ← streamVerifiedBlob H c.blobId
      raiseIf (bytes.length ≠ c.size)
        (corruptBlob "an upload chunk size does not match its canonical blob")
      let more ← hashStagedChunks H u part rest
      pure (bytes ++ more)

structure StagedDigest where
  sha256 : Bytes
  md5 : Text
  totalSize : Nat
deriving DecidableEq, Repr

def hashUploadPart (H : Digests) (u : Uuid) (part : Nat) : DbTx StagedDigest := do
  raiseIf (10000 < part) (invalidHelperInput "part_number must be between 0 and 10000")
  let upload ← orRaise ((← get).upload.lookup u)
    (invalidHelperInput "the upload ID does not exist")
  raiseIf (upload.multipart = decide (part = 0))
    (invalidHelperInput "part_number 0 is only valid for a non-multipart streaming PUT")
  let stats := uploadLayout (← get) u part
  raiseIf (0 < part ∧ stats.count = 0)
    (invalidHelperInput "a multipart part must contain at least one staged chunk")
  raiseSome (denseLayoutError stats stats.count stats.totalSize) corruptBlob
  let bytes ← hashStagedChunks H u part (List.range stats.count)
  let sha256 ← digest H bytes
  raiseIf (bytes.length ≠ stats.totalSize)
    (corruptBlob "the streamed upload size changed while hashing")
  pure ⟨sha256, hex (H.md5 bytes), bytes.length⟩

def streamBlobs (H : Digests) : List Bytes → DbTx Bytes
  | [] => pure []
  | id :: rest => do
      let bytes ← streamVerifiedBlob H id
      let more ← streamBlobs H rest
      pure (bytes ++ more)

def hashBlobSequence (H : Digests) (ids : List Bytes) : DbTx (Bytes × Nat) := do
  let bytes ← streamBlobs H ids
  let sha256 ← digest H bytes
  pure (sha256, bytes.length)

end Pgs3
