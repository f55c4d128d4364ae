import Pgs3.Statements

/-!
# What each statement does

One inversion lemma for each statement of `Statements`: from a finished run, the exact new
state and what the constraints guarantee about it.  The row triggers are summed up first:
however many rows a statement touches, its triggers together are one `Db.addRefs`.
Everything later cites these lemmas and never unfolds a statement again.
-/

namespace Pgs3

open Foundation Foundation.Tx

variable {s s' : Db} {u : PUnit}

/-! ## 1. Reference counts -/

def Db.HasBlob (s : Db) (k : Bytes) : Prop := ∃ b ∈ s.blob.rows, b.sha256 = k

theorem isSome_lookup_blob {k : Bytes} : (s.blob.lookup k).isSome ↔ s.HasBlob k :=
  Table.lookup_isSome_iff

theorem hasBlob_of_not_isNone {k : Bytes} (h : ¬ (s.blob.lookup k).isNone = true) :
    s.HasBlob k := by
  rw [← isSome_lookup_blob]
  cases hl : s.blob.lookup k with
  | none => simp [hl] at h
  | some b => rfl

theorem Db.addRefs_addRefs (s : Db) (d e : Bytes → Int) :
    (s.addRefs d).addRefs e = s.addRefs fun k => d k + e k := by
  unfold Db.addRefs
  congr 1
  apply Table.ext
  simp only [Table.update_rows, List.map_map]
  apply List.map_congr_left
  intro b _
  simp only [Function.comp_apply, BlobRow.addRef, Int.add_assoc]

theorem Db.addRefs_zero {d : Bytes → Int} (h : ∀ k, d k = 0) : s.addRefs d = s := by
  have hrow : BlobRow.addRef d = id := by
    funext b
    simp only [BlobRow.addRef, h, Int.add_zero, id]
  unfold Db.addRefs
  have ht : s.blob.update (BlobRow.addRef d) (BlobRow.addRef_sha256 d) = s.blob := by
    apply Table.ext
    rw [Table.update_rows, List.map_congr_left (fun b _ => congrFun hrow b), List.map_id]
  rw [ht]

theorem Db.addRefs_congr {d e : Bytes → Int} (h : ∀ k, d k = e k) : s.addRefs d = s.addRefs e := by
  rw [funext h]

theorem yields_addRefcount {delta : Bytes → Int} {u : Unit}
    (h : Yields (addRefcount delta) s u s') : s' = s.addRefs delta := by
  simp only [addRefcount, yields_bind, yields_get, yields_raiseIf, yields_modify] at h
  obtain ⟨_, _, ⟨rfl, rfl⟩, _, _, ⟨-, rfl⟩, rfl⟩ := h
  rfl

def RowEvent.delta : RowEvent → Bytes → Int
  | .insert new, k => if k = new then 1 else 0
  | .delete old, k => if k = old then -1 else 0
  | .update old new, k => (if k = new then 1 else 0) - (if k = old then 1 else 0)

theorem yields_rowReference {event : RowEvent} {u : Unit} (h : Yields (rowReference event) s u s') :
    s' = s.addRefs event.delta := by
  cases event with
  | insert new => exact yields_addRefcount h
  | delete old => exact yields_addRefcount h
  | update old new =>
    rcases yields_whenever.mp h with ⟨_, h⟩ | ⟨heq, rfl⟩
    · obtain ⟨_, s₁, h₁, h₂⟩ := yields_bind.mp h
      rw [yields_addRefcount h₂, yields_addRefcount h₁, Db.addRefs_addRefs]
      apply Db.addRefs_congr
      intro k
      simp only [RowEvent.delta]
      split_ifs <;> omega
    · -- the reference did not change, so nothing was counted
      have hon : new = old := not_not.mp heq
      rw [Db.addRefs_zero]
      intro k
      simp only [RowEvent.delta, hon, Int.sub_self]

theorem yields_forM_rowReference {α : Type} {xs : List α} {event : α → RowEvent}
    (h : Yields (xs.forM fun x => rowReference (event x)) s u s') :
    s' = s.addRefs fun k => (xs.map fun x => (event x).delta k).sum := by
  induction xs generalizing s with
  | nil =>
    have hs : s' = s := (yields_pure.mp h).2
    rw [hs, Db.addRefs_zero]
    intro k
    rfl
  | cons x xs ih =>
    obtain ⟨_, s₁, h₁, h₂⟩ := yields_bind.mp h
    rw [ih h₂, yields_rowReference h₁, Db.addRefs_addRefs]
    rfl

theorem sum_events {α : Type} (d : Int) (xs : List α) (f : α → Bytes) (k : Bytes) :
    (xs.map fun x => if k = f x then d else 0).sum = d * (xs.countP fun x => f x = k : Nat) := by
  induction xs with
  | nil => simp
  | cons x xs ih =>
    rw [List.map_cons, List.sum_cons, ih, List.countP_cons]
    by_cases h : f x = k
    · simp [h, Int.mul_add, Int.add_comm]
    · simp [h, Ne.symm h]

theorem yields_insertRefs {α : Type} {xs : List α} {f : α → Bytes}
    (h : Yields (xs.forM fun x => rowReference (.insert (f x))) s u s') :
    s' = s.addRefs fun k => ((xs.countP fun x => f x = k : Nat) : Int) := by
  rw [yields_forM_rowReference h]
  exact Db.addRefs_congr fun k => (sum_events 1 xs f k).trans (Int.one_mul _)

theorem yields_deleteRefs {α : Type} {xs : List α} {f : α → Bytes}
    (h : Yields (xs.forM fun x => rowReference (.delete (f x))) s u s') :
    s' = s.addRefs fun k => - ((xs.countP fun x => f x = k : Nat) : Int) := by
  rw [yields_forM_rowReference h]
  exact Db.addRefs_congr fun k => (sum_events (-1) xs f k).trans (Int.neg_one_mul _)

/-! ## 2. Blobs and their payload rows -/

theorem yields_insertBlob {row : BlobRow} {n : Nat} (h : Yields (insertBlob row) s n s') :
    (n = 0 ∧ s' = s ∧ s.HasBlob row.sha256) ∨ (n = 1 ∧ ¬ s.HasBlob row.sha256 ∧
        ∃ blob, blob.rows = s.blob.rows ++ [row] ∧ s' = { s with blob := blob }) := by
  simp only [insertBlob, yields_get_bind] at h
  cases hi : Table.insert s.blob row with
  | none =>
    simp only [hi, yields_pure] at h
    refine Or.inl ⟨h.1, h.2, ?_⟩
    -- without an insertion the key was taken
    by_contra hno
    obtain ⟨t, ht, _⟩ := Table.exists_insert (t := s.blob) (a := row)
      fun b hb hk => hno ⟨b, hb, hk⟩
    rw [hi] at ht
    exact absurd ht (by simp)
  | some blob =>
    simp only [hi, yields_modify_bind, yields_pure] at h
    obtain ⟨hfresh, hrows⟩ := Table.insert_eq_some hi
    refine Or.inr ⟨h.1, ?_, blob, hrows, h.2⟩
    rintro ⟨b, hb, hk⟩
    exact hfresh b hb hk

theorem yields_insertChunks {rows : List ChunkRow} (h : Yields (insertChunks rows) s u s') :
    (∀ c ∈ rows, s.HasBlob c.blobId) ∧
      ∃ chunk, chunk.rows = s.chunk.rows ++ rows ∧ s' = { s with chunk := chunk } := by
  simp only [insertChunks, yields_get_bind, yields_raiseIf_bind, yields_orRaise_bind,
    yields_modify, not_exists, not_and] at h
  obtain ⟨hfk, chunk, hchunk, rfl⟩ := h
  exact ⟨fun c hc => hasBlob_of_not_isNone (hfk c hc), chunk, Table.insertAll_rows hchunk, rfl⟩

theorem yields_insertBlobExtents {rows : List BlobExtentRow}
    (h : Yields (insertBlobExtents rows) s u s') :
    (∀ e ∈ rows, e.finalBlobId ≠ e.sourceBlobId ∧ s.HasBlob e.finalBlobId ∧
      s.HasBlob e.sourceBlobId) ∧
      ∃ blobExtent, blobExtent.rows = s.blobExtent.rows ++ rows ∧
        s' = ({ s with blobExtent := blobExtent } : Db).addRefs fun k =>
          ((rows.countP fun e => e.sourceBlobId = k : Nat) : Int) := by
  simp only [insertBlobExtents, yields_get_bind, yields_raiseIf_bind, yields_orRaise_bind,
    yields_modify_bind, not_exists, not_and] at h
  obtain ⟨hself, hfinal, hsource, blobExtent, hins, h⟩ := h
  refine ⟨fun e he => ⟨hself e he, hasBlob_of_not_isNone (hfinal e he),
    hasBlob_of_not_isNone (hsource e he)⟩, blobExtent, Table.insertAll_rows hins, ?_⟩
  exact yields_insertRefs h

/-- The database without a blob and the rows that belong to it. -/
def Db.dropBlob (s : Db) (k : Bytes) : Db :=
  { s with
    blob := s.blob.delete fun b => b.sha256 = k
    chunk := s.chunk.delete fun c => c.blobId = k
    blobExtent := s.blobExtent.delete fun e => e.finalBlobId = k }

/-- A blob can be deleted only when nothing names it as content or source. -/
theorem yields_deleteBlob {k : Bytes} (h : Yields (deleteBlob k) s u s') :
    ((∀ o ∈ s.object.rows, o.blobId ≠ some k) ∧ (∀ c ∈ s.uploadChunk.rows, c.blobId ≠ k) ∧
      (∀ p ∈ s.uploadPart.rows, p.sha256 ≠ k) ∧
      (∀ e ∈ s.blobExtent.rows, e.sourceBlobId ≠ k)) ∧
    s' = (s.dropBlob k).addRefs fun j =>
      - (((s.blobExtent.rows.filter fun e => e.finalBlobId = k).countP
          fun e => e.sourceBlobId = j : Nat) : Int) := by
  simp only [deleteBlob, yields_get_bind, yields_raiseIf_bind, yields_modify_bind, not_exists,
    not_and] at h
  obtain ⟨ho, hc, hp, he, h⟩ := h
  exact ⟨⟨ho, hc, hp, he⟩, yields_deleteRefs h⟩

/-! ## 3. Object versions -/

theorem yields_insertObject {row : ObjectRow} (h : Yields (insertObject row) s u s') :
    (∃ b ∈ s.bucket.rows, b.bucketId = row.bucketId) ∧ (∀ k, row.blobId = some k → s.HasBlob k) ∧
      ∃ object, object.rows = s.object.rows ++ [row] ∧
        s' = ({ s with object := object } : Db).addRefs fun k => (objectRefs [row] k : Int) := by
  simp only [insertObject, yields_get_bind, yields_raiseIf_bind, yields_orRaise_bind,
    yields_modify_bind, not_exists, not_and] at h
  obtain ⟨hbucket, hblob, object, hins, _, h⟩ := h
  refine ⟨?_, fun k hk => hasBlob_of_not_isNone (hblob k hk), object,
    (Table.insert_eq_some hins).2, yields_addRefcount h⟩
  rw [← Table.lookup_isSome_iff]
  cases hl : s.bucket.lookup row.bucketId with
  | none => simp [hl] at hbucket
  | some b => rfl

/-- The row `o` after `SET is_latest = value WHERE sel`. -/
def setLatest (sel : ObjectRow → Bool) (value : Bool) (o : ObjectRow) : ObjectRow :=
  if sel o then { o with isLatest := value } else o

theorem objectRefs_map_isLatest (rows : List ObjectRow) (value : Bool) (k : Bytes) :
    objectRefs (rows.map fun o => { o with isLatest := value }) k = objectRefs rows k := by
  unfold objectRefs
  rw [List.countP_map]
  rfl

/-- Flipping `is_latest` moves no reference. -/
theorem yields_updateIsLatest {sel : ObjectRow → Bool} {value : Bool}
    (h : Yields (updateIsLatest sel value) s u s') :
    ∃ object, object.rows = s.object.rows.map (setLatest sel value) ∧
      s' = { s with object := object } := by
  simp only [updateIsLatest, yields_get_bind, yields_raiseIf_bind, yields_modify_bind] at h
  obtain ⟨_, h⟩ := h
  refine ⟨_, ?_, (yields_addRefcount h).trans (Db.addRefs_zero fun k => ?_)⟩
  · rfl
  · rw [objectRefs_map_isLatest]
    omega

theorem yields_deleteObjects {sel : ObjectRow → Bool} (h : Yields (deleteObjects sel) s u s') :
    s' = ({ s with object := s.object.delete sel } : Db).addRefs fun k =>
      - (objectRefs (s.object.rows.filter sel) k : Int) := by
  simp only [deleteObjects, yields_get_bind, yields_modify_bind] at h
  exact yields_addRefcount h

/-! ## 4. Uploads, staged chunks and parts -/

theorem yields_insertUpload {row : UploadRow} (h : Yields (insertUpload row) s u s') :
    (∃ b ∈ s.bucket.rows, b.bucketId = row.bucketId) ∧
      ∃ upload, upload.rows = s.upload.rows ++ [row] ∧ s' = { s with upload := upload } := by
  simp only [insertUpload, yields_get_bind, yields_raiseIf_bind, yields_orRaise_bind,
    yields_modify] at h
  obtain ⟨hbucket, upload, hins, rfl⟩ := h
  refine ⟨?_, upload, (Table.insert_eq_some hins).2, rfl⟩
  rw [← Table.lookup_isSome_iff]
  cases hl : s.bucket.lookup row.bucketId with
  | none => simp [hl] at hbucket
  | some b => rfl

def oldRef (old : Option Bytes) (k : Bytes) : Int := if old = some k then 1 else 0

theorem yields_upsertUploadChunk {row : UploadChunkRow}
    (h : Yields (upsertUploadChunk row) s u s') :
    s.HasBlob row.blobId ∧
      s' = ({ s with uploadChunk := s.uploadChunk.upsert row } : Db).addRefs fun k =>
        (if k = row.blobId then 1 else 0) - oldRef ((s.uploadChunk.lookup
          (row.uploadId, row.partNumber, row.seq)).map (·.blobId)) k := by
  simp only [upsertUploadChunk, yields_get_bind, yields_raiseIf_bind, yields_modify_bind] at h
  obtain ⟨_, hblob, h⟩ := h
  refine ⟨hasBlob_of_not_isNone hblob, ?_⟩
  cases hl : s.uploadChunk.lookup (row.uploadId, row.partNumber, row.seq) with
  | none =>
    rw [hl] at h
    rw [yields_rowReference h]
    apply Db.addRefs_congr
    intro k
    simp [RowEvent.delta, oldRef]
  | some old =>
    rw [hl] at h
    rw [yields_rowReference h]
    apply Db.addRefs_congr
    intro k
    simp [RowEvent.delta, oldRef, eq_comm]

theorem yields_upsertUploadPart {row : UploadPartRow} (h : Yields (upsertUploadPart row) s u s') :
    s.HasBlob row.sha256 ∧
      s' = ({ s with uploadPart := s.uploadPart.upsert row } : Db).addRefs fun k =>
        (if k = row.sha256 then 1 else 0) - oldRef ((s.uploadPart.lookup
          (row.uploadId, row.partNumber)).map (·.sha256)) k := by
  simp only [upsertUploadPart, yields_get_bind, yields_raiseIf_bind, yields_modify_bind] at h
  obtain ⟨_, hblob, h⟩ := h
  refine ⟨hasBlob_of_not_isNone hblob, ?_⟩
  cases hl : s.uploadPart.lookup (row.uploadId, row.partNumber) with
  | none =>
    rw [hl] at h
    rw [yields_rowReference h]
    apply Db.addRefs_congr
    intro k
    simp [RowEvent.delta, oldRef]
  | some old =>
    rw [hl] at h
    rw [yields_rowReference h]
    apply Db.addRefs_congr
    intro k
    simp [RowEvent.delta, oldRef, eq_comm]

theorem yields_deleteUploadChunks {sel : UploadChunkRow → Bool}
    (h : Yields (deleteUploadChunks sel) s u s') :
    s' = ({ s with uploadChunk := s.uploadChunk.delete sel } : Db).addRefs fun k =>
      - (((s.uploadChunk.rows.filter sel).countP fun c => c.blobId = k : Nat) : Int) := by
  simp only [deleteUploadChunks, yields_get_bind, yields_modify_bind] at h
  exact yields_deleteRefs h

theorem yields_deleteUploadParts {sel : UploadPartRow → Bool}
    (h : Yields (deleteUploadParts sel) s u s') :
    s' = ({ s with uploadPart := s.uploadPart.delete sel } : Db).addRefs fun k =>
      - (((s.uploadPart.rows.filter sel).countP fun p => p.sha256 = k : Nat) : Int) := by
  simp only [deleteUploadParts, yields_get_bind, yields_modify_bind] at h
  exact yields_deleteRefs h

/-! ## 5. Buckets and the log -/

theorem yields_insertBucket {name : Text} {owner : RoleName} {now : Timestamp} {config : Jsonb}
    {id : Nat} (h : Yields (insertBucket name owner now config) s id s') :
    id = s.bucketIdSeq + 1 ∧ (∀ b ∈ s.bucket.rows, b.bucketId ≠ id) ∧
      ∃ bucket, bucket.rows = s.bucket.rows ++ [⟨id, name, owner, now, config⟩] ∧
        s' = { s with bucket := bucket, bucketIdSeq := id } := by
  simp only [insertBucket, yields_get_bind, yields_raiseIf_bind, yields_orRaise_bind,
    yields_modify_bind, yields_pure] at h
  obtain ⟨_, bucket, hins, rfl, rfl⟩ := h
  obtain ⟨hfresh, hrows⟩ := Table.insert_eq_some hins
  exact ⟨rfl, hfresh, bucket, hrows, rfl⟩

theorem yields_deleteBucketRow {id : Nat} (h : Yields (deleteBucketRow id) s u s') :
    (∀ o ∈ s.object.rows, o.bucketId ≠ id) ∧ (∀ r ∈ s.upload.rows, r.bucketId ≠ id) ∧
      s' = { s with bucket := s.bucket.delete fun b => b.bucketId = id } := by
  simp only [deleteBucketRow, yields_get_bind, yields_raiseIf_bind, yields_modify, not_exists,
    not_and] at h
  exact h

theorem yields_nextVersionId {n : Nat} (h : Yields nextVersionId s n s') :
    n = s.objectVersionIdSeq + 1 ∧ s' = { s with objectVersionIdSeq := n } := by
  simp only [nextVersionId, yields_modify_bind, yields_get_bind, yields_pure] at h
  obtain ⟨rfl, rfl⟩ := h
  exact ⟨rfl, rfl⟩

theorem yields_digest {H : Digests} {body : Bytes} {d : Bytes} : Yields (digest H body) s d s' ↔
      d = H.sha256 body ∧ s' = { s with hashed := body :: s.hashed } := by
  simp only [digest, logHashed, yields_modify_bind, yields_pure]

end Pgs3
