import Pgs3.Foundation.Locks
import Pgs3.Uploads

/-!
# The catalog that concurrent calls share, and its locks

The columns that decide which rows a call finds, which locks it takes and whether a foreign
key holds: buckets, object versions, uploads with what is staged under them, and the digest
and size of each blob.  Payload bytes, chunks, extents and reference counts are left out.  A
statement of a transaction is a read of the catalog or one of the row changes of
`CatalogWrite`; these name the rows they change, as a row lock does.

Four kinds of locks are modelled: the two families of advisory locks of
`_lock_bucket_lifecycle` and `_lock_key`, and the row locks of `pgs3.upload` and `pgs3.blob`.
An advisory lock stands for the text that `hashtextextended` is applied to: two texts are
taken to have different lock ids.
-/

namespace Pgs3.Concurrent

open Foundation Foundation.Locks

/-! ## 1. Rows and row changes -/

structure Catalog where
  bucket : List BucketRow
  object : List ObjectRow
  upload : List UploadRow
  uploadChunk : List UploadChunkRow
  uploadPart : List UploadPartRow
  /-- `sha256` and `size` of `pgs3.blob`. -/
  blob : List (Bytes × Nat)

def Catalog.empty : Catalog := ⟨[], [], [], [], [], []⟩

/-- A row change.  `insertObjects` also keeps the bucket name that the rows were written for. -/
inductive CatalogWrite where
  | insertBucket (row : BucketRow)
  | deleteBucket (bucketId : Nat)
  | insertBlob (sha256 : Bytes) (size : Nat)
  | insertObjects (bucket : Text) (rows : List ObjectRow)
  | markLatest (bucketId : Nat) (key : Text) (versions : List Nat) (value : Bool)
  | deleteObject (bucketId : Nat) (key : Text) (version : Nat)
  | insertUpload (row : UploadRow)
  | renewUpload (uploadId : Uuid) (leaseExpiresAt : Timestamp)
  | markCompleting (uploadId : Uuid) (updatedAt : Timestamp)
  | deleteUpload (uploadId : Uuid)

namespace CatalogWrite

def apply : CatalogWrite → Catalog → Catalog
  | insertBucket row, s => { s with bucket := s.bucket ++ [row] }
  | deleteBucket id, s => { s with bucket := s.bucket.filter fun b => b.bucketId ≠ id }
  | insertBlob k size, s => { s with blob := s.blob ++ [(k, size)] }
  | insertObjects _ rows, s => { s with object := s.object ++ rows }
  | markLatest id key versions value, s => { s with object := s.object.map fun o =>
      if o.bucketId = id ∧ o.key = key ∧ o.versionId ∈ versions then
        { o with isLatest := value } else o }
  | deleteObject id key version, s => { s with object := s.object.filter fun o =>
      ¬ (o.bucketId = id ∧ o.key = key ∧ o.versionId = version) }
  | insertUpload row, s => { s with upload := s.upload ++ [row] }
  | renewUpload u lease, s => { s with upload := s.upload.map fun r =>
      if r.uploadId = u then { r with leaseExpiresAt := lease } else r }
  | markCompleting u now, s => { s with upload := s.upload.map fun r =>
      if r.uploadId = u then { r with state := .completing, updatedAt := now } else r }
  | deleteUpload u, s => { s with
      upload := s.upload.filter fun r => r.uploadId ≠ u
      uploadChunk := s.uploadChunk.filter fun r => r.uploadId ≠ u
      uploadPart := s.uploadPart.filter fun r => r.uploadId ≠ u }

end CatalogWrite

/-! ## 2. Locks -/

inductive CatalogLock where
  | advisory (id : Text)
  | upload (uploadId : Uuid)
  | blob (sha256 : Bytes)
deriving DecidableEq, Repr

def unitSeparator : Char := Char.ofNat 31

/-- `'pgs3.bucket' || chr(31) || p_name`. -/
def lifecycleLock (name : Text) : CatalogLock :=
  .advisory ("pgs3.bucket".toList ++ unitSeparator :: name)

/-- `p_bucket_id::text || chr(31) || p_key`. -/
def keyLock (bucketId : Nat) (key : Text) : CatalogLock :=
  .advisory (decimal bucketId ++ unitSeparator :: key)

/-- The modes of advisory locks, and those of row locks: `FOR KEY SHARE`,
    `FOR NO KEY UPDATE` and `FOR UPDATE`. -/
inductive LockMode where
  | shared
  | exclusive
  | keyShare
  | noKeyUpdate
  | update
deriving DecidableEq, Repr

namespace LockMode

def conflict : LockMode → LockMode → Bool
  | shared, exclusive | exclusive, shared | exclusive, exclusive => true
  | keyShare, update | update, keyShare => true
  | noKeyUpdate, noKeyUpdate | noKeyUpdate, update | update, noKeyUpdate => true
  | update, update => true
  | _, _ => false

/-- Whoever holds the first mode has the second one too. -/
def covers : LockMode → LockMode → Bool
  | exclusive, shared => true
  | noKeyUpdate, keyShare => true
  | update, keyShare | update, noKeyUpdate => true
  | m, m' => m = m'

end LockMode

/-- The identity column of `pgs3.bucket` and `pgs3.object_version_id_seq`. -/
inductive CatalogSequence where
  | bucketId
  | versionId
deriving DecidableEq, Repr

abbrev system : System :=
  ⟨Catalog, CatalogWrite, CatalogLock, LockMode, CatalogSequence, PgError⟩

instance : DecidableEq system.Lock := inferInstanceAs (DecidableEq CatalogLock)

instance : DecidableEq system.Sequence := inferInstanceAs (DecidableEq CatalogSequence)

/-- PostgreSQL, with only some locks counted.  An advisory lock is given in the order of the
    requests; a row lock is had as soon as no other transaction holds one that conflicts. -/
def engine (counted : CatalogLock → Bool) : Engine system where
  apply := CatalogWrite.apply
  conflict := LockMode.conflict
  covers := LockMode.covers
  queued
    | .advisory _ => true
    | _ => false
  counted := counted
  conflict_symm := by
    intro m m'
    cases m <;> cases m' <;> rfl

def isAdvisory : CatalogLock → Bool
  | .advisory _ => true
  | _ => false

abbrev CatalogCall (α : Type) := Call system α

/-! ## 3. The two families of advisory locks -/

theorem unitSeparator_not_mem_decimal (n : Nat) : unitSeparator ∉ decimal n := by
  intro h
  have hdigit := Nat.isDigit_of_mem_toDigits (by decide) (by decide) h
  exact absurd hdigit (by decide)

theorem decimal_inj {n m : Nat} (h : decimal n = decimal m) : n = m := by
  have hread := congrArg (fun t => Nat.ofDigitChars 10 t 0) h
  simpa [decimal, Nat.ofDigitChars_toDigits] using hread

theorem append_unitSeparator_inj {a b x y : Text} (ha : unitSeparator ∉ a)
    (hb : unitSeparator ∉ b) (h : a ++ unitSeparator :: x = b ++ unitSeparator :: y) :
    a = b ∧ x = y := by
  induction a generalizing b with
  | nil =>
    cases b with
    | nil => exact ⟨rfl, (List.cons.inj h).2⟩
    | cons c b => exact absurd (List.mem_cons.mpr (Or.inl (List.cons.inj h).1)) hb
  | cons c a ih =>
    cases b with
    | nil => exact absurd (List.mem_cons.mpr (Or.inl (List.cons.inj h).1.symm)) ha
    | cons e b =>
      obtain ⟨rfl, hrest⟩ := List.cons.inj h
      obtain ⟨rfl, rfl⟩ := ih (fun hm => ha (List.mem_cons_of_mem _ hm))
        (fun hm => hb (List.mem_cons_of_mem _ hm)) hrest
      exact ⟨rfl, rfl⟩

theorem lifecycleLock_inj {name name' : Text} (h : lifecycleLock name = lifecycleLock name') :
    name = name' := by
  simpa [lifecycleLock] using h

theorem keyLock_inj {id id' : Nat} {key key' : Text} (h : keyLock id key = keyLock id' key') :
    id = id' ∧ key = key' := by
  obtain ⟨hid, hkey⟩ := append_unitSeparator_inj (unitSeparator_not_mem_decimal id)
    (unitSeparator_not_mem_decimal id') (CatalogLock.advisory.inj h)
  exact ⟨decimal_inj hid, hkey⟩

/-- A bucket id is written in digits, so no key lock is a lifecycle lock. -/
theorem lifecycleLock_ne_keyLock (name key : Text) (id : Nat) :
    lifecycleLock name ≠ keyLock id key := by
  intro h
  obtain ⟨hid, _⟩ := append_unitSeparator_inj (by decide) (unitSeparator_not_mem_decimal id)
    (CatalogLock.advisory.inj h)
  have hp : 'p' ∈ decimal id := hid ▸ (by decide)
  exact absurd (Nat.isDigit_of_mem_toDigits (by decide) (by decide) hp) (by decide)

end Pgs3.Concurrent
