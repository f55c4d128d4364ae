import Pgs3.Concurrent.Calls
import Pgs3.Foundation.LockRules

/-!
# What the bucket locks protect

The rules that every call keeps to.  A bucket row comes and goes only under the exclusive
lifecycle lock of its name, and an object version or an upload is added to a bucket only under
a lifecycle lock of its name, shared or exclusive.  So whoever holds a lifecycle lock knows
that the bucket row it has found stays, and whoever holds the exclusive one knows that no child
row appears.

The locks have one order: first the lifecycle locks by name, then the key locks by bucket id
and key.
-/

namespace Pgs3.Concurrent

open Foundation Foundation.Locks

variable {s : Catalog} {k : Bytes} {ws : List CatalogWrite} {name : Text}

/-! ## 1. Valid catalogs -/

def Catalog.HasBlob (s : Catalog) (k : Bytes) : Prop := ∃ b ∈ s.blob, b.1 = k

theorem Catalog.hasBlob_iff : s.HasBlob k ↔ s.sizeOf k ≠ none := by
  unfold Catalog.HasBlob Catalog.sizeOf
  rw [Ne, Option.map_eq_none_iff, List.find?_eq_none]
  simp

/-- The constraints of the schema on the rows of the catalog: bucket ids and names are unique,
    and the foreign keys hold. -/
structure Catalog.Valid (s : Catalog) : Prop where
  ids : ∀ b ∈ s.bucket, ∀ b' ∈ s.bucket, b.bucketId = b'.bucketId → b = b'
  names : ∀ b ∈ s.bucket, ∀ b' ∈ s.bucket, b.name = b'.name → b = b'
  objects : ∀ o ∈ s.object, ∃ b ∈ s.bucket, b.bucketId = o.bucketId
  uploads : ∀ r ∈ s.upload, ∃ b ∈ s.bucket, b.bucketId = r.bucketId
  objectBlobs : ∀ o ∈ s.object, ∀ k ∈ o.blobId, s.HasBlob k
  chunkBlobs : ∀ r ∈ s.uploadChunk, s.HasBlob r.blobId
  partBlobs : ∀ p ∈ s.uploadPart, s.HasBlob p.sha256

theorem Catalog.valid_empty : Catalog.empty.Valid := by
  constructor <;> exact fun _ h => absurd h List.not_mem_nil

/-! ## 2. What a list of writes does -/

variable {counted : CatalogLock → Bool}

/-- The catalog with the writes of a transaction on top; which locks are counted does not
    matter. -/
def overlay (ws : List CatalogWrite) (s : Catalog) : Catalog :=
  ws.foldl (fun s x => x.apply s) s

theorem overlay_append (ws : List CatalogWrite) (x : CatalogWrite) (s : Catalog) :
    overlay (ws ++ [x]) s = x.apply (overlay ws s) := by
  simp [overlay]

/-- A write that neither adds nor removes a bucket. -/
def CatalogWrite.KeepsBuckets : CatalogWrite → Prop
  | .insertBucket _ | .deleteBucket _ => False
  | _ => True

theorem bucket_apply {x : CatalogWrite} (hx : x.KeepsBuckets) (s : Catalog) :
    (x.apply s).bucket = s.bucket := by
  cases x with
  | insertBucket row => exact hx.elim
  | deleteBucket id => exact hx.elim
  | _ => rfl

/-- What every write keeps, the list of them keeps. -/
theorem overlay_keeps {I : Catalog → Prop} (hws : ∀ x ∈ ws, ∀ s, I s → I (x.apply s)) (h : I s) :
    I (overlay ws s) := by
  induction ws generalizing s with
  | nil => exact h
  | cons x ws ih =>
    exact ih (fun y hy => hws y (List.mem_cons_of_mem _ hy)) (hws x List.mem_cons_self s h)

theorem bucket_overlay (hws : ∀ x ∈ ws, x.KeepsBuckets) (s : Catalog) :
    (overlay ws s).bucket = s.bucket :=
  overlay_keeps (I := fun t => t.bucket = s.bucket)
    (fun x hx t ht => (bucket_apply (hws x hx) t).trans ht) rfl

theorem hasBlob_apply {x : CatalogWrite} (h : s.HasBlob k) : (x.apply s).HasBlob k := by
  cases x with
  | insertBlob k' size =>
    rcases h with ⟨b, hb, hk⟩
    exact ⟨b, List.mem_append_left _ hb, hk⟩
  | _ => exact h

theorem hasBlob_overlay (h : s.HasBlob k) : (overlay ws s).HasBlob k :=
  overlay_keeps (I := (·.HasBlob k)) (fun _ _ _ => hasBlob_apply) h

theorem hasBlob_overlay_insert {size : Nat} (h : .insertBlob k size ∈ ws) :
    (overlay ws s).HasBlob k := by
  induction ws generalizing s with
  | nil => cases h
  | cons x ws ih =>
    rcases List.mem_cons.mp h with rfl | h
    · have hnew : ((CatalogWrite.insertBlob k size).apply s).HasBlob k :=
        ⟨(k, size), List.mem_append_right _ (List.mem_singleton_self _), rfl⟩
      change (overlay ws ((CatalogWrite.insertBlob k size).apply s)).HasBlob k
      exact hasBlob_overlay hnew
    · exact ih h

/-- Every object version was there before or has been inserted; marks change neither its
    bucket nor its content. -/
theorem object_overlay {o : ObjectRow} (h : o ∈ (overlay ws s).object) :
    ∃ o', o'.bucketId = o.bucketId ∧ o'.blobId = o.blobId ∧
      (o' ∈ s.object ∨ ∃ name rows, .insertObjects name rows ∈ ws ∧ o' ∈ rows) := by
  induction ws generalizing s with
  | nil => exact ⟨o, rfl, rfl, Or.inl h⟩
  | cons x ws ih =>
    rcases ih h with ⟨o', hid, hblob, hold | ⟨name, rows, hmem, ho'⟩⟩
    · cases x with
      | insertObjects name rows =>
        rcases List.mem_append.mp hold with hold | hnew
        · exact ⟨o', hid, hblob, Or.inl hold⟩
        · exact ⟨o', hid, hblob, Or.inr ⟨name, rows, List.mem_cons_self, hnew⟩⟩
      | markLatest id key versions value =>
        rcases List.mem_map.mp hold with ⟨o'', ho'', rfl⟩
        refine ⟨o'', ?_, ?_, Or.inl ho''⟩
        · rw [← hid]
          split <;> rfl
        · rw [← hblob]
          split <;> rfl
      | deleteObject id key version =>
        exact ⟨o', hid, hblob, Or.inl (List.mem_filter.mp hold).1⟩
      | _ => exact ⟨o', hid, hblob, Or.inl hold⟩
    · exact ⟨o', hid, hblob, Or.inr ⟨name, rows, List.mem_cons_of_mem _ hmem, ho'⟩⟩

theorem upload_overlay {r : UploadRow} (h : r ∈ (overlay ws s).upload) :
    ∃ r', r'.uploadId = r.uploadId ∧
      r'.bucketId = r.bucketId ∧ (r' ∈ s.upload ∨ .insertUpload r' ∈ ws) := by
  induction ws generalizing s with
  | nil => exact ⟨r, rfl, rfl, Or.inl h⟩
  | cons x ws ih =>
    rcases ih h with ⟨r', hid, hbucket, hold | hmem⟩
    · cases x with
      | insertUpload row =>
        rcases List.mem_append.mp hold with hold | hnew
        · exact ⟨r', hid, hbucket, Or.inl hold⟩
        · rw [List.mem_singleton] at hnew
          exact ⟨r', hid, hbucket, Or.inr (hnew ▸ List.mem_cons_self)⟩
      | renewUpload | markCompleting =>
        rcases List.mem_map.mp hold with ⟨r'', hr'', rfl⟩
        refine ⟨r'', ?_, ?_, Or.inl hr''⟩
        · rw [← hid]
          split <;> rfl
        · rw [← hbucket]
          split <;> rfl
      | deleteUpload u => exact ⟨r', hid, hbucket, Or.inl (List.mem_filter.mp hold).1⟩
      | _ => exact ⟨r', hid, hbucket, Or.inl hold⟩
    · exact ⟨r', hid, hbucket, Or.inr (List.mem_cons_of_mem _ hmem)⟩

theorem upload_overlay_deleted {r : UploadRow} {u : Uuid} (hws : ∀ row, .insertUpload row ∉ ws)
    (hdelete : .deleteUpload u ∈ ws) (h : r ∈ (overlay ws s).upload) : r.uploadId ≠ u := by
  induction ws generalizing s with
  | nil => cases hdelete
  | cons x ws ih =>
    have hrest : ∀ row, .insertUpload row ∉ ws := fun row hm => hws row (List.mem_cons_of_mem _ hm)
    rcases List.mem_cons.mp hdelete with rfl | hdelete
    · have hlast : r ∈ (overlay ws ((CatalogWrite.deleteUpload u).apply s)).upload := h
      rcases upload_overlay hlast with ⟨r', hid, _, hold | hmem⟩
      · rw [← hid]
        exact of_decide_eq_true (List.mem_filter.mp hold).2
      · exact absurd hmem (hrest r')
    · exact ih hrest hdelete h

theorem uploadChunk_overlay : (overlay ws s).uploadChunk ⊆ s.uploadChunk := by
  refine overlay_keeps (I := fun t => t.uploadChunk ⊆ s.uploadChunk) (fun x _ _ ht => ?_) fun _ => id
  cases x with
  | deleteUpload u => exact fun _ h => ht (List.mem_filter.mp h).1
  | _ => exact ht

theorem uploadPart_overlay : (overlay ws s).uploadPart ⊆ s.uploadPart := by
  refine overlay_keeps (I := fun t => t.uploadPart ⊆ s.uploadPart) (fun x _ t ht => ?_) fun _ => id
  cases x with
  | deleteUpload u => exact fun _ h => ht (List.mem_filter.mp h).1
  | _ => exact ht

/-! ## 3. The order of the advisory locks -/

inductive LockName where
  | lifecycle (name : Text)
  | key (bucketId : Nat) (key : Text)

namespace LockName

def lock : LockName → CatalogLock
  | lifecycle name => lifecycleLock name
  | key id k => keyLock id k

theorem lock_inj {a b : LockName} (h : a.lock = b.lock) : a = b := by
  cases a with
  | lifecycle name =>
    cases b with
    | lifecycle name' => rw [lifecycleLock_inj h]
    | key id' k' => exact absurd h (lifecycleLock_ne_keyLock name k' id')
  | key id k =>
    cases b with
    | lifecycle name' => exact absurd h.symm (lifecycleLock_ne_keyLock name' k id)
    | key id' k' =>
      rcases keyLock_inj h with ⟨rfl, rfl⟩
      rfl

/-- Lifecycle locks by name, then key locks by bucket id and key. -/
def rank : LockName → ℕ ×ₗ ℕ ×ₗ Text
  | lifecycle name => toLex (0, toLex (0, name))
  | key id k => toLex (1, toLex (id, k))

theorem lifecycle_lt_key (name k : Text) (id : Nat) : (lifecycle name).rank < (key id k).rank :=
  Prod.Lex.toLex_lt_toLex.mpr (Or.inl Nat.zero_lt_one)

theorem lifecycle_lt_lifecycle {name' : Text} (h : name < name') :
    (lifecycle name).rank < (lifecycle name').rank :=
  Prod.Lex.toLex_lt_toLex.mpr (Or.inr ⟨rfl, Prod.Lex.toLex_lt_toLex.mpr (Or.inr ⟨rfl, h⟩)⟩)

theorem key_lt_key {id id' : Nat} {k k' : Text} (h : id < id' ∨ (id = id' ∧ k < k')) :
    (key id k).rank < (key id' k').rank :=
  Prod.Lex.toLex_lt_toLex.mpr (Or.inr ⟨rfl, Prod.Lex.toLex_lt_toLex.mpr h⟩)

end LockName

/-- An advisory lock that comes before another one. -/
def Before (r r' : CatalogLock) : Prop :=
  ∃ a b : LockName, r = a.lock ∧ r' = b.lock ∧ a.rank < b.rank

instance : IsStrictOrder CatalogLock Before where
  irrefl := by
    rintro r ⟨a, b, ha, hb, hlt⟩
    rw [LockName.lock_inj (ha.symm.trans hb)] at hlt
    exact lt_irrefl _ hlt
  trans := by
    rintro r r' r'' ⟨a, b, ha, hb, hlt⟩ ⟨b', e, hb', he, hlt'⟩
    rw [LockName.lock_inj (hb'.symm.trans hb)] at hlt'
    exact ⟨a, e, ha, he, hlt.trans hlt'⟩

/-- An advisory lock is of one of the two families, and is only asked for after those that come
    before it. -/
def asksInOrder (H : Held system) (r : CatalogLock) (_ : LockMode) : Prop :=
  isAdvisory r = true → ∃ a : LockName, r = a.lock ∧
    ∀ h ∈ H, ∀ b : LockName, h.1 = b.lock → b.rank < a.rank

/-! ## 4. What a commit may change -/

def Owned (H : Held system) (name : Text) : Prop := (lifecycleLock name, .exclusive) ∈ H

def Locked (H : Held system) (name : Text) : Prop :=
  (lifecycleLock name, .shared) ∈ H ∨ Owned H name

structure Guarded (H : Held system) (s s' : Catalog) : Prop where
  buckets : ∀ b, ¬ (b ∈ s.bucket ↔ b ∈ s'.bucket) → Owned H b.name
  objects : ∀ b ∈ s.bucket, ∀ o ∈ s'.object, o.bucketId = b.bucketId →
    (∃ o' ∈ s.object, o'.bucketId = b.bucketId) ∨ Locked H b.name
  uploads : ∀ b ∈ s.bucket, ∀ r ∈ s'.upload, r.bucketId = b.bucketId →
    (∃ r' ∈ s.upload, r'.uploadId = r.uploadId ∧ r'.bucketId = b.bucketId) ∨ Locked H b.name
  blobs : ∀ k, s.HasBlob k → s'.HasBlob k

/-- Bucket ids are used by bucket rows.  Version ids are not looked at. -/
def usesNumber : CatalogSequence → Nat → Catalog → Prop
  | .bucketId, n, s => ∃ b ∈ s.bucket, b.bucketId = n
  | .versionId, _, _ => False

def bucketRules : Rules system where
  inv := Catalog.Valid
  used := usesNumber
  changes := Guarded

variable {H : Held system} {D : Drawn system}

theorem Locked.not_owned {H' : Held system} (h : Locked H name)
    (hcompatible : Compatible (engine counted) H H') : ¬ Owned H' name := by
  intro howned
  rcases h with h | h
  · have hclash : true = false := hcompatible _ h _ howned rfl
    cases hclash
  · have hclash : true = false := hcompatible _ h _ howned rfl
    cases hclash

theorem Owned.not_locked {H' : Held system} (h : Owned H name)
    (hcompatible : Compatible (engine counted) H H') : ¬ Locked H' name := by
  rintro (hshared | howned)
  · have hclash : true = false := hcompatible _ h _ hshared rfl
    cases hclash
  · have hclash : true = false := hcompatible _ h _ howned rfl
    cases hclash

/-- A bucket row that was found under a lifecycle lock of its name stays. -/
theorem stable_bucket {b : BucketRow} (h : Locked H b.name) :
    bucketRules.Stable (engine counted) H D fun s => b ∈ s.bucket := by
  intro s s' henv hb
  rcases henv.commit with ⟨H', _, hcompatible, _, hchanges, _⟩
  by_contra hgone
  exact h.not_owned hcompatible (hchanges.buckets b fun hiff => hgone (hiff.mp hb))

/-- A name that was free under its exclusive lock stays free. -/
theorem stable_free (h : Owned H name) :
    bucketRules.Stable (engine counted) H D fun s => ∀ b ∈ s.bucket, b.name ≠ name := by
  intro s s' henv hfree b hb hname
  rcases henv.commit with ⟨H', _, hcompatible, _, hchanges, _⟩
  have howned : Owned H' b.name :=
    hchanges.buckets b fun hiff => hfree b (hiff.mpr hb) hname
  rw [hname] at howned
  exact Locked.not_owned (Or.inr h) hcompatible howned

/-- A bucket that was empty under its exclusive lock stays empty. -/
theorem stable_empty {b : BucketRow} (h : Owned H b.name) :
    bucketRules.Stable (engine counted) H D fun s =>
      b ∈ s.bucket ∧ ∀ o ∈ s.object, o.bucketId ≠ b.bucketId := by
  rintro s s' henv ⟨hb, hempty⟩
  refine ⟨stable_bucket (Or.inr h) s s' henv hb, ?_⟩
  intro o ho hid
  rcases henv.commit with ⟨H', _, hcompatible, _, hchanges, _⟩
  rcases hchanges.objects b hb o ho hid with ⟨o', ho', hid'⟩ | hlocked
  · exact hempty o' ho' hid'
  · exact h.not_locked hcompatible hlocked

/-- No upload is added to a bucket whose exclusive lock is held. -/
theorem stable_uploads {b : BucketRow} {us : List Uuid} (h : Owned H b.name) :
    bucketRules.Stable (engine counted) H D fun s =>
      b ∈ s.bucket ∧ ∀ r ∈ s.upload, r.bucketId = b.bucketId → r.uploadId ∈ us := by
  rintro s s' henv ⟨hb, hus⟩
  refine ⟨stable_bucket (Or.inr h) s s' henv hb, ?_⟩
  intro r hr hid
  rcases henv.commit with ⟨H', _, hcompatible, _, hchanges, _⟩
  rcases hchanges.uploads b hb r hr hid with ⟨r', hr', hu, hid'⟩ | hlocked
  · rw [← hu]
    exact hus r' hr' hid'
  · exact absurd hlocked (h.not_locked hcompatible)

theorem stable_blob : bucketRules.Stable (engine counted) H D fun s => s.HasBlob k := by
  intro s s' henv hk
  rcases henv.commit with ⟨_, _, _, _, hchanges, _⟩
  exact hchanges.blobs k hk

end Pgs3.Concurrent
