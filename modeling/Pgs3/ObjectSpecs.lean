import Pgs3.Objects
import Pgs3.StatementSpecs

/-!
# What the object steps do

Inversion lemmas for the three steps that change the object table: publishing a version
(`insertLatest`), deleting one (`removeVersion`) and filling a forked bucket
(`forkInto`).
-/

namespace Pgs3

open Foundation Foundation.Tx

variable {c : Context} {b : Nat} {k name : Text} {t n m : Option Text} {j : Jsonb} {s s' : Db}

theorem yields_insertLatest {p : Option Payload} {row : ObjectRow}
    (h : Yields (insertLatest c b k p t j) s row s') :
    row = ⟨b, k, s.objectVersionIdSeq + 1, true, p, t, j, c.now, c.actor⟩ ∧
      (∃ r ∈ s.bucket.rows, r.bucketId = b) ∧ (∀ k, row.blobId = some k → s.HasBlob k) ∧
      ∃ object, object.rows = s.object.rows.map (setLatest (isLatestOf b k) false) ++ [row] ∧
        s' = ({ s with object := object, objectVersionIdSeq := s.objectVersionIdSeq + 1 } :
          Db).addRefs fun k => (objectRefs [row] k : Int) := by
  obtain ⟨_, s₁, hdemote, h⟩ := yields_bind.mp h
  obtain ⟨demoted, hrows₁, rfl⟩ := yields_updateIsLatest hdemote
  obtain ⟨n, s₂, hnext, h⟩ := yields_bind.mp h
  obtain ⟨rfl, rfl⟩ := yields_nextVersionId hnext
  obtain ⟨_, s₃, hins, h⟩ := yields_bind.mp h
  obtain ⟨rfl, rfl⟩ := yields_pure.mp h
  obtain ⟨hbucket, hblob, object, hrows, rfl⟩ := yields_insertObject hins
  refine ⟨rfl, hbucket, hblob, object, ?_, rfl⟩
  rw [hrows]
  exact congrArg (· ++ _) hrows₁

theorem yields_bucketIdOf {id : Nat} (h : Yields (bucketIdOf c name) s id s') :
    s' = s ∧ ∃ r ∈ s.bucket.rows, r.bucketId = id ∧ r.name = name := by
  simp only [bucketIdOf, yields_get_bind, yields_orRaise_bind, yields_pure] at h
  obtain ⟨r, hr, rfl, rfl⟩ := h
  have hname : r.name = name := by
    have := List.find?_some hr
    simp only [decide_eq_true_eq] at this
    exact this.1
  exact ⟨rfl, r, List.mem_of_find?_eq_some hr, rfl, hname⟩

theorem yields_bucketIdForChild {expected : Option Nat} {id : Nat}
    (h : Yields (bucketIdForChild c name expected) s id s') :
    s' = s ∧ (∀ e ∈ expected, id = e) ∧ ∃ r ∈ s.bucket.rows, r.bucketId = id ∧ r.name = name := by
  unfold bucketIdForChild at h
  obtain ⟨id', s₁, hid, hrest⟩ := yields_bind.mp h
  obtain ⟨rfl, hbucket⟩ := yields_bucketIdOf hid
  simp only [yields_raiseIf_bind, yields_pure] at hrest
  obtain ⟨hexp, rfl, rfl⟩ := hrest
  exact ⟨rfl, fun e he => by_contra fun hne => hexp ⟨e, he, hne⟩, hbucket⟩

theorem yields_checkLatest {u : Unit} (h : Yields (checkLatest b k n m) s u s') :
    s' = s ∧ checkWritePreconditions (s.latestRow b k) n m = .ok () := by
  simp only [checkLatest, yields_get_bind, yields_reading] at h
  exact ⟨h.2, h.1⟩

variable {bucket : Text} {info : ObjectInfo}

theorem yields_commitBodyLocked {body sha256 : Bytes} {etag : Text}
    (h : Yields (commitBodyLocked c b bucket k body sha256 etag t j n m) s info s') :
    (∃ r ∈ s.bucket.rows, r.bucketId = b ∧ r.name = bucket) ∧
      checkWritePreconditions (s.latestRow b k) n m = .ok () ∧ ∃ blobId s₁ row,
      Yields (ensureBlob c sha256 body) s blobId s₁ ∧
      Yields (insertLatest c b k (some ⟨body.length, lower etag, blobId⟩) t j) s₁ row s' ∧
      info = ⟨bucket, row⟩ := by
  unfold commitBodyLocked at h
  obtain ⟨id, s₁, hid, hafter⟩ := yields_bind.mp h
  obtain ⟨rfl, hexpected, hname⟩ := yields_bucketIdForChild hid
  obtain rfl := hexpected b rfl
  simp only [validateKey, yields_raiseIf_bind] at hafter
  obtain ⟨_, _, _, _, hafter⟩ := hafter
  obtain ⟨_, s₂, hcheck, hnext⟩ := yields_bind.mp hafter
  obtain ⟨rfl, hcheck⟩ := yields_checkLatest hcheck
  obtain ⟨blobId, s₃, hblob, hthen⟩ := yields_bind.mp hnext
  obtain ⟨row, s₄, hrow, hend⟩ := yields_bind.mp hthen
  obtain ⟨rfl, rfl⟩ := yields_pure.mp hend
  exact ⟨hname, hcheck, blobId, s₃, row, hblob, hrow, rfl⟩

theorem yields_commitCanonicalLocked {size : Nat} {sha256 blobId : Bytes} {etag : Text}
    (h : Yields (commitCanonicalLocked c b bucket k size sha256 etag blobId t j n m) s info s') :
    (∃ r ∈ s.bucket.rows, r.bucketId = b ∧ r.name = bucket) ∧
      checkWritePreconditions (s.latestRow b k) n m = .ok () ∧ blobId = sha256 ∧
      (∃ r, s.blob.lookup blobId = some r ∧ r.size = size) ∧ ∃ row,
      Yields (insertLatest c b k (some ⟨size, lower etag, blobId⟩) t j) s row s' ∧
      info = ⟨bucket, row⟩ := by
  unfold commitCanonicalLocked at h
  obtain ⟨id, s₁, hid, hafter⟩ := yields_bind.mp h
  obtain ⟨rfl, hexpected, hname⟩ := yields_bucketIdForChild hid
  obtain rfl := hexpected b rfl
  simp only [validateKey, yields_raiseIf_bind, yields_get_bind] at hafter
  obtain ⟨_, hsha, _, hsize, hafter⟩ := hafter
  obtain ⟨_, s₂, hcheck, hnext⟩ := yields_bind.mp hafter
  obtain ⟨rfl, hcheck⟩ := yields_checkLatest hcheck
  obtain ⟨row, s₄, hrow, hthen⟩ := yields_bind.mp hnext
  obtain ⟨rfl, rfl⟩ := yields_pure.mp hthen
  push Not at hsha hsize
  exact ⟨hname, hcheck, hsha.2.2, Option.map_eq_some_iff.mp hsize, row, hrow, rfl⟩

theorem yields_commitReferenceLocked {source : ObjectRow}
    (h : Yields (commitReferenceLocked c b bucket k source t j n m) s info s') :
    checkWritePreconditions (s.latestRow b k) n m = .ok () ∧ ∃ payload row,
      source.payload = some payload ∧ s.HasBlob payload.sha256 ∧
      Yields (insertLatest c b k (some payload) t j) s row s' ∧ info = ⟨bucket, row⟩ := by
  unfold commitReferenceLocked at h
  obtain ⟨_, s₁, hid, hafter⟩ := yields_bind.mp h
  obtain ⟨rfl, _⟩ := yields_bucketIdForChild hid
  simp only [validateKey, yields_raiseIf_bind, yields_orRaise_bind] at hafter
  obtain ⟨_, payload, hpayload, _, hafter⟩ := hafter
  obtain ⟨_, s₂, hcheck, hnext⟩ := yields_bind.mp hafter
  obtain ⟨rfl, hcheck⟩ := yields_checkLatest hcheck
  simp only [yields_get_bind, yields_raiseIf_bind] at hnext
  obtain ⟨hblob, hnext⟩ := hnext
  obtain ⟨row, s₄, hrow, hthen⟩ := yields_bind.mp hnext
  obtain ⟨rfl, rfl⟩ := yields_pure.mp hthen
  exact ⟨hcheck, payload, row, hpayload, hasBlob_of_not_isNone hblob, hrow, rfl⟩

/-- The rows of a key after a version of it was deleted. -/
def rowsWithout (rows : List ObjectRow) (b : Nat) (k : Text) (v : Int) : List ObjectRow :=
  rows.filter fun o => !isVersionOf b k v o

def isGreatestOf (rows : List ObjectRow) (b : Nat) (k : Text) (o : ObjectRow) : Bool :=
  decide (o.bucketId = b ∧ o.key = k ∧ some o.versionId = greatestVersion rows b k)

theorem yields_removeVersion {v : Int} {r : DeleteResult}
    (h : Yields (removeVersion b k v) s r s') :
    (s' = s ∧ ∀ o ∈ s.object.rows, isVersionOf b k v o = false) ∨
      ∃ o ∈ s.object.rows, isVersionOf b k v o = true ∧ ∃ object,
        object.rows = (if o.isLatest = true then
            (rowsWithout s.object.rows b k v).map
              (setLatest (isGreatestOf (rowsWithout s.object.rows b k v) b k) true)
          else rowsWithout s.object.rows b k v) ∧
        s' = ({ s with object := object } : Db).addRefs fun k' =>
          - (objectRefs (s.object.rows.filter (isVersionOf b k v)) k' : Int) := by
  simp only [removeVersion, yields_get_bind] at h
  cases hf : s.object.rows.find? (isVersionOf b k v) with
  | none =>
    rw [hf] at h
    refine Or.inl ⟨(yields_pure.mp h).2, fun o ho => ?_⟩
    simpa using List.find?_eq_none.mp hf o ho
  | some o =>
    rw [hf] at h
    refine Or.inr ⟨o, List.mem_of_find?_eq_some hf, List.find?_some hf, ?_⟩
    obtain ⟨_, s₁, hdel, h⟩ := yields_bind.mp h
    obtain rfl := yields_deleteObjects hdel
    rw [yields_get_bind] at h
    obtain ⟨_, s₂, hpromote, h⟩ := yields_bind.mp h
    obtain ⟨_, rfl⟩ := yields_pure.mp h
    rcases yields_whenever.mp hpromote with ⟨hl, hup⟩ | ⟨hl, rfl⟩
    · obtain ⟨object, hrows, rfl⟩ := yields_updateIsLatest hup
      exact ⟨object, by rw [if_pos hl]; exact hrows, rfl⟩
    · exact ⟨s.object.delete (isVersionOf b k v), by rw [if_neg hl]; rfl, rfl⟩

variable {source : Nat}

theorem mem_forkRows {rows : List ObjectRow} {destination seq : Nat} {o : ObjectRow}
    (h : o ∈ forkRows rows source destination seq c) :
    ∃ r ∈ rows, r.bucketId = source ∧ r.isLatest = true ∧ o.key = r.key ∧
      o.payload = r.payload ∧ o.bucketId = destination ∧ o.isLatest = true ∧ seq < o.versionId ∧
      o.versionId ≤ seq + (forkRows rows source destination seq c).length := by
  obtain ⟨⟨r, i⟩, hp, rfl⟩ := List.mem_map.mp h
  have hi : i < (rows.filter fun o => decide (o.bucketId = source ∧ o.isLatest)).length := by
    have := List.snd_lt_of_mem_zipIdx hp
    simpa using this
  have hr := List.mem_filter.mp (List.fst_mem_of_mem_zipIdx hp)
  have hsel : r.bucketId = source ∧ r.isLatest = true := by simpa using hr.2
  refine ⟨r, hr.1, hsel.1, hsel.2, rfl, rfl, rfl, rfl, ?_, ?_⟩
  · show seq < seq + i + 1
    omega
  · show seq + i + 1 ≤ _
    rw [forkRows, List.length_map, List.length_zipIdx]
    omega

theorem yields_forkFill {r : BucketRow × List ObjectRow}
    (h : Yields (forkFill c source name j) s r s') :
    r.1 = ⟨s.bucketIdSeq + 1, name, c.actor, c.now, j⟩ ∧
      r.2 = forkRows s.object.rows source (s.bucketIdSeq + 1) s.objectVersionIdSeq c ∧
      ∃ bucket object, s.bucket.insert r.1 = some bucket ∧ s.object.insertAll r.2 = some object ∧
        s' = { s with
          bucket := bucket, bucketIdSeq := s.bucketIdSeq + 1, object := object,
          objectVersionIdSeq := s.objectVersionIdSeq + r.2.length } := by
  simp only [forkFill, forkInsert, insertBucket, bind_assoc, yields_get_bind,
    yields_orRaise_bind, yields_raiseIf_bind, yields_modify_bind, pure_bind, yields_pure] at h
  obtain ⟨_, bucket, hbucket, object, hobject, _, rfl, rfl⟩ := h
  exact ⟨rfl, rfl, bucket, object, hbucket, hobject, rfl⟩

theorem yields_forkInto {n : Nat} (h : Yields (forkInto c source name j) s n s') :
    ∃ id bucket object, id = s.bucketIdSeq + 1 ∧ (∀ r ∈ s.bucket.rows, r.bucketId ≠ id) ∧
      bucket.rows = s.bucket.rows ++ [⟨id, name, c.actor, c.now, j⟩] ∧
      object.rows = s.object.rows
        ++ forkRows s.object.rows source id s.objectVersionIdSeq c ∧
      s' = ({ s with
          bucket := bucket, bucketIdSeq := id, object := object,
          objectVersionIdSeq := s.objectVersionIdSeq
            + (forkRows s.object.rows source id s.objectVersionIdSeq c).length } : Db).addRefs
        fun k => (objectRefs (forkRows s.object.rows source id s.objectVersionIdSeq c) k : Int)
        := by
  obtain ⟨r, s₁, hfill, h⟩ := yields_bind.mp h
  obtain ⟨_, s₂, hbump, h⟩ := yields_bind.mp h
  obtain ⟨_, rfl⟩ := yields_pure.mp h
  obtain ⟨hr, hrows, bucket, object, hbucket, hobject, rfl⟩ := yields_forkFill hfill
  rw [hr] at hbucket
  rw [hrows] at hobject hbump
  obtain ⟨hfresh, hb⟩ := Table.insert_eq_some hbucket
  exact ⟨_, bucket, object, rfl, hfresh, hb, Table.insertAll_rows hobject,
    yields_addRefcount hbump⟩

/-! Storing a blob keeps what the statements it is made of keep. -/

section Stored

variable {I : Db → Prop} (hblob : ∀ row : BlobRow, row.refcount = 0 → Keeps I (insertBlob row))

theorem claimBlob_keeps {row : BlobRow} {gone : String} (h : Keeps I (insertBlob row)) :
    Keeps I (claimBlob row gone) := by
  refine .bind h fun _ => .bind .get fun _ => ?_
  exact .bind (.orRaise _ _) fun _ => .bind (.raiseIf _ _) fun _ => .pure _

include hblob in
theorem ensureBlob_keeps (hchunks : ∀ rows, Keeps I (insertChunks rows)) (c : Context)
    (sha256 body : Bytes) : Keeps I (ensureBlob c sha256 body) := by
  refine .bind (.raiseIf _ _) fun _ => .bind (.raiseIf _ _) fun _ => ?_
  refine .bind (claimBlob_keeps (hblob _ rfl)) fun _ => ?_
  exact .bind (.whenever (hchunks _)) fun _ => .pure _

include hblob in
theorem storeComposite_keeps (hextents : ∀ rows, Keeps I (insertBlobExtents rows)) (c : Context)
    (sha256 : Bytes) (size : Nat) (gone : String) (sources : List (Nat × Bytes × Nat)) :
    Keeps I (storeComposite c sha256 size gone sources) := by
  refine .bind (claimBlob_keeps (hblob _ rfl)) fun _ => ?_
  exact .bind (.whenever (hextents _)) fun _ => .pure _

end Stored

end Pgs3
