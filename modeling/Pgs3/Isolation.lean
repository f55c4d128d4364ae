import Pgs3.GcExact
import Pgs3.Latest
import Pgs3.UploadSpecs

/-!
# Buckets do not interfere

Buckets share blobs, so a call on one bucket can change the counts of blobs that the
versions of another one need, and a collection deletes blobs by their counts.  Still, a call
on one bucket and any collections leave every other bucket as it is: its versions, their
latest flags, and what they read.  After `fork_bucket` the two buckets show the same live
objects and go their own ways.

`Untouched` is proved step by step for the steps that do not write the bucket
(`step_untouched`), and every call is made of such steps once its target is known.
-/

namespace Pgs3

open Foundation Foundation.Tx

/-! ## 1. What a bucket consists of -/

def Db.versionsOf (s : Db) (b : Nat) : List ObjectRow :=
  s.object.rows.filter fun o => o.bucketId = b

theorem mem_versionsOf {s : Db} {b : Nat} {o : ObjectRow} :
    o ∈ s.versionsOf b ↔ o ∈ s.object.rows ∧ o.bucketId = b := by
  simp [Db.versionsOf]

/-- The blobs that the versions of a bucket are made of. -/
def Db.Needed (s : Db) (b : Nat) : Bytes → Prop :=
  Live (fun k => ∃ o ∈ s.versionsOf b, o.blobId = some k) s.Extends

variable {k : Bytes}

theorem Db.Needed.alive {s : Db} {b : Nat} (h : s.Needed b k) : s.Alive k := by
  induction h with
  | root hr =>
    obtain ⟨o, ho, hk⟩ := hr
    exact .root (Or.inl ⟨o, (mem_versionsOf.mp ho).1, hk⟩)
  | edge _ he ih => exact .edge ih he

/-- The bucket's row, its versions and everything they are made of are as before. -/
structure Untouched (b : Nat) (s t : Db) : Prop where
  row : t.bucket.lookup b = s.bucket.lookup b
  versions : t.versionsOf b = s.versionsOf b
  blobs : ∀ k, s.Needed b k → SameBlob s t k

theorem SameBlob.refl (s : Db) (k : Bytes) : SameBlob s s k where
  row := by
    refine ⟨fun _ => 0, ?_⟩
    cases s.blob.lookup k with
    | none => rfl
    | some b => simp [BlobRow.addRef]
  chunks := rfl
  extents := rfl

theorem SameBlob.trans {s t u : Db} (h : SameBlob s t k) (h' : SameBlob t u k) :
    SameBlob s u k where
  row := by
    obtain ⟨d, hd⟩ := h.row
    obtain ⟨e, he⟩ := h'.row
    refine ⟨fun k => d k + e k, ?_⟩
    rw [he, hd, Option.map_map]
    congr 1
    funext b
    simp [BlobRow.addRef, Int.add_assoc]
  chunks := h'.chunks.trans h.chunks
  extents := h'.extents.trans h.extents

theorem Untouched.refl (b : Nat) (s : Db) : Untouched b s s :=
  ⟨rfl, rfl, fun k _ => .refl s k⟩

theorem SameBlob.extends {s t : Db} {j : Bytes} (h : SameBlob s t j) (he : s.Extends j k) :
    t.Extends j k := by
  obtain ⟨e, hmem, hfinal, hsource⟩ := he
  have hin : e ∈ t.extentsOf j := by
    rw [h.extents]
    exact mem_extentsOf.mpr ⟨hmem, hfinal⟩
  exact ⟨e, (mem_extentsOf.mp hin).1, hfinal, hsource⟩

theorem Untouched.needed {b : Nat} {s t : Db} (h : Untouched b s t) (hk : s.Needed b k) :
    t.Needed b k := by
  induction hk with
  | root hr =>
    apply Live.root
    rw [h.versions]
    exact hr
  | edge hj he ih => exact .edge ih ((h.blobs _ hj).extends he)

theorem Untouched.trans {b : Nat} {s t u : Db} (h : Untouched b s t) (h' : Untouched b t u) :
    Untouched b s u :=
  ⟨h'.row.trans h.row, h'.versions.trans h.versions,
    fun k hk => (h.blobs k hk).trans (h'.blobs k (h.needed hk))⟩

/-- **What a user of the bucket sees is the same**: every version with its flags, and every
    content, read whole or in part. -/
structure SameBucket (b : Nat) (s t : Db) : Prop where
  row : t.bucket.lookup b = s.bucket.lookup b
  versions : t.versionsOf b = s.versionsOf b
  read : ∀ o ∈ s.versionsOf b, ∀ k, o.blobId = some k → ∀ levels,
    readBlobAt t levels k = readBlobAt s levels k
  readRange : ∀ o ∈ s.versionsOf b, ∀ k, o.blobId = some k → ∀ levels first last,
    readBlobRangeAt t levels k first last = readBlobRangeAt s levels k first last

theorem Untouched.sameBucket {b : Nat} {s t : Db} (h : Untouched b s t) : SameBucket b s t where
  row := h.row
  versions := h.versions
  read := fun o ho _ hk levels =>
    readBlobAt_congr h.blobs (fun _ _ hj he => .edge hj he) levels (.root ⟨o, ho, hk⟩)
  readRange := fun o ho _ hk levels first last =>
    readBlobRangeAt_congr h.blobs (fun _ _ hj he => .edge hj he) levels (.root ⟨o, ho, hk⟩)
      first last

/-! ## 2. Steps that do not write the bucket -/

/-- Every step, but writes only to other buckets. -/
def Permits.avoiding (b : Nat) : Permits := ⟨True, True, fun b' => b' ≠ b⟩

theorem quiet_of_with {ok : Permits} {α : Type} {m : DbTx α} (h : QuietWith ok α m) :
    Quiet α m := by
  cases h with
  | insertLatest c b k p t j => exact .insertLatest c b k p t j trivial
  | removeVersion b k v => exact .removeVersion b k v trivial
  | forkInto c b name j => exact .forkInto c b name j trivial
  | insertUpload row => exact .insertUpload row
  | updateUpload u f hf => exact .updateUpload u f hf
  | deleteUpload u => exact .deleteUpload u
  | deleteUploadChunks sel => exact .deleteUploadChunks sel
  | deleteUploadParts sel => exact .deleteUploadParts sel
  | insertBucket name owner now j => exact .insertBucket name owner now j
  | deleteBucketRow id => exact .deleteBucketRow id trivial

theorem step_of_with {ok : Permits} {α : Type} {m : DbTx α} (h : StepWith ok α m) : Step α m := by
  cases h with
  | storeComposite c sha256 size gone sources => exact .storeComposite c sha256 size gone sources
  | shallow h =>
    apply StepWith.shallow
    cases h with
    | quiet h => exact .quiet (quiet_of_with h)
    | hashing h => exact .hashing h
    | ensureBlob c sha256 body => exact .ensureBlob c sha256 body
    | upsertUploadChunk row => exact .upsertUploadChunk row
    | upsertUploadPart row h => exact .upsertUploadPart row h
    | deleteBlob k => exact .deleteBlob k trivial

theorem SameBlob.addRefs (s : Db) (d : Bytes → Int) (k : Bytes) : SameBlob s (s.addRefs d) k :=
  ⟨⟨d, lookup_addRefs s d k⟩, rfl, rfl⟩

theorem LeavesBlobs.sameBlob {s t : Db} (h : LeavesBlobs s t) (k : Bytes) : SameBlob s t k where
  row := by
    obtain ⟨d, hd⟩ := h.blob
    exact ⟨d, by rw [hd, lookup_addRefs]⟩
  chunks := by
    unfold Db.chunksOf
    rw [h.chunk]
  extents := by
    unfold Db.extentsOf
    rw [h.extent]

theorem Adds.sameBlob {s t : Db} {row : BlobRow} {cs : List ChunkRow} {es : List BlobExtentRow}
    (h : Adds s t row cs es) (hk : s.HasBlob k) : SameBlob s t k where
  row := by
    obtain ⟨d, hd⟩ := (SameBlob.refl s k).row
    exact ⟨d, (h.lookup_old hk).trans hd⟩
  chunks := h.chunksOf_old hk
  extents := h.extentsOf_old hk

theorem filter_setLatest {sel : ObjectRow → Bool} {b : Nat}
    (hsel : ∀ o, o.bucketId = b → sel o = false) (value : Bool) (rows : List ObjectRow) :
    (rows.map (setLatest sel value)).filter (fun o => decide (o.bucketId = b))
      = rows.filter fun o => decide (o.bucketId = b) := by
  induction rows with
  | nil => rfl
  | cons o rows ih =>
    by_cases hb : o.bucketId = b
    · have hkeep : setLatest sel value o = o := by simp [setLatest, hsel o hb]
      rw [List.map_cons, hkeep, List.filter_cons, List.filter_cons, ih]
    · have hother : (setLatest sel value o).bucketId ≠ b := by
        unfold setLatest
        split <;> exact hb
      rw [List.map_cons, List.filter_cons_of_neg (by simpa using hother),
        List.filter_cons_of_neg (by simpa using hb), ih]

variable {b' : Nat}

theorem isLatestOf_other {b : Nat} (hb : b' ≠ b) (k : Text) (o : ObjectRow) (ho : o.bucketId = b) :
    isLatestOf b' k o = false := by
  have hne : o.bucketId ≠ b' := fun h => hb (h.symm.trans ho)
  simp [isLatestOf, hne]

theorem isVersionOf_other {b : Nat} (hb : b' ≠ b) (k : Text) (v : Int) (o : ObjectRow)
    (ho : o.bucketId = b) : isVersionOf b' k v o = false := by
  have hne : o.bucketId ≠ b' := fun h => hb (h.symm.trans ho)
  simp [isVersionOf, hne]

theorem isGreatestOf_other {b : Nat} (hb : b' ≠ b) (rows : List ObjectRow) (k : Text)
    (o : ObjectRow) (ho : o.bucketId = b) : isGreatestOf rows b' k o = false := by
  have hne : o.bucketId ≠ b' := fun h => hb (h.symm.trans ho)
  simp [isGreatestOf, hne]

theorem filter_rowsWithout {b : Nat} (hb : b' ≠ b) (rows : List ObjectRow) (k : Text) (v : Int) :
    (rowsWithout rows b' k v).filter (fun o => decide (o.bucketId = b))
      = rows.filter fun o => decide (o.bucketId = b) := by
  rw [rowsWithout, List.filter_filter]
  apply List.filter_congr
  intro o _
  by_cases ho : o.bucketId = b
  · simp [ho, isVersionOf_other hb k v o ho]
  · simp [ho]

section Steps

variable {b : Nat} {s t : Db} {α : Type} {m : DbTx α} {a : α}

theorem insertLatest_versions (hb : b' ≠ b) {c : Context} {k : Text} {p : Option Payload}
    {ty : Option Text} {j : Jsonb} {row : ObjectRow}
    (hy : Yields (insertLatest c b' k p ty j) s row t) :
    t.bucket = s.bucket ∧ t.versionsOf b = s.versionsOf b := by
  obtain ⟨rfl, _, _, object, hrows, rfl⟩ := yields_insertLatest hy
  refine ⟨rfl, ?_⟩
  change object.rows.filter _ = _
  rw [hrows, List.filter_append, filter_setLatest (isLatestOf_other hb k),
    List.filter_cons_of_neg (by simpa using hb), List.filter_nil, List.append_nil]
  rfl

theorem removeVersion_versions (hb : b' ≠ b) {k : Text} {v : Int} {r : DeleteResult}
    (hy : Yields (removeVersion b' k v) s r t) :
    t.bucket = s.bucket ∧ t.versionsOf b = s.versionsOf b := by
  rcases yields_removeVersion hy with ⟨rfl, _⟩ | ⟨o, _, _, object, hrows, rfl⟩
  · exact ⟨rfl, rfl⟩
  · refine ⟨rfl, ?_⟩
    change object.rows.filter _ = _
    rw [hrows]
    split
    · rw [filter_setLatest (isGreatestOf_other hb _ k), filter_rowsWithout hb]
      rfl
    · rw [filter_rowsWithout hb]
      rfl

theorem lookup_append {row new : BucketRow} {bucket : Table BucketRow Nat (·.bucketId)}
    (hrow : s.bucket.lookup b = some row) (hrows : bucket.rows = s.bucket.rows ++ [new]) :
    bucket.lookup b = s.bucket.lookup b := by
  rw [hrow]
  apply Table.lookup_eq_some_iff.mpr
  rw [hrows]
  exact ⟨List.mem_append_left _ (Table.lookup_mem hrow), Table.lookup_key hrow⟩

theorem forkInto_versions {c : Context} {source : Nat} {name : Text} {j : Jsonb} {n : Nat}
    {row : BucketRow} (hrow : s.bucket.lookup b = some row)
    (hy : Yields (forkInto c source name j) s n t) :
    t.bucket.lookup b = s.bucket.lookup b ∧ t.versionsOf b = s.versionsOf b := by
  obtain ⟨id, bucket, object, _, hfresh, hbucket, hrows, rfl⟩ := yields_forkInto hy
  refine ⟨lookup_append hrow hbucket, ?_⟩
  have hne : id ≠ b := by
    have hkey := Table.lookup_key hrow
    exact fun h => hfresh row (Table.lookup_mem hrow) (hkey.trans h.symm)
  change object.rows.filter _ = _
  rw [hrows, List.filter_append]
  have hnone : (forkRows s.object.rows source id s.objectVersionIdSeq c).filter
      (fun o => decide (o.bucketId = b)) = [] := by
    rw [List.filter_eq_nil_iff]
    intro o ho
    obtain ⟨_, _, _, _, _, _, hid, _⟩ := mem_forkRows ho
    rw [hid]
    simpa using hne
  rw [hnone, List.append_nil]
  rfl

theorem quiet_versions (hm : QuietWith (.avoiding b) α m) {row : BucketRow}
    (hrow : s.bucket.lookup b = some row) (hy : Yields m s a t) :
    t.bucket.lookup b = s.bucket.lookup b ∧ t.versionsOf b = s.versionsOf b := by
  cases hm with
  | insertLatest c b' k p ty j hb =>
    obtain ⟨hbucket, hversions⟩ := insertLatest_versions hb hy
    exact ⟨by rw [hbucket], hversions⟩
  | removeVersion b' k v hb =>
    obtain ⟨hbucket, hversions⟩ := removeVersion_versions hb hy
    exact ⟨by rw [hbucket], hversions⟩
  | forkInto c source name j => exact forkInto_versions hrow hy
  | insertUpload up =>
    obtain ⟨_, upload, _, rfl⟩ := yields_insertUpload hy
    exact ⟨rfl, rfl⟩
  | updateUpload u f hf =>
    obtain rfl := yields_modify.mp hy
    exact ⟨rfl, rfl⟩
  | deleteUpload u =>
    obtain ⟨_, s₁, hupload, hy⟩ := yields_bind.mp hy
    obtain ⟨_, s₂, hchunks, hparts⟩ := yields_bind.mp hy
    obtain rfl := yields_modify.mp hupload
    rw [yields_deleteUploadParts hparts, yields_deleteUploadChunks hchunks]
    exact ⟨rfl, rfl⟩
  | deleteUploadChunks sel =>
    rw [yields_deleteUploadChunks hy]
    exact ⟨rfl, rfl⟩
  | deleteUploadParts sel =>
    rw [yields_deleteUploadParts hy]
    exact ⟨rfl, rfl⟩
  | insertBucket name owner now j =>
    obtain ⟨_, _, bucket, hbucket, rfl⟩ := yields_insertBucket hy
    exact ⟨lookup_append hrow hbucket, rfl⟩
  | deleteBucketRow id hid =>
    obtain ⟨_, _, rfl⟩ := yields_deleteBucketRow hy
    refine ⟨Table.lookup_delete ?_, rfl⟩
    intro r _ hr
    have hne : r.bucketId ≠ id := fun h => hid (h.symm.trans hr)
    simpa using hne

/-- What a bucket needs exists, and a deletion of it is refused. -/
theorem deleteBlob_spares {j : Bytes} {u : PUnit} (hy : Yields (deleteBlob j) s u t)
    (hk : s.Needed b k) : k ≠ j := by
  obtain ⟨⟨hobject, _, _, hsource⟩, _⟩ := yields_deleteBlob hy
  rintro rfl
  cases hk with
  | root hr =>
    obtain ⟨o, ho, hblob⟩ := hr
    exact hobject o (mem_versionsOf.mp ho).1 hblob
  | edge _ he =>
    obtain ⟨e, hmem, _, heq⟩ := he
    exact hsource e hmem heq

/-- **One step** that does not write the bucket leaves it untouched. -/
theorem step_untouched (hm : StepWith (.avoiding b) α m) (hrefs : RefInv s) {row : BucketRow}
    (hrow : s.bucket.lookup b = some row) (hy : Yields m s a t) : Untouched b s t := by
  have hpresent : ∀ k, s.Needed b k → s.HasBlob k := fun k hk => hrefs.alive_present hk.alive
  cases hm with
  | storeComposite c sha256 size gone sources =>
    obtain ⟨_, ⟨rfl, _⟩ | ⟨new, t', d, hadds, rfl, _⟩⟩ := yields_storeComposite hy
    · exact .refl b _
    · have hrest := hadds.rest
      refine ⟨?_, ?_, fun k hk => (hadds.sameBlob (hpresent k hk)).trans (.addRefs t' d k)⟩
      · rw [hrest]
        rfl
      · rw [hrest]
        rfl
  | shallow h =>
    cases h with
    | quiet hq =>
      obtain ⟨hlook, hversions⟩ := quiet_versions hq hrow hy
      have hl := quiet_leavesBlobs (quiet_of_with hq) hy
      exact ⟨hlook, hversions, fun k _ => hl.sameBlob k⟩
    | hashing hh =>
      cases hh with
      | logHashed body =>
        obtain rfl := yields_modify.mp hy
        exact ⟨rfl, rfl, fun k _ => ⟨(SameBlob.refl s k).row, rfl, rfl⟩⟩
    | ensureBlob c sha256 body =>
      obtain ⟨_, ⟨rfl, _⟩ | ⟨new, cs, hadds, _⟩⟩ := yields_ensureBlob hy
      · exact .refl b _
      · have hrest := hadds.rest
        refine ⟨?_, ?_, fun k hk => hadds.sameBlob (hpresent k hk)⟩
        · rw [hrest]
        · rw [hrest]
          rfl
    | upsertUploadChunk up =>
      obtain ⟨_, rfl⟩ := yields_upsertUploadChunk hy
      exact ⟨rfl, rfl, fun k _ => ⟨⟨_, lookup_addRefs _ _ k⟩, rfl, rfl⟩⟩
    | upsertUploadPart up _ =>
      obtain ⟨_, rfl⟩ := yields_upsertUploadPart hy
      exact ⟨rfl, rfl, fun k _ => ⟨⟨_, lookup_addRefs _ _ k⟩, rfl, rfl⟩⟩
    | deleteBlob j =>
      have hspared : ∀ k, s.Needed b k → k ≠ j := fun k hk => deleteBlob_spares hy hk
      obtain ⟨_, ht⟩ := yields_deleteBlob hy
      obtain ⟨d, rfl⟩ : ∃ d, t = (s.dropBlob j).addRefs d := ⟨_, ht⟩
      refine ⟨rfl, rfl, fun k hk => ?_⟩
      refine ⟨⟨d, ?_⟩, chunksOf_dropBlob (hspared k hk), extentsOf_dropBlob (hspared k hk)⟩
      rw [lookup_addRefs, lookup_dropBlob (hspared k hk)]

theorem built_untouched (hm : Built (StepWith (.avoiding b)) m) (hrefs : RefInv s)
    {row : BucketRow} (hrow : s.bucket.lookup b = some row) (hy : Yields m s a t) :
    RefInv t ∧ Untouched b s t := by
  have hkeeps : Keeps (fun t => RefInv t ∧ Untouched b s t) m := by
    refine hm.keeps fun β f hf t₁ x t₂ h hf' => ?_
    have hlook := h.2.row.trans hrow
    exact ⟨step_keeps_refs β f (step_of_with hf) t₁ x t₂ h.1 hf',
      h.2.trans (step_untouched hf h.1 hlook hf')⟩
  exact hkeeps s a t ⟨hrefs, .refl b s⟩ hy

end Steps

/-! ## 3. Calls on another bucket -/

/-- The call leaves the bucket `b` untouched wherever `b` is not the bucket `name`. -/
def SparesBucket (b : Nat) (name : Text) {α : Type} (m : DbTx α) : Prop :=
  ∀ s a t row, RefInv s → s.bucket.lookup b = some row → row.name ≠ name → Yields m s a t →
    RefInv t ∧ Untouched b s t

namespace SparesBucket

variable {b : Nat} {name : Text} {α β : Type}

theorem of_built {m : DbTx α} (hm : Built (StepWith (.avoiding b)) m) : SparesBucket b name m := by
  intro s a t row hrefs hrow _ hy
  exact built_untouched hm hrefs hrow hy

theorem of_shallow {m : DbTx α} (hm : Built (ShallowWith (.avoiding b)) m) : SparesBucket b name m :=
  of_built (built_of_shallow hm)

theorem of_quiet {m : DbTx α} (hm : Built (QuietWith (.avoiding b)) m) : SparesBucket b name m :=
  of_built (built_of_quiet hm)

theorem bind {m : DbTx α} {f : α → DbTx β} (hm : SparesBucket b name m)
    (hf : ∀ a, SparesBucket b name (f a)) : SparesBucket b name (m >>= f) := by
  intro s x t row hrefs hrow hne hy
  obtain ⟨a, s₁, hy₁, hy₂⟩ := yields_bind.mp hy
  obtain ⟨hrefs₁, h₁⟩ := hm s a s₁ row hrefs hrow hne hy₁
  obtain ⟨hrefs₂, h₂⟩ := hf a s₁ x t row hrefs₁ (h₁.row.trans hrow) hne hy₂
  exact ⟨hrefs₂, h₁.trans h₂⟩

theorem reply {m : DbTx α} {f : α → Reply} (hm : SparesBucket b name m) :
    SparesBucket b name (m >>= fun a => pure (f a)) :=
  hm.bind fun _ => of_built (.pure _)

theorem bucketIdOf {c : Context} {f : Nat → DbTx β}
    (hf : ∀ id, id ≠ b → SparesBucket b name (f id)) :
    SparesBucket b name (bucketIdOf c name >>= f) := by
  intro s x t row hrefs hrow hne hy
  obtain ⟨id, s₁, hid, hrest⟩ := yields_bind.mp hy
  obtain ⟨rfl, r, hr, rfl, hname⟩ := yields_bucketIdOf hid
  apply hf r.bucketId _ s₁ x t row hrefs hrow hne hrest
  rintro rfl
  rw [Table.lookup_of_mem hr, Option.some.injEq] at hrow
  exact hne (hrow ▸ hname)

theorem bucketIdForChild {c : Context} {f : Nat → DbTx β}
    (hf : ∀ id, id ≠ b → SparesBucket b name (f id)) :
    SparesBucket b name (bucketIdForChild c name none >>= f) := by
  simp only [Pgs3.bucketIdForChild, bind_assoc, pure_bind]
  exact .bucketIdOf fun id hid => .bind (.of_built (.raiseIf _ _)) fun _ => hf id hid

end SparesBucket

section Calls

variable {b : Nat} {name : Text} (H : Digests) (c : Context)

theorem deleteBucket_spares : SparesBucket b name (deleteBucket c name) := by
  apply SparesBucket.bucketIdOf
  intro id hid
  apply SparesBucket.of_quiet
  refine .bind .get fun _ => .bind (.raiseIf _ _) fun _ => ?_
  refine .bind (.forM fun u => .statement (.deleteUpload u.uploadId)) fun _ => ?_
  exact .statement (.deleteBucketRow _ hid)

theorem put_spares (r : PutRequest) : SparesBucket b r.bucket (put H c r) := by
  refine .bind (.of_built (.orRaise _ _)) fun body => ?_
  apply SparesBucket.bucketIdForChild
  intro id hid
  apply SparesBucket.of_shallow
  refine .bind (shallow_of_hashing (digest_hashing H _)) fun _ => .bind (.raiseIf _ _) fun _ => ?_
  exact commitBodyLocked_built c _ _ _ _ _ _ _ _ _ _ hid

theorem delete_spares (key : Text) (version : Option Int) :
    SparesBucket b name (delete c name key version) := by
  apply SparesBucket.bucketIdForChild
  intro id hid
  apply SparesBucket.of_quiet
  refine .bind (.raiseIf _ _) fun _ => ?_
  cases version with
  | none => exact .bind (.statement (.insertLatest _ _ _ _ _ _ hid)) fun _ => .pure _
  | some v => exact .statement (.removeVersion _ _ v hid)

theorem deleteEach_spares (requests : List (Text × Option Int)) :
    SparesBucket b name (deleteEach c name requests) := by
  induction requests with
  | nil => exact .of_built (.pure _)
  | cons r rest ih =>
    exact (delete_spares c r.1 r.2).bind fun _ => ih.bind fun _ => .of_built (.pure _)

theorem deleteMany_spares (keys : List (Option Text)) (versions : List (Option Int)) :
    SparesBucket b name (deleteMany c name keys versions) := by
  refine .bind (.of_quiet (bucketIdForChild_built c name none)) fun _ => ?_
  refine .bind (.of_built (.raiseIf _ _)) fun _ => ?_
  refine .bind (.of_built (.forM fun r => ?_)) fun _ => deleteEach_spares c _
  exact .bind (.raiseIf _ _) fun _ => .bind (.raiseIf _ _) fun _ => .raiseIf _ _

theorem copy_spares (r : CopyRequest) : SparesBucket b r.destinationBucket (copy c r) := by
  refine .bind (.of_quiet (bucketIdOf_built c _)) fun _ => ?_
  apply SparesBucket.bucketIdForChild
  intro id hid
  apply SparesBucket.of_quiet
  refine .bind (.raiseIf _ _) fun _ => .bind (.raiseIf _ _) fun _ => .bind .get fun _ => ?_
  refine .bind (.orRaise _ _) fun _ => .bind (.raiseIf _ _) fun _ => ?_
  exact commitReferenceLocked_built c _ _ _ _ _ _ _ _ hid

theorem restore_spares (key : Text) (version : Int) (ifMatch : Option Text) :
    SparesBucket b name (restore c name key version ifMatch) := by
  apply SparesBucket.bucketIdForChild
  intro id hid
  apply SparesBucket.of_quiet
  refine .bind (.raiseIf _ _) fun _ => .bind .get fun _ => .bind (.orRaise _ _) fun _ => ?_
  exact commitReferenceLocked_built c _ _ _ _ _ _ _ _ hid

/-! ### Uploads -/

/-- The upload, if there is one, belongs to another bucket. -/
def Db.Elsewhere (s : Db) (u : Uuid) (b : Nat) : Prop :=
  ∀ up, s.upload.lookup u = some up → up.bucketId ≠ b

variable {H c} {s t : Db} {row : BucketRow} {u : Uuid}

theorem uploadForUpdateAt_elsewhere {bucket key : Text} {multi : Option Bool} {upload : UploadRow}
    (hu : s.Elsewhere u b) (hy : Yields (uploadForUpdateAt c u bucket key multi) s upload t) :
    upload.bucketId ≠ b ∧ t.Elsewhere u b := by
  obtain ⟨row', s₁, hrow', hrest⟩ := yields_bind.mp hy
  obtain ⟨_, hlook₁, up, hlook, _, hup⟩ := yields_uploadForUpdate hrow'
  have hb : row'.bucketId ≠ b := by
    rw [hup]
    exact hu up hlook
  simp only [yields_get_bind, yields_raiseIf_bind, yields_pure] at hrest
  obtain ⟨_, rfl, rfl⟩ := hrest
  refine ⟨hb, fun up' hup' => ?_⟩
  rw [hlook₁, Option.some.injEq] at hup'
  exact hup' ▸ hb

variable (hrefs : RefInv s) (hrow : s.bucket.lookup b = some row) (hu : s.Elsewhere u b)

include hrefs hrow hu

theorem completeUpload_untouched {r : CompleteRequest} {info : ObjectInfo}
    (hy : Yields (completeUpload H c u r) s info t) : RefInv t ∧ Untouched b s t := by
  rw [completeUpload_eq] at hy
  obtain ⟨upload, s₁, hupload, hrest⟩ := yields_bind.mp hy
  obtain ⟨hrefs₁, h₁⟩ :=
    built_untouched (built_of_quiet (uploadForUpdate_built c u)) hrefs hrow hupload
  obtain ⟨_, _, up, hlook, _, hup⟩ := yields_uploadForUpdate hupload
  have hb : upload.bucketId ≠ b := by
    rw [hup]
    exact hu up hlook
  obtain ⟨hrefs₂, h₂⟩ :=
    built_untouched (completeLocked_built H c u r upload hb) hrefs₁ (h₁.row.trans hrow) hrest
  exact ⟨hrefs₂, h₁.trans h₂⟩

theorem uploadOpBody_untouched {op : UploadOp} {r : Reply}
    (hy : Yields (uploadOpBody H c u op) s r t) : RefInv t ∧ Untouched b s t := by
  cases op with
  | complete r =>
    obtain ⟨info, s₁, hcomplete, hend⟩ := yields_bind.mp hy
    obtain ⟨_, rfl⟩ := yields_pure.mp hend
    exact completeUpload_untouched hrefs hrow hu hcomplete
  | completePart part sum =>
    exact built_untouched (.bind (completePart_built H c _ _ _) fun _ => .pure _) hrefs hrow hy
  | putPart part body sum =>
    exact built_untouched (.bind (putPart_built H c _ _ _ _) fun _ => .pure _) hrefs hrow hy
  | _ => exact built_untouched (built_of_shallow (uploadOpBody_shallow H c u rfl)) hrefs hrow hy

theorem onUpload_untouched {route : Option Route} {op : UploadOp} {r : Reply}
    (hy : Yields (bindRoute c u route (uploadOpBody H c u op)) s r t) :
    RefInv t ∧ Untouched b s t := by
  cases route with
  | none => exact uploadOpBody_untouched hrefs hrow hu hy
  | some route =>
    obtain ⟨upload, s₁, hupload, hrest⟩ := yields_bind.mp hy
    obtain ⟨hrefs₁, h₁⟩ :=
      built_untouched (built_of_quiet (uploadForUpdateAt_built c u _ _ _)) hrefs hrow hupload
    obtain ⟨_, hu₁⟩ := uploadForUpdateAt_elsewhere hu hupload
    obtain ⟨hrefs₂, h₂⟩ := uploadOpBody_untouched hrefs₁ (h₁.row.trans hrow) hu₁ hrest
    exact ⟨hrefs₂, h₁.trans h₂⟩

theorem workerCompleteUpload_untouched {actor : RoleName} {bucket key : Text} {sum : Option Bytes}
    {m : Seal} {info : ObjectInfo}
    (hy : Yields (workerCompleteUpload H c actor bucket key u sum m) s info t) :
    RefInv t ∧ Untouched b s t := by
  rw [workerCompleteUpload_eq] at hy
  obtain ⟨c', s₀, hactor, hcall⟩ := yields_bind.mp hy
  obtain ⟨rfl, _, _⟩ := yields_workerSetActor hactor
  rw [yields_raiseIf_bind] at hcall
  obtain ⟨upload, s₁, hupload, hrest⟩ := yields_bind.mp hcall.2
  obtain ⟨hrefs₁, h₁⟩ :=
    built_untouched (built_of_quiet (uploadForUpdateAt_built c' u _ _ _)) hrefs hrow hupload
  obtain ⟨hb, hu₁⟩ := uploadForUpdateAt_elsewhere hu hupload
  have hrow₁ := h₁.row.trans hrow
  simp only [workerCompleteLocked, yields_get_bind, yields_raiseIf_bind] at hrest
  obtain ⟨_, hrest⟩ := hrest
  split at hrest
  · obtain ⟨hrefs₂, h₂⟩ := completeUpload_untouched hrefs₁ hrow₁ hu₁ hrest
    exact ⟨hrefs₂, h₁.trans h₂⟩
  · obtain ⟨hrefs₂, h₂⟩ :=
      built_untouched (workerSeal_built c' u sum m upload hb) hrefs₁ hrow₁ hrest
    exact ⟨hrefs₂, h₁.trans h₂⟩

end Calls

/-! ## 4. Any sequence of calls on one bucket -/

/-- The upload, if there is one, belongs to the bucket of that name. -/
def Db.UploadOf (s : Db) (u : Uuid) (name : Text) : Prop :=
  ∀ up row, s.upload.lookup u = some up → s.bucket.lookup up.bucketId = some row →
    row.name = name

/-- The call mutates no bucket but the one of that name: it writes, deletes, copies, forks
    or restores into it, or works on one of its uploads; or it is a collection. -/
def Op.On : Op → Db → Text → Prop
  | .createBucket name _, _, bucket => name = bucket
  | .deleteBucket name, _, bucket => name = bucket
  | .put r, _, bucket => r.bucket = bucket
  | .delete name _ _, _, bucket => name = bucket
  | .deleteMany name _ _, _, bucket => name = bucket
  | .copy r, _, bucket => r.destinationBucket = bucket
  | .restore name _ _ _, _, bucket => name = bucket
  | .forkBucket _ destination _, _, bucket => destination = bucket
  | .beginUpload r, _, bucket => r.bucket = bucket
  | .onUpload _ u _, s, bucket => s.UploadOf u bucket
  | .workerPutChunk _ _ _ u _ _ _, s, bucket => s.UploadOf u bucket
  | .workerCompleteUpload _ _ _ u _ _ _, s, bucket => s.UploadOf u bucket
  | .gcPendingUploads _ _, _, _ => True
  | .gcBlobs _, _, _ => True

/-- **One call** on another bucket leaves the bucket untouched. -/
theorem opBody_untouched {H : Digests} {c : Context} {op : Op} {name : Text} {b : Nat}
    {s t : Db} {r : Reply} {row : BucketRow} (hrefs : RefInv s)
    (hrow : s.bucket.lookup b = some row) (hne : row.name ≠ name) (hon : op.On s name)
    (hy : Yields (opBody H c op) s r t) : RefInv t ∧ Untouched b s t := by
  have helsewhere : ∀ u, s.UploadOf u name → s.Elsewhere u b := by
    rintro u hu up hup rfl
    exact hne (hu up row hup hrow)
  have hspares : ∀ {m : DbTx Reply}, SparesBucket b name m → Yields m s r t →
      RefInv t ∧ Untouched b s t := fun hm hy => hm s r t row hrefs hrow hne hy
  cases op with
  | createBucket n j => exact hspares (.reply (.of_quiet (createBucket_built c _ _))) hy
  | deleteBucket n =>
    obtain rfl : n = name := hon
    exact hspares (.reply (deleteBucket_spares c)) hy
  | put request =>
    obtain rfl : request.bucket = name := hon
    exact hspares (.reply (put_spares H c request)) hy
  | delete n k v =>
    obtain rfl : n = name := hon
    exact hspares (.reply (delete_spares c k v)) hy
  | deleteMany n ks vs =>
    obtain rfl : n = name := hon
    exact hspares (.reply (deleteMany_spares c ks vs)) hy
  | copy request =>
    obtain rfl : request.destinationBucket = name := hon
    exact hspares (.reply (copy_spares c request)) hy
  | restore n k v ifMatch =>
    obtain rfl : n = name := hon
    exact hspares (.reply (restore_spares c k v ifMatch)) hy
  | forkBucket source destination j =>
    exact hspares (.reply (.of_quiet (forkBucket_built c _ _ _ trivial))) hy
  | beginUpload request => exact hspares (.reply (.of_quiet (beginUpload_built c request))) hy
  | onUpload route u op => exact onUpload_untouched hrefs hrow (helsewhere u hon) hy
  | workerPutChunk actor bucket k u seq data sha256 =>
    refine hspares (.of_shallow (.bind (.statement (.hashing (.logHashed data))) fun _ => ?_)) hy
    exact .bind (workerPutChunk_built c _ _ _ _ _ _ _) fun _ => .pure _
  | workerCompleteUpload actor bucket k u sum m chunks =>
    obtain ⟨_, s₁, hchunks, hy⟩ := yields_bind.mp hy
    obtain ⟨_, s₂, hbody, hy⟩ := yields_bind.mp hy
    obtain ⟨info, s₃, hcomplete, hend⟩ := yields_bind.mp hy
    obtain ⟨_, rfl⟩ := yields_pure.mp hend
    have hlogged : Built Hashing (chunks.forM logHashed >>= fun _ => logHashed chunks.flatten) :=
      .bind (.forM fun x => .statement (.logHashed x)) fun _ => .statement (.logHashed _)
    have hlog : Yields (chunks.forM logHashed >>= fun _ => logHashed chunks.flatten) s _ s₂ :=
      yields_bind.mpr ⟨_, _, hchunks, hbody⟩
    obtain ⟨hrefs₂, h₂⟩ := built_untouched (built_of_hashing hlogged) hrefs hrow hlog
    have hu : s₂.Elsewhere u b := by
      have hrest := (onlyHashes hlogged hlog).same
      unfold Db.Elsewhere
      rw [hrest]
      exact helsewhere u hon
    obtain ⟨hrefs₃, h₃⟩ :=
      workerCompleteUpload_untouched hrefs₂ (h₂.row.trans hrow) hu hcomplete
    exact ⟨hrefs₃, h₂.trans h₃⟩
  | gcPendingUploads age limit =>
    exact hspares (.reply (.of_quiet (gcPendingUploads_built c _ _))) hy
  | gcBlobs limit =>
    exact hspares (.reply (.of_shallow (gcBlobsSkipping_built _ limit trivial))) hy

/-- All calls are on the bucket of that name, each in the state in which it is made. -/
def OnlyOn (H : Digests) (name : Text) : List (Context × Op) → Db → Prop
  | [], _ => True
  | (c, op) :: rest, s => op.On s name ∧ OnlyOn H name rest (exec H c op s).2

/-- **Any sequence of calls** on another bucket leaves the bucket untouched. -/
theorem execs_untouched {H : Digests} {name : Text} {b : Nat} {row : BucketRow} :
    ∀ {calls : List (Context × Op)} {s : Db}, RefInv s → s.bucket.lookup b = some row →
      row.name ≠ name → OnlyOn H name calls s → Untouched b s (execs H calls s)
  | [], s, _, _, _, _ => .refl b s
  | (c, op) :: rest, s, hrefs, hrow, hne, hon => by
      have hcall : RefInv (exec H c op s).2 ∧ Untouched b s (exec H c op s).2 := by
        rcases commit_cases (opBody H c op) s with ⟨r, hy⟩ | hsame
        · exact opBody_untouched hrefs hrow hne hon.1 hy
        · unfold exec
          rw [hsame]
          exact ⟨hrefs, .refl b s⟩
      exact hcall.2.trans (execs_untouched hcall.1 (hcall.2.row.trans hrow) hne hon.2)

/-! ## 5. Forks -/

/-- What the live object of a key looks like in a listing: size, ETag and digest, content
    type and metadata. -/
def Db.liveEntry (s : Db) (b : Nat) (key : Text) : Option (Payload × Option Text × Jsonb) :=
  (s.latestRow b key).bind fun o => o.payload.map fun p => (p, o.contentType, o.meta)

theorem find?_zipIdx {α : Type} (p : α → Bool) (l : List α) (n : Nat) :
    ((l.zipIdx n).find? fun x => p x.1).map Prod.fst = l.find? p := by
  induction l generalizing n with
  | nil => rfl
  | cons a l ih =>
    rw [List.zipIdx_cons, List.find?_cons, List.find?_cons]
    cases p a with
    | true => rfl
    | false => exact ih (n + 1)

theorem find?_forkRows (rows : List ObjectRow) (source id seq : Nat) (c : Context) (key : Text) :
    ((forkRows rows source id seq c).find? (isLatestOf id key)).map
        (fun o => (o.payload, o.contentType, o.meta))
      = (rows.find? (isLatestOf source key)).map fun o => (o.payload, o.contentType, o.meta) := by
  have hsource : rows.find? (isLatestOf source key)
      = (rows.filter fun o => decide (o.bucketId = source ∧ o.isLatest)).find?
        fun o => decide (o.key = key) := by
    rw [List.find?_filter]
    congr 1
    funext o
    rw [Bool.eq_iff_iff]
    simp only [isLatestOf, decide_eq_true_eq]
    constructor
    · rintro ⟨h1, h2, h3⟩
      exact ⟨⟨h1, h3⟩, h2⟩
    · rintro ⟨⟨h1, h3⟩, h2⟩
      exact ⟨h1, h2, h3⟩
  have hcopies : ∀ x : ObjectRow × Nat, isLatestOf id key
      { x.1 with bucketId := id, versionId := seq + x.2 + 1, isLatest := true,
                 createdAt := c.now, createdBy := c.actor } = decide (x.1.key = key) := by
    intro x
    simp [isLatestOf]
  rw [hsource, forkRows, List.find?_map, Option.map_map,
    ← find?_zipIdx (fun o : ObjectRow => decide (o.key = key)) _ 0, Option.map_map]
  congr 1
  exact congrArg (fun p => List.find? p _) (funext hcopies)

theorem forkInto_fresh {c : Context} {source : Nat} {name : Text} {j : Jsonb} {s t : Db}
    {n : Nat} (hy : Yields (forkInto c source name j) s n t) :
    ∀ r ∈ s.bucket.rows, r.name ≠ name := by
  obtain ⟨_, _, hfill, _⟩ := yields_bind.mp hy
  obtain ⟨_, _, hinsert, _⟩ := yields_bind.mp hfill
  simp only [insertBucket, yields_get_bind, yields_raiseIf_bind] at hinsert
  exact fun r hr hname => hinsert.1 ⟨r, hr, hname⟩

/-- **The entries of a fork** are those of its source. -/
theorem forkInto_liveEntry {c : Context} {source : Nat} {name : Text} {j : Jsonb} {s t : Db}
    {n : Nat} (hinv : LatestInv s) (hy : Yields (forkInto c source name j) s n t) :
    ∃ row, t.bucket.lookup row.bucketId = some row ∧ row.name = name ∧
      ∀ key, t.liveEntry row.bucketId key = s.liveEntry source key := by
  obtain ⟨id, bucket, object, hid, _, hbucket, hrows, rfl⟩ := yields_forkInto hy
  refine ⟨⟨id, name, c.actor, c.now, j⟩, ?_, rfl, fun key => ?_⟩
  · apply Table.lookup_of_mem
    change _ ∈ bucket.rows
    rw [hbucket]
    exact List.mem_append_right _ List.mem_cons_self
  · have hnone : s.object.rows.find? (isLatestOf id key) = none := by
      rw [List.find?_eq_none]
      intro o ho
      have hle := hinv.objects o ho
      have hne : o.bucketId ≠ id := by omega
      simp [isLatestOf, hne]
    have hfind := find?_forkRows s.object.rows source id s.objectVersionIdSeq c key
    unfold Db.liveEntry Db.latestRow
    change (object.rows.find? _).bind _ = _
    rw [hrows, List.find?_append, hnone, Option.none_or]
    have hentry : ∀ x : Option ObjectRow,
        (x.bind fun o => o.payload.map fun p => (p, o.contentType, o.meta))
          = (x.map fun o => (o.payload, o.contentType, o.meta)).bind
            fun y => y.1.map fun p => (p, y.2) := by
      intro x
      cases x <;> rfl
    rw [hentry, hfind, ← hentry]

theorem forkBucket_source {c : Context} {source destination : Text} {config : Option Jsonb}
    {s t : Db} {n : Nat} (hy : Yields (forkBucket c source destination config) s n t) :
    ∃ row j, s.bucket.lookup row.bucketId = some row ∧ row.name = source ∧
      Yields (forkInto c row.bucketId destination j) s n t := by
  simp only [forkBucket, yields_mapError, yields_bind] at hy
  obtain ⟨_, s₀, hname, _, s₁, hconfig, id, s₂, hid, s₃, s₄, hget, hrest⟩ := hy
  obtain ⟨_, rfl⟩ := yields_raiseIf.mp hname
  obtain ⟨_, rfl⟩ := yields_raiseIf.mp hconfig
  obtain ⟨rfl, row, hrow, rfl, hsource⟩ := yields_bucketIdOf hid
  obtain ⟨rfl, rfl⟩ := yields_get.mp hget
  obtain ⟨sourceRow, s₅, hfound, hfork⟩ := hrest
  obtain ⟨_, rfl⟩ := yields_orRaise.mp hfound
  exact ⟨row, _, Table.lookup_of_mem hrow, hsource, hfork⟩

theorem liveEntry_version {s : Db} {b : Nat} {key : Text} {p : Payload} {ty : Option Text}
    {j : Jsonb} (h : s.liveEntry b key = some (p, ty, j)) :
    ∃ o ∈ s.versionsOf b, o.blobId = some p.sha256 := by
  obtain ⟨o, ho, hentry⟩ := Option.bind_eq_some_iff.mp h
  obtain ⟨p', hp, heq⟩ := Option.map_eq_some_iff.mp hentry
  cases heq
  refine ⟨o, mem_versionsOf.mpr ⟨List.mem_of_find?_eq_some ho, ?_⟩, by simp [ObjectRow.blobId, hp]⟩
  have hlatest := List.find?_some ho
  exact (isLatestOf_iff.mp hlatest).1

/-- **Buckets do not interfere.**  In every reachable state, calls on one bucket, among them
    collections, leave every other bucket as it is.  After `fork_bucket` the destination has
    the live entries of the source, and they read as they did at the fork; from then on calls
    on one of the two leave the other as it is. -/
theorem cross_bucket_frame {H : Digests} {s : Db} (h : Reachable H s) :
    (∀ name calls row, s.bucket.lookup row.bucketId = some row → row.name ≠ name →
      OnlyOn H name calls s → SameBucket row.bucketId s (execs H calls s)) ∧
    ∀ c source destination config r t,
      exec H c (.forkBucket source destination config) s = (.ok r, t) →
      ∃ origin fork, s.bucket.lookup origin.bucketId = some origin ∧ origin.name = source ∧
        t.bucket.lookup fork.bucketId = some fork ∧ fork.name = destination ∧
        SameBucket origin.bucketId s t ∧
        (∀ key, t.liveEntry fork.bucketId key = s.liveEntry origin.bucketId key) ∧
        (∀ key p ty j, t.liveEntry fork.bucketId key = some (p, ty, j) → ∀ levels,
          readBlobAt t levels p.sha256 = readBlobAt s levels p.sha256) ∧
        (∀ calls, OnlyOn H destination calls t → SameBucket origin.bucketId t (execs H calls t)) ∧
        ∀ calls, OnlyOn H source calls t → SameBucket fork.bucketId t (execs H calls t) := by
  have hframe : ∀ {s : Db} {name calls row}, RefInv s → s.bucket.lookup row.bucketId = some row →
      row.name ≠ name → OnlyOn H name calls s → SameBucket row.bucketId s (execs H calls s) :=
    fun hrefs hrow hne hon => (execs_untouched hrefs hrow hne hon).sameBucket
  refine ⟨fun name calls row hrow hne hon => hframe h.refInv hrow hne hon, ?_⟩
  intro c source destination config r t hexec
  have hyields := commit_ok_iff.mp hexec
  obtain ⟨n, s₁, hfork, hend⟩ := yields_bind.mp hyields
  obtain ⟨_, rfl⟩ := yields_pure.mp hend
  obtain ⟨origin, j, horigin, rfl, hinto⟩ := forkBucket_source hfork
  have hne : origin.name ≠ destination := forkInto_fresh hinto origin (Table.lookup_mem horigin)
  obtain ⟨fork, hlook, rfl, hentries⟩ := forkInto_liveEntry (Run.latestInv h) hinto
  have hon : (Op.forkBucket origin.name fork.name config).On s fork.name := rfl
  obtain ⟨hrefs, hsame⟩ := opBody_untouched h.refInv horigin hne hon hyields
  refine ⟨origin, fork, horigin, rfl, hlook, rfl, hsame.sameBucket, hentries, ?_, ?_, ?_⟩
  · intro key p ty j hentry levels
    rw [hentries] at hentry
    obtain ⟨o, ho, hblob⟩ := liveEntry_version hentry
    exact hsame.sameBucket.read o ho p.sha256 hblob levels
  · exact fun calls hcalls => hframe hrefs (hsame.row.trans horigin) hne hcalls
  · exact fun calls hcalls => hframe hrefs hlook (Ne.symm hne) hcalls

def sharing : Db :=
  execs .sample
    [(.sample, .createBucket "aaa".toList (.object [])),
      (.sample, .createBucket "bbb".toList (.object [])),
      (.sample, .put ⟨"aaa".toList, "k".toList, some [1], none, none, none, none, none⟩),
      (.sample, .put ⟨"bbb".toList, "k".toList, some [1], none, none, none, none, none⟩)]
    .empty

theorem sharing_reachable : Reachable .sample sharing := by
  apply Run.execs .empty
  exact fun _ _ _ => trivial

/-- The object of one bucket is deleted for good, and garbage is collected. -/
def dropFirst : List (Context × Op) :=
  [(.sample, .delete "aaa".toList "k".toList (some 1)), (.sample, .gcBlobs 10)]

theorem cross_bucket_frame_sharing : SameBucket 2 sharing (execs .sample dropFirst sharing) ∧
    ∃ r t, ∃ origin fork : BucketRow,
      exec .sample .sample (.forkBucket "bbb".toList "ccc".toList none) sharing = (.ok r, t) ∧
      origin.name = "bbb".toList ∧ fork.name = "ccc".toList ∧
      ∀ key, t.liveEntry fork.bucketId key = sharing.liveEntry origin.bucketId key := by
  obtain ⟨hframe, hfork⟩ := cross_bucket_frame sharing_reachable
  constructor
  · have hname : (sharing.bucket.lookup 2).map (·.name) = some "bbb".toList := by decide +kernel
    obtain ⟨row, hrow, hbbb⟩ := Option.map_eq_some_iff.mp hname
    have hid : row.bucketId = 2 := Table.lookup_key hrow
    have hsame := hframe "aaa".toList dropFirst row (hid ▸ hrow) (by rw [hbbb]; decide)
      ⟨rfl, trivial, trivial⟩
    rwa [hid] at hsame
  · have hok : (exec .sample .sample (.forkBucket "bbb".toList "ccc".toList none) sharing).1.isOk
        = true := by
      decide +kernel
    cases hexec : exec .sample .sample (.forkBucket "bbb".toList "ccc".toList none) sharing with
    | mk r t =>
      cases r with
      | error e =>
        rw [hexec] at hok
        cases hok
      | ok reply =>
        obtain ⟨origin, fork, _, horigin, _, hname, _, hentries, _⟩ :=
          hfork _ _ _ _ reply t hexec
        exact ⟨reply, t, origin, fork, rfl, horigin, hname, hentries⟩

end Pgs3
