import Pgs3.Api

/-!
# How the calls are put together

Every call of the API is a sequence of a few kinds of steps, with reads, guards and
branches between them.  A step is the smallest unit that leaves a consistent database
behind: publishing a version demotes the old one and inserts the new one, storing a body
inserts the blob and its chunks.  `opBody_built` says so once; each invariant is then
proved step by step (`Tx.Built.keeps`).

*Quiet* steps are those that store no content and drop none.
-/

namespace Pgs3

open Foundation Foundation.Tx

/-- Which of the steps that not every call takes are allowed: `fork_bucket`, collecting
    blobs, and writing the versions or dropping the row of a given bucket. -/
structure Permits where
  forks : Prop
  collects : Prop
  writes : Nat → Prop

def Permits.all : Permits := ⟨True, True, fun _ => True⟩

/-- Steps that leave stored content alone. -/
inductive QuietWith (ok : Permits) : (α : Type) → DbTx α → Prop
  | insertLatest (c : Context) (b : Nat) (k : Text) (p : Option Payload) (t : Option Text)
      (j : Jsonb) (h : ok.writes b) : QuietWith ok ObjectRow (insertLatest c b k p t j)
  | removeVersion (b : Nat) (k : Text) (v : Int) (h : ok.writes b) :
      QuietWith ok DeleteResult (removeVersion b k v)
  | forkInto (c : Context) (b : Nat) (name : Text) (j : Jsonb) (h : ok.forks) :
      QuietWith ok Nat (forkInto c b name j)
  | insertUpload (row : UploadRow) : QuietWith ok Unit (insertUpload row)
  | updateUpload (u : Uuid) (f : UploadRow → UploadRow)
      (hf : ∀ r, (f r).uploadId = r.uploadId) : QuietWith ok Unit (updateUpload u f hf)
  | deleteUpload (u : Uuid) : QuietWith ok Unit (deleteUpload u)
  | deleteUploadChunks (sel : UploadChunkRow → Bool) :
      QuietWith ok Unit (deleteUploadChunks sel)
  | deleteUploadParts (sel : UploadPartRow → Bool) : QuietWith ok Unit (deleteUploadParts sel)
  | insertBucket (name : Text) (owner : RoleName) (now : Timestamp) (j : Jsonb) :
      QuietWith ok Nat (insertBucket name owner now j)
  | deleteBucketRow (id : Nat) (h : ok.writes id) : QuietWith ok Unit (deleteBucketRow id)

abbrev Quiet := QuietWith .all

/-- Feeding a digest, which changes nothing but the record of what was hashed. -/
inductive Hashing : (α : Type) → DbTx α → Prop
  | logHashed (body : Bytes) : Hashing Unit (logHashed body)

/-- Steps that store no extents. -/
inductive ShallowWith (ok : Permits) : (α : Type) → DbTx α → Prop
  | quiet {α : Type} {m : DbTx α} (h : QuietWith ok α m) : ShallowWith ok α m
  | hashing {α : Type} {m : DbTx α} (h : Hashing α m) : ShallowWith ok α m
  | ensureBlob (c : Context) (sha256 body : Bytes) :
      ShallowWith ok Bytes (ensureBlob c sha256 body)
  | upsertUploadChunk (row : UploadChunkRow) : ShallowWith ok Unit (upsertUploadChunk row)
  | upsertUploadPart (row : UploadPartRow) (h : 1 ≤ row.partNumber ∧ row.partNumber ≤ 10000) :
      ShallowWith ok Unit (upsertUploadPart row)
  | deleteBlob (k : Bytes) (h : ok.collects) : ShallowWith ok Unit (deleteBlob k)

abbrev Shallow := ShallowWith .all

inductive StepWith (ok : Permits) : (α : Type) → DbTx α → Prop
  | shallow {α : Type} {m : DbTx α} (h : ShallowWith ok α m) : StepWith ok α m
  | storeComposite (c : Context) (sha256 : Bytes) (size : Nat) (gone : String)
      (sources : List (Nat × Bytes × Nat)) :
      StepWith ok Bytes (storeComposite c sha256 size gone sources)

abbrev Step := StepWith .all

variable {ok : Permits}

theorem shallow_of_quiet {α : Type} {m : DbTx α} (h : Built (QuietWith ok) m) :
    Built (ShallowWith ok) m :=
  h.mono fun _ _ hq => .quiet hq

theorem shallow_of_hashing {α : Type} {m : DbTx α} (h : Built Hashing m) :
    Built (ShallowWith ok) m :=
  h.mono fun _ _ hq => .hashing hq

theorem built_of_shallow {α : Type} {m : DbTx α} (h : Built (ShallowWith ok) m) :
    Built (StepWith ok) m :=
  h.mono fun _ _ hs => .shallow hs

theorem built_of_quiet {α : Type} {m : DbTx α} (h : Built (QuietWith ok) m) :
    Built (StepWith ok) m :=
  built_of_shallow (shallow_of_quiet h)

theorem built_of_hashing {α : Type} {m : DbTx α} (h : Built Hashing m) : Built (StepWith ok) m :=
  built_of_shallow (shallow_of_hashing h)

section

variable (H : Digests) (c : Context)

/-! ## 1. Calls of quiet steps -/

theorem bucketIdOf_built (name : Text) : Built (QuietWith ok) (bucketIdOf c name) :=
  .bind .get fun _ => .bind (.orRaise _ _) fun _ => .pure _

theorem bucketIdForChild_built (name : Text) (e : Option Nat) :
    Built (QuietWith ok) (bucketIdForChild c name e) :=
  .bind (bucketIdOf_built c name) fun _ => .bind (.raiseIf _ _) fun _ => .pure _

theorem checkLatest_built (b : Nat) (k : Text) (n m : Option Text) :
    Built (QuietWith ok) (checkLatest b k n m) :=
  .bind .get fun _ => .reading _

theorem commitCanonicalLocked_built (b : Nat) (bucket k : Text) (size : Nat) (sha256 : Bytes)
    (etag : Text) (blobId : Bytes) (t : Option Text) (j : Jsonb) (n m : Option Text)
    (hb : ok.writes b) : Built (QuietWith ok)
      (commitCanonicalLocked c b bucket k size sha256 etag blobId t j n m) := by
  refine .bind (bucketIdForChild_built c _ _) fun _ => .bind (.raiseIf _ _) fun _ => ?_
  refine .bind (.raiseIf _ _) fun _ => .bind (.raiseIf _ _) fun _ => .bind .get fun _ => ?_
  refine .bind (.raiseIf _ _) fun _ => .bind (checkLatest_built _ _ _ _) fun _ => ?_
  exact .bind (.statement (.insertLatest _ _ _ _ _ _ hb)) fun _ => .pure _

theorem commitReferenceLocked_built (b : Nat) (bucket k : Text) (source : ObjectRow)
    (t : Option Text) (j : Jsonb) (n m : Option Text) (hb : ok.writes b) :
    Built (QuietWith ok) (commitReferenceLocked c b bucket k source t j n m) := by
  refine .bind (bucketIdForChild_built c _ _) fun _ => .bind (.raiseIf _ _) fun _ => ?_
  refine .bind (.orRaise _ _) fun _ => .bind (.raiseIf _ _) fun _ => ?_
  refine .bind (checkLatest_built _ _ _ _) fun _ => .bind .get fun _ => ?_
  refine .bind (.raiseIf _ _) fun _ => ?_
  exact .bind (.statement (.insertLatest _ _ _ _ _ _ hb)) fun _ => .pure _

theorem createBucket_built (name : Text) (j : Jsonb) :
    Built (QuietWith ok) (createBucket c name j) := by
  refine .mapError (.bind (.raiseIf _ _) fun _ => .bind (.raiseIf _ _) fun _ => ?_)
  refine .bind .get fun s => ?_
  cases s.bucket.rows.find? fun b => b.name = name with
  | none => exact .statement (.insertBucket _ _ _ _)
  | some b => exact .bind (.raiseIf _ _) fun _ => .pure _

theorem deleteBucket_built (name : Text) (hall : ∀ b, ok.writes b) :
    Built (QuietWith ok) (deleteBucket c name) := by
  refine .bind (bucketIdOf_built c name) fun _ => .bind .get fun _ => ?_
  refine .bind (.raiseIf _ _) fun _ => ?_
  refine .bind (.forM fun u => .statement (.deleteUpload u.uploadId)) fun _ => ?_
  exact .statement (.deleteBucketRow _ (hall _))

theorem delete_built (bucket k : Text) (version : Option Int) (hall : ∀ b, ok.writes b) :
    Built (QuietWith ok) (delete c bucket k version) := by
  refine .bind (bucketIdForChild_built c _ _) fun _ => .bind (.raiseIf _ _) fun _ => ?_
  cases version with
  | none => exact .bind (.statement (.insertLatest _ _ _ _ _ _ (hall _))) fun _ => .pure _
  | some v => exact .statement (.removeVersion _ _ v (hall _))

theorem deleteEach_built (bucket : Text) (requests : List (Text × Option Int))
    (hall : ∀ b, ok.writes b) : Built (QuietWith ok) (deleteEach c bucket requests) := by
  induction requests with
  | nil => exact .pure _
  | cons r rest ih => exact .bind (delete_built c _ _ _ hall) fun _ => .bind ih fun _ => .pure _

theorem deleteMany_built (bucket : Text) (keys : List (Option Text))
    (versions : List (Option Int)) (hall : ∀ b, ok.writes b) :
    Built (QuietWith ok) (deleteMany c bucket keys versions) := by
  refine .bind (bucketIdForChild_built c _ _) fun _ => .bind (.raiseIf _ _) fun _ => ?_
  refine .bind (.forM fun r => ?_) fun _ => deleteEach_built c _ _ hall
  exact .bind (.raiseIf _ _) fun _ => .bind (.raiseIf _ _) fun _ => .raiseIf _ _

theorem copy_built (r : CopyRequest) (hall : ∀ b, ok.writes b) :
    Built (QuietWith ok) (copy c r) := by
  refine .bind (bucketIdOf_built c _) fun _ => .bind (bucketIdForChild_built c _ _) fun _ => ?_
  refine .bind (.raiseIf _ _) fun _ => .bind (.raiseIf _ _) fun _ => .bind .get fun _ => ?_
  refine .bind (.orRaise _ _) fun _ => .bind (.raiseIf _ _) fun _ => ?_
  exact commitReferenceLocked_built c _ _ _ _ _ _ _ _ (hall _)

theorem restore_built (bucket k : Text) (v : Int) (m : Option Text)
    (hall : ∀ b, ok.writes b) : Built (QuietWith ok) (restore c bucket k v m) := by
  refine .bind (bucketIdForChild_built c _ _) fun _ => .bind (.raiseIf _ _) fun _ => ?_
  refine .bind .get fun _ => .bind (.orRaise _ _) fun _ => ?_
  exact commitReferenceLocked_built c _ _ _ _ _ _ _ _ (hall _)

theorem forkBucket_built (source destination : Text) (j : Option Jsonb) (hforks : ok.forks) :
    Built (QuietWith ok) (forkBucket c source destination j) := by
  refine .mapError (.bind (.raiseIf _ _) fun _ => .bind (.raiseIf _ _) fun _ => ?_)
  refine .bind (bucketIdOf_built c _) fun _ => .bind .get fun _ => ?_
  exact .bind (.orRaise _ _) fun _ => .statement (.forkInto _ _ _ _ hforks)

theorem uploadForUpdate_built (u : Uuid) : Built (QuietWith ok) (uploadForUpdate c u) := by
  refine .bind .get fun _ => .bind (.orRaise _ _) fun _ => ?_
  exact .bind (.statement (.updateUpload _ _ _)) fun _ => .pure _

theorem uploadForUpdateAt_built (u : Uuid) (bucket k : Text) (r : Option Bool) :
    Built (QuietWith ok) (uploadForUpdateAt c u bucket k r) := by
  refine .bind (uploadForUpdate_built c u) fun _ => .bind .get fun _ => ?_
  exact .bind (.raiseIf _ _) fun _ => .pure _

theorem touchUpload_built (u : Uuid) : Built (QuietWith ok) (touchUpload c u) :=
  .statement (.updateUpload _ _ _)

theorem markCompleting_built (u : Uuid) : Built (QuietWith ok) (markCompleting c u) :=
  .statement (.updateUpload _ _ _)

theorem beginUpload_built (r : BeginUploadRequest) : Built (QuietWith ok) (beginUpload c r) := by
  refine .bind (bucketIdForChild_built c _ _) fun _ => .bind (.raiseIf _ _) fun _ => ?_
  refine .bind (.raiseIf _ _) fun _ => .bind (.raiseIf _ _) fun _ => ?_
  refine .bind (.reading _) fun _ => ?_
  exact .bind (.statement (.insertUpload _)) fun _ => .pure _

theorem beginPart_built (u : Uuid) (part : Int) : Built (QuietWith ok) (beginPart c u part) := by
  refine .bind (.raiseIf _ _) fun _ => .bind (uploadForUpdate_built c u) fun _ => ?_
  refine .bind (.raiseIf _ _) fun _ => .bind (.statement (.deleteUploadParts _)) fun _ => ?_
  exact .bind (.statement (.deleteUploadChunks _)) fun _ => touchUpload_built c u

theorem bucketNameOf_built (b : Nat) : Built (QuietWith ok) (bucketNameOf b) :=
  .bind .get fun _ => .bind (.orRaise _ _) fun _ => .pure _

theorem publishUpload_built (upload : UploadRow) (bucket : Text) (p : Publication)
    (hb : ok.writes upload.bucketId) : Built (QuietWith ok) (publishUpload c upload bucket p) := by
  refine .bind (commitCanonicalLocked_built c _ _ _ _ _ _ _ _ _ _ _ hb) fun _ => ?_
  exact .bind (.statement (.deleteUpload _)) fun _ => .pure _

theorem abortUpload_built (u : Uuid) : Built (QuietWith ok) (abortUpload c u) :=
  .bind (uploadForUpdate_built c u) fun _ => .statement (.deleteUpload u)

theorem gcPendingUploads_built (age limit : Int) :
    Built (QuietWith ok) (gcPendingUploads c age limit) := by
  refine .bind (.raiseIf _ _) fun _ => .bind .get fun _ => ?_
  exact .bind (.forM fun u => .statement (.deleteUpload u.uploadId)) fun _ => .pure _

theorem workerSetActor_built (actor : RoleName) : Built (QuietWith ok) (workerSetActor c actor) :=
  .bind (.raiseIf _ _) fun _ => .pure _

/-! ## 2. Calls that hash -/

theorem digest_hashing (body : Bytes) : Built Hashing (digest H body) :=
  .bind (.statement (.logHashed body)) fun _ => .pure _

theorem streamVerifiedBlob_hashing (id : Bytes) : Built Hashing (streamVerifiedBlob H id) := by
  refine .bind (.reading _) fun _ => .bind (.reading _) fun _ => .bind (.raiseIf _ _) fun _ => ?_
  exact .bind (digest_hashing H _) fun _ => .bind (.raiseIf _ _) fun _ => .pure _

theorem hashStagedChunks_hashing (u : Uuid) (part : Nat) (seqs : List Nat) :
    Built Hashing (hashStagedChunks H u part seqs) := by
  induction seqs with
  | nil => exact .pure _
  | cons seq rest ih =>
    refine .bind .get fun _ => .bind (.orRaise _ _) fun _ => ?_
    refine .bind (streamVerifiedBlob_hashing H _) fun _ => .bind (.raiseIf _ _) fun _ => ?_
    exact .bind ih fun _ => .pure _

theorem hashUploadPart_hashing (u : Uuid) (part : Nat) :
    Built Hashing (hashUploadPart H u part) := by
  refine .bind (.raiseIf _ _) fun _ => .bind .get fun _ => .bind (.orRaise _ _) fun _ => ?_
  refine .bind (.raiseIf _ _) fun _ => .bind .get fun _ => .bind (.raiseIf _ _) fun _ => ?_
  refine .bind (.raiseSome _ _) fun _ => .bind (hashStagedChunks_hashing H _ _ _) fun _ => ?_
  exact .bind (digest_hashing H _) fun _ => .bind (.raiseIf _ _) fun _ => .pure _

theorem streamBlobs_hashing (ids : List Bytes) : Built Hashing (streamBlobs H ids) := by
  induction ids with
  | nil => exact .pure _
  | cons id rest ih =>
    exact .bind (streamVerifiedBlob_hashing H _) fun _ => .bind ih fun _ => .pure _

theorem hashBlobSequence_hashing (ids : List Bytes) : Built Hashing (hashBlobSequence H ids) :=
  .bind (streamBlobs_hashing H ids) fun _ => .bind (digest_hashing H _) fun _ => .pure _

theorem hashStaged_hashing (u : Uuid) (part size : Nat) (wrongSize tooLarge : String) :
    Built Hashing (hashStaged H c u part size wrongSize tooLarge) := by
  refine .ite ?_ ?_
  · refine .bind (hashUploadPart_hashing H u part) fun _ => ?_
    exact .bind (.raiseIf _ _) fun _ => .pure _
  · refine .bind (.raiseIf _ _) fun _ => .bind (.reading _) fun _ => ?_
    exact .bind (digest_hashing H _) fun _ => .pure _

theorem checkedMeta_hashing (j : Jsonb) (parts : List UploadPartRow) (r : CompleteRequest) :
    Built Hashing (checkedMeta H j parts r) := by
  refine .bind (.reading _) fun _ => .ite ?_ ?_
  · refine .bind (.raiseIf _ _) fun _ => ?_
    refine .bind (.bind (digest_hashing H _) fun _ => .pure _) fun _ => ?_
    exact .bind (.raiseIf _ _) fun _ => .pure _
  · exact .bind (.raiseIf _ _) fun _ => .pure _

theorem hashParts_hashing (parts : List UploadPartRow) (size : Nat) :
    Built Hashing (hashParts H c parts size) := by
  refine .ite ?_ ?_
  · refine .bind (hashBlobSequence_hashing H _) fun _ => ?_
    exact .bind (.raiseIf _ _) fun _ => .pure _
  · refine .bind (.raiseIf _ _) fun _ => .bind (.reading _) fun _ => ?_
    exact .bind (.raiseIf _ _) fun _ => digest_hashing H _

/-! ## 3. Calls that store content -/

theorem commitBodyLocked_built (b : Nat) (bucket k : Text) (body sha256 : Bytes) (etag : Text)
    (t : Option Text) (j : Jsonb) (n m : Option Text) (hb : ok.writes b) :
    Built (ShallowWith ok) (commitBodyLocked c b bucket k body sha256 etag t j n m) := by
  refine .bind (shallow_of_quiet (bucketIdForChild_built c _ _)) fun _ => ?_
  refine .bind (.raiseIf _ _) fun _ => .bind (.raiseIf _ _) fun _ => ?_
  refine .bind (.raiseIf _ _) fun _ => .bind (.raiseIf _ _) fun _ => ?_
  refine .bind (shallow_of_quiet (checkLatest_built _ _ _ _)) fun _ => ?_
  refine .bind (.statement (.ensureBlob _ _ _)) fun _ => ?_
  exact .bind (.statement (.quiet (.insertLatest _ _ _ _ _ _ hb))) fun _ => .pure _

theorem put_built (r : PutRequest) (hall : ∀ b, ok.writes b) :
    Built (ShallowWith ok) (put H c r) := by
  refine .bind (.orRaise _ _) fun _ => ?_
  refine .bind (shallow_of_quiet (bucketIdForChild_built c _ _)) fun _ => ?_
  refine .bind (shallow_of_hashing (digest_hashing H _)) fun _ => .bind (.raiseIf _ _) fun _ => ?_
  exact commitBodyLocked_built c _ _ _ _ _ _ _ _ _ _ (hall _)

theorem ensureStagedBlob_built (sha256 : Bytes) (size : Nat) (u : Uuid) (part : Nat) :
    Built (StepWith ok) (ensureStagedBlob c sha256 size u part) := by
  refine .bind (.raiseIf _ _) fun _ => .bind (.raiseIf _ _) fun _ => .bind .get fun _ => ?_
  exact .bind (.raiseIf _ _) fun _ => .statement (.storeComposite _ _ _ _ _)

theorem ensureCompositeBlob_built (sha256 : Bytes) (size : Nat) (u : Uuid) (parts : List Nat) :
    Built (StepWith ok) (ensureCompositeBlob c sha256 size u parts) := by
  refine .bind (.raiseIf _ _) fun _ => .bind (.raiseIf _ _) fun _ => .bind .get fun _ => ?_
  exact .bind (.raiseIf _ _) fun _ => .statement (.storeComposite _ _ _ _ _)

theorem putChunk_built (u : Uuid) (seq : Int) (data : Option Bytes) (part : Int)
    (sum : Option Bytes) : Built (ShallowWith ok) (putChunk H c u seq data part sum) := by
  refine .bind (.orRaise _ _) fun _ => .bind (.raiseIf _ _) fun _ => .bind (.raiseIf _ _) fun _ => ?_
  refine .bind (shallow_of_quiet (uploadForUpdate_built c u)) fun _ => .bind (.raiseIf _ _) fun _ => ?_
  refine .bind (shallow_of_hashing (digest_hashing H _)) fun _ => .bind (.raiseIf _ _) fun _ => ?_
  refine .bind (.statement (.ensureBlob _ _ _)) fun _ => ?_
  refine .bind (.statement (.upsertUploadChunk _)) fun _ => ?_
  refine .bind (.whenever (.statement (.quiet (.deleteUploadParts _)))) fun _ => ?_
  exact .bind (shallow_of_quiet (touchUpload_built c u)) fun _ => .pure _

theorem completePart_built (u : Uuid) (part : Int) (sum : Option Bytes) :
    Built (StepWith ok) (completePart H c u part sum) := by
  refine .guard fun hpart => ?_
  refine .bind (built_of_quiet (uploadForUpdate_built c u)) fun _ => .bind (.raiseIf _ _) fun _ => ?_
  refine .bind .get fun _ => .bind (.raiseIf _ _) fun _ => ?_
  refine .bind (built_of_hashing (hashStaged_hashing H c _ _ _ _ _)) fun _ => ?_
  refine .bind (.raiseIf _ _) fun _ => ?_
  refine .bind (ensureStagedBlob_built c _ _ _ _) fun _ => ?_
  refine .bind (.statement (.shallow (.upsertUploadPart _ (by dsimp only; omega)))) fun _ => ?_
  refine .bind (.statement (.shallow (.quiet (.deleteUploadChunks _)))) fun _ => ?_
  exact .bind (built_of_quiet (touchUpload_built c u)) fun _ => .pure _

theorem putChunks_built (u : Uuid) (part : Int) (seq : Nat) (pieces : List Bytes) :
    Built (ShallowWith ok) (putChunks H c u part seq pieces) := by
  induction pieces generalizing seq with
  | nil => exact .pure _
  | cons piece rest ih => exact .bind (putChunk_built H c _ _ _ _ _) fun _ => ih _

theorem putPart_built (u : Uuid) (part : Int) (body sum : Option Bytes) :
    Built (StepWith ok) (putPart H c u part body sum) := by
  refine .bind (.orRaise _ _) fun _ => .bind (.raiseIf _ _) fun _ => ?_
  refine .bind (built_of_quiet (uploadForUpdate_built c u)) fun _ => .bind (.raiseIf _ _) fun _ => ?_
  refine .bind (built_of_quiet (beginPart_built c u part)) fun _ => ?_
  refine .bind (built_of_shallow (putChunks_built H c u part _ _)) fun _ => ?_
  exact completePart_built H c u part sum

theorem completeMultipart_built (upload : UploadRow) (r : CompleteRequest) :
    Built (StepWith ok) (completeMultipart H c upload r) := by
  refine .bind (.reading _) fun _ => .bind (.raiseIf _ _) fun _ => .bind (.raiseIf _ _) fun _ => ?_
  refine .bind .get fun _ => .bind (.raiseIf _ _) fun _ => .bind (.raiseIf _ _) fun _ => ?_
  refine .bind (built_of_hashing (checkedMeta_hashing H _ _ _)) fun _ => ?_
  refine .bind (.raiseIf _ _) fun _ => ?_
  refine .bind (built_of_hashing (hashParts_hashing H c _ _)) fun _ => ?_
  exact .bind (ensureCompositeBlob_built c _ _ _ _) fun _ => .pure _

theorem storeSmall_built (u : Uuid) (size : Nat) (hashed : StagedDigest × Option Bytes) :
    Built (ShallowWith ok) (storeSmall H c u size hashed) := by
  refine .bind ?_ fun _ => ?_
  · unfold stagedBody
    cases hashed.2 with
    | none => exact .reading _
    | some body => exact .pure _
  · refine .bind (shallow_of_hashing (digest_hashing H _)) fun _ => .bind (.raiseIf _ _) fun _ => ?_
    exact .statement (.ensureBlob _ _ _)

theorem storePlain_built (u : Uuid) (size : Nat) (hashed : StagedDigest × Option Bytes) :
    Built (StepWith ok) (storePlain H c u size hashed) :=
  .ite (built_of_shallow (storeSmall_built H c _ _ _)) (ensureStagedBlob_built c _ _ _ _)

theorem completePlain_built (upload : UploadRow) (r : CompleteRequest) :
    Built (StepWith ok) (completePlain H c upload r) := by
  refine .bind (.raiseIf _ _) fun _ => .bind .get fun _ => .bind (.raiseIf _ _) fun _ => ?_
  refine .bind (built_of_hashing (hashStaged_hashing H c _ _ _ _ _)) fun _ => ?_
  exact .bind (storePlain_built H c _ _ _) fun _ => .pure _

/-- `complete_upload` after the lookup of the upload. -/
def completeLocked (u : Uuid) (r : CompleteRequest) (upload : UploadRow) :
    DbTx ObjectInfo := do
  let bucket ← bucketNameOf upload.bucketId
  markCompleting c u
  let p ← preparePublication H c upload r
  raiseIf ((∃ sum ∈ upload.expectedSha256, sum ≠ p.sha256) ∨
    (∃ sum ∈ r.checksumSha256, sum ≠ p.sha256)) uploadBadDigest
  publishUpload c upload bucket p

theorem completeLocked_built (u : Uuid) (r : CompleteRequest) (upload : UploadRow)
    (hb : ok.writes upload.bucketId) : Built (StepWith ok) (completeLocked H c u r upload) := by
  refine .bind (built_of_quiet (bucketNameOf_built _)) fun _ => ?_
  refine .bind (built_of_quiet (markCompleting_built c u)) fun _ => ?_
  refine .bind (.ite (completeMultipart_built H c _ _) (completePlain_built H c _ _)) fun _ => ?_
  exact .bind (.raiseIf _ _) fun _ => built_of_quiet (publishUpload_built c _ _ _ hb)

theorem completeUpload_eq (u : Uuid) (r : CompleteRequest) :
    completeUpload H c u r = uploadForUpdate c u >>= completeLocked H c u r := rfl

theorem completeUpload_built (u : Uuid) (r : CompleteRequest) (hall : ∀ b, ok.writes b) :
    Built (StepWith ok) (completeUpload H c u r) :=
  .bind (built_of_quiet (uploadForUpdate_built c u)) fun upload =>
    completeLocked_built H c u r upload (hall _)

theorem workerPutChunk_built (actor : RoleName) (bucket k : Text) (u : Uuid) (seq : Int)
    (data sha256 : Bytes) :
    Built (ShallowWith ok) (workerPutChunk c actor bucket k u seq data sha256) := by
  refine .bind (shallow_of_quiet (workerSetActor_built c actor)) fun _ => ?_
  refine .bind (.raiseIf _ _) fun _ => .bind (.raiseIf _ _) fun _ => ?_
  refine .bind (shallow_of_quiet (uploadForUpdateAt_built _ _ _ _ _)) fun _ => ?_
  refine .bind (.statement (.ensureBlob _ _ _)) fun _ => ?_
  refine .bind (.statement (.upsertUploadChunk _)) fun _ => ?_
  exact .bind (shallow_of_quiet (touchUpload_built _ u)) fun _ => .pure _

/-- The publication of a sealed upload from its staged chunks. -/
def workerSeal (u : Uuid) (sum : Option Bytes) (m : Seal) (upload : UploadRow) :
    DbTx ObjectInfo := do
  raiseIf ((∃ s ∈ upload.expectedSha256, s ≠ m.sha256) ∨ (∃ s ∈ sum, s ≠ m.sha256))
    uploadBadDigest
  let bucket ← bucketNameOf upload.bucketId
  markCompleting c u
  let blobId ← ensureStagedBlob c m.sha256 m.size u 0
  publishUpload c upload bucket ⟨m.size, m.sha256, m.md5, blobId, upload.meta⟩

theorem workerSeal_built (u : Uuid) (sum : Option Bytes) (m : Seal) (upload : UploadRow)
    (hb : ok.writes upload.bucketId) : Built (StepWith ok) (workerSeal c u sum m upload) := by
  refine .bind (.raiseIf _ _) fun _ => ?_
  refine .bind (built_of_quiet (bucketNameOf_built _)) fun _ => ?_
  refine .bind (built_of_quiet (markCompleting_built _ u)) fun _ => ?_
  refine .bind (ensureStagedBlob_built _ _ _ _ _) fun _ => ?_
  exact built_of_quiet (publishUpload_built _ _ _ _ hb)

/-- `_worker_complete_upload` after the lookup of the upload. -/
def workerCompleteLocked (u : Uuid) (sum : Option Bytes) (m : Seal) (upload : UploadRow) :
    DbTx ObjectInfo := do
  let staged := (← get).stagedChunks u 0
  raiseIf (contiguousFromZero staged = false ∨ stagedSize staged ≠ m.size ∨
      staged.map (·.blobId) ≠ m.chunkBlobIds ∨ staged.map (·.size) ≠ m.chunkSizes)
    (invalidPart "InvalidPart: sealed upload chunks changed")
  if (m.size : Int) ≤ max c.inlineThreshold 0 then
    completeUpload H c u ⟨none, none, sum, none, none⟩
  else workerSeal c u sum m upload

theorem workerCompleteUpload_eq (actor : RoleName) (bucket k : Text) (u : Uuid)
    (sum : Option Bytes) (m : Seal) :
    workerCompleteUpload H c actor bucket k u sum m = (do
      let c ← workerSetActor c actor
      raiseIf (m.sha256.length ≠ 32 ∨ isMd5Hex m.md5 = false ∨ m.chunkBlobIds = [] ∨
          m.chunkBlobIds.length ≠ m.chunkSizes.length)
        (invalidParameter "invalid worker-sealed upload manifest")
      let upload ← uploadForUpdateAt c u bucket k (some false)
      workerCompleteLocked H c u sum m upload) := rfl

theorem workerCompleteUpload_built (actor : RoleName) (bucket k : Text) (u : Uuid)
    (sum : Option Bytes) (m : Seal) (hall : ∀ b, ok.writes b) :
    Built (StepWith ok) (workerCompleteUpload H c actor bucket k u sum m) := by
  refine .bind (built_of_quiet (workerSetActor_built c actor)) fun _ => ?_
  refine .bind (.raiseIf _ _) fun _ => ?_
  refine .bind (built_of_quiet (uploadForUpdateAt_built _ _ _ _ _)) fun _ => ?_
  refine .bind .get fun _ => .bind (.raiseIf _ _) fun _ => ?_
  exact .ite (completeUpload_built H _ _ _ hall) (workerSeal_built _ _ _ _ _ (hall _))

theorem gcLoop_built (locked : Bytes → Bool) (n : Nat) (hgc : ok.collects) :
    Built (ShallowWith ok) (gcLoop locked n) := by
  induction n with
  | zero => exact .pure _
  | succ n ih =>
    refine .bind .get fun s => ?_
    cases nextGarbage s.blob.rows locked with
    | none => exact .pure _
    | some b => exact .bind (.statement (.deleteBlob _ hgc)) fun _ => .bind ih fun _ => .pure _

theorem gcBlobsSkipping_built (locked : Bytes → Bool) (limit : Int) (hgc : ok.collects) :
    Built (ShallowWith ok) (gcBlobsSkipping locked limit) :=
  .bind (.raiseIf _ _) fun _ => gcLoop_built locked _ hgc

/-! ## 4. The whole API -/

/-- The calls that can store extents. -/
def UploadOp.storesExtents : UploadOp → Bool
  | .completePart .. | .putPart .. | .complete .. => true
  | _ => false

def Op.storesExtents : Op → Bool
  | .onUpload _ _ op => op.storesExtents
  | .workerCompleteUpload .. => true
  | _ => false

theorem uploadOpBody_shallow (u : Uuid) {op : UploadOp} (hop : op.storesExtents = false) :
    Built (ShallowWith ok) (uploadOpBody H c u op) := by
  cases op with
  | renew => exact .bind (shallow_of_quiet (uploadForUpdate_built c u)) fun _ => .pure _
  | beginPart part => exact .bind (shallow_of_quiet (beginPart_built c u part)) fun _ => .pure _
  | abortPart part => exact .bind (shallow_of_quiet (beginPart_built c u part)) fun _ => .pure _
  | putChunk seq data part sum => exact .bind (putChunk_built H c _ _ _ _ _) fun _ => .pure _
  | completePart part sum => exact absurd hop (by simp [UploadOp.storesExtents])
  | putPart part body sum => exact absurd hop (by simp [UploadOp.storesExtents])
  | complete r => exact absurd hop (by simp [UploadOp.storesExtents])
  | abort => exact .bind (shallow_of_quiet (abortUpload_built c u)) fun _ => .pure _

theorem uploadOpBody_built (u : Uuid) (op : UploadOp) (hall : ∀ b, ok.writes b) :
    Built (StepWith ok) (uploadOpBody H c u op) := by
  cases op with
  | completePart part sum => exact .bind (completePart_built H c _ _ _) fun _ => .pure _
  | putPart part body sum => exact .bind (putPart_built H c _ _ _ _) fun _ => .pure _
  | complete r => exact .bind (completeUpload_built H c _ _ hall) fun _ => .pure _
  | _ => exact built_of_shallow (uploadOpBody_shallow H c u rfl)

theorem bindRoute_built {S : (α : Type) → DbTx α → Prop} (hS : ∀ α m, QuietWith ok α m → S α m)
    (u : Uuid) (route : Option Route) {m : DbTx Reply} (hm : Built S m) :
    Built S (bindRoute c u route m) := by
  cases route with
  | none => exact hm
  | some r => exact .bind ((uploadForUpdateAt_built c u _ _ _).mono hS) fun _ => hm

theorem shallow_reply {α : Type} {m : DbTx α} (f : α → Reply) (hm : Built (QuietWith ok) m) :
    Built (ShallowWith ok) (m >>= fun a => pure (f a)) :=
  .bind (shallow_of_quiet hm) fun _ => .pure _

def Op.isFork : Op → Bool
  | .forkBucket .. => true
  | _ => false

theorem opBody_shallowWith {op : Op} (hop : op.storesExtents = false)
    (hforks : op.isFork = true → ok.forks) (hgc : ok.collects) (hall : ∀ b, ok.writes b) :
    Built (ShallowWith ok) (opBody H c op) := by
  cases op with
  | createBucket name j => exact shallow_reply _ (createBucket_built c _ _)
  | deleteBucket name => exact shallow_reply _ (deleteBucket_built c _ hall)
  | put r => exact .bind (put_built H c r hall) fun _ => .pure _
  | delete bucket k v => exact shallow_reply _ (delete_built c _ _ _ hall)
  | deleteMany bucket ks vs => exact shallow_reply _ (deleteMany_built c _ _ _ hall)
  | copy r => exact shallow_reply _ (copy_built c r hall)
  | restore bucket k v m => exact shallow_reply _ (restore_built c _ _ _ _ hall)
  | forkBucket a b j => exact shallow_reply _ (forkBucket_built c _ _ _ (hforks rfl))
  | beginUpload r => exact shallow_reply _ (beginUpload_built c r)
  | onUpload route u op =>
    exact bindRoute_built c (fun _ _ => .quiet) u route (uploadOpBody_shallow H c u hop)
  | workerPutChunk actor bucket k u seq data sha256 =>
    refine .bind (.statement (.hashing (.logHashed data))) fun _ => ?_
    exact .bind (workerPutChunk_built c _ _ _ _ _ _ _) fun _ => .pure _
  | workerCompleteUpload actor bucket k u sum m chunks =>
    exact absurd hop (by simp [Op.storesExtents])
  | gcPendingUploads age limit => exact shallow_reply _ (gcPendingUploads_built c _ _)
  | gcBlobs limit => exact .bind (gcBlobsSkipping_built _ limit hgc) fun _ => .pure _

theorem opBody_builtWith {op : Op} (hforks : op.isFork = true → ok.forks) (hgc : ok.collects)
    (hall : ∀ b, ok.writes b) : Built (StepWith ok) (opBody H c op) := by
  cases op with
  | onUpload route u op =>
    exact bindRoute_built c (fun _ _ h => .shallow (.quiet h)) u route
      (uploadOpBody_built H c u op hall)
  | workerCompleteUpload actor bucket k u sum m chunks =>
    refine .bind (.forM fun x => .statement (.shallow (.hashing (.logHashed x)))) fun _ => ?_
    refine .bind (.statement (.shallow (.hashing (.logHashed _)))) fun _ => ?_
    exact .bind (workerCompleteUpload_built H c _ _ _ _ _ _ hall) fun _ => .pure _
  | _ => exact built_of_shallow (opBody_shallowWith H c rfl hforks hgc hall)

/-- **Every call is a sequence of steps.** -/
theorem opBody_built (op : Op) : Built Step (opBody H c op) :=
  opBody_builtWith H c (fun _ => trivial) trivial fun _ => trivial

end

end Pgs3
