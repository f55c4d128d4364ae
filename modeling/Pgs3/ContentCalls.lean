import Pgs3.ContentOps
import Pgs3.UploadSpecs

/-!
# Every call stores true content

The triples of the calls, put together from those of the storing functions.  A call that
computes its digests in the database needs no assumption.  The worker-sealed calls bring
theirs along and are sound when these are true (`Truthful`).
-/

namespace Pgs3

open Foundation Foundation.Tx Foundation.Extents

variable {P : Db → Prop} {s s' : Db} {sha256 : Bytes} {bucket k : Text} {r : CompleteRequest}
  {u : Uuid} {part : Int} {sum : Option Bytes} {size : Nat} {upload : UploadRow} {ns : List Nat}

/-! ## 1. Objects -/

section Calls

variable {H : Digests} {c : Context}

theorem Sound.reads {α : Type} {m : DbTx α} (hm : ∀ s a s', Yields m s a s' → s' = s) :
    Sound H P m fun _ s => P s :=
  .readOnly hm fun _ _ _ h => h

theorem bucketIdForChild_sound {name : Text} {e : Option Nat} :
    Sound H P (bucketIdForChild c name e) fun _ s => P s :=
  .reads fun _ _ _ h => (yields_bucketIdForChild h).1

variable {body : Bytes}

theorem digest_sound :
    Sound H P (digest H body) fun d s => d = H.sha256 body ∧ body ∈ s.hashed := by
  refine .hashing (digest_hashing H body) fun s d s' h _ _ _ _ => ?_
  obtain ⟨rfl, rfl⟩ := yields_digest.mp h
  exact ⟨rfl, List.mem_cons_self⟩

def Db.Names (s : Db) (b : Nat) (name : Text) : Prop :=
  ∃ r ∈ s.bucket.rows, r.bucketId = b ∧ r.name = name

variable {b : Nat}

theorem Db.Names.congr {name : Text} (h : s.Names b name) (hs : s'.bucket = s.bucket) :
    s'.Names b name := by
  unfold Db.Names
  rw [hs]
  exact h

/-- The answer of a publication: it is the latest version of the key, with the given
    payload, in the bucket of that name. -/
structure Published (s : Db) (info : ObjectInfo) (k : Text) (payload : Payload) : Prop where
  mem : info.object ∈ s.object.rows
  latest : info.object.isLatest = true
  key : info.object.key = k
  payload : info.object.payload = some payload
  bucket : s.Names info.object.bucketId info.bucket

theorem yields_ensureBlob_bucket {id : Bytes} (h : Yields (ensureBlob c sha256 body) s id s') :
    s'.bucket = s.bucket := by
  rcases (yields_ensureBlob h).2 with ⟨rfl, _⟩ | ⟨row, cs, hadds, _⟩
  · rfl
  · rw [hadds.rest]

variable {j : Jsonb}

theorem insertLatest_sound {p : Payload} {t : Option Text} {key content : Bytes} :
    Sound H (fun s => s.Names b bucket ∧ s.Holds key content)
      (insertLatest c b k (some p) t j)
      fun row s' => Published s' ⟨bucket, row⟩ k p ∧ s'.Holds key content where
  mono := (Sound.quiet (H := H) (P := fun _ => True)
    (.statement (.insertLatest c b k (some p) t j trivial))).mono
  keeps := by
    rintro s row s' h _ hinv ⟨hname, hholds⟩
    have hl := quiet_leavesBlobs (.insertLatest c b k (some p) t j trivial) h
    obtain ⟨rfl, _, _, object, hrows, rfl⟩ := yields_insertLatest h
    refine ⟨hl.keeps hinv, ⟨?_, rfl, rfl, rfl, hname⟩, hl.holds hholds⟩
    show _ ∈ object.rows
    rw [hrows]
    exact List.mem_append_right _ List.mem_cons_self

theorem commitBodyLocked_sound {etag : Text} {t : Option Text} {n m : Option Text} :
    Sound H (fun s => sha256 = H.sha256 body ∧ body ∈ s.hashed)
      (commitBodyLocked c b bucket k body sha256 etag t j n m)
      fun info s' => Published s' info k ⟨body.length, lower etag, sha256⟩ ∧
        s'.Holds sha256 body ∧ info.bucket = bucket where
  mono := built_mono (built_of_shallow (commitBodyLocked_built c _ _ _ _ _ _ _ _ _ _ trivial))
  keeps := by
    rintro s info s' h hno hinv hsha
    obtain ⟨hname, _, blobId, s₁, row, hblob, hrow, rfl⟩ := yields_commitBodyLocked h
    have hgrow := built_mono
      (.statement (.shallow (.quiet (.insertLatest _ _ _ _ _ _ trivial)))) _ _ _ hrow
    obtain ⟨hinv₁, rfl, hholds⟩ := ensureBlob_sound.keeps _ _ _ hblob (hno.mono hgrow) hinv hsha
    have hname₁ := Db.Names.congr hname (yields_ensureBlob_bucket hblob)
    obtain ⟨hinv', hpub, hholds'⟩ := insertLatest_sound.keeps _ _ _ hrow hno hinv₁ ⟨hname₁, hholds⟩
    exact ⟨hinv', hpub, hholds', rfl⟩

theorem put_sound {r : PutRequest} :
    Sound H (fun _ => True) (put H c r) fun info s' => ∃ body, r.body = some body ∧
      Published s' info r.key ⟨body.length, lower (hex (H.md5 body)), H.sha256 body⟩ ∧
      s'.Holds (H.sha256 body) body ∧ info.bucket = r.bucket := by
  refine .bind .orRaise fun body => .bind bucketIdForChild_sound fun _ => ?_
  refine .bind digest_sound.fact fun sha256 => .bind .raiseIf fun _ => ?_
  refine (commitBodyLocked_sound.fact (φ := r.body = some body ∧ sha256 = H.sha256 body)).conseq
    (fun s _ h => ⟨⟨h.2.1, h.2.2.1⟩, h.2.2⟩) ?_
  rintro info s _ ⟨⟨hbody, rfl⟩, hpub, hholds, hbucket⟩
  exact ⟨body, hbody, hpub, hholds, hbucket⟩

/-! ## 2. Chunks and parts -/

theorem putChunk_sound {seq : Int} {data : Option Bytes} :
    Sound H (fun _ => True) (putChunk H c u seq data part sum) fun _ _ => True := by
  refine .bind .orRaise fun data => .bind .raiseIf fun _ => .bind .raiseIf fun _ => ?_
  refine .bind (.quiet (uploadForUpdate_built c u)) fun _ => .bind .raiseIf fun _ => ?_
  refine .bind digest_sound fun sha256 => .bind .raiseIf fun _ => ?_
  refine .bind (ensureBlob_sound.pre fun s _ h => h.2) fun blobId => ?_
  refine .bind ((upsertUploadChunk_sound (c := data)).pre ?_) fun _ => ?_
  · rintro s _ ⟨rfl, hholds⟩
    exact ⟨hholds, rfl⟩
  refine (Sound.quiet (P := fun _ => True) ?_).pre fun _ _ _ => trivial
  refine .bind (.whenever (.statement (.deleteUploadParts _))) fun _ => ?_
  exact .bind (touchUpload_built c u) fun _ => .pure _

theorem putChunks_sound {seq : Nat} {pieces : List Bytes} :
    Sound H (fun _ => True) (putChunks H c u part seq pieces) fun _ _ => True := by
  induction pieces generalizing seq with
  | nil => exact Sound.pure (Q := fun _ _ => True)
  | cons piece rest ih => exact .bind putChunk_sound fun _ => ih

/-- `_ensure_staged_blob` stores what is staged, if it is numbered from 0 and its digest is
    known. -/
theorem ensureStagedBlob_sound (cs : List Bytes) {part : Nat} :
    Sound H (fun s => StagedContent s u part cs ∧
        (s.stagedChunks u part).map (·.seq) = List.range (s.stagedChunks u part).length ∧
        sha256 = H.sha256 cs.flatten ∧ size = cs.flatten.length ∧ cs.flatten ∈ s.hashed)
      (ensureStagedBlob c sha256 size u part)
      fun id s' => id = sha256 ∧ s'.Holds sha256 cs.flatten where
  mono := built_mono (ensureStagedBlob_built c _ _ _ _)
  keeps := by
    rintro s id s' h hno hinv ⟨hcs, hdense, hsha, hsize, hhashed⟩
    simp only [ensureStagedBlob, checkChunkSize, yields_raiseIf_bind, yields_get_bind] at h
    obtain ⟨_, _, _, h⟩ := h
    refine (storeComposite_sound ?_).keeps s id s' h hno hinv ⟨hsha, hsize, hhashed, ?_⟩
    · rw [List.map_map, List.length_map]
      exact hdense
    · rw [List.forall₂_map_left_iff]
      exact hcs

theorem hashStaged_sound (cs : List Bytes) {part : Nat} {wrongSize tooLarge : String} :
    Sound H (fun s => StagedContent s u part cs ∧ size = cs.flatten.length ∧
        (s.stagedChunks u part).map (·.seq) = List.range (s.stagedChunks u part).length)
      (hashStaged H c u part size wrongSize tooLarge)
      fun r s' => (r.1 = ⟨H.sha256 cs.flatten, hex (H.md5 cs.flatten), cs.flatten.length⟩ ∧
          ∀ body ∈ r.2, body = cs.flatten) ∧ StagedContent s' u part cs ∧
        (s'.stagedChunks u part).map (·.seq) = List.range (s'.stagedChunks u part).length ∧
        cs.flatten ∈ s'.hashed := by
  refine .hashing (hashStaged_hashing H c _ _ _ _ _) ?_
  rintro s r s' h ho hno hinv ⟨hcs, hsize, hdense⟩
  obtain ⟨hr, hbody, hhashed⟩ := hashStaged_content h hno hinv hcs hsize
  refine ⟨⟨hr, hbody⟩, ho.stagedContent.mpr hcs, ?_, hhashed⟩
  rw [ho.stagedChunks]
  exact hdense

theorem Sound.renewing {α : Type} {m : DbTx α} (hb : Built Quiet m)
    (hm : ∀ s a s', Yields m s a s' → OnlyUploads s s')
    (hP : ∀ s t, P s → P { s with upload := t }) : Sound H P m fun _ s => P s where
  mono := (Sound.quiet (H := H) (P := fun _ => True) hb).mono
  keeps := by
    intro s a s' h _ hinv hs
    refine ⟨(built_leavesBlobs hb h).keeps hinv, ?_⟩
    rw [hm s a s' h]
    exact hP s _ hs

variable {cs : List Bytes}

theorem completePart_sound :
    Sound H (fun s => StagedContent s u part.toNat cs) (completePart H c u part sum)
      fun row s' => row = ⟨u, part.toNat, cs.flatten.length, hex (H.md5 cs.flatten),
        H.sha256 cs.flatten, c.now⟩ ∧ s'.Holds (H.sha256 cs.flatten) cs.flatten := by
  refine .bind .raiseIf fun _ => ?_
  refine .bind ((Sound.renewing (uploadForUpdate_built c u)
    (fun _ _ _ h => (yields_uploadForUpdate h).1) fun _ _ h => h).pre fun _ _ h => h.2) fun _ => ?_
  refine .bind .raiseIf fun _ => .bind .get fun t => .bind .raiseIf fun _ => ?_
  refine .bind (((hashStaged_sound cs).fact
    (φ := stagedSize (t.stagedChunks u part.toNat) = cs.flatten.length)).pre ?_) fun r => ?_
  · rintro s _ ⟨hcontig, rfl, _, hcs⟩
    exact ⟨hcs.total, hcs, hcs.total, dense_of_contiguous (by simpa using hcontig)⟩
  refine .bind .raiseIf fun _ => ?_
  refine .bind (((ensureStagedBlob_sound cs).fact (φ := r.1.sha256 = H.sha256 cs.flatten ∧
    r.1.md5 = hex (H.md5 cs.flatten) ∧
    stagedSize (t.stagedChunks u part.toNat) = cs.flatten.length)).pre ?_) fun blobId => ?_
  · rintro s _ ⟨_, hsize, ⟨hr, _⟩, hcs, hdense, hhashed⟩
    exact ⟨⟨congrArg (·.sha256) hr, congrArg (·.md5) hr, hsize⟩, hcs, hdense,
      congrArg (·.sha256) hr, hsize, hhashed⟩
  refine .bind (((upsertUploadPart_sound (c := cs.flatten)).fact (φ :=
    (⟨u, part.toNat, stagedSize (t.stagedChunks u part.toNat), r.1.md5, blobId, c.now⟩ :
      UploadPartRow) = ⟨u, part.toNat, cs.flatten.length, hex (H.md5 cs.flatten),
        H.sha256 cs.flatten, c.now⟩)).pre ?_) fun _ => ?_
  · rintro s _ ⟨⟨hsha, hmd5, hsize⟩, rfl, hholds⟩
    rw [hsize, hmd5, hsha]
    exact ⟨rfl, hsha ▸ hholds, rfl⟩
  refine .bind (Sound.quiet_holds (.statement (.deleteUploadChunks _))).fact fun _ => ?_
  refine .bind (Sound.quiet_holds (touchUpload_built c u)).fact fun _ => Sound.pure.pre ?_
  rintro s _ ⟨hrow, hholds⟩
  rw [hrow] at hholds
  exact ⟨hrow, hholds⟩

theorem completePart_keeps :
    Sound H (fun _ => True) (completePart H c u part sum) fun _ _ => True :=
  (Sound.exists_elim (R := fun cs s => StagedContent s u part.toNat cs)
    (fun _ => completePart_sound.post fun _ _ _ => trivial) ⟨[]⟩).pre
      fun _ h _ => h.exists_stagedContent u part.toNat

theorem putPart_sound {body : Option Bytes} :
    Sound H (fun _ => True) (putPart H c u part body sum) fun _ _ => True := by
  refine .bind .orRaise fun body => .bind .raiseIf fun _ => ?_
  refine .bind (.quiet (uploadForUpdate_built c u)) fun _ => .bind .raiseIf fun _ => ?_
  refine .bind (.quiet (beginPart_built c u part)) fun _ => ?_
  exact .bind putChunks_sound fun _ => completePart_keeps

/-! ## 3. Completion -/

theorem mem_requestedParts {p : UploadPartRow} (h : p ∈ s.requestedParts u ns) :
    p ∈ s.uploadPart.rows := by
  obtain ⟨n, _, hn⟩ := List.mem_filterMap.mp h
  exact Table.lookup_mem hn

/-- `_ensure_composite_blob` stores the requested parts one after the other. -/
theorem ensureCompositeBlob_sound (cs : List Bytes) :
    Sound H (fun s => PartsContent s (s.requestedParts u ns) cs ∧
        sha256 = H.sha256 cs.flatten ∧ size = cs.flatten.length ∧ cs.flatten ∈ s.hashed)
      (ensureCompositeBlob c sha256 size u ns)
      fun id s' => id = sha256 ∧ s'.Holds sha256 cs.flatten where
  mono := built_mono (ensureCompositeBlob_built c _ _ _ _)
  keeps := by
    rintro s id s' h hno hinv ⟨hcs, hsha, hsize, hhashed⟩
    simp only [ensureCompositeBlob, checkChunkSize, yields_raiseIf_bind, yields_get_bind] at h
    obtain ⟨_, _, _, h⟩ := h
    refine (storeComposite_sound ?_).keeps s id s' h hno hinv ⟨hsha, hsize, hhashed, ?_⟩
    · rw [List.map_map, List.length_map, List.length_zipIdx, List.range_eq_range']
      exact List.zipIdx_map_snd 0 _
    · rw [List.forall₂_map_left_iff]
      have hzip := hcs
      unfold PartsContent at hzip
      rw [← List.zipIdx_map_fst 0 (s.requestedParts u ns), List.forall₂_map_left_iff] at hzip
      exact hzip

def Publication.Stored (H : Digests) (p : Publication) (body : Bytes) (s : Db) : Prop :=
  p.size = body.length ∧ p.sha256 = H.sha256 body ∧ p.blobId = p.sha256 ∧ s.Holds p.sha256 body

def RequestedContent (s : Db) (u : Uuid) (ns : List Nat) (parts : List UploadPartRow)
    (cs : List Bytes) : Prop :=
  s.requestedParts u ns = parts ∧ PartsContent s parts cs

variable {parts : List UploadPartRow}

theorem OnlyHashes.requestedContent (h : OnlyHashes s s') (hs : RequestedContent s u ns parts cs) :
    RequestedContent s' u ns parts cs := by
  refine ⟨?_, h.partsContent.mpr hs.2⟩
  rw [h.same]
  exact hs.1

theorem checkedMeta_sound (u : Uuid) (ns : List Nat) (cs : List Bytes) :
    Sound H (fun s => RequestedContent s u ns parts cs) (checkedMeta H j parts r)
      fun _ s => RequestedContent s u ns parts cs :=
  .hashing (checkedMeta_hashing H _ _ _) fun _ _ _ _ ho _ _ hs => ho.requestedContent hs

theorem hashParts_sound :
    Sound H (fun s => RequestedContent s u ns parts cs) (hashParts H c parts size)
      fun sha256 s' => sha256 = H.sha256 cs.flatten ∧ cs.flatten ∈ s'.hashed ∧
        RequestedContent s' u ns parts cs := by
  refine .hashing (hashParts_hashing H c _ _) fun s d s' h ho hno hinv hs => ?_
  obtain ⟨rfl, hhashed⟩ := hashParts_content h hno hinv hs.2
  exact ⟨rfl, hhashed, ho.requestedContent hs⟩

theorem completeMultipart_sound (cs : List Bytes) : Sound H (fun s => PartsContent s
        (s.requestedParts upload.uploadId ((r.parts.getD []).map Int.toNat)) cs)
      (completeMultipart H c upload r) fun p s' => p.Stored H cs.flatten s' := by
  refine .bind .reading fun _ => .bind .raiseIf fun _ => .bind .raiseIf fun _ => ?_
  refine .bind .get fun t => .bind .raiseIf fun _ => .bind .raiseIf fun _ => ?_
  refine .bind ((checkedMeta_sound upload.uploadId ((r.parts.getD []).map Int.toNat) cs).pre ?_)
    fun j => .bind .raiseIf fun _ => ?_
  · rintro s _ ⟨_, _, rfl, _, _, _, hcs⟩
    exact ⟨rfl, hcs⟩
  refine .bind (hashParts_sound.pre fun s _ hs => hs.2) fun sha256 => ?_
  refine .bind (((ensureCompositeBlob_sound cs).fact (φ := sha256 = H.sha256 cs.flatten ∧
    ((t.requestedParts upload.uploadId ((r.parts.getD []).map Int.toNat)).map (·.size)).sum
      = cs.flatten.length)).pre ?_) fun blobId => Sound.pure.pre ?_
  · rintro s _ ⟨hsha, hhashed, hparts, hcs⟩
    exact ⟨⟨hsha, hcs.total⟩, hparts.symm ▸ hcs, hsha, hcs.total, hhashed⟩
  · rintro s _ ⟨⟨hsha, hsize⟩, hid, hholds⟩
    exact ⟨hsize, hsha, hid, hholds⟩

/-! ### Staged bodies -/

theorem stagedBody_sound (cs : List Bytes) {known : Option Bytes} :
    Sound H (fun s => StagedContent s u 0 cs ∧ ∀ body ∈ known, body = cs.flatten)
      (stagedBody u known) fun body _ => body = cs.flatten := by
  cases known with
  | some body => exact Sound.pure.pre fun s _ h => h.2 body rfl
  | none => exact Sound.reading.post fun body s h => readStaged_content h.1 h.2.1

theorem storeSmall_sound (cs : List Bytes) {hashed : StagedDigest × Option Bytes} :
    Sound H (fun s => hashed.1.sha256 = H.sha256 cs.flatten ∧ StagedContent s u 0 cs ∧
        ∀ body ∈ hashed.2, body = cs.flatten) (storeSmall H c u size hashed)
      fun id s' => id = hashed.1.sha256 ∧ s'.Holds hashed.1.sha256 cs.flatten := by
  refine .bind (stagedBody_sound cs).fact fun body => ?_
  refine .bind (((digest_sound (P := fun _ => True)).fact
    (φ := hashed.1.sha256 = H.sha256 cs.flatten ∧ body = cs.flatten)).pre
      fun _ _ h => ⟨h, trivial⟩) fun d => .bind .raiseIf fun _ => ?_
  refine (ensureBlob_sound.fact (φ := body = cs.flatten)).conseq ?_ ?_
  · rintro s _ ⟨_, ⟨hsha, rfl⟩, _, hhashed⟩
    exact ⟨rfl, hsha, hhashed⟩
  · rintro id s _ ⟨rfl, hid, hholds⟩
    exact ⟨hid, hholds⟩

theorem storePlain_sound (cs : List Bytes) {hashed : StagedDigest × Option Bytes} :
    Sound H (fun s => (size = cs.flatten.length ∧ hashed.1.sha256 = H.sha256 cs.flatten ∧
          ∀ body ∈ hashed.2, body = cs.flatten) ∧ StagedContent s u 0 cs ∧
        (s.stagedChunks u 0).map (·.seq) = List.range (s.stagedChunks u 0).length ∧
        cs.flatten ∈ s.hashed) (storePlain H c u size hashed)
      fun id s' => id = hashed.1.sha256 ∧ s'.Holds hashed.1.sha256 cs.flatten := by
  refine .ite (fun _ => (storeSmall_sound cs).pre ?_) fun _ => (ensureStagedBlob_sound cs).pre ?_
  · rintro s _ ⟨⟨_, hsha, hbody⟩, hcs, _, _⟩
    exact ⟨hsha, hcs, hbody⟩
  · rintro s _ ⟨⟨hsize, hsha, _⟩, hcs, hdense, hhashed⟩
    exact ⟨hcs, hdense, hsha, hsize, hhashed⟩

/-- A single-part completion publishes what is staged, under its own digests. -/
theorem completePlain_sound (cs : List Bytes) :
    Sound H (fun s => StagedContent s upload.uploadId 0 cs) (completePlain H c upload r)
      fun p s' => p.Stored H cs.flatten s' ∧ p.etag = hex (H.md5 cs.flatten) := by
  refine .bind .raiseIf fun _ => .bind .get fun t => .bind .raiseIf fun _ => ?_
  refine .bind (((hashStaged_sound cs).fact
    (φ := stagedSize (t.stagedChunks upload.uploadId 0) = cs.flatten.length)).pre ?_) fun d => ?_
  · rintro s _ ⟨hcontig, rfl, _, hcs⟩
    refine ⟨hcs.total, hcs, hcs.total, ?_⟩
    by_cases hnil : t.stagedChunks upload.uploadId 0 = []
    · rw [hnil]
      rfl
    · exact dense_of_contiguous (by simpa [hnil] using hcontig)
  refine .bind (((storePlain_sound cs).fact
    (φ := stagedSize (t.stagedChunks upload.uploadId 0) = cs.flatten.length ∧
      d.1 = ⟨H.sha256 cs.flatten, hex (H.md5 cs.flatten), cs.flatten.length⟩)).pre ?_)
    fun blobId => Sound.pure.pre ?_
  · rintro s _ ⟨hsize, ⟨hd, hbody⟩, hrest⟩
    exact ⟨⟨hsize, hd⟩, ⟨hsize, congrArg (·.sha256) hd, hbody⟩, hrest⟩
  · rintro s _ ⟨⟨hsize, hd⟩, hid, hholds⟩
    exact ⟨⟨hsize, congrArg (·.sha256) hd, hid, hholds⟩, congrArg (·.md5) hd⟩

theorem preparePublication_sound : Sound H (fun _ => True) (preparePublication H c upload r)
      fun p s' => ∃ body, p.Stored H body s' := by
  refine .ite (fun _ => ?_) fun _ => ?_
  · refine (Sound.exists_elim (R := fun cs s => PartsContent s (s.requestedParts upload.uploadId
      ((r.parts.getD []).map Int.toNat)) cs)
      (fun cs => (completeMultipart_sound cs).post fun p s hp => ⟨_, hp⟩) ⟨[]⟩).pre ?_
    exact fun s h _ => h.exists_partsContent fun p => mem_requestedParts
  · refine (Sound.exists_elim (R := fun cs s => StagedContent s upload.uploadId 0 cs)
      (fun cs => (completePlain_sound cs).post fun p s hp => ⟨_, hp.1⟩) ⟨[]⟩).pre ?_
    exact fun s h _ => h.exists_stagedContent _ _

/-! ### Publishing -/

theorem yields_deleteUpload {r : Unit} (h : Yields (deleteUpload u) s r s') :
    s'.object = s.object ∧ s'.bucket = s.bucket := by
  simp only [deleteUpload, yields_modify_bind] at h
  obtain ⟨_, s₁, hchunks, hparts⟩ := yields_bind.mp h
  rw [yields_deleteUploadParts hparts, yields_deleteUploadChunks hchunks]
  exact ⟨rfl, rfl⟩

theorem publishUpload_sound (body : Bytes) {p : Publication} :
    Sound H (fun s => p.Stored H body s) (publishUpload c upload bucket p)
      fun info s' =>
        Published s' info upload.key ⟨body.length, lower p.etag, H.sha256 body⟩ ∧
        s'.Holds (H.sha256 body) body ∧ info.bucket = bucket where
  mono := (Sound.quiet (H := H) (P := fun _ => True) (publishUpload_built c _ _ _ trivial)).mono
  keeps := by
    rintro s info s' h hno hinv ⟨hsize, hsha, hid, hholds⟩
    have hl := built_leavesBlobs (publishUpload_built c _ _ _ trivial) h
    obtain ⟨info', s₁, hcommit, hrest⟩ := yields_bind.mp h
    obtain ⟨_, s₂, hdelete, hend⟩ := yields_bind.mp hrest
    obtain ⟨rfl, rfl⟩ := yields_pure.mp hend
    obtain ⟨hobject, hbucket⟩ := yields_deleteUpload hdelete
    have hdel : Built Quiet (deleteUpload upload.uploadId) := .statement (.deleteUpload _)
    obtain ⟨hname, _, _, _, row, hrow, rfl⟩ := yields_commitCanonicalLocked hcommit
    have hno₁ : NoCollision H s₁.hashed := (built_leavesBlobs hdel hdelete).hashed ▸ hno
    obtain ⟨_, hpub, _⟩ := insertLatest_sound.keeps _ _ _ hrow hno₁ hinv ⟨hname, hholds⟩
    refine ⟨hl.keeps hinv, ?_, hsha ▸ hl.holds hholds, rfl⟩
    rw [← hsize, ← hsha, ← hid]
    exact ⟨hobject ▸ hpub.mem, hpub.latest, hpub.key, hpub.payload, hpub.bucket.congr hbucket⟩

/-- The upload is a single-part upload to the given route. -/
def Db.Routed (s : Db) (u : Uuid) (bucket k : Text) : Prop :=
  ∃ r, s.upload.lookup u = some r ∧ r.multipart = false ∧ r.key = k ∧
    ∃ b, s.bucket.lookup r.bucketId = some b ∧ b.name = bucket

/-- What a call knows of the upload it locked. -/
def UploadRow.IsFor (r : UploadRow) (u : Uuid) (bucket k : Text) (s : Db) : Prop :=
  r.uploadId = u ∧ r.multipart = false ∧ r.key = k ∧
    ∃ b, s.bucket.lookup r.bucketId = some b ∧ b.name = bucket

theorem uploadForUpdate_sound (hP : ∀ s t, P s → P { s with upload := t }) :
    Sound H (fun s => s.Routed u bucket k ∧ P s) (uploadForUpdate c u)
      fun row s => row.IsFor u bucket k s ∧ P s where
  mono := built_mono (built_of_quiet (uploadForUpdate_built c u))
  keeps := by
    rintro s row s' h _ hinv ⟨⟨r, hr, hmulti, hkey, hbucket⟩, hs⟩
    refine ⟨(built_leavesBlobs (uploadForUpdate_built c u) h).keeps hinv, ?_⟩
    obtain ⟨honly, hlook, r', hr', _, rfl⟩ := yields_uploadForUpdate h
    obtain rfl := Option.some.inj (hr.symm.trans hr')
    rw [honly]
    exact ⟨⟨Table.lookup_key (a := r) hr, hmulti, hkey, hbucket⟩, hP s _ hs⟩

theorem uploadForUpdateAt_sound (hP : ∀ s t, P s → P { s with upload := t }) :
    Sound H P (uploadForUpdateAt c u bucket k (some false))
      fun row s => row.IsFor u bucket k s ∧ s.Routed u bucket k ∧ P s where
  mono := built_mono (built_of_quiet (uploadForUpdateAt_built c u bucket k (some false)))
  keeps := by
    rintro s row s' h _ hinv hs
    refine ⟨(built_leavesBlobs (uploadForUpdateAt_built c u _ _ _) h).keeps hinv, ?_⟩
    obtain ⟨honly, hlook, hu, hkey, hmulti, b, hb, hname⟩ := yields_uploadForUpdateAt h
    have hb' : s'.bucket.lookup row.bucketId = some b := by
      rw [honly]
      exact hb
    refine ⟨⟨hu, hmulti false rfl, hkey, b, hb', hname⟩,
      ⟨row, hlook, hmulti false rfl, hkey, b, hb', hname⟩, ?_⟩
    rw [honly]
    exact hP s _ hs

theorem bucketNameOf_sound (u : Uuid) (bucket k : Text) :
    Sound H (fun s => upload.IsFor u bucket k s ∧ P s) (bucketNameOf upload.bucketId)
      fun name s => (name = bucket ∧ upload.uploadId = u ∧ upload.multipart = false ∧
        upload.key = k) ∧ P s := by
  refine .readOnly (fun _ _ _ h => (yields_bucketNameOf h).1) ?_
  rintro s name h ⟨⟨hu, hmulti, hkey, b, hb, hname⟩, hcs⟩
  obtain ⟨_, b', hb', hname'⟩ := yields_bucketNameOf h
  obtain rfl := Option.some.inj (hb.symm.trans hb')
  exact ⟨⟨hname'.symm.trans hname, hu, hmulti, hkey⟩, hcs⟩

theorem completeUpload_sound (cs : List Bytes) :
    Sound H (fun s => s.Routed u bucket k ∧ StagedContent s u 0 cs) (completeUpload H c u r)
      fun info s' => Published s' info k ⟨cs.flatten.length, lower (hex (H.md5 cs.flatten)),
          H.sha256 cs.flatten⟩ ∧
        s'.Holds (H.sha256 cs.flatten) cs.flatten ∧ info.bucket = bucket := by
  refine .bind (uploadForUpdate_sound fun _ _ h => h) fun upload => ?_
  refine .bind (bucketNameOf_sound u bucket k) fun name => ?_
  refine .bind ((Sound.renewing (markCompleting_built c u)
    (fun _ _ _ h => (yields_updateUpload h).1) fun _ _ h => h).fact) fun _ => ?_
  refine .bind (Q := fun p s => (name = bucket ∧ upload.key = k) ∧
    p.Stored H cs.flatten s ∧ p.etag = hex (H.md5 cs.flatten)) ?_ fun p => ?_
  · refine .ite (fun hmulti => .absurd (completeMultipart_built H c _ _) ?_) fun _ => ?_
    · rintro s ⟨⟨_, _, hfalse, _⟩, _⟩
      exact Bool.false_ne_true (hfalse.symm.trans hmulti)
    · refine ((completePlain_sound cs).fact (φ := name = bucket ∧ upload.key = k)).pre ?_
      rintro s _ ⟨⟨hname, rfl, _, hkey⟩, hcs⟩
      exact ⟨⟨hname, hkey⟩, hcs⟩
  refine .bind .raiseIf fun _ => ?_
  refine ((publishUpload_sound cs.flatten).fact (φ := (name = bucket ∧ upload.key = k) ∧
    p.etag = hex (H.md5 cs.flatten))).conseq ?_ ?_
  · rintro s _ ⟨_, hfacts, hstored, hetag⟩
    exact ⟨⟨hfacts, hetag⟩, hstored⟩
  · rintro info s _ ⟨⟨⟨rfl, rfl⟩, hetag⟩, hpub, hholds, hbucket⟩
    exact ⟨hetag ▸ hpub, hholds, hbucket⟩

theorem completeUpload_keeps :
    Sound H (fun _ => True) (completeUpload H c u r) fun _ _ => True := by
  refine .bind (.quiet (uploadForUpdate_built c u)) fun upload => ?_
  refine .bind (.quiet (bucketNameOf_built _)) fun name => ?_
  refine .bind (.quiet (markCompleting_built c u)) fun _ => ?_
  refine .bind preparePublication_sound fun p => .bind .raiseIf fun _ => ?_
  exact .quiet (publishUpload_built c _ _ _ trivial)

/-! ## 4. Worker-sealed calls -/

/-- The seal says the truth about the chunks of a body. -/
structure Seal.True (H : Digests) (m : Seal) (chunks : List Bytes) : Prop where
  sha256 : m.sha256 = H.sha256 chunks.flatten
  md5 : m.md5 = hex (H.md5 chunks.flatten)
  size : m.size = chunks.flatten.length
  chunkBlobIds : m.chunkBlobIds = chunks.map H.sha256
  chunkSizes : m.chunkSizes = chunks.map List.length

theorem workerPutChunk_sound {actor : RoleName} {seq : Int} {data : Bytes} :
    Sound H (fun s => sha256 = H.sha256 data ∧ data ∈ s.hashed)
      (workerPutChunk c actor bucket k u seq data sha256)
      fun r s' => r = (sha256, data.length) ∧ s'.Holds sha256 data := by
  refine .bind (.reads fun _ _ _ h => (yields_workerSetActor h).1) fun c' => ?_
  refine .bind .raiseIf fun _ => .bind .raiseIf fun _ => ?_
  refine .bind (.renewing (uploadForUpdateAt_built c' u _ _ _)
    (fun _ _ _ h => (yields_uploadForUpdateAt h).1) fun _ _ h => h) fun _ => ?_
  refine .bind (ensureBlob_sound.pre fun s _ h => h.2.2) fun id => ?_
  refine .bind ((upsertUploadChunk_sound (c := data)).pre fun s _ h => ⟨h.2, rfl⟩) fun _ => ?_
  refine .bind (Sound.quiet_holds (touchUpload_built c' u)) fun _ => ?_
  exact Sound.pure.pre fun s _ h => ⟨rfl, h⟩

/-- Digests that match the staged rows name the contents of the staged rows. -/
theorem stagedContent_of_digests (hno : NoCollision H s.hashed) (hinv : ContentInv H s)
    {part : Nat} {chunks : List Bytes} (hhashed : ∀ x ∈ chunks, x ∈ s.hashed)
    (hids : (s.stagedChunks u part).map (·.blobId) = chunks.map H.sha256) :
    StagedContent s u part chunks := by
  obtain ⟨cs, hcs⟩ := hinv.exists_stagedContent u part
  have hsame : List.Forall₂ (fun x (r : UploadChunkRow) => H.sha256 x = r.blobId) chunks
      (s.stagedChunks u part) := by
    have h := List.forall₂_eq_eq_eq.symm ▸ hids.symm
    rwa [List.forall₂_map_left_iff, List.forall₂_map_right_iff] at h
  have hnamed := ((List.forall₂_and_left _ _).mpr ⟨hhashed, hsame⟩).flip
  have heq : cs = chunks := by
    refine forall₂_unique (fun r d x hd hx => ?_) hcs hnamed
    obtain ⟨hx, hxr⟩ := hx
    obtain ⟨⟨b, hb, hk, _⟩, hd⟩ := hd.1
    rw [← hxr] at hd hk
    exact Content.unique hd (hinv.holds_of_digest hno hx ⟨b, hb, hk⟩).2
  exact heq ▸ hcs

theorem workerCompleteUpload_sound (chunks : List Bytes) {actor : RoleName} {m : Seal} :
    Sound H (fun s => m.True H chunks ∧ (∀ x ∈ chunks, x ∈ s.hashed) ∧ chunks.flatten ∈ s.hashed)
      (workerCompleteUpload H c actor bucket k u sum m) fun info s' =>
        Published s' info k ⟨chunks.flatten.length, lower (hex (H.md5 chunks.flatten)),
          H.sha256 chunks.flatten⟩ ∧
        s'.Holds (H.sha256 chunks.flatten) chunks.flatten ∧ info.bucket = bucket := by
  refine .bind (.reads fun _ _ _ h => (yields_workerSetActor h).1) fun c' => ?_
  refine .bind .raiseIf fun _ => ?_
  refine .bind (uploadForUpdateAt_sound fun _ _ h => h) fun upload => ?_
  refine .bind .get fun t => .bind .raiseIf fun _ => ?_
  refine Sound.pre_of_noCollision (P := fun s => (upload.IsFor u bucket k s ∧
    s.Routed u bucket k) ∧ (m.True H chunks ∧ StagedContent s u 0 chunks ∧
      (s.stagedChunks u 0).map (·.seq) = List.range (s.stagedChunks u 0).length) ∧
      chunks.flatten ∈ s.hashed) ?_ ?_
  · refine .ite (fun _ => ?_) fun _ => ?_
    · exact (completeUpload_sound chunks).pre fun s _ h => ⟨h.1.2, h.2.1.2.1⟩
    · refine .bind .raiseIf fun _ => ?_
      refine .bind ((bucketNameOf_sound u bucket k (P := fun s => m.True H chunks ∧
        StagedContent s u 0 chunks ∧ (s.stagedChunks u 0).map (·.seq)
          = List.range (s.stagedChunks u 0).length ∧ chunks.flatten ∈ s.hashed)).pre ?_)
        fun name => ?_
      · rintro s _ ⟨_, ⟨hfor, _⟩, ⟨hm, hcs, hdense⟩, hbody⟩
        exact ⟨hfor, hm, hcs, hdense, hbody⟩
      refine .bind (Sound.renewing (markCompleting_built c' u)
        (fun _ _ _ h => (yields_updateUpload h).1) fun _ _ h => h) fun _ => ?_
      refine .bind (((ensureStagedBlob_sound chunks).fact (φ := (name = bucket ∧
        upload.key = k) ∧ m.True H chunks)).pre ?_) fun blobId => ?_
      · rintro s _ ⟨⟨hname, _, _, hkey⟩, hm, hcs, hdense, hbody⟩
        exact ⟨⟨⟨hname, hkey⟩, hm⟩, hcs, hdense, hm.sha256, hm.size, hbody⟩
      refine ((publishUpload_sound chunks.flatten).fact (φ := (name = bucket ∧
        upload.key = k) ∧ m.True H chunks)).conseq ?_ ?_
      · rintro s _ ⟨⟨hfacts, hm⟩, hid, hholds⟩
        exact ⟨⟨hfacts, hm⟩, hm.size, hm.sha256, hid, hholds⟩
      · rintro info s _ ⟨⟨⟨rfl, rfl⟩, hm⟩, hpub, hholds, hbucket⟩
        exact ⟨hm.md5 ▸ hpub, hholds, hbucket⟩
  · rintro s hno hinv ⟨hstaged, rfl, hfor, hroute, _, hm, hhashed, hbody⟩
    rw [not_or, not_or, not_or, not_not, not_not] at hstaged
    obtain ⟨hcontig, _, hids, _⟩ := hstaged
    refine ⟨⟨hfor, hroute⟩, ⟨hm, ?_, dense_of_contiguous (by simpa using hcontig)⟩, hbody⟩
    exact stagedContent_of_digests hno hinv hhashed (hids.trans hm.chunkBlobIds)

/-! ## 5. Collection, and the whole API -/

theorem gcLoop_sound {locked : Bytes → Bool} {n : Nat} :
    Sound H (fun _ => True) (gcLoop locked n) fun _ _ => True := by
  induction n with
  | zero => exact Sound.pure (Q := fun _ _ => True)
  | succ n ih =>
    refine .bind .get fun t => ?_
    cases nextGarbage t.blob.rows locked with
    | none => exact Sound.pure.pre fun _ _ _ => trivial
    | some b =>
      have hdelete := built_mono (.statement (.shallow (.deleteBlob b.sha256 trivial)))
      refine .bind (Q := fun _ _ => True) ⟨hdelete, ?_⟩ fun _ => ?_
      · rintro s u s' h _ hinv _
        exact ⟨deleteBlob_keeps_content H _ s u s' hinv h, trivial⟩
      · exact .bind ih fun _ => Sound.pure (Q := fun _ _ => True)

theorem Sound.of_quiet {α : Type} {m : DbTx α} {f : α → Reply} (hm : Built Quiet m) :
    Sound H P (m >>= fun a => Pure.pure (f a)) fun _ _ => True :=
  .bind (.quiet hm) fun _ => Sound.pure (Q := fun _ _ => True)

theorem Sound.replying {α : Type} {m : DbTx α} {f : α → Reply} {Q : α → Db → Prop}
    (hm : Sound H P m Q) : Sound H P (m >>= fun a => Pure.pure (f a)) fun _ _ => True :=
  .bind hm fun _ => Sound.pure.pre fun _ _ _ => trivial

theorem uploadOpBody_sound {op : UploadOp} :
    Sound H (fun _ => True) (uploadOpBody H c u op) fun _ _ => True := by
  cases op with
  | renew => exact .of_quiet (uploadForUpdate_built c u)
  | beginPart part => exact .of_quiet (beginPart_built c u part)
  | abortPart part => exact .of_quiet (beginPart_built c u part)
  | putChunk seq data part sum => exact .replying putChunk_sound
  | completePart part sum => exact .replying completePart_keeps
  | putPart part body sum => exact .replying putPart_sound
  | complete r => exact .replying completeUpload_keeps
  | abort => exact .of_quiet (abortUpload_built c u)

/-- The digests that a worker brings along are those of the bytes it saw. -/
def Truthful (H : Digests) : Op → Prop
  | .workerPutChunk _ _ _ _ _ data serverSha256 => serverSha256 = H.sha256 data
  | .workerCompleteUpload _ _ _ _ _ m chunks => m.True H chunks
  | _ => True

/-- A property that hashing more does not spoil. -/
def HashStable (P : Db → Prop) : Prop :=
  ∀ s b, P s → (∀ x ∈ s.hashed, x ∈ b) → P { s with hashed := b }

theorem logHashed_sound (hP : HashStable P) {x : Bytes} :
    Sound H P (logHashed x) fun _ s => x ∈ s.hashed ∧ P s := by
  refine .hashing (.statement (.logHashed x)) fun s u s' h ho _ _ hs => ?_
  refine ⟨?_, ?_⟩
  · obtain rfl := yields_modify.mp h
    exact List.mem_cons_self
  · rw [ho.same]
    exact hP s _ hs ho.grows

theorem logAll_sound (hP : HashStable P) {chunks : List Bytes} :
    Sound H P (chunks.forM logHashed) fun _ s => (∀ x ∈ chunks, x ∈ s.hashed) ∧ P s := by
  induction chunks generalizing P with
  | nil => exact Sound.pure.pre fun s _ hs => ⟨by simp, hs⟩
  | cons a chunks ih =>
    have hP' : HashStable fun s => a ∈ s.hashed ∧ P s :=
      fun s b hs hb => ⟨hb a hs.1, hP s b hs.2 hb⟩
    refine .bind (logHashed_sound hP) fun _ => (ih hP').post fun u s hs => ?_
    exact ⟨List.forall_mem_cons.mpr ⟨hs.2.1, hs.1⟩, hs.2.2⟩

/-- **Every call stores true content**, when the worker tells the truth. -/
theorem opBody_sound {op : Op} (hop : Truthful H op) :
    Sound H (fun _ => True) (opBody H c op) fun _ _ => True := by
  cases op with
  | createBucket name j => exact .of_quiet (createBucket_built c _ _)
  | deleteBucket name => exact .of_quiet (deleteBucket_built c _ fun _ => trivial)
  | put r => exact .replying put_sound
  | delete bucket k v => exact .of_quiet (delete_built c _ _ _ fun _ => trivial)
  | deleteMany bucket ks vs => exact .of_quiet (deleteMany_built c _ _ _ fun _ => trivial)
  | copy r => exact .of_quiet (copy_built c r fun _ => trivial)
  | restore bucket k v m => exact .of_quiet (restore_built c _ _ _ _ fun _ => trivial)
  | forkBucket a b j => exact .of_quiet (forkBucket_built c _ _ _ trivial)
  | beginUpload r => exact .of_quiet (beginUpload_built c r)
  | onUpload route u op =>
    cases route with
    | none => exact uploadOpBody_sound
    | some r => exact .bind (.quiet (uploadForUpdateAt_built c u _ _ _)) fun _ => uploadOpBody_sound
  | workerPutChunk actor bucket k u seq data sha256 =>
    refine .bind (logHashed_sound fun _ _ h _ => h) fun _ => ?_
    exact .replying (workerPutChunk_sound.pre fun s _ hs => ⟨hop, hs.1⟩)
  | workerCompleteUpload actor bucket k u sum m chunks =>
    refine .bind (logAll_sound fun _ _ h _ => h) fun _ => ?_
    refine .bind (logHashed_sound fun s b hs hb => ⟨fun x hx => hb x (hs.1 x hx), hs.2⟩) fun _ => ?_
    refine .replying ((workerCompleteUpload_sound chunks).pre fun s _ hs => ?_)
    exact ⟨hop, hs.2.1, hs.1⟩
  | gcPendingUploads age limit => exact .of_quiet (gcPendingUploads_built c _ _)
  | gcBlobs limit => exact .replying (.bind .raiseIf fun _ => gcLoop_sound.pre fun _ _ _ => trivial)

end Calls

/-! ## 6. Every reachable state -/

theorem Run.contentInv {H : Digests} (h : Run H (fun _ op _ => Truthful H op) s) :
    NoCollision H s.hashed → ContentInv H s := by
  refine h.invariant (I := fun s => NoCollision H s.hashed → ContentInv H s) ?_ ?_ ?_
  · exact fun _ => contentInv_empty H
  · intro c op s r s' ih hop hy hno
    -- what did not collide at the end did not collide before
    have hsound := opBody_sound (c := c) hop
    have hinv := ih (hno.mono (hsound.mono s r s' hy))
    exact (hsound.keeps s r s' hy hno hinv trivial).1
  · intro s v b ih hno
    exact (ih hno).frame rfl rfl rfl (fun _ => id) (fun _ => id) fun _ => id

def Db.Below (s : Db) (k k' : Bytes) : Prop :=
  ∃ e ∈ s.blobExtent.rows, e.finalBlobId = k ∧ e.sourceBlobId = k'

theorem ContentInv.edge_of_below {H : Digests} (h : ContentInv H s) {k k' : Bytes}
    (hk : s.Below k k') : Edge s.node k k' := by
  obtain ⟨e, he, rfl, rfl⟩ := hk
  obtain ⟨_, b, hb, hfinal, hst⟩ := h.extents e he
  exact edge_iff.mpr ⟨⟨b, hfinal ▸ Table.lookup_of_mem hb, hst⟩, e, he, rfl, rfl⟩

theorem ContentInv.acyclic {H : Digests} (h : ContentInv H s) (k : Bytes) :
    ¬ Relation.TransGen s.Below k k := by
  intro hcycle
  have hedges := Relation.TransGen.mono (fun _ _ => h.edge_of_below) _ _ hcycle
  -- the first step of the cycle leaves a blob, and a blob has a content
  obtain ⟨k', ⟨e, he, rfl, _⟩, _⟩ := Relation.TransGen.head'_iff.mp hcycle
  obtain ⟨_, b, hb, hfinal, _⟩ := h.extents e he
  obtain ⟨c, hc, _⟩ := h.holds hb
  exact (hfinal ▸ hc.2).acyclic hedges

/-- **Content addressing.**  After any sequence of calls, as long as the worker told the
    truth about the bytes it passed and no two strings hashed on the way collide: extents
    never lead back to where they start, every blob is laid out as its row says, and the
    bytes it expands to have its size and its digest. -/
theorem content_addressed {H : Digests} {s : Db}
    (h : Run H (fun _ op _ => Truthful H op) s) (hno : NoCollision H s.hashed) :
    (∀ k, ¬ Relation.TransGen s.Below k k) ∧
      ∀ b ∈ s.blob.rows, Layout s b ∧ ∃ c, Content s.node b.sha256 c ∧
        c.length = b.size ∧ H.sha256 c = b.sha256 := by
  have hinv := h.contentInv hno
  refine ⟨hinv.acyclic, fun b hb => ?_⟩
  obtain ⟨hlayout, c, hc⟩ := hinv.blobs b hb
  exact ⟨hlayout, c, hc.content, hc.size, hc.digest⟩

/-- Two chunks sealed by the worker and published as one composite blob. -/
def sealedUpload : List (Context × Op) :=
  let c := { Context.sample with inlineThreshold := 0 }
  let (bucket, key) := ("bucket".toList, "key".toList)
  let digest := Digests.sample.sha256
  [(c, .createBucket bucket (.object [])),
   (c, .beginUpload ⟨bucket, key, none, .object [], false, none, none, none⟩),
   (c, .workerPutChunk c.actor bucket key 1 0 [1, 2] (digest [1, 2])),
   (c, .workerPutChunk c.actor bucket key 1 1 [3] (digest [3])),
   (c, .workerCompleteUpload c.actor bucket key 1 none
     ⟨digest [1, 2, 3], hex (Digests.sample.md5 [1, 2, 3]), 3, [digest [1, 2], digest [3]], [2, 1]⟩
     [[1, 2], [3]])]

theorem sealedUpload_truthful (p : Context × Op) (hp : p ∈ sealedUpload) :
    Truthful Digests.sample p.2 := by
  simp only [sealedUpload, List.mem_cons, List.not_mem_nil, or_false] at hp
  rcases hp with rfl | rfl | rfl | rfl | rfl
  · trivial
  · trivial
  · rfl
  · rfl
  · exact ⟨rfl, rfl, rfl, rfl, rfl⟩

theorem content_addressed_sealedUpload :
    let s := execs Digests.sample sealedUpload Db.empty
    NoCollision Digests.sample s.hashed ∧ (∃ b ∈ s.blob.rows, b.storage = .composite) ∧
      ∀ b ∈ s.blob.rows, Layout s b ∧ ∃ c, Content s.node b.sha256 c ∧
        c.length = b.size ∧ Digests.sample.sha256 c = b.sha256 := by
  intro s
  have hno : NoCollision Digests.sample s.hashed := by
    unfold NoCollision
    decide +kernel
  refine ⟨hno, by decide +kernel, (content_addressed ?_ hno).2⟩
  exact Run.empty.execs fun p hp _ => sealedUpload_truthful p hp

end Pgs3
