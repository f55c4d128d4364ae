import Pgs3.Content

/-!
# Reading gives the content

What `_read_blob` and the hash helpers return, when they return, is the content of the
blob.  For `_read_blob` this is an induction over its levels; the helpers compare the
digest of what they read with the key, so no walk has to be followed.
-/

namespace Pgs3

open Foundation Foundation.Tx Foundation.Extents

/-! ## 1. `_read_blob` -/

theorem int4_eq_ok {n m : Int} (h : int4 n = .ok m) : m = n := by
  unfold int4 at h
  split at h
  · exact absurd h (by simp)
  · exact (Except.ok.inj h).symm

theorem substring_eq_slice (data : Bytes) (offset length : Nat) :
    substring data (offset + 1) length = slice data offset length := by
  have h : ((offset : Int) + 1 - 1).toNat = offset := by omega
  rw [substring, h, Int.toNat_natCast]
  rfl

theorem pieces_of_gathers {s : Db} {f : Bytes → Except PgError Bytes}
    (hread : ∀ k c d, f k = .ok c → Content s.node k d → c = d) {es : List BlobExtentRow}
    {pieces : List Bytes} {d : Bytes}
    (h : List.Forall₂ (fun e piece => (do
        let source ← f e.sourceBlobId
        let start ← int4 (e.sourceOffset + 1)
        let count ← int4 e.length
        .ok (substring source start count)) = .ok piece)
      (es.filter fun e => 0 < e.length) pieces)
    (hd : Gathers (Content s.node) (es.map (·.extent)) d) : pieces.flatten = d := by
  induction es generalizing pieces d with
  | nil =>
    cases hd
    cases h
    rfl
  | cons e es ih =>
    cases hd with
    | @cons _ _ x xs hx hrest =>
      by_cases hpos : 0 < e.length
      · rw [List.filter_cons_of_pos (by simpa using hpos)] at h
        cases h with
        | @cons _ piece _ pieces hpiece hpieces =>
          simp only [bind_eq_ok] at hpiece
          obtain ⟨source, hsource, start, hstart, count, hcount, hpiece⟩ := hpiece
          rw [int4_eq_ok hstart, int4_eq_ok hcount, substring_eq_slice] at hpiece
          rw [List.flatten_cons, ih hpieces hrest, ← Except.ok.inj hpiece,
            hread _ _ _ hsource hx]
          rfl
      · rw [List.filter_cons_of_neg (by simpa using hpos)] at h
        rw [ih h hrest]
        have hzero : e.extent.length = 0 := by
          show e.length = 0
          omega
        rw [slice, hzero, List.take_zero, List.nil_append]

theorem readBlobAt_content {s : Db} {levels : Nat} {k c d : Bytes}
    (h : readBlobAt s levels k = .ok c) (hd : Content s.node k d) : c = d := by
  induction levels generalizing k c d with
  | zero => exact absurd h (by simp [readBlobAt])
  | succ levels ih =>
    unfold readBlobAt at h
    split at h
    · exact absurd h (by simp)
    · rename_i b hb
      have hend : ∀ {body : Bytes}, (if body.length ≠ b.size then
          .error (corrupted ("corrupt blob " ++ String.ofList (hex k))) else .ok body)
            = Except.ok c → c = body := by
        intro body hbody
        split at hbody
        · exact absurd hbody (by simp)
        · exact (Except.ok.inj hbody).symm
      cases hst : b.storage with
      | inline data =>
        simp only [hst, bind_eq_ok, Except.ok.injEq] at h
        obtain ⟨_, rfl, h⟩ := h
        rw [hend h, (content_leaf (node_inline hb hst)).mp hd]
      | chunked =>
        simp only [hst, bind_eq_ok, Except.ok.injEq] at h
        obtain ⟨_, rfl, h⟩ := h
        rw [hend h, (content_leaf (node_chunked hb hst)).mp hd]
      | composite =>
        simp only [hst, bind_eq_ok, mapM_eq_ok, Except.ok.injEq] at h
        obtain ⟨pieces, hpieces, _, rfl, h⟩ := h
        rw [hend h]
        refine pieces_of_gathers (f := readBlobAt s levels) (fun k c d hc hd => ih hc hd) ?_
          ((content_concat (node_composite hb hst)).mp hd)
        simpa only [bind_eq_ok, Except.ok.injEq] using hpieces

theorem readStaged_content {s : Db} {u : Uuid} {part : Nat} {body : Bytes} {cs : List Bytes}
    (h : readStaged s u part = .ok body) (hcs : StagedContent s u part cs) : body = cs.flatten := by
  obtain ⟨bodies, hbodies, h⟩ := bind_eq_ok.mp h
  rw [← Except.ok.inj h]
  refine congrArg List.flatten (forall₂_unique ?_ (mapM_eq_ok.mp hbodies) hcs)
  exact fun r b c hb hc => readBlobAt_content hb hc.1.2

variable {parts : List UploadPartRow}

theorem readParts_content {s : Db} {bodies cs : List Bytes}
    (h : (parts.mapM fun p => readBlob s p.sha256) = .ok bodies) (hcs : PartsContent s parts cs) :
    bodies = cs := by
  refine forall₂_unique ?_ (mapM_eq_ok.mp h) hcs
  exact fun p b c hb hc => readBlobAt_content hb hc.1.2

/-! ## 2. The hash helpers -/

/-- Only the record of what was hashed has grown. -/
structure OnlyHashes (s s' : Db) : Prop where
  grows : ∀ x ∈ s.hashed, x ∈ s'.hashed
  same : s' = { s with hashed := s'.hashed }

theorem OnlyHashes.node {s s' : Db} (h : OnlyHashes s s') : s'.node = s.node := by
  rw [h.same]
  rfl

theorem OnlyHashes.holds {s s' : Db} (h : OnlyHashes s s') {k c : Bytes} :
    s'.Holds k c ↔ s.Holds k c := by
  rw [h.same]
  rfl

theorem OnlyHashes.stagedChunks {s s' : Db} (h : OnlyHashes s s') :
    s'.stagedChunks = s.stagedChunks := by
  rw [h.same]
  rfl

theorem OnlyHashes.stagedContent {s s' : Db} (h : OnlyHashes s s') {u : Uuid} {part : Nat}
    {cs : List Bytes} : StagedContent s' u part cs ↔ StagedContent s u part cs := by
  rw [h.same]
  rfl

theorem OnlyHashes.partsContent {s s' : Db} (h : OnlyHashes s s') {cs : List Bytes} :
    PartsContent s' parts cs ↔ PartsContent s parts cs := by
  rw [h.same]
  rfl

theorem OnlyHashes.keeps {H : Digests} {s s' : Db} (h : OnlyHashes s s') (hinv : ContentInv H s) :
    ContentInv H s' := by
  rw [h.same]
  exact hinv.frame rfl rfl rfl (fun _ => id) (fun _ => id) h.grows

theorem onlyHashes {α : Type} {m : DbTx α} (hm : Built Hashing m) {s s' : Db} {a : α}
    (h : Yields m s a s') : OnlyHashes s s' := by
  refine hm.keeps (I := OnlyHashes s) (fun β f hf => ?_) s a s' ⟨fun x hx => hx, rfl⟩ h
  cases hf with
  | logHashed body =>
    refine Keeps.modify fun t ht => ⟨fun x hx => List.mem_cons_of_mem _ (ht.grows x hx), ?_⟩
    rw [ht.same]

variable {bytes : Bytes}

/-- What `stream_verified_blob` returns has the digest it was asked for. -/
theorem yields_streamVerifiedBlob {H : Digests} {id : Bytes} {s s' : Db}
    (h : Yields (streamVerifiedBlob H id) s bytes s') :
    H.sha256 bytes = id ∧ bytes ∈ s'.hashed ∧ s.HasBlob id := by
  simp only [streamVerifiedBlob, yields_reading_bind, yields_raiseIf_bind] at h
  obtain ⟨b, hb, blocks, _, _, h⟩ := h
  obtain ⟨sha256, s₁, hdigest, h⟩ := yields_bind.mp h
  obtain ⟨rfl, rfl⟩ := yields_digest.mp hdigest
  simp only [yields_raiseIf_bind, yields_pure] at h
  obtain ⟨hsha, rfl, rfl⟩ := h
  refine ⟨not_not.mp hsha, List.mem_cons_self, ?_⟩
  unfold loadBlob at hb
  split at hb
  · exact absurd hb (by simp)
  · rename_i row hrow
    exact ⟨row, Table.lookup_mem hrow, Table.lookup_key hrow⟩

theorem streamVerifiedBlob_content {H : Digests} {id c : Bytes} {s s' : Db}
    (h : Yields (streamVerifiedBlob H id) s bytes s') (hno : NoCollision H s'.hashed)
    (hinv : ContentInv H s) (hc : s.Holds id c) : bytes = c := by
  obtain ⟨rfl, hbytes, hhas⟩ := yields_streamVerifiedBlob h
  have ho := onlyHashes (streamVerifiedBlob_hashing H _) h
  have hhas' : s'.HasBlob (H.sha256 bytes) := by
    rw [ho.same]
    exact hhas
  have hholds := (ho.keeps hinv).holds_of_digest hno hbytes hhas'
  exact Content.unique (ho.node ▸ hholds.2) hc.2

theorem hashStagedChunks_content {H : Digests} {u : Uuid} {part : Nat} {seqs : List Nat}
    {cs : List Bytes} {s s' : Db} (h : Yields (hashStagedChunks H u part seqs) s bytes s')
    (hno : NoCollision H s'.hashed) (hinv : ContentInv H s)
    (hcs : List.Forall₂ (fun seq c => ∃ r, s.uploadChunk.lookup (u, part, seq) = some r ∧
      s.Holds r.blobId c) seqs cs) : bytes = cs.flatten := by
  induction seqs generalizing s bytes cs with
  | nil =>
    cases hcs
    obtain ⟨rfl, _⟩ := yields_pure.mp h
    rfl
  | cons seq seqs ih =>
    cases hcs with
    | @cons _ c _ cs hc hrest =>
      obtain ⟨r, hr, hholds⟩ := hc
      simp only [hashStagedChunks, yields_get_bind, yields_orRaise_bind] at h
      obtain ⟨r', hr', h⟩ := h
      obtain rfl := Option.some.inj (hr'.symm.trans hr)
      obtain ⟨first, s₁, hfirst, h⟩ := yields_bind.mp h
      rw [yields_raiseIf_bind] at h
      obtain ⟨_, h⟩ := h
      obtain ⟨more, s₂, hmore, h⟩ := yields_bind.mp h
      obtain ⟨rfl, rfl⟩ := yields_pure.mp h
      have ho₁ := onlyHashes (streamVerifiedBlob_hashing H _) hfirst
      have ho₂ := onlyHashes (hashStagedChunks_hashing H _ _ _) hmore
      rw [streamVerifiedBlob_content hfirst (hno.mono ho₂.grows) hinv hholds,
        ih hmore (ho₁.keeps hinv) (hrest.imp fun seq c hc => ?_)]
      · rfl
      · obtain ⟨r, hr, hholds⟩ := hc
        exact ⟨r, by rw [ho₁.same]; exact hr, ho₁.holds.mpr hholds⟩

theorem streamBlobs_content {H : Digests} {ids : List Bytes} {cs : List Bytes} {s s' : Db}
    (h : Yields (streamBlobs H ids) s bytes s') (hno : NoCollision H s'.hashed)
    (hinv : ContentInv H s) (hcs : List.Forall₂ s.Holds ids cs) : bytes = cs.flatten := by
  induction ids generalizing s bytes cs with
  | nil =>
    cases hcs
    obtain ⟨rfl, _⟩ := yields_pure.mp h
    rfl
  | cons id ids ih =>
    cases hcs with
    | @cons _ c _ cs hholds hrest =>
      obtain ⟨first, s₁, hfirst, hnext⟩ := yields_bind.mp h
      obtain ⟨more, s₂, hmore, hend⟩ := yields_bind.mp hnext
      obtain ⟨rfl, rfl⟩ := yields_pure.mp hend
      have ho₁ := onlyHashes (streamVerifiedBlob_hashing H _) hfirst
      have ho₂ := onlyHashes (streamBlobs_hashing H _) hmore
      rw [streamVerifiedBlob_content hfirst (hno.mono ho₂.grows) hinv hholds,
        ih hmore (ho₁.keeps hinv) (hrest.imp fun id c hc => ho₁.holds.mpr hc)]
      rfl

/-! ## 3. Staged chunks by number -/

theorem mem_stagedChunks {s : Db} {u : Uuid} {part : Nat} {r : UploadChunkRow} :
    r ∈ s.stagedChunks u part ↔ r ∈ s.uploadChunk.rows ∧ r.uploadId = u ∧ r.partNumber = part := by
  simp [Db.stagedChunks, mem_orderBy]

theorem stagedChunks_pairwise (s : Db) (u : Uuid) (part : Nat) :
    ((s.stagedChunks u part).map (·.seq)).Pairwise (· < ·) := by
  refine orderBy_pairwise_lt _ ?_
  -- within a part the sequence number is the key
  have hnd : ((s.uploadChunk.rows.filter fun c => decide (c.uploadId = u ∧ c.partNumber = part)).map
      fun c => (c.uploadId, c.partNumber, c.seq)).Nodup :=
    s.uploadChunk.nodup.sublist (List.filter_sublist.map _)
  refine List.Nodup.of_map (fun n => (u, part, n)) ?_
  rw [List.map_map]
  refine (List.map_congr_left fun c hc => ?_) ▸ hnd
  have hc := (List.mem_filter.mp hc).2
  simp only [decide_eq_true_eq] at hc
  simp only [Function.comp_apply, hc.1, hc.2]

theorem stagedChunks_dense {s : Db} {u : Uuid} {part : Nat}
    (hlt : ∀ n ∈ (s.stagedChunks u part).map (·.seq), n < (s.stagedChunks u part).length) :
    (s.stagedChunks u part).map (·.seq) = List.range (s.stagedChunks u part).length := by
  have h := eq_range_of_pairwise_lt (stagedChunks_pairwise s u part)
    fun n hn => by simpa using hlt n hn
  rwa [List.length_map] at h

theorem dense_of_contiguous {s : Db} {u : Uuid} {part : Nat}
    (h : contiguousFromZero (s.stagedChunks u part) = true) :
    (s.stagedChunks u part).map (·.seq) = List.range (s.stagedChunks u part).length := by
  refine stagedChunks_dense fun n hn => ?_
  simp only [contiguousFromZero, decide_eq_true_eq] at h
  have hle := (List.max?_eq_some_iff.mp h.2).2 n hn
  have hpos : 0 < ((s.stagedChunks u part).map (·.seq)).length := List.length_pos_of_mem hn
  rw [List.length_map] at hpos
  omega

theorem denseLayoutError_eq_none {stats : LayoutStats} {count size : Nat}
    (h : denseLayoutError stats count size = none) :
    stats.count = count ∧ (count ≠ 0 → stats.maxSeq = some (count - 1)) ∧
      stats.totalSize = size ∧ stats.rowsValid = true := by
  unfold denseLayoutError at h
  split_ifs at h with hcount _ hseq hsize hvalid
  push Not at hseq
  exact ⟨not_not.mp hcount, fun h0 => (hseq h0).2, not_not.mp hsize, by simpa using hvalid⟩

theorem dense_of_layout {s : Db} {u : Uuid} {part : Nat}
    (h : denseLayoutError (uploadLayout s u part) (uploadLayout s u part).count
      (uploadLayout s u part).totalSize = none) :
    (s.stagedChunks u part).map (·.seq) = List.range (s.stagedChunks u part).length := by
  refine stagedChunks_dense fun n hn => ?_
  have hpos : 0 < ((s.stagedChunks u part).map (·.seq)).length := List.length_pos_of_mem hn
  rw [List.length_map] at hpos
  have hcount : (uploadLayout s u part).count = (s.stagedChunks u part).length := by
    simp [uploadLayout, layoutStats]
  obtain ⟨_, hmax, _⟩ := denseLayoutError_eq_none h
  rw [hcount] at hmax
  have hle := (List.max?_eq_some_iff.mp (hmax (by omega))).2 n hn
  omega

/-! ## 4. Digests of what is staged and of parts -/

section Hashes

variable {H : Digests} {c : Context} {u : Uuid} {part size : Nat} {s s' : Db} {cs : List Bytes}

theorem hashUploadPart_content {r : StagedDigest} (h : Yields (hashUploadPart H u part) s r s')
    (hno : NoCollision H s'.hashed) (hinv : ContentInv H s) (hcs : StagedContent s u part cs) :
    r = ⟨H.sha256 cs.flatten, hex (H.md5 cs.flatten), cs.flatten.length⟩ ∧
      cs.flatten ∈ s'.hashed := by
  simp only [hashUploadPart, yields_get_bind, yields_orRaise_bind, yields_raiseIf_bind,
    yields_raiseSome_bind] at h
  obtain ⟨_, _, _, _, _, hlayout, h⟩ := h
  obtain ⟨bytes, s₁, hbytes, h⟩ := yields_bind.mp h
  obtain ⟨sha256, s₂, hdigest, h⟩ := yields_bind.mp h
  obtain ⟨rfl, rfl⟩ := yields_digest.mp hdigest
  simp only [yields_raiseIf_bind, yields_pure] at h
  obtain ⟨_, rfl, rfl⟩ := h
  -- the numbers are those of the staged rows, in order
  have hcount : (uploadLayout s u part).count = (s.stagedChunks u part).length := by
    simp [uploadLayout, layoutStats]
  rw [hcount, ← dense_of_layout hlayout] at hbytes
  have hrows : List.Forall₂ (fun seq c => ∃ r, s.uploadChunk.lookup (u, part, seq) = some r ∧
      s.Holds r.blobId c) ((s.stagedChunks u part).map (·.seq)) cs := by
    rw [List.forall₂_map_left_iff]
    have hmem : ∀ r ∈ s.stagedChunks u part, s.uploadChunk.lookup (u, part, r.seq) = some r := by
      intro r hr
      obtain ⟨hrow, rfl, rfl⟩ := mem_stagedChunks.mp hr
      exact Table.lookup_of_mem hrow
    refine ((List.forall₂_and_left _ _).mpr ⟨hmem, hcs⟩).imp fun r c hrc => ?_
    exact ⟨r, hrc.1, hrc.2.1⟩
  have hcontent := hashStagedChunks_content hbytes
    (hno.mono fun x hx => List.mem_cons_of_mem _ hx) hinv hrows
  rw [hcontent]
  exact ⟨rfl, List.mem_cons_self⟩

theorem hashBlobSequence_content {ids : List Bytes} {r : Bytes × Nat}
    (h : Yields (hashBlobSequence H ids) s r s') (hno : NoCollision H s'.hashed)
    (hinv : ContentInv H s) (hcs : List.Forall₂ s.Holds ids cs) :
    r = (H.sha256 cs.flatten, cs.flatten.length) ∧ cs.flatten ∈ s'.hashed := by
  obtain ⟨bytes, s₁, hbytes, hrest⟩ := yields_bind.mp h
  obtain ⟨sha256, s₂, hdigest, hend⟩ := yields_bind.mp hrest
  obtain ⟨rfl, rfl⟩ := yields_digest.mp hdigest
  obtain ⟨rfl, rfl⟩ := yields_pure.mp hend
  have hcontent := streamBlobs_content hbytes
    (hno.mono fun x hx => List.mem_cons_of_mem _ hx) hinv hcs
  rw [hcontent]
  exact ⟨rfl, List.mem_cons_self⟩

theorem StagedContent.total (hcs : StagedContent s u part cs) :
    stagedSize (s.stagedChunks u part) = cs.flatten.length := by
  rw [stagedSize, List.length_flatten]
  exact congrArg List.sum (map_eq_map_of_forall₂ (hcs.imp fun r c hrc => hrc.2))

theorem PartsContent.total (hcs : PartsContent s parts cs) :
    (parts.map (·.size)).sum = cs.flatten.length := by
  rw [List.length_flatten]
  exact congrArg List.sum (map_eq_map_of_forall₂ (hcs.imp fun p c hpc => hpc.2))

/-- Both ways of hashing give the digests of what is staged. -/
theorem hashStaged_content {wrongSize tooLarge : String} {r : StagedDigest × Option Bytes}
    (h : Yields (hashStaged H c u part size wrongSize tooLarge) s r s')
    (hno : NoCollision H s'.hashed) (hinv : ContentInv H s) (hcs : StagedContent s u part cs)
    (hsize : size = cs.flatten.length) :
    r.1 = ⟨H.sha256 cs.flatten, hex (H.md5 cs.flatten), cs.flatten.length⟩ ∧
      (∀ body ∈ r.2, body = cs.flatten) ∧ cs.flatten ∈ s'.hashed := by
  unfold hashStaged at h
  split at h
  · obtain ⟨d, s₁, hd, hrest⟩ := yields_bind.mp h
    simp only [yields_raiseIf_bind, yields_pure] at hrest
    obtain ⟨_, rfl, rfl⟩ := hrest
    obtain ⟨hr, hhashed⟩ := hashUploadPart_content hd hno hinv hcs
    exact ⟨hr, fun body hbody => absurd hbody (by simp), hhashed⟩
  · simp only [yields_raiseIf_bind, yields_reading_bind] at h
    obtain ⟨_, body, hbody, h⟩ := h
    obtain ⟨sha256, s₁, hdigest, hend⟩ := yields_bind.mp h
    obtain ⟨rfl, rfl⟩ := yields_digest.mp hdigest
    obtain ⟨rfl, rfl⟩ := yields_pure.mp hend
    obtain rfl := readStaged_content hbody hcs
    rw [hsize]
    refine ⟨rfl, fun body hbody => ?_, List.mem_cons_self⟩
    exact (Option.some.inj hbody).symm

theorem hashParts_content {sha256 : Bytes} (h : Yields (hashParts H c parts size) s sha256 s')
    (hno : NoCollision H s'.hashed) (hinv : ContentInv H s) (hcs : PartsContent s parts cs) :
    sha256 = H.sha256 cs.flatten ∧ cs.flatten ∈ s'.hashed := by
  unfold hashParts at h
  split at h
  · obtain ⟨d, s₁, hd, hrest⟩ := yields_bind.mp h
    simp only [yields_raiseIf_bind, yields_pure] at hrest
    obtain ⟨_, rfl, rfl⟩ := hrest
    have hids : List.Forall₂ s.Holds (parts.map (·.sha256)) cs := by
      rw [List.forall₂_map_left_iff]
      exact hcs.imp fun p c hpc => hpc.1
    obtain ⟨rfl, hhashed⟩ := hashBlobSequence_content hd hno hinv hids
    exact ⟨rfl, hhashed⟩
  · simp only [yields_raiseIf_bind, yields_reading_bind] at h
    obtain ⟨_, bodies, hbodies, _, h⟩ := h
    obtain rfl := readParts_content hbodies hcs
    obtain ⟨rfl, rfl⟩ := yields_digest.mp h
    exact ⟨rfl, List.mem_cons_self⟩

end Hashes

end Pgs3
