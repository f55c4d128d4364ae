import Pgs3.Foundation.Extents
import Pgs3.ObjectSpecs
import Pgs3.Steps

/-!
# What is stored under a digest

The blob tables as a store of shared content (`Db.node`), the layouts that chunk rows and
extents must have, and the invariant `ContentInv`: every blob has a content, laid out as
its row says, whose SHA-256 is the key of the blob.

SHA-256 cannot be injective; what the invariant needs is that no two of the byte strings
hashed so far collide (`NoCollision`).  The ghost field `hashed` of the database records
them.
-/

namespace Pgs3

open Foundation Foundation.Tx Foundation.Extents

/-! ## 1. Contents and layouts -/

def BlobExtentRow.extent (e : BlobExtentRow) : Extent Bytes :=
  ⟨e.sourceBlobId, e.sourceOffset, e.length⟩

def Db.node (s : Db) : Store Bytes UInt8 := fun k =>
  (s.blob.lookup k).map fun b =>
    match b.storage with
    | .inline data => .leaf data
    | .chunked => .leaf ((s.chunksOf k).flatMap (·.data))
    | .composite => .concat ((s.extentsOf k).map (·.extent))

section Node

variable {s : Db} {k : Bytes} {b : BlobRow}

theorem node_inline {data : Bytes} (hb : s.blob.lookup k = some b)
    (hst : b.storage = .inline data) : s.node k = some (.leaf data) := by
  simp only [Db.node, hb, Option.map_some, hst]

theorem node_chunked (hb : s.blob.lookup k = some b) (hst : b.storage = .chunked) :
    s.node k = some (.leaf ((s.chunksOf k).flatMap (·.data))) := by
  simp only [Db.node, hb, Option.map_some, hst]

theorem node_composite (hb : s.blob.lookup k = some b) (hst : b.storage = .composite) :
    s.node k = some (.concat ((s.extentsOf k).map (·.extent))) := by
  simp only [Db.node, hb, Option.map_some, hst]

end Node

/-- Chunk rows numbered from 0, each of the size that the blob's chunk size gives it. -/
structure ChunkLayout (b : BlobRow) (rows : List ChunkRow) : Prop where
  dense : rows.map (·.seq) = List.range rows.length
  split : ∀ r ∈ rows, r.seq * b.chunkSize < b.size ∧
    r.data.length = min b.chunkSize (b.size - r.seq * b.chunkSize)
  total : (rows.map (·.data.length)).sum = b.size

/-- Each extent starts where the lengths before it end. -/
def ContiguousFrom : Nat → List BlobExtentRow → Prop
  | _, [] => True
  | offset, e :: rest => e.logicalOffset = offset ∧ ContiguousFrom (offset + e.length) rest

/-- Extents numbered from 0, contiguous from offset 0, each the whole of its source. -/
structure ExtentLayout (s : Db) (b : BlobRow) (rows : List BlobExtentRow) : Prop where
  dense : rows.map (·.seq) = List.range rows.length
  contiguous : ContiguousFrom 0 rows
  total : (rows.map (·.length)).sum = b.size
  whole : ∀ e ∈ rows, ∃ source ∈ s.blob.rows, source.sha256 = e.sourceBlobId ∧
    e.sourceOffset = 0 ∧ e.length = source.size

def Layout (s : Db) (b : BlobRow) : Prop :=
  match b.storage with
  | .inline data => data.length = b.size
  | .chunked => ChunkLayout b (s.chunksOf b.sha256)
  | .composite => ExtentLayout s b (s.extentsOf b.sha256)

/-- No two of the given byte strings have one digest. -/
def NoCollision (H : Digests) (bodies : List Bytes) : Prop :=
  ∀ a ∈ bodies, ∀ b ∈ bodies, H.sha256 a = H.sha256 b → a = b

theorem NoCollision.mono {H : Digests} {l l' : List Bytes} (h : NoCollision H l')
    (hsub : ∀ x ∈ l, x ∈ l') : NoCollision H l :=
  fun a ha b hb => h a (hsub a ha) b (hsub b hb)

/-- The blob has content `c`, of its size, with its digest, and `c` was hashed. -/
structure Stores (H : Digests) (s : Db) (b : BlobRow) (c : Bytes) : Prop where
  content : Content s.node b.sha256 c
  size : c.length = b.size
  digest : H.sha256 c = b.sha256
  hashed : c ∈ s.hashed

structure ContentInv (H : Digests) (s : Db) : Prop where
  blobs : ∀ b ∈ s.blob.rows, Layout s b ∧ ∃ c, Stores H s b c
  chunks : ∀ r ∈ s.chunk.rows, s.HasBlob r.blobId
  extents : ∀ e ∈ s.blobExtent.rows, s.HasBlob e.sourceBlobId ∧
    ∃ b ∈ s.blob.rows, b.sha256 = e.finalBlobId ∧ b.storage = .composite
  staged : ∀ r ∈ s.uploadChunk.rows, ∃ b ∈ s.blob.rows, b.sha256 = r.blobId ∧ b.size = r.size
  parts : ∀ p ∈ s.uploadPart.rows, ∃ b ∈ s.blob.rows, b.sha256 = p.sha256 ∧ b.size = p.size

theorem contentInv_empty (H : Digests) : ContentInv H Db.empty where
  blobs := fun b hb => absurd hb (by simp [Db.empty])
  chunks := fun r hr => absurd hr (by simp [Db.empty])
  extents := fun e he => absurd he (by simp [Db.empty])
  staged := fun r hr => absurd hr (by simp [Db.empty])
  parts := fun p hp => absurd hp (by simp [Db.empty])

/-! ## 2. Frames -/

theorem lookup_addRefs (s : Db) (d : Bytes → Int) (k : Bytes) :
    (s.addRefs d).blob.lookup k = (s.blob.lookup k).map (BlobRow.addRef d) :=
  Table.lookup_update s.blob (BlobRow.addRef d) (BlobRow.addRef_sha256 d) k

@[simp] theorem node_addRefs (s : Db) (d : Bytes → Int) : (s.addRefs d).node = s.node := by
  funext k
  simp only [Db.node, lookup_addRefs, Option.map_map]
  rfl

theorem mem_blob_addRefs {s : Db} {d : Bytes → Int} {b : BlobRow} :
    b ∈ (s.addRefs d).blob.rows ↔ ∃ b₀ ∈ s.blob.rows, b₀.addRef d = b :=
  List.mem_map

theorem ContentInv.addRefs {H : Digests} {s : Db} {d : Bytes → Int} (h : ContentInv H s) :
    ContentInv H (s.addRefs d) := by
  have hex : ∀ P : BlobRow → Prop, (∀ b, P b → P (b.addRef d)) → (∃ b ∈ s.blob.rows, P b) →
      ∃ b ∈ (s.addRefs d).blob.rows, P b := by
    rintro P hP ⟨b, hb, hPb⟩
    exact ⟨b.addRef d, mem_blob_addRefs.mpr ⟨b, hb, rfl⟩, hP b hPb⟩
  refine ⟨fun b hb => ?_, fun r hr => ?_, fun e he => ⟨?_, ?_⟩, fun r hr => ?_, fun p hp => ?_⟩
  · obtain ⟨b₀, hb₀, rfl⟩ := mem_blob_addRefs.mp hb
    obtain ⟨hlayout, c, hc⟩ := h.blobs b₀ hb₀
    refine ⟨?_, c, ?_, hc.size, hc.digest, hc.hashed⟩
    · unfold Layout at hlayout ⊢
      show match b₀.storage with
        | .inline data => data.length = b₀.size
        | .chunked => ChunkLayout (b₀.addRef d) (s.chunksOf b₀.sha256)
        | .composite => ExtentLayout (s.addRefs d) (b₀.addRef d) (s.extentsOf b₀.sha256)
      split at hlayout
      · exact hlayout
      · exact ⟨hlayout.dense, hlayout.split, hlayout.total⟩
      · refine ⟨hlayout.dense, hlayout.contiguous, hlayout.total, fun e he => ?_⟩
        exact hex _ (fun b hb => hb) (hlayout.whole e he)
    · rw [node_addRefs]
      exact hc.content
  · exact hex _ (fun b hb => hb) (h.chunks r hr)
  · exact hex _ (fun b hb => hb) (h.extents e he).1
  · exact hex _ (fun b hb => hb) (h.extents e he).2
  · exact hex _ (fun b hb => hb) (h.staged r hr)
  · exact hex _ (fun b hb => hb) (h.parts p hp)

/-- Anything may happen outside the blob tables, as long as staged rows name blobs of their
    size. -/
theorem ContentInv.restage {H : Digests} {s t : Db} (h : ContentInv H s)
    (hblob : t.blob = s.blob) (hchunk : t.chunk = s.chunk) (hextent : t.blobExtent = s.blobExtent)
    (hstaged : ∀ r ∈ t.uploadChunk.rows, ∃ b ∈ s.blob.rows, b.sha256 = r.blobId ∧ b.size = r.size)
    (hparts : ∀ p ∈ t.uploadPart.rows, ∃ b ∈ s.blob.rows, b.sha256 = p.sha256 ∧ b.size = p.size)
    (hhashed : ∀ x ∈ s.hashed, x ∈ t.hashed) : ContentInv H t := by
  have hchunks : t.chunksOf = s.chunksOf := by
    funext k
    simp only [Db.chunksOf, hchunk]
  have hextents : t.extentsOf = s.extentsOf := by
    funext k
    simp only [Db.extentsOf, hextent]
  have hnode : t.node = s.node := by
    funext k
    simp only [Db.node, hblob, hchunks, hextents]
  have hhas : ∀ k, s.HasBlob k → t.HasBlob k := by
    rintro k ⟨b, hb, hk⟩
    exact ⟨b, hblob ▸ hb, hk⟩
  refine ⟨fun b hb => ?_, fun r hr => ?_, fun e he => ⟨?_, ?_⟩, fun r hr => ?_, fun p hp => ?_⟩
  · obtain ⟨hlayout, c, hc⟩ := h.blobs b (hblob ▸ hb)
    refine ⟨?_, c, hnode ▸ hc.content, hc.size, hc.digest, hhashed c hc.hashed⟩
    unfold Layout at hlayout ⊢
    rw [hchunks, hextents]
    split at hlayout
    · exact hlayout
    · exact hlayout
    · refine ⟨hlayout.dense, hlayout.contiguous, hlayout.total, fun e he => ?_⟩
      rw [hblob]
      exact hlayout.whole e he
  · exact hhas _ (h.chunks r (hchunk ▸ hr))
  · exact hhas _ (h.extents e (hextent ▸ he)).1
  · rw [hblob]
    exact (h.extents e (hextent ▸ he)).2
  · rw [hblob]
    exact hstaged r hr
  · rw [hblob]
    exact hparts p hp

theorem ContentInv.frame {H : Digests} {s t : Db} (h : ContentInv H s) (hblob : t.blob = s.blob)
    (hchunk : t.chunk = s.chunk) (hextent : t.blobExtent = s.blobExtent)
    (hstaged : ∀ r ∈ t.uploadChunk.rows, r ∈ s.uploadChunk.rows)
    (hparts : ∀ p ∈ t.uploadPart.rows, p ∈ s.uploadPart.rows)
    (hhashed : ∀ x ∈ s.hashed, x ∈ t.hashed) : ContentInv H t :=
  h.restage hblob hchunk hextent (fun r hr => h.staged r (hstaged r hr))
    (fun p hp => h.parts p (hparts p hp)) hhashed

/-! ## 3. Adding a blob -/

theorem mem_extentsOf {s : Db} {k : Bytes} {e : BlobExtentRow} :
    e ∈ s.extentsOf k ↔ e ∈ s.blobExtent.rows ∧ e.finalBlobId = k := by
  simp [Db.extentsOf, mem_orderBy]

theorem edge_iff {s : Db} {k k' : Bytes} :
    Edge s.node k k' ↔ (∃ b, s.blob.lookup k = some b ∧ b.storage = .composite) ∧
      ∃ e ∈ s.blobExtent.rows, e.finalBlobId = k ∧ e.sourceBlobId = k' := by
  constructor
  · rintro ⟨es, hes, e, he, rfl⟩
    obtain ⟨b, hb, hnode⟩ := Option.map_eq_some_iff.mp hes
    cases hst : b.storage with
    | inline data => simp [hst] at hnode
    | chunked => simp [hst] at hnode
    | composite =>
      rw [hst] at hnode
      obtain rfl := Node.concat.inj hnode
      obtain ⟨row, hrow, rfl⟩ := List.mem_map.mp he
      obtain ⟨hmem, hfinal⟩ := mem_extentsOf.mp hrow
      exact ⟨⟨b, hb, hst⟩, row, hmem, hfinal, rfl⟩
  · rintro ⟨⟨b, hb, hst⟩, e, he, hfinal, rfl⟩
    refine ⟨(s.extentsOf k).map (·.extent), ?_, e.extent, ?_, rfl⟩
    · exact node_composite hb hst
    · exact List.mem_map_of_mem (mem_extentsOf.mpr ⟨he, hfinal⟩)

/-- `t` is `s` with a blob of a new digest and the rows that belong to it. -/
structure Adds (s t : Db) (row : BlobRow) (cs : List ChunkRow) (es : List BlobExtentRow) :
    Prop where
  fresh : ¬ s.HasBlob row.sha256
  blob : t.blob.rows = s.blob.rows ++ [row]
  chunk : t.chunk.rows = s.chunk.rows ++ cs
  extent : t.blobExtent.rows = s.blobExtent.rows ++ es
  ownChunks : ∀ r ∈ cs, r.blobId = row.sha256
  ownExtents : ∀ e ∈ es, e.finalBlobId = row.sha256
  sources : ∀ e ∈ es, s.HasBlob e.sourceBlobId
  rest : t = { s with blob := t.blob, chunk := t.chunk, blobExtent := t.blobExtent }

namespace Adds

variable {s t : Db} {row : BlobRow} {cs : List ChunkRow} {es : List BlobExtentRow}
  (h : Adds s t row cs es)

include h

theorem staged : t.uploadChunk = s.uploadChunk := by
  rw [h.rest]

theorem parts : t.uploadPart = s.uploadPart := by
  rw [h.rest]

theorem hashed : t.hashed = s.hashed := by
  rw [h.rest]

theorem mem_old {b : BlobRow} (hb : b ∈ s.blob.rows) : b ∈ t.blob.rows := by
  rw [h.blob]
  exact List.mem_append_left _ hb

theorem hasBlob_old {k : Bytes} (hk : s.HasBlob k) : t.HasBlob k := by
  obtain ⟨b, hb, rfl⟩ := hk
  exact ⟨b, h.mem_old hb, rfl⟩

theorem ne_of_hasBlob {k : Bytes} (hk : s.HasBlob k) : row.sha256 ≠ k :=
  fun heq => h.fresh (heq ▸ hk)

theorem mem_new : row ∈ t.blob.rows := by
  rw [h.blob]
  exact List.mem_append_right _ (List.mem_singleton.mpr rfl)

theorem lookup_old {k : Bytes} (hk : s.HasBlob k) : t.blob.lookup k = s.blob.lookup k := by
  obtain ⟨b, hb, rfl⟩ := hk
  have hnew : t.blob.lookup b.sha256 = some b := Table.lookup_of_mem (h.mem_old hb)
  have hold : s.blob.lookup b.sha256 = some b := Table.lookup_of_mem hb
  rw [hnew, hold]

theorem chunksOf_old {k : Bytes} (hk : s.HasBlob k) : t.chunksOf k = s.chunksOf k := by
  have hnone : cs.filter (fun r => decide (r.blobId = k)) = [] := by
    refine List.filter_eq_nil_iff.mpr fun r hr => ?_
    simpa [h.ownChunks r hr] using h.ne_of_hasBlob hk
  simp only [Db.chunksOf, h.chunk, List.filter_append, hnone, List.append_nil]

theorem extentsOf_old {k : Bytes} (hk : s.HasBlob k) : t.extentsOf k = s.extentsOf k := by
  have hnone : es.filter (fun e => decide (e.finalBlobId = k)) = [] := by
    refine List.filter_eq_nil_iff.mpr fun e he => ?_
    simpa [h.ownExtents e he] using h.ne_of_hasBlob hk
  simp only [Db.extentsOf, h.extent, List.filter_append, hnone, List.append_nil]

theorem node_old {k : Bytes} (hk : s.HasBlob k) : t.node k = s.node k := by
  simp only [Db.node, h.lookup_old hk, h.chunksOf_old hk, h.extentsOf_old hk]

variable {H : Digests}

theorem content_old (hinv : ContentInv H s) {k : Bytes}
    (hk : s.HasBlob k) {d : Bytes} : Content t.node k d ↔ Content s.node k d := by
  refine Content.congr (P := s.HasBlob) (fun k hk => h.node_old hk) (fun k k' _ hedge => ?_) hk
  obtain ⟨_, e, he, _, rfl⟩ := edge_iff.mp hedge
  exact (hinv.extents e he).1

theorem chunksOf_new (hinv : ContentInv H s)
    (hsorted : cs.Pairwise fun a b => a.seq ≤ b.seq) : t.chunksOf row.sha256 = cs := by
  have hold : s.chunk.rows.filter (fun r => decide (r.blobId = row.sha256)) = [] := by
    refine List.filter_eq_nil_iff.mpr fun r hr => ?_
    rw [decide_eq_true_eq]
    exact fun heq => h.fresh (heq ▸ hinv.chunks r hr)
  have hnew : cs.filter (fun r => decide (r.blobId = row.sha256)) = cs :=
    List.filter_eq_self.mpr fun r hr => by simpa using h.ownChunks r hr
  simp only [Db.chunksOf, h.chunk, List.filter_append, hold, hnew, List.nil_append]
  exact orderBy_eq_self _ hsorted

theorem extentsOf_new (hinv : ContentInv H s)
    (hsorted : es.Pairwise fun a b => a.seq ≤ b.seq) : t.extentsOf row.sha256 = es := by
  have hold : s.blobExtent.rows.filter (fun e => decide (e.finalBlobId = row.sha256)) = [] := by
    refine List.filter_eq_nil_iff.mpr fun e he => ?_
    obtain ⟨b, hb, hbe, _⟩ := (hinv.extents e he).2
    simpa using fun heq => h.fresh ⟨b, hb, hbe.trans heq⟩
  have hnew : es.filter (fun e => decide (e.finalBlobId = row.sha256)) = es :=
    List.filter_eq_self.mpr fun e he => by simpa using h.ownExtents e he
  simp only [Db.extentsOf, h.extent, List.filter_append, hold, hnew, List.nil_append]
  exact orderBy_eq_self _ hsorted

/-- **A new blob.**  If it is laid out as it should be and stores what its key says, the
    invariant is kept. -/
theorem keeps (hinv : ContentInv H s)
    (hkind : es = [] ∨ row.storage = .composite) (hlayout : Layout t row) {c : Bytes}
    (hc : Stores H t row c) : ContentInv H t := by
  have hex : ∀ P : BlobRow → Prop, (∃ b ∈ s.blob.rows, P b) → ∃ b ∈ t.blob.rows, P b := by
    rintro P ⟨b, hb, hP⟩
    exact ⟨b, h.mem_old hb, hP⟩
  refine ⟨fun b hb => ?_, fun r hr => ?_, fun e he => ?_, fun r hr => ?_, fun p hp => ?_⟩
  · rcases List.mem_append.mp (h.blob ▸ hb) with hb | hb
    · have hk : s.HasBlob b.sha256 := ⟨b, hb, rfl⟩
      obtain ⟨hlayout, c, hc⟩ := hinv.blobs b hb
      refine ⟨?_, c, (h.content_old hinv hk).mpr hc.content, hc.size, hc.digest,
        h.hashed ▸ hc.hashed⟩
      unfold Layout at hlayout ⊢
      rw [h.chunksOf_old hk, h.extentsOf_old hk]
      split at hlayout
      · exact hlayout
      · exact hlayout
      · exact ⟨hlayout.dense, hlayout.contiguous, hlayout.total,
          fun e he => hex _ (hlayout.whole e he)⟩
    · rw [List.mem_singleton.mp hb]
      exact ⟨hlayout, c, hc⟩
  · rcases List.mem_append.mp (h.chunk ▸ hr) with hr | hr
    · exact hex _ (hinv.chunks r hr)
    · exact ⟨row, h.mem_new, (h.ownChunks r hr).symm⟩
  · rcases List.mem_append.mp (h.extent ▸ he) with he | he
    · exact ⟨hex _ (hinv.extents e he).1, hex _ (hinv.extents e he).2⟩
    · refine ⟨hex _ (h.sources e he), row, h.mem_new, (h.ownExtents e he).symm, ?_⟩
      rcases hkind with rfl | hkind
      · exact absurd he (by simp)
      · exact hkind
  · exact hex _ (hinv.staged r (h.staged ▸ hr))
  · exact hex _ (hinv.parts p (h.parts ▸ hp))

end Adds

/-! ## 4. Dropping a blob -/

section Drop

variable {s : Db} {j k : Bytes}

theorem mem_blob_dropBlob {b : BlobRow} :
    b ∈ (s.dropBlob k).blob.rows ↔ b ∈ s.blob.rows ∧ b.sha256 ≠ k := by
  simp [Db.dropBlob]

theorem lookup_dropBlob (hj : j ≠ k) : (s.dropBlob k).blob.lookup j = s.blob.lookup j :=
  Table.lookup_delete fun b _ hb => by simpa [hb] using hj

theorem chunksOf_dropBlob (hj : j ≠ k) : (s.dropBlob k).chunksOf j = s.chunksOf j := by
  simp only [Db.chunksOf, Db.dropBlob, Table.delete_rows, List.filter_filter]
  congr 1
  refine List.filter_congr fun r _ => ?_
  by_cases hr : r.blobId = j <;> simp [hr, hj]

theorem extentsOf_dropBlob (hj : j ≠ k) : (s.dropBlob k).extentsOf j = s.extentsOf j := by
  simp only [Db.extentsOf, Db.dropBlob, Table.delete_rows, List.filter_filter]
  congr 1
  refine List.filter_congr fun e _ => ?_
  by_cases he : e.finalBlobId = j <;> simp [he, hj]

theorem node_dropBlob (hj : j ≠ k) : (s.dropBlob k).node j = s.node j := by
  simp only [Db.node, lookup_dropBlob hj, chunksOf_dropBlob hj, extentsOf_dropBlob hj]

end Drop

theorem deleteBlob_keeps_content (H : Digests) (k : Bytes) :
    Keeps (ContentInv H) (deleteBlob k) := by
  intro s u s' hinv hy
  obtain ⟨⟨_, hstaged, hparts, hsources⟩, rfl⟩ := yields_deleteBlob hy
  refine ContentInv.addRefs ?_
  show ContentInv H (s.dropBlob k)
  -- no extent leads to the dropped blob, so the other contents do not change
  have hcontent : ∀ {j d}, j ≠ k → (Content (s.dropBlob k).node j d ↔ Content s.node j d) := by
    intro j d hj
    refine Content.congr (P := (· ≠ k)) (fun j hj => node_dropBlob hj) (fun j j' _ hedge => ?_) hj
    obtain ⟨_, e, he, _, rfl⟩ := edge_iff.mp hedge
    exact hsources e he
  have hex : ∀ {P : BlobRow → Prop}, (∃ b ∈ s.blob.rows, P b) → (∀ b, P b → b.sha256 ≠ k) →
      ∃ b ∈ (s.dropBlob k).blob.rows, P b := by
    rintro P ⟨b, hb, hP⟩ hne
    exact ⟨b, mem_blob_dropBlob.mpr ⟨hb, hne b hP⟩, hP⟩
  refine ⟨fun b hb => ?_, fun r hr => ?_, fun e he => ⟨?_, ?_⟩, fun r hr => ?_, fun p hp => ?_⟩
  · obtain ⟨hb, hne⟩ := mem_blob_dropBlob.mp hb
    obtain ⟨hlayout, c, hc⟩ := hinv.blobs b hb
    refine ⟨?_, c, (hcontent hne).mpr hc.content, hc.size, hc.digest, hc.hashed⟩
    unfold Layout at hlayout ⊢
    rw [chunksOf_dropBlob hne, extentsOf_dropBlob hne]
    split at hlayout
    · exact hlayout
    · exact hlayout
    · refine ⟨hlayout.dense, hlayout.contiguous, hlayout.total, fun e he => ?_⟩
      refine hex (hlayout.whole e he) fun b hb => ?_
      rw [hb.1]
      exact hsources e (mem_extentsOf.mp he).1
  · have hr : r ∈ s.chunk.rows ∧ r.blobId ≠ k := by simpa [Db.dropBlob] using hr
    exact hex (hinv.chunks r hr.1) fun b hb => hb ▸ hr.2
  · have he : e ∈ s.blobExtent.rows := (Table.mem_delete.mp he).1
    exact hex (hinv.extents e he).1 fun b hb => hb ▸ hsources e he
  · have he : e ∈ s.blobExtent.rows ∧ e.finalBlobId ≠ k := by simpa [Db.dropBlob] using he
    exact hex (hinv.extents e he.1).2 fun b hb => hb.1 ▸ he.2
  · exact hex (hinv.staged r hr) fun b hb => hb.1 ▸ hstaged r hr
  · exact hex (hinv.parts p hp) fun b hb => hb.1 ▸ hparts p hp

/-! ## 5. Steps that store and drop nothing -/

/-- Blobs keep all but their reference counts, and nothing new is staged or hashed. -/
structure LeavesBlobs (s s' : Db) : Prop where
  blob : ∃ d, s'.blob = (s.addRefs d).blob
  chunk : s'.chunk = s.chunk
  extent : s'.blobExtent = s.blobExtent
  staged : ∀ r ∈ s'.uploadChunk.rows, r ∈ s.uploadChunk.rows
  parts : ∀ p ∈ s'.uploadPart.rows, p ∈ s.uploadPart.rows
  hashed : s'.hashed = s.hashed

theorem LeavesBlobs.trans {s t u : Db} (h : LeavesBlobs s t) (h' : LeavesBlobs t u) :
    LeavesBlobs s u where
  blob := by
    obtain ⟨d, hd⟩ := h.blob
    obtain ⟨e, he⟩ := h'.blob
    refine ⟨fun k => d k + e k, ?_⟩
    rw [he, ← Db.addRefs_addRefs]
    unfold Db.addRefs
    simp only [hd]
    rfl
  chunk := h'.chunk.trans h.chunk
  extent := h'.extent.trans h.extent
  staged := fun r hr => h.staged r (h'.staged r hr)
  parts := fun p hp => h.parts p (h'.parts p hp)
  hashed := h'.hashed.trans h.hashed

theorem LeavesBlobs.keeps {H : Digests} {s s' : Db} (h : LeavesBlobs s s')
    (hinv : ContentInv H s) : ContentInv H s' := by
  obtain ⟨d, hd⟩ := h.blob
  exact (hinv.addRefs (d := d)).frame hd h.chunk h.extent h.staged h.parts
    fun x hx => h.hashed.symm ▸ hx

theorem leavesBlobs_of {s t : Db} {d : Bytes → Int} (hblob : t.blob = s.blob)
    (hchunk : t.chunk = s.chunk) (hextent : t.blobExtent = s.blobExtent)
    (hstaged : ∀ r ∈ t.uploadChunk.rows, r ∈ s.uploadChunk.rows)
    (hparts : ∀ p ∈ t.uploadPart.rows, p ∈ s.uploadPart.rows) (hhashed : t.hashed = s.hashed) :
    LeavesBlobs s (t.addRefs d) where
  blob := ⟨d, by simp only [Db.addRefs, hblob]⟩
  chunk := hchunk
  extent := hextent
  staged := hstaged
  parts := hparts
  hashed := hhashed

theorem leavesBlobs_of_eq {s t : Db} (hblob : t.blob = s.blob) (hchunk : t.chunk = s.chunk)
    (hextent : t.blobExtent = s.blobExtent)
    (hstaged : ∀ r ∈ t.uploadChunk.rows, r ∈ s.uploadChunk.rows)
    (hparts : ∀ p ∈ t.uploadPart.rows, p ∈ s.uploadPart.rows) (hhashed : t.hashed = s.hashed) :
    LeavesBlobs s t := by
  have h := leavesBlobs_of (d := fun _ => 0) hblob hchunk hextent hstaged hparts hhashed
  rwa [Db.addRefs_zero fun _ => rfl] at h

theorem quiet_leavesBlobs {α : Type} {m : DbTx α} (hm : Quiet α m) {s s' : Db} {a : α}
    (hy : Yields m s a s') : LeavesBlobs s s' := by
  cases hm with
  | insertLatest c b k p t j =>
    obtain ⟨_, _, _, object, _, rfl⟩ := yields_insertLatest hy
    exact leavesBlobs_of rfl rfl rfl (fun _ h => h) (fun _ h => h) rfl
  | removeVersion b k v =>
    rcases yields_removeVersion hy with ⟨rfl, _⟩ | ⟨_, _, _, object, _, rfl⟩
    · exact leavesBlobs_of_eq rfl rfl rfl (fun _ h => h) (fun _ h => h) rfl
    · exact leavesBlobs_of rfl rfl rfl (fun _ h => h) (fun _ h => h) rfl
  | forkInto c b name j =>
    obtain ⟨_, _, _, _, _, _, _, rfl⟩ := yields_forkInto hy
    exact leavesBlobs_of rfl rfl rfl (fun _ h => h) (fun _ h => h) rfl
  | insertUpload row =>
    obtain ⟨_, upload, _, rfl⟩ := yields_insertUpload hy
    exact leavesBlobs_of_eq rfl rfl rfl (fun _ h => h) (fun _ h => h) rfl
  | updateUpload u f hf =>
    rw [updateUpload, yields_modify] at hy
    obtain rfl := hy
    exact leavesBlobs_of_eq rfl rfl rfl (fun _ h => h) (fun _ h => h) rfl
  | deleteUpload u =>
    simp only [deleteUpload, yields_modify_bind] at hy
    obtain ⟨_, s₁, hchunks, hparts⟩ := yields_bind.mp hy
    have h₁ : LeavesBlobs s s₁ := by
      rw [yields_deleteUploadChunks hchunks]
      exact leavesBlobs_of rfl rfl rfl (fun _ hr => (Table.mem_delete.mp hr).1) (fun _ h => h) rfl
    refine h₁.trans ?_
    rw [yields_deleteUploadParts hparts]
    exact leavesBlobs_of rfl rfl rfl (fun _ h => h) (fun _ hp => (Table.mem_delete.mp hp).1) rfl
  | deleteUploadChunks sel =>
    rw [yields_deleteUploadChunks hy]
    exact leavesBlobs_of rfl rfl rfl (fun _ hr => (Table.mem_delete.mp hr).1) (fun _ h => h) rfl
  | deleteUploadParts sel =>
    rw [yields_deleteUploadParts hy]
    exact leavesBlobs_of rfl rfl rfl (fun _ h => h) (fun _ hp => (Table.mem_delete.mp hp).1) rfl
  | insertBucket name owner now j =>
    obtain ⟨_, _, bucket, _, rfl⟩ := yields_insertBucket hy
    exact leavesBlobs_of_eq rfl rfl rfl (fun _ h => h) (fun _ h => h) rfl
  | deleteBucketRow id =>
    obtain ⟨_, _, rfl⟩ := yields_deleteBucketRow hy
    exact leavesBlobs_of_eq rfl rfl rfl (fun _ h => h) (fun _ h => h) rfl

theorem built_leavesBlobs {α : Type} {m : DbTx α} (hm : Built Quiet m) {s s' : Db} {a : α}
    (hy : Yields m s a s') : LeavesBlobs s s' := by
  refine hm.keeps (I := LeavesBlobs s) (fun β f hf t b t' ht hf' => ?_) s a s' ?_ hy
  · exact ht.trans (quiet_leavesBlobs hf hf')
  · exact leavesBlobs_of_eq rfl rfl rfl (fun _ h => h) (fun _ h => h) rfl

/-! ## 6. Blobs by content -/

/-- The blob `k` is there, with content `c` and its size. -/
def Db.Holds (s : Db) (k c : Bytes) : Prop :=
  (∃ b ∈ s.blob.rows, b.sha256 = k ∧ b.size = c.length) ∧ Content s.node k c

theorem ContentInv.holds {H : Digests} {s : Db} (h : ContentInv H s) {b : BlobRow}
    (hb : b ∈ s.blob.rows) : ∃ c, s.Holds b.sha256 c ∧ c.length = b.size ∧ H.sha256 c = b.sha256 ∧
      c ∈ s.hashed := by
  obtain ⟨_, c, hc⟩ := h.blobs b hb
  exact ⟨c, ⟨⟨b, hb, rfl, hc.size.symm⟩, hc.content⟩, hc.size, hc.digest, hc.hashed⟩

/-- A digest that is taken is taken by this very content. -/
theorem ContentInv.holds_of_digest {H : Digests} {s : Db} (h : ContentInv H s)
    (hno : NoCollision H s.hashed) {c : Bytes} (hc : c ∈ s.hashed) (hb : s.HasBlob (H.sha256 c)) :
    s.Holds (H.sha256 c) c := by
  obtain ⟨b, hb, hk⟩ := hb
  obtain ⟨d, hd, _, hdigest, hhashed⟩ := h.holds hb
  rw [hk] at hd hdigest
  rwa [hno d hhashed c hc hdigest] at hd

def StagedContent (s : Db) (u : Uuid) (part : Nat) (cs : List Bytes) : Prop :=
  List.Forall₂ (fun r c => s.Holds r.blobId c ∧ r.size = c.length) (s.stagedChunks u part) cs

def PartsContent (s : Db) (parts : List UploadPartRow) (cs : List Bytes) : Prop :=
  List.Forall₂ (fun p c => s.Holds p.sha256 c ∧ p.size = c.length) parts cs

theorem ContentInv.exists_stagedContent {H : Digests} {s : Db} (h : ContentInv H s) (u : Uuid)
    (part : Nat) : ∃ cs, StagedContent s u part cs := by
  refine exists_forall₂ fun r hr => ?_
  have hr : r ∈ s.uploadChunk.rows := (List.mem_filter.mp ((mem_orderBy _).mp hr)).1
  obtain ⟨b, hb, hk, hsize⟩ := h.staged r hr
  obtain ⟨c, hc, hlen, _⟩ := h.holds hb
  exact ⟨c, hk ▸ hc, hsize.symm.trans hlen.symm⟩

theorem ContentInv.exists_partsContent {H : Digests} {s : Db} (h : ContentInv H s)
    {parts : List UploadPartRow} (hparts : ∀ p ∈ parts, p ∈ s.uploadPart.rows) :
    ∃ cs, PartsContent s parts cs := by
  refine exists_forall₂ fun p hp => ?_
  obtain ⟨b, hb, hk, hsize⟩ := h.parts p (hparts p hp)
  obtain ⟨c, hc, hlen, _⟩ := h.holds hb
  exact ⟨c, hk ▸ hc, hsize.symm.trans hlen.symm⟩

end Pgs3
