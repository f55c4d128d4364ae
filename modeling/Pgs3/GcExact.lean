import Pgs3.Foundation.Garbage
import Pgs3.ContentOps
import Pgs3.RefCounts

/-!
# Garbage collection is exact

Blobs are kept alive by versions, staged chunks and parts, and by composite blobs that are
themselves alive.  Composites are stored after their sources and under a digest that was not
taken, so extents are ranked and have no cycles (`GraphInv`).  With exact reference counts it
follows that `gc_blobs`, which only looks at counts, removes nothing that is alive and, when
it stops before its limit, leaves nothing else.
-/

namespace Pgs3

open Foundation Foundation.Tx

/-! ## 1. What is alive -/

def Db.Root (s : Db) (k : Bytes) : Prop :=
  (∃ o ∈ s.object.rows, o.blobId = some k) ∨ (∃ c ∈ s.uploadChunk.rows, c.blobId = k) ∨
    ∃ p ∈ s.uploadPart.rows, p.sha256 = k

/-- The composite `j` has an extent from `k`. -/
def Db.Extends (s : Db) (j k : Bytes) : Prop :=
  ∃ e ∈ s.blobExtent.rows, e.finalBlobId = j ∧ e.sourceBlobId = k

/-- Blobs reachable from a version, a staged chunk or a part through extents. -/
def Db.Alive (s : Db) : Bytes → Prop := Live s.Root s.Extends

variable {s : Db} {k : Bytes}

theorem mentions_iff : s.Mentions k ↔ s.Root k ∨ ∃ j, s.Extends j k := by
  simp only [Db.Mentions, Db.Root, Db.Extends, or_assoc]
  constructor
  · rintro (h | h | h | ⟨e, he, hk⟩)
    · exact Or.inl h
    · exact Or.inr (Or.inl h)
    · exact Or.inr (Or.inr (Or.inl h))
    · exact Or.inr (Or.inr (Or.inr ⟨_, e, he, rfl, hk⟩))
  · rintro (h | h | h | ⟨_, e, he, _, hk⟩)
    · exact Or.inl h
    · exact Or.inr (Or.inl h)
    · exact Or.inr (Or.inr (Or.inl h))
    · exact Or.inr (Or.inr (Or.inr ⟨e, he, hk⟩))

theorem RefInv.alive_present (h : RefInv s) (hk : s.Alive k) : s.HasBlob k := by
  apply h.present
  rw [refs_pos_iff, mentions_iff]
  cases hk with
  | root hr => exact Or.inl hr
  | edge _ he => exact Or.inr ⟨_, he⟩

theorem RefInv.not_alive (hk : s.refs k = 0) : ¬ s.Alive k := by
  have hnamed : ¬ (s.Root k ∨ ∃ j, s.Extends j k) := by
    rw [← mentions_iff, ← refs_pos_iff]
    omega
  exact not_live (fun h => hnamed (Or.inl h)) fun j h => hnamed (Or.inr ⟨j, h⟩)

/-! ## 2. Extents have no cycles -/

/-- Extents belong to blobs that exist, and lead to smaller ranks. -/
structure GraphInv (s : Db) : Prop where
  owned : ∀ e ∈ s.blobExtent.rows, s.HasBlob e.finalBlobId
  ranked : ∃ rank : Bytes → Nat, ∀ e ∈ s.blobExtent.rows,
    rank e.sourceBlobId < rank e.finalBlobId

theorem graphInv_empty : GraphInv Db.empty where
  owned := fun e he => absurd he (by simp [Db.empty])
  ranked := ⟨fun _ => 0, fun e he => absurd he (by simp [Db.empty])⟩

variable {t : Db}

theorem GraphInv.mono (h : GraphInv s) (hextent : ∀ e ∈ t.blobExtent.rows, e ∈ s.blobExtent.rows)
    (hblob : ∀ e ∈ t.blobExtent.rows, s.HasBlob e.finalBlobId → t.HasBlob e.finalBlobId) :
    GraphInv t := by
  obtain ⟨rank, hrank⟩ := h.ranked
  constructor
  · exact fun e he => hblob e he (h.owned e (hextent e he))
  · exact ⟨rank, fun e he => hrank e (hextent e he)⟩

theorem GraphInv.addRefs {d : Bytes → Int} (h : GraphInv s) : GraphInv (s.addRefs d) :=
  h.mono (fun _ he => he) fun _ _ hk => hasBlob_addRefs.mpr hk

theorem LeavesBlobs.keeps_graph (h : LeavesBlobs s t) (hinv : GraphInv s) : GraphInv t := by
  obtain ⟨d, hd⟩ := h.blob
  apply (hinv.addRefs (d := d)).mono
  · intro e he
    rw [h.extent] at he
    exact he
  · rintro e _ ⟨b, hb, hk⟩
    exact ⟨b, by rw [hd]; exact hb, hk⟩

/-- **A new composite.**  Nothing refers to the digest before it is taken, so its rank can be
    chosen above those of its sources. -/
theorem Adds.keeps_graph {row : BlobRow} {cs : List ChunkRow} {es : List BlobExtentRow}
    (h : Adds s t row cs es) (hrefs : RefInv s) (hinv : GraphInv s) : GraphInv t := by
  obtain ⟨rank, hrank⟩ := hinv.ranked
  obtain ⟨bound, hbound⟩ := exists_rank_bound rank (es.map BlobExtentRow.sourceBlobId)
  constructor
  · intro e he
    rw [h.extent] at he
    rcases List.mem_append.mp he with he | he
    · exact h.hasBlob_old (hinv.owned e he)
    · refine ⟨row, ?_, (h.ownExtents e he).symm⟩
      rw [h.blob]
      exact List.mem_append_right _ List.mem_cons_self
  · refine ⟨fun k => if k = row.sha256 then bound + 1 else rank k, ?_⟩
    intro e he
    rw [h.extent] at he
    have hsource : s.HasBlob e.sourceBlobId := by
      rcases List.mem_append.mp he with he | he
      · exact hrefs.source_present he
      · exact h.sources e he
    have hne : e.sourceBlobId ≠ row.sha256 := by
      intro heq
      exact h.fresh (heq ▸ hsource)
    simp only [hne, if_false]
    rcases List.mem_append.mp he with he | he
    · have hfinal : e.finalBlobId ≠ row.sha256 := by
        intro heq
        exact h.fresh (heq ▸ hinv.owned e he)
      simp only [hfinal, if_false]
      exact hrank e he
    · have hle := hbound _ (List.mem_map_of_mem he)
      simp only [h.ownExtents e he, if_true]
      omega

theorem deleteBlob_keeps_graph : Keeps GraphInv (deleteBlob k) := by
  intro s u s' hinv hy
  obtain ⟨_, rfl⟩ := yields_deleteBlob hy
  apply GraphInv.addRefs
  apply hinv.mono
  · exact fun e he => (Table.mem_delete.mp he).1
  · rintro e he ⟨b, hb, hk⟩
    obtain ⟨_, hne⟩ := Table.mem_delete.mp he
    refine ⟨b, Table.mem_delete.mpr ⟨hb, ?_⟩, hk⟩
    rw [hk]
    exact hne

theorem shallow_keeps_graph {α : Type} {m : DbTx α} (hm : Shallow α m) :
    Keeps (fun s => RefInv s ∧ GraphInv s) m := by
  intro s a s' h hy
  refine ⟨shallow_keeps_refs α m hm s a s' h.1 hy, ?_⟩
  cases hm with
  | quiet hq => exact (quiet_leavesBlobs hq hy).keeps_graph h.2
  | hashing hh =>
    cases hh with
    | logHashed body =>
      obtain rfl := yields_modify.mp hy
      exact h.2.mono (fun _ he => he) fun _ _ hk => hk
  | ensureBlob c sha256 body =>
    obtain ⟨_, ⟨rfl, _⟩ | ⟨row, cs, hadds, _⟩⟩ := yields_ensureBlob hy
    · exact h.2
    · exact hadds.keeps_graph h.1 h.2
  | upsertUploadChunk row =>
    obtain ⟨_, rfl⟩ := yields_upsertUploadChunk hy
    exact GraphInv.addRefs (h.2.mono (fun _ he => he) fun _ _ hk => hk)
  | upsertUploadPart row _ =>
    obtain ⟨_, rfl⟩ := yields_upsertUploadPart hy
    exact GraphInv.addRefs (h.2.mono (fun _ he => he) fun _ _ hk => hk)
  | deleteBlob k => exact deleteBlob_keeps_graph s a s' h.2 hy

theorem step_keeps_graph (α : Type) (m : DbTx α) (hm : Step α m) :
    Keeps (fun s => RefInv s ∧ GraphInv s) m := by
  cases hm with
  | shallow h => exact shallow_keeps_graph h
  | storeComposite c sha256 size gone sources =>
    intro s a s' h hy
    refine ⟨step_keeps_refs _ _ (.storeComposite c sha256 size gone sources) s a s' h.1 hy, ?_⟩
    obtain ⟨_, ⟨rfl, _⟩ | ⟨row, t, d, hadds, rfl, _⟩⟩ := yields_storeComposite hy
    · exact h.2
    · exact (hadds.keeps_graph h.1 h.2).addRefs

/-- **Extents have no cycles**, whatever digests the workers bring along. -/
theorem Reachable.graphInv {H : Digests} (h : Reachable H s) : GraphInv s := by
  have hboth : RefInv s ∧ GraphInv s := by
    apply Reachable.invariant ⟨refInv_empty, graphInv_empty⟩ _ _ h
    · exact fun c op => (opBody_built H c op).keeps step_keeps_graph
    · intro s v b hI
      exact ⟨hI.1.frame rfl rfl rfl rfl rfl, hI.2.mono (fun _ he => he) fun _ _ hk => hk⟩
  exact hboth.2

/-! ## 3. One collected blob -/

theorem mapM_congr_mem {α β ε : Type} {f g : α → Except ε β} {l : List α}
    (h : ∀ a ∈ l, f a = g a) : l.mapM f = l.mapM g := by
  induction l with
  | nil => rfl
  | cons a l ih =>
    rw [List.mapM_cons, List.mapM_cons, h a List.mem_cons_self,
      ih fun b hb => h b (List.mem_cons_of_mem _ hb)]

/-- The blob is stored as before, up to its count. -/
structure SameBlob (s t : Db) (k : Bytes) : Prop where
  row : ∃ d, t.blob.lookup k = (s.blob.lookup k).map (BlobRow.addRef d)
  chunks : t.chunksOf k = s.chunksOf k
  extents : t.extentsOf k = s.extentsOf k

theorem extends_of_mem {e : BlobExtentRow} (he : e ∈ s.extentsOf k) :
    s.Extends k e.sourceBlobId := by
  obtain ⟨hmem, hfinal⟩ := mem_extentsOf.mp he
  exact ⟨e, hmem, hfinal, rfl⟩

section Same

variable {P : Bytes → Prop} (hsame : ∀ k, P k → SameBlob s t k)
  (hclosed : ∀ j k, P j → s.Extends j k → P k) (levels : Nat) (hk : P k)

include hsame hclosed hk

/-- **Reading.**  Where everything that a blob is made of is stored as before, reading gives
    the same result. -/
theorem readBlobAt_congr : readBlobAt t levels k = readBlobAt s levels k := by
  induction levels generalizing k with
  | zero => rfl
  | succ levels ih =>
    obtain ⟨⟨d, hrow⟩, hchunks, hextents⟩ := hsame k hk
    have hsources : ∀ e ∈ s.extentsOf k, P e.sourceBlobId := fun e he =>
      hclosed k _ hk (extends_of_mem he)
    simp only [readBlobAt, hrow, hchunks, hextents]
    cases s.blob.lookup k with
    | none => rfl
    | some b =>
      simp only [Option.map_some, BlobRow.addRef]
      cases b.storage with
      | inline data => rfl
      | chunked => rfl
      | composite =>
        simp only
        rw [mapM_congr_mem fun e he => by rw [ih (hsources e (List.mem_filter.mp he).1)]]

theorem readBlobRangeAt_congr (first : Int) (last : Option Int) :
    readBlobRangeAt t levels k first last = readBlobRangeAt s levels k first last := by
  induction levels generalizing k first last with
  | zero => rfl
  | succ levels ih =>
    obtain ⟨⟨d, hrow⟩, hchunks, hextents⟩ := hsame k hk
    have hsources : ∀ e ∈ s.extentsOf k, P e.sourceBlobId := fun e he =>
      hclosed k _ hk (extends_of_mem he)
    simp only [readBlobRangeAt, hrow, hchunks, hextents]
    cases s.blob.lookup k with
    | none => rfl
    | some b =>
      simp only [Option.map_some, BlobRow.addRef]
      cases b.storage with
      | inline data => rfl
      | chunked => rfl
      | composite =>
        simp only
        rw [mapM_congr_mem fun e he => ih (hsources e (List.mem_filter.mp he).1) _ _]

end Same

structure Collected (s t : Db) : Prop where
  objects : t.object = s.object
  staged : t.uploadChunk = s.uploadChunk
  parts : t.uploadPart = s.uploadPart
  nothing_new : ∀ k, t.HasBlob k → s.HasBlob k
  alive : ∀ k, t.Alive k ↔ s.Alive k
  kept : ∀ k, s.Alive k → t.HasBlob k
  read : ∀ k levels, s.Alive k → readBlobAt t levels k = readBlobAt s levels k
  readRange : ∀ k levels first last, s.Alive k →
    readBlobRangeAt t levels k first last = readBlobRangeAt s levels k first last

theorem Collected.refl (h : RefInv s) : Collected s s :=
  ⟨rfl, rfl, rfl, fun _ hk => hk, fun _ => Iff.rfl, fun _ hk => h.alive_present hk,
    fun _ _ _ => rfl, fun _ _ _ _ _ => rfl⟩

theorem Collected.trans {u : Db} (h : Collected s t) (h' : Collected t u) : Collected s u where
  objects := h'.objects.trans h.objects
  staged := h'.staged.trans h.staged
  parts := h'.parts.trans h.parts
  nothing_new := fun k hk => h.nothing_new k (h'.nothing_new k hk)
  alive := fun k => (h'.alive k).trans (h.alive k)
  kept := fun k hk => h'.kept k ((h.alive k).mpr hk)
  read := fun k n hk => (h'.read k n ((h.alive k).mpr hk)).trans (h.read k n hk)
  readRange := fun k n first last hk =>
    (h'.readRange k n first last ((h.alive k).mpr hk)).trans (h.readRange k n first last hk)

/-- **One turn.**  A blob that nothing names is deleted without an error, and what is alive
    stays as it was. -/
theorem deleteBlob_collects (hrefs : RefInv s) (hk : s.refs k = 0) :
    ∃ t, Yields (deleteBlob k) s ⟨⟩ t ∧ Collected s t := by
  obtain ⟨t, hy⟩ := hrefs.exists_deleteBlob hk
  have hinv := deleteBlob_keeps_refs s ⟨⟩ t hrefs hy
  obtain ⟨⟨_, _, _, hsource⟩, ht⟩ := yields_deleteBlob hy
  obtain ⟨d, rfl⟩ : ∃ d, t = (s.dropBlob k).addRefs d := ⟨_, ht⟩
  refine ⟨_, hy, ?_⟩
  have hdead : ¬ s.Alive k := RefInv.not_alive hk
  have halive : ∀ j, ((s.dropBlob k).addRefs d).Alive j ↔ s.Alive j := by
    intro j
    apply live_remove hdead
    · rintro j i ⟨e, he, hfinal, hi⟩
      exact ⟨e, (Table.mem_delete.mp he).1, hfinal, hi⟩
    · rintro j i hj ⟨e, he, rfl, hi⟩
      exact ⟨e, Table.mem_delete.mpr ⟨he, by simpa using hj⟩, rfl, hi⟩
  have hne : ∀ j, s.Alive j → j ≠ k := by
    rintro j hj rfl
    exact hdead hj
  -- what is left of the database, apart from the counts
  have hsame : ∀ j, j ≠ k → SameBlob s ((s.dropBlob k).addRefs d) j := by
    intro j hj
    refine ⟨⟨d, ?_⟩, chunksOf_dropBlob hj, extentsOf_dropBlob hj⟩
    rw [lookup_addRefs, lookup_dropBlob hj]
  have hclosed : ∀ i j, i ≠ k → s.Extends i j → j ≠ k := by
    rintro i j _ ⟨e, he, _, rfl⟩
    exact hsource e he
  constructor
  · rfl
  · rfl
  · rfl
  · intro j hj
    obtain ⟨b, hb, hbj⟩ := hasBlob_addRefs.mp hj
    exact ⟨b, (Table.mem_delete.mp hb).1, hbj⟩
  · exact halive
  · exact fun j hj => hinv.alive_present ((halive j).mpr hj)
  · exact fun j n hj => readBlobAt_congr hsame hclosed n (hne j hj)
  · exact fun j n first last hj =>
      readBlobRangeAt_congr hsame hclosed n (hne j hj) first last

/-! ## 4. The whole loop -/

theorem alive_of_no_garbage (hrefs : RefInv s) (hgraph : GraphInv s)
    (hnone : nextGarbage s.blob.rows (fun _ => false) = none) (hk : s.HasBlob k) : s.Alive k := by
  obtain ⟨rank, hrank⟩ := hgraph.ranked
  obtain ⟨bound, hbound⟩ := exists_rank_bound rank (s.blob.rows.map BlobRow.sha256)
  apply @live_of_counted _ _ _ s.HasBlob rank bound _ _ _ _ k hk
  · rintro j ⟨b, hb, rfl⟩
    exact hbound _ (List.mem_map_of_mem hb)
  · rintro j i ⟨e, he, rfl, rfl⟩
    exact hrank e he
  · rintro j i ⟨e, he, rfl, _⟩
    exact hgraph.owned e he
  · rintro j ⟨b, hb, rfl⟩
    rw [← mentions_iff, ← refs_pos_iff]
    have hcount := nextGarbage_eq_none hnone hb rfl
    have hexact := hrefs.exact b hb
    omega

theorem gcLoop_collects {n : Nat} (hrefs : RefInv s) (hgraph : GraphInv s) :
    ∃ r t, Yields (gcLoop (fun _ => false) n) s r t ∧ Collected s t ∧ r ≤ n ∧
      (r < n → ∀ k, t.HasBlob k ↔ t.Alive k) := by
  induction n generalizing s with
  | zero => exact ⟨0, s, yields_pure.mpr ⟨rfl, rfl⟩, .refl hrefs, le_rfl, fun h => absurd h (by simp)⟩
  | succ n ih =>
    simp only [gcLoop, yields_get_bind]
    cases hfound : nextGarbage s.blob.rows fun _ => false with
    | none =>
      refine ⟨0, s, yields_pure.mpr ⟨rfl, rfl⟩, .refl hrefs, Nat.zero_le _, ?_⟩
      intro _ k
      exact ⟨alive_of_no_garbage hrefs hgraph hfound, hrefs.alive_present⟩
    | some b =>
      obtain ⟨hb, h0, _⟩ := nextGarbage_mem hfound
      have hzero : s.refs b.sha256 = 0 := by
        have hexact := hrefs.exact b hb
        omega
      obtain ⟨s₁, hdelete, hone⟩ := deleteBlob_collects hrefs hzero
      obtain ⟨r, t, hrest, hmore, hle, hdone⟩ :=
        ih (deleteBlob_keeps_refs _ _ _ hrefs hdelete) (deleteBlob_keeps_graph _ _ _ hgraph hdelete)
      refine ⟨r + 1, t, ?_, hone.trans hmore, by omega, fun h => hdone (by omega)⟩
      apply yields_bind.mpr
      refine ⟨⟨⟩, s₁, hdelete, ?_⟩
      exact yields_bind.mpr ⟨r, t, hrest, yields_pure.mpr ⟨rfl, rfl⟩⟩

/-- **Garbage collection is exact.**  In every reachable state `gc_blobs` refuses a limit out
    of range, and otherwise ends without an error.  It leaves versions, staged chunks and
    parts alone, deletes no blob that one of them needs, and what they need reads as before.
    When it deletes fewer blobs than its limit, those that are needed are all that is left. -/
theorem gc_blobs_exact {H : Digests} {s : Db} (h : Reachable H s) (limit : Int) :
    ((limit < 1 ∨ 100000 < limit) ∧
      commit (gcBlobs limit) s = (.error (invalidParameter "invalid GC limit"), s)) ∨
    ∃ n t, commit (gcBlobs limit) s = (.ok n, t) ∧ Collected s t ∧ (n : Int) ≤ limit ∧
      ((n : Int) < limit → ∀ k, t.HasBlob k ↔ t.Alive k) := by
  by_cases hlimit : limit < 1 ∨ 100000 < limit
  · left
    refine ⟨hlimit, ?_⟩
    unfold gcBlobs gcBlobsSkipping raiseIf
    rw [if_pos hlimit]
    rfl
  · right
    obtain ⟨r, t, hy, hcollected, hle, hdone⟩ :=
      gcLoop_collects (n := limit.toNat) h.refInv h.graphInv
    refine ⟨r, t, commit_ok_iff.mpr ?_, hcollected, by omega, fun h => hdone (by omega)⟩
    simp only [gcBlobs, gcBlobsSkipping, yields_raiseIf_bind]
    exact ⟨hlimit, hy⟩

theorem gc_blobs_exact_unreferenced : ∃ t, commit (gcBlobs 10) unreferenced = (.ok 1, t) ∧
    ∀ k, t.HasBlob k ↔ t.Alive k := by
  rcases gc_blobs_exact unreferenced_reachable 10 with ⟨hlimit, _⟩ | ⟨n, t, hcommit, _, _, hdone⟩
  · exact absurd hlimit (by decide)
  · have hone : (match (commit (gcBlobs 10) unreferenced).1 with
        | .ok n => decide (n = 1)
        | .error _ => false) = true := by
      decide +kernel
    rw [hcommit] at hone
    obtain rfl : n = 1 := of_decide_eq_true hone
    exact ⟨t, hcommit, hdone (by decide)⟩

end Pgs3
