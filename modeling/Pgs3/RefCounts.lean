import Pgs3.Steps
import Pgs3.ObjectSpecs

/-!
# Reference counts are exact

`refs s k` counts the rows that name blob `k` as content or source, over the four tables
that may.  The invariant `RefInv` has two parts: the stored count of every blob is that
number, and whatever is named exists.  The second part is what lets a new blob start at 0.

Foreign keys and triggers together make `RefInv` an invariant of every single statement,
so no function of the API needs an argument of its own: each is a sequence of statements
(`Keeps.bind`).  The exception is `fork_bucket`, which switches both off; there the insert
and the set-wise bump are taken together.
-/

namespace Pgs3

open Foundation Foundation.Tx

/-! ## 1. The invariant -/

/-- The number of rows that name `k` as content or source. -/
def Db.refs (s : Db) (k : Bytes) : Nat :=
  objectRefs s.object.rows k + (s.uploadChunk.rows.countP fun c => c.blobId = k)
    + (s.uploadPart.rows.countP fun p => p.sha256 = k)
    + (s.blobExtent.rows.countP fun e => e.sourceBlobId = k)

structure RefInv (s : Db) : Prop where
  exact : ∀ b ∈ s.blob.rows, b.refcount = s.refs b.sha256
  present : ∀ k, 0 < s.refs k → s.HasBlob k

def Db.Mentions (s : Db) (k : Bytes) : Prop :=
  (∃ o ∈ s.object.rows, o.blobId = some k) ∨ (∃ c ∈ s.uploadChunk.rows, c.blobId = k) ∨
    (∃ p ∈ s.uploadPart.rows, p.sha256 = k) ∨ ∃ e ∈ s.blobExtent.rows, e.sourceBlobId = k

variable {s : Db} {k : Bytes}

theorem refs_pos_iff : 0 < s.refs k ↔ s.Mentions k := by
  have h1 : 0 < objectRefs s.object.rows k ↔ ∃ o ∈ s.object.rows, o.blobId = some k := by
    simp [objectRefs, List.countP_pos_iff]
  have h2 : (0 < s.uploadChunk.rows.countP fun c => c.blobId = k) ↔
      ∃ c ∈ s.uploadChunk.rows, c.blobId = k := by
    simp [List.countP_pos_iff]
  have h3 : (0 < s.uploadPart.rows.countP fun p => p.sha256 = k) ↔
      ∃ p ∈ s.uploadPart.rows, p.sha256 = k := by
    simp [List.countP_pos_iff]
  have h4 : (0 < s.blobExtent.rows.countP fun e => e.sourceBlobId = k) ↔
      ∃ e ∈ s.blobExtent.rows, e.sourceBlobId = k := by
    simp [List.countP_pos_iff]
  unfold Db.Mentions Db.refs
  rw [← h1, ← h2, ← h3, ← h4]
  omega

theorem refInv_empty : RefInv Db.empty where
  exact := fun b hb => absurd hb (by simp [Db.empty])
  present := fun k h => absurd h (by simp [Db.empty, Db.refs, objectRefs])

theorem hasBlob_addRefs {d : Bytes → Int} : (s.addRefs d).HasBlob k ↔ s.HasBlob k := by
  constructor
  · rintro ⟨b, hb, hk⟩
    obtain ⟨b₀, hb₀, rfl⟩ := List.mem_map.mp hb
    exact ⟨b₀, hb₀, hk⟩
  · rintro ⟨b, hb, hk⟩
    exact ⟨b.addRef d, List.mem_map_of_mem hb, hk⟩

/-- **Counting rule.**  A statement that leaves the blobs alone and then adds to every
    count what it added to the references keeps the invariant, provided that new
    references go to blobs that exist. -/
theorem RefInv.count {t : Db} {d : Bytes → Int} (h : RefInv s) (hblob : t.blob = s.blob)
    (hrefs : ∀ k, (t.refs k : Int) = s.refs k + d k)
    (hnew : ∀ k, s.refs k < t.refs k → s.HasBlob k) : RefInv (t.addRefs d) := by
  constructor
  · intro b hb
    obtain ⟨b₀, hb₀, rfl⟩ := List.mem_map.mp hb
    rw [hblob] at hb₀
    have hcount : b₀.refcount + d b₀.sha256 = t.refs b₀.sha256 := by
      rw [h.exact b₀ hb₀, hrefs]
    exact hcount
  · intro k hk
    have hk' : 0 < t.refs k := hk
    rw [hasBlob_addRefs]
    unfold Db.HasBlob
    rw [hblob]
    rcases Nat.lt_or_ge (s.refs k) (t.refs k) with hlt | hge
    · exact hnew k hlt
    · exact h.present k (Nat.lt_of_lt_of_le hk' hge)

/-- Rows that name `n k` more references to each blob `k`, and the counts raised with them. -/
theorem RefInv.added {t : Db} {n : Bytes → Nat} (h : RefInv s) (hblob : t.blob = s.blob)
    (hrefs : ∀ k, t.refs k = s.refs k + n k) (hnew : ∀ k, 0 < n k → s.HasBlob k) :
    RefInv (t.addRefs fun k => (n k : Int)) := by
  refine h.count hblob (fun k => ?_) fun k hk => hnew k ?_
  · rw [hrefs]
    exact Int.natCast_add _ _
  · rw [hrefs] at hk
    exact Nat.lt_of_add_lt_add_left hk

theorem RefInv.removed {t : Db} {n : Bytes → Nat} (h : RefInv s) (hblob : t.blob = s.blob)
    (hsplit : ∀ k, t.refs k + n k = s.refs k) : RefInv (t.addRefs fun k => - (n k : Int)) := by
  refine h.count hblob (fun k => ?_) fun k hk => ?_
  · have := hsplit k
    omega
  · have := hsplit k
    omega

/-- A row that names `new` in the place of one that named `old`. -/
theorem RefInv.replaced {t : Db} {new : Bytes} {old : Option Bytes} (h : RefInv s)
    (hblob : t.blob = s.blob) (hnew : s.HasBlob new)
    (hrefs : ∀ k, (t.refs k : Int) = s.refs k + ((if k = new then 1 else 0) - oldRef old k)) :
    RefInv (t.addRefs fun k => (if k = new then 1 else 0) - oldRef old k) := by
  refine h.count hblob hrefs fun k hk => ?_
  have hk' := hrefs k
  -- only the new row's blob can gain a reference
  have hkey : k = new := by
    by_contra hne
    have hold : 0 ≤ oldRef old k := by
      unfold oldRef
      split <;> omega
    rw [if_neg hne] at hk'
    omega
  exact hkey ▸ hnew

theorem RefInv.of_refs {t : Db} (h : RefInv s) (hblob : t.blob = s.blob)
    (hrefs : ∀ k, t.refs k = s.refs k) : RefInv t := by
  constructor
  · intro b hb
    rw [hblob] at hb
    rw [h.exact b hb, hrefs]
  · intro k hk
    rw [hrefs] at hk
    unfold Db.HasBlob
    rw [hblob]
    exact h.present k hk

theorem RefInv.frame {t : Db} (h : RefInv s) (hblob : t.blob = s.blob)
    (hobject : t.object.rows = s.object.rows) (hchunk : t.uploadChunk = s.uploadChunk)
    (hpart : t.uploadPart = s.uploadPart) (hextent : t.blobExtent = s.blobExtent) : RefInv t := by
  refine h.of_refs hblob fun k => ?_
  unfold Db.refs
  rw [hobject, hchunk, hpart, hextent]

theorem refs_eq_zero_of_absent (h : RefInv s) (hk : ¬ s.HasBlob k) : s.refs k = 0 := by
  rcases Nat.eq_zero_or_pos (s.refs k) with h0 | hpos
  · exact h0
  · exact absurd (h.present k hpos) hk

theorem RefInv.source_present (h : RefInv s) {e : BlobExtentRow} (he : e ∈ s.blobExtent.rows) :
    s.HasBlob e.sourceBlobId := by
  apply h.present
  have hpos : 0 < s.blobExtent.rows.countP fun e' => e'.sourceBlobId = e.sourceBlobId :=
    List.countP_pos_iff.mpr ⟨e, he, by simp⟩
  unfold Db.refs
  omega

theorem RefInv.object_present (h : RefInv s) {o : ObjectRow} (ho : o ∈ s.object.rows)
    (hk : o.blobId = some k) : s.HasBlob k := by
  apply h.present
  have hpos : 0 < objectRefs s.object.rows k :=
    List.countP_pos_iff.mpr ⟨o, ho, by simpa using hk⟩
  unfold Db.refs
  omega

theorem RefInv.forkRows_present (h : RefInv s) {source destination seq : Nat} {c : Context}
    (hk : 0 < objectRefs (forkRows s.object.rows source destination seq c) k) : s.HasBlob k := by
  obtain ⟨o, ho, hok⟩ := List.countP_pos_iff.mp hk
  obtain ⟨r, hr, _, _, _, hpay, _⟩ := mem_forkRows ho
  -- the source row already holds a reference to the blob
  apply h.object_present hr
  have hok : o.blobId = some k := by simpa using hok
  rw [← hok, ObjectRow.blobId, ObjectRow.blobId, hpay]

/-! ## 2. Every statement keeps it -/

theorem insertBlob_keeps_refs {row : BlobRow} (hrow : row.refcount = 0) :
    Keeps RefInv (insertBlob row) := by
  intro s n s' h hy
  rcases yields_insertBlob hy with ⟨_, rfl, _⟩ | ⟨_, habsent, blob, hrows, rfl⟩
  · exact h
  · constructor
    · intro b hb
      rcases List.mem_append.mp (hrows ▸ hb) with hb | hb
      · exact h.exact b hb
      · -- nothing can name a blob that was absent
        rw [List.mem_singleton.mp hb, hrow]
        exact congrArg Nat.cast (refs_eq_zero_of_absent h habsent).symm
    · intro k hk
      obtain ⟨b, hb, hbk⟩ := h.present k hk
      exact ⟨b, hrows ▸ List.mem_append_left _ hb, hbk⟩

theorem insertChunks_keeps_refs {rows : List ChunkRow} : Keeps RefInv (insertChunks rows) := by
  intro s u s' h hy
  obtain ⟨_, chunk, _, rfl⟩ := yields_insertChunks hy
  exact h.frame rfl rfl rfl rfl rfl

theorem insertBlobExtents_keeps_refs {rows : List BlobExtentRow} :
    Keeps RefInv (insertBlobExtents rows) := by
  intro s u s' h hy
  obtain ⟨hfk, blobExtent, hrows, rfl⟩ := yields_insertBlobExtents hy
  refine h.added rfl (fun k => ?_) fun k hk => ?_
  · simp only [Db.refs, hrows, List.countP_append]
    omega
  · obtain ⟨e, he, hek⟩ := List.countP_pos_iff.mp hk
    have hek : e.sourceBlobId = k := by simpa using hek
    exact hek ▸ (hfk e he).2.2

theorem deleteBlob_keeps_refs : Keeps RefInv (deleteBlob k) := by
  intro s u s' h hy
  obtain ⟨⟨ho, hc, hp, he⟩, rfl⟩ := yields_deleteBlob hy
  have hzero : s.refs k = 0 := by
    have h1 : objectRefs s.object.rows k = 0 :=
      List.countP_eq_zero.mpr fun o hmem => by simpa using ho o hmem
    have h2 : (s.uploadChunk.rows.countP fun c => decide (c.blobId = k)) = 0 :=
      List.countP_eq_zero.mpr fun c hmem => by simpa using hc c hmem
    have h3 : (s.uploadPart.rows.countP fun p => decide (p.sha256 = k)) = 0 :=
      List.countP_eq_zero.mpr fun p hmem => by simpa using hp p hmem
    have h4 : (s.blobExtent.rows.countP fun e => decide (e.sourceBlobId = k)) = 0 :=
      List.countP_eq_zero.mpr fun e hmem => by simpa using he e hmem
    unfold Db.refs
    omega
  -- the cascade takes the blob's own extents away, and with them references to sources
  have hsplit : ∀ j, (s.dropBlob k).refs j
      + (s.blobExtent.rows.filter fun e => e.finalBlobId = k).countP
        (fun e => e.sourceBlobId = j) = s.refs j := by
    intro j
    have hdel := Table.countP_delete s.blobExtent (fun e => decide (e.finalBlobId = k))
      fun e => decide (e.sourceBlobId = j)
    simp only [Db.refs, Db.dropBlob]
    omega
  constructor
  · intro b hb
    obtain ⟨b₀, hb₀, rfl⟩ := List.mem_map.mp hb
    obtain ⟨hb₀, _⟩ := Table.mem_delete.mp hb₀
    have hexact := h.exact b₀ hb₀
    have hj := hsplit b₀.sha256
    rw [← hj, Int.natCast_add] at hexact
    exact (congrArg (· + _) hexact).trans (Int.add_neg_cancel_right _ _)
  · intro j hj
    have hpos : 0 < s.refs j := by
      rw [← hsplit j]
      exact Nat.add_pos_left hj _
    obtain ⟨b, hb, hbj⟩ := h.present j hpos
    rw [hasBlob_addRefs]
    refine ⟨b, Table.mem_delete.mpr ⟨hb, ?_⟩, hbj⟩
    -- a named blob is not the one that was deleted
    have hne : b.sha256 ≠ k := by
      intro hk
      rw [← hbj, hk, hzero] at hpos
      exact absurd hpos (Nat.lt_irrefl 0)
    simpa using hne

theorem insertObject_keeps_refs {row : ObjectRow} : Keeps RefInv (insertObject row) := by
  intro s u s' h hy
  obtain ⟨_, hfk, object, hrows, rfl⟩ := yields_insertObject hy
  refine h.added rfl (fun k => ?_) fun k hk => ?_
  · simp only [Db.refs, objectRefs, hrows, List.countP_append]
    omega
  · obtain ⟨o, ho, hok⟩ := List.countP_pos_iff.mp hk
    rw [List.mem_singleton.mp ho] at hok
    exact hfk k (by simpa using hok)

theorem objectRefs_map_setLatest (rows : List ObjectRow) (sel : ObjectRow → Bool) (v : Bool)
    (k : Bytes) : objectRefs (rows.map (setLatest sel v)) k = objectRefs rows k := by
  unfold objectRefs
  rw [List.countP_map]
  congr 1
  funext o
  have hblob : (setLatest sel v o).blobId = o.blobId := by
    unfold setLatest
    cases sel o <;> rfl
  simp only [Function.comp_apply, hblob]

theorem updateIsLatest_keeps_refs {sel : ObjectRow → Bool} {v : Bool} :
    Keeps RefInv (updateIsLatest sel v) := by
  intro s u s' h hy
  obtain ⟨object, hrows, rfl⟩ := yields_updateIsLatest hy
  refine h.of_refs rfl fun k => ?_
  simp only [Db.refs, hrows, objectRefs_map_setLatest]

theorem deleteObjects_keeps_refs {sel : ObjectRow → Bool} : Keeps RefInv (deleteObjects sel) := by
  intro s u s' h hy
  rw [yields_deleteObjects hy]
  refine h.removed rfl fun k => ?_
  have hdel := Table.countP_delete s.object sel fun o => decide (o.blobId = some k)
  simp only [Db.refs, objectRefs]
  omega

/-- An upsert moves the count by the new row's reference and the replaced row's. -/
theorem countP_upsert_oldRef {α κ : Type} [DecidableEq κ] {key : α → κ} (t : Table α κ key)
    (a : α) (ref : α → Bytes) (k : Bytes) :
    (((t.upsert a).rows.countP fun r => ref r = k : Nat) : Int)
      = (t.rows.countP fun r => ref r = k : Nat)
        + ((if k = ref a then 1 else 0) - oldRef ((t.lookup (key a)).map ref) k) := by
  have hone : (([a].countP fun r => ref r = k : Nat) : Int) = if k = ref a then 1 else 0 := by
    by_cases h : k = ref a
    · simp [h]
    · simp [h, Ne.symm h]
  cases hl : t.lookup (key a) with
  | none =>
    have := Table.countP_upsert_none hl fun r => decide (ref r = k)
    simp only [Option.map_none, oldRef, reduceCtorEq, if_false]
    omega
  | some b =>
    have hold : (([b].countP fun r => ref r = k : Nat) : Int) = oldRef (some (ref b)) k := by
      by_cases h : ref b = k <;> simp [h, oldRef]
    have := Table.countP_upsert_some hl fun r => decide (ref r = k)
    simp only [Option.map_some]
    omega

theorem upsertUploadChunk_keeps_refs {row : UploadChunkRow} :
    Keeps RefInv (upsertUploadChunk row) := by
  intro s u s' h hy
  obtain ⟨hblob, rfl⟩ := yields_upsertUploadChunk hy
  refine h.replaced rfl hblob fun k => ?_
  have := countP_upsert_oldRef s.uploadChunk row (·.blobId) k
  simp only [Db.refs]
  omega

theorem upsertUploadPart_keeps_refs {row : UploadPartRow} :
    Keeps RefInv (upsertUploadPart row) := by
  intro s u s' h hy
  obtain ⟨hblob, rfl⟩ := yields_upsertUploadPart hy
  refine h.replaced rfl hblob fun k => ?_
  have := countP_upsert_oldRef s.uploadPart row (·.sha256) k
  simp only [Db.refs]
  omega

theorem deleteUploadChunks_keeps_refs {sel : UploadChunkRow → Bool} :
    Keeps RefInv (deleteUploadChunks sel) := by
  intro s u s' h hy
  rw [yields_deleteUploadChunks hy]
  refine h.removed rfl fun k => ?_
  have hdel := Table.countP_delete s.uploadChunk sel fun c => decide (c.blobId = k)
  simp only [Db.refs]
  omega

theorem deleteUploadParts_keeps_refs {sel : UploadPartRow → Bool} :
    Keeps RefInv (deleteUploadParts sel) := by
  intro s u s' h hy
  rw [yields_deleteUploadParts hy]
  refine h.removed rfl fun k => ?_
  have hdel := Table.countP_delete s.uploadPart sel fun p => decide (p.sha256 = k)
  simp only [Db.refs]
  omega

theorem exists_forM_delete {sources : List BlobExtentRow} (h : ∀ b ∈ s.blob.rows,
      ((sources.countP fun e => e.sourceBlobId = b.sha256 : Nat) : Int) ≤ b.refcount) :
    ∃ s', Yields (sources.forM fun e => blobExtentSourceRef (.delete e.sourceBlobId)) s ⟨⟩ s' := by
  induction sources generalizing s with
  | nil => exact ⟨s, yields_pure.mpr ⟨rfl, rfl⟩⟩
  | cons e rest ih =>
    let delta : Bytes → Int := fun k => if k = e.sourceBlobId then -1 else 0
    have hcount : ∀ b ∈ s.blob.rows,
        ((rest.countP fun e => e.sourceBlobId = b.sha256 : Nat) : Int)
          ≤ b.refcount + delta b.sha256 := by
      intro b hb
      have hb := h b hb
      rw [List.countP_cons] at hb
      by_cases hk : b.sha256 = e.sourceBlobId
      · simp only [delta, hk, if_true, decide_true] at hb ⊢
        omega
      · simp only [delta, hk, Ne.symm hk, if_false, decide_false, Bool.false_eq_true] at hb ⊢
        omega
    obtain ⟨s', hs'⟩ := ih (s := s.addRefs delta) (by
      intro b hb
      obtain ⟨b₀, hb₀, rfl⟩ := List.mem_map.mp hb
      exact hcount b₀ hb₀)
    refine ⟨s', yields_bind.mpr ⟨⟨⟩, s.addRefs delta, ?_, hs'⟩⟩
    change Yields (addRefcount delta) s ⟨⟩ _
    simp only [addRefcount, yields_get_bind, yields_raiseIf_bind, yields_modify]
    refine ⟨?_, trivial⟩
    rintro ⟨b, hb, _, hneg⟩
    have := hcount b hb
    omega

/-- **A blob that nothing names can be deleted.** -/
theorem RefInv.exists_deleteBlob (h : RefInv s) (hk : s.refs k = 0) :
    ∃ s', Yields (deleteBlob k) s ⟨⟩ s' := by
  unfold Db.refs objectRefs at hk
  simp only [Nat.add_eq_zero_iff, List.countP_eq_zero, decide_eq_true_eq] at hk
  obtain ⟨⟨⟨ho, hc⟩, hp⟩, he⟩ := hk
  simp only [deleteBlob, yields_get_bind, yields_raiseIf_bind, yields_modify_bind]
  have hcount : ∀ b ∈ (s.blob.delete fun b => b.sha256 = k).rows,
      (((s.blobExtent.rows.filter fun e => e.finalBlobId = k).countP
        fun e => e.sourceBlobId = b.sha256 : Nat) : Int) ≤ b.refcount := by
    intro b hb
    have hexact := h.exact b (Table.mem_delete.mp hb).1
    have hle : (s.blobExtent.rows.filter fun e => e.finalBlobId = k).countP
        (fun e => e.sourceBlobId = b.sha256)
        ≤ s.blobExtent.rows.countP fun e => e.sourceBlobId = b.sha256 :=
      List.filter_sublist.countP_le
    rw [hexact]
    unfold Db.refs
    omega
  obtain ⟨s', hs'⟩ := exists_forM_delete (s := s.dropBlob k) hcount
  refine ⟨s', ?_, ?_, ?_, ?_, hs'⟩
  · rintro ⟨o, hmem, hok⟩
    exact ho o hmem hok
  · rintro ⟨c, hmem, hck⟩
    exact hc c hmem hck
  · rintro ⟨p, hmem, hpk⟩
    exact hp p hmem hpk
  · rintro ⟨e, hmem, hek⟩
    exact he e hmem hek

/-! ## 3. Every step keeps it -/

theorem insertLatest_keeps_refs (c : Context) (b : Nat) (k : Text) (p : Option Payload)
    (t : Option Text) (j : Jsonb) : Keeps RefInv (insertLatest c b k p t j) := by
  refine .bind updateIsLatest_keeps_refs fun _ => .bind ?_ fun _ => ?_
  · intro s n s' h hy
    obtain ⟨_, rfl⟩ := yields_nextVersionId hy
    exact h.frame rfl rfl rfl rfl rfl
  · exact .bind insertObject_keeps_refs fun _ => .pure _

theorem removeVersion_keeps_refs (b : Nat) (k : Text) (v : Int) :
    Keeps RefInv (removeVersion b k v) := by
  refine .bind .get fun s => ?_
  cases s.object.rows.find? (isVersionOf b k v) with
  | none => exact .pure _
  | some o =>
    refine .bind deleteObjects_keeps_refs fun _ => .bind .get fun _ => ?_
    exact .bind (.whenever updateIsLatest_keeps_refs) fun _ => .pure _

/-- **The fork counts what it copies.**  Foreign keys and triggers are off, but every row
    it inserts names the blob of a source row, and the bump counts exactly those rows. -/
theorem forkInto_keeps_refs (c : Context) (b : Nat) (name : Text) (j : Jsonb) :
    Keeps RefInv (forkInto c b name j) := by
  intro s n s' h hy
  obtain ⟨id, bucket, object, _, _, _, hrows, rfl⟩ := yields_forkInto hy
  refine h.added rfl (fun k => ?_) fun k hk => h.forkRows_present hk
  simp only [Db.refs, objectRefs, hrows, List.countP_append]
  omega

theorem quiet_keeps_refs (α : Type) (m : DbTx α) (hm : Quiet α m) : Keeps RefInv m := by
  cases hm with
  | insertLatest c b k p t j => exact insertLatest_keeps_refs c b k p t j
  | removeVersion b k v => exact removeVersion_keeps_refs b k v
  | forkInto c b name j => exact forkInto_keeps_refs c b name j
  | insertUpload row =>
    intro s u s' h hy
    obtain ⟨_, upload, _, rfl⟩ := yields_insertUpload hy
    exact h.frame rfl rfl rfl rfl rfl
  | updateUpload u f hf => exact Keeps.modify fun s h => h.frame rfl rfl rfl rfl rfl
  | deleteUpload u =>
    refine .bind (Keeps.modify fun s h => h.frame rfl rfl rfl rfl rfl) fun _ => ?_
    exact .bind deleteUploadChunks_keeps_refs fun _ => deleteUploadParts_keeps_refs
  | deleteUploadChunks sel => exact deleteUploadChunks_keeps_refs
  | deleteUploadParts sel => exact deleteUploadParts_keeps_refs
  | insertBucket name owner now j =>
    intro s id s' h hy
    obtain ⟨_, _, bucket, _, rfl⟩ := yields_insertBucket hy
    exact h.frame rfl rfl rfl rfl rfl
  | deleteBucketRow id =>
    intro s u s' h hy
    obtain ⟨_, _, rfl⟩ := yields_deleteBucketRow hy
    exact h.frame rfl rfl rfl rfl rfl

theorem shallow_keeps_refs (α : Type) (m : DbTx α) (hm : Shallow α m) : Keeps RefInv m := by
  cases hm with
  | quiet h => exact quiet_keeps_refs α m h
  | hashing h =>
    cases h with
    | logHashed body => exact Keeps.modify fun s h => h.frame rfl rfl rfl rfl rfl
  | ensureBlob c sha256 body =>
    exact ensureBlob_keeps (fun _ => insertBlob_keeps_refs) (fun _ => insertChunks_keeps_refs) _ _ _
  | upsertUploadChunk row => exact upsertUploadChunk_keeps_refs
  | upsertUploadPart row _ => exact upsertUploadPart_keeps_refs
  | deleteBlob k => exact deleteBlob_keeps_refs

theorem step_keeps_refs (α : Type) (m : DbTx α) (hm : Step α m) : Keeps RefInv m := by
  cases hm with
  | shallow h => exact shallow_keeps_refs α m h
  | storeComposite c sha256 size gone sources =>
    exact storeComposite_keeps (fun _ => insertBlob_keeps_refs)
      (fun _ => insertBlobExtents_keeps_refs) _ _ _ _ _

/-! ## 4. What the collector takes -/

theorem nextGarbage_mem {rows : List BlobRow} {locked : Bytes → Bool} {b : BlobRow}
    (h : nextGarbage rows locked = some b) :
    b ∈ rows ∧ b.refcount = 0 ∧ locked b.sha256 = false := by
  have hmem := List.mem_of_head? h
  rw [List.mem_insertionSort, List.mem_filter] at hmem
  simpa using hmem

theorem nextGarbage_eq_none {rows : List BlobRow} {locked : Bytes → Bool}
    (h : nextGarbage rows locked = none) {b : BlobRow} (hb : b ∈ rows)
    (hfree : locked b.sha256 = false) : b.refcount ≠ 0 := by
  intro h0
  have hempty := List.head?_eq_none_iff.mp h
  have hmem : b ∈ rows.filter fun b => b.refcount = 0 && !locked b.sha256 :=
    List.mem_filter.mpr ⟨hb, by simp [h0, hfree]⟩
  have hsorted := (List.mem_insertionSort fun a b : BlobRow =>
    b.createdAt < a.createdAt ∨ (a.createdAt = b.createdAt ∧ a.sha256 ≤ b.sha256)).mpr hmem
  rw [hempty] at hsorted
  exact absurd hsorted List.not_mem_nil

/-! ## 5. Every reachable state has it -/

theorem opBody_keeps_refs (H : Digests) (c : Context) (op : Op) : Keeps RefInv (opBody H c op) :=
  (opBody_built H c op).keeps step_keeps_refs

theorem Run.refInv {H : Digests} {allowed : Context → Op → Db → Prop} (h : Run H allowed s) :
    RefInv s :=
  h.invariant refInv_empty (fun c op s r s' hI _ hy => opBody_keeps_refs H c op s r s' hI hy)
    fun _ _ _ hI => hI.frame rfl rfl rfl rfl rfl

/-- **Reference counts are exact.**  After any sequence of calls, the count stored with a
    blob is the number of object versions, staged chunks, parts and extents that name it. -/
theorem refcount_exact {H : Digests} {s : Db} (h : Reachable H s) {b : BlobRow}
    (hb : b ∈ s.blob.rows) : b.refcount = ((s.object.rows.countP fun o => o.blobId = some b.sha256)
      + (s.uploadChunk.rows.countP fun c => c.blobId = b.sha256)
      + (s.uploadPart.rows.countP fun p => p.sha256 = b.sha256)
      + (s.blobExtent.rows.countP fun e => e.sourceBlobId = b.sha256) : Nat) :=
  h.refInv.exact b hb

/-- One object put twice under two keys: one blob, two references. -/
def twoCopies : List (Context × Op) :=
  let sample := Context.sample
  [(sample, .createBucket "bucket".toList (.object [])),
   (sample, .put ⟨"bucket".toList, "a".toList, some [1, 2, 3], none, none, none, none, none⟩),
   (sample, .put ⟨"bucket".toList, "b".toList, some [1, 2, 3], none, none, none, none, none⟩)]

theorem refcount_exact_twoCopies :
    let s := execs Digests.sample twoCopies Db.empty
    (⟨truncated 32 [1, 2, 3], 3, 65536, .inline [1, 2, 3], 2, 0⟩ : BlobRow) ∈ s.blob.rows ∧
      (2 : Int) = ((s.object.rows.countP fun o => o.blobId = some (truncated 32 [1, 2, 3]))
        + (s.uploadChunk.rows.countP fun c => c.blobId = truncated 32 [1, 2, 3])
        + (s.uploadPart.rows.countP fun p => p.sha256 = truncated 32 [1, 2, 3])
        + (s.blobExtent.rows.countP fun e => e.sourceBlobId = truncated 32 [1, 2, 3]) : Nat) := by
  intro s
  have hmem : (⟨truncated 32 [1, 2, 3], 3, 65536, .inline [1, 2, 3], 2, 0⟩ : BlobRow)
      ∈ s.blob.rows := by decide +kernel
  exact ⟨hmem, refcount_exact (Run.empty.execs fun _ _ _ => trivial) hmem⟩

/-- A bucket with one object, and a blob whose only version has been deleted. -/
def unreferenced : Db :=
  let put (key : String) (body : Bytes) : Context × Op := (Context.sample, .put
    ⟨"bucket".toList, key.toList, some body, none, none, none, none, none⟩)
  execs Digests.sample
    [(Context.sample, .createBucket "bucket".toList (.object [])), put "a" [1, 2, 3], put "z" [9],
      (Context.sample, .delete "bucket".toList "a".toList (some 1))] Db.empty

theorem unreferenced_reachable : Reachable Digests.sample unreferenced :=
  Run.empty.execs fun _ _ _ => trivial

end Pgs3
