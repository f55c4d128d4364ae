import Pgs3.Isolation

/-!
# What a version id stands for

Calls add versions and delete them, and of those that stay they move only the mark of the
latest one (`Outlives`).  Ids come from a sequence, so that of a deleted version is not drawn
again.  The blobs below the versions that stay are stored as they were, whatever is collected
in between (`Since`).
-/

namespace Pgs3

open Foundation Foundation.Tx

variable {H : Digests} {s t u : Db} {k : Bytes} {α : Type} {m : DbTx α} {a : α}

theorem exists_setLatest (sel : ObjectRow → Bool) (v : Bool) (o : ObjectRow) :
    ∃ latest, setLatest sel v o = { o with isLatest := latest } := by
  unfold setLatest
  cases sel o with
  | true => exact ⟨v, rfl⟩
  | false => exact ⟨o.isLatest, rfl⟩

/-- Every version of `t` with an id drawn before `s` is one of `s`, up to its mark. -/
structure Outlives (s t : Db) : Prop where
  ids : s.objectVersionIdSeq ≤ t.objectVersionIdSeq
  versions : ∀ o ∈ t.object.rows, o.versionId ≤ s.objectVersionIdSeq →
    ∃ r ∈ s.object.rows, ∃ latest, o = { r with isLatest := latest }

theorem Outlives.of_eq (hobject : t.object = s.object)
    (hids : t.objectVersionIdSeq = s.objectVersionIdSeq) : Outlives s t where
  ids := hids.ge
  versions := fun o ho _ => ⟨o, hobject ▸ ho, o.isLatest, rfl⟩

/-! ## 1. Steps -/

theorem quiet_outlives (hm : Quiet α m) (hy : Yields m s a t) : Outlives s t := by
  cases hm with
  | insertLatest c b key p ty j =>
    obtain ⟨hrow, _, _, object, hrows, rfl⟩ := yields_insertLatest hy
    refine ⟨Nat.le_succ _, fun o ho hid => ?_⟩
    rcases List.mem_append.mp (hrows ▸ ho) with ho | ho
    · obtain ⟨r, hr, rfl⟩ := List.mem_map.mp ho
      exact ⟨r, hr, exists_setLatest _ _ r⟩
    · rw [List.mem_singleton.mp ho, hrow] at hid
      exact absurd hid (Nat.not_succ_le_self _)
  | removeVersion b key v =>
    rcases yields_removeVersion hy with ⟨rfl, _⟩ | ⟨d, _, _, object, hrows, rfl⟩
    · exact .of_eq rfl rfl
    · refine ⟨Nat.le_refl _, fun o ho _ => ?_⟩
      have ho : o ∈ object.rows := ho
      rw [hrows] at ho
      split at ho
      · obtain ⟨r, hr, rfl⟩ := List.mem_map.mp ho
        exact ⟨r, (mem_rowsWithout.mp hr).1, exists_setLatest _ _ r⟩
      · exact ⟨o, (mem_rowsWithout.mp ho).1, o.isLatest, rfl⟩
  | forkInto c b name j =>
    obtain ⟨id, bucket, object, _, _, _, hrows, rfl⟩ := yields_forkInto hy
    refine ⟨Nat.le_add_right _ _, fun o ho hid => ?_⟩
    rcases List.mem_append.mp (hrows ▸ ho) with ho | ho
    · exact ⟨o, ho, o.isLatest, rfl⟩
    · obtain ⟨_, _, _, _, _, _, _, _, hlt, _⟩ := mem_forkRows ho
      exact absurd hid (Nat.not_le_of_gt hlt)
  | insertUpload row =>
    obtain ⟨_, upload, _, rfl⟩ := yields_insertUpload hy
    exact .of_eq rfl rfl
  | updateUpload id f hf =>
    obtain rfl := yields_modify.mp hy
    exact .of_eq rfl rfl
  | deleteUpload id =>
    obtain ⟨_, _, hupload, hy⟩ := yields_bind.mp hy
    obtain ⟨_, _, hchunks, hparts⟩ := yields_bind.mp hy
    obtain rfl := yields_modify.mp hupload
    rw [yields_deleteUploadParts hparts, yields_deleteUploadChunks hchunks]
    exact .of_eq rfl rfl
  | deleteUploadChunks sel =>
    rw [yields_deleteUploadChunks hy]
    exact .of_eq rfl rfl
  | deleteUploadParts sel =>
    rw [yields_deleteUploadParts hy]
    exact .of_eq rfl rfl
  | insertBucket name owner now j =>
    obtain ⟨_, _, bucket, _, rfl⟩ := yields_insertBucket hy
    exact .of_eq rfl rfl
  | deleteBucketRow id =>
    obtain ⟨_, _, rfl⟩ := yields_deleteBucketRow hy
    exact .of_eq rfl rfl

/-- **One step.**  Versions stay as they are, and so does everything that is alive. -/
theorem step_outlives (hm : Step α m) (hrefs : RefInv s) (hy : Yields m s a t) :
    Outlives s t ∧ ∀ k, s.Alive k → SameBlob s t k := by
  cases hm with
  | storeComposite c sha256 size gone sources =>
    obtain ⟨_, ⟨rfl, _⟩ | ⟨row, t', d, hadds, rfl, _⟩⟩ := yields_storeComposite hy
    · exact ⟨.of_eq rfl rfl, fun k _ => .refl _ k⟩
    · refine ⟨?_, fun k hk => (hadds.sameBlob (hrefs.alive_present hk)).trans (.addRefs t' d k)⟩
      rw [hadds.rest]
      exact .of_eq rfl rfl
  | shallow h =>
    cases h with
    | quiet hq =>
      exact ⟨quiet_outlives hq hy, fun k _ => (quiet_leavesBlobs hq hy).sameBlob k⟩
    | hashing hh =>
      cases hh with
      | logHashed body =>
        obtain rfl := yields_modify.mp hy
        exact ⟨.of_eq rfl rfl, fun k _ => ⟨(SameBlob.refl s k).row, rfl, rfl⟩⟩
    | ensureBlob c sha256 body =>
      obtain ⟨_, ⟨rfl, _⟩ | ⟨row, cs, hadds, _⟩⟩ := yields_ensureBlob hy
      · exact ⟨.of_eq rfl rfl, fun k _ => .refl _ k⟩
      · refine ⟨?_, fun k hk => hadds.sameBlob (hrefs.alive_present hk)⟩
        rw [hadds.rest]
        exact .of_eq rfl rfl
    | upsertUploadChunk row =>
      obtain ⟨_, rfl⟩ := yields_upsertUploadChunk hy
      exact ⟨.of_eq rfl rfl, fun k _ => ⟨⟨_, lookup_addRefs _ _ k⟩, rfl, rfl⟩⟩
    | upsertUploadPart row _ =>
      obtain ⟨_, rfl⟩ := yields_upsertUploadPart hy
      exact ⟨.of_eq rfl rfl, fun k _ => ⟨⟨_, lookup_addRefs _ _ k⟩, rfl, rfl⟩⟩
    | deleteBlob j =>
      obtain ⟨⟨hobject, hchunk, hpart, hsource⟩, ht⟩ := yields_deleteBlob hy
      obtain ⟨d, rfl⟩ : ∃ d, t = (s.dropBlob j).addRefs d := ⟨_, ht⟩
      -- nothing that is named by a version, a staged row or an extent is deleted
      have hspared : ∀ k, s.Alive k → k ≠ j := by
        rintro k hk rfl
        refine not_live ?_ ?_ hk
        · rintro (⟨o, ho, h⟩ | ⟨c, hc, h⟩ | ⟨p, hp, h⟩)
          · exact hobject o ho h
          · exact hchunk c hc h
          · exact hpart p hp h
        · rintro _ ⟨e, he, _, h⟩
          exact hsource e he h
      refine ⟨.of_eq rfl rfl, fun k hk => ?_⟩
      refine ⟨⟨d, ?_⟩, chunksOf_dropBlob (hspared k hk), extentsOf_dropBlob (hspared k hk)⟩
      rw [lookup_addRefs, lookup_dropBlob (hspared k hk)]

/-! ## 2. Runs -/

/-- The blobs of `s` below the versions of `s` that `t` still has. -/
def Db.Kept (s t : Db) : Bytes → Prop :=
  Live (fun k => ∃ o ∈ t.object.rows, o.versionId ≤ s.objectVersionIdSeq ∧ o.blobId = some k)
    s.Extends

structure Since (s t : Db) : Prop extends Outlives s t where
  blobs : ∀ k, s.Kept t k → SameBlob s t k

theorem Outlives.alive (h : Outlives s t) (hk : s.Kept t k) : s.Alive k := by
  induction hk with
  | root hr =>
    obtain ⟨o, ho, hid, hblob⟩ := hr
    obtain ⟨r, hr, _, rfl⟩ := h.versions o ho hid
    exact .root (Or.inl ⟨r, hr, hblob⟩)
  | edge _ he ih => exact .edge ih he

theorem Since.refl (s : Db) : Since s s := ⟨.of_eq rfl rfl, fun k _ => .refl s k⟩

theorem Since.trans (h : Since s t) (h' : Since t u) : Since s u := by
  -- what is below a version that stays to the end is stored alike all the way
  have hkept : ∀ k, s.Kept u k → s.Kept t k ∧ t.Kept u k := by
    intro k hk
    induction hk with
    | root hr =>
      obtain ⟨o, ho, hid, hblob⟩ := hr
      have hid' := hid.trans h.ids
      constructor
      · obtain ⟨r, hr, _, rfl⟩ := h'.versions o ho hid'
        exact .root ⟨r, hr, hid, hblob⟩
      · exact .root ⟨o, ho, hid', hblob⟩
    | edge _ he ih => exact ⟨.edge ih.1 he, .edge ih.2 ((h.blobs _ ih.1).extends he)⟩
  refine ⟨⟨h.ids.trans h'.ids, fun o ho hid => ?_⟩, fun k hk => ?_⟩
  · obtain ⟨r, hr, latest, rfl⟩ := h'.versions o ho (hid.trans h.ids)
    obtain ⟨q, hq, _, rfl⟩ := h.versions r hr hid
    exact ⟨q, hq, latest, rfl⟩
  · exact (h.blobs k (hkept k hk).1).trans (h'.blobs k (hkept k hk).2)

theorem opBody_since {c : Context} {op : Op} {r : Reply} (hrefs : RefInv s)
    (hy : Yields (opBody H c op) s r t) : RefInv t ∧ Since s t := by
  have hkeeps : Keeps (fun t => RefInv t ∧ Since s t) (opBody H c op) := by
    refine (opBody_built H c op).keeps fun β f hf t₁ x t₂ h hf' => ?_
    obtain ⟨hout, hsame⟩ := step_outlives hf h.1 hf'
    exact ⟨step_keeps_refs β f hf t₁ x t₂ h.1 hf',
      h.2.trans ⟨hout, fun k hk => hsame k (hout.alive hk)⟩⟩
  exact hkeeps s r t ⟨hrefs, .refl s⟩ hy

theorem execs_since (calls : List (Context × Op)) (hrefs : RefInv s) :
    Since s (execs H calls s) := by
  induction calls generalizing s with
  | nil => exact .refl s
  | cons p rest ih =>
    rcases p with ⟨c, op⟩
    have hcall : RefInv (exec H c op s).2 ∧ Since s (exec H c op s).2 := by
      rcases commit_cases (opBody H c op) s with ⟨r, hy⟩ | hsame
      · exact opBody_since hrefs hy
      · unfold exec
        rw [hsame]
        exact ⟨hrefs, .refl s⟩
    exact hcall.2.trans (ih hcall.1)

/-- **A version id stands for one object.**  Whatever is called after a reachable state, each
    version that is there later is newer than all that were there, or it is one of them up to
    the mark of the latest one, and then its content reads as it did. -/
theorem versions_immutable (h : Reachable H s) (calls : List (Context × Op)) :
    ∀ o ∈ (execs H calls s).object.rows, (∀ r ∈ s.object.rows, r.versionId < o.versionId) ∨
      ∃ r ∈ s.object.rows, ∃ latest, o = { r with isLatest := latest } ∧
        ∀ k, o.blobId = some k → ∀ levels,
          readBlobAt (execs H calls s) levels k = readBlobAt s levels k ∧
          ∀ first last, readBlobRangeAt (execs H calls s) levels k first last
            = readBlobRangeAt s levels k first last := by
  intro o ho
  have hsince := execs_since (H := H) calls h.refInv
  rcases Nat.lt_or_ge s.objectVersionIdSeq o.versionId with hnew | hold
  · left
    intro r hr
    exact Nat.lt_of_le_of_lt ((Run.latestInv h).versions r hr) hnew
  · right
    obtain ⟨r, hr, latest, heq⟩ := hsince.versions o ho hold
    refine ⟨r, hr, latest, heq, fun k hk levels => ?_⟩
    have hkept : s.Kept (execs H calls s) k := .root ⟨o, ho, hold, hk⟩
    exact ⟨readBlobAt_congr hsince.blobs (fun _ _ hj he => .edge hj he) levels hkept,
      readBlobRangeAt_congr hsince.blobs (fun _ _ hj he => .edge hj he) levels hkept⟩

/-- One of two versions that share a blob is deleted, and garbage is collected. -/
theorem versions_immutable_dropFirst : ∃ o ∈ (execs .sample dropFirst sharing).object.rows,
    ∃ r ∈ sharing.object.rows, ∃ latest, o = { r with isLatest := latest } := by
  have hleft : ∃ o ∈ (execs .sample dropFirst sharing).object.rows, ∃ r ∈ sharing.object.rows,
      ¬ r.versionId < o.versionId := by decide +kernel
  obtain ⟨o, ho, r, hr, hold⟩ := hleft
  rcases versions_immutable sharing_reachable dropFirst o ho with hnew | ⟨r, hr, latest, heq, _⟩
  · exact absurd (hnew r hr) hold
  · exact ⟨o, ho, r, hr, latest, heq⟩

/-- **The current version moves forward.**  Later on the latest version of a key is newer than
    all that were there, or still the same, or the one that it was has been deleted. -/
theorem current_version_moves_forward (h : Reachable H s) (calls : List (Context × Op))
    {r l : ObjectRow} (hr : r ∈ s.object.rows) (hrl : r.isLatest = true)
    (hl : l ∈ (execs H calls s).object.rows) (hll : l.isLatest = true)
    (hb : l.bucketId = r.bucketId) (hk : l.key = r.key) :
    (∀ o ∈ s.object.rows, o.versionId < l.versionId) ∨ l = r ∨
      ∀ o ∈ (execs H calls s).object.rows, o.pk ≠ r.pk := by
  have hsince := execs_since (H := H) calls h.refInv
  have hinv := Run.latestInv h
  have hinv' : LatestInv (execs H calls s) := Run.latestInv (h.execs fun _ _ _ => trivial)
  rcases Nat.lt_or_ge s.objectVersionIdSeq l.versionId with hnew | hold
  · exact Or.inl fun o ho => Nat.lt_of_le_of_lt (hinv.versions o ho) hnew
  · right
    rw [or_iff_not_imp_right]
    intro hthere
    push Not at hthere
    obtain ⟨o, ho, hpk⟩ := hthere
    simp only [ObjectRow.pk, Prod.mk.injEq] at hpk
    -- neither is newer than the other, so they are one row of the earlier state
    have hge := (hinv'.latest l hl).mp hll o ho (hpk.1.trans hb.symm) (hpk.2.1.trans hk.symm)
    obtain ⟨q, hq, latest, rfl⟩ := hsince.versions l hl hold
    have hle := (hinv.latest r hr).mp hrl q hq hb hk
    have hid : q.versionId = r.versionId := Nat.le_antisymm hle (hpk.2.2 ▸ hge)
    obtain rfl : q = r := List.inj_on_of_nodup_map (object_pk_nodup s) hq hr
      (Prod.ext hb (Prod.ext hk hid))
    cases hll
    exact hrl ▸ rfl

/-- The object of the other bucket is written again. -/
def rewritten : Db :=
  execs .sample
    [(.sample, .put ⟨"bbb".toList, "k".toList, some [2], none, none, none, none, none⟩)] sharing

def undo : List (Context × Op) := [(.sample, .delete "bbb".toList "k".toList (some 3))]

/-- The new version is newer than all others; when it is deleted the older one is back. -/
theorem current_version_moves_forward_undo :
    (∃ r ∈ sharing.object.rows, ∃ l ∈ rewritten.object.rows, l.bucketId = r.bucketId ∧
      ∀ o ∈ sharing.object.rows, o.versionId < l.versionId) ∧
    ∃ r ∈ rewritten.object.rows, ∃ l ∈ (execs .sample undo rewritten).object.rows,
      l.versionId < r.versionId ∧
        ∀ o ∈ (execs .sample undo rewritten).object.rows, o.pk ≠ r.pk := by
  constructor
  · have hput : ∃ r ∈ sharing.object.rows, ∃ l ∈ rewritten.object.rows,
        r.isLatest = true ∧ l.isLatest = true ∧ l.bucketId = r.bucketId ∧ l.key = r.key ∧
          r.versionId < l.versionId ∧ ∃ o ∈ rewritten.object.rows, o.pk = r.pk := by
      decide +kernel
    obtain ⟨r, hr, l, hl, hrl, hll, hb, hk, hlt, o, ho, hpk⟩ := hput
    rcases current_version_moves_forward sharing_reachable _ hr hrl hl hll hb hk with
      hnew | rfl | hgone
    · exact ⟨r, hr, l, hl, hb, hnew⟩
    · exact absurd hlt (Nat.lt_irrefl _)
    · exact absurd hpk (hgone o ho)
  · have hundo : ∃ r ∈ rewritten.object.rows, ∃ l ∈ (execs .sample undo rewritten).object.rows,
        r.isLatest = true ∧ l.isLatest = true ∧ l.bucketId = r.bucketId ∧ l.key = r.key ∧
          l.versionId < r.versionId := by
      decide +kernel
    obtain ⟨r, hr, l, hl, hrl, hll, hb, hk, hlt⟩ := hundo
    have hreach : Reachable .sample rewritten := sharing_reachable.execs fun _ _ _ => trivial
    rcases current_version_moves_forward hreach _ hr hrl hl hll hb hk with hnew | rfl | hgone
    · exact absurd (hnew r hr) (Nat.lt_asymm hlt)
    · exact absurd hlt (Nat.lt_irrefl _)
    · exact ⟨r, hr, l, hl, hlt, hgone⟩

end Pgs3
