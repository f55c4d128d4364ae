import Pgs3.Sessions

/-!
# Attaching and collecting blobs at the same time

`gc_blobs` deletes a blob that no row names while other calls may be about to name it again.
Two questions are answered here, for all interleavings of statements.

*Can a reference dangle, or a count be wrong?*  No (`attach_gc_safe`).  A reference is made
by a statement that also moves the count of the blob, so it needs the lock of the blob's row;
changes of two sessions to one blob's references are never in flight together.  Stated for
the abstract locking protocol: reference counts are mergeable (`refInv_mergeable`).

*Can a write fail because of the collector?*  Yes.  The row that `INSERT … ON CONFLICT DO
NOTHING` has seen is not locked until the next statement, and a collector that commits in
between makes the write fail.  This is the only way (`writes_survive_gc`, `claim_goes_on`).
-/

namespace Pgs3

open Foundation Foundation.Tx

/-! ## 1. Statements keep references exact -/

theorem deleteGarbage_keeps_refs (k : Bytes) : Keeps RefInv (deleteGarbage k) := by
  refine .bind .get fun s => ?_
  cases s.blob.lookup k with
  | none => exact .pure _
  | some b => exact .ite (.bind deleteBlob_keeps_refs fun _ => .pure _) (.pure _)

theorem statement_keeps_refs {α : Type} {m : DbTx α} (hm : SqlStatement α m) : Keeps RefInv m := by
  induction hm with
  | select => exact .get
  | insertChunks rows => exact insertChunks_keeps_refs
  | insertBlobExtents rows => exact insertBlobExtents_keeps_refs
  | deleteBlob k => exact deleteBlob_keeps_refs
  | deleteGarbage k => exact deleteGarbage_keeps_refs k
  | insertObject row => exact insertObject_keeps_refs
  | updateIsLatest sel v => exact updateIsLatest_keeps_refs
  | deleteObjects sel => exact deleteObjects_keeps_refs
  | insertUpload row => exact quiet_keeps_refs _ _ (.insertUpload row)
  | updateUpload u f hf => exact quiet_keeps_refs _ _ (.updateUpload u f hf)
  | deleteUpload u => exact quiet_keeps_refs _ _ (.deleteUpload u)
  | upsertUploadChunk row => exact upsertUploadChunk_keeps_refs
  | deleteUploadChunks sel => exact deleteUploadChunks_keeps_refs
  | upsertUploadPart row => exact upsertUploadPart_keeps_refs
  | deleteUploadParts sel => exact deleteUploadParts_keeps_refs
  | insertBucket name owner now j => exact quiet_keeps_refs _ _ (.insertBucket name owner now j)
  | deleteBucketRow id => exact quiet_keeps_refs _ _ (.deleteBucketRow id trivial)
  | nextVersionId =>
    intro s n s' h hy
    obtain ⟨_, rfl⟩ := yields_nextVersionId hy
    exact h.frame rfl rfl rfl rfl rfl
  | logHashed body => exact Keeps.modify fun s h => h.frame rfl rfl rfl rfl rfl
  | mapError f _ ih => exact .mapError ih

variable {s : Db}

theorem exec_keeps_refs {locked written : Set RowId} {p : Point}
    {e : ReadCommitted.Effect Db RowId Point} (he : Exec locked written p s e) (h : RefInv s) :
    RefInv e.view := by
  cases he with
  | @statement β m hm k s s' b W L hy => exact statement_keeps_refs hm _ _ _ h hy
  | @insert f row hrow gone k s s' n W L hfree hy => exact insertBlob_keeps_refs hrow _ _ _ h hy
  | _ => exact h

/-! ## 2. References can be merged -/

variable {c : Db}

theorem overlay_cases {X Y : Set RowId} {a b m : Db} (hXY : Disjoint X Y)
    (ha : ∀ x ∉ X, SameRow x a c) (hb : ∀ x ∉ Y, SameRow x b c) (hm : dbRows.Overlay X a b m)
    (x : RowId) : (SameRow x m a ∧ SameRow x b c) ∨ (SameRow x m b ∧ SameRow x a c) := by
  by_cases hx : x ∈ X
  · exact Or.inl ⟨hm.1 x hx, hb x (Set.disjoint_left.mp hXY hx)⟩
  · exact Or.inr ⟨hm.2 x hx, ha x hx⟩

theorem refs_merge {X Y : Set RowId} {a b m : Db} (hXY : Disjoint X Y)
    (ha : ∀ x ∉ X, SameRow x a c) (hb : ∀ x ∉ Y, SameRow x b c) (hm : dbRows.Overlay X a b m)
    (k : Bytes) : m.refs k + c.refs k = a.refs k + b.refs k := by
  have hcases := overlay_cases hXY ha hb hm
  have h1 := Table.countP_merge (fun id => hcases (.object id)) fun o => decide (o.blobId = some k)
  have h2 := Table.countP_merge (fun id => hcases (.uploadChunk id)) fun r => decide (r.blobId = k)
  have h3 := Table.countP_merge (fun id => hcases (.uploadPart id)) fun p => decide (p.sha256 = k)
  have h4 := Table.countP_merge (fun id => hcases (.blobExtent id))
    fun e => decide (e.sourceBlobId = k)
  simp only [Db.refs, objectRefs]
  omega

variable {k : Bytes}

theorem hasBlob_iff_lookup : s.HasBlob k ↔ ∃ b, s.blob.lookup k = some b := by
  constructor
  · rintro ⟨b, hb, rfl⟩
    exact ⟨b, Table.lookup_of_mem hb⟩
  · rintro ⟨b, hb⟩
    exact ⟨b, Table.lookup_mem hb, Table.lookup_key hb⟩

variable {t : Db}

/-- A session that has not written the row of a blob has not changed what names the blob. -/
theorem RefInv.refs_eq_of_same (hs : RefInv s) (ht : RefInv t) (h : SameRow (.blob k) s t) :
    s.refs k = t.refs k := by
  have h : s.blob.lookup k = t.blob.lookup k := h
  cases hl : t.blob.lookup k with
  | none =>
    rw [hl] at h
    have hs0 := refs_eq_zero_of_absent hs (k := k) (by simp [hasBlob_iff_lookup, h])
    have ht0 := refs_eq_zero_of_absent ht (k := k) (by simp [hasBlob_iff_lookup, hl])
    rw [hs0, ht0]
  | some b =>
    rw [hl] at h
    have hs1 := hs.exact b (Table.lookup_mem h)
    have ht1 := ht.exact b (Table.lookup_mem hl)
    rw [Table.lookup_key hl] at hs1 ht1
    omega

theorem refInv_mergeable : dbRows.Mergeable RefInv := by
  intro X Y c a b m hXY ha hb hm hc hIa hIb
  -- each blob is as in one of the two, and the other has not changed what names it
  have hblob : ∀ k, (m.blob.lookup k = a.blob.lookup k ∧ m.refs k = a.refs k) ∨
      (m.blob.lookup k = b.blob.lookup k ∧ m.refs k = b.refs k) := by
    intro k
    have hmerge := refs_merge hXY ha hb hm k
    rcases overlay_cases hXY ha hb hm (.blob k) with ⟨hrow, hother⟩ | ⟨hrow, hother⟩
    · have hsame := hIb.refs_eq_of_same hc hother
      exact Or.inl ⟨hrow, by omega⟩
    · have hsame := hIa.refs_eq_of_same hc hother
      exact Or.inr ⟨hrow, by omega⟩
  constructor
  · intro r hr
    have hlookup := Table.lookup_of_mem hr
    rcases hblob r.sha256 with ⟨hrow, hrefs⟩ | ⟨hrow, hrefs⟩
    · rw [hrefs]
      exact hIa.exact r (Table.lookup_mem (hrow ▸ hlookup))
    · rw [hrefs]
      exact hIb.exact r (Table.lookup_mem (hrow ▸ hlookup))
  · intro k hk
    rw [hasBlob_iff_lookup]
    rcases hblob k with ⟨hrow, hrefs⟩ | ⟨hrow, hrefs⟩
    · rw [hrow, ← hasBlob_iff_lookup]
      exact hIa.present k (hrefs ▸ hk)
    · rw [hrow, ← hasBlob_iff_lookup]
      exact hIb.present k (hrefs ▸ hk)

/-! ## 3. No interleaving loses a blob -/

abbrev CallWorld := ReadCommitted.World Db RowId Point

def idle (s : Db) : CallWorld := ⟨s, fun _ => none⟩

/-- What any interleaving of calls reaches, after some calls that ran one after the other. -/
def Concurrent (H : Digests) (w : CallWorld) : Prop :=
  ∃ s, Reachable H s ∧ (sessions H).Run (fun _ _ => True) (idle s) w

theorem run_sound {H : Digests} {ok : CallWorld → CallWorld → Prop} {w : CallWorld}
    (hs : RefInv s) (h : (sessions H).Run ok (idle s) w) : w.Sound dbRows RefInv :=
  h.sound refInv_mergeable (fun _ _ hI => hI.frame rfl rfl rfl rfl rfl)
    (fun _ _ _ _ _ he hI => exec_keeps_refs he hI) (ReadCommitted.World.sound_idle hs)

/-- **No interleaving loses a blob.**  Whatever calls run at the same time, in every
    committed state each blob that a version, a staged chunk, a part or an extent names is
    there, and its count is the number of rows that name it. -/
theorem attach_gc_safe {H : Digests} {w : CallWorld} (h : Concurrent H w) {k : Bytes}
    (hk : w.committed.Mentions k) : ∃ b ∈ w.committed.blob.rows, b.sha256 = k ∧
      b.refcount = ((w.committed.object.rows.countP fun o => o.blobId = some k)
        + (w.committed.uploadChunk.rows.countP fun c => c.blobId = k)
        + (w.committed.uploadPart.rows.countP fun p => p.sha256 = k)
        + (w.committed.blobExtent.rows.countP fun e => e.sourceBlobId = k) : Nat) := by
  obtain ⟨s, hs, hrun⟩ := h
  have hrefs := (run_sound hs.refInv hrun).committed
  obtain ⟨b, hb, rfl⟩ := hrefs.present k (refs_pos_iff.mpr hk)
  exact ⟨b, hb, rfl, hrefs.exact b hb⟩

/-! ## 4. When a claimed blob vanishes -/

/-- Session `i` has seen that its blob exists, or has inserted it, and will not find it
    when it locks it: its next statement raises `… disappeared while being stored`. -/
def Vanishes (w : CallWorld) (i : Nat) : Prop :=
  ∃ v f row gone n k, w.session i = some v ∧ v.point = .locking f row gone n k ∧
    v.view.blob.lookup row.sha256 = none

/-- The step deletes no blob that a session has claimed and not yet locked. -/
def Spares (w w' : CallWorld) : Prop :=
  ∀ i v f row gone n k, w.session i = some v → v.point = .locking f row gone n k →
    w.committed.HasBlob row.sha256 → w'.committed.HasBlob row.sha256

theorem hasBlob_of_same (h : SameRow (.blob k) s t) (ht : t.HasBlob k) : s.HasBlob k := by
  have h : s.blob.lookup k = t.blob.lookup k := h
  rw [hasBlob_iff_lookup, h, ← hasBlob_iff_lookup]
  exact ht

variable {s' : Db}

theorem hasBlob_of_insertBlob {row : BlobRow} {n : Nat} (hy : Yields (insertBlob row) s n s') :
    s'.HasBlob row.sha256 := by
  rcases yields_insertBlob hy with ⟨_, rfl, h⟩ | ⟨_, _, blob, hrows, rfl⟩
  · exact h
  · refine ⟨row, ?_, rfl⟩
    change row ∈ blob.rows
    rw [hrows]
    exact List.mem_append_right _ List.mem_cons_self

/-- Every session that is about to lock a blob will find it. -/
def Claimed (w : CallWorld) : Prop :=
  ∀ i v f row gone n k, w.session i = some v → v.point = .locking f row gone n k →
    v.view.HasBlob row.sha256

theorem not_vanishes {w : CallWorld} (h : Claimed w) (i : Nat) : ¬ Vanishes w i := by
  rintro ⟨v, f, row, gone, n, k, hv, hp, hnone⟩
  obtain ⟨b, hb⟩ := hasBlob_iff_lookup.mp (h i v f row gone n k hv hp)
  rw [hnone] at hb
  exact absurd hb (by simp)

section Claims

variable {H : Digests} {w w' : CallWorld}

/-- **One step.**  A step that spares what is claimed leaves it claimed. -/
theorem claimed_step (hsound : w.Sound dbRows RefInv) (hs : (sessions H).Step w w')
    (hspares : Spares w w') (h : Claimed w) : Claimed w' := by
  intro j u f row gone n k hu hp
  cases hs with
  | start hnew hstart =>
    rcases ReadCommitted.World.session_opening hu with ⟨_, rfl⟩ | ⟨_, hu⟩
    · obtain ⟨_, _, q, _, _, hq⟩ := hstart
      exact absurd (hp.symm.trans hq) (by simp)
    · exact h j u f row gone n k hu hp
  | @statement i v e hv he hframe hheld hfree =>
    rcases ReadCommitted.World.session_after hu with ⟨_, rfl⟩ | ⟨_, v₀, hv₀, rfl⟩
    · -- only the insert leads to such a point
      have hp : e.point = .locking f row gone n k := hp
      change e.view.HasBlob row.sha256
      generalize hpoint : v.point = p at he
      cases he with
      | insert hfree hy =>
        injection hp with _ hrow
        subst hrow
        exact hasBlob_of_insertBlob hy
      | _ => exact absurd hp (by simp)
    · exact h j v₀ f row gone n k hv₀ hp
  | @commit i v w' hv hdone hcommitted hi hnone hsome =>
    obtain ⟨_, v', hv', _, _, hpoint, hover⟩ :=
      ReadCommitted.session_committed hi hnone hsome hu
    have hold := h j v' f row gone n k hv' (hpoint ▸ hp)
    by_cases hx : RowId.blob row.sha256 ∈ v'.writes
    · exact hasBlob_of_same (hover.1 _ hx) hold
    · have hbase : w.committed.HasBlob row.sha256 :=
        hasBlob_of_same ((dbRows.equiv _).symm (hsound.agrees hv' _ hx)) hold
      have hafter := hspares j v' f row gone n k hv' (hpoint ▸ hp) hbase
      rw [hcommitted] at hafter
      exact hasBlob_of_same (hover.2 _ hx) hafter
  | abort => exact h j u f row gone n k (ReadCommitted.World.session_without hu) hp

theorem vanishes_of_step (hsound : w.Sound dbRows RefInv) (hs : (sessions H).Step w w')
    (hspares : ¬ Spares w w') : ∃ i, Vanishes w' i := by
  unfold Spares at hspares
  push Not at hspares
  obtain ⟨j, v', f, row, gone, n, k, hv', hp, hhas, hlost⟩ := hspares
  cases hs with
  | start hnew hstart => exact absurd hhas hlost
  | statement hv he hframe hheld hfree => exact absurd hhas hlost
  | @commit i v w' hv hdone hcommitted hi hnone hsome =>
    have hj : j ≠ i := by
      rintro rfl
      obtain ⟨r, hr⟩ := hdone
      rw [hv] at hv'
      obtain rfl := Option.some.inj hv'
      exact absurd (hp.symm.trans hr) (by simp)
    obtain ⟨s, hs, hover⟩ := hsome j v' hj hv'
    rw [hcommitted] at hlost
    have hx : RowId.blob row.sha256 ∉ v'.writes := by
      intro hx
      -- the committed session cannot have written the row too
      have hnot : RowId.blob row.sha256 ∉ v.writes := fun hx' =>
        Set.disjoint_left.mp (hsound.exclusive hj hv' hv) (hsound.held hv' hx)
          (hsound.held hv hx')
      exact hlost (hasBlob_of_same (hsound.agrees hv _ hnot) hhas)
    refine ⟨j, _, f, row, gone, n, k, hs, hp, ?_⟩
    have hsame : s.blob.lookup row.sha256 = v.view.blob.lookup row.sha256 := hover.2 _ hx
    change s.blob.lookup row.sha256 = none
    rw [hsame, Option.eq_none_iff_forall_not_mem]
    intro b hb
    exact hlost (hasBlob_iff_lookup.mpr ⟨b, hb⟩)
  | abort => exact absurd hhas hlost

theorem run_claimed (hs : Reachable H s) (h : (sessions H).Run Spares (idle s) w) : Claimed w := by
  induction h with
  | start =>
    intro i v f row gone n k hv
    exact absurd hv (by simp [idle])
  | step hrun hstep hspares ih => exact claimed_step (run_sound hs.refInv hrun) hstep hspares ih

/-- As long as claimed blobs are spared, a session that has claimed one waits, goes on, or meets
    a row of another size: it does not come to `… disappeared while being stored`. -/
theorem claim_goes_on (hs : Reachable H s) (h : (sessions H).Run Spares (idle s) w)
    (hstep : (sessions H).Step w w') {i : Nat} {v v' : ReadCommitted.Session Db RowId Point}
    {f : PgError → PgError} {row : BlobRow} {gone : String} {n : Nat}
    {k : Nat × BlobStorage → Prog Reply} (hv : w.session i = some v)
    (hp : v.point = .locking f row gone n k) (hv' : w'.session i = some v') :
    v'.point = v.point ∨ (∃ storage, v'.point = .running (k (n, storage))) ∨
      v'.point = .failed (f (corrupted "SHA-256 collision with different blob size")) := by
  have hhas := hasBlob_iff_lookup.mp (run_claimed hs h i v f row gone n k hv hp)
  cases hstep with
  | start hnew hstart =>
    rcases ReadCommitted.World.session_opening hv' with ⟨rfl, _⟩ | ⟨_, hv'⟩
    · exact absurd (hnew.symm.trans hv) (by simp)
    · exact Or.inl (by rw [Option.some.inj (hv'.symm.trans hv)])
  | @statement j u e hu he hframe hheld hfree =>
    rcases ReadCommitted.World.session_after hv' with ⟨rfl, rfl⟩ | ⟨_, v₀, hv₀, rfl⟩
    · obtain rfl := Option.some.inj (hu.symm.trans hv)
      rw [hp] at he
      change e.point = _ ∨ (∃ storage, e.point = _) ∨ e.point = _
      generalize u.view = seen at he hhas
      cases he with
      | lock hb hsize hL => exact Or.inr (Or.inl ⟨_, rfl⟩)
      | collision hb hsize => exact Or.inr (Or.inr rfl)
      | vanished hb =>
        obtain ⟨b, hb'⟩ := hhas
        exact absurd (hb.symm.trans hb') (by simp)
    · exact Or.inl (by rw [Option.some.inj (hv₀.symm.trans hv)])
  | commit hu hdone hcommitted hi hnone hsome =>
    obtain ⟨_, v₀, hv₀, _, _, hpoint, _⟩ := ReadCommitted.session_committed hi hnone hsome hv'
    exact Or.inl (by rw [hpoint, Option.some.inj (hv₀.symm.trans hv)])
  | abort =>
    have hv' := ReadCommitted.World.session_without hv'
    exact Or.inl (by rw [Option.some.inj (hv'.symm.trans hv)])

end Claims

/-- **Writes and the collector.**  As long as no step deletes a blob that a session has
    claimed and not yet locked, no write fails with `… disappeared while being stored`; and
    such a step is what makes one fail. -/
theorem writes_survive_gc {H : Digests} {s : Db} (hs : Reachable H s) {w : CallWorld}
    (h : (sessions H).Run Spares (idle s) w) : (∀ i, ¬ Vanishes w i) ∧
      ∀ w', (sessions H).Step w w' → ((∃ i, Vanishes w' i) ↔ ¬ Spares w w') := by
  have hclaimed := run_claimed hs h
  have hsound := run_sound hs.refInv h
  refine ⟨not_vanishes hclaimed, ?_⟩
  intro w' hstep
  constructor
  · rintro ⟨i, hi⟩ hspares
    exact not_vanishes (claimed_step hsound hstep hspares hclaimed) i hi
  · exact vanishes_of_step hsound hstep

/-! ## 5. A put and a collector -/

/-- The statements of the program read, and record what is hashed. -/
def Prog.Reads {α : Type} : Prog α → Prop
  | .pure _ | .throw _ => True
  | .statement m _ k =>
      (∀ s b s', Yields m s b s' → s' = { s with hashed := s'.hashed }) ∧ ∀ b, (k b).Reads
  | .claim .. | .collect _ => False

theorem Prog.Reads.bind {α β : Type} {p : Prog α} {f : α → Prog β} (hp : p.Reads)
    (hf : ∀ a, (f a).Reads) : (p.bind f).Reads := by
  induction p with
  | pure a => exact hf a
  | throw e => trivial
  | statement m hm k ih => exact ⟨hp.1, fun b => ih b (hp.2 b)⟩
  | claim handler row hrow gone k ih => exact hp.elim
  | collect k ih => exact hp.elim

theorem Prog.Reads.mapError {α : Type} {p : Prog α} {f : PgError → PgError} (hp : p.Reads) :
    (p.mapError f).Reads := by
  induction p with
  | pure a => trivial
  | throw e => trivial
  | statement m hm k ih =>
    refine ⟨fun s b s' hy => hp.1 s b s' (yields_mapError.mp hy), fun b => ih b (hp.2 b)⟩
  | claim handler row hrow gone k ih => exact hp.elim
  | collect k ih => exact hp.elim

theorem exists_reading_prog {α : Type} {m : DbTx α} (h : Built Hashing m) :
    ∃ p : Prog α, p.body = m ∧ p.Reads := by
  induction h with
  | statement h =>
    cases h with
    | logHashed body =>
      refine ⟨.statement (logHashed body) (.logHashed body) .pure, by simp [Prog.body], ?_, ?_⟩
      · intro s b s' hy
        obtain rfl := yields_modify.mp hy
        rfl
      · exact fun _ => trivial
  | pure a => exact ⟨.pure a, rfl, trivial⟩
  | throw e => exact ⟨.throw e, rfl, trivial⟩
  | get =>
    refine ⟨.statement get .select .pure, by simp [Prog.body], ?_, fun _ => trivial⟩
    intro s b s' hy
    rw [(yields_get.mp hy).2]
  | bind _ _ ihm ihf =>
    obtain ⟨p, rfl, hp⟩ := ihm
    choose q hq hreads using ihf
    refine ⟨p.bind q, ?_, hp.bind hreads⟩
    rw [Prog.body_bind]
    simp only [hq]
  | mapError _ ih =>
    obtain ⟨p, rfl, hp⟩ := ih
    exact ⟨p.mapError _, Prog.body_mapError _ p, hp.mapError⟩

def putChecks (H : Digests) (c : Context) (r : PutRequest) : DbTx (Nat × Bytes) := do
  let body ← orRaise r.body ⟨.«22004», "object body cannot be NULL", none⟩
  let bucketId ← bucketIdForChild c r.bucket none
  let sha256 ← digest H body
  raiseIf (∃ sum ∈ r.checksumSha256, sum ≠ sha256) (badDigest "SHA-256 mismatch")
  let _ ← bucketIdForChild c r.bucket (some bucketId)
  validateKey r.key
  raiseIf (sha256.length ≠ 32) (invalidParameter "server SHA-256 is invalid")
  raiseIf ((metaOrEmpty r.meta).isObject = false) notAnObject
  raiseIf (maxObjectSize < body.length) entityTooLarge
  checkLatest bucketId r.key r.ifNoneMatch r.ifMatch
  raiseIf (sha256.length ≠ 32) (invalidParameter "SHA-256 must be 32 bytes")
  checkChunkSize c
  pure (bucketId, body)

def bodyRow (H : Digests) (c : Context) (body : Bytes) : BlobRow :=
  ⟨H.sha256 body, body.length, c.chunkSize.toNat,
    if (body.length : Int) ≤ max c.inlineThreshold 0 then .inline body else .chunked, 0, c.now⟩

def putRest (H : Digests) (c : Context) (r : PutRequest) (checked : Nat × Bytes)
    (claimed : Nat × BlobStorage) : DbTx Reply := do
  whenever (claimed.1 = 1 ∧ claimed.2 = .chunked ∧ 0 < checked.2.length)
    (insertChunks (bodyChunks (H.sha256 checked.2) checked.2 c.chunkSize.toNat))
  let row ← insertLatest c checked.1 r.key
    (some ⟨checked.2.length, lower (hex (H.md5 checked.2)), H.sha256 checked.2⟩) r.contentType
    (metaOrEmpty r.meta)
  pure (.object ⟨r.bucket, row⟩)

theorem put_eq (H : Digests) (c : Context) (r : PutRequest) :
    opBody H c (.put r) = putChecks H c r >>= fun checked =>
      claimBlob (bodyRow H c checked.2) "blob disappeared while being stored" >>=
        putRest H c r checked := by
  simp only [opBody, put, commitBodyLocked, ensureBlob, putChecks, bodyRow, digest, bind_assoc,
    pure_bind]
  rfl

theorem putChecks_hashing (H : Digests) (c : Context) (r : PutRequest) :
    Built Hashing (putChecks H c r) := by
  refine .bind (.orRaise _ _) fun _ => .bind ?_ fun _ => .bind (digest_hashing H _) fun _ => ?_
  · exact .bind (.bind .get fun _ => .bind (.orRaise _ _) fun _ => .pure _) fun _ =>
      .bind (.raiseIf _ _) fun _ => .pure _
  · refine .bind (.raiseIf _ _) fun _ => .bind ?_ fun _ => .bind (.raiseIf _ _) fun _ => ?_
    · exact .bind (.bind .get fun _ => .bind (.orRaise _ _) fun _ => .pure _) fun _ =>
        .bind (.raiseIf _ _) fun _ => .pure _
    · refine .bind (.raiseIf _ _) fun _ => .bind (.raiseIf _ _) fun _ => ?_
      refine .bind (.raiseIf _ _) fun _ => .bind (.bind .get fun _ => .reading _) fun _ => ?_
      exact .bind (.raiseIf _ _) fun _ => .bind (.raiseIf _ _) fun _ => .pure _

/-- `put` as a program that shows where it claims its blob. -/
theorem exists_put_prog (H : Digests) (c : Context) (r : PutRequest) :
    ∃ (p : Prog (Nat × Bytes)) (q : Nat × Bytes → Nat × BlobStorage → Prog Reply),
      p.body = putChecks H c r ∧ p.Reads ∧
      (p.bind fun checked => .claim id (bodyRow H c checked.2) rfl
        "blob disappeared while being stored" (q checked)).body = opBody H c (.put r) := by
  obtain ⟨p, hp, hreads⟩ := exists_reading_prog (putChecks_hashing H c r)
  have hrest : ∀ checked claimed, ∃ q : Prog Reply, q.body = putRest H c r checked claimed := by
    intro checked claimed
    apply exists_prog
    refine .bind (.whenever (.statement (.statement (.insertChunks _)))) fun _ => ?_
    exact .bind (quiet_atoms (.insertLatest _ _ _ _ _ _ trivial)) fun _ => .pure _
  choose q hq using hrest
  refine ⟨p, q, hp, hreads, ?_⟩
  rw [Prog.body_bind, hp, put_eq]
  simp only [Prog.body, mapError_id, hq]

theorem spares_of_same {w w' : CallWorld} (h : w'.committed.blob = w.committed.blob) :
    Spares w w' := by
  rintro i v f row gone n k _ _ ⟨b, hb, hk⟩
  exact ⟨b, by rw [h]; exact hb, hk⟩

theorem sameRow_hashed (x : RowId) (s : Db) (l : List Bytes) :
    SameRow x { s with hashed := l } s := by
  cases x <;> rfl

/-- **Reading.**  A session that reads gets through while nobody else is there. -/
theorem reads_run {H : Digests} {w₀ : CallWorld} {α : Type} {p : Prog α}
    (hp : p.Reads) {f : α → Prog Reply} {a : α} (hseq : c.withSequences s = c)
    (hy : Yields p.body s a s')
    (hrun : (sessions H).Run Spares w₀ (.pair c (some ⟨s, ∅, ∅, .running (p.bind f)⟩) none)) :
    (sessions H).Run Spares w₀ (.pair c (some ⟨s', ∅, ∅, .running (f a)⟩) none) ∧
      s' = { s with hashed := s'.hashed } := by
  induction p generalizing s with
  | pure b =>
    obtain ⟨rfl, rfl⟩ := yields_pure.mp hy
    exact ⟨hrun, rfl⟩
  | throw e => exact absurd hy yields_throw
  | statement m hm k ih =>
    obtain ⟨b, s₁, hm₁, hk⟩ := yields_bind.mp hy
    have hsame : s₁ = { s with hashed := s₁.hashed } := hp.1 s b s₁ hm₁
    have hseq₁ : c.withSequences s₁ = c := by
      rw [hsame]
      exact hseq
    have hframe : ∀ x ∉ (∅ : Set RowId), SameRow x s₁ s := by
      intro x _
      rw [hsame]
      exact sameRow_hashed x s _
    have hstep := ReadCommitted.System.Step.statement_zero (S := sessions H) (c := c) (b := none)
      (v := ⟨s, ∅, ∅, .running ((Prog.statement m hm k).bind f)⟩) hframe subset_rfl
      (Exec.statement hm₁) (Set.empty_disjoint _)
    have hrun₁ := hrun.step hstep (spares_of_same rfl)
    simp only [ReadCommitted.Session.apply, Set.empty_union] at hrun₁
    change (sessions H).Run Spares w₀ (.pair (c.withSequences s₁) _ none) at hrun₁
    rw [hseq₁] at hrun₁
    obtain ⟨hrun', hs'⟩ := ih b (hp.2 b) hseq₁ hk hrun₁
    refine ⟨hrun', ?_⟩
    rw [hsame] at hs'
    exact hs'
  | claim handler row hrow gone k ih => exact hp.elim
  | collect k ih => exact hp.elim

/-- **The race.**  A put has seen its blob, and a collector that has run since then is ready
    to commit. -/
theorem exists_race {H : Digests} {c c' : Context} {r : PutRequest} {s₁ : Db}
    {checked : Nat × Bytes} {limit : Int} {reply : Reply}
    (hchecks : Yields (putChecks H c r) s checked s₁) (hhas : s.HasBlob (H.sha256 checked.2))
    (hgc : Yields (opBody H c' (.gcBlobs limit)) s reply s') :
    ∃ p k a t W L, p.body = opBody H c (.put r) ∧
      (sessions H).Run Spares ((idle s).opening 0 (.running p))
        (.pair a (some ⟨t, ∅, ∅, .locking id (bodyRow H c checked.2)
            "blob disappeared while being stored" 0 k⟩)
          (some ⟨s', W, L, .running (.pure reply)⟩)) := by
  obtain ⟨p, q, hp, hreads, hbody⟩ := exists_put_prog H c r
  rw [← hp] at hchecks
  let prog : Prog Reply := p.bind fun checked => .claim id (bodyRow H c checked.2) rfl
    "blob disappeared while being stored" (q checked)
  have hstart : (sessions H).Run Spares ((idle s).opening 0 (.running prog))
      (.pair s (some ⟨s, ∅, ∅, .running prog⟩) none) := by
    rw [ReadCommitted.World.eq_pair (w := (idle s).opening 0 (.running prog)) fun _ => rfl]
    exact .start
  obtain ⟨hread, hs₁⟩ := reads_run hreads rfl hchecks hstart
  -- the row is there, so the `INSERT` does nothing
  have hinsert : Yields (insertBlob (bodyRow H c checked.2)) s₁ 0 s₁ := by
    have htaken : (bodyRow H c checked.2).sha256 ∈ s₁.blob.rows.map BlobRow.sha256 := by
      rw [hs₁]
      exact List.mem_map.mpr hhas
    simp only [insertBlob, yields_get_bind, Table.insert, dif_pos htaken, yields_pure]
    exact ⟨trivial, trivial⟩
  have hclaim := ReadCommitted.System.Step.statement_zero (S := sessions H) (c := s) (b := none)
    (v := ⟨s₁, ∅, ∅, .running (.claim id (bodyRow H c checked.2) rfl
      "blob disappeared while being stored" (q checked))⟩) (e := ⟨s₁, ∅, ∅, _⟩)
    (fun x _ => (dbRows.equiv x).refl _) subset_rfl
    (Exec.insert (Set.notMem_empty _) hinsert) (Set.empty_disjoint _)
  have hclaimed := hread.step hclaim (spares_of_same rfl)
  simp only [ReadCommitted.Session.apply, Set.empty_union] at hclaimed
  have hseq : dbRows.share s s₁ = s := by
    rw [hs₁]
    rfl
  change (sessions H).Run Spares _ (.pair (dbRows.share s s₁) _ none) at hclaimed
  rw [hseq] at hclaimed
  rw [← gcBlobsProg_body] at hgc
  have hopen := hclaimed.step (.start_one ⟨c', .gcBlobs limit, _, rfl, gcBlobsProg_body H c' limit,
    rfl⟩) (spares_of_same rfl)
  obtain ⟨a, t, W, L, hrun⟩ := prog_run (S := sessions H) id (fun he => he) Spares
    (spares_of_same rfl) hgc
  exact ⟨prog, q checked, a, t, W, L, hbody, hopen.trans hrun⟩

def putAgain : PutRequest :=
  ⟨"bucket".toList, "b".toList, some [1, 2, 3], none, none, none, none, none⟩

theorem race_unreferenced : ∃ p k a t s' W L reply,
    p.body = opBody Digests.sample Context.sample (.put putAgain) ∧
    (sessions Digests.sample).Run Spares ((idle unreferenced).opening 0 (.running p))
      (.pair a (some ⟨t, ∅, ∅, .locking id (bodyRow Digests.sample Context.sample [1, 2, 3])
          "blob disappeared while being stored" 0 k⟩) (some ⟨s', W, L, .running (.pure reply)⟩)) ∧
    s'.blob.lookup (truncated 32 [1, 2, 3]) = none := by
  obtain ⟨⟨b, body⟩, s₁, hchecks, hbody⟩ := exists_yields (s := unreferenced)
    (m := putChecks Digests.sample Context.sample putAgain) (P := fun r => r.1.2 = [1, 2, 3])
    (by decide +kernel)
  obtain ⟨reply, s', hgc, hgone⟩ := exists_yields (s := unreferenced)
    (m := opBody Digests.sample Context.sample (.gcBlobs 1))
    (P := fun r => (r.2.blob.lookup (truncated 32 [1, 2, 3])).isNone) (by decide +kernel)
  obtain rfl : body = [1, 2, 3] := of_decide_eq_true hbody
  have hhas : ∃ b ∈ unreferenced.blob.rows, b.sha256 = truncated 32 [1, 2, 3] := by decide +kernel
  obtain ⟨p, k, a, t, W, L, hp, hrun⟩ := exists_race hchecks hhas hgc
  exact ⟨p, k, a, t, s', W, L, reply, hp, hrun, Option.isNone_iff_eq_none.mp hgone⟩

theorem start_put {p : Prog Reply}
    (hp : p.body = opBody Digests.sample Context.sample (.put putAgain)) (s : Db) :
    (sessions Digests.sample).Run Spares (idle s) ((idle s).opening 0 (.running p)) := by
  apply ReadCommitted.System.Run.step .start
  · exact .start rfl ⟨Context.sample, .put putAgain, p, rfl, hp, rfl⟩
  · exact spares_of_same rfl

/-- A collector has started; the blob that it is after is put again before its first statement,
    which finds nothing. -/
theorem attach_gc_safe_race : ∃ w v, Concurrent Digests.sample w ∧ w.session 0 = some v ∧
    v.point = .running (.pure (.count 0)) ∧ (nextGarbage unreferenced.blob.rows fun _ => false).any
      (fun b => b.sha256 = truncated 32 [1, 2, 3]) = true ∧
    ∃ b ∈ w.committed.blob.rows, b.sha256 = truncated 32 [1, 2, 3] ∧ b.refcount
        = ((w.committed.object.rows.countP fun o => o.blobId = some (truncated 32 [1, 2, 3]))
          + (w.committed.uploadChunk.rows.countP fun c => c.blobId = truncated 32 [1, 2, 3])
          + (w.committed.uploadPart.rows.countP fun p => p.sha256 = truncated 32 [1, 2, 3])
          + (w.committed.blobExtent.rows.countP fun e => e.sourceBlobId = truncated 32 [1, 2, 3])
            : Nat) := by
  obtain ⟨reply, s', hput, hafter⟩ := exists_yields (s := unreferenced)
    (m := opBody Digests.sample Context.sample (.put putAgain))
    (P := fun r => (nextGarbage r.2.blob.rows fun _ => false).isNone &&
      r.2.object.rows.any fun o => o.blobId = some (truncated 32 [1, 2, 3])) (by decide +kernel)
  simp only [Bool.and_eq_true, Option.isNone_iff_eq_none, List.any_eq_true,
    decide_eq_true_eq] at hafter
  obtain ⟨hnone, hmention⟩ := hafter
  obtain ⟨p, hp⟩ := exists_prog_call Digests.sample Context.sample
    (show Op.isFork (.put putAgain) = false from rfl)
  rw [← hp] at hput
  obtain ⟨k, hk, hdone⟩ : ∃ k, gcBlobsProg 1 = .collect k ∧ k none = .pure (.count 0) :=
    ⟨_, rfl, rfl⟩
  have hopen : (sessions Digests.sample).Run (fun _ _ => True) (idle unreferenced) _ :=
    .step .start (.start_zero ⟨Context.sample, .gcBlobs 1, _, rfl, gcBlobsProg_body _ _ 1, rfl⟩)
      trivial
  have hbetween := call_between (S := sessions Digests.sample) id (fun he => he)
    (t := unreferenced) (q := .running (gcBlobsProg 1))
    ⟨Context.sample, .put putAgain, p, rfl, hp, rfl⟩ ⟨reply, rfl⟩ hput
  rw [hk] at hopen hbetween
  have hfinds : Exec ∅ ∅ (.running (.collect k)) s' ⟨s', ∅, ∅, .running (k (nextGarbage
      s'.blob.rows fun _ => false))⟩ := .collect (by simp) (by simp [hnone])
  have hlook := ReadCommitted.System.Step.statement_zero (S := sessions Digests.sample) (c := s')
    (b := none) (v := ⟨s', ∅, ∅, .running (.collect k)⟩) (e := ⟨s', ∅, ∅, _⟩)
    (fun x _ => (dbRows.equiv x).refl _) subset_rfl hfinds (Set.empty_disjoint _)
  have hconcurrent : Concurrent Digests.sample _ :=
    ⟨unreferenced, unreferenced_reachable, (hopen.trans hbetween).step hlook trivial⟩
  refine ⟨_, _, hconcurrent, rfl, ?_, by decide +kernel, ?_⟩
  · simp only [ReadCommitted.Session.apply, hnone, hdone]
  · exact attach_gc_safe hconcurrent (Or.inl hmention)

theorem writes_survive_gc_race : ∃ w w',
    (sessions Digests.sample).Run Spares (idle unreferenced) w ∧ (∀ i, ¬ Vanishes w i) ∧
      (sessions Digests.sample).Step w w' ∧ ¬ Spares w w' := by
  obtain ⟨p, k, a, t, s', W, L, reply, hp, hrun, hgone⟩ := race_unreferenced
  have hrun := (start_put hp unreferenced).trans hrun
  obtain ⟨hsafe, hnext⟩ := writes_survive_gc unreferenced_reachable hrun
  have hcommit := ReadCommitted.System.Step.commit_one (S := sessions Digests.sample) (c := a)
    (t := t) (L := ∅) (p := .locking id (bodyRow Digests.sample Context.sample [1, 2, 3])
      "blob disappeared while being stored" 0 k) (v := ⟨s', W, L, .running (.pure reply)⟩) ⟨_, rfl⟩
  refine ⟨_, _, hrun, hsafe, hcommit, (hnext _ hcommit).mp ⟨0, ?_⟩⟩
  exact ⟨_, _, _, _, _, _, rfl, rfl, hgone⟩

/-- **A write that fails.**  The put would succeed on its own; with a collector in the gap it
    ends in an internal error. -/
theorem gc_fails_write : ∃ s p w v, Reachable Digests.sample s ∧
    p.body = opBody Digests.sample Context.sample (.put putAgain) ∧
    (exec Digests.sample Context.sample (.put putAgain) s).1.isOk = true ∧
    (sessions Digests.sample).Run (fun _ _ => True) ((idle s).opening 0 (.running p)) w ∧
    w.session 0 = some v ∧ v.point = .failed (corrupted "blob disappeared while being stored") := by
  obtain ⟨p, k, a, t, s', W, L, reply, hp, hrun, hgone⟩ := race_unreferenced
  have hrun : (sessions Digests.sample).Run (fun _ _ => True)
      ((idle unreferenced).opening 0 (.running p)) _ := hrun.mono fun _ _ _ => trivial
  have hrun := hrun.step (.commit_one ⟨_, rfl⟩) trivial
  have hraise := ReadCommitted.System.Step.statement_zero (S := sessions Digests.sample) (c := s')
    (b := none) (v := ⟨s', ∅, ∅, .locking id (bodyRow Digests.sample Context.sample [1, 2, 3])
      "blob disappeared while being stored" 0 k⟩) (e := ⟨s', ∅, ∅, _⟩)
    (fun x _ => (dbRows.equiv x).refl _) subset_rfl (Exec.vanished hgone) (Set.empty_disjoint _)
  have hok : (exec Digests.sample Context.sample (.put putAgain) unreferenced).1.isOk = true := by
    decide +kernel
  exact ⟨unreferenced, p, _, _, unreferenced_reachable, hp, hok, hrun.step hraise trivial, rfl, rfl⟩

end Pgs3
