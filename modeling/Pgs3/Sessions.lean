import Pgs3.Foundation.ReadCommitted
import Pgs3.RefCounts

/-!
# Sessions: calls that run at the same time

The calls of the earlier modules are transactions that run one after the other.  Here several
of them run at the same time, one statement after the other in any order, under READ
COMMITTED as `Foundation.ReadCommitted` has it.

A call is a tree of statements (`Prog`), and the answers of the database decide which branch
it takes.  Two places of the source need more than a statement on what the session sees:

* the start of the three `_ensure_*` functions is an `INSERT … ON CONFLICT DO NOTHING`
  followed by a `SELECT … FOR UPDATE`, with a gap in between (`Point.locking`);
* `gc_blobs` passes over the rows that others have locked (`SKIP LOCKED`).

Advisory locks and the locks of `SELECT … FOR UPDATE` elsewhere are left out.  They only take
interleavings away, and what is proved here holds without them.
-/

namespace Pgs3

open Foundation Foundation.Tx

/-! ## 1. Rows -/

/-- A row of a table, by its primary key. -/
inductive RowId where
  | bucket (id : Nat)
  | blob (k : Bytes)
  | chunk (id : Bytes × Nat)
  | blobExtent (id : Bytes × Nat)
  | object (id : Nat × Text × Nat)
  | upload (id : Uuid)
  | uploadChunk (id : Uuid × Nat × Nat)
  | uploadPart (id : Uuid × Nat)

/-- The two databases have the same row there, or both have none. -/
def SameRow : RowId → Db → Db → Prop
  | .bucket id, s, t => s.bucket.lookup id = t.bucket.lookup id
  | .blob k, s, t => s.blob.lookup k = t.blob.lookup k
  | .chunk id, s, t => s.chunk.lookup id = t.chunk.lookup id
  | .blobExtent id, s, t => s.blobExtent.lookup id = t.blobExtent.lookup id
  | .object id, s, t => s.object.lookup id = t.object.lookup id
  | .upload id, s, t => s.upload.lookup id = t.upload.lookup id
  | .uploadChunk id, s, t => s.uploadChunk.lookup id = t.uploadChunk.lookup id
  | .uploadPart id, s, t => s.uploadPart.lookup id = t.uploadPart.lookup id

def Db.withSequences (s t : Db) : Db :=
  { s with bucketIdSeq := t.bucketIdSeq, objectVersionIdSeq := t.objectVersionIdSeq }

def dbRows : ReadCommitted.Rows Db RowId where
  Same := SameRow
  equiv := fun x => by cases x <;> exact ⟨fun _ => rfl, Eq.symm, Eq.trans⟩
  share := Db.withSequences
  same_share := fun x s t => by cases x <;> rfl

/-! ## 2. Programs -/

/-- `DELETE FROM pgs3.blob WHERE sha256 = k AND refcount = 0`, with `ROW_COUNT`. -/
def deleteGarbage (k : Bytes) : DbTx Nat := do
  match (← get).blob.lookup k with
  | none => pure 0
  | some b =>
      if b.refcount = 0 then do
        deleteBlob k
        pure 1
      else pure 0

/-- The statements that calls are made of, apart from the claim of a blob. -/
inductive SqlStatement : (α : Type) → DbTx α → Prop
  | select : SqlStatement Db get
  | insertChunks (rows : List ChunkRow) : SqlStatement Unit (insertChunks rows)
  | insertBlobExtents (rows : List BlobExtentRow) : SqlStatement Unit (insertBlobExtents rows)
  | deleteBlob (k : Bytes) : SqlStatement Unit (deleteBlob k)
  | deleteGarbage (k : Bytes) : SqlStatement Nat (deleteGarbage k)
  | insertObject (row : ObjectRow) : SqlStatement Unit (insertObject row)
  | updateIsLatest (sel : ObjectRow → Bool) (v : Bool) : SqlStatement Unit (updateIsLatest sel v)
  | deleteObjects (sel : ObjectRow → Bool) : SqlStatement Unit (deleteObjects sel)
  | insertUpload (row : UploadRow) : SqlStatement Unit (insertUpload row)
  | updateUpload (u : Uuid) (f : UploadRow → UploadRow)
      (hf : ∀ r, (f r).uploadId = r.uploadId) : SqlStatement Unit (updateUpload u f hf)
  | deleteUpload (u : Uuid) : SqlStatement Unit (deleteUpload u)
  | upsertUploadChunk (row : UploadChunkRow) : SqlStatement Unit (upsertUploadChunk row)
  | deleteUploadChunks (sel : UploadChunkRow → Bool) : SqlStatement Unit (deleteUploadChunks sel)
  | upsertUploadPart (row : UploadPartRow) : SqlStatement Unit (upsertUploadPart row)
  | deleteUploadParts (sel : UploadPartRow → Bool) : SqlStatement Unit (deleteUploadParts sel)
  | insertBucket (name : Text) (owner : RoleName) (now : Timestamp) (j : Jsonb) :
      SqlStatement Nat (insertBucket name owner now j)
  | deleteBucketRow (id : Nat) : SqlStatement Unit (deleteBucketRow id)
  | nextVersionId : SqlStatement Nat nextVersionId
  | logHashed (body : Bytes) : SqlStatement Unit (logHashed body)
  | mapError {α : Type} {m : DbTx α} (f : PgError → PgError) (h : SqlStatement α m) :
      SqlStatement α (mapError f m)

/-- A call, statement by statement.  `handler` is what the `EXCEPTION` blocks around a claim
    make of its errors. -/
inductive Prog (α : Type) : Type 1
  | pure (a : α)
  | throw (e : PgError)
  | statement {β : Type} (m : DbTx β) (hm : SqlStatement β m) (k : β → Prog α)
  | claim (handler : PgError → PgError) (row : BlobRow) (hrow : row.refcount = 0)
      (gone : String) (k : Nat × BlobStorage → Prog α)
  | collect (k : Option BlobRow → Prog α)

namespace Prog

variable {α β : Type}

def body : Prog α → DbTx α
  | .pure a => Pure.pure a
  | .throw e => MonadExcept.throw e
  | .statement m _ k => m >>= fun b => (k b).body
  | .claim handler row _ gone k => mapError handler (claimBlob row gone) >>= fun r => (k r).body
  | .collect k => get >>= fun s => (k (nextGarbage s.blob.rows fun _ => false)).body

def bind : Prog α → (α → Prog β) → Prog β
  | .pure a, f => f a
  | .throw e, _ => .throw e
  | .statement m hm k, f => .statement m hm fun b => (k b).bind f
  | .claim handler row hrow gone k, f => .claim handler row hrow gone fun r => (k r).bind f
  | .collect k, f => .collect fun b => (k b).bind f

theorem body_bind (p : Prog α) (f : α → Prog β) :
    (p.bind f).body = p.body >>= fun a => (f a).body := by
  induction p with
  | pure a => simp [bind, body]
  | throw e => rfl
  | statement m hm k ih => simp only [bind, body, ih, bind_assoc]
  | claim handler row hrow gone k ih => simp only [bind, body, ih, bind_assoc]
  | collect k ih => simp only [bind, body, ih, bind_assoc]

def mapError (f : PgError → PgError) : Prog α → Prog α
  | .pure a => .pure a
  | .throw e => .throw (f e)
  | .statement m hm k => .statement (Tx.mapError f m) (.mapError f hm) fun b => (k b).mapError f
  | .claim handler row hrow gone k => .claim (f ∘ handler) row hrow gone fun r => (k r).mapError f
  | .collect k => .collect fun b => (k b).mapError f

theorem body_mapError (f : PgError → PgError) (p : Prog α) :
    (p.mapError f).body = Tx.mapError f p.body := by
  induction p with
  | pure a => rfl
  | throw e => rfl
  | statement m hm k ih => simp only [mapError, body, ih, mapError_bind]
  | claim handler row hrow gone k ih =>
    simp only [mapError, body, ih, mapError_bind, mapError_mapError]
  | collect k ih =>
    simp only [mapError, body, ih, mapError_bind]
    rfl

end Prog

/-! ## 3. Every call is a program -/

/-- A statement, or the claim of a new blob. -/
inductive Atom : (α : Type) → DbTx α → Prop
  | statement {α : Type} {m : DbTx α} (h : SqlStatement α m) : Atom α m
  | claimBlob (row : BlobRow) (hrow : row.refcount = 0) (gone : String) :
      Atom (Nat × BlobStorage) (claimBlob row gone)

theorem exists_prog {α : Type} {m : DbTx α} (h : Built Atom m) : ∃ p : Prog α, p.body = m := by
  induction h with
  | statement h =>
    cases h with
    | statement h => exact ⟨.statement _ h .pure, by simp [Prog.body]⟩
    | claimBlob row hrow gone =>
      refine ⟨.claim id row hrow gone .pure, ?_⟩
      simp [Prog.body, mapError_id]
  | pure a => exact ⟨.pure a, rfl⟩
  | throw e => exact ⟨.throw e, rfl⟩
  | get => exact ⟨.statement get .select .pure, by simp [Prog.body]⟩
  | bind _ _ ihm ihf =>
    obtain ⟨p, rfl⟩ := ihm
    choose q hq using ihf
    refine ⟨p.bind q, ?_⟩
    rw [Prog.body_bind]
    simp only [hq]
  | @mapError α f m _ ih =>
    obtain ⟨p, rfl⟩ := ih
    exact ⟨p.mapError f, Prog.body_mapError f p⟩

/-- The steps of every call but `fork_bucket`. -/
def Permits.noForks : Permits := ⟨False, True, fun _ => True⟩

theorem quiet_atoms {α : Type} {m : DbTx α} (h : QuietWith .noForks α m) : Built Atom m := by
  cases h with
  | insertLatest c b k p t j =>
    refine .bind (.statement (.statement (.updateIsLatest _ _))) fun _ => ?_
    refine .bind (.statement (.statement .nextVersionId)) fun _ => ?_
    exact .bind (.statement (.statement (.insertObject _))) fun _ => .pure _
  | removeVersion b k v =>
    refine .bind .get fun s => ?_
    cases s.object.rows.find? (isVersionOf b k v) with
    | none => exact .pure _
    | some o =>
      refine .bind (.statement (.statement (.deleteObjects _))) fun _ => .bind .get fun _ => ?_
      exact .bind (.whenever (.statement (.statement (.updateIsLatest _ _)))) fun _ => .pure _
  | forkInto c b name j h => exact h.elim
  | insertUpload row => exact .statement (.statement (.insertUpload row))
  | updateUpload u f hf => exact .statement (.statement (.updateUpload u f hf))
  | deleteUpload u => exact .statement (.statement (.deleteUpload u))
  | deleteUploadChunks sel => exact .statement (.statement (.deleteUploadChunks sel))
  | deleteUploadParts sel => exact .statement (.statement (.deleteUploadParts sel))
  | insertBucket name owner now j => exact .statement (.statement (.insertBucket name owner now j))
  | deleteBucketRow id => exact .statement (.statement (.deleteBucketRow id))

theorem step_atoms {α : Type} {m : DbTx α} (h : StepWith .noForks α m) : Built Atom m := by
  cases h with
  | storeComposite c sha256 size gone sources =>
    refine .bind (.statement (.claimBlob _ rfl _)) fun _ => ?_
    exact .bind (.whenever (.statement (.statement (.insertBlobExtents _)))) fun _ => .pure _
  | shallow h =>
    cases h with
    | quiet h => exact quiet_atoms h
    | hashing h =>
      cases h with
      | logHashed body => exact .statement (.statement (.logHashed body))
    | ensureBlob c sha256 body =>
      refine .bind (.raiseIf _ _) fun _ => .bind (.raiseIf _ _) fun _ => ?_
      refine .bind (.statement (.claimBlob _ rfl _)) fun _ => ?_
      exact .bind (.whenever (.statement (.statement (.insertChunks _)))) fun _ => .pure _
    | upsertUploadChunk row => exact .statement (.statement (.upsertUploadChunk row))
    | upsertUploadPart row _ => exact .statement (.statement (.upsertUploadPart row))
    | deleteBlob k => exact .statement (.statement (.deleteBlob k))

/-- **Every call but `fork_bucket` is a program.** -/
theorem exists_prog_call (H : Digests) (c : Context) {op : Op} (hop : op.isFork = false) :
    ∃ p : Prog Reply, p.body = opBody H c op := by
  have hsteps : Built (StepWith .noForks) (opBody H c op) :=
    opBody_builtWith H c (fun h => absurd h (by simp [hop])) trivial fun _ => trivial
  exact exists_prog (hsteps.flatten fun _ _ => step_atoms)

/-- The loop of `gc_blobs`, with `limit - v_count` turns left: lock the next blob without
    references, then delete it.  The row is locked, so the second test of `refcount` never
    fails, and a turn without a deletion is only there for the tree. -/
def gcProg : Nat → Prog Nat
  | 0 => .pure 0
  | n + 1 => .collect fun found =>
      match found with
      | none => .pure 0
      | some b => .statement (deleteGarbage b.sha256) (.deleteGarbage _) fun deleted =>
          (gcProg n).bind fun more => .pure (more + deleted)

theorem deleteGarbage_eq {s : Db} {b : BlobRow} (hb : b ∈ s.blob.rows) (h0 : b.refcount = 0) :
    (deleteGarbage b.sha256).run s = (deleteBlob b.sha256 >>= fun _ => pure 1).run s := by
  have hlookup : s.blob.lookup b.sha256 = some b := Table.lookup_of_mem hb
  unfold deleteGarbage
  rw [StateT.run_bind]
  change (match s.blob.lookup b.sha256 with
    | none => pure 0
    | some b => if b.refcount = 0 then _ else pure 0 : DbTx Nat).run s = _
  rw [hlookup]
  simp only [h0, if_true]

theorem gcProg_body (n : Nat) : (gcProg n).body = gcLoop (fun _ => false) n := by
  induction n with
  | zero => rfl
  | succ n ih =>
    funext s
    unfold gcProg gcLoop Prog.body
    change (Prog.body _).run s = StateT.run (match nextGarbage s.blob.rows _ with
      | none => pure 0
      | some b => deleteBlob b.sha256 >>= fun _ => gcLoop _ n >>= fun more => pure (more + 1)) s
    cases hfound : nextGarbage s.blob.rows fun _ => false with
    | none => rfl
    | some b =>
      obtain ⟨hb, h0, _⟩ := nextGarbage_mem hfound
      have hloop : (gcLoop (fun _ => false) n >>= fun more => pure (more + 1))
          = ((gcProg n).bind fun more => .pure (more + 1)).body := by
        rw [Prog.body_bind, ih]
        rfl
      simp only [Prog.body, hloop]
      rw [StateT.run_bind, deleteGarbage_eq hb h0]
      simp only [StateT.run_bind, bind_assoc, StateT.run_pure, pure_bind]

def gcBlobsProg (limit : Int) : Prog Reply :=
  if limit < 1 ∨ 100000 < limit then .throw (invalidParameter "invalid GC limit")
  else (gcProg limit.toNat).bind fun n => .pure (.count n)

theorem gcBlobsProg_body (H : Digests) (c : Context) (limit : Int) :
    (gcBlobsProg limit).body = opBody H c (.gcBlobs limit) := by
  unfold gcBlobsProg
  simp only [opBody, gcBlobs, gcBlobsSkipping, raiseIf, bind_assoc]
  split
  · rfl
  · rw [Prog.body_bind, gcProg_body, pure_bind]
    rfl

/-! ## 4. The system -/

inductive Point : Type 1
  | running (p : Prog Reply)
  /-- between `INSERT … ON CONFLICT DO NOTHING` and `SELECT … FOR UPDATE` -/
  | locking (handler : PgError → PgError) (row : BlobRow) (gone : String) (inserted : Nat)
      (k : Nat × BlobStorage → Prog Reply)
  | failed (e : PgError)

/-- The next statement of a session.  Which rows it writes and locks beyond what is said here
    is up to the run, within the rules of locking. -/
inductive Exec (locked written : Set RowId) :
    Point → Db → ReadCommitted.Effect Db RowId Point → Prop
  | statement {β : Type} {m : DbTx β} {hm : SqlStatement β m} {k : β → Prog Reply} {s s' : Db}
      {b : β} {W L : Set RowId} (hy : Yields m s b s') :
      Exec locked written (.running (.statement m hm k)) s ⟨s', W, L, .running (k b)⟩
  | raise {β : Type} {m : DbTx β} {hm : SqlStatement β m} {k : β → Prog Reply} {s : Db}
      {e : PgError} (he : m.run s = .error e) :
      Exec locked written (.running (.statement m hm k)) s ⟨s, ∅, ∅, .failed e⟩
  | throw {e : PgError} {s : Db} :
      Exec locked written (.running (.throw e)) s ⟨s, ∅, ∅, .failed e⟩
  -- `ON CONFLICT` waits for a transaction that is changing the row
  | insert {f : PgError → PgError} {row : BlobRow} {hrow : row.refcount = 0} {gone : String}
      {k : Nat × BlobStorage → Prog Reply} {s s' : Db} {n : Nat} {W L : Set RowId}
      (hfree : .blob row.sha256 ∉ written) (hy : Yields (insertBlob row) s n s') :
      Exec locked written (.running (.claim f row hrow gone k)) s
        ⟨s', W, L, .locking f row gone n k⟩
  | lock {f : PgError → PgError} {row b : BlobRow} {gone : String} {n : Nat}
      {k : Nat × BlobStorage → Prog Reply} {s : Db} {L : Set RowId}
      (hb : s.blob.lookup row.sha256 = some b) (hsize : b.size = row.size)
      (hL : .blob row.sha256 ∈ L) :
      Exec locked written (.locking f row gone n k) s ⟨s, ∅, L, .running (k (n, b.storage))⟩
  | collision {f : PgError → PgError} {row b : BlobRow} {gone : String} {n : Nat}
      {k : Nat × BlobStorage → Prog Reply} {s : Db}
      (hb : s.blob.lookup row.sha256 = some b) (hsize : b.size ≠ row.size) :
      Exec locked written (.locking f row gone n k) s
        ⟨s, ∅, ∅, .failed (f (corrupted "SHA-256 collision with different blob size"))⟩
  | vanished {f : PgError → PgError} {row : BlobRow} {gone : String} {n : Nat}
      {k : Nat × BlobStorage → Prog Reply} {s : Db} (hb : s.blob.lookup row.sha256 = none) :
      Exec locked written (.locking f row gone n k) s ⟨s, ∅, ∅, .failed (f (corrupted gone))⟩
  | collect {k : Option BlobRow → Prog Reply} {s : Db} {skip : Bytes → Bool} {L : Set RowId}
      (hskip : ∀ x, skip x = true ↔ .blob x ∈ locked)
      (hL : ∀ b, nextGarbage s.blob.rows skip = some b → .blob b.sha256 ∈ L) :
      Exec locked written (.running (.collect k)) s
        ⟨s, ∅, L, .running (k (nextGarbage s.blob.rows skip))⟩

/-- The sessions that make calls other than `fork_bucket`, each cut into statements in any
    way that is right when nobody else is there. -/
def sessions (H : Digests) : ReadCommitted.System Db RowId Point where
  rows := dbRows
  Starts := fun p => ∃ c op q, Op.isFork op = false ∧ q.body = opBody H c op ∧ p = .running q
  Done := fun p => ∃ r, p = .running (.pure r)
  Exec := Exec

/-! ## 5. A call between two statements of another session -/

section Calls

variable {π : Type 1} {S : ReadCommitted.System Db RowId π} (point : Point → π)
  (hexec : ∀ {locked written p s e}, Exec locked written p s e →
    S.Exec locked written (point p) s ⟨e.view, e.writes, e.locks, point e.point⟩)

include hexec

theorem call_step {c t s : Db} {q : π} {W L : Set RowId} {p : Point}
    {e : ReadCommitted.Effect Db RowId Point} (he : Exec ∅ ∅ p s e)
    (hframe : ∀ x ∉ e.writes, S.rows.Same x e.view s) (hheld : e.writes ⊆ e.locks) :
    ∃ t' W' L', S.Step (.pair c (some ⟨t, ∅, ∅, q⟩) (some ⟨s, W, L, point p⟩))
      (.pair (S.rows.share c e.view) (some ⟨t', ∅, ∅, q⟩) (some ⟨e.view, W', L', point e.point⟩)) :=
  ⟨_, _, _, .statement_one (a := some ⟨t, ∅, ∅, q⟩) (v := ⟨s, W, L, point p⟩) hframe hheld
    (hexec he) (Set.disjoint_empty _)⟩

/-- A session that holds nothing is no obstacle: the statements of a call come to what the
    call does in one go. -/
theorem prog_run (ok : ReadCommitted.World Db RowId π → ReadCommitted.World Db RowId π → Prop)
    (hok : ∀ {c s v₀ v₁ u₀ u₁}, ok (.pair c v₀ v₁) (.pair (S.rows.share c s) u₀ u₁))
    {p : Prog Reply} {c t s s' : Db} {q : π} {W L : Set RowId} {r : Reply}
    (hy : Yields p.body s r s') : ∃ c' t' W' L', S.Run ok
      (.pair c (some ⟨t, ∅, ∅, q⟩) (some ⟨s, W, L, point (.running p)⟩))
      (.pair c' (some ⟨t', ∅, ∅, q⟩) (some ⟨s', W', L', point (.running (.pure r))⟩)) := by
  have hall : ∀ {s s' : Db}, ∀ x ∉ Set.univ, S.rows.Same x s' s := fun x hx => (hx trivial).elim
  have hsame : ∀ {s : Db}, ∀ x ∉ (∅ : Set RowId), S.rows.Same x s s := fun x _ =>
    (S.rows.equiv x).refl _
  induction p generalizing c t s W L with
  | pure a =>
    obtain ⟨rfl, rfl⟩ := yields_pure.mp hy
    exact ⟨c, t, W, L, .start⟩
  | throw e => exact absurd hy yields_throw
  | statement m hm k ih =>
    obtain ⟨b, s₁, hm₁, hk⟩ := yields_bind.mp hy
    have hmove : Exec ∅ ∅ (.running (.statement m hm k)) s
        ⟨s₁, .univ, .univ, .running (k b)⟩ := .statement hm₁
    obtain ⟨_, _, _, hstep⟩ := call_step point hexec (c := c) (t := t) (q := q) (W := W) (L := L)
      hmove hall subset_rfl
    obtain ⟨c', t', W', L', hrest⟩ := ih b hk
    exact ⟨c', t', W', L', .trans (.step .start hstep hok) hrest⟩
  | claim f row hrow gone k ih =>
    obtain ⟨claimed, s₁, hclaim, hk⟩ := yields_bind.mp hy
    obtain ⟨n, s₂, hinsert, hlock⟩ := yields_bind.mp (yields_mapError.mp hclaim)
    simp only [yields_get_bind, yields_orRaise_bind, yields_raiseIf_bind, yields_pure] at hlock
    obtain ⟨b, hb, hsize, rfl, rfl⟩ := hlock
    have hmove : Exec ∅ ∅ (.running (.claim f row hrow gone k)) s
        ⟨s₁, .univ, .univ, .locking f row gone n k⟩ := .insert (Set.notMem_empty _) hinsert
    have hmove₂ : Exec ∅ ∅ (.locking f row gone n k) s₁
        ⟨s₁, ∅, .univ, .running (k (n, b.storage))⟩ := .lock hb (not_not.mp hsize) (Set.mem_univ _)
    obtain ⟨_, _, _, hfirst⟩ := call_step point hexec (c := c) (t := t) (q := q) (W := W) (L := L)
      hmove hall subset_rfl
    obtain ⟨_, _, _, hsecond⟩ := call_step point hexec (q := q) hmove₂ hsame (Set.empty_subset _)
    obtain ⟨c', t', W', L', hrest⟩ := ih _ hk
    exact ⟨c', t', W', L', .trans (.step (.step .start hfirst hok) hsecond hok) hrest⟩
  | collect k ih =>
    have hmove : Exec ∅ ∅ (.running (.collect k)) s ⟨s, ∅, .univ, .running (k (nextGarbage
        s.blob.rows fun _ => false))⟩ := .collect (by simp) fun _ _ => Set.mem_univ _
    obtain ⟨_, _, _, hstep⟩ := call_step point hexec (c := c) (t := t) (q := q) (W := W) (L := L)
      hmove hsame (Set.empty_subset _)
    obtain ⟨c', t', W', L', hrest⟩ := ih _ (yields_get_bind.mp hy)
    exact ⟨c', t', W', L', .trans (.step .start hstep hok) hrest⟩

/-- **A call in between.**  It starts, runs and commits while another session, which holds
    nothing, waits; that session then sees what the call did. -/
theorem call_between {p : Prog Reply} {t s s' : Db} {q : π} {r : Reply}
    (hstarts : S.Starts (point (.running p))) (hdone : S.Done (point (.running (.pure r))))
    (hy : Yields p.body s r s') : S.Run (fun _ _ => True) (.pair s (some ⟨t, ∅, ∅, q⟩) none)
      (.pair s' (some ⟨s', ∅, ∅, q⟩) none) := by
  obtain ⟨c', t', W', L', hrun⟩ := prog_run point hexec (fun _ _ => True) trivial hy
  exact .step (.trans (.step .start (.start_one hstarts) trivial) hrun) (.commit_one hdone) trivial

end Calls

end Pgs3
