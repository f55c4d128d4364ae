import Pgs3.Concurrent.Calls
import Pgs3.Api
import Pgs3.ObjectSpecs

/-!
# A call that runs alone

The calls are written down twice: as transactions on the whole database, and with their locks
on the catalog.  Run alone, the second does what the first does: where the transaction of a
direct object call commits, the body with locks commits the catalog of the same database.
-/

namespace Pgs3.Concurrent

open Foundation Foundation.Tx Foundation.Locks
open Foundation.Locks.Call (view next emit ask)

/-! ## 1. What a database shows -/

/-- The part of the database that concurrent calls share. -/
def catalogOf (s : Db) : Catalog :=
  ⟨s.bucket.rows, s.object.rows, s.upload.rows, s.uploadChunk.rows, s.uploadPart.rows,
    s.blob.rows.map fun b => (b.sha256, b.size)⟩

/-- The catalog, and the number that each sequence gives next. -/
def seen (s : Db) : Seen system :=
  (catalogOf s, fun
    | .bucketId => s.bucketIdSeq + 1
    | .versionId => s.objectVersionIdSeq + 1)

theorem seen_addRefs (s : Db) (d : Bytes → Int) : seen (s.addRefs d) = seen s := by
  simp only [seen, catalogOf, Db.addRefs, Table.update, List.map_map]
  rfl

theorem sizeOf_catalogOf (s : Db) (k : Bytes) :
    (catalogOf s).sizeOf k = (s.blob.lookup k).map (·.size) := by
  simp only [Catalog.sizeOf, catalogOf, Table.lookup, List.find?_map, Option.map_map]
  rfl

/-- Where `m` ends, `p` run alone ends with what `f` keeps of the result, and sees what is
    there then. -/
def Mirrors {α β : Type} (m : DbTx α) (p : CatalogCall β) (f : α → β) (s : Db) : Prop :=
  ∀ counted a s', Yields m s a s' → p.alone (engine counted) (seen s) = some (f a, seen s')

namespace Mirrors

variable {α β γ δ : Type} {s : Db} {m : DbTx α} {p : CatalogCall β} {f : α → β}
  {k : α → DbTx γ} {g : β → CatalogCall δ} {n : DbTx γ} {q : CatalogCall δ} {h : γ → δ}

theorem bind (hm : Mirrors m p f s) (hk : ∀ a s₁, Yields m s a s₁ → Mirrors (k a) (g (f a)) h s₁) :
    Mirrors (m >>= k) (p >>= g) h s := by
  intro counted c s' hy
  obtain ⟨a, s₁, ha, hc⟩ := yields_bind.mp hy
  rw [Call.alone_bind, hm counted a s₁ ha]
  exact hk a s₁ ha counted c s' hc

/-- A statement that does not show in the catalog. -/
theorem hidden (hm : ∀ a s₁, Yields m s a s₁ → seen s₁ = seen s)
    (hk : ∀ a s₁, Yields m s a s₁ → Mirrors (k a) q h s₁) : Mirrors (m >>= k) q h s := by
  intro counted c s' hy
  obtain ⟨a, s₁, ha, hc⟩ := yields_bind.mp hy
  rw [← hm a s₁ ha]
  exact hk a s₁ ha counted c s' hc

theorem get {k : Db → DbTx γ} (hk : Mirrors (k s) q h s) : Mirrors (get >>= k) q h s :=
  fun counted c s' hy => hk counted c s' (yields_get_bind.mp hy)

theorem view {g : Catalog → CatalogCall δ} (hk : Mirrors n (g (catalogOf s)) h s) :
    Mirrors n (view >>= g) h s :=
  hk

theorem locks {p : CatalogCall Unit} {g : Unit → CatalogCall δ}
    (hp : ∀ counted, p.alone (engine counted) (seen s) = some ((), seen s))
    (hk : Mirrors n (g ()) h s) : Mirrors n (p >>= g) h s := by
  intro counted
  rw [Call.alone_bind, hp]
  exact hk counted

theorem ask {r : CatalogLock} {mode : LockMode} {g : Unit → CatalogCall δ}
    (hk : Mirrors n (g ()) h s) : Mirrors n (ask r mode >>= g) h s :=
  hk

theorem pure {a : α} {b : β} (hb : b = f a) : Mirrors (pure a) (pure b) f s := by
  intro counted a' s' hy
  obtain ⟨rfl, rfl⟩ := yields_pure.mp hy
  rw [hb]
  rfl

theorem check {c c' : Prop} [Decidable c] [Decidable c'] {e e' : PgError}
    {k : Unit → DbTx γ} {g : Unit → CatalogCall δ} (hc : c' → c)
    (hk : Mirrors (k ()) (g ()) h s) :
    Mirrors (Tx.raiseIf c e >>= k) (Call.raiseIf c' e' >>= g) h s := by
  intro counted a s' hy
  obtain ⟨hno, hy⟩ := yields_raiseIf_bind.mp hy
  rw [Call.raiseIf, if_neg (mt hc hno)]
  exact hk counted a s' hy

theorem orRaise {o : Option α} {e e' : PgError} :
    Mirrors (Tx.orRaise o e) (Call.orRaise o e') id s := by
  intro counted a s' hy
  obtain ⟨rfl, rfl⟩ := yields_orRaise.mp hy
  rfl

theorem ofExcept {r : Except PgError α} : Mirrors (reading fun _ => r) (Call.ofExcept r) id s := by
  intro counted a s' hy
  obtain ⟨rfl, rfl⟩ := yields_reading.mp hy
  rfl

/-- The last statement of a call; its result is dropped. -/
theorem last {p : CatalogCall Unit} {b : α → γ} (hm : Mirrors m p (fun _ => ()) s) :
    Mirrors (m >>= fun a => Pure.pure (b a)) p (fun _ => ()) s := by
  intro counted c s' hy
  obtain ⟨a, s₁, ha, hc⟩ := yields_bind.mp hy
  obtain ⟨-, rfl⟩ := yields_pure.mp hc
  exact hm counted a _ ha

end Mirrors

/-! ## 2. Statements -/

variable {s : Db} {c : Context} {name bucket key : Text} {b : Nat} {k : Bytes}

theorem bucketIdOf_mirrors : Mirrors (Pgs3.bucketIdOf c name) (bucketIdOf c name) id s :=
  .get (.view (.bind .orRaise fun _ _ _ => .pure rfl))

theorem bucketIdForChild_mirrors {expected : Option Nat} :
    Mirrors (Pgs3.bucketIdForChild c name expected) (bucketIdForChild c name expected) id s :=
  .ask (.bind bucketIdOf_mirrors fun _ _ _ => .check id (.pure rfl))

theorem checkLatest_mirrors {ifNoneMatch ifMatch : Option Text} :
    Mirrors (Pgs3.checkLatest b key ifNoneMatch ifMatch) (checkLatest b key ifNoneMatch ifMatch)
      id s :=
  .get (.view .ofExcept)

theorem claimBlob_mirrors {row : BlobRow} {gone : String} :
    Mirrors (Pgs3.claimBlob row gone) (claimBlob row.sha256 row.size) (fun r => decide (r.1 = 1))
      s := by
  intro counted r s' hy
  simp only [Pgs3.claimBlob, yields_bind (m := insertBlob row), yields_get_bind,
    yields_orRaise_bind, yields_raiseIf_bind, yields_pure, not_not] at hy
  obtain ⟨inserted, s₁, hins, existing, hex, hsize, rfl, rfl⟩ := hy
  simp only [claimBlob, Call.alone_bind, ask, view, Call.alone, Option.bind_some, seen,
    sizeOf_catalogOf]
  rcases yields_insertBlob hins with ⟨rfl, rfl, -⟩ | ⟨rfl, hno, blob, hrows, rfl⟩
  · simp only [hex, Option.map_some, hsize, Call.raiseIf, ne_eq, not_true_eq_false, if_false]
    rfl
  · have hnone : s.blob.lookup row.sha256 = none :=
      Option.not_isSome_iff_eq_none.mp fun h => hno (Table.lookup_isSome_iff.mp h)
    simp only [hnone, Option.map_none, catalogOf, hrows, List.map_append]
    rfl

theorem ensureBlob_mirrors {body : Bytes} :
    Mirrors (Pgs3.ensureBlob c k body) (ensureBlob k body.length) id s := by
  intro counted a s' hy
  simp only [Pgs3.ensureBlob, checkChunkSize, yields_raiseIf_bind] at hy
  obtain ⟨-, -, hy⟩ := hy
  refine Mirrors.bind claimBlob_mirrors (fun r s₁ _ => ?_) counted a s' hy
  refine .hidden (fun _ s₂ hchunks => ?_) fun _ _ _ => .pure rfl
  rcases yields_whenever.mp hchunks with ⟨-, hchunks⟩ | ⟨-, rfl⟩
  · obtain ⟨-, _, -, rfl⟩ := yields_insertChunks hchunks
    rfl
  · rfl

theorem insertObject_mirrors {row : ObjectRow} :
    Mirrors (Pgs3.insertObject row) (insertObject bucket row) id s := by
  intro counted u s' hy
  obtain ⟨⟨r, hr, hid⟩, hblob, object, hrows, rfl⟩ := yields_insertObject hy
  have hfk : ¬ ∀ b ∈ (catalogOf s).bucket, b.bucketId ≠ row.bucketId := fun h => h r hr hid
  have hemit : (emit (S := system) (.insertObjects bucket [row])).alone (engine counted) (seen s) =
      some ((), seen { s with object := object }) := by
    simp only [seen, catalogOf, hrows]
    rfl
  rw [seen_addRefs, insertObject, Call.alone_bind]
  simp only [seen, view, Call.alone, Option.bind_some, Call.alone_bind, Call.raiseIf, hfk, if_false]
  cases hk : row.blobId with
  | none => exact hemit
  | some k =>
    have hsize : (catalogOf s).sizeOf k ≠ none := by
      obtain ⟨blob, hl⟩ := Option.isSome_iff_exists.mp (isSome_lookup_blob.mpr (hblob k hk))
      simp [sizeOf_catalogOf, hl]
    simp only [checkBlobKey, updateRefcount, ask, view, Call.alone_bind, Call.alone,
      Option.bind_some, Call.raiseIf, hsize, if_false]
    exact hemit

theorem markLatest_mirrors {sel : ObjectRow → Bool} {versions : List Nat} {value : Bool}
    (hsel : ∀ o ∈ s.object.rows,
      sel o = true ↔ o.bucketId = b ∧ o.key = key ∧ o.versionId ∈ versions) :
    Mirrors (updateIsLatest sel value) (emit (.markLatest b key versions value)) id s := by
  intro counted u s' hy
  obtain ⟨object, hrows, rfl⟩ := yields_updateIsLatest hy
  have hmarked : object.rows = s.object.rows.map fun o =>
      if o.bucketId = b ∧ o.key = key ∧ o.versionId ∈ versions then
        { o with isLatest := value } else o := by
    rw [hrows]
    refine List.map_congr_left fun o ho => ?_
    simp only [setLatest, hsel o ho]
  simp only [emit, Call.alone, seen, catalogOf, hmarked]
  rfl

theorem nextVersionId_mirrors : Mirrors nextVersionId (next .versionId) id s := by
  intro counted n s' hy
  obtain ⟨rfl, rfl⟩ := yields_nextVersionId hy
  refine congrArg some (Prod.ext rfl (Prod.ext rfl (funext fun q => ?_)))
  cases q <;> rfl

theorem insertLatest_mirrors {p : Option Payload} {t : Option Text} {j : Jsonb} :
    Mirrors (Pgs3.insertLatest c b key p t j) (insertLatest c b bucket key p t j) (fun _ => ())
      s := by
  refine .view (.bind (markLatest_mirrors fun o ho => ?_) fun _ _ _ =>
    .bind nextVersionId_mirrors fun _ _ _ => .last insertObject_mirrors)
  simp only [isLatestOf, decide_eq_true_eq, List.mem_map, List.mem_filter]
  constructor
  · rintro ⟨hb, hkey, hlatest⟩
    exact ⟨hb, hkey, o, ⟨ho, hb, hkey, hlatest⟩, rfl⟩
  · rintro ⟨hb, hkey, r, ⟨hr, hrb, hrkey, hlatest⟩, hv⟩
    -- a version has one row
    obtain rfl : r = o := List.inj_on_of_nodup_map s.object.nodup hr ho
      (by simp only [hrb, hb, hrkey, hkey, hv])
    exact ⟨hb, hkey, hlatest⟩

theorem removeVersion_mirrors {v : Int} :
    Mirrors (Pgs3.removeVersion b key v) (removeVersion b key v) (fun _ => ()) s := by
  refine .get (.view ?_)
  dsimp only [catalogOf]
  cases hf : s.object.rows.find? (isVersionOf b key v) with
  | none => exact .pure rfl
  | some deleted =>
    refine .bind (f := id) (fun counted u s' hy => ?_) fun _ s₁ _ => .get (.last ?_)
    · have hv : (deleted.versionId : Int) = v := by
        have := List.find?_some hf
        simp only [isVersionOf, decide_eq_true_eq] at this
        exact this.2.2
      subst hv
      rw [yields_deleteObjects hy, seen_addRefs]
      have hrows : s.object.rows.filter (fun o => !isVersionOf b key deleted.versionId o) =
          s.object.rows.filter fun o =>
            ¬ (o.bucketId = b ∧ o.key = key ∧ o.versionId = deleted.versionId) :=
        List.filter_congr fun o _ => by simp [isVersionOf, Nat.cast_inj]
      simp only [emit, Call.alone, seen, catalogOf, Table.delete, hrows]
      rfl
    · have hpromote : Mirrors (updateIsLatest (fun o => decide (o.bucketId = b ∧ o.key = key ∧
          some o.versionId = greatestVersion s₁.object.rows b key)) true) (view >>= fun s =>
            emit (.markLatest b key (greatestVersion s.object b key).toList true)) id s₁ := by
        refine .view (markLatest_mirrors fun o _ => ?_)
        rw [decide_eq_true_eq, Option.mem_toList, @eq_comm _ (some _)]
        rfl
      unfold Tx.whenever Call.whenever
      cases deleted.blobId <;> split <;> first | exact hpromote | exact .pure rfl

/-! ## 3. Calls -/

variable {H : Digests} {t n m : Option Text} {j : Jsonb}

theorem commitBodyLocked_mirrors {body sha256 : Bytes} {etag : Text} :
    Mirrors (Pgs3.commitBodyLocked c b bucket key body sha256 etag t j n m)
      (commitBodyLocked c b bucket key body.length sha256 etag t j n m) (fun _ => ()) s :=
  .bind bucketIdForChild_mirrors fun _ _ _ => .check id <| .check id <| .check id <| .check id <|
    .ask <| .bind checkLatest_mirrors fun _ _ _ => .bind ensureBlob_mirrors fun _ _ _ =>
    .last insertLatest_mirrors

theorem put_mirrors {r : PutRequest} : Mirrors (Pgs3.put H c r) (put H c r) (fun _ => ()) s := by
  refine .bind .orRaise fun body _ _ => .bind bucketIdForChild_mirrors fun _ _ _ =>
    .hidden (fun d s₁ hd => ?_) fun d s₁ hd => ?_
  · obtain ⟨rfl, rfl⟩ := yields_digest.mp hd
    rfl
  · obtain ⟨rfl, rfl⟩ := yields_digest.mp hd
    exact .check id commitBodyLocked_mirrors

theorem delete_mirrors {version : Option Int} :
    Mirrors (Pgs3.delete c bucket key version) (delete c bucket key version) (fun _ => ()) s := by
  refine .bind bucketIdForChild_mirrors fun _ _ _ => .check id <| .ask ?_
  cases version with
  | none => exact .last insertLatest_mirrors
  | some v => exact removeVersion_mirrors

theorem commitReferenceLocked_mirrors {source : ObjectRow} :
    Mirrors (Pgs3.commitReferenceLocked c b bucket key source t j n m)
      (commitReferenceLocked c b bucket key source t j n m) (fun _ => ()) s := by
  refine .bind bucketIdForChild_mirrors fun _ _ _ => .check id <| .bind .orRaise fun _ _ _ =>
    .check id <| .ask <| .bind checkLatest_mirrors fun _ _ _ => .get <| .ask <| .view <|
    .check (fun h => ?_) <| .last insertLatest_mirrors
  rwa [sizeOf_catalogOf, Option.map_eq_none_iff, ← Option.isNone_iff_eq_none] at h

theorem copy_mirrors {r : CopyRequest} :
    Mirrors (Pgs3.copy c r) (copy c r) (fun _ => ()) s := by
  refine .bind bucketIdOf_mirrors fun _ _ _ => .bind bucketIdForChild_mirrors fun _ _ _ =>
    .check id <| .check id <| .locks (fun _ => ?_) <| .get <| .view <| .bind .orRaise fun _ _ _ =>
    .check id commitReferenceLocked_mirrors
  unfold lockTwoKeys Call.whenever
  split_ifs <;> rfl

theorem restore_mirrors {version : Int} :
    Mirrors (Pgs3.restore c bucket key version m) (restore c bucket key version m) (fun _ => ())
      s :=
  .bind bucketIdForChild_mirrors fun _ _ _ => .check id <| .ask <| .get <| .view <|
    .bind .orRaise fun _ _ _ => commitReferenceLocked_mirrors

/-- The transaction of a call that writes one version, or removes one. -/
def ApiCall.op : ApiCall → Option Op
  | .put r => some (.put r)
  | .delete bucket key version => some (.delete bucket key version)
  | .copy r => some (.copy r)
  | .restore bucket key version ifMatch => some (.restore bucket key version ifMatch)
  | _ => none

/-- **A call alone.**  It can end with the catalog and the sequences that its transaction
    leaves. -/
theorem call_alone {counted : CatalogLock → Bool} {call : ApiCall} {op : Op} {r : Reply} {s' : Db}
    (hop : call.op = some op) (hy : Yields (opBody H c op) s r s') :
    ∃ w, Reach (engine counted) (World.start (seen s).1 (seen s).2
        fun _ : Fin 1 => (⟨c, call⟩ : Request).body H) w ∧
      w.tx 0 = none ∧ (w.committed, w.sequence) = seen s' := by
  have hcall : Mirrors (opBody H c op) ((⟨c, call⟩ : Request).body H) (fun _ => ()) s := by
    cases call with
    | put => cases hop; exact .last put_mirrors
    | delete => cases hop; exact .last delete_mirrors
    | copy => cases hop; exact .last copy_mirrors
    | restore => cases hop; exact .last restore_mirrors
    | _ => cases hop
  exact Reach.alone _ (r := ((), seen s')) .start rfl (hcall counted r s' hy)

end Pgs3.Concurrent
