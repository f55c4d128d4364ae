import Pgs3.Concurrent.Lifecycle
import Pgs3.Foundation.LockOrder

/-!
# Concurrent DeleteObjects calls

`delete_many` locks its keys in one order and then deletes in the order of the request.  Every
deleted version updates the reference count of its blob, and that row stays locked until the
end, so the blobs are locked in the order of the request too.  Equal contents share a blob, and
two calls without a key in common can wait for each other (`delete_many_deadlocks`).

They cannot if the blobs that several calls lock have one order in all of them.
-/

namespace Pgs3.Concurrent

open Foundation Foundation.Locks
open Foundation.Locks.Call (view next emit ask orRaise ofExcept raiseIf whenever each)

/-! ## 1. The calls and their blobs -/

/-- The arguments of a `delete_many`. -/
structure Deletion where
  context : Context
  bucket : Text
  keys : List (Option Text)
  versions : List (Option Int)

def Deletion.request (r : Deletion) : Request := ⟨r.context, .deleteMany r.bucket r.keys r.versions⟩

/-- The blobs of the versions that one deletion names. -/
def blobsAt (s : Catalog) (bucketId : Nat) (request : Option Text × Option Int) : List Bytes :=
  match request.2 with
  | none => []
  | some v => (s.object.filter (isVersionOf bucketId (request.1.getD []) v)).filterMap (·.blobId)

/-- The blobs of all versions that the call names, in its order. -/
def Deletion.blobs (s : Catalog) (r : Deletion) : List Bytes :=
  match s.visible r.context r.bucket with
  | none => []
  | some b => (r.keys.zip r.versions).flatMap (blobsAt s b.bucketId)

/-- There is one order of the blobs that several calls name, and every call names them in it. -/
def BlobsInOrder {n : Nat} (s : Catalog) (requests : Fin n → Deletion) (rank : Bytes → Nat) :
    Prop :=
  ∀ i before b after, (requests i).blobs s = before ++ b :: after → ∀ a ∈ before, a ≠ b →
    (∃ j, j ≠ i ∧ a ∈ (requests j).blobs s) → (∃ j, j ≠ i ∧ b ∈ (requests j).blobs s) →
    rank a < rank b

/-! ## 2. Two calls that wait for each other -/

def sampleBucket (id : Nat) (name : String) : BucketRow :=
  ⟨id, name.toList, "alice".toList, 0, .object []⟩

def sampleBlob (content : UInt8) : Bytes := Digests.sample.sha256 [content]

def sampleVersion (id : Nat) (key : String) (version : Nat) (content : UInt8) : ObjectRow :=
  ⟨id, key.toList, version, true, some ⟨1, hex (Digests.sample.md5 [content]), sampleBlob content⟩,
    none, .object [], 0, "alice".toList⟩

/-- Two buckets with the same two contents, under opposite keys. -/
def swappedCatalog : Catalog where
  bucket := [sampleBucket 1 "docs", sampleBucket 2 "logs"]
  object := [sampleVersion 1 "a" 1 7, sampleVersion 1 "b" 2 8, sampleVersion 2 "a" 3 8,
    sampleVersion 2 "b" 4 7]
  upload := []
  uploadChunk := []
  uploadPart := []
  blob := [(sampleBlob 7, 1), (sampleBlob 8, 1)]

def swappedDeletions : Fin 2 → Deletion
  | 0 => ⟨.sample, "docs".toList, [some "a".toList, some "b".toList], [some 1, some 2]⟩
  | 1 => ⟨.sample, "logs".toList, [some "a".toList, some "b".toList], [some 3, some 4]⟩

def swappedWorld : World 2 system Unit :=
  requestWorld .sample (fun i => (swappedDeletions i).request) swappedCatalog fun _ => 5

theorem valid_swappedCatalog : swappedCatalog.Valid where
  ids := by
    intro b hb b' hb' hid
    simp only [swappedCatalog, sampleBucket, List.mem_cons, List.not_mem_nil, or_false] at hb hb'
    rcases hb with rfl | rfl <;> rcases hb' with rfl | rfl <;> first | rfl | cases hid
  names := by
    intro b hb b' hb' hname
    simp only [swappedCatalog, sampleBucket, List.mem_cons, List.not_mem_nil, or_false] at hb hb'
    rcases hb with rfl | rfl <;> rcases hb' with rfl | rfl <;>
      first | rfl | exact absurd hname (by decide)
  objects := by decide +kernel
  uploads := fun _ hr => absurd hr List.not_mem_nil
  objectBlobs := by
    unfold Catalog.HasBlob
    decide +kernel
  chunkBlobs := fun _ hr => absurd hr List.not_mem_nil
  partBlobs := fun _ hp => absurd hp List.not_mem_nil

/-- Both calls have deleted one version, and ask for the blob of the other. -/
theorem delete_many_deadlocks : swappedCatalog.Valid ∧ ∃ w, Reach (engine allLocks) swappedWorld w ∧
      w.Deadlocked (engine allLocks) := by
  refine ⟨valid_swappedCatalog, ?_⟩
  have hrun : (swappedWorld.run (engine allLocks)
      (List.replicate 17 0 ++ List.replicate 17 1 ++ [0, 1])).any
      (fun w => w.waits (engine allLocks) 0 1 && w.waits (engine allLocks) 1 0) = true := by
    decide +kernel
  obtain ⟨w, hw, hwaits⟩ := Reach.of_run _ hrun
  rw [Bool.and_eq_true] at hwaits
  exact ⟨w, hw, World.deadlocked_of_two _ hwaits.1 hwaits.2⟩

/-! ## 3. What a call keeps -/

/-- The buckets are the same, and so are the versions with a blob, but for those that are
    gone. -/
structure Remains (s₀ s : Catalog) : Prop where
  bucket : s.bucket = s₀.bucket
  object : ∀ o ∈ s.object, ∀ k ∈ o.blobId, ∃ o' ∈ s₀.object, o'.blobId = o.blobId ∧
    o'.bucketId = o.bucketId ∧ o'.key = o.key ∧ o'.versionId = o.versionId

def Deletes : CatalogWrite → Prop
  | .markLatest _ _ _ _ | .deleteObject _ _ _ => True
  | .insertObjects _ rows => ∀ o ∈ rows, o.blobId = none
  | _ => False

variable {s₀ s : Catalog}

theorem Remains.apply {x : CatalogWrite} (h : Remains s₀ s) (hx : Deletes x) :
    Remains s₀ (x.apply s) := by
  cases x with
  | markLatest id key versions value =>
    refine ⟨h.bucket, ?_⟩
    intro o ho k hk
    rcases List.mem_map.mp ho with ⟨o', ho', rfl⟩
    split_ifs at hk ⊢ <;> exact h.object o' ho' k hk
  | deleteObject id key version =>
    exact ⟨h.bucket, fun o ho => h.object o (List.mem_filter.mp ho).1⟩
  | insertObjects name rows =>
    refine ⟨h.bucket, ?_⟩
    intro o ho k hk
    rcases List.mem_append.mp ho with ho | ho
    · exact h.object o ho k hk
    · rw [hx o ho] at hk
      cases hk
  | _ => exact hx.elim

theorem Remains.overlay {ws : List CatalogWrite} (h : Remains s₀ s) (hws : ∀ x ∈ ws, Deletes x) :
    Remains s₀ (overlay ws s) :=
  overlay_keeps (I := Remains s₀) (fun x hx _ h => h.apply (hws x hx)) h

theorem Remains.visible (h : Remains s₀ s) (ctx : Context) (name : Text) :
    s.visible ctx name = s₀.visible ctx name := by
  unfold Catalog.visible
  rw [h.bucket]

variable {id : Nat} {k : Bytes}

theorem Remains.mem_blobsAt {request : Option Text × Option Int} {v : Int} {o : ObjectRow}
    (h : Remains s₀ s) (hv : request.2 = some v)
    (ho : s.object.find? (isVersionOf id (request.1.getD []) v) = some o) (hk : k ∈ o.blobId) :
    k ∈ blobsAt s₀ id request := by
  rcases h.object o (List.mem_of_find?_eq_some ho) k hk with ⟨o', ho', hblob, hid, hkey, hversion⟩
  have hfound : isVersionOf id (request.1.getD []) v o = true := List.find?_some ho
  unfold blobsAt
  rw [hv]
  refine List.mem_filterMap.mpr ⟨o', List.mem_filter.mpr ⟨ho', ?_⟩, hblob.trans hk⟩
  unfold isVersionOf at hfound ⊢
  rwa [hid, hkey, hversion]

/-! ## 4. The locks of a call -/

/-- A lock of a call on this bucket: a name, such a key, or such a blob. -/
def MayHold (id : Nat) (K : Text → Prop) (B : Bytes → Prop) (h : CatalogLock × LockMode) : Prop :=
  (∃ name, h = (lifecycleLock name, .shared)) ∨ (∃ k, K k ∧ h = (keyLock id k, .exclusive)) ∨
    ∃ a, B a ∧ h = (.blob a, .noKeyUpdate)

/-- First the name, then the keys in order, then the blobs in the order of the request. -/
def Deletion.asks (s₀ : Catalog) (r : Deletion) (H : Held system) (lock : CatalogLock)
    (m : LockMode) : Prop :=
  ((∃ name, lock = lifecycleLock name ∧ m = .shared) ∧ H = []) ∨
  (∃ id key, lock = keyLock id key ∧ m = .exclusive ∧
    ∀ h ∈ H, MayHold id (· < key) (fun _ => False) h) ∨
  ∃ id before b after, r.blobs s₀ = before ++ b :: after ∧ lock = .blob b ∧ m = .noKeyUpdate ∧
    ∀ h ∈ H, MayHold id (fun _ => True) (fun a => a ∈ before ∧ a ≠ b) h

theorem MayHold.mono {K K' : Text → Prop} {B B' : Bytes → Prop} {h : CatalogLock × LockMode}
    (hh : MayHold id K B h) (hK : ∀ k, K k → K' k) (hB : ∀ a, B a → B' a) : MayHold id K' B' h := by
  rcases hh with hname | ⟨k, hk, heq⟩ | ⟨a, ha, heq⟩
  · exact Or.inl hname
  · exact Or.inr (Or.inl ⟨k, hK k hk, heq⟩)
  · exact Or.inr (Or.inr ⟨a, hB a ha, heq⟩)

variable {lock : CatalogLock} {m : LockMode}

theorem not_mem_of_not_idle {H : Held system} (h : (engine allLocks).idle H lock m = false) :
    (lock, m) ∉ H := by
  intro hmem
  rw [(idle_iff rfl).mpr ⟨m, hmem, by cases m <;> rfl⟩] at h
  cases h

/-- What a call with these locks may ask for, in a catalog that remains. -/
abbrev DeletionAsks {β : Type} (s₀ : Catalog) (r : Deletion) (H : Held system)
    (ws : List CatalogWrite) (p : CatalogCall β)
    (Q : β → Held system → List CatalogWrite → Prop) : Prop :=
  p.Asks (engine allLocks) (Remains s₀) (r.asks s₀) H ws Q

variable {r : Deletion} {H : Held system} {ws : List CatalogWrite} {b : BucketRow}

theorem asks_held (h : (lock, m) ∈ H) :
    DeletionAsks s₀ r H ws (ask lock m) fun _ H' ws' => H' = H ∧ ws' = ws := by
  apply Call.asks_ask
  · exact fun _ => ⟨rfl, rfl⟩
  · exact fun hidle => absurd h (not_mem_of_not_idle hidle)

theorem asks_look (hws : ∀ x ∈ ws, Deletes x) :
    DeletionAsks s₀ r H ws view fun s H' ws' => Remains s₀ s ∧ H' = H ∧ ws' = ws := by
  refine Call.Asks.mono (S := system) Call.asks_view ?_
  rintro _ H₁ ws₁ ⟨⟨s, hs, rfl⟩, rfl, rfl⟩
  exact ⟨hs.overlay hws, rfl, rfl⟩

theorem deletes_append {x : CatalogWrite} (hws : ∀ y ∈ ws, Deletes y) (hx : Deletes x) :
    ∀ y ∈ ws ++ [x], Deletes y := by
  intro y hy
  rcases List.mem_append.mp hy with hy | hy
  · exact hws y hy
  · rw [List.mem_singleton.mp hy]
    exact hx

theorem asks_bucketIdOf {ctx : Context} {name : Text} (hws : ∀ x ∈ ws, Deletes x) :
    DeletionAsks s₀ r H ws (bucketIdOf ctx name) fun id H' ws' =>
      (∃ b, s₀.visible ctx name = some b ∧ b.bucketId = id) ∧ H' = H ∧ ws' = ws := by
  unfold bucketIdOf
  refine Call.Asks.bind (asks_look hws) ?_
  rintro s H₁ ws₁ ⟨hs, rfl, rfl⟩
  refine Call.Asks.bind Call.asks_orRaise ?_
  rintro b H₂ ws₂ ⟨hb, rfl, rfl⟩
  rw [hs.visible] at hb
  exact ⟨⟨b, hb, rfl⟩, rfl, rfl⟩

theorem asks_validateKey {key : Text} :
    DeletionAsks s₀ r H ws (validateKey key) fun _ H' ws' => H' = H ∧ ws' = ws :=
  Call.Asks.mono (S := system) Call.asks_raiseIf fun _ _ _ h => h.2

theorem asks_insertMarker {ctx : Context} {bucket key : Text} (hws : ∀ x ∈ ws, Deletes x) :
    DeletionAsks s₀ r H ws (insertLatest ctx id bucket key none none (.object []))
      fun _ H' ws' => H' = H ∧ ∀ x ∈ ws', Deletes x := by
  unfold insertLatest
  refine Call.Asks.bind (asks_look hws) ?_
  rintro s H₁ ws₁ ⟨_, rfl, rfl⟩
  refine Call.Asks.bind Call.asks_emit ?_
  rintro _ H₂ ws₂ ⟨rfl, rfl⟩
  refine Call.Asks.bind Call.asks_next ?_
  rintro version H₃ ws₃ ⟨rfl, rfl⟩
  have hmarked := deletes_append (x := .markLatest id key
    ((s.object.filter (isLatestOf id key)).map (·.versionId)) false) hws trivial
  unfold insertObject
  refine Call.Asks.bind (asks_look hmarked) ?_
  rintro s' H₄ ws₄ ⟨_, rfl, rfl⟩
  refine Call.Asks.bind Call.asks_raiseIf ?_
  rintro _ H₅ ws₅ ⟨_, rfl, rfl⟩
  refine ⟨rfl, deletes_append hmarked ?_⟩
  intro o ho
  rw [List.mem_singleton.mp ho]
  rfl

/-! ## 5. One deletion after the other -/

/-- The call has all its keys, and has made these deletions. -/
structure Deleting (s₀ : Catalog) (r : Deletion) (b : BucketRow)
    (done : List (Option Text × Option Int)) (H : Held system) (ws : List CatalogWrite) :
    Prop where
  name : (lifecycleLock r.bucket, .shared) ∈ H
  keys : ∀ k ∈ distinctKeys r.keys, (keyLock b.bucketId k, .exclusive) ∈ H
  held : ∀ h ∈ H, MayHold b.bucketId (fun _ => True)
    (fun a => a ∈ done.flatMap (blobsAt s₀ b.bucketId)) h
  writes : ∀ x ∈ ws, Deletes x

variable {done rest : List (Option Text × Option Int)} {request : Option Text × Option Int}

theorem Deleting.next (h : Deleting s₀ r b done H ws) (request : Option Text × Option Int)
    {ws' : List CatalogWrite} (hws : ∀ x ∈ ws', Deletes x) :
    Deleting s₀ r b (done ++ [request]) H ws' where
  name := h.name
  keys := h.keys
  held := by
    intro x hx
    refine (h.held x hx).mono (fun _ hk => hk) ?_
    intro a ha
    rw [List.flatMap_append]
    exact List.mem_append_left _ ha
  writes := hws

section Request

variable (hb : s₀.visible r.context r.bucket = some b)
  (hrest : r.keys.zip r.versions = done ++ request :: rest) (h : Deleting s₀ r b done H ws)

include hb hrest h

/-- The row lock of a trigger: it is had, or its blob is the next one of the request. -/
theorem asks_updateRefcount (hk : k ∈ blobsAt s₀ b.bucketId request) :
    DeletionAsks s₀ r H ws (updateRefcount k) fun _ H' ws' =>
      Deleting s₀ r b (done ++ [request]) H' ws' := by
  apply Call.asks_ask
  · exact fun _ => h.next request h.writes
  · intro hidle
    have hnew := not_mem_of_not_idle hidle
    constructor
    · right; right
      rcases List.append_of_mem hk with ⟨before, after, hsplit⟩
      refine ⟨b.bucketId, done.flatMap (blobsAt s₀ b.bucketId) ++ before, k,
        after ++ rest.flatMap (blobsAt s₀ b.bucketId), ?_, rfl, rfl, ?_⟩
      · unfold Deletion.blobs
        rw [hb]
        simp [hrest, hsplit]
      · intro x hx
        rcases h.held x hx with hname | hkey | ⟨a, ha, rfl⟩
        · exact Or.inl hname
        · exact Or.inr (Or.inl hkey)
        · refine Or.inr (Or.inr ⟨a, ⟨List.mem_append_left _ ha, ?_⟩, rfl⟩)
          rintro rfl
          exact hnew hx
    · have hnext := h.next request h.writes
      refine ⟨List.mem_cons_of_mem _ hnext.name,
        fun k' hk' => List.mem_cons_of_mem _ (hnext.keys k' hk'), ?_, hnext.writes⟩
      intro x hx
      rcases List.mem_cons.mp hx with rfl | hx
      · refine Or.inr (Or.inr ⟨k, ?_, rfl⟩)
        rw [List.flatMap_append]
        exact List.mem_append_right _ (by simpa using hk)
      · exact hnext.held x hx

theorem asks_removeVersion {v : Int} (hv : request.2 = some v) :
    DeletionAsks s₀ r H ws (removeVersion b.bucketId (request.1.getD []) v) fun _ H' ws' =>
      Deleting s₀ r b (done ++ [request]) H' ws' := by
  unfold removeVersion
  refine Call.Asks.bind (asks_look h.writes) ?_
  rintro s H₁ ws₁ ⟨hs, rfl, rfl⟩
  cases hfind : s.object.find? (isVersionOf b.bucketId (request.1.getD []) v) with
  | none => exact h.next request h.writes
  | some deleted =>
    refine Call.Asks.bind Call.asks_emit ?_
    rintro _ H₂ ws₂ ⟨rfl, rfl⟩
    have hdeleted : Deleting s₀ r b done H₂ (ws₁ ++
        [.deleteObject b.bucketId (request.1.getD []) deleted.versionId]) :=
      ⟨h.name, h.keys, h.held, deletes_append h.writes trivial⟩
    -- at most one blob
    have hloop : DeletionAsks s₀ r H₂ (ws₁ ++
        [.deleteObject b.bucketId (request.1.getD []) deleted.versionId])
        (each updateRefcount deleted.blobId.toList) fun _ H' ws' =>
          Deleting s₀ r b (done ++ [request]) H' ws' := by
      cases hblob : deleted.blobId with
      | none => exact hdeleted.next request hdeleted.writes
      | some k =>
        have hk := hs.mem_blobsAt hv hfind (k := k) (by rw [hblob]; rfl)
        exact Call.Asks.bind (asks_updateRefcount hb hrest hdeleted hk) fun _ _ _ hnext => hnext
    refine Call.Asks.bind hloop ?_
    intro _ H₃ ws₃ hnext
    apply Call.asks_whenever
    · intro _
      refine Call.Asks.bind (asks_look hnext.writes) ?_
      rintro s' H₄ ws₄ ⟨_, rfl, rfl⟩
      exact ⟨hnext.name, hnext.keys, hnext.held, deletes_append hnext.writes trivial⟩
    · exact fun _ => hnext

theorem asks_delete :
    DeletionAsks s₀ r H ws (delete r.context r.bucket (request.1.getD []) request.2)
      fun _ H' ws' => Deleting s₀ r b (done ++ [request]) H' ws' := by
  have hmem : request ∈ r.keys.zip r.versions := by
    rw [hrest]
    exact List.mem_append_right _ List.mem_cons_self
  have hkey : request.1.getD [] ∈ distinctKeys r.keys := by
    unfold distinctKeys
    rw [mem_orderBy, List.mem_dedup]
    exact List.mem_map_of_mem (List.of_mem_zip hmem).1
  unfold delete bucketIdForChild lockBucketLifecycle deleteFrom lockKey
  -- both locks are had, and the name still denotes the same bucket
  refine Call.Asks.bind (Call.Asks.bind (asks_held h.name) ?_) (P := fun id H' ws' =>
    id = b.bucketId ∧ H' = H ∧ ws' = ws) ?_
  · rintro _ H₁ ws₁ ⟨rfl, rfl⟩
    refine Call.Asks.bind (asks_bucketIdOf h.writes) ?_
    rintro id H₂ ws₂ ⟨⟨b', hb', rfl⟩, rfl, rfl⟩
    refine Call.Asks.bind Call.asks_raiseIf ?_
    rintro _ H₃ ws₃ ⟨_, rfl, rfl⟩
    rw [hb] at hb'
    rw [Option.some.inj hb']
    exact ⟨rfl, rfl, rfl⟩
  · rintro _ H₁ ws₁ ⟨rfl, rfl, rfl⟩
    refine Call.Asks.bind asks_validateKey ?_
    rintro _ H₂ ws₂ ⟨rfl, rfl⟩
    refine Call.Asks.bind (asks_held (h.keys _ hkey)) ?_
    rintro _ H₃ ws₃ ⟨rfl, rfl⟩
    cases hv : request.2 with
    | none =>
      refine (asks_insertMarker h.writes).mono ?_
      rintro _ H₄ ws₄ ⟨rfl, hws⟩
      exact h.next request hws
    | some v => exact asks_removeVersion hb hrest h hv

end Request

/-! ## 6. Whole calls -/

/-- The call still has to lock these keys, which come after those it has. -/
structure Locking (r : Deletion) (b : BucketRow) (left : List Text) (H : Held system)
    (ws : List CatalogWrite) : Prop where
  name : (lifecycleLock r.bucket, .shared) ∈ H
  keys : ∀ k ∈ distinctKeys r.keys, k ∈ left ∨ (keyLock b.bucketId k, .exclusive) ∈ H
  held : ∀ h ∈ H, MayHold b.bucketId (fun k => ∀ k' ∈ left, k < k') (fun _ => False) h
  sorted : left.Pairwise (· < ·)
  writes : ws = []

theorem asks_lockNext {k : Text} {left : List Text} (h : Locking r b (k :: left) H ws) :
    DeletionAsks s₀ r H ws (lockKey b.bucketId k) fun _ H' ws' => Locking r b left H' ws' := by
  rcases List.pairwise_cons.mp h.sorted with ⟨hfirst, hsorted⟩
  have hheld : ∀ x ∈ H, MayHold b.bucketId (fun k => ∀ k' ∈ left, k < k') (fun _ => False) x :=
    fun x hx => (h.held x hx).mono
      (fun _ hk k' hk' => hk k' (List.mem_cons_of_mem _ hk')) fun _ ha => ha
  apply Call.asks_ask
  · intro hidle
    -- it is not had: those that are come before it
    rcases List.any_eq_true.mp (show (engine allLocks).covered H (keyLock b.bucketId k)
      .exclusive = true by simpa [Engine.idle, engine, allLocks] using hidle) with ⟨x, hx, hcovers⟩
    simp only [Bool.and_eq_true, decide_eq_true_eq] at hcovers
    rcases h.held x hx with ⟨name, rfl⟩ | ⟨k', hk', rfl⟩ | ⟨a, ha, _⟩
    · exact absurd hcovers.1 (lifecycleLock_ne_keyLock _ _ _)
    · rw [(keyLock_inj hcovers.1).2] at hk'
      exact absurd (hk' k List.mem_cons_self) (lt_irrefl k)
    · exact ha.elim
  · intro _
    constructor
    · right; left
      refine ⟨b.bucketId, k, rfl, rfl, ?_⟩
      exact fun x hx => (h.held x hx).mono (fun _ hk => hk k List.mem_cons_self) fun _ ha => ha
    · refine ⟨List.mem_cons_of_mem _ h.name, ?_, ?_, hsorted, h.writes⟩
      · intro k' hk'
        rcases h.keys k' hk' with hleft | hhad
        · rcases List.mem_cons.mp hleft with rfl | hleft
          · exact Or.inr List.mem_cons_self
          · exact Or.inl hleft
        · exact Or.inr (List.mem_cons_of_mem _ hhad)
      · intro x hx
        rcases List.mem_cons.mp hx with rfl | hx
        · exact Or.inr (Or.inl ⟨k, hfirst, rfl⟩)
        · exact hheld x hx

theorem asks_checkDeletion :
    DeletionAsks s₀ r H ws (checkDeletion request) fun _ H' ws' => H' = H ∧ ws' = ws := by
  unfold checkDeletion
  refine Call.Asks.bind Call.asks_raiseIf ?_
  rintro _ H₁ ws₁ ⟨_, rfl, rfl⟩
  refine Call.Asks.bind asks_validateKey ?_
  rintro _ H₂ ws₂ ⟨rfl, rfl⟩
  exact Call.Asks.mono (S := system) Call.asks_raiseIf fun _ _ _ h => h.2

theorem asks_deleteMany (s₀ : Catalog) (r : Deletion) :
    DeletionAsks s₀ r [] [] (deleteMany r.context r.bucket r.keys r.versions)
      fun _ _ ws => ∀ s, Remains s₀ s → Remains s₀ (overlay ws s) := by
  have hnone : ∀ x ∈ ([] : List CatalogWrite), Deletes x := fun _ hx => absurd hx List.not_mem_nil
  unfold deleteMany bucketIdForChild lockBucketLifecycle
  refine Call.Asks.bind (Call.Asks.bind (P := fun _ H ws =>
    H = [(lifecycleLock r.bucket, .shared)] ∧ ws = []) ?_ ?_) (P := fun id H ws =>
      (∃ b, s₀.visible r.context r.bucket = some b ∧ b.bucketId = id) ∧
      H = [(lifecycleLock r.bucket, .shared)] ∧ ws = []) ?_
  · apply Call.asks_ask
    · intro hidle
      cases hidle
    · exact fun _ => ⟨Or.inl ⟨⟨_, rfl, rfl⟩, rfl⟩, rfl, rfl⟩
  · rintro _ H₁ ws₁ ⟨rfl, rfl⟩
    refine Call.Asks.bind (asks_bucketIdOf hnone) ?_
    rintro id H₂ ws₂ ⟨hfound, rfl, rfl⟩
    refine Call.Asks.bind Call.asks_raiseIf ?_
    rintro _ H₃ ws₃ ⟨_, rfl, rfl⟩
    exact ⟨hfound, rfl, rfl⟩
  · rintro _ H₁ ws₁ ⟨⟨b, hb, rfl⟩, rfl, rfl⟩
    refine Call.Asks.bind Call.asks_raiseIf ?_
    rintro _ H₂ ws₂ ⟨_, rfl, rfl⟩
    have hchecks : DeletionAsks s₀ r [(lifecycleLock r.bucket, .shared)] []
        (each checkDeletion (r.keys.zip r.versions)) fun _ H ws =>
          H = [(lifecycleLock r.bucket, .shared)] ∧ ws = [] := by
      refine Call.asks_each (S := system)
        (J := fun _ H ws => H = [(lifecycleLock r.bucket, .shared)] ∧ ws = []) ⟨rfl, rfl⟩ ?_
      rintro request left H ws ⟨rfl, rfl⟩
      exact asks_checkDeletion
    refine Call.Asks.bind hchecks ?_
    rintro _ H₃ ws₃ ⟨rfl, rfl⟩
    have hstart : Locking r b (distinctKeys r.keys) [(lifecycleLock r.bucket, .shared)] [] := by
      refine ⟨List.mem_cons_self, fun _ hk => Or.inl hk, ?_, distinctKeys_sorted _, rfl⟩
      intro x hx
      rw [List.mem_singleton.mp hx]
      exact Or.inl ⟨_, rfl⟩
    refine Call.Asks.bind (Call.asks_each (J := Locking r b) hstart
      fun _ _ _ _ h => asks_lockNext h) ?_
    intro _ H₄ ws₄ hlocked
    have hready : Deleting s₀ r b [] H₄ ws₄ := by
      refine ⟨hlocked.name, ?_, ?_, ?_⟩
      · exact fun k hk => (hlocked.keys k hk).resolve_left List.not_mem_nil
      · exact fun x hx => (hlocked.held x hx).mono (fun _ _ => trivial) fun _ ha => ha.elim
      · rw [hlocked.writes]
        exact hnone
    refine (Call.asks_each (J := fun left H ws => ∃ done, r.keys.zip r.versions = done ++ left ∧
      Deleting s₀ r b done H ws) ⟨[], rfl, hready⟩ ?_).mono ?_
    · rintro request left H ws ⟨done, hsplit, h⟩
      refine (asks_delete hb hsplit h).mono ?_
      intro _ H' ws' h'
      exact ⟨done ++ [request], by rw [hsplit, List.append_assoc]; rfl, h'⟩
    · rintro _ H₅ ws₅ ⟨done, _, h⟩ s hs
      exact hs.overlay h.writes

/-- Keys by bucket id and key, then blobs by rank. -/
def DeletionOrder (rank : Bytes → Nat) (x y : CatalogLock) : Prop :=
  Before x y ∨ (∃ a b, (a : LockName).lock = x ∧ y = .blob b) ∨
    ∃ a b, x = .blob a ∧ y = .blob b ∧ rank a < rank b

theorem lock_ne_blob (a : LockName) (k : Bytes) : a.lock ≠ .blob k := by
  cases a <;> exact CatalogLock.noConfusion

theorem isStrictOrder_deletionOrder (rank : Bytes → Nat) :
    IsStrictOrder CatalogLock (DeletionOrder rank) where
  irrefl := by
    rintro x (hbefore | ⟨a, b, rfl, hblob⟩ | ⟨a, b, rfl, hblob, hlt⟩)
    · exact irrefl_of Before x hbefore
    · exact lock_ne_blob a b hblob
    · rw [CatalogLock.blob.inj hblob] at hlt
      exact Nat.lt_irrefl _ hlt
  trans := by
    rintro x y z (⟨a, a', ha, ha', hlt⟩ | ⟨a, b, ha, rfl⟩ | ⟨a, b, ha, rfl, hlt⟩)
    · rintro (hbefore | ⟨_, b, _, rfl⟩ | ⟨b, _, hb, _⟩)
      · exact Or.inl (trans_of Before ⟨a, a', ha, ha', hlt⟩ hbefore)
      · exact Or.inr (Or.inl ⟨a, b, ha.symm, rfl⟩)
      · exact absurd (ha'.symm.trans hb) (lock_ne_blob a' b)
    · rintro (⟨c, _, hc, _⟩ | ⟨c, _, hc, _⟩ | ⟨c, d, _, rfl, _⟩)
      · exact absurd hc.symm (lock_ne_blob c b)
      · exact absurd hc (lock_ne_blob c b)
      · exact Or.inr (Or.inl ⟨a, d, ha, rfl⟩)
    · rintro (⟨c, _, hc, _⟩ | ⟨c, _, hc, _⟩ | ⟨c, d, hc, rfl, hlt'⟩)
      · exact absurd hc.symm (lock_ne_blob c b)
      · exact absurd hc (lock_ne_blob c b)
      · rw [← CatalogLock.blob.inj hc] at hlt'
        exact Or.inr (Or.inr ⟨a, d, ha, rfl, hlt.trans hlt'⟩)

/-- A name is only asked for in shared mode, and a blob only if the call names it. -/
theorem Deletion.asks_name {name : Text} (h : r.asks s₀ H (lifecycleLock name) m) :
    m = .shared := by
  rcases h with ⟨⟨_, _, hm⟩, _⟩ | ⟨id, key, hlock, _⟩ | ⟨_, _, b, _, _, hlock, _⟩
  · exact hm
  · exact absurd hlock (lifecycleLock_ne_keyLock _ _ _)
  · cases hlock

theorem Deletion.asks_blob (h : r.asks s₀ H (.blob k) m) : k ∈ r.blobs s₀ := by
  rcases h with ⟨⟨_, hlock, _⟩, _⟩ | ⟨id, key, hlock, _⟩ | ⟨_, before, b, after, hsplit, hlock, _⟩
  · cases hlock
  · cases hlock
  · rw [hsplit, CatalogLock.blob.inj hlock]
    exact List.mem_append_right _ List.mem_cons_self

/-- **DeleteObjects.**  If the blobs that several calls name come in one order in all of them,
    the calls never wait for each other in a circle. -/
theorem delete_many_deadlock_free {n : Nat} (H : Digests) (requests : Fin n → Deletion)
    (s₀ : Catalog) (sequence : CatalogSequence → Nat) (rank : Bytes → Nat)
    (hrank : BlobsInOrder s₀ requests rank) (w : World n system Unit) (hw : Reach (engine allLocks)
      (requestWorld H (fun i => (requests i).request) s₀ sequence) w) :
    ¬ w.Deadlocked (engine allLocks) := by
  have := isStrictOrder_deletionOrder rank
  refine no_deadlock_of_asks (I := Remains s₀) (fun i => (requests i).asks s₀)
    (DeletionOrder rank) ⟨rfl, fun o ho k _ => ⟨o, ho, rfl, rfl, rfl, rfl⟩⟩
    (fun i => asks_deleteMany s₀ (requests i)) ?_ hw
  intro i j j' x y m₁ m₂ m₁' m₂' H₁ H₂ H₃ hij hjj' _ _ hasks hheld hconflict hasks' hasks₃ _
  -- a name that is held in shared mode keeps nobody waiting
  have hname : ∀ name, (x, m₂) ≠ (lifecycleLock name, .shared) := by
    rintro name heq
    cases heq
    rw [Deletion.asks_name hasks] at hconflict
    cases hconflict
  rcases hasks' with ⟨_, rfl⟩ | ⟨id, key, rfl, _, hshape⟩ |
    ⟨id, before, b, after, hsplit, rfl, _, hshape⟩
  · cases hheld
  · rcases hshape _ hheld with ⟨name, heq⟩ | ⟨k, hk, heq⟩ | ⟨_, hnone, _⟩
    · exact absurd heq (hname name)
    · cases heq
      exact Or.inl ⟨.key id k, .key id key, rfl, rfl, LockName.key_lt_key (Or.inr ⟨rfl, hk⟩)⟩
    · exact hnone.elim
  · rcases hshape _ hheld with ⟨name, heq⟩ | ⟨k, _, heq⟩ | ⟨a, ⟨ha, hne⟩, heq⟩
    · exact absurd heq (hname name)
    · cases heq
      exact Or.inr (Or.inl ⟨.key id k, b, rfl, rfl⟩)
    · cases heq
      refine Or.inr (Or.inr ⟨a, b, rfl, rfl, ?_⟩)
      exact hrank j before b after hsplit a ha hne ⟨i, hij, Deletion.asks_blob hasks⟩
        ⟨j', hjj'.symm, Deletion.asks_blob hasks₃⟩

/-- Two buckets with the same two contents, deleted in the same order of contents. -/
def alignedDeletions : Fin 2 → Deletion
  | 0 => ⟨.sample, "docs".toList, [some "a".toList, some "b".toList], [some 1, some 2]⟩
  | 1 => ⟨.sample, "logs".toList, [some "b".toList, some "a".toList], [some 4, some 3]⟩

def alignedRank (k : Bytes) : Nat := if k = sampleBlob 7 then 0 else 1

theorem alignedDeletions_blobs (i : Fin 2) :
    (alignedDeletions i).blobs swappedCatalog = [sampleBlob 7, sampleBlob 8] := by
  revert i
  decide +kernel

theorem blobsInOrder_aligned : BlobsInOrder swappedCatalog alignedDeletions alignedRank := by
  intro i before b after hsplit a ha hne _ _
  rw [alignedDeletions_blobs] at hsplit
  -- only the second blob has one before it
  rcases before with _ | ⟨x, before⟩
  · cases ha
  · rcases List.cons.inj hsplit with ⟨rfl, htail⟩
    rcases before with _ | ⟨y, before⟩
    · rcases List.cons.inj htail with ⟨rfl, _⟩
      rw [List.mem_singleton.mp ha]
      decide +kernel
    · rcases List.cons.inj htail with ⟨_, hnil⟩
      exact absurd hnil.symm (by simp)

theorem delete_many_deadlock_free_aligned :
    ∃ w, Reach (engine allLocks) (requestWorld .sample (fun i => (alignedDeletions i).request)
        swappedCatalog fun _ => 5) w ∧
      w.waits (engine allLocks) 1 0 = true ∧ ¬ w.Deadlocked (engine allLocks) := by
  have hrun : ((requestWorld .sample (fun i => (alignedDeletions i).request) swappedCatalog
      fun _ => 5).run (engine allLocks)
      (List.replicate 11 0 ++ List.replicate 10 1)).any
      (fun w => w.waits (engine allLocks) 1 0) = true := by
    decide +kernel
  obtain ⟨w, hreach, hwaits⟩ := Reach.of_run _ hrun
  exact ⟨w, hreach, hwaits, delete_many_deadlock_free .sample alignedDeletions swappedCatalog _
    alignedRank blobsInOrder_aligned w hreach⟩

end Pgs3.Concurrent
