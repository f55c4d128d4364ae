import Pgs3.Concurrent.DeleteRace

/-!
# Completions, puts and bucket deletions

A completion starts from its upload row, stores its blob, and takes the lifecycle lock of the
bucket only when it publishes.  `delete_bucket` takes that lock first and then the upload rows
of the bucket.  So the two can wait for each other (`completion_deadlocks`); the blob rows, which
a completion locks before and a put locks after the advisory locks, are another way.

They cannot if every upload row and blob row that two of the calls may lock is locked by calls
of one kind: puts, completions of one upload, or deletions of one bucket.
-/

namespace Pgs3.Concurrent

open Foundation Foundation.Locks
open Foundation.Locks.Call (view next emit ask orRaise ofExcept raiseIf whenever each)

variable {lock : CatalogLock} {m : LockMode} {id size : Nat} {key bucket : Text} {k : Bytes}
  {staged : Staged}

/-! ## 1. The rows that a call may lock -/

/-- A completion, a put or a bucket deletion. -/
def ApiCall.Racing : ApiCall → Prop
  | .put _ | .deleteBucket _ | .completeUpload _ _ _ _ | .workerCompleteUpload _ _ _ _ _ _ _ => True
  | _ => False

/-- The lock that a call has before all its other row locks: the upload row of a completion,
    the name of a deletion. -/
def ApiCall.guard : ApiCall → Option (CatalogLock × LockMode)
  | .completeUpload u _ _ _ | .workerCompleteUpload _ _ _ u _ _ _ => some (.upload u, .noKeyUpdate)
  | .deleteBucket name => some (lifecycleLock name, .exclusive)
  | _ => none

def Catalog.Stages (s : Catalog) (u : Uuid) (k : Bytes) : Prop :=
  (∃ r ∈ s.uploadChunk, r.uploadId = u ∧ r.blobId = k) ∨
    ∃ p ∈ s.uploadPart, p.uploadId = u ∧ p.sha256 = k

/-- An upload in a bucket of that name. -/
def Catalog.UploadsIn (s : Catalog) (name : Text) (u : Uuid) : Prop :=
  ∃ r ∈ s.upload, r.uploadId = u ∧ ∃ b ∈ s.bucket, b.bucketId = r.bucketId ∧ b.name = name

/-- What the call may lock, in a catalog like this one. -/
def ApiCall.MayLock (H : Digests) (s : Catalog) : ApiCall → CatalogLock → Prop
  | _, .advisory _ => True
  | .put r, .blob k => ∃ body ∈ r.body, k = H.sha256 body
  | .completeUpload u _ _ staged, .blob k => k = staged.sha256 ∨ s.Stages u k
  | .workerCompleteUpload _ _ _ u _ m staged, .blob k =>
      k = m.sha256 ∨ k = staged.sha256 ∨ s.Stages u k
  | .deleteBucket name, .blob k => ∃ u, s.UploadsIn name u ∧ s.Stages u k
  | .completeUpload u _ _ _, .upload u' | .workerCompleteUpload _ _ _ u _ _ _, .upload u' => u' = u
  | .deleteBucket name, .upload u => s.UploadsIn name u
  | _, _ => False

/-- Two puts, two completions of one upload, or two deletions of one bucket. -/
def ApiCall.Alike (c c' : ApiCall) : Prop :=
  (c.guard = none ∧ c'.guard = none) ∨ ∃ g, c.guard = some g ∧ c'.guard = some g

/-- Calls that may lock one row are alike. -/
def RowsApart {n : Nat} (H : Digests) (s : Catalog) (requests : Fin n → Request) : Prop :=
  ∀ i j lock, i ≠ j → isAdvisory lock = false → (requests i).call.MayLock H s lock →
    (requests j).call.MayLock H s lock → (requests i).call.Alike (requests j).call

/-! ## 2. A completion and a deletion that wait for each other -/

def pendingUpload : UploadRow :=
  ⟨1, 1, "a".toList, false, none, .object [], none, none, none, "alice".toList, .pending, 0, 0, 300⟩

def pendingCatalog : Catalog where
  bucket := [sampleBucket 1 "docs"]
  object := []
  upload := [pendingUpload]
  uploadChunk := []
  uploadPart := []
  blob := []

def pendingRequests : Fin 2 → Request
  | 0 => ⟨.sample, .completeUpload 1 [] none
      ⟨Digests.sample.sha256 [], hex (Digests.sample.md5 [])⟩⟩
  | 1 => ⟨.sample, .deleteBucket "docs".toList⟩

theorem valid_pendingCatalog : pendingCatalog.Valid where
  ids := by
    intro b hb b' hb' _
    rw [List.mem_singleton.mp hb, List.mem_singleton.mp hb']
  names := by
    intro b hb b' hb' _
    rw [List.mem_singleton.mp hb, List.mem_singleton.mp hb']
  objects := fun _ ho => absurd ho List.not_mem_nil
  uploads := by decide +kernel
  objectBlobs := fun _ ho => absurd ho List.not_mem_nil
  chunkBlobs := fun _ hr => absurd hr List.not_mem_nil
  partBlobs := fun _ hp => absurd hp List.not_mem_nil

/-- The completion has the upload row and asks for the name; the deletion has the name and asks
    for the upload row. -/
theorem completion_deadlocks : pendingCatalog.Valid ∧ (∀ i, (pendingRequests i).call.Racing) ∧
    ∃ w, Reach (engine allLocks)
        (requestWorld .sample pendingRequests pendingCatalog fun _ => 2) w ∧
      w.Deadlocked (engine allLocks) := by
  refine ⟨valid_pendingCatalog, ?_, ?_⟩
  · exact Fin.forall_fin_two.mpr ⟨trivial, trivial⟩
  have hrun : ((requestWorld .sample pendingRequests pendingCatalog fun _ => 2).run
      (engine allLocks) (List.replicate 10 0 ++ List.replicate 5 1 ++ [0])).any
      (fun w => w.waits (engine allLocks) 0 1 && w.waits (engine allLocks) 1 0) = true := by
    decide +kernel
  obtain ⟨w, hw, hwaits⟩ := Reach.of_run _ hrun
  rw [Bool.and_eq_true] at hwaits
  exact ⟨w, hw, World.deadlocked_of_two _ hwaits.1 hwaits.2⟩

/-! ## 3. What the calls leave of the catalog -/

/-- No bucket, upload or staged row is new. -/
structure Within (s₀ s : Catalog) : Prop where
  bucket : s.bucket ⊆ s₀.bucket
  upload : ∀ r ∈ s.upload, ∃ r' ∈ s₀.upload, r'.uploadId = r.uploadId ∧ r'.bucketId = r.bucketId
  uploadChunk : s.uploadChunk ⊆ s₀.uploadChunk
  uploadPart : s.uploadPart ⊆ s₀.uploadPart

/-- A write that adds no bucket and no upload. -/
def Shrinks : CatalogWrite → Prop
  | .insertBucket _ | .insertUpload _ => False
  | _ => True

variable {s₀ s : Catalog}

theorem Within.refl (s : Catalog) : Within s s :=
  ⟨List.Subset.refl _, fun r hr => ⟨r, hr, rfl, rfl⟩, List.Subset.refl _, List.Subset.refl _⟩

theorem bucket_overlay_subset {ws : List CatalogWrite} (hws : ∀ x ∈ ws, Shrinks x) :
    (overlay ws s).bucket ⊆ s.bucket := by
  refine overlay_keeps (I := fun t => t.bucket ⊆ s.bucket) (fun x hx t ht => ?_) fun _ => id
  cases x with
  | insertBucket row => exact (hws _ hx).elim
  | deleteBucket id => exact fun _ h => ht (List.mem_filter.mp h).1
  | _ => exact ht

theorem Within.overlay {ws : List CatalogWrite} (h : Within s₀ s) (hws : ∀ x ∈ ws, Shrinks x) :
    Within s₀ (overlay ws s) where
  bucket := List.Subset.trans (bucket_overlay_subset hws) h.bucket
  upload := by
    intro r hr
    rcases upload_overlay hr with ⟨r', hu, hid, hold | hnew⟩
    · rcases h.upload r' hold with ⟨r₀, hr₀, hu₀, hid₀⟩
      exact ⟨r₀, hr₀, hu₀.trans hu, hid₀.trans hid⟩
    · exact (hws _ hnew).elim
  uploadChunk := List.Subset.trans uploadChunk_overlay h.uploadChunk
  uploadPart := List.Subset.trans uploadPart_overlay h.uploadPart

/-! ## 4. The order of the locks -/

/-- Upload rows, names, keys, blob rows. -/
def lockKind : CatalogLock → Nat
  | .upload _ => 0
  | .advisory id => if ("pgs3.bucket".toList ++ [unitSeparator]).isPrefixOf id then 1 else 2
  | .blob _ => 3

theorem lockKind_lifecycle (name : Text) : lockKind (lifecycleLock name) = 1 := by
  simp [lockKind, lifecycleLock]

theorem lockKind_key (id : Nat) (key : Text) : lockKind (keyLock id key) = 2 := by
  apply if_neg
  intro hstart
  rcases List.isPrefixOf_iff_prefix.mp hstart with ⟨rest, hrest⟩
  apply lifecycleLock_ne_keyLock rest key id
  unfold lifecycleLock keyLock
  rw [← hrest, List.append_assoc]
  rfl

def KindBefore (x y : CatalogLock) : Prop := lockKind x < lockKind y

instance : IsStrictOrder CatalogLock KindBefore where
  irrefl := fun x => Nat.lt_irrefl (lockKind x)
  trans := fun _ _ _ => Nat.lt_trans

/-- A call has its guard before every other row, and asks in order: but not for rows, and not
    after rows, since others with the same guard wait for the guard. -/
def raceAsks (may : CatalogLock → Prop) (guard : Option (CatalogLock × LockMode))
    (held : Held system) (lock : CatalogLock) (_ : LockMode) : Prop :=
  may lock ∧ (∀ g ∈ guard, lock ≠ g.1 → g ∈ held) ∧
    ∀ h ∈ held, KindBefore h.1 lock ∨ ∃ g ∈ guard, g ∈ held ∧
      ((may h.1 ∧ isAdvisory h.1 = false ∧ h.1 ≠ g.1) ∨ (isAdvisory lock = false ∧ lock ≠ g.1))

/-- A call past its guard: what else it holds are names and keys up to this kind, and rows. -/
structure Ordered (may : CatalogLock → Prop) (g : CatalogLock × LockMode) (c : Nat)
    (held : Held system) : Prop where
  guard : g ∈ held
  held : ∀ h ∈ held, may h.1 ∧ (lockKind h.1 ≤ c ∨ (isAdvisory h.1 = false ∧ h.1 ≠ g.1))

/-- The function leads from locks like these to locks like those, adds no bucket or upload, and
    what it returns is like this. -/
def Leads {β : Type} (s₀ : Catalog) (asks : Held system → CatalogLock → LockMode → Prop)
    (J J' : Held system → Prop) (p : CatalogCall β) (F : β → Prop) : Prop :=
  ∀ held ws, J held → (∀ x ∈ ws, Shrinks x) →
    p.Asks (engine allLocks) (Within s₀) asks held ws fun b held' ws' =>
      J' held' ∧ (∀ x ∈ ws', Shrinks x) ∧ F b

section Leads

variable {asks : Held system → CatalogLock → LockMode → Prop} {J J' J'' : Held system → Prop}
  {β γ : Type} {F : β → Prop} {G : γ → Prop}

theorem Leads.bind {p : CatalogCall β} {f : β → CatalogCall γ} (hp : Leads s₀ asks J J' p F)
    (hf : ∀ b, F b → Leads s₀ asks J' J'' (f b) G) : Leads s₀ asks J J'' (p >>= f) G :=
  fun held ws hJ hws => (hp held ws hJ hws).bind fun b held' ws' hb =>
    hf b hb.2.2 held' ws' hb.1 hb.2.1

theorem Leads.imp {p : CatalogCall β} {F' : β → Prop} (hp : Leads s₀ asks J J' p F)
    (hF : ∀ b, F b → F' b) : Leads s₀ asks J J' p F' :=
  fun held ws hJ hws => (hp held ws hJ hws).mono fun b _ _ hb => ⟨hb.1, hb.2.1, hF b hb.2.2⟩

theorem Leads.from {p : CatalogCall β} (hp : Leads s₀ asks J J' p F)
    (hJ : ∀ held, J'' held → J held) : Leads s₀ asks J'' J' p F :=
  fun held ws h hws => hp held ws (hJ held h) hws

theorem Leads.to {p : CatalogCall β} (hp : Leads s₀ asks J J' p F)
    (hJ : ∀ held, J' held → J'' held) : Leads s₀ asks J J'' p F :=
  fun held ws h hws => (hp held ws h hws).mono fun _ held' _ hb => ⟨hJ held' hb.1, hb.2⟩

theorem leads_pure {b : β} (hb : F b) : Leads s₀ asks J J (pure b) F :=
  fun _ _ hJ hws => ⟨hJ, hws, hb⟩

theorem leads_view : Leads s₀ asks J J view (Within s₀) :=
  fun _ _ hJ hws _ hs => ⟨hJ, hws, hs.overlay hws⟩

theorem leads_next {q : CatalogSequence} : Leads s₀ asks J J (next q) fun _ => True :=
  fun _ _ hJ hws _ => ⟨hJ, hws, trivial⟩

theorem leads_emit {x : CatalogWrite} (hx : Shrinks x) :
    Leads s₀ asks J J (emit x) fun _ => True := by
  intro held ws hJ hws
  refine ⟨hJ, ?_, trivial⟩
  intro y hy
  rcases List.mem_append.mp hy with hy | hy
  · exact hws y hy
  · rw [List.mem_singleton.mp hy]
    exact hx

theorem leads_orRaise {o : Option β} {e : PgError} :
    Leads s₀ asks J J (orRaise o e) fun b => o = some b := by
  intro held ws hJ hws
  refine Call.Asks.mono (S := system) Call.asks_orRaise ?_
  rintro b held' ws' ⟨hb, rfl, rfl⟩
  exact ⟨hJ, hws, hb⟩

theorem leads_raiseIf {p : Prop} [Decidable p] {e : PgError} :
    Leads s₀ asks J J (raiseIf p e) fun _ => True := by
  intro held ws hJ hws
  refine Call.Asks.mono (S := system) Call.asks_raiseIf ?_
  rintro b held' ws' ⟨_, rfl, rfl⟩
  exact ⟨hJ, hws, trivial⟩

theorem leads_ofExcept {x : Except PgError β} : Leads s₀ asks J J (ofExcept x) fun _ => True := by
  intro held ws hJ hws
  refine Call.Asks.mono (S := system) Call.asks_ofExcept ?_
  rintro b held' ws' ⟨_, rfl, rfl⟩
  exact ⟨hJ, hws, trivial⟩

theorem leads_whenever {p : Prop} [Decidable p] {body : CatalogCall Unit}
    (hbody : p → Leads s₀ asks J J body fun _ => True) :
    Leads s₀ asks J J (whenever p body) fun _ => True := by
  intro held ws hJ hws
  apply Call.asks_whenever
  · exact fun hp => hbody hp held ws hJ hws
  · exact fun _ => ⟨hJ, hws, trivial⟩

theorem leads_each {f : β → CatalogCall Unit} {bs : List β}
    (hf : ∀ b ∈ bs, Leads s₀ asks J J (f b) fun _ => True) :
    Leads s₀ asks J J (each f bs) fun _ => True := by
  induction bs with
  | nil => exact fun _ _ hJ hws => ⟨hJ, hws, trivial⟩
  | cons b bs ih =>
    refine Leads.bind (f := fun _ => each f bs) (hf b List.mem_cons_self) ?_
    exact fun _ _ => ih fun b' hb' => hf b' (List.mem_cons_of_mem _ hb')

theorem leads_ask (hidle : ∀ held, J held → (engine allLocks).idle held lock m = true → J' held)
    (hnew : ∀ held, J held → (engine allLocks).idle held lock m = false →
      asks held lock m ∧ J' ((lock, m) :: held)) :
    Leads s₀ asks J J' (ask lock m) fun _ => True := by
  intro held ws hJ hws
  apply Call.asks_ask
  · exact fun h => ⟨hidle held hJ h, hws, trivial⟩
  · exact fun h => ⟨(hnew held hJ h).1, (hnew held hJ h).2, hws, trivial⟩

theorem leads_bucketIdOf {ctx : Context} {name : Text} :
    Leads s₀ asks J J (bucketIdOf ctx name) fun id =>
      ∃ b ∈ s₀.bucket, b.bucketId = id ∧ b.name = name := by
  unfold bucketIdOf
  refine leads_view.bind fun s hs => leads_orRaise.bind fun b hb => leads_pure ?_
  rcases Catalog.visible_some hb with ⟨hmem, hname⟩
  exact ⟨b, hs.bucket hmem, rfl, hname⟩

theorem leads_checkLatest {ifNoneMatch ifMatch : Option Text} :
    Leads s₀ asks J J (checkLatest id key ifNoneMatch ifMatch) fun _ => True :=
  leads_view.bind fun _ _ => leads_ofExcept

theorem leads_bucketIdForChild {ctx : Context} {name : Text} {expected : Option Nat}
    (h : Leads s₀ asks J J' (ask (lifecycleLock name) .shared) fun _ => True) :
    Leads s₀ asks J J' (bucketIdForChild ctx name expected) fun _ => True :=
  h.bind fun _ _ => leads_bucketIdOf.bind fun _ _ => leads_raiseIf.bind fun _ _ =>
    leads_pure trivial

theorem leads_claimBlob (h : Leads s₀ asks J J' (ask (.blob k) .update) fun _ => True) :
    Leads s₀ asks J J' (claimBlob k size) fun _ => True := by
  unfold claimBlob
  refine h.bind fun _ _ => leads_view.bind fun s _ => ?_
  cases s.sizeOf k with
  | none => exact (leads_emit (by exact trivial)).bind fun _ _ => leads_pure trivial
  | some existing => exact leads_raiseIf.bind fun _ _ => leads_pure trivial

theorem leads_ensureBlob (h : Leads s₀ asks J J' (ask (.blob k) .update) fun _ => True) :
    Leads s₀ asks J J' (ensureBlob k size) (· = k) :=
  (leads_claimBlob h).bind fun _ _ => leads_pure rfl

theorem leads_insertLatest {ctx : Context} {p : Payload} {contentType : Option Text}
    {metadata : Jsonb}
    (hkey : Leads s₀ asks J J (ask (.blob p.sha256) .keyShare) fun _ => True)
    (hcount : Leads s₀ asks J J (ask (.blob p.sha256) .noKeyUpdate) fun _ => True) :
    Leads s₀ asks J J (insertLatest ctx id bucket key (some p) contentType metadata)
      fun _ => True := by
  unfold insertLatest
  refine leads_view.bind fun s _ => (leads_emit (by exact trivial)).bind fun _ _ =>
    leads_next.bind fun version _ => ?_
  unfold insertObject checkBlobKey updateRefcount
  refine leads_view.bind fun s' _ => leads_raiseIf.bind fun _ _ => ?_
  refine Leads.bind (F := fun _ => True) (hkey.bind fun _ _ =>
    leads_view.bind fun _ _ => leads_raiseIf) fun _ _ => ?_
  exact hcount.bind fun _ _ => leads_emit trivial

end Leads

/-- A call past this guard goes from the one kind to the other. -/
abbrev Moves {β : Type} (s₀ : Catalog) (may : CatalogLock → Prop) (g : CatalogLock × LockMode)
    (c c' : Nat) (p : CatalogCall β) (F : β → Prop) : Prop :=
  Leads s₀ (raceAsks may (some g)) (Ordered may g c) (Ordered may g c') p F

variable {may : CatalogLock → Prop} {g : CatalogLock × LockMode} {c : Nat}

theorem moves_row (hmay : may lock) (hrow : isAdvisory lock = false) (hne : lock ≠ g.1) :
    Moves s₀ may g c c (ask lock m) fun _ => True := by
  refine leads_ask (fun _ h _ => h) ?_
  intro held h _
  refine ⟨⟨hmay, ?_, ?_⟩, List.mem_cons_of_mem _ h.guard, ?_⟩
  · intro g' hg' _
    rw [← Option.some.inj hg']
    exact h.guard
  · exact fun x _ => Or.inr ⟨g, rfl, h.guard, Or.inr ⟨hrow, hne⟩⟩
  · intro x hx
    rcases List.mem_cons.mp hx with rfl | hx
    · exact ⟨hmay, Or.inr ⟨hrow, hne⟩⟩
    · exact h.held x hx

theorem moves_advisory {c' : Nat} (hmay : may lock) (hkind : lockKind lock = c') (hlt : c < c') :
    Moves s₀ may g c c' (ask lock m) fun _ => True := by
  have hheld : ∀ held, Ordered may g c held → ∀ x ∈ held, may x.1 ∧
      (lockKind x.1 ≤ c' ∨ (isAdvisory x.1 = false ∧ x.1 ≠ g.1)) := by
    intro held h x hx
    rcases h.held x hx with ⟨hx', hle | hrow⟩
    · exact ⟨hx', Or.inl (hle.trans hlt.le)⟩
    · exact ⟨hx', Or.inr hrow⟩
  refine leads_ask (fun held h _ => ⟨h.guard, hheld held h⟩) ?_
  intro held h _
  refine ⟨⟨hmay, ?_, ?_⟩, List.mem_cons_of_mem _ h.guard, ?_⟩
  · intro g' hg' _
    rw [← Option.some.inj hg']
    exact h.guard
  · intro x hx
    rcases h.held x hx with ⟨hx', hle | hrow⟩
    · left
      unfold KindBefore
      rw [hkind]
      exact Nat.lt_of_le_of_lt hle hlt
    · exact Or.inr ⟨g, rfl, h.guard, Or.inl ⟨hx', hrow⟩⟩
  · intro x hx
    rcases List.mem_cons.mp hx with rfl | hx
    · exact ⟨hmay, Or.inl hkind.le⟩
    · exact hheld held h x hx

/-! ## 5. The functions of a completion and a deletion -/

section Guarded

variable (hblob : ∀ k, .blob k ≠ g.1) {u : Uuid}

include hblob

theorem moves_blob (hk : may (.blob k)) : Moves s₀ may g c c (ask (.blob k) m) fun _ => True :=
  moves_row hk rfl (hblob k)

theorem moves_checkBlobKey {constraint : String} (hk : may (.blob k)) :
    Moves s₀ may g c c (checkBlobKey k constraint) fun _ => True :=
  (moves_blob hblob hk).bind fun _ _ => leads_view.bind fun _ _ =>
    leads_raiseIf.imp fun _ _ => trivial

theorem moves_storeComposite {sources : List Bytes} (hk : may (.blob k))
    (hsources : ∀ x ∈ sources, may (.blob x)) :
    Moves s₀ may g c c (storeComposite k size sources) (· = k) := by
  unfold storeComposite
  refine (leads_claimBlob (moves_blob hblob hk)).bind fun inserted _ => ?_
  refine (leads_whenever fun _ => leads_each fun x hx => ?_).bind fun _ _ => leads_pure rfl
  unfold insertBlobExtent
  exact leads_raiseIf.bind fun _ _ => (moves_checkBlobKey hblob hk).bind fun _ _ =>
    (moves_checkBlobKey hblob (hsources x hx)).bind fun _ _ => moves_blob hblob (hsources x hx)

variable (hstaged : ∀ x, s₀.Stages u x → may (.blob x))

include hstaged

theorem moves_ensureCompositeBlob {parts : List Nat} (hk : may (.blob k)) :
    Moves s₀ may g c c (ensureCompositeBlob k size u parts) (· = k) := by
  unfold ensureCompositeBlob
  refine leads_view.bind fun s hs => leads_raiseIf.bind fun _ _ => ?_
  apply moves_storeComposite hblob hk
  intro x hx
  rcases List.mem_map.mp hx with ⟨p, hp, rfl⟩
  rcases List.mem_filterMap.mp hp with ⟨n, _, hfind⟩
  have hfound := List.find?_some hfind
  rw [decide_eq_true_eq] at hfound
  exact hstaged _ (Or.inr ⟨p, hs.uploadPart (List.mem_of_find?_eq_some hfind), hfound.1, rfl⟩)

theorem moves_ensureStagedBlob {part : Nat} (hk : may (.blob k)) :
    Moves s₀ may g c c (ensureStagedBlob k size u part) (· = k) := by
  unfold ensureStagedBlob
  refine leads_view.bind fun s hs => leads_raiseIf.bind fun _ _ => ?_
  apply moves_storeComposite hblob hk
  intro x hx
  rcases List.mem_map.mp hx with ⟨r, hr, rfl⟩
  rcases List.mem_filter.mp ((mem_orderBy _).mp hr) with ⟨hmem, hrow⟩
  rw [decide_eq_true_eq] at hrow
  exact hstaged _ (Or.inl ⟨r, hs.uploadChunk hmem, hrow.1, rfl⟩)

theorem moves_cascadeUpload : Moves s₀ may g c c (cascadeUpload u) fun _ => True := by
  unfold cascadeUpload
  refine leads_view.bind fun s hs => (leads_emit (by exact trivial)).bind fun _ _ => ?_
  refine (leads_each fun k hk => ?_).bind fun _ _ => leads_each fun k hk => ?_
  · rcases List.mem_map.mp hk with ⟨r, hr, rfl⟩
    rcases List.mem_filter.mp hr with ⟨hmem, hrow⟩
    exact moves_blob hblob
      (hstaged _ (Or.inl ⟨r, hs.uploadChunk hmem, of_decide_eq_true hrow, rfl⟩))
  · rcases List.mem_map.mp hk with ⟨p, hp, rfl⟩
    rcases List.mem_filter.mp hp with ⟨hmem, hrow⟩
    exact moves_blob hblob
      (hstaged _ (Or.inr ⟨p, hs.uploadPart hmem, of_decide_eq_true hrow, rfl⟩))

end Guarded

variable (hadvisory : ∀ id, may (.advisory id))

include hadvisory in
theorem moves_commitCanonicalLocked (hblob : ∀ k, .blob k ≠ g.1) {ctx : Context} {etag : Text}
    {sha256 : Bytes} {contentType ifNoneMatch ifMatch : Option Text} {metadata : Jsonb}
    (hk : may (.blob k)) :
    Moves s₀ may g 0 2 (commitCanonicalLocked ctx id bucket key size sha256 etag k contentType
      metadata ifNoneMatch ifMatch) fun _ => True := by
  have hname : Moves s₀ may g 0 1 (bucketIdForChild ctx bucket (some id)) fun _ => True :=
    leads_bucketIdForChild
      (moves_advisory (hadvisory _) (lockKind_lifecycle bucket) Nat.zero_lt_one)
  have hkey : Moves s₀ may g 1 2 (lockKey id key) fun _ => True :=
    moves_advisory (hadvisory _) (lockKind_key id key) Nat.one_lt_two
  unfold commitCanonicalLocked
  refine hname.bind fun _ _ => leads_raiseIf.bind fun _ _ => leads_raiseIf.bind fun _ _ =>
    leads_raiseIf.bind fun _ _ => (moves_blob hblob hk).bind fun _ _ => ?_
  exact leads_view.bind fun _ _ => leads_raiseIf.bind fun _ _ => hkey.bind fun _ _ =>
    leads_checkLatest.bind fun _ _ =>
      leads_insertLatest (moves_blob hblob hk) (moves_blob hblob hk)

/-! ## 6. The calls -/

variable {u : Uuid} {ctx : Context}

/-- Before the guard of a call, or past it. -/
abbrev Entering (may : CatalogLock → Prop) (g : CatalogLock × LockMode) (c : Nat)
    (held : Held system) : Prop :=
  held = [] ∨ Ordered may g c held

/-- The first lock of a call is its guard. -/
theorem leads_guard {lock : CatalogLock} (hmay : may lock) (hkind : lockKind lock ≤ c) :
    Leads s₀ (raceAsks may (some (lock, m))) (Entering may (lock, m) c) (Ordered may (lock, m) c)
      (ask lock m) fun _ => True := by
  apply leads_ask
  · rintro held (rfl | h) hidle
    · cases hidle
    · exact h
  · rintro held (rfl | h) hidle
    · refine ⟨⟨hmay, ?_, fun _ hx => absurd hx List.not_mem_nil⟩, List.mem_cons_self, ?_⟩
      · intro g hg hne
        rw [← Option.some.inj hg] at hne
        exact absurd rfl hne
      · intro x hx
        rw [List.mem_singleton.mp hx]
        exact ⟨hmay, Or.inl hkind⟩
    · exact absurd h.guard (not_mem_of_not_idle hidle)

abbrev uploadGuard (u : Uuid) : CatalogLock × LockMode := (.upload u, .noKeyUpdate)

theorem blob_ne_uploadGuard (k : Bytes) : .blob k ≠ (uploadGuard u).1 := CatalogLock.noConfusion

theorem leads_uploadForUpdate (hmay : may (.upload u)) :
    Leads s₀ (raceAsks may (some (uploadGuard u))) (Entering may (uploadGuard u) 0)
      (Ordered may (uploadGuard u) 0) (uploadForUpdate ctx u) fun row => row.uploadId = u := by
  unfold uploadForUpdate
  refine leads_view.bind fun s _ => leads_orRaise.bind fun _ _ =>
    (leads_guard hmay (Nat.le_refl 0)).bind fun _ _ =>
    leads_view.bind fun s' _ => leads_orRaise.bind fun row hrow =>
      (leads_emit (by exact trivial)).bind fun _ _ => leads_pure ?_
  have hfound := List.find?_some hrow
  rw [decide_eq_true_eq] at hfound
  exact hfound.1

theorem moves_bucketNameOf : Moves s₀ may g c c (bucketNameOf id) fun _ => True :=
  leads_view.bind fun _ _ => leads_orRaise.bind fun _ _ => leads_pure trivial

section Completion

variable (hstaged : ∀ x, s₀.Stages u x → may (.blob x))

include hstaged

include hadvisory in
theorem moves_publishUpload {upload : UploadRow} (hu : upload.uploadId = u) (hk : may (.blob k)) :
    Moves s₀ may (uploadGuard u) 0 2 (publishUpload ctx upload bucket size staged k)
      fun _ => True := by
  unfold publishUpload
  rw [hu]
  exact (moves_commitCanonicalLocked hadvisory blob_ne_uploadGuard hk).bind fun _ _ =>
    moves_cascadeUpload blob_ne_uploadGuard hstaged

theorem moves_storeStaged {upload : UploadRow} {parts : List Int} (hu : upload.uploadId = u)
    (hk : may (.blob staged.sha256)) :
    Moves s₀ may (uploadGuard u) 0 0 (storeStaged ctx upload parts staged)
      fun stored => stored.2 = staged.sha256 := by
  unfold storeStaged
  rw [hu]
  refine leads_view.bind fun s _ => ?_
  by_cases hmultipart : upload.multipart = true
  · rw [if_pos hmultipart]
    exact leads_raiseIf.bind fun _ _ => leads_raiseIf.bind fun _ _ => leads_raiseIf.bind fun _ _ =>
      leads_raiseIf.bind fun _ _ =>
        (moves_ensureCompositeBlob blob_ne_uploadGuard hstaged hk).bind fun _ hid => leads_pure hid
  · rw [if_neg hmultipart]
    refine leads_raiseIf.bind fun _ _ => ?_
    dsimp only
    split
    · exact (leads_ensureBlob (moves_blob blob_ne_uploadGuard hk)).bind fun _ hid => leads_pure hid
    · exact (moves_ensureStagedBlob blob_ne_uploadGuard hstaged hk).bind fun _ hid => leads_pure hid

include hadvisory in
theorem leads_completeUpload {parts : List Int} {checksum : Option Bytes} (hmay : may (.upload u))
    (hk : may (.blob staged.sha256)) :
    Leads s₀ (raceAsks may (some (uploadGuard u))) (Entering may (uploadGuard u) 0)
      (Ordered may (uploadGuard u) 2) (completeUpload ctx u parts checksum staged)
      fun _ => True := by
  unfold completeUpload
  refine (leads_uploadForUpdate hmay).bind fun upload hu => moves_bucketNameOf.bind fun bucket _ =>
    (leads_emit (by exact trivial)).bind fun _ _ => (moves_storeStaged hstaged hu hk).bind
      fun stored hid => leads_raiseIf.bind fun _ _ => ?_
  rw [hid]
  exact moves_publishUpload hadvisory hstaged hu hk

include hadvisory in
theorem leads_workerCompleteUpload {actor : RoleName} {checksum : Option Bytes} {m : Seal}
    (hmay : may (.upload u)) (hk : may (.blob staged.sha256)) (hm : may (.blob m.sha256)) :
    Leads s₀ (raceAsks may (some (uploadGuard u))) (Entering may (uploadGuard u) 0)
      (Ordered may (uploadGuard u) 2)
      (workerCompleteUpload ctx actor bucket key u checksum m staged) fun _ => True := by
  unfold workerCompleteUpload uploadForUpdateAt
  refine leads_raiseIf.bind fun _ _ => leads_raiseIf.bind fun _ _ => ?_
  refine Leads.bind (F := fun row : UploadRow => row.uploadId = u)
    ((leads_uploadForUpdate hmay).bind fun row hu => leads_view.bind fun _ _ =>
      leads_raiseIf.bind fun _ _ => leads_pure hu) fun upload hu => ?_
  refine leads_view.bind fun s _ => leads_raiseIf.bind fun _ _ => ?_
  split
  · exact (leads_completeUpload hadvisory hstaged hmay hk).from fun _ h => Or.inr h
  · refine leads_raiseIf.bind fun _ _ => moves_bucketNameOf.bind fun _ _ =>
      (leads_emit (by exact trivial)).bind fun _ _ =>
        (moves_ensureStagedBlob blob_ne_uploadGuard hstaged hm).bind fun k hid => ?_
    rw [hid]
    exact moves_publishUpload hadvisory hstaged hu hm

end Completion

include hadvisory in
theorem leads_deleteBucket {name : Text} (huploads : ∀ u, s₀.UploadsIn name u → may (.upload u))
    (hstaged : ∀ u, s₀.UploadsIn name u → ∀ x, s₀.Stages u x → may (.blob x)) :
    Leads s₀ (raceAsks may (some (lifecycleLock name, .exclusive))) (· = [])
      (Ordered may (lifecycleLock name, .exclusive) 1) (deleteBucket ctx name) fun _ => True := by
  have hblob : ∀ k, CatalogLock.blob k ≠ (lifecycleLock name, LockMode.exclusive).1 :=
    fun _ => CatalogLock.noConfusion
  unfold deleteBucket lockBucketLifecycle
  refine ((leads_guard (hadvisory _) (lockKind_lifecycle name).le).from fun _ => Or.inl).bind
    fun _ _ => leads_bucketIdOf.bind fun id hid => leads_view.bind fun _ _ =>
      leads_raiseIf.bind fun _ _ => ?_
  rcases hid with ⟨b, hb, rfl, hname⟩
  unfold deleteUploadsOf deleteBucketRow
  refine Leads.bind (F := fun _ => True) (leads_view.bind fun s hs => ?_) fun _ _ =>
    leads_view.bind fun _ _ => leads_raiseIf.bind fun _ _ => leads_raiseIf.bind fun _ _ =>
      leads_emit trivial
  have hin : ∀ u ∈ (s.upload.filter fun r => r.bucketId = b.bucketId).map (·.uploadId),
      s₀.UploadsIn name u := by
    intro u hu
    rcases List.mem_map.mp hu with ⟨r, hr, rfl⟩
    rcases List.mem_filter.mp hr with ⟨hmem, hrow⟩
    rcases hs.upload r hmem with ⟨r', hr', hu', hid'⟩
    exact ⟨r', hr', hu', b, hb, (hid'.trans (of_decide_eq_true hrow)).symm, hname⟩
  refine (leads_each fun u hu => ?_).bind fun _ _ => leads_each fun u hu => ?_
  · exact moves_row (huploads u (hin u hu)) rfl CatalogLock.noConfusion
  · exact moves_cascadeUpload hblob (hstaged u (hin u hu))

/-! ## 7. Puts -/

variable {L : Held system}

theorem leads_covered {asks : Held system → CatalogLock → LockMode → Prop} (m' : LockMode)
    (h : (lock, m') ∈ L) (hcovers : m'.covers m = true) :
    Leads s₀ asks (· = L) (· = L) (ask lock m) fun _ => True := by
  apply leads_ask
  · exact fun _ hheld _ => hheld
  · rintro held rfl hidle
    rw [(idle_iff rfl).mpr ⟨m', h, hcovers⟩] at hidle
    cases hidle

theorem leads_later (hmay : may lock) (hlater : ∀ h ∈ L, KindBefore h.1 lock) :
    Leads s₀ (raceAsks may none) (· = L) (· = (lock, m) :: L) (ask lock m) fun _ => True := by
  apply leads_ask
  · rintro held rfl hidle
    rcases (idle_iff rfl).mp hidle with ⟨m', hx, _⟩
    exact absurd (hlater _ hx) (Nat.lt_irrefl _)
  · rintro held rfl _
    exact ⟨⟨hmay, (by rintro _ ⟨⟩), fun x hx => Or.inl (hlater x hx)⟩, rfl⟩

/-- The name, the key, and then one blob, whose row is locked in the strongest mode at once. -/
theorem leads_put {H : Digests} {r : PutRequest} (hadvisory : ∀ id, may (.advisory id))
    (hk : ∀ body ∈ r.body, may (.blob (H.sha256 body))) :
    Leads s₀ (raceAsks may none) (· = []) (fun _ => True) (put H ctx r) fun _ => True := by
  have hname : Leads s₀ (raceAsks may none) (· = []) (· = [(lifecycleLock r.bucket, .shared)])
      (ask (lifecycleLock r.bucket) .shared) fun _ => True :=
    leads_later (hadvisory _) fun _ hx => absurd hx List.not_mem_nil
  have hkey : ∀ id, Leads s₀ (raceAsks may none) (· = [(lifecycleLock r.bucket, .shared)])
      (· = [(keyLock id r.key, .exclusive), (lifecycleLock r.bucket, .shared)])
      (lockKey id r.key) fun _ => True := by
    intro id
    apply leads_later (hadvisory _)
    intro x hx
    rw [List.mem_singleton.mp hx]
    change lockKind (lifecycleLock r.bucket) < lockKind (keyLock id r.key)
    rw [lockKind_lifecycle, lockKind_key]
    decide
  have hclaim : ∀ id k, may (.blob k) → Leads s₀ (raceAsks may none)
      (· = [(keyLock id r.key, .exclusive), (lifecycleLock r.bucket, .shared)])
      (· = [(.blob k, .update), (keyLock id r.key, .exclusive),
        (lifecycleLock r.bucket, .shared)]) (ask (.blob k) .update) fun _ => True := by
    intro id k hmay
    apply leads_later hmay
    intro x hx
    rcases List.mem_cons.mp hx with rfl | hx
    · change lockKind (keyLock id r.key) < 3
      rw [lockKind_key]
      decide
    · rw [List.mem_singleton.mp hx]
      change lockKind (lifecycleLock r.bucket) < 3
      rw [lockKind_lifecycle]
      decide
  unfold put
  refine leads_orRaise.bind fun body hbody => ?_
  have hmay := hk body hbody
  refine (leads_bucketIdForChild hname).bind fun id _ => leads_raiseIf.bind fun _ _ => ?_
  unfold commitBodyLocked
  refine (leads_bucketIdForChild (leads_covered .shared List.mem_cons_self rfl)).bind fun _ _ => ?_
  refine leads_raiseIf.bind fun _ _ => leads_raiseIf.bind fun _ _ => leads_raiseIf.bind fun _ _ =>
    leads_raiseIf.bind fun _ _ => (hkey id).bind fun _ _ => leads_checkLatest.bind fun _ _ => ?_
  refine (leads_ensureBlob (hclaim id _ hmay)).bind fun k hid => ?_
  rw [hid]
  -- the mode covers the two weaker ones that the new version asks for
  refine (leads_insertLatest ?_ ?_).to fun _ _ => trivial
  · exact leads_covered .update List.mem_cons_self rfl
  · exact leads_covered .update List.mem_cons_self rfl

/-! ## 8. Runs -/

/-- Every racing call asks as its guard allows, and adds no bucket or upload. -/
theorem body_asks {H : Digests} {r : Request} (hr : r.call.Racing) :
    (r.body H).Asks (engine allLocks) (Within s₀)
      (raceAsks (r.call.MayLock H s₀) r.call.guard) [] [] fun _ _ ws =>
        ∀ s, Within s₀ s → Within s₀ (overlay ws s) := by
  have hend : ∀ {J J' : Held system → Prop} {p : CatalogCall Unit}
      {asks : Held system → CatalogLock → LockMode → Prop}, J [] →
      Leads s₀ asks J J' p (fun _ => True) →
      p.Asks (engine allLocks) (Within s₀) asks [] [] fun _ _ ws =>
        ∀ s, Within s₀ s → Within s₀ (overlay ws s) := by
    intro J J' p asks hJ hp
    refine (hp [] [] hJ fun _ hx => absurd hx List.not_mem_nil).mono ?_
    exact fun _ _ _ h s hs => hs.overlay h.2.1
  rcases r with ⟨ctx, call⟩
  cases call with
  | put p =>
    refine hend (J := (· = [])) rfl (leads_put (fun _ => by exact trivial) ?_)
    exact fun body hbody => ⟨body, hbody, rfl⟩
  | deleteBucket name =>
    refine hend (J := (· = [])) rfl (leads_deleteBucket (fun _ => by exact trivial) ?_ ?_)
    · exact fun u hu => hu
    · exact fun u hu x hx => ⟨u, hu, hx⟩
  | completeUpload u parts sum staged =>
    refine hend (J := (· = [])) rfl
      ((leads_completeUpload (fun _ => by exact trivial) ?_ ?_ ?_).from fun _ h => Or.inl h)
    · exact fun x hx => Or.inr hx
    · exact rfl
    · exact Or.inl rfl
  | workerCompleteUpload actor bucket key u sum m staged =>
    refine hend (J := (· = [])) rfl
      ((leads_workerCompleteUpload (fun _ => by exact trivial) ?_ ?_ ?_ ?_).from
        fun _ h => Or.inl h)
    · exact fun x hx => Or.inr (Or.inr hx)
    · exact rfl
    · exact Or.inr (Or.inl rfl)
    · exact Or.inl rfl
  | _ => exact hr.elim

/-- Two calls that are both past one guard: the guard conflicts with itself. -/
theorem not_both_past {call : ApiCall} {H₁ H₂ : Held system} (hg : call.guard = some g)
    (h₁ : g ∈ H₁) (h₂ : g ∈ H₂) : ¬ Compatible (engine allLocks) H₁ H₂ := by
  intro hcompatible
  have hfree : LockMode.conflict g.2 g.2 = false := hcompatible g h₁ g h₂ rfl
  cases call <;> cases hg <;> cases hfree

/-- **Completions, puts and bucket deletions.**  If all calls that may lock a common upload row
    or blob row are alike, they never wait for each other in a circle. -/
theorem completion_deadlock_free {n : Nat} (H : Digests) (requests : Fin n → Request)
    (s₀ : Catalog) (sequence : CatalogSequence → Nat)
    (hracing : ∀ i, (requests i).call.Racing) (hrows : RowsApart H s₀ requests)
    (w : World n system Unit)
    (hw : Reach (engine allLocks) (requestWorld H requests s₀ sequence) w) :
    ¬ w.Deadlocked (engine allLocks) := by
  refine no_deadlock_of_asks (I := Within s₀)
    (fun i => raceAsks ((requests i).call.MayLock H s₀) (requests i).call.guard) KindBefore
    (Within.refl s₀) (fun i => body_asks (hracing i)) ?_ hw
  intro i j j' x y m₁ m₂ m₁' m₂' H₁ H₂ H₃ hij hjj' hfirst hsecond hasks hheld _ hasks' hasks₃ _
  rcases hasks'.2.2 _ hheld with hbefore | ⟨g, hg, hguard, ⟨hmay, hrow, hne⟩ | ⟨hrow, hne⟩⟩
  · exact hbefore
  · -- the row that is held: whoever waits for it has the same guard
    exfalso
    rcases hrows i j x hij hrow hasks.1 hmay with ⟨_, hnone⟩ | ⟨g', hg', hgj⟩
    · rw [hnone] at hg
      cases hg
    · rw [hgj] at hg
      cases hg
      exact not_both_past hg' (hasks.2.1 g hg' hne) hguard hfirst
  · -- the row that is asked for: whoever has it has the same guard
    exfalso
    rcases hrows j j' y hjj' hrow hasks'.1 hasks₃.1 with ⟨hnone, _⟩ | ⟨g', hgj, hg'⟩
    · rw [hnone] at hg
      cases hg
    · rw [hgj] at hg
      cases hg
      exact not_both_past hg' hguard (hasks₃.2.1 g hg' hne) hsecond

/-- The upload is completed while another content is put to the same key. -/
def apartRequests : Fin 2 → Request
  | 0 => pendingRequests 0
  | 1 => ⟨.sample, .put ⟨"docs".toList, "a".toList, some [9], none, none, none, none, none⟩⟩

theorem rowsApart_apart : RowsApart .sample pendingCatalog apartRequests := by
  have hnone : ∀ lock, isAdvisory lock = false →
      (apartRequests 0).call.MayLock .sample pendingCatalog lock →
      ¬ (apartRequests 1).call.MayLock .sample pendingCatalog lock := by
    rintro (id | u | k) hrow h₀ h₁
    · cases hrow
    · exact h₁
    · rcases h₁ with ⟨body, hbody, rfl⟩
      cases hbody
      rcases h₀ with heq | ⟨r, hr, _⟩ | ⟨p, hp, _⟩
      · exact absurd heq (by decide +kernel)
      · cases hr
      · cases hp
  intro i j lock hij hrow hi hj
  match i, j with
  | 0, 0 => exact absurd rfl hij
  | 0, 1 => exact absurd hj (hnone lock hrow hi)
  | 1, 0 => exact absurd hi (hnone lock hrow hj)
  | 1, 1 => exact absurd rfl hij

theorem completion_deadlock_free_apart : ∃ w, Reach (engine allLocks)
        (requestWorld .sample apartRequests pendingCatalog fun _ => 2) w ∧
      w.waits (engine allLocks) 0 1 = true ∧ ¬ w.Deadlocked (engine allLocks) := by
  have hrun : ((requestWorld .sample apartRequests pendingCatalog fun _ => 2).run
      (engine allLocks) (List.replicate 14 0 ++ List.replicate 8 1 ++ [0])).any
      (fun w => w.waits (engine allLocks) 0 1) = true := by
    decide +kernel
  obtain ⟨w, hreach, hwaits⟩ := Reach.of_run _ hrun
  have hracing : ∀ i, (apartRequests i).call.Racing := Fin.forall_fin_two.mpr ⟨trivial, trivial⟩
  exact ⟨w, hreach, hwaits, completion_deadlock_free .sample apartRequests pendingCatalog _
    hracing rowsApart_apart w hreach⟩

end Pgs3.Concurrent
