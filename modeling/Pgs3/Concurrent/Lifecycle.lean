import Pgs3.Concurrent.CallsObey

/-!
# Bucket lifecycle and lock order, over every interleaving

Whatever the calls of any number of transactions are and however their statements interleave,
the catalog stays valid, a bucket is only dropped while it is empty, its id never comes back,
and a version is stored in the bucket that its name denotes when its writer commits.  And
because all calls ask for the advisory locks in one order, they never wait for each other in a
circle.
-/

namespace Pgs3.Concurrent

open Foundation Foundation.Locks
open Foundation.Locks.Call (view next emit ask orRaise ofExcept raiseIf whenever each)

/-! ## 1. What holds when a call commits -/

/-- Versions are inserted for such names, and each one is in the bucket that its name denotes
    after the commit. -/
def WrittenWhereNamed (P : Text → Prop) (ws : List CatalogWrite) (s : Catalog) : Prop :=
  ∀ name rows, .insertObjects name rows ∈ ws → P name ∧ ∀ o ∈ rows,
    ∃ b ∈ (overlay ws s).bucket, b.name = name ∧ b.bucketId = o.bucketId

/-- A bucket that is dropped was there and has no version. -/
def DroppedEmpty (ws : List CatalogWrite) (s : Catalog) : Prop :=
  ∀ id, .deleteBucket id ∈ ws → (∃ b ∈ s.bucket, b.bucketId = id) ∧
    (∀ b ∈ (overlay ws s).bucket, b.bucketId ≠ id) ∧ ∀ o ∈ s.object, o.bucketId ≠ id

def lifecycleDuty (P : Text → Prop) : Duty system Unit where
  asks := asksInOrder
  raises := noForeignKey
  ends := fun _ ws s => WrittenWhereNamed P ws s ∧ DroppedEmpty ws s

variable {counted : CatalogLock → Bool} {l : LockList} {W : CatalogWrite → Prop}
  {c : Standing system} {b : BucketRow} {ctx : Context} {id : Nat} {name key : Text}
  {P : Text → Prop}

/-- Where it stands, the call may commit. -/
abbrev MayCommit (counted : CatalogLock → Bool) (P : Text → Prop) (c : Standing system) : Prop :=
  Commits (engine counted) bucketRules (lifecycleDuty P) () c

/-- A row that is added for this bucket id has its bucket afterwards, and the lifecycle lock of
    the bucket is held if it was there before. -/
structure Homed (c : Standing system) (s t : Catalog) (id : Nat) : Prop where
  home : ∃ b ∈ t.bucket, b.bucketId = id
  guarded : ∀ b ∈ s.bucket, b.bucketId = id → Locked c.held b.name

/-- What a call that commits has to show of the buckets before and after it. -/
structure Lawful (c : Standing system) (s t : Catalog) : Prop where
  ids : ∀ b ∈ t.bucket, ∀ b' ∈ t.bucket, b.bucketId = b'.bucketId → b = b'
  names : ∀ b ∈ t.bucket, ∀ b' ∈ t.bucket, b.name = b'.name → b = b'
  drawn : ∀ b ∈ t.bucket, b ∈ s.bucket ∨ (.bucketId, b.bucketId) ∈ c.drawn
  owned : ∀ b, ¬ (b ∈ s.bucket ↔ b ∈ t.bucket) → Owned c.held b.name
  objectStays : ∀ o ∈ t.object, ∀ b ∈ s.bucket, b.bucketId = o.bucketId → b ∈ t.bucket
  uploadStays : ∀ r ∈ t.upload, ∀ b ∈ s.bucket, b.bucketId = r.bucketId → b ∈ t.bucket
  objects : ∀ name rows, .insertObjects name rows ∈ c.writes → ∀ o ∈ rows, Homed c s t o.bucketId
  uploads : ∀ r, .insertUpload r ∈ c.writes → Homed c s t r.bucketId

theorem mayCommit_of_lawful (hblobs : ∀ x ∈ c.writes, ∀ k ∈ x.blobs, KnowsBlob c k)
    (hlawful : ∀ s, s.Valid → c.knows s → Lawful c s (overlay c.writes s) ∧
      WrittenWhereNamed P c.writes s ∧ DroppedEmpty c.writes s) : MayCommit counted P c := by
  constructor
  intro s hvalid hs
  rcases hlawful s hvalid hs with ⟨hl, hends⟩
  -- where an object version of the new state comes from
  have hobject : ∀ o ∈ (overlay c.writes s).object,
      (∃ o' ∈ s.object, o'.bucketId = o.bucketId ∧ o'.blobId = o.blobId) ∨
      (Homed c s (overlay c.writes s) o.bucketId ∧
        ∀ k ∈ o.blobId, (overlay c.writes s).HasBlob k) := by
    intro o ho
    rcases object_overlay ho with ⟨o', hid, hblob, hold | ⟨name, rows, hmem, ho'⟩⟩
    · exact Or.inl ⟨o', hold, hid, hblob⟩
    · rw [← hid, ← hblob]
      refine Or.inr ⟨hl.objects name rows hmem o' ho', ?_⟩
      intro k hk
      exact (hblobs _ hmem k (List.mem_filterMap.mpr ⟨o', ho', hk⟩)).overlay hs
  have hupload : ∀ r ∈ (overlay c.writes s).upload,
      (∃ r' ∈ s.upload, r'.uploadId = r.uploadId ∧ r'.bucketId = r.bucketId) ∨
      Homed c s (overlay c.writes s) r.bucketId := by
    intro r hr
    rcases upload_overlay hr with ⟨r', hu, hid, hold | hmem⟩
    · exact Or.inl ⟨r', hold, hu, hid⟩
    · rw [← hid]
      exact Or.inr (hl.uploads r' hmem)
  refine ⟨?_, ?_, ?_, hends⟩
  · -- the new state is valid
    change (overlay c.writes s).Valid
    refine ⟨hl.ids, hl.names, ?_, ?_, ?_, ?_, ?_⟩
    · intro o ho
      rcases hobject o ho with ⟨o', ho', hid, _⟩ | ⟨hnew, _⟩
      · rcases hvalid.objects o' ho' with ⟨b, hb, hb'⟩
        exact ⟨b, hl.objectStays o ho b hb (hb'.trans hid), hb'.trans hid⟩
      · exact hnew.home
    · intro r hr
      rcases hupload r hr with ⟨r', hr', _, hid⟩ | hnew
      · rcases hvalid.uploads r' hr' with ⟨b, hb, hb'⟩
        exact ⟨b, hl.uploadStays r hr b hb (hb'.trans hid), hb'.trans hid⟩
      · exact hnew.home
    · intro o ho k hk
      rcases hobject o ho with ⟨o', ho', _, hblob⟩ | ⟨_, hnew⟩
      · exact hasBlob_overlay (hvalid.objectBlobs o' ho' k (hblob ▸ hk))
      · exact hnew k hk
    · exact fun r hr => hasBlob_overlay (hvalid.chunkBlobs r (uploadChunk_overlay hr))
    · exact fun p hp => hasBlob_overlay (hvalid.partBlobs p (uploadPart_overlay hp))
  · -- only what its locks guard has changed
    change Guarded c.held s (overlay c.writes s)
    refine ⟨hl.owned, ?_, ?_, fun k hk => hasBlob_overlay hk⟩
    · intro b hb o ho hid
      rcases hobject o ho with ⟨o', ho', hid', _⟩ | ⟨hnew, _⟩
      · exact Or.inl ⟨o', ho', hid'.trans hid⟩
      · exact Or.inr (hnew.guarded b hb hid.symm)
    · intro b hb r hr hid
      rcases hupload r hr with ⟨r', hr', hu, hid'⟩ | hnew
      · exact Or.inl ⟨r', hr', hu, hid'.trans hid⟩
      · exact Or.inr (hnew.guarded b hb hid.symm)
  · rintro (_ | _) n hused
    · rcases hused with ⟨b, hb, rfl⟩
      exact (hl.drawn b hb).imp_left fun hold => ⟨b, hold, rfl⟩
    · exact absurd hused not_false

/-- A call that has added children only to buckets whose lifecycle lock it holds may commit. -/
theorem mayCommit_children (h : Settled counted l W c) (hW : Allowed W)
    (hP : ∀ name rows, .insertObjects name rows ∈ c.writes → P name)
    (hobjects : ∀ s, c.knows s → ∀ name rows, .insertObjects name rows ∈ c.writes →
      ∀ o ∈ rows, ∃ b ∈ s.bucket, b.name = name ∧ b.bucketId = o.bucketId ∧ Locked c.held b.name)
    (huploads : ∀ s, c.knows s → ∀ r, .insertUpload r ∈ c.writes →
      ∃ b ∈ s.bucket, b.bucketId = r.bucketId ∧ Locked c.held b.name) : MayCommit counted P c := by
  apply mayCommit_of_lawful h.blobs
  intro s hvalid hs
  have hbucket : (overlay c.writes s).bucket = s.bucket := h.bucket_eq hW.keeps s
  have hhomed : ∀ b ∈ s.bucket, Locked c.held b.name →
      Homed c s (overlay c.writes s) b.bucketId := by
    intro b hb hlocked
    constructor
    · rw [hbucket]
      exact ⟨b, hb, rfl⟩
    · intro b' hb' hid
      rw [hvalid.ids b' hb' b hb hid]
      exact hlocked
  refine ⟨?_, ?_, ?_⟩
  · constructor <;> try rw [hbucket]
    · exact hvalid.ids
    · exact hvalid.names
    · exact fun b hb => Or.inl hb
    · exact fun b hchanged => absurd Iff.rfl hchanged
    · exact fun _ _ b hb _ => hb
    · exact fun _ _ b hb _ => hb
    · intro name rows hmem o ho
      rcases hobjects s hs name rows hmem o ho with ⟨b, hb, _, hid, hlocked⟩
      exact hid ▸ hhomed b hb hlocked
    · intro r hmem
      rcases huploads s hs r hmem with ⟨b, hb, hid, hlocked⟩
      exact hid ▸ hhomed b hb hlocked
  · intro name rows hmem
    refine ⟨hP name rows hmem, ?_⟩
    intro o ho
    rcases hobjects s hs name rows hmem o ho with ⟨b, hb, hname, hid, _⟩
    rw [hbucket]
    exact ⟨b, hb, hname, hid⟩
  · intro id hmem
    exact (hW.keeps _ (h.writes _ hmem)).elim

theorem mayCommit_endsInSome (h : EndsInSome counted P c) : MayCommit counted P c := by
  rcases h with ⟨l, id, _, hP, b, _, rfl, hsettled, hchild⟩
  refine mayCommit_children hsettled (allowed_childWrite b) ?_ ?_ ?_
  · intro name rows hmem
    rw [(hsettled.writes _ hmem).1]
    exact hP
  · intro s hs name rows hmem o ho
    rcases hsettled.writes _ hmem with ⟨hname, hid⟩
    exact ⟨b, hchild.found s hs, hname.symm, (hid o ho).symm, hchild.locked⟩
  · intro s hs r hmem
    have hid : r.bucketId = b.bucketId := hsettled.writes _ hmem
    exact ⟨b, hchild.found s hs, hid.symm, hchild.locked⟩

theorem mayCommit_harmless (h : Settled counted l Harmless c) : MayCommit counted P c := by
  refine mayCommit_children h allowed_harmless ?_ ?_ ?_
  · exact fun name rows hmem => (h.writes _ hmem).elim
  · exact fun s _ name rows hmem => (h.writes _ hmem).elim
  · exact fun s _ r hmem => (h.writes _ hmem).elim

/-! ## 2. Calls that create a bucket -/

def NoWrite : CatalogWrite → Prop := fun _ => False

/-- A write of a call that creates one bucket and fills it. -/
def Founding (row : BucketRow) : CatalogWrite → Prop
  | .insertBucket r => r = row
  | .insertObjects name rows => name = row.name ∧ ∀ o ∈ rows, o.bucketId = row.bucketId
  | _ => False

/-- The new bucket has a name that is free, an id that was drawn for it, and is inserted. -/
structure Founds (row : BucketRow) (c : Standing system) : Prop where
  owned : Owned c.held row.name
  drawn : (.bucketId, row.bucketId) ∈ c.drawn
  inserted : .insertBucket row ∈ c.writes
  free : ∀ s, c.knows s → ∀ b ∈ s.bucket, b.name ≠ row.name
  unused : ∀ s, c.knows s → ∀ b ∈ s.bucket, b.bucketId ≠ row.bucketId

variable {row : BucketRow}

theorem Founds.mono {c' : Standing system} (h : Founds row c) (hgrows : Grows c c') :
    Founds row c' where
  owned := hgrows.held h.owned
  drawn := hgrows.drawn h.drawn
  inserted := hgrows.writes h.inserted
  free := fun s hs => h.free s (hgrows.knows s hs)
  unused := fun s hs => h.unused s (hgrows.knows s hs)

theorem mem_bucket_founding {ws : List CatalogWrite} (hws : ∀ x ∈ ws, Founding row x)
    {s : Catalog} {b : BucketRow} : b ∈ (overlay ws s).bucket ↔
      b ∈ s.bucket ∨ (b = row ∧ .insertBucket row ∈ ws) := by
  induction ws generalizing s with
  | nil => simp [overlay]
  | cons x ws ih =>
    have hx := hws x List.mem_cons_self
    have hrest := ih (fun y hy => hws y (List.mem_cons_of_mem _ hy)) (s := x.apply s)
    change b ∈ (overlay ws (x.apply s)).bucket ↔ _
    rw [hrest]
    cases x with
    | insertBucket r =>
      have hr : r = row := hx
      subst hr
      simp only [CatalogWrite.apply, List.mem_append, List.mem_cons]
      tauto
    | insertObjects name rows => simp [CatalogWrite.apply]
    | _ => exact hx.elim

theorem mayCommit_founding (h : Settled counted l (Founding row) c) (hfounds : Founds row c) :
    MayCommit counted (· = row.name) c := by
  apply mayCommit_of_lawful h.blobs
  intro s hvalid hs
  have hbucket : ∀ b, b ∈ (overlay c.writes s).bucket ↔ b ∈ s.bucket ∨ b = row := by
    intro b
    rw [mem_bucket_founding h.writes]
    simp [hfounds.inserted]
  refine ⟨?_, ?_, fun id hmem => (h.writes _ hmem).elim⟩
  · constructor
    · intro b hb b' hb' hid
      rcases (hbucket b).mp hb with hb | rfl
      · rcases (hbucket b').mp hb' with hb' | rfl
        · exact hvalid.ids b hb b' hb' hid
        · exact absurd hid (hfounds.unused s hs b hb)
      · rcases (hbucket b').mp hb' with hb' | rfl
        · exact absurd hid.symm (hfounds.unused s hs b' hb')
        · rfl
    · intro b hb b' hb' hname
      rcases (hbucket b).mp hb with hb | rfl
      · rcases (hbucket b').mp hb' with hb' | rfl
        · exact hvalid.names b hb b' hb' hname
        · exact absurd hname (hfounds.free s hs b hb)
      · rcases (hbucket b').mp hb' with hb' | rfl
        · exact absurd hname.symm (hfounds.free s hs b' hb')
        · rfl
    · intro b hb
      rcases (hbucket b).mp hb with hb | rfl
      · exact Or.inl hb
      · exact Or.inr hfounds.drawn
    · intro b hchanged
      by_cases hb : b ∈ s.bucket
      · exact absurd ⟨fun _ => (hbucket b).mpr (Or.inl hb), fun _ => hb⟩ hchanged
      · by_cases hrow : b = row
        · rw [hrow]
          exact hfounds.owned
        · exact absurd (iff_of_false hb fun h => ((hbucket b).mp h).elim hb hrow) hchanged
    · exact fun _ _ b hb _ => (hbucket b).mpr (Or.inl hb)
    · exact fun _ _ b hb _ => (hbucket b).mpr (Or.inl hb)
    · -- a new version is one of the new bucket
      intro name rows hmem o ho
      rw [(h.writes _ hmem).2 o ho]
      exact ⟨⟨row, (hbucket row).mpr (Or.inr rfl), rfl⟩,
        fun b hb hid => absurd hid (hfounds.unused s hs b hb)⟩
    · exact fun r hmem => (h.writes _ hmem).elim
  · intro name rows hmem
    rcases h.writes _ hmem with ⟨hname, hid⟩
    refine ⟨hname, ?_⟩
    intro o ho
    exact ⟨row, (hbucket row).mpr (Or.inr rfl), hname.symm, (hid o ho).symm⟩

theorem obeys_insertBucket {config : Jsonb} (h : Settled counted l NoWrite c)
    (howned : Owned c.held name) :
    (insertBucket ctx name config).Obeys (engine counted) bucketRules asksInOrder noForeignKey c
      fun id c' => ∃ row, row.bucketId = id ∧ row.name = name ∧
        Settled counted l (Founding row) c' ∧ Grows c c' ∧ Founds row c' := by
  unfold insertBucket
  refine Goes.then (goes_next (F := fun n c' => (.bucketId, n) ∈ c'.drawn ∧
    ∀ s, c'.knows s → ∀ b ∈ s.bucket, b.bucketId ≠ n) h ?_) ?_
  · intro n
    exact ⟨List.mem_cons_self, fun s hs b hb hid => hs.2 ⟨b, hb, hid⟩⟩
  rintro n c₁ hc₁ hgrows₁ ⟨hdrawn, hunused⟩
  have howned₁ := hgrows₁.held howned
  refine Goes.then (goes_view (F := fun s c' => c'.drawn = c₁.drawn ∧
    ((∀ b ∈ s.bucket, b.name ≠ name) → ∀ s', c'.knows s' → ∀ b ∈ s'.bucket, b.name ≠ name))
    hc₁ ?_) ?_
  · intro s _ _
    refine ⟨fun s' => (∀ b ∈ s.bucket, b.name ≠ name) → ∀ b ∈ s'.bucket, b.name ≠ name,
      fun hfree => hfree, ?_, rfl, ?_⟩
    · exact fun s₁ s₂ henv hs₁ hfree => stable_free howned₁ s₁ s₂ henv (hs₁ hfree)
    · rw [hc₁.bucket_eq fun _ hx => hx.elim]
      exact fun hfree s' hs' => hs'.2 hfree
  rintro s c₂ hc₂ hgrows₂ ⟨hdrawn₂, hfree⟩
  refine keeps_unless (fun _ => SqlState.noConfusion) fun hnone => ?_
  have hgrows := hgrows₁.trans hgrows₂
  have hsettled : Settled counted l (Founding ⟨n, name, ctx.actor, ctx.now, config⟩) c₂ :=
    hc₂.mono (List.Subset.refl _) fun _ hx => hx.elim
  refine Goes.then (goes_emit (F := fun _ c' => Founds ⟨n, name, ctx.actor, ctx.now, config⟩ c')
    hsettled rfl (fun _ hk => absurd hk List.not_mem_nil) ?_) ?_
  · constructor
    · exact hgrows.held howned
    · rw [hdrawn₂]
      exact hdrawn
    · exact List.mem_append_right _ (List.mem_singleton_self _)
    · exact hfree fun b hb hname => hnone ⟨b, hb, hname⟩
    · exact fun s' hs' => hunused s' (hgrows₂.knows s' hs')
  intro _ c₄ hc₄ hgrows₄ hfounds
  exact Call.obeys_pure ⟨_, rfl, rfl, hc₄, hgrows.trans hgrows₄, hfounds⟩

variable (hcounted : ∀ id, counted (.advisory id) = true)

include hcounted in
theorem goes_firstName {m : LockMode} (h : Settled counted [] W c) :
    Goes counted c (ask (lifecycleLock name) m) [(.lifecycle name, m)] W
      fun _ c' => Had c' (.lifecycle name) m :=
  goes_lock (a := .lifecycle name) hcounted h (List.nil_subset _) List.mem_cons_self
    (Or.inr (admits_nil _))

include hcounted in
theorem obeys_createBucket {config : Jsonb} :
    Finishes counted atStart (createBucket ctx name config) (MayCommit counted (· = name)) := by
  unfold createBucket lockBucketLifecycle
  refine (goes_validateBucketName (settled_atStart NoWrite)).still fun _ => ?_
  refine keeps_check SqlState.noConfusion ?_
  refine Goes.then (goes_firstName hcounted (settled_atStart NoWrite)) ?_
  intro _ c₃ hc₃ _ hhad
  refine keeps_look hc₃ fun s _ => ?_
  cases s.bucket.find? fun b => b.name = name with
  | some b =>
    -- the bucket is opened again, and nothing is written
    refine Call.Obeys.mono ?_ (goes_check hc₃ SqlState.noConfusion)
    rintro _ c₅ ⟨hc₅, _, _⟩
    exact mayCommit_harmless (hc₅.mono (List.Subset.refl _) fun _ hx => hx.elim)
  | none =>
    apply Call.obeys_bind
    refine Call.Obeys.mono ?_ (obeys_insertBucket hc₃ hhad.owned)
    rintro _ c₅ ⟨row, _, rfl, hc₅, _, hfounds⟩
    exact Call.obeys_pure (mayCommit_founding hc₅ hfounds)

def forkLocks (source destination : Text) : LockList :=
  [(.lifecycle destination, .exclusive), (.lifecycle source, .shared),
    (.lifecycle source, .exclusive)]

include hcounted in
theorem goes_lockForkNames {source destination : Text} (h : Settled counted [] W c) :
    Goes counted c (lockForkNames source destination) (forkLocks source destination) W
      fun _ c' => Locked c'.held source ∧ Owned c'.held destination := by
  unfold lockForkNames lockBucketLifecycle
  split
  · rename_i hless
    refine Goes.bind (goes_firstName hcounted h) ?_
    intro _ c₁ hc₁ _ hsource
    refine (goes_lock (a := .lifecycle destination) hcounted hc₁ (by simp [forkLocks])
      (by simp [forkLocks]) (Or.inr ?_)).imp fun _ c₂ _ hgrows₂ hhad =>
        ⟨(hsource.mono hgrows₂).locked, hhad.owned⟩
    intro p hp
    rw [List.mem_singleton.mp hp]
    exact LockName.lifecycle_lt_lifecycle hless
  · split
    · rename_i hless
      refine Goes.bind (goes_firstName hcounted h) ?_
      intro _ c₁ hc₁ _ hdestination
      refine (goes_lock (a := .lifecycle source) hcounted hc₁ (by simp [forkLocks])
        (by simp [forkLocks]) (Or.inr ?_)).imp fun _ c₂ _ hgrows₂ hhad =>
          ⟨hhad.locked, (hdestination.mono hgrows₂).owned⟩
      intro p hp
      rw [List.mem_singleton.mp hp]
      exact LockName.lifecycle_lt_lifecycle hless
    · rename_i hge hge'
      have heq : source = destination := le_antisymm (not_lt.mp hge') (not_lt.mp hge)
      subst heq
      refine ((goes_firstName hcounted h).weaken ?_).imp ?_
      · simp [forkLocks]
      · exact fun _ _ _ _ hhad => ⟨Or.inr hhad.owned, hhad.owned⟩

theorem goes_forkRows {os : List ObjectRow} (h : Settled counted l W c) :
    Goes counted c (forkRows ctx id os) l W fun rows _ =>
      ∀ o ∈ rows, o.bucketId = id ∧ ∃ o' ∈ os, o'.blobId = o.blobId := by
  induction os generalizing c with
  | nil => exact goes_pure h fun _ ho => absurd ho List.not_mem_nil
  | cons o os ih =>
    unfold forkRows
    refine Goes.bind (goes_next (F := fun _ _ => True) h fun _ => trivial) ?_
    intro versionId c₁ hc₁ _ _
    refine Goes.bind (ih hc₁) ?_
    intro rows c₂ hc₂ _ hrows
    apply goes_pure hc₂
    intro x hx
    rcases List.mem_cons.mp hx with rfl | hx
    · exact ⟨rfl, o, List.mem_cons_self, rfl⟩
    · rcases hrows x hx with ⟨hid, o', ho', hblob⟩
      exact ⟨hid, o', List.mem_cons_of_mem _ ho', hblob⟩

/-- The rows of a fork belong to the new bucket, and their blobs are those of rows that the
    snapshot shows. -/
theorem goes_forkInto {sourceId : Nat} (h : Settled counted l (Founding row) c) :
    Goes counted c (forkInto ctx sourceId row.bucketId row.name) l (Founding row)
      fun _ _ => True := by
  unfold forkInto
  refine Goes.bind (goes_see h) ?_
  rintro s c₁ hc₁ _ ⟨_, ⟨s₀, hvalid, _, rfl⟩, hblobs⟩
  refine Goes.bind (goes_forkRows hc₁) ?_
  intro rows c₂ hc₂ hgrows₂ hrows
  refine Goes.bind (goes_emit (F := fun _ _ => True) hc₂ ⟨rfl, fun o ho => (hrows o ho).1⟩ ?_
    trivial) ?_
  · intro k hk
    rcases List.mem_filterMap.mp hk with ⟨o, ho, hblob⟩
    rcases (hrows o ho).2 with ⟨o', ho', hsame⟩
    rcases object_overlay (List.mem_filter.mp ho').1 with ⟨o'', _, hsame', hold | hnew⟩
    · have hmem : k ∈ o''.blobId := by
        rw [hsame', hsame]
        exact hblob
      exact (hblobs k (hasBlob_overlay (hvalid.objectBlobs o'' hold k hmem))).mono hgrows₂
    · rcases hnew with ⟨name, rows', hinsert, ho''⟩
      have hmem : k ∈ CatalogWrite.blobs (.insertObjects name rows') := by
        refine List.mem_filterMap.mpr ⟨o'', ho'', ?_⟩
        rw [hsame', hsame]
        exact hblob
      exact (h.blobs _ hinsert k hmem).mono (Grows.trans ‹_› hgrows₂)
  · intro _ c₃ hc₃ _ _
    exact goes_updateRefcounts hc₃

include hcounted in
theorem obeys_forkBucket {source destination : Text} {config : Option Jsonb} :
    Finishes counted atStart (forkBucket ctx source destination config)
      (MayCommit counted (· = destination)) := by
  unfold forkBucket
  refine (goes_validateBucketName (settled_atStart NoWrite)).still fun _ => ?_
  refine keeps_check SqlState.noConfusion ?_
  refine Goes.then (goes_lockForkNames hcounted (settled_atStart NoWrite)) ?_
  rintro _ c₃ hc₃ _ ⟨hlocked, howned⟩
  refine Goes.then (goes_bucketIdOf hc₃ (fun _ hx => hx.elim) hlocked) ?_
  intro sourceId c₄ hc₄ hgrows₄ _
  refine keeps_look hc₄ fun s _ => ?_
  refine keeps_orRaise SqlState.noConfusion fun sourceRow _ => ?_
  apply Call.obeys_bind
  refine Call.Obeys.mono ?_ (obeys_insertBucket hc₄ (hgrows₄.held howned))
  rintro _ c₇ ⟨row, rfl, rfl, hc₇, _, hfounds⟩
  refine Call.Obeys.mono ?_ (goes_forkInto hc₇)
  rintro _ c₈ ⟨hc₈, hgrows₈, _⟩
  exact mayCommit_founding hc₈ (hfounds.mono hgrows₈)

/-! ## 3. Deleting a bucket -/

/-- The bucket is there and empty, its uploads are among these, and its exclusive lock is
    held. -/
structure Empties (b : BucketRow) (us : List Uuid) (c : Standing system) : Prop where
  owned : Owned c.held b.name
  found : ∀ s, c.knows s → b ∈ s.bucket
  empty : ∀ s, c.knows s → ∀ o ∈ s.object, o.bucketId ≠ b.bucketId
  uploads : ∀ s, c.knows s → ∀ r ∈ s.upload, r.bucketId = b.bucketId → r.uploadId ∈ us

variable {us : List Uuid}

theorem Empties.mono {c' : Standing system} (h : Empties b us c) (hgrows : Grows c c') :
    Empties b us c' where
  owned := hgrows.held h.owned
  found := fun s hs => h.found s (hgrows.knows s hs)
  empty := fun s hs => h.empty s (hgrows.knows s hs)
  uploads := fun s hs => h.uploads s (hgrows.knows s hs)

theorem Empties.unreferenced {s : Catalog} (h : Empties b us c)
    (hsettled : Settled counted l Harmless c) (hdeleted : ∀ u ∈ us, .deleteUpload u ∈ c.writes)
    (hs : c.knows s) : (∀ o ∈ (overlay c.writes s).object, o.bucketId ≠ b.bucketId) ∧
    ∀ r ∈ (overlay c.writes s).upload, r.bucketId ≠ b.bucketId := by
  constructor
  · intro o ho hid
    rcases object_overlay ho with ⟨o', hid', _, hold | ⟨name, rows, hmem, _⟩⟩
    · exact h.empty s hs o' hold (hid'.trans hid)
    · exact hsettled.writes _ hmem
  · intro r hr hid
    rcases upload_overlay hr with ⟨r', hu, hid', hold | hmem⟩
    · have hlisted := h.uploads s hs r' hold (hid'.trans hid)
      rw [hu] at hlisted
      exact upload_overlay_deleted (fun _ hm => hsettled.writes _ hm) (hdeleted _ hlisted) hr rfl
    · exact hsettled.writes _ hmem

theorem mayCommit_dropped (h : Settled counted l Harmless c) (hempties : Empties b us c)
    (hdeleted : ∀ u ∈ us, .deleteUpload u ∈ c.writes) :
    MayCommit counted P { c with writes := c.writes ++ [.deleteBucket b.bucketId] } := by
  -- the last write is the one that is not harmless
  have hmem : ∀ x ∈ c.writes ++ [.deleteBucket b.bucketId],
      Harmless x ∨ x = .deleteBucket b.bucketId := by
    intro x hx
    rcases List.mem_append.mp hx with hx | hx
    · exact Or.inl (h.writes x hx)
    · exact Or.inr (List.mem_singleton.mp hx)
  apply mayCommit_of_lawful
  · intro x hx k hk
    rcases List.mem_append.mp hx with hx | hx
    · exact (h.blobs x hx k hk).mono ⟨List.Subset.refl _, List.Subset.refl _,
        List.subset_append_left _ _, fun _ hs => hs⟩
    · rw [List.mem_singleton.mp hx] at hk
      cases hk
  intro s hvalid hs
  have hb := hempties.found s hs
  rcases hempties.unreferenced h hdeleted hs with ⟨hobjects, huploads⟩
  have hbucket : ∀ b', b' ∈ (overlay (c.writes ++ [.deleteBucket b.bucketId]) s).bucket ↔
      b' ∈ s.bucket ∧ b'.bucketId ≠ b.bucketId := by
    intro b'
    rw [overlay_append]
    change b' ∈ (overlay c.writes s).bucket.filter _ ↔ _
    rw [List.mem_filter, h.bucket_eq allowed_harmless.keeps, decide_eq_true_eq]
  refine ⟨?_, ?_, ?_⟩
  · constructor
    · exact fun b₁ h₁ b₂ h₂ => hvalid.ids b₁ ((hbucket b₁).mp h₁).1 b₂ ((hbucket b₂).mp h₂).1
    · exact fun b₁ h₁ b₂ h₂ => hvalid.names b₁ ((hbucket b₁).mp h₁).1 b₂ ((hbucket b₂).mp h₂).1
    · exact fun b' hb' => Or.inl ((hbucket b').mp hb').1
    · intro b' hchanged
      rw [hbucket] at hchanged
      by_cases hid : b'.bucketId = b.bucketId
      · by_cases hb' : b' ∈ s.bucket
        · rw [hvalid.ids b' hb' b hb hid]
          exact hempties.owned
        · exact absurd (iff_of_false hb' fun h => hb' h.1) hchanged
      · exact absurd ⟨fun hb' => ⟨hb', hid⟩, fun h => h.1⟩ hchanged
    · intro o ho b' hb' hid
      rw [overlay_append] at ho
      exact (hbucket b').mpr ⟨hb', fun hid' => hobjects o ho (hid.symm.trans hid')⟩
    · intro r hr b' hb' hid
      rw [overlay_append] at hr
      exact (hbucket b').mpr ⟨hb', fun hid' => huploads r hr (hid.symm.trans hid')⟩
    · exact fun name rows hx => ((hmem _ hx).resolve_right CatalogWrite.noConfusion).elim
    · exact fun r hx => ((hmem _ hx).resolve_right CatalogWrite.noConfusion).elim
  · exact fun name rows hx => ((hmem _ hx).resolve_right CatalogWrite.noConfusion).elim
  · intro id hx
    cases (hmem _ hx).resolve_left not_false
    exact ⟨⟨b, hb, rfl⟩, fun b' hb' => ((hbucket b').mp hb').2, hempties.empty s hs⟩

theorem goes_cascades {us : List Uuid} (h : Settled counted l W c) (hW : Allowed W) :
    Goes counted c (each cascadeUpload us) l W fun _ c' => ∀ u ∈ us, .deleteUpload u ∈ c'.writes := by
  induction us generalizing c with
  | nil => exact ⟨h, Grows.refl c, fun _ hu => absurd hu List.not_mem_nil⟩
  | cons u us ih =>
    refine Goes.bind (f := fun _ => each cascadeUpload us) (goes_cascadeUpload h hW) ?_
    intro _ c₁ hc₁ _ hfirst
    refine (ih hc₁).imp ?_
    intro _ c₂ _ hgrows₂ hrest v hv
    rcases List.mem_cons.mp hv with rfl | hv
    · exact hgrows₂.writes hfirst
    · exact hrest v hv

/-- Afterwards all uploads of the bucket are deleted, and no other one can have come. -/
theorem goes_deleteUploadsOf (h : Settled counted l NoWrite c) (howned : Owned c.held b.name)
    (hfound : ∀ s, c.knows s → b ∈ s.bucket)
    (hempty : ∀ s, c.knows s → ∀ o ∈ s.object, o.bucketId ≠ b.bucketId) :
    Goes counted c (deleteUploadsOf b.bucketId) l Harmless fun _ c' =>
      ∃ us, Empties b us c' ∧ ∀ u ∈ us, .deleteUpload u ∈ c'.writes := by
  unfold deleteUploadsOf
  have hview : Goes counted c view l NoWrite fun s c' =>
      Empties b ((s.upload.filter fun r => r.bucketId = b.bucketId).map (·.uploadId)) c' := by
    apply goes_view h
    intro s _ hs
    refine ⟨fun s' => b ∈ s'.bucket ∧ ∀ r ∈ s'.upload, r.bucketId = b.bucketId →
      r.uploadId ∈ ((overlay c.writes s).upload.filter fun r => r.bucketId = b.bucketId).map
        (·.uploadId), ⟨hfound s hs, ?_⟩, stable_uploads howned, ?_⟩
    · have hnone : c.writes = [] := List.eq_nil_iff_forall_not_mem.mpr h.writes
      intro r hr hid
      rw [hnone]
      exact List.mem_map_of_mem (List.mem_filter.mpr ⟨hr, decide_eq_true hid⟩)
    · exact ⟨howned, fun s' hs' => hs'.2.1, fun s' hs' => hempty s' hs'.1, fun s' hs' => hs'.2.2⟩
  refine hview.bind ?_
  intro s c₁ hc₁ _ hempties
  refine Goes.bind (goes_each (I := fun _ => True) hc₁ trivial fun u _ c' hc' _ =>
    goes_row hc' rfl) ?_
  intro _ c₂ hc₂ hgrows₂ _
  have hsettled : Settled counted l Harmless c₂ :=
    hc₂.mono (List.Subset.refl _) fun _ hx => hx.elim
  refine (goes_cascades hsettled allowed_harmless).imp ?_
  exact fun _ c₃ _ hgrows₃ hdeleted => ⟨_, hempties.mono (hgrows₂.trans hgrows₃), hdeleted⟩

include hcounted in
theorem obeys_deleteBucket :
    Finishes counted atStart (deleteBucket ctx name) (MayCommit counted P) := by
  unfold deleteBucket lockBucketLifecycle
  refine Goes.then (goes_firstName hcounted (settled_atStart NoWrite)) ?_
  intro _ c₁ hc₁ _ hhad
  refine Goes.then (goes_bucketIdOf hc₁ (fun _ hx => hx.elim) (Or.inr hhad.owned)) ?_
  rintro _ c₂ hc₂ hgrows₂ ⟨b, rfl, rfl, hchild⟩
  have howned := hgrows₂.held hhad.owned
  -- the check that the bucket is empty, under the exclusive lock
  refine Goes.then (goes_view (F := fun s c' => (∀ o ∈ s.object, o.bucketId ≠ b.bucketId) →
    ∀ s', c'.knows s' → ∀ o ∈ s'.object, o.bucketId ≠ b.bucketId) hc₂ ?_) ?_
  · intro s _ hs
    have hnone : c₂.writes = [] := List.eq_nil_iff_forall_not_mem.mpr hc₂.writes
    refine ⟨fun s' => (∀ o ∈ s.object, o.bucketId ≠ b.bucketId) →
      b ∈ s'.bucket ∧ ∀ o ∈ s'.object, o.bucketId ≠ b.bucketId,
      fun hempty => ⟨hchild.found s hs, hempty⟩, ?_, ?_⟩
    · exact fun s₁ s₂ henv hs₁ hempty => stable_empty howned s₁ s₂ henv (hs₁ hempty)
    · rw [hnone]
      exact fun hempty s' hs' => (hs'.2 hempty).2
  intro s c₃ hc₃ hgrows₃ hempty
  refine keeps_unless (fun _ => SqlState.noConfusion) fun hnone => ?_
  refine Goes.then (goes_deleteUploadsOf hc₃ (hgrows₃.held howned) (hchild.mono hgrows₃).found
    (hempty fun o ho hid => hnone ⟨o, ho, hid⟩)) ?_
  rintro _ c₅ hc₅ _ ⟨us, hempties, hdeleted⟩
  unfold deleteBucketRow
  refine keeps_look hc₅ ?_
  rintro _ ⟨s', _, hs, rfl⟩
  rcases hempties.unreferenced hc₅ hdeleted hs with ⟨hobjects, huploads⟩
  refine keeps_unless (fun ⟨o, ho, hid⟩ => absurd hid (hobjects o ho)) fun _ => ?_
  refine keeps_unless (fun ⟨r, hr, hid⟩ => absurd hid (huploads r hr)) fun _ => ?_
  exact Call.obeys_emit (mayCommit_dropped hc₅ hempties hdeleted)

/-! ## 4. All calls -/

/-- The bucket names that a call writes versions for.  A completion takes the name of the
    bucket that its upload is in. -/
def ApiCall.target : ApiCall → Text → Prop
  | .createBucket name _, n | .deleteBucket name, n => n = name
  | .put r, n => n = r.bucket
  | .delete bucket _ _, n | .deleteMany bucket _ _, n | .restore bucket _ _ _, n => n = bucket
  | .copy r, n => n = r.destinationBucket
  | .forkBucket _ destination _, n => n = destination
  | .beginUpload r, n => n = r.bucket
  | .completeUpload _ _ _ _, _ | .workerCompleteUpload _ _ _ _ _ _ _, _ => True

include hcounted in
/-- Every call keeps to the rules, and may commit where it ends. -/
theorem body_obeys (H : Digests) (r : Request) :
    Finishes counted atStart (r.body H) (MayCommit counted r.call.target) := by
  have hsome : ∀ {p : CatalogCall Unit} {P : Text → Prop},
      Finishes counted atStart p (EndsInSome counted P) →
      Finishes counted atStart p (MayCommit counted P) :=
    fun h => Call.Obeys.mono (fun _ _ hends => mayCommit_endsInSome hends) h
  rcases r with ⟨ctx, call⟩
  cases call with
  | createBucket name config => exact obeys_createBucket hcounted
  | deleteBucket name => exact obeys_deleteBucket hcounted
  | put p => exact hsome (finishes_put hcounted)
  | delete bucket key version => exact hsome (finishes_delete hcounted)
  | deleteMany bucket keys versions => exact hsome (finishes_deleteMany hcounted)
  | copy p => exact hsome (finishes_copy hcounted)
  | restore bucket key version ifMatch => exact hsome (finishes_restore hcounted)
  | forkBucket source destination config => exact obeys_forkBucket hcounted
  | beginUpload p => exact hsome (finishes_beginUpload hcounted)
  | completeUpload u parts sum staged =>
    exact hsome (finishes_completeUpload hcounted (settled_atStart Harmless))
  | workerCompleteUpload actor bucket key u sum m staged =>
    exact hsome (finishes_workerCompleteUpload hcounted)

/-- The start of a run: nothing is in progress, and the sequence of the bucket ids is past those
    in use. -/
structure Starts (s : Catalog) (sequence : CatalogSequence → Nat) : Prop where
  valid : s.Valid
  ids : ∀ b ∈ s.bucket, b.bucketId < sequence .bucketId

variable {n : Nat} {s : Catalog} {sequence : CatalogSequence → Nat} {w : World n system Unit}

/-- The transactions of these requests, before any of them has begun. -/
def requestWorld (H : Digests) (requests : Fin n → Request) (s : Catalog)
    (sequence : CatalogSequence → Nat) : World n system Unit :=
  World.start s sequence fun i => (requests i).body H

include hcounted in
theorem sound_requestWorld (H : Digests) (requests : Fin n → Request) (h : Starts s sequence) :
    (requestWorld H requests s sequence).Sound (engine counted) bucketRules
      fun i => lifecycleDuty (requests i).call.target := by
  refine World.sound_start (R := bucketRules) h.valid ?_ ?_
  · rintro (_ | _) m hused
    · rcases hused with ⟨b, hb, rfl⟩
      exact h.ids b hb
    · exact absurd hused not_false
  · exact fun i => body_obeys hcounted H (requests i)

def allLocks : CatalogLock → Bool := fun _ => true

theorem fresh_after_commit {i : Fin n} {t : Tx system Unit} {d : Fin n → Duty system Unit}
    (h : w.Sound (engine counted) bucketRules d) (ht : w.tx i = some t) (hcall : t.call = .pure ())
    {id : Nat} (hused : ∃ b ∈ w.committed.bucket, b.bucketId = id)
    (hdropped : ∀ b ∈ (overlay t.writes w.committed).bucket, b.bucketId ≠ id)
    {w' : World n system Unit}
    (hw' : Reach (engine counted) (w.commit i (overlay t.writes w.committed)) w') :
    ∀ b ∈ w'.committed.bucket, b.bucketId ≠ id := by
  have hnever : ¬ bucketRules.used CatalogSequence.bucketId id w'.committed := by
    refine Reach.unused (h.commit ht hcall) ?_ ?_ hw'
    · rcases h.fresh .bucketId id hused with ⟨hlt, hgone⟩
      exact ⟨hlt, fun j u hu => hgone j u (World.tx_drop hu).2⟩
    · rintro ⟨b', hb', hid'⟩
      exact hdropped b' hb' hid'
  exact fun b hb hid => hnever ⟨b, hb, hid⟩

theorem step_of_pure {i : Fin n} {t : Tx system Unit} {w' : World n system Unit}
    (ht : w.tx i = some t) (hcall : t.call = .pure ())
    (hstep : w.step (engine counted) i = some w') :
    w' = w.commit i (overlay t.writes w.committed) := by
  unfold World.step at hstep
  rw [ht] at hstep
  simp only [hcall] at hstep
  exact (Option.some.inj hstep).symm

/-- **Bucket lifecycle.**  In every world that the calls can reach, each row has its bucket.
    A call that drops a bucket commits only while the bucket has no version, and no later world
    has one; the versions that a call commits are in the one bucket that their name denotes
    then; and no call ends in a foreign key violation. -/
theorem bucket_lifecycle_serialized {n : Nat} (H : Digests) (requests : Fin n → Request)
    (s : Catalog) (sequence : CatalogSequence → Nat) (hstart : Starts s sequence)
    (w : World n system Unit)
    (hw : Reach (engine allLocks) (requestWorld H requests s sequence) w) :
    (∀ o ∈ w.committed.object, ∃ b ∈ w.committed.bucket, b.bucketId = o.bucketId) ∧
    (∀ r ∈ w.committed.upload, ∃ b ∈ w.committed.bucket, b.bucketId = r.bucketId) ∧
    ∀ i t w', w.tx i = some t → w.step (engine allLocks) i = some w' →
      (∀ e, t.call = .raise e → e.sqlstate ≠ .«23503») ∧ (t.call = .pure () →
        (∀ id, .deleteBucket id ∈ t.writes → (∀ o ∈ w.committed.object, o.bucketId ≠ id) ∧
          ∀ w'', Reach (engine allLocks) w' w'' → ∀ o ∈ w''.committed.object, o.bucketId ≠ id) ∧
        ∀ name rows, .insertObjects name rows ∈ t.writes →
          (requests i).call.target name ∧ ∀ o ∈ rows, ∃ b ∈ w'.committed.bucket,
            b.name = name ∧ b.bucketId = o.bucketId ∧
            ∀ b' ∈ w'.committed.bucket, b'.name = name → b' = b) := by
  have hall : ∀ id, allLocks (.advisory id) = true := fun _ => rfl
  have hsound := hw.sound (sound_requestWorld hall H requests hstart)
  refine ⟨hsound.inv.objects, hsound.inv.uploads, ?_⟩
  intro i t w' ht hstep
  have hsound' := hsound.step hstep
  refine ⟨fun e hcall => hsound.raises ht hcall, ?_⟩
  intro hcall
  obtain rfl := step_of_pure ht hcall hstep
  rcases hsound.ends ht hcall with ⟨hwritten, hdropped⟩
  constructor
  · intro id hdelete
    rcases hdropped id hdelete with ⟨hused, hgone, hempty⟩
    refine ⟨hempty, ?_⟩
    intro w'' hw'' o ho hid
    -- a version would have a bucket row with the id that is spent
    rcases (hw''.sound hsound').inv.objects o ho with ⟨b, hb, hb'⟩
    exact fresh_after_commit hsound ht hcall hused hgone hw'' b hb (hb'.trans hid)
  · intro name rows hinsert
    rcases hwritten name rows hinsert with ⟨htarget, hrows⟩
    refine ⟨htarget, ?_⟩
    intro o ho
    rcases hrows o ho with ⟨b, hb, hname, hid⟩
    refine ⟨b, hb, hname, hid, ?_⟩
    intro b' hb' hname'
    exact hsound'.inv.names b' hb' b hb (hname'.trans hname.symm)

/-- A bucket is created, an object is put there and the bucket is deleted, all at once. -/
def docsRequests : Fin 3 → Request
  | 0 => ⟨.sample, .createBucket "docs".toList (.object [])⟩
  | 1 => ⟨.sample, .put ⟨"docs".toList, "a".toList, some [1], none, none, none, none, none⟩⟩
  | 2 => ⟨.sample, .deleteBucket "docs".toList⟩

def docsWorld : World 3 system Unit :=
  requestWorld .sample docsRequests .empty fun _ => 1

theorem starts_empty : Starts .empty fun _ => 1 :=
  ⟨Catalog.valid_empty, fun _ hb => absurd hb List.not_mem_nil⟩

/-- The put waits for the creation, and the deletion for the put. -/
def docsSchedule : List (Fin 3) :=
  List.replicate 5 0 ++ [1, 0] ++ List.replicate 17 1 ++ [2, 1] ++ List.replicate 3 2

theorem bucket_lifecycle_serialized_docs :
    ∃ w, Reach (engine allLocks) docsWorld w ∧ w.committed.object.length = 1 ∧
      ∀ o ∈ w.committed.object, ∃ b ∈ w.committed.bucket, b.bucketId = o.bucketId := by
  have hrun : (docsWorld.run (engine allLocks) docsSchedule).any
      (fun w => w.committed.object.length = 1) = true := by
    decide +kernel
  obtain ⟨w, hreach, hlength⟩ := Reach.of_run _ hrun
  refine ⟨w, hreach, of_decide_eq_true hlength, ?_⟩
  exact (bucket_lifecycle_serialized .sample docsRequests .empty _ starts_empty _ hreach).1

/-- **One lock order.**  With the advisory locks alone, the calls never wait for each other in a
    circle. -/
theorem advisory_locks_deadlock_free {n : Nat} (H : Digests) (requests : Fin n → Request)
    (s : Catalog) (sequence : CatalogSequence → Nat) (hstart : Starts s sequence)
    (w : World n system Unit)
    (hw : Reach (engine isAdvisory) (requestWorld H requests s sequence) w) :
    ¬ w.Deadlocked (engine isAdvisory) := by
  have hadvisory : ∀ id, isAdvisory (.advisory id) = true := fun _ => rfl
  have hsound := hw.sound (sound_requestWorld hadvisory H requests hstart)
  apply no_deadlock Before hsound
  intro i j j' r r' m₁ m₂ m₁' m₂' H₁ H₂ H₃ _ _ hr hr' _ _ hasks hheld _ hasks' _ _
  rcases hasks hr with ⟨a, ha, _⟩
  rcases hasks' hr' with ⟨a', ha', hbefore⟩
  exact ⟨a, a', ha, ha', hbefore _ hheld a ha⟩

theorem advisory_locks_deadlock_free_docs :
    ∃ w, Reach (engine isAdvisory) docsWorld w ∧ w.committed.object.length = 1 ∧
      ¬ w.Deadlocked (engine isAdvisory) := by
  have hrun : (docsWorld.run (engine isAdvisory) docsSchedule).any
      (fun w => w.committed.object.length = 1) = true := by
    decide +kernel
  obtain ⟨w, hreach, hlength⟩ := Reach.of_run _ hrun
  refine ⟨w, hreach, of_decide_eq_true hlength, ?_⟩
  exact advisory_locks_deadlock_free .sample docsRequests .empty _ starts_empty _ hreach

end Pgs3.Concurrent
