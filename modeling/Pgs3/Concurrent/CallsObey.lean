import Pgs3.Concurrent.CallRules

/-!
# From functions to calls

The calls, put together from what is known of their functions.  A call that adds object
versions or uploads to a bucket ends with the bucket row known to be there (`EndsIn`); a call
that creates or deletes a bucket ends with what makes its commit safe.
-/

namespace Pgs3.Concurrent

open Foundation Foundation.Locks
open Foundation.Locks.Call (view next emit ask orRaise ofExcept raiseIf whenever each)

/-! ## 1. The commit functions -/

/-- A call that has written to one bucket ends settled. -/
def EndsIn (counted : CatalogLock → Bool) (l : LockList) (id : Nat) (name : Text)
    (c : Standing system) : Prop :=
  ∃ b : BucketRow, b.bucketId = id ∧ b.name = name ∧ Settled counted l (ChildWrite b) c ∧
    Child b c

/-- The two locks of a publication, on top of those that may be held before. -/
def publicationLocks (l : LockList) (id : Nat) (name key : Text) : LockList :=
  (.key id key, .exclusive) :: (.lifecycle name, .shared) :: l

/-- The locks of a publication are had, or come after all that are held. -/
structure MayPublish (c : Standing system) (l : LockList) (id : Nat) (name key : Text) :
    Prop where
  lifecycle : Had c (.lifecycle name) .shared ∨ Admits l (.lifecycle name)
  key : Had c (.key id key) .exclusive ∨ Admits ((.lifecycle name, .shared) :: l) (.key id key)

/-- The call keeps to the rules and ends like this. -/
abbrev Finishes (counted : CatalogLock → Bool) (c : Standing system) (p : CatalogCall Unit)
    (Q : Standing system → Prop) : Prop :=
  p.Obeys (engine counted) bucketRules asksInOrder noForeignKey c fun _ c' => Q c'

variable {counted : CatalogLock → Bool} {l : LockList} {W : CatalogWrite → Prop}
  {c : Standing system} {b : BucketRow} {ctx : Context} {id : Nat} {name key : Text}

theorem Goes.finish {p : CatalogCall Unit} {F : Unit → Standing system → Prop}
    (h : Goes counted c p l (ChildWrite b) F) (hchild : Child b c) :
    Finishes counted c p (EndsIn counted l b.bucketId b.name) :=
  Call.Obeys.mono (fun _ _ h => ⟨b, rfl, rfl, h.1, hchild.mono h.2.1⟩) h

theorem MayPublish.lockKey {c' : Standing system} (h : MayPublish c l id name key)
    (hgrows : Grows c c') :
    Had c' (.key id key) .exclusive ∨ Admits ((.lifecycle name, .shared) :: l) (.key id key) := by
  rcases h.key with hhad | hadmits
  · exact Or.inl (hhad.mono hgrows)
  · exact Or.inr hadmits

variable (hcounted : ∀ id, counted (.advisory id) = true)

variable {size : Nat} {contentType ifNoneMatch ifMatch : Option Text} {metadata : Jsonb}

section Publication

variable (h : Settled counted l Harmless c) (hmay : MayPublish c l id name key)

include hcounted h hmay

/-- What the three commit functions have in common: the bucket is locked, resolved, and must
    have the expected id. -/
theorem finishes_publication {body : CatalogCall Unit} {l' : LockList}
    (hbody : ∀ b c', b.bucketId = id → b.name = name → Grows c c' →
      Settled counted ((.lifecycle name, .shared) :: l) (ChildWrite b) c' → Child b c' →
      Finishes counted c' body (EndsIn counted l' b.bucketId b.name)) :
    Finishes counted c (do
      let _ ← bucketIdForChild ctx name (some id)
      body) (EndsIn counted l' id name) := by
  refine Goes.then (goes_bucketIdForChild hcounted h allowed_harmless (List.subset_cons_self _ _)
    List.mem_cons_self hmay.lifecycle) ?_
  rintro id' c₁ hc₁ hgrows₁ ⟨⟨b, hid, hname, hchild⟩, hexpected, _⟩
  have hid' : b.bucketId = id := hid.trans (hexpected id rfl)
  have hsettled := hc₁.child b
  have hfinish := hbody b c₁ hid' hname hgrows₁ hsettled hchild
  rwa [hid', hname] at hfinish

theorem finishes_commitBodyLocked {sha256 : Bytes} {etag : Text} :
    Finishes counted c (commitBodyLocked ctx id name key size sha256 etag contentType metadata
      ifNoneMatch ifMatch) (EndsIn counted (publicationLocks l id name key) id name) := by
  unfold commitBodyLocked
  apply finishes_publication hcounted h hmay
  rintro b c₁ rfl rfl hgrows₁ hc₁ hchild
  refine Goes.finish (F := fun _ _ => True) ?_ hchild
  refine (goes_validateKey hc₁).still fun _ => ?_
  refine keeps_check SqlState.noConfusion ?_
  refine keeps_check SqlState.noConfusion ?_
  refine keeps_check SqlState.noConfusion ?_
  refine Goes.bind (goes_lockKey hcounted hc₁ (List.subset_cons_self _ _) List.mem_cons_self
    (hmay.lockKey hgrows₁)) ?_
  intro _ c₆ hc₆ hgrows₆ _
  refine (goes_checkLatest hc₆).still fun _ => ?_
  refine Goes.bind (goes_ensureBlob hc₆ (allowed_childWrite b)) ?_
  rintro k c₈ hc₈ hgrows₈ ⟨rfl, hk⟩
  apply goes_insertLatest hc₈ (hchild.mono (hgrows₆.trans hgrows₈))
  intro p hp
  rw [← Option.some.inj hp]
  exact hk

theorem finishes_commitCanonicalLocked {sha256 blobId : Bytes} {etag : Text} :
    Finishes counted c (commitCanonicalLocked ctx id name key size sha256 etag blobId contentType
      metadata ifNoneMatch ifMatch) (EndsIn counted (publicationLocks l id name key) id name) := by
  unfold commitCanonicalLocked
  apply finishes_publication hcounted h hmay
  rintro b c₁ rfl rfl hgrows₁ hc₁ hchild
  refine Goes.finish (F := fun _ _ => True) ?_ hchild
  refine (goes_validateKey hc₁).still fun _ => ?_
  refine keeps_check SqlState.noConfusion ?_
  refine keeps_check SqlState.noConfusion ?_
  refine Goes.bind (goes_row hc₁ rfl) ?_
  intro _ c₅ hc₅ hgrows₅ _
  refine Goes.bind (goes_see hc₅) ?_
  rintro s c₆ hc₆ hgrows₆ ⟨_, _, hblobs⟩
  refine keeps_unless (fun _ => SqlState.noConfusion) fun hsize => ?_
  have hk : KnowsBlob c₆ blobId :=
    hblobs blobId (Catalog.hasBlob_iff.mpr (by rw [not_not.mp hsize]; intro h; cases h))
  have hgrows := hgrows₅.trans hgrows₆
  refine Goes.bind (goes_lockKey hcounted hc₆ (List.subset_cons_self _ _) List.mem_cons_self
    (hmay.lockKey (hgrows₁.trans hgrows))) ?_
  intro _ c₈ hc₈ hgrows₈ _
  refine (goes_checkLatest hc₈).still fun _ => ?_
  apply goes_insertLatest hc₈ (hchild.mono (hgrows.trans hgrows₈))
  intro p hp
  rw [← Option.some.inj hp]
  exact hk.mono hgrows₈

theorem finishes_commitReferenceLocked {source : ObjectRow} :
    Finishes counted c (commitReferenceLocked ctx id name key source contentType metadata
      ifNoneMatch ifMatch) (EndsIn counted (publicationLocks l id name key) id name) := by
  unfold commitReferenceLocked
  apply finishes_publication hcounted h hmay
  rintro b c₁ rfl rfl hgrows₁ hc₁ hchild
  refine Goes.finish (F := fun _ _ => True) ?_ hchild
  refine (goes_validateKey hc₁).still fun _ => ?_
  refine keeps_orRaise SqlState.noConfusion fun payload _ => ?_
  refine keeps_check SqlState.noConfusion ?_
  refine Goes.bind (goes_lockKey hcounted hc₁ (List.subset_cons_self _ _) List.mem_cons_self
    (hmay.lockKey hgrows₁)) ?_
  intro _ c₅ hc₅ hgrows₅ _
  refine (goes_checkLatest hc₅).still fun _ => ?_
  refine Goes.bind (goes_row hc₅ rfl) ?_
  intro _ c₇ hc₇ hgrows₇ _
  refine Goes.bind (goes_see hc₇) ?_
  rintro s c₈ hc₈ hgrows₈ ⟨_, _, hblobs⟩
  refine keeps_unless (fun _ => SqlState.noConfusion) fun hsize => ?_
  have hk : KnowsBlob c₈ payload.sha256 := hblobs _ (Catalog.hasBlob_iff.mpr hsize)
  apply goes_insertLatest hc₈ (hchild.mono ((hgrows₅.trans hgrows₇).trans hgrows₈))
  intro p hp
  rw [← Option.some.inj hp]
  exact hk

end Publication

/-! ## 2. Direct object calls -/

def atStart : Standing system := ⟨[], [], [], fun _ => True⟩

theorem settled_atStart (W : CatalogWrite → Prop) : Settled counted [] W atStart where
  stable := Rules.stable_true
  possible := ⟨Catalog.empty, Catalog.valid_empty, trivial⟩
  locks := fun _ hx => absurd hx List.not_mem_nil
  writes := fun _ hx => absurd hx List.not_mem_nil
  blobs := fun _ hx => absurd hx List.not_mem_nil

theorem admits_nil (a : LockName) : Admits [] a := fun _ hp => absurd hp List.not_mem_nil

/-- Only lifecycle locks may be held. -/
def OnlyNames (l : LockList) : Prop := ∀ p ∈ l, ∃ name, p.1 = .lifecycle name

theorem OnlyNames.admits_key (h : OnlyNames l) : Admits l (.key id key) := by
  intro p hp
  rcases h p hp with ⟨name, hname⟩
  rw [hname]
  exact LockName.lifecycle_lt_key _ _ _

theorem onlyNames_cons {m : LockMode} (h : OnlyNames l) : OnlyNames ((.lifecycle name, m) :: l) := by
  intro p hp
  rcases List.mem_cons.mp hp with rfl | hp
  · exact ⟨name, rfl⟩
  · exact h p hp

theorem onlyNames_nil : OnlyNames [] := fun _ hp => absurd hp List.not_mem_nil

/-- A call that ends with children added to some bucket of such a name. -/
def EndsInSome (counted : CatalogLock → Bool) (P : Text → Prop) (c : Standing system) : Prop :=
  ∃ l id name, P name ∧ EndsIn counted l id name c

theorem Finishes.some {p : CatalogCall Unit} {P : Text → Prop} (hP : P name)
    (h : Finishes counted c p (EndsIn counted l id name)) :
    Finishes counted c p (EndsInSome counted P) :=
  Call.Obeys.mono (fun _ _ h => ⟨l, id, name, hP, h⟩) h

theorem distinctKeys_sorted (keys : List (Option Text)) : (distinctKeys keys).Pairwise (· < ·) := by
  have hnodup : (((keys.map fun key => key.getD []).dedup).map id).Nodup := by
    rw [List.map_id]
    exact List.nodup_dedup _
  have hsorted := orderBy_pairwise_lt id hnodup
  rwa [List.map_id] at hsorted

theorem goes_checkDeletion {request : Option Text × Option Int} (h : Settled counted l W c) :
    Goes counted c (checkDeletion request) l W fun _ c' => c' = c := by
  unfold checkDeletion
  refine keeps_check SqlState.noConfusion ?_
  refine (goes_validateKey h).still fun _ => ?_
  exact goes_check h SqlState.noConfusion

/-- The locks of `delete_many`. -/
def deletionLocks (b : BucketRow) (keys : List (Option Text)) : LockList :=
  (distinctKeys keys).map (fun k => (.key b.bucketId k, .exclusive)) ++
    [(.lifecycle b.name, .shared)]

theorem goes_bucketIdOf_unlocked (h : Settled counted l W c) :
    Goes counted c (bucketIdOf ctx name) l W fun _ c' => c' = c := by
  unfold bucketIdOf
  refine keeps_look h fun s _ => ?_
  refine keeps_orRaise (noForeignKey_noSuchBucket name) fun found _ => ?_
  exact goes_pure h rfl

variable {bucket : Text}

section Direct

include hcounted

theorem goes_resolve : Goes counted atStart (bucketIdForChild ctx name none)
    [(.lifecycle name, .shared)] Harmless fun id c' =>
      (∃ b, b.bucketId = id ∧ b.name = name ∧ Child b c') ∧ Had c' (.lifecycle name) .shared := by
  refine (goes_bucketIdForChild hcounted (settled_atStart Harmless) allowed_harmless (List.nil_subset _)
    List.mem_cons_self (Or.inr (admits_nil _))).imp ?_
  exact fun _ _ _ _ h => ⟨h.1, h.2.2⟩

theorem finishes_put {H : Digests} {r : PutRequest} :
    Finishes counted atStart (put H ctx r) (EndsInSome counted (· = r.bucket)) := by
  unfold put
  refine keeps_orRaise SqlState.noConfusion fun body _ => ?_
  refine Goes.then (goes_resolve hcounted) ?_
  rintro bucketId c₁ hc₁ _ ⟨_, hhad⟩
  refine keeps_check SqlState.noConfusion ?_
  refine Finishes.some rfl (finishes_commitBodyLocked hcounted hc₁ ?_)
  exact ⟨Or.inl hhad, Or.inr (onlyNames_cons (onlyNames_cons onlyNames_nil)).admits_key⟩

theorem finishes_delete {version : Option Int} :
    Finishes counted atStart (delete ctx bucket key version) (EndsInSome counted (· = bucket)) := by
  unfold delete
  refine Goes.then (goes_resolve hcounted) ?_
  rintro bucketId c₁ hc₁ _ ⟨⟨b, rfl, rfl, hchild⟩, _⟩
  have hsettled := hc₁.child b
  refine Finishes.some rfl (Goes.finish (goes_deleteFrom hcounted hsettled hchild
    (List.subset_cons_self _ _) List.mem_cons_self (Or.inr ?_)) hchild)
  exact (onlyNames_cons onlyNames_nil).admits_key

theorem goes_lockKeys {ks : List Text} (h : Settled counted l W c)
    (hsorted : ks.Pairwise (· < ·)) (hadmits : ∀ k ∈ ks, Admits l (.key id k)) :
    Goes counted c (each (lockKey id) ks) (ks.map (fun k => (.key id k, .exclusive)) ++ l) W
      fun _ c' => ∀ k ∈ ks, Had c' (.key id k) .exclusive := by
  induction ks generalizing c l with
  | nil => exact ⟨h, Grows.refl c, fun _ hk => absurd hk List.not_mem_nil⟩
  | cons k ks ih =>
    rcases List.pairwise_cons.mp hsorted with ⟨hless, hrest⟩
    have hfirst := goes_lockKey hcounted h (List.subset_cons_self (.key id k, .exclusive) l)
      List.mem_cons_self (Or.inr (hadmits k List.mem_cons_self))
    refine Goes.bind (f := fun _ => each (lockKey id) ks) hfirst ?_
    intro _ c₁ hc₁ _ hhad
    have hnext : ∀ k' ∈ ks, Admits ((.key id k, .exclusive) :: l) (.key id k') := by
      intro k' hk' p hp
      rcases List.mem_cons.mp hp with rfl | hp
      · exact LockName.key_lt_key (Or.inr ⟨rfl, hless k' hk'⟩)
      · exact hadmits k' (List.mem_cons_of_mem _ hk') p hp
    refine ((ih hc₁ hrest hnext).weaken ?_).imp ?_
    · intro p hp
      simp only [List.mem_append, List.mem_cons, List.map_cons, List.cons_append] at hp ⊢
      tauto
    · intro _ c₂ _ hgrows₂ hkeys k' hk'
      rcases List.mem_cons.mp hk' with rfl | hk'
      · exact hhad.mono hgrows₂
      · exact hkeys k' hk'

/-- A deletion of `delete_many`: both locks are had by now, and the bucket is the same. -/
theorem goes_deleteAgain {version : Option Int} (h : Settled counted l (ChildWrite b) c)
    (hchild : Child b c) (hlifecycle : Had c (.lifecycle b.name) .shared)
    (hlist : (.lifecycle b.name, .shared) ∈ l) (hkey : Had c (.key b.bucketId key) .exclusive)
    (hmem : (.key b.bucketId key, .exclusive) ∈ l) :
    Goes counted c (delete ctx b.name key version) l (ChildWrite b) fun _ _ => True := by
  unfold delete
  refine Goes.bind (goes_bucketIdForChild hcounted h (allowed_childWrite b) (List.Subset.refl _)
    hlist (Or.inl hlifecycle)) ?_
  rintro bucketId c₁ hc₁ hgrows₁ ⟨⟨b', rfl, hname, hchild'⟩, _⟩
  have heq : b' = b := Child.unique hc₁ hchild' (hchild.mono hgrows₁) hname
  subst heq
  exact goes_deleteFrom hcounted hc₁ hchild' (List.Subset.refl _) hmem
    (Or.inl (hkey.mono hgrows₁))

theorem finishes_deleteMany {keys : List (Option Text)} {versions : List (Option Int)} :
    Finishes counted atStart (deleteMany ctx bucket keys versions)
      (EndsInSome counted (· = bucket)) := by
  unfold deleteMany
  refine Goes.then (goes_resolve hcounted) ?_
  rintro bucketId c₁ hc₁ _ ⟨⟨b, rfl, rfl, hchild⟩, hhad⟩
  have hsettled := hc₁.child b
  refine Finishes.some rfl
    (Goes.finish (F := fun _ _ => True) (l := deletionLocks b keys) ?_ hchild)
  refine keeps_check SqlState.noConfusion ?_
  have hchecks : Goes counted c₁ (each checkDeletion (keys.zip versions))
      [(.lifecycle b.name, .shared)] (ChildWrite b) fun _ c' => c' = c₁ := by
    refine goes_each (I := fun c' => c' = c₁) hsettled rfl ?_
    rintro request _ c' hc' rfl
    exact goes_checkDeletion hc'
  refine Goes.bind hchecks ?_
  rintro _ c₃ hc₃ _ rfl
  refine Goes.bind (goes_lockKeys hcounted hc₃ (distinctKeys_sorted keys)
    fun k _ => (onlyNames_cons onlyNames_nil).admits_key) ?_
  intro _ c₄ hc₄ hgrows₄ hkeys
  have hloop : Goes counted c₄ (each (fun request => delete ctx b.name (request.1.getD [])
      request.2) (keys.zip versions)) (deletionLocks b keys) (ChildWrite b) fun _ c' =>
        Child b c' ∧ Had c' (.lifecycle b.name) .shared ∧
        ∀ k ∈ distinctKeys keys, Had c' (.key b.bucketId k) .exclusive := by
    apply goes_each hc₄ ⟨hchild.mono hgrows₄, hhad.mono hgrows₄, hkeys⟩
    rintro request hrequest c' hc' ⟨hchild', hhad', hkeys'⟩
    have hkey : request.1.getD [] ∈ distinctKeys keys := by
      unfold distinctKeys
      rw [mem_orderBy, List.mem_dedup]
      exact List.mem_map_of_mem (List.of_mem_zip hrequest).1
    refine (goes_deleteAgain hcounted hc' hchild' hhad' ?_ (hkeys' _ hkey) ?_).imp ?_
    · exact List.mem_append_right _ List.mem_cons_self
    · exact List.mem_append_left _ (List.mem_map_of_mem hkey)
    · intro _ c'' _ hgrows _
      exact ⟨hchild'.mono hgrows, hhad'.mono hgrows, fun k hk => (hkeys' k hk).mono hgrows⟩
  exact hloop.imp fun _ _ _ _ _ => trivial

theorem goes_lockPair {id' : Nat} {key' : Text} (h : Settled counted l W c) (hl : OnlyNames l)
    (hless : id < id' ∨ (id = id' ∧ key < key')) :
    Goes counted c (do
      lockKey id key
      lockKey id' key')
      ((.key id' key', .exclusive) :: (.key id key, .exclusive) :: l) W fun _ c' =>
      Had c' (.key id key) .exclusive ∧ Had c' (.key id' key') .exclusive := by
  refine Goes.bind (goes_lockKey hcounted h (List.subset_cons_self (.key id key, .exclusive) l)
    List.mem_cons_self (Or.inr hl.admits_key)) ?_
  intro _ c₁ hc₁ _ hhad
  refine (goes_lockKey hcounted hc₁ (List.subset_cons_self _ _) List.mem_cons_self
    (Or.inr ?_)).imp fun _ _ _ hgrows hhad' => ⟨hhad.mono hgrows, hhad'⟩
  intro p hp
  rcases List.mem_cons.mp hp with rfl | hp
  · exact LockName.key_lt_key hless
  · exact hl.admits_key p hp

theorem goes_lockTwoKeys {id' : Nat} {key' : Text} (h : Settled counted l W c) (hl : OnlyNames l) :
    Goes counted c (lockTwoKeys id id' key key')
      ((.key id' key', .exclusive) :: (.key id key, .exclusive) :: l) W fun _ c' =>
      Had c' (.key id' key') .exclusive := by
  unfold lockTwoKeys
  split
  · rename_i hle
    by_cases hsame : id ≠ id' ∨ key ≠ key'
    · have hless : id < id' ∨ (id = id' ∧ key < key') := by
        rcases hle with hlt | ⟨hid, hkey⟩
        · exact Or.inl hlt
        · rcases hsame with hne | hne
          · exact absurd hid hne
          · exact Or.inr ⟨hid, lt_of_le_of_ne hkey hne⟩
      have hpair := (goes_lockPair hcounted h hl hless).imp fun _ _ _ _ hboth => hboth.2
      simpa only [whenever, if_pos hsame] using hpair
    · -- one key only
      have hone : id = id' ∧ key = key' := by
        rw [not_or, not_not, not_not] at hsame
        exact hsame
      rcases hone with ⟨rfl, rfl⟩
      refine Goes.bind (goes_lockKey hcounted h
        (List.subset_cons_self (.key id key, .exclusive) l) List.mem_cons_self
        (Or.inr hl.admits_key)) ?_
      intro _ c₁ hc₁ _ hhad
      apply Call.obeys_whenever
      · exact fun hne => absurd hne hsame
      · exact fun _ => ⟨hc₁.mono (List.subset_cons_self _ _) fun _ hx => hx, Grows.refl _, hhad⟩
  · rename_i hgt
    have hless : id' < id ∨ (id' = id ∧ key' < key) := by
      rw [not_or] at hgt
      rcases Nat.lt_or_ge id' id with hlt | hge
      · exact Or.inl hlt
      · have hid : id = id' := Nat.le_antisymm hge (Nat.le_of_not_lt hgt.1)
        exact Or.inr ⟨hid.symm, lt_of_not_ge fun hle => hgt.2 ⟨hid, hle⟩⟩
    refine ((goes_lockPair hcounted h hl hless).weaken ?_).imp fun _ _ _ _ hboth => hboth.1
    intro p hp
    simp only [List.mem_cons] at hp ⊢
    tauto

theorem finishes_copy {r : CopyRequest} :
    Finishes counted atStart (copy ctx r) (EndsInSome counted (· = r.destinationBucket)) := by
  unfold copy
  refine Goes.then (goes_bucketIdOf_unlocked (settled_atStart Harmless)) ?_
  rintro sourceId _ _ _ rfl
  refine Goes.then (goes_resolve hcounted) ?_
  rintro destinationId c₁ hc₁ _ ⟨_, hhad⟩
  refine (goes_validateKey hc₁).still fun _ => ?_
  refine (goes_validateKey hc₁).still fun _ => ?_
  refine Goes.then (goes_lockTwoKeys hcounted hc₁ (onlyNames_cons onlyNames_nil)) ?_
  intro _ c₄ hc₄ hgrows₄ hkey
  refine keeps_look hc₄ fun s _ => ?_
  refine keeps_orRaise SqlState.noConfusion fun source _ => ?_
  refine keeps_check SqlState.noConfusion ?_
  exact Finishes.some rfl (finishes_commitReferenceLocked hcounted hc₄
    ⟨Or.inl (hhad.mono hgrows₄), Or.inl hkey⟩)

theorem finishes_restore {version : Int} :
    Finishes counted atStart (restore ctx bucket key version ifMatch)
      (EndsInSome counted (· = bucket)) := by
  unfold restore
  refine Goes.then (goes_resolve hcounted) ?_
  rintro bucketId c₁ hc₁ _ ⟨_, hhad⟩
  refine (goes_validateKey hc₁).still fun _ => ?_
  refine Goes.then (goes_lockKey hcounted hc₁ (List.subset_cons_self _ _) List.mem_cons_self
    (Or.inr (onlyNames_cons onlyNames_nil).admits_key)) ?_
  intro _ c₃ hc₃ hgrows₃ hkey
  refine keeps_look hc₃ fun s _ => ?_
  refine keeps_orRaise SqlState.noConfusion fun source _ => ?_
  exact Finishes.some rfl (finishes_commitReferenceLocked hcounted hc₃
    ⟨Or.inl (hhad.mono hgrows₃), Or.inl hkey⟩)

end Direct

/-! ## 3. Uploads -/

include hcounted in
theorem finishes_beginUpload {r : BeginUploadRequest} :
    Finishes counted atStart (beginUpload ctx r) (EndsInSome counted (· = r.bucket)) := by
  unfold beginUpload
  refine Goes.then (goes_resolve hcounted) ?_
  rintro bucketId c₁ hc₁ _ ⟨⟨b, rfl, hname, hchild⟩, _⟩
  refine Finishes.some hname
    (Goes.finish (F := fun _ _ => True) (l := [(.lifecycle r.bucket, .shared)]) ?_ hchild)
  refine Goes.bind (goes_validateKey (hc₁.child b)) ?_
  rintro _ c₂ hc₂ _ rfl
  refine keeps_check SqlState.noConfusion ?_
  refine keeps_check SqlState.noConfusion ?_
  refine (goes_ofExcept (F := fun _ c' => c' = c₂) hc₂
    (fun _ he => checkWritePreconditions_error he) fun _ _ => rfl).still fun _ => ?_
  refine keeps_look hc₂ ?_
  rintro _ ⟨s, _, hs, rfl⟩
  refine keeps_unless (fun hmissing => ?_) fun _ => ?_
  · exact absurd rfl (hmissing b (hchild.bucket hc₂ hs))
  exact goes_emit hc₂ rfl (fun _ hk => absurd hk List.not_mem_nil) trivial

variable {u : Uuid}

theorem goes_bucketNameOf (h : Settled counted l W c) :
    Goes counted c (bucketNameOf id) l W fun _ _ => True := by
  unfold bucketNameOf
  refine keeps_look h fun s _ => ?_
  refine keeps_orRaise SqlState.noConfusion fun found _ => ?_
  exact goes_pure h trivial

variable {staged : Staged}

section Uploads

variable (h : Settled counted l W c) (hW : Allowed W)

include h hW

theorem goes_uploadForUpdate : Goes counted c (uploadForUpdate ctx u) l W fun _ _ => True := by
  unfold uploadForUpdate
  refine keeps_look h fun s _ => ?_
  refine keeps_orRaise SqlState.noConfusion fun _ _ => ?_
  refine Goes.bind (goes_row h rfl) ?_
  intro _ c₃ hc₃ _ _
  refine keeps_look hc₃ fun s' _ => ?_
  refine keeps_orRaise SqlState.noConfusion fun row _ => ?_
  refine Goes.bind (goes_plain hc₃ (hW.harmless _ trivial) rfl) ?_
  intro _ c₆ hc₆ _ _
  exact goes_pure hc₆ trivial

theorem goes_uploadForUpdateAt {requireMultipart : Option Bool} :
    Goes counted c (uploadForUpdateAt ctx u bucket key requireMultipart) l W fun _ _ => True := by
  unfold uploadForUpdateAt
  refine Goes.bind (goes_uploadForUpdate h hW) ?_
  intro row c₁ hc₁ _ _
  refine keeps_look hc₁ fun s _ => ?_
  refine keeps_check SqlState.noConfusion ?_
  exact goes_pure hc₁ trivial

theorem goes_storeStaged {upload : UploadRow} {parts : List Int} :
    Goes counted c (storeStaged ctx upload parts staged) l W fun _ _ => True := by
  unfold storeStaged
  refine keeps_look h fun s _ => ?_
  by_cases hmultipart : upload.multipart = true
  · rw [if_pos hmultipart]
    refine keeps_check SqlState.noConfusion ?_
    refine keeps_check SqlState.noConfusion ?_
    refine keeps_check SqlState.noConfusion ?_
    refine keeps_check SqlState.noConfusion ?_
    refine Goes.bind (goes_ensureCompositeBlob h hW) ?_
    intro k c₆ hc₆ _ _
    exact goes_pure hc₆ trivial
  · rw [if_neg hmultipart]
    refine keeps_check SqlState.noConfusion ?_
    dsimp only
    split
    · refine Goes.bind (goes_ensureBlob h hW) ?_
      intro k c h _ _
      exact goes_pure h trivial
    · refine Goes.bind (goes_ensureStagedBlob h hW) ?_
      intro k c h _ _
      exact goes_pure h trivial

theorem goes_cascadeUpload :
    Goes counted c (cascadeUpload u) l W fun _ c' => .deleteUpload u ∈ c'.writes := by
  unfold cascadeUpload
  refine keeps_look h fun s _ => ?_
  refine Goes.bind (goes_plain h (hW.harmless _ trivial) rfl) ?_
  intro _ c₂ hc₂ _ hmem
  refine Goes.bind (goes_updateRefcounts hc₂) ?_
  intro _ c₃ hc₃ hgrows₃ _
  exact (goes_updateRefcounts hc₃).imp fun _ _ _ hgrows _ =>
    hgrows.writes (hgrows₃.writes hmem)

end Uploads

include hcounted

theorem finishes_publishUpload {upload : UploadRow} {blobId : Bytes}
    (h : Settled counted [] Harmless c) :
    Finishes counted c (publishUpload ctx upload bucket size staged blobId)
      (EndsInSome counted (fun _ => True)) := by
  unfold publishUpload
  have hmay : MayPublish c [] upload.bucketId bucket upload.key :=
    ⟨Or.inr (admits_nil _), Or.inr (onlyNames_cons onlyNames_nil).admits_key⟩
  apply Call.obeys_bind
  refine Call.Obeys.mono ?_ (finishes_commitCanonicalLocked hcounted h hmay)
  rintro _ c₁ ⟨b, _, _, hc₁, hchild⟩
  exact Finishes.some trivial
    (Goes.finish (goes_cascadeUpload hc₁ (allowed_childWrite b)) hchild)

theorem finishes_completeUpload {parts : List Int} {checksum : Option Bytes}
    (h : Settled counted [] Harmless c) :
    Finishes counted c (completeUpload ctx u parts checksum staged)
      (EndsInSome counted (fun _ => True)) := by
  unfold completeUpload
  refine Goes.then (goes_uploadForUpdate h allowed_harmless) ?_
  intro upload c₁ hc₁ _ _
  refine Goes.then (goes_bucketNameOf hc₁) ?_
  intro bucket c₂ hc₂ _ _
  refine Goes.then (goes_plain hc₂ trivial rfl) ?_
  intro _ c₃ hc₃ _ _
  refine Goes.then (goes_storeStaged hc₃ allowed_harmless) ?_
  intro stored c₄ hc₄ _ _
  refine keeps_check SqlState.noConfusion ?_
  exact finishes_publishUpload hcounted hc₄

theorem finishes_workerCompleteUpload {actor : RoleName} {checksum : Option Bytes} {m : Seal} :
    Finishes counted atStart (workerCompleteUpload ctx actor bucket key u checksum m staged)
      (EndsInSome counted (fun _ => True)) := by
  unfold workerCompleteUpload
  refine keeps_check SqlState.noConfusion ?_
  refine keeps_check SqlState.noConfusion ?_
  refine Goes.then (goes_uploadForUpdateAt (settled_atStart Harmless) allowed_harmless) ?_
  intro upload c₃ hc₃ _ _
  refine keeps_look hc₃ fun s _ => ?_
  refine keeps_check SqlState.noConfusion ?_
  split
  · exact finishes_completeUpload hcounted hc₃
  · refine keeps_check SqlState.noConfusion ?_
    refine Goes.then (goes_bucketNameOf hc₃) ?_
    intro name c₇ hc₇ _ _
    refine Goes.then (goes_plain hc₇ trivial rfl) ?_
    intro _ c₈ hc₈ _ _
    refine Goes.then (goes_ensureStagedBlob hc₈ allowed_harmless) ?_
    intro k c₉ hc₉ _ _
    exact finishes_publishUpload hcounted hc₉

end Pgs3.Concurrent
