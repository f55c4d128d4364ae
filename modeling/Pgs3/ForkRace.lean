import Pgs3.Content
import Pgs3.RefCounts

/-!
# `fork_bucket` among deletions and collections

The statement of `fork_bucket` that fills the new bucket reads one snapshot, inserts the
rows with foreign keys and triggers switched off, and then adds to the reference count of
one blob after the other.  Other transactions commit in between.  Each is one step here:
what it commits is what the statement sees from then on.

* An `UPDATE` of a blob row locks it until the fork commits.  A deletion that has to
  change the count of a locked blob waits; `gc_blobs` passes over locked rows.
* An `UPDATE` that finds its row deleted by a committed transaction skips it.
* Values drawn from a sequence stay drawn.
-/

namespace Pgs3

open Foundation Foundation.Tx

/-! ## 1. The statement and its surroundings -/

/-- A fork whose statement has taken its snapshot. -/
structure Fork where
  /-- The destination, inserted but not committed. -/
  bucket : BucketRow
  /-- The rows of the `INSERT`, not committed. -/
  rows : List ObjectRow
  /-- The blobs that the `UPDATE` has still to reach. -/
  todo : List Bytes
  /-- The blobs whose counts it has changed; their rows are locked. -/
  bumped : List Bytes

structure World where
  /-- What is committed. -/
  db : Db
  fork : Option Fork

def World.locked (w : World) : List Bytes := (w.fork.map (·.bumped)).getD []

/-- `fork_bucket` up to the `INSERT` of its last statement. -/
def forkStart (c : Context) (source destination : Text) (config : Option Jsonb) :
    DbTx (BucketRow × List ObjectRow) := do
  validateBucketName destination
  raiseIf (∃ j ∈ config, j.isObject = false)
    (invalidParameter "bucket config must be a JSON object")
  let sourceId ← bucketIdOf c source
  let sourceRow ← orRaise ((← get).bucket.lookup sourceId) (noSuchBucket source)
  forkFill c sourceId destination (config.getD sourceRow.config)

inductive ForkEvent where
  /-- A committed `delete` of a version. -/
  | delete (c : Context) (bucket key : Text) (version : Int)
  /-- A committed `gc_blobs`. -/
  | gc (limit : Int)
  /-- The fork's statement takes its snapshot and inserts its rows. -/
  | start (c : Context) (source destination : Text) (config : Option Jsonb)
  /-- Its `UPDATE` reaches a blob. -/
  | bump (k : Bytes)
  | commit

def refsOf (rows : List ObjectRow) : List Bytes := (rows.filterMap (·.blobId)).dedup

/-- The `UPDATE` reaches a blob: it counts and locks the row, or finds it deleted. -/
def Fork.bump (f : Fork) (db : Db) (k : Bytes) : Fork :=
  { f with
    todo := f.todo.erase k
    bumped := if (db.blob.lookup k).isSome then k :: f.bumped else f.bumped }

/-- What the fork's statement makes of the committed state. -/
def Fork.publish (f : Fork) (db : Db) : Option Db :=
  match db.bucket.insert f.bucket, db.object.insertAll f.rows with
  | some bucket, some object =>
      some <| ({ db with bucket := bucket, object := object } : Db).addRefs fun k =>
        if k ∈ f.bumped then objectRefs f.rows k else 0
  | _, _ => none

/-- The next state; none when the event cannot happen or has to wait. -/
def World.step (w : World) : ForkEvent → Option World
  | .delete c bucket key version =>
      let db := (commit (Pgs3.delete c bucket key (some version)) w.db).2
      -- a deletion that changes a locked row waits
      if ∀ k ∈ w.locked, db.blob.lookup k = w.db.blob.lookup k then some { w with db := db }
      else none
  | .gc limit =>
      some { w with db := (commit (gcBlobsSkipping (fun k => w.locked.contains k) limit) w.db).2 }
  | .start c source destination config =>
      match w.fork, commit (forkStart c source destination config) w.db with
      | none, (.ok (bucket, rows), db) =>
          some ⟨w.db.skipIds (db.objectVersionIdSeq - w.db.objectVersionIdSeq)
            (db.bucketIdSeq - w.db.bucketIdSeq), some ⟨bucket, rows, refsOf rows, []⟩⟩
      | _, _ => none
  | .bump k => do
      let f ← w.fork
      if k ∈ f.todo then some { w with fork := some (f.bump w.db k) } else none
  | .commit => do
      let f ← w.fork
      let db ← f.publish w.db
      if f.todo = [] then some ⟨db, none⟩ else none

inductive ForkRun (allowed : World → ForkEvent → Prop) (w₀ : World) : World → Prop
  | refl : ForkRun allowed w₀ w₀
  | step {w w' : World} (h : ForkRun allowed w₀ w) (e : ForkEvent) (ha : allowed w e)
      (hw : w.step e = some w') : ForkRun allowed w₀ w'

/-! ## 2. The other transactions -/

variable {k : Bytes}

theorem mem_refsOf {rows : List ObjectRow} : k ∈ refsOf rows ↔ 0 < objectRefs rows k := by
  unfold refsOf objectRefs
  rw [List.mem_dedup, List.mem_filterMap, List.countP_pos_iff]
  simp only [decide_eq_true_eq]

variable {s s' : Db}

theorem LeavesBlobs.hasBlob (h : LeavesBlobs s s') : s'.HasBlob k ↔ s.HasBlob k := by
  obtain ⟨d, hd⟩ := h.blob
  unfold Db.HasBlob
  rw [hd]
  exact hasBlob_addRefs

variable {c : Context} {db : Db}

theorem delete_step {b k : Text} {v : Int} (h : RefInv db) :
    RefInv (commit (delete c b k (some v)) db).2 ∧
      ∀ k', (commit (delete c b k (some v)) db).2.HasBlob k' ↔ db.HasBlob k' := by
  have hbuilt : Built Quiet (delete c b k (some v)) :=
    delete_built c b k (some v) fun _ => trivial
  rcases commit_cases (delete c b k (some v)) db with ⟨r, hy⟩ | hsame
  · refine ⟨?_, fun k => (built_leavesBlobs hbuilt hy).hasBlob⟩
    exact hbuilt.keeps quiet_keeps_refs _ _ _ h hy
  · rw [hsame]
    exact ⟨h, fun k => Iff.rfl⟩

theorem yields_gcLoop {locked : Bytes → Bool} {n r : Nat} (h : Yields (gcLoop locked n) s r s') :
    (s'.HasBlob k → s.HasBlob k) ∧ (locked k = true → s.HasBlob k → s'.HasBlob k) := by
  induction n generalizing s r with
  | zero =>
    obtain ⟨_, rfl⟩ := yields_pure.mp h
    exact ⟨id, fun _ => id⟩
  | succ n ih =>
    simp only [gcLoop, yields_get_bind] at h
    cases hb : nextGarbage s.blob.rows locked with
    | none =>
      rw [hb] at h
      obtain ⟨_, rfl⟩ := yields_pure.mp h
      exact ⟨id, fun _ => id⟩
    | some b =>
      rw [hb] at h
      obtain ⟨_, s₁, hdel, hrest⟩ := yields_bind.mp h
      obtain ⟨more, s₂, hmore, hend⟩ := yields_bind.mp hrest
      obtain ⟨_, rfl⟩ := yields_pure.mp hend
      obtain ⟨_, rfl⟩ := yields_deleteBlob hdel
      obtain ⟨hback, hkept⟩ := ih hmore
      refine ⟨fun hk => ?_, fun hlocked hk => hkept hlocked ?_⟩
      · obtain ⟨b', hb', hbk⟩ := hasBlob_addRefs.mp (hback hk)
        exact ⟨b', (Table.mem_delete.mp hb').1, hbk⟩
      · -- the collected blob is not a locked one
        have hfree : locked b.sha256 = false := by
          have hmem := List.mem_of_mem_head? hb
          rw [List.mem_insertionSort, List.mem_filter] at hmem
          have hsel := hmem.2
          simp only [Bool.and_eq_true, Bool.not_eq_true'] at hsel
          exact hsel.2
        obtain ⟨b', hb', hbk⟩ := hk
        refine hasBlob_addRefs.mpr ⟨b', Table.mem_delete.mpr ⟨hb', ?_⟩, hbk⟩
        rw [decide_eq_false_iff_not, hbk]
        rintro rfl
        exact Bool.false_ne_true (hfree.symm.trans hlocked)

theorem gc_step {l : Bytes → Bool} {n : Int} (h : RefInv db) :
    RefInv (commit (gcBlobsSkipping l n) db).2 ∧ ∀ k, l k = true → db.HasBlob k →
        (commit (gcBlobsSkipping l n) db).2.HasBlob k := by
  rcases commit_cases (gcBlobsSkipping l n) db with ⟨r, hy⟩ | hsame
  · have hrefs := (gcBlobsSkipping_built l n trivial).keeps shallow_keeps_refs _ _ _ h hy
    simp only [gcBlobsSkipping, yields_raiseIf_bind] at hy
    exact ⟨hrefs, fun k => (yields_gcLoop hy.2).2⟩
  · rw [hsame]
    exact ⟨h, fun k _ => id⟩

variable {source destination : Text} {config : Option Jsonb}

theorem yields_forkStart {r : BucketRow × List ObjectRow}
    (h : Yields (forkStart c source destination config) s r s') :
    ∃ sourceId j, Yields (forkFill c sourceId destination j) s r s' := by
  unfold forkStart validateBucketName at h
  simp only [yields_raiseIf_bind] at h
  obtain ⟨_, _, h⟩ := h
  obtain ⟨sourceId, s₁, hid, hfill⟩ := yields_bind.mp h
  obtain ⟨rfl, _⟩ := yields_bucketIdOf hid
  simp only [yields_get_bind, yields_orRaise_bind] at hfill
  obtain ⟨row, _, hfill⟩ := hfill
  exact ⟨sourceId, _, hfill⟩

/-! ## 3. What holds while a fork is in flight -/

/-- Every blob of the rows has been counted or will be: it is there, whatever happens. -/
structure Fork.Covered (f : Fork) (db : Db) : Prop where
  present : ∀ k, k ∈ f.todo ∨ k ∈ f.bumped → db.HasBlob k
  named : ∀ k, 0 < objectRefs f.rows k → k ∈ f.todo ∨ k ∈ f.bumped

structure World.Safe (w : World) : Prop where
  refs : RefInv w.db
  fork : ∀ f, w.fork = some f → f.Covered w.db

/-- The blobs of a fork in flight survive the event. -/
def World.Spares (w : World) : ForkEvent → Prop
  | .gc limit =>
      ∀ f, w.fork = some f → ∀ k ∈ f.todo,
        (commit (gcBlobsSkipping (fun k => w.locked.contains k) limit) w.db).2.HasBlob k
  | _ => True

variable {f : Fork} {db' : Db}

theorem Fork.Covered.of_present (h : f.Covered db)
    (hkeep : ∀ k, k ∈ f.todo ∨ k ∈ f.bumped → db.HasBlob k → db'.HasBlob k) :
    f.Covered db' where
  present := fun k hk => hkeep k hk (h.present k hk)
  named := h.named

variable {w w' : World}

theorem delete_keeps_safe {bucket key : Text} {version : Int} (h : w.Safe)
    (hw : w.step (.delete c bucket key version) = some w') : w'.Safe := by
  obtain ⟨hrefs, hblobs⟩ := delete_step (c := c) (b := bucket) (k := key) (v := version) h.refs
  simp only [World.step, Option.ite_none_right_eq_some, Option.some.injEq] at hw
  obtain ⟨_, rfl⟩ := hw
  exact ⟨hrefs, fun f hf => (h.fork f hf).of_present fun k _ => (hblobs k).mpr⟩

theorem gc_keeps_safe {limit : Int} (h : w.Safe) (hspare : w.Spares (.gc limit))
    (hw : w.step (.gc limit) = some w') : w'.Safe := by
  obtain ⟨hrefs, hlocked⟩ := gc_step (l := fun k => w.locked.contains k) (n := limit) h.refs
  cases hw
  refine ⟨hrefs, fun f hf => (h.fork f hf).of_present ?_⟩
  intro k hk hpresent
  rcases hk with hk | hk
  · exact hspare f hf k hk
  · have hbumped : w.locked = f.bumped := by
      unfold World.locked
      rw [hf]
      rfl
    exact hlocked k (by rw [hbumped]; exact List.contains_iff_mem.mpr hk) hpresent

theorem start_keeps_safe (h : w.Safe) (hw : w.step (.start c source destination config) = some w') :
    w'.Safe := by
  simp only [World.step] at hw
  split at hw
  · rename_i bucket rows db _ hcommit
    cases hw
    obtain ⟨sourceId, j, hfill⟩ := yields_forkStart (commit_ok_iff.mp hcommit)
    obtain ⟨_, hrows, _⟩ := yields_forkFill hfill
    refine ⟨h.refs.frame rfl rfl rfl rfl rfl, ?_⟩
    rintro f ⟨rfl⟩
    constructor
    · rintro k (hk | hk)
      · -- the snapshot's rows still hold their references
        have hpos := mem_refsOf.mp hk
        rw [show rows = _ from hrows] at hpos
        exact h.refs.forkRows_present hpos
      · exact absurd hk List.not_mem_nil
    · exact fun k hk => Or.inl (mem_refsOf.mpr hk)
  · cases hw

theorem bump_keeps_safe (h : w.Safe) (hw : w.step (.bump k) = some w') : w'.Safe := by
  simp only [World.step, Option.bind_eq_bind, Option.bind_eq_some_iff,
    Option.ite_none_right_eq_some, Option.some.injEq] at hw
  obtain ⟨f, hf, hk, rfl⟩ := hw
  have hcov := h.fork f hf
  refine ⟨h.refs, ?_⟩
  rintro _ ⟨rfl⟩
  -- the blob is there, so it is counted
  have hsome : (w.db.blob.lookup k).isSome := by
    obtain ⟨b, hb, rfl⟩ := hcov.present k (Or.inl hk)
    rw [Table.lookup_of_mem hb]
    rfl
  constructor
  · rintro k' (hk' | hk')
    · exact hcov.present k' (Or.inl (List.mem_of_mem_erase hk'))
    · simp only [Fork.bump, hsome, if_true, List.mem_cons] at hk'
      rcases hk' with rfl | hk'
      · exact hcov.present k' (Or.inl hk)
      · exact hcov.present k' (Or.inr hk')
  · intro k' hpos
    simp only [Fork.bump, hsome, if_true, List.mem_cons]
    by_cases heq : k' = k
    · exact Or.inr (Or.inl heq)
    · rcases hcov.named k' hpos with hk' | hk'
      · exact Or.inl ((List.mem_erase_of_ne heq).mpr hk')
      · exact Or.inr (Or.inr hk')

/-! ## 4. The commit -/

theorem publish_eq_some (h : f.publish db = some db') :
    ∃ bucket object, object.rows = db.object.rows ++ f.rows ∧
      db' = ({ db with bucket := bucket, object := object } : Db).addRefs fun k =>
        if k ∈ f.bumped then objectRefs f.rows k else 0 := by
  unfold Fork.publish at h
  split at h
  · rename_i bucket object _ hobject
    cases h
    exact ⟨bucket, object, Table.insertAll_rows hobject, rfl⟩
  · cases h

/-- **The counts come out right exactly when no blob of the rows was skipped.** -/
theorem publish_refInv_iff (h : RefInv db) (hpresent : ∀ k ∈ f.bumped, db.HasBlob k)
    (hp : f.publish db = some db') : RefInv db' ↔ ∀ k, 0 < objectRefs f.rows k → k ∈ f.bumped := by
  obtain ⟨bucket, object, hrows, rfl⟩ := publish_eq_some hp
  have hrefs : ∀ k, ({ db with bucket := bucket, object := object } : Db).refs k
      = db.refs k + objectRefs f.rows k := by
    intro k
    simp only [Db.refs, objectRefs, hrows, List.countP_append]
    omega
  constructor
  · intro h' k hpos
    by_contra hskip
    -- an uncounted reference needs a blob whose count then is short
    have hmore := hrefs k
    obtain ⟨b', hb', rfl⟩ := h'.present k (by
      change 0 < ({ db with bucket := bucket, object := object } : Db).refs k
      omega)
    have hexact := h'.exact b' hb'
    obtain ⟨b, hb, rfl⟩ := List.mem_map.mp hb'
    have hbefore := h.exact b hb
    change b.refcount + (if b.sha256 ∈ f.bumped then (objectRefs f.rows b.sha256 : Int) else 0)
      = (({ db with bucket := bucket, object := object } : Db).refs b.sha256 : Int) at hexact
    have hskip : b.sha256 ∉ f.bumped := hskip
    have hpos : 0 < objectRefs f.rows b.sha256 := hpos
    rw [if_neg hskip, hrefs] at hexact
    omega
  · intro hall
    refine h.count rfl ?_ ?_
    · intro k
      rw [hrefs]
      by_cases hk : k ∈ f.bumped
      · rw [if_pos hk]
        exact Int.natCast_add _ _
      · have hzero : objectRefs f.rows k = 0 := by
          have := mt (hall k) hk
          omega
        rw [if_neg hk, hzero]
        rfl
    · intro k hk
      rw [hrefs] at hk
      exact hpresent k (hall k (by omega))

theorem commit_keeps_safe (h : w.Safe) (hw : w.step .commit = some w') : w'.Safe := by
  simp only [World.step, Option.bind_eq_bind, Option.bind_eq_some_iff,
    Option.ite_none_right_eq_some, Option.some.injEq] at hw
  obtain ⟨f, hf, db, hp, htodo, rfl⟩ := hw
  have hcov := h.fork f hf
  constructor
  · refine (publish_refInv_iff h.refs (fun k hk => hcov.present k (Or.inr hk)) hp).mpr ?_
    intro k hpos
    rcases hcov.named k hpos with hk | hk
    · exact absurd (htodo ▸ hk) List.not_mem_nil
    · exact hk
  · rintro _ ⟨⟩

/-! ## 5. Runs -/

theorem step_keeps_safe {e : ForkEvent} (h : w.Safe) (hspare : w.Spares e)
    (hw : w.step e = some w') : w'.Safe := by
  cases e with
  | delete => exact delete_keeps_safe h hw
  | gc => exact gc_keeps_safe h hspare hw
  | start => exact start_keeps_safe h hw
  | bump => exact bump_keeps_safe h hw
  | commit => exact commit_keeps_safe h hw

variable {w₀ : World}

theorem ForkRun.safe (h₀ : w₀.Safe) (h : ForkRun World.Spares w₀ w) : w.Safe := by
  induction h with
  | refl => exact h₀
  | step _ e hspare hw ih => exact step_keeps_safe ih hspare hw

/-- **A fork does not dangle unless a blob is collected under it.**  From any reachable
    state, if no collection that commits while the statement runs removes a blob that the
    statement has yet to count, then at every later point every version names a blob that
    exists and whose count is the number of rows that name it. -/
theorem fork_never_dangles {H : Digests} {s : Db} (h₀ : Reachable H s) {w : World}
    (h : ForkRun World.Spares ⟨s, none⟩ w) {o : ObjectRow} (ho : o ∈ w.db.object.rows)
    {k : Bytes} (hk : o.blobId = some k) :
    ∃ b ∈ w.db.blob.rows, b.sha256 = k ∧ b.refcount = w.db.refs k ∧ 0 < b.refcount := by
  have hsafe : w.Safe := by
    refine ForkRun.safe ⟨h₀.refInv, ?_⟩ h
    rintro f ⟨⟩
  obtain ⟨b, hb, rfl⟩ := hsafe.refs.object_present ho hk
  have hexact := hsafe.refs.exact b hb
  have hpos : 0 < objectRefs w.db.object.rows b.sha256 :=
    List.countP_pos_iff.mpr ⟨o, ho, by simpa using hk⟩
  refine ⟨b, hb, rfl, hexact, ?_⟩
  rw [hexact]
  unfold Db.refs
  omega

instance (w : World) : (e : ForkEvent) → Decidable (w.Spares e)
  | .gc limit => inferInstanceAs (Decidable (∀ f ∈ w.fork, ∀ k ∈ f.todo,
      ∃ b ∈ (commit (gcBlobsSkipping (fun k => w.locked.contains k) limit) w.db).2.blob.rows,
        b.sha256 = k))
  | .delete .. | .start .. | .bump _ | .commit => .isTrue trivial

/-- The world after these events, if each of them is allowed and can happen. -/
def World.steps (ok : World → ForkEvent → Bool) (w : World) : List ForkEvent → Option World
  | [] => some w
  | e :: es => if ok w e then (w.step e).bind fun w' => w'.steps ok es else none

theorem ForkRun.steps {allowed : World → ForkEvent → Prop} {ok : World → ForkEvent → Bool}
    (h : ForkRun allowed w₀ w) (hok : ∀ w e, ok w e = true → allowed w e) {es : List ForkEvent}
    (hw : w.steps ok es = some w') : ForkRun allowed w₀ w' := by
  induction es generalizing w with
  | nil =>
    cases hw
    exact h
  | cons e es ih =>
    obtain ⟨he, hw⟩ := Option.ite_none_right_eq_some.mp hw
    obtain ⟨w₁, h₁, hrest⟩ := Option.bind_eq_some_iff.mp hw
    exact ih (h.step e (hok w e he) h₁) hrest

/-- One bucket with one version of one object. -/
def oneObject : Db :=
  execs Digests.sample
    [(Context.sample, .createBucket "source".toList (.object [])),
     (Context.sample, .put
       ⟨"source".toList, "a".toList, some [1, 2, 3], none, none, none, none, none⟩)] Db.empty

def twoObjects : Db :=
  execs Digests.sample [(Context.sample, .put
    ⟨"source".toList, "b".toList, some [4], none, none, none, none, none⟩)] oneObject

/-- The first version is deleted after the snapshot was taken, and garbage is collected when its
    blob is counted and the other one is not. -/
def deletedUnderFork : List ForkEvent :=
  [.start Context.sample "source".toList "fork".toList none,
   .delete Context.sample "source".toList "a".toList 1,
   .bump (truncated 32 [1, 2, 3]), .gc 1000, .bump (truncated 32 [4]), .commit]

theorem fork_never_dangles_deletedUnderFork :
    ∃ w, (World.mk twoObjects none).steps (fun w e => w.Spares e) deletedUnderFork = some w ∧
      ∃ o ∈ w.db.object.rows, o.blobId = some (truncated 32 [1, 2, 3]) ∧
        ∃ b ∈ w.db.blob.rows, b.sha256 = truncated 32 [1, 2, 3] ∧
          b.refcount = w.db.refs (truncated 32 [1, 2, 3]) ∧ 0 < b.refcount := by
  have heval : ((World.mk twoObjects none).steps (fun w e => w.Spares e) deletedUnderFork).any
      (fun w => w.db.object.rows.any fun o => o.blobId = some (truncated 32 [1, 2, 3])) = true := by
    decide +kernel
  obtain ⟨w, hw, hany⟩ := (Option.any_eq_true _ _).mp heval
  obtain ⟨o, ho, hk⟩ := List.any_eq_true.mp hany
  have hk : o.blobId = some (truncated 32 [1, 2, 3]) := by simpa using hk
  have hrun : ForkRun World.Spares ⟨twoObjects, none⟩ w :=
    ForkRun.steps .refl (fun _ _ => of_decide_eq_true) hw
  have hreach : Reachable Digests.sample twoObjects :=
    (Run.empty.execs fun _ _ _ => trivial).execs fun _ _ _ => trivial
  exact ⟨w, hw, o, ho, hk, fork_never_dangles hreach hrun ho hk⟩

/-- The blob is collected between the snapshot and the `UPDATE`, which skips it. -/
def collectedUnderFork : List ForkEvent :=
  [.start Context.sample "source".toList "fork".toList none,
   .delete Context.sample "source".toList "a".toList 1, .gc 1000,
   .bump (truncated 32 [1, 2, 3]), .commit]

theorem fork_dangles : ∃ s w o, Reachable Digests.sample s ∧ ForkRun (fun _ _ => True) ⟨s, none⟩ w ∧
      w.fork = none ∧ o ∈ w.db.object.rows ∧
      ∃ k, o.blobId = some k ∧ ∀ b ∈ w.db.blob.rows, b.sha256 ≠ k := by
  have heval : ((World.mk oneObject none).steps (fun _ _ => true) collectedUnderFork).any (fun w =>
      w.fork.isNone && w.db.blob.rows.isEmpty &&
        w.db.object.rows.any fun o => o.blobId = some (truncated 32 [1, 2, 3])) = true := by
    decide +kernel
  obtain ⟨w, hw, hany⟩ := (Option.any_eq_true _ _).mp heval
  rw [Bool.and_eq_true, Bool.and_eq_true, List.any_eq_true] at hany
  obtain ⟨⟨hfork, hempty⟩, o, ho, hk⟩ := hany
  refine ⟨oneObject, w, o, Run.empty.execs fun _ _ _ => trivial, ?_, ?_, ho, ?_⟩
  · exact ForkRun.steps .refl (fun _ _ _ => trivial) hw
  · exact Option.isNone_iff_eq_none.mp hfork
  · refine ⟨truncated 32 [1, 2, 3], by simpa using hk, ?_⟩
    intro b hb
    rw [List.isEmpty_iff.mp hempty] at hb
    exact absurd hb List.not_mem_nil

/-! ## 6. The statement without interference -/

theorem ForkRun.bumpAll {allowed : World → ForkEvent → Prop} (ha : ∀ w k, allowed w (.bump k))
    (h : ForkRun allowed w₀ ⟨db, some f⟩) (hpresent : ∀ k ∈ f.todo, db.HasBlob k) :
    ∃ bumped, ForkRun allowed w₀ ⟨db, some { f with todo := [], bumped := bumped }⟩ ∧
      ∀ k, k ∈ bumped ↔ k ∈ f.todo ∨ k ∈ f.bumped := by
  obtain ⟨bucket, rows, todo, bumped⟩ := f
  induction todo generalizing bumped with
  | nil => exact ⟨bumped, h, fun k => by simp⟩
  | cons k rest ih =>
    obtain ⟨b, hb, rfl⟩ := hpresent k List.mem_cons_self
    have hstep : World.step ⟨db, some ⟨bucket, rows, b.sha256 :: rest, bumped⟩⟩ (.bump b.sha256)
        = some ⟨db, some ⟨bucket, rows, rest, b.sha256 :: bumped⟩⟩ := by
      simp [World.step, Fork.bump, Table.lookup_of_mem hb]
    obtain ⟨all, hrun, hall⟩ := ih _ (h.step _ (ha _ _) hstep)
      fun k hk => hpresent k (List.mem_cons_of_mem _ hk)
    refine ⟨all, hrun, fun k => ?_⟩
    rw [hall, List.mem_cons, List.mem_cons]
    tauto

theorem forkBucket_eq (c : Context) (source destination : Text) (config : Option Jsonb) :
    forkBucket c source destination config
      = mapError (onUniqueViolation (bucketAlreadyExists destination))
          (forkStart c source destination config >>= fun filled =>
            forkBump filled.2 >>= fun _ => pure filled.2.length) := by
  simp only [forkBucket, forkStart, forkInto, bind_assoc]

/-- **Left alone, the events of a fork are `fork_bucket`.** -/
theorem uninterrupted_fork {n : Nat} (h : RefInv s)
    (hy : Yields (forkBucket c source destination config) s n s') :
    ForkRun (fun _ _ => True) ⟨s, none⟩ ⟨s', none⟩ := by
  rw [forkBucket_eq, yields_mapError] at hy
  obtain ⟨⟨row, rows⟩, s₁, hstart, hrest⟩ := yields_bind.mp hy
  obtain ⟨_, s₂, hbump, hend⟩ := yields_bind.mp hrest
  obtain ⟨_, rfl⟩ := yields_pure.mp hend
  obtain ⟨sourceId, j, hfill⟩ := yields_forkStart hstart
  obtain ⟨_, hrows, bucket, object, hbucket, hobject, rfl⟩ := yields_forkFill hfill
  have hcommit := commit_ok_iff.mpr hstart
  have hbegin : World.step ⟨s, none⟩ (.start c source destination config)
      = some ⟨s.skipIds rows.length 1, some ⟨row, rows, refsOf rows, []⟩⟩ := by
    simp only [World.step, hcommit]
    simp
  have hnamed : ∀ k ∈ refsOf rows, s.HasBlob k := by
    intro k hk
    have hpos := mem_refsOf.mp hk
    rw [show rows = _ from hrows] at hpos
    exact h.forkRows_present hpos
  have hrun : ForkRun (fun _ _ => True) ⟨s, none⟩ _ := ForkRun.refl.step _ trivial hbegin
  obtain ⟨bumped, hrun, hall⟩ := hrun.bumpAll (fun _ _ => trivial) hnamed
  refine hrun.step .commit trivial ?_
  have hcounts : ∀ k, (if k ∈ bumped then (objectRefs rows k : Int) else 0)
      = objectRefs rows k := by
    intro k
    split
    · rfl
    · rename_i hk
      rw [hall, mem_refsOf] at hk
      simp only [List.not_mem_nil, or_false] at hk
      omega
  simp only [World.step, Fork.publish, Db.skipIds, hbucket, hobject, hcounts,
    yields_addRefcount hbump, Option.bind_eq_bind, Option.bind_some, if_true]

end Pgs3
