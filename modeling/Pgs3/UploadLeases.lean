import Pgs3.AttachGc

/-!
# Pending uploads and their collector

`gc_pending_uploads` deletes uploads that nobody has touched for some time and whose lease has
run out, while renewals, chunk writes, part operations, completions and aborts go on.  Its one
statement reads three versions of a row: the scan sees the statement's snapshot, `FOR UPDATE
… SKIP LOCKED` locks the newest version and evaluates the `WHERE` clause again on it, and the
`DELETE` removes that version.  The steps in between are kept apart here, and any step of any
other session may come between them.

A row that the sweep has taken is locked, so what the sweep found in it stays true until the
sweep ends (`SweepFacts`).  All else follows.
-/

namespace Pgs3

open Foundation Foundation.Tx

/-! ## 1. The sweep -/

/-- The arguments of `gc_pending_uploads`, and `v_now`. -/
structure Sweep where
  now : Timestamp
  maxAge : Int
  limit : Int

namespace Sweep

/-- The `WHERE` clause. -/
def Expired (g : Sweep) (r : UploadRow) : Prop :=
  r.state = .pending ∧ r.updatedAt < g.now - g.maxAge ∧ r.leaseExpiresAt ≤ g.now

instance (g : Sweep) : DecidablePred g.Expired := fun r => by
  unfold Expired
  infer_instance

/-- `p_max_age < interval '0' OR p_limit < 1 OR p_limit > 100000` -/
def Invalid (g : Sweep) : Prop := g.maxAge < 0 ∨ g.limit < 1 ∨ 100000 < g.limit

/-- What the scan finds, in the order of the query. -/
def candidates (g : Sweep) (s : Db) : List Uuid :=
  ((s.upload.rows.filter fun r => g.Expired r).insertionSort fun a b =>
    a.leaseExpiresAt < b.leaseExpiresAt ∨ (a.leaseExpiresAt = b.leaseExpiresAt ∧
      (a.updatedAt < b.updatedAt ∨ (a.updatedAt = b.updatedAt ∧ a.uploadId ≤ b.uploadId)))).map
    (·.uploadId)

end Sweep

inductive SweepPoint where
  | called (g : Sweep)
  /-- the candidates still to be locked, and the rows of `doomed` so far -/
  | locking (g : Sweep) (candidates doomed : List Uuid)
  | returned (g : Sweep) (doomed : List Uuid)
  | failed (e : PgError)

/-- The next step of a sweep.  The rows that `DELETE` locks and writes, those of the cascade
    and of the reference counts among them, are up to the run within the rules of locking. -/
inductive SweepExec (locked : Set RowId) :
    SweepPoint → Db → ReadCommitted.Effect Db RowId SweepPoint → Prop
  | refuse {g : Sweep} {s : Db} (hbad : g.Invalid) :
      SweepExec locked (.called g) s
        ⟨s, ∅, ∅, .failed (invalidParameter "invalid GC age or limit")⟩
  | scan {g : Sweep} {s : Db} (hgood : ¬ g.Invalid) :
      SweepExec locked (.called g) s ⟨s, ∅, ∅, .locking g (g.candidates s) []⟩
  -- another transaction has the row
  | skip {g : Sweep} {s : Db} {u : Uuid} {us doomed : List Uuid}
      (hroom : doomed.length < g.limit) (hu : .upload u ∈ locked) :
      SweepExec locked (.locking g (u :: us) doomed) s ⟨s, ∅, ∅, .locking g us doomed⟩
  -- the newest version is gone, or no longer satisfies the clause
  | pass {g : Sweep} {s : Db} {u : Uuid} {us doomed : List Uuid} {L : Set RowId}
      (hroom : doomed.length < g.limit) (hu : .upload u ∉ locked)
      (hnew : ∀ r, s.upload.lookup u = some r → ¬ g.Expired r) :
      SweepExec locked (.locking g (u :: us) doomed) s ⟨s, ∅, L, .locking g us doomed⟩
  | take {g : Sweep} {s : Db} {u : Uuid} {us doomed : List Uuid} {r : UploadRow} {L : Set RowId}
      (hroom : doomed.length < g.limit) (hL : .upload u ∈ L)
      (hr : s.upload.lookup u = some r) (hnew : g.Expired r) :
      SweepExec locked (.locking g (u :: us) doomed) s
        ⟨s, ∅, L, .locking g us (doomed ++ [u])⟩
  | delete {g : Sweep} {s s' : Db} {us doomed : List Uuid} {W L : Set RowId}
      (hend : us = [] ∨ g.limit ≤ doomed.length)
      (hy : Yields (doomed.forM fun u => deleteUpload u) s () s') :
      SweepExec locked (.locking g us doomed) s ⟨s', W, L, .returned g doomed⟩
  | raise {g : Sweep} {s : Db} {us doomed : List Uuid} {e : PgError}
      (hend : us = [] ∨ g.limit ≤ doomed.length)
      (he : (doomed.forM fun u => deleteUpload u : DbTx PUnit).run s = .error e) :
      SweepExec locked (.locking g us doomed) s ⟨s, ∅, ∅, .failed e⟩

/-! ## 2. Sweeps among calls -/

def Op.isSweep : Op → Bool
  | .gcPendingUploads .. => true
  | _ => false

inductive LeasePoint : Type 1
  | call (p : Point)
  | sweep (p : SweepPoint)

inductive LeaseExec (locked written : Set RowId) :
    LeasePoint → Db → ReadCommitted.Effect Db RowId LeasePoint → Prop
  | call {p : Point} {s : Db} {e : ReadCommitted.Effect Db RowId Point}
      (he : Exec locked written p s e) :
      LeaseExec locked written (.call p) s ⟨e.view, e.writes, e.locks, .call e.point⟩
  | sweep {p : SweepPoint} {s : Db} {e : ReadCommitted.Effect Db RowId SweepPoint}
      (he : SweepExec locked p s e) :
      LeaseExec locked written (.sweep p) s ⟨e.view, e.writes, e.locks, .sweep e.point⟩

/-- Sessions that make calls, as in `sessions`, and sessions that sweep. -/
def leaseSessions (H : Digests) : ReadCommitted.System Db RowId LeasePoint where
  rows := dbRows
  Starts := fun p =>
    (∃ c op q, Op.isFork op = false ∧ Op.isSweep op = false ∧ q.body = opBody H c op ∧
      p = .call (.running q)) ∨
    ∃ g, p = .sweep (.called g)
  Done := fun p => (∃ r, p = .call (.running (.pure r))) ∨ ∃ g us, p = .sweep (.returned g us)
  Exec := LeaseExec

abbrev LeaseWorld := ReadCommitted.World Db RowId LeasePoint

abbrev LeaseSession := ReadCommitted.Session Db RowId LeasePoint

def idleLeases (s : Db) : LeaseWorld := ⟨s, fun _ => none⟩

/-! ## 3. What a sweep knows -/

/-- The sweep that runs at a point, and the uploads it has taken. -/
def LeasePoint.taken : LeasePoint → Option (Sweep × List Uuid)
  | .sweep (.called g) => some (g, [])
  | .sweep (.locking g _ doomed) => some (g, doomed)
  | .sweep (.returned g doomed) => some (g, doomed)
  | .sweep (.failed _) | .call _ => none

/-- The uploads that the sweep has taken are locked, and expired as they are committed; the
    others it sees as they are committed. -/
structure SweepFacts (g : Sweep) (doomed : List Uuid)
    (v : LeaseSession) (c : Db) : Prop where
  expired : ∀ u ∈ doomed, .upload u ∈ v.locks ∧ ∃ r, c.upload.lookup u = some r ∧ g.Expired r
  others : ∀ u, u ∉ doomed → v.view.upload.lookup u = c.upload.lookup u

def SweepKnows (v : LeaseSession) (c : Db) : Prop :=
  ∀ g doomed, v.point.taken = some (g, doomed) → SweepFacts g doomed v c

variable {u : Uuid} {s' : Db}

theorem lookup_deleteUpload {x : Uuid} {s : Db} {r : Unit} (hx : x ≠ u)
    (h : Yields (deleteUpload u) s r s') : s'.upload.lookup x = s.upload.lookup x := by
  simp only [deleteUpload, yields_modify_bind] at h
  obtain ⟨_, s₁, hchunks, hparts⟩ := yields_bind.mp h
  rw [yields_deleteUploadParts hparts, yields_deleteUploadChunks hchunks]
  apply Table.lookup_delete
  intro row _ hrow
  have hne : row.uploadId ≠ u := hrow ▸ hx
  simp [hne]

theorem lookup_deleteUploads {us : List Uuid} {x : Uuid} {s : Db} {r : PUnit}
    (h : Yields (us.forM fun u => deleteUpload u) s r s') (hx : x ∉ us) :
    s'.upload.lookup x = s.upload.lookup x := by
  induction us generalizing s with
  | nil =>
    obtain ⟨_, rfl⟩ := yields_pure.mp h
    rfl
  | cons u us ih =>
    obtain ⟨_, s₁, hfirst, hrest⟩ := yields_bind.mp h
    rw [ih hrest (fun hmem => hx (List.mem_cons_of_mem _ hmem))]
    exact lookup_deleteUpload (fun heq => hx (heq ▸ List.mem_cons_self)) hfirst

/-- **Other sessions leave what a sweep knows.** -/
theorem sweepKnows_stable : dbRows.Stable SweepKnows := by
  intro v s c c' h hheld hlocks hover g doomed hpoint
  have hfacts := h g doomed hpoint
  constructor
  · intro u hu
    obtain ⟨hlocked, r, hr, hexpired⟩ := hfacts.expired u hu
    have hsame : c'.upload.lookup u = c.upload.lookup u := hlocks (.upload u) hlocked
    exact ⟨hlocked, r, hsame.trans hr, hexpired⟩
  · intro u hu
    by_cases hw : RowId.upload u ∈ v.writes
    · have hown : s.upload.lookup u = v.view.upload.lookup u := hover.1 _ hw
      have hsame : c'.upload.lookup u = c.upload.lookup u := hlocks _ (hheld hw)
      exact (hown.trans (hfacts.others u hu)).trans hsame.symm
    · exact hover.2 (.upload u) hw

variable {c : Db}

/-- **Each step of a sweep keeps what it knows.** -/
theorem sweepFacts_step {locked : Set RowId} {p : SweepPoint}
    {v : LeaseSession} {e : ReadCommitted.Effect Db RowId SweepPoint}
    (hp : v.point = .sweep p) (he : SweepExec locked p v.view e) (h : SweepKnows v c) :
    SweepKnows (v.apply ⟨e.view, e.writes, e.locks, .sweep e.point⟩) c := by
  intro g' doomed' htaken
  cases he with
  | refuse hbad => exact absurd htaken (by simp [ReadCommitted.Session.apply, LeasePoint.taken])
  | raise hend he => exact absurd htaken (by simp [ReadCommitted.Session.apply, LeasePoint.taken])
  | @scan g _ hgood =>
    obtain ⟨rfl, rfl⟩ := Prod.mk.inj (Option.some.inj htaken)
    have hfacts := h g [] (by rw [hp]; rfl)
    exact ⟨fun u hu => absurd hu List.not_mem_nil, hfacts.others⟩
  | @skip g _ u us doomed hroom hu =>
    obtain ⟨rfl, rfl⟩ := Prod.mk.inj (Option.some.inj htaken)
    have hfacts := h g doomed (by rw [hp]; rfl)
    exact ⟨fun x hx => ⟨Or.inl (hfacts.expired x hx).1, (hfacts.expired x hx).2⟩, hfacts.others⟩
  | @pass g _ u us doomed L hroom hu hnew =>
    obtain ⟨rfl, rfl⟩ := Prod.mk.inj (Option.some.inj htaken)
    have hfacts := h g doomed (by rw [hp]; rfl)
    exact ⟨fun x hx => ⟨Or.inl (hfacts.expired x hx).1, (hfacts.expired x hx).2⟩, hfacts.others⟩
  | @take g _ u us doomed r L hroom hL hr hnew =>
    obtain ⟨rfl, rfl⟩ := Prod.mk.inj (Option.some.inj htaken)
    have hfacts := h g doomed (by rw [hp]; rfl)
    constructor
    · intro x hx
      by_cases hold : x ∈ doomed
      · exact ⟨Or.inl (hfacts.expired x hold).1, (hfacts.expired x hold).2⟩
      · -- the row that was just locked: not yet written, so seen as it is committed
        have hx : x = u := by simpa [hold] using hx
        subst hx
        exact ⟨Or.inr hL, r, (hfacts.others x hold).symm.trans hr, hnew⟩
    · intro x hx
      exact hfacts.others x fun hold => hx (List.mem_append_left _ hold)
  | @delete g _ s' us doomed W L hend hy =>
    obtain ⟨rfl, rfl⟩ := Prod.mk.inj (Option.some.inj htaken)
    have hfacts := h g doomed (by rw [hp]; rfl)
    constructor
    · exact fun x hx => ⟨Or.inl (hfacts.expired x hx).1, (hfacts.expired x hx).2⟩
    · intro x hx
      exact (lookup_deleteUploads hy hx).trans (hfacts.others x hx)

theorem sweepKnows_keeps (H : Digests) : (leaseSessions H).Keeps SweepKnows := by
  intro locked written v c e he _ h
  generalize hp : v.point = p at he
  cases he with
  | call he =>
    intro g doomed htaken
    exact absurd htaken (by simp [ReadCommitted.Session.apply, LeasePoint.taken])
  | sweep he => exact sweepFacts_step hp he h

/-- The step leaves the committed row of `u` alone, unless it ends the sweep `g` of
    session `i`. -/
def LeftToSweep (i : Nat) (g : Sweep) (u : Uuid) (w w' : LeaseWorld) : Prop :=
  w'.committed.upload.lookup u = w.committed.upload.lookup u ∨
    ∃ v doomed, w.session i = some v ∧ v.point = .sweep (.returned g doomed) ∧
      w'.session i = none

section Runs

variable {H : Digests} {s : Db} {w : LeaseWorld} {ok : LeaseWorld → LeaseWorld → Prop}
  (h : (leaseSessions H).Run ok (idleLeases s) w)

include h

theorem leases_sound : w.Sound dbRows fun _ => True :=
  h.sound (fun _ _ _ _ _ _ _ _ _ _ _ _ _ => trivial) (fun _ _ _ => trivial)
    (fun _ _ _ _ _ _ _ => trivial) (ReadCommitted.World.sound_idle trivial)

theorem leases_known : w.Knows SweepKnows := by
  refine h.knows sweepKnows_stable ?_ (sweepKnows_keeps H)
    (ReadCommitted.World.sound_idle trivial) fun hv => absurd hv (by simp)
  intro p c hstart g doomed htaken
  rcases hstart with ⟨_, _, _, _, _, _, rfl⟩ | ⟨g', rfl⟩
  · exact absurd htaken (by simp [LeasePoint.taken])
  · obtain ⟨rfl, rfl⟩ := Prod.mk.inj (Option.some.inj htaken)
    exact ⟨fun u hu => absurd hu List.not_mem_nil, fun u _ => rfl⟩

theorem expired_of_removed {i : Nat} {v : LeaseSession} (hv : w.session i = some v) {g : Sweep}
    {doomed : List Uuid} (hpoint : v.point.taken = some (g, doomed)) {r : UploadRow}
    (hr : w.committed.upload.lookup u = some r) (hremoved : v.view.upload.lookup u ≠ some r) :
    g.Expired r ∧ .upload u ∈ v.locks := by
  have hfacts := leases_known h hv g doomed hpoint
  by_cases hu : u ∈ doomed
  · obtain ⟨hlocked, r', hr', hexpired⟩ := hfacts.expired u hu
    rw [hr] at hr'
    obtain rfl := Option.some.inj hr'
    exact ⟨hexpired, hlocked⟩
  · exact absurd ((hfacts.others u hu).trans hr) hremoved

/-- **One step.**  A row with a lease beyond `v_now` outlives the end of the sweep. -/
theorem live_step {w' : LeaseWorld} {i : Nat}
    {g : Sweep} {r : UploadRow} (hr : w.committed.upload.lookup u = some r)
    (hlive : g.now < r.leaseExpiresAt) (hstep : (leaseSessions H).Step w w')
    (hleft : LeftToSweep i g u w w') : w'.committed.upload.lookup u = some r := by
  rcases hleft with hsame | ⟨v, doomed, hv, hpoint, hgone⟩
  · exact hsame.trans hr
  · cases hstep with
    | start hnew hp => exact hr
    | statement hv he hframe hheld hfree => exact hr
    | abort => exact hr
    | @commit j v' w' hv' hdone hcommitted hj hnone hsome =>
      by_cases hij : i = j
      · subst hij
        rw [hv] at hv'
        obtain rfl := Option.some.inj hv'
        by_contra hlost
        rw [hcommitted] at hlost
        obtain ⟨hexpired, _⟩ := expired_of_removed h hv (by rw [hpoint]; rfl) hr hlost
        exact absurd hexpired.2.2 (not_le.mpr hlive)
      · -- the commit of another session does not end this one
        obtain ⟨_, hstill, _⟩ := hsome i v hij hv
        rw [hgone] at hstill
        exact absurd hstill (by simp)

end Runs

/-! ## 4. A sweep when nobody holds a row -/

section Alone

variable {H : Digests} {c t : Db} {W L : Set RowId}
  {g : Sweep}

theorem sweep_step {p : SweepPoint} {e : ReadCommitted.Effect Db RowId SweepPoint}
    (he : SweepExec ∅ p t e) (hframe : ∀ x ∉ e.writes, SameRow x e.view t)
    (hheld : e.writes ⊆ e.locks) :
    (leaseSessions H).Step (.pair c (some ⟨t, W, L, .sweep p⟩) none) (.pair (dbRows.share c e.view)
      (some ⟨e.view, W ∪ e.writes, L ∪ e.locks, .sweep e.point⟩) none) :=
  .statement_zero (S := leaseSessions H) (b := none) (v := ⟨t, W, L, .sweep p⟩) hframe hheld
    (LeaseExec.sweep he) (Set.disjoint_empty _)

/-- The newest version of the row satisfies the clause. -/
def Sweep.still (g : Sweep) (t : Db) (u : Uuid) : Bool :=
  (t.upload.lookup u).any fun r => g.Expired r

variable (ok : LeaseWorld → LeaseWorld → Prop)
  (hok : ∀ {c s v₀ v₁ u₀ u₁}, ok (.pair c v₀ v₁) (.pair (dbRows.share c s) u₀ u₁))

include hok

/-- Nobody else holds a row, so every candidate that still satisfies the clause is taken until
    the limit is reached. -/
theorem sweep_locks (us doomed : List Uuid) {n : Nat} (hroom : g.limit = doomed.length + n) :
    ∃ c' W' L' us', (leaseSessions H).Run ok
        (.pair c (some ⟨t, W, L, .sweep (.locking g us doomed)⟩) none)
        (.pair c' (some ⟨t, W', L', .sweep (.locking g us'
          (doomed ++ (us.filter (g.still t)).take n))⟩) none) ∧ (∀ x, SameRow x c' c) ∧
      (us' = [] ∨ g.limit ≤ (doomed ++ (us.filter (g.still t)).take n).length) := by
  induction us generalizing doomed n c W L with
  | nil =>
    rw [List.filter_nil, List.take_nil, List.append_nil]
    exact ⟨c, W, L, [], .start, fun x => (dbRows.equiv x).refl _, Or.inl rfl⟩
  | cons u us ih =>
    have hsame : ∀ x ∉ (∅ : Set RowId), SameRow x t t := fun x _ => (dbRows.equiv x).refl _
    cases n with
    | zero =>
      rw [List.take_zero, List.append_nil]
      exact ⟨c, W, L, u :: us, .start, fun x => (dbRows.equiv x).refl _, Or.inr (by omega)⟩
    | succ n =>
      cases hstill : g.still t u with
      | false =>
        have hpass : SweepExec ∅ (.locking g (u :: us) doomed) t
            ⟨t, ∅, ∅, .locking g us doomed⟩ := by
          refine .pass (by omega) (Set.notMem_empty _) fun r hr hexpired => ?_
          simp [Sweep.still, hr, hexpired] at hstill
        rw [List.filter_cons_of_neg (by simp [hstill])]
        obtain ⟨c', W', L', us', hrun, hrows, hend⟩ := ih doomed hroom
        exact ⟨c', W', L', us', .trans (.step .start (sweep_step hpass hsame subset_rfl) hok) hrun,
          fun x => (dbRows.equiv x).trans (hrows x) (dbRows.same_share x c t), hend⟩
      | true =>
        obtain ⟨r, hr, hexpired⟩ := (Option.any_eq_true _ _).mp hstill
        have htake : SweepExec ∅ (.locking g (u :: us) doomed) t
            ⟨t, ∅, {.upload u}, .locking g us (doomed ++ [u])⟩ :=
          .take (by omega) rfl hr (of_decide_eq_true hexpired)
        rw [List.filter_cons_of_pos hstill, List.take_succ_cons, List.append_cons]
        obtain ⟨c', W', L', us', hrun, hrows, hend⟩ := ih (doomed ++ [u]) (n := n)
          (by rw [List.length_append, List.length_singleton]; omega)
        exact ⟨c', W', L', us',
          .trans (.step .start (sweep_step htake hsame (Set.empty_subset _)) hok) hrun,
          fun x => (dbRows.equiv x).trans (hrows x) (dbRows.same_share x c t), hend⟩

theorem sweep_finishes (us : List Uuid) {t' : Db} (hlimit : 0 ≤ g.limit)
    (hy : Yields (((us.filter (g.still t)).take g.limit.toNat).forM fun u => deleteUpload u)
      t () t') : ∃ c' W' L', (leaseSessions H).Run ok
        (.pair c (some ⟨t, W, L, .sweep (.locking g us [])⟩) none)
        (.pair c' (some ⟨t', W', L', .sweep (.returned g
          ((us.filter (g.still t)).take g.limit.toNat))⟩) none) ∧ ∀ x, SameRow x c' c := by
  obtain ⟨c', W', L', us', hrun, hrows, hend⟩ := sweep_locks (H := H) ok hok us []
    (c := c) (t := t) (W := W) (L := L) (g := g) (n := g.limit.toNat)
    (by rw [List.length_nil]; omega)
  rw [List.nil_append] at hrun hend
  have hlast := sweep_step (H := H) (c := c') (W := W') (L := L')
    (.delete (W := .univ) (L := .univ) hend hy) (fun x hx => (hx trivial).elim) subset_rfl
  exact ⟨_, _, _, hrun.step hlast hok,
    fun x => (dbRows.equiv x).trans (dbRows.same_share x c' t') (hrows x)⟩

end Alone

theorem candidates_still (g : Sweep) (s : Db) :
    (g.candidates s).filter (g.still s) = g.candidates s := by
  refine List.filter_eq_self.mpr fun u hu => ?_
  obtain ⟨r, hr, rfl⟩ := List.mem_map.mp hu
  obtain ⟨hmem, hexpired⟩ := List.mem_filter.mp (List.mem_insertionSort _ |>.mp hr)
  have hlook : s.upload.lookup r.uploadId = some r := Table.lookup_of_mem hmem
  rw [Sweep.still, hlook]
  exact hexpired

theorem forM_deleteUpload_map (rows : List UploadRow) :
    (rows.map (·.uploadId)).forM (fun u => deleteUpload u)
      = rows.forM fun r => deleteUpload r.uploadId := by
  induction rows with
  | nil => rfl
  | cons r rows ih => exact congrArg (fun m => deleteUpload r.uploadId >>= fun _ => m) ih

/-- `gc_pending_uploads` as one transaction, in the terms of the sweep. -/
theorem yields_gcPendingUploads {c : Context} {maxAge limit : Int} {s : Db} {n : Nat}
    (hy : Yields (gcPendingUploads c maxAge limit) s n s') :
    ¬ (⟨c.now, maxAge, limit⟩ : Sweep).Invalid ∧
      Yields (((⟨c.now, maxAge, limit⟩ : Sweep).candidates s).take limit.toNat |>.forM
        fun u => deleteUpload u) s () s' ∧
      n = (((⟨c.now, maxAge, limit⟩ : Sweep).candidates s).take limit.toNat).length := by
  simp only [gcPendingUploads, yields_raiseIf_bind, yields_get_bind] at hy
  obtain ⟨hgood, hy⟩ := hy
  obtain ⟨_, s₁, hdelete, hcount⟩ := yields_bind.mp hy
  obtain ⟨rfl, rfl⟩ := yields_pure.mp hcount
  refine ⟨hgood, ?_, ?_⟩
  · rw [Sweep.candidates, ← List.map_take, forM_deleteUpload_map]
    exact hdelete
  · rw [Sweep.candidates, ← List.map_take, List.length_map]
    rfl

/-- **The sweep refines the transaction.**  When nobody else is there, the steps of a sweep
    can come to what `gc_pending_uploads` does in one go. -/
theorem sweep_alone {H : Digests} {c : Context} {maxAge limit : Int} {s : Db} {n : Nat}
    (hy : Yields (gcPendingUploads c maxAge limit) s n s') :
    ∃ c' W L doomed, (leaseSessions H).Run (fun _ _ => True) (idleLeases s)
        (.pair c' (some ⟨s', W, L, .sweep (.returned ⟨c.now, maxAge, limit⟩ doomed)⟩) none) ∧
      (∀ x, SameRow x c' s) ∧ doomed.length = n := by
  obtain ⟨hgood, hdelete, hcount⟩ := yields_gcPendingUploads hy
  have hlimit : 0 ≤ limit := by
    simp only [Sweep.Invalid, not_or, not_lt] at hgood
    omega
  rw [← candidates_still] at hdelete hcount
  obtain ⟨c', W, L, hrun, hrows⟩ := sweep_finishes (H := H) (fun _ _ => True) trivial _
    (c := dbRows.share s s) (W := ∅ ∪ ∅) (L := ∅ ∪ ∅) (g := ⟨c.now, maxAge, limit⟩) hlimit hdelete
  exact ⟨c', W, L, _, .trans (.step (.step .start (.start_zero (Or.inr ⟨_, rfl⟩)) trivial)
    (sweep_step (.scan hgood) (fun x _ => (dbRows.equiv x).refl _) subset_rfl) trivial) hrun,
    fun x => (dbRows.equiv x).trans (hrows x) (dbRows.same_share x s s), hcount.symm⟩

/-! ## 5. No live upload is taken -/

/-- **The collector takes no live upload.**  At every moment of every interleaving, an upload
    that a sweep has deleted is, in its newest committed version, pending, older than the
    cutoff and with a lease that had run out, and no other session has it locked.  And an
    upload whose committed lease goes beyond `v_now`, because it was renewed before the sweep
    got to its row, is still there in the same version as long as nobody but the sweep
    changes it. -/
theorem pending_gc_takes_no_live_upload {H : Digests} {s : Db} {w : LeaseWorld}
    (hrun : (leaseSessions H).Run (fun _ _ => True) (idleLeases s) w) {i : Nat}
    {v : LeaseSession} (hv : w.session i = some v) {g : Sweep}
    {doomed : List Uuid} (hpoint : v.point.taken = some (g, doomed)) :
    (∀ u r, w.committed.upload.lookup u = some r → v.view.upload.lookup u = none →
      r.state = .pending ∧ r.updatedAt < g.now - g.maxAge ∧ r.leaseExpiresAt ≤ g.now ∧
        .upload u ∉ w.locked i) ∧
    ∀ u r w', w.committed.upload.lookup u = some r → g.now < r.leaseExpiresAt →
      (leaseSessions H).Run (LeftToSweep i g u) w w' → w'.committed.upload.lookup u = some r := by
  constructor
  · intro u r hr hnone
    obtain ⟨hexpired, hlocked⟩ := expired_of_removed hrun hv hpoint hr (by simp [hnone])
    have hapart := (leases_sound hrun).disjoint_locked hv
    exact ⟨hexpired.1, hexpired.2.1, hexpired.2.2, Set.disjoint_left.mp hapart hlocked⟩
  · intro u r w' hr hlive hrest
    induction hrest with
    | start => exact hr
    | step hbefore hstep hleft ih =>
      have hreached := hrun.trans (hbefore.mono fun _ _ _ => trivial)
      exact live_step hreached ih hlive hstep hleft

/-! Two uploads were begun at the same time, and both leases have run out.  One of them is renewed
after the scan of a sweep has found it. -/

def staleUpload (u : Uuid) : UploadRow :=
  ⟨u, 1, "a".toList, false, none, .object [], none, none, none, "alice".toList, .pending, 0, 0, 10⟩

def leaseDb : Db :=
  { Db.empty with
    bucket := ⟨[⟨1, "bucket".toList, "alice".toList, 0, .object []⟩], by decide⟩
    upload := ⟨[staleUpload 1, staleUpload 2], by decide⟩ }

def leaseSweep : Sweep := ⟨50, 20, 10⟩

theorem pending_gc_takes_no_live_upload_renewed : ∃ w v w',
    (leaseSessions Digests.sample).Run (fun _ _ => True) (idleLeases leaseDb) w ∧
    leaseSweep.candidates leaseDb = [1, 2] ∧ w.session 0 = some v ∧
    v.point = .sweep (.returned leaseSweep [1]) ∧ v.view.upload.lookup 1 = none ∧
    (∃ r, w.committed.upload.lookup 1 = some r ∧ r.leaseExpiresAt ≤ 50 ∧
      RowId.upload 1 ∉ w.locked 0) ∧
    (leaseSessions Digests.sample).Step w w' ∧ w'.session 0 = none ∧
    ∃ r, w'.committed.upload.lookup 2 = some r ∧ 50 < r.leaseExpiresAt := by
  obtain ⟨reply, s₁, hrenew, hafter⟩ := exists_yields (s := leaseDb)
    (m := opBody Digests.sample { Context.sample with now := 50 } (.onUpload none 2 .renew))
    (P := fun r => (([1, 2].filter (leaseSweep.still r.2) = [1] : Bool) &&
      ((r.2.upload.lookup 2).any fun u => 50 < u.leaseExpiresAt)) &&
      ((r.2.upload.lookup 1).isSome &&
        (([1].forM fun u => deleteUpload u : DbTx PUnit).run r.2).toOption.any fun q =>
          (q.2.upload.lookup 1).isNone)) (by decide +kernel)
  simp only [Bool.and_eq_true, decide_eq_true_eq] at hafter
  obtain ⟨⟨hstill, hlive⟩, hfirst, hdelete⟩ := hafter
  obtain ⟨_, s₂, hdelete, hgone⟩ := exists_yields hdelete
  obtain ⟨r, hr, hlease⟩ := (Option.any_eq_true _ _).mp hlive
  obtain ⟨r₁, hr₁⟩ := Option.isSome_iff_exists.mp hfirst
  have hscan : leaseSweep.candidates leaseDb = [1, 2] := by decide +kernel
  obtain ⟨p, hp⟩ := exists_prog_call Digests.sample { Context.sample with now := 50 }
    (show Op.isFork (.onUpload none 2 .renew) = false from rfl)
  rw [← hp] at hrenew
  have hopen : (leaseSessions Digests.sample).Run (fun _ _ => True) (idleLeases leaseDb) _ :=
    .step (.step .start (.start_zero (Or.inr ⟨leaseSweep, rfl⟩)) trivial)
      (sweep_step (.scan (by simp [Sweep.Invalid, leaseSweep]))
        (fun x _ => (dbRows.equiv x).refl _) subset_rfl) trivial
  rw [hscan, Set.union_empty] at hopen
  have hrun := hopen.trans (call_between (S := leaseSessions Digests.sample) .call
    .call (Or.inl ⟨_, _, p, rfl, rfl, hp, rfl⟩) (Or.inl ⟨reply, rfl⟩) hrenew)
  have htaken : ([1, 2].filter (leaseSweep.still s₁)).take leaseSweep.limit.toNat = [1] := by
    rw [hstill]
    rfl
  rw [← htaken] at hdelete
  obtain ⟨c, W, L, hsweep, hrows⟩ := sweep_finishes (H := Digests.sample)
    (LeftToSweep 0 leaseSweep 2) (Or.inl rfl) [1, 2] (c := s₁) (t := s₁) (W := ∅) (L := ∅)
    (g := leaseSweep) (by decide) hdelete
  rw [htaken] at hsweep
  have hend := hrun.trans (hsweep.mono fun _ _ _ => trivial)
  have hcommit := ReadCommitted.System.Step.commit_zero (S := leaseSessions Digests.sample) (c := c)
    (v := ⟨s₂, W, L, .sweep (.returned leaseSweep [1])⟩) (Or.inr ⟨_, _, rfl⟩)
  obtain ⟨hdeleted, _⟩ := pending_gc_takes_no_live_upload hend (i := 0) rfl rfl
  obtain ⟨_, hkept⟩ := pending_gc_takes_no_live_upload hrun (i := 0) rfl rfl
  have hgone : s₂.upload.lookup 1 = none := Option.isNone_iff_eq_none.mp hgone
  have hr₁ : c.upload.lookup 1 = some r₁ := (hrows (.upload 1)).trans hr₁
  obtain ⟨_, _, hexpired, hfree⟩ := hdeleted 1 r₁ hr₁ hgone
  have hlast := hkept 2 r _ hr (of_decide_eq_true hlease)
    (hsweep.step hcommit (Or.inr ⟨_, _, rfl, rfl, rfl⟩))
  exact ⟨_, _, _, hend, hscan, rfl, rfl, hgone, ⟨r₁, hr₁, hexpired, hfree⟩, hcommit, rfl, r, hlast,
    of_decide_eq_true hlease⟩

end Pgs3
