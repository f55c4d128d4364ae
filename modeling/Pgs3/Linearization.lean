import Pgs3.KeyWriters

/-!
# Concurrent writers linearize

Every interleaving of the writers of one key commits what some serial order commits: the
order of the commits.  The invariant `WritersInv` says why.  A transaction that has not
locked the key has read and written nothing; the one that holds the lock has done on the
committed rows, which nobody else can change, exactly what its statements do when they run
without interruption.
-/

namespace Pgs3

variable {b : Nat} {k : Text}

variable {rows rows' : List ObjectRow} {seq v : Nat} {a : WriteAction} {c : Context}
  {st : Statement} {l l' : Locals} {ws : List RowWrite} {n m contentType : Option Text}
  {key bucket : Text} {s s' : Db} {metadata : Jsonb} {history : List Committed}

/-! ## 1. The rows of one key -/

/-- Rows of the key only, with distinct version ids up to `seq`, the greatest one marked. -/
structure KeyRows (b : Nat) (k : Text) (rows : List ObjectRow) (seq : Nat) : Prop where
  ofKey : ∀ o ∈ rows, o.bucketId = b ∧ o.key = k
  nodup : (rows.map (·.versionId)).Nodup
  latest : LatestIsGreatest rows
  bounded : ∀ o ∈ rows, o.versionId ≤ seq

theorem KeyRows.mono {seq' : Nat} (h : KeyRows b k rows seq) (hle : seq ≤ seq') :
    KeyRows b k rows seq' :=
  ⟨h.ofKey, h.nodup, h.latest, fun o ho => Nat.le_trans (h.bounded o ho) hle⟩

theorem KeyRows.pk_nodup (h : KeyRows b k rows seq) : (rows.map ObjectRow.pk).Nodup := by
  refine List.Nodup.of_map (fun p : Nat × Text × Nat => p.2.2) ?_
  rw [List.map_map]
  exact h.nodup

theorem KeyRows.publish (h : KeyRows b k rows seq) {row : ObjectRow} (hb : row.bucketId = b)
    (hk : row.key = k) (hl : row.isLatest = true) (hv : row.versionId = v)
    (habove : ∀ r ∈ rows, r.versionId < v) (hle : v ≤ seq) :
    KeyRows b k (rows.map (setLatest (isLatestOf b k) false) ++ [row]) seq where
  ofKey := by
    intro o ho
    rcases List.mem_append.mp ho with ho | ho
    · obtain ⟨r, hr, rfl⟩ := List.mem_map.mp ho
      simpa using h.ofKey r hr
    · rw [List.mem_singleton.mp ho]
      exact ⟨hb, hk⟩
  nodup := by
    have hmap : (rows.map (setLatest (isLatestOf b k) false)).map (·.versionId)
        = rows.map (·.versionId) := by
      rw [List.map_map]
      exact List.map_congr_left fun o _ => setLatest_versionId _ _ o
    rw [List.map_append, hmap, List.map_singleton, hv]
    refine List.Nodup.append h.nodup (List.nodup_singleton v) ?_
    intro n hn hnv
    obtain ⟨r, hr, rfl⟩ := List.mem_map.mp hn
    have := habove r hr
    rw [List.mem_singleton.mp hnv] at this
    omega
  latest := by
    have := h.latest.publish row hl fun r hr _ _ => hv ▸ habove r hr
    rwa [hb, hk] at this
  bounded := by
    intro o ho
    rcases List.mem_append.mp ho with ho | ho
    · obtain ⟨r, hr, rfl⟩ := List.mem_map.mp ho
      rw [setLatest_versionId]
      exact h.bounded r hr
    · rw [List.mem_singleton.mp ho, hv]
      exact hle

theorem KeyRows.remove (h : KeyRows b k rows seq) {v : Int} {d : ObjectRow} (hd : d ∈ rows)
    (hdv : isVersionOf b k v d = true) :
    KeyRows b k (afterRemoval rows b k v d) seq where
  ofKey := by
    intro o ho
    unfold afterRemoval at ho
    split at ho
    · obtain ⟨r, hr, rfl⟩ := List.mem_map.mp ho
      simpa using h.ofKey r (mem_rowsWithout.mp hr).1
    · exact h.ofKey o (mem_rowsWithout.mp ho).1
  nodup := by
    have hrest : ((rowsWithout rows b k v).map (·.versionId)).Nodup :=
      h.nodup.sublist (List.filter_sublist.map _)
    unfold afterRemoval
    split
    · rw [List.map_map]
      exact (List.map_congr_left fun o _ => (setLatest_versionId _ _ o).symm) ▸ hrest
    · exact hrest
  latest := h.latest.remove hd hdv
  bounded := by
    intro o ho
    obtain ⟨r, hr, hv, _⟩ := mem_afterRemoval ho
    exact hv ▸ h.bounded r hr

/-! ## 2. Writes and what they amount to -/

theorem overlay_append (rows : List ObjectRow) (ws ws' : List RowWrite) :
    overlay rows (ws ++ ws') = overlay (overlay rows ws) ws' :=
  List.foldl_append

theorem mark_apply (hnd : (rows.map (·.versionId)).Nodup) (sel : ObjectRow → Bool) (value : Bool) :
    (RowWrite.mark ((rows.filter sel).map (·.versionId)) value).apply rows
      = rows.map (setLatest sel value) := by
  refine List.map_congr_left fun o ho => ?_
  have hmem : o.versionId ∈ (rows.filter sel).map (·.versionId) ↔ sel o = true := by
    constructor
    · intro h
      obtain ⟨r, hr, hrv⟩ := List.mem_map.mp h
      obtain ⟨hr, hsel⟩ := List.mem_filter.mp hr
      rwa [← List.inj_on_of_nodup_map hnd hr ho hrv]
    · intro h
      exact List.mem_map_of_mem (List.mem_filter.mpr ⟨ho, h⟩)
  simp only [setLatest, hmem]

theorem remove_apply (h : KeyRows b k rows seq) {v : Int} {d : ObjectRow}
    (hdv : isVersionOf b k v d = true) :
    (RowWrite.remove d.versionId).apply rows = rowsWithout rows b k v := by
  obtain ⟨_, _, hv⟩ := isVersionOf_iff.mp hdv
  refine List.filter_congr fun o ho => ?_
  obtain ⟨hob, hok⟩ := h.ofKey o ho
  by_cases hov : o.versionId = d.versionId
  · rw [isVersionOf_iff.mpr ⟨hob, hok, hov ▸ hv⟩]
    simp [hov]
  · have hno : isVersionOf b k v o = false := by
      by_contra hyes
      have hyes := (isVersionOf_iff.mp (by simpa using hyes)).2.2
      exact hov (by exact_mod_cast hyes.trans hv.symm)
    simp [hov, hno]

/-- Statements one after the other, with nobody in between; `v` is what the sequence
    gives. -/
def runStatements (b : Nat) (k : Text) (a : WriteAction) (c : Context) (v : Nat)
    (rows : List ObjectRow) :
    List Statement → Locals × List RowWrite → Except PgError (Locals × List RowWrite)
  | [], p => .ok p
  | st :: rest, p =>
      match runStatement b k a c v (overlay rows p.2) p.1 st with
      | .ok (l, ws) => runStatements b k a c v rows rest (l, p.2 ++ ws)
      | .error e => .error e

theorem runStatements_snoc {sts : List Statement} {p : Locals × List RowWrite}
    {ws' : List RowWrite} (h : runStatements b k a c v rows sts p = .ok (l, ws))
    (hst : runStatement b k a c v (overlay rows ws) l st = .ok (l', ws')) :
    runStatements b k a c v rows (sts ++ [st]) p = .ok (l', ws ++ ws') := by
  induction sts generalizing p with
  | nil =>
    simp only [runStatements, Except.ok.injEq] at h
    subst h
    simp only [List.nil_append, runStatements, hst]
  | cons st₀ rest ih =>
    simp only [runStatements, List.cons_append] at h ⊢
    split at h
    · exact ih h
    · exact absurd h (by simp)

theorem published_of_run (h : KeyRows b k rows seq)
    (hrun : runStatements b k a c v rows [.demote, .insertRow] (l, []) = .ok (l', ws)) :
    overlay rows ws = rows.map (setLatest (isLatestOf b k) false) ++ [a.row b k c v l.source] := by
  simp only [runStatements, runStatement, Except.ok.injEq, Prod.mk.injEq] at hrun
  obtain ⟨_, rfl⟩ := hrun
  rw [List.nil_append, overlay_append]
  have hmark := mark_apply h.nodup (isLatestOf b k) false
  exact congrArg (· ++ [_]) hmark

/-- The statements of a publication after its source was read: conditions against the latest
    row, then the new row. -/
theorem published_of_conditions (h : KeyRows b k rows seq) (hrun : runStatements b k a c v rows
      [.readLatest, .checkConditions, .storeBlob, .demote, .insertRow] (l, []) = .ok (l', ws)) :
    checkWritePreconditions (rows.find? (isLatestOf b k)) a.ifNoneMatch a.ifMatch = .ok () ∧
      overlay rows ws = rows.map (setLatest (isLatestOf b k) false)
        ++ [a.row b k c v l.source] := by
  simp only [runStatements, runStatement, overlay, List.foldl_nil, List.append_nil] at hrun
  split at hrun
  · rename_i heq
    split at heq
    · rename_i hcheck
      obtain ⟨rfl, rfl⟩ := Prod.mk.inj (Except.ok.inj heq)
      refine ⟨hcheck, ?_⟩
      have := published_of_run (a := a) (c := c) (v := v) h
        (l := { l with current := rows.find? (isLatestOf b k) }) hrun
      exact this
    · exact absurd heq (by simp)
  · exact absurd hrun (by simp)

theorem removed_of_run (h : KeyRows b k rows seq) {version : Int}
    (hrun : runStatements b k (.deleteVersion version) c v rows
      (WriteAction.deleteVersion version).program ({}, []) = .ok (l, ws)) :
    serialWrite b k c v rows (.deleteVersion version) = .ok (overlay rows ws) := by
  simp only [WriteAction.program, runStatements, runStatement, overlay, List.foldl_nil,
    List.append_nil] at hrun
  cases hf : rows.find? (isVersionOf b k version) with
  | none =>
    simp only [hf, Option.any_none, Bool.false_eq_true, if_false, List.append_nil] at hrun
    obtain ⟨_, rfl⟩ := Prod.mk.inj (Except.ok.inj hrun)
    simp only [serialWrite, hf, overlay, List.foldl_nil]
  | some d =>
    have hdv : isVersionOf b k version d = true := List.find?_some hf
    have hrest : ((rowsWithout rows b k version).map (·.versionId)).Nodup :=
      h.nodup.sublist (List.filter_sublist.map _)
    simp only [hf, List.nil_append, List.foldl_cons, List.foldl_nil, Option.any_some,
      remove_apply h hdv] at hrun
    simp only [serialWrite, hf, afterRemoval]
    by_cases hl : d.isLatest = true
    · rw [if_pos hl] at hrun
      obtain ⟨_, rfl⟩ := Prod.mk.inj (Except.ok.inj hrun)
      have hover : overlay rows [.remove d.versionId] = rowsWithout rows b k version :=
        remove_apply h hdv
      rw [if_pos hl, overlay_append, hover]
      exact congrArg Except.ok (mark_apply hrest _ true).symm
    · rw [if_neg hl] at hrun
      obtain ⟨_, rfl⟩ := Prod.mk.inj (Except.ok.inj hrun)
      rw [if_neg hl, List.append_nil]
      exact congrArg Except.ok (remove_apply h hdv).symm

/-- **An uninterrupted action is the atomic write.** -/
theorem serialWrite_of_run (h : KeyRows b k rows seq)
    (hrun : runStatements b k a c v rows a.program ({}, []) = .ok (l, ws)) :
    serialWrite b k c v rows a = .ok (overlay rows ws) := by
  -- a self-copy and a restore differ in their source only
  have hsource : ∀ sts, runStatements b k a c v rows (.lockLifecycle :: .lockKey ::
        .readSource :: .lockLifecycle :: .lockKey :: sts) ({}, []) = .ok (l, ws) →
      ∃ o, a.checkedSource b k rows = .ok o ∧
        runStatements b k a c v rows sts ({ source := some o }, []) = .ok (l, ws) := by
    intro sts hsts
    simp only [runStatements, runStatement, overlay, List.foldl_nil, List.append_nil] at hsts
    cases hsrc : a.checkedSource b k rows with
    | error e => simp [hsrc] at hsts
    | ok o =>
      rw [hsrc] at hsts
      exact ⟨o, rfl, hsts⟩
  cases a with
  | publish payload contentType metadata n m =>
    obtain ⟨hcheck, hrows⟩ := published_of_conditions h (l := {}) hrun
    simp only [serialWrite, hcheck, hrows]
  | copySelf version sm contentType metadata n m =>
    obtain ⟨o, hsrc, hrun⟩ := hsource _ hrun
    obtain ⟨hcheck, hrows⟩ := published_of_conditions h hrun
    simp only [serialWrite, hsrc, hcheck, hrows]
  | restore version m =>
    obtain ⟨o, hsrc, hrun⟩ := hsource _ hrun
    obtain ⟨hcheck, hrows⟩ := published_of_conditions h hrun
    simp only [serialWrite, hsrc, hcheck, hrows]
  | deleteMarker =>
    have hrows := published_of_run h (l := {}) hrun
    simp only [serialWrite, hrows]
  | deleteVersion version => exact removed_of_run h hrun

theorem runStatement_draw (hst : st ≠ .insertRow) (v v' : Nat) :
    runStatement b k a c v rows l st = runStatement b k a c v' rows l st := by
  cases st <;> first | rfl | exact absurd rfl hst

theorem runStatement_version (hst : st ≠ .insertRow)
    (h : runStatement b k a c v rows l st = .ok (l', ws)) : l'.version = l.version := by
  cases st with
  | insertRow => exact absurd rfl hst
  | readSource | checkConditions =>
    simp only [runStatement] at h
    split at h
    · cases h; rfl
    · exact absurd h (by simp)
  | deleteRow =>
    simp only [runStatement] at h
    split at h
    · split at h <;> (cases h; rfl)
    · cases h; rfl
  | promote =>
    simp only [runStatement] at h
    split at h <;> (cases h; rfl)
  | lockLifecycle | lockKey | storeBlob | readLatest | demote => cases h; rfl

/-! ## 3. The atomic write -/

theorem checkWritePreconditions_ok_iff {current : Option ObjectRow} :
    checkWritePreconditions current n m = .ok () ↔ (∀ t ∈ n, normalizeEtag t = ['*']) ∧
      (n.isSome → ∀ o ∈ current, o.deleteMarker = true) ∧
      (∀ t ∈ m, ∃ o ∈ current, o.deleteMarker = false ∧ o.etag = some (normalizeEtag t)) := by
  have hlive : ∀ o, current.filter (fun o => !o.deleteMarker) = some o ↔
      o ∈ current ∧ o.deleteMarker = false := by
    intro o
    rw [Option.filter_eq_some_iff, Option.mem_def, Bool.not_eq_true']
  have hdead : (current.filter fun o => !o.deleteMarker).isSome = false ↔
      ∀ o ∈ current, o.deleteMarker = true := by
    rw [Option.isSome_eq_false_iff, Option.isNone_iff_eq_none, Option.filter_eq_none_iff]
    simp
  have hetag : ∀ t, (current.filter fun o => !o.deleteMarker).bind (·.etag)
      = some (normalizeEtag t) ↔
      ∃ o ∈ current, o.deleteMarker = false ∧ o.etag = some (normalizeEtag t) := by
    intro t
    simp only [Option.bind_eq_some_iff, hlive, and_assoc]
  unfold checkWritePreconditions
  simp only
  split
  · rename_i hstar
    obtain ⟨t, ht, hne⟩ := hstar
    exact iff_of_false (by simp) fun h => hne (h.1 t ht)
  · rename_i hstar
    push Not at hstar
    split
    · rename_i hnone
      refine iff_of_false (by simp) fun h => ?_
      rw [hdead.mpr (h.2.1 hnone.1)] at hnone
      exact absurd hnone.2 (by simp)
    · rename_i hnone
      have hnone : n.isSome → ∀ o ∈ current, o.deleteMarker = true := by
        intro hn
        exact hdead.mp (by simpa [hn] using hnone)
      split
      · rename_i hmatch
        obtain ⟨t, ht, hne⟩ := hmatch
        exact iff_of_false (by simp) fun h => hne ((hetag t).mpr (h.2.2 t ht))
      · rename_i hmatch
        push Not at hmatch
        exact iff_of_true rfl ⟨hstar, hnone, fun t ht => (hetag t).mp (hmatch t ht)⟩

theorem WriteAction.row_fields (a : WriteAction) (c : Context) (v : Nat) (o : Option ObjectRow) :
    (a.row b k c v o).bucketId = b ∧ (a.row b k c v o).key = k ∧
      (a.row b k c v o).versionId = v ∧ (a.row b k c v o).isLatest = true := by
  cases a <;> exact ⟨rfl, rfl, rfl, rfl⟩

theorem checkedSource_live {o : ObjectRow} (h : a.checkedSource b k rows = .ok o) :
    o.deleteMarker = false := by
  unfold WriteAction.checkedSource at h
  split at h
  · exact absurd h (by simp)
  · rename_i r hsrc
    split at h
    · exact absurd h (by simp)
    · obtain rfl := Except.ok.inj h
      have hfound : ∀ sel : ObjectRow → Bool,
          rows.find? (fun o => sel o && !o.deleteMarker) = some r → r.deleteMarker = false := by
        intro sel hf
        have := List.find?_some hf
        simp only [Bool.and_eq_true, Bool.not_eq_true'] at this
        exact this.2
      unfold WriteAction.sourceRow at hsrc
      split at hsrc
      · exact hfound _ hsrc
      · exact hfound _ hsrc
      · exact hfound _ hsrc
      · exact absurd hsrc (by simp)

theorem published_ok {check : Except PgError Unit}
    (h : (match check with
      | .ok () => .ok rows
      | .error e => .error e) = (.ok rows' : Except PgError (List ObjectRow))) :
    check = .ok () ∧ rows' = rows := by
  cases check with
  | error e => cases h
  | ok u => exact ⟨rfl, (Except.ok.inj h).symm⟩

/-- What an atomic write leaves behind: a new latest row, when the conditions hold, or the
    remaining versions. -/
theorem serialWrite_ok (h : serialWrite b k c v rows a = .ok rows') : (a.inserts = true ∧
      checkWritePreconditions (rows.find? (isLatestOf b k)) a.ifNoneMatch a.ifMatch = .ok () ∧
      ∃ source, rows' = rows.map (setLatest (isLatestOf b k) false) ++ [a.row b k c v source] ∧
        (a.isDeletion = false → (a.row b k c v source).deleteMarker = false)) ∨
    ∃ version, a = .deleteVersion version ∧
      (rows' = rows ∨ ∃ d ∈ rows, isVersionOf b k version d = true ∧
        rows' = afterRemoval rows b k version d) := by
  cases a with
  | publish payload contentType metadata n m =>
    rcases published_ok h with ⟨hcheck, hrows⟩
    exact Or.inl ⟨rfl, hcheck, none, hrows, fun _ => rfl⟩
  | copySelf version sm contentType metadata n m =>
    simp only [serialWrite] at h
    split at h
    · rename_i o hsrc
      have hlive : o.deleteMarker = false := checkedSource_live hsrc
      rcases published_ok h with ⟨hcheck, hrows⟩
      exact Or.inl ⟨rfl, hcheck, some o, hrows, fun _ => hlive⟩
    · exact absurd h (by simp)
  | restore version m =>
    simp only [serialWrite] at h
    split at h
    · rename_i o hsrc
      have hlive : o.deleteMarker = false := checkedSource_live hsrc
      rcases published_ok h with ⟨hcheck, hrows⟩
      exact Or.inl ⟨rfl, hcheck, some o, hrows, fun _ => hlive⟩
    · exact absurd h (by simp)
  | deleteMarker =>
    refine Or.inl ⟨rfl, by simp [checkWritePreconditions_ok_iff, WriteAction.ifNoneMatch,
      WriteAction.ifMatch], none, (Except.ok.inj h).symm, fun hd => absurd hd (by decide)⟩
  | deleteVersion version =>
    refine Or.inr ⟨version, rfl, ?_⟩
    simp only [serialWrite] at h
    split at h
    · rename_i d hf
      exact Or.inr ⟨d, List.mem_of_find?_eq_some hf, List.find?_some hf, (Except.ok.inj h).symm⟩
    · exact Or.inl (Except.ok.inj h).symm

theorem KeyRows.serialWrite (h : KeyRows b k rows seq)
    (hv : a.inserts = true → (∀ r ∈ rows, r.versionId < v) ∧ v ≤ seq)
    (hw : serialWrite b k c v rows a = .ok rows') : KeyRows b k rows' seq := by
  rcases serialWrite_ok hw with ⟨hins, _, source, rfl, _⟩ | ⟨version, _, rfl | ⟨d, hd, hdv, rfl⟩⟩
  · obtain ⟨hb, hk, hv', hl⟩ := a.row_fields (b := b) (k := k) c v source
    exact h.publish hb hk hl hv' (hv hins).1 (hv hins).2
  · exact h
  · exact h.remove hd hdv

/-! ### The sequential functions are the atomic write -/

open Foundation Foundation.Tx

theorem published_serial {s₁ : Db} {row : ObjectRow} {payload : Payload}
    (hcheck : checkWritePreconditions (s.latestRow b key) n m = .ok ())
    (hobj : s₁.object.rows = s.object.rows)
    (hins : Yields (insertLatest c b key (some payload) contentType metadata) s₁ row s') :
    serialWrite b key c row.versionId s.object.rows (.publish payload contentType metadata n m)
      = .ok s'.object.rows := by
  obtain ⟨rfl, _, _, object, hrows, rfl⟩ := yields_insertLatest hins
  have hcheck : checkWritePreconditions (s.object.rows.find? (isLatestOf b key)) n m = .ok () :=
    hcheck
  rw [hobj] at hrows
  simp only [serialWrite, WriteAction.ifNoneMatch, WriteAction.ifMatch, hcheck]
  exact congrArg Except.ok hrows.symm

theorem commitBodyLocked_serial {body sha256 : Bytes} {etag : Text} {info : ObjectInfo}
    (h : Yields (commitBodyLocked c b bucket key body sha256 etag contentType metadata n m)
      s info s') : ∃ blobId, serialWrite b key c info.object.versionId s.object.rows
      (.publish ⟨body.length, lower etag, blobId⟩ contentType metadata n m)
        = .ok s'.object.rows := by
  obtain ⟨_, hcheck, blobId, s₁, row, hblob, hrow, rfl⟩ := yields_commitBodyLocked h
  have hframe := ensureBlob_frames_catalog _ _ _ _ _ _ hblob
  exact ⟨blobId, published_serial hcheck (congrArg Prod.fst hframe) hrow⟩

theorem commitCanonicalLocked_serial {size : Nat} {sha256 blobId : Bytes} {etag : Text}
    {info : ObjectInfo}
    (h : Yields (commitCanonicalLocked c b bucket key size sha256 etag blobId contentType metadata
      n m) s info s') : serialWrite b key c info.object.versionId s.object.rows
      (.publish ⟨size, lower etag, blobId⟩ contentType metadata n m) = .ok s'.object.rows := by
  obtain ⟨_, hcheck, _, _, row, hrow, rfl⟩ := yields_commitCanonicalLocked h
  exact published_serial hcheck rfl hrow

theorem commitReferenceLocked_serial {source : ObjectRow} {info : ObjectInfo}
    (h : Yields (commitReferenceLocked c b bucket key source contentType metadata n m) s info s') :
    ∃ payload, source.payload = some payload ∧
      serialWrite b key c info.object.versionId s.object.rows
        (.publish payload contentType metadata n m) = .ok s'.object.rows := by
  obtain ⟨hcheck, payload, row, hpayload, _, hrow, rfl⟩ := yields_commitReferenceLocked h
  exact ⟨payload, hpayload, published_serial hcheck rfl hrow⟩

theorem delete_serial {version : Option Int} {r : DeleteResult}
    (h : Yields (delete c bucket key version) s r s') :
    ∃ id v, serialWrite id key c v s.object.rows
      (match version with
        | none => .deleteMarker
        | some n => .deleteVersion n) = .ok s'.object.rows := by
  unfold delete at h
  obtain ⟨id, s₁, hid, hrest⟩ := yields_bind.mp h
  obtain ⟨rfl, _⟩ := yields_bucketIdForChild hid
  simp only [validateKey, yields_raiseIf_bind] at hrest
  obtain ⟨_, hrest⟩ := hrest
  cases version with
  | none =>
    obtain ⟨row, s₂, hrow, hend⟩ := yields_bind.mp hrest
    obtain ⟨_, rfl⟩ := yields_pure.mp hend
    obtain ⟨rfl, _, _, object, hrows, rfl⟩ := yields_insertLatest hrow
    exact ⟨id, _, congrArg Except.ok hrows.symm⟩
  | some n =>
    refine ⟨id, 0, ?_⟩
    rcases yields_removeVersion hrest with ⟨rfl, hnone⟩ | ⟨d, hd, hdv, object, hrows, rfl⟩
    · have hf : s'.object.rows.find? (isVersionOf id key n) = none :=
        List.find?_eq_none.mpr fun o ho => by simp [hnone o ho]
      simp only [serialWrite, hf]
    · obtain ⟨d', hf⟩ := Option.isSome_iff_exists.mp (List.find?_isSome.mpr ⟨d, hd, hdv⟩)
      obtain ⟨hb, hk, hv⟩ := isVersionOf_iff.mp hdv
      obtain ⟨hb', hk', hv'⟩ := isVersionOf_iff.mp (List.find?_some hf)
      have hversion : d'.versionId = d.versionId := by exact_mod_cast hv'.trans hv.symm
      have heq : d' = d := by
        refine List.inj_on_of_nodup_map (object_pk_nodup _) (List.mem_of_find?_eq_some hf) hd ?_
        simp only [ObjectRow.pk, hb, hk, hb', hk', hversion]
      simp only [serialWrite, hf, heq]
      exact congrArg Except.ok hrows.symm

/-! ## 4. The invariant -/

/-- How far a running transaction has come: it has run `done`.  Before it locks the key it
    has seen and written nothing; from then on its variables and writes are those of an
    uninterrupted run on the rows that are committed now. -/
structure InFlight (b : Nat) (k : Text) (w : Writers) (t : Tid) (x : Writer)
    (done : List Statement) : Prop where
  program : x.action.program = done ++ x.rest
  waiting : .lockKey ∉ done → x.locals = {} ∧ x.writes = []
  holding : .lockKey ∈ done → w.keyLock = some t
  drawn : .insertRow ∈ done → (∀ r ∈ w.rows, r.versionId < x.locals.version) ∧
    x.locals.version ≤ w.seq
  replay : ∀ v, (.insertRow ∈ done → v = x.locals.version) →
    runStatements b k x.action x.context v w.rows done ({}, []) = .ok (x.locals, x.writes)

/-- The history lists the committed transactions, each once and as it ran. -/
structure HistoryInv (tx : Tid → Option Writer) (history : List Committed) : Prop where
  committed : ∀ t, t ∈ history.map (·.tid) ↔ ∃ x, tx t = some x ∧ x.status = .committed
  recorded : ∀ e ∈ history, ∃ x, tx e.tid = some x ∧ x.action = e.action ∧
    x.context = e.context ∧ x.locals.version = e.version
  once : (history.map (·.tid)).Nodup

structure WritersInv (b : Nat) (k : Text) (rows₀ : List ObjectRow) (w : Writers) : Prop where
  serial : SerialRun b k rows₀ w.history w.rows
  key : KeyRows b k w.rows w.seq
  running : ∀ t x, w.tx t = some x → x.status = .running → ∃ done, InFlight b k w t x done
  holder : ∀ t, w.keyLock = some t → ∃ x, w.tx t = some x ∧ x.status = .running
  log : HistoryInv w.tx w.history

@[simp] theorem Writers.setTx_self (w : Writers) (t : Tid) (x : Writer) :
    (w.setTx t x).tx t = some x := if_pos rfl

theorem Writers.setTx_of_ne (w : Writers) {t u : Tid} (x : Writer) (h : u ≠ t) :
    (w.setTx t x).tx u = w.tx u := if_neg h

/-! ### The history -/

theorem HistoryInv.setTx {w : Writers} (h : HistoryInv w.tx w.history) {t : Tid} {x : Writer}
    (ht : t ∉ w.history.map (·.tid)) (hx : x.status ≠ .committed) :
    HistoryInv (w.setTx t x).tx w.history where
  committed := by
    intro u
    rw [h.committed u]
    by_cases hu : u = t
    · subst hu
      refine iff_of_false (fun hc => ht ((h.committed u).mpr hc)) ?_
      rintro ⟨y, hy, hc⟩
      rw [Writers.setTx_self, Option.some.injEq] at hy
      exact hx (hy ▸ hc)
    · rw [Writers.setTx_of_ne w x hu]
  recorded := by
    intro e he
    have hne : e.tid ≠ t := fun heq => ht (heq ▸ List.mem_map_of_mem he)
    rw [Writers.setTx_of_ne w x hne]
    exact h.recorded e he
  once := h.once

theorem HistoryInv.commit {w : Writers} (h : HistoryInv w.tx w.history) {t : Tid} {x : Writer}
    (ht : t ∉ w.history.map (·.tid)) :
    HistoryInv (w.setTx t { x with status := .committed }).tx
      (w.history ++ [⟨t, x.action, x.context, x.locals.version⟩]) where
  committed := by
    intro u
    rw [List.map_append, List.mem_append, h.committed u]
    by_cases hu : u = t
    · subst hu
      exact iff_of_true (Or.inr (by simp)) ⟨_, Writers.setTx_self .., rfl⟩
    · rw [Writers.setTx_of_ne w _ hu]
      simp [hu]
  recorded := by
    intro e he
    rcases List.mem_append.mp he with he | he
    · have hne : e.tid ≠ t := fun heq => ht (heq ▸ List.mem_map_of_mem he)
      rw [Writers.setTx_of_ne w _ hne]
      exact h.recorded e he
    · rw [List.mem_singleton.mp he]
      exact ⟨_, Writers.setTx_self .., rfl, rfl, rfl⟩
  once := by
    rw [List.map_append]
    exact h.once.append (List.nodup_singleton t) (by simpa using ht)

theorem HistoryInv.not_mem {tx : Tid → Option Writer} (h : HistoryInv tx history) {t : Tid}
    {x : Writer} (hx : tx t = some x) (hrun : x.status = .running) : t ∉ history.map (·.tid) := by
  intro ht
  obtain ⟨y, hy, hc⟩ := (h.committed t).mp ht
  rw [hx] at hy
  rw [← Option.some.inj hy, hrun] at hc
  exact absurd hc (by decide)

/-! ### Programs -/

theorem WriteAction.program_locks (a : WriteAction) :
    ∃ rest, a.program = .lockLifecycle :: .lockKey :: rest := by
  cases a <;> exact ⟨_, rfl⟩

/-- An action inserts at most once, and exactly when it is meant to. -/
theorem WriteAction.program_inserts (a : WriteAction) :
    a.program.count .insertRow = if a.inserts then 1 else 0 := by
  cases a <;> rfl

theorem before_lock {done rest : List Statement} (h : a.program = done ++ rest)
    (hdone : .lockKey ∉ done) : (done = [] ∧ ∃ tail, rest = .lockLifecycle :: tail) ∨
      (done = [.lockLifecycle] ∧ ∃ tail, rest = .lockKey :: tail) := by
  obtain ⟨tail, htail⟩ := a.program_locks
  rw [htail] at h
  rcases done with _ | ⟨d₁, _ | ⟨d₂, ds⟩⟩
  · exact Or.inl ⟨rfl, _, h.symm⟩
  · obtain ⟨rfl, h'⟩ := List.cons.inj h
    exact Or.inr ⟨rfl, _, h'.symm⟩
  · simp only [List.cons_append, List.cons.injEq] at h
    obtain ⟨_, rfl, _⟩ := h
    exact absurd (by simp) hdone

/-! ### Transactions in flight -/

section Flight

variable {w w' : Writers} {t u : Tid} {x : Writer} {done : List Statement}

theorem InFlight.start (w : Writers) (t : Tid) (a : WriteAction) (c : Context) :
    InFlight b k w t (.start a c) [] where
  program := rfl
  waiting := fun _ => ⟨rfl, rfl⟩
  holding := fun h => absurd h (by simp)
  drawn := fun h => absurd h (by simp)
  replay := fun _ _ => rfl

theorem InFlight.frame (h : InFlight b k w t x done) (hrows : w'.rows = w.rows)
    (hseq : w.seq ≤ w'.seq) (hlock : w.keyLock = some t → w'.keyLock = some t) :
    InFlight b k w' t x done where
  program := h.program
  waiting := h.waiting
  holding := fun hd => hlock (h.holding hd)
  drawn := fun hd => by
    rw [hrows]
    exact ⟨(h.drawn hd).1, Nat.le_trans (h.drawn hd).2 hseq⟩
  replay := by
    rw [hrows]
    exact h.replay

/-- A transaction that does not hold the key lock does not notice what others commit. -/
theorem InFlight.unlocked (h : InFlight b k w t x done) (hlock : w.keyLock ≠ some t)
    (w' : Writers) : InFlight b k w' t x done := by
  have hdone : .lockKey ∉ done := fun hd => hlock (h.holding hd)
  obtain ⟨hl, hw⟩ := h.waiting hdone
  refine ⟨h.program, h.waiting, fun hd => absurd hd hdone, fun hd => ?_, fun v _ => ?_⟩
  · rcases before_lock h.program hdone with ⟨rfl, _⟩ | ⟨rfl, _⟩
    · exact absurd hd (by simp)
    · exact absurd hd (by simp)
  · rw [hl, hw]
    rcases before_lock h.program hdone with ⟨rfl, _⟩ | ⟨rfl, _⟩
    · rfl
    · rfl

/-- **One statement.**  A transaction in flight that runs its next statement is in flight. -/
theorem InFlight.run (h : InFlight b k w t x done) (hkey : KeyRows b k w.rows w.seq)
    {rest : List Statement} (hst : x.rest = st :: rest)
    (hok : runStatement b k x.action x.context (w.seq + 1) (overlay w.rows x.writes) x.locals st
      = .ok (l, ws)) :
    InFlight b k (w.acquire t st) t { x with rest := rest, locals := l, writes := x.writes ++ ws }
      (done ++ [st]) where
  program := by
    rw [List.append_assoc, List.singleton_append, ← hst]
    exact h.program
  waiting := by
    intro hnot
    have hdone : .lockKey ∉ done := fun hd => hnot (List.mem_append_left _ hd)
    have hne : st ≠ .lockKey := fun hs => hnot (by simp [hs])
    obtain ⟨hl, hw⟩ := h.waiting hdone
    rcases before_lock h.program hdone with ⟨_, tail, htail⟩ | ⟨_, tail, htail⟩
    · obtain ⟨rfl, _⟩ := List.cons.inj (hst.symm.trans htail)
      obtain ⟨rfl, rfl⟩ := Prod.mk.inj (Except.ok.inj hok)
      exact ⟨hl, by rw [hw]; rfl⟩
    · exact absurd (List.cons.inj (hst.symm.trans htail)).1 hne
  holding := by
    intro hd
    rcases List.mem_append.mp hd with hd | hd
    · have := h.holding hd
      cases st <;> first | exact this | rfl
    · rw [← List.mem_singleton.mp hd]
      rfl
  drawn := by
    intro hd
    have hrows : (w.acquire t st).rows = w.rows := by cases st <;> rfl
    rw [hrows]
    by_cases hins : st = .insertRow
    · -- the id drawn now is above all that were drawn before
      subst hins
      obtain ⟨rfl, _⟩ := Prod.mk.inj (Except.ok.inj hok)
      exact ⟨fun r hr => Nat.lt_succ_of_le (hkey.bounded r hr), Nat.le_refl _⟩
    · have hd : .insertRow ∈ done := by
        rcases List.mem_append.mp hd with hd | hd
        · exact hd
        · exact absurd (List.mem_singleton.mp hd).symm hins
      rw [runStatement_version hins hok]
      refine ⟨(h.drawn hd).1, Nat.le_trans (h.drawn hd).2 ?_⟩
      cases st <;> first | exact Nat.le_refl _ | exact Nat.le_succ _
  replay := by
    intro v hv
    have hrows : (w.acquire t st).rows = w.rows := by cases st <;> rfl
    rw [hrows]
    by_cases hins : st = .insertRow
    · subst hins
      have honce : .insertRow ∉ done := by
        intro hd
        have hcount := x.action.program_inserts
        rw [h.program, hst, List.count_append, List.count_cons_self] at hcount
        have := List.count_pos_iff.mpr hd
        split at hcount <;> omega
      have hv : v = w.seq + 1 := by
        rw [hv (by simp)]
        obtain ⟨rfl, _⟩ := Prod.mk.inj (Except.ok.inj hok)
        rfl
      rw [hv]
      exact runStatements_snoc (h.replay _ fun hd => absurd hd honce) hok
    · have hprev := h.replay v fun hd => by
        rw [hv (List.mem_append_left _ hd)]
        exact runStatement_version hins hok
      rw [runStatement_draw hins (w.seq + 1) v] at hok
      exact runStatements_snoc hprev hok

/-- **The end of the program.**  The writes of a transaction that has run to its end are
    those of the atomic write on the rows that are committed now. -/
theorem InFlight.finished (h : InFlight b k w t x done) (hkey : KeyRows b k w.rows w.seq)
    (hrest : x.rest = []) : w.keyLock = some t ∧
      (x.action.inserts = true → (∀ r ∈ w.rows, r.versionId < x.locals.version) ∧
        x.locals.version ≤ w.seq) ∧ serialWrite b k x.context x.locals.version w.rows x.action
        = .ok (overlay w.rows x.writes) := by
  have hdone : done = x.action.program := by
    rw [h.program, hrest, List.append_nil]
  refine ⟨h.holding ?_, fun hins => h.drawn ?_, ?_⟩
  · obtain ⟨tail, htail⟩ := x.action.program_locks
    rw [hdone, htail]
    simp
  · rw [hdone, ← List.count_pos_iff, x.action.program_inserts, if_pos hins]
    exact Nat.one_pos
  · have hrun := h.replay x.locals.version fun _ => rfl
    rw [hdone] at hrun
    exact serialWrite_of_run hkey hrun

end Flight

/-! ## 5. Every step keeps the invariant -/

theorem writersInv_initial (h : KeyRows b k rows seq) :
    WritersInv b k rows (.initial rows seq) where
  serial := .nil rows
  key := h
  running := fun t x hx => absurd hx (by simp [Writers.initial])
  holder := fun t ht => absurd ht (by simp [Writers.initial])
  log := ⟨fun t => by simp [Writers.initial], fun e he => absurd he (by simp [Writers.initial]),
    by simp [Writers.initial]⟩

/-- What has to be shown when a step changes transaction `t` to `y` and the rest of the
    state from `w` to `w'`. -/
theorem WritersInv.update {rows₀ : List ObjectRow} {w w' : Writers} (h : WritersInv b k rows₀ w)
    (htx : w'.tx = w.tx) {t : Tid} {y : Writer}
    (hserial : SerialRun b k rows₀ w'.history w'.rows) (hkey : KeyRows b k w'.rows w'.seq)
    (hothers : ∀ u z done, u ≠ t → InFlight b k w u z done → InFlight b k w' u z done)
    (hself : y.status = .running → ∃ done, InFlight b k w' t y done)
    (hholder : ∀ u, w'.keyLock = some u →
      (u = t ∧ y.status = .running) ∨ (u ≠ t ∧ w.keyLock = some u))
    (hlog : HistoryInv (w'.setTx t y).tx w'.history) : WritersInv b k rows₀ (w'.setTx t y) where
  serial := hserial
  key := hkey
  running := by
    intro u z hz hrun
    by_cases hu : u = t
    · subst hu
      rw [Writers.setTx_self, Option.some.injEq] at hz
      subst hz
      obtain ⟨done, hf⟩ := hself hrun
      exact ⟨done, hf.frame rfl (Nat.le_refl _) id⟩
    · rw [Writers.setTx_of_ne w' y hu, htx] at hz
      obtain ⟨done, hf⟩ := h.running u z hz hrun
      exact ⟨done, (hothers u z done hu hf).frame rfl (Nat.le_refl _) id⟩
  holder := by
    intro u hu
    rcases hholder u hu with ⟨rfl, hrun⟩ | ⟨hne, hw⟩
    · exact ⟨y, Writers.setTx_self .., hrun⟩
    · rw [Writers.setTx_of_ne w' y hne, htx]
      exact h.holder u hw
  log := hlog

theorem Writers.release_keyLock {w : Writers} {t u : Tid}
    (h : (w.release t).keyLock = some u) : u ≠ t ∧ w.keyLock = some u := by
  simp only [Writers.release] at h
  split at h
  · exact absurd h (by simp)
  · rename_i hne
    refine ⟨fun hut => hne (hut ▸ h), h⟩

theorem Writers.keyLock_release {w : Writers} {t u : Tid} (hu : u ≠ t)
    (h : w.keyLock = some u) : (w.release t).keyLock = some u := by
  simp only [Writers.release, h, Option.some.injEq, if_neg hu]

theorem WriterStep.keeps {rows₀ : List ObjectRow} {w w' : Writers} (h : WritersInv b k rows₀ w)
    (hs : WriterStep b k w w') : WritersInv b k rows₀ w' := by
  cases hs with
  | start t a c hnone =>
    have hfresh : t ∉ w.history.map (·.tid) := by
      intro ht
      obtain ⟨y, hy, _⟩ := (h.log.committed t).mp ht
      exact absurd (hnone.symm.trans hy) (by simp)
    refine h.update rfl h.serial h.key (fun u z done _ hf => hf)
      (fun _ => ⟨[], .start w t a c⟩) (fun u hu => Or.inr ⟨fun hut => ?_, hu⟩)
      (h.log.setTx hfresh (by simp [Writer.start]))
    obtain ⟨y, hy, _⟩ := h.holder u hu
    exact absurd (hnone.symm.trans (hut ▸ hy)) (by simp)
  | run t x st rest l ws hx hrun hst hen hok =>
    have hrows : (w.acquire t st).rows = w.rows := by cases st <;> rfl
    have hhist : (w.acquire t st).history = w.history := by cases st <;> rfl
    have htx : (w.acquire t st).tx = w.tx := by cases st <;> rfl
    have hseq : w.seq ≤ (w.acquire t st).seq := by
      cases st <;> first | exact Nat.le_refl _ | exact Nat.le_succ _
    -- the key lock is taken only when no other transaction has it
    have hlock : ∀ u, u ≠ t → w.keyLock = some u → (w.acquire t st).keyLock = some u := by
      intro u hu hw
      cases st with
      | lockKey =>
        rcases hen with hen | hen
        · exact absurd (hen.symm.trans hw) (by simp)
        · exact absurd (Option.some.inj (hen.symm.trans hw)).symm hu
      | _ => exact hw
    obtain ⟨done, hf⟩ := h.running t x hx hrun
    refine h.update htx ?_ ?_ ?_ (fun _ => ⟨_, hf.run h.key hst hok⟩) ?_ ?_
    · rw [hhist, hrows]
      exact h.serial
    · rw [hrows]
      exact h.key.mono hseq
    · intro u z done hu hf
      exact hf.frame hrows hseq (hlock u hu)
    · intro u hu
      by_cases hut : u = t
      · exact Or.inl ⟨hut, hrun⟩
      · refine Or.inr ⟨hut, ?_⟩
        cases st with
        | lockKey => exact absurd (Option.some.inj hu).symm hut
        | _ => exact hu
    · rw [hhist]
      have hlog : HistoryInv (w.acquire t st).tx (w.acquire t st).history := by
        rw [htx, hhist]
        exact h.log
      have := hlog.setTx (x := { x with rest := rest, locals := l, writes := x.writes ++ ws })
        (t := t) (by rw [hhist]; exact h.log.not_mem hx hrun) (by simp [hrun])
      rwa [hhist] at this
  | rollback t x hx hrun =>
    refine h.update ?_ ?_ ?_ ?_ ?_ ?_ ?_
    · rfl
    · exact h.serial
    · exact h.key
    · intro u z done hu hf
      exact hf.frame rfl (Nat.le_refl _) (Writers.keyLock_release hu)
    · exact fun hr => absurd hr (by simp)
    · exact fun u hu => Or.inr (Writers.release_keyLock hu)
    · exact h.log.setTx (h.log.not_mem hx hrun) (by simp)
  | commit t x hx hrun hdone =>
    obtain ⟨done, hf⟩ := h.running t x hx hrun
    obtain ⟨hlock, habove, hwrite⟩ := hf.finished h.key hdone
    refine h.update ?_ ?_ ?_ ?_ ?_ ?_ ?_
    · rfl
    · exact .snoc h.serial (fun hins => (habove hins).1) hwrite
    · exact h.key.serialWrite habove hwrite
    · intro u z done hu hf
      refine hf.unlocked ?_ _
      rw [hlock]
      exact fun heq => hu (Option.some.inj heq).symm
    · exact fun hr => absurd hr (by simp)
    · exact fun u hu => Or.inr (Writers.release_keyLock hu)
    · exact h.log.commit (h.log.not_mem hx hrun)
  | draw n =>
    refine ⟨h.serial, h.key.mono (Nat.le_add_right _ _), fun t x hx hrun => ?_, h.holder, h.log⟩
    obtain ⟨done, hf⟩ := h.running t x hx hrun
    exact ⟨done, hf.frame rfl (Nat.le_add_right _ _) id⟩

theorem WritersReach.inv {w : Writers} (h₀ : KeyRows b k rows seq)
    (h : WritersReach b k (.initial rows seq) w) : WritersInv b k rows w := by
  induction h with
  | refl => exact writersInv_initial h₀
  | tail _ hs ih => exact hs.keeps ih

/-! ## 6. The serial order -/

theorem serialRun_snoc {e : Committed} :
    SerialRun b k rows (history ++ [e]) rows' ↔ ∃ mid, SerialRun b k rows history mid ∧
      (e.action.inserts = true → ∀ r ∈ mid, r.versionId < e.version) ∧
      serialWrite b k e.context e.version mid e.action = .ok rows' := by
  constructor
  · intro h
    generalize hl : history ++ [e] = l at h
    cases h with
    | nil => exact absurd hl (by simp)
    | snoc hrun habove hwrite =>
      obtain ⟨rfl, he⟩ := List.append_inj' hl rfl
      obtain rfl := (List.cons.inj he).1
      exact ⟨_, hrun, habove, hwrite⟩
  · rintro ⟨mid, hrun, habove, hwrite⟩
    exact .snoc hrun habove hwrite

theorem SerialRun.split {before after : List Committed}
    (h : SerialRun b k rows (before ++ after) rows') :
    ∃ mid, SerialRun b k rows before mid ∧ SerialRun b k mid after rows' := by
  induction after using List.reverseRecOn generalizing rows' with
  | nil => exact ⟨rows', by simpa using h, .nil rows'⟩
  | append_singleton after e ih =>
    rw [← List.append_assoc, serialRun_snoc] at h
    obtain ⟨last, hrun, habove, hwrite⟩ := h
    obtain ⟨mid, hmid, hrest⟩ := ih hrun
    exact ⟨mid, hmid, .snoc hrest habove hwrite⟩

/-- The state in which a commit of a serial run takes effect. -/
theorem SerialRun.at {before after : List Committed} {e : Committed}
    (h : SerialRun b k rows (before ++ e :: after) rows') :
    ∃ mid next, SerialRun b k rows before mid ∧
      serialWrite b k e.context e.version mid e.action = .ok next ∧
      SerialRun b k next after rows' := by
  rw [List.append_cons] at h
  obtain ⟨next, hnext, hafter⟩ := h.split
  obtain ⟨mid, hmid, _, hwrite⟩ := serialRun_snoc.mp hnext
  exact ⟨mid, next, hmid, hwrite, hafter⟩

theorem SerialRun.keyRows (h₀ : KeyRows b k rows seq) (h : SerialRun b k rows history rows') :
    ∃ seq', KeyRows b k rows' seq' := by
  induction h with
  | nil => exact ⟨seq, h₀⟩
  | @snoc mid rows' history e _ habove hwrite ih =>
    obtain ⟨seq', hmid⟩ := ih
    refine ⟨max seq' e.version, (hmid.mono (Nat.le_max_left _ _)).serialWrite ?_ hwrite⟩
    exact fun hins => ⟨habove hins, Nat.le_max_right _ _⟩

/-- The key has a live latest version. -/
def LiveLatest (b : Nat) (k : Text) (rows : List ObjectRow) : Prop :=
  ∃ o ∈ rows, isLatestOf b k o = true ∧ o.deleteMarker = false

theorem liveLatest_of_serialWrite (h : serialWrite b k c v rows a = .ok rows')
    (ha : a.isDeletion = false) : LiveLatest b k rows' := by
  rcases serialWrite_ok h with ⟨_, _, source, rfl, hlive⟩ | ⟨version, rfl, _⟩
  · obtain ⟨hb, hk, _, hl⟩ := a.row_fields (b := b) (k := k) c v source
    exact ⟨_, by simp, isLatestOf_iff.mpr ⟨hb, hk, hl⟩, hlive ha⟩
  · exact absurd ha (by simp [WriteAction.isDeletion])

theorem SerialRun.liveLatest (h : SerialRun b k rows history rows') (hlive : LiveLatest b k rows)
    (hno : ∀ d ∈ history, d.action.isDeletion = false) : LiveLatest b k rows' := by
  cases h with
  | nil => exact hlive
  | @snoc mid _ history e _ _ hwrite =>
    exact liveLatest_of_serialWrite hwrite (hno e (by simp))

/-- A condition on the latest version, met by an atomic write, says what that version was. -/
theorem serialWrite_conditions (h₀ : KeyRows b k rows seq)
    (h : serialWrite b k c v rows a = .ok rows') :
    (∀ m, a.ifMatch = some m → ∃ o ∈ rows, isLatestOf b k o = true ∧
      (∀ r ∈ rows, isLatestOf b k r = true → r = o) ∧ o.deleteMarker = false ∧
      o.etag = some (normalizeEtag m)) ∧ (∀ m, a.ifNoneMatch = some m → ¬ LiveLatest b k rows) := by
  have hcheck : checkWritePreconditions (rows.find? (isLatestOf b k)) a.ifNoneMatch a.ifMatch
      = .ok () := by
    rcases serialWrite_ok h with ⟨_, hcheck, _⟩ | ⟨version, rfl, _⟩
    · exact hcheck
    · simp [checkWritePreconditions_ok_iff, WriteAction.ifNoneMatch, WriteAction.ifMatch]
  obtain ⟨_, hnone, hmatch⟩ := checkWritePreconditions_ok_iff.mp hcheck
  -- the row that the code reads is the only one marked
  have honly : ∀ o r, rows.find? (isLatestOf b k) = some o → r ∈ rows →
      isLatestOf b k r = true → r = o := by
    intro o r ho hr hrl
    have hol := isLatestOf_iff.mp (List.find?_some ho)
    have hrl := isLatestOf_iff.mp hrl
    exact h₀.latest.latest_unique h₀.pk_nodup hr (List.mem_of_find?_eq_some ho) hrl.2.2 hol.2.2
      (hrl.1.trans hol.1.symm) (hrl.2.1.trans hol.2.1.symm)
  constructor
  · intro m hm
    obtain ⟨o, ho, hlive, hetag⟩ := hmatch m hm
    exact ⟨o, List.mem_of_find?_eq_some ho, List.find?_some ho, fun r hr => honly o r ho hr,
      hlive, hetag⟩
  · rintro m hm ⟨r, hr, hrl, hrlive⟩
    cases hf : rows.find? (isLatestOf b k) with
    | none => exact absurd hrl (List.find?_eq_none.mp hf r hr)
    | some o =>
      have hdead := hnone (by simp [hm]) o hf
      rw [← honly o r hf hr hrl, hrlive] at hdead
      exact absurd hdead (by simp)

/-- **Conditional writes linearize.**  Whatever the interleaving, the commits in their order
    are a serial run from the rows at the start to the committed rows.  A write that
    succeeded with If-Match took effect where the one latest version was live and had that
    ETag; one with If-None-Match where no live latest version was; between two of the
    latter there is a deletion. -/
theorem conditional_writes_linearize {rows₀ : List ObjectRow} {seq₀ : Nat} {w : Writers}
    (h₀ : KeyRows b k rows₀ seq₀) (h : WritersReach b k (.initial rows₀ seq₀) w) :
    HistoryInv w.tx w.history ∧ SerialRun b k rows₀ w.history w.rows ∧
    (∀ before e after, w.history = before ++ e :: after → ∃ rows, SerialRun b k rows₀ before rows ∧
        (∀ m, e.action.ifMatch = some m → ∃ o ∈ rows, isLatestOf b k o = true ∧
          (∀ r ∈ rows, isLatestOf b k r = true → r = o) ∧ o.deleteMarker = false ∧
          o.etag = some (normalizeEtag m)) ∧
        (∀ m, e.action.ifNoneMatch = some m → ¬ LiveLatest b k rows)) ∧
    (∀ before e between e' after, w.history = before ++ e :: (between ++ e' :: after) →
      e.action.ifNoneMatch.isSome → e'.action.ifNoneMatch.isSome →
      ∃ d ∈ between, d.action.isDeletion = true) := by
  have hinv := h.inv h₀
  refine ⟨hinv.log, hinv.serial, ?_, ?_⟩
  · intro before e after hsplit
    obtain ⟨rows, next, hrun, hwrite, _⟩ := SerialRun.at (hsplit ▸ hinv.serial)
    obtain ⟨seq, hrows⟩ := hrun.keyRows h₀
    exact ⟨rows, hrun, serialWrite_conditions hrows hwrite⟩
  · intro before e between e' after hsplit he he'
    by_contra hno
    have hno : ∀ d ∈ between, d.action.isDeletion = false := by
      intro d hd
      by_contra hdel
      exact hno ⟨d, hd, by simpa using hdel⟩
    have hsplit : w.history = (before ++ e :: between) ++ e' :: after := by simp [hsplit]
    obtain ⟨rows', next', hrun', hwrite', _⟩ := SerialRun.at (hsplit ▸ hinv.serial)
    obtain ⟨rows, next, _, hwrite, hbetween⟩ := SerialRun.at hrun'
    -- the first create leaves a live latest version, and only a deletion can end that
    have hcreate : e.action.isDeletion = false := by
      cases ha : e.action <;> simp [ha, WriteAction.ifNoneMatch, WriteAction.isDeletion] at he ⊢
    have hlive := hbetween.liveLatest (liveLatest_of_serialWrite hwrite hcreate) hno
    obtain ⟨m, hm⟩ := Option.isSome_iff_exists.mp he'
    obtain ⟨seq', hrows'⟩ := hrun'.keyRows h₀
    exact (serialWrite_conditions hrows' hwrite').2 m hm hlive

/-- The rows of a key in a database that calls have left, where concurrent writers may begin. -/
theorem Reachable.keyRows {H : Digests} (h : Reachable H s) (b : Nat) (k : Text) :
    KeyRows b k (s.object.rows.filter fun o => o.bucketId = b ∧ o.key = k)
      s.objectVersionIdSeq := by
  have hmem : ∀ o ∈ s.object.rows.filter fun o => o.bucketId = b ∧ o.key = k,
      o ∈ s.object.rows ∧ o.bucketId = b ∧ o.key = k := by
    intro o ho
    simpa using ho
  refine ⟨fun o ho => (hmem o ho).2, ?_, fun o ho => ?_,
    fun o ho => h.latestInv.versions o (hmem o ho).1⟩
  · have hpk := object_pk_nodup s
    refine (hpk.of_map.filter _).map_on fun o ho r hr hversion => ?_
    obtain ⟨ho, hob, hok⟩ := hmem o ho
    obtain ⟨hr, hrb, hrk⟩ := hmem r hr
    apply List.inj_on_of_nodup_map hpk ho hr
    simp only [ObjectRow.pk, hob, hok, hrb, hrk, hversion]
  · obtain ⟨ho, hob, hok⟩ := hmem o ho
    rw [h.latestInv.latest o ho]
    constructor
    · exact fun hall r hr => hall r (hmem r hr).1
    · intro hall r hr hrb hrk
      refine hall r (List.mem_filter.mpr ⟨hr, ?_⟩) hrb hrk
      simp [hrb, hrk, hob, hok]

def createOnly (etag : Text) : WriteAction :=
  .publish ⟨0, etag, []⟩ none (.object []) (some ['*']) none

def twoCreates : Writers :=
  ((Writers.initial [] 0).setTx 0 (.start (createOnly ['a']) .sample)).setTx 1
    (.start (createOnly ['b']) .sample)

/-- Both take the lifecycle lock; the first takes the key lock and commits; the second
    then finds its version and rolls back. -/
def raceSchedule : List Tid := [0, 1, 0, 0, 0, 0, 0, 0, 0, 1, 1, 1]

theorem twoCreates_reach : WritersReach 1 ['k'] (.initial [] 0) twoCreates :=
  .tail (.single (.start 0 _ _ rfl)) (.start 1 _ _ rfl)

theorem conditional_writes_linearize_race :
    ∃ w, (twoCreates.schedule 1 ['k'] raceSchedule) = some w ∧
      w.history.map (·.tid) = [0] ∧ (w.tx 1).map (·.status) = some .aborted ∧
      SerialRun 1 ['k'] [] w.history w.rows := by
  obtain ⟨w, hw, htid, habort⟩ : ∃ w, twoCreates.schedule 1 ['k'] raceSchedule = some w ∧
      w.history.map (·.tid) = [0] ∧ (w.tx 1).map (·.status) = some .aborted :=
    ⟨_, rfl, by decide, by decide⟩
  have hreach := twoCreates_reach.trans (Writers.schedule_reach 1 ['k'] hw)
  have hrows := Reachable.keyRows (H := .sample) .empty 1 ['k']
  exact ⟨w, hw, htid, habort, (conditional_writes_linearize hrows hreach).2.1⟩

/-! ## 7. The latest version -/

/-- `l` is the only version of the key that is marked latest, and the greatest. -/
structure IsTheLatest (rows : List ObjectRow) (b : Nat) (k : Text) (l : ObjectRow) : Prop where
  mem : l ∈ rows
  key : l.bucketId = b ∧ l.key = k
  marked : l.isLatest = true
  only : ∀ r ∈ rows, r.bucketId = b → r.key = k → r.isLatest = true → r = l
  greatest : ∀ r ∈ rows, r.bucketId = b → r.key = k → r.versionId ≤ l.versionId

theorem LatestIsGreatest.isTheLatest (h : LatestIsGreatest rows)
    (hnd : (rows.map ObjectRow.pk).Nodup) {o : ObjectRow} (ho : o ∈ rows) :
    ∃ l, IsTheLatest rows o.bucketId o.key l := by
  obtain ⟨l, hl, ⟨hb, hk, hmark⟩, honly, hgreatest⟩ := h.exists_unique hnd ⟨o, ho, rfl, rfl⟩
  exact ⟨l, hl, ⟨hb, hk⟩, hmark, honly, hgreatest⟩

/-- **Exactly one latest version, the greatest.**  In every state that a sequence of calls
    reaches, and in every committed state of concurrent writers of a key, a key with a
    version has exactly one that is marked latest, and its id is the greatest. -/
theorem one_latest_version {H : Digests} : (∀ s, Reachable H s → ∀ o ∈ s.object.rows,
      ∃ l, IsTheLatest s.object.rows o.bucketId o.key l) ∧
    (∀ b k rows₀ seq₀ w, KeyRows b k rows₀ seq₀ → WritersReach b k (.initial rows₀ seq₀) w →
      ∀ o ∈ w.rows, ∃ l, IsTheLatest w.rows b k l) := by
  constructor
  · intro s h o ho
    exact h.latestInv.latest.isTheLatest (object_pk_nodup s) ho
  · intro b k rows₀ seq₀ w h₀ h o ho
    have hkey := (h.inv h₀).key
    obtain ⟨rfl, rfl⟩ := hkey.ofKey o ho
    exact hkey.latest.isTheLatest hkey.pk_nodup ho

/-- Two versions of a key, of which the later is deleted by its id. -/
def undoSecond : List (Context × Op) :=
  let sample := Context.sample
  [(sample, .createBucket "bucket".toList (.object [])),
   (sample, .put ⟨"bucket".toList, "a".toList, some [1], none, none, none, none, none⟩),
   (sample, .put ⟨"bucket".toList, "a".toList, some [2], none, none, none, none, none⟩),
   (sample, .delete "bucket".toList "a".toList (some 2))]

theorem one_latest_version_undoSecond :
    ∃ l, IsTheLatest (execs Digests.sample undoSecond Db.empty).object.rows 1 "a".toList l ∧
      l.versionId = 1 := by
  have hrow : ∃ o ∈ (execs Digests.sample undoSecond Db.empty).object.rows,
      o.bucketId = 1 ∧ o.key = "a".toList ∧
      ∀ r ∈ (execs Digests.sample undoSecond Db.empty).object.rows, r.versionId = 1 := by
    decide +kernel
  obtain ⟨o, ho, hb, hk, hall⟩ := hrow
  obtain ⟨l, hl⟩ := one_latest_version.1 _ (Run.empty.execs fun _ _ _ => trivial) o ho
  rw [hb, hk] at hl
  exact ⟨l, hl, hall l hl.mem⟩

end Pgs3
