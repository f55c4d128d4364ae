import Pgs3.Steps
import Pgs3.ObjectSpecs

/-!
# Exactly one latest version, and it is the greatest

For lists of object rows, `LatestIsGreatest` says that a row is marked latest exactly when
no row of its key has a greater version id.  In this form the property is easy to carry
through the three object steps; `LatestIsGreatest.exists_unique` turns it into the usual
one.  The list lemmas are shared with the model of concurrent writers.

For the database the invariant `LatestInv` adds that version ids do not exceed the
sequence they are drawn from, and bucket ids theirs: a new version is greater than all
before it, and a forked bucket starts empty.
-/

namespace Pgs3

open Foundation Foundation.Tx

variable {b : Nat} {k : Text} {rows : List ObjectRow}

/-! ## 1. Lists of versions -/

def LatestIsGreatest (rows : List ObjectRow) : Prop :=
  ∀ o ∈ rows, o.isLatest = true ↔
    ∀ r ∈ rows, r.bucketId = o.bucketId → r.key = o.key → r.versionId ≤ o.versionId

/-- The primary key of `pgs3.object`. -/
def ObjectRow.pk (o : ObjectRow) : Nat × Text × Nat := (o.bucketId, o.key, o.versionId)

section SetLatest

variable (sel : ObjectRow → Bool) (v : Bool) (o : ObjectRow)

@[simp] theorem setLatest_bucketId : (setLatest sel v o).bucketId = o.bucketId := by
  unfold setLatest; cases sel o <;> rfl

@[simp] theorem setLatest_key : (setLatest sel v o).key = o.key := by
  unfold setLatest; cases sel o <;> rfl

@[simp] theorem setLatest_versionId : (setLatest sel v o).versionId = o.versionId := by
  unfold setLatest; cases sel o <;> rfl

theorem setLatest_of_sel {sel : ObjectRow → Bool} {o : ObjectRow} (h : sel o = true) :
    (setLatest sel v o).isLatest = v := by
  unfold setLatest; rw [if_pos h]

theorem setLatest_of_not_sel {sel : ObjectRow → Bool} {o : ObjectRow} (h : sel o = false) :
    setLatest sel v o = o := by
  unfold setLatest; rw [if_neg (by simp [h])]

end SetLatest

theorem isLatestOf_iff {o : ObjectRow} :
    isLatestOf b k o = true ↔ o.bucketId = b ∧ o.key = k ∧ o.isLatest = true := by
  simp [isLatestOf]

theorem isVersionOf_iff {v : Int} {o : ObjectRow} :
    isVersionOf b k v o = true ↔ o.bucketId = b ∧ o.key = k ∧ (o.versionId : Int) = v := by
  simp [isVersionOf]

theorem demoted_not_latest {o : ObjectRow} (hb : o.bucketId = b) (hk : o.key = k) :
    (setLatest (isLatestOf b k) false o).isLatest = false := by
  cases hl : isLatestOf b k o with
  | true => exact setLatest_of_sel false hl
  | false =>
    rw [setLatest_of_not_sel false hl]
    by_contra hlat
    have : isLatestOf b k o = true := isLatestOf_iff.mpr ⟨hb, hk, by simpa using hlat⟩
    simp [this] at hl

/-- **Publishing.**  Demoting the latest version and appending one with a greater id. -/
theorem LatestIsGreatest.publish (h : LatestIsGreatest rows) (row : ObjectRow)
    (hlatest : row.isLatest = true)
    (hgreater : ∀ r ∈ rows, r.bucketId = row.bucketId → r.key = row.key →
      r.versionId < row.versionId) : LatestIsGreatest
      (rows.map (setLatest (isLatestOf row.bucketId row.key) false) ++ [row]) := by
  intro o' ho'
  rcases List.mem_append.mp ho' with ho' | ho'
  · obtain ⟨o, ho, rfl⟩ := List.mem_map.mp ho'
    by_cases hkey : o.bucketId = row.bucketId ∧ o.key = row.key
    · -- an older version of the key: unmarked, and the new row is greater
      rw [demoted_not_latest hkey.1 hkey.2]
      refine iff_of_false (by simp) fun hall => ?_
      have hle := hall row (by simp) (by simp [hkey.1]) (by simp [hkey.2])
      have hlt := hgreater o ho hkey.1 hkey.2
      rw [setLatest_versionId] at hle
      omega
    · -- another key: neither its rows nor their marks change
      have hsel : isLatestOf row.bucketId row.key o = false := by
        by_contra hsel
        have := isLatestOf_iff.mp (by simpa using hsel)
        exact hkey ⟨this.1, this.2.1⟩
      rw [setLatest_of_not_sel false hsel, h o ho]
      constructor
      · intro hall r' hr' hb hk
        rcases List.mem_append.mp hr' with hr' | hr'
        · obtain ⟨r, hr, rfl⟩ := List.mem_map.mp hr'
          rw [setLatest_bucketId] at hb
          rw [setLatest_key] at hk
          rw [setLatest_versionId]
          exact hall r hr hb hk
        · rw [List.mem_singleton.mp hr'] at hb hk
          exact absurd ⟨hb.symm, hk.symm⟩ hkey
      · intro hall r hr hb hk
        have := hall (setLatest (isLatestOf row.bucketId row.key) false r)
          (List.mem_append_left _ (List.mem_map_of_mem hr)) (by simp [hb]) (by simp [hk])
        rwa [setLatest_versionId] at this
  · rw [List.mem_singleton.mp ho', hlatest]
    refine iff_of_true rfl fun r' hr' hb hk => ?_
    rcases List.mem_append.mp hr' with hr' | hr'
    · obtain ⟨r, hr, rfl⟩ := List.mem_map.mp hr'
      rw [setLatest_bucketId] at hb
      rw [setLatest_key] at hk
      rw [setLatest_versionId]
      exact Nat.le_of_lt (hgreater r hr hb hk)
    · rw [List.mem_singleton.mp hr']

theorem mem_rowsWithout {v : Int} {o : ObjectRow} :
    o ∈ rowsWithout rows b k v ↔ o ∈ rows ∧ isVersionOf b k v o = false := by
  simp [rowsWithout]

theorem isGreatestOf_iff {o : ObjectRow} (ho : o ∈ rows) (hb : o.bucketId = b) (hk : o.key = k) :
    isGreatestOf rows b k o = true ↔
      ∀ r ∈ rows, r.bucketId = b → r.key = k → r.versionId ≤ o.versionId := by
  have hmem : o.versionId ∈ (rows.filter fun o => decide (o.bucketId = b ∧ o.key = k)).map
      (·.versionId) :=
    List.mem_map_of_mem (List.mem_filter.mpr ⟨ho, by simp [hb, hk]⟩)
  simp only [isGreatestOf, greatestVersion, hb, hk, true_and, decide_eq_true_eq]
  rw [eq_comm, List.max?_eq_some_iff]
  constructor
  · rintro ⟨_, hall⟩ r hr hrb hrk
    exact hall r.versionId
      (List.mem_map_of_mem (List.mem_filter.mpr ⟨hr, by simp [hrb, hrk]⟩))
  · intro hall
    refine ⟨hmem, fun n hn => ?_⟩
    obtain ⟨r, hr, rfl⟩ := List.mem_map.mp hn
    obtain ⟨hr, hsel⟩ := List.mem_filter.mp hr
    have hsel : r.bucketId = b ∧ r.key = k := by simpa using hsel
    exact hall r hr hsel.1 hsel.2

/-- The rows that remain and their marks, after a version of a key was deleted. -/
def afterRemoval (rows : List ObjectRow) (b : Nat) (k : Text) (v : Int) (deleted : ObjectRow) :
    List ObjectRow :=
  if deleted.isLatest = true then
    (rowsWithout rows b k v).map (setLatest (isGreatestOf (rowsWithout rows b k v) b k) true)
  else rowsWithout rows b k v

/-- **Deleting.**  Removing any version, and promoting the greatest that remains when the
    removed one was the latest. -/
theorem LatestIsGreatest.remove (h : LatestIsGreatest rows) {v : Int} {d : ObjectRow}
    (hd : d ∈ rows) (hv : isVersionOf b k v d = true) :
    LatestIsGreatest (afterRemoval rows b k v d) := by
  obtain ⟨hdb, hdk, hdv⟩ := isVersionOf_iff.mp hv
  -- a row of the key that stays has another version id than the deleted one
  have hother : ∀ o ∈ rowsWithout rows b k v, o.bucketId = b → o.key = k →
      o.versionId ≠ d.versionId := by
    intro o ho hob hok heq
    obtain ⟨_, hno⟩ := mem_rowsWithout.mp ho
    rw [isVersionOf_iff.mpr ⟨hob, hok, by rw [heq]; exact hdv⟩] at hno
    exact absurd hno (by simp)
  unfold afterRemoval
  split
  · rename_i hlat
    intro o' ho'
    obtain ⟨o, ho, rfl⟩ := List.mem_map.mp ho'
    obtain ⟨horows, _⟩ := mem_rowsWithout.mp ho
    have hrhs : (∀ r' ∈ (rowsWithout rows b k v).map
          (setLatest (isGreatestOf (rowsWithout rows b k v) b k) true),
          r'.bucketId = o.bucketId → r'.key = o.key → r'.versionId ≤ o.versionId) ↔
        ∀ r ∈ rowsWithout rows b k v, r.bucketId = o.bucketId → r.key = o.key →
          r.versionId ≤ o.versionId := by
      simp
    simp only [setLatest_bucketId, setLatest_key, setLatest_versionId]
    rw [hrhs]
    by_cases hkey : o.bucketId = b ∧ o.key = k
    · have hgreat := isGreatestOf_iff ho hkey.1 hkey.2
      -- the deleted row was the only marked one of the key
      have hunmarked : o.isLatest = false := by
        by_contra hol
        have h1 := (h o horows).mp (by simpa using hol) d hd (hdb.trans hkey.1.symm)
          (hdk.trans hkey.2.symm)
        have h2 := (h d hd).mp hlat o horows (hkey.1.trans hdb.symm) (hkey.2.trans hdk.symm)
        exact hother o ho hkey.1 hkey.2 (Nat.le_antisymm h2 h1)
      rw [hkey.1, hkey.2, ← hgreat]
      cases hg : isGreatestOf (rowsWithout rows b k v) b k o with
      | true => rw [setLatest_of_sel true hg]
      | false => rw [setLatest_of_not_sel true hg, hunmarked]
    · have hng : isGreatestOf (rowsWithout rows b k v) b k o = false := by
        by_contra hg
        have hg : isGreatestOf (rowsWithout rows b k v) b k o = true := by simpa using hg
        simp only [isGreatestOf, decide_eq_true_eq] at hg
        exact hkey ⟨hg.1, hg.2.1⟩
      rw [setLatest_of_not_sel true hng, h o horows]
      constructor
      · intro hall r hr
        exact hall r (mem_rowsWithout.mp hr).1
      · intro hall r hr hrb hrk
        refine hall r (mem_rowsWithout.mpr ⟨hr, ?_⟩) hrb hrk
        by_contra hver
        have := isVersionOf_iff.mp (by simpa using hver)
        exact hkey ⟨hrb.symm.trans this.1, hrk.symm.trans this.2.1⟩
  · rename_i hlat
    intro o ho
    obtain ⟨horows, _⟩ := mem_rowsWithout.mp ho
    rw [h o horows]
    constructor
    · intro hall r hr
      exact hall r (mem_rowsWithout.mp hr).1
    · intro hall r hr hrb hrk
      by_cases hver : isVersionOf b k v r = true
      · -- the deleted row was not the greatest, so a greater one remains below `o`
        obtain ⟨hrb', hrk', hrv⟩ := isVersionOf_iff.mp hver
        have hrd : r.versionId = d.versionId := by
          have := hrv.trans hdv.symm
          exact_mod_cast this
        have hnot : ¬ ∀ q ∈ rows, q.bucketId = d.bucketId → q.key = d.key →
            q.versionId ≤ d.versionId := fun hall' => hlat ((h d hd).mpr hall')
        push Not at hnot
        obtain ⟨q, hq, hqb, hqk, hqv⟩ := hnot
        have hqrest : q ∈ rowsWithout rows b k v := by
          refine mem_rowsWithout.mpr ⟨hq, ?_⟩
          by_contra hqver
          have hqver := (isVersionOf_iff.mp (by simpa using hqver)).2.2
          have : (q.versionId : Int) = d.versionId := hqver.trans hdv.symm
          omega
        have := hall q hqrest (hqb.trans (hdb.trans (hrb'.symm.trans hrb)))
          (hqk.trans (hdk.trans (hrk'.symm.trans hrk)))
        omega
      · exact hall r (mem_rowsWithout.mpr ⟨hr, by simpa using hver⟩) hrb hrk

theorem LatestIsGreatest.latest_unique (h : LatestIsGreatest rows)
    (hnd : (rows.map ObjectRow.pk).Nodup) {o r : ObjectRow} (ho : o ∈ rows) (hr : r ∈ rows)
    (hol : o.isLatest = true) (hrl : r.isLatest = true) (hb : o.bucketId = r.bucketId)
    (hk : o.key = r.key) : o = r := by
  have h1 := (h o ho).mp hol r hr hb.symm hk.symm
  have h2 := (h r hr).mp hrl o ho hb hk
  refine List.inj_on_of_nodup_map hnd ho hr ?_
  simp only [ObjectRow.pk, hb, hk, Nat.le_antisymm h2 h1]

/-- **Forking.**  Appending one latest row for each latest row of the source, under a
    bucket id that no row has yet. -/
theorem LatestIsGreatest.fork (h : LatestIsGreatest rows) (hnd : (rows.map ObjectRow.pk).Nodup)
    {source destination seq : Nat} {c : Context} (hfresh : ∀ o ∈ rows, o.bucketId ≠ destination) :
    LatestIsGreatest (rows ++ forkRows rows source destination seq c) := by
  intro o ho
  rcases List.mem_append.mp ho with ho | ho
  · rw [h o ho]
    constructor
    · intro hall r hr hb hk
      rcases List.mem_append.mp hr with hr | hr
      · exact hall r hr hb hk
      · obtain ⟨_, _, _, _, _, _, hrd, _⟩ := mem_forkRows hr
        exact absurd (hb.symm.trans hrd) (hfresh o ho)
    · intro hall r hr
      exact hall r (List.mem_append_left _ hr)
  · obtain ⟨_, _, _, _, _, _, hod, hol, _⟩ := mem_forkRows ho
    rw [hol]
    refine iff_of_true rfl fun r hr hb hk => ?_
    rcases List.mem_append.mp hr with hr | hr
    · exact absurd (hb.trans hod) (hfresh r hr)
    · -- both copies come from the one latest row of the source key
      obtain ⟨⟨x, i⟩, hx, rfl⟩ := List.mem_map.mp ho
      obtain ⟨⟨y, j⟩, hy, rfl⟩ := List.mem_map.mp hr
      have hxf := List.mem_filter.mp (List.fst_mem_of_mem_zipIdx hx)
      have hyf := List.mem_filter.mp (List.fst_mem_of_mem_zipIdx hy)
      have hxs : x.bucketId = source ∧ x.isLatest = true := by simpa using hxf.2
      have hys : y.bucketId = source ∧ y.isLatest = true := by simpa using hyf.2
      have hxy : x = y := h.latest_unique hnd hxf.1 hyf.1 hxs.2 hys.2
        (hxs.1.trans hys.1.symm) hk.symm
      have hnodup : (rows.filter fun o => decide (o.bucketId = source ∧ o.isLatest)).Nodup :=
        (List.Nodup.of_map _ hnd).filter _
      obtain ⟨_, hix⟩ := List.mem_zipIdx' hx
      obtain ⟨_, hjy⟩ := List.mem_zipIdx' hy
      have hij : i = j :=
        (List.Nodup.getElem_inj_iff hnodup).mp (hix.symm.trans (hxy.trans hjy))
      subst hij
      exact Nat.le_refl _

/-- **Exactly one latest version, and it is the greatest.** -/
theorem LatestIsGreatest.exists_unique (h : LatestIsGreatest rows)
    (hnd : (rows.map ObjectRow.pk).Nodup) (hex : ∃ o ∈ rows, o.bucketId = b ∧ o.key = k) :
    ∃ l ∈ rows, (l.bucketId = b ∧ l.key = k ∧ l.isLatest = true) ∧
      (∀ r ∈ rows, r.bucketId = b → r.key = k → r.isLatest = true → r = l) ∧
      ∀ r ∈ rows, r.bucketId = b → r.key = k → r.versionId ≤ l.versionId := by
  obtain ⟨o, ho, hob, hok⟩ := hex
  have hne : ((rows.filter fun o => decide (o.bucketId = b ∧ o.key = k)).map
      (·.versionId)) ≠ [] := by
    intro hnil
    have : o.versionId ∈ ((rows.filter fun o => decide (o.bucketId = b ∧ o.key = k)).map
        (·.versionId)) :=
      List.mem_map_of_mem (List.mem_filter.mpr ⟨ho, by simp [hob, hok]⟩)
    rw [hnil] at this
    exact absurd this (by simp)
  obtain ⟨n, hn⟩ := Option.ne_none_iff_exists'.mp (mt List.max?_eq_none_iff.mp hne)
  obtain ⟨hmem, hall⟩ := List.max?_eq_some_iff.mp hn
  obtain ⟨l, hl, rfl⟩ := List.mem_map.mp hmem
  obtain ⟨hl, hsel⟩ := List.mem_filter.mp hl
  have hsel : l.bucketId = b ∧ l.key = k := by simpa using hsel
  have hgreatest : ∀ r ∈ rows, r.bucketId = b → r.key = k → r.versionId ≤ l.versionId := by
    intro r hr hrb hrk
    exact hall r.versionId (List.mem_map_of_mem (List.mem_filter.mpr ⟨hr, by simp [hrb, hrk]⟩))
  have hlat : l.isLatest = true :=
    (h l hl).mpr fun r hr hrb hrk => hgreatest r hr (hrb.trans hsel.1) (hrk.trans hsel.2)
  refine ⟨l, hl, ⟨hsel.1, hsel.2, hlat⟩, ?_, hgreatest⟩
  intro r hr hrb hrk hrl
  exact h.latest_unique hnd hr hl hrl hlat (hrb.trans hsel.1.symm) (hrk.trans hsel.2.symm)

/-! ## 2. The database -/

structure LatestInv (s : Db) : Prop where
  latest : LatestIsGreatest s.object.rows
  versions : ∀ o ∈ s.object.rows, o.versionId ≤ s.objectVersionIdSeq
  objects : ∀ o ∈ s.object.rows, o.bucketId ≤ s.bucketIdSeq
  buckets : ∀ r ∈ s.bucket.rows, r.bucketId ≤ s.bucketIdSeq

theorem latestInv_empty : LatestInv Db.empty where
  latest := fun o ho => absurd ho (by simp [Db.empty])
  versions := fun o ho => absurd ho (by simp [Db.empty])
  objects := fun o ho => absurd ho (by simp [Db.empty])
  buckets := fun r hr => absurd hr (by simp [Db.empty])

def Db.catalog (s : Db) : List ObjectRow × List BucketRow × Nat × Nat :=
  (s.object.rows, s.bucket.rows, s.bucketIdSeq, s.objectVersionIdSeq)

theorem LatestInv.frame {s t : Db} (h : LatestInv s) (hc : t.catalog = s.catalog) :
    LatestInv t := by
  simp only [Db.catalog, Prod.mk.injEq] at hc
  obtain ⟨ho, hb, hbs, hvs⟩ := hc
  exact ⟨ho ▸ h.latest, by rw [ho, hvs]; exact h.versions, by rw [ho, hbs]; exact h.objects,
    by rw [hb, hbs]; exact h.buckets⟩

theorem LatestInv.of_frames {α : Type} {m : DbTx α} (hm : Frames Db.catalog m) :
    Keeps LatestInv m :=
  fun s a s' h hy => h.frame (hm s a s' hy)

theorem object_pk_nodup (s : Db) : (s.object.rows.map ObjectRow.pk).Nodup := s.object.nodup

theorem insertLatest_keeps_latest (c : Context) (b : Nat) (k : Text) (p : Option Payload)
    (t : Option Text) (j : Jsonb) : Keeps LatestInv (insertLatest c b k p t j) := by
  intro s row s' h hy
  obtain ⟨hrow, ⟨r, hr, hrb⟩, _, object, hrows, rfl⟩ := yields_insertLatest hy
  have hgreater : ∀ r ∈ s.object.rows, r.bucketId = row.bucketId → r.key = row.key →
      r.versionId < row.versionId := by
    intro r hr _ _
    have := h.versions r hr
    rw [hrow]
    exact Nat.lt_succ_of_le this
  have hpub := h.latest.publish row (by rw [hrow]) hgreater
  have hb : row.bucketId = b := by rw [hrow]
  have hk : row.key = k := by rw [hrow]
  rw [hb, hk, ← hrows] at hpub
  -- every row is an old one with its mark possibly changed, or the new one
  have hmem : ∀ o ∈ object.rows, (∃ r ∈ s.object.rows, o.versionId = r.versionId ∧
      o.bucketId = r.bucketId) ∨ o = row := by
    intro o ho
    rcases List.mem_append.mp (hrows ▸ ho) with ho | ho
    · obtain ⟨r, hr, rfl⟩ := List.mem_map.mp ho
      exact Or.inl ⟨r, hr, setLatest_versionId _ _ _, setLatest_bucketId _ _ _⟩
    · exact Or.inr (List.mem_singleton.mp ho)
  refine ⟨hpub, fun o ho => ?_, fun o ho => ?_, h.buckets⟩
  · show o.versionId ≤ s.objectVersionIdSeq + 1
    rcases hmem o ho with ⟨r, hr, hv, _⟩ | rfl
    · exact Nat.le_succ_of_le (hv ▸ h.versions r hr)
    · rw [hrow]
  · show o.bucketId ≤ s.bucketIdSeq
    rcases hmem o ho with ⟨r, hr, _, hb'⟩ | rfl
    · exact hb' ▸ h.objects r hr
    · rw [hb, ← hrb]
      exact h.buckets r hr

theorem mem_afterRemoval {v : Int} {d o : ObjectRow} (h : o ∈ afterRemoval rows b k v d) :
    ∃ r ∈ rows, o.versionId = r.versionId ∧ o.bucketId = r.bucketId := by
  unfold afterRemoval at h
  split at h
  · obtain ⟨r, hr, rfl⟩ := List.mem_map.mp h
    exact ⟨r, (mem_rowsWithout.mp hr).1, setLatest_versionId _ _ _, setLatest_bucketId _ _ _⟩
  · exact ⟨o, (mem_rowsWithout.mp h).1, rfl, rfl⟩

theorem removeVersion_keeps_latest (b : Nat) (k : Text) (v : Int) :
    Keeps LatestInv (removeVersion b k v) := by
  intro s r s' h hy
  rcases yields_removeVersion hy with ⟨rfl, _⟩ | ⟨d, hd, hv, object, hrows, rfl⟩
  · exact h
  · have hrows : object.rows = afterRemoval s.object.rows b k v d := hrows
    refine ⟨?_, fun o ho => ?_, fun o ho => ?_, h.buckets⟩
    · show LatestIsGreatest object.rows
      rw [hrows]
      exact h.latest.remove hd hv
    · obtain ⟨q, hq, hqv, _⟩ := mem_afterRemoval (hrows ▸ ho)
      exact hqv ▸ h.versions q hq
    · obtain ⟨q, hq, _, hqb⟩ := mem_afterRemoval (hrows ▸ ho)
      exact hqb ▸ h.objects q hq

theorem forkInto_keeps_latest (c : Context) (b : Nat) (name : Text) (j : Jsonb) :
    Keeps LatestInv (forkInto c b name j) := by
  intro s n s' h hy
  obtain ⟨id, bucket, object, hid, _, hbucket, hrows, rfl⟩ := yields_forkInto hy
  -- bucket ids come from a sequence, so no object is in the new bucket yet
  have hfresh : ∀ o ∈ s.object.rows, o.bucketId ≠ id := by
    intro o ho heq
    have := h.objects o ho
    omega
  refine ⟨?_, fun o ho => ?_, fun o ho => ?_, fun r hr => ?_⟩
  · show LatestIsGreatest object.rows
    rw [hrows]
    exact h.latest.fork (object_pk_nodup s) hfresh
  · rcases List.mem_append.mp (hrows ▸ ho) with ho | ho
    · exact Nat.le_trans (h.versions o ho) (Nat.le_add_right _ _)
    · obtain ⟨_, _, _, _, _, _, _, _, _, hle⟩ := mem_forkRows ho
      exact hle
  · show o.bucketId ≤ id
    rcases List.mem_append.mp (hrows ▸ ho) with ho | ho
    · have := h.objects o ho
      omega
    · obtain ⟨_, _, _, _, _, _, hd, _⟩ := mem_forkRows ho
      exact Nat.le_of_eq hd
  · show r.bucketId ≤ id
    rcases List.mem_append.mp (hbucket ▸ hr) with hr | hr
    · have := h.buckets r hr
      omega
    · rw [List.mem_singleton.mp hr]

theorem insertBucket_keeps_latest (name : Text) (owner : RoleName) (now : Timestamp)
    (j : Jsonb) : Keeps LatestInv (insertBucket name owner now j) := by
  intro s id s' h hy
  obtain ⟨hid, _, bucket, hbucket, rfl⟩ := yields_insertBucket hy
  refine ⟨h.latest, h.versions, fun o ho => ?_, fun r hr => ?_⟩
  · show o.bucketId ≤ id
    have := h.objects o ho
    omega
  · show r.bucketId ≤ id
    rcases List.mem_append.mp (hbucket ▸ hr) with hr | hr
    · have := h.buckets r hr
      omega
    · rw [List.mem_singleton.mp hr]

/-! ## 3. Steps that leave the catalog alone -/

theorem insertBlob_frames_catalog (row : BlobRow) : Frames Db.catalog (insertBlob row) := by
  intro s a s' hy
  rcases yields_insertBlob hy with ⟨_, rfl, _⟩ | ⟨_, _, blob, _, rfl⟩ <;> rfl

theorem ensureBlob_frames_catalog (c : Context) (sha256 body : Bytes) :
    Frames Db.catalog (ensureBlob c sha256 body) := by
  refine frames_of_keeps fun x => ensureBlob_keeps
    (fun row _ => (insertBlob_frames_catalog row).keeps x) (fun rows => ?_) c sha256 body
  refine Frames.keeps (fun s a s' hy => ?_) x
  obtain ⟨_, chunk, _, rfl⟩ := yields_insertChunks hy
  rfl

theorem quiet_keeps_latest (α : Type) (m : DbTx α) (hm : Quiet α m) : Keeps LatestInv m := by
  cases hm with
  | insertLatest c b k p t j => exact insertLatest_keeps_latest c b k p t j
  | removeVersion b k v => exact removeVersion_keeps_latest b k v
  | forkInto c b name j => exact forkInto_keeps_latest c b name j
  | insertUpload row =>
    refine LatestInv.of_frames fun s a s' hy => ?_
    obtain ⟨_, upload, _, rfl⟩ := yields_insertUpload hy
    rfl
  | updateUpload u f hf => exact Keeps.modify fun s h => h.frame rfl
  | deleteUpload u =>
    refine .bind (Keeps.modify fun s h => h.frame rfl) fun _ => .bind ?_ fun _ => ?_
    · exact LatestInv.of_frames fun s a s' hy => by rw [yields_deleteUploadChunks hy]; rfl
    · exact LatestInv.of_frames fun s a s' hy => by rw [yields_deleteUploadParts hy]; rfl
  | deleteUploadChunks sel =>
    exact LatestInv.of_frames fun s a s' hy => by rw [yields_deleteUploadChunks hy]; rfl
  | deleteUploadParts sel =>
    exact LatestInv.of_frames fun s a s' hy => by rw [yields_deleteUploadParts hy]; rfl
  | insertBucket name owner now j => exact insertBucket_keeps_latest name owner now j
  | deleteBucketRow id =>
    intro s u s' h hy
    obtain ⟨_, _, rfl⟩ := yields_deleteBucketRow hy
    exact ⟨h.latest, h.versions, h.objects, fun r hr => h.buckets r (Table.mem_delete.mp hr).1⟩

theorem shallow_keeps_latest (α : Type) (m : DbTx α) (hm : Shallow α m) : Keeps LatestInv m := by
  cases hm with
  | quiet h => exact quiet_keeps_latest α m h
  | hashing h =>
    cases h with
    | logHashed body => exact Keeps.modify fun s h => h.frame rfl
  | ensureBlob c sha256 body => exact LatestInv.of_frames (ensureBlob_frames_catalog c sha256 body)
  | upsertUploadChunk row =>
    refine LatestInv.of_frames fun s a s' hy => ?_
    obtain ⟨_, rfl⟩ := yields_upsertUploadChunk hy
    rfl
  | upsertUploadPart row _ =>
    refine LatestInv.of_frames fun s a s' hy => ?_
    obtain ⟨_, rfl⟩ := yields_upsertUploadPart hy
    rfl
  | deleteBlob k =>
    refine LatestInv.of_frames fun s a s' hy => ?_
    obtain ⟨_, rfl⟩ := yields_deleteBlob hy
    rfl

theorem step_keeps_latest (α : Type) (m : DbTx α) (hm : Step α m) : Keeps LatestInv m := by
  cases hm with
  | shallow h => exact shallow_keeps_latest α m h
  | storeComposite c sha256 size gone sources =>
    refine storeComposite_keeps (fun row _ => LatestInv.of_frames (insertBlob_frames_catalog row))
      (fun rows => LatestInv.of_frames fun s a s' hy => ?_) c sha256 size gone sources
    obtain ⟨_, blobExtent, _, rfl⟩ := yields_insertBlobExtents hy
    rfl

theorem Run.latestInv {H : Digests} {allowed : Context → Op → Db → Prop} {s : Db}
    (h : Run H allowed s) : LatestInv s := by
  refine h.invariant latestInv_empty (fun c op s r s' hI _ hy => ?_) ?_
  · exact (opBody_built H c op).keeps step_keeps_latest s r s' hI hy
  · intro s v b hI
    exact ⟨hI.latest, fun o ho => Nat.le_trans (hI.versions o ho) (Nat.le_add_right _ _),
      fun o ho => Nat.le_trans (hI.objects o ho) (Nat.le_add_right _ _),
      fun r hr => Nat.le_trans (hI.buckets r hr) (Nat.le_add_right _ _)⟩

end Pgs3
