import Mathlib

/-!
# Tables with a primary key

A `Table α κ key` is a list of rows no two of which share the key.  The key constraint is
a field of the structure, so a table that breaks it cannot be built: an insertion of a
key that is taken has no result, an update must leave every row's key alone, and an
upsert replaces the one row that holds the key.

The counting lemmas say how the number of rows with a given property moves under each
statement.  They are what reference counts kept by triggers are compared with.
-/

namespace Foundation

/-- Rows no two of which share the primary key. -/
structure Table (α κ : Type) (key : α → κ) where
  rows : List α
  nodup : (rows.map key).Nodup

namespace Table

variable {α κ : Type} {key : α → κ}

@[ext] theorem ext {t u : Table α κ key} (h : t.rows = u.rows) : t = u := by
  cases t; cases u; simp_all

def empty : Table α κ key := ⟨[], by simp⟩

@[simp] theorem empty_rows : (empty : Table α κ key).rows = [] := rfl

theorem eq_of_key_eq (t : Table α κ key) {a b : α} (ha : a ∈ t.rows) (hb : b ∈ t.rows)
    (h : key a = key b) : a = b :=
  List.inj_on_of_nodup_map t.nodup ha hb h

def delete (t : Table α κ key) (p : α → Bool) : Table α κ key :=
  ⟨t.rows.filter fun a => !p a, t.nodup.sublist (List.filter_sublist.map key)⟩

@[simp] theorem delete_rows (t : Table α κ key) (p : α → Bool) :
    (t.delete p).rows = t.rows.filter fun a => !p a := rfl

theorem mem_delete {t : Table α κ key} {p : α → Bool} {a : α} :
    a ∈ (t.delete p).rows ↔ a ∈ t.rows ∧ p a = false := by
  simp

/-- Rewrite every row by `f`, which must not touch the key. -/
def update (t : Table α κ key) (f : α → α) (hf : ∀ a, key (f a) = key a) : Table α κ key :=
  ⟨t.rows.map f, by
    have h : key ∘ f = key := funext hf
    rw [List.map_map, h]
    exact t.nodup⟩

@[simp] theorem update_rows (t : Table α κ key) (f : α → α) (hf : ∀ a, key (f a) = key a) :
    (t.update f hf).rows = t.rows.map f := rfl

section Keyed

variable [DecidableEq κ]

def lookup (t : Table α κ key) (k : κ) : Option α :=
  t.rows.find? fun a => decide (key a = k)

theorem lookup_eq_some_iff {t : Table α κ key} {k : κ} {a : α} :
    t.lookup k = some a ↔ a ∈ t.rows ∧ key a = k := by
  constructor
  · intro h
    exact ⟨List.mem_of_find?_eq_some h, by simpa using List.find?_some h⟩
  · rintro ⟨ha, rfl⟩
    unfold lookup
    cases h : t.rows.find? fun b => decide (key b = key a) with
    | none => exact absurd (List.find?_eq_none.mp h a ha) (by simp)
    | some b =>
      have hb : key b = key a := by simpa using List.find?_some h
      rw [t.eq_of_key_eq (List.mem_of_find?_eq_some h) ha hb]

theorem lookup_mem {t : Table α κ key} {k : κ} {a : α} (h : t.lookup k = some a) : a ∈ t.rows :=
  (lookup_eq_some_iff.mp h).1

theorem lookup_key {t : Table α κ key} {k : κ} {a : α} (h : t.lookup k = some a) : key a = k :=
  (lookup_eq_some_iff.mp h).2

theorem lookup_eq_none_iff {t : Table α κ key} {k : κ} :
    t.lookup k = none ↔ ∀ a ∈ t.rows, key a ≠ k := by
  simp [lookup, List.find?_eq_none]

theorem lookup_isSome_iff {t : Table α κ key} {k : κ} :
    (t.lookup k).isSome ↔ ∃ a ∈ t.rows, key a = k := by
  simp [lookup, List.find?_isSome]

theorem lookup_of_mem {t : Table α κ key} {a : α} (h : a ∈ t.rows) : t.lookup (key a) = some a :=
  lookup_eq_some_iff.mpr ⟨h, rfl⟩

theorem lookup_delete {t : Table α κ key} {p : α → Bool} {k : κ}
    (h : ∀ a ∈ t.rows, key a = k → p a = false) : (t.delete p).lookup k = t.lookup k := by
  refine Option.ext fun a => ?_
  simp only [lookup_eq_some_iff, mem_delete]
  constructor
  · exact fun ha => ⟨ha.1.1, ha.2⟩
  · exact fun ha => ⟨⟨ha.1, h a ha.1 ha.2⟩, ha.2⟩

theorem lookup_update (t : Table α κ key) (f : α → α) (hf : ∀ a, key (f a) = key a) (k : κ) :
    (t.update f hf).lookup k = (t.lookup k).map f := by
  simp only [lookup, update_rows, List.find?_map]
  congr 2
  funext a
  simp only [Function.comp_apply, hf]

/-- Insert a row; no result when its key is taken. -/
def insert (t : Table α κ key) (a : α) : Option (Table α κ key) :=
  if h : key a ∈ t.rows.map key then none
  else some ⟨t.rows ++ [a], by
    rw [List.map_append, List.map_singleton]
    exact t.nodup.append (List.nodup_singleton _) (by simpa using h)⟩

theorem insert_eq_some {t t' : Table α κ key} {a : α} (h : t.insert a = some t') :
    (∀ b ∈ t.rows, key b ≠ key a) ∧ t'.rows = t.rows ++ [a] := by
  unfold insert at h
  split at h
  · exact absurd h (by simp)
  · rename_i hk
    refine ⟨fun b hb hab => hk (List.mem_map.mpr ⟨b, hb, hab⟩), ?_⟩
    rw [← Option.some.inj h]

theorem exists_insert {t : Table α κ key} {a : α} (h : ∀ b ∈ t.rows, key b ≠ key a) :
    ∃ t', t.insert a = some t' ∧ t'.rows = t.rows ++ [a] := by
  have hk : key a ∉ t.rows.map key := by simpa using h
  exact ⟨_, by rw [insert, dif_neg hk], rfl⟩

def insertAll (t : Table α κ key) : List α → Option (Table α κ key)
  | [] => some t
  | a :: as => (t.insert a).bind fun t' => t'.insertAll as

theorem insertAll_rows {t t' : Table α κ key} {as : List α} (h : t.insertAll as = some t') :
    t'.rows = t.rows ++ as := by
  induction as generalizing t with
  | nil => simp [← Option.some.inj h]
  | cons a as ih =>
    obtain ⟨u, hu, hu'⟩ := Option.bind_eq_some_iff.mp h
    rw [ih hu', (insert_eq_some hu).2, List.append_assoc, List.singleton_append]

def upsert (t : Table α κ key) (a : α) : Table α κ key :=
  if h : key a ∈ t.rows.map key then
    ⟨t.rows.map fun b => if key b = key a then a else b, by
      have hk : (key ∘ fun b => if key b = key a then a else b) = key := by
        funext b
        by_cases hb : key b = key a <;> simp [hb]
      rw [List.map_map, hk]
      exact t.nodup⟩
  else
    ⟨t.rows ++ [a], by
      rw [List.map_append, List.map_singleton]
      exact t.nodup.append (List.nodup_singleton _) (by simpa using h)⟩

theorem upsert_rows_of_lookup_some {t : Table α κ key} {a b : α} (h : t.lookup (key a) = some b) :
    (t.upsert a).rows = t.rows.map fun c => if key c = key a then a else c := by
  have hk : key a ∈ t.rows.map key :=
    List.mem_map.mpr ⟨b, lookup_mem h, lookup_key h⟩
  rw [upsert, dif_pos hk]

theorem upsert_rows_of_lookup_none {t : Table α κ key} {a : α} (h : t.lookup (key a) = none) :
    (t.upsert a).rows = t.rows ++ [a] := by
  have hk : key a ∉ t.rows.map key := by simpa using lookup_eq_none_iff.mp h
  rw [upsert, dif_neg hk]

theorem mem_upsert {t : Table α κ key} {a c : α} :
    c ∈ (t.upsert a).rows ↔ c = a ∨ (c ∈ t.rows ∧ key c ≠ key a) := by
  cases h : t.lookup (key a) with
  | none =>
    rw [upsert_rows_of_lookup_none h, List.mem_append, List.mem_singleton, or_comm]
    have hne := lookup_eq_none_iff.mp h
    exact or_congr_right ⟨fun hc => ⟨hc, hne c hc⟩, fun hc => hc.1⟩
  | some b =>
    rw [upsert_rows_of_lookup_some h, List.mem_map]
    constructor
    · rintro ⟨d, hd, rfl⟩
      by_cases hk : key d = key a <;> simp [hk, hd]
    · rintro (rfl | ⟨hc, hk⟩)
      · exact ⟨b, lookup_mem h, by simp [lookup_key h]⟩
      · exact ⟨c, hc, by simp [hk]⟩

end Keyed

/-! ## Counting rows -/

theorem countP_delete (t : Table α κ key) (p q : α → Bool) :
    (t.delete p).rows.countP q + (t.rows.filter p).countP q = t.rows.countP q := by
  rw [delete_rows]
  induction t.rows with
  | nil => simp
  | cons a as ih =>
    cases hp : p a <;> simp only [List.filter_cons, hp, Bool.not_true, Bool.not_false,
      Bool.false_eq_true, if_true, if_false, List.countP_cons] <;> omega

section Replace

variable [DecidableEq κ]

theorem map_replace_of_notMem {rows : List α} {a : α} (h : key a ∉ rows.map key) :
    (rows.map fun c => if key c = key a then a else c) = rows := by
  refine (List.map_congr_left fun c hc => ?_).trans (List.map_id rows)
  exact if_neg fun hk : key c = key a => h (hk ▸ List.mem_map_of_mem hc)

/-- In a list without repeated keys, replacing the row that holds a key moves a count by
    exactly the old and the new row's contribution. -/
theorem countP_map_replace {rows : List α} (hnd : (rows.map key).Nodup) {a b : α}
    (hb : b ∈ rows) (hk : key b = key a) (q : α → Bool) :
    (rows.map fun c => if key c = key a then a else c).countP q + [b].countP q
      = rows.countP q + [a].countP q := by
  induction rows with
  | nil => simp at hb
  | cons c cs ih =>
    rw [List.map_cons, List.nodup_cons] at hnd
    by_cases hc : key c = key a
    · -- the replaced row is the head, and no later row has its key
      have hbc : b = c := by
        rcases List.mem_cons.mp hb with h | h
        · exact h
        · exact absurd (List.mem_map.mpr ⟨b, h, hk.trans hc.symm⟩) hnd.1
      have hrest : (cs.map fun c => if key c = key a then a else c) = cs :=
        map_replace_of_notMem (hc ▸ hnd.1)
      simp only [List.map_cons, if_pos hc, hrest, List.countP_cons, List.countP_nil, hbc]
      omega
    · have hbcs : b ∈ cs := by
        rcases List.mem_cons.mp hb with rfl | h
        · exact absurd hk hc
        · exact h
      have := ih hnd.2 hbcs
      simp only [List.map_cons, if_neg hc, List.countP_cons] at this ⊢
      omega

theorem countP_upsert_some {t : Table α κ key} {a b : α} (h : t.lookup (key a) = some b)
    (q : α → Bool) :
    (t.upsert a).rows.countP q + [b].countP q = t.rows.countP q + [a].countP q := by
  rw [upsert_rows_of_lookup_some h]
  exact countP_map_replace t.nodup (lookup_mem h) (lookup_key h) q

theorem countP_upsert_none {t : Table α κ key} {a : α} (h : t.lookup (key a) = none)
    (q : α → Bool) : (t.upsert a).rows.countP q = t.rows.countP q + [a].countP q := by
  rw [upsert_rows_of_lookup_none h, List.countP_append]

end Replace

section Merge

variable [DecidableEq κ]

theorem countP_eq_keys (t : Table α κ key) {keys : List κ} (hnd : keys.Nodup)
    (hcover : ∀ a ∈ t.rows, key a ∈ keys) (q : α → Bool) :
    t.rows.countP q = keys.countP fun k => (t.lookup k).any q := by
  have hperm : ((t.rows.filter q).map key).Perm (keys.filter fun k => (t.lookup k).any q) := by
    have hsub : ((t.rows.filter q).map key).Sublist (t.rows.map key) := List.filter_sublist.map key
    apply (List.perm_ext_iff_of_nodup (t.nodup.sublist hsub) (hnd.filter _)).mpr
    intro k
    simp only [List.mem_map, List.mem_filter, Option.any_eq_true]
    constructor
    · rintro ⟨a, ⟨ha, hq⟩, rfl⟩
      exact ⟨hcover a ha, a, lookup_of_mem ha, hq⟩
    · rintro ⟨_, a, ha, hq⟩
      exact ⟨a, ⟨lookup_mem ha, hq⟩, lookup_key ha⟩
  rw [List.countP_eq_length_filter, List.countP_eq_length_filter, ← hperm.length_eq,
    List.length_map]

/-- **Merging.**  Where `a` and `b` change different rows of `c`, the counts of the merged
    table move by both changes. -/
theorem countP_merge {c a b m : Table α κ key}
    (h : ∀ k, (m.lookup k = a.lookup k ∧ b.lookup k = c.lookup k) ∨
      (m.lookup k = b.lookup k ∧ a.lookup k = c.lookup k)) (q : α → Bool) :
    m.rows.countP q + c.rows.countP q = a.rows.countP q + b.rows.countP q := by
  let keys := (m.rows.map key ++ (c.rows.map key ++ (a.rows.map key ++ b.rows.map key))).dedup
  have hnd : keys.Nodup := List.nodup_dedup _
  have hcover : ∀ r, (r ∈ m.rows ∨ r ∈ c.rows ∨ r ∈ a.rows ∨ r ∈ b.rows) → key r ∈ keys := by
    intro r hr
    simp only [keys, List.mem_dedup, List.mem_append]
    rcases hr with hr | hr | hr | hr
    · exact Or.inl (List.mem_map_of_mem hr)
    · exact Or.inr (Or.inl (List.mem_map_of_mem hr))
    · exact Or.inr (Or.inr (Or.inl (List.mem_map_of_mem hr)))
    · exact Or.inr (Or.inr (Or.inr (List.mem_map_of_mem hr)))
  rw [m.countP_eq_keys hnd fun r hr => hcover r (by simp [hr]),
    c.countP_eq_keys hnd fun r hr => hcover r (by simp [hr]),
    a.countP_eq_keys hnd fun r hr => hcover r (by simp [hr]),
    b.countP_eq_keys hnd fun r hr => hcover r (by simp [hr])]
  clear_value keys
  clear hnd hcover
  induction keys with
  | nil => rfl
  | cons k rest ih =>
    simp only [List.countP_cons]
    rcases h k with ⟨hm, hb⟩ | ⟨hm, ha⟩
    · rw [hm, hb]
      omega
    · rw [hm, ha]
      omega

end Merge

end Table

/-! ## Ordered results -/

section OrderBy

variable {α β : Type} [LinearOrder β] (f : α → β)

def orderBy (rows : List α) : List α := rows.insertionSort fun a b => f a ≤ f b

instance total_le_image : Std.Total (fun a b : α => f a ≤ f b) :=
  ⟨fun a b => le_total (f a) (f b)⟩

instance isTrans_le_image : IsTrans α (fun a b : α => f a ≤ f b) :=
  ⟨fun _ _ _ h₁ h₂ => le_trans h₁ h₂⟩

theorem orderBy_perm (rows : List α) : (orderBy f rows).Perm rows :=
  List.perm_insertionSort _ rows

theorem mem_orderBy {rows : List α} {a : α} : a ∈ orderBy f rows ↔ a ∈ rows :=
  (orderBy_perm f rows).mem_iff

theorem orderBy_pairwise (rows : List α) : (orderBy f rows).Pairwise fun a b => f a ≤ f b :=
  List.pairwise_insertionSort _ rows

theorem orderBy_eq_self {rows : List α} (h : rows.Pairwise fun a b => f a ≤ f b) :
    orderBy f rows = rows :=
  h.insertionSort_eq

theorem orderBy_pairwise_lt {rows : List α} (h : (rows.map f).Nodup) :
    ((orderBy f rows).map f).Pairwise (· < ·) := by
  have hnd : ((orderBy f rows).map f).Nodup := (((orderBy_perm f rows).map f).nodup_iff).mpr h
  have hle : ((orderBy f rows).map f).Pairwise (· ≤ ·) :=
    List.pairwise_map.mpr (orderBy_pairwise f rows)
  exact (hle.and hnd).imp fun hab => lt_of_le_of_ne hab.1 hab.2

end OrderBy

theorem filter_key_eq {α κ : Type} [DecidableEq κ] {f : α → κ} {rows : List α}
    (hnd : (rows.map f).Nodup) {r : α} (hr : r ∈ rows) :
    rows.filter (fun x => f x = f r) = [r] := by
  induction rows with
  | nil => cases hr
  | cons x rows ih =>
    rw [List.map_cons, List.nodup_cons] at hnd
    rcases List.mem_cons.mp hr with rfl | hr
    · have hnone : rows.filter (fun x => decide (f x = f r)) = [] := by
        rw [List.filter_eq_nil_iff]
        intro y hy hsame
        exact hnd.1 (decide_eq_true_eq.mp hsame ▸ List.mem_map_of_mem hy)
      rw [List.filter_cons_of_pos (by simp), hnone]
    · have hne : f x ≠ f r := fun hsame => hnd.1 (hsame ▸ List.mem_map_of_mem hr)
      rw [List.filter_cons_of_neg (by simpa using hne), ih hnd.2 hr]

theorem eq_range_of_pairwise_lt {ns : List Nat} (h : ns.Pairwise (· < ·))
    (hlt : ∀ n ∈ ns, n < ns.length) : ns = List.range ns.length := by
  have hnd : ns.Nodup := h.imp Nat.ne_of_lt
  have hsub : ns ⊆ List.range ns.length := fun n hn => List.mem_range.mpr (hlt n hn)
  have hperm : ns.Perm (List.range ns.length) :=
    (List.subperm_of_subset hnd hsub).perm_of_length_le (by simp)
  refine hperm.eq_of_pairwise (fun a b _ _ hab hba => ?_) h List.pairwise_lt_range
  exact absurd (Nat.lt_trans hab hba) (Nat.lt_irrefl a)

end Foundation
