import Pgs3.Foundation.PrefixOrder
import Pgs3.Foundation.Table

/-!
# Listings that roll words up

A listing shows keyed rows in order, but rows whose keys fall into one group are shown
once, as the group.  A group is named by a common prefix of its keys, and it is all of the
keys with that prefix (`Grouping`).  So a group is an interval of the keys, and a scan that
has seen one key of a group may jump past the rest of it.

`Grouping.listing` says what is to be shown.  `listing_step` is the rule for a scan: the
least key gives the first entry, and the keys beyond that entry give the others.
`listing_beyond` is the rule for a scan that is resumed.  `Composes` says that the pages a
client follows come to the listing, and `Paging` gives conditions for it.
-/

namespace Foundation

variable {α ρ : Type}

/-- Groups of words by common prefixes. -/
structure Grouping (α : Type) where
  group : List α → Option (List α)
  isPrefix : ∀ {k c}, group k = some c → c <+: k
  closed : ∀ {k c k'}, group k = some c → c <+: k' → group k' = some c

inductive Entry (α ρ : Type) where
  | item (r : ρ)
  | group (c : List α)

def Entry.name (key : ρ → List α) : Entry α ρ → List α
  | .item r => key r
  | .group c => c

namespace Grouping

variable (G : Grouping α) (key : ρ → List α)

/-- What a row is shown as. -/
def entry (r : ρ) : Entry α ρ :=
  match G.group (key r) with
  | none => .item r
  | some c => .group c

/-- The entries of the rows, each once, in the order of their names. -/
def listing [LinearOrder α] (rows : List ρ) : List (Entry α ρ) :=
  orderBy (Entry.name key)
    ((rows.filter fun r => (G.group (key r)).isNone).map .item
      ++ ((rows.filterMap fun r => G.group (key r)).dedup.map .group))

/-- A key that is shown after the entry named `x`. -/
def Beyond [LinearOrder α] (x k : List α) : Prop :=
  x < k ∧ ∀ c, G.group x = some c → ¬ c <+: k

/-- A word that can name an entry. -/
def IsName (x : List α) : Prop := ∀ c, G.group x = some c → c = x

/-! ## 1. Names -/

variable {G key}

theorem group_self {k c : List α} (h : G.group k = some c) : G.group c = some c :=
  G.closed h (List.prefix_refl c)

theorem entry_of_none {r : ρ} (h : G.group (key r) = none) : G.entry key r = .item r := by
  unfold entry
  rw [h]

theorem entry_of_some {r : ρ} {c : List α} (h : G.group (key r) = some c) :
    G.entry key r = .group c := by
  unfold entry
  rw [h]

theorem entry_eq_item {r r' : ρ} : G.entry key r = .item r' ↔ G.group (key r) = none ∧ r = r' := by
  cases h : G.group (key r) <;> simp [entry, h]

theorem entry_eq_group {r : ρ} {c : List α} :
    G.entry key r = .group c ↔ G.group (key r) = some c := by
  cases h : G.group (key r) <;> simp [entry, h]

theorem isName_name (r : ρ) : G.IsName ((G.entry key r).name key) := by
  cases h : G.group (key r) with
  | none =>
    rw [entry_of_none h]
    intro c hc
    exact absurd (h.symm.trans hc) (by simp)
  | some c =>
    rw [entry_of_some h]
    intro c' hc'
    exact Option.some.inj (hc'.symm.trans (group_self h))

theorem name_isPrefix (r : ρ) : (G.entry key r).name key <+: key r := by
  cases h : G.group (key r) with
  | none =>
    rw [entry_of_none h]
    exact List.prefix_refl _
  | some c =>
    rw [entry_of_some h]
    exact G.isPrefix h

variable [LinearOrder α]

theorem name_le (r : ρ) : (G.entry key r).name key ≤ key r :=
  le_of_isPrefix (name_isPrefix r)

/-- Keys beyond a name are shown under greater names, and the other keys are not. -/
theorem lt_name_iff {x : List α} (hx : G.IsName x) (r : ρ) :
    x < (G.entry key r).name key ↔ G.Beyond x (key r) := by
  constructor
  · intro h
    refine ⟨lt_of_lt_of_le h (name_le r), fun c hc hpre => ?_⟩
    -- the key would be shown as the group `x`
    rw [entry_of_some (G.closed hc hpre), hx c hc] at h
    exact lt_irrefl x h
  · rintro ⟨hlt, hfar⟩
    by_contra hle
    have hle := not_lt.mp hle
    cases h : G.group (key r) with
    | none =>
      rw [entry_of_none h] at hle
      exact absurd hlt (not_lt_of_ge hle)
    | some c =>
      rw [entry_of_some h] at hle
      -- `x` lies between the group's name and one of its keys, so it is in the group
      have hpre := isPrefix_of_between (G.isPrefix h) hle (le_of_lt hlt)
      exact hfar c (G.closed h hpre) (G.isPrefix h)

theorem lt_of_beyond {r : ρ} {k : List α} (h : G.Beyond ((G.entry key r).name key) k) :
    key r < k := by
  cases hg : G.group (key r) with
  | none =>
    rw [entry_of_none hg] at h
    exact h.1
  | some c =>
    rw [entry_of_some hg] at h
    by_contra hle
    have hpre := isPrefix_of_between (G.isPrefix hg) (le_of_lt h.1) (not_lt.mp hle)
    exact h.2 c (group_self hg) hpre

theorem entry_eq_of_not_beyond {r r' : ρ} (hle : key r ≤ key r')
    (h : ¬ G.Beyond ((G.entry key r).name key) (key r')) :
    key r' = key r ∨ G.entry key r' = G.entry key r := by
  cases hg : G.group (key r) with
  | none =>
    rw [entry_of_none hg] at h
    left
    by_contra hne
    refine h ⟨lt_of_le_of_ne hle (Ne.symm hne), fun c hc => ?_⟩
    exact absurd (hg.symm.trans hc) (by simp)
  | some c =>
    right
    rw [entry_of_some hg] at h ⊢
    have hc : c ≤ key r' := le_trans (le_of_isPrefix (G.isPrefix hg)) hle
    by_cases hpre : c <+: key r'
    · exact entry_of_some (G.closed hg hpre)
    · refine absurd ⟨lt_of_le_of_ne hc ?_, fun c' hc' => ?_⟩ h
      · rintro rfl
        exact hpre (List.prefix_refl _)
      · rw [Option.some.inj (hc'.symm.trans (group_self hg))]
        exact hpre

/-! ## 2. The listing -/

theorem mem_listing {rows : List ρ} {e : Entry α ρ} :
    e ∈ G.listing key rows ↔ ∃ r ∈ rows, G.entry key r = e := by
  rw [listing, mem_orderBy, List.mem_append, List.mem_map, List.mem_map]
  constructor
  · rintro (⟨r, hr, rfl⟩ | ⟨c, hc, rfl⟩)
    · obtain ⟨hr, hg⟩ := List.mem_filter.mp hr
      exact ⟨r, hr, entry_of_none (Option.isNone_iff_eq_none.mp hg)⟩
    · obtain ⟨r, hr, hg⟩ := List.mem_filterMap.mp (List.mem_dedup.mp hc)
      exact ⟨r, hr, entry_of_some hg⟩
  · rintro ⟨r, hr, rfl⟩
    cases hg : G.group (key r) with
    | none =>
      exact Or.inl ⟨r, List.mem_filter.mpr ⟨hr, by simp [hg]⟩, (entry_of_none hg).symm⟩
    | some c =>
      refine Or.inr ⟨c, ?_, (entry_of_some hg).symm⟩
      exact List.mem_dedup.mpr (List.mem_filterMap.mpr ⟨r, hr, hg⟩)

theorem listing_pairwise {rows : List ρ} (h : (rows.map key).Nodup) :
    (G.listing key rows).Pairwise fun e e' => e.name key < e'.name key := by
  rw [← List.pairwise_map]
  apply orderBy_pairwise_lt
  rw [List.map_append, List.map_map, List.map_map]
  apply List.Nodup.append
  · exact h.sublist (List.filter_sublist.map key)
  · have hid : Entry.name key ∘ (Entry.group : List α → Entry α ρ) = id := rfl
    rw [hid, List.map_id]
    exact List.nodup_dedup _
  · -- a key in a group is not shown as itself
    intro x hitem hgroup
    obtain ⟨r, hr, rfl⟩ := List.mem_map.mp hitem
    obtain ⟨c, hc, hcr⟩ := List.mem_map.mp hgroup
    obtain ⟨r', _, hg⟩ := List.mem_filterMap.mp (List.mem_dedup.mp hc)
    have hcr : c = key r := hcr
    have hnone := (List.mem_filter.mp hr).2
    rw [← hcr, group_self hg] at hnone
    exact absurd hnone (by simp)

theorem eq_of_strict {l l' : List (Entry α ρ)} (h : l.Pairwise fun e e' => e.name key < e'.name key)
    (h' : l'.Pairwise fun e e' => e.name key < e'.name key) (hmem : ∀ e, e ∈ l ↔ e ∈ l') :
    l = l' := by
  have : Std.Irrefl fun e e' : Entry α ρ => e.name key < e'.name key :=
    ⟨fun _ => lt_irrefl _⟩
  have : Std.Antisymm fun e e' : Entry α ρ => e.name key < e'.name key :=
    ⟨fun _ _ hlt hgt => absurd hgt (lt_asymm hlt)⟩
  exact h.eq_of_mem_iff h' hmem

/-- A list of the same entries in strict order is the listing. -/
theorem eq_listing {rows : List ρ} (hrows : (rows.map key).Nodup) {l : List (Entry α ρ)}
    (hl : l.Pairwise fun e e' => e.name key < e'.name key)
    (hmem : ∀ e, e ∈ l ↔ ∃ r ∈ rows, G.entry key r = e) : l = G.listing key rows := by
  apply eq_of_strict hl (listing_pairwise hrows)
  intro e
  rw [hmem, mem_listing]

/-- **Resuming a scan.**  The rows beyond a name give the entries after it. -/
theorem listing_beyond {rows : List ρ} (hrows : (rows.map key).Nodup) {x : List α}
    (hx : G.IsName x) {p : ρ → Bool} (hp : ∀ r ∈ rows, p r = true ↔ G.Beyond x (key r)) :
    G.listing key (rows.filter p) = (G.listing key rows).filter fun e => x < e.name key := by
  symm
  apply eq_listing (hrows.sublist (List.filter_sublist.map key))
  · exact (listing_pairwise hrows).sublist List.filter_sublist
  · intro e
    rw [List.mem_filter, mem_listing, decide_eq_true_iff]
    constructor
    · rintro ⟨⟨r, hr, rfl⟩, hlt⟩
      exact ⟨r, List.mem_filter.mpr ⟨hr, (hp r hr).mpr ((lt_name_iff hx r).mp hlt)⟩, rfl⟩
    · rintro ⟨r, hr, rfl⟩
      obtain ⟨hr, hpr⟩ := List.mem_filter.mp hr
      exact ⟨⟨r, hr, rfl⟩, (lt_name_iff hx r).mpr ((hp r hr).mp hpr)⟩

/-- **One step of a scan.**  The row with the least key is shown first. -/
theorem listing_step {rows : List ρ} (hrows : (rows.map key).Nodup) {r : ρ} (hr : r ∈ rows)
    (hmin : ∀ r' ∈ rows, key r ≤ key r') {p : ρ → Bool}
    (hp : ∀ r' ∈ rows, p r' = true ↔ G.Beyond ((G.entry key r).name key) (key r')) :
    G.listing key rows = G.entry key r :: G.listing key (rows.filter p) := by
  symm
  apply eq_listing hrows
  · refine List.pairwise_cons.mpr ⟨fun e he => ?_, listing_pairwise
      (hrows.sublist (List.filter_sublist.map key))⟩
    obtain ⟨r', hr', rfl⟩ := mem_listing.mp he
    obtain ⟨hr', hpr⟩ := List.mem_filter.mp hr'
    exact (lt_name_iff (isName_name r) r').mpr ((hp r' hr').mp hpr)
  · intro e
    rw [List.mem_cons, mem_listing]
    constructor
    · rintro (rfl | ⟨r', hr', rfl⟩)
      · exact ⟨r, hr, rfl⟩
      · exact ⟨r', (List.mem_filter.mp hr').1, rfl⟩
    · rintro ⟨r', hr', rfl⟩
      by_cases hb : G.Beyond ((G.entry key r).name key) (key r')
      · exact Or.inr ⟨r', List.mem_filter.mpr ⟨hr', (hp r' hr').mpr hb⟩, rfl⟩
      · left
        rcases entry_eq_of_not_beyond (hmin r' hr') hb with hkey | hentry
        · rw [List.inj_on_of_nodup_map hrows hr' hr hkey]
        · exact hentry

/-- **Starting at a marker.**  Rows with keys greater than `m`, without the groups whose
    names are not, give the entries with names greater than `m`. -/
theorem listing_after {rows : List ρ} (hrows : (rows.map key).Nodup) {m : List α}
    {p : ρ → Bool} (hp : ∀ r ∈ rows, p r = true ↔ m < key r) {q : Entry α ρ → Bool}
    (hitem : ∀ r, q (.item r) = true)
    (hgroup : ∀ r c, G.group (key r) = some c → (q (.group c) = true ↔ m < c))
    {f : Entry α ρ → Bool} (hf : ∀ r, f (G.entry key r) = true ↔ m < (G.entry key r).name key) :
    (G.listing key (rows.filter p)).filter q = (G.listing key rows).filter f := by
  have hsub : ((rows.filter p).map key).Nodup := hrows.sublist (List.filter_sublist.map key)
  apply eq_of_strict ((listing_pairwise hsub).sublist List.filter_sublist)
    ((listing_pairwise hrows).sublist List.filter_sublist)
  intro e
  rw [List.mem_filter, List.mem_filter, mem_listing, mem_listing]
  constructor
  · rintro ⟨⟨r, hr, rfl⟩, hkeep⟩
    obtain ⟨hr, hlt⟩ := List.mem_filter.mp hr
    refine ⟨⟨r, hr, rfl⟩, (hf r).mpr ?_⟩
    cases hg : G.group (key r) with
    | none =>
      rw [entry_of_none hg]
      exact (hp r hr).mp hlt
    | some c =>
      rw [entry_of_some hg] at hkeep ⊢
      exact (hgroup r c hg).mp hkeep
  · rintro ⟨⟨r, hr, rfl⟩, hafter⟩
    have hlt := (hf r).mp hafter
    have hkey : m < key r := lt_of_lt_of_le hlt (name_le r)
    refine ⟨⟨r, List.mem_filter.mpr ⟨hr, (hp r hr).mpr hkey⟩, rfl⟩, ?_⟩
    cases hg : G.group (key r) with
    | none =>
      rw [entry_of_none hg]
      exact hitem r
    | some c =>
      rw [entry_of_some hg] at hlt ⊢
      exact (hgroup r c hg).mpr hlt

end Grouping

/-! ## 3. Thresholds -/

section Thresholds

variable {ι β : Type} [LinearOrder β] {f : ι → β} {l : List ι} {t : Option β} {n : Nat} {e : ι}

theorem drop_eq_filter (h : l.Pairwise fun a b => f a < f b) (he : l[n]? = some e) :
    l.drop (n + 1) = l.filter fun a => f e < f a := by
  induction l generalizing n with
  | nil => exact absurd he (by simp)
  | cons a l ih =>
    obtain ⟨hhead, htail⟩ := List.pairwise_cons.mp h
    cases n with
    | zero =>
      cases he
      rw [List.drop_one, List.tail_cons, List.filter_cons_of_neg (by simp)]
      exact (List.filter_eq_self.mpr fun b hb => decide_eq_true (hhead b hb)).symm
    | succ n =>
      have he : l[n]? = some e := he
      have hlt : f a < f e := hhead e (List.mem_of_getElem? he)
      rw [List.drop_succ_cons, ih htail he, List.filter_cons_of_neg]
      simpa using le_of_lt hlt

/-- The elements greater than a threshold, all of them if there is none. -/
def cutAfter (f : ι → β) (l : List ι) (t : Option β) : List ι := l.filter fun a => t.all (· < f a)

theorem mem_cutAfter {m : β} : e ∈ cutAfter f l (some m) ↔ e ∈ l ∧ m < f e := by
  simp [cutAfter]

theorem cutAfter_pairwise (h : l.Pairwise fun a b => f a < f b) (t : Option β) :
    (cutAfter f l t).Pairwise fun a b => f a < f b :=
  h.sublist List.filter_sublist

/-- A threshold that is not before an element cuts what comes after it. -/
theorem cutAfter_eq_filter_drop (h : l.Pairwise fun a b => f a < f b)
    (he : (cutAfter f l t)[n]? = some e) {m : β} (hm : f e ≤ m) :
    cutAfter f l (some m) = ((cutAfter f l t).drop (n + 1)).filter fun a => m < f a := by
  have hafter := (List.mem_filter.mp (List.mem_of_getElem? he)).2
  rw [drop_eq_filter (cutAfter_pairwise h t) he, cutAfter, cutAfter, List.filter_filter,
    List.filter_filter]
  apply List.filter_congr
  intro a _
  rw [Bool.eq_iff_iff]
  simp only [Option.all_some, Bool.and_eq_true, decide_eq_true_eq]
  constructor
  · intro hlt
    refine ⟨⟨hlt, lt_of_le_of_lt hm hlt⟩, ?_⟩
    rw [Option.all_eq_true] at hafter ⊢
    intro x hx
    exact decide_eq_true (lt_trans (of_decide_eq_true (hafter x hx)) (lt_of_le_of_lt hm hlt))
  · exact fun h => h.1.1

/-- Cut between an element and the next one, nothing is lost and nothing repeated. -/
theorem cutAfter_eq_drop (h : l.Pairwise fun a b => f a < f b)
    (he : (cutAfter f l t)[n]? = some e) {m : β} (hm : f e ≤ m)
    (hnext : ∀ e', (cutAfter f l t)[n + 1]? = some e' → m < f e') :
    cutAfter f l (some m) = (cutAfter f l t).drop (n + 1) := by
  rw [cutAfter_eq_filter_drop h he hm]
  apply List.filter_eq_self.mpr
  intro a ha
  have hsorted := (cutAfter_pairwise h t).sublist (List.drop_sublist (n + 1) _)
  have hhead := @List.head?_drop _ (cutAfter f l t) (n + 1)
  cases hdrop : (cutAfter f l t).drop (n + 1) with
  | nil =>
    rw [hdrop] at ha
    exact absurd ha List.not_mem_nil
  | cons first rest =>
    rw [hdrop] at ha hsorted hhead
    have hfirst := hnext first hhead.symm
    rcases List.mem_cons.mp ha with rfl | ha
    · exact decide_eq_true hfirst
    · exact decide_eq_true (lt_trans hfirst ((List.pairwise_cons.mp hsorted).1 a ha))

end Thresholds

/-! ## 4. Scans -/

/-- Cursors that select rows: with a row all greater ones, and after an entry the rows beyond
    it. -/
structure Scan [LinearOrder α] (G : Grouping α) (key : ρ → List α) (γ : Type) where
  admits : γ → ρ → Bool
  next : Entry α ρ → γ
  admits_mono : ∀ {c r r'}, admits c r = true → key r < key r' → admits c r' = true
  next_admits : ∀ r r', admits (next (G.entry key r)) r' = true ↔
    G.Beyond ((G.entry key r).name key) (key r')

namespace Scan

variable [LinearOrder α] {G : Grouping α} {key : ρ → List α} {γ : Type} (S : Scan G key γ)

def selected (rows : List ρ) (c : γ) : List ρ := rows.filter (S.admits c)

def left (rows : List ρ) (c : γ) : List (Entry α ρ) := G.listing key (S.selected rows c)

variable {S} {rows : List ρ} {c : γ} {r : ρ}

theorem mem_selected : r ∈ S.selected rows c ↔ r ∈ rows ∧ S.admits c r = true := List.mem_filter

theorem selected_nodup (hrows : (rows.map key).Nodup) : ((S.selected rows c).map key).Nodup :=
  hrows.sublist (List.filter_sublist.map _)

theorem left_eq_nil (h : ∀ r ∈ rows, S.admits c r = false) : S.left rows c = [] := by
  rw [List.eq_nil_iff_forall_not_mem]
  intro e he
  obtain ⟨r, hr, _⟩ := Grouping.mem_listing.mp he
  obtain ⟨hr, hadm⟩ := mem_selected.mp hr
  exact absurd ((h r hr).symm.trans hadm) (by simp)

/-- **A turn of a scan.**  The least row gives the first entry; the cursor after it leaves the
    others, and fewer rows. -/
theorem left_step (hrows : (rows.map key).Nodup) (hr : r ∈ S.selected rows c)
    (hmin : ∀ r' ∈ S.selected rows c, key r ≤ key r') :
    S.left rows c = G.entry key r :: S.left rows (S.next (G.entry key r)) ∧
      (S.selected rows (S.next (G.entry key r))).length < (S.selected rows c).length := by
  -- what the next cursor selects, this one selects too
  have hnext : S.selected rows (S.next (G.entry key r))
      = (S.selected rows c).filter (S.admits (S.next (G.entry key r))) := by
    unfold selected
    rw [List.filter_filter]
    apply List.filter_congr
    intro r' _
    rw [Bool.eq_iff_iff, Bool.and_eq_true]
    constructor
    · intro hadm
      have hlt := Grouping.lt_of_beyond ((S.next_admits r r').mp hadm)
      exact ⟨hadm, S.admits_mono (mem_selected.mp hr).2 hlt⟩
    · exact And.left
  unfold left
  rw [hnext]
  constructor
  · exact Grouping.listing_step (selected_nodup hrows) hr hmin fun r' _ => S.next_admits r r'
  · apply List.length_filter_lt_length_iff_exists.mpr
    refine ⟨r, hr, fun hadm => ?_⟩
    exact lt_irrefl _ (Grouping.lt_of_beyond ((S.next_admits r r).mp hadm))

/-- **Resuming after an entry.**  What is left at the cursor after it comes after it. -/
theorem left_next (hrows : (rows.map key).Nodup) (r : ρ) : S.left rows (S.next (G.entry key r))
      = cutAfter (Entry.name key) (G.listing key rows) (some ((G.entry key r).name key)) := by
  have hbeyond := Grouping.listing_beyond hrows (Grouping.isName_name r) fun r' _ =>
    S.next_admits r r'
  exact hbeyond.trans (List.filter_congr fun e _ => decide_eq_decide.mpr Iff.rfl)

end Scan

/-! ## 5. Pages -/

section Pages

variable {κ ε π ι : Type}

/-- The pages a client gets that asks for the next one as long as there is one. -/
inductive Followed (fetch : κ → Except ε (π × Option κ)) : κ → List π → Prop
  | last {c : κ} {page : π} (h : fetch c = .ok (page, none)) : Followed fetch c [page]
  | more {c c' : κ} {page : π} {pages : List π} (h : fetch c = .ok (page, some c'))
      (rest : Followed fetch c' pages) : Followed fetch c (page :: pages)

/-- Follow the pages, at most as many as the fuel allows. -/
def follow (fetch : κ → Except ε (π × Option κ)) : Nat → κ → Option (List π)
  | 0, _ => none
  | fuel + 1, c =>
      match fetch c with
      | .error _ => none
      | .ok (page, none) => some [page]
      | .ok (page, some c') => (follow fetch fuel c').map (page :: ·)

theorem followed_of_follow {fetch : κ → Except ε (π × Option κ)} {fuel : Nat} {c : κ}
    {pages : List π} (h : follow fetch fuel c = some pages) : Followed fetch c pages := by
  induction fuel generalizing c pages with
  | zero => exact absurd h (by simp [follow])
  | succ fuel ih =>
    unfold follow at h
    split at h
    · exact absurd h (by simp)
    · rename_i hpage
      cases h
      exact .last hpage
    · rename_i hpage
      obtain ⟨rest, hrest, rfl⟩ := Option.map_eq_some_iff.mp h
      exact .more hpage (ih hrest)

/-- A client that is sent back to the page it asked for does not come to an end. -/
theorem not_followed_of_loop {fetch : κ → Except ε (π × Option κ)} {c : κ}
    (h : (fetch c).toOption.bind Prod.snd = some c) (pages : List π) :
    ¬ Followed fetch c pages := by
  intro hpages
  induction hpages with
  | last hlast =>
    rw [hlast] at h
    cases h
  | more hnext _ ih =>
    rw [hnext] at h
    cases h
    exact ih (by rw [hnext]; rfl)

/-- Whoever follows the pages sees the listing, and each page says whether more follows. -/
def Composes (fetch : κ → Except ε (π × Option κ)) (shown : π → List ι) (truncated : π → Bool)
    (c : κ) (listing : List ι) : Prop :=
  ∃ pages, Followed fetch c pages ∧ (pages.map shown).flatten = listing ∧
    ∀ pre page post, pages = pre ++ page :: post →
      (truncated page = true ↔ (post.map shown).flatten ≠ [])

/-- **Pages compose.**  If each page shows the first `n` entries of what is left, and says
    that it is truncated exactly when more are left, then all pages together show
    everything, and every page tells the truth about those after it. -/
theorem composes_of_pages {fetch : κ → Except ε (π × Option κ)} {shown : π → List ι}
    {truncated : π → Bool} {L : κ → List ι → Prop} {n : Nat} (hn : 0 < n)
    (hfetch : ∀ c l, L c l → ∃ page next, fetch c = .ok (page, next) ∧
      shown page = l.take n ∧ truncated page = next.isSome ∧ (next = none → l.length ≤ n) ∧
      ∀ c', next = some c' → L c' (l.drop n) ∧ n < l.length)
    {c : κ} {l : List ι} (hc : L c l) : Composes fetch shown truncated c l := by
  induction hm : l.length using Nat.strong_induction_on generalizing c l with
  | _ m ih =>
    obtain ⟨page, next, hpage, hshown, htrunc, hlast, hmore⟩ := hfetch c l hc
    cases next with
    | none =>
      refine ⟨[page], .last hpage, ?_, ?_⟩
      · simp [hshown, List.take_of_length_le (hlast rfl)]
      · intro pre page' post hsplit
        cases pre with
        | nil =>
          obtain ⟨rfl, rfl⟩ := List.cons.inj hsplit
          simp [htrunc]
        | cons x pre => simp at hsplit
    | some c' =>
      obtain ⟨hc', hlt⟩ := hmore c' rfl
      have hlen : (l.drop n).length < m := by
        rw [List.length_drop]
        omega
      obtain ⟨pages, hpages, hall, htell⟩ := ih _ hlen hc' rfl
      refine ⟨page :: pages, .more hpage hpages, ?_, ?_⟩
      · rw [List.map_cons, List.flatten_cons, hall, hshown, List.take_append_drop]
      · intro pre page' post hsplit
        cases pre with
        | nil =>
          obtain ⟨rfl, rfl⟩ := List.cons.inj hsplit
          rw [htrunc, hall, Ne, List.drop_eq_nil_iff]
          simpa using hlt
        | cons x pre => exact htell pre page' post (List.cons.inj hsplit).2

end Pages

/-! ## 6. Pages that resume at thresholds -/

/-- Requests that list what comes after a threshold in pages of `n + 1`.  A page is followed by
    another one if something comes after `mark` of its last element; the next request then
    lists what comes after `sent` of it. -/
structure Paging {κ ε π ι υ β : Type} [LinearOrder β] (fetch : κ → Except ε (π × Option κ))
    (shown : π → List υ) (truncated : π → Bool) (f : ι → β) (g : ι → υ) (l : List ι) (n : Nat)
    (mark sent : ι → β) (At : κ → Option β → Prop) : Prop where
  sorted : l.Pairwise fun a b => f a < f b
  shows : ∀ a ∈ l, ∀ b ∈ l, g a = g b → f a = f b
  mark_le : ∀ e ∈ l, f e ≤ mark e
  sent_or : ∀ e ∈ l, sent e = mark e ∨ sent e < f e
  page : ∀ c t, At c t → ∃ page next, fetch c = .ok (page, next) ∧
    shown page = ((cutAfter f l t).take (n + 1)).map g ∧ truncated page = next.isSome ∧
    (next = none → ∀ e, (cutAfter f l t)[n]? = some e → cutAfter f l (some (mark e)) = []) ∧
    ∀ c', next = some c' → ∃ e, (cutAfter f l t)[n]? = some e ∧
      cutAfter f l (some (mark e)) ≠ [] ∧ At c' (some (sent e))

namespace Paging

variable {κ ε π ι υ β : Type} [LinearOrder β] {fetch : κ → Except ε (π × Option κ)}
  {shown : π → List υ} {truncated : π → Bool} {f : ι → β} {g : ι → υ} {l : List ι} {n : Nat}
  {mark sent : ι → β} {At : κ → Option β → Prop} {c : κ} {t : Option β} {pages : List π}

/-- Wherever a page ends, the next one begins with the next element. -/
def Whole (f : ι → β) (sent : ι → β) (n : Nat) (l : List ι) : Prop :=
  ∀ j e e', l[j * (n + 1) + n]? = some e → l[j * (n + 1) + n + 1]? = some e' →
    f e ≤ sent e ∧ sent e < f e'

theorem whole_iff : Whole f sent n l ↔
    (∀ e e', l[n]? = some e → l[n + 1]? = some e' → f e ≤ sent e ∧ sent e < f e') ∧
      Whole f sent n (l.drop (n + 1)) := by
  have hindex : ∀ j, n + 1 + (j * (n + 1) + n) = (j + 1) * (n + 1) + n := fun j => by
    rw [Nat.succ_mul]
    omega
  simp only [Whole, List.getElem?_drop, ← Nat.add_assoc (n + 1) _ 1, hindex]
  constructor
  · intro h
    exact ⟨fun e e' he he' => h 0 e e' (by simpa using he) (by simpa using he'),
      fun j => h (j + 1)⟩
  · rintro ⟨hfirst, hrest⟩ j
    cases j with
    | zero => simpa using hfirst
    | succ j => exact hrest j

theorem whole_of_sent_eq (h : l.Pairwise fun a b => f a < f b)
    (hsent : ∀ j e e', l[j * (n + 1) + n]? = some e → l[j * (n + 1) + n + 1]? = some e' →
      sent e = f e) : Whole f sent n l := by
  intro j e e' he he'
  rw [hsent j e e' he he']
  obtain ⟨hi, rfl⟩ := List.getElem?_eq_some_iff.mp he
  obtain ⟨hi', rfl⟩ := List.getElem?_eq_some_iff.mp he'
  exact ⟨le_refl _, List.pairwise_iff_getElem.mp h _ _ hi hi' (Nat.lt_succ_self _)⟩

variable (h : Paging fetch shown truncated f g l n mark sent At)

include h

theorem lt_length {e : ι} (he : (cutAfter f l t)[n]? = some e)
    (hmore : cutAfter f l (some (mark e)) ≠ []) : n + 1 < (cutAfter f l t).length := by
  have hmem : e ∈ l := (List.mem_filter.mp (List.mem_of_getElem? he)).1
  rw [cutAfter_eq_filter_drop h.sorted he (h.mark_le e hmem)] at hmore
  by_contra hle
  rw [List.drop_eq_nil_of_le (Nat.not_lt.mp hle)] at hmore
  exact hmore rfl

/-- **Nothing is lost** if no boundary loses anything. -/
theorem composes_of_whole (hc : At c t) (hwhole : Whole f sent n (cutAfter f l t)) :
    Composes fetch shown truncated c ((cutAfter f l t).map g) := by
  let Left : κ → List υ → Prop := fun c l' =>
    ∃ t, At c t ∧ l' = (cutAfter f l t).map g ∧ Whole f sent n (cutAfter f l t)
  refine composes_of_pages (L := Left) (Nat.succ_pos n) ?_ ⟨t, hc, rfl, hwhole⟩
  rintro c _ ⟨t, hc, rfl, hwhole⟩
  obtain ⟨hboundary, hrest⟩ := whole_iff.mp hwhole
  obtain ⟨page, next, hfetch, hshown, htrunc, hlast, hmore⟩ := h.page c t hc
  refine ⟨page, next, hfetch, by rw [hshown, List.map_take], htrunc, ?_, ?_⟩
  · intro hnone
    rw [List.length_map]
    by_contra hlong
    have hlong := Nat.not_le.mp hlong
    -- the next element would come after the mark
    have he := List.getElem?_eq_getElem (Nat.lt_of_succ_lt hlong)
    have he' := List.getElem?_eq_getElem hlong
    obtain ⟨hle, hlt⟩ := hboundary _ _ he he'
    have hmem := (List.mem_filter.mp (List.mem_of_getElem? he)).1
    rw [(h.sent_or _ hmem).resolve_right (not_lt_of_ge hle)] at hlt
    have hmem' := (List.mem_filter.mp (List.mem_of_getElem? he')).1
    have hnext := mem_cutAfter.mpr ⟨hmem', hlt⟩
    rw [hlast hnone _ he] at hnext
    exact absurd hnext List.not_mem_nil
  · intro c' hnext
    obtain ⟨e, he, hne, hc'⟩ := hmore c' hnext
    have hlt := h.lt_length he hne
    have hcut := cutAfter_eq_drop h.sorted he
      (hboundary e _ he (List.getElem?_eq_getElem hlt)).1 fun e' he' => (hboundary e e' he he').2
    rw [← List.map_drop, List.length_map, ← hcut]
    rw [← hcut] at hrest
    exact ⟨⟨_, hc', rfl, hrest⟩, hlt⟩

theorem head?_of_followed (hc : At c t) (hpages : Followed fetch c pages) :
    ((pages.map shown).flatten).head? = ((cutAfter f l t).map g).head? := by
  obtain ⟨page, next, hfetch, hshown, _, _, hmore⟩ := h.page c t hc
  have hfirst : (shown page).head? = ((cutAfter f l t).map g).head? := by
    rw [hshown]
    cases cutAfter f l t <;> rfl
  cases hpages with
  | last hlast =>
    obtain ⟨rfl, _⟩ := Prod.mk.inj (Except.ok.inj (hfetch.symm.trans hlast))
    simpa using hfirst
  | more hnext =>
    obtain ⟨rfl, rfl⟩ := Prod.mk.inj (Except.ok.inj (hfetch.symm.trans hnext))
    obtain ⟨e, he, _⟩ := hmore _ rfl
    rw [List.map_cons, List.flatten_cons, List.head?_append, hfirst]
    cases hl : cutAfter f l t with
    | nil =>
      rw [hl] at he
      cases he
    | cons a l => rfl

/-- **Something is lost, or repeated,** if a boundary does either. -/
theorem whole_of_followed (hc : At c t) (hpages : Followed fetch c pages)
    (hall : (pages.map shown).flatten = (cutAfter f l t).map g) :
    Whole f sent n (cutAfter f l t) := by
  induction hpages generalizing t with
  | last hlast =>
    obtain ⟨page, next, hfetch, hshown, _⟩ := h.page _ t hc
    obtain ⟨rfl, _⟩ := Prod.mk.inj (Except.ok.inj (hfetch.symm.trans hlast))
    -- everything is on this page
    have hlen := congrArg List.length hall
    simp only [List.map_cons, List.map_nil, List.flatten_cons, List.flatten_nil, List.append_nil,
      hshown, List.length_map, List.length_take] at hlen
    intro j e e' _ he'
    have hlt := (List.getElem?_eq_some_iff.mp he').1
    have := Nat.le_add_left n (j * (n + 1))
    omega
  | more hnext hrest ih =>
    obtain ⟨page, next, hfetch, hshown, _, _, hmore⟩ := h.page _ t hc
    obtain ⟨rfl, rfl⟩ := Prod.mk.inj (Except.ok.inj (hfetch.symm.trans hnext))
    obtain ⟨e, he, hne, hc'⟩ := hmore _ rfl
    have hlt := h.lt_length he hne
    have hshown' : (shown page) ++ ((cutAfter f l t).drop (n + 1)).map g
        = (cutAfter f l t).map g := by
      rw [hshown, ← List.map_append, List.take_append_drop]
    rw [List.map_cons, List.flatten_cons, ← hshown', List.append_cancel_left_eq] at hall
    have hhead := h.head?_of_followed hc' hrest
    have he' := List.getElem?_eq_getElem hlt
    rw [hall, List.head?_map, List.head?_drop, he', List.head?_map] at hhead
    obtain ⟨first, hfirst, hsame⟩ := Option.map_eq_some_iff.mp hhead.symm
    obtain ⟨hmem, hsent⟩ := mem_cutAfter.mp (List.mem_of_mem_head? hfirst)
    have hname := h.shows _ hmem _ (List.mem_filter.mp (List.mem_of_getElem? he')).1 hsame
    rw [hname] at hsent
    obtain ⟨hn, rfl⟩ := List.getElem?_eq_some_iff.mp he
    have hafter := List.pairwise_iff_getElem.mp (cutAfter_pairwise h.sorted t) n (n + 1) hn hlt
      (Nat.lt_succ_self n)
    have hle : f (cutAfter f l t)[n] ≤ sent (cutAfter f l t)[n] := by
      -- an element that is listed once more comes before the one that should come next
      by_contra hearly
      have hagain := mem_cutAfter.mpr
        ⟨(List.mem_filter.mp (List.mem_of_getElem? he)).1, not_le.mp hearly⟩
      obtain ⟨rest, hcut⟩ := List.head?_eq_some_iff.mp hfirst
      have hsorted := cutAfter_pairwise h.sorted (some (sent (cutAfter f l t)[n]))
      rw [hcut] at hagain hsorted
      rcases List.mem_cons.mp hagain with hsame | hagain
      · rw [← hname, ← hsame] at hafter
        exact lt_irrefl _ hafter
      · have hbefore := (List.pairwise_cons.mp hsorted).1 _ hagain
        rw [hname] at hbefore
        exact lt_asymm hbefore hafter
    have hcut := cutAfter_eq_drop h.sorted he hle fun e' he'' => by
      rw [he'] at he''
      exact Option.some.inj he'' ▸ hsent
    refine whole_iff.mpr ⟨?_, hcut ▸ ih hc' (hcut ▸ hall)⟩
    intro a a' ha ha'
    rw [he] at ha
    rw [he'] at ha'
    exact Option.some.inj ha ▸ Option.some.inj ha' ▸ ⟨hle, hsent⟩

/-- **Pages compose exactly if no boundary loses or repeats anything.** -/
theorem composes_iff (hc : At c t) :
    Composes fetch shown truncated c ((cutAfter f l t).map g) ↔
      Whole f sent n (cutAfter f l t) := by
  constructor
  · rintro ⟨pages, hpages, hall, _⟩
    exact h.whole_of_followed hc hpages hall
  · exact h.composes_of_whole hc

/-- **The pages end** if every request resumes at the mark, and they show a part of what is
    left. -/
theorem followed_sublist (hsent : ∀ e ∈ l, sent e = mark e) (hc : At c t) :
    ∃ pages, Followed fetch c pages ∧ ((pages.map shown).flatten).Sublist ((cutAfter f l t).map g) := by
  induction hm : (cutAfter f l t).length using Nat.strong_induction_on generalizing c t with
  | _ m ih =>
    obtain ⟨page, next, hfetch, hshown, _, _, hmore⟩ := h.page c t hc
    have hsplit : (cutAfter f l t).map g
        = shown page ++ ((cutAfter f l t).drop (n + 1)).map g := by
      rw [hshown, ← List.map_append, List.take_append_drop]
    cases next with
    | none =>
      refine ⟨[page], .last hfetch, ?_⟩
      rw [hsplit]
      simp
    | some c' =>
      obtain ⟨e, he, hne, hc'⟩ := hmore c' rfl
      have hmem := (List.mem_filter.mp (List.mem_of_getElem? he)).1
      have hlt := h.lt_length he hne
      rw [hsent e hmem] at hc'
      have hcut := cutAfter_eq_filter_drop h.sorted he (h.mark_le e hmem)
      have hsub : (cutAfter f l (some (mark e))).Sublist ((cutAfter f l t).drop (n + 1)) :=
        hcut ▸ List.filter_sublist
      have hless : (cutAfter f l (some (mark e))).length < m := by
        have hle := hsub.length_le
        rw [List.length_drop] at hle
        omega
      obtain ⟨pages, hpages, hrest⟩ := ih _ hless hc' rfl
      refine ⟨page :: pages, .more hfetch hpages, ?_⟩
      rw [hsplit, List.map_cons, List.flatten_cons]
      exact (List.Sublist.refl _).append (hrest.trans (hsub.map g))

end Paging

end Foundation
