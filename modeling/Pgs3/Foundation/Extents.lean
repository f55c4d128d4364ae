import Mathlib

/-!
# Stores of shared content

A store maps keys to nodes.  A node is a piece of data, or a list of extents: ranges of
the contents of other keys, one after the other.  The content of a key is what unbounded
expansion gives; `expand` does it to a given height.  The store may share nodes, and
nothing in its type rules out missing keys or cycles: `Content` says that neither occurs
below a key.

The lemmas are those that a program needs that adds nodes, drops nodes and reads: content
is unique, depends on the nodes below a key only, is built up from the contents of the
sources, and excludes cycles.
-/

namespace Foundation.Extents

/-- A range of the content of `source`. -/
structure Extent (κ : Type) where
  source : κ
  offset : Nat
  length : Nat

inductive Node (κ α : Type) where
  | leaf (data : List α)
  | concat (extents : List (Extent κ))

abbrev Store (κ α : Type) := κ → Option (Node κ α)

variable {κ α : Type}

def slice (data : List α) (offset length : Nat) : List α := (data.drop offset).take length

theorem slice_whole (data : List α) : slice data 0 data.length = data := by
  rw [slice, List.drop_zero, List.take_length]

variable {offset : Nat}

theorem length_slice {data : List α} {length : Nat} (h : offset + length ≤ data.length) :
    (slice data offset length).length = length := by
  rw [slice, List.length_take, List.length_drop]
  omega

theorem flatten_pieces (data : List α) (n m : Nat) :
    ((List.range m).map fun i => (data.drop (i * n)).take n).flatten = data.take (m * n) := by
  induction m with
  | zero => simp
  | succ m ih =>
    rw [List.range_succ, List.map_append, List.flatten_append, ih, List.map_singleton,
      List.flatten_singleton, Nat.succ_mul, List.take_add]

variable {n : Nat}

theorem flatten_pieces_all (data : List α) (hn : 0 < n) :
    ((List.range ((data.length - 1) / n + 1)).map fun i => (data.drop (i * n)).take n).flatten
      = data := by
  rw [flatten_pieces]
  refine List.take_of_length_le ?_
  have h := Nat.lt_div_mul_add (a := data.length - 1) hn
  rw [Nat.succ_mul]
  omega

theorem map_eq_map_of_forall₂ {β γ δ : Type} {f : β → δ} {g : γ → δ} {l : List β} {l' : List γ}
    (h : List.Forall₂ (fun a b => f a = g b) l l') : l.map f = l'.map g := by
  induction h with
  | nil => rfl
  | cons h _ ih => rw [List.map_cons, List.map_cons, h, ih]

theorem exists_mem_of_forall₂ {β γ : Type} {R : β → γ → Prop} {l : List β} {l' : List γ}
    (h : List.Forall₂ R l l') {a : β} (ha : a ∈ l) : ∃ b ∈ l', R a b := by
  induction h with
  | nil => exact absurd ha (by simp)
  | @cons x y _ _ h _ ih =>
    rcases List.mem_cons.mp ha with rfl | ha
    · exact ⟨y, List.mem_cons_self, h⟩
    · obtain ⟨b, hb, hab⟩ := ih ha
      exact ⟨b, List.mem_cons_of_mem _ hb, hab⟩

theorem forall₂_unique {β γ : Type} {R S : β → γ → Prop} (hRS : ∀ a b c, R a b → S a c → b = c)
    {l : List β} {l₁ l₂ : List γ} (h₁ : List.Forall₂ R l l₁) (h₂ : List.Forall₂ S l l₂) :
    l₁ = l₂ := by
  induction h₁ generalizing l₂ with
  | nil =>
    cases h₂
    rfl
  | cons h _ ih =>
    cases h₂ with
    | cons h' hrest' => rw [hRS _ _ _ h h', ih hrest']

theorem exists_forall₂ {β γ : Type} {R : β → γ → Prop} {l : List β}
    (h : ∀ a ∈ l, ∃ b, R a b) : ∃ l', List.Forall₂ R l l' := by
  induction l with
  | nil => exact ⟨[], .nil⟩
  | cons a l ih =>
    obtain ⟨b, hb⟩ := h a List.mem_cons_self
    obtain ⟨l', hl'⟩ := ih fun a ha => h a (List.mem_cons_of_mem _ ha)
    exact ⟨b :: l', .cons hb hl'⟩

theorem forall₂_filter {β γ : Type} {R : β → γ → Prop} {p : β → Bool} {q : γ → Bool}
    (hpq : ∀ a b, R a b → p a = q b) {l : List β} {l' : List γ} (h : List.Forall₂ R l l') :
    List.Forall₂ R (l.filter p) (l'.filter q) := by
  induction h with
  | nil => exact .nil
  | @cons a b _ _ hab _ ih =>
    rw [List.filter_cons, List.filter_cons, hpq a b hab]
    split
    · exact .cons hab ih
    · exact ih

/-! ## 1. Expansion -/

/-- The ranges of the extents, cut out of what `f` gives for their sources. -/
def gather (f : κ → Option (List α)) : List (Extent κ) → Option (List α)
  | [] => some []
  | e :: rest =>
      match f e.source, gather f rest with
      | some d, some ds => some (slice d e.offset e.length ++ ds)
      | _, _ => none

/-- Expansion of a key to a height below `n`. -/
def expand (g : Store κ α) : Nat → κ → Option (List α)
  | 0, _ => none
  | n + 1, k =>
      match g k with
      | none => none
      | some (.leaf data) => some data
      | some (.concat es) => gather (expand g n) es

/-- The content of a key. -/
def Content (g : Store κ α) (k : κ) (d : List α) : Prop := ∃ n, expand g n k = some d

/-- `Gathers R es d`: `d` is made of ranges of data that `R` gives for the sources. -/
inductive Gathers (R : κ → List α → Prop) : List (Extent κ) → List α → Prop
  | nil : Gathers R [] []
  | cons {e : Extent κ} {rest : List (Extent κ)} {d ds : List α} (h : R e.source d)
      (hrest : Gathers R rest ds) : Gathers R (e :: rest) (slice d e.offset e.length ++ ds)

theorem gather_eq_some_iff {f : κ → Option (List α)} {es : List (Extent κ)} {d : List α} :
    gather f es = some d ↔ Gathers (fun k d => f k = some d) es d := by
  constructor
  · intro h
    induction es generalizing d with
    | nil =>
      obtain rfl := Option.some.inj h
      exact .nil
    | cons e rest ih =>
      unfold gather at h
      split at h
      · rename_i x xs hx hxs
        obtain rfl := Option.some.inj h
        exact .cons hx (ih hxs)
      · exact absurd h (by simp)
  · intro h
    induction h with
    | nil => rfl
    | cons h _ ih => simp only [gather, h, ih]

theorem Gathers.mono {R R' : κ → List α → Prop} {es : List (Extent κ)} {d : List α}
    (h : Gathers R es d) (hR : ∀ e ∈ es, ∀ d, R e.source d → R' e.source d) : Gathers R' es d := by
  induction h with
  | nil => exact .nil
  | cons h _ ih =>
    refine .cons (hR _ List.mem_cons_self _ h) (ih fun e he => ?_)
    exact hR e (List.mem_cons_of_mem _ he)

theorem Gathers.source {R : κ → List α → Prop} {es : List (Extent κ)} {d : List α}
    (h : Gathers R es d) {e : Extent κ} (he : e ∈ es) : ∃ x, R e.source x := by
  induction h with
  | nil => exact absurd he (by simp)
  | cons h _ ih =>
    rcases List.mem_cons.mp he with rfl | he
    · exact ⟨_, h⟩
    · exact ih he

theorem Gathers.whole {R : κ → List α → Prop} {es : List (Extent κ)} {ds : List (List α)}
    (h : List.Forall₂ (fun e d => R e.source d ∧ e.offset = 0 ∧ e.length = d.length) es ds) :
    Gathers R es ds.flatten := by
  induction h with
  | nil => exact .nil
  | @cons e d es ds h _ ih =>
    obtain ⟨hd, ho, hl⟩ := h
    have hslice : slice d e.offset e.length = d := by rw [ho, hl, slice_whole]
    have hcons := Gathers.cons hd ih
    rwa [hslice] at hcons

/-! ## 2. Content -/

theorem expand_succ {g : Store κ α} {k : κ} {d : List α} (h : expand g n k = some d) :
    expand g (n + 1) k = some d := by
  induction n generalizing k d with
  | zero => exact absurd h (by simp [expand])
  | succ n ih =>
    unfold expand at h ⊢
    split at h
    · exact absurd h (by simp)
    · exact h
    · rw [gather_eq_some_iff] at h ⊢
      exact h.mono fun e _ d hd => ih hd

variable {m : Nat}

theorem expand_mono {g : Store κ α} (hnm : n ≤ m) {k : κ} {d : List α} (h : expand g n k = some d) :
    expand g m k = some d := by
  obtain ⟨j, rfl⟩ := Nat.exists_eq_add_of_le hnm
  induction j with
  | zero => exact h
  | succ j ih => exact expand_succ (ih (Nat.le_add_right n j))

theorem Content.unique {g : Store κ α} {k : κ} {d d' : List α} (h : Content g k d)
    (h' : Content g k d') : d = d' := by
  obtain ⟨n, hn⟩ := h
  obtain ⟨m, hm⟩ := h'
  have h₁ := expand_mono (Nat.le_max_left n m) hn
  have h₂ := expand_mono (Nat.le_max_right n m) hm
  exact Option.some.inj (h₁.symm.trans h₂)

theorem content_leaf {g : Store κ α} {k : κ} {data d : List α}
    (hk : g k = some (.leaf data)) : Content g k d ↔ d = data := by
  constructor
  · rintro ⟨n, hn⟩
    cases n with
    | zero => exact absurd hn (by simp [expand])
    | succ n =>
      simp only [expand, hk] at hn
      exact (Option.some.inj hn).symm
  · rintro rfl
    exact ⟨1, by simp only [expand, hk]⟩

theorem Gathers.exists_height {g : Store κ α} {es : List (Extent κ)} {d : List α}
    (h : Gathers (Content g) es d) : ∃ n, Gathers (fun k d => expand g n k = some d) es d := by
  induction h with
  | nil => exact ⟨0, .nil⟩
  | cons h _ ih =>
    obtain ⟨n, hn⟩ := h
    obtain ⟨m, hm⟩ := ih
    refine ⟨max n m, .cons (expand_mono (Nat.le_max_left n m) hn) (hm.mono fun e _ d hd => ?_)⟩
    exact expand_mono (Nat.le_max_right n m) hd

theorem content_concat {g : Store κ α} {k : κ} {es : List (Extent κ)} {d : List α}
    (hk : g k = some (.concat es)) : Content g k d ↔ Gathers (Content g) es d := by
  constructor
  · rintro ⟨n, hn⟩
    cases n with
    | zero => exact absurd hn (by simp [expand])
    | succ n =>
      simp only [expand, hk] at hn
      exact (gather_eq_some_iff.mp hn).mono fun e _ d hd => ⟨n, hd⟩
  · intro h
    obtain ⟨n, hn⟩ := h.exists_height
    refine ⟨n + 1, ?_⟩
    simp only [expand, hk]
    exact gather_eq_some_iff.mpr hn

/-! ## 3. What content depends on -/

/-- `k'` is a source of `k`. -/
def Edge (g : Store κ α) (k k' : κ) : Prop :=
  ∃ es, g k = some (.concat es) ∧ ∃ e ∈ es, e.source = k'

/-- **Frame.**  Stores that agree on a set of keys closed under sources give its keys the
    same content. -/
theorem expand_congr {g g' : Store κ α} {P : κ → Prop} (hsame : ∀ k, P k → g' k = g k)
    (hclosed : ∀ k k', P k → Edge g k k' → P k') (n : Nat) {k : κ} (hk : P k) :
    expand g' n k = expand g n k := by
  induction n generalizing k with
  | zero => rfl
  | succ n ih =>
    simp only [expand, hsame k hk]
    cases hg : g k with
    | none => rfl
    | some node =>
      cases node with
      | leaf data => rfl
      | concat es =>
        have hes : ∀ e ∈ es, expand g' n e.source = expand g n e.source :=
          fun e he => ih (hclosed k _ hk ⟨es, hg, e, he, rfl⟩)
        refine Option.ext fun d => ?_
        simp only [gather_eq_some_iff]
        constructor
        · exact fun h => h.mono fun e he d hd => (hes e he) ▸ hd
        · exact fun h => h.mono fun e he d hd => (hes e he).symm ▸ hd

theorem Content.congr {g g' : Store κ α} {P : κ → Prop} (hsame : ∀ k, P k → g' k = g k)
    (hclosed : ∀ k k', P k → Edge g k k' → P k') {k : κ} (hk : P k) {d : List α} :
    Content g' k d ↔ Content g k d := by
  constructor
  · rintro ⟨n, hn⟩
    exact ⟨n, by rwa [expand_congr hsame hclosed n hk] at hn⟩
  · rintro ⟨n, hn⟩
    exact ⟨n, by rwa [expand_congr hsame hclosed n hk]⟩

/-- A key with content has no infinite path below it. -/
theorem Content.acc {g : Store κ α} {k : κ} {d : List α} (h : Content g k d) :
    Acc (fun a b => Edge g b a) k := by
  obtain ⟨n, hn⟩ := h
  induction n generalizing k d with
  | zero => exact absurd hn (by simp [expand])
  | succ n ih =>
    refine ⟨k, ?_⟩
    rintro k' ⟨es, hes, e, he, rfl⟩
    simp only [expand, hes] at hn
    obtain ⟨x, hx⟩ := (gather_eq_some_iff.mp hn).source he
    exact ih hx

/-- **No cycles.**  A key with content is not below itself. -/
theorem Content.acyclic {g : Store κ α} {k : κ} {d : List α} (h : Content g k d) :
    ¬ Relation.TransGen (Edge g) k k := by
  have hacc := h.acc
  clear h
  induction hacc with
  | intro k _ ih =>
    intro hcycle
    -- the cycle also goes through the next key on it
    obtain ⟨k', hstep, hback⟩ := Relation.TransGen.head'_iff.mp hcycle
    exact ih k' hstep (Relation.TransGen.tail'_iff.mpr ⟨k, hback, hstep⟩)

/-! ## 4. Nesting -/

def Node.extents : Node κ α → List (Extent κ)
  | .leaf _ => []
  | .concat es => es

/-- At most `n` nodes lie on a path down from the key; extents of no length are not
    followed. -/
def Within (g : Store κ α) : Nat → κ → Prop
  | 0, _ => False
  | n + 1, k => ∃ node, g k = some node ∧ ∀ e ∈ node.extents, 0 < e.length → Within g n e.source

theorem Within.succ {g : Store κ α} {k : κ} (h : Within g n k) : Within g (n + 1) k := by
  induction n generalizing k with
  | zero => exact h.elim
  | succ n ih =>
    obtain ⟨node, hg, hsources⟩ := h
    exact ⟨node, hg, fun e he hpos => ih (hsources e he hpos)⟩

theorem Within.mono {g : Store κ α} (hnm : n ≤ m) {k : κ} (h : Within g n k) : Within g m k := by
  obtain ⟨j, rfl⟩ := Nat.exists_eq_add_of_le hnm
  induction j with
  | zero => exact h
  | succ j ih => exact (ih (Nat.le_add_right n j)).succ

theorem within_leaf {g : Store κ α} {k : κ} {data : List α} (hg : g k = some (.leaf data))
    (n : Nat) : Within g (n + 1) k :=
  ⟨.leaf data, hg, fun _ he => absurd he List.not_mem_nil⟩

theorem within_concat {g : Store κ α} {k : κ} {es : List (Extent κ)}
    (hg : g k = some (.concat es)) :
    Within g (n + 1) k ↔ ∀ e ∈ es, 0 < e.length → Within g n e.source := by
  constructor
  · rintro ⟨node, hnode, hsources⟩
    obtain rfl := Option.some.inj (hg.symm.trans hnode)
    exact hsources
  · exact fun hsources => ⟨.concat es, hg, hsources⟩

/-- `k'` is a source of `k` that gives it at least one element. -/
def Follows (g : Store κ α) (k k' : κ) : Prop :=
  ∃ es, g k = some (.concat es) ∧ ∃ e ∈ es, 0 < e.length ∧ e.source = k'

/-! ## 5. Windows -/

/-- What lies in the positions `a … z - 1` of data that starts at position `offset`. -/
def window (offset : Nat) (data : List α) (a z : Nat) : List α :=
  (data.take (z - offset)).drop (a - offset)

theorem window_append (offset : Nat) (d ds : List α) (a z : Nat) : window offset (d ++ ds) a z
      = window offset d a z ++ window (offset + d.length) ds a z := by
  unfold window
  rw [List.take_append, List.drop_append, List.length_take]
  congr 1
  by_cases h : d.length ≤ z - offset
  · rw [Nat.min_eq_right h, Nat.sub_sub, Nat.sub_sub]
  · -- the window ends before `ds` starts
    have hz : z - offset - d.length = 0 := by omega
    have hz' : z - (offset + d.length) = 0 := by omega
    rw [hz, hz', List.take_zero, List.drop_nil, List.drop_nil]

variable {a z : Nat}

theorem window_eq_nil {data : List α} (h : z ≤ offset ∨ offset + data.length ≤ a) :
    window offset data a z = [] := by
  unfold window
  rw [List.drop_eq_nil_iff, List.length_take]
  omega

theorem window_eq_self {data : List α} (ha : a ≤ offset) (hz : offset + data.length ≤ z) :
    window offset data a z = data := by
  unfold window
  rw [Nat.sub_eq_zero_of_le ha, List.drop_zero]
  exact List.take_of_length_le (by omega)

theorem window_zero (data : List α) (a z : Nat) : window 0 data a z = slice data a (z - a) := by
  unfold window slice
  rw [Nat.sub_zero, Nat.sub_zero, List.drop_take]

theorem length_window_zero {data : List α} (hz : z ≤ data.length) :
    (window 0 data a z).length = z - a := by
  rw [window, List.length_drop, List.length_take]
  omega

/-- The window of data that starts at `offset`, in positions of that data. -/
theorem window_shift (offset : Nat) (data : List α) (a z : Nat) : window offset data a z
      = window 0 data (max a offset - offset) (min z (offset + data.length) - offset) := by
  have ha : max a offset - offset = a - offset := by omega
  have hz : min z (offset + data.length) - offset = min (z - offset) data.length := by omega
  unfold window
  rw [ha, hz, Nat.sub_zero, Nat.sub_zero, List.take_eq_take_min]

theorem slice_window {data : List α} {a' z' : Nat} (ha : a' ≤ a) (hz : z ≤ z') :
    slice (window 0 data a' z') (a - a') (z - a) = window 0 data a z := by
  simp only [slice, window, Nat.sub_zero, List.drop_drop, List.drop_take, List.take_take]
  congr 1
  · omega
  · congr 1
    omega

theorem window_trans (data : List α) (ham : a ≤ m) (hmz : m ≤ z) :
    window 0 data a m ++ window 0 data m z = window 0 data a z := by
  simp only [window_zero, slice]
  have hsplit : z - a = (m - a) + (z - m) := by omega
  have hdrop : data.drop m = (data.drop a).drop (m - a) := by
    rw [List.drop_drop]
    congr 1
    omega
  rw [hsplit, List.take_add, hdrop]

theorem window_slice {data : List α} {skip count : Nat} (hfit : skip + count ≤ data.length)
    (offset a z : Nat) : window offset (slice data skip count) a z
      = window 0 data (skip + (max a offset - offset))
          (skip + (min z (offset + count) - offset)) := by
  rw [window_shift, length_slice hfit]
  generalize max a offset - offset = i
  have hj : min z (offset + count) - offset ≤ count := by omega
  generalize min z (offset + count) - offset = j at hj
  simp only [window_zero, slice, List.drop_take, List.take_take, List.drop_drop]
  congr 1
  omega

end Foundation.Extents
