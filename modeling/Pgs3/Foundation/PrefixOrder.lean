import Mathlib

/-!
# Prefixes in the lexicographic order

The words that start with `p` are an interval of the lexicographic order.  It begins with
`p` itself.  Where it ends depends on the alphabet: if every letter but the greatest has a
successor, the interval ends before the word that `endOfPrefix` computes, or nowhere.
-/

namespace Foundation

variable {α : Type} [LinearOrder α]

/-! ## 1. Letter by letter -/

theorem lex_nil_le (k : List α) : [] ≤ k := by
  cases k with
  | nil => exact le_refl _
  | cons a k => exact le_of_lt List.Lex.nil

theorem lex_cons_lt_cons {a b : α} {p k : List α} : a :: p < b :: k ↔ a < b ∨ a = b ∧ p < k :=
  List.cons_lt_cons_iff

theorem lex_cons_le_cons {a b : α} {p k : List α} : a :: p ≤ b :: k ↔ a < b ∨ a = b ∧ p ≤ k := by
  rw [← not_lt, lex_cons_lt_cons, ← not_lt (b := p)]
  constructor
  · intro h
    rcases lt_trichotomy a b with hab | rfl | hab
    · exact Or.inl hab
    · exact Or.inr ⟨rfl, fun hk => h (Or.inr ⟨rfl, hk⟩)⟩
    · exact absurd (Or.inl hab) h
  · rintro (hab | ⟨rfl, hk⟩) (hba | ⟨hba, hkp⟩)
    · exact lt_asymm hab hba
    · exact lt_irrefl b (hba ▸ hab)
    · exact lt_irrefl _ hba
    · exact hk hkp

theorem not_lex_cons_le_nil {a : α} {p : List α} : ¬ a :: p ≤ [] :=
  not_le_of_gt List.Lex.nil

theorem lex_append_lt_append {β : Type} [LT β] {p q k l : List β} (h : p.length = q.length) :
    p ++ k < q ++ l ↔ p < q ∨ p = q ∧ k < l := by
  induction p generalizing q with
  | nil =>
    rw [List.length_eq_zero_iff.mp h.symm]
    simp
  | cons a p ih =>
    cases q with
    | nil => cases h
    | cons b q =>
      rw [List.cons_append, List.cons_append, List.cons_lt_cons_iff,
        List.cons_lt_cons_iff, ih (Nat.succ.inj h)]
      simp only [List.cons.injEq]
      tauto

/-! ## 2. The interval of a prefix -/

theorem le_of_isPrefix {p k : List α} (h : p <+: k) : p ≤ k := by
  induction p generalizing k with
  | nil => exact lex_nil_le k
  | cons a p ih =>
    obtain ⟨t, rfl⟩ := h
    exact lex_cons_le_cons.mpr (Or.inr ⟨rfl, ih (List.prefix_append p t)⟩)

/-- **The words that start with `p` are an interval.** -/
theorem isPrefix_of_between {p x k : List α} (h : p <+: k) (hpx : p ≤ x) (hxk : x ≤ k) :
    p <+: x := by
  induction p generalizing x k with
  | nil => exact List.nil_prefix
  | cons a p ih =>
    obtain ⟨t, rfl⟩ := h
    cases x with
    | nil => exact absurd hpx not_lex_cons_le_nil
    | cons b x =>
      rw [List.cons_append] at hxk
      rcases lex_cons_le_cons.mp hpx with hab | ⟨rfl, hpx'⟩
      · -- the first letter of `x` would lie strictly between two equal ones
        rcases lex_cons_le_cons.mp hxk with hba | ⟨rfl, _⟩
        · exact absurd hba (lt_asymm hab)
        · exact absurd hab (lt_irrefl _)
      · rcases lex_cons_le_cons.mp hxk with hbb | ⟨_, hxk'⟩
        · exact absurd hbb (lt_irrefl _)
        · exact List.cons_prefix_cons.mpr ⟨rfl, ih (List.prefix_append p t) hpx' hxk'⟩

/-- `next` gives each letter's successor, and nothing for a greatest letter. -/
structure IsSuccessor (next : α → Option α) : Prop where
  lt_iff : ∀ {a b}, next a = some b → ∀ x, x < b ↔ x ≤ a
  top : ∀ {a}, next a = none → ∀ x, x ≤ a

/-- The least word after all words that start with the given one. -/
def endOfPrefix (next : α → Option α) : List α → Option (List α)
  | [] => none
  | a :: p =>
      match endOfPrefix next p with
      | some e => some (a :: e)
      | none => (next a).map fun b => [b]

variable {next : α → Option α}

theorem isPrefix_cons_of_le {a b : α} {p k : List α} (hpk : a :: p ≤ b :: k) (hba : b ≤ a)
    (ih : p ≤ k → p <+: k) : a :: p <+: b :: k := by
  rcases lex_cons_le_cons.mp hpk with hab | ⟨rfl, htail⟩
  · exact absurd hba (not_le_of_gt hab)
  · exact List.cons_prefix_cons.mpr ⟨rfl, ih htail⟩

/-- **A prefix by two comparisons.** -/
theorem isPrefix_iff (hnext : IsSuccessor next) {p k : List α} :
    p <+: k ↔ p ≤ k ∧ ∀ e, endOfPrefix next p = some e → k < e := by
  induction p generalizing k with
  | nil => exact ⟨fun h => ⟨le_of_isPrefix h, by simp [endOfPrefix]⟩, fun _ => List.nil_prefix⟩
  | cons a p ih =>
    cases k with
    | nil =>
      constructor
      · intro h
        exact absurd (List.prefix_nil.mp h) (by simp)
      · exact fun h => absurd h.1 not_lex_cons_le_nil
    | cons b k =>
      constructor
      · intro h
        refine ⟨le_of_isPrefix h, fun e he => ?_⟩
        obtain ⟨rfl, hpk⟩ := List.cons_prefix_cons.mp h
        cases hp : endOfPrefix next p with
        | some e' =>
          simp only [endOfPrefix, hp, Option.some.injEq] at he
          subst he
          exact lex_cons_lt_cons.mpr (Or.inr ⟨rfl, (ih.mp hpk).2 e' hp⟩)
        | none =>
          simp only [endOfPrefix, hp, Option.map_eq_some_iff] at he
          obtain ⟨c, hc, rfl⟩ := he
          exact lex_cons_lt_cons.mpr (Or.inl ((hnext.lt_iff hc a).mpr (le_refl a)))
      · rintro ⟨hle, hend⟩
        cases hp : endOfPrefix next p with
        | some e' =>
          have hlt := hend (a :: e') (by simp [endOfPrefix, hp])
          rcases lex_cons_lt_cons.mp hlt with hba | ⟨rfl, hke⟩
          · exact isPrefix_cons_of_le hle (le_of_lt hba) fun hpk =>
              absurd hle (not_le_of_gt (lex_cons_lt_cons.mpr (Or.inl hba)))
          · refine isPrefix_cons_of_le hle (le_refl b) fun hpk => ih.mpr ⟨hpk, fun e he => ?_⟩
            rw [hp] at he
            exact Option.some.inj he ▸ hke
        | none =>
          have hpk : p ≤ k → p <+: k := fun hpk => ih.mpr ⟨hpk, by simp [hp]⟩
          cases hc : next a with
          | none => exact isPrefix_cons_of_le hle (hnext.top hc b) hpk
          | some c =>
            have hlt := hend [c] (by simp [endOfPrefix, hp, hc])
            rcases lex_cons_lt_cons.mp hlt with hbc | ⟨_, hnil⟩
            · exact isPrefix_cons_of_le hle ((hnext.lt_iff hc b).mp hbc) hpk
            · exact absurd (lex_nil_le k) (not_le_of_gt hnil)

omit [LinearOrder α] in
theorem endOfPrefix_eq_none {p : List α} : endOfPrefix next p = none ↔ ∀ a ∈ p, next a = none := by
  induction p with
  | nil => simp [endOfPrefix]
  | cons a p ih =>
    rw [List.forall_mem_cons, ← ih]
    cases hp : endOfPrefix next p <;> simp [endOfPrefix, hp]

omit [LinearOrder α] in
/-- Computed from the last letter: the last one with a successor is raised. -/
theorem endOfPrefix_append_singleton (p : List α) (a : α) :
    endOfPrefix next (p ++ [a])
      = match next a with
        | some b => some (p ++ [b])
        | none => endOfPrefix next p := by
  induction p with
  | nil => cases h : next a <;> simp [endOfPrefix, h]
  | cons c p ih =>
    cases h : next a with
    | some b => simp [endOfPrefix, ih, h]
    | none => simp [endOfPrefix, ih, h]

end Foundation
