import Mathlib

/-!
# Computations that may fail

`Except` read as a result type: the checks a function makes before it goes on, the rules that
invert a successful run into what each of its steps returned, the relation of two
computations that never succeed with different values, and computations that have one
possible error.
-/

namespace Foundation

variable {ε ε' α β : Type}

variable {x y : Except ε α} {f : α → Except ε β} {a : α}

/-! ## 1. Checks -/

def okOr (e : ε) : Option α → Except ε α
  | some a => .ok a
  | none => .error e

def ensure (condition : Prop) [Decidable condition] (e : ε) : Except ε Unit :=
  if condition then .ok () else .error e

/-! ## 2. Inversion -/

@[simp] theorem ok_bind (a : α) (f : α → Except ε β) : ((.ok a : Except ε α) >>= f) = f a := rfl

@[simp] theorem bind_eq_ok {b : β} : (x >>= f) = .ok b ↔ ∃ a, x = .ok a ∧ f a = .ok b := by
  cases x <;> simp [bind, Except.bind]

@[simp] theorem pure_eq_ok {b : α} : (pure a : Except ε α) = .ok b ↔ a = b := by
  simp [pure, Except.pure]

@[simp] theorem map_eq_ok {f : α → β} {b : β} : (f <$> x) = .ok b ↔ ∃ a, x = .ok a ∧ f a = b := by
  cases x <;> simp [Functor.map, Except.map]

@[simp] theorem throw_ne_ok {e : ε} : (throw e : Except ε α) = .ok a ↔ False := by
  simp [throw, throwThe, MonadExceptOf.throw]

@[simp] theorem okOr_eq_ok {e : ε} {x : Option α} : okOr e x = .ok a ↔ x = some a := by
  cases x <;> simp [okOr]

@[simp] theorem ensure_eq_ok {condition : Prop} [Decidable condition] {e : ε} {u : Unit} :
    ensure condition e = .ok u ↔ condition := by
  unfold ensure
  split <;> simp_all

@[simp] theorem mapError_eq_ok {f : ε → ε'} : x.mapError f = .ok a ↔ x = .ok a := by
  cases x <;> simp [Except.mapError]

theorem forM_eq_ok {f : α → Except ε Unit} {as : List α} :
    as.forM f = .ok () ↔ ∀ a ∈ as, f a = .ok () := by
  induction as with
  | nil => simp [pure, Except.pure]
  | cons a as ih =>
    show (f a >>= fun _ => as.forM f) = .ok () ↔ _
    rw [bind_eq_ok, List.forall_mem_cons, ← ih]
    constructor
    · rintro ⟨_, ha, has⟩
      exact ⟨ha, has⟩
    · rintro ⟨ha, has⟩
      exact ⟨(), ha, has⟩

theorem mapM_eq_ok {l : List α} {bs : List β} :
    l.mapM f = .ok bs ↔ List.Forall₂ (fun a b => f a = .ok b) l bs := by
  induction l generalizing bs with
  | nil =>
    simp only [List.mapM_nil, List.forall₂_nil_left_iff, pure_eq_ok]
    exact eq_comm
  | cons a l ih =>
    simp only [List.mapM_cons, bind_eq_ok, pure_eq_ok, ih, List.forall₂_cons_left_iff]
    constructor
    · rintro ⟨b, hb, bs', hbs', rfl⟩
      exact ⟨b, bs', hb, hbs', rfl⟩
    · rintro ⟨b, bs', hb, hbs', rfl⟩
      exact ⟨b, hb, bs', hbs', rfl⟩

theorem mem_of_mapM {as : List α} {bs : List β} (h : as.mapM f = .ok bs) (ha : a ∈ as) :
    ∃ b ∈ bs, f a = .ok b := by
  rw [mapM_eq_ok] at h
  induction h with
  | nil => cases ha
  | @cons _ b _ _ hb _ ih =>
    rcases List.mem_cons.mp ha with rfl | ha
    · exact ⟨b, List.mem_cons_self, hb⟩
    · rcases ih ha with ⟨b', hmem, hb'⟩
      exact ⟨b', List.mem_cons_of_mem _ hmem, hb'⟩

/-! ## 3. Agreement -/

/-- A relation between two computations that sequencing respects. -/
structure Compatible (R : ∀ α : Type, Except ε α → Except ε α → Prop) : Prop where
  refl : ∀ {α : Type} (x : Except ε α), R α x x
  bind : ∀ {α β : Type} {x y : Except ε α} {f g : α → Except ε β}, R α x y →
    (∀ a, x = .ok a → R β (f a) (g a)) → R β (x >>= f) (y >>= g)

theorem Compatible.ite {R : ∀ α : Type, Except ε α → Except ε α → Prop} {condition : Prop}
    [Decidable condition] {x' y' : Except ε α} (h : R α x x') (h' : R α y y') :
    R α (if condition then x else y) (if condition then x' else y') := by
  split
  · exact h
  · exact h'

/-- The two never succeed with different values. -/
def Agree (x y : Except ε α) : Prop := ∀ a b, x = .ok a → y = .ok b → a = b

theorem Agree.unit (x y : Except ε Unit) : Agree x y := fun _ _ _ _ => rfl

theorem Agree.compatible : Compatible (ε := ε) fun _ => Agree where
  refl x := by
    intro a b ha hb
    rw [ha] at hb
    exact Except.ok.inj hb
  bind h hf := by
    intro b b' hb hb'
    rcases bind_eq_ok.mp hb with ⟨a, hx, hfa⟩
    rcases bind_eq_ok.mp hb' with ⟨a', hy, hga⟩
    rw [← h a a' hx hy] at hga
    exact hf a hx b b' hfa hga

/-- Whatever the first gives, the second gives too. -/
def Carries (x y : Except ε α) : Prop := ∀ a, x = .ok a → y = .ok a

theorem Carries.compatible : Compatible (ε := ε) fun _ => Carries where
  refl _ _ h := h
  bind h hf := by
    intro b hb
    rcases bind_eq_ok.mp hb with ⟨a, hx, hfa⟩
    exact bind_eq_ok.mpr ⟨a, h a hx, hf a hx b hfa⟩

/-! ## 4. One possible error -/

/-- The value; or the error, and then `N` holds. -/
def OkUnless (N : Prop) (e : ε) (a : α) (x : Except ε α) : Prop :=
  x = .ok a ∨ N ∧ x = .error e

namespace OkUnless

variable {N : Prop} {e : ε}

theorem ok (a : α) : OkUnless N e a (.ok a) := Or.inl rfl

theorem eq_ok (h : OkUnless N e a x) (hN : ¬ N) : x = .ok a := by
  rcases h with h | h
  · exact h
  · exact absurd h.1 hN

theorem eq_error (h : OkUnless N e a x) {e' : ε} (he : x = .error e') : e' = e := by
  rcases h with h | h
  · rw [h] at he
    cases he
  · rw [h.2] at he
    exact (Except.error.inj he).symm

theorem bind {b : β} (hx : OkUnless N e a x) (hf : OkUnless N e b (f a)) :
    OkUnless N e b (x >>= f) := by
  rcases hx with hx | ⟨hN, hx⟩
  · rw [hx]
    exact hf
  · rw [hx]
    exact Or.inr ⟨hN, rfl⟩

theorem mapM {as : List α} {l : List β} (h : List.Forall₂ (fun a b => OkUnless N e b (f a)) as l) :
    OkUnless N e l (as.mapM f) := by
  induction h with
  | nil => exact ok []
  | cons h _ ih =>
    rw [List.mapM_cons]
    exact bind h (bind ih (ok _))

end OkUnless

end Foundation
