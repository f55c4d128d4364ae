import Mathlib

/-!
# Computations whose failures keep the state

A `Stateful` computation reads and writes a state and may fail, and what it wrote before
the failure stays written: the meaning of a method on `&mut self` that returns a `Result`.
The weakest precondition `wp` has one postcondition for normal ends and one for failures,
so that an invariant can be weaker after a failure.  `loop` is a loop with a measure that
each round lowers, and `wp_loop` its invariant rule.  `Commutes` is the frame rule: a
computation that passes by a change of the state.
-/

namespace Foundation

/-- A computation over a state `σ` that fails with an `ε`. -/
def Stateful (σ ε α : Type) := σ → Except ε α × σ

namespace Stateful

variable {σ ε α β : Type}

/-! ## 1. The operations -/

instance : Monad (Stateful σ ε) where
  pure a := fun s => (.ok a, s)
  bind m f := fun s =>
    match m s with
    | (.ok a, s') => f a s'
    | (.error e, s') => (.error e, s')

instance : MonadStateOf σ (Stateful σ ε) where
  get := fun s => (.ok s, s)
  set s' := fun _ => (.ok ⟨⟩, s')
  modifyGet f := fun s => (.ok (f s).1, (f s).2)

instance : MonadExceptOf ε (Stateful σ ε) where
  throw e := fun s => (.error e, s)
  tryCatch m f := fun s =>
    match m s with
    | (.ok a, s') => (.ok a, s')
    | (.error e, s') => f e s'

/-- A computation that does not touch the state. -/
def ofExcept (r : Except ε α) : Stateful σ ε α := fun s => (r, s)

theorem run_pure (a : α) (s : σ) : (pure a : Stateful σ ε α) s = (.ok a, s) := rfl

theorem run_throw (e : ε) (s : σ) : (throw e : Stateful σ ε α) s = (.error e, s) := rfl

theorem run_bind (m : Stateful σ ε β) (f : β → Stateful σ ε α) (s : σ) :
    (m >>= f) s = match m s with
      | (.ok b, s') => f b s'
      | (.error e, s') => (.error e, s') := rfl

theorem run_get (s : σ) : (get : Stateful σ ε σ) s = (.ok s, s) := rfl

theorem run_modify (f : σ → σ) (s : σ) :
    (modify f : Stateful σ ε PUnit) s = (.ok ⟨⟩, f s) := rfl

theorem run_ite {c : Prop} [Decidable c] (m m' : Stateful σ ε α) (s : σ) :
    (if c then m else m') s = if c then m s else m' s := by
  split <;> rfl

/-- `loop { body }`: the body answers `none` to go on and `some a` to return `a`. -/
def loop (μ : σ → Nat) (body : Stateful σ ε (Option α))
    (hμ : ∀ {s s'}, body s = (.ok none, s') → μ s' < μ s) : Stateful σ ε α := fun s =>
  match _hs : body s with
  | (.ok none, s') => loop μ body hμ s'
  | (.ok (some a), s') => (.ok a, s')
  | (.error e, s') => (.error e, s')
termination_by s => μ s
decreasing_by exact hμ _hs

section Loop

variable {μ : σ → Nat} {body : Stateful σ ε (Option α)}
  {hμ : ∀ {s s'}, body s = (.ok none, s') → μ s' < μ s} {s s' : σ}

theorem loop_next (h : body s = (.ok none, s')) : loop μ body hμ s = loop μ body hμ s' := by
  rw [loop]
  split <;> rename_i hs <;> rw [h] at hs <;> cases hs
  rfl

theorem loop_return {a : α} (h : body s = (.ok (some a), s')) : loop μ body hμ s = (.ok a, s') := by
  rw [loop]
  split <;> rename_i hs <;> rw [h] at hs <;> cases hs
  rfl

theorem loop_fail {e : ε} (h : body s = (.error e, s')) : loop μ body hμ s = (.error e, s') := by
  rw [loop]
  split <;> rename_i hs <;> rw [h] at hs <;> cases hs
  rfl

end Loop

/-! ## 2. Weakest preconditions -/

/-- From `s` the computation ends normally in `Q`, or fails in `E`. -/
def wp (m : Stateful σ ε α) (Q : α → σ → Prop) (E : ε → σ → Prop) (s : σ) : Prop :=
  match m s with
  | (.ok a, s') => Q a s'
  | (.error e, s') => E e s'

section Rules

variable {Q : α → σ → Prop} {E : ε → σ → Prop} {s : σ}

@[simp] theorem wp_pure (a : α) : wp (pure a : Stateful σ ε α) Q E s = Q a s := rfl

@[simp] theorem wp_throw (e : ε) : wp (throw e : Stateful σ ε α) Q E s = E e s := rfl

@[simp] theorem wp_bind (m : Stateful σ ε β) (f : β → Stateful σ ε α) :
    wp (m >>= f) Q E s = wp m (fun b => wp (f b) Q E) E s := by
  simp only [wp, bind]
  cases m s with
  | mk r s' => cases r <;> rfl

@[simp] theorem wp_get {Q : σ → σ → Prop} :
    wp (get : Stateful σ ε σ) Q E s = Q s s := rfl

@[simp] theorem wp_modify {Q : PUnit → σ → Prop} (f : σ → σ) :
    wp (modify f : Stateful σ ε PUnit) Q E s = Q ⟨⟩ (f s) := rfl

@[simp] theorem wp_ite {c : Prop} [Decidable c] (m m' : Stateful σ ε α) :
    wp (if c then m else m') Q E s ↔ (c → wp m Q E s) ∧ (¬ c → wp m' Q E s) := by
  by_cases hc : c <;> simp [hc]

theorem wp_mono {m : Stateful σ ε α} {Q' : α → σ → Prop} {E' : ε → σ → Prop}
    (h : wp m Q E s) (hQ : ∀ a s', Q a s' → Q' a s') (hE : ∀ e s', E e s' → E' e s') :
    wp m Q' E' s := by
  simp only [wp] at h ⊢
  split at h
  · exact hQ _ _ h
  · exact hE _ _ h

theorem wp_run {m : Stateful σ ε α} (h : wp m Q E s) {r : Except ε α} {s' : σ}
    (hrun : m s = (r, s')) :
    match r with
    | .ok a => Q a s'
    | .error e => E e s' := by
  simp only [wp, hrun] at h
  cases r <;> exact h

/-- **Invariant rule.**  What one round of the body keeps holds when the loop ends. -/
theorem wp_loop {μ : σ → Nat} {body : Stateful σ ε (Option α)}
    {hμ : ∀ {s s'}, body s = (.ok none, s') → μ s' < μ s} (I : σ → Prop)
    (hbody : ∀ s, I s → wp body (fun o s' => match o with | none => I s' | some a => Q a s') E s)
    (hI : I s) : wp (loop μ body hμ) Q E s := by
  -- the measure that makes the loop terminate carries the induction
  induction hn : μ s using Nat.strongRecOn generalizing s with
  | ind n ih =>
    have hround := hbody s hI
    simp only [wp] at hround ⊢
    rcases hs : body s with ⟨e | (_ | a), s'⟩
    · rw [hs] at hround
      rw [loop_fail hs]
      exact hround
    · rw [hs] at hround
      rw [loop_next hs]
      exact ih (μ s') (hn ▸ hμ hs) hround rfl
    · rw [hs] at hround
      rw [loop_return hs]
      exact hround

end Rules

/-! ## 3. Computations that do not look at a part of the state -/

/-- The computation does the same before and after `f`: it neither reads nor writes what `f`
    changes. -/
def Commutes (f : σ → σ) (m : Stateful σ ε α) : Prop :=
  ∀ s, m (f s) = ((m s).1, f (m s).2)

section Commutes

variable {f : σ → σ}

theorem commutes_pure (a : α) : Commutes f (pure a : Stateful σ ε α) := fun _ => rfl

theorem commutes_throw (e : ε) : Commutes f (throw e : Stateful σ ε α) := fun _ => rfl

theorem Commutes.bind {m : Stateful σ ε β} {g : β → Stateful σ ε α} (hm : Commutes f m)
    (hg : ∀ b, Commutes f (g b)) : Commutes f (m >>= g) := by
  intro s
  simp only [Bind.bind, hm s]
  rcases m s with ⟨e | b, s'⟩
  · rfl
  · exact hg b s'

theorem Commutes.ite {c : Prop} [Decidable c] {m m' : Stateful σ ε α} (hm : Commutes f m)
    (hm' : Commutes f m') : Commutes f (if c then m else m') := by
  split
  · exact hm
  · exact hm'

theorem commutes_modify {g : σ → σ} (h : ∀ s, g (f s) = f (g s)) :
    Commutes f (modify g : Stateful σ ε PUnit) := fun s => congrArg (Prod.mk _) (h s)

/-- The state may be read, as long as the rest does not depend on what `f` changes. -/
theorem Commutes.get_bind {g : σ → Stateful σ ε α} (hsame : ∀ s, g (f s) = g s)
    (hg : ∀ s, Commutes f (g s)) : Commutes f (get >>= g) := by
  intro s
  change g (f s) (f s) = _
  rw [hsame]
  exact hg s s

end Commutes

end Stateful

end Foundation
