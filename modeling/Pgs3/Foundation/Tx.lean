import Pgs3.Foundation.Fallible

/-!
# Transactions: a state and error monad with rules for what a committed run did

A transaction `Tx σ ε α` reads and writes a state `σ`, may raise an error `ε`, and
returns an `α`.  Raising throws away the writes: `Tx.commit` runs a transaction against
the committed state and leaves that state alone when the body raised.

Two ways of reasoning are provided.

* **Inversion.**  `Yields m s a s'` says that `m` started in `s` finished with `a` in
  `s'`.  The `yields_*` equivalences peel a `do` block apart, one statement at a time.
* **Preservation.**  `Keeps I m` says that every finished run of `m` carries the
  predicate `I` from its first to its last state.  `Keeps` is closed under sequencing,
  branching and loops, so an invariant is proved statement by statement.
-/

namespace Foundation

/-- A transaction body over the state `σ` that may raise an error `ε`. -/
abbrev Tx (σ ε α : Type) : Type := StateT σ (Except ε) α

namespace Tx

variable {σ ε α β γ : Type}

def raiseIf (c : Prop) [Decidable c] (e : ε) : Tx σ ε Unit :=
  if c then throw e else pure ()

/-- Raise the error made from a diagnosis, if there is one. -/
def raiseSome (o : Option α) (e : α → ε) : Tx σ ε Unit :=
  match o with
  | some a => throw (e a)
  | none => pure ()

def orRaise (o : Option α) (e : ε) : Tx σ ε α :=
  match o with
  | some a => pure a
  | none => throw e

def whenever (c : Prop) [Decidable c] (m : Tx σ ε Unit) : Tx σ ε Unit :=
  if c then m else pure ()

/-- A read-only computation, run against the current state. -/
def reading (f : σ → Except ε α) : Tx σ ε α := do
  match f (← get) with
  | .ok a => pure a
  | .error e => throw e

/-- `BEGIN m EXCEPTION WHEN … THEN RAISE …`: rewrite the error, keep a finished run. -/
def mapError (f : ε → ε) (m : Tx σ ε α) : Tx σ ε α := fun s =>
  match m.run s with
  | .ok p => .ok p
  | .error e => .error (f e)

/-- Run `m` as one transaction: its writes become visible together, or not at all. -/
def commit (m : Tx σ ε α) (s : σ) : Except ε α × σ :=
  match m.run s with
  | .ok (a, s') => (.ok a, s')
  | .error e => (.error e, s)

theorem mapError_bind (f : ε → ε) (m : Tx σ ε α) (g : α → Tx σ ε β) :
    mapError f (m >>= g) = mapError f m >>= fun a => mapError f (g a) := by
  funext s
  simp only [mapError, Bind.bind, StateT.bind, StateT.run]
  cases m s with
  | error e => rfl
  | ok p => rfl

theorem mapError_mapError (f g : ε → ε) (m : Tx σ ε α) :
    mapError f (mapError g m) = mapError (f ∘ g) m := by
  funext s
  simp only [mapError, StateT.run]
  cases m s with
  | error e => rfl
  | ok p => rfl

theorem mapError_id (m : Tx σ ε α) : mapError id m = m := by
  funext s
  simp only [mapError, StateT.run]
  cases m s with
  | error e => rfl
  | ok p => rfl

/-! ## Inversion -/

/-- `m` started in `s` finishes with the result `a` in the state `s'`. -/
def Yields (m : Tx σ ε α) (s : σ) (a : α) (s' : σ) : Prop :=
  m.run s = .ok (a, s')

theorem exists_yields {m : Tx σ ε α} {s : σ} {P : α × σ → Bool}
    (h : (m.run s).toOption.any P = true) : ∃ a s', Yields m s a s' ∧ P (a, s') = true := by
  cases hrun : m.run s with
  | error e =>
    rw [hrun] at h
    cases h
  | ok r =>
    rw [hrun] at h
    exact ⟨r.1, r.2, hrun, h⟩

theorem yields_bind {m : Tx σ ε α} {f : α → Tx σ ε β} {s s' : σ} {b : β} :
    Yields (m >>= f) s b s' ↔ ∃ a s₁, Yields m s a s₁ ∧ Yields (f a) s₁ b s' := by
  unfold Yields
  rw [StateT.run_bind]
  cases hm : m.run s with
  | error e => simp [Bind.bind, Except.bind]
  | ok p =>
    obtain ⟨a, s₁⟩ := p
    simp [Bind.bind, Except.bind]

@[simp] theorem yields_pure {a b : α} {s s' : σ} :
    Yields (pure a : Tx σ ε α) s b s' ↔ b = a ∧ s' = s := by
  simp [Yields, pure, StateT.pure, Except.pure, StateT.run, eq_comm]

@[simp] theorem yields_throw {e : ε} {s s' : σ} {a : α} : ¬ Yields (throw e : Tx σ ε α) s a s' := by
  simp [Yields, throw, throwThe, MonadExceptOf.throw, StateT.run, StateT.lift, Bind.bind,
    Except.bind]

@[simp] theorem yields_get {s a s' : σ} : Yields (get : Tx σ ε σ) s a s' ↔ a = s ∧ s' = s := by
  simp [Yields, get, getThe, MonadStateOf.get, StateT.get, StateT.run, pure, Except.pure,
    eq_comm]

@[simp] theorem yields_modify {f : σ → σ} {s s' : σ} {u : PUnit} :
    Yields (modify f : Tx σ ε PUnit) s u s' ↔ s' = f s := by
  simp [Yields, modify, modifyGet, MonadStateOf.modifyGet, StateT.modifyGet, StateT.run, pure,
    Except.pure, eq_comm]

@[simp] theorem yields_raiseIf {c : Prop} [Decidable c] {e : ε} {s s' : σ} {u : Unit} :
    Yields (raiseIf c e : Tx σ ε Unit) s u s' ↔ ¬ c ∧ s' = s := by
  unfold raiseIf
  split <;> simp [*]

@[simp] theorem yields_orRaise {o : Option α} {e : ε} {s s' : σ} {a : α} :
    Yields (orRaise o e : Tx σ ε α) s a s' ↔ o = some a ∧ s' = s := by
  unfold orRaise
  cases o <;> simp [eq_comm]

@[simp] theorem yields_raiseSome {o : Option α} {e : α → ε} {s s' : σ} {u : Unit} :
    Yields (raiseSome o e : Tx σ ε Unit) s u s' ↔ o = none ∧ s' = s := by
  unfold raiseSome
  cases o <;> simp

@[simp] theorem yields_mapError {f : ε → ε} {m : Tx σ ε α} {s s' : σ} {a : α} :
    Yields (mapError f m) s a s' ↔ Yields m s a s' := by
  unfold Yields mapError
  cases h : m.run s <;> simp [StateT.run, show m s = _ from h]

@[simp] theorem yields_reading {f : σ → Except ε α} {s s' : σ} {a : α} :
    Yields (reading f) s a s' ↔ f s = .ok a ∧ s' = s := by
  unfold reading
  simp only [yields_bind, yields_get]
  constructor
  · rintro ⟨t, t', ⟨rfl, rfl⟩, h⟩
    cases hf : f t' with
    | ok b => rw [hf] at h; simp_all
    | error e => rw [hf] at h; simp at h
  · rintro ⟨hf, rfl⟩
    exact ⟨s', s', ⟨rfl, rfl⟩, by rw [hf]; simp⟩

theorem yields_whenever {c : Prop} [Decidable c] {m : Tx σ ε Unit} {s s' : σ} {u : Unit} :
    Yields (whenever c m) s u s' ↔ (c ∧ Yields m s u s') ∨ (¬ c ∧ s' = s) := by
  unfold whenever
  split <;> simp [*]

/-! The common first statements of a block, peeled off in one step. -/

theorem exists_punit {p : PUnit → Prop} : (∃ u, p u) ↔ p ⟨⟩ :=
  ⟨fun ⟨_, h⟩ => h, fun h => ⟨⟨⟩, h⟩⟩

@[simp] theorem yields_get_bind {f : σ → Tx σ ε β} {s s' : σ} {b : β} :
    Yields (get >>= f) s b s' ↔ Yields (f s) s b s' := by
  simp [yields_bind]

@[simp] theorem yields_modify_bind {g : σ → σ} {f : PUnit → Tx σ ε β} {s s' : σ} {b : β} :
    Yields (modify g >>= f) s b s' ↔ Yields (f ⟨⟩) (g s) b s' := by
  simp [yields_bind, exists_punit]

@[simp] theorem yields_raiseIf_bind {c : Prop} [Decidable c] {e : ε} {f : Unit → Tx σ ε β}
    {s s' : σ} {b : β} : Yields (raiseIf c e >>= f) s b s' ↔ ¬ c ∧ Yields (f ()) s b s' := by
  simp [yields_bind, exists_punit]

@[simp] theorem yields_orRaise_bind {o : Option α} {e : ε} {f : α → Tx σ ε β} {s s' : σ} {b : β} :
    Yields (orRaise o e >>= f) s b s' ↔ ∃ a, o = some a ∧ Yields (f a) s b s' := by
  simp [yields_bind]

@[simp] theorem yields_raiseSome_bind {o : Option α} {e : α → ε} {f : Unit → Tx σ ε β}
    {s s' : σ} {b : β} : Yields (raiseSome o e >>= f) s b s' ↔ o = none ∧ Yields (f ()) s b s' := by
  simp [yields_bind, exists_punit]

@[simp] theorem yields_reading_bind {g : σ → Except ε α} {f : α → Tx σ ε β} {s s' : σ} {b : β} :
    Yields (reading g >>= f) s b s' ↔ ∃ a, g s = .ok a ∧ Yields (f a) s b s' := by
  simp [yields_bind]

theorem commit_ok_iff {m : Tx σ ε α} {s s' : σ} {a : α} :
    commit m s = (.ok a, s') ↔ Yields m s a s' := by
  unfold commit Yields
  cases h : m.run s with
  | error e => simp
  | ok p => obtain ⟨b, t⟩ := p; simp

/-- **A raised error leaves the committed state alone.** -/
theorem commit_error {m : Tx σ ε α} {s s' : σ} {e : ε} (h : commit m s = (.error e, s')) :
    s' = s := by
  unfold commit at h
  cases hm : m.run s with
  | error e' => rw [hm] at h; simp_all
  | ok p => rw [hm] at h; simp at h

/-- A committed transaction either did what its body does or nothing. -/
theorem commit_cases (m : Tx σ ε α) (s : σ) :
    (∃ a, Yields m s a (commit m s).2) ∨ (commit m s).2 = s := by
  cases h : commit m s with
  | mk r s' =>
    cases r with
    | ok a => exact Or.inl ⟨a, commit_ok_iff.mp h⟩
    | error e => exact Or.inr (commit_error h)

/-! ## Preservation -/

/-- Every finished run of `m` carries `I` from its first to its last state. -/
def Keeps (I : σ → Prop) (m : Tx σ ε α) : Prop :=
  ∀ s a s', I s → Yields m s a s' → I s'

variable {I : σ → Prop}

theorem Keeps.pure (a : α) : Keeps I (Pure.pure a : Tx σ ε α) := by
  intro s b s' hI h
  rw [yields_pure] at h
  exact h.2 ▸ hI

theorem Keeps.throw (e : ε) : Keeps I (throw e : Tx σ ε α) :=
  fun _ _ _ _ h => absurd h yields_throw

theorem Keeps.get : Keeps I (get : Tx σ ε σ) := by
  intro s a s' hI h
  rw [yields_get] at h
  exact h.2 ▸ hI

theorem Keeps.raiseIf (c : Prop) [Decidable c] (e : ε) : Keeps I (Tx.raiseIf c e : Tx σ ε Unit) := by
  intro s a s' hI h
  rw [yields_raiseIf] at h
  exact h.2 ▸ hI

theorem Keeps.orRaise (o : Option α) (e : ε) : Keeps I (Tx.orRaise o e : Tx σ ε α) := by
  intro s a s' hI h
  rw [yields_orRaise] at h
  exact h.2 ▸ hI

theorem Keeps.mapError {f : ε → ε} {m : Tx σ ε α} (hm : Keeps I m) : Keeps I (Tx.mapError f m) := by
  intro s a s' hI h
  rw [yields_mapError] at h
  exact hm s a s' hI h

theorem Keeps.modify {f : σ → σ} (hf : ∀ s, I s → I (f s)) : Keeps I (modify f : Tx σ ε PUnit) := by
  intro s a s' hI h
  rw [yields_modify] at h
  exact h ▸ hf s hI

theorem Keeps.bind {m : Tx σ ε α} {f : α → Tx σ ε β} (hm : Keeps I m)
    (hf : ∀ a, Keeps I (f a)) : Keeps I (m >>= f) := by
  intro s b s' hI h
  obtain ⟨a, s₁, h₁, h₂⟩ := yields_bind.mp h
  exact hf a s₁ b s' (hm s a s₁ hI h₁) h₂

theorem Keeps.ite {c : Prop} [Decidable c] {m n : Tx σ ε α} (hm : Keeps I m)
    (hn : Keeps I n) : Keeps I (if c then m else n) := by
  split
  · exact hm
  · exact hn

theorem Keeps.whenever {c : Prop} [Decidable c] {m : Tx σ ε Unit} (hm : Keeps I m) :
    Keeps I (Tx.whenever c m) :=
  Keeps.ite hm (Keeps.pure ())

/-! ## Transactions built from statements -/

/-- `m` is put together from the statements in `S` by sequencing, with reads, guards and
    branches in between.  A class of transactions that is described once this way inherits
    every invariant of its statements (`Built.keeps`). -/
inductive Built (S : (α : Type) → Tx σ ε α → Prop) : {α : Type} → Tx σ ε α → Prop
  | statement {α : Type} {m : Tx σ ε α} (h : S α m) : Built S m
  | pure {α : Type} (a : α) : Built S (Pure.pure a)
  | throw {α : Type} (e : ε) : Built S (throw e : Tx σ ε α)
  | get : Built S (get : Tx σ ε σ)
  | bind {α β : Type} {m : Tx σ ε α} {f : α → Tx σ ε β} (hm : Built S m)
      (hf : ∀ a, Built S (f a)) : Built S (m >>= f)
  | mapError {α : Type} {f : ε → ε} {m : Tx σ ε α} (hm : Built S m) : Built S (mapError f m)

section Built

variable {S : (α : Type) → Tx σ ε α → Prop}

theorem Built.keeps (hS : ∀ (α : Type) (m : Tx σ ε α), S α m → Keeps I m) {m : Tx σ ε α}
    (h : Built S m) : Keeps I m := by
  induction h with
  | statement h => exact hS _ _ h
  | pure a => exact Keeps.pure a
  | throw e => exact Keeps.throw e
  | get => exact Keeps.get
  | bind _ _ ihm ihf => exact Keeps.bind ihm ihf
  | mapError _ ih => exact Keeps.mapError ih

theorem Built.mono {S' : (α : Type) → Tx σ ε α → Prop}
    (hSS : ∀ (α : Type) (m : Tx σ ε α), S α m → S' α m) {m : Tx σ ε α} (h : Built S m) :
    Built S' m := by
  induction h with
  | statement h => exact .statement (hSS _ _ h)
  | pure a => exact .pure a
  | throw e => exact .throw e
  | get => exact .get
  | bind _ _ ihm ihf => exact .bind ihm ihf
  | mapError _ ih => exact .mapError ih

theorem Built.flatten {S' : (α : Type) → Tx σ ε α → Prop}
    (hSS : ∀ (α : Type) (m : Tx σ ε α), S α m → Built S' m) {m : Tx σ ε α} (h : Built S m) :
    Built S' m := by
  induction h with
  | statement h => exact hSS _ _ h
  | pure a => exact .pure a
  | throw e => exact .throw e
  | get => exact .get
  | bind _ _ ihm ihf => exact .bind ihm ihf
  | mapError _ ih => exact .mapError ih

theorem Built.raiseIf (c : Prop) [Decidable c] (e : ε) :
    Built S (Tx.raiseIf c e : Tx σ ε Unit) := by
  unfold Tx.raiseIf
  split
  · exact .throw e
  · exact .pure ()

/-- What follows a guard may use that it did not raise. -/
theorem Built.guard {c : Prop} [Decidable c] {e : ε} {f : Unit → Tx σ ε α}
    (h : ¬ c → Built S (f ())) : Built S (Tx.raiseIf c e >>= f) := by
  by_cases hc : c
  · simpa [Tx.raiseIf, hc] using .throw e
  · simpa [Tx.raiseIf, hc] using h hc

theorem Built.orRaise (o : Option α) (e : ε) : Built S (Tx.orRaise o e : Tx σ ε α) := by
  cases o with
  | none => exact .throw e
  | some a => exact .pure a

theorem Built.raiseSome (o : Option α) (e : α → ε) : Built S (Tx.raiseSome o e : Tx σ ε Unit) := by
  cases o with
  | none => exact .pure ()
  | some a => exact .throw (e a)

theorem Built.reading (f : σ → Except ε α) : Built S (Tx.reading f) := by
  refine .bind .get fun s => ?_
  cases f s with
  | ok a => exact .pure a
  | error e => exact .throw e

theorem Built.ite {c : Prop} [Decidable c] {m n : Tx σ ε α} (hm : Built S m) (hn : Built S n) :
    Built S (if c then m else n) := by
  split
  · exact hm
  · exact hn

theorem Built.whenever {c : Prop} [Decidable c] {m : Tx σ ε Unit} (hm : Built S m) :
    Built S (Tx.whenever c m) :=
  Built.ite hm (.pure ())

theorem Built.forM {xs : List α} {f : α → Tx σ ε PUnit} (hf : ∀ x, Built S (f x)) :
    Built S (xs.forM f) := by
  induction xs with
  | nil => exact .pure _
  | cons x xs ih => exact .bind (hf x) fun _ => ih

end Built

/-! ## Frames -/

/-- `m` leaves the part `g` of the state as it was. -/
def Frames (g : σ → γ) (m : Tx σ ε α) : Prop :=
  ∀ s a s', Yields m s a s' → g s' = g s

theorem Frames.keeps {g : σ → γ} {m : Tx σ ε α} (h : Frames g m) (x : γ) :
    Keeps (fun s => g s = x) m :=
  fun s a s' hs hy => (h s a s' hy).trans hs

theorem frames_of_keeps {g : σ → γ} {m : Tx σ ε α} (h : ∀ x, Keeps (fun s => g s = x) m) :
    Frames g m :=
  fun s a s' hy => h (g s) s a s' rfl hy

end Tx

end Foundation
