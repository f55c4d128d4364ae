import Mathlib

/-!
# Transactions that wait for locks

The body of a transaction is a `Call`: it reads what it sees, draws numbers from sequences,
writes, and asks for locks, which it keeps to its end.  Finitely many transactions run at the
same time.  A read sees the committed state and the transaction's own writes on top of it; a
commit publishes the writes.  A request that conflicts with a lock of another transaction
has to wait.

`World.step` is one step of one transaction and can be evaluated; `Reach` is the set of worlds
that all interleavings lead to.  `World.Waits` is the graph of who waits for whom, and
`World.Deadlocked` says that it has a cycle.
-/

namespace Foundation.Locks

/-- The types of a system of transactions. -/
structure System where
  State : Type
  Write : Type
  Lock : Type
  Mode : Type
  Sequence : Type
  Error : Type

variable {S : System} {α β : Type}

theorem ite_imp_ite {c a b a' b' : Prop} [Decidable c] (ha : a → a') (hb : b → b')
    (h : if c then a else b) : if c then a' else b' := by
  by_cases hc : c
  · rw [if_pos hc] at h ⊢
    exact ha h
  · rw [if_neg hc] at h ⊢
    exact hb h

/-! ## 1. Bodies -/

inductive Call (S : System) (α : Type) : Type
  | pure (a : α)
  | raise (e : S.Error)
  | read (k : S.State → Call S α)
  | draw (q : S.Sequence) (k : Nat → Call S α)
  | write (x : S.Write) (k : Call S α)
  | lock (r : S.Lock) (m : S.Mode) (k : Call S α)

namespace Call

def bind : Call S α → (α → Call S β) → Call S β
  | .pure a, f => f a
  | .raise e, _ => .raise e
  | .read k, f => .read fun s => (k s).bind f
  | .draw q k, f => .draw q fun n => (k n).bind f
  | .write x k, f => .write x (k.bind f)
  | .lock r m k, f => .lock r m (k.bind f)

instance : Monad (Call S) where
  pure := .pure
  bind := bind

def view : Call S S.State := .read .pure

def next (q : S.Sequence) : Call S Nat := .draw q .pure

def emit (x : S.Write) : Call S Unit := .write x (.pure ())

def ask (r : S.Lock) (m : S.Mode) : Call S Unit := .lock r m (.pure ())

def orRaise (o : Option α) (e : S.Error) : Call S α :=
  match o with
  | some a => .pure a
  | none => .raise e

def ofExcept : Except S.Error α → Call S α
  | .ok a => .pure a
  | .error e => .raise e

def raiseIf (c : Prop) [Decidable c] (e : S.Error) : Call S Unit :=
  if c then .raise e else .pure ()

def whenever (c : Prop) [Decidable c] (p : Call S Unit) : Call S Unit :=
  if c then p else .pure ()

def each (f : β → Call S Unit) : List β → Call S Unit
  | [] => .pure ()
  | b :: bs => (f b).bind fun _ => each f bs

end Call

/-! ## 2. Worlds -/

/-- How writes change a state and how locks behave: which modes conflict, which mode is had
    with which other one, for which locks a request waits behind earlier requests that it
    conflicts with, and which locks are counted.  One that is not counted is had at once. -/
structure Engine (S : System) where
  apply : S.Write → S.State → S.State
  conflict : S.Mode → S.Mode → Bool
  covers : S.Mode → S.Mode → Bool
  queued : S.Lock → Bool
  counted : S.Lock → Bool
  conflict_symm : ∀ m m', conflict m m' = conflict m' m

abbrev Held (S : System) := List (S.Lock × S.Mode)

abbrev Drawn (S : System) := List (S.Sequence × Nat)

/-- A transaction in progress; `ticket` says since when it waits. -/
structure Tx (S : System) (α : Type) where
  call : Call S α
  held : Held S
  drawn : Drawn S
  writes : List S.Write
  ticket : Option Nat

structure World (n : Nat) (S : System) (α : Type) where
  committed : S.State
  tx : Fin n → Option (Tx S α)
  sequence : S.Sequence → Nat
  clock : Nat

variable (E : Engine S) {n : Nat}

def Engine.applyAll (xs : List S.Write) (s : S.State) : S.State :=
  xs.foldl (fun s x => E.apply x s) s

namespace World

def start (s : S.State) (sequence : S.Sequence → Nat) (calls : Fin n → Call S α) :
    World n S α :=
  ⟨s, fun i => some ⟨calls i, [], [], [], none⟩, sequence, 0⟩

def set (w : World n S α) (i : Fin n) (t : Tx S α) : World n S α :=
  { w with tx := Function.update w.tx i (some t) }

def drop (w : World n S α) (i : Fin n) : World n S α :=
  { w with tx := Function.update w.tx i none }

/-- Transaction `i` commits the given state. -/
def commit (w : World n S α) (i : Fin n) (s : S.State) : World n S α :=
  { w.drop i with committed := s }

section Lookup

variable {w : World n S α} {i j : Fin n} {t t' : Tx S α}

theorem tx_set (h : (w.set i t).tx j = some t') :
    (j = i ∧ t' = t) ∨ (j ≠ i ∧ w.tx j = some t') := by
  simp only [set] at h
  by_cases hj : j = i
  · subst hj
    rw [Function.update_self] at h
    exact Or.inl ⟨rfl, (Option.some.inj h).symm⟩
  · rw [Function.update_of_ne hj] at h
    exact Or.inr ⟨hj, h⟩

theorem forall_tx_set {P : Fin n → Tx S α → Prop} (hi : P i t)
    (h : ∀ j u, w.tx j = some u → P j u) : ∀ j u, (w.set i t).tx j = some u → P j u := by
  intro j u hu
  rcases tx_set hu with ⟨rfl, rfl⟩ | ⟨_, hu⟩
  · exact hi
  · exact h j u hu

theorem tx_drop (h : (w.drop i).tx j = some t') : j ≠ i ∧ w.tx j = some t' := by
  simp only [drop] at h
  by_cases hj : j = i
  · subst hj
    rw [Function.update_self] at h
    cases h
  · rw [Function.update_of_ne hj] at h
    exact ⟨hj, h⟩

end Lookup

end World

/-! ## 3. Steps -/

variable [DecidableEq S.Lock]

def Engine.covered (held : Held S) (r : S.Lock) (m : S.Mode) : Bool :=
  held.any fun h => h.1 = r && E.covers h.2 m

/-- The request has no effect: the lock is not counted, or had already. -/
def Engine.idle (held : Held S) (r : S.Lock) (m : S.Mode) : Bool :=
  !E.counted r || E.covered held r m

/-- The transaction holds the lock in a conflicting mode. -/
def Tx.holds (t : Tx S α) (r : S.Lock) (m : S.Mode) : Bool :=
  t.held.any fun h => h.1 = r && E.conflict h.2 m

/-- The transaction waits for the lock in a conflicting mode, and did so before. -/
def Tx.ahead (t : Tx S α) (r : S.Lock) (m : S.Mode) (ticket : Option Nat) : Bool :=
  match t.call, t.ticket with
  | .lock r' m' _, some place => r' = r && E.conflict m' m && ticket.all (place < ·)
  | _, _ => false

/-- Another transaction keeps the request of `i` from being granted. -/
def World.blocked (w : World n S α) (i : Fin n) (r : S.Lock) (m : S.Mode)
    (ticket : Option Nat) : Bool :=
  (List.finRange n).any fun j => j ≠ i && (w.tx j).any fun t =>
    t.holds E r m || E.queued r && t.ahead E r m ticket

/-- A request that is not idle: granted, made to wait, or still waiting. -/
def World.request (w : World n S α) (i : Fin n) (t : Tx S α) (r : S.Lock) (m : S.Mode)
    (k : Call S α) : Option (World n S α) :=
  if w.blocked E i r m t.ticket then
    if t.ticket.isSome then none
    else some { w.set i { t with ticket := some w.clock } with clock := w.clock + 1 }
  else some (w.set i { t with call := k, held := (r, m) :: t.held, ticket := none })

variable [DecidableEq S.Sequence]

/-- One step of transaction `i`: its next statement, its commit, or its rollback after an
    error. -/
def World.step (w : World n S α) (i : Fin n) : Option (World n S α) :=
  match w.tx i with
  | none => none
  | some t =>
    match t.call with
    | .pure _ => some (w.commit i (E.applyAll t.writes w.committed))
    | .raise _ => some (w.drop i)
    | .read k => some (w.set i { t with call := k (E.applyAll t.writes w.committed) })
    | .draw q k => some { w.set i { t with
          call := k (w.sequence q), drawn := (q, w.sequence q) :: t.drawn } with
        sequence := Function.update w.sequence q (w.sequence q + 1) }
    | .write x k => some (w.set i { t with call := k, writes := t.writes ++ [x] })
    | .lock r m k =>
      if E.idle t.held r m then some (w.set i { t with call := k }) else w.request E i t r m k

/-- The worlds that can be reached.  Any transaction may also be rolled back at any time. -/
inductive Reach (w₀ : World n S α) : World n S α → Prop
  | start : Reach w₀ w₀
  | step {w w' : World n S α} {i : Fin n} (h : Reach w₀ w) (hw : w.step E i = some w') :
      Reach w₀ w'
  | abort {w : World n S α} {i : Fin n} (h : Reach w₀ w) : Reach w₀ (w.drop i)

/-- Let the transactions of a schedule take one step each, in this order. -/
def World.run (w : World n S α) : List (Fin n) → Option (World n S α)
  | [] => some w
  | i :: schedule => (w.step E i).bind fun w' => w'.run schedule

theorem Reach.run {w₀ w w' : World n S α} {schedule : List (Fin n)} (h : Reach E w₀ w)
    (hrun : w.run E schedule = some w') : Reach E w₀ w' := by
  induction schedule generalizing w with
  | nil =>
    obtain rfl := Option.some.inj hrun
    exact h
  | cons i schedule ih =>
    obtain ⟨v, hv, hrest⟩ := Option.bind_eq_some_iff.mp hrun
    exact ih (h.step hv) hrest

theorem Reach.of_run {w : World n S α} {schedule : List (Fin n)} {p : World n S α → Bool}
    (h : (w.run E schedule).any p = true) : ∃ w', Reach E w w' ∧ p w' = true := by
  obtain ⟨w', hw, hp⟩ := (Option.any_eq_true _ _).mp h
  exact ⟨w', .run E .start hw, hp⟩

/-! ## 4. Who waits for whom -/

omit [DecidableEq S.Sequence] in
/-- Transaction `i` waits for a lock that `j` holds, or asked for before it. -/
def World.waits (w : World n S α) (i j : Fin n) : Bool :=
  i ≠ j && (w.tx i).any fun t => (w.tx j).any fun t' =>
    match t.call, t.ticket with
    | .lock r m _, some ticket => t'.holds E r m || t'.ahead E r m (some ticket)
    | _, _ => false

def World.Waits (w : World n S α) (i j : Fin n) : Prop := w.waits E i j = true

/-- Some transactions wait for each other in a circle. -/
def World.Deadlocked (w : World n S α) : Prop :=
  ∃ i, Relation.TransGen (w.Waits E) i i

omit [DecidableEq S.Sequence] in
theorem World.deadlocked_of_two {w : World n S α} {i j : Fin n} (hij : w.Waits E i j)
    (hji : w.Waits E j i) : w.Deadlocked E :=
  ⟨i, .tail (.single hij) hji⟩

omit [DecidableEq S.Sequence] in
theorem World.waits_iff {w : World n S α} {i j : Fin n} : w.Waits E i j ↔
    ∃ t t' r m k ticket, w.tx i = some t ∧ w.tx j = some t' ∧ i ≠ j ∧ t.call = .lock r m k ∧
      t.ticket = some ticket ∧ (t'.holds E r m = true ∨ t'.ahead E r m (some ticket) = true) := by
  unfold World.Waits World.waits
  constructor
  · intro h
    simp only [Bool.and_eq_true, decide_eq_true_eq, Option.any_eq_true] at h
    obtain ⟨hne, t, ht, t', ht', h⟩ := h
    split at h
    · rename_i r m k ticket hcall hticket
      exact ⟨t, t', r, m, k, ticket, ht, ht', hne, hcall, hticket, Bool.or_eq_true _ _ |>.mp h⟩
    · cases h
  · rintro ⟨t, t', r, m, k, ticket, ht, ht', hne, hcall, hticket, h⟩
    simp only [Bool.and_eq_true, decide_eq_true_eq, Option.any_eq_true]
    refine ⟨hne, t, ht, t', ht', ?_⟩
    rw [hcall, hticket]
    exact Bool.or_eq_true _ _ |>.mpr h

/-! ## 5. A body that runs alone -/

/-- What a body sees: the state, and the next number of each sequence. -/
abbrev Seen (S : System) := S.State × (S.Sequence → Nat)

omit [DecidableEq S.Lock] in
/-- The body on its own, where every lock is had at once: its result and what is seen after it,
    unless it raises an error. -/
def Call.alone : Call S α → Seen S → Option (α × Seen S)
  | .pure a, s => some (a, s)
  | .raise _, _ => none
  | .read k, s => (k s.1).alone s
  | .draw q k, s => (k (s.2 q)).alone (s.1, Function.update s.2 q (s.2 q + 1))
  | .write x k, s => k.alone (E.apply x s.1, s.2)
  | .lock _ _ k, s => k.alone s

omit [DecidableEq S.Lock] in
theorem Call.alone_bind (p : Call S α) (f : α → Call S β) (s : Seen S) :
    (p >>= f).alone E s = (p.alone E s).bind fun r => (f r.1).alone E r.2 := by
  change (p.bind f).alone E s = _
  induction p generalizing s with
  | pure a => rfl
  | raise e => rfl
  | read k ih => exact ih _ s
  | draw q k ih => exact ih _ _
  | write x k ih => exact ih _
  | lock r m k ih => exact ih s

/-- A transaction in a world of its own commits what its body does alone. -/
theorem Reach.alone {w₀ w : World 1 S α} {t : Tx S α} {r : α × Seen S} (hw : Reach E w₀ w)
    (ht : w.tx 0 = some t)
    (hr : t.call.alone E (E.applyAll t.writes w.committed, w.sequence) = some r) :
    ∃ w', Reach E w₀ w' ∧ w'.tx 0 = none ∧ (w'.committed, w'.sequence) = r.2 := by
  obtain ⟨call, held, drawn, writes, ticket⟩ := t
  have hstep := World.step.eq_1 E w 0
  rw [ht] at hstep
  induction call generalizing w held drawn writes ticket with
  | pure a =>
    obtain rfl := Option.some.inj hr
    exact ⟨_, hw.step hstep, rfl, rfl⟩
  | raise e => cases hr
  | read k ih => exact ih _ (hw.step hstep) _ _ _ _ rfl hr rfl
  | draw q k ih => exact ih _ (hw.step hstep) _ _ _ _ rfl hr rfl
  | write x k ih =>
    refine ih (hw.step hstep) _ _ _ _ rfl ?_ rfl
    rwa [Engine.applyAll, List.foldl_append]
  | lock r m k ih =>
    have hfree : w.blocked E 0 r m ticket = false := by
      simp [World.blocked]
    by_cases hidle : E.idle held r m
    · exact ih (hw.step (hstep.trans (if_pos hidle))) _ _ _ _ rfl hr rfl
    · refine ih (hw.step (hstep.trans ((if_neg hidle).trans (if_neg ?_)))) _ _ _ _ rfl hr rfl
      simp [hfree]

end Foundation.Locks
