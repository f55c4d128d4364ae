import Mathlib

/-!
# Transactions under READ COMMITTED

Several sessions work on one database at the same time.  Each statement of a session sees
the rows that the session has written itself, and of all other rows the version that was
committed last.  Before a statement writes a row it locks it, and the lock is held until
the session commits or aborts; a statement that needs a lock of another session waits, which
here means that its step cannot be taken yet.

States are read row by row, through a relation `Same x s t`: the states `s` and `t` have the
same row `x`.  Sequences are not transactional, `share` hands them around.

The module has two rules.  `Run.sound`: an invariant that every statement keeps *in the view
of its own session* holds of every committed state, provided that it is `Mergeable`: changes
of two sessions to different rows, each of which keeps it, keep it together.  `Run.knows`:
what a session has found out about rows stays true until it ends, provided that it is
`Stable`: it speaks of rows that the session has locked, or of what every session sees.
-/

namespace Foundation.ReadCommitted

universe u

/-- How states are read. -/
structure Rows (σ ι : Type) where
  Same : ι → σ → σ → Prop
  equiv : ∀ x, Equivalence (Same x)
  /-- The first state, with the sequences of the second. -/
  share : σ → σ → σ
  same_share : ∀ x s t, Same x (share s t) s

structure Session (σ ι : Type) (π : Type u) where
  /-- What its next statement sees. -/
  view : σ
  writes : Set ι
  locks : Set ι
  point : π

structure World (σ ι : Type) (π : Type u) where
  committed : σ
  session : Nat → Option (Session σ ι π)

/-- What a statement does: the state it leaves, the rows it writes, the rows it locks and
    the point that its session has reached. -/
structure Effect (σ ι : Type) (π : Type u) where
  view : σ
  writes : Set ι
  locks : Set ι
  point : π

variable {σ ι : Type} {π : Type u}

def World.locked (w : World σ ι π) (i : Nat) : Set ι :=
  {x | ∃ j v, j ≠ i ∧ w.session j = some v ∧ x ∈ v.locks}

def World.written (w : World σ ι π) (i : Nat) : Set ι :=
  {x | ∃ j v, j ≠ i ∧ w.session j = some v ∧ x ∈ v.writes}

/-- The rows of `W` as in `mine`, all others as in `base`. -/
def Rows.Overlay (R : Rows σ ι) (W : Set ι) (mine base s : σ) : Prop :=
  (∀ x ∈ W, R.Same x s mine) ∧ ∀ x ∉ W, R.Same x s base

def Session.apply (v : Session σ ι π) (e : Effect σ ι π) : Session σ ι π :=
  ⟨e.view, v.writes ∪ e.writes, v.locks ∪ e.locks, e.point⟩

/-- The world after a statement of session `i`. -/
def World.after (R : Rows σ ι) (w : World σ ι π) (i : Nat) (v : Session σ ι π)
    (e : Effect σ ι π) : World σ ι π where
  committed := R.share w.committed e.view
  session := fun j =>
    if j = i then some (v.apply e)
    else (w.session j).map fun v => { v with view := R.share v.view e.view }

def World.without (w : World σ ι π) (i : Nat) : World σ ι π :=
  { w with session := Function.update w.session i none }

def World.opening (w : World σ ι π) (i : Nat) (p : π) : World σ ι π :=
  { w with session := Function.update w.session i (some ⟨w.committed, ∅, ∅, p⟩) }

/-- A system of sessions: where they may start, where they may commit, and what their next
    statement can do.  A statement is told which rows others have locked and written. -/
structure System (σ ι : Type) (π : Type u) where
  rows : Rows σ ι
  Starts : π → Prop
  Done : π → Prop
  Exec : Set ι → Set ι → π → σ → Effect σ ι π → Prop

/-- One step of one session. -/
inductive System.Step (S : System σ ι π) (w : World σ ι π) : World σ ι π → Prop
  | start {i : Nat} {p : π} (hnew : w.session i = none) (hp : S.Starts p) :
      S.Step w (w.opening i p)
  | statement {i : Nat} {v : Session σ ι π} {e : Effect σ ι π} (hv : w.session i = some v)
      (he : S.Exec (w.locked i) (w.written i) v.point v.view e)
      (hframe : ∀ x ∉ e.writes, S.rows.Same x e.view v.view) (hheld : e.writes ⊆ e.locks)
      (hfree : Disjoint e.locks (w.locked i)) : S.Step w (w.after S.rows i v e)
  | commit {i : Nat} {v : Session σ ι π} {w' : World σ ι π} (hv : w.session i = some v)
      (hdone : S.Done v.point) (hcommitted : w'.committed = v.view) (hi : w'.session i = none)
      (hnone : ∀ j, w.session j = none → w'.session j = none)
      (hsome : ∀ j v', j ≠ i → w.session j = some v' → ∃ s,
        w'.session j = some { v' with view := s } ∧
          S.rows.Overlay v'.writes v'.view v.view s) :
      S.Step w w'
  | abort {i : Nat} : S.Step w (w.without i)

/-- The worlds reached from `w₀` by steps that all satisfy `ok`. -/
inductive System.Run (S : System σ ι π) (ok : World σ ι π → World σ ι π → Prop)
    (w₀ : World σ ι π) : World σ ι π → Prop
  | start : S.Run ok w₀ w₀
  | step {w w' : World σ ι π} (h : S.Run ok w₀ w) (hs : S.Step w w') (ha : ok w w') :
      S.Run ok w₀ w'

/-! ## Invariants -/

/-- Two sets of changes to `c`, to the rows of `X` and to other rows, keep `I` together if
    each keeps it alone. -/
def Rows.Mergeable (R : Rows σ ι) (I : σ → Prop) : Prop :=
  ∀ (X Y : Set ι) (c a b m : σ), Disjoint X Y → (∀ x ∉ X, R.Same x a c) →
    (∀ x ∉ Y, R.Same x b c) → R.Overlay X a b m → I c → I a → I b → I m

/-- What a system keeps: the invariant in every view, and the locking protocol. -/
structure World.Sound (R : Rows σ ι) (I : σ → Prop) (w : World σ ι π) : Prop where
  committed : I w.committed
  view : ∀ {i v}, w.session i = some v → I v.view
  agrees : ∀ {i v}, w.session i = some v → ∀ x ∉ v.writes, R.Same x v.view w.committed
  held : ∀ {i v}, w.session i = some v → v.writes ⊆ v.locks
  exclusive : ∀ {i j v v'}, i ≠ j → w.session i = some v → w.session j = some v' →
    Disjoint v.locks v'.locks

theorem World.sound_idle {R : Rows σ ι} {I : σ → Prop} {s : σ} (h : I s) :
    (⟨s, fun _ => none⟩ : World σ ι π).Sound R I where
  committed := h
  view := fun hv => absurd hv (by simp)
  agrees := fun hv => absurd hv (by simp)
  held := fun hv => absurd hv (by simp)
  exclusive := fun _ hv => absurd hv (by simp)

section Steps

variable {R : Rows σ ι} {I : σ → Prop} {w : World σ ι π} {i : Nat}

theorem World.session_opening {p : π} {j : Nat} {v : Session σ ι π}
    (h : (w.opening i p).session j = some v) :
    (j = i ∧ v = ⟨w.committed, ∅, ∅, p⟩) ∨ (j ≠ i ∧ w.session j = some v) := by
  simp only [World.opening] at h
  by_cases hj : j = i
  · subst hj
    rw [Function.update_self] at h
    exact Or.inl ⟨rfl, (Option.some.inj h).symm⟩
  · rw [Function.update_of_ne hj] at h
    exact Or.inr ⟨hj, h⟩

theorem World.session_without {j : Nat} {v : Session σ ι π}
    (h : (w.without i).session j = some v) : w.session j = some v := by
  simp only [World.without] at h
  by_cases hj : j = i
  · subst hj
    rw [Function.update_self] at h
    exact absurd h (by simp)
  · rwa [Function.update_of_ne hj] at h

theorem World.session_after {v v' : Session σ ι π} {e : Effect σ ι π} {j : Nat}
    (h : (w.after R i v e).session j = some v') : (j = i ∧ v' = v.apply e) ∨
      (j ≠ i ∧ ∃ v₀, w.session j = some v₀ ∧ v' = { v₀ with view := R.share v₀.view e.view }) := by
  simp only [World.after] at h
  by_cases hj : j = i
  · simp only [hj, if_true] at h
    exact Or.inl ⟨hj, (Option.some.inj h).symm⟩
  · simp only [hj, if_false] at h
    obtain ⟨v₀, hv₀, rfl⟩ := Option.map_eq_some_iff.mp h
    exact Or.inr ⟨hj, v₀, hv₀, rfl⟩

theorem World.Sound.opening (h : w.Sound R I) (p : π) : (w.opening i p).Sound R I := by
  constructor
  · exact h.committed
  · intro j v hv
    rcases World.session_opening hv with ⟨_, rfl⟩ | ⟨_, hv⟩
    · exact h.committed
    · exact h.view hv
  · intro j v hv x hx
    rcases World.session_opening hv with ⟨_, rfl⟩ | ⟨_, hv⟩
    · exact (R.equiv x).refl _
    · exact h.agrees hv x hx
  · intro j v hv
    rcases World.session_opening hv with ⟨_, rfl⟩ | ⟨_, hv⟩
    · exact subset_rfl
    · exact h.held hv
  · intro j j' v v' hne hv hv'
    rcases World.session_opening hv with ⟨_, rfl⟩ | ⟨_, hv⟩
    · exact Set.empty_disjoint _
    · rcases World.session_opening hv' with ⟨_, rfl⟩ | ⟨_, hv'⟩
      · exact Set.disjoint_empty _
      · exact h.exclusive hne hv hv'

theorem World.Sound.without (h : w.Sound R I) : (w.without i).Sound R I where
  committed := h.committed
  view := fun hv => h.view (World.session_without hv)
  agrees := fun hv => h.agrees (World.session_without hv)
  held := fun hv => h.held (World.session_without hv)
  exclusive := fun hne hv hv' =>
    h.exclusive hne (World.session_without hv) (World.session_without hv')

theorem World.Sound.disjoint_locked (h : w.Sound R I) {v : Session σ ι π}
    (hv : w.session i = some v) : Disjoint v.locks (w.locked i) := by
  rw [Set.disjoint_left]
  rintro x hx ⟨j, v', hj, hv', hx'⟩
  exact Set.disjoint_left.mp (h.exclusive hj.symm hv hv') hx hx'

theorem World.Sound.after (h : w.Sound R I) (hshare : ∀ s t, I s → I (R.share s t))
    {v : Session σ ι π} {e : Effect σ ι π} (hv : w.session i = some v) (he : I e.view)
    (hframe : ∀ x ∉ e.writes, R.Same x e.view v.view) (hheld : e.writes ⊆ e.locks)
    (hfree : Disjoint e.locks (w.locked i)) : (w.after R i v e).Sound R I := by
  have hlocks : Disjoint (v.locks ∪ e.locks) (w.locked i) :=
    Set.disjoint_union_left.mpr ⟨h.disjoint_locked hv, hfree⟩
  constructor
  · exact hshare _ _ h.committed
  · intro j v' hv'
    rcases World.session_after hv' with ⟨_, rfl⟩ | ⟨_, v₀, hv₀, rfl⟩
    · exact he
    · exact hshare _ _ (h.view hv₀)
  · intro j v' hv' x hx
    have hbase : R.Same x w.committed (w.after R i v e).committed :=
      (R.equiv x).symm (R.same_share x _ _)
    rcases World.session_after hv' with ⟨_, rfl⟩ | ⟨_, v₀, hv₀, rfl⟩
    · have hold := h.agrees hv x fun hw => hx (Or.inl hw)
      have hnew := hframe x fun hw => hx (Or.inr hw)
      exact (R.equiv x).trans hnew ((R.equiv x).trans hold hbase)
    · have hold := h.agrees hv₀ x hx
      exact (R.equiv x).trans (R.same_share x _ _) ((R.equiv x).trans hold hbase)
  · intro j v' hv'
    rcases World.session_after hv' with ⟨_, rfl⟩ | ⟨_, v₀, hv₀, rfl⟩
    · exact Set.union_subset_union (h.held hv) hheld
    · have hsub : v₀.writes ⊆ v₀.locks := h.held hv₀
      exact hsub
  · intro j j' v₁ v₂ hne hv₁ hv₂
    rcases World.session_after hv₁ with ⟨rfl, rfl⟩ | ⟨hj, u₁, hu₁, rfl⟩
    · rcases World.session_after hv₂ with ⟨rfl, _⟩ | ⟨hj', u₂, hu₂, rfl⟩
      · exact absurd rfl hne
      · have hsub : u₂.locks ⊆ w.locked j := fun x hx => ⟨j', u₂, hj', hu₂, hx⟩
        exact hlocks.mono_right hsub
    · rcases World.session_after hv₂ with ⟨rfl, rfl⟩ | ⟨hj', u₂, hu₂, rfl⟩
      · have hsub : u₁.locks ⊆ w.locked j' := fun x hx => ⟨j, u₁, hj, hu₁, hx⟩
        exact (hlocks.mono_right hsub).symm
      · have hdisj : Disjoint u₁.locks u₂.locks := h.exclusive hne hu₁ hu₂
        exact hdisj

theorem session_committed {w' : World σ ι π} {v : Session σ ι π} (hi : w'.session i = none)
    (hnone : ∀ j, w.session j = none → w'.session j = none)
    (hsome : ∀ j v', j ≠ i → w.session j = some v' → ∃ s,
      w'.session j = some { v' with view := s } ∧ R.Overlay v'.writes v'.view v.view s)
    {j : Nat} {u : Session σ ι π} (hu : w'.session j = some u) :
    j ≠ i ∧ ∃ v', w.session j = some v' ∧ u.writes = v'.writes ∧ u.locks = v'.locks ∧
      u.point = v'.point ∧ R.Overlay v'.writes v'.view v.view u.view := by
  have hj : j ≠ i := by
    rintro rfl
    rw [hi] at hu
    exact absurd hu (by simp)
  refine ⟨hj, ?_⟩
  cases hw : w.session j with
  | none =>
    rw [hnone j hw] at hu
    exact absurd hu (by simp)
  | some v' =>
    obtain ⟨s, hs, hover⟩ := hsome j v' hj hw
    rw [hs] at hu
    obtain rfl := Option.some.inj hu
    exact ⟨v', rfl, rfl, rfl, rfl, hover⟩

/-- **Commit.**  The committed changes and those of any other session are to different
    rows, so the view of the other session stays sound. -/
theorem World.Sound.commit (h : w.Sound R I) (hmerge : R.Mergeable I) {w' : World σ ι π}
    {v : Session σ ι π} (hv : w.session i = some v) (hcommitted : w'.committed = v.view)
    (hi : w'.session i = none) (hnone : ∀ j, w.session j = none → w'.session j = none)
    (hsome : ∀ j v', j ≠ i → w.session j = some v' → ∃ s,
      w'.session j = some { v' with view := s } ∧ R.Overlay v'.writes v'.view v.view s) :
    w'.Sound R I := by
  constructor
  · rw [hcommitted]
    exact h.view hv
  · intro j u hu
    obtain ⟨hj, v', hv', _, _, _, hover⟩ := session_committed hi hnone hsome hu
    have hdisj : Disjoint v'.writes v.writes :=
      (h.exclusive hj hv' hv).mono (h.held hv') (h.held hv)
    exact hmerge v'.writes v.writes _ _ _ _ hdisj (h.agrees hv') (h.agrees hv) hover h.committed
      (h.view hv') (h.view hv)
  · intro j u hu x hx
    obtain ⟨_, v', _, hwrites, _, _, hover⟩ := session_committed hi hnone hsome hu
    rw [hcommitted]
    exact hover.2 x (hwrites ▸ hx)
  · intro j u hu
    obtain ⟨_, v', hv', hwrites, hlocks, _, _⟩ := session_committed hi hnone hsome hu
    rw [hwrites, hlocks]
    exact h.held hv'
  · intro j j' u u' hne hu hu'
    obtain ⟨_, v₁, hv₁, _, hlocks, _, _⟩ := session_committed hi hnone hsome hu
    obtain ⟨_, v₂, hv₂, _, hlocks', _, _⟩ := session_committed hi hnone hsome hu'
    rw [hlocks, hlocks']
    exact h.exclusive hne hv₁ hv₂

end Steps

section Runs

variable {S : System σ ι π} {I : σ → Prop}

theorem System.Step.sound {w w' : World σ ι π} (hmerge : S.rows.Mergeable I)
    (hshare : ∀ s t, I s → I (S.rows.share s t))
    (hexec : ∀ locked written p s e, S.Exec locked written p s e → I s → I e.view)
    (hs : S.Step w w') (h : w.Sound S.rows I) : w'.Sound S.rows I := by
  cases hs with
  | start hnew hp => exact h.opening _
  | statement hv he hframe hheld hfree =>
    exact h.after hshare hv (hexec _ _ _ _ _ he (h.view hv)) hframe hheld hfree
  | commit hv hdone hcommitted hi hnone hsome =>
    exact h.commit hmerge hv hcommitted hi hnone hsome
  | abort => exact h.without

/-- **Invariants of concurrent runs.** -/
theorem System.Run.sound {ok : World σ ι π → World σ ι π → Prop} {w₀ w : World σ ι π}
    (hmerge : S.rows.Mergeable I) (hshare : ∀ s t, I s → I (S.rows.share s t))
    (hexec : ∀ locked written p s e, S.Exec locked written p s e → I s → I e.view)
    (h₀ : w₀.Sound S.rows I) (h : S.Run ok w₀ w) : w.Sound S.rows I := by
  induction h with
  | start => exact h₀
  | step _ hs _ ih => exact hs.sound hmerge hshare hexec ih

theorem System.Run.trans {ok : World σ ι π → World σ ι π → Prop} {w₀ w₁ w₂ : World σ ι π}
    (h₁ : S.Run ok w₀ w₁) (h₂ : S.Run ok w₁ w₂) : S.Run ok w₀ w₂ := by
  induction h₂ with
  | start => exact h₁
  | step _ hs ha ih => exact .step ih hs ha

theorem System.Run.mono {ok ok' : World σ ι π → World σ ι π → Prop} {w₀ w : World σ ι π}
    (hok : ∀ w w', ok w w' → ok' w w') (h : S.Run ok w₀ w) : S.Run ok' w₀ w := by
  induction h with
  | start => exact .start
  | step _ hs ha ih => exact .step ih hs (hok _ _ ha)

end Runs

/-! ## What a session knows -/

/-- Other sessions cannot break what a session knows, `J`, of itself and of the committed
    state: they change no row that it has locked, and what it has not written it sees as it
    is committed. -/
def Rows.Stable (R : Rows σ ι) (J : Session σ ι π → σ → Prop) : Prop :=
  ∀ (v : Session σ ι π) (s c c' : σ), J v c → v.writes ⊆ v.locks →
    (∀ x ∈ v.locks, R.Same x c' c) → R.Overlay v.writes v.view c' s → J { v with view := s } c'

/-- Every session knows `J`. -/
def World.Knows (J : Session σ ι π → σ → Prop) (w : World σ ι π) : Prop :=
  ∀ {i v}, w.session i = some v → J v w.committed

/-- The statements of a session keep what it knows. -/
def System.Keeps (S : System σ ι π) (J : Session σ ι π → σ → Prop) : Prop :=
  ∀ (locked written : Set ι) (v : Session σ ι π) (c : σ) (e : Effect σ ι π),
    S.Exec locked written v.point v.view e → (∀ x ∉ v.writes, S.rows.Same x v.view c) →
    J v c → J (v.apply e) c

section Knowledge

variable {S : System σ ι π} {I : σ → Prop} {J : Session σ ι π → σ → Prop} {w w' : World σ ι π}

theorem World.Sound.overlay_share (h : w.Sound S.rows I) {i : Nat} {v : Session σ ι π}
    (hv : w.session i = some v) (t : σ) :
    S.rows.Overlay v.writes v.view (S.rows.share w.committed t) (S.rows.share v.view t) := by
  constructor
  · intro x _
    exact S.rows.same_share x _ _
  · intro x hx
    have hback := (S.rows.equiv x).symm (S.rows.same_share x w.committed t)
    have hagrees := h.agrees hv x hx
    exact (S.rows.equiv x).trans (S.rows.same_share x _ _) ((S.rows.equiv x).trans hagrees hback)

/-- **One step.** -/
theorem System.Step.knows (hstable : S.rows.Stable J)
    (hopen : ∀ p c, S.Starts p → J ⟨c, ∅, ∅, p⟩ c) (hkeeps : S.Keeps J)
    (hsound : w.Sound S.rows I) (hsound' : w'.Sound S.rows I) (hs : S.Step w w')
    (h : w.Knows J) : w'.Knows J := by
  intro j u hu
  cases hs with
  | start hnew hp =>
    rcases World.session_opening hu with ⟨_, rfl⟩ | ⟨_, hu⟩
    · exact hopen _ _ hp
    · exact h hu
  | @statement i v e hv he hframe hheld hfree =>
    have hrows : ∀ x, S.rows.Same x (S.rows.share w.committed e.view) w.committed :=
      fun x => S.rows.same_share x _ _
    have hu₀ := hu
    rcases World.session_after hu with ⟨_, rfl⟩ | ⟨_, v₀, hv₀, rfl⟩
    · have hown := hkeeps _ _ v w.committed e he (hsound.agrees hv) (h hv)
      exact hstable _ _ _ _ hown (hsound'.held hu₀) (fun x _ => hrows x)
        ⟨fun x _ => (S.rows.equiv x).refl _, hsound'.agrees hu₀⟩
    · exact hstable v₀ _ _ _ (h hv₀) (hsound.held hv₀) (fun x _ => hrows x)
        (hsound.overlay_share hv₀ _)
  | @commit i v w' hv hdone hcommitted hi hnone hsome =>
    obtain ⟨hj, v', hv', hwrites, hlocks, hpoint, hover⟩ := session_committed hi hnone hsome hu
    have hsame : ∀ x ∈ v'.locks, S.rows.Same x v.view w.committed := by
      intro x hx
      apply hsound.agrees hv
      intro hw
      exact Set.disjoint_left.mp (hsound.exclusive hj hv' hv) hx (hsound.held hv hw)
    have hnew := hstable v' u.view _ _ (h hv') (hsound.held hv') hsame hover
    rw [hcommitted]
    have hu : { v' with view := u.view } = u := by
      cases u
      simp_all
    rwa [hu] at hnew
  | abort => exact h (World.session_without hu)

/-- **What sessions know, along a run.** -/
theorem System.Run.knows {ok : World σ ι π → World σ ι π → Prop} {w₀ : World σ ι π}
    (hstable : S.rows.Stable J) (hopen : ∀ p c, S.Starts p → J ⟨c, ∅, ∅, p⟩ c)
    (hkeeps : S.Keeps J) (h₀ : w₀.Sound S.rows fun _ => True) (hknows : w₀.Knows J)
    (h : S.Run ok w₀ w) : w.Knows J := by
  have hsound : ∀ {w}, S.Run ok w₀ w → w.Sound S.rows fun _ => True := fun hrun =>
    hrun.sound (fun _ _ _ _ _ _ _ _ _ _ _ _ _ => trivial) (fun _ _ _ => trivial)
      (fun _ _ _ _ _ _ _ => trivial) h₀
  induction h with
  | start => exact hknows
  | step hrun hs ha ih =>
    exact hs.knows hstable hopen hkeeps (hsound hrun) (hsound (.step hrun hs ha)) ih

end Knowledge

/-! ## Two sessions -/

section Pair

variable {S : System σ ι π} {c : σ} {a b : Option (Session σ ι π)} {v : Session σ ι π}

/-- Sessions 0 and 1, or one of them, or none. -/
def World.pair (c : σ) (a b : Option (Session σ ι π)) : World σ ι π :=
  ⟨c, fun
    | 0 => a
    | 1 => b
    | _ => none⟩

theorem World.eq_pair {w : World σ ι π} (h : ∀ j, w.session (j + 2) = none) :
    w = .pair w.committed (w.session 0) (w.session 1) :=
  congrArg (World.mk w.committed) (funext fun
    | 0 => rfl
    | 1 => rfl
    | j + 2 => h j)

theorem World.others_pair {i k : Nat} (hik : i + k = 1) (f : Session σ ι π → Set ι) :
    {x | ∃ j v, j ≠ i ∧ (World.pair c a b).session j = some v ∧ x ∈ f v}
      = ((World.pair c a b).session k).elim ∅ f := by
  ext x
  constructor
  · rintro ⟨j, v, hj, hv, hx⟩
    by_cases hjk : j = k
    · subst hjk
      rw [hv]
      exact hx
    · have hnone : (World.pair c a b).session j = none := by
        match j with
        | 0 | 1 => omega
        | j + 2 => rfl
      rw [hnone] at hv
      cases hv
  · cases hk : (World.pair c a b).session k with
    | none => exact False.elim
    | some v => exact fun hx => ⟨k, v, by omega, hk, hx⟩

theorem System.Step.start_zero {p : π} (hp : S.Starts p) :
    S.Step ⟨c, fun _ => none⟩ (.pair c (some ⟨c, ∅, ∅, p⟩) none) :=
  World.eq_pair (w := World.opening ⟨c, fun _ => none⟩ 0 p) (fun _ => rfl) ▸ .start rfl hp

theorem System.Step.start_one {p : π} (hp : S.Starts p) :
    S.Step (.pair c a none) (.pair c a (some ⟨c, ∅, ∅, p⟩)) :=
  World.eq_pair (w := (World.pair c a none).opening 1 p) (fun _ => rfl) ▸ .start rfl hp

section Statement

variable {e : Effect σ ι π} (hframe : ∀ x ∉ e.writes, S.rows.Same x e.view v.view)
  (hheld : e.writes ⊆ e.locks)

include hframe hheld

theorem System.Step.statement_zero
    (he : S.Exec (b.elim ∅ Session.locks) (b.elim ∅ Session.writes) v.point v.view e)
    (hfree : Disjoint e.locks (b.elim ∅ Session.locks)) :
    S.Step (.pair c (some v) b) (.pair (S.rows.share c e.view) (some (v.apply e))
      (b.map fun u => { u with view := S.rows.share u.view e.view })) := by
  have hothers := World.others_pair (c := c) (a := some v) (b := b) (i := 0) (k := 1) rfl
  refine World.eq_pair (w := (World.pair c (some v) b).after S.rows 0 v e) (fun _ => rfl) ▸
    .statement rfl ?_ hframe hheld ?_
  · rwa [World.locked, World.written, hothers, hothers]
  · rwa [World.locked, hothers]

theorem System.Step.statement_one
    (he : S.Exec (a.elim ∅ Session.locks) (a.elim ∅ Session.writes) v.point v.view e)
    (hfree : Disjoint e.locks (a.elim ∅ Session.locks)) :
    S.Step (.pair c a (some v)) (.pair (S.rows.share c e.view)
      (a.map fun u => { u with view := S.rows.share u.view e.view }) (some (v.apply e))) := by
  have hothers := World.others_pair (c := c) (a := a) (b := some v) (i := 1) (k := 0) rfl
  refine World.eq_pair (w := (World.pair c a (some v)).after S.rows 1 v e) (fun _ => rfl) ▸
    .statement rfl ?_ hframe hheld ?_
  · rwa [World.locked, World.written, hothers, hothers]
  · rwa [World.locked, hothers]

end Statement

theorem System.Step.commit_zero (hdone : S.Done v.point) :
    S.Step (.pair c (some v) none) ⟨v.view, fun _ => none⟩ := by
  refine .commit (i := 0) rfl hdone rfl rfl (fun _ _ => rfl) ?_
  rintro (_ | _ | j) u hj hu
  · exact absurd rfl hj
  · cases hu
  · cases hu

/-- Session 1 commits, and session 0, which has written nothing, sees what it left. -/
theorem System.Step.commit_one {t : σ} {p : π} {L : Set ι} (hdone : S.Done v.point) :
    S.Step (.pair c (some ⟨t, ∅, L, p⟩) (some v)) (.pair v.view (some ⟨v.view, ∅, L, p⟩) none) := by
  refine .commit (i := 1) rfl hdone rfl rfl ?_ ?_
  · rintro (_ | _ | j) hj
    · cases hj
    · rfl
    · rfl
  · rintro (_ | _ | j) u hj hu
    · cases hu
      exact ⟨v.view, rfl, fun x hx => hx.elim, fun x _ => (S.rows.equiv x).refl _⟩
    · exact absurd rfl hj
    · cases hu

end Pair

end Foundation.ReadCommitted
